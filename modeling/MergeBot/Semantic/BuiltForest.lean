import MergeBot.Semantic.BuiltGraph

/-!
# A graph that is built is a forest

`Built` is what every action of a builder keeps: the vertices are numbered from zero in the order
in which they have been made; every child but an access specifier is a vertex with its parent as
the source of its only edge; no node is a child of two nodes, and a child is made later than its
parent. `build_built` says it of the graph of any sources.
-/

namespace MergeBot

open Foundation

namespace GraphBuilder

/-- The object of an access specifier. -/
def labelNode : SemanticNode :=
  { id := -1, needToMerge := false, kind := .accessSpecifier, isSynthetic := true }

/-- What holds of the objects made since `start`, and of the graph. -/
structure Built (start : NodeRef) (builder : GraphBuilder) : Prop where
  started : start ≤ builder.nextRef
  sorted : builder.vertices.Pairwise (· < ·)
  bounds : ∀ ref ∈ builder.vertices, start ≤ ref ∧ ref < builder.nextRef
  /-- What is no vertex is an access specifier. -/
  whole : ∀ ref, start ≤ ref → ref < builder.nextRef →
    ref ∈ builder.vertices ∨ builder.heap ref = labelNode
  count : builder.nodeCount = builder.vertices.length
  ids : ∀ (place : Nat) (ref : NodeRef), builder.vertices[place]? = some ref →
    (builder.heap ref).id = (place : Int)
  real : ∀ ref ∈ builder.vertices,
    (builder.heap ref).isSynthetic = false ∧ (builder.heap ref).kind ≠ .accessSpecifier
  child : ∀ parent ∈ builder.vertices, ∀ child ∈ (builder.heap parent).children,
    parent < child ∧ child < builder.nextRef ∧
      (child ∈ builder.vertices ∧ (builder.heap child).parent = some parent ∨
        child ∉ builder.vertices ∧ builder.heap child = labelNode)
  siblings : ∀ parent ∈ builder.vertices, (builder.heap parent).children.Pairwise (· < ·)
  parent : ∀ child ∈ builder.vertices, ∀ parent, (builder.heap child).parent = some parent →
    parent ∈ builder.vertices ∧ child ∈ (builder.heap parent).children
  single : ∀ first ∈ builder.vertices, ∀ second ∈ builder.vertices,
    ∀ child ∈ (builder.heap first).children, child ∈ (builder.heap second).children →
      first = second

/-- The edges lead from the parents to their children, in the order of the children. -/
structure EdgesBuilt (builder : GraphBuilder) : Prop where
  count : builder.edgeCount = builder.edges.length
  ids : ∀ (place : Nat) (edge : ContainEdge), builder.edges[place]? = some edge →
    edge.id = place
  sorted : (builder.edges.map ContainEdge.target).Pairwise (· < ·)
  sound : ∀ edge ∈ builder.edges, ∃ parent child,
    builder.vertices[edge.source]? = some parent ∧ builder.vertices[edge.target]? = some child ∧
      (builder.heap child).parent = some parent
  complete : ∀ (place : Nat) (child : NodeRef), builder.vertices[place]? = some child →
    (builder.heap child).parent.isSome → ∃ edge ∈ builder.edges, edge.target = place

/-! ## Access -/

section Access

variable {specifierText : NodeRef → Text} (heap : Heap)

/-- Only the access of nodes is set. -/
theorem setAccess_view {β : Type} (view : SemanticNode → β)
    (blind : ∀ record access, view { record with accessSpecifier := access } = view record)
    (accessKind : AccessSpecifierKind) (children : List NodeRef) (ref : NodeRef) :
    view (TypeDeclNode.setAccess specifierText heap accessKind children ref) =
      view (heap ref) := by
  induction children generalizing heap accessKind with
  | nil => rfl
  | cons child rest inductionHypothesis =>
    rw [TypeDeclNode.setAccess]
    split
    · rw [inductionHypothesis]
      by_cases same : ref = child
      · rw [same, Heap.update_self, blind]
      · rw [Heap.update_other same]
    · exact inductionHypothesis ..

theorem setMemberAccess_view {β : Type} (view : SemanticNode → β)
    (blind : ∀ record access, view { record with accessSpecifier := access } = view record)
    (type ref : NodeRef) :
    view (TypeDeclNode.setMemberAccessSpecifier specifierText heap type ref) =
      view (heap ref) := by
  cases shape : (heap type).children with
  | nil => rw [TypeDeclNode.setMemberAccessSpecifier, shape]
  | cons firstChild rest =>
    obtain ⟨accessKind, called⟩ :=
      @TypeDeclNode.setMemberAccessSpecifier_cons specifierText heap type firstChild rest shape
    rw [called, setAccess_view heap view blind]

/-- A node differs in its access at most. -/
theorem setMemberAccess_record (type ref : NodeRef) :
    ∃ access, TypeDeclNode.setMemberAccessSpecifier specifierText heap type ref =
      { heap ref with accessSpecifier := access } := by
  have blind := @setMemberAccess_view specifierText heap _
    (fun record => { record with accessSpecifier := .none }) (fun _ _ => rfl) type ref
  let access := (TypeDeclNode.setMemberAccessSpecifier specifierText heap type ref).accessSpecifier
  exact ⟨access,
    congrArg (fun record : SemanticNode => { record with accessSpecifier := access }) blind⟩

/-- Access specifiers have no access. -/
theorem setMemberAccess_label {ref : NodeRef} (isLabel : (heap ref).kind = .accessSpecifier)
    (type : NodeRef) :
    TypeDeclNode.setMemberAccessSpecifier specifierText heap type ref = heap ref := by
  have loop : ∀ (children : List NodeRef) (heap : Heap) (accessKind : AccessSpecifierKind),
      (heap ref).kind = .accessSpecifier →
        TypeDeclNode.setAccess specifierText heap accessKind children ref = heap ref := by
    intro children
    induction children with
    | nil => exact fun _ _ _ => rfl
    | cons child rest inductionHypothesis =>
      intro heap accessKind isLabel
      rw [TypeDeclNode.setAccess]
      split
      · rename_i isMember
        have apart : ref ≠ child := fun same => isMember (same ▸ isLabel)
        have same : heap.update child { heap child with accessSpecifier := accessKind } ref =
            heap ref := Heap.update_other apart
        rw [inductionHypothesis _ _ (by rw [same]; exact isLabel), same]
      · exact inductionHypothesis _ _ isLabel
  cases shape : (heap type).children with
  | nil => rw [TypeDeclNode.setMemberAccessSpecifier, shape]
  | cons firstChild rest =>
    obtain ⟨accessKind, called⟩ :=
      @TypeDeclNode.setMemberAccessSpecifier_cons specifierText heap type firstChild rest shape
    rw [called, loop _ _ _ isLabel]

/-- A node that is no child keeps its access. -/
theorem setMemberAccess_other {type ref : NodeRef} (outside : ref ∉ (heap type).children) :
    TypeDeclNode.setMemberAccessSpecifier specifierText heap type ref = heap ref := by
  cases shape : (heap type).children with
  | nil => rw [TypeDeclNode.setMemberAccessSpecifier, shape]
  | cons firstChild rest =>
    obtain ⟨accessKind, called⟩ :=
      @TypeDeclNode.setMemberAccessSpecifier_cons specifierText heap type firstChild rest shape
    rw [shape, List.mem_cons, not_or] at outside
    rw [called, TypeDeclNode.setAccess_other outside.2]

end Access

/-! ## Nodes that are inserted -/

section Insert

variable (builder : GraphBuilder) {parent : NodeRef} (parentDesc : Nat) (node : NewNode)
  (made : parent < builder.nextRef)

include made

omit made in
/-- An object that is neither new nor the parent stays as it is. -/
theorem heap_insert_other {ref : NodeRef} (old : ref ≠ builder.nextRef) (other : ref ≠ parent) :
    (builder.insertToGraphAndParent parent parentDesc node).heap ref = builder.heap ref := by
  simp [insertToGraphAndParent, pushChild, setParent, addEdge, addVertex, make, old, other]

/-- The parent gets a child. -/
theorem heap_insert_parent :
    (builder.insertToGraphAndParent parent parentDesc node).heap parent =
      { builder.heap parent with
        children := (builder.heap parent).children ++ [builder.nextRef] } := by
  have old : parent ≠ builder.nextRef := made.ne
  simp [insertToGraphAndParent, pushChild, setParent, addEdge, addVertex, make, old]

/-- The new node. -/
theorem heap_insert_new :
    (builder.insertToGraphAndParent parent parentDesc node).heap builder.nextRef =
      { node.record with id := builder.nodeCount, parent := some parent } := by
  have old : builder.nextRef ≠ parent := made.ne'
  simp [insertToGraphAndParent, pushChild, setParent, addEdge, addVertex, make, old]

/-- A view of the old objects that does not show the children is as it was. -/
theorem heap_insert_view {β : Type} (view : SemanticNode → β)
    (blind : ∀ record children, view { record with children := children } = view record)
    {ref : NodeRef} (old : ref ≠ builder.nextRef) :
    view ((builder.insertToGraphAndParent parent parentDesc node).heap ref) =
      view (builder.heap ref) := by
  by_cases isParent : ref = parent
  · subst isParent
    rw [heap_insert_parent builder parentDesc node made, blind]
  · rw [heap_insert_other builder parentDesc node old isParent]

/-- The children of an old object. -/
theorem children_insert {ref : NodeRef} (old : ref ≠ builder.nextRef) :
    ((builder.insertToGraphAndParent parent parentDesc node).heap ref).children =
      (builder.heap ref).children ++ if ref = parent then [builder.nextRef] else [] := by
  by_cases isParent : ref = parent
  · subst isParent
    rw [heap_insert_parent builder parentDesc node made, if_pos rfl]
  · rw [heap_insert_other builder parentDesc node old isParent, if_neg isParent,
      List.append_nil]

end Insert

/-- Places in a list with one more element. -/
theorem getElem?_concat {α : Type} {list : List α} {last : α} {place : Nat} {element : α}
    (found : (list ++ [last])[place]? = some element) :
    list[place]? = some element ∨ place = list.length ∧ element = last := by
  rcases Nat.lt_or_ge place list.length with inside | outside
  · rw [List.getElem?_append_left inside] at found
    exact .inl found
  · rw [List.getElem?_append_right outside] at found
    obtain ⟨here, same⟩ := List.getElem?_eq_some_iff.mp found
    have first : place - list.length = 0 := by simpa using here
    exact .inr ⟨by omega, by simpa [first] using same.symm⟩

/-- A new root. -/
theorem Built.root {start : NodeRef} {builder : GraphBuilder} (built : Built start builder)
    (node : NewNode) : Built start ((builder.make node).addVertex builder.nextRef) := by
  have heap : ∀ ref, ref ≠ builder.nextRef →
      ((builder.make node).addVertex builder.nextRef).heap ref = builder.heap ref :=
    fun ref old => Heap.update_other old
  have new : ((builder.make node).addVertex builder.nextRef).heap builder.nextRef =
      { node.record with id := builder.nodeCount } := Heap.update_self ..
  have old : ∀ ref ∈ builder.vertices, ref ≠ builder.nextRef :=
    fun ref isVertex => (built.bounds ref isVertex).2.ne
  have vertices : ∀ {ref}, ref ∈ ((builder.make node).addVertex builder.nextRef).vertices ↔
      ref ∈ builder.vertices ∨ ref = builder.nextRef := by
    simp [addVertex, make]
  have none_below : ∀ {ref}, ref ∉ (((builder.make node).addVertex builder.nextRef).heap
      builder.nextRef).children := by
    simp [new, node.fresh.children]
  constructor
  case started => exact built.started.trans (Nat.le_succ _)
  case sorted =>
    refine List.pairwise_append.mpr ⟨built.sorted, by simp, ?_⟩
    intro ref isVertex last isLast
    rw [List.mem_singleton.mp isLast]
    exact (built.bounds ref isVertex).2
  case bounds =>
    intro ref isVertex
    rcases vertices.mp isVertex with isOld | rfl
    · exact ⟨(built.bounds ref isOld).1, (built.bounds ref isOld).2.trans (Nat.lt_succ_self _)⟩
    · exact ⟨built.started, Nat.lt_succ_self _⟩
  case whole =>
    intro ref later early
    rcases Nat.lt_succ_iff_lt_or_eq.mp early with isOld | rfl
    · rw [heap ref isOld.ne]
      exact (built.whole ref later isOld).imp_left fun inside => vertices.mpr (.inl inside)
    · exact .inl (vertices.mpr (.inr rfl))
  case count => simp [addVertex, make, built.count]
  case ids =>
    intro place ref found
    rcases getElem?_concat found with isOld | ⟨rfl, rfl⟩
    · rw [heap ref (old ref (List.mem_of_getElem? isOld))]
      exact built.ids place ref isOld
    · rw [new]
      exact congrArg Nat.cast built.count
  case real =>
    intro ref isVertex
    rcases vertices.mp isVertex with isOld | rfl
    · rw [heap ref (old ref isOld)]
      exact built.real ref isOld
    · rw [new]
      exact ⟨node.fresh.real, node.fresh.kind⟩
  case child =>
    intro parent isVertex child isChild
    rcases vertices.mp isVertex with isOld | rfl
    · rw [heap parent (old parent isOld)] at isChild
      obtain ⟨later, made, place⟩ := built.child parent isOld child isChild
      refine ⟨later, made.trans (Nat.lt_succ_self _), ?_⟩
      rw [heap child made.ne, vertices]
      rcases place with ⟨inside, up⟩ | ⟨outside, isLabel⟩
      · exact .inl ⟨.inl inside, up⟩
      · exact .inr ⟨not_or.mpr ⟨outside, made.ne⟩, isLabel⟩
    · exact absurd isChild none_below
  case siblings =>
    intro parent isVertex
    rcases vertices.mp isVertex with isOld | rfl
    · rw [heap parent (old parent isOld)]
      exact built.siblings parent isOld
    · rw [new, node.fresh.children]
      exact .nil
  case parent =>
    intro child isVertex parent up
    rcases vertices.mp isVertex with isOld | rfl
    · rw [heap child (old child isOld)] at up
      obtain ⟨inside, isChild⟩ := built.parent child isOld parent up
      rw [heap parent (old parent inside)]
      exact ⟨vertices.mpr (.inl inside), isChild⟩
    · rw [new] at up
      simp [node.fresh.parent] at up
  case single =>
    intro first isFirst second isSecond child isChild alsoChild
    rcases vertices.mp isFirst with oldFirst | rfl
    · rcases vertices.mp isSecond with oldSecond | rfl
      · rw [heap first (old first oldFirst)] at isChild
        rw [heap second (old second oldSecond)] at alsoChild
        exact built.single first oldFirst second oldSecond child isChild alsoChild
      · exact absurd alsoChild none_below
    · exact absurd isChild none_below

/-- A new child of a vertex. -/
theorem Built.child_inserted {start : NodeRef} {builder : GraphBuilder}
    (built : Built start builder) {parent : NodeRef} (isVertex : parent ∈ builder.vertices)
    (parentDesc : Nat) (node : NewNode) :
    Built start (builder.insertToGraphAndParent parent parentDesc node) := by
  have made := (built.bounds parent isVertex).2
  have old : ∀ ref ∈ builder.vertices, ref ≠ builder.nextRef :=
    fun ref inside => (built.bounds ref inside).2.ne
  have new := heap_insert_new builder parentDesc node made
  have view := @heap_insert_view builder parent parentDesc node made
  have children := @children_insert builder parent parentDesc node made
  have vertices : ∀ {ref}, ref ∈ (builder.insertToGraphAndParent parent parentDesc node).vertices ↔
      ref ∈ builder.vertices ∨ ref = builder.nextRef := by
    simp
  have childless : ((builder.insertToGraphAndParent parent parentDesc node).heap
      builder.nextRef).children = [] := by
    rw [new]
    exact node.fresh.children
  -- Children are those that were there, and the new node below its parent.
  have isChild : ∀ {ref child}, ref ∈ builder.vertices →
      child ∈ ((builder.insertToGraphAndParent parent parentDesc node).heap ref).children →
        child ∈ (builder.heap ref).children ∨ ref = parent ∧ child = builder.nextRef := by
    intro ref child inside member
    rw [children (old ref inside), List.mem_append] at member
    rcases member with isOld | isNew
    · exact .inl isOld
    · split at isNew
      · exact .inr ⟨‹_›, List.mem_singleton.mp isNew⟩
      · exact absurd isNew List.not_mem_nil
  constructor
  case started => exact built.started.trans (Nat.le_succ _)
  case sorted =>
    refine List.pairwise_append.mpr ⟨built.sorted, by simp, ?_⟩
    intro ref inside last isLast
    rw [List.mem_singleton.mp isLast]
    exact (built.bounds ref inside).2
  case bounds =>
    intro ref inside
    rcases vertices.mp inside with isOld | rfl
    · exact ⟨(built.bounds ref isOld).1, (built.bounds ref isOld).2.trans (Nat.lt_succ_self _)⟩
    · exact ⟨built.started, Nat.lt_succ_self _⟩
  case whole =>
    intro ref later early
    rcases Nat.lt_succ_iff_lt_or_eq.mp early with isOld | rfl
    · by_cases inside : ref ∈ builder.vertices
      · exact .inl (vertices.mpr (.inl inside))
      · have apart : ref ≠ parent := fun same => inside (same ▸ isVertex)
        rw [heap_insert_other builder parentDesc node isOld.ne apart]
        exact .inr ((built.whole ref later isOld).resolve_left inside)
    · exact .inl (vertices.mpr (.inr rfl))
  case count =>
    rw [vertices_insert, List.length_append, ← built.count]
    rfl
  case ids =>
    intro place ref found
    rcases getElem?_concat found with isOld | ⟨rfl, rfl⟩
    · rw [view SemanticNode.id (fun _ _ => rfl) (old ref (List.mem_of_getElem? isOld))]
      exact built.ids place ref isOld
    · rw [new]
      exact congrArg Nat.cast built.count
  case real =>
    intro ref inside
    rcases vertices.mp inside with isOld | rfl
    · have same := view (fun record => (record.isSynthetic, record.kind))
        (fun _ _ => rfl) (old ref isOld)
      rw [Prod.mk.injEq] at same
      rw [same.1, same.2]
      exact built.real ref isOld
    · rw [new]
      exact ⟨node.fresh.real, node.fresh.kind⟩
  case child =>
    intro above inside child member
    rcases vertices.mp inside with isOld | rfl
    · rcases isChild isOld member with oldChild | ⟨rfl, rfl⟩
      · obtain ⟨later, early, place⟩ := built.child above isOld child oldChild
        refine ⟨later, early.trans (Nat.lt_succ_self _), ?_⟩
        rcases place with ⟨below, up⟩ | ⟨outside, isLabel⟩
        · rw [view SemanticNode.parent (fun _ _ => rfl) early.ne]
          exact .inl ⟨vertices.mpr (.inl below), up⟩
        · have apart : child ≠ parent := fun same => outside (same ▸ isVertex)
          rw [heap_insert_other builder parentDesc node early.ne apart]
          exact .inr ⟨fun inside => (vertices.mp inside).elim outside early.ne, isLabel⟩
      · refine ⟨made, Nat.lt_succ_self _, .inl ⟨vertices.mpr (.inr rfl), ?_⟩⟩
        rw [new]
    · rw [childless] at member
      exact absurd member List.not_mem_nil
  case siblings =>
    intro above inside
    rcases vertices.mp inside with isOld | rfl
    · rw [children (old above isOld)]
      refine List.pairwise_append.mpr ⟨built.siblings above isOld, by split <;> simp, ?_⟩
      intro child oldChild last isLast
      split at isLast
      · rw [List.mem_singleton.mp isLast]
        exact (built.child above isOld child oldChild).2.1
      · exact absurd isLast List.not_mem_nil
    · rw [childless]
      exact .nil
  case parent =>
    intro child inside above up
    rcases vertices.mp inside with isOld | rfl
    · rw [view SemanticNode.parent (fun _ _ => rfl) (old child isOld)] at up
      obtain ⟨place, oldChild⟩ := built.parent child isOld above up
      rw [children (old above place)]
      exact ⟨vertices.mpr (.inl place), List.mem_append_left _ oldChild⟩
    · rw [new] at up
      obtain rfl := Option.some.inj up
      rw [children made.ne, if_pos rfl]
      exact ⟨vertices.mpr (.inl isVertex), by simp⟩
  case single =>
    have noNew : ∀ ref ∈ builder.vertices, builder.nextRef ∉ (builder.heap ref).children :=
      fun ref inside member => (built.child ref inside _ member).2.1.false
    intro first isFirst second isSecond child below alsoBelow
    rcases vertices.mp isFirst with oldFirst | rfl
    · rcases vertices.mp isSecond with oldSecond | rfl
      · rcases isChild oldFirst below with oldChild | ⟨rfl, rfl⟩
        · rcases isChild oldSecond alsoBelow with alsoOld | ⟨rfl, rfl⟩
          · exact built.single first oldFirst second oldSecond child oldChild alsoOld
          · exact absurd oldChild (noNew first oldFirst)
        · rcases isChild oldSecond alsoBelow with alsoOld | ⟨rfl, -⟩
          · exact absurd alsoOld (noNew second oldSecond)
          · rfl
      · rw [childless] at alsoBelow
        exact absurd alsoBelow List.not_mem_nil
    · rw [childless] at below
      exact absurd below List.not_mem_nil

/-- An access specifier in a type. -/
theorem Built.labelled {start : NodeRef} {builder : GraphBuilder} (built : Built start builder)
    {type : NodeRef} (isVertex : type ∈ builder.vertices) (text : Text) :
    Built start (builder.pushAccessSpecifier type text) := by
  have made := (built.bounds type isVertex).2
  have old : ∀ ref ∈ builder.vertices, ref ≠ builder.nextRef :=
    fun ref inside => (built.bounds ref inside).2.ne
  have new : (builder.pushAccessSpecifier type text).heap builder.nextRef = labelNode := by
    simp [pushAccessSpecifier, pushChild, labelNode, made.ne']
  have other : ∀ {ref}, ref ≠ builder.nextRef → ref ≠ type →
      (builder.pushAccessSpecifier type text).heap ref = builder.heap ref := by
    intro ref old other
    simp [pushAccessSpecifier, pushChild, old, other]
  have here : (builder.pushAccessSpecifier type text).heap type =
      { builder.heap type with
        children := (builder.heap type).children ++ [builder.nextRef] } := by
    simp [pushAccessSpecifier, pushChild, made.ne]
  have view : ∀ {β : Type} (view : SemanticNode → β),
      (∀ record children, view { record with children := children } = view record) →
        ∀ {ref}, ref ≠ builder.nextRef →
          view ((builder.pushAccessSpecifier type text).heap ref) = view (builder.heap ref) := by
    intro β view blind ref old
    by_cases isType : ref = type
    · rw [isType, here, blind]
    · rw [other old isType]
  have isChild : ∀ {ref child}, ref ∈ builder.vertices →
      child ∈ ((builder.pushAccessSpecifier type text).heap ref).children →
        child ∈ (builder.heap ref).children ∨ ref = type ∧ child = builder.nextRef := by
    intro ref child inside member
    by_cases isType : ref = type
    · rw [isType, here, List.mem_append, List.mem_singleton] at member
      exact member.imp (fun isOld => isType ▸ isOld) fun isNew => ⟨isType, isNew⟩
    · rw [other (old ref inside) isType] at member
      exact .inl member
  constructor
  case started => exact built.started.trans (Nat.le_succ _)
  case sorted => exact built.sorted
  case bounds =>
    intro ref inside
    exact ⟨(built.bounds ref inside).1, (built.bounds ref inside).2.trans (Nat.lt_succ_self _)⟩
  case whole =>
    intro ref later early
    rcases Nat.lt_succ_iff_lt_or_eq.mp early with isOld | rfl
    · by_cases inside : ref ∈ builder.vertices
      · exact .inl inside
      · have apart : ref ≠ type := fun same => inside (same ▸ isVertex)
        rw [other isOld.ne apart]
        exact .inr ((built.whole ref later isOld).resolve_left inside)
    · exact .inr new
  case count => exact built.count
  case ids =>
    intro place ref found
    rw [view SemanticNode.id (fun _ _ => rfl) (old ref (List.mem_of_getElem? found))]
    exact built.ids place ref found
  case real =>
    intro ref inside
    have same := view (fun record => (record.isSynthetic, record.kind))
      (fun _ _ => rfl) (old ref inside)
    rw [Prod.mk.injEq] at same
    rw [same.1, same.2]
    exact built.real ref inside
  case child =>
    intro above inside child member
    rcases isChild inside member with oldChild | ⟨rfl, rfl⟩
    · obtain ⟨later, early, place⟩ := built.child above inside child oldChild
      refine ⟨later, early.trans (Nat.lt_succ_self _), ?_⟩
      rcases place with ⟨below, up⟩ | ⟨outside, isLabel⟩
      · rw [view SemanticNode.parent (fun _ _ => rfl) early.ne]
        exact .inl ⟨below, up⟩
      · have apart : child ≠ type := fun same => outside (same ▸ isVertex)
        rw [other early.ne apart]
        exact .inr ⟨outside, isLabel⟩
    · refine ⟨made, Nat.lt_succ_self _, .inr ⟨?_, new⟩⟩
      exact fun isOld => old _ isOld rfl
  case siblings =>
    intro above inside
    by_cases isType : above = type
    · rw [isType, here]
      refine List.pairwise_append.mpr ⟨built.siblings type isVertex, by simp, ?_⟩
      intro child oldChild last isLast
      rw [List.mem_singleton.mp isLast]
      exact (built.child type isVertex child oldChild).2.1
    · rw [other (old above inside) isType]
      exact built.siblings above inside
  case parent =>
    intro child inside above up
    rw [view SemanticNode.parent (fun _ _ => rfl) (old child inside)] at up
    obtain ⟨place, oldChild⟩ := built.parent child inside above up
    refine ⟨place, ?_⟩
    by_cases isType : above = type
    · rw [isType, here]
      exact List.mem_append_left _ (isType ▸ oldChild)
    · rw [other (old above place) isType]
      exact oldChild
  case single =>
    have noNew : ∀ ref ∈ builder.vertices, builder.nextRef ∉ (builder.heap ref).children :=
      fun ref inside member => (built.child ref inside _ member).2.1.false
    intro first isFirst second isSecond child below alsoBelow
    rcases isChild isFirst below with oldChild | ⟨rfl, rfl⟩
    · rcases isChild isSecond alsoBelow with alsoOld | ⟨rfl, rfl⟩
      · exact built.single first isFirst second isSecond child oldChild alsoOld
      · exact absurd oldChild (noNew first isFirst)
    · rcases isChild isSecond alsoBelow with alsoOld | ⟨rfl, -⟩
      · exact absurd alsoOld (noNew second isSecond)
      · rfl

/-- The members of a type get their access. -/
theorem Built.accessed {start : NodeRef} {builder : GraphBuilder} (built : Built start builder)
    (type : NodeRef) : Built start (builder.setMemberAccessSpecifier type) := by
  have view : ∀ {β : Type} (view : SemanticNode → β),
      (∀ record access, view { record with accessSpecifier := access } = view record) →
        ∀ ref, view ((builder.setMemberAccessSpecifier type).heap ref) =
          view (builder.heap ref) :=
    fun view blind ref => setMemberAccess_view builder.heap view blind type ref
  have children : ∀ ref, ((builder.setMemberAccessSpecifier type).heap ref).children =
      (builder.heap ref).children := view _ fun _ _ => rfl
  have parent : ∀ ref, ((builder.setMemberAccessSpecifier type).heap ref).parent =
      (builder.heap ref).parent := view _ fun _ _ => rfl
  constructor
  case started => exact built.started
  case sorted => exact built.sorted
  case bounds => exact built.bounds
  case whole =>
    intro ref later early
    refine (built.whole ref later early).imp_right fun isLabel => ?_
    have kind : (builder.heap ref).kind = .accessSpecifier := by
      rw [isLabel]
      rfl
    exact (setMemberAccess_label builder.heap kind type).trans isLabel
  case count => exact built.count
  case ids =>
    intro place ref found
    rw [view SemanticNode.id fun _ _ => rfl]
    exact built.ids place ref found
  case real =>
    intro ref inside
    rw [view SemanticNode.isSynthetic fun _ _ => rfl,
      view SemanticNode.kind fun _ _ => rfl]
    exact built.real ref inside
  case child =>
    intro above inside child member
    rw [children] at member
    obtain ⟨later, early, place⟩ := built.child above inside child member
    refine ⟨later, early, ?_⟩
    rcases place with ⟨below, up⟩ | ⟨outside, isLabel⟩
    · rw [parent]
      exact .inl ⟨below, up⟩
    · refine .inr ⟨outside, ?_⟩
      have kind : (builder.heap child).kind = .accessSpecifier := by
        rw [isLabel]
        rfl
      exact (setMemberAccess_label builder.heap kind type).trans isLabel
  case siblings =>
    intro above inside
    rw [children]
    exact built.siblings above inside
  case parent =>
    intro child inside above up
    rw [parent] at up
    rw [children]
    exact built.parent child inside above up
  case single =>
    intro first isFirst second isSecond child below alsoBelow
    rw [children] at below alsoBelow
    exact built.single first isFirst second isSecond child below alsoBelow

/-- What every action keeps. -/
theorem Built.act {start : NodeRef} {builder next : GraphBuilder} {action : Action}
    (built : Built start builder) (moved : builder.act action = some next) : Built start next := by
  cases action with
  | root node =>
    obtain rfl := Option.some.inj moved
    exact built.root node
  | child parent parentDesc node =>
    obtain ⟨place, rfl⟩ := of_guarded moved
    exact built.child_inserted (List.mem_of_getElem? place) parentDesc node
  | label type text =>
    obtain ⟨inside, rfl⟩ := of_guarded moved
    exact built.labelled inside text
  | access type =>
    obtain ⟨-, rfl⟩ := of_guarded moved
    exact built.accessed type

/-- What a run keeps. -/
theorem Built.run {start : NodeRef} {builder final : GraphBuilder} (built : Built start builder)
    (reaches : Reaches builder final) : Built start final := by
  obtain ⟨actions, run⟩ := reaches
  exact run.invariant Built.act built

/-! ## Edges -/

/-- What an action leaves of the edges. -/
theorem act_edges {start : NodeRef} {builder next : GraphBuilder} {action : Action}
    (built : Built start builder) (moved : builder.act action = some next) :
    (∀ ref ∈ builder.vertices, (next.heap ref).parent = (builder.heap ref).parent) ∧
      (next.edges = builder.edges ∧ next.edgeCount = builder.edgeCount ∧
          (∀ ref ∈ next.vertices, ref ∉ builder.vertices → (next.heap ref).parent = none) ∨
        ∃ (parentDesc : Nat) (parent : NodeRef), builder.vertices[parentDesc]? = some parent ∧
          next.vertices = builder.vertices ++ [builder.nextRef] ∧
          (next.heap builder.nextRef).parent = some parent ∧
          next.edges = builder.edges ++
            [⟨parentDesc, builder.vertices.length, builder.edgeCount⟩] ∧
          next.edgeCount = builder.edgeCount + 1) := by
  have old : ∀ ref ∈ builder.vertices, ref ≠ builder.nextRef :=
    fun ref inside => (built.bounds ref inside).2.ne
  cases action with
  | root node =>
    obtain rfl := Option.some.inj moved
    refine ⟨?_, .inl ⟨rfl, rfl, ?_⟩⟩
    · intro ref inside
      exact congrArg SemanticNode.parent (Heap.update_other (old ref inside))
    · intro ref inside outside
      have isNew : ref = builder.nextRef := by
        rcases List.mem_append.mp inside with isOld | isNew
        · exact absurd isOld outside
        · exact List.mem_singleton.mp isNew
      rw [isNew]
      exact (congrArg SemanticNode.parent (Heap.update_self ..)).trans node.fresh.parent
  | child parent parentDesc node =>
    obtain ⟨place, rfl⟩ := of_guarded moved
    have made := (built.bounds parent (List.mem_of_getElem? place)).2
    refine ⟨?_, .inr ⟨parentDesc, parent, place, rfl, ?_, rfl, rfl⟩⟩
    · intro ref inside
      exact heap_insert_view builder parentDesc node made SemanticNode.parent
        (fun _ _ => rfl) (old ref inside)
    · rw [heap_insert_new builder parentDesc node made]
  | label type text =>
    obtain ⟨inside, rfl⟩ := of_guarded moved
    refine ⟨?_, .inl ⟨rfl, rfl, fun ref isVertex outside => absurd isVertex outside⟩⟩
    intro ref isVertex
    have apart := old ref isVertex
    by_cases isType : ref = type
    · simp [isType, pushAccessSpecifier, pushChild, old type inside]
    · simp [pushAccessSpecifier, pushChild, apart, isType]
  | access type =>
    obtain ⟨-, rfl⟩ := of_guarded moved
    refine ⟨?_, .inl ⟨rfl, rfl, fun ref isVertex outside => absurd isVertex outside⟩⟩
    exact fun ref _ => setMemberAccess_view builder.heap SemanticNode.parent
      (fun _ _ => rfl) type ref

/-- What every action keeps of the edges. -/
theorem EdgesBuilt.act {start : NodeRef} {builder next : GraphBuilder} {action : Action}
    (built : Built start builder) (edgesBuilt : EdgesBuilt builder)
    (moved : builder.act action = some next) : EdgesBuilt next := by
  obtain ⟨parents, change⟩ := act_edges built moved
  obtain ⟨back, whole⟩ := act_vertices moved
  have kept : ∀ {place : Nat} {ref : NodeRef}, builder.vertices[place]? = some ref →
      next.vertices[place]? = some ref := by
    intro place ref found
    obtain ⟨inside, -⟩ := List.getElem?_eq_some_iff.mp found
    rw [← whole, List.getElem?_append_left inside, found]
  have sound : ∀ edge ∈ builder.edges, ∃ parent child,
      next.vertices[edge.source]? = some parent ∧ next.vertices[edge.target]? = some child ∧
        (next.heap child).parent = some parent := by
    intro edge member
    obtain ⟨parent, child, source, target, up⟩ := edgesBuilt.sound edge member
    refine ⟨parent, child, kept source, kept target, ?_⟩
    rw [parents child (List.mem_of_getElem? target), up]
  rcases change with ⟨sameEdges, sameCount, rootless⟩ |
    ⟨parentDesc, parent, place, sameVertices, up, sameEdges, sameCount⟩
  · constructor
    case count => rw [sameEdges, sameCount, edgesBuilt.count]
    case ids =>
      rw [sameEdges]
      exact edgesBuilt.ids
    case sorted =>
      rw [sameEdges]
      exact edgesBuilt.sorted
    case sound =>
      rw [sameEdges]
      exact sound
    case complete =>
      intro place child found isChild
      by_cases isOld : child ∈ builder.vertices
      · rw [parents child isOld] at isChild
        obtain ⟨oldPlace, atOld⟩ := List.mem_iff_getElem?.mp isOld
        obtain ⟨edge, member, target⟩ := edgesBuilt.complete oldPlace child atOld isChild
        have nodup := (built.act moved).sorted.imp (fun less => Nat.ne_of_lt less)
        have samePlace : oldPlace = place :=
          (List.getElem?_inj (List.getElem?_eq_some_iff.mp (kept atOld)).1 nodup).mp
            ((kept atOld).trans found.symm)
        rw [sameEdges]
        exact ⟨edge, member, target.trans samePlace⟩
      · rw [rootless child (List.mem_of_getElem? found) isOld] at isChild
        exact absurd isChild nofun
  · constructor
    case count => rw [sameEdges, sameCount, edgesBuilt.count, List.length_append]; rfl
    case ids =>
      intro place edge found
      rw [sameEdges] at found
      rcases getElem?_concat found with isOld | ⟨rfl, rfl⟩
      · exact edgesBuilt.ids place edge isOld
      · exact edgesBuilt.count
    case sorted =>
      rw [sameEdges, List.map_append]
      refine List.pairwise_append.mpr ⟨edgesBuilt.sorted, by simp, ?_⟩
      intro target member last isLast
      obtain ⟨edge, inside, rfl⟩ := List.mem_map.mp member
      obtain ⟨above, below, -, atTarget, -⟩ := edgesBuilt.sound edge inside
      rw [List.mem_singleton.mp isLast]
      exact (List.getElem?_eq_some_iff.mp atTarget).1
    case sound =>
      intro edge member
      rw [sameEdges, List.mem_append, List.mem_singleton] at member
      rcases member with isOld | rfl
      · exact sound edge isOld
      · refine ⟨parent, builder.nextRef, kept place, ?_, up⟩
        rw [sameVertices]
        simp
    case complete =>
      intro place child found isChild
      rw [sameEdges]
      rw [sameVertices] at found
      rcases getElem?_concat found with isOld | ⟨rfl, rfl⟩
      · rw [parents child (List.mem_of_getElem? isOld)] at isChild
        obtain ⟨edge, member, target⟩ := edgesBuilt.complete place child isOld isChild
        exact ⟨edge, List.mem_append_left _ member, target⟩
      · exact ⟨_, List.mem_append_right _ List.mem_cons_self, rfl⟩

/-- What a run keeps of the edges. -/
theorem EdgesBuilt.run {start : NodeRef} {builder final : GraphBuilder}
    (built : Built start builder) (edgesBuilt : EdgesBuilt builder)
    (reaches : Reaches builder final) : EdgesBuilt final := by
  obtain ⟨actions, run⟩ := reaches
  have kept : ∀ {state action next}, Built start state ∧ EdgesBuilt state →
      GraphBuilder.act state action = some next → Built start next ∧ EdgesBuilt next :=
    fun holds moved => ⟨holds.1.act moved, .act holds.1 holds.2 moved⟩
  exact (run.invariant kept ⟨built, edgesBuilt⟩).2

end GraphBuilder

end MergeBot
