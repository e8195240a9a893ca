import MergeBot.Semantic.ChildOrder

/-!
# Merging a one-sided change

When their side is an identical copy of base, the merge in our order is our side:
`mergeSemanticNode_oneSided` says so of the translation unit and of every merged
composite below it, for whatever our side has renamed, edited, reordered, moved,
added or deleted.
-/

namespace MergeBot

open Foundation

namespace GraphMerger

variable {M : GraphMerger} {origin heap : Heap}

/-- Their side is a copy of base: the base nodes have unchanged matches there, and
nothing is added. -/
structure IdenticalTheirs (M : GraphMerger) (origin : Heap) : Prop where
  copies : ∀ entry ∈ M.ourMatching.oneOneMatching,
    ∃ their ∈ M.theirMatching.oneOneMatching, their.left = entry.left ∧
      SameTexts (origin their.right) (origin entry.left)
  nothing_added : ∀ kind, M.theirMatching.possiblyAdded kind = []

/-- A merged node stands for a node of our side: it is that node, unmatched, or the
base node matched with it, and it has its texts. -/
structure Corresponds (M : GraphMerger) (origin heap : Heap) (merged our : NodeRef) : Prop where
  node : (merged = our ∧ ∀ entry ∈ M.ourMatching.oneOneMatching, entry.right ≠ our) ∨
    ∃ entry ∈ M.ourMatching.oneOneMatching, entry.left = merged ∧ entry.right = our
  comment : (heap merged).comment = (origin our).comment
  originalSignature : (heap merged).originalSignature = (origin our).originalSignature
  body : (heap merged).kind.isTerminal = true → (heap merged).body = (origin our).body

/-- From a composite of the merged tree to one of its children. -/
def MergedChild (heap : Heap) (parent child : NodeRef) : Prop :=
  (heap parent).kind.isTerminal = false ∧ child ∈ (heap parent).children

/-- The nodes of the merged tree. -/
abbrev Reaches (heap : Heap) (root node : NodeRef) : Prop :=
  Relation.ReflTransGen (MergedChild heap) root node

/-- Without recorded nodes the second phase adds nothing. -/
theorem IdenticalTheirs.theirsAdded_nil (identical : M.IdenticalTheirs origin) (moment : Heap)
    (base : NodeRef) : M.theirsAdded moment base = [] := by
  rw [List.eq_nil_iff_forall_not_mem]
  intro added inside
  obtain ⟨recorded, -⟩ := (M.mem_filterAddedNodes moment).mp (mem_theirsAdded.mp inside).1
  obtain ⟨kind, listed⟩ := KindMap.mem_collect.mp recorded
  simp [identical.nothing_added kind] at listed

section Finished

variable {entry their : BiEntry NodeRef NodeRef UInt64}
  (finished : M.Finished origin heap entry their)

include finished

/-- Merging does not change what kind a node is. -/
theorem Finished.kind : (heap entry.left).kind = (origin entry.left).kind := by
  obtain ⟨children, eol, record⟩ := finished.record
  rw [record]
  exact SemanticNode.read_of_view (M.mergeRecord_unmerged _ _ _) SemanticNode.kind fun _ => rfl

/-- With an unchanged copy in theirs, the merged node is ours. -/
theorem Finished.corresponds (member : entry ∈ M.ourMatching.oneOneMatching)
    (same : SameTexts (origin their.right) (origin entry.left)) :
    M.Corresponds origin heap entry.left entry.right := by
  have kind := finished.kind
  obtain ⟨children, eol, record⟩ := finished.record
  obtain ⟨comment, originalSignature, body⟩ :=
    M.mergeRecord_texts (origin entry.right) (origin entry.left) (origin their.right)
  rw [M.mergeText_their_same _ same.comment] at comment
  rw [M.mergeText_their_same _ same.originalSignature] at originalSignature
  rw [M.mergeText_their_same _ same.body] at body
  refine ⟨.inr ⟨entry, member, rfl, rfl⟩, ?_, ?_, ?_⟩
  · rw [record]
    exact comment
  · rw [record]
    exact originalSignature
  · rw [kind, record]
    exact body

/-- With nothing added in theirs, the merged children are those of ours that are kept. -/
theorem Finished.children (identical : M.IdenticalTheirs origin)
    (composite : (origin entry.left).kind.isTerminal = false) :
    (heap entry.left).children = (origin entry.right).children.filterMap (M.outcome origin) := by
  obtain ⟨moment, -, -, order⟩ := finished.order composite
  rw [order, identical.theirsAdded_nil]
  rfl

end Finished

/-- Keeping a partner of every item keeps them in order. -/
theorem forall₂_filterMap {α β : Type} {related : β → α → Prop} {partner : α → Option β}
    {items : List α} (total : ∀ item ∈ items, ∃ other, partner item = some other ∧
      related other item) : List.Forall₂ related (items.filterMap partner) items := by
  induction items with
  | nil => exact .nil
  | cons item rest ih =>
      obtain ⟨other, becomes, holds⟩ := total item List.mem_cons_self
      rw [List.filterMap_cons_some becomes]
      exact .cons holds (ih fun later member => total later (List.mem_cons_of_mem item member))

section Identity

variable {Ours : NodeRef → Prop} {rank : NodeRef → Nat} (prepared : M.Prepared origin Ours rank)
  (identical : M.IdenticalTheirs origin)

include prepared identical

/-- A child of our node stays in its place, as itself or as its base node. -/
theorem outcome_corresponds {root : NodeRef} (finished : M.AllFinished origin heap root)
    (kept : ∀ our, Ours our → heap our = origin our)
    {entry : BiEntry NodeRef NodeRef UInt64} (member : entry ∈ M.ourMatching.oneOneMatching)
    (visited : M.Visited origin root entry.right) (isOurs : Ours entry.right)
    (composite : (origin entry.left).kind.isTerminal = false)
    {child : NodeRef} (inside : child ∈ (origin entry.right).children) :
    ∃ merged, M.outcome origin child = some merged ∧
      M.Corresponds origin heap merged child ∧
      (merged = child ∨ ∃ other ∈ M.ourMatching.oneOneMatching,
        other.left = merged ∧ other.right = child ∧ M.Visited origin root child) := by
  have childOurs := prepared.closed entry.right child ⟨isOurs, inside⟩
  by_cases matched : ∃ other ∈ M.ourMatching.oneOneMatching, other.right = child
  · obtain ⟨other, otherMember, rfl⟩ := matched
    obtain ⟨their, theirMember, left, same⟩ := identical.copies other otherMember
    obtain ⟨copy, copyMember, copyLeft, -⟩ := identical.copies entry member
    have goesOn : M.GoesOn origin entry.right other.right :=
      ⟨inside, entry, member, rfl, composite, copy, copyMember, copyLeft⟩
    have down := visited.tail goesOn
    refine ⟨other.left, ?_, ?_, .inr ⟨other, otherMember, rfl, rfl, down⟩⟩
    · exact (prepared.outcome_eq_some_iff childOurs).mpr
        (.inr ⟨other, otherMember, rfl, rfl, their, theirMember, left⟩)
    · exact (finished other otherMember down their theirMember left).corresponds otherMember same
  · have unmatched : ∀ other ∈ M.ourMatching.oneOneMatching, other.right ≠ child :=
      fun other otherMember right => matched ⟨other, otherMember, right⟩
    refine ⟨child, ?_, ?_, .inl rfl⟩
    · exact (prepared.outcome_eq_some_iff childOurs).mpr (.inl ⟨unmatched, rfl⟩)
    · exact ⟨.inl ⟨rfl, unmatched⟩, by rw [kept child childOurs], by rw [kept child childOurs],
        fun _ => by rw [kept child childOurs]⟩

/-- The merged tree consists of our nodes and of the base nodes of visited ones. -/
theorem reaches_visited {root : BiEntry NodeRef NodeRef UInt64}
    (rootMember : root ∈ M.ourMatching.oneOneMatching) (rootOurs : Ours root.right)
    (finished : M.AllFinished origin heap root.right)
    (kept : ∀ our, Ours our → heap our = origin our) {node : NodeRef}
    (reaches : Reaches heap root.left node) :
    Ours node ∨ ∃ entry ∈ M.ourMatching.oneOneMatching,
      entry.left = node ∧ M.Visited origin root.right entry.right := by
  induction reaches with
  | refl => exact .inr ⟨root, rootMember, rfl, .refl⟩
  | @tail parent child _ step ih =>
      obtain ⟨composite, inside⟩ := step
      rcases ih with isOurs | ⟨entry, member, rfl, visited⟩
      · rw [kept parent isOurs] at inside
        exact .inl (prepared.closed parent child ⟨isOurs, inside⟩)
      · obtain ⟨their, theirMember, left, -⟩ := identical.copies entry member
        have done := finished entry member visited their theirMember left
        rw [done.kind] at composite
        rw [done.children identical composite] at inside
        obtain ⟨our, ourChild, becomes⟩ := List.mem_filterMap.mp inside
        have isOurs := (prepared.visited_below rootOurs visited).2
        obtain ⟨merged, same, -, place⟩ := outcome_corresponds prepared identical finished kept
          member visited isOurs composite ourChild
        obtain rfl := Option.some.inj (becomes.symm.trans same)
        rcases place with rfl | ⟨other, otherMember, left', right, down⟩
        · exact .inl (prepared.closed entry.right child ⟨isOurs, ourChild⟩)
        · exact .inr ⟨other, otherMember, left', right ▸ down⟩

/-- Merging a one-sided change is the identity. With their side a copy of base, the
merge of a base node returns it; the merged tree below it consists of our nodes, as
they were, and of base nodes matched to ours, so no deleted node is there; and the
children of every merged composite correspond, in order, to those of our node. -/
theorem mergeSemanticNode_oneSided (favour : M.orderInFavour = .ours)
    {root : BiEntry NodeRef NodeRef UInt64} (member : root ∈ M.ourMatching.oneOneMatching)
    (isOurs : Ours root.right) {fuel : Nat} (enough : rank root.right < fuel)
    (pristine : M.Pristine origin heap (Below (OurChild origin Ours) root.right)) :
    ∃ heap', M.mergeSemanticNode fuel heap root.left = some (heap', some root.left) ∧
      M.Corresponds origin heap' root.left root.right ∧
      (∀ node, Reaches heap' root.left node →
        (Ours node ∧ heap' node = origin node) ∨
          ∃ entry ∈ M.ourMatching.oneOneMatching, entry.left = node ∧ Ours entry.right ∧
            (heap' node).kind = (origin node).kind) ∧
      ∀ entry ∈ M.ourMatching.oneOneMatching, Reaches heap' root.left entry.left →
        (heap' entry.left).kind.isTerminal = false →
          List.Forall₂ (M.Corresponds origin heap') (heap' entry.left).children
            (origin entry.right).children := by
  obtain ⟨heap', returned, within, finished⟩ :=
    mergeSemanticNode_run prepared favour fuel root member isOurs enough heap pristine
  have kept : ∀ our, Ours our → heap' our = origin our := fun our ours =>
    (within.unwritten (prepared.ours_apart our ours)).trans
      (pristine.unwritten (prepared.ours_apart our ours))
  obtain ⟨copy, copyMember, copyLeft, copySame⟩ := identical.copies root member
  have found := (prepared.their_leftFind_origin member isOurs).mpr ⟨copyMember, copyLeft⟩
  have visited : ∀ node, Reaches heap' root.left node →
      Ours node ∨ ∃ entry ∈ M.ourMatching.oneOneMatching,
        entry.left = node ∧ M.Visited origin root.right entry.right := fun node =>
    reaches_visited prepared identical member isOurs finished kept
  refine ⟨heap', ?_, ?_, ?_, ?_⟩
  · rw [returned, found]
    rfl
  · exact (finished root member .refl copy copyMember copyLeft).corresponds member copySame
  · intro node reaches
    rcases visited node reaches with ours | ⟨entry, entryMember, rfl, down⟩
    · exact .inl ⟨ours, kept node ours⟩
    · obtain ⟨their, theirMember, left, -⟩ := identical.copies entry entryMember
      exact .inr ⟨entry, entryMember, rfl, (prepared.visited_below isOurs down).2,
        (finished entry entryMember down their theirMember left).kind⟩
  · intro entry entryMember reaches composite
    rcases visited entry.left reaches with ours | ⟨other, otherMember, left, down⟩
    · exact absurd rfl (prepared.ours_apart entry.left ours entry entryMember)
    · obtain rfl := prepared.our_exact.unique_left other otherMember entry entryMember left
      obtain ⟨their, theirMember, theirLeft, -⟩ := identical.copies other otherMember
      have done := finished other otherMember down their theirMember theirLeft
      rw [done.kind] at composite
      rw [done.children identical composite]
      refine forall₂_filterMap fun child inside => ?_
      obtain ⟨merged, becomes, corresponds, -⟩ := outcome_corresponds prepared identical finished
        kept otherMember down (prepared.visited_below isOurs down).2 composite inside
      exact ⟨merged, becomes, corresponds⟩

end Identity

/-- A file with a class and two macro lines. Our side adds a line, deletes the
first one, moves the second one up, renames the class and edits its field. -/
def reworkedHeader : Heap
  | 0 => { kind := .translationUnit, qualifiedName := "a.h", children := [1, 2, 3] }
  | 1 => { kind := .type, qualifiedName := "C", parent := some 0, children := [4] }
  | 2 => { kind := .textual, body := "P", parent := some 0 }
  | 3 => { kind := .textual, body := "Q", parent := some 0 }
  | 4 => { kind := .fieldDeclaration, body := "int x;", parent := some 1 }
  | 5 => { kind := .translationUnit, qualifiedName := "a.h", children := [6, 7, 8] }
  | 6 => { kind := .textual, body := "N", parent := some 5 }
  | 7 => { kind := .textual, body := "Q", parent := some 5 }
  | 8 => { kind := .type, qualifiedName := "D", parent := some 5, children := [9] }
  | 9 => { kind := .fieldDeclaration, body := "int y;", parent := some 8 }
  | 10 => { kind := .translationUnit, qualifiedName := "a.h", children := [11, 12, 13] }
  | 11 => { kind := .type, qualifiedName := "C", parent := some 10, children := [14] }
  | 12 => { kind := .textual, body := "P", parent := some 10 }
  | 13 => { kind := .textual, body := "Q", parent := some 10 }
  | 14 => { kind := .fieldDeclaration, body := "int x;", parent := some 11 }
  | _ => {}

/-- The merger of the three versions. -/
def reworkedMerger : GraphMerger where
  std := .polynomial
  gitMergeTextual our _ _ _ _ _ := our
  ourMatching :=
    { oneOneMatching := tableOf .polynomial reworkedHeader [(0, 5), (1, 8), (3, 7), (4, 9)]
      possiblyDeleted := Function.update (fun _ => []) .textual [2]
      possiblyAdded := Function.update (fun _ => []) .textual [6] }
  theirMatching :=
    { oneOneMatching :=
        tableOf .polynomial reworkedHeader [(0, 10), (1, 11), (2, 12), (3, 13), (4, 14)] }

theorem reworkedMerger_ours :
    reworkedMerger.ourMatching.Partition .polynomial reworkedHeader [0, 1, 2, 3, 4]
      [5, 6, 7, 8, 9] := by
  decide

theorem reworkedMerger_theirs :
    reworkedMerger.theirMatching.Partition .polynomial reworkedHeader [0, 1, 2, 3, 4]
      [10, 11, 12, 13, 14] := by
  decide

theorem reworkedMerger_prepared :
    reworkedMerger.Prepared reworkedHeader (· ∈ [5, 6, 7, 8, 9]) fun ref =>
      if ref = 5 then 2 else if ref = 8 then 1 else 0 :=
  .of_partition reworkedMerger_ours reworkedMerger_theirs (by decide) (by decide) (by decide)
    (by decide)

theorem reworkedMerger_identical : reworkedMerger.IdenticalTheirs reworkedHeader where
  copies := by
    have texts : ∀ entry ∈ reworkedMerger.ourMatching.oneOneMatching,
        ∃ their ∈ reworkedMerger.theirMatching.oneOneMatching, their.left = entry.left ∧
          (reworkedHeader their.right).comment = (reworkedHeader entry.left).comment ∧
          (reworkedHeader their.right).originalSignature =
            (reworkedHeader entry.left).originalSignature ∧
          (reworkedHeader their.right).qualifiedName =
            (reworkedHeader entry.left).qualifiedName ∧
          (reworkedHeader their.right).body = (reworkedHeader entry.left).body := by
      decide
    intro entry member
    obtain ⟨their, theirMember, left, comment, signature, name, body⟩ := texts entry member
    exact ⟨their, theirMember, left, comment, signature, name, body⟩
  nothing_added _ := rfl

/-- The merge of the file is our file. -/
theorem reworkedHeader_oneSided :
    ∃ heap', reworkedMerger.mergeSemanticNode 3 reworkedHeader 0 = some (heap', some 0) ∧
      reworkedMerger.Corresponds reworkedHeader heap' 0 5 ∧
      (∀ node, Reaches heap' 0 node →
        (node ∈ [5, 6, 7, 8, 9] ∧ heap' node = reworkedHeader node) ∨
          ∃ entry ∈ reworkedMerger.ourMatching.oneOneMatching,
            entry.left = node ∧ entry.right ∈ [5, 6, 7, 8, 9] ∧
              (heap' node).kind = (reworkedHeader node).kind) ∧
      ∀ entry ∈ reworkedMerger.ourMatching.oneOneMatching, Reaches heap' 0 entry.left →
        (heap' entry.left).kind.isTerminal = false →
          List.Forall₂ (reworkedMerger.Corresponds reworkedHeader heap')
            (heap' entry.left).children (reworkedHeader entry.right).children :=
  have member : ⟨0, 5, reworkedHeader.hash .polynomial 0, reworkedHeader.hash .polynomial 5⟩ ∈
      reworkedMerger.ourMatching.oneOneMatching := by decide
  mergeSemanticNode_oneSided reworkedMerger_prepared reworkedMerger_identical rfl member
    (by decide) (by decide) .refl

end GraphMerger

end MergeBot
