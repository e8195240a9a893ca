import MergeBot.Semantic.GraphBuilder

/-!
# What a builder does

`act` are the four things that a builder does to its objects. `kindOf` says which kind of node a
child of a syntax node becomes, and whether it becomes one at all: `parseChild_inserts` finds that
kind in every branch of the loop over the children, and finds that only comments are skipped.
-/

namespace MergeBot

open Foundation

namespace GraphBuilder

/-! ## What a builder does -/

/-- A change of the objects and of the graph. -/
inductive Action
  | root (node : NewNode)
  | child (parent : NodeRef) (parentDesc : Nat) (node : NewNode)
  | label (type : NodeRef) (text : Text)
  | access (type : NodeRef)

/-- Nodes are inserted below vertices. -/
def act (builder : GraphBuilder) : Action → Option GraphBuilder
  | .root node => some ((builder.make node).addVertex builder.nextRef)
  | .child parent parentDesc node =>
      if builder.vertices[parentDesc]? = some parent then
        some (builder.insertToGraphAndParent parent parentDesc node)
      else none
  | .label type text =>
      if type ∈ builder.vertices then some (builder.pushAccessSpecifier type text) else none
  | .access type =>
      if type ∈ builder.vertices then some (builder.setMemberAccessSpecifier type) else none

/-- The graph after some actions. -/
def Reaches (builder built : GraphBuilder) : Prop :=
  ∃ actions, Steps act builder actions built

namespace Reaches

variable {builder middle built : GraphBuilder}

theorem refl (builder : GraphBuilder) : Reaches builder builder :=
  ⟨[], .refl⟩

theorem trans (first : Reaches builder middle) (second : Reaches middle built) :
    Reaches builder built := by
  obtain ⟨actions, run⟩ := first
  obtain ⟨more, further⟩ := second
  exact ⟨actions ++ more, run.trans further⟩

theorem one {action : Action} (moved : builder.act action = some built) : Reaches builder built :=
  ⟨[action], .step .refl moved⟩

end Reaches

/-! ## What an action changes -/

@[simp]
theorem vertices_insert (builder : GraphBuilder) (parent : NodeRef) (parentDesc : Nat)
    (node : NewNode) :
    (builder.insertToGraphAndParent parent parentDesc node).vertices =
      builder.vertices ++ [builder.nextRef] := rfl

@[simp]
theorem nextRef_insert (builder : GraphBuilder) (parent : NodeRef) (parentDesc : Nat)
    (node : NewNode) :
    (builder.insertToGraphAndParent parent parentDesc node).nextRef = builder.nextRef + 1 := rfl

/-- The vertices that are there stay where they are. -/
theorem act_vertices {builder built : GraphBuilder} {action : Action}
    (moved : builder.act action = some built) : builder.vertices <+: built.vertices := by
  cases action with
  | root node =>
    obtain rfl := Option.some.inj moved
    exact List.prefix_append _ _
  | child parent parentDesc node =>
    obtain ⟨-, rfl⟩ := of_guarded moved
    exact List.prefix_append _ _
  | label type text =>
    obtain ⟨-, rfl⟩ := of_guarded moved
    exact List.prefix_rfl
  | access type =>
    obtain ⟨-, rfl⟩ := of_guarded moved
    exact List.prefix_rfl

/-- Objects stay. -/
theorem act_nextRef {builder built : GraphBuilder} {action : Action}
    (moved : builder.act action = some built) : builder.nextRef ≤ built.nextRef := by
  cases action with
  | root node =>
    obtain rfl := Option.some.inj moved
    exact Nat.le_succ _
  | child parent parentDesc node =>
    obtain ⟨-, rfl⟩ := of_guarded moved
    exact Nat.le_succ _
  | label type text =>
    obtain ⟨-, rfl⟩ := of_guarded moved
    exact Nat.le_succ _
  | access type =>
    obtain ⟨-, rfl⟩ := of_guarded moved
    exact Nat.le_refl _

namespace Reaches

variable {builder built : GraphBuilder} (reaches : Reaches builder built)

include reaches

theorem vertices : builder.vertices <+: built.vertices := by
  obtain ⟨actions, run⟩ := reaches
  exact run.relation (fun first second => first.vertices <+: second.vertices)
    (fun _ => List.prefix_rfl) List.IsPrefix.trans act_vertices

theorem nextRef : builder.nextRef ≤ built.nextRef := by
  obtain ⟨actions, run⟩ := reaches
  exact run.relation (fun first second => first.nextRef ≤ second.nextRef)
    (fun _ => Nat.le_refl _) Nat.le_trans act_nextRef

end Reaches

/-- A node is the vertex at a place. -/
structure HasVertex (builder : GraphBuilder) (place : Nat) (ref : NodeRef) : Prop where
  at_place : builder.vertices[place]? = some ref
  made : ref < builder.nextRef

/-- A vertex keeps its place. -/
theorem Reaches.hasVertex {builder built : GraphBuilder} {place : Nat} {ref : NodeRef}
    (reaches : Reaches builder built) (isVertex : builder.HasVertex place ref) :
    built.HasVertex place ref := by
  obtain ⟨back, whole⟩ := reaches.vertices
  obtain ⟨inside, -⟩ := List.getElem?_eq_some_iff.mp isVertex.at_place
  refine ⟨?_, isVertex.made.trans_le reaches.nextRef⟩
  rw [← whole, List.getElem?_append_left inside, isVertex.at_place]

/-! ## What becomes of a child -/

/-- The kind of the node that a child becomes; comments are apart. -/
def kindOf (inType : Bool) (child : TsNode) : Option NodeKind :=
  let body := child.getChildByFieldName .body
  match child.type with
  | .namespaceDefinition => some .namespace_
  | .fieldDeclaration | .declaration => some .fieldDeclaration
  | .functionDefinition =>
      match child.getChildByFieldName .type with
      | some type => some (if type.text = "namespace".toList then .namespace_ else .funcDef)
      | none =>
          if (child.getChildByFieldName .declarator).any fun declarator =>
              declarator.type = .operatorCast then some .funcOperatorCast
          else some .funcSpecialMember
  | .templateDeclaration =>
      (templateKind child).map fun (realNode, isClass) =>
        if (realNode.getChildByFieldName .body).isNone then .textual
        else if isClass then .type else .funcDef
  | .accessSpecifier => if inType then some .accessSpecifier else none
  | .classSpecifier | .structSpecifier | .unionSpecifier =>
      some (if body.isSome then .type else .textual)
  | .enumSpecifier => some (if body.isSome then .enum else .textual)
  | .linkageSpecification =>
      some (if body.any fun body => body.type = .declaration ∨ body.type = .functionDefinition
        then .textual else .linkageSpecList)
  | type => if IsTextualNode type then some .textual else none

/-- The node with the body: behind the parameters of a template. -/
def realNode (child : TsNode) : TsNode :=
  if child.type = .templateDeclaration then ((templateKind child).map Prod.fst).getD child
  else child

def bodyOf (child : TsNode) : Option TsNode :=
  (realNode child).getChildByFieldName .body

/-- The syntax nodes that the children of a node are made of. -/
def composedOf (kind : NodeKind) (child : TsNode) : List TsNode :=
  if kind.isComposite then (bodyOf child).elim [] TsNode.children else []

/-- The text of a child that its node keeps. -/
def heldText (kind : NodeKind) (child : TsNode) : Text :=
  if kind = .textual ∨ kind = .fieldDeclaration ∨ kind = .enum then child.text
  else if kind.isFunction then (bodyOf child).elim [] TsNode.text
  else []

/-- The record of a node that a child becomes. -/
structure Describes (child : TsNode) (kind : NodeKind) (record : SemanticNode) : Prop where
  text : heldText kind child <+: record.body.toList
  isKind : record.kind = kind

/-- Orphans and files are made elsewhere, and access specifiers of access specifiers only. -/
theorem kindOf_spec {inType : Bool} {child : TsNode} {kind : NodeKind}
    (isKind : kindOf inType child = some kind) :
    kind ≠ .orphanComment ∧ kind ≠ .translationUnit ∧
      (kind = .accessSpecifier → child.type = .accessSpecifier) := by
  by_cases isSpecifier : child.type = .accessSpecifier
  · rw [kindOf, isSpecifier] at isKind
    dsimp only at isKind
    obtain ⟨-, rfl⟩ := of_guarded isKind
    exact ⟨nofun, nofun, fun _ => isSpecifier⟩
  · have other : kind ∈ [.namespace_, .fieldDeclaration, .funcDef, .funcOperatorCast,
        .funcSpecialMember, .textual, .type, .enum, .linkageSpecList] := by
      unfold kindOf at isKind
      dsimp only at isKind
      split at isKind
      case h_5 =>
        obtain ⟨⟨inner, isClass⟩, -, rfl⟩ := Option.map_eq_some_iff.mp isKind
        dsimp only
        split
        · simp
        · split <;> simp
      case h_6 isAccess => exact absurd isAccess isSpecifier
      case h_4 =>
        split at isKind
        · obtain rfl := Option.some.inj isKind
          split <;> simp
        · split at isKind <;> obtain rfl := Option.some.inj isKind <;> simp
      all_goals
        first
        | (obtain ⟨-, rfl⟩ := of_guarded isKind
           simp)
        | (obtain rfl := Option.some.inj isKind
           first | (split <;> simp) | simp)
    refine ⟨?_, ?_, ?_⟩ <;> rintro rfl <;> simp at other

/-- What a child is composed of is below it. -/
theorem nodes_of_composedOf {kind : NodeKind} {child inner : TsNode}
    (member : inner ∈ composedOf kind child) : inner.nodes ⊆ child.nodes := by
  unfold composedOf at member
  split at member
  · cases found : bodyOf child with
    | none =>
      rw [found] at member
      exact absurd member List.not_mem_nil
    | some body =>
      rw [found] at member
      have inBody := TsNode.nodes_subset member
      have isBody := TsNode.nodes_subset (TsNode.mem_of_getChildByFieldName found)
      refine List.Subset.trans (List.Subset.trans inBody isBody) ?_
      unfold realNode
      split
      · cases kind : templateKind child with
        | none => exact List.Subset.refl _
        | some chosen =>
          obtain ⟨childChild, inside, isChosen⟩ := List.exists_of_findSome?_eq_some kind
          have real : chosen.1 = childChild := by grind
          rw [← real] at inside
          exact TsNode.nodes_subset inside
      · exact List.Subset.refl _
  · exact absurd member List.not_mem_nil

section Describe

variable {site : Site} {extraction : Extraction}

theorem realNode_of_plain {child : TsNode} (plain : child.type ≠ .templateDeclaration) :
    realNode child = child :=
  if_neg plain

theorem realNode_of_template {child inner : TsNode} {isClass : Bool}
    (isTemplate : child.type = .templateDeclaration)
    (found : templateKind child = some (inner, isClass)) : realNode child = inner := by
  rw [realNode, if_pos isTemplate, found]
  rfl

theorem describes_textual : Describes site.child .textual site.parseTextualNode.record := by
  refine ⟨?_, rfl⟩
  have content : heldText .textual site.child = site.child.text := rfl
  rw [content, Site.parseTextualNode, String.toList_ofList, Site.textContent]
  split <;> split
  · rw [List.append_assoc]
    exact List.prefix_append _ _
  · exact List.prefix_append _ _
  · exact List.prefix_append _ _
  · exact List.prefix_rfl

theorem describes_field :
    Describes site.child .fieldDeclaration (site.parseFieldDeclarationNode extraction).record := by
  refine ⟨?_, rfl⟩
  have content : heldText .fieldDeclaration site.child = site.child.text := rfl
  have body : (site.parseFieldDeclarationNode extraction).record.body =
      Site.textOf site.child := rfl
  rw [content, body, Site.textOf, String.toList_ofList]

theorem describes_enum {eols : Int} :
    Describes site.child .enum { site.described extraction .enum with
      body := Site.textOf site.child
      beforeFirstChildEOL := eols } := by
  refine ⟨?_, rfl⟩
  have content : heldText .enum site.child = site.child.text := rfl
  rw [content, Site.textOf, String.toList_ofList]

theorem describes_function {kind : NodeKind} (isNode : kind ≠ .accessSpecifier)
    (isFunction : kind.isFunction = true) :
    Describes site.child kind
      (site.parseFunction extraction kind isNode (realNode site.child)).record := by
  refine ⟨?_, rfl⟩
  have held : heldText kind site.child = (bodyOf site.child).elim [] TsNode.text := by
    rw [heldText, if_neg, if_pos isFunction]
    rintro (rfl | rfl | rfl) <;> exact absurd isFunction nofun
  rw [held, Site.parseFunction, Site.named, bodyOf]
  dsimp only
  cases (realNode site.child).getChildByFieldName .body with
  | none => exact List.nil_prefix
  | some body =>
    simp only [Option.elim_some, Option.map_some, Option.getD_some, Site.textOf,
      String.toList_ofList]
    exact List.prefix_rfl

/-- Other composite nodes and comments keep no text. -/
theorem describes_other {child : TsNode} {kind : NodeKind} {record : SemanticNode}
    (isKind : record.kind = kind)
    (other : kind ∈ [.type, .namespace_, .linkageSpecList, .orphanComment]) :
    Describes child kind record := by
  refine ⟨?_, isKind⟩
  have held : heldText kind child = [] := by
    simp only [List.mem_cons, List.not_mem_nil, or_false] at other
    rcases other with rfl | rfl | rfl | rfl <;> rfl
  rw [held]
  exact List.nil_prefix

end Describe

section Children

variable {extraction : Extraction} (parseBody : ParseBody) (builder : GraphBuilder)
  (sRoot : NodeRef) (sRootDesc : Nat)

/-- What is inserted below a composite node for a child, with the kind of the node. -/
inductive Inserts (child : TsNode) : Option NodeKind → GraphBuilder → Prop
  | nothing : Inserts child none builder
  | terminal {kind : NodeKind} (node : NewNode) (isTerminal : kind.isComposite = false)
      (describes : Describes child kind node.record) :
      Inserts child (some kind) (insertTerminal sRoot sRootDesc builder node)
  | label : Inserts child (some .accessSpecifier) (builder.pushAccessSpecifier sRoot child.text)
  | composite {kind : NodeKind} {node : NewNode} {inner : TsNode} {built : GraphBuilder}
      (isComposite : kind.isComposite = true) (other : kind ≠ .type)
      (describes : Describes child kind node.record) (real : realNode child = inner)
      (inserted : insertComposite parseBody sRoot sRootDesc builder node inner = some built) :
      Inserts child (some kind) built
  | type {node : NewNode} {inner : TsNode} {built : GraphBuilder}
      (describes : Describes child .type node.record) (real : realNode child = inner)
      (inserted : insertType parseBody sRoot sRootDesc builder node inner = some built) :
      Inserts child (some .type) built

/-- Siblings that are skipped are comments. -/
def SkipsComments (next : List TsNode) (skipped : Nat) : Prop :=
  ∀ sibling ∈ next.take skipped, sibling.type = .comment

variable {parseBody builder sRoot sRootDesc} {site : Site} {built : GraphBuilder × Nat}

theorem skips_none (next : List TsNode) : SkipsComments next 0 := by
  simp [SkipsComments]

theorem collectComments_positive (orphan : Bool) (comment : Sibling) (next : List Sibling) :
    0 < (collectComments orphan comment next).2.2 := by
  cases next with
  | nil => exact Nat.one_pos
  | cons first rest =>
    rw [collectComments]
    split
    · exact Nat.succ_pos _
    · exact Nat.one_pos

/-- The comments of an orphan. -/
theorem collectComments_comments (orphan : Bool) (comment : Sibling) (next : List Sibling) :
    ∀ sibling ∈ next.take ((collectComments orphan comment next).2.2 - 1),
      sibling.isComment = true := by
  induction next generalizing comment with
  | nil => simp
  | cons first rest inductionHypothesis =>
    rw [collectComments]
    split
    · rename_i isComment
      intro sibling member
      have count : (collectComments orphan first rest).2.2 =
          (collectComments orphan first rest).2.2 - 1 + 1 := by
        have positive := collectComments_positive orphan first rest
        omega
      simp only [Nat.add_sub_cancel] at member
      rw [count, List.take_succ_cons] at member
      rcases List.mem_cons.mp member with rfl | later
      · exact isComment
      · exact inductionHypothesis first sibling later
    · simp

/-- The siblings behind a comment that are taken with it are comments. -/
theorem getComment_skips (previous : Option Sibling) (commentNode : Sibling) (next : List TsNode) :
    SkipsComments next ((getComment previous commentNode (next.map TsNode.sibling)).2.2 - 1) := by
  intro sibling member
  have inside : sibling.sibling ∈ (next.map TsNode.sibling).take
      ((getComment previous commentNode (next.map TsNode.sibling)).2.2 - 1) := by
    rw [← List.map_take]
    exact List.mem_map_of_mem member
  have comments := collectComments_comments (onRowOf previous commentNode) commentNode
    (next.map TsNode.sibling)
  simpa [TsNode.sibling] using comments _ inside

theorem insertNamespace_inserts (plain : site.child.type ≠ .templateDeclaration)
    (inserted : insertNamespace extraction parseBody sRoot sRootDesc builder site = some built) :
    Inserts parseBody builder sRoot sRootDesc site.child (some .namespace_) built.1 ∧
      SkipsComments site.next built.2 := by
  obtain ⟨node, parsed, later⟩ := Option.bind_eq_some_iff.mp inserted
  obtain ⟨middle, composite, ended⟩ := Option.bind_eq_some_iff.mp later
  obtain rfl := Option.some.inj ended
  obtain ⟨eols, -, isNode⟩ := Option.bind_eq_some_iff.mp parsed
  obtain rfl := Option.some.inj isNode
  have real := realNode_of_plain plain
  refine ⟨.composite rfl nofun (describes_other rfl (by decide)) real composite, ?_⟩
  -- The comment that is skipped is the one that has been taken.
  intro sibling member
  simp only [Site.nsComment] at member
  cases next : site.next with
  | nil => simp [next] at member
  | cons commentNode rest =>
    simp only [next, List.head?_cons] at member
    by_cases isComment : commentNode.type = .comment ∧
        commentNode.startPoint.row = site.child.endPoint.row
    · rw [if_pos isComment] at member
      split at member
      · obtain rfl : sibling = commentNode := by simpa using member
        exact isComment.1
      · simp at member
    · simp [isComment] at member

theorem insertFunction_inserts (isFunction : site.child.type = .functionDefinition)
    (inserted : insertFunction extraction parseBody sRoot sRootDesc builder site = some built)
    (inType : Bool) :
    Inserts parseBody builder sRoot sRootDesc site.child (kindOf inType site.child) built.1 ∧
      SkipsComments site.next built.2 := by
  have plain : site.child.type ≠ .templateDeclaration := by
    rw [isFunction]
    exact nofun
  have describes : ∀ {kind : NodeKind} (isNode : kind ≠ .accessSpecifier),
      kind.isFunction = true →
        Describes site.child kind (site.parseFunction extraction kind isNode site.child).record := by
    intro kind isNode isFunction
    have described := @describes_function site extraction kind isNode isFunction
    rwa [realNode_of_plain plain] at described
  unfold insertFunction at inserted
  rw [kindOf, isFunction]
  dsimp only
  cases found : site.child.getChildByFieldName .type with
  | some type =>
    rw [found] at inserted
    dsimp only at inserted ⊢
    split at inserted
    · rename_i isNamespace
      rw [if_pos isNamespace]
      exact insertNamespace_inserts plain inserted
    · rename_i isNamespace
      obtain ⟨node, parsed, ended⟩ := Option.bind_eq_some_iff.mp inserted
      obtain rfl := Option.some.inj ended
      obtain ⟨declarator, -, isNode⟩ := Option.bind_eq_some_iff.mp parsed
      obtain rfl := Option.some.inj isNode
      rw [if_neg isNamespace]
      exact ⟨.terminal _ rfl (describes _ rfl), skips_none _⟩
  | none =>
    rw [found] at inserted
    dsimp only at inserted ⊢
    split at inserted
    · rename_i isCast
      obtain rfl := Option.some.inj inserted
      rw [if_pos isCast]
      exact ⟨.terminal _ rfl (describes _ rfl), skips_none _⟩
    · rename_i isCast
      obtain rfl := Option.some.inj inserted
      rw [if_neg isCast]
      exact ⟨.terminal _ rfl (describes _ rfl), skips_none _⟩

theorem insertTemplate_inserts (isTemplate : site.child.type = .templateDeclaration)
    (inserted : insertTemplate extraction parseBody sRoot sRootDesc builder site = some built)
    (inType : Bool) :
    Inserts parseBody builder sRoot sRootDesc site.child (kindOf inType site.child) built.1 ∧
      SkipsComments site.next built.2 := by
  unfold insertTemplate at inserted
  rw [kindOf, isTemplate]
  dsimp only
  split at inserted
  · rename_i inner isClass found
    have real := realNode_of_template isTemplate found
    rw [found]
    dsimp only [Option.map_some]
    split at inserted
    · rename_i noBody
      obtain rfl := Option.some.inj inserted
      rw [if_pos noBody]
      exact ⟨.terminal _ rfl describes_textual, skips_none _⟩
    · rename_i noBody
      rw [if_neg noBody]
      split at inserted
      · rename_i isClass
        obtain ⟨node, parsed, later⟩ := Option.bind_eq_some_iff.mp inserted
        obtain ⟨middle, composite, ended⟩ := Option.bind_eq_some_iff.mp later
        obtain rfl := Option.some.inj ended
        obtain ⟨eols, -, isNode⟩ := Option.bind_eq_some_iff.mp parsed
        obtain rfl := Option.some.inj isNode
        rw [if_pos isClass]
        exact ⟨.type (describes_other rfl (by decide)) real composite, skips_none _⟩
      · rename_i isClass
        obtain ⟨node, parsed, ended⟩ := Option.bind_eq_some_iff.mp inserted
        obtain rfl := Option.some.inj ended
        obtain ⟨declarator, -, isNode⟩ := Option.bind_eq_some_iff.mp parsed
        obtain rfl := Option.some.inj isNode
        rw [if_neg isClass]
        have describes := @describes_function site extraction .funcDef (by decide) rfl
        rw [real] at describes
        exact ⟨.terminal _ rfl describes, skips_none _⟩
  · rename_i missing
    obtain rfl := Option.some.inj inserted
    rw [missing]
    exact ⟨.nothing, skips_none _⟩

theorem insertComplex_inserts (isComplex : site.child.type ∈ ComplexTypes)
    (inserted : insertComplex extraction parseBody sRoot sRootDesc builder site = some built)
    (inType : Bool) :
    Inserts parseBody builder sRoot sRootDesc site.child (kindOf inType site.child) built.1 ∧
      SkipsComments site.next built.2 := by
  have textual : ∀ {built : GraphBuilder × Nat},
      some (insertTerminal sRoot sRootDesc builder site.parseTextualNode, 0) = some built →
        Inserts parseBody builder sRoot sRootDesc site.child (some .textual) built.1 ∧
          SkipsComments site.next built.2 := by
    intro built ended
    obtain rfl := Option.some.inj ended
    exact ⟨.terminal _ rfl describes_textual, skips_none _⟩
  have real : realNode site.child = site.child := by
    refine realNode_of_plain fun isTemplate => ?_
    rw [isTemplate] at isComplex
    exact absurd isComplex (by decide)
  have classes : IsClassSpecifier site.child.type = true →
      kindOf inType site.child =
        some (if (site.child.getChildByFieldName .body).isSome then .type else .textual) := by
    intro isClass
    rw [kindOf]
    cases type : site.child.type <;> simp_all [IsClassSpecifier]
  unfold insertComplex at inserted
  dsimp only at inserted
  split at inserted
  · rename_i missing
    split at inserted
    · exact absurd inserted nofun
    · rename_i noLinkage
      have isTextual : kindOf inType site.child = some .textual := by
        rw [kindOf, missing]
        cases type : site.child.type <;> simp_all [ComplexTypes]
      rw [isTextual]
      exact textual inserted
  · rename_i body found
    split at inserted
    · rename_i isClass
      obtain ⟨node, parsed, later⟩ := Option.bind_eq_some_iff.mp inserted
      obtain ⟨middle, composite, ended⟩ := Option.bind_eq_some_iff.mp later
      obtain rfl := Option.some.inj ended
      obtain ⟨eols, -, isNode⟩ := Option.bind_eq_some_iff.mp parsed
      obtain rfl := Option.some.inj isNode
      rw [classes isClass, found]
      exact ⟨.type (describes_other rfl (by decide)) real composite, skips_none _⟩
    · rename_i noClass
      split at inserted
      · rename_i isLinkage
        rw [kindOf, isLinkage, found]
        dsimp only [Option.any_some]
        split at inserted
        · rename_i isDeclaration
          rw [if_pos (by simpa using isDeclaration)]
          exact textual inserted
        · rename_i isDeclaration
          obtain ⟨node, parsed, later⟩ := Option.bind_eq_some_iff.mp inserted
          obtain ⟨middle, composite, ended⟩ := Option.bind_eq_some_iff.mp later
          obtain rfl := Option.some.inj ended
          obtain ⟨eols, -, isNode⟩ := Option.bind_eq_some_iff.mp parsed
          obtain rfl := Option.some.inj isNode
          rw [if_neg (by simpa using isDeclaration)]
          exact ⟨.composite rfl nofun (describes_other rfl (by decide)) real composite,
            skips_none _⟩
      · rename_i noLinkage
        have isEnum : site.child.type = .enumSpecifier := by
          cases type : site.child.type <;> simp_all [ComplexTypes, IsClassSpecifier]
        obtain ⟨node, parsed, later⟩ := Option.bind_eq_some_iff.mp inserted
        obtain ⟨middle, composite, ended⟩ := Option.bind_eq_some_iff.mp later
        obtain rfl := Option.some.inj ended
        obtain ⟨eols, -, isNode⟩ := Option.bind_eq_some_iff.mp parsed
        obtain rfl := Option.some.inj isNode
        rw [kindOf, isEnum, found]
        exact ⟨.composite rfl nofun describes_enum real composite, skips_none _⟩

/-- A comment becomes an orphan, or nothing. -/
theorem insertComment_inserts :
    ∃ kind, (kind = none ∨ kind = some .orphanComment) ∧
      Inserts parseBody builder sRoot sRootDesc site.child kind
        (insertComment sRoot sRootDesc builder site).1 ∧
      SkipsComments site.next (insertComment sRoot sRootDesc builder site).2 := by
  unfold insertComment
  dsimp only
  split
  · exact ⟨_, .inr rfl, .terminal _ rfl (describes_other rfl (by decide)),
      getComment_skips _ _ _⟩
  · exact ⟨_, .inl rfl, .nothing, skips_none _⟩

/-- What becomes of a child, and which siblings are skipped. -/
theorem parseChild_inserts
    (parsed : parseChild extraction parseBody sRoot sRootDesc builder site = some built) :
    (∃ kind, (site.child.type = .comment → kind = none ∨ kind = some .orphanComment) ∧
      (site.child.type ≠ .comment →
        kind = kindOf ((builder.heap sRoot).kind = .type) site.child) ∧
      Inserts parseBody builder sRoot sRootDesc site.child kind built.1) ∧
      SkipsComments site.next built.2 := by
  unfold parseChild at parsed
  dsimp only at parsed
  by_cases isComment : site.child.type = .comment
  · rw [if_neg (by rw [isComment]; decide), if_pos (by rw [isComment]; decide),
      if_neg (by rw [isComment]; decide), if_pos isComment] at parsed
    obtain rfl := Option.some.inj parsed
    obtain ⟨kind, either, inserts, skips⟩ := insertComment_inserts
    exact ⟨⟨kind, fun _ => either, fun other => absurd isComment other, inserts⟩, skips⟩
  · suffices Inserts parseBody builder sRoot sRootDesc site.child
          (kindOf ((builder.heap sRoot).kind = .type) site.child) built.1 ∧
        SkipsComments site.next built.2 from
      ⟨⟨_, fun here => absurd here isComment, fun _ => rfl, this.1⟩, this.2⟩
    have passed : ∀ {built : GraphBuilder × Nat}, some (builder, 0) = some built →
        Inserts parseBody builder sRoot sRootDesc site.child none built.1 ∧
          SkipsComments site.next built.2 := by
      intro built ended
      obtain rfl := Option.some.inj ended
      exact ⟨.nothing, skips_none _⟩
    split at parsed
    · rename_i isNamespace
      have type : site.child.type = .namespaceDefinition := by
        simpa [CompositeTypes] using isNamespace
      rw [kindOf, type]
      exact insertNamespace_inserts (by rw [type]; exact nofun) parsed
    · split at parsed
      · rename_i isTerminal
        split at parsed
        · rename_i isTextual
          obtain rfl := Option.some.inj parsed
          have textual : kindOf ((builder.heap sRoot).kind = .type) site.child =
              some .textual := by
            rw [kindOf]
            cases type : site.child.type <;> simp_all [IsTextualNode]
          rw [textual]
          exact ⟨.terminal _ rfl describes_textual, skips_none _⟩
        · rename_i notTextual
          split at parsed
          · rename_i isField
            obtain rfl := Option.some.inj parsed
            have field : kindOf ((builder.heap sRoot).kind = .type) site.child =
                some .fieldDeclaration := by
              rw [kindOf]
              rcases isField with type | type <;> rw [type]
            rw [field]
            exact ⟨.terminal _ rfl describes_field, skips_none _⟩
          · rename_i notField
            split at parsed
            · rename_i isFunction
              exact insertFunction_inserts isFunction parsed _
            · rename_i notFunction
              split at parsed
              · rename_i isTemplate
                exact insertTemplate_inserts isTemplate parsed _
              · rename_i notTemplate
                split at parsed
                · rename_i isSpecifier
                  rw [kindOf, isSpecifier]
                  dsimp only
                  split at parsed
                  · rename_i inType
                    obtain rfl := Option.some.inj parsed
                    rw [if_pos (by simpa using inType)]
                    exact ⟨.label, skips_none _⟩
                  · rename_i inType
                    rw [if_neg (by simpa using inType)]
                    exact passed parsed
                · rename_i notSpecifier
                  -- Directives that are terminal and not textual are lost.
                  have lost : kindOf ((builder.heap sRoot).kind = .type) site.child = none := by
                    rw [kindOf]
                    cases type : site.child.type <;>
                      simp_all [TerminalTypes, CompositeTypes, IsTextualNode]
                  rw [lost]
                  exact passed parsed
      · rename_i notTerminal
        split at parsed
        · rename_i isComplex
          exact insertComplex_inserts isComplex parsed _
        · rename_i notComplex
          have lost : kindOf ((builder.heap sRoot).kind = .type) site.child = none := by
            rw [kindOf]
            cases type : site.child.type <;>
              simp_all [TerminalTypes, CompositeTypes, ComplexTypes, IsTextualNode]
          rw [lost]
          exact passed parsed

end Children

end GraphBuilder

end MergeBot
