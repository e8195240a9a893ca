import MergeBot.Semantic.BuiltForest

/-!
# The graph represents the syntax trees

`Represents` relates the children of a node, and all that is below them, to the syntax nodes that
they were made of. Nodes are numbered in the order of the source text, a node in front of what is
below it, so that an interval of numbers holds a part of the tree. `build_represents` says that
the objects of a graph are the trees of its sources, one behind the other: every syntax node that
is neither a comment nor lost has its node, of its kind, at its place and with its text.
-/

namespace MergeBot

open Foundation

/-! ## Access of members -/

section Access

variable {specifierText specifierText' : NodeRef → Text} {heap heap' : Heap}

/-- Only the texts of the children count. -/
theorem setAccess_congr (heap : Heap) (accessKind : AccessSpecifierKind)
    {children : List NodeRef}
    (texts : ∀ child ∈ children, specifierText' child = specifierText child) :
    TypeDeclNode.setAccess specifierText' heap accessKind children =
      TypeDeclNode.setAccess specifierText heap accessKind children := by
  induction children generalizing heap accessKind with
  | nil => rfl
  | cons child rest inductionHypothesis =>
    have later := fun heap accessKind => inductionHypothesis heap accessKind
      fun child member => texts child (List.mem_cons_of_mem _ member)
    rw [TypeDeclNode.setAccess, TypeDeclNode.setAccess, later, later,
      texts child List.mem_cons_self]

/-- The access of members is a matter of the type node and its children. -/
theorem TypeDeclNode.MemberAccessSet.congr {type : NodeRef}
    (set : MemberAccessSet specifierText heap type)
    (children : (heap' type).children = (heap type).children)
    (same : ∀ child ∈ (heap type).children, heap' child = heap child)
    (texts : ∀ child ∈ (heap type).children, specifierText' child = specifierText child) :
    MemberAccessSet specifierText' heap' type := by
  obtain ⟨before, sameChildren, unset, access⟩ := set
  refine ⟨before, sameChildren.trans children.symm, ?_, ?_⟩
  · rw [children]
    exact unset
  · rw [children]
    intro child member
    have called : setMemberAccessSpecifier specifierText' before type =
        setMemberAccessSpecifier specifierText before type := by
      rw [setMemberAccessSpecifier, setMemberAccessSpecifier]
      rw [← sameChildren] at texts
      cases shape : (before type).children with
      | nil => rfl
      | cons firstChild rest =>
        rw [shape] at texts
        dsimp only
        rw [texts firstChild List.mem_cons_self]
        exact setAccess_congr before _ fun child member =>
          texts child (List.mem_cons_of_mem _ member)
    rw [same child member, called]
    exact access child member

end Access

namespace GraphBuilder

/-! ## Representation -/

/-- The objects from `low` to `high` are the nodes `refs` and all below them, and were made of the
syntax nodes. Whether the node above is a type decides on access specifiers. -/
inductive Represents (specifierText : NodeRef → Text) (heap : Heap) :
    Bool → NodeRef → List NodeRef → List TsNode → NodeRef → Prop
  | done {inType : Bool} {low : NodeRef} : Represents specifierText heap inType low [] [] low
  | comment {inType : Bool} {low high : NodeRef} {refs : List NodeRef} {child : TsNode}
      {nodes : List TsNode} (isComment : child.type = .comment)
      (rest : Represents specifierText heap inType low refs nodes high) :
      Represents specifierText heap inType low refs (child :: nodes) high
  | orphan {inType : Bool} {low high : NodeRef} {refs : List NodeRef} {child : TsNode}
      {nodes : List TsNode} (isComment : child.type = .comment)
      (isOrphan : (heap low).kind = .orphanComment) (childless : (heap low).children = [])
      (rest : Represents specifierText heap inType (low + 1) refs nodes high) :
      Represents specifierText heap inType low (low :: refs) (child :: nodes) high
  | lost {inType : Bool} {low high : NodeRef} {refs : List NodeRef} {child : TsNode}
      {nodes : List TsNode} (isNode : child.type ≠ .comment)
      (noKind : kindOf inType child = none)
      (rest : Represents specifierText heap inType low refs nodes high) :
      Represents specifierText heap inType low refs (child :: nodes) high
  | node {inType : Bool} {low middle high : NodeRef} {refs : List NodeRef} {child : TsNode}
      {nodes : List TsNode} {kind : NodeKind} (isNode : child.type ≠ .comment)
      (isKind : kindOf inType child = some kind) (describes : Describes child kind (heap low))
      (label : kind = .accessSpecifier → specifierText low = child.text)
      (access : kind = .type → TypeDeclNode.MemberAccessSet specifierText heap low)
      (below : Represents specifierText heap (kind = .type) (low + 1) (heap low).children
        (composedOf kind child) middle)
      (rest : Represents specifierText heap inType middle refs nodes high) :
      Represents specifierText heap inType low (low :: refs) (child :: nodes) high

/-- The text of an access specifier that names an access. -/
def NamesKeyword (text : Text) : Prop :=
  ∃ keyword ∈ TypeDeclNode.keywords, keyword <:+: text

namespace Represents

variable {specifierText specifierText' : NodeRef → Text} {heap heap' : Heap} {inType : Bool}
  {low middle high : NodeRef} {refs more : List NodeRef} {nodes others : List TsNode}

theorem le (represents : Represents specifierText heap inType low refs nodes high) :
    low ≤ high := by
  induction represents with
  | done => exact Nat.le_refl _
  | comment _ _ inductionHypothesis => exact inductionHypothesis
  | orphan _ _ _ _ inductionHypothesis => exact (Nat.le_succ _).trans inductionHypothesis
  | lost _ _ _ inductionHypothesis => exact inductionHypothesis
  | node _ _ _ _ _ _ _ belowHypothesis restHypothesis =>
    exact (Nat.le_succ _).trans (belowHypothesis.trans restHypothesis)

/-- The nodes are in the interval. -/
theorem bounds (represents : Represents specifierText heap inType low refs nodes high) :
    ∀ ref ∈ refs, low ≤ ref ∧ ref < high := by
  induction represents with
  | done => simp
  | comment _ _ inductionHypothesis => exact inductionHypothesis
  | orphan _ _ _ rest inductionHypothesis =>
    intro ref member
    rcases List.mem_cons.mp member with rfl | later
    · exact ⟨Nat.le_refl _, rest.le⟩
    · exact ⟨(Nat.le_succ _).trans (inductionHypothesis ref later).1,
        (inductionHypothesis ref later).2⟩
  | lost _ _ _ inductionHypothesis => exact inductionHypothesis
  | node _ _ _ _ _ below rest _ restHypothesis =>
    have up := below.le
    intro ref member
    rcases List.mem_cons.mp member with rfl | later
    · exact ⟨Nat.le_refl _, Nat.lt_of_succ_le (up.trans rest.le)⟩
    · exact ⟨((Nat.le_succ _).trans up).trans (restHypothesis ref later).1,
        (restHypothesis ref later).2⟩

/-- Two parts of a tree, one behind the other. -/
theorem append (first : Represents specifierText heap inType low refs nodes middle)
    (second : Represents specifierText heap inType middle more others high) :
    Represents specifierText heap inType low (refs ++ more) (nodes ++ others) high := by
  induction first with
  | done => exact second
  | comment isComment _ inductionHypothesis =>
    exact .comment isComment (inductionHypothesis second)
  | orphan isComment isOrphan childless _ inductionHypothesis =>
    exact .orphan isComment isOrphan childless (inductionHypothesis second)
  | lost isNode noKind _ inductionHypothesis =>
    exact .lost isNode noKind (inductionHypothesis second)
  | node isNode isKind describes label access below _ _ restHypothesis =>
    exact .node isNode isKind describes label access below (restHypothesis second)

/-- Objects outside the interval do not count, nor does the access of the nodes on top. -/
theorem congr (represents : Represents specifierText heap inType low refs nodes high)
    (same : ∀ ref, low ≤ ref → ref < high → heap' ref = heap ref ∨
      ref ∈ refs ∧ ∃ access, heap' ref = { heap ref with accessSpecifier := access })
    (texts : ∀ ref, low ≤ ref → ref < high → specifierText' ref = specifierText ref) :
    Represents specifierText' heap' inType low refs nodes high := by
  induction represents with
  | done => exact .done
  | comment isComment _ inductionHypothesis =>
    exact .comment isComment (inductionHypothesis same texts)
  | lost isNode noKind _ inductionHypothesis =>
    exact .lost isNode noKind (inductionHypothesis same texts)
  | @orphan inType low high refs child nodes isComment isOrphan childless rest inductionHypothesis =>
    have here : (heap' low).kind = (heap low).kind ∧
        (heap' low).children = (heap low).children := by
      rcases same low (Nat.le_refl _) rest.le with same | ⟨-, access, same⟩ <;> simp [same]
    refine .orphan isComment (here.1.trans isOrphan) (here.2.trans childless)
      (inductionHypothesis (fun ref up down => ?_) fun ref up down => ?_)
    · refine (same ref (Nat.le_of_succ_le up) down).imp id fun ⟨member, access⟩ => ⟨?_, access⟩
      exact (List.mem_cons.mp member).resolve_left (Nat.ne_of_gt up)
    · exact texts ref (Nat.le_of_succ_le up) down
  | @node inType low middle high refs child nodes kind isNode isKind describes label access below
      rest belowHypothesis restHypothesis =>
    have up := below.le
    have down := rest.le
    have inside : low < high := Nat.lt_of_succ_le (up.trans down)
    have here : (heap' low).kind = (heap low).kind ∧ (heap' low).body = (heap low).body ∧
        (heap' low).children = (heap low).children := by
      rcases same low (Nat.le_refl _) inside with same | ⟨-, access, same⟩ <;> simp [same]
    -- What is below is in no interval of the nodes on top.
    have deep : ∀ ref, low + 1 ≤ ref → ref < middle → heap' ref = heap ref := by
      intro ref later early
      refine (same ref (Nat.le_of_succ_le later) (early.trans_le down)).resolve_right ?_
      rintro ⟨member, -⟩
      rcases List.mem_cons.mp member with rfl | onTop
      · exact absurd later (Nat.not_succ_le_self _)
      · exact absurd early (Nat.not_lt_of_le (rest.bounds ref onTop).1)
    have deepTexts : ∀ ref, low + 1 ≤ ref → ref < middle →
        specifierText' ref = specifierText ref :=
      fun ref later early => texts ref (Nat.le_of_succ_le later) (early.trans_le down)
    refine .node isNode isKind ⟨?_, here.1.trans describes.isKind⟩ ?_ ?_ ?_
      (restHypothesis (fun ref later early => ?_) fun ref later early => ?_)
    · rw [here.2.1]
      exact describes.text
    · exact fun isLabel => (texts low (Nat.le_refl _) inside).trans (label isLabel)
    · intro isType
      refine (access isType).congr here.2.2 (fun child member => ?_) fun child member => ?_
      · exact deep child (below.bounds child member).1 (below.bounds child member).2
      · exact deepTexts child (below.bounds child member).1 (below.bounds child member).2
    · rw [here.2.2]
      exact belowHypothesis (fun ref later early => .inl (deep ref later early)) deepTexts
    · have beyond : low < ref := Nat.lt_of_lt_of_le (Nat.lt_of_succ_le up) later
      refine (same ref beyond.le early).imp id fun ⟨member, access⟩ => ⟨?_, access⟩
      exact (List.mem_cons.mp member).resolve_left beyond.ne'
    · exact texts ref (Nat.le_of_succ_le (up.trans later)) early

/-- The kinds of the nodes on top are those of the syntax nodes, orphans apart. -/
theorem kinds (represents : Represents specifierText heap inType low refs nodes high) :
    (refs.map fun ref => (heap ref).kind).filter (· ≠ .orphanComment) =
      (nodes.filter fun child => child.type ≠ .comment).filterMap (kindOf inType) := by
  induction represents with
  | done => rfl
  | comment isComment _ inductionHypothesis => simpa [isComment] using inductionHypothesis
  | orphan isComment isOrphan _ _ inductionHypothesis =>
    simpa [isComment, isOrphan] using inductionHypothesis
  | lost isNode noKind _ inductionHypothesis =>
    simpa [isNode, noKind] using inductionHypothesis
  | node isNode isKind describes _ _ _ _ _ restHypothesis =>
    have noOrphan := (kindOf_spec isKind).1
    simpa [isNode, isKind, describes.isKind, noOrphan] using restHypothesis

/-- An object of the interval is a node on top, or a child of an object of the interval. -/
theorem owned (represents : Represents specifierText heap inType low refs nodes high) :
    ∀ ref, low ≤ ref → ref < high →
      ref ∈ refs ∨ ∃ above, low ≤ above ∧ above < high ∧ ref ∈ (heap above).children := by
  induction represents with
  | done => exact fun ref later early => absurd early (Nat.not_lt_of_le later)
  | comment _ _ inductionHypothesis => exact inductionHypothesis
  | @orphan inType low high _ _ _ _ _ _ rest inductionHypothesis =>
    intro ref later early
    rcases Nat.eq_or_lt_of_le later with rfl | beyond
    · exact .inl List.mem_cons_self
    · refine (inductionHypothesis ref beyond early).imp (List.mem_cons_of_mem _) ?_
      rintro ⟨above, up, down, isChild⟩
      exact ⟨above, Nat.le_of_succ_le up, down, isChild⟩
  | lost _ _ _ inductionHypothesis => exact inductionHypothesis
  | @node inType low middle high _ _ _ _ _ _ _ _ _ below rest belowHypothesis restHypothesis =>
    have up := below.le
    have down := rest.le
    intro ref later early
    rcases Nat.eq_or_lt_of_le later with rfl | beyond
    · exact .inl List.mem_cons_self
    · rcases Nat.lt_or_ge ref middle with inside | behind
      · refine .inr ?_
        rcases belowHypothesis ref beyond inside with isChild | ⟨above, lower, upper, isChild⟩
        · exact ⟨low, Nat.le_refl _, Nat.lt_of_succ_le (up.trans down), isChild⟩
        · exact ⟨above, Nat.le_of_succ_le lower, upper.trans_le down, isChild⟩
      · refine (restHypothesis ref behind early).imp (List.mem_cons_of_mem _) ?_
        rintro ⟨above, lower, upper, isChild⟩
        exact ⟨above, (Nat.le_of_succ_le up).trans lower, upper, isChild⟩

/-- No object of the interval is a translation unit. -/
theorem noUnit (represents : Represents specifierText heap inType low refs nodes high) :
    ∀ ref, low ≤ ref → ref < high → (heap ref).kind ≠ .translationUnit := by
  induction represents with
  | done => exact fun ref later early => absurd early (Nat.not_lt_of_le later)
  | comment _ _ inductionHypothesis => exact inductionHypothesis
  | orphan _ isOrphan _ _ inductionHypothesis =>
    intro ref later early
    rcases Nat.eq_or_lt_of_le later with rfl | beyond
    · rw [isOrphan]
      exact nofun
    · exact inductionHypothesis ref beyond early
  | lost _ _ _ inductionHypothesis => exact inductionHypothesis
  | @node _ _ middle _ _ _ _ _ _ isKind describes _ _ _ _ belowHypothesis restHypothesis =>
    intro ref later early
    rcases Nat.eq_or_lt_of_le later with rfl | beyond
    · rw [describes.isKind]
      exact (kindOf_spec isKind).2.1
    · rcases Nat.lt_or_ge ref middle with inside | behind
      · exact belowHypothesis ref beyond inside
      · exact restHypothesis ref behind early

theorem childNoUnit (represents : Represents specifierText heap inType low refs nodes high) :
    ∀ above, low ≤ above → above < high → ∀ ref ∈ (heap above).children,
      (heap ref).kind ≠ .translationUnit := by
  induction represents with
  | done => exact fun above later early => absurd early (Nat.not_lt_of_le later)
  | comment _ _ inductionHypothesis => exact inductionHypothesis
  | orphan _ _ childless _ inductionHypothesis =>
    intro above later early
    rcases Nat.eq_or_lt_of_le later with rfl | beyond
    · rw [childless]
      exact fun ref isChild => absurd isChild List.not_mem_nil
    · exact inductionHypothesis above beyond early
  | lost _ _ _ inductionHypothesis => exact inductionHypothesis
  | @node _ _ middle _ _ _ _ _ _ _ _ _ _ below _ belowHypothesis restHypothesis =>
    intro above later early
    rcases Nat.eq_or_lt_of_le later with rfl | beyond
    · intro ref isChild
      obtain ⟨first, last⟩ := below.bounds ref isChild
      exact below.noUnit ref first last
    · rcases Nat.lt_or_ge above middle with inside | behind
      · exact belowHypothesis above beyond inside
      · exact restHypothesis above behind early

/-- The members of every type have got their access, and the texts of access specifiers are those
of the source. -/
theorem accessSet (represents : Represents specifierText heap inType low refs nodes high)
    (named : ∀ child ∈ nodes, ∀ inner ∈ child.nodes,
      inner.type = .accessSpecifier → NamesKeyword inner.text) :
    ∀ ref, low ≤ ref → ref < high →
      ((heap ref).kind = .type → TypeDeclNode.MemberAccessSet specifierText heap ref) ∧
        ((heap ref).kind = .accessSpecifier → NamesKeyword (specifierText ref)) := by
  induction represents with
  | done => exact fun ref later early => absurd early (Nat.not_lt_of_le later)
  | comment _ _ inductionHypothesis =>
    exact inductionHypothesis fun child member => named child (List.mem_cons_of_mem _ member)
  | orphan _ isOrphan _ _ inductionHypothesis =>
    intro ref later early
    rcases Nat.eq_or_lt_of_le later with rfl | beyond
    · rw [isOrphan]
      exact ⟨nofun, nofun⟩
    · exact inductionHypothesis (fun child member => named child (List.mem_cons_of_mem _ member))
        ref beyond early
  | lost _ _ _ inductionHypothesis =>
    exact inductionHypothesis fun child member => named child (List.mem_cons_of_mem _ member)
  | @node _ low middle _ _ child _ kind _ isKind describes label access _ _ belowHypothesis
      restHypothesis =>
    intro ref later early
    rcases Nat.eq_or_lt_of_le later with rfl | beyond
    · rw [describes.isKind]
      refine ⟨access, fun isLabel => ?_⟩
      rw [label isLabel]
      exact named child List.mem_cons_self child child.self_mem_nodes
        ((kindOf_spec isKind).2.2 isLabel)
    · rcases Nat.lt_or_ge ref middle with inside | behind
      · refine belowHypothesis (fun inner member => ?_) ref beyond inside
        exact fun deep isDeep => named child List.mem_cons_self deep
          (nodes_of_composedOf member isDeep)
      · exact restHypothesis
          (fun other member => named other (List.mem_cons_of_mem _ member)) ref behind early

end Represents

/-! ## What handling some syntax nodes does -/

/-- The children of a node grow by what represents some syntax nodes, and no other object that was
there changes. -/
structure Grows (sRoot : NodeRef) (nodes : List TsNode) (builder built : GraphBuilder) : Prop where
  reaches : Reaches builder built
  other : ∀ ref < builder.nextRef, ref ≠ sRoot → built.heap ref = builder.heap ref
  texts : ∀ ref < builder.nextRef, built.specifierText ref = builder.specifierText ref
  root : ∃ added, built.heap sRoot =
      { builder.heap sRoot with children := (builder.heap sRoot).children ++ added } ∧
    (∀ ref ∈ added, (built.heap ref).accessSpecifier = .none) ∧
    Represents built.specifierText built.heap ((builder.heap sRoot).kind = .type)
      builder.nextRef added nodes built.nextRef

namespace Grows

variable {sRoot : NodeRef} {nodes others : List TsNode} {builder middle built : GraphBuilder}

/-- Syntax nodes that no node represents. -/
theorem passed
    (represents : Represents builder.specifierText builder.heap
      ((builder.heap sRoot).kind = .type) builder.nextRef [] nodes builder.nextRef) :
    Grows sRoot nodes builder builder :=
  ⟨.refl _, fun _ _ _ => rfl, fun _ _ => rfl, [], by simp, by simp, represents⟩

theorem trans (made : sRoot < builder.nextRef) (first : Grows sRoot nodes builder middle)
    (second : Grows sRoot others middle built) : Grows sRoot (nodes ++ others) builder built := by
  have up := first.reaches.nextRef
  obtain ⟨added, parent, access, represents⟩ := first.root
  obtain ⟨more, parent', access', represents'⟩ := second.root
  have apart : ∀ ref, builder.nextRef ≤ ref → ref ≠ sRoot :=
    fun ref later => (made.trans_le later).ne'
  refine ⟨first.reaches.trans second.reaches, ?_, ?_, added ++ more, ?_, ?_, ?_⟩
  · intro ref early other
    rw [second.other ref (early.trans_le up) other, first.other ref early other]
  · intro ref early
    rw [second.texts ref (early.trans_le up), first.texts ref early]
  · rw [parent', parent, List.append_assoc]
  · intro ref member
    rcases List.mem_append.mp member with isFirst | isSecond
    · have inside := represents.bounds ref isFirst
      rw [second.other ref inside.2 (apart ref inside.1)]
      exact access ref isFirst
    · exact access' ref isSecond
  · rw [parent] at represents'
    refine (represents.congr (fun ref later early => .inl ?_) fun ref _ early => ?_).append
      represents'
    · exact second.other ref early (apart ref later)
    · exact second.texts ref early

end Grows

/-- A recursive call handles the children of a body. -/
def BodyGrows (parseBody : ParseBody) : Prop :=
  ∀ {builder built : GraphBuilder} {cur : NodeRef} {curDesc : Nat} {body : TsNode},
    builder.HasVertex curDesc cur → parseBody builder cur curDesc body = some built →
      Grows cur body.children builder built

section Insert

variable {builder middle built : GraphBuilder} {sRoot : NodeRef} {child : TsNode}
  {kind : NodeKind}

/-- A new node, below another one, for a child. -/
structure Appends (sRoot : NodeRef) (child : TsNode) (kind : NodeKind)
    (builder middle : GraphBuilder) : Prop where
  reaches : Reaches builder middle
  next : middle.nextRef = builder.nextRef + 1
  other : ∀ ref < builder.nextRef, ref ≠ sRoot → middle.heap ref = builder.heap ref
  texts : ∀ ref < builder.nextRef, middle.specifierText ref = builder.specifierText ref
  parent : middle.heap sRoot = { builder.heap sRoot with
    children := (builder.heap sRoot).children ++ [builder.nextRef] }
  childless : (middle.heap builder.nextRef).children = []
  access : (middle.heap builder.nextRef).accessSpecifier = .none
  describes : Describes child kind (middle.heap builder.nextRef)
  label : kind = .accessSpecifier → middle.specifierText builder.nextRef = child.text

namespace Appends

variable (appends : Appends sRoot child kind builder middle)
  (below : Grows builder.nextRef (composedOf kind child) middle built)

include appends below

/-- The new node gets its children, and nothing else changes. -/
theorem settled (made : sRoot < builder.nextRef) :
    (∀ ref < builder.nextRef, ref ≠ sRoot → built.heap ref = builder.heap ref) ∧
      built.heap sRoot = { builder.heap sRoot with
        children := (builder.heap sRoot).children ++ [builder.nextRef] } ∧
      (∀ ref < builder.nextRef, built.specifierText ref = builder.specifierText ref) ∧
      Describes child kind (built.heap builder.nextRef) ∧
      (built.heap builder.nextRef).accessSpecifier = .none ∧
      (kind = .accessSpecifier → built.specifierText builder.nextRef = child.text) ∧
      (∀ ref ∈ (built.heap builder.nextRef).children,
        (built.heap ref).accessSpecifier = .none) ∧
      Represents built.specifierText built.heap (kind = .type) (builder.nextRef + 1)
        (built.heap builder.nextRef).children (composedOf kind child) built.nextRef := by
  obtain ⟨added, cur, access, represents⟩ := below.root
  have isNew : builder.nextRef < middle.nextRef := appends.next ▸ Nat.lt_succ_self _
  have old : ∀ ref < builder.nextRef, built.heap ref = middle.heap ref :=
    fun ref before => below.other ref (before.trans isNew) before.ne
  have oldTexts : ∀ ref < builder.nextRef, built.specifierText ref = middle.specifierText ref :=
    fun ref before => below.texts ref (before.trans isNew)
  rw [appends.childless, List.nil_append] at cur
  rw [appends.next, appends.describes.isKind] at represents
  rw [cur]
  refine ⟨fun ref before apart => ?_, ?_, fun ref before => ?_, ?_, appends.access, ?_, access,
    represents⟩
  · rw [old ref before, appends.other ref before apart]
  · rw [old sRoot made, appends.parent]
  · rw [oldTexts ref before, appends.texts ref before]
  · exact ⟨appends.describes.text, appends.describes.isKind⟩
  · exact fun isLabel => (below.texts _ isNew).trans (appends.label isLabel)

/-- A node that is no type. -/
theorem grows (made : sRoot < builder.nextRef) (isNode : child.type ≠ .comment)
    (isKind : kindOf ((builder.heap sRoot).kind = .type) child = some kind)
    (noType : kind ≠ .type) : Grows sRoot [child] builder built := by
  obtain ⟨old, parent, texts, describes, access, label, -, represents⟩ :=
    appends.settled below made
  refine ⟨appends.reaches.trans below.reaches, old, texts, [builder.nextRef], parent, ?_, ?_⟩
  · intro ref member
    rw [List.mem_singleton.mp member]
    exact access
  · exact .node isNode isKind describes label (fun isType => absurd isType noType) represents .done

/-- A type, whose members get their access when all of them are there. -/
theorem grows_type (made : sRoot < builder.nextRef) (isNode : child.type ≠ .comment)
    (isKind : kindOf ((builder.heap sRoot).kind = .type) child = some kind)
    (reaches : Reaches built (built.setMemberAccessSpecifier builder.nextRef)) :
    Grows sRoot [child] builder (built.setMemberAccessSpecifier builder.nextRef) := by
  obtain ⟨old, parent, texts, describes, access, label, unset, represents⟩ :=
    appends.settled below made
  have outside : ∀ ref ∉ (built.heap builder.nextRef).children,
      (built.setMemberAccessSpecifier builder.nextRef).heap ref = built.heap ref :=
    fun ref absent => setMemberAccess_other built.heap absent
  -- Neither the type nor what was there before is one of its members.
  have before : ∀ ref < builder.nextRef + 1, ref ∉ (built.heap builder.nextRef).children :=
    fun ref early member => absurd early (Nat.not_lt_of_le (represents.bounds ref member).1)
  have early := Nat.lt_succ_self builder.nextRef
  have here := outside _ (before _ early)
  refine ⟨(appends.reaches.trans below.reaches).trans reaches, fun ref isOld apart => ?_, texts,
    [builder.nextRef], ?_, ?_, ?_⟩
  · rw [outside ref (before ref (isOld.trans early)), old ref isOld apart]
  · rw [outside sRoot (before sRoot (made.trans early)), parent]
  · intro ref member
    rw [List.mem_singleton.mp member, here]
    exact access
  · refine .node isNode isKind (by rw [here]; exact describes) label (fun _ => ?_) ?_ .done
    · refine ⟨built.heap, by rw [here], by rw [here]; exact unset, fun member _ => ⟨?_, rfl⟩⟩
      exact setMemberAccess_view built.heap SemanticNode.kind (fun _ _ => rfl) _ _
    · rw [here]
      refine represents.congr (fun ref _ _ => ?_) fun _ _ _ => rfl
      by_cases isMember : ref ∈ (built.heap builder.nextRef).children
      · exact .inr ⟨isMember, setMemberAccess_record built.heap builder.nextRef ref⟩
      · exact .inl (outside ref isMember)

end Appends

variable {sRootDesc : Nat} {parseBody : ParseBody} {option : Option NodeKind}

/-- A node that is inserted below a vertex. -/
theorem insertTerminal_appends (isVertex : builder.HasVertex sRootDesc sRoot) {node : NewNode}
    (describes : Describes child kind node.record) :
    Appends sRoot child kind builder (insertTerminal sRoot sRootDesc builder node) := by
  have made := isVertex.made
  have new := heap_insert_new builder sRootDesc node made
  have moved : builder.act (.child sRoot sRootDesc node) =
      some (insertTerminal sRoot sRootDesc builder node) := by
    rw [act, if_pos isVertex.at_place]
    rfl
  have isKind : kind ≠ .accessSpecifier := by
    rw [← describes.isKind]
    exact node.fresh.kind
  refine ⟨.one moved, rfl, fun ref old apart => ?_, fun _ _ => rfl, ?_, ?_, ?_, ?_,
    fun isLabel => absurd isLabel isKind⟩
  · exact heap_insert_other builder sRootDesc node old.ne apart
  · exact heap_insert_parent builder sRootDesc node made
  · rw [insertTerminal, new]
    exact node.fresh.children
  · rw [insertTerminal, new]
    exact node.fresh.access
  · rw [insertTerminal, new]
    exact ⟨describes.text, describes.isKind⟩

/-- An access specifier. -/
theorem pushAccessSpecifier_appends (isVertex : builder.HasVertex sRootDesc sRoot) :
    Appends sRoot child .accessSpecifier builder
      (builder.pushAccessSpecifier sRoot child.text) := by
  have made := isVertex.made
  have moved : builder.act (.label sRoot child.text) =
      some (builder.pushAccessSpecifier sRoot child.text) := by
    rw [act, if_pos (List.mem_of_getElem? isVertex.at_place)]
  have new : (builder.pushAccessSpecifier sRoot child.text).heap builder.nextRef = labelNode := by
    simp [pushAccessSpecifier, pushChild, labelNode, made.ne']
  refine ⟨.one moved, rfl, fun ref old apart => ?_, fun ref old => ?_, ?_, ?_, ?_, ?_, fun _ => ?_⟩
  · simp [pushAccessSpecifier, pushChild, old.ne, apart]
  · simp [pushAccessSpecifier, pushChild, Function.update_of_ne old.ne]
  · simp [pushAccessSpecifier, pushChild, made.ne]
  · rw [new]
    rfl
  · rw [new]
    rfl
  · rw [new]
    exact ⟨List.nil_prefix, rfl⟩
  · simp [pushAccessSpecifier, pushChild]

/-- What is inserted for a child that is no comment represents it. -/
theorem Inserts.grows (isVertex : builder.HasVertex sRootDesc sRoot)
    (bodyGrows : BodyGrows parseBody) (isNode : child.type ≠ .comment)
    (isKind : option = kindOf ((builder.heap sRoot).kind = .type) child)
    (inserts : Inserts parseBody builder sRoot sRootDesc child option built) :
    Grows sRoot [child] builder built := by
  have made := isVertex.made
  have cur : ∀ node : NewNode, (insertTerminal sRoot sRootDesc builder node).HasVertex
      builder.vertices.length builder.nextRef :=
    fun node => ⟨by simp [insertTerminal], Nat.lt_succ_self _⟩
  -- The body of a composite node is the one that the recursive call is given.
  have composite : ∀ {kind : NodeKind} {node : NewNode} {inner : TsNode} {built : GraphBuilder},
      kind.isComposite = true → realNode child = inner →
        insertComposite parseBody sRoot sRootDesc builder node inner = some built →
          Grows builder.nextRef (composedOf kind child)
            (insertTerminal sRoot sRootDesc builder node) built ∧
              builder.nextRef ∈ built.vertices := by
    rintro kind node - built isComposite rfl inserted
    obtain ⟨body, found, parsed⟩ := Option.bind_eq_some_iff.mp inserted
    have below := bodyGrows (cur node) parsed
    have composed : composedOf kind child = body.children := by
      rw [composedOf, if_pos isComposite, bodyOf, found]
      rfl
    rw [composed]
    exact ⟨below, List.mem_of_getElem? (below.reaches.hasVertex (cur node)).at_place⟩
  cases inserts with
  | nothing => exact .passed (.lost isNode isKind.symm .done)
  | @terminal kind node isTerminal describes =>
    have nothing : composedOf kind child = [] := by rw [composedOf, isTerminal]; rfl
    have below : Grows builder.nextRef (composedOf kind child)
        (insertTerminal sRoot sRootDesc builder node)
        (insertTerminal sRoot sRootDesc builder node) := by
      rw [nothing]
      exact .passed .done
    refine (insertTerminal_appends isVertex describes).grows below made isNode isKind.symm ?_
    rintro rfl
    exact absurd isTerminal (by decide)
  | label =>
    exact (pushAccessSpecifier_appends isVertex).grows (.passed .done) made isNode isKind.symm
      (by decide)
  | composite isComposite other describes real inserted =>
    exact (insertTerminal_appends isVertex describes).grows (composite isComposite real inserted).1
      made isNode isKind.symm other
  | type describes real inserted =>
    obtain ⟨middle, whole, ended⟩ := Option.bind_eq_some_iff.mp inserted
    obtain rfl := Option.some.inj ended
    have isComposite : NodeKind.isComposite .type = true := rfl
    obtain ⟨below, isVertex'⟩ := composite isComposite real whole
    have moved : middle.act (.access builder.nextRef) =
        some (middle.setMemberAccessSpecifier builder.nextRef) := by
      rw [act, if_pos isVertex']
    exact (insertTerminal_appends isVertex describes).grows_type below made isNode isKind.symm
      (.one moved)

/-- A comment becomes an orphan, or is passed over. -/
theorem Inserts.grows_comment (isVertex : builder.HasVertex sRootDesc sRoot)
    (isComment : child.type = .comment) (either : option = none ∨ option = some .orphanComment)
    (inserts : Inserts parseBody builder sRoot sRootDesc child option built) :
    Grows sRoot [child] builder built := by
  rcases either with rfl | rfl
  · cases inserts
    exact .passed (.comment isComment .done)
  · cases inserts with
    | terminal node isTerminal describes =>
      have appends := insertTerminal_appends isVertex describes
      refine ⟨appends.reaches, appends.other, appends.texts, [builder.nextRef], appends.parent,
        ?_, ?_⟩
      · intro ref member
        rw [List.mem_singleton.mp member]
        exact appends.access
      · exact .orphan isComment appends.describes.isKind appends.childless .done
    | composite isComposite => exact absurd isComposite nofun

end Insert

/-! ## The loop over the children -/

section Loop

variable {std : StdHash} {extraction : Extraction} {isConflicting : Bool} {tuPath : String}

theorem parseChildren_grows {parseBody : ParseBody} (bodyGrows : BodyGrows parseBody)
    {builder built : GraphBuilder} {sRoot : NodeRef} {sRootDesc : Nat} {previous : List TsNode}
    {skipped : Nat} {children : List TsNode} (isVertex : builder.HasVertex sRootDesc sRoot)
    (skips : SkipsComments children skipped)
    (parsed : parseChildren std extraction parseBody sRoot sRootDesc isConflicting tuPath builder
      previous skipped children = some built) : Grows sRoot children builder built := by
  induction children generalizing builder previous skipped with
  | nil =>
    rw [parseChildren] at parsed
    obtain rfl := Option.some.inj parsed
    exact .passed .done
  | cons child rest inductionHypothesis =>
    cases skipped with
    | succ skipped =>
      rw [parseChildren] at parsed
      have isComment : child.type = .comment := skips child (by simp)
      have later : SkipsComments rest skipped :=
        fun sibling member => skips sibling (by simp [member])
      have first : Grows sRoot [child] builder builder := .passed (.comment isComment .done)
      exact first.trans isVertex.made (inductionHypothesis isVertex later parsed)
    | zero =>
      rw [parseChildren] at parsed
      obtain ⟨⟨middle, skip⟩, here, later⟩ := Option.bind_eq_some_iff.mp parsed
      obtain ⟨⟨kind, orphan, isKind, inserts⟩, next⟩ := parseChild_inserts here
      have first : Grows sRoot [child] builder middle := by
        by_cases isComment : child.type = .comment
        · exact inserts.grows_comment isVertex isComment (orphan isComment)
        · exact inserts.grows isVertex bodyGrows isComment (isKind isComment)
      exact first.trans isVertex.made
        (inductionHypothesis (first.reaches.hasVertex isVertex) next later)

/-- The children of a composite node represent those of the syntax node. -/
theorem parseCompositeNode_grows {fuel : Nat} {builder built : GraphBuilder} {sRoot : NodeRef}
    {sRootDesc : Nat} {root : TsNode} {firstChildIdx : Nat}
    (isVertex : builder.HasVertex sRootDesc sRoot)
    (parsed : parseCompositeNode std extraction isConflicting tuPath fuel builder sRoot sRootDesc
      root firstChildIdx = some built) :
    Grows sRoot (root.children.drop firstChildIdx) builder built := by
  induction fuel generalizing builder sRoot sRootDesc root firstChildIdx built with
  | zero => exact absurd parsed nofun
  | succ fuel inductionHypothesis =>
    rw [parseCompositeNode] at parsed
    refine parseChildren_grows ?_ isVertex (skips_none _) parsed
    exact fun isVertex' parsed' => inductionHypothesis isVertex' parsed'

end Loop

/-! ## The front of a file -/

section Front

/-- A child that goes with the front of a file: a comment, or a declaration of the front. -/
def InFront (node : TsNode) : Prop := node.type = .comment ∨ node.isFrontDecl = true

instance : DecidablePred InFront :=
  fun node => inferInstanceAs (Decidable (node.type = .comment ∨ node.isFrontDecl = true))

/-- The directive `#pragma once`. -/
def IsOnceDirective (node : TsNode) : Prop :=
  node.type = .preprocCall ∧ TsNode.isPragmaOnce node.text = true

/-- An `#ifndef` whose second named child is a `#define`. -/
def IsGuardNode (node : TsNode) : Prop :=
  node.type = .preprocIfdef ∧ ∃ defineNode,
    (node.children.filter TsNode.isNamed)[1]? = some defineNode ∧ defineNode.type = .preprocDef

/-- The comments that a file begins with. -/
def openingComments (root : TsNode) : List TsNode :=
  root.children.takeWhile fun child => child.isNamed && child.type = .comment

/-- What a file begins with: comments, and in a header the guard behind them. Behind a traditional
guard everything is in the guarded node, after the condition, the name and the definition. -/
inductive Opening (isHeader : Bool) (root : TsNode) : TsNode → List TsNode → Prop
  | comments
      (noGuard : isHeader = true → ∀ child ∈ root.children[(openingComments root).length]?,
        ¬ IsOnceDirective child ∧ ¬ IsGuardNode child) :
      Opening isHeader root root (openingComments root)
  | pragmaOnce {directive : TsNode} (header : isHeader = true)
      (behind : root.children[(openingComments root).length]? = some directive)
      (isOnce : IsOnceDirective directive) :
      Opening isHeader root root (openingComments root ++ [directive])
  | guard {guardNode : TsNode} (header : isHeader = true)
      (behind : root.children[(openingComments root).length]? = some guardNode)
      (isGuard : IsGuardNode guardNode) :
      Opening isHeader root guardNode (guardNode.children.take 3)

/-- The children that are left of a file: behind its opening, the longest front of comments and
declarations of the front is dropped, and nothing else. -/
def FrontDropped (isHeader : Bool) (root turoot : TsNode) (left : List TsNode) : Prop :=
  ∃ opening front, Opening isHeader root turoot opening ∧
    turoot.children = opening ++ front ++ left ∧ (∀ node ∈ front, InFront node) ∧
      ∀ node ∈ left.head?, ¬ InFront node

/-- The loop over the children takes those of the front, up to the first other one. -/
theorem frontDeclsFrom_spec (previous : List TsNode) (skipped : Nat) (nodes : List TsNode)
    (skips : SkipsComments nodes skipped) :
    (∀ node ∈ nodes.take (TsNode.frontDeclsFrom previous skipped nodes).2, InFront node) ∧
      ∀ node ∈ (nodes.drop (TsNode.frontDeclsFrom previous skipped nodes).2).head?,
        ¬ InFront node := by
  induction nodes generalizing previous skipped with
  | nil => simp
  | cons node rest inductionHypothesis =>
    cases skipped with
    | succ skipped =>
      rw [TsNode.frontDeclsFrom]
      have isComment : node.type = .comment := skips node (by simp)
      obtain ⟨inFront, ends⟩ := inductionHypothesis (node :: previous) skipped
        fun sibling member => skips sibling (by simp [member])
      simp only [List.take_succ_cons, List.drop_succ_cons, List.forall_mem_cons]
      exact ⟨⟨.inl isComment, inFront⟩, ends⟩
    | zero =>
      rw [TsNode.frontDeclsFrom]
      split
      · rename_i isDecl
        obtain ⟨inFront, ends⟩ := inductionHypothesis (node :: previous) 0 (skips_none rest)
        simp only [List.take_succ_cons, List.drop_succ_cons, List.forall_mem_cons]
        exact ⟨⟨.inr isDecl, inFront⟩, ends⟩
      · rename_i noDecl
        split
        · rename_i isComment
          obtain ⟨inFront, ends⟩ := inductionHypothesis (node :: previous) _
            (getComment_skips (previous.head?.map TsNode.sibling) node.sibling rest)
          simp only [List.take_succ_cons, List.drop_succ_cons, List.forall_mem_cons]
          exact ⟨⟨.inl isComment, inFront⟩, ends⟩
        · rename_i noComment
          refine ⟨by simp, fun first isFirst => ?_⟩
          obtain rfl : node = first := by simpa using isFirst
          exact fun inFront => inFront.elim noComment noDecl

/-- The guard of a header makes its opening. -/
theorem getHeaderGuard_opening {root : TsNode} {guard : TsNode.HeaderGuard}
    (isGuard : root.getHeaderGuard (openingComments root).length = some guard) :
    Opening true root guard.root (guard.root.children.take guard.beforeBodyChildCnt) := by
  have comments : root.children.take (openingComments root).length = openingComments root :=
    (List.prefix_iff_eq_take.mp (List.takeWhile_prefix _)).symm
  obtain ⟨node, found, isGuard⟩ := Option.bind_eq_some_iff.mp isGuard
  -- without a guard the comments are all
  have plain (noGuard : ¬ IsOnceDirective node ∧ ¬ IsGuardNode node) :
      Opening true root root (root.children.take (openingComments root).length) := by
    rw [comments]
    refine .comments fun _ child isChild => ?_
    obtain rfl := Option.some.inj (found.symm.trans isChild)
    exact noGuard
  split at isGuard
  · rename_i isOnce
    obtain rfl := Option.some.inj isGuard
    have directive : IsOnceDirective node := by simpa [IsOnceDirective] using isOnce
    have taken : root.children.take ((openingComments root).length + 1) =
        openingComments root ++ [node] := by
      rw [List.take_add_one, comments, found]
      rfl
    rw [taken]
    exact .pragmaOnce rfl found directive
  · rename_i noOnce
    have noDirective : ¬ IsOnceDirective node := by simpa [IsOnceDirective] using noOnce
    split at isGuard
    · rename_i isIfdef
      split at isGuard
      · rename_i defineNode isDefine
        split at isGuard
        · rename_i defines
          obtain rfl := Option.some.inj isGuard
          exact .guard rfl found ⟨isIfdef, defineNode, isDefine, defines⟩
        · rename_i other
          obtain rfl := Option.some.inj isGuard
          refine plain ⟨noDirective, ?_⟩
          rintro ⟨-, otherNode, isOther, defines⟩
          obtain rfl := Option.some.inj (isDefine.symm.trans isOther)
          exact other defines
      · rename_i missing
        obtain rfl := Option.some.inj isGuard
        refine plain ⟨noDirective, ?_⟩
        rintro ⟨-, otherNode, isOther, -⟩
        exact absurd (missing.symm.trans isOther) nofun
    · rename_i noIfdef
      obtain rfl := Option.some.inj isGuard
      exact plain ⟨noDirective, fun isGuardNode => noIfdef isGuardNode.1⟩

/-- The children that a translation unit is built of are those behind the front of its file. -/
theorem BuildTask.parseTranslationUnit_front {task : BuildTask} {path : Text}
    {root turoot : TsNode} {node : NewNode} {frontDeclCnt : Nat}
    (isUnit : task.parseTranslationUnit path root = some (node, turoot, frontDeclCnt)) :
    FrontDropped (IsCppHeader (task.filePath path)) root turoot
      (turoot.children.drop frontDeclCnt) := by
  unfold parseTranslationUnit at isUnit
  dsimp only at isUnit
  obtain ⟨guard, isGuard, ended⟩ := Option.bind_eq_some_iff.mp isUnit
  obtain ⟨-, same⟩ := Prod.mk.inj (Option.some.inj ended)
  obtain ⟨rfl, rfl⟩ := Prod.mk.inj same
  have opening : Opening (IsCppHeader (task.filePath path)) root guard.root
      (guard.root.children.take guard.beforeBodyChildCnt) := by
    rw [guarded] at isGuard
    split at isGuard
    · rename_i isHeader
      rw [isHeader]
      exact getHeaderGuard_opening isGuard
    · rename_i noHeader
      obtain rfl := Option.some.inj isGuard
      have comments : root.children.take (openingComments root).length = openingComments root :=
        (List.prefix_iff_eq_take.mp (List.takeWhile_prefix _)).symm
      dsimp only [TsNode.getTranslationUnitComment]
      rw [show (root.children.takeWhile _).length = (openingComments root).length from rfl,
        comments]
      exact .comments fun isHeader => absurd isHeader noHeader
  let nodes := guard.root.children.drop guard.beforeBodyChildCnt
  let taken := (TsNode.frontDeclsFrom
    (guard.root.children.take guard.beforeBodyChildCnt).reverse 0 nodes).2
  obtain ⟨inFront, ends⟩ := frontDeclsFrom_spec
    (guard.root.children.take guard.beforeBodyChildCnt).reverse 0 nodes (skips_none nodes)
  have left : guard.root.children.drop (guard.root.getFrontDecls guard.beforeBodyChildCnt).2 =
      nodes.drop taken := by
    rw [List.drop_drop]
    rfl
  refine ⟨_, nodes.take taken, opening, ?_, inFront, ?_⟩
  · rw [left, List.append_assoc, List.take_append_drop, List.take_append_drop]
  · rw [left]
    exact ends

end Front

/-! ## The sources -/

/-- The trees of the sources, one behind the other, without the fronts of the files. -/
inductive RepresentsSources (task : BuildTask) (builder : GraphBuilder) :
    NodeRef → List Text → NodeRef → Prop
  | done {low : NodeRef} : RepresentsSources task builder low [] low
  | passed {low high : NodeRef} {path : Text} {rest : List Text}
      (isOther : task.parse (task.filePath path) = none ∨
        (IsCppSource path || IsCSource path) = false)
      (later : RepresentsSources task builder low rest high) :
      RepresentsSources task builder low (path :: rest) high
  | unit {low middle high : NodeRef} {path : Text} {rest : List Text} {root turoot : TsNode}
      {node : NewNode} {frontDeclCnt : Nat}
      (parsed : task.parse (task.filePath path) = some root)
      (isSource : (IsCppSource path || IsCSource path) = true)
      (isUnit : task.parseTranslationUnit path root = some (node, turoot, frontDeclCnt))
      (dropped : FrontDropped (IsCppHeader (task.filePath path)) root turoot
        (turoot.children.drop frontDeclCnt))
      (isVertex : low ∈ builder.vertices)
      (isRecord : ∃ id, builder.heap low = { node.record with
        id := id
        children := (builder.heap low).children })
      (represents : Represents builder.specifierText builder.heap false (low + 1)
        (builder.heap low).children (turoot.children.drop frontDeclCnt) middle)
      (later : RepresentsSources task builder middle rest high) :
      RepresentsSources task builder low (path :: rest) high

namespace RepresentsSources

variable {task : BuildTask} {builder built : GraphBuilder} {low middle high : NodeRef}
  {paths more : List Text}

theorem le (sources : RepresentsSources task builder low paths high) : low ≤ high := by
  induction sources with
  | done => exact Nat.le_refl _
  | passed _ _ inductionHypothesis => exact inductionHypothesis
  | unit _ _ _ _ _ _ represents _ inductionHypothesis =>
    exact (Nat.le_succ _).trans (represents.le.trans inductionHypothesis)

theorem append (first : RepresentsSources task builder low paths middle)
    (second : RepresentsSources task builder middle more high) :
    RepresentsSources task builder low (paths ++ more) high := by
  induction first with
  | done => exact second
  | passed isOther _ inductionHypothesis => exact .passed isOther (inductionHypothesis second)
  | unit parsed isSource isUnit dropped isVertex isRecord represents _ inductionHypothesis =>
    exact .unit parsed isSource isUnit dropped isVertex isRecord represents
      (inductionHypothesis second)

/-- Objects that are made later do not count. -/
theorem congr (sources : RepresentsSources task builder low paths high)
    (heap : ∀ ref < high, built.heap ref = builder.heap ref)
    (texts : ∀ ref < high, built.specifierText ref = builder.specifierText ref)
    (vertices : ∀ ref ∈ builder.vertices, ref ∈ built.vertices) :
    RepresentsSources task built low paths high := by
  induction sources with
  | done => exact .done
  | passed isOther _ inductionHypothesis => exact .passed isOther (inductionHypothesis heap texts)
  | @unit low _ _ _ _ _ _ _ _ parsed isSource isUnit dropped isVertex isRecord represents later
      inductionHypothesis =>
    have inside : low < _ := Nat.lt_of_succ_le (represents.le.trans later.le)
    have here := heap low inside
    refine .unit parsed isSource isUnit dropped (vertices low isVertex) ?_ ?_
      (inductionHypothesis heap texts)
    · rw [here]
      exact isRecord
    · rw [here]
      exact represents.congr (fun ref _ early => .inl (heap ref (early.trans_le later.le)))
        fun ref _ early => texts ref (early.trans_le later.le)

end RepresentsSources

namespace BuildTask

variable {task : BuildTask} {std : StdHash} {extraction : Extraction}
  {builder built : GraphBuilder}

theorem parseTranslationUnit_kind {path : Text} {root turoot : TsNode} {node : NewNode}
    {frontDeclCnt : Nat}
    (isUnit : task.parseTranslationUnit path root = some (node, turoot, frontDeclCnt)) :
    node.record.kind = .translationUnit := by
  unfold parseTranslationUnit at isUnit
  dsimp only at isUnit
  obtain ⟨guarded, -, ended⟩ := Option.bind_eq_some_iff.mp isUnit
  obtain ⟨rfl, -⟩ := Prod.mk.inj (Option.some.inj ended)
  rfl

/-- A source is passed over, or becomes a translation unit behind all objects. -/
theorem processTranslationUnit_grows {path : Text}
    (processed : task.processTranslationUnit std extraction builder path = some built) :
    Reaches builder built ∧
      (∀ ref < builder.nextRef, built.heap ref = builder.heap ref) ∧
      (∀ ref < builder.nextRef, built.specifierText ref = builder.specifierText ref) ∧
      RepresentsSources task built builder.nextRef [path] built.nextRef := by
  unfold processTranslationUnit at processed
  split at processed
  · rename_i root found
    split at processed
    · rename_i isSource
      obtain ⟨⟨node, turoot, frontDeclCnt⟩, isUnit, parsed⟩ := Option.bind_eq_some_iff.mp processed
      have moved : builder.act (.root node) =
          some ((builder.make node).addVertex builder.nextRef) := rfl
      have isVertex : ((builder.make node).addVertex builder.nextRef).HasVertex
          builder.vertices.length builder.nextRef :=
        ⟨by simp [addVertex, make], Nat.lt_succ_self _⟩
      have grows := parseCompositeNode_grows isVertex parsed
      have new : ((builder.make node).addVertex builder.nextRef).heap builder.nextRef =
          { node.record with id := builder.nodeCount } := Heap.update_self ..
      obtain ⟨added, parent, -, represents⟩ := grows.root
      rw [new] at parent represents
      dsimp only at parent represents
      rw [parseTranslationUnit_kind isUnit] at represents
      rw [node.fresh.children, List.nil_append] at parent
      refine ⟨(Reaches.one moved).trans grows.reaches, fun ref old => ?_, fun ref old => ?_,
        .unit found isSource isUnit (parseTranslationUnit_front isUnit) ?_
          ⟨builder.nodeCount, ?_⟩ ?_ .done⟩
      · rw [grows.other ref (old.trans (Nat.lt_succ_self _)) old.ne]
        exact Heap.update_other old.ne
      · exact grows.texts ref (old.trans (Nat.lt_succ_self _))
      · exact List.mem_of_getElem? (grows.reaches.hasVertex isVertex).at_place
      · rw [parent]
      · rw [parent]
        exact represents
    · rename_i isSource
      obtain rfl := Option.some.inj processed
      exact ⟨.refl _, fun _ _ => rfl, fun _ _ => rfl,
        .passed (.inr (Bool.eq_false_iff.mpr isSource)) .done⟩
  · rename_i missing
    obtain rfl := Option.some.inj processed
    exact ⟨.refl _, fun _ _ => rfl, fun _ _ => rfl, .passed (.inl missing) .done⟩

/-- The objects that a builder makes are the trees of its sources. -/
theorem build_grows (finished : task.build std extraction builder = some built) :
    Reaches builder built ∧
      (∀ ref < builder.nextRef, built.heap ref = builder.heap ref) ∧
      (∀ ref < builder.nextRef, built.specifierText ref = builder.specifierText ref) ∧
      RepresentsSources task built builder.nextRef task.sourceList built.nextRef := by
  unfold build at finished
  generalize task.sourceList = sources at finished ⊢
  induction sources generalizing builder with
  | nil =>
    obtain rfl := Option.some.inj finished
    exact ⟨.refl _, fun _ _ => rfl, fun _ _ => rfl, .done⟩
  | cons path rest inductionHypothesis =>
    rw [List.foldlM_cons] at finished
    obtain ⟨middle, processed, later⟩ := Option.bind_eq_some_iff.mp finished
    obtain ⟨reaches, old, texts, here⟩ := processTranslationUnit_grows processed
    obtain ⟨reaches', old', texts', sources⟩ := inductionHypothesis later
    have up := reaches.nextRef
    refine ⟨reaches.trans reaches', fun ref early => ?_, fun ref early => ?_,
      (here.congr old' texts' fun ref member => reaches'.vertices.subset member).append sources⟩
    · rw [old' ref (early.trans_le up), old ref early]
    · rw [texts' ref (early.trans_le up), texts ref early]

end BuildTask

end GraphBuilder

end MergeBot
