import MergeBot.Semantic.PrettyPrinter

/-!
# Access labels of merged members

`setMemberAccessSpecifier` gives the members of a type node the access of the label in front
of them (`MemberAccessSet.underLabels`): those in front of all labels have no label, and none
of them stands behind one that has (`MemberAccessSet.inSections`). A type node is printed
with the access of its members exactly when they stand like that (`keepsAccess_iff`).
-/

namespace MergeBot

open Foundation

/-- The label in front of a node when it was parsed. -/
def accessLabel (heap : Heap) (ref : NodeRef) : Option AccessSpecifierKind :=
  (heap ref).accessSpecifier.label

/-- A child of a type node that is no label itself. -/
def IsMember (heap : Heap) (ref : NodeRef) : Prop :=
  (heap ref).kind ≠ .accessSpecifier

instance (heap : Heap) : DecidablePred (IsMember heap) :=
  fun ref => inferInstanceAs (Decidable ((heap ref).kind ≠ .accessSpecifier))

/-- Two children in their order: behind a label there is no member without one. -/
abbrev InSections (heap : Heap) : NodeRef → NodeRef → Prop :=
  Headings.InSections (accessLabel heap) (IsMember heap)

/-- In the text of a node every member stands under its own label: the last label printed
before it is the member's, and none is printed before a member without one. -/
def KeepsAccess (heap : Heap) (ref : NodeRef) : Prop :=
  Headings.Truthful (accessLabel heap) (IsMember heap) none
    (PrettyPrinter.printedEntries heap ref)

/-- The members of a type node keep their access exactly when none without a label stands
behind one with a label. -/
theorem keepsAccess_iff {heap : Heap} {ref : NodeRef} (type : (heap ref).kind = .type) :
    KeepsAccess heap ref ↔ (heap ref).children.Pairwise (InSections heap) := by
  rw [KeepsAccess, PrettyPrinter.printedEntries_type type]
  exact Headings.truthful_write_iff _

/-- New children change the access of no node. -/
theorem inSections_update (heap : Heap) (ref : NodeRef) (children : List NodeRef) :
    InSections (heap.update ref { heap ref with children := children }) = InSections heap := by
  have fields : ∀ other,
      (heap.update ref { heap ref with children := children } other).accessSpecifier =
          (heap other).accessSpecifier ∧
        (heap.update ref { heap ref with children := children } other).kind =
          (heap other).kind := by
    intro other
    by_cases same : other = ref
    · rw [same, Heap.update_self]
      exact ⟨rfl, rfl⟩
    · rw [Heap.update_other same]
      exact ⟨rfl, rfl⟩
  ext first second
  simp only [InSections, Headings.InSections, accessLabel, IsMember, fields]

/-! ## The access of parsed members -/

namespace TypeDeclNode

def getAccessSpecifierKind (accessSpecifier : Text) : AccessSpecifierKind :=
  if (Search.find "public".toList accessSpecifier).isSome then .public_
  else if (Search.find "protected".toList accessSpecifier).isSome then .protected_
  else if (Search.find "private".toList accessSpecifier).isSome then .private_
  else .none

/-- The texts of access specifiers. -/
def keywords : List Text :=
  ["public".toList, "protected".toList, "private".toList]

/-- An access specifier with one of the keywords is a label. -/
theorem label_getAccessSpecifierKind {text : Text}
    (names : ∃ keyword ∈ keywords, keyword <:+: text) :
    (getAccessSpecifierKind text).label.isSome := by
  have found : ∀ keyword : Text, keyword <:+: text → (Search.find keyword text).isSome = true :=
    fun keyword inside => by
      rwa [Option.isSome_iff_ne_none, ne_eq, Search.find_eq_none_iff, not_not]
  obtain ⟨keyword, listed, inside⟩ := names
  have here := found keyword inside
  unfold getAccessSpecifierKind
  split
  · rfl
  · split
    · rfl
    · split
      · rfl
      · simp only [keywords, List.mem_cons, List.not_mem_nil, or_false] at listed
        rcases listed with rfl | rfl | rfl <;> contradiction

variable (specifierText : NodeRef → Text)

/-- The loop over the children behind the first one. -/
def setAccess : Heap → AccessSpecifierKind → List NodeRef → Heap
  | heap, _, [] => heap
  | heap, accessKind, child :: rest =>
      if (heap child).kind ≠ .accessSpecifier then
        setAccess (heap.update child { heap child with accessSpecifier := accessKind })
          accessKind rest
      else setAccess heap (getAccessSpecifierKind (specifierText child)) rest

def setMemberAccessSpecifier (heap : Heap) (type : NodeRef) : Heap :=
  match (heap type).children with
  | [] => heap
  | firstChild :: rest =>
      let accessKind :=
        if (heap firstChild).kind = .accessSpecifier then
          getAccessSpecifierKind (specifierText firstChild)
        else .default_
      setAccess specifierText heap accessKind rest

/-- The members of a type node have the access that `setMemberAccessSpecifier` gave to newly
made nodes. -/
def MemberAccessSet (heap : Heap) (type : NodeRef) : Prop :=
  ∃ built : Heap, (built type).children = (heap type).children ∧
    (∀ child ∈ (heap type).children, (built child).accessSpecifier = .none) ∧
    ∀ child ∈ (heap type).children, (heap child).kind = (built child).kind ∧
      (heap child).accessSpecifier =
        (setMemberAccessSpecifier specifierText built type child).accessSpecifier

/-- Every member of a type node has the access of the last label in front of it. In front of all
labels it has the default access, but for a first child, which is never given one. -/
structure UnderLabels (heap : Heap) (type : NodeRef) : Prop where
  behindLabel : ∀ front label between member rest,
    (heap type).children = front ++ label :: between ++ member :: rest →
      ¬ IsMember heap label → (∀ other ∈ between, IsMember heap other) → IsMember heap member →
        (heap member).accessSpecifier = getAccessSpecifierKind (specifierText label)
  beforeLabels : ∀ front member rest, (heap type).children = front ++ member :: rest →
    (∀ other ∈ front, IsMember heap other) → IsMember heap member →
      (heap member).accessSpecifier = if front = [] then .none else .default_

variable {specifierText}

theorem setAccess_other {heap : Heap} {accessKind : AccessSpecifierKind} {children : List NodeRef}
    {ref : NodeRef} (outside : ref ∉ children) :
    setAccess specifierText heap accessKind children ref = heap ref := by
  induction children generalizing heap accessKind with
  | nil => rfl
  | cons child rest ih =>
      rw [List.mem_cons, not_or] at outside
      obtain ⟨apart, outside⟩ := outside
      rw [setAccess]
      split
      · rw [ih outside, Heap.update_other apart]
      · exact ih outside

/-- The loop starts behind the first child. -/
theorem setMemberAccessSpecifier_cons {heap : Heap} {type firstChild : NodeRef}
    {rest : List NodeRef} (shape : (heap type).children = firstChild :: rest) :
    ∃ accessKind, setMemberAccessSpecifier specifierText heap type =
      setAccess specifierText heap accessKind rest := by
  rw [setMemberAccessSpecifier, shape]
  exact ⟨_, rfl⟩

/-! ### The last label in front of a member -/

/-- The access in force behind some children. -/
def accessBehind (specifierText : NodeRef → Text) (heap : Heap) (accessKind : AccessSpecifierKind)
    (front : List NodeRef) : AccessSpecifierKind :=
  front.foldl (fun accessKind child =>
    if IsMember heap child then accessKind else getAccessSpecifierKind (specifierText child))
    accessKind

/-- Members leave it in force. -/
theorem accessBehind_members {heap : Heap} {front : List NodeRef}
    (members : ∀ child ∈ front, IsMember heap child) (accessKind : AccessSpecifierKind) :
    accessBehind specifierText heap accessKind front = accessKind := by
  induction front with
  | nil => rfl
  | cons child rest ih =>
      obtain ⟨isMember, members⟩ := List.forall_mem_cons.mp members
      rw [accessBehind, List.foldl_cons, if_pos isMember]
      exact ih members

/-- The last label decides. -/
theorem accessBehind_label {heap : Heap} {label : NodeRef} {between : List NodeRef}
    (isLabel : ¬ IsMember heap label) (members : ∀ child ∈ between, IsMember heap child)
    (accessKind : AccessSpecifierKind) (front : List NodeRef) :
    accessBehind specifierText heap accessKind (front ++ label :: between) =
      getAccessSpecifierKind (specifierText label) := by
  rw [accessBehind, List.foldl_append, List.foldl_cons, if_neg isLabel]
  exact accessBehind_members members _

theorem setAccess_cons_member {heap : Heap} {child : NodeRef} (isMember : IsMember heap child)
    (accessKind : AccessSpecifierKind) (rest : List NodeRef) :
    setAccess specifierText heap accessKind (child :: rest) =
      setAccess specifierText
        (heap.update child { heap child with accessSpecifier := accessKind }) accessKind rest :=
  if_pos isMember

theorem setAccess_cons_label {heap : Heap} {child : NodeRef} (isLabel : ¬ IsMember heap child)
    (accessKind : AccessSpecifierKind) (rest : List NodeRef) :
    setAccess specifierText heap accessKind (child :: rest) =
      setAccess specifierText heap (getAccessSpecifierKind (specifierText child)) rest :=
  if_neg isLabel

/-- The loop gives a member the access in force. -/
theorem setAccess_member {heap : Heap} {front rest : List NodeRef} {member : NodeRef}
    (isMember : IsMember heap member) (distinct : (front ++ member :: rest).Nodup)
    (accessKind : AccessSpecifierKind) :
    (setAccess specifierText heap accessKind (front ++ member :: rest) member).accessSpecifier =
      accessBehind specifierText heap accessKind front := by
  induction front generalizing heap accessKind with
  | nil =>
      obtain ⟨absent, -⟩ := List.nodup_cons.mp distinct
      rw [List.nil_append, setAccess_cons_member isMember, setAccess_other absent,
        Heap.update_self]
      rfl
  | cons child front ih =>
      rw [List.cons_append] at distinct ⊢
      obtain ⟨absent, distinct⟩ := List.nodup_cons.mp distinct
      rw [accessBehind, List.foldl_cons]
      by_cases childMember : IsMember heap child
      · rw [if_pos childMember, setAccess_cons_member childMember]
        -- the update leaves all kinds
        have kinds : ∀ other, IsMember (heap.update child
            { heap child with accessSpecifier := accessKind }) other ↔ IsMember heap other := by
          intro other
          by_cases same : other = child
          · simp only [IsMember, same, Heap.update_self]
          · simp only [IsMember, Heap.update_other same]
        rw [ih ((kinds member).mpr isMember) distinct, accessBehind]
        simp only [kinds]
      · rw [if_neg childMember, setAccess_cons_label childMember]
        exact ih isMember distinct _

/-- The access of every member of a type node. -/
theorem setMemberAccessSpecifier_member {heap : Heap} {type member : NodeRef}
    {front rest : List NodeRef} (distinct : (heap type).children.Nodup)
    (unset : ∀ child ∈ (heap type).children, (heap child).accessSpecifier = .none)
    (shape : (heap type).children = front ++ member :: rest) (isMember : IsMember heap member) :
    (setMemberAccessSpecifier specifierText heap type member).accessSpecifier =
      if front = [] then .none else accessBehind specifierText heap .default_ front := by
  rw [setMemberAccessSpecifier]
  rw [shape] at distinct unset ⊢
  cases front with
  | nil =>
      obtain ⟨absent, -⟩ := List.nodup_cons.mp distinct
      dsimp only [List.nil_append]
      rw [setAccess_other absent, if_pos rfl]
      exact unset member List.mem_cons_self
  | cons firstChild front =>
      obtain ⟨-, distinct⟩ := List.nodup_cons.mp distinct
      dsimp only [List.cons_append]
      rw [setAccess_member isMember distinct, if_neg (List.cons_ne_nil _ _)]
      rw [accessBehind, accessBehind, List.foldl_cons]
      by_cases isLabel : (heap firstChild).kind = .accessSpecifier
      · rw [if_pos isLabel, if_neg (show ¬ IsMember heap firstChild from not_not.mpr isLabel)]
      · rw [if_neg isLabel, if_pos (show IsMember heap firstChild from isLabel)]

/-- The members of a revision are under their labels. -/
theorem MemberAccessSet.underLabels {heap : Heap} {type : NodeRef}
    (set : MemberAccessSet specifierText heap type) (distinct : (heap type).children.Nodup) :
    UnderLabels specifierText heap type := by
  obtain ⟨built, children, unset, same⟩ := set
  rw [← children] at distinct unset same
  have kinds : ∀ child ∈ (built type).children, (IsMember heap child ↔ IsMember built child) :=
    fun child inside => not_congr (by rw [(same child inside).1])
  constructor
  · intro front label between member rest shape isLabel members isMember
    rw [← children] at shape
    have inside : ∀ child ∈ front ++ label :: between ++ member :: rest,
        child ∈ (built type).children := fun child member => shape ▸ member
    have memberIn := inside member (by simp)
    rw [(same member memberIn).2, setMemberAccessSpecifier_member distinct unset shape
      ((kinds member memberIn).mp isMember), if_neg (by simp)]
    exact accessBehind_label (fun built => isLabel ((kinds label (inside label (by simp))).mpr built))
      (fun child between => (kinds child (inside child (by simp [between]))).mp (members child between))
      _ _
  · intro front member rest shape members isMember
    rw [← children] at shape
    have inside : ∀ child ∈ front ++ member :: rest, child ∈ (built type).children :=
      fun child member => shape ▸ member
    have memberIn := inside member (by simp)
    rw [(same member memberIn).2, setMemberAccessSpecifier_member distinct unset shape
      ((kinds member memberIn).mp isMember), accessBehind_members fun child front =>
        (kinds child (inside child (by simp [front]))).mp (members child front)]

/-! ### Sections -/

/-- The loop leaves the labels alone. -/
theorem setAccess_label {heap : Heap} {label : NodeRef} (isLabel : ¬ IsMember heap label)
    (accessKind : AccessSpecifierKind) (children : List NodeRef) :
    setAccess specifierText heap accessKind children label = heap label := by
  induction children generalizing heap accessKind with
  | nil => rfl
  | cons child rest ih =>
      by_cases isMember : IsMember heap child
      · have apart : label ≠ child := fun same => isLabel (same ▸ isMember)
        rw [setAccess_cons_member isMember, ih (by rwa [IsMember, Heap.update_other apart]),
          Heap.update_other apart]
      · rw [setAccess_cons_label isMember]
        exact ih isLabel _

theorem setMemberAccessSpecifier_label {heap : Heap} {type label : NodeRef}
    (isLabel : ¬ IsMember heap label) :
    setMemberAccessSpecifier specifierText heap type label = heap label := by
  cases shape : (heap type).children with
  | nil => rw [setMemberAccessSpecifier, shape]
  | cons firstChild rest =>
      obtain ⟨accessKind, called⟩ := setMemberAccessSpecifier_cons shape
      rw [called, setAccess_label isLabel]

/-- The last label among some children, if there is one. -/
theorem exists_last_label (heap : Heap) (children : List NodeRef) :
    (∀ child ∈ children, IsMember heap child) ∨ ∃ front label between,
      children = front ++ label :: between ∧ ¬ IsMember heap label ∧
        ∀ child ∈ between, IsMember heap child := by
  induction children using List.reverseRecOn with
  | nil => exact .inl fun child absent => absurd absent List.not_mem_nil
  | append_singleton children last inductionHypothesis =>
    by_cases isMember : IsMember heap last
    · rcases inductionHypothesis with members | ⟨front, label, between, rfl, isLabel, members⟩
      · refine .inl fun child inside => ?_
        rcases List.mem_append.mp inside with inside | isLast
        · exact members child inside
        · rwa [List.mem_singleton.mp isLast]
      · refine .inr ⟨front, label, between ++ [last], by simp, isLabel, fun child inside => ?_⟩
        rcases List.mem_append.mp inside with inside | isLast
        · exact members child inside
        · rwa [List.mem_singleton.mp isLast]
    · exact .inr ⟨children, last, [], rfl, isMember, fun _ absent => absurd absent List.not_mem_nil⟩

/-- Of the members of a type node none that has no label stands behind one that has. -/
theorem MemberAccessSet.inSections {heap : Heap} {type : NodeRef}
    (set : MemberAccessSet specifierText heap type) (distinct : (heap type).children.Nodup)
    (names : ∀ child ∈ (heap type).children, (heap child).kind = .accessSpecifier →
      ∃ keyword ∈ keywords, keyword <:+: specifierText child) :
    (heap type).children.Pairwise (InSections heap) := by
  have under := set.underLabels distinct
  refine List.pairwise_of_forall_sublist fun {first second} order behind isMember => ?_
  obtain ⟨before, after, shape, inBefore, inAfter⟩ := List.cons_sublist_iff.mp order
  obtain ⟨front, between, rfl⟩ := List.append_of_mem inBefore
  obtain ⟨between', rest, rfl⟩ := List.append_of_mem (List.singleton_sublist.mp inAfter)
  have firstIn : first ∈ (heap type).children := by simp [shape]
  have firstMember : IsMember heap first := by
    -- a label has no access itself
    intro isLabel
    obtain ⟨built, children, unset, same⟩ := set
    obtain ⟨kind, access⟩ := same first firstIn
    rw [setMemberAccessSpecifier_label fun isMember => isMember (kind.symm.trans isLabel),
      unset first firstIn] at access
    rw [accessLabel, access] at behind
    cases behind
  rcases exists_last_label heap (front ++ first :: between ++ between') with
    members | ⟨earlier, label, between'', same, isLabel, members⟩
  · -- in front of all labels no member has one
    have none_ := under.beforeLabels front first (between ++ (between' ++ second :: rest))
      (by rw [shape]; simp) (fun other inside => members other (by simp [inside])) firstMember
    rw [accessLabel, none_] at behind
    split at behind <;> cases behind
  · have shape' : (heap type).children = earlier ++ label :: between'' ++ second :: rest := by
      rw [shape, ← same]
      simp
    rw [accessLabel, under.behindLabel earlier label between'' second rest shape' isLabel members
      isMember]
    exact label_getAccessSpecifierKind (names label (by simp [shape']) (not_not.mp isLabel))

end TypeDeclNode

end MergeBot
