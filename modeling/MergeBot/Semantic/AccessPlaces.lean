import MergeBot.Foundation.Anchors
import MergeBot.Semantic.AccessLabels
import MergeBot.Semantic.InsertionPlaces

/-!
# The access of merged members

A merge in our order keeps the labels of our members (`kept_labels`), and then puts the members
that their side added beside their neighbours, whatever their access. Their places are told by the
three revisions alone: which of our children are kept, which identities they come out with, and who
the neighbours of an added member are in their revision (`theirAnchor`).
`directMergeChildrenInOurOrder_keeps_access_iff`: the printed members keep their access exactly when
the added members go to places that fit their labels (`AccessFits`).
-/

namespace MergeBot

open Foundation Anchors

/-- A node that has a label. -/
def Labelled (heap : Heap) (ref : NodeRef) : Prop :=
  (accessLabel heap ref).isSome

/-- A member without a label. -/
def Unlabelled (heap : Heap) (ref : NodeRef) : Prop :=
  IsMember heap ref ∧ ¬ (accessLabel heap ref).isSome

instance (heap : Heap) : DecidablePred (Labelled heap) :=
  fun ref => inferInstanceAs (Decidable ((accessLabel heap ref).isSome))

instance (heap : Heap) : DecidablePred (Unlabelled heap) :=
  fun ref => inferInstanceAs (Decidable (IsMember heap ref ∧ ¬ (accessLabel heap ref).isSome))

theorem inSections_iff {heap : Heap} {first second : NodeRef} :
    InSections heap first second ↔ (Labelled heap first → ¬ Unlabelled heap second) := by
  rw [InSections, Headings.InSections, Labelled, Unlabelled, not_and, not_not]

theorem labels_congr {heap heap' : Heap} {ref ref' : NodeRef}
    (access : (heap ref).accessSpecifier = (heap' ref').accessSpecifier)
    (isMember : IsMember heap ref ↔ IsMember heap' ref') :
    (Labelled heap ref ↔ Labelled heap' ref') ∧ (Unlabelled heap ref ↔ Unlabelled heap' ref') := by
  rw [Labelled, Labelled, Unlabelled, Unlabelled, accessLabel, accessLabel, access, isMember]
  exact ⟨.rfl, .rfl⟩

/-! ## Labelled members and their neighbours -/

/-- In front of a member with a label, the nearest sibling that is no orphan comment has a label,
or is one. -/
theorem TypeDeclNode.UnderLabels.previous_labelled {specifierText : NodeRef → Text} {heap : Heap}
    {type member previous : NodeRef} {front rest : List NodeRef}
    (under : UnderLabels specifierText heap type)
    (names : ∀ child ∈ (heap type).children, (heap child).kind = .accessSpecifier →
      ∃ keyword ∈ keywords, keyword <:+: specifierText child)
    (shape : (heap type).children = front ++ member :: rest) (isMember : IsMember heap member)
    (labelled : Labelled heap member)
    (found : Placement.previousOf (GraphMerger.isOrphanComment heap) front = some previous) :
    IsMember heap previous → Labelled heap previous := by
  intro previousMember
  obtain ⟨-, tail, before, reversed, comments⟩ := List.find?_eq_some_iff_append.mp found
  have split : front = before.reverse ++ previous :: tail.reverse := by
    rw [← List.reverse_reverse front, reversed]
    simp
  have tailMembers : ∀ child ∈ tail.reverse, IsMember heap child := by
    intro child inside isLabel
    have isComment := comments child (List.mem_reverse.mp inside)
    simp [GraphMerger.isOrphanComment, isLabel] at isComment
  rcases exists_last_label heap before.reverse with members | ⟨earlier, label, between, same,
      isLabel, members⟩
  · -- no label is in front
    have none_ := under.beforeLabels front member rest shape (fun other inside => by
      rw [split] at inside
      rcases List.mem_append.mp inside with inside | inside
      · exact members other inside
      · rcases List.mem_cons.mp inside with rfl | inside
        · exact previousMember
        · exact tailMembers other inside) isMember
    rw [Labelled, accessLabel, none_] at labelled
    split at labelled <;> cases labelled
  · have access := under.behindLabel earlier label between previous
      (tail.reverse ++ member :: rest) (by rw [shape, split, same]; simp) isLabel members
      previousMember
    rw [Labelled, accessLabel, access]
    refine label_getAccessSpecifierKind (names label ?_ (not_not.mp isLabel))
    rw [shape, split, same]
    simp

namespace GraphMerger

/-! ## What the children come out as -/

/-- The nodes as they come out of the merge, their children and blank lines aside: a base node that
is matched on both sides with its merged record, another one as it is. -/
def settled (M : GraphMerger) (origin : Heap) : Heap := fun ref =>
  match M.ourMatching.oneOneMatching.find? fun entry => entry.left = ref,
      M.theirMatching.oneOneMatching.find? fun entry => entry.left = ref with
  | some ourEntry, some theirEntry =>
      M.mergeRecord (origin ourEntry.right) (origin ref) (origin theirEntry.right)
  | _, _ => origin ref

/-- What is kept of our children. -/
abbrev keptChildren (M : GraphMerger) (origin : Heap) (our : NodeRef) : List NodeRef :=
  (origin our).children.filterMap (M.outcome origin)

/-- Where a member that their side added goes, by its neighbours in their revision: directly behind
the first kept child with the identity of its previous sibling or, if that was selected itself,
behind that; failing that, directly before the first kept child with the identity of its next
sibling, or to the end. -/
def theirAnchor (M : GraphMerger) (origin heap : Heap) (our base their : NodeRef) :
    NodeRef → Anchor NodeRef :=
  anchorIn ((M.settled origin).hash M.std) (M.keptChildren origin our) (M.Selects heap base ·)
    (isOrphanComment origin) (origin their).children

/-- The members that their side added go to places that fit their labels. -/
structure AccessFits (M : GraphMerger) (origin heap : Heap) (our base their : NodeRef) : Prop where
  /-- A member without a label goes behind no kept child of ours that has one. -/
  unlabelled : ∀ added ∈ (origin their).children, M.Selects heap base added →
    Unlabelled origin added → ∀ child ∈ (origin our).children, Labelled origin child →
      ∀ kept ∈ M.outcome origin child,
        ¬ GoesBehind (M.theirAnchor origin heap our base their) (M.keptChildren origin our) kept
          added
  /-- A member with a label goes behind all kept children of ours that have none. -/
  labelled : ∀ added ∈ (origin their).children, M.Selects heap base added →
    Labelled origin added → ∀ child ∈ (origin our).children, Unlabelled origin child →
      ∀ kept ∈ M.outcome origin child,
        GoesBehind (M.theirAnchor origin heap our base their) (M.keptChildren origin our) kept
          added
  /-- No member without a label goes behind a kept child that one with a label is put at. -/
  apart : ∀ added ∈ (origin their).children, M.Selects heap base added → Labelled origin added →
    ∀ other ∈ (origin their).children, M.Selects heap base other → Unlabelled origin other →
      ∀ kept ∈ M.keptChildren origin our,
        (M.theirAnchor origin heap our base their added).At kept →
          ¬ GoesBehind (M.theirAnchor origin heap our base their) (M.keptChildren origin our) kept
            other

/-- The children of their node, as a graph has them: their access is that of a parsed type, they are
no nodes of ours and no base nodes, and those that the merge selects are members that stand in the
order of their ids, with identities of their own. -/
structure TheirChildren (M : GraphMerger) (origin heap : Heap) (Ours : NodeRef → Prop)
    (our base their : NodeRef) (specifierText : NodeRef → Text) : Prop where
  set : TypeDeclNode.MemberAccessSet specifierText origin their
  names : ∀ child ∈ (origin their).children, (origin child).kind = .accessSpecifier →
    ∃ keyword ∈ TypeDeclNode.keywords, keyword <:+: specifierText child
  distinct : (origin their).children.Nodup
  foreign : ∀ child ∈ (origin their).children, ¬ Ours child
  own : M.Unwritten their
  unwritten : ∀ child ∈ (origin their).children, M.Unwritten child
  recorded : M.theirMatching.possiblyAdded.collect.Nodup
  selected : ∀ added, M.Selects heap base added →
    added ∈ (origin their).children ∧ (origin added).parent = some their ∧ IsMember origin added
  increasing : ((origin their).children.filter (M.Selects heap base ·)).Pairwise
    fun first second => (origin first).id < (origin second).id
  told : ∀ added, M.Selects heap base added → ∀ other ∈ (origin their).children,
    origin.hash M.std added = origin.hash M.std other → added = other
  fresh : ∀ added, M.Selects heap base added → ∀ child ∈ M.keptChildren origin our,
    (M.settled origin).hash M.std child ≠ origin.hash M.std added

section Merged

variable {M : GraphMerger} {origin heap : Heap} {Ours : NodeRef → Prop} {rank : NodeRef → Nat}
  (prepared : M.Prepared origin Ours rank)

/-- Nodes that no merge writes come out as they are. -/
theorem settled_unwritten {ref : NodeRef} (unwritten : M.Unwritten ref) :
    M.settled origin ref = origin ref := by
  have missing : M.ourMatching.oneOneMatching.find? (fun entry => entry.left = ref) = none :=
    List.find?_eq_none.mpr fun entry member => by simpa using unwritten entry member
  rw [settled, missing]

include prepared

theorem Prepared.settled_matched {entry their : BiEntry NodeRef NodeRef UInt64}
    (member : entry ∈ M.ourMatching.oneOneMatching)
    (theirMember : their ∈ M.theirMatching.oneOneMatching) (left : their.left = entry.left) :
    M.settled origin entry.left =
      M.mergeRecord (origin entry.right) (origin entry.left) (origin their.right) := by
  have found : ∀ {map : BiMap} {own : BiEntry NodeRef NodeRef UInt64}, own ∈ map →
      (∀ first ∈ map, ∀ second ∈ map, first.left = second.left → first = second) →
        map.find? (fun other => other.left = own.left) = some own := by
    intro map own inside unique
    have some_ : (map.find? fun other => other.left = own.left).isSome :=
      List.find?_isSome.mpr ⟨own, inside, by simp⟩
    obtain ⟨other, isOther⟩ := Option.isSome_iff_exists.mp some_
    have same := List.find?_some isOther
    rw [isOther, unique other (List.mem_of_find?_eq_some isOther) own inside (by simpa using same)]
  have ours := found member prepared.our_exact.unique_left
  have theirs := found theirMember prepared.their_exact.unique_left
  rw [left] at theirs
  rw [settled, ours, theirs]

/-- A kept child has the identity it comes out with. -/
theorem Prepared.kept_hash {child merged : NodeRef} (isOurs : Ours child)
    (unwritten : ∀ ref, M.Unwritten ref → heap ref = origin ref)
    (finished : M.AllFinished origin heap child) (becomes : M.outcome origin child = some merged) :
    heap.hash M.std merged = (M.settled origin).hash M.std merged := by
  rcases (prepared.outcome_eq_some_iff isOurs).mp becomes with
    ⟨-, rfl⟩ | ⟨entry, member, rfl, rfl, their, theirMember, left⟩
  · have away := prepared.ours_apart merged isOurs
    rw [Heap.hash, Heap.hash, unwritten merged away, settled_unwritten away]
  · obtain ⟨children, eol, record⟩ :=
      (finished entry member .refl their theirMember left).record
    have fields : identityFields (heap entry.left) =
        identityFields (M.settled origin entry.left) := by
      rw [record, prepared.settled_matched member theirMember left]
      rfl
    exact SemanticNode.read_of_view fields (SemanticNode.hashSignature M.std) fun _ => rfl

/-- A kept child has a label when our child has one. -/
theorem Prepared.kept_labels {child merged : NodeRef} (isOurs : Ours child)
    (members : ∀ entry ∈ M.ourMatching.oneOneMatching,
      IsMember origin entry.left ∧ IsMember origin entry.right)
    (unwritten : ∀ ref, M.Unwritten ref → heap ref = origin ref)
    (finished : M.AllFinished origin heap child) (becomes : M.outcome origin child = some merged) :
    (Labelled heap merged ↔ Labelled origin child) ∧
      (Unlabelled heap merged ↔ Unlabelled origin child) := by
  rcases (prepared.outcome_eq_some_iff isOurs).mp becomes with
    ⟨-, rfl⟩ | ⟨entry, member, rfl, rfl, their, theirMember, left⟩
  · have same := unwritten merged (prepared.ours_apart merged isOurs)
    exact labels_congr (by rw [same]) (by rw [IsMember, IsMember, same])
  · obtain ⟨children, eol, record⟩ :=
      (finished entry member .refl their theirMember left).record
    have kind := congrArg SemanticNode.kind
      (M.mergeRecord_unmerged (origin entry.right) (origin entry.left) (origin their.right))
    refine labels_congr (by rw [record]; exact M.mergeRecord_accessSpecifier _ _ _)
      (iff_of_true ?_ (members entry member).2)
    rw [IsMember, record]
    exact fun isLabel => (members entry member).1 (kind.symm.trans isLabel)

section Places

variable {specifierText : NodeRef → Text} {our base their : NodeRef}
  (isOurs : Ours our)
  (theirs : M.TheirChildren origin heap Ours our base their specifierText)

include isOurs theirs

/-- Kept children and their children are all different. -/
theorem TheirChildren.nodup : (M.keptChildren origin our ++ (origin their).children).Nodup := by
  refine List.nodup_append.mpr ⟨?_, theirs.distinct, ?_⟩
  · rw [List.Nodup, List.pairwise_filterMap]
    refine (prepared.siblings our isOurs).imp_of_mem fun {child other} childIn otherIn apart => ?_
    rintro merged becomes _ becomes' rfl
    have isChild := prepared.closed our child ⟨isOurs, childIn⟩
    have isOther := prepared.closed our other ⟨isOurs, otherIn⟩
    rcases (prepared.outcome_eq_some_iff isChild).mp becomes with
        ⟨-, rfl⟩ | ⟨entry, member, rfl, rfl, -⟩ <;>
      rcases (prepared.outcome_eq_some_iff isOther).mp becomes' with
        ⟨-, same⟩ | ⟨entry', member', rfl, same, -⟩
    · exact apart same
    · exact prepared.ours_apart merged isChild entry' member' same.symm
    · exact prepared.ours_apart other isOther entry member same
    · exact apart (congrArg BiEntry.right
        (prepared.our_exact.unique_left entry member entry' member' same))
  · rintro kept isKept child inside rfl
    rcases prepared.mem_kept isOurs isKept with mine | ⟨entry, member, rfl⟩
    · exact theirs.foreign kept inside mine
    · exact theirs.unwritten entry.left inside entry member rfl

omit prepared isOurs in
theorem TheirChildren.same {child : NodeRef} (inside : child ∈ (origin their).children) :
    M.settled origin child = origin child :=
  settled_unwritten (theirs.unwritten child inside)

omit prepared isOurs in
/-- Their members with a label come behind those without one. -/
theorem TheirChildren.ordered :
    ((origin their).children.filter (M.Selects heap base ·)).Pairwise fun first second =>
      Labelled origin first → ¬ Unlabelled origin second :=
  ((theirs.set.inSections theirs.distinct theirs.names).imp
    fun sections => inSections_iff.mp sections).filter _

omit prepared isOurs in
/-- What a member with a label is put behind is kept, or it is one of theirs with a label. -/
theorem TheirChildren.labelled_behind {added other : NodeRef}
    (inside : added ∈ (origin their).children) (selected : M.Selects heap base added)
    (labelled : Labelled origin added)
    (isAnchor : M.theirAnchor origin heap our base their added = .behind other)
    (outside : other ∉ M.keptChildren origin our) :
    other ∈ (origin their).children ∧ Labelled origin other := by
  obtain ⟨previous, new⟩ := previous_of_nearAnchor_behind isAnchor outside
  obtain ⟨front, rest, shape⟩ := List.append_of_mem inside
  have absent : added ∉ front := fun member =>
    (List.nodup_append.mp (shape ▸ theirs.distinct)).2.2 added member added List.mem_cons_self rfl
  have found : Placement.previousOf (isOrphanComment origin) front = some other := by
    have neighbours := (neighbours_eq absent : previousIn (isOrphanComment origin)
      (front ++ added :: rest) added = _ ∧ _).1
    rw [← neighbours, ← shape, previous]
  obtain ⟨isOther, -, isMember⟩ := theirs.selected other (of_decide_eq_true new)
  exact ⟨isOther, (theirs.set.underLabels theirs.distinct).previous_labelled theirs.names shape
    (theirs.selected added selected).2.2 labelled found isMember⟩

/-- The second phase puts the selected members at their anchors, one after the other. -/
theorem TheirChildren.inserted {heap' : Heap}
    (unwritten : ∀ ref, M.Unwritten ref → heap' ref = origin ref)
    (kept : ∀ child ∈ M.keptChildren origin our,
      heap'.hash M.std child = (M.settled origin).hash M.std child)
    (selects : ∀ added, M.Selects heap' base added ↔ M.Selects heap base added) :
    Inserted (M.theirAnchor origin heap our base their) (M.keptChildren origin our)
      ((origin their).children.filter (M.Selects heap base ·))
      ((M.theirsAdded heap' base).foldl (M.insertAdded heap') (M.keptChildren origin our)) := by
  have same : ∀ child ∈ (origin their).children, heap' child = origin child :=
    fun child inside => unwritten child (theirs.unwritten child inside)
  have hash : ∀ child ∈ (origin their).children,
      heap'.hash M.std child = origin.hash M.std child :=
    fun child inside => Heap.hash_congr (same child inside)
  have picked : (origin their).children.filter (· ∈ M.theirsAdded heap' base) =
      (origin their).children.filter (M.Selects heap base ·) :=
    List.filter_congr fun child _ =>
      decide_eq_decide.mpr (mem_theirsAdded_iff.trans (selects child))
  have listed : M.theirsAdded heap' base =
      (origin their).children.filter (M.Selects heap base ·) := by
    rw [← picked]
    refine theirsAdded_eq_filter theirs.recorded theirs.distinct (fun added inside =>
      (theirs.selected added ((selects added).mp (mem_theirsAdded_iff.mp inside))).1) ?_
    rw [picked]
    refine theirs.increasing.imp_of_mem fun {first second} isFirst isSecond below => ?_
    rwa [same first (List.mem_of_mem_filter isFirst),
      same second (List.mem_of_mem_filter isSecond)]
  -- the identities that the second phase sees are those that the children come out with
  have anchors : anchorIn (heap'.hash M.std) (M.keptChildren origin our) (M.Selects heap base ·)
      (isOrphanComment origin) (origin their).children =
        M.theirAnchor origin heap our base their := by
    have inTheirs : ∀ neighbour ∈ (origin their).children,
        heap'.hash M.std neighbour = (M.settled origin).hash M.std neighbour := by
      intro neighbour inside
      rw [hash neighbour inside, Heap.hash, Heap.hash, theirs.same inside]
    funext added
    refine nearAnchor_congr kept (fun neighbour found => inTheirs neighbour ?_)
      fun neighbour found => inTheirs neighbour ?_
    · exact (List.takeWhile_prefix _).subset
        (List.mem_reverse.mp (List.mem_of_find?_eq_some found))
    · exact (List.dropWhile_suffix _).subset (List.mem_of_mem_tail
        (List.mem_of_find?_eq_some found))
  rw [listed, ← anchors]
  refine inserted_foldl (theirs.nodup prepared isOurs) (fun added _ new child isKept => ?_)
    (fun added inside new other isOther equal => ?_) fun front added after shape new merged => ?_
  · have selected := of_decide_eq_true new
    rw [kept child isKept, hash added (theirs.selected added selected).1]
    exact theirs.fresh added selected child isKept
  · rw [hash added inside, hash other isOther] at equal
    exact theirs.told added (of_decide_eq_true new) other isOther equal
  · have selected := of_decide_eq_true new
    obtain ⟨inside, up, -⟩ := theirs.selected added selected
    have siblings : (heap' their).children = front ++ added :: after := by
      rw [unwritten their theirs.own, shape]
    have fresh : ∀ other ∈ front, heap'.hash M.std other ≠ heap'.hash M.std added := by
      intro other inFront equal
      have isOther : other ∈ (origin their).children := shape ▸ List.mem_append_left _ inFront
      rw [hash other isOther, hash added inside] at equal
      obtain rfl := theirs.told added selected other isOther equal.symm
      exact (List.nodup_append.mp (shape ▸ theirs.distinct)).2.2 added inFront added
        List.mem_cons_self rfl
    have comments : ∀ child ∈ (origin their).children,
        isOrphanComment heap' child = isOrphanComment origin child := by
      intro child member
      rw [isOrphanComment, isOrphanComment, same child member]
    rw [insertAdded, M.getNeighbors_child (by rw [same added inside, up]) siblings fresh,
      Placement.previousOf_congr fun child member => comments child (by simp [shape, member]),
      Placement.nextOf_congr fun child member => comments child (by simp [shape, member])]

/-- The children are in sections in the end exactly when the members that their side added go to
places that fit their labels. -/
theorem TheirChildren.inSections_iff_accessFits {heap' : Heap} {children : List NodeRef}
    (inserted : Inserted (M.theirAnchor origin heap our base their) (M.keptChildren origin our)
      ((origin their).children.filter (M.Selects heap base ·)) children)
    (unwritten : ∀ ref, M.Unwritten ref → heap' ref = origin ref)
    (kept : ∀ child ∈ (origin our).children, ∀ merged ∈ M.outcome origin child,
      (Labelled heap' merged ↔ Labelled origin child) ∧
        (Unlabelled heap' merged ↔ Unlabelled origin child))
    (sections : (origin our).children.Pairwise (InSections origin)) :
    children.Pairwise (InSections heap') ↔ M.AccessFits origin heap our base their := by
  have distinct : children.Nodup := inserted.perm.nodup_iff.mpr
    ((theirs.nodup prepared isOurs).sublist (List.filter_sublist.append_left _))
  have mem_added : ∀ child, child ∈ (origin their).children.filter (M.Selects heap base ·) ↔
      child ∈ (origin their).children ∧ M.Selects heap base child := fun child => by
    rw [List.mem_filter, decide_eq_true_iff]
  have labels : ∀ child ∈ (origin their).children,
      (Labelled heap' child ↔ Labelled origin child) ∧
        (Unlabelled heap' child ↔ Unlabelled origin child) := by
    intro child inside
    have same := unwritten child (theirs.unwritten child inside)
    exact labels_congr (by rw [same]) (by rw [IsMember, IsMember, same])
  have keptOrder : (M.keptChildren origin our).Pairwise fun first second =>
      Labelled heap' first → ¬ Unlabelled heap' second := by
    rw [keptChildren, List.pairwise_filterMap]
    refine sections.imp_of_mem fun {child other} childIn otherIn order => ?_
    intro merged becomes merged' becomes'
    rw [(kept child childIn merged becomes).1, (kept other otherIn merged' becomes').2]
    exact inSections_iff.mp order
  have fits := inserted.pairwise_iff distinct
    (fun item _ other isAnchor => mem_of_nearAnchor_before isAnchor)
    (fun child (labelled : Labelled heap' child) (unlabelled : Unlabelled heap' child) =>
      unlabelled.2 labelled)
    (theirs.ordered.imp_of_mem fun {first second} isFirst isSecond order => by
      rwa [(labels first ((mem_added first).mp isFirst).1).1,
        (labels second ((mem_added second).mp isSecond).1).2])
    (fun item member labelled other isAnchor outside => by
      obtain ⟨inside, selected⟩ := (mem_added item).mp member
      obtain ⟨isOther, otherLabelled⟩ := theirs.labelled_behind inside selected
        ((labels item inside).1.mp labelled) isAnchor outside
      exact (labels other isOther).1.mpr otherLabelled)
  rw [List.Pairwise.iff fun _ _ => inSections_iff, fits, and_iff_right keptOrder]
  constructor
  · rintro ⟨unlabelled, labelled, apart⟩
    constructor
    · intro item inside selected isPlain child isChild isLabelled merged becomes
      exact unlabelled item ((mem_added item).mpr ⟨inside, selected⟩)
        ((labels item inside).2.mpr isPlain) merged
        (List.mem_filterMap.mpr ⟨child, isChild, becomes⟩)
        ((kept child isChild merged becomes).1.mpr isLabelled)
    · intro item inside selected isLabelled child isChild isPlain merged becomes
      exact labelled item ((mem_added item).mpr ⟨inside, selected⟩)
        ((labels item inside).1.mpr isLabelled) merged
        (List.mem_filterMap.mpr ⟨child, isChild, becomes⟩)
        ((kept child isChild merged becomes).2.mpr isPlain)
    · intro item inside selected isLabelled other isOther otherSelected isPlain
      exact apart item ((mem_added item).mpr ⟨inside, selected⟩)
        ((labels item inside).1.mpr isLabelled) other
        ((mem_added other).mpr ⟨isOther, otherSelected⟩) ((labels other isOther).2.mpr isPlain)
  · rintro ⟨unlabelled, labelled, apart⟩
    refine ⟨fun item isItem isPlain merged isKept isLabelled => ?_,
      fun item isItem isLabelled merged isKept isPlain => ?_,
      fun item isItem isLabelled other isOther isPlain => ?_⟩
    · obtain ⟨inside, selected⟩ := (mem_added item).mp isItem
      obtain ⟨child, isChild, becomes⟩ := List.mem_filterMap.mp isKept
      exact unlabelled item inside selected ((labels item inside).2.mp isPlain) child isChild
        ((kept child isChild merged becomes).1.mp isLabelled) merged becomes
    · obtain ⟨inside, selected⟩ := (mem_added item).mp isItem
      obtain ⟨child, isChild, becomes⟩ := List.mem_filterMap.mp isKept
      exact labelled item inside selected ((labels item inside).1.mp isLabelled) child isChild
        ((kept child isChild merged becomes).2.mp isPlain) merged becomes
    · obtain ⟨inside, selected⟩ := (mem_added item).mp isItem
      obtain ⟨otherInside, otherSelected⟩ := (mem_added other).mp isOther
      exact apart item inside selected ((labels item inside).1.mp isLabelled) other otherInside
        otherSelected ((labels other otherInside).2.mp isPlain)

end Places

/-- The printed members of a type node whose children were merged in our order keep their access
exactly when the members that their side added go to places that fit their labels. (`elsewhere`: no
node merged below was matched under the identity that the base node has now.) -/
theorem directMergeChildrenInOurOrder_keeps_access_iff (favour : M.orderInFavour = .ours)
    (apart : M.RecordedApart origin) {entry : BiEntry NodeRef NodeRef UInt64}
    (member : entry ∈ M.ourMatching.oneOneMatching) (isOurs : Ours entry.right)
    (total : ∀ other ∈ M.ourMatching.oneOneMatching, Ours other.right)
    (elsewhere : ∀ other ∈ M.ourMatching.oneOneMatching,
      BelowAny origin Ours (origin entry.right).children other.right →
        origin.hash M.std other.left ≠ heap.hash M.std entry.left)
    (type : (heap entry.left).kind = .type) {specifierText : NodeRef → Text}
    (set : TypeDeclNode.MemberAccessSet specifierText origin entry.right)
    (names : ∀ child ∈ (origin entry.right).children, (origin child).kind = .accessSpecifier →
      ∃ keyword ∈ TypeDeclNode.keywords, keyword <:+: specifierText child)
    (members : ∀ other ∈ M.ourMatching.oneOneMatching,
      IsMember origin other.left ∧ IsMember origin other.right)
    {their : NodeRef}
    (theirs : M.TheirChildren origin heap Ours entry.right entry.left their specifierText)
    {fuel : Nat} (enough : rank entry.right ≤ fuel)
    (pristine : M.Pristine origin heap (BelowAny origin Ours (origin entry.right).children)) :
    ∃ heap' children,
      M.directMergeChildrenInOurOrder (M.mergeSemanticNode fuel) heap entry.right entry.left
          their = some (heap', children) ∧
        (KeepsAccess (heap'.update entry.left { heap' entry.left with children := children })
            entry.left ↔ M.AccessFits origin heap entry.right entry.left their) := by
  obtain ⟨heap', returned, within, finished⟩ := directMergeChildrenInOurOrder_run prepared
    (mergeSemanticNode_run prepared favour fuel) entry.left their isOurs
    (fun child inside => Nat.lt_of_lt_of_le (prepared.forest.rank_lt _ _ ⟨isOurs, inside⟩) enough)
    pristine
  refine ⟨heap', _, returned, ?_⟩
  have unwritten : ∀ ref, M.Unwritten ref → heap' ref = origin ref := fun ref away =>
    (within.unwritten away).trans (pristine.unwritten away)
  have sameBase := prepared.base_kept member isOurs within
  have type' : ∀ children, (heap'.update entry.left
      { heap' entry.left with children := children } entry.left).kind = .type := by
    intro children
    rw [Heap.update_self, sameBase]
    exact type
  have inserted := theirs.inserted prepared isOurs unwritten
    (fun merged isKept => by
      obtain ⟨child, inside, becomes⟩ := List.mem_filterMap.mp isKept
      exact prepared.kept_hash (prepared.closed _ _ ⟨isOurs, inside⟩) unwritten
        (finished child inside) becomes)
    fun added => within.selects_iff apart pristine sameBase
      (prepared.found_settled total elsewhere within).1
      (prepared.found_settled total elsewhere within).2
  have kept : ∀ child ∈ (origin entry.right).children, ∀ merged ∈ M.outcome origin child,
      (Labelled heap' merged ↔ Labelled origin child) ∧
        (Unlabelled heap' merged ↔ Unlabelled origin child) := fun child inside merged becomes =>
    prepared.kept_labels (prepared.closed _ _ ⟨isOurs, inside⟩) members unwritten
      (finished child inside) becomes
  rw [keepsAccess_iff (type' _), Heap.update_self, inSections_update]
  exact theirs.inSections_iff_accessFits prepared isOurs inserted unwritten kept
    (set.inSections (prepared.siblings _ isOurs) names)

end Merged

/-- A structure with a member `a`. Our side makes it private; their side adds a member `b`
behind it, without a label. -/
def privateMember : Heap
  | 0 => { kind := .type, usr := "c:@S@S", originalSignature := "struct S ",
           beforeFirstChildEOL := 1, children := [1] }
  | 1 => { kind := .fieldDeclaration, usr := "c:@S@S@FI@a", body := "int a;", followingEOL := 1,
           parent := some 0, id := 1 }
  | 2 => { kind := .type, usr := "c:@S@S", originalSignature := "struct S ",
           beforeFirstChildEOL := 1, children := [3, 4] }
  | 3 => { kind := .accessSpecifier, isSynthetic := true, needToMerge := false, id := -1 }
  | 4 => { kind := .fieldDeclaration, usr := "c:@S@S@FI@a", body := "int a;", followingEOL := 1,
           parent := some 2, id := 1, accessSpecifier := .private_ }
  | 5 => { kind := .type, usr := "c:@S@S", originalSignature := "struct S ",
           beforeFirstChildEOL := 1, children := [6, 7] }
  | 6 => { kind := .fieldDeclaration, usr := "c:@S@S@FI@a", body := "int a;", followingEOL := 1,
           parent := some 5, id := 1 }
  | 7 => { kind := .fieldDeclaration, usr := "c:@S@S@FI@b", body := "int b;", followingEOL := 1,
           parent := some 5, id := 2, accessSpecifier := .default_ }
  | _ => {}

/-- The merger of the three versions. -/
def privateMerger : GraphMerger where
  std := .polynomial
  gitMergeTextual our _ _ _ _ _ := our
  ourMatching := { oneOneMatching := tableOf .polynomial privateMember [(0, 2), (1, 4)] }
  theirMatching :=
    { oneOneMatching := tableOf .polynomial privateMember [(0, 5), (1, 6)]
      possiblyAdded := Function.update (fun _ => []) .fieldDeclaration [7] }

/-- The access of the members is that of parsed types. -/
theorem privateMember_set {type : NodeRef} (isType : type ∈ [0, 2, 5]) :
    TypeDeclNode.MemberAccessSet (fun _ => "private".toList) privateMember type := by
  refine ⟨fun ref => { privateMember ref with accessSpecifier := .none }, rfl, fun _ _ => rfl, ?_⟩
  simp only [List.mem_cons, List.not_mem_nil, or_false] at isType
  rcases isType with rfl | rfl | rfl <;> decide

/-- Nothing else is printed of the members, and all stand in the first column. -/
def privateFields : PrintedFields where
  displayName _ := []
  nsComment _ := []
  startColumn _ := 0

/-- The member without a label is printed behind that of the private member. -/
theorem privateMember_mislabelled :
    (∀ type ∈ [0, 2, 5],
      TypeDeclNode.MemberAccessSet (fun _ => "private".toList) privateMember type) ∧
    ∃ heap' children,
      privateMerger.directMergeChildrenInOurOrder (privateMerger.mergeSemanticNode 1)
          privateMember 2 0 5 = some (heap', children) ∧
        (let merged := heap'.update 0 { heap' 0 with children := children }
        PrettyPrinter.prettyPrintNode privateFields merged 3 0 =
            some "struct S \x7b\nprivate:\nint a;\nint b;\n\x7d;\n\n".toList ∧
          ¬ KeepsAccess merged 0) := by
  refine ⟨fun type isType => privateMember_set isType, _, _, rfl, rfl, fun keeps => ?_⟩
  exact absurd (keeps [.item 3, .heading .private_, .item 1] 7 [] rfl (by decide)) (by decide)

/-- A structure with members `a` and `d`. Our side makes `d` private; their side adds a member `b`
between them, and a public one, `e`, behind both. -/
def fittingMembers : Heap
  | 0 => { kind := .type, usr := "c:@S@S", originalSignature := "struct S ",
           beforeFirstChildEOL := 1, children := [1, 2] }
  | 1 => { kind := .fieldDeclaration, usr := "c:@S@S@FI@a", body := "int a;", followingEOL := 1,
           parent := some 0, id := 1 }
  | 2 => { kind := .fieldDeclaration, usr := "c:@S@S@FI@d", body := "int d;", followingEOL := 1,
           parent := some 0, id := 2, accessSpecifier := .default_ }
  | 3 => { kind := .type, usr := "c:@S@S", originalSignature := "struct S ",
           beforeFirstChildEOL := 1, children := [4, 5, 6] }
  | 4 => { kind := .fieldDeclaration, usr := "c:@S@S@FI@a", body := "int a;", followingEOL := 1,
           parent := some 3, id := 1 }
  | 5 => { kind := .accessSpecifier, isSynthetic := true, needToMerge := false, id := -1 }
  | 6 => { kind := .fieldDeclaration, usr := "c:@S@S@FI@d", body := "int d;", followingEOL := 1,
           parent := some 3, id := 2, accessSpecifier := .private_ }
  | 7 => { kind := .type, usr := "c:@S@S", originalSignature := "struct S ",
           beforeFirstChildEOL := 1, children := [8, 9, 10, 11, 12] }
  | 8 => { kind := .fieldDeclaration, usr := "c:@S@S@FI@a", body := "int a;", followingEOL := 1,
           parent := some 7, id := 1 }
  | 9 => { kind := .fieldDeclaration, usr := "c:@S@S@FI@b", body := "int b;", followingEOL := 1,
           parent := some 7, id := 2, accessSpecifier := .default_ }
  | 10 => { kind := .fieldDeclaration, usr := "c:@S@S@FI@d", body := "int d;", followingEOL := 1,
            parent := some 7, id := 3, accessSpecifier := .default_ }
  | 11 => { kind := .accessSpecifier, isSynthetic := true, needToMerge := false, id := -1 }
  | 12 => { kind := .fieldDeclaration, usr := "c:@S@S@FI@e", body := "int e;", followingEOL := 1,
            parent := some 7, id := 4, accessSpecifier := .public_ }
  | _ => {}

/-- The merger of the three versions. -/
def fittingMerger : GraphMerger where
  std := .polynomial
  gitMergeTextual our _ _ _ _ _ := our
  ourMatching := { oneOneMatching := tableOf .polynomial fittingMembers [(0, 3), (1, 4), (2, 6)] }
  theirMatching :=
    { oneOneMatching := tableOf .polynomial fittingMembers [(0, 7), (1, 8), (2, 10)]
      possiblyAdded := Function.update (fun _ => []) .fieldDeclaration [9, 12] }

theorem fittingMerger_ours :
    fittingMerger.ourMatching.Partition .polynomial fittingMembers [0, 1, 2] [3, 4, 6] := by
  decide

theorem fittingMerger_theirs :
    fittingMerger.theirMatching.Partition .polynomial fittingMembers [0, 1, 2]
      [7, 8, 9, 10, 12] := by
  decide

theorem fittingMerger_prepared :
    fittingMerger.Prepared fittingMembers (· ∈ [3, 4, 6] ++ [5])
      fun ref => if ref = 3 then 1 else 0 :=
  .of_partition_outside [5] fittingMerger_ours fittingMerger_theirs (by decide) (by decide)
    (by decide) (by decide) (by decide)

/-- The texts of the two access specifiers. -/
def fittingTexts : NodeRef → Text
  | 5 => "private".toList
  | _ => "public".toList

theorem fittingMembers_set {type : NodeRef} (isType : type ∈ [3, 7]) :
    TypeDeclNode.MemberAccessSet fittingTexts fittingMembers type := by
  refine ⟨fun ref => { fittingMembers ref with accessSpecifier := .none }, rfl,
    fun _ _ => rfl, ?_⟩
  simp only [List.mem_cons, List.not_mem_nil, or_false] at isType
  rcases isType with rfl | rfl <;> decide

theorem fittingMembers_theirs :
    fittingMerger.TheirChildren fittingMembers fittingMembers (· ∈ [3, 4, 6] ++ [5]) 3 0 7
      fittingTexts where
  set := fittingMembers_set (by decide)
  names := by decide
  distinct := by decide
  foreign := by decide
  own := by decide
  unwritten := by decide
  recorded := by decide
  selected := by
    rintro added ⟨recorded, -⟩
    revert added
    decide
  increasing := by decide
  told := by
    rintro added ⟨recorded, -⟩
    revert added
    decide
  fresh := by
    rintro added ⟨recorded, -⟩
    revert added
    decide

/-- All members keep their access: `b` is printed in front of all labels, `e` and `d` each under its
own. -/
theorem fittingMembers_keeps_access :
    ∃ heap' children,
      fittingMerger.directMergeChildrenInOurOrder (fittingMerger.mergeSemanticNode 1)
          fittingMembers 3 0 7 = some (heap', children) ∧
        KeepsAccess (heap'.update 0 { heap' 0 with children := children }) 0 ∧
          fittingMerger.AccessFits fittingMembers fittingMembers 3 0 7 := by
  have member : ⟨0, 3, fittingMembers.hash .polynomial 0, fittingMembers.hash .polynomial 3⟩ ∈
      fittingMerger.ourMatching.oneOneMatching := by decide
  obtain ⟨heap', children, returned, keeps⟩ :=
    directMergeChildrenInOurOrder_keeps_access_iff fittingMerger_prepared rfl (by decide) member
      (by decide) (by decide)
      (fittingMerger_prepared.elsewhere_of_kept member (by decide) rfl) rfl
      (fittingMembers_set (by decide)) (by decide) (by decide) fittingMembers_theirs
      (show _ ≤ 1 by decide) .refl
  have sections : (fittingMerger.directMergeChildrenInOurOrder (fittingMerger.mergeSemanticNode 1)
      fittingMembers 3 0 7).map (fun result =>
        (decide (result.2.Pairwise (InSections result.1)),
          decide ((result.1 0).kind = .type))) = some (true, true) := by
    decide
  rw [returned, Option.map_some, Option.some.injEq, Prod.mk.injEq, decide_eq_true_iff,
    decide_eq_true_iff] at sections
  have keepsAccess : KeepsAccess (heap'.update 0 { heap' 0 with children := children }) 0 := by
    rw [keepsAccess_iff (by rw [Heap.update_self]; exact sections.2), Heap.update_self,
      inSections_update]
    exact sections.1
  exact ⟨heap', children, returned, keepsAccess, keeps.mp keepsAccess⟩

end GraphMerger

end MergeBot
