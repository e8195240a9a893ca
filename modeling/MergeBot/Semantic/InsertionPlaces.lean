import MergeBot.Semantic.ChildOrder

/-!
# The places of inserted children

One side leaves the children of a base node alone, the other inserts some. The
merge in our order restores the children of that side exactly when it selects
the inserted nodes (`SelectsInserted`) and each of them is `WellPlaced` among its
siblings: directly behind its nearest sibling that is not an orphan comment, or
else before everything that was there.
-/

namespace MergeBot

open Foundation

namespace GraphMerger

variable {M : GraphMerger} {origin heap heap' : Heap}

/-- Whether their side added a node. -/
def inserted (M : GraphMerger) (ref : NodeRef) : Bool :=
  ref ∈ M.theirMatching.possiblyAdded.collect

/-- A child is the unchanged match of a base child. -/
def Keeps (M : GraphMerger) (origin : Heap) (matching : TwoWayMatching)
    (child baseChild : NodeRef) : Prop :=
  ∃ entry ∈ matching.oneOneMatching, entry.left = baseChild ∧ entry.right = child ∧
    SameTexts (origin child) (origin baseChild) ∧
      origin.hash M.std child = origin.hash M.std baseChild

/-- Our side left the children of a base node alone, their side kept them in order
and inserted children between them. -/
structure OneSidedInsertions (M : GraphMerger) (origin : Heap) (our base their : NodeRef) :
    Prop where
  ours_kept : List.Forall₂ (M.Keeps origin M.ourMatching) (origin our).children
    (origin base).children
  theirs_kept : List.Forall₂ (M.Keeps origin M.theirMatching)
    ((origin their).children.filter fun child => !M.inserted child) (origin base).children
  distinct : ((origin their).children.map (origin.hash M.std)).Nodup
  increasing : (origin their).children.Pairwise fun first second =>
    (origin first).id < (origin second).id
  parents : ∀ child ∈ (origin their).children, (origin child).parent = some their
  recorded : (M.theirMatching.possiblyAdded.collect.map (origin.hash M.std)).Nodup
  unwritten : M.Unwritten their

/-- The merge picks exactly the inserted children from the recorded nodes: those
whose parent has the identity of what the base node is found to be matched with,
unless our side recorded a node of the same identity under its match. -/
def SelectsInserted (M : GraphMerger) (heap : Heap) (base their : NodeRef) : Prop :=
  ∀ added ∈ M.theirMatching.possiblyAdded.collect,
    (M.AddedUnder heap base M.theirMatching added ∧
        ∀ other ∈ M.ourMatching.possiblyAdded.collect,
          M.AddedUnder heap base M.ourMatching other →
            heap.hash M.std other ≠ heap.hash M.std added) ↔
      added ∈ (heap their).children

/-- Whether the merge picks a node: it is recorded under the match of the base node, and our side
recorded no node of its identity there. -/
def Selects (M : GraphMerger) (heap : Heap) (base added : NodeRef) : Prop :=
  added ∈ M.theirMatching.possiblyAdded.collect ∧ M.AddedUnder heap base M.theirMatching added ∧
    ∀ other ∈ M.ourMatching.possiblyAdded.collect, M.AddedUnder heap base M.ourMatching other →
      heap.hash M.std other ≠ heap.hash M.std added

instance (M : GraphMerger) (heap : Heap) (base : NodeRef) (matching : TwoWayMatching)
    (added : NodeRef) : Decidable (M.AddedUnder heap base matching added) :=
  decidable_of_iff ((matching.oneOneMatching.leftFind (heap.hash M.std) base).any (fun entry =>
      (heap added).parent.any fun parent =>
        heap.hash M.std parent = heap.hash M.std entry.right) = true) (by
    simp only [AddedUnder, Option.any_eq_true, decide_eq_true_eq])

instance (M : GraphMerger) (heap : Heap) (base added : NodeRef) :
    Decidable (M.Selects heap base added) :=
  inferInstanceAs (Decidable (_ ∧ _ ∧ _))

/-- The second phase picks what is selected. -/
theorem mem_theirsAdded_iff {base added : NodeRef} :
    added ∈ M.theirsAdded heap base ↔ M.Selects heap base added := by
  rw [mem_theirsAdded, Selects]
  simp only [mem_filterAddedNodes, and_imp, and_assoc]

/-- What the second phase picks, recorded node by recorded node. -/
theorem selectsInserted_iff {base their : NodeRef} :
    M.SelectsInserted heap base their ↔
      ∀ added ∈ M.theirMatching.possiblyAdded.collect,
        added ∈ M.theirsAdded heap base ↔ added ∈ (heap their).children := by
  refine forall₂_congr fun added recorded => ?_
  rw [mem_theirsAdded_iff, Selects, and_iff_right recorded]

/-- Picking siblings picks them in their order, when their IDs grow. -/
theorem theirsAdded_eq_filter {base : NodeRef} {siblings : List NodeRef}
    (once : M.theirMatching.possiblyAdded.collect.Nodup) (distinct : siblings.Nodup)
    (inside : ∀ added ∈ M.theirsAdded heap base, added ∈ siblings)
    (increasing : (siblings.filter (· ∈ M.theirsAdded heap base)).Pairwise fun first second =>
      (heap first).id < (heap second).id) :
    M.theirsAdded heap base = siblings.filter (· ∈ M.theirsAdded heap base) := by
  have addedDistinct : (M.theirsAdded heap base).Nodup := by
    rw [theirsAdded, removeDuplicates_eq]
    exact (M.nodup_filterAddedNodes heap once).filter _
  have sorted : (M.theirsAdded heap base).Pairwise (ByID heap) := by
    rw [theirsAdded, removeDuplicates_eq]
    exact (M.pairwise_filterAddedNodes heap base M.theirMatching).filter _
  have ordered : (siblings.filter (· ∈ M.theirsAdded heap base)).Pairwise (ByID heap) :=
    increasing.imp fun below => Int.le_of_lt below
  have perm : (M.theirsAdded heap base).Perm
      (siblings.filter (· ∈ M.theirsAdded heap base)) := by
    refine (List.perm_ext_iff_of_nodup addedDistinct (distinct.filter _)).mpr fun added => ?_
    simpa [List.mem_filter] using inside added
  have ids : ((siblings.filter (· ∈ M.theirsAdded heap base)).map fun ref =>
      (heap ref).id).Nodup := by
    rw [List.Nodup, List.pairwise_map]
    exact increasing.imp fun below => Int.ne_of_lt below
  refine perm.eq_of_pairwise (fun first second isFirst isSecond below above => ?_) sorted ordered
  exact List.inj_on_of_nodup_map ids (perm.subset isFirst) isSecond (Int.le_antisymm below above)

/-- A node without changed texts keeps its identity. -/
theorem Finished.hash_same {entry their : BiEntry NodeRef NodeRef UInt64}
    (finished : M.Finished origin heap entry their)
    (ourSame : SameTexts (origin entry.right) (origin entry.left))
    (theirSame : SameTexts (origin their.right) (origin entry.left)) :
    heap.hash M.std entry.left = origin.hash M.std entry.left := by
  obtain ⟨children, eol, record⟩ := finished.record
  have fields : identityFields (heap entry.left) = identityFields (origin entry.left) := by
    rw [record]
    exact M.mergeRecord_same ourSame theirSame
  exact SemanticNode.read_of_view fields (SemanticNode.hashSignature M.std) fun _ => rfl

/-- The neighbours of a child in the list of its siblings. -/
theorem getNeighbors_child (M : GraphMerger) {parent item : NodeRef} {front after : List NodeRef}
    (up : (heap item).parent = some parent)
    (siblings : (heap parent).children = front ++ item :: after)
    (fresh : ∀ other ∈ front, heap.hash M.std other ≠ heap.hash M.std item) :
    M.getNeighbors heap item =
      some (Placement.previousOf (isOrphanComment heap) front, item,
        Placement.nextOf (isOrphanComment heap) after) := by
  have found := Placement.position_append after fresh
  simp only [getNeighbors, up, siblings, found]
  simp

/-- Each item on one side of a pairing has a partner. -/
theorem forall₂_partner {R : NodeRef → NodeRef → Prop} {first second : List NodeRef}
    (pairs : List.Forall₂ R first second) : ∀ ref ∈ second, ∃ partner ∈ first, R partner ref := by
  induction pairs with
  | nil => simp
  | cons pair _ ih =>
      intro ref member
      rcases List.mem_cons.mp member with rfl | later
      · exact ⟨_, List.mem_cons_self, pair⟩
      · obtain ⟨partner, inside, pair⟩ := ih ref later
        exact ⟨partner, List.mem_cons_of_mem _ inside, pair⟩

section Insertions

variable {our base their : NodeRef} (insertions : M.OneSidedInsertions origin our base their)

include insertions

/-- Every base child has unchanged matches on both sides. -/
theorem OneSidedInsertions.matches_ {baseChild : NodeRef}
    (member : baseChild ∈ (origin base).children) :
    (∃ child ∈ (origin our).children, M.Keeps origin M.ourMatching child baseChild) ∧
      ∃ child ∈ (origin their).children, M.Keeps origin M.theirMatching child baseChild := by
  obtain ⟨child, inside, keeps⟩ := forall₂_partner insertions.theirs_kept baseChild member
  exact ⟨forall₂_partner insertions.ours_kept baseChild member, child,
    List.mem_of_mem_filter inside, keeps⟩

/-- Their children are inserted ones and matched ones. -/
theorem OneSidedInsertions.their_child {child : NodeRef}
    (member : child ∈ (origin their).children) :
    child ∈ M.theirMatching.possiblyAdded.collect ∨
      ∃ entry ∈ M.theirMatching.oneOneMatching, entry.right = child := by
  by_cases isInserted : child ∈ M.theirMatching.possiblyAdded.collect
  · exact .inl isInserted
  · have kept : child ∈ (origin their).children.filter fun child => !M.inserted child := by
      simp [member, inserted, isInserted]
    obtain ⟨-, -, entry, entryMember, -, right, -⟩ :=
      forall₂_partner insertions.theirs_kept.flip child kept
    exact .inr ⟨entry, entryMember, right⟩

/-- All base children are kept. -/
theorem OneSidedInsertions.kept_eq {Ours : NodeRef → Prop} {rank : NodeRef → Nat}
    (prepared : M.Prepared origin Ours rank) (isOurs : Ours our) :
    (origin our).children.filterMap (M.outcome origin) = (origin base).children := by
  have each : List.Forall₂ (fun child baseChild => M.outcome origin child = some baseChild)
      (origin our).children (origin base).children := by
    obtain ⟨lengths, pairs⟩ := List.forall₂_iff_zip.mp insertions.ours_kept
    refine List.forall₂_iff_zip.mpr ⟨lengths, fun {child baseChild} pair => ?_⟩
    obtain ⟨inside, baseInside⟩ := List.of_mem_zip pair
    obtain ⟨entry, member, left, right, -⟩ := pairs pair
    obtain ⟨-, _, -, their, theirMember, theirLeft, -⟩ := insertions.matches_ baseInside
    rw [prepared.outcome_eq_some_iff (prepared.closed our child ⟨isOurs, inside⟩)]
    exact .inr ⟨entry, member, right, left.symm, their, theirMember, theirLeft.trans left.symm⟩
  generalize (origin our).children = children at each
  generalize (origin base).children = baseChildren at each
  induction each with
  | nil => rfl
  | cons becomes _ ih => rw [List.filterMap_cons_some becomes, ih]

/-- Merged base children keep their identities. -/
theorem OneSidedInsertions.hash_kept
    (finished : ∀ child ∈ (origin our).children, M.AllFinished origin heap child)
    {baseChild : NodeRef} (member : baseChild ∈ (origin base).children) :
    heap.hash M.std baseChild = origin.hash M.std baseChild := by
  obtain ⟨⟨child, inside, entry, entryMember, rfl, rfl, ourSame, -⟩,
    _, -, their, theirMember, left, rfl, theirSame, -⟩ := insertions.matches_ member
  have done := finished entry.right inside entry entryMember .refl their theirMember left
  exact done.hash_same ourSame theirSame

/-- The merge starts from children with the identities of those that their side kept. -/
theorem OneSidedInsertions.keys_kept
    (kept : ∀ baseChild ∈ (origin base).children,
      heap.hash M.std baseChild = origin.hash M.std baseChild)
    (same : ∀ child ∈ (origin their).children, heap child = origin child) :
    (origin base).children.map (heap.hash M.std) =
      ((origin their).children.filter fun child => !M.inserted child).map (heap.hash M.std) := by
  have each : List.Forall₂ (fun child baseChild =>
      heap.hash M.std baseChild = heap.hash M.std child)
      ((origin their).children.filter fun child => !M.inserted child)
      (origin base).children := by
    obtain ⟨lengths, pairs⟩ := List.forall₂_iff_zip.mp insertions.theirs_kept
    refine List.forall₂_iff_zip.mpr ⟨lengths, fun {child baseChild} pair => ?_⟩
    obtain ⟨inside, baseInside⟩ := List.of_mem_zip pair
    obtain ⟨entry, -, -, -, -, hash⟩ := pairs pair
    rw [kept baseChild baseInside, ← hash,
      Heap.hash_congr (same child (List.mem_of_mem_filter inside))]
  rw [← List.forall₂_eq_eq_eq, List.forall₂_map_left_iff, List.forall₂_map_right_iff]
  exact each.flip

/-- Picking the inserted children picks them in their order, since their IDs grow. -/
theorem OneSidedInsertions.added_eq
    (same : ∀ child ∈ (origin their).children, heap child = origin child)
    (picked : ∀ added ∈ M.theirMatching.possiblyAdded.collect,
      added ∈ M.theirsAdded heap base ↔ added ∈ (origin their).children) :
    M.theirsAdded heap base = (origin their).children.filter M.inserted := by
  have recorded : ∀ added ∈ M.theirsAdded heap base,
      added ∈ M.theirMatching.possiblyAdded.collect := fun added inside =>
    (mem_theirsAdded_iff.mp inside).1
  have chosen : (origin their).children.filter (· ∈ M.theirsAdded heap base) =
      (origin their).children.filter M.inserted := by
    refine List.filter_congr fun child inside => ?_
    rw [inserted, decide_eq_decide]
    exact ⟨recorded child, fun isRecorded => (picked child isRecorded).mpr inside⟩
  rw [← chosen]
  refine theirsAdded_eq_filter (List.Nodup.of_map _ insertions.recorded)
    (List.Nodup.of_map _ insertions.distinct)
    (fun added inside => (picked added (recorded added inside)).mp inside) ?_
  refine (insertions.increasing.filter _).imp_of_mem fun {first second} isFirst isSecond below => ?_
  rwa [same first (List.mem_of_mem_filter isFirst), same second (List.mem_of_mem_filter isSecond)]

/-- Once the inserted children are picked, places decide. -/
theorem OneSidedInsertions.wellPlaced_iff
    (kept : ∀ baseChild ∈ (origin base).children,
      heap.hash M.std baseChild = origin.hash M.std baseChild)
    (same : ∀ child ∈ (origin their).children, heap child = origin child)
    (sameTheir : heap their = origin their)
    (picked : ∀ added ∈ M.theirMatching.possiblyAdded.collect,
      added ∈ M.theirsAdded heap base ↔ added ∈ (origin their).children) :
    ((M.theirsAdded heap base).foldl (M.insertAdded heap) (origin base).children).map
          (heap.hash M.std) = (origin their).children.map (heap.hash M.std) ↔
      ∀ front item after, (origin their).children = front ++ item :: after →
        M.inserted item = true →
          Placement.WellPlaced (isOrphanComment origin) (fun child => !M.inserted child)
            front after := by
  have keys : (origin their).children.map (heap.hash M.std) =
      (origin their).children.map (origin.hash M.std) :=
    List.map_congr_left fun child inside => Heap.hash_congr (same child inside)
  have distinct : ((origin their).children.map (heap.hash M.std)).Nodup :=
    keys ▸ insertions.distinct
  have places : ∀ front item after, (origin their).children = front ++ item :: after →
      ∀ merged, M.insertAdded heap merged item =
        Placement.insertNear (heap.hash M.std)
          (Placement.previousOf (isOrphanComment origin) front)
          (Placement.nextOf (isOrphanComment origin) after) item merged := by
    intro front item after shape merged
    have inside : item ∈ (origin their).children := by simp [shape]
    have up : (heap item).parent = some their := by
      rw [same item inside, insertions.parents item inside]
    have siblings : (heap their).children = front ++ item :: after := by
      rw [sameTheir, shape]
    have comments : ∀ child ∈ (origin their).children,
        isOrphanComment heap child = isOrphanComment origin child := by
      intro child member
      rw [isOrphanComment, isOrphanComment, same child member]
    have fresh : ∀ other ∈ front, heap.hash M.std other ≠ heap.hash M.std item := by
      rw [shape, List.map_append, List.nodup_append] at distinct
      exact fun other inside same =>
        distinct.2.2 _ (List.mem_map_of_mem inside) _ (by simp) same
    rw [insertAdded, M.getNeighbors_child up siblings fresh,
      Placement.previousOf_congr fun child member => comments child (by simp [shape, member]),
      Placement.nextOf_congr fun child member => comments child (by simp [shape, member])]
  have keyed : ∀ (first second : List NodeRef) (item : NodeRef),
      first.map (heap.hash M.std) = second.map (heap.hash M.std) →
        (M.insertAdded heap first item).map (heap.hash M.std) =
          (M.insertAdded heap second item).map (heap.hash M.std) := by
    intro first second item equal
    unfold insertAdded
    split
    · simp [equal]
    · rw [Placement.map_insertNear, Placement.map_insertNear, equal]
  have restored := Placement.map_foldl_eq_iff (isOrphanComment origin)
    (fun child => !M.inserted child) distinct (insertions.keys_kept kept same)
    (M.insertAdded_perm heap) (M.sublist_insertAdded heap) keyed places
  rw [insertions.added_eq same picked]
  simpa using restored

/-- Children with the keys of their children hold exactly the inserted ones. -/
theorem OneSidedInsertions.picked_of_restored
    (kept : ∀ baseChild ∈ (origin base).children,
      heap.hash M.std baseChild = origin.hash M.std baseChild)
    (same : ∀ child ∈ (origin their).children, heap child = origin child)
    (sameRecorded : ∀ added ∈ M.theirMatching.possiblyAdded.collect, heap added = origin added)
    (restored : ((M.theirsAdded heap base).foldl (M.insertAdded heap)
        (origin base).children).map (heap.hash M.std) =
      (origin their).children.map (heap.hash M.std)) :
    ∀ added ∈ M.theirMatching.possiblyAdded.collect,
      added ∈ M.theirsAdded heap base ↔ added ∈ (origin their).children := by
  have perm := (Placement.perm_foldl (M.insertAdded_perm heap) (M.theirsAdded heap base)
    (origin base).children).map (heap.hash M.std)
  have split := ((List.filter_append_perm M.inserted (origin their).children).map
    (heap.hash M.std)).symm
  rw [restored, List.map_append, insertions.keys_kept kept same] at perm
  rw [List.map_append] at split
  have hashes : ((origin their).children.filter M.inserted).map (heap.hash M.std) |>.Perm
      ((M.theirsAdded heap base).map (heap.hash M.std)) := by
    have chained := split.symm.trans perm
    exact (List.perm_append_left_iff _).mp (List.perm_append_comm.trans chained)
  have keys : M.theirMatching.possiblyAdded.collect.map (heap.hash M.std) =
      M.theirMatching.possiblyAdded.collect.map (origin.hash M.std) :=
    List.map_congr_left fun added inside => Heap.hash_congr (sameRecorded added inside)
  have apart := List.inj_on_of_nodup_map (keys ▸ insertions.recorded)
  intro added recorded
  constructor
  · intro inside
    obtain ⟨child, childInside, hash⟩ :=
      List.mem_map.mp (hashes.symm.subset (List.mem_map_of_mem inside))
    obtain ⟨childInside, isInserted⟩ := List.mem_filter.mp childInside
    rw [← apart (by simpa [inserted] using isInserted) recorded hash]
    exact childInside
  · intro inside
    have isInserted : M.inserted added = true := by simpa [inserted] using recorded
    obtain ⟨other, otherInside, hash⟩ := List.mem_map.mp (hashes.subset
      (List.mem_map_of_mem (List.mem_filter.mpr ⟨inside, isInserted⟩)))
    have otherRecorded := ((M.mem_filterAddedNodes heap).mp (mem_theirsAdded.mp otherInside).1).1
    rw [← apart otherRecorded recorded hash]
    exact otherInside

/-- At one moment of the merge: the keys of their children come back exactly when
the inserted children are picked and well placed. -/
theorem OneSidedInsertions.restores_iff
    (kept : ∀ baseChild ∈ (origin base).children,
      heap.hash M.std baseChild = origin.hash M.std baseChild)
    (same : ∀ child ∈ (origin their).children, heap child = origin child)
    (sameTheir : heap their = origin their)
    (sameRecorded : ∀ added ∈ M.theirMatching.possiblyAdded.collect, heap added = origin added) :
    ((M.theirsAdded heap base).foldl (M.insertAdded heap) (origin base).children).map
          (heap.hash M.std) = (origin their).children.map (heap.hash M.std) ↔
      M.SelectsInserted heap base their ∧
        ∀ front item after, (origin their).children = front ++ item :: after →
          M.inserted item = true →
            Placement.WellPlaced (isOrphanComment origin) (fun child => !M.inserted child)
              front after := by
  rw [selectsInserted_iff, sameTheir]
  constructor
  · intro restored
    have picked := insertions.picked_of_restored kept same sameRecorded restored
    exact ⟨picked, (insertions.wellPlaced_iff kept same sameTheir picked).mp restored⟩
  · rintro ⟨picked, placed⟩
    exact (insertions.wellPlaced_iff kept same sameTheir picked).mpr placed

end Insertions

section Selection

variable {Region : NodeRef → Prop} (within : M.Within heap heap' Region)

include within

/-- Where a recorded node is added does not depend on nodes merged meanwhile. -/
theorem Within.addedUnder_iff {matching : TwoWayMatching} {base added : NodeRef}
    (same : heap' base = heap base)
    (settled : ∀ entry ∈ matching.oneOneMatching, entry.leftHash = heap.hash M.std base →
      heap' entry.left = heap entry.left ∧ M.Unwritten entry.right)
    (unwritten : M.Unwritten added)
    (parents : ∀ parent ∈ (heap added).parent, M.Unwritten parent) :
    M.AddedUnder heap' base matching added ↔ M.AddedUnder heap base matching added := by
  have lookup : matching.oneOneMatching.leftFind (heap'.hash M.std) base =
      matching.oneOneMatching.leftFind (heap.hash M.std) base :=
    HashBiMap.leftFind_congr
      (fun entry member filed => Heap.hash_congr (settled entry member filed).1)
      (Heap.hash_congr same)
  unfold AddedUnder
  rw [lookup, within.unwritten unwritten]
  refine exists_congr fun entry => and_congr_right fun found => ?_
  obtain ⟨member, filed, -⟩ := HashBiMap.leftFind_some found
  refine exists_congr fun parent => and_congr_right fun up => ?_
  rw [Heap.hash_congr (within.unwritten (parents parent up)),
    Heap.hash_congr (within.unwritten (settled entry member filed).2)]

/-- The selection does not depend on nodes merged meanwhile. -/
theorem Within.selects_iff (apart : M.RecordedApart origin)
    {Region' : NodeRef → Prop} (pristine : M.Pristine origin heap Region') {base added : NodeRef}
    (same : heap' base = heap base)
    (ourSettled : ∀ entry ∈ M.ourMatching.oneOneMatching,
      entry.leftHash = heap.hash M.std base →
        heap' entry.left = heap entry.left ∧ M.Unwritten entry.right)
    (theirSettled : ∀ entry ∈ M.theirMatching.oneOneMatching,
      entry.leftHash = heap.hash M.std base →
        heap' entry.left = heap entry.left ∧ M.Unwritten entry.right) :
    M.Selects heap' base added ↔ M.Selects heap base added := by
  have node : ∀ added, added ∈ M.ourMatching.possiblyAdded.collect ∨
      added ∈ M.theirMatching.possiblyAdded.collect →
        M.Unwritten added ∧ ∀ parent ∈ (heap added).parent, M.Unwritten parent := by
    intro added recorded
    rw [pristine.unwritten (apart added recorded).1]
    exact apart added recorded
  have hash : ∀ added, added ∈ M.ourMatching.possiblyAdded.collect ∨
      added ∈ M.theirMatching.possiblyAdded.collect →
        heap'.hash M.std added = heap.hash M.std added := fun added recorded =>
    Heap.hash_congr (within.unwritten (node added recorded).1)
  refine and_congr_right fun recorded => ?_
  obtain ⟨addedUnwritten, addedParents⟩ := node added (.inr recorded)
  rw [within.addedUnder_iff same theirSettled addedUnwritten addedParents,
    hash added (.inr recorded)]
  refine and_congr_right fun _ => forall₂_congr fun other otherRecorded => ?_
  obtain ⟨otherUnwritten, otherParents⟩ := node other (.inl otherRecorded)
  rw [within.addedUnder_iff same ourSettled otherUnwritten otherParents,
    hash other (.inl otherRecorded)]

/-- Whether the selection is that of the inserted children does not, either. -/
theorem Within.selectsInserted_iff (apart : M.RecordedApart origin)
    {Region' : NodeRef → Prop} (pristine : M.Pristine origin heap Region') {base their : NodeRef}
    (same : heap' base = heap base)
    (ourSettled : ∀ entry ∈ M.ourMatching.oneOneMatching,
      entry.leftHash = heap.hash M.std base →
        heap' entry.left = heap entry.left ∧ M.Unwritten entry.right)
    (theirSettled : ∀ entry ∈ M.theirMatching.oneOneMatching,
      entry.leftHash = heap.hash M.std base →
        heap' entry.left = heap entry.left ∧ M.Unwritten entry.right)
    (unwritten : M.Unwritten their) :
    M.SelectsInserted heap' base their ↔ M.SelectsInserted heap base their := by
  refine forall₂_congr fun added recorded => ?_
  have selects : M.Selects heap' base added ↔ M.Selects heap base added :=
    within.selects_iff apart pristine same ourSettled theirSettled
  rw [Selects, Selects, and_iff_right recorded, and_iff_right recorded] at selects
  rw [selects, within.unwritten unwritten]

end Selection

/-- A base node that keeps its identity shares it with no node merged below. -/
theorem Prepared.elsewhere_of_kept {Ours : NodeRef → Prop} {rank : NodeRef → Nat}
    (prepared : M.Prepared origin Ours rank) {entry : BiEntry NodeRef NodeRef UInt64}
    (member : entry ∈ M.ourMatching.oneOneMatching) (isOurs : Ours entry.right)
    (kept : heap.hash M.std entry.left = origin.hash M.std entry.left) :
    ∀ other ∈ M.ourMatching.oneOneMatching,
      BelowAny origin Ours (origin entry.right).children other.right →
        origin.hash M.std other.left ≠ heap.hash M.std entry.left := by
  intro other otherMember below same
  rw [kept, ← prepared.our_exact.filed_left other otherMember] at same
  have left := prepared.our_exact.own_left other otherMember entry.left
    ⟨entry, member, rfl, isOurs⟩ same.symm
  rw [← prepared.our_exact.unique_left entry member other otherMember left] at below
  exact prepared.not_belowAny isOurs below

/-- Below a base node nothing is merged that is found under its identity. -/
theorem Prepared.found_settled {Ours : NodeRef → Prop} {rank : NodeRef → Nat}
    (prepared : M.Prepared origin Ours rank) {our base : NodeRef}
    (total : ∀ entry ∈ M.ourMatching.oneOneMatching, Ours entry.right)
    (elsewhere : ∀ entry ∈ M.ourMatching.oneOneMatching,
      BelowAny origin Ours (origin our).children entry.right →
        origin.hash M.std entry.left ≠ heap.hash M.std base)
    (within : M.Within heap heap' (BelowAny origin Ours (origin our).children)) :
    (∀ entry ∈ M.ourMatching.oneOneMatching, entry.leftHash = heap.hash M.std base →
      heap' entry.left = heap entry.left ∧ M.Unwritten entry.right) ∧
      ∀ entry ∈ M.theirMatching.oneOneMatching, entry.leftHash = heap.hash M.std base →
        heap' entry.left = heap entry.left ∧ M.Unwritten entry.right := by
  have settled : ∀ ref, origin.hash M.std ref = heap.hash M.std base → heap' ref = heap ref := by
    intro ref filed
    by_contra changed
    obtain ⟨other, otherMember, rfl, below⟩ := within ref changed
    exact elsewhere other otherMember below filed
  refine ⟨fun other otherMember filed => ?_, fun other otherMember filed => ?_⟩
  · rw [prepared.our_exact.filed_left other otherMember] at filed
    exact ⟨settled other.left filed, prepared.ours_apart other.right (total other otherMember)⟩
  · rw [prepared.their_exact.filed_left other otherMember] at filed
    exact ⟨settled other.left filed, prepared.theirs_apart other otherMember⟩

/-- The merge in our order gives the children of our node the identities of the
children of their node, in that order, exactly when it selects the inserted
children and every inserted child is well placed. (`elsewhere`: no node merged below
was matched under the identity that the base node has now, as is the case for a
base node that keeps its identity.) -/
theorem directMergeChildrenInOurOrder_restores_iff {Ours : NodeRef → Prop}
    {rank : NodeRef → Nat} (prepared : M.Prepared origin Ours rank)
    (favour : M.orderInFavour = .ours) (apart : M.RecordedApart origin)
    {our base their : NodeRef} (isOurs : Ours our) {fuel : Nat} (enough : rank our ≤ fuel)
    (pristine : M.Pristine origin heap (BelowAny origin Ours (origin our).children))
    (matched : ∃ entry ∈ M.ourMatching.oneOneMatching, entry.left = base ∧ entry.right = our)
    (total : ∀ entry ∈ M.ourMatching.oneOneMatching, Ours entry.right)
    (elsewhere : ∀ entry ∈ M.ourMatching.oneOneMatching,
      BelowAny origin Ours (origin our).children entry.right →
        origin.hash M.std entry.left ≠ heap.hash M.std base)
    (insertions : M.OneSidedInsertions origin our base their) :
    ∃ heap' children,
      M.directMergeChildrenInOurOrder (M.mergeSemanticNode fuel) heap our base their =
          some (heap', children) ∧
        (children.map (heap'.hash M.std) = (origin their).children.map (origin.hash M.std) ↔
          M.SelectsInserted heap base their ∧
            ∀ front item after, (origin their).children = front ++ item :: after →
              M.inserted item = true →
                Placement.WellPlaced (isOrphanComment origin) (fun child => !M.inserted child)
                  front after) := by
  obtain ⟨heap', returned, within, finished⟩ := directMergeChildrenInOurOrder_run prepared
    (mergeSemanticNode_run prepared favour fuel) base their isOurs
    (fun child member => Nat.lt_of_lt_of_le (prepared.forest.rank_lt our child ⟨isOurs, member⟩)
      enough) pristine
  refine ⟨heap', _, returned, ?_⟩
  obtain ⟨entry, member, rfl, rfl⟩ := matched
  have sameBase := prepared.base_kept member isOurs within
  have theirChild : ∀ child ∈ (origin their).children, M.Unwritten child := by
    intro child inside
    rcases insertions.their_child inside with recorded | ⟨other, otherMember, rfl⟩
    · exact (apart child (.inr recorded)).1
    · exact prepared.theirs_apart other otherMember
  have unchanged : ∀ ref, M.Unwritten ref → heap' ref = origin ref := fun ref unwritten =>
    (within.unwritten unwritten).trans (pristine.unwritten unwritten)
  have keys : (origin their).children.map (origin.hash M.std) =
      (origin their).children.map (heap'.hash M.std) :=
    List.map_congr_left fun child inside =>
      (Heap.hash_congr (unchanged child (theirChild child inside))).symm
  rw [insertions.kept_eq prepared isOurs, keys, insertions.restores_iff
    (fun baseChild inside => insertions.hash_kept finished inside)
    (fun child inside => unchanged child (theirChild child inside))
    (unchanged their insertions.unwritten)
    (fun added recorded => unchanged added (apart added (.inr recorded)).1)]
  refine and_congr_left fun _ => ?_
  obtain ⟨ourSettled, theirSettled⟩ := prepared.found_settled total elsewhere within
  exact within.selectsInserted_iff apart pristine sameBase ourSettled theirSettled
    insertions.unwritten

theorem frontInsertion_oneSided : frontMerger.OneSidedInsertions frontInsertion 2 0 4 where
  ours_kept := .cons ⟨_, List.mem_cons_of_mem _ List.mem_cons_self, rfl, rfl,
    ⟨rfl, rfl, rfl, rfl⟩, rfl⟩ .nil
  theirs_kept := .cons ⟨_, List.mem_cons_of_mem _ List.mem_cons_self, rfl, rfl,
    ⟨rfl, rfl, rfl, rfl⟩, rfl⟩ .nil
  distinct := by decide
  increasing := by decide
  parents := by decide
  recorded := by decide
  unwritten := by decide

/-- The two lines come out behind the line they were put before. -/
theorem frontInsertion_misplaced :
    frontMerger.OneSidedInsertions frontInsertion 2 0 4 ∧
      ∃ result, frontMerger.directMergeChildrenInOurOrder (frontMerger.mergeSemanticNode 1)
          frontInsertion 2 0 4 = some result ∧
        result.2.map (result.1.hash .polynomial) ≠
          (frontInsertion 4).children.map (frontInsertion.hash .polynomial) := by
  exact ⟨frontInsertion_oneSided, _, rfl, by decide⟩

/-- A file with the line `A`. Their side adds `X` in front of it, and `Y` and `Z` behind. -/
def aroundInsertion : Heap
  | 4 => { kind := .translationUnit, qualifiedName := "a.h", children := [5, 6, 7, 8] }
  | 5 => { kind := .textual, body := "X", parent := some 4, id := 1 }
  | 6 => { kind := .textual, body := "A", parent := some 4, id := 2 }
  | 7 => { kind := .textual, body := "Y", parent := some 4, id := 3 }
  | 8 => { kind := .textual, body := "Z", parent := some 4, id := 4 }
  | ref => frontInsertion ref

/-- The merger of the three versions. -/
def aroundMerger : GraphMerger where
  std := .polynomial
  gitMergeTextual our _ _ _ _ _ := our
  ourMatching := { oneOneMatching := tableOf .polynomial aroundInsertion [(0, 2), (1, 3)] }
  theirMatching :=
    { oneOneMatching := tableOf .polynomial aroundInsertion [(0, 4), (1, 6)]
      possiblyAdded := Function.update (fun _ => []) .textual [5, 7, 8] }

theorem aroundMerger_prepared :
    aroundMerger.Prepared aroundInsertion (· ∈ [2, 3]) fun ref => if ref = 2 then 1 else 0 := by
  have ours : aroundMerger.ourMatching.Partition .polynomial aroundInsertion [0, 1] [2, 3] := by
    decide
  have theirs : aroundMerger.theirMatching.Partition .polynomial aroundInsertion [0, 1]
      [4, 5, 6, 7, 8] := by decide
  exact .of_partition ours theirs (by decide) (by decide) (by decide) (by decide)

theorem aroundInsertion_oneSided : aroundMerger.OneSidedInsertions aroundInsertion 2 0 4 where
  ours_kept := .cons ⟨_, List.mem_cons_of_mem _ List.mem_cons_self, rfl, rfl,
    ⟨rfl, rfl, rfl, rfl⟩, rfl⟩ .nil
  theirs_kept := .cons ⟨_, List.mem_cons_of_mem _ List.mem_cons_self, rfl, rfl,
    ⟨rfl, rfl, rfl, rfl⟩, rfl⟩ .nil
  distinct := by decide
  increasing := by decide
  parents := by decide
  recorded := by decide
  unwritten := by decide

/-- The three lines come out where they were put: they are picked, and well placed. -/
theorem aroundInsertion_restores :
    ∃ heap' children,
      aroundMerger.directMergeChildrenInOurOrder (aroundMerger.mergeSemanticNode 1)
          aroundInsertion 2 0 4 = some (heap', children) ∧
        children.map (heap'.hash .polynomial) =
            (aroundInsertion 4).children.map (aroundInsertion.hash .polynomial) ∧
          aroundMerger.SelectsInserted aroundInsertion 0 4 ∧
            ∀ front item after, (aroundInsertion 4).children = front ++ item :: after →
              aroundMerger.inserted item = true →
                Placement.WellPlaced (isOrphanComment aroundInsertion)
                  (fun child => !aroundMerger.inserted child) front after := by
  obtain ⟨heap', children, returned, restores⟩ :=
    directMergeChildrenInOurOrder_restores_iff aroundMerger_prepared rfl
      (by decide) (by decide) (show _ ≤ 1 by decide) .refl ⟨_, List.mem_cons_self, rfl, rfl⟩
      (by decide) (aroundMerger_prepared.elsewhere_of_kept List.mem_cons_self (by decide) rfl)
      aroundInsertion_oneSided
  have restored : (aroundMerger.directMergeChildrenInOurOrder (aroundMerger.mergeSemanticNode 1)
      aroundInsertion 2 0 4).map (fun result => result.2.map (result.1.hash .polynomial)) =
        some ((aroundInsertion 4).children.map (aroundInsertion.hash .polynomial)) := by decide
  rw [returned, Option.map_some, Option.some.injEq] at restored
  exact ⟨heap', children, returned, restored, restores.mp restored⟩

end GraphMerger

end MergeBot
