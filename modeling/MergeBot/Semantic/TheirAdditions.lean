import MergeBot.Semantic.ChildOrder

/-!
# The additions of their side

`mergeSemanticNode_keeps_additions`: under a base node that keeps its identity,
the merge takes over every node that their side added, unless our side added a
node of the same identity there. `renamed_loses_additions`: a base node that the
merge gives another identity is no longer found under its entry, and nothing
that their side added is taken over.
-/

namespace MergeBot

open Foundation

namespace GraphMerger

variable {M : GraphMerger} {origin heap moment : Heap}

/-- Our side recorded a node of the same identity under our match. -/
def AlsoAdded (M : GraphMerger) (origin : Heap) (our added : NodeRef) : Prop :=
  ∃ other ∈ M.ourMatching.possiblyAdded.collect,
    (∃ parent, (origin other).parent = some parent ∧
      origin.hash M.std parent = origin.hash M.std our) ∧
    origin.hash M.std other = origin.hash M.std added

/-- Where nodes are added, when the lookup of the base node is known. -/
theorem addedUnder_of_found {matching : TwoWayMatching} {base added : NodeRef}
    {entry : BiEntry NodeRef NodeRef UInt64}
    (found : matching.oneOneMatching.leftFind (heap.hash M.std) base = some entry) :
    M.AddedUnder heap base matching added ↔
      ∃ parent, (heap added).parent = some parent ∧
        heap.hash M.std parent = heap.hash M.std entry.right := by
  simp [AddedUnder, found]

section Additions

variable {Ours : NodeRef → Prop} {rank : NodeRef → Nat} (prepared : M.Prepared origin Ours rank)
  (apart : M.RecordedApart origin) {entry their : BiEntry NodeRef NodeRef UInt64}
  (member : entry ∈ M.ourMatching.oneOneMatching) (isOurs : Ours entry.right)
  (theirMember : their ∈ M.theirMatching.oneOneMatching) (left : their.left = entry.left)
  (unwritten : ∀ ref, M.Unwritten ref → moment ref = origin ref)

include prepared apart member isOurs theirMember left unwritten

/-- Under a base node that keeps its identity the second phase picks what their side
added and our side did not. -/
theorem picked_iff (kept : moment.hash M.std entry.left = origin.hash M.std entry.left)
    {added : NodeRef} (recorded : added ∈ M.theirMatching.possiblyAdded.collect)
    (up : (origin added).parent = some their.right) :
    added ∈ M.theirsAdded moment entry.left ↔ ¬ M.AlsoAdded origin entry.right added := by
  have inLeft : ∃ other ∈ M.ourMatching.oneOneMatching,
      other.left = entry.left ∧ Ours other.right := ⟨entry, member, rfl, isOurs⟩
  have theirFound := (prepared.their_exact.leftFind_iff inLeft kept).mpr ⟨theirMember, left⟩
  have ourFound := (prepared.our_exact.leftFind_iff inLeft kept).mpr ⟨member, rfl⟩
  have same : moment added = origin added := unwritten added (apart added (.inr recorded)).1
  have under : M.AddedUnder moment entry.left M.theirMatching added := by
    rw [addedUnder_of_found theirFound, same]
    exact ⟨their.right, up, rfl⟩
  have ourUnder : ∀ other ∈ M.ourMatching.possiblyAdded.collect,
      M.AddedUnder moment entry.left M.ourMatching other ↔
        ∃ parent, (origin other).parent = some parent ∧
          origin.hash M.std parent = origin.hash M.std entry.right := by
    intro other otherRecorded
    obtain ⟨otherUnwritten, parents⟩ := apart other (.inl otherRecorded)
    rw [addedUnder_of_found ourFound, unwritten other otherUnwritten]
    refine exists_congr fun parent => and_congr_right fun up => ?_
    rw [Heap.hash_congr (unwritten parent (parents parent up)),
      Heap.hash_congr (unwritten entry.right (prepared.ours_apart entry.right isOurs))]
  rw [mem_theirsAdded, mem_filterAddedNodes]
  constructor
  · rintro ⟨-, fresh⟩ ⟨other, otherRecorded, below, hash⟩
    refine fresh other ((M.mem_filterAddedNodes moment).mpr
      ⟨otherRecorded, (ourUnder other otherRecorded).mpr below⟩) ?_
    rw [Heap.hash_congr (unwritten other (apart other (.inl otherRecorded)).1),
      Heap.hash_congr same, hash]
  · intro fresh
    refine ⟨⟨recorded, under⟩, fun other otherAdded hash => fresh ?_⟩
    obtain ⟨otherRecorded, below⟩ := (M.mem_filterAddedNodes moment).mp otherAdded
    rw [Heap.hash_congr (unwritten other (apart other (.inl otherRecorded)).1),
      Heap.hash_congr same] at hash
    exact ⟨other, otherRecorded, (ourUnder other otherRecorded).mp below, hash⟩

omit member isOurs in
/-- Under a base node that does not, the second phase picks nothing of it. -/
theorem not_picked (renamed : moment.hash M.std entry.left ≠ origin.hash M.std entry.left)
    (rights : ∀ other ∈ M.theirMatching.oneOneMatching,
      origin.hash M.std other.right = origin.hash M.std their.right → other = their)
    {added : NodeRef} (up : (origin added).parent = some their.right) :
    added ∉ M.theirsAdded moment entry.left := by
  intro picked
  obtain ⟨recorded, other, found, parent, parentUp, hash⟩ :=
    (M.mem_filterAddedNodes moment).mp (mem_theirsAdded.mp picked).1
  rw [unwritten added (apart added (.inr recorded)).1, up] at parentUp
  obtain rfl := Option.some.inj parentUp
  obtain ⟨otherMember, filed, -⟩ := HashBiMap.leftFind_some found
  rw [Heap.hash_congr (unwritten their.right (prepared.theirs_apart their theirMember)),
    Heap.hash_congr (unwritten other.right (prepared.theirs_apart other otherMember))] at hash
  obtain rfl := rights other otherMember hash.symm
  rw [prepared.their_exact.filed_left other otherMember, left] at filed
  exact renamed filed.symm

end Additions

section Runs

variable {Ours : NodeRef → Prop} {rank : NodeRef → Nat} (prepared : M.Prepared origin Ours rank)
  (favour : M.orderInFavour = .ours) (apart : M.RecordedApart origin)
  (once : M.theirMatching.possiblyAdded.collect.Nodup)
  (foreign : ∀ added ∈ M.theirMatching.possiblyAdded.collect, ¬ Ours added)
  {entry their : BiEntry NodeRef NodeRef UInt64}
  (member : entry ∈ M.ourMatching.oneOneMatching) (isOurs : Ours entry.right)
  (theirMember : their ∈ M.theirMatching.oneOneMatching) (left : their.left = entry.left)
  (composite : (origin entry.left).kind.isTerminal = false)
  {fuel : Nat} (enough : rank entry.right < fuel)
  (pristine : M.Pristine origin heap (Below (OurChild origin Ours) entry.right))

include prepared favour apart once foreign member isOurs theirMember left composite enough pristine

/-- A node that their side added is among the merged children once or not at all,
as it was: once when the second phase picks it. -/
theorem mergeSemanticNode_picks :
    ∃ heap' moment, M.mergeSemanticNode fuel heap entry.left = some (heap', some entry.left) ∧
      moment entry.left =
        M.mergeComposite (origin entry.right) (origin entry.left) (origin their.right) ∧
      (∀ ref, M.Unwritten ref → moment ref = origin ref) ∧
      ∀ added ∈ M.theirMatching.possiblyAdded.collect, heap' added = origin added ∧
        (added ∈ M.theirsAdded moment entry.left → (heap' entry.left).children.count added = 1) ∧
        (added ∉ M.theirsAdded moment entry.left →
          (heap' entry.left).children.count added = 0) := by
  obtain ⟨heap', returned, within, finished⟩ :=
    mergeSemanticNode_run prepared favour fuel entry member isOurs enough heap pristine
  have found := (prepared.their_leftFind_origin member isOurs).mpr ⟨theirMember, left⟩
  rw [found] at returned
  have done := finished entry member .refl their theirMember left
  obtain ⟨moment, record, unwritten, order⟩ := done.order composite
  refine ⟨heap', moment, returned, record, unwritten, fun added recorded => ?_⟩
  have away : M.Unwritten added := (apart added (.inr recorded)).1
  obtain ⟨-, picked, only⟩ := prepared.merged_in_order isOurs once
    (fun other inside => ⟨foreign other inside, (apart other (.inr inside)).1⟩) moment entry.left
  rw [order]
  refine ⟨(within.unwritten away).trans (pristine.unwritten away), picked added, ?_⟩
  intro notPicked
  refine List.count_eq_zero_of_not_mem fun inside => ?_
  rcases only added inside with kept | inside
  · rcases prepared.mem_kept isOurs kept with mine | ⟨other, otherMember, rfl⟩
    · exact foreign added recorded mine
    · exact away other otherMember rfl
  · exact notPicked inside

/-- Nothing that their side added is lost where the base node keeps its identity: a
recorded child of their node is among the merged children once, as it was, unless
our side recorded a node of the same identity there. -/
theorem mergeSemanticNode_keeps_additions
    (kept : (M.mergeComposite (origin entry.right) (origin entry.left)
      (origin their.right)).signature = (origin entry.left).signature)
    (parents : ∀ child ∈ (origin their.right).children, (origin child).parent = some their.right) :
    ∃ heap', M.mergeSemanticNode fuel heap entry.left = some (heap', some entry.left) ∧
      ∀ added ∈ (origin their.right).children,
        added ∈ M.theirMatching.possiblyAdded.collect → heap' added = origin added ∧
          (¬ M.AlsoAdded origin entry.right added →
            (heap' entry.left).children.count added = 1) ∧
          (M.AlsoAdded origin entry.right added →
            (heap' entry.left).children.count added = 0) := by
  obtain ⟨heap', moment, returned, record, unwritten, counts⟩ := mergeSemanticNode_picks prepared
    favour apart once foreign member isOurs theirMember left composite enough pristine
  refine ⟨heap', returned, fun added inside recorded => ?_⟩
  have hash : moment.hash M.std entry.left = origin.hash M.std entry.left := by
    simp only [Heap.hash, SemanticNode.hashSignature, record, kept]
  have picked := picked_iff prepared apart member isOurs theirMember left unwritten hash recorded
    (parents added inside)
  obtain ⟨same, there, absent⟩ := counts added recorded
  exact ⟨same, fun fresh => there (picked.mpr fresh),
    fun both => absent fun inside => picked.mp inside both⟩

/-- All that their side added is lost where the merged texts give the base node
another identity. -/
theorem renamed_loses_additions
    (renamed : (M.mergeComposite (origin entry.right) (origin entry.left)
      (origin their.right)).hashSignature M.std ≠ (origin entry.left).hashSignature M.std)
    (rights : ∀ other ∈ M.theirMatching.oneOneMatching,
      origin.hash M.std other.right = origin.hash M.std their.right → other = their)
    (parents : ∀ child ∈ (origin their.right).children, (origin child).parent = some their.right) :
    ∃ heap', M.mergeSemanticNode fuel heap entry.left = some (heap', some entry.left) ∧
      ∀ added ∈ (origin their.right).children,
        added ∈ M.theirMatching.possiblyAdded.collect →
          (heap' entry.left).children.count added = 0 := by
  obtain ⟨heap', moment, returned, record, unwritten, counts⟩ := mergeSemanticNode_picks prepared
    favour apart once foreign member isOurs theirMember left composite enough pristine
  refine ⟨heap', returned, fun added inside recorded => ?_⟩
  refine (counts added recorded).2.2 (not_picked prepared apart theirMember left unwritten ?_
    rights (parents added inside))
  rw [Heap.hash, record]
  exact renamed

end Runs

/-- An empty file. Both sides add a function, with different bodies; their side adds
another one. -/
def twoBodies : Heap
  | 0 => { kind := .translationUnit, qualifiedName := "a.cc" }
  | 1 => { kind := .translationUnit, qualifiedName := "a.cc", children := [2] }
  | 2 => { kind := .funcDef, usr := "c:@F@f", body := "{ return 1; }", parent := some 1, id := 1 }
  | 3 => { kind := .translationUnit, qualifiedName := "a.cc", children := [4, 5] }
  | 4 => { kind := .funcDef, usr := "c:@F@f", body := "{ return 2; }", parent := some 3, id := 1 }
  | 5 => { kind := .funcDef, usr := "c:@F@g", body := "{ return 3; }", parent := some 3, id := 2 }
  | _ => {}

/-- The merger of the three versions. -/
def twoBodiesMerger : GraphMerger where
  std := .polynomial
  gitMergeTextual our _ _ _ _ _ := our
  ourMatching :=
    { oneOneMatching := tableOf .polynomial twoBodies [(0, 1)]
      possiblyAdded := Function.update (fun _ => []) .funcDef [2] }
  theirMatching :=
    { oneOneMatching := tableOf .polynomial twoBodies [(0, 3)]
      possiblyAdded := Function.update (fun _ => []) .funcDef [4, 5] }

theorem twoBodiesMerger_ours :
    twoBodiesMerger.ourMatching.Partition .polynomial twoBodies [0] [1, 2] := by
  decide

theorem twoBodiesMerger_theirs :
    twoBodiesMerger.theirMatching.Partition .polynomial twoBodies [0] [3, 4, 5] := by
  decide

theorem twoBodiesMerger_prepared :
    twoBodiesMerger.Prepared twoBodies (· ∈ [1, 2]) fun ref => if ref = 1 then 1 else 0 :=
  .of_partition twoBodiesMerger_ours twoBodiesMerger_theirs (by decide) (by decide) (by decide)
    (by decide)

/-- Their version of the function that both sides added is not taken over. -/
theorem twoBodies_dropped :
    ∃ result, twoBodiesMerger.mergeSemanticNode 2 twoBodies 0 = some result ∧
      4 ∈ (twoBodies 3).children ∧ 4 ∈ twoBodiesMerger.theirMatching.possiblyAdded.collect ∧
      (∀ other ∈ (twoBodies 1).children, (twoBodies other).body ≠ (twoBodies 4).body) ∧
      (result.1 0).children.count 4 = 0 :=
  ⟨_, rfl, by decide, by decide, by decide, by decide⟩

/-- Of what their side added, the other function is taken over. -/
theorem twoBodies_additions :
    ∃ heap', twoBodiesMerger.mergeSemanticNode 2 twoBodies 0 = some (heap', some 0) ∧
      ∀ added ∈ (twoBodies 3).children,
        added ∈ twoBodiesMerger.theirMatching.possiblyAdded.collect →
          heap' added = twoBodies added ∧
            (¬ twoBodiesMerger.AlsoAdded twoBodies 1 added →
              (heap' 0).children.count added = 1) ∧
            (twoBodiesMerger.AlsoAdded twoBodies 1 added →
              (heap' 0).children.count added = 0) :=
  have member : ⟨0, 1, twoBodies.hash .polynomial 0, twoBodies.hash .polynomial 1⟩ ∈
      twoBodiesMerger.ourMatching.oneOneMatching := by decide
  have theirMember : ⟨0, 3, twoBodies.hash .polynomial 0, twoBodies.hash .polynomial 3⟩ ∈
      twoBodiesMerger.theirMatching.oneOneMatching := by decide
  mergeSemanticNode_keeps_additions twoBodiesMerger_prepared rfl (by decide)
    (by decide) (by decide) member (by decide) theirMember rfl rfl (by decide) .refl rfl
    (by decide)

end GraphMerger

end MergeBot
