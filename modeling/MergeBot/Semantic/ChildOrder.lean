import MergeBot.Semantic.MergeRun

/-!
# The order of merged children

`directMergeChildrenInOurOrder_ordered`: the merged children are those of our
node that are kept, in their order, and between them each node that only their
side added, once.
-/

namespace MergeBot

open Foundation

namespace GraphMerger

section Order

variable {M : GraphMerger} {origin heap : Heap} {Ours : NodeRef → Prop} {rank : NodeRef → Nat}
  (prepared : M.Prepared origin Ours rank)

include prepared

/-- What stands for a child: the child itself if it is not matched, else its base
node if that is matched in theirs. -/
theorem Prepared.outcome_eq_some_iff {child merged : NodeRef} (isOurs : Ours child) :
    M.outcome origin child = some merged ↔
      ((∀ entry ∈ M.ourMatching.oneOneMatching, entry.right ≠ child) ∧ merged = child) ∨
        ∃ entry ∈ M.ourMatching.oneOneMatching, entry.right = child ∧ merged = entry.left ∧
          ∃ their ∈ M.theirMatching.oneOneMatching, their.left = entry.left := by
  have here : M.Pristine origin origin fun _ => True := .refl
  unfold outcome
  cases found : M.ourMatching.oneOneMatching.rightFind (origin.hash M.std) child with
  | none =>
      have unmatched := prepared.rightFind_none here isOurs found
      simp only [Option.some.injEq]
      constructor
      · rintro rfl
        exact .inl ⟨unmatched, rfl⟩
      · rintro (⟨-, rfl⟩ | ⟨entry, member, right, -⟩)
        · rfl
        · exact absurd right (unmatched entry member)
  | some entry =>
      obtain ⟨member, right⟩ := (prepared.rightFind_iff here isOurs).mp found
      subst right
      simp only [Option.map_eq_some_iff, prepared.their_leftFind_origin member isOurs]
      constructor
      · rintro ⟨their, ⟨theirMember, left⟩, rfl⟩
        exact .inr ⟨entry, member, rfl, rfl, their, theirMember, left⟩
      · rintro (⟨unmatched, -⟩ | ⟨other, otherMember, right, rfl, their, theirMember, left⟩)
        · exact absurd rfl (unmatched entry member)
        · obtain rfl := prepared.our_exact.unique_right other otherMember entry member right
          exact ⟨their, ⟨theirMember, left⟩, rfl⟩

/-- What is kept of our children: our own nodes, and base nodes. -/
theorem Prepared.mem_kept {our merged : NodeRef} (isOurs : Ours our)
    (kept : merged ∈ (origin our).children.filterMap (M.outcome origin)) :
    Ours merged ∨ ∃ entry ∈ M.ourMatching.oneOneMatching, merged = entry.left := by
  obtain ⟨child, member, becomes⟩ := List.mem_filterMap.mp kept
  have childOurs := prepared.closed our child ⟨isOurs, member⟩
  rcases (prepared.outcome_eq_some_iff childOurs).mp becomes with
    ⟨-, rfl⟩ | ⟨entry, entryMember, -, rfl, -⟩
  · exact .inl childOurs
  · exact .inr ⟨entry, entryMember, rfl⟩

omit prepared in
/-- The nodes that only their side added are recorded in their matching. -/
theorem mem_theirsAdded {heap : Heap} {base added : NodeRef} :
    added ∈ M.theirsAdded heap base ↔
      added ∈ M.filterAddedNodes heap base M.theirMatching ∧
        ∀ other ∈ M.filterAddedNodes heap base M.ourMatching,
          heap.hash M.std other ≠ heap.hash M.std added := by
  simp [theirsAdded, removeDuplicates_eq]

omit prepared in
/-- Insertion after insertion keeps the children that are there in order. -/
theorem merged_children {heap : Heap} {added kept : List NodeRef} (once : added.Nodup)
    (apart : ∀ ref ∈ kept, ref ∉ added) :
    (added.foldl (M.insertAdded heap) kept).filter (· ∉ added) = kept ∧
      (∀ ref ∈ added, (added.foldl (M.insertAdded heap) kept).count ref = 1) ∧
      ∀ ref ∈ added.foldl (M.insertAdded heap) kept, ref ∈ kept ∨ ref ∈ added := by
  have perm := Placement.perm_foldl (M.insertAdded_perm heap) added kept
  have sublist := Placement.sublist_foldl (M.sublist_insertAdded heap) added kept
  have keptAll : kept.filter (· ∉ added) = kept := by
    rw [List.filter_eq_self]
    exact fun ref member => by simpa using apart ref member
  have addedNone : added.filter (· ∉ added) = [] := by
    rw [List.filter_eq_nil_iff]
    exact fun ref member => by simpa using member
  refine ⟨?_, fun ref member => ?_, fun ref member => ?_⟩
  · have inside := sublist.filter (· ∉ added)
    have same := (perm.filter (· ∉ added)).length_eq
    rw [List.filter_append, keptAll, addedNone, List.append_nil] at same
    rw [keptAll] at inside
    exact (inside.eq_of_length same.symm).symm
  · have outside : ref ∉ kept := fun inside => apart ref inside member
    rw [perm.count_eq, List.count_append, List.count_eq_zero_of_not_mem outside,
      List.count_eq_one_of_mem once member]
  · exact List.mem_append.mp (perm.subset member)

/-- What is kept of our children, with the nodes that only their side added. -/
theorem Prepared.merged_in_order {our : NodeRef} (isOurs : Ours our)
    (once : M.theirMatching.possiblyAdded.collect.Nodup)
    (apart : ∀ added ∈ M.theirMatching.possiblyAdded.collect,
      ¬ Ours added ∧ M.Unwritten added) (heap : Heap) (base : NodeRef) :
    let added := M.theirsAdded heap base
    let kept := (origin our).children.filterMap (M.outcome origin)
    (added.foldl (M.insertAdded heap) kept).filter (· ∉ added) = kept ∧
      (∀ ref ∈ added, (added.foldl (M.insertAdded heap) kept).count ref = 1) ∧
      ∀ ref ∈ added.foldl (M.insertAdded heap) kept, ref ∈ kept ∨ ref ∈ added := by
  have distinct : (M.theirsAdded heap base).Nodup := by
    rw [theirsAdded, removeDuplicates_eq]
    exact (M.nodup_filterAddedNodes heap once).filter _
  refine merged_children distinct fun ref kept added => ?_
  have recorded := ((M.mem_filterAddedNodes heap).mp (mem_theirsAdded.mp added).1).1
  rcases prepared.mem_kept isOurs kept with mine | ⟨entry, member, rfl⟩
  · exact (apart ref recorded).1 mine
  · exact (apart entry.left recorded).2 entry member rfl

/-- The merged children in our order, whatever the two matchings are: those that
do not come from the other side are what is kept of our children, in their order;
each node that only their side added is there once; and there is nothing else. -/
theorem directMergeChildrenInOurOrder_ordered (favour : M.orderInFavour = .ours)
    {our base their : NodeRef} (isOurs : Ours our) {fuel : Nat} (enough : rank our ≤ fuel)
    (pristine : M.Pristine origin heap (BelowAny origin Ours (origin our).children))
    (once : M.theirMatching.possiblyAdded.collect.Nodup)
    (apart : ∀ added ∈ M.theirMatching.possiblyAdded.collect,
      ¬ Ours added ∧ M.Unwritten added) :
    ∃ heap' children,
      M.directMergeChildrenInOurOrder (M.mergeSemanticNode fuel) heap our base their =
          some (heap', children) ∧
        let added := M.removeDuplicates heap' (M.filterAddedNodes heap' base M.theirMatching)
          (M.filterAddedNodes heap' base M.ourMatching)
        children.filter (· ∉ added) = (origin our).children.filterMap (M.outcome origin) ∧
          (∀ ref ∈ added, children.count ref = 1) ∧
          ∀ ref ∈ children,
            ref ∈ (origin our).children.filterMap (M.outcome origin) ∨ ref ∈ added := by
  obtain ⟨heap', returned, -, -⟩ := directMergeChildrenInOurOrder_run prepared
    (mergeSemanticNode_run prepared favour fuel) base their isOurs
    (fun child member => Nat.lt_of_lt_of_le (prepared.forest.rank_lt our child ⟨isOurs, member⟩)
      enough) pristine
  exact ⟨heap', _, returned, prepared.merged_in_order isOurs once apart heap' base⟩

end Order

/-- A file with one macro line; their side puts two lines before it. -/
def frontInsertion : Heap
  | 0 => { kind := .translationUnit, qualifiedName := "a.h", children := [1] }
  | 1 => { kind := .textual, body := "A", parent := some 0, id := 1 }
  | 2 => { kind := .translationUnit, qualifiedName := "a.h", children := [3] }
  | 3 => { kind := .textual, body := "A", parent := some 2, id := 1 }
  | 4 => { kind := .translationUnit, qualifiedName := "a.h", children := [5, 6, 7] }
  | 5 => { kind := .textual, body := "X", parent := some 4, id := 1 }
  | 6 => { kind := .textual, body := "Y", parent := some 4, id := 2 }
  | 7 => { kind := .textual, body := "A", parent := some 4, id := 3 }
  | _ => {}

/-- The merger of the three versions. -/
def frontMerger : GraphMerger where
  std := .polynomial
  gitMergeTextual our _ _ _ _ _ := our
  ourMatching := { oneOneMatching := tableOf .polynomial frontInsertion [(0, 2), (1, 3)] }
  theirMatching :=
    { oneOneMatching := tableOf .polynomial frontInsertion [(0, 4), (1, 7)]
      possiblyAdded := Function.update (fun _ => []) .textual [5, 6] }

theorem frontMerger_ours :
    frontMerger.ourMatching.Partition .polynomial frontInsertion [0, 1] [2, 3] := by
  decide

theorem frontMerger_theirs :
    frontMerger.theirMatching.Partition .polynomial frontInsertion [0, 1] [4, 5, 6, 7] := by
  decide

theorem frontMerger_prepared :
    frontMerger.Prepared frontInsertion (· ∈ [2, 3]) fun ref => if ref = 2 then 1 else 0 :=
  .of_partition frontMerger_ours frontMerger_theirs (by decide) (by decide) (by decide)
    (by decide)

/-- Their two lines and our line, merged in our order. -/
theorem frontInsertion_ordered :
    ∃ heap' children,
      frontMerger.directMergeChildrenInOurOrder (frontMerger.mergeSemanticNode 1)
          frontInsertion 2 0 4 = some (heap', children) ∧
        let added := frontMerger.removeDuplicates heap'
          (frontMerger.filterAddedNodes heap' 0 frontMerger.theirMatching)
          (frontMerger.filterAddedNodes heap' 0 frontMerger.ourMatching)
        children.filter (· ∉ added) =
            (frontInsertion 2).children.filterMap (frontMerger.outcome frontInsertion) ∧
          (∀ ref ∈ added, children.count ref = 1) ∧
          ∀ ref ∈ children,
            ref ∈ (frontInsertion 2).children.filterMap (frontMerger.outcome frontInsertion) ∨
              ref ∈ added :=
  directMergeChildrenInOurOrder_ordered frontMerger_prepared rfl (by decide) (by decide) .refl
    (by decide) (by decide)

end GraphMerger

end MergeBot
