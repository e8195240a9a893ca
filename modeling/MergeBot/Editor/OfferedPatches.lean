import Mathlib.Data.List.Pairwise
import MergeBot.Foundation.SortedLists
import MergeBot.Editor.SemanticPatch

/-!
# Patches that are offered together

A patch for a conflict block reaches from the first hunk that meets the block to the last one, and
a hunk is left out by its start if another hunk meets a block. `semanticPatch_once_iff` says when
every hunk is in exactly one patch that covers it, and the patches are apart.
-/

namespace MergeBot

open Foundation

namespace EditorPatch

/-- One of two patches ends before the other one begins. -/
def ApartFrom (first second : EditorPatch) : Prop :=
  first.stop ≤ second.start ∨ second.stop ≤ first.start

theorem ApartFrom.symm {first second : EditorPatch} (apart : first.ApartFrom second) :
    second.ApartFrom first :=
  Or.symm apart

end EditorPatch

/-- Hunks of a file that are pairwise disjoint, in any order. -/
def DisjointHunks (hunks : List DiffHunk) : Prop :=
  hunks.Pairwise fun first second => first.ApartFrom second.toEditorPatch

/-- The patches are apart, every hunk is in exactly one of them, and a patch covers the lines of
its hunks. -/
structure PatchedOnce (original : List Text) (hunks : List DiffHunk) : Prop where
  apart : (constructSemanticPatch original hunks).Pairwise EditorPatch.ApartFrom
  once : ((semanticParts original hunks).flatMap Prod.snd).Perm hunks
  covers : ∀ part ∈ semanticParts original hunks, ∀ hunk ∈ part.2,
    part.1.start ≤ hunk.start ∧ hunk.stop ≤ part.1.stop

/-- No hunk meets two blocks. A hunk outside of all blocks does not begin in the line of one that
meets a block. Of two hunks in one block that begin in the same line, only the last one goes
beyond the block. -/
structure HunksFitBlocks (original : List Text) (hunks : List DiffHunk) : Prop where
  oneBlock : ∀ hunk ∈ hunks,
    ((findConflictBlocks original).filter fun block => MeetsBlock block hunk).length ≤ 1
  outside : ∀ hunk ∈ hunks, (∀ block ∈ findConflictBlocks original, ¬ MeetsBlock block hunk) →
    ∀ other ∈ hunks, other.start = hunk.start →
      ∀ block ∈ findConflictBlocks original, ¬ MeetsBlock block other
  beyond : ∀ block ∈ findConflictBlocks original, ∀ first second, [first, second].Sublist hunks →
    first.start = second.start → MeetsBlock block first → MeetsBlock block second →
      (first.stop : Int) ≤ block.endMarkerLineNo + 1

theorem mem_intersectingHunks {hunks : List DiffHunk} {block : MarkerLineNos} {hunk : DiffHunk} :
    hunk ∈ intersectingHunks hunks block ↔ hunk ∈ hunks ∧ MeetsBlock block hunk := by
  rw [intersectingHunks, List.mem_filter, decide_eq_true_iff]

theorem mem_consideredStarts {original : List Text} {hunks : List DiffHunk} {start : Nat} :
    start ∈ consideredStarts original hunks ↔
      ∃ block ∈ findConflictBlocks original, ∃ hunk ∈ hunks, MeetsBlock block hunk ∧
        hunk.start = start := by
  simp [consideredStarts, mem_intersectingHunks, and_assoc]

/-- Without a hunk there is no patch for a block. -/
theorem mergedPatch_eq_none_iff {original : List Text} {hunks : List DiffHunk}
    {block : MarkerLineNos} :
    mergedPatch original hunks block = none ↔ intersectingHunks hunks block = [] := by
  have perm := List.perm_insertionSort ByStart (intersectingHunks hunks block)
  rw [mergedPatch]
  generalize (intersectingHunks hunks block).insertionSort ByStart = sorted at perm
  cases sorted with
  | nil => simp [perm.nil_eq.symm]
  | cons first rest =>
      have nonempty : intersectingHunks hunks block ≠ [] := fun empty =>
        List.cons_ne_nil first rest (List.perm_nil.mp (empty ▸ perm))
      simp [nonempty]

/-! ## Every hunk once -/

/-- The hunks of all patches are those of the blocks and those that are left. -/
theorem flatMap_semanticParts (original : List Text) (hunks : List DiffHunk) :
    (semanticParts original hunks).flatMap Prod.snd =
      ((findConflictBlocks original).flatMap fun block => intersectingHunks hunks block) ++
        hunks.filter fun hunk => hunk.start ∉ consideredStarts original hunks := by
  rw [semanticParts, List.flatMap_append]
  congr 1
  · induction findConflictBlocks original with
    | nil => rfl
    | cons block blocks inductionHypothesis =>
        rw [List.flatMap_cons, ← inductionHypothesis]
        cases made : mergedPatch original hunks block with
        | none => simp [made, mergedPatch_eq_none_iff.mp made]
        | some patch => simp [made]
  · rw [List.flatMap_map]
    exact List.flatMap_singleton' _

/-- How often a hunk is in the patches for blocks. -/
theorem count_flatMap_intersectingHunks (hunks : List DiffHunk) (blocks : List MarkerLineNos)
    (hunk : DiffHunk) :
    (blocks.flatMap fun block => intersectingHunks hunks block).count hunk =
      (blocks.filter fun block => MeetsBlock block hunk).length * hunks.count hunk := by
  induction blocks with
  | nil => simp
  | cons block blocks inductionHypothesis =>
      rw [List.flatMap_cons, List.count_append, inductionHypothesis]
      by_cases meets : MeetsBlock block hunk
      · rw [List.filter_cons_of_pos (by simpa using meets), intersectingHunks,
          List.count_filter (by simpa using meets), List.length_cons, Nat.succ_mul, Nat.add_comm]
      · have absent : hunk ∉ intersectingHunks hunks block := fun member =>
          meets (mem_intersectingHunks.mp member).2
        rw [List.filter_cons_of_neg (by simpa using meets), List.count_eq_zero.mpr absent,
          Nat.zero_add]

/-- A hunk that meets a block is considered. -/
theorem considered_of_meets {original : List Text} {hunks : List DiffHunk} {hunk : DiffHunk}
    (member : hunk ∈ hunks)
    (meets : ((findConflictBlocks original).filter fun block => MeetsBlock block hunk).length ≠ 0) :
    hunk.start ∈ consideredStarts original hunks := by
  obtain ⟨block, found⟩ := List.exists_mem_of_length_pos (Nat.pos_of_ne_zero meets)
  obtain ⟨isBlock, here⟩ := List.mem_filter.mp found
  exact mem_consideredStarts.mpr ⟨block, isBlock, hunk, member, of_decide_eq_true here, rfl⟩

/-- How often a hunk is in the patches. -/
theorem count_flatMap_semanticParts (original : List Text) (hunks : List DiffHunk)
    (hunk : DiffHunk) :
    ((semanticParts original hunks).flatMap Prod.snd).count hunk =
      ((findConflictBlocks original).filter fun block => MeetsBlock block hunk).length *
          hunks.count hunk +
        if hunk.start ∈ consideredStarts original hunks then 0 else hunks.count hunk := by
  rw [flatMap_semanticParts, List.count_append, count_flatMap_intersectingHunks]
  congr 1
  split
  · rename_i considered
    exact List.count_eq_zero.mpr fun member => by simp [considered] at member
  · rename_i left
    exact List.count_filter (by simpa using left)

/-- A hunk is in the patches as often as it is a hunk when it meets one block at most, and is left
over when it meets none. -/
theorem count_semanticParts_iff {original : List Text} {hunks : List DiffHunk} {hunk : DiffHunk}
    (member : hunk ∈ hunks) :
    ((semanticParts original hunks).flatMap Prod.snd).count hunk = hunks.count hunk ↔
      ((findConflictBlocks original).filter fun block => MeetsBlock block hunk).length ≤ 1 ∧
        (((findConflictBlocks original).filter fun block => MeetsBlock block hunk).length = 0 →
          hunk.start ∉ consideredStarts original hunks) := by
  have positive : 0 < hunks.count hunk := List.count_pos_iff.mpr member
  have considered := @considered_of_meets original hunks hunk member
  rw [count_flatMap_semanticParts]
  generalize ((findConflictBlocks original).filter fun block =>
    MeetsBlock block hunk).length = met at *
  rcases Nat.lt_trichotomy met 1 with none | rfl | several
  · obtain rfl : met = 0 := by omega
    by_cases taken : hunk.start ∈ consideredStarts original hunks
    · rw [if_pos taken, Nat.zero_mul]
      exact iff_of_false (Nat.ne_of_lt positive) fun both => both.2 rfl taken
    · simp [taken]
  · simp [considered Nat.one_ne_zero]
  · have more : 2 * hunks.count hunk ≤ met * hunks.count hunk :=
      Nat.mul_le_mul_right _ several
    omega

/-- Every hunk is in exactly one patch if and only if no hunk meets two blocks, and a hunk outside
of all blocks does not begin in the line of one that meets a block. -/
theorem semanticParts_once_iff {original : List Text} {hunks : List DiffHunk} :
    ((semanticParts original hunks).flatMap Prod.snd).Perm hunks ↔
      (∀ hunk ∈ hunks,
        ((findConflictBlocks original).filter fun block => MeetsBlock block hunk).length ≤ 1) ∧
      ∀ hunk ∈ hunks, (∀ block ∈ findConflictBlocks original, ¬ MeetsBlock block hunk) →
        ∀ other ∈ hunks, other.start = hunk.start →
          ∀ block ∈ findConflictBlocks original, ¬ MeetsBlock block other := by
  have counts_iff :
      (∀ hunk, ((semanticParts original hunks).flatMap Prod.snd).count hunk = hunks.count hunk) ↔
        ∀ hunk ∈ hunks,
          ((semanticParts original hunks).flatMap Prod.snd).count hunk = hunks.count hunk := by
    refine ⟨fun same hunk _ => same hunk, fun same hunk => ?_⟩
    by_cases member : hunk ∈ hunks
    · exact same hunk member
    · rw [count_flatMap_semanticParts, List.count_eq_zero.mpr member]
      simp
  rw [List.perm_iff_count, counts_iff, ← forall₂_and]
  refine forall₂_congr fun hunk member => ?_
  rw [count_semanticParts_iff member, List.length_eq_zero_iff, List.filter_eq_nil_iff]
  refine and_congr_right fun _ => imp_congr (by simp) ?_
  rw [mem_consideredStarts]
  constructor
  · intro left other otherMember sameStart block found meets
    exact left ⟨block, found, other, otherMember, meets, sameStart⟩
  · rintro outside ⟨block, found, other, otherMember, meets, sameStart⟩
    exact outside other otherMember sameStart block found meets

/-! ## Lines of a patch -/

/-- Where the patch for a block begins and ends: in the sorted list of its hunks the last one is
behind the others. -/
theorem mergedPatch_span {original : List Text} {hunks : List DiffHunk} {block : MarkerLineNos}
    (found : block ∈ findConflictBlocks original) {patch : EditorPatch}
    (made : mergedPatch original hunks block = some patch) :
    ∃ first ∈ intersectingHunks hunks block, ∃ front last,
      (intersectingHunks hunks block).insertionSort ByStart = front ++ [last] ∧
      last ∈ intersectingHunks hunks block ∧
      (∀ hunk ∈ intersectingHunks hunks block,
        first.start ≤ hunk.start ∧ hunk.start ≤ last.start) ∧
      (patch.start : Int) = min (first.start : Int) block.ourMarkerLineNo ∧
      (patch.stop : Int) = max (last.stop : Int) (block.endMarkerLineNo + 1) := by
  obtain ⟨first, rest, last, sorted, isLast, start, offset, -⟩ := mergedPatch_eq made
  have perm := List.perm_insertionSort ByStart (intersectingHunks hunks block)
  have inOrder := List.pairwise_insertionSort ByStart (intersectingHunks hunks block)
  rw [sorted] at perm inOrder
  obtain ⟨front, split⟩ := List.getLast?_eq_some_iff.mp isLast
  have lastMember := perm.mem_iff.mp (List.mem_of_getLast? isLast)
  obtain ⟨ours, -, -, end_, oursFirst, -⟩ := mem_findConflictBlocks found
  have oursPositive := ours.positive
  have lastStop : last.stop = last.start + last.offset := rfl
  have stop : patch.stop = patch.start + patch.offset := rfl
  refine ⟨first, perm.mem_iff.mp List.mem_cons_self, front, last, sorted.trans split, lastMember,
    fun hunk member => ?_, by omega, ?_⟩
  · have inSorted := perm.mem_iff.mpr member
    refine ⟨?_, ?_⟩
    · rcases List.mem_cons.mp inSorted with rfl | later
      · exact Nat.le_refl _
      · exact (List.pairwise_cons.mp inOrder).1 hunk later
    · rw [split] at inOrder inSorted
      rcases List.mem_append.mp inSorted with inFront | atEnd
      · exact (List.pairwise_append.mp inOrder).2.2 hunk inFront last (by simp)
      · rw [List.mem_singleton.mp atEnd]
  · obtain ⟨meets, before⟩ := (mem_intersectingHunks.mp lastMember).2
    omega

/-- Two different hunks are apart. -/
theorem DisjointHunks.apart {hunks : List DiffHunk} (disjoint : DisjointHunks hunks)
    {first second : DiffHunk} (firstMember : first ∈ hunks) (secondMember : second ∈ hunks)
    (different : first ≠ second) :
    first.stop ≤ second.start ∨ second.stop ≤ first.start := by
  have symmetric : Std.Symm fun first second : DiffHunk =>
      first.toEditorPatch.ApartFrom second.toEditorPatch := ⟨fun _ _ => EditorPatch.ApartFrom.symm⟩
  exact List.Pairwise.forall disjoint firstMember secondMember different

/-- The patch for a block covers its hunks if and only if of two of them that begin in the same
line only the last one goes beyond the block. -/
theorem mergedPatch_covers_iff {original : List Text} {hunks : List DiffHunk}
    (disjoint : DisjointHunks hunks) {block : MarkerLineNos}
    (found : block ∈ findConflictBlocks original) {patch : EditorPatch}
    (made : mergedPatch original hunks block = some patch) :
    (∀ hunk ∈ intersectingHunks hunks block,
        patch.start ≤ hunk.start ∧ hunk.stop ≤ patch.stop) ↔
      ∀ first second, [first, second].Sublist hunks → first.start = second.start →
        MeetsBlock block first → MeetsBlock block second →
          (first.stop : Int) ≤ block.endMarkerLineNo + 1 := by
  obtain ⟨first, firstMember, front, last, sorted, lastMember, between, start, stop⟩ :=
    mergedPatch_span found made
  obtain ⟨lastIn, lastMeets⟩ := mem_intersectingHunks.mp lastMember
  -- hunks that begin in the same line stay in order
  have stays {one other : DiffHunk} (same : one.start = other.start)
      (oneMeets : MeetsBlock block one) (otherMeets : MeetsBlock block other) :
      [one, other].Sublist (front ++ [last]) ↔ [one, other].Sublist hunks := by
    have before : ByStart one other := same.le
    have behind : ByStart other one := same.ge
    rw [← sorted, pair_sublist_insertionSort_iff before behind]
    exact pair_sublist_filter_iff (fun hunk => MeetsBlock block hunk) hunks
      (decide_eq_true oneMeets) (decide_eq_true otherMeets)
  constructor
  · intro covers one other inOrder same oneMeets otherMeets
    by_contra beyond
    have oneIn : one ∈ hunks := inOrder.subset List.mem_cons_self
    have covered := (covers one (mem_intersectingHunks.mpr ⟨oneIn, oneMeets⟩)).2
    have begins := oneMeets.2
    have isLast : one = last := by
      by_contra different
      have lastBegins := lastMeets.2
      rcases disjoint.apart oneIn lastIn different with before | behind <;> omega
    subst isLast
    -- in front of itself
    have inFront := mem_of_pair_sublist_concat ((stays same oneMeets otherMeets).mpr inOrder)
    have twice : [one, one].Sublist (front ++ [one]) :=
      (List.singleton_sublist.mpr inFront).append (List.Sublist.refl [one])
    have apart := (disjoint.sublist ((stays rfl oneMeets oneMeets).mp twice))
    rw [List.pairwise_pair] at apart
    rcases apart with before | behind <;> omega
  · intro beyond hunk member
    obtain ⟨hunkIn, meets⟩ := mem_intersectingHunks.mp member
    obtain ⟨afterFirst, beforeLast⟩ := between hunk member
    refine ⟨by omega, ?_⟩
    by_contra outside
    have different : hunk ≠ last := by
      rintro rfl
      omega
    have lastStop : last.stop = last.start + last.offset := rfl
    have lastBegins := lastMeets.2
    have same : hunk.start = last.start := by
      rcases disjoint.apart hunkIn lastIn different with before | behind <;> omega
    have inFront : hunk ∈ front := by
      have inSorted := (List.mem_insertionSort ByStart).mpr member
      rw [sorted] at inSorted
      simpa [different] using inSorted
    have inOrder : [hunk, last].Sublist (front ++ [last]) :=
      (List.singleton_sublist.mpr inFront).append (List.Sublist.refl [last])
    have upTo := beyond hunk last ((stays same meets lastMeets).mp inOrder) same meets lastMeets
    omega

/-! ## Patches apart -/

/-- A hunk that meets at most one block does not meet two that follow one another. -/
theorem not_meets_both {original : List Text} {hunk : DiffHunk}
    (oneBlock :
      ((findConflictBlocks original).filter fun block => MeetsBlock block hunk).length ≤ 1)
    {first second : MarkerLineNos} (inOrder : [first, second].Sublist (findConflictBlocks original))
    (meetsFirst : MeetsBlock first hunk) : ¬ MeetsBlock second hunk := by
  intro meetsSecond
  have both := (pair_sublist_filter_iff (fun block => MeetsBlock block hunk) _
    (decide_eq_true meetsFirst) (decide_eq_true meetsSecond)).mpr inOrder
  have two := both.length_le
  simp only [List.length_cons, List.length_nil] at two
  omega

/-- The patches for two blocks are apart. -/
theorem mergedPatch_apart {original : List Text} {hunks : List DiffHunk}
    (disjoint : DisjointHunks hunks)
    (oneBlock : ∀ hunk ∈ hunks,
      ((findConflictBlocks original).filter fun block => MeetsBlock block hunk).length ≤ 1)
    {first second : MarkerLineNos} (inOrder : [first, second].Sublist (findConflictBlocks original))
    {firstPatch secondPatch : EditorPatch}
    (firstMade : mergedPatch original hunks first = some firstPatch)
    (secondMade : mergedPatch original hunks second = some secondPatch) :
    firstPatch.stop ≤ secondPatch.start := by
  have firstFound : first ∈ findConflictBlocks original := inOrder.subset List.mem_cons_self
  have secondFound : second ∈ findConflictBlocks original := inOrder.subset (by simp)
  have follows := (findConflictBlocks_pairwise original).forall_sublist inOrder
  obtain ⟨-, -, -, last, -, lastMember, -, -, stop⟩ := mergedPatch_span firstFound firstMade
  obtain ⟨head, headMember, -, -, -, -, -, start, -⟩ := mergedPatch_span secondFound secondMade
  obtain ⟨lastIn, lastMeets⟩ := mem_intersectingHunks.mp lastMember
  obtain ⟨headIn, headMeets⟩ := mem_intersectingHunks.mp headMember
  have lastOnly := not_meets_both (oneBlock last lastIn) inOrder lastMeets
  have headOnly : ¬ MeetsBlock first head := fun meets =>
    not_meets_both (oneBlock head headIn) inOrder meets headMeets
  have different : last ≠ head := by
    rintro rfl
    exact lastOnly headMeets
  have secondMarkers := (mem_findConflictBlocks secondFound).oursFirst
  have firstMarkers := (mem_findConflictBlocks firstFound).oursFirst
  have apart := disjoint.apart lastIn headIn different
  have lastStop : last.stop = last.start + last.offset := rfl
  have headStop : head.stop = head.start + head.offset := rfl
  rw [MeetsBlock] at lastMeets headMeets lastOnly headOnly
  omega

/-- The patch for a block is apart from a hunk that is left. -/
theorem mergedPatch_apart_hunk {original : List Text} {hunks : List DiffHunk}
    (disjoint : DisjointHunks hunks) {block : MarkerLineNos}
    (found : block ∈ findConflictBlocks original) {patch : EditorPatch}
    (made : mergedPatch original hunks block = some patch) {hunk : DiffHunk} (member : hunk ∈ hunks)
    (outside : ¬ MeetsBlock block hunk) : patch.ApartFrom hunk.toEditorPatch := by
  obtain ⟨first, firstMember, -, last, -, lastMember, -, start, stop⟩ :=
    mergedPatch_span found made
  obtain ⟨lastIn, lastMeets⟩ := mem_intersectingHunks.mp lastMember
  obtain ⟨firstIn, firstMeets⟩ := mem_intersectingHunks.mp firstMember
  have notLast : last ≠ hunk := by
    rintro rfl
    exact outside lastMeets
  have notFirst : first ≠ hunk := by
    rintro rfl
    exact outside firstMeets
  have besideLast := disjoint.apart lastIn member notLast
  have besideFirst := disjoint.apart firstIn member notFirst
  have oursFirst := (mem_findConflictBlocks found).oursFirst
  have hunkStop : hunk.stop = hunk.start + hunk.offset := rfl
  have lastStop : last.stop = last.start + last.offset := rfl
  have firstStop : first.stop = first.start + first.offset := rfl
  rw [MeetsBlock] at lastMeets firstMeets outside
  rw [EditorPatch.ApartFrom]
  omega

/-- If no hunk meets two blocks, the patches are apart. -/
theorem constructSemanticPatch_apart {original : List Text} {hunks : List DiffHunk}
    (disjoint : DisjointHunks hunks)
    (oneBlock : ∀ hunk ∈ hunks,
      ((findConflictBlocks original).filter fun block => MeetsBlock block hunk).length ≤ 1) :
    (constructSemanticPatch original hunks).Pairwise EditorPatch.ApartFrom := by
  have sorted := List.perm_insertionSort (fun first second : EditorPatch =>
    first.start ≤ second.start) ((semanticParts original hunks).map Prod.fst)
  rw [constructSemanticPatch, sorted.pairwise_iff EditorPatch.ApartFrom.symm, List.pairwise_map,
    semanticParts, List.pairwise_append]
  refine ⟨?blocks, ?left, ?between⟩
  case blocks =>
    rw [List.pairwise_filterMap]
    refine List.pairwise_of_forall_sublist fun inOrder part firstMade other secondMade => ?_
    obtain ⟨patch, made, rfl⟩ := Option.map_eq_some_iff.mp firstMade
    obtain ⟨otherPatch, otherMade, rfl⟩ := Option.map_eq_some_iff.mp secondMade
    exact .inl (mergedPatch_apart disjoint oneBlock inOrder made otherMade)
  case left =>
    rw [List.pairwise_map]
    exact disjoint.filter _
  case between =>
    intro part fromBlock other fromHunk
    obtain ⟨block, found, ofBlock⟩ := List.mem_filterMap.mp fromBlock
    obtain ⟨patch, made, rfl⟩ := Option.map_eq_some_iff.mp ofBlock
    obtain ⟨hunk, left, rfl⟩ := List.mem_map.mp fromHunk
    obtain ⟨member, unconsidered⟩ := List.mem_filter.mp left
    refine mergedPatch_apart_hunk disjoint found made member fun meets => ?_
    exact of_decide_eq_true unconsidered
      (mem_consideredStarts.mpr ⟨block, found, hunk, member, meets, rfl⟩)

/-! ## Every hunk in one patch -/

/-- The patches are apart and every hunk is in exactly one of them, if and only if the hunks fit
the blocks. -/
theorem semanticPatch_once_iff {original : List Text} {hunks : List DiffHunk}
    (disjoint : DisjointHunks hunks) :
    PatchedOnce original hunks ↔ HunksFitBlocks original hunks := by
  constructor
  · intro patched
    obtain ⟨oneBlock, outside⟩ := semanticParts_once_iff.mp patched.once
    refine ⟨oneBlock, outside, fun block found first second inOrder same firstMeets => ?_⟩
    have firstIn : first ∈ intersectingHunks hunks block :=
      mem_intersectingHunks.mpr ⟨inOrder.subset List.mem_cons_self, firstMeets⟩
    obtain ⟨patch, made⟩ : ∃ patch, mergedPatch original hunks block = some patch := by
      refine Option.ne_none_iff_exists'.mp fun none => ?_
      rw [mergedPatch_eq_none_iff.mp none] at firstIn
      exact List.not_mem_nil firstIn
    have part : (patch, intersectingHunks hunks block) ∈ semanticParts original hunks :=
      List.mem_append_left _ (List.mem_filterMap.mpr ⟨block, found, by rw [made]; rfl⟩)
    exact (mergedPatch_covers_iff disjoint found made).mp (patched.covers _ part) first second
      inOrder same firstMeets
  · intro fits
    refine ⟨constructSemanticPatch_apart disjoint fits.oneBlock,
      semanticParts_once_iff.mpr ⟨fits.oneBlock, fits.outside⟩, fun part member => ?_⟩
    rcases List.mem_append.mp member with fromBlock | fromHunk
    · obtain ⟨block, found, ofBlock⟩ := List.mem_filterMap.mp fromBlock
      obtain ⟨patch, made, rfl⟩ := Option.map_eq_some_iff.mp ofBlock
      exact (mergedPatch_covers_iff disjoint found made).mpr (fits.beyond block found)
    · obtain ⟨hunk, left, rfl⟩ := List.mem_map.mp fromHunk
      intro other single
      rw [List.mem_singleton.mp single]
      exact ⟨Nat.le_refl _, Nat.le_refl _⟩

/-- Hunks in a block and in front of it. -/
theorem semanticPatch_smallBlock :
    DisjointHunks [⟨⟨1, 0, "x\n".toList⟩, []⟩, ⟨⟨2, 1, "y\n".toList⟩, "a\n".toList⟩] ∧
      (PatchedOnce smallBlock
          [⟨⟨1, 0, "x\n".toList⟩, []⟩, ⟨⟨2, 1, "y\n".toList⟩, "a\n".toList⟩] ↔
        HunksFitBlocks smallBlock
          [⟨⟨1, 0, "x\n".toList⟩, []⟩, ⟨⟨2, 1, "y\n".toList⟩, "a\n".toList⟩]) := by
  have disjoint :
      DisjointHunks [⟨⟨1, 0, "x\n".toList⟩, []⟩, ⟨⟨2, 1, "y\n".toList⟩, "a\n".toList⟩] := by
    simp [DisjointHunks, EditorPatch.ApartFrom, EditorPatch.stop]
  exact ⟨disjoint, semanticPatch_once_iff disjoint⟩

/-- A hunk from the end of one block to the beginning of the next one is in two patches, which
overlap. -/
theorem twoBlocks_overlap :
    DisjointHunks [⟨⟨5, 2, "x\n".toList⟩, ">>>>>>>\n<<<<<<<\n".toList⟩] ∧
      ((findConflictBlocks (smallBlock ++ smallBlock)).filter fun block =>
        MeetsBlock block ⟨⟨5, 2, "x\n".toList⟩, ">>>>>>>\n<<<<<<<\n".toList⟩).length = 2 ∧
      ¬ PatchedOnce (smallBlock ++ smallBlock)
        [⟨⟨5, 2, "x\n".toList⟩, ">>>>>>>\n<<<<<<<\n".toList⟩] := by
  refine ⟨by simp [DisjointHunks], by decide, fun patched => ?_⟩
  have overlapping : ¬ (constructSemanticPatch (smallBlock ++ smallBlock)
      [⟨⟨5, 2, "x\n".toList⟩, ">>>>>>>\n<<<<<<<\n".toList⟩]).Pairwise fun first second =>
        first.stop ≤ second.start ∨ second.stop ≤ first.start := by decide
  exact overlapping patched.apart

end MergeBot
