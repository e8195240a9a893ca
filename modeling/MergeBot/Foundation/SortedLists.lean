import Mathlib.Data.List.Sort

/-!
# Sorted lists

A stable sort keeps the order of two entries that are equivalent
(`pair_sublist_insertionSort_iff`). In a list that increases, the first entry with a property is
the least one (`find?_eq_some_iff_of_increasing`).
-/

namespace MergeBot.Foundation

variable {α : Type*}

/-- Leaving out other entries keeps a pair in order. -/
theorem pair_sublist_filter_iff (keep : α → Bool) {first second : α} (values : List α)
    (keepFirst : keep first) (keepSecond : keep second) :
    [first, second].Sublist (values.filter keep) ↔ [first, second].Sublist values := by
  constructor
  · exact fun inOrder => inOrder.trans List.filter_sublist
  · intro inOrder
    have kept := inOrder.filter keep
    rwa [List.filter_cons_of_pos keepFirst, List.filter_cons_of_pos keepSecond,
      List.filter_nil] at kept

/-- The first one of a pair stands in front of the last entry. -/
theorem mem_of_pair_sublist_concat {first second last : α} {front : List α}
    (inOrder : [first, second].Sublist (front ++ [last])) : first ∈ front := by
  obtain ⟨left, right, split, inFront, atEnd⟩ := List.sublist_append_iff.mp inOrder
  cases left with
  | nil =>
      have short := atEnd.length_le
      rw [List.nil_append] at split
      simp [← split] at short
  | cons entry left =>
      obtain ⟨rfl, -⟩ := List.cons.inj split
      exact inFront.subset List.mem_cons_self

/-- The first entry that passes, in a list that increases. -/
theorem find?_eq_some_iff_of_increasing {values : List α} {key : α → Nat}
    (increasing : values.Pairwise fun first second => key first < key second) {passes : α → Bool}
    {found : α} :
    values.find? passes = some found ↔ found ∈ values ∧ passes found ∧
      ∀ value ∈ values, key value < key found → ¬ passes value := by
  constructor
  · intro first
    obtain ⟨holds, front, rest, split, before⟩ := List.find?_eq_some_iff_append.mp first
    subst split
    refine ⟨by simp, holds, fun value member less => ?_⟩
    rcases List.mem_append.mp member with inFront | notInFront
    · simpa using before value inFront
    · have inOrder := (List.pairwise_append.mp increasing).2.1
      rcases List.mem_cons.mp notInFront with rfl | behind
      · exact absurd less (Nat.lt_irrefl _)
      · exact absurd less (Nat.lt_asymm ((List.pairwise_cons.mp inOrder).1 value behind))
  · rintro ⟨member, holds, first⟩
    obtain ⟨front, rest, rfl⟩ := List.append_of_mem member
    refine List.find?_eq_some_iff_append.mpr ⟨holds, front, rest, rfl, fun value inFront => ?_⟩
    have less := (List.pairwise_append.mp increasing).2.2 value inFront found (by simp)
    simpa using first value (by simp [inFront]) less

variable {order : α → α → Prop} [DecidableRel order] [IsTrans α order]

/-- Entries that are equivalent to one of them stay as they are. -/
theorem filter_insertionSort (pivot : α) (values : List α) :
    (values.insertionSort order).filter (fun value => order pivot value ∧ order value pivot) =
      values.filter fun value => order pivot value ∧ order value pivot := by
  have equivalent : (values.filter fun value => order pivot value ∧ order value pivot).Pairwise
      order := by
    refine List.pairwise_of_forall_mem_list fun first firstMember second secondMember => ?_
    have firstKept := of_decide_eq_true (List.mem_filter.mp firstMember).2
    have secondKept := of_decide_eq_true (List.mem_filter.mp secondMember).2
    exact IsTrans.trans _ _ _ firstKept.2 secondKept.1
  have inSorted := List.sublist_insertionSort equivalent List.filter_sublist
  have kept := inSorted.filter fun value => order pivot value ∧ order value pivot
  rw [List.filter_filter] at kept
  simp only [Bool.and_self] at kept
  have perm := (List.perm_insertionSort order values).filter fun value =>
    order pivot value ∧ order value pivot
  exact (kept.eq_of_length perm.length_eq.symm).symm

/-- Two equivalent entries stay in order. -/
theorem pair_sublist_insertionSort_iff [Std.Total order] {first second : α} {values : List α}
    (before : order first second) (behind : order second first) :
    [first, second].Sublist (values.insertionSort order) ↔ [first, second].Sublist values := by
  have keepFirst : decide (order first first ∧ order first first) = true :=
    decide_eq_true ⟨refl first, refl first⟩
  have keepSecond : decide (order first second ∧ order second first) = true :=
    decide_eq_true ⟨before, behind⟩
  let keep : α → Bool := fun value => order first value ∧ order value first
  have sorted := pair_sublist_filter_iff keep (values.insertionSort order) keepFirst keepSecond
  have unsorted := pair_sublist_filter_iff keep values keepFirst keepSecond
  rw [← sorted, ← unsorted, filter_insertionSort first values]

end MergeBot.Foundation
