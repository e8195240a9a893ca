import Mathlib.Data.List.Basic
import Mathlib.Data.List.Nodup

/-!
# Scans bounded by a container that shrinks

A loop that visits the indices below the present size of a container, and
removes one element at each hit, stops early: the bound comes down while the
index goes up. `ShrinkingScan.mem_hits_iff` says which candidates such a scan
still reaches.
-/

namespace MergeBot.Foundation.ShrinkingScan

universe u

variable {α : Type u} (candidate : Nat → Option α)

/-- The number of candidates at the indices from `start` up to `stop`. -/
def countBetween (start stop : Nat) : Nat :=
  (List.range' start (stop - start)).countP fun index => (candidate index).isSome

/-- The candidates hit by a scan from `index` over a container of `size`
elements that loses one element at each hit. -/
def hits : Nat → Nat → Nat → List α
  | 0, _, _ => []
  | fuel + 1, size, index =>
      if index < size then
        match candidate index with
        | some value => value :: hits fuel (size - 1) (index + 1)
        | none => hits fuel size (index + 1)
      else []

variable {candidate}

@[simp]
theorem countBetween_self (index : Nat) : countBetween candidate index index = 0 := by
  simp [countBetween]

theorem countBetween_step {start stop : Nat} (before : start < stop) :
    countBetween candidate start stop =
      (if (candidate start).isSome then 1 else 0) + countBetween candidate (start + 1) stop := by
  obtain ⟨width, rfl⟩ : ∃ width, stop = start + (width + 1) := ⟨stop - start - 1, by omega⟩
  have whole : start + (width + 1) - start = width + 1 := by omega
  have rest : start + (width + 1) - (start + 1) = width := by omega
  simp only [countBetween, whole, rest, List.range'_succ, List.countP_cons]
  omega

/-- A candidate is hit when its index, moved up by the hits before it, is still
below the size at the start. -/
theorem mem_hits_iff {fuel size index : Nat} (enough : size ≤ index + fuel) {value : α} :
    value ∈ hits candidate fuel size index ↔
      ∃ place, index ≤ place ∧ candidate place = some value ∧
        place + countBetween candidate index place < size := by
  induction fuel generalizing size index with
  | zero =>
      simp only [hits, List.not_mem_nil, false_iff]
      rintro ⟨place, after, -, below⟩
      omega
  | succ fuel ih =>
      by_cases inside : index < size
      · cases here : candidate index with
        | none =>
            simp only [hits, inside, here, if_true]
            rw [ih (by omega)]
            constructor
            · rintro ⟨place, after, found, below⟩
              refine ⟨place, by omega, found, ?_⟩
              rw [countBetween_step (by omega), here]
              simpa using below
            · rintro ⟨place, after, found, below⟩
              have strictly : index < place :=
                Nat.lt_of_le_of_ne after fun same => by simp [← same, here] at found
              rw [countBetween_step strictly, here] at below
              exact ⟨place, strictly, found, by simpa using below⟩
        | some head =>
            simp only [hits, inside, here, if_true, List.mem_cons]
            rw [ih (by omega)]
            constructor
            · rintro (rfl | ⟨place, after, found, below⟩)
              · exact ⟨index, Nat.le_refl _, here, by simpa using inside⟩
              · refine ⟨place, by omega, found, ?_⟩
                rw [countBetween_step (by omega), here]
                simp only [Option.isSome_some, if_true]
                omega
            · rintro ⟨place, after, found, below⟩
              rcases Nat.eq_or_lt_of_le after with rfl | strictly
              · exact .inl (Option.some.inj (found.symm.trans here))
              · rw [countBetween_step strictly, here] at below
                simp only [Option.isSome_some, if_true] at below
                exact .inr ⟨place, strictly, found, by omega⟩
      · simp only [hits, inside, if_false, List.not_mem_nil, false_iff]
        rintro ⟨place, after, -, below⟩
        omega

end MergeBot.Foundation.ShrinkingScan
