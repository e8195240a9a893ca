import Mathlib.Data.List.Nodup

/-!
# First occurrences

`firsts seen items` keeps the first of equal items and drops those that
were seen before. It has the members of `items`, none of them twice
(`nodup_firsts`, `mem_firsts`), and it commutes with filtering
(`firsts_filter`).
-/

namespace MergeBot.Foundation

universe u

variable {α : Type u} [DecidableEq α]

/-- Keep the first of equal items, dropping those seen before. -/
def firsts : List α → List α → List α
  | _, [] => []
  | seen, item :: rest =>
      if item ∈ seen then firsts seen rest
      else item :: firsts (item :: seen) rest

/-- What is kept occurs in the list and was not seen before. -/
theorem mem_firsts {items seen : List α} {item : α} :
    item ∈ firsts seen items ↔ item ∈ items ∧ item ∉ seen := by
  induction items generalizing seen with
  | nil => simp [firsts]
  | cons head rest inductionHypothesis =>
      by_cases known : head ∈ seen
      · rw [firsts, if_pos known, inductionHypothesis, List.mem_cons]
        constructor
        · rintro ⟨member, fresh⟩
          exact ⟨.inr member, fresh⟩
        · rintro ⟨rfl | member, fresh⟩
          · exact absurd known fresh
          · exact ⟨member, fresh⟩
      · rw [firsts, if_neg known, List.mem_cons, inductionHypothesis, List.mem_cons,
          List.mem_cons]
        constructor
        · rintro (rfl | ⟨member, fresh⟩)
          · exact ⟨.inl rfl, known⟩
          · exact ⟨.inr member, fun seenBefore => fresh (.inr seenBefore)⟩
        · rintro ⟨rfl | member, fresh⟩
          · exact .inl rfl
          · by_cases same : item = head
            · exact .inl same
            · exact .inr ⟨member, fun seenBefore => seenBefore.elim same fresh⟩

/-- Nothing is kept twice. -/
theorem nodup_firsts (seen items : List α) : (firsts seen items).Nodup := by
  induction items generalizing seen with
  | nil => exact List.nodup_nil
  | cons head rest inductionHypothesis =>
      by_cases known : head ∈ seen
      · rw [firsts, if_pos known]
        exact inductionHypothesis seen
      · rw [firsts, if_neg known]
        refine List.nodup_cons.mpr ⟨fun again => ?_, inductionHypothesis _⟩
        exact (mem_firsts.mp again).2 List.mem_cons_self

/-- Of the seen items only those that occur in the list matter. -/
theorem firsts_congr {items seen other : List α}
    (same : ∀ item ∈ items, item ∈ seen ↔ item ∈ other) :
    firsts seen items = firsts other items := by
  induction items generalizing seen other with
  | nil => rfl
  | cons head rest inductionHypothesis =>
      have atHead := same head List.mem_cons_self
      have later : ∀ item ∈ rest, item ∈ seen ↔ item ∈ other :=
        fun item member => same item (List.mem_cons_of_mem head member)
      by_cases known : head ∈ seen
      · rw [firsts, if_pos known, firsts, if_pos (atHead.mp known)]
        exact inductionHypothesis later
      · rw [firsts, if_neg known, firsts,
          if_neg fun knownThere => known (atHead.mpr knownThere)]
        refine congrArg (head :: ·) (inductionHypothesis fun item member => ?_)
        rw [List.mem_cons, List.mem_cons, later item member]

/-- Filtering the kept items is keeping the first of the filtered items. -/
theorem firsts_filter (keep : α → Bool) (seen items : List α) :
    (firsts seen items).filter keep = firsts seen (items.filter keep) := by
  induction items generalizing seen with
  | nil => rfl
  | cons head rest inductionHypothesis =>
      cases wanted : keep head with
      | true =>
          by_cases known : head ∈ seen
          · simp [firsts, known, wanted, inductionHypothesis]
          · simp [firsts, known, wanted, inductionHypothesis]
      | false =>
          by_cases known : head ∈ seen
          · simp [firsts, known, wanted, inductionHypothesis]
          · have dropped : ∀ item ∈ rest.filter keep, item ∈ head :: seen ↔ item ∈ seen := by
              intro item member
              have other : item ≠ head := by
                rintro rfl
                simp [wanted] at member
              simp [other]
            simp [firsts, known, wanted, inductionHypothesis,
              firsts_congr dropped]

/-- A list without repetitions is kept whole. -/
theorem firsts_of_nodup {items seen : List α} (nodup : items.Nodup)
    (fresh : ∀ item ∈ items, item ∉ seen) : firsts seen items = items := by
  induction items generalizing seen with
  | nil => rfl
  | cons head rest inductionHypothesis =>
      obtain ⟨unrepeated, restNodup⟩ := List.nodup_cons.mp nodup
      rw [firsts, if_neg (fresh head List.mem_cons_self)]
      refine congrArg (head :: ·) (inductionHypothesis restNodup fun item member known => ?_)
      rcases List.mem_cons.mp known with rfl | known
      · exact unrepeated member
      · exact fresh item (List.mem_cons_of_mem head member) known

end MergeBot.Foundation
