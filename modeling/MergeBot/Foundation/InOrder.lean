import Mathlib.Data.List.Forall2

/-!
# Pieces of a list in their order

`InOrder pieces list`: the pieces stand in the list one behind the other, with anything in front
of them, between them and behind them. A list whose parts have pieces in order has all of them in
order (`InOrder.flatten`).
-/

namespace MergeBot.Foundation

universe u

variable {α : Type u}

/-- The pieces stand in the list, one behind the other. -/
inductive InOrder : List (List α) → List α → Prop
  | nil (list : List α) : InOrder [] list
  | cons {pieces : List (List α)} {rest : List α} (gap piece : List α)
      (later : InOrder pieces rest) : InOrder (piece :: pieces) (gap ++ (piece ++ rest))

namespace InOrder

variable {pieces more : List (List α)} {list rest : List α}

/-- More in front of a list leaves its pieces. -/
theorem prepend (inOrder : InOrder pieces list) (before : List α) :
    InOrder pieces (before ++ list) := by
  cases inOrder with
  | nil => exact .nil _
  | cons gap piece later =>
    rw [← List.append_assoc]
    exact .cons (before ++ gap) piece later

/-- Two lists, one behind the other. -/
theorem append (first : InOrder pieces list) (second : InOrder more rest) :
    InOrder (pieces ++ more) (list ++ rest) := by
  induction first with
  | nil list => exact second.prepend list
  | cons gap piece _ inductionHypothesis =>
    rw [List.append_assoc, List.append_assoc]
    exact .cons gap piece inductionHypothesis

/-- More behind a list leaves its pieces. -/
theorem extend (inOrder : InOrder pieces list) (after : List α) :
    InOrder pieces (list ++ after) := by
  have longer := inOrder.append (.nil after)
  rwa [List.append_nil] at longer

/-- One piece. -/
theorem single {piece : List α} (inside : piece <:+: list) : InOrder [piece] list := by
  obtain ⟨before, after, rfl⟩ := inside
  rw [List.append_assoc]
  exact .cons before piece (.nil after)

/-- The list itself is a piece. -/
theorem self (list : List α) : InOrder [list] list :=
  single List.infix_rfl

/-- Pieces of pieces. -/
theorem flatten {parts : List (List (List α))} (inOrder : InOrder pieces list)
    (below : List.Forall₂ InOrder parts pieces) : InOrder parts.flatten list := by
  induction inOrder generalizing parts with
  | nil list =>
    cases below
    exact .nil list
  | cons gap piece _ inductionHypothesis =>
    cases below with
    | cons here later => exact (here.append (inductionHypothesis later)).prepend gap

/-- Dropping the same elements everywhere. -/
theorem filter (keeps : α → Bool) (inOrder : InOrder pieces list) :
    InOrder (pieces.map (List.filter keeps)) (list.filter keeps) := by
  induction inOrder with
  | nil list => exact .nil _
  | cons gap piece _ inductionHypothesis =>
    rw [List.map_cons, List.filter_append, List.filter_append]
    exact .cons _ _ inductionHypothesis

end InOrder

end MergeBot.Foundation
