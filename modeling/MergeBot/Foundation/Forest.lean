import Mathlib.Logic.Relation

/-!
# Forests given by a child relation

In a forest every node has at most one parent and every child has a smaller rank
than its parent. The subtrees of two siblings are then disjoint
(`Forest.siblings_eq`), and no node is below its own child
(`Forest.not_below_child`).
-/

namespace MergeBot.Foundation

universe u

variable {α : Type u}

/-- A child relation in which parents are unique and ranks decrease. -/
structure Forest (Child : α → α → Prop) (rank : α → Nat) : Prop where
  parent_unique : ∀ first second child, Child first child → Child second child → first = second
  rank_lt : ∀ parent child, Child parent child → rank child < rank parent

/-- The nodes of the subtree of a root. -/
abbrev Below (Child : α → α → Prop) (root node : α) : Prop :=
  Relation.ReflTransGen Child root node

namespace Forest

variable {Child : α → α → Prop} {rank : α → Nat} (forest : Forest Child rank)

include forest

/-- Ranks do not grow on the way down. -/
theorem rank_le {root node : α} (below : Below Child root node) : rank node ≤ rank root := by
  induction below with
  | refl => exact Nat.le_refl _
  | tail _ child ih => exact Nat.le_of_lt (Nat.lt_of_lt_of_le (forest.rank_lt _ _ child) ih)

/-- A node is not in the subtree of its child. -/
theorem not_below_child {parent child : α} (step : Child parent child) :
    ¬ Below Child child parent := fun below =>
  Nat.not_lt.mpr (forest.rank_le below) (forest.rank_lt parent child step)

/-- Two nodes above a third one are above each other. -/
theorem above_total {first second node : α} (below : Below Child first node)
    (below' : Below Child second node) :
    Below Child first second ∨ Below Child second first := by
  have parents : Relator.RightUnique (Function.swap Child) := fun child left right => by
    intro up up'
    exact forest.parent_unique left right child up up'
  have total := Relation.ReflTransGen.total_of_right_unique parents
    (Relation.reflTransGen_swap.mpr below) (Relation.reflTransGen_swap.mpr below')
  exact total.symm.imp Relation.reflTransGen_swap.mp Relation.reflTransGen_swap.mp

/-- A node above a child is the child or above its parent. -/
theorem above_child {root parent child : α} (step : Child parent child)
    (below : Below Child root child) : root = child ∨ Below Child root parent := by
  cases below with
  | refl => exact .inl rfl
  | tail above last =>
      rw [forest.parent_unique parent _ child step last]
      exact .inr above

/-- Subtrees of different siblings have no node in common. -/
theorem siblings_eq {parent first second node : α} (firstChild : Child parent first)
    (secondChild : Child parent second) (below : Below Child first node)
    (below' : Below Child second node) : first = second := by
  rcases forest.above_total below below' with above | above
  · rcases forest.above_child secondChild above with same | above
    · exact same
    · exact absurd above (forest.not_below_child firstChild)
  · rcases forest.above_child firstChild above with same | above
    · exact same.symm
    · exact absurd above (forest.not_below_child secondChild)

end Forest

end MergeBot.Foundation
