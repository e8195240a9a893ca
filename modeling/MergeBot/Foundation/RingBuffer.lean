import Mathlib.Data.Nat.ModEq

/-!
# Ring buffers

A queue in an array of a fixed size. Items are written at `tail` and read at `head`, and both wrap
around at the end of the array. `Holds` says which items are in the buffer, the first one first.
-/

namespace MergeBot.Foundation

universe u

/-- An array with the places where the next item is read and written. -/
structure RingBuffer (α : Type u) where
  size : Nat
  cells : Nat → Option α
  head : Nat
  tail : Nat
  count : Nat

namespace RingBuffer

variable {α : Type u}

def empty (size : Nat) : RingBuffer α where
  size := size
  cells _ := none
  head := 0
  tail := 0
  count := 0

variable (ring : RingBuffer α)

/-- Write an item at the tail. -/
def push (item : α) : RingBuffer α :=
  { ring with
    cells := Function.update ring.cells ring.tail (some item)
    tail := (ring.tail + 1) % ring.size
    count := ring.count + 1 }

/-- Read the cell at the head, and clear it. -/
def pop : Option α × RingBuffer α :=
  (ring.cells ring.head,
    { ring with
      cells := Function.update ring.cells ring.head none
      head := (ring.head + 1) % ring.size
      count := ring.count - 1 })

/-- The buffer holds the items, the first one at its head. -/
structure Holds (items : List α) : Prop where
  inside : ring.head < ring.size
  tail : ring.tail = (ring.head + items.length) % ring.size
  count : ring.count = items.length
  fits : items.length ≤ ring.size
  cells : ∀ place < items.length, ring.cells ((ring.head + place) % ring.size) = items[place]?

variable {ring} {items : List α}

theorem holds_empty {size : Nat} (positive : 0 < size) : (empty size : RingBuffer α).Holds [] where
  inside := positive
  tail := (Nat.zero_mod size).symm
  count := rfl
  fits := Nat.zero_le _
  cells _ less := absurd less (Nat.not_lt_zero _)

/-- Places less than a round apart are different cells. -/
theorem place_ne {head size first second : Nat} (less : first < second) (round : second < size) :
    (head + first) % size ≠ (head + second) % size := by
  intro same
  have congruent : first ≡ second [MOD size] := Nat.ModEq.add_left_cancel' head same
  have equal : first = second := by
    rw [← Nat.mod_eq_of_lt (less.trans round), ← Nat.mod_eq_of_lt round]
    exact congruent
  exact absurd equal less.ne

/-- An item that is written is behind all others. -/
theorem Holds.push (holds : ring.Holds items) (room : items.length < ring.size) (item : α) :
    (ring.push item).Holds (items ++ [item]) where
  inside := holds.inside
  tail := by
    rw [RingBuffer.push, holds.tail, Nat.mod_add_mod, List.length_append, List.length_singleton,
      Nat.add_assoc]
  count := by rw [RingBuffer.push, holds.count, List.length_append, List.length_singleton]
  fits := by
    rw [List.length_append, List.length_singleton]
    exact room
  cells place less := by
    rw [List.length_append, List.length_singleton] at less
    rw [RingBuffer.push, holds.tail]
    dsimp only
    rcases Nat.lt_succ_iff_lt_or_eq.mp less with earlier | rfl
    · rw [Function.update_of_ne (place_ne earlier room), holds.cells place earlier,
        List.getElem?_append_left earlier]
    · rw [Function.update_self, List.getElem?_concat_length]

/-- The first item is read, and the others stay. -/
theorem Holds.pop {item : α} (holds : ring.Holds (item :: items)) :
    ring.pop.1 = some item ∧ ring.pop.2.Holds items := by
  have less : items.length < ring.size := holds.fits
  refine ⟨?_, ?_⟩
  · have first := holds.cells 0 (Nat.succ_pos _)
    rwa [Nat.add_zero, Nat.mod_eq_of_lt holds.inside] at first
  · constructor
    case inside => exact Nat.mod_lt _ (Nat.zero_lt_of_lt less)
    case tail =>
      have tail := holds.tail
      rw [RingBuffer.pop]
      dsimp only
      rw [Nat.mod_add_mod, tail, List.length_cons, Nat.add_assoc, Nat.add_comm 1]
    case count =>
      rw [RingBuffer.pop]
      dsimp only
      rw [holds.count, List.length_cons, Nat.add_sub_cancel]
    case fits => exact less.le
    case cells =>
      intro place earlier
      have later := holds.cells (place + 1) (Nat.succ_lt_succ earlier)
      have other : (ring.head + (place + 1)) % ring.size ≠ ring.head := by
        have apart : (ring.head + 0) % ring.size ≠ (ring.head + (place + 1)) % ring.size :=
          place_ne (Nat.succ_pos place) ((Nat.succ_le_of_lt earlier).trans_lt less)
        rw [Nat.add_zero, Nat.mod_eq_of_lt holds.inside] at apart
        exact apart.symm
      rw [RingBuffer.pop]
      dsimp only
      rw [Nat.mod_add_mod, Nat.add_assoc, Nat.add_comm 1, Function.update_of_ne other, later,
        List.getElem?_cons_succ]

end RingBuffer

end MergeBot.Foundation
