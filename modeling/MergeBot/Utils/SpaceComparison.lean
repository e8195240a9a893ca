import Mathlib.Data.List.TakeWhile
import MergeBot.Conflict.Scanner
import MergeBot.Model.SemanticNode

/-!
# Comparing texts without their spaces

`diff_only_in_spaces` moves a left pointer and a right pointer inward through each text, the right
ones starting on the NUL behind it. `diffLoop_spec`: the loop ends, reads nothing outside the
buffers, and finds out whether one buffer without its spaces begins the other.
`diffOnlyInSpaces_iff`: for texts without a NUL that is equality of the texts without their spaces.
-/

namespace MergeBot

open Foundation

/-! ## Pointers into a buffer -/

section Pointers

variable {α : Type} {buffer rest : List α} {position : Int}

/-- What a pointer reads; nothing stands before the beginning of the buffer or behind its end. -/
def readAt (buffer : List α) (position : Int) : Option α :=
  if position < 0 then none else buffer[position.toNat]?

/-- What lies ahead of a pointer, the element that it reads first. -/
def Ahead (buffer : List α) (position : Int) (rest : List α) : Prop :=
  ∃ passed, passed ++ rest = buffer ∧ position = passed.length

namespace Ahead

theorem start (buffer : List α) : Ahead buffer 0 buffer :=
  ⟨[], rfl, rfl⟩

theorem length_eq (ahead : Ahead buffer position rest) :
    position + rest.length = buffer.length := by
  obtain ⟨passed, rfl, rfl⟩ := ahead
  simp

theorem length_le (ahead : Ahead buffer position rest) : rest.length ≤ buffer.length := by
  obtain ⟨passed, rfl, _⟩ := ahead
  simp

theorem readAt_eq {head : α} (ahead : Ahead buffer position (head :: rest)) :
    readAt buffer position = some head := by
  obtain ⟨passed, rfl, rfl⟩ := ahead
  simp [readAt]

theorem next {head : α} (ahead : Ahead buffer position (head :: rest)) :
    Ahead buffer (position + 1) rest := by
  obtain ⟨passed, rfl, rfl⟩ := ahead
  exact ⟨passed ++ [head], by simp, by simp⟩

end Ahead

/-- Of two lists that end in the same terminator and have it nowhere else, one begins the other
only when they are equal. -/
theorem prefix_terminated_iff {first second : List α} {terminator : α}
    (absent : terminator ∉ second) :
    first ++ [terminator] <+: second ++ [terminator] ↔ first = second := by
  constructor
  · rintro ⟨behind, whole⟩
    induction first generalizing second with
    | nil =>
        cases second with
        | nil => rfl
        | cons head tail =>
            have same : terminator = head := by simpa using congrArg List.head? whole
            exact absurd (same ▸ List.mem_cons_self) absent
    | cons head tail inductionHypothesis =>
        cases second with
        | nil => simp at whole
        | cons head' tail' =>
            obtain ⟨rfl, tails⟩ : head = head' ∧ tail ++ [terminator] ++ behind =
                tail' ++ [terminator] := by
              simpa using whole
            exact congrArg (head :: ·)
              (inductionHypothesis (fun inTail => absent (.tail _ inTail)) tails)
  · rintro rfl
    exact List.prefix_rfl

end Pointers

/-! ## The function -/

/-- The characters of a `std::string` and the NUL behind them. -/
def terminated (str : Text) : Text := str ++ ['\x00']

/-- `while (left <= right && isspace(*left)) ++left;` with `none` when the fuel runs out or a read
leaves the buffer. -/
def skipFromLeft (buffer : Text) : Nat → Int → Int → Option Int
  | 0, _, _ => none
  | fuel + 1, left, right =>
      if left ≤ right then do
        let c ← readAt buffer left
        if isSpace c then skipFromLeft buffer fuel (left + 1) right else some left
      else some left

/-- `while (left <= right && isspace(*right)) --right;` likewise. -/
def skipFromRight (buffer : Text) : Nat → Int → Int → Option Int
  | 0, _, _ => none
  | fuel + 1, left, right =>
      if left ≤ right then do
        let c ← readAt buffer right
        if isSpace c then skipFromRight buffer fuel left (right - 1) else some right
      else some right

/-- The outer loop of `diff_only_in_spaces`, likewise; the inner loops have fuel for a pass over
their buffers. -/
def diffLoop (old new : Text) : Nat → Int → Int → Int → Int → Option Bool
  | 0, _, _, _, _ => none
  | fuel + 1, left1, left2, right1, right2 =>
      if left1 ≤ right1 ∧ left2 ≤ right2 then do
        let left1 ← skipFromLeft old (old.length + 1) left1 right1
        let left2 ← skipFromLeft new (new.length + 1) left2 right2
        let right1 ← skipFromRight old (old.length + 1) left1 right1
        let right2 ← skipFromRight new (new.length + 1) left2 right2
        if (left1 ≤ right1 ∧ right2 < left2) ∨ (right1 < left1 ∧ left2 ≤ right2) then
          some false
        else do
          let c1 ← readAt old left1
          let c2 ← readAt new left2
          if c1 ≠ c2 then some false
          else if left1 ≤ right1 ∧ left2 ≤ right2 then
            diffLoop old new fuel (left1 + 1) (left2 + 1) right1 right2
          else diffLoop old new fuel left1 left2 right1 right2
      else some true

/-- `util::diff_only_in_spaces`: the right pointers start on the NULs. -/
def diffOnlyInSpaces (oldStr newStr : Text) : Option Bool :=
  diffLoop (terminated oldStr) (terminated newStr) (oldStr.length + 2) 0 0
    oldStr.length newStr.length

/-- A text that has no NUL before the one that ends it. -/
abbrev NulFreeText := { text : Text // '\x00' ∉ text }

/-! ## What it computes -/

/-- A text without its spaces. -/
def unspaced (text : Text) : Text := text.filter (! isSpace ·)

section Loops

variable {str old new rest : Text} {left : Int}

/-- A left pointer has not passed the NUL while something lies ahead of it. -/
theorem Ahead.le_terminator_iff (ahead : Ahead (terminated str) left rest) :
    left ≤ str.length ↔ rest ≠ [] := by
  have lengths := ahead.length_eq
  rw [← List.length_pos_iff]
  simp only [terminated, List.length_append, List.length_singleton] at lengths
  omega

/-- Behind a space ahead of a pointer more follows, if only the NUL. -/
theorem Ahead.ne_nil_of_space {head : Char} (ahead : Ahead (terminated str) left (head :: rest))
    (space : isSpace head) : rest ≠ [] := by
  rintro rfl
  have ends : head = '\x00' := by
    obtain ⟨passed, whole, _⟩ := ahead
    simpa [terminated] using congrArg List.getLast? whole
  subst ends
  exact absurd space (by decide)

/-- Skipping from the left stops before the first character that is no space; the NUL is none. -/
theorem skipFromLeft_spec (ahead : Ahead (terminated str) left rest) (more : rest ≠ [])
    (fuel : Nat) (enough : rest.length < fuel) :
    ∃ left' head tail, skipFromLeft (terminated str) fuel left str.length = some left' ∧
      Ahead (terminated str) left' (head :: tail) ∧
      unspaced rest = head :: unspaced tail ∧ tail.length < rest.length := by
  induction rest generalizing left fuel with
  | nil => exact absurd rfl more
  | cons head tail inductionHypothesis =>
      obtain ⟨fuel, rfl⟩ := Nat.exists_eq_add_one_of_ne_zero (Nat.ne_zero_of_lt enough)
      have inside := ahead.le_terminator_iff.mpr more
      by_cases space : isSpace head
      · obtain ⟨left', head', tail', skipped, ahead', characters, shorter⟩ :=
          inductionHypothesis ahead.next (ahead.ne_nil_of_space space) fuel
            (Nat.lt_of_succ_lt_succ enough)
        refine ⟨left', head', tail', ?_, ahead', ?_, Nat.lt_succ_of_lt shorter⟩
        · simpa [skipFromLeft, inside, ahead.readAt_eq, space] using skipped
        · simpa [unspaced, space] using characters
      · refine ⟨left, head, tail, ?_, ahead, ?_, Nat.lt_succ_self _⟩
        · simp [skipFromLeft, inside, ahead.readAt_eq, space]
        · simp [unspaced, space]

/-- The right pointer stays on the NUL, which is no space. -/
theorem skipFromRight_terminator (ahead : Ahead (terminated str) left rest) (more : rest ≠ [])
    (fuel : Nat) :
    skipFromRight (terminated str) (fuel + 1) left str.length = some (str.length : Int) := by
  have inside := ahead.le_terminator_iff.mpr more
  have nul : readAt (terminated str) str.length = some '\x00' := by
    simp [readAt, terminated]
  have noSpace : isSpace '\x00' = false := by decide
  simp [skipFromRight, inside, nul, noSpace]

/-- One pass of the loop: each left pointer stops before a character that is no space, and the
characters decide whether the loop goes on behind them. -/
theorem diffLoop_succ {rest1 rest2 : Text} {left1 left2 : Int}
    (ahead1 : Ahead (terminated old) left1 rest1) (more1 : rest1 ≠ [])
    (ahead2 : Ahead (terminated new) left2 rest2) (more2 : rest2 ≠ []) (fuel : Nat) :
    ∃ c1 tail1 left1' c2 tail2 left2',
      (unspaced rest1 = c1 :: unspaced tail1 ∧ tail1.length < rest1.length ∧
        Ahead (terminated old) left1' tail1) ∧
      (unspaced rest2 = c2 :: unspaced tail2 ∧ Ahead (terminated new) left2' tail2) ∧
      diffLoop (terminated old) (terminated new) (fuel + 1) left1 left2 old.length new.length =
        if c1 ≠ c2 then some false
        else diffLoop (terminated old) (terminated new) fuel left1' left2'
          old.length new.length := by
  obtain ⟨left1', c1, tail1, skipped1, ahead1', characters1, shorter⟩ :=
    skipFromLeft_spec ahead1 more1 _ (Nat.lt_succ_of_le ahead1.length_le)
  obtain ⟨left2', c2, tail2, skipped2, ahead2', characters2, _⟩ :=
    skipFromLeft_spec ahead2 more2 _ (Nat.lt_succ_of_le ahead2.length_le)
  refine ⟨c1, tail1, left1' + 1, c2, tail2, left2' + 1, ⟨characters1, shorter, ahead1'.next⟩,
    ⟨characters2, ahead2'.next⟩, ?_⟩
  have inside1 := ahead1.le_terminator_iff.mpr more1
  have inside2 := ahead2.le_terminator_iff.mpr more2
  have inside1' := ahead1'.le_terminator_iff.mpr (List.cons_ne_nil _ _)
  have inside2' := ahead2'.le_terminator_iff.mpr (List.cons_ne_nil _ _)
  have right1 := skipFromRight_terminator ahead1' (List.cons_ne_nil _ _) (terminated old).length
  have right2 := skipFromRight_terminator ahead2' (List.cons_ne_nil _ _) (terminated new).length
  simp [diffLoop, inside1, inside2, skipped1, skipped2, right1, right2, inside1', inside2',
    Int.not_lt.mpr inside1', Int.not_lt.mpr inside2', ahead1'.readAt_eq, ahead2'.readAt_eq]

/-- With fuel for what lies ahead, the loop ends and reads inside the buffers, and it is true
when what lies ahead in one buffer begins what lies ahead in the other, but for spaces. -/
theorem diffLoop_spec {rest1 rest2 : Text} {left1 left2 : Int}
    (ahead1 : Ahead (terminated old) left1 rest1) (ahead2 : Ahead (terminated new) left2 rest2)
    (fuel : Nat) (enough : rest1.length < fuel) :
    diffLoop (terminated old) (terminated new) fuel left1 left2 old.length new.length =
      some (decide (unspaced rest1 <+: unspaced rest2 ∨ unspaced rest2 <+: unspaced rest1)) := by
  induction fuel generalizing rest1 rest2 left1 left2 with
  | zero => omega
  | succ fuel inductionHypothesis =>
      by_cases more1 : rest1 = []
      · have passed1 := (not_congr ahead1.le_terminator_iff).mpr (not_not.mpr more1)
        simp [diffLoop, passed1, more1, unspaced]
      by_cases more2 : rest2 = []
      · have passed2 := (not_congr ahead2.le_terminator_iff).mpr (not_not.mpr more2)
        simp [diffLoop, passed2, more2, unspaced]
      obtain ⟨c1, tail1, left1', c2, tail2, left2', ⟨characters1, shorter, ahead1'⟩,
        ⟨characters2, ahead2'⟩, pass⟩ := diffLoop_succ ahead1 more1 ahead2 more2 fuel
      rw [pass, characters1, characters2]
      by_cases same : c1 = c2
      · simpa [same] using inductionHypothesis ahead1' ahead2' (by omega)
      · simp [same, Ne.symm same]

end Loops

/-- `diff_only_in_spaces` returns, reading nothing outside its texts, and its result is true
exactly when the texts without their spaces are equal. -/
theorem diffOnlyInSpaces_iff (oldStr newStr : NulFreeText) :
    ∃ result, diffOnlyInSpaces oldStr.1 newStr.1 = some result ∧
      (result = true ↔ unspaced oldStr.1 = unspaced newStr.1) := by
  refine ⟨_, diffLoop_spec (Ahead.start _) (Ahead.start _) _ (by simp [terminated]), ?_⟩
  have absent : ∀ text : NulFreeText, '\x00' ∉ unspaced text.1 := fun text inText =>
    text.2 (List.mem_of_mem_filter inText)
  have ends : ∀ text, unspaced (terminated text) = unspaced text ++ ['\x00'] := by
    intro text
    simp [unspaced, terminated, isSpace]
  rw [decide_eq_true_iff, ends, ends, prefix_terminated_iff (absent newStr),
    prefix_terminated_iff (absent oldStr), eq_comm (a := unspaced newStr.1), or_self]

/-- Behind a NUL in the text the comparison stops with the shorter text. -/
example : diffOnlyInSpaces "a\x00b".toList "a".toList = some true := by decide

end MergeBot
