import Mathlib.Data.List.TakeWhile
import MergeBot.Foundation.CStrings
import MergeBot.Handler.PathNames

/-!
# Splitting with pointers and joining with a stream

`string_split` moves two pointers through the text; `stringSplitLoop_eq` says that it ends and
collects the pieces that `stringSplit` collects, for any delimiters. `string_join` writes the
parts to a stream and cuts at the last separator. `stringJoin_stringSplit_inverse`: joining the
pieces between delimiters with the delimiter restores the text, but for one delimiter at its end.
-/

namespace MergeBot

open Foundation

/-! ## The two functions -/

/-- `std::find_first_of` from a position to the end; the end when there is none. -/
def findFirstOf (str delims : Text) (first : Nat) : Nat :=
  first + ((str.drop first).takeWhile (· ∉ delims)).length

/-- The loop of `string_split`, whose pointers are `first` and `second`; `none` means that the
fuel ran out. -/
def stringSplitLoop (str delims : Text) (withEmpty : Bool) :
    Nat → Nat → Nat → Option (List Text)
  | 0, first, second =>
      if second ≠ str.length ∧ first ≠ str.length then none else some []
  | fuel + 1, first, second =>
      if second ≠ str.length ∧ first ≠ str.length then
        let next := findFirstOf str delims first
        let output := stringSplitLoop str delims withEmpty fuel (next + 1) next
        if first ≠ next ∨ withEmpty then
          output.map (((str.take next).drop first) :: ·)
        else output
      else some []

/-- `util::string_split`. -/
def stringSplitData (str delims : Text) (withEmpty : Bool) : Option (List Text) :=
  stringSplitLoop str delims withEmpty str.length 0 0

/-- The copy of the loop in `getFileResolution`. -/
def stringSpilt (str delims : Text) (withEmpty : Bool) : Option (List Text) :=
  stringSplitLoop str delims withEmpty str.length 0 0

/-- `util::string_join`: the separator, of which a stream writes the text behind a pointer, is
written after every part. -/
def stringJoinStream (parts : List Text) (separator : Text) : Text :=
  if parts = [] then []
  else
    let concatenated := parts.flatMap (· ++ cString separator)
    match concatenated.reverse.findIdx? (· ∈ separator) with
    | some fromEnd => concatenated.take (concatenated.length - 1 - fromEnd)
    | none => concatenated

/-! ## The pieces -/

section Pieces

variable {delims : Text} {withEmpty : Bool}

/-- Up to the next delimiter the characters belong to the current piece. -/
theorem stringSplit_go_append {piece : Text} (fresh : ∀ c ∈ piece, c ∉ delims)
    (segment rest : Text) :
    stringSplit.go delims withEmpty segment (piece ++ rest) =
      stringSplit.go delims withEmpty (segment ++ piece) rest := by
  induction piece generalizing segment with
  | nil => simp
  | cons c piece inductionHypothesis =>
      rw [List.cons_append, stringSplit.go, if_neg (fresh c List.mem_cons_self),
        inductionHypothesis fun other member => fresh other (List.mem_cons_of_mem c member)]
      simp

/-- No piece has a delimiter. -/
theorem stringSplit_go_fresh {segment : Text} (fresh : ∀ c ∈ segment, c ∉ delims) (text : Text) :
    ∀ piece ∈ stringSplit.go delims withEmpty segment text, ∀ c ∈ piece, c ∉ delims := by
  induction text generalizing segment with
  | nil =>
      intro piece member
      rw [stringSplit.go] at member
      split at member
      · exact absurd member List.not_mem_nil
      · exact List.mem_singleton.mp member ▸ fresh
  | cons c rest inductionHypothesis =>
      intro piece member
      have empty : ∀ c ∈ ([] : Text), c ∉ delims := fun c absurdity =>
        absurd absurdity List.not_mem_nil
      rw [stringSplit.go] at member
      split at member
      · split at member
        · rcases List.mem_cons.mp member with rfl | member
          · exact fresh
          · exact inductionHypothesis empty piece member
        · exact inductionHypothesis empty piece member
      · rename_i plain
        refine inductionHypothesis (fun other found => ?_) piece member
        rcases List.mem_append.mp found with found | found
        · exact fresh other found
        · exact List.mem_singleton.mp found ▸ plain

/-- Up to the first delimiter stands a piece without delimiters. -/
theorem findFirstOf_spec (str delims : Text) (first : Nat) :
    ∃ piece behind, str.drop first = piece ++ behind ∧
      findFirstOf str delims first = first + piece.length ∧ (∀ c ∈ piece, c ∉ delims) ∧
        ∀ c ∈ behind.head?, c ∈ delims := by
  refine ⟨_, _, List.takeWhile_append_dropWhile.symm, rfl, fun c member => ?_, fun c member => ?_⟩
  · simpa using (List.all_eq_true.mp List.all_takeWhile) c member
  · have head := List.head?_dropWhile_not (fun c => decide (c ∉ delims)) (str.drop first)
    rw [Option.mem_def.mp member] at head
    simpa using head

/-- At the end of the text the loop is over. -/
theorem stringSplitLoop_done (str : Text) (fuel first : Nat) :
    stringSplitLoop str delims withEmpty fuel first str.length = some [] := by
  cases fuel <;> simp [stringSplitLoop]

/-- From a position on, the loop collects the pieces of the rest of the text. -/
theorem stringSplitLoop_eq (str : Text) (fuel first second : Nat) (inside : first ≤ str.length)
    (more : second ≠ str.length ∨ first = str.length) (enough : str.length ≤ first + fuel) :
    stringSplitLoop str delims withEmpty fuel first second =
      some (stringSplit.go delims withEmpty [] (str.drop first)) := by
  induction fuel generalizing first second with
  | zero =>
      obtain rfl : first = str.length := by omega
      simp [stringSplitLoop, stringSplit.go]
  | succ fuel inductionHypothesis =>
      by_cases atEnd : first = str.length
      · subst atEnd
        simp [stringSplitLoop, stringSplit.go]
      have left : str.drop first ≠ [] := by
        rw [ne_eq, List.drop_eq_nil_iff]
        omega
      obtain ⟨piece, behind, whole, next, fresh, head⟩ := findFirstOf_spec str delims first
      have cut : (str.take (first + piece.length)).drop first = piece := by
        rw [List.drop_take, Nat.add_sub_cancel_left, whole, List.take_left]
      have lengths := congrArg List.length whole
      rw [List.length_append, List.length_drop] at lengths
      rw [stringSplitLoop, if_pos ⟨more.resolve_right atEnd, atEnd⟩]
      simp only [next, cut]
      rw [whole, stringSplit_go_append fresh, List.nil_append]
      cases behind with
      | nil =>
          -- the last piece goes up to the end
          rw [List.append_nil] at whole
          have toEnd : first + piece.length = str.length := by
            simp only [List.length_nil] at lengths
            omega
          have some_ : piece ≠ [] := whole ▸ left
          rw [toEnd, stringSplitLoop_done, if_pos (.inl atEnd), stringSplit.go]
          simp [some_]
      | cons c rest =>
          have isDelimiter : c ∈ delims := head c rfl
          rw [List.length_cons] at lengths
          have behind : str.drop (first + piece.length + 1) = rest := by
            rw [Nat.add_assoc, ← List.drop_drop, whole, ← List.drop_drop, List.drop_left]
            rfl
          rw [inductionHypothesis _ _ (by omega) (.inl (by omega)) (by omega), behind,
            stringSplit.go, if_pos isDelimiter]
          have kept_iff : (first ≠ first + piece.length ∨ withEmpty = true) ↔
              (!piece.isEmpty || withEmpty) = true := by
            rw [Bool.or_eq_true, Bool.not_eq_true', List.isEmpty_eq_false_iff,
              ← List.length_pos_iff]
            exact or_congr_left ⟨fun apart => by omega, fun some_ => by omega⟩
          simp only [kept_iff, Option.map_some]
          split <;> rfl

end Pieces

/-- The loop ends with the pieces of the whole text. -/
theorem stringSplitData_eq (str delims : Text) (withEmpty : Bool) :
    stringSplitData str delims withEmpty = some (stringSplit delims withEmpty str) := by
  refine stringSplitLoop_eq str str.length 0 0 (Nat.zero_le _) ?_ (by omega)
  by_cases empty : str.length = 0
  · exact .inr empty.symm
  · exact .inl (Ne.symm empty)

/-- A separator without a NUL is written as it is. -/
theorem stringJoinStream_eq (parts : List Text) {separator : Text}
    (nonNul : ∀ c ∈ separator, c ≠ '\x00') :
    stringJoinStream parts separator = stringJoin parts separator := by
  rw [stringJoinStream, stringJoin, cString_eq_self nonNul]
  split
  · rename_i empty
    subst empty
    simp
  · rfl

/-- The pieces between the delimiters have no delimiter, and joining them with it restores the
text, but for one delimiter at its end. -/
theorem stringJoin_stringSplit_inverse (str : Text) (d : Char) (nonNul : d ≠ '\x00') :
    ∃ segments, stringSplitData str [d] true = some segments ∧
      stringSpilt str [d] true = some segments ∧ (∀ segment ∈ segments, d ∉ segment) ∧
      stringJoinStream segments [d] = withoutTrailing d str := by
  refine ⟨stringSplit [d] true str, stringSplitData_eq str [d] true,
    stringSplitData_eq str [d] true, fun segment member inside => ?_, ?_⟩
  · exact stringSplit_go_fresh (by simp) str segment member d inside List.mem_cons_self
  · have same : replaceChar d d = id := by
      funext c
      rw [replaceChar]
      split
      · rename_i same
        exact same.symm
      · rfl
    rw [stringJoinStream_eq _ (by simpa using nonNul), stringJoin_stringSplit, same, List.map_id]

/-- Delimiters in a row, at the beginning and at the end. -/
theorem stringJoin_stringSplit_inverse_commas :
    ∃ segments, stringSplitData [',', 'a', ',', ',', 'b', ','] [','] true = some segments ∧
      stringSpilt [',', 'a', ',', ',', 'b', ','] [','] true = some segments ∧
      (∀ segment ∈ segments, ',' ∉ segment) ∧
      stringJoinStream segments [','] = withoutTrailing ',' [',', 'a', ',', ',', 'b', ','] :=
  stringJoin_stringSplit_inverse _ ',' (by decide)

end MergeBot
