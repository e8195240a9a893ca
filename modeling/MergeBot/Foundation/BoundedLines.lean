import MergeBot.Foundation.Lines

/-!
# Reading lines with a bounded buffer

`takeLine` reads a line up to its line break, or the part of it that fits into the buffer.
A longer line takes several reads, `readsOf` of its length: `takeLine_of_le` and
`takeLine_of_lt` are the last of them and one before. `endedLines` are the lines of a text as
they stand in it, and `breaksFrom` tells where they begin.
-/

namespace MergeBot.Foundation

universe u

variable {α : Type u} [DecidableEq α]

/-- What is read into a buffer of a given size, up to a line break, and what is left. -/
def takeLine (lineBreak : α) : Nat → List α → List α × List α
  | 0, rest => ([], rest)
  | _ + 1, [] => ([], [])
  | size + 1, c :: rest =>
      if c = lineBreak then ([c], rest)
      else (c :: (takeLine lineBreak size rest).1, (takeLine lineBreak size rest).2)

/-- Number of reads for a line of some length. -/
def readsOf (size length : Nat) : Nat :=
  (length + size - 1) / size

theorem readsOf_of_le {size length : Nat} (positive : 0 < length) (fits : length ≤ size) :
    readsOf size length = 1 := by
  have split : length + size - 1 = size + (length - 1) := by omega
  rw [readsOf, split, Nat.add_div_left _ (by omega), Nat.div_eq_of_lt (by omega)]

theorem readsOf_of_lt {size length : Nat} (positive : 0 < size) (long : size < length) :
    readsOf size length = readsOf size (length - size) + 1 := by
  have split : length + size - 1 = (length - size + size - 1) + size := by omega
  rw [readsOf, readsOf, split, Nat.add_div_right _ positive]

theorem readsOf_pos {size length : Nat} (positive : 0 < size) (nonempty : 0 < length) :
    0 < readsOf size length :=
  Nat.div_pos (by omega) positive

/-- A line in front of a text: it ends with its line break, or it is what is left. -/
def StandsBefore (lineBreak : α) (line rest : List α) : Prop :=
  ∃ body, lineBreak ∉ body ∧ (line = body ++ [lineBreak] ∨ line = body ∧ body ≠ [] ∧ rest = [])

namespace StandsBefore

variable {lineBreak : α} {line rest : List α} (stands : StandsBefore lineBreak line rest)

include stands

omit [DecidableEq α] in
theorem ne_nil : line ≠ [] := by
  obtain ⟨body, -, rfl | ⟨rfl, nonempty, -⟩⟩ := stands
  · simp
  · exact nonempty

omit [DecidableEq α] in
/-- The rest of a line after a read is a line. -/
theorem drop {size : Nat} (long : size < line.length) :
    StandsBefore lineBreak (line.drop size) rest := by
  obtain ⟨body, single, rfl | ⟨rfl, -, atEnd⟩⟩ := stands
  · rw [List.length_append, List.length_singleton] at long
    refine ⟨body.drop size, fun inside => single (List.mem_of_mem_drop inside), .inl ?_⟩
    rw [List.drop_append_of_le_length (by omega)]
  · refine ⟨line.drop size, fun inside => single (List.mem_of_mem_drop inside),
      .inr ⟨rfl, ?_, atEnd⟩⟩
    rwa [Ne, List.drop_eq_nil_iff, Nat.not_le]

/-- A line that fits is read as a whole. -/
theorem takeLine_of_le {size : Nat} (fits : line.length ≤ size) :
    takeLine lineBreak size (line ++ rest) = (line, rest) := by
  obtain ⟨body, single, ends⟩ := stands
  induction body generalizing size line with
  | nil =>
      obtain rfl | ⟨-, impossible, -⟩ := ends
      · obtain ⟨size, rfl⟩ : ∃ smaller, size = smaller + 1 := ⟨size - 1, by simp at fits; omega⟩
        simp [takeLine]
      · exact absurd rfl impossible
  | cons c body inductionHypothesis =>
      rw [List.mem_cons, not_or] at single
      have positive : 0 < size := by
        obtain rfl | ⟨rfl, -, -⟩ := ends <;> simp at fits <;> omega
      obtain ⟨size, rfl⟩ : ∃ smaller, size = smaller + 1 := ⟨size - 1, by omega⟩
      obtain rfl | ⟨rfl, -, rfl⟩ := ends
      · have shorter : (body ++ [lineBreak]).length ≤ size := by simpa using fits
        have later := inductionHypothesis shorter single.2 (.inl rfl)
        simp [takeLine, Ne.symm single.1] at later ⊢
        simp [later]
      · cases body with
        | nil => cases size <;> simp [takeLine, Ne.symm single.1]
        | cons head tail =>
            have shorter : (head :: tail).length ≤ size := by simpa using fits
            have later := inductionHypothesis shorter single.2
              (.inr ⟨rfl, List.cons_ne_nil _ _, rfl⟩)
            simp only [List.append_nil] at later ⊢
            simp [takeLine, Ne.symm single.1, later]

/-- Of a longer line the part is read that fits. -/
theorem takeLine_of_lt {size : Nat} (long : size < line.length) :
    takeLine lineBreak size (line ++ rest) = (line.take size, line.drop size ++ rest) := by
  obtain ⟨body, single, ends⟩ := stands
  have short : size ≤ body.length := by
    obtain rfl | ⟨rfl, -, -⟩ := ends
    · simpa [Nat.lt_succ_iff] using long
    · exact long.le
  obtain ⟨tail, rfl⟩ : ∃ tail, line = body ++ tail := by
    obtain rfl | ⟨rfl, -, -⟩ := ends
    · exact ⟨_, rfl⟩
    · exact ⟨[], (List.append_nil _).symm⟩
  clear ends long
  induction body generalizing size with
  | nil => simp [Nat.le_zero.mp short, takeLine]
  | cons c body inductionHypothesis =>
      rw [List.mem_cons, not_or] at single
      cases size with
      | zero => rfl
      | succ size =>
          have later := inductionHypothesis single.2 (Nat.le_of_succ_le_succ short)
          simp only [List.append_assoc] at later
          simp [takeLine, Ne.symm single.1, later]

end StandsBefore

/-! ## The lines of a text as they stand in it -/

/-- The lines of a text, each with its line break; what follows the last line break is a line
unless it is empty. -/
def endedLines (lineBreak : α) (text : List α) : List (List α) :=
  (splitLines lineBreak text).1.map (· ++ [lineBreak]) ++
    if (splitLines lineBreak text).2 = [] then [] else [(splitLines lineBreak text).2]

/-- The positions behind the line breaks. -/
def breaksFrom (lineBreak : α) : Nat → List α → List Nat
  | _, [] => []
  | position, c :: rest =>
      if c = lineBreak then (position + 1) :: breaksFrom lineBreak (position + 1) rest
      else breaksFrom lineBreak (position + 1) rest

/-- Lines one behind the other, in front of a text. -/
def AllStand (lineBreak : α) : List (List α) → List α → Prop
  | [], _ => True
  | line :: lines, rest =>
      StandsBefore lineBreak line (lines.flatten ++ rest) ∧ AllStand lineBreak lines rest

section Lines

variable {lineBreak : α}

omit [DecidableEq α] in
theorem allStand_append_iff {first second : List (List α)} {rest : List α} :
    AllStand lineBreak (first ++ second) rest ↔
      AllStand lineBreak first (second.flatten ++ rest) ∧ AllStand lineBreak second rest := by
  induction first with
  | nil => simp [AllStand]
  | cons line lines inductionHypothesis =>
      simp only [List.cons_append, AllStand, inductionHypothesis, List.flatten_append,
        List.append_assoc, and_assoc]

omit [DecidableEq α] in
/-- Complete lines stand in front of any text. -/
theorem allStand_map {lines : List (List α)} (single : ∀ line ∈ lines, lineBreak ∉ line)
    (rest : List α) : AllStand lineBreak (lines.map (· ++ [lineBreak])) rest := by
  induction lines with
  | nil => trivial
  | cons line lines inductionHypothesis =>
      obtain ⟨lineSingle, linesSingle⟩ := List.forall_mem_cons.mp single
      exact ⟨⟨line, lineSingle, .inl rfl⟩, inductionHypothesis linesSingle⟩

/-- The lines of a text stand in it one behind the other. -/
theorem allStand_endedLines (text : List α) :
    AllStand lineBreak (endedLines lineBreak text) [] := by
  obtain ⟨single, lastSingle⟩ := splitLines_single lineBreak text
  refine allStand_append_iff.mpr ⟨allStand_map single _, ?_⟩
  split
  · trivial
  · rename_i nonempty
    exact ⟨⟨_, lastSingle, .inr ⟨rfl, nonempty, rfl⟩⟩, trivial⟩

theorem breaksFrom_append (position : Nat) (first second : List α) :
    breaksFrom lineBreak position (first ++ second) =
      breaksFrom lineBreak position first ++
        breaksFrom lineBreak (position + first.length) second := by
  induction first generalizing position with
  | nil => rfl
  | cons c rest inductionHypothesis =>
      simp only [List.cons_append, breaksFrom, inductionHypothesis, List.length_cons,
        Nat.add_assoc, Nat.add_comm 1]
      split <;> rfl

/-- Without a line break there is no position. -/
theorem breaksFrom_single {last : List α} (single : lineBreak ∉ last) (position : Nat) :
    breaksFrom lineBreak position last = [] := by
  induction last generalizing position with
  | nil => rfl
  | cons c rest inductionHypothesis =>
      rw [List.mem_cons, not_or] at single
      rw [breaksFrom, if_neg (Ne.symm single.1), inductionHypothesis single.2]

/-- There is one position for each line break. -/
theorem length_breaksFrom (position : Nat) (text : List α) :
    (breaksFrom lineBreak position text).length = text.count lineBreak := by
  induction text generalizing position with
  | nil => rfl
  | cons c rest inductionHypothesis =>
      rw [breaksFrom, List.count_cons]
      by_cases isBreak : c = lineBreak <;> simp [isBreak, inductionHypothesis]

/-- A line begins where the lines in front of it end. -/
theorem getElem?_breaksFrom {lines : List (List α)} (single : ∀ line ∈ lines, lineBreak ∉ line)
    (last : List α) (position : Nat) {index : Nat} (inside : index ≤ lines.length) :
    (position :: breaksFrom lineBreak position (unlines lineBreak lines ++ last))[index]? =
      some (position + (unlines lineBreak (lines.take index)).length) := by
  induction lines generalizing position index with
  | nil =>
      obtain rfl := Nat.le_zero.mp inside
      rfl
  | cons line lines inductionHypothesis =>
      obtain ⟨lineSingle, linesSingle⟩ := List.forall_mem_cons.mp single
      cases index with
      | zero => rfl
      | succ index =>
          have later := inductionHypothesis linesSingle (position + line.length + 1)
            (Nat.le_of_succ_le_succ inside)
          rw [unlines_cons, List.append_assoc, breaksFrom_append, breaksFrom_single lineSingle,
            List.nil_append, List.cons_append, breaksFrom, if_pos rfl, List.getElem?_cons_succ,
            later, List.take_succ_cons, unlines_cons]
          simp only [List.length_append, List.length_cons]
          congr 1
          omega

omit [DecidableEq α] in
/-- Each complete line has one line break. -/
theorem count_unlines [BEq α] [LawfulBEq α] {lines : List (List α)}
    (single : ∀ line ∈ lines, lineBreak ∉ line) {last : List α} (lastSingle : lineBreak ∉ last) :
    (unlines lineBreak lines ++ last).count lineBreak = lines.length := by
  induction lines with
  | nil => exact List.count_eq_zero.mpr lastSingle
  | cons line lines inductionHypothesis =>
      obtain ⟨lineSingle, linesSingle⟩ := List.forall_mem_cons.mp single
      rw [unlines_cons, List.append_assoc, List.cons_append, List.count_append,
        List.count_eq_zero.mpr lineSingle, List.count_cons_self, inductionHypothesis linesSingle,
        List.length_cons, Nat.zero_add]

/-- There is at most one line more than line breaks. -/
theorem length_endedLines_le (text : List α) :
    (endedLines lineBreak text).length ≤ text.count lineBreak + 1 := by
  obtain ⟨single, lastSingle⟩ := splitLines_single lineBreak text
  have count := count_unlines single lastSingle
  rw [splitLines_text] at count
  rw [endedLines, count, List.length_append, List.length_map]
  split <;> simp

/-- From the position of a line on, the text is that line and those behind it. -/
theorem drop_lineStart (text : List α) {index : Nat} (inside : index ≤ text.count lineBreak) :
    ∃ position, (0 :: breaksFrom lineBreak 0 text)[index]? = some position ∧
      text.drop position = ((endedLines lineBreak text).drop index).flatten := by
  obtain ⟨single, lastSingle⟩ := splitLines_single lineBreak text
  have whole := splitLines_text lineBreak text
  generalize splitted : splitLines lineBreak text = parts at single lastSingle whole
  obtain ⟨lines, last⟩ := parts
  simp only at single lastSingle whole
  rw [← whole, count_unlines single lastSingle] at inside
  have begins := getElem?_breaksFrom single last 0 inside
  rw [whole] at begins
  refine ⟨_, begins, ?_⟩
  have parted : text = unlines lineBreak (lines.take index) ++
      (unlines lineBreak (lines.drop index) ++ last) := by
    rw [← List.append_assoc, ← unlines_append, List.take_append_drop, whole]
  rw [Nat.zero_add]
  conv_lhs => rw [parted, List.drop_left]
  rw [endedLines, splitted, List.drop_append_of_le_length (by simpa using inside),
    List.flatten_append, ← List.map_drop, ← List.flatMap_def, unlines]
  split <;> simp_all

end Lines

end MergeBot.Foundation
