import MergeBot.Conflict.BufferBounds
import MergeBot.Conflict.RoundTrip

/-!
# Looking up a conflict block by its number

`extractConflictBlock` walks over pairs of marks in raw text, while
`constructConflictFile` reads lines. `locators_agree_iff` says for which files both
find the same blocks and the walk stays inside the buffer: each start mark needs an
end mark behind it, no start mark may stand in front of a block and no other end mark
inside of it.
-/

namespace MergeBot

open Foundation

/-! ## The walk over pairs of marks -/

/-- The loop over pairs of marks, from `position` on and with `count` pairs passed.
`some none` means that there are fewer pairs, `none` that a pointer beyond the end of the
buffer is formed. -/
def findPair (buffer : Text) (index : Int) : Nat → Int → Nat → Option (Option (Nat × Nat))
  | 0, _, _ => none
  | fuel + 1, count, position =>
      match Search.findFrom ConflictMark.ours.text buffer position with
      | none => some none
      | some start =>
          -- a failed search returns the end of the buffer, and the marker is skipped there too
          let blockEnd :=
            (Search.findFrom ConflictMark.end_.text buffer (start + 7)).getD buffer.length
          if blockEnd + 7 ≤ buffer.length then
            if count + 1 = index then some (some (start, blockEnd + 7))
            else findPair buffer index fuel (count + 1) (blockEnd + 7)
          else none

/-- Where the pair of marks with a number stands. -/
def extractConflictSpan (index : Int) (buffer : Text) : Option (Option (Nat × Nat)) :=
  findPair buffer index (buffer.length + 1) 0 0

/-- The text from a start mark through the next end mark, the pairs being numbered from one. -/
def extractConflictBlock (index : Int) (buffer : Text) : Option Text :=
  (extractConflictSpan index buffer).map fun
    | none => []
    | some (start, stop) => slice buffer start stop

/-! ## Staying inside the buffer -/

/-- Every start mark has an end mark somewhere behind it. -/
def EndsFollow (buffer : Text) : Prop :=
  ∀ before after, buffer = before ++ ConflictMark.ours.text ++ after →
    ConflictMark.end_.text <:+: after

/-- The two marks have no character in common. -/
theorem marks_apart {c : Char} (inStart : c ∈ ConflictMark.ours.text) :
    c ∉ ConflictMark.end_.text := by
  have apart : ConflictMark.ours.text.all (fun c => decide (c ∉ ConflictMark.end_.text)) := by
    decide
  exact of_decide_eq_true (List.all_eq_true.mp apart c inStart)

/-- One turn of the walk, at a place where a start mark follows. -/
theorem findPair_start (before : Text) {text : Text} {start : Nat} (index count : Int)
    (fuel : Nat) (found : Search.find ConflictMark.ours.text text = some start) :
    findPair (before ++ text) index (fuel + 1) count before.length =
      match Search.find ConflictMark.end_.text (text.drop (start + 7)) with
      | none => none
      | some stop =>
          if count + 1 = index then
            some (some (before.length + start, before.length + (start + 7 + stop + 7)))
          else findPair (before ++ text) index fuel (count + 1)
            (before.length + (start + 7 + stop + 7)) := by
  have fits : start + 7 ≤ text.length := by
    have marked := (Search.prefix_of_find found).length_le
    rw [ConflictMark.length_text, List.length_drop] at marked
    have inside := Search.find_le found
    omega
  have position : start + before.length + 7 = (before ++ text.take (start + 7)).length := by
    rw [List.length_append, List.length_take]
    omega
  have split_eq : before ++ text = before ++ text.take (start + 7) ++ text.drop (start + 7) := by
    rw [List.append_assoc, List.take_append_drop]
  have endSearch : Search.findFrom ConflictMark.end_.text (before ++ text)
      (start + before.length + 7) =
        (Search.find ConflictMark.end_.text (text.drop (start + 7))).map
          (· + (start + before.length + 7)) := by
    rw [position, split_eq, Search.findFrom_append]
  rw [findPair, Search.findFrom_append, found, Option.map_some]
  simp only [endSearch]
  cases stopFound : Search.find ConflictMark.end_.text (text.drop (start + 7)) with
  | none =>
      rw [Option.map_none, Option.getD_none, if_neg (by omega)]
  | some stop =>
      have marked := (Search.prefix_of_find stopFound).length_le
      have inside := Search.find_le stopFound
      simp only [ConflictMark.length_text, List.length_drop] at marked inside
      simp only [Option.map_some, Option.getD_some, List.length_append]
      rw [if_pos (by omega)]
      have same : stop + (start + before.length + 7) + 7 =
          before.length + (start + 7 + stop + 7) := by omega
      rw [same, Nat.add_comm start before.length]

/-- A start mark in front of an end mark is whole. -/
theorem marks_disjoint {text before after : Text} {stop : Nat}
    (startHere : text = before ++ ConflictMark.ours.text ++ after)
    (stopHere : ConflictMark.end_.text <+: text.drop stop) :
    before.length + 7 ≤ stop ∨ stop + 7 ≤ before.length := by
  by_contra overlap
  obtain ⟨rest, stop_eq⟩ := stopHere
  -- a character that would belong to both marks
  obtain ⟨place, place_eq⟩ : ∃ place, place = max before.length stop := ⟨_, rfl⟩
  have inStart : text[place]? = ConflictMark.ours.text[place - before.length]? := by
    rw [startHere, List.append_assoc, List.getElem?_append_right (by omega),
      List.getElem?_append_left (by rw [ConflictMark.length_text]; omega)]
  have inEnd : text[place]? = ConflictMark.end_.text[place - stop]? := by
    have shifted : text[place]? = (text.drop stop)[place - stop]? := by
      rw [List.getElem?_drop]
      congr 1
      omega
    rw [shifted, ← stop_eq, List.getElem?_append_left (by rw [ConflictMark.length_text]; omega)]
  have bound : place - before.length < ConflictMark.ours.text.length := by
    rw [ConflictMark.length_text]
    omega
  rw [List.getElem?_eq_getElem bound] at inStart
  exact marks_apart (List.getElem_mem bound) (List.mem_of_getElem? (inEnd.symm.trans inStart))

/-- A walk that has passed the front of a text goes on in what is left. -/
theorem findPair_passed (before : Text) {text : Text} {passed : Nat}
    (inside : passed ≤ text.length) (index : Int) (fuel : Nat) (count : Int) :
    findPair (before ++ text) index fuel count (before.length + passed) =
      findPair (before ++ text.take passed ++ text.drop passed) index fuel count
        (before ++ text.take passed).length := by
  rw [List.append_assoc, List.take_append_drop, List.length_append, List.length_take,
    Nat.min_eq_left inside]

/-- What follows somewhere keeps its end marks. -/
theorem EndsFollow.drop {text : Text} (follow : EndsFollow text) (skipped : Nat) :
    EndsFollow (text.drop skipped) := by
  intro before after rest_eq
  apply follow (text.take skipped ++ before) after
  rw [List.append_assoc, List.append_assoc, ← List.append_assoc before, ← rest_eq,
    List.take_append_drop]

/-- A walk that passes all pairs inside the buffer shows that each start mark has its end. -/
theorem endsFollow_of_findPair {fuel : Nat} (before : Text) {text : Text} {count : Int}
    (counted : 0 ≤ count)
    (inside : findPair (before ++ text) 0 fuel count before.length ≠ none) : EndsFollow text := by
  induction fuel generalizing before text count with
  | zero => exact absurd rfl inside
  | succ fuel inductionHypothesis =>
      cases found : Search.find ConflictMark.ours.text text with
      | none =>
          intro front after text_eq
          exact absurd ⟨front, after, text_eq.symm⟩ (Search.find_eq_none_iff.mp found)
      | some start =>
          rw [findPair_start _ _ _ _ found] at inside
          cases stopFound : Search.find ConflictMark.end_.text (text.drop (start + 7)) with
          | none => simp [stopFound] at inside
          | some stop =>
              have stopHere := Search.prefix_of_find stopFound
              have stopInside := Search.find_le stopFound
              rw [List.drop_drop] at stopHere
              have bound := stopHere.length_le
              simp only [ConflictMark.length_text, List.length_drop] at bound stopInside
              have other : ¬ count + 1 = 0 := by omega
              simp only [stopFound, other, if_false] at inside
              rw [findPair_passed before (by omega)] at inside
              have later := inductionHypothesis _ (by omega) inside
              intro front after text_eq
              rcases marks_disjoint text_eq stopHere with earlier | behind
              · have after_eq : after = text.drop (front.length + 7) := by
                  rw [text_eq, List.drop_left' (by simp)]
                have isLater : after.drop (start + 7 + stop - (front.length + 7)) =
                    text.drop (start + 7 + stop) := by
                  rw [after_eq, List.drop_drop]
                  congr 1
                  omega
                exact (isLater ▸ stopHere).isInfix.trans (List.drop_suffix _ after).isInfix
              · apply later (front.drop (start + 7 + stop + 7)) after
                rw [text_eq, List.append_assoc, List.drop_append_of_le_length behind,
                  List.append_assoc]

/-- When each start mark has its end, the walk stays inside the buffer. -/
theorem findPair_inside {fuel : Nat} (before : Text) {text : Text} (index count : Int)
    (follow : EndsFollow text) (enough : text.length < fuel) :
    findPair (before ++ text) index fuel count before.length ≠ none := by
  induction fuel generalizing before text count with
  | zero => omega
  | succ fuel inductionHypothesis =>
      cases found : Search.find ConflictMark.ours.text text with
      | none => simp [findPair, Search.findFrom_append, found]
      | some start =>
          obtain ⟨after, startHere⟩ := Search.prefix_of_find found
          have text_eq : text = text.take start ++ ConflictMark.ours.text ++ after := by
            rw [List.append_assoc, startHere, List.take_append_drop]
          have after_eq : text.drop (start + 7) = after := by
            rw [← List.drop_drop, ← startHere, List.drop_left' (by simp)]
          rw [findPair_start _ _ _ _ found, after_eq]
          cases stopFound : Search.find ConflictMark.end_.text after with
          | none => exact absurd (follow _ after text_eq) (Search.find_eq_none_iff.mp stopFound)
          | some stop =>
              simp only
              split
              · simp
              · have bound := (Search.prefix_of_find stopFound).length_le
                have stopInside := Search.find_le stopFound
                have startInside := Search.find_le found
                have afterLength := congrArg List.length after_eq
                simp only [ConflictMark.length_text, List.length_drop] at bound afterLength
                rw [findPair_passed before (by omega)]
                apply inductionHypothesis _ _ (follow.drop _)
                rw [List.length_drop]
                omega

/-- The walk stays inside the buffer for every number exactly when each start mark has an
end mark behind it. -/
theorem extractConflictBlock_inside_iff (buffer : Text) :
    (∀ index, extractConflictBlock index buffer ≠ none) ↔ EndsFollow buffer := by
  constructor
  · intro inside
    have all := inside 0
    rw [extractConflictBlock, ne_eq, Option.map_eq_none_iff] at all
    exact endsFollow_of_findPair [] (Int.le_refl 0) all
  · intro follow index outside
    rw [extractConflictBlock, Option.map_eq_none_iff] at outside
    exact findPair_inside [] index 0 follow (Nat.lt_succ_self _) outside

/-! ## Finding the blocks of the line scanner -/

/-- A range runs from the start marker of a block through the marker of its last line. -/
def RunsThrough (range conflictRange : Text) : Prop :=
  ∃ (lines : List Text) (label : Text), '\n' ∉ label ∧ ConflictMark.ours.text <+: range ∧
    range = unlines '\n' lines ++ ConflictMark.end_.text ∧
    conflictRange = range ++ label ++ ['\n']

/-- The walk finds a block at its place. -/
def Located (buffer : Text) (block : ConflictBlock) (span : Nat × Nat) : Prop :=
  ∃ stop range, extractConflictSpan block.index buffer = some (some (span.1, stop)) ∧
    extractConflictBlock block.index buffer = some range ∧ RunsThrough range block.conflictRange

/-- For each block the lines since the end marker of the one before it, and those between its
own markers; what stands on a line behind a marker belongs to them. -/
def blockGaps : Option (List Text) → List Text → List Text → List (List Text × List Text)
  | _, _, [] => []
  | none, gap, line :: rest =>
      if ConflictMark.ours.Begins line then blockGaps (some [line.drop 7]) gap rest
      else blockGaps none (gap ++ [line]) rest
  | some body, gap, line :: rest =>
      if ConflictMark.end_.Begins line then
        (gap, body) :: blockGaps none [line.drop 7] rest
      else blockGaps (some (body ++ [line])) gap rest

/-- No start mark stands in front of a block and no other end mark inside of it. -/
def ClearGaps (gaps : List (List Text × List Text)) : Prop :=
  ∀ gap ∈ gaps, (∀ line ∈ gap.1, ¬ ConflictMark.ours.text <:+: line) ∧
    ∀ line ∈ gap.2, ¬ ConflictMark.end_.text <:+: line

/-- A marker line is found exactly when no line before it contains the mark. -/
theorem find_marker_iff {mark : ConflictMark} (lines : List Text) {stop : Text}
    (begins : mark.Begins stop) (after : Text) :
    ∃ position, Search.find mark.text (unlines '\n' lines ++ (stop ++ after)) = some position ∧
      (position = (unlines '\n' lines).length ↔ ∀ line ∈ lines, ¬ mark.text <:+: line) := by
  by_cases clear : ∀ line ∈ lines, ¬ mark.text <:+: line
  · refine ⟨(unlines '\n' lines).length, ?_, by simpa using clear⟩
    rw [find_unlines mark.single_text mark.text_ne_nil clear,
      Search.find_of_prefix (begins.trans (List.prefix_append stop after)), Option.map_some,
      Nat.zero_add]
  · have within : mark.text <:+: unlines '\n' lines := by
      rw [infix_unlines_iff mark.single_text mark.text_ne_nil]
      simpa using clear
    obtain ⟨position, found⟩ := Option.ne_none_iff_exists'.mp fun absent =>
      Search.find_eq_none_iff.mp absent within
    have marked := (Search.prefix_of_find found).length_le
    rw [mark.length_text, List.length_drop] at marked
    refine ⟨position, Search.find_append_of_some found _, ?_⟩
    simp only [clear, iff_false]
    omega

/-- The lines in front of the last one are determined by the text. -/
theorem lines_before_unique {first second label other : Text} (firstWhole : WholeLines '\n' first)
    (secondWhole : WholeLines '\n' second) (single : '\n' ∉ label) (otherSingle : '\n' ∉ other)
    (same : first ++ label = second ++ other) : first = second := by
  have extends_nothing : ∀ {whole more rest : Text}, WholeLines '\n' (whole ++ more) →
      '\n' ∉ more ++ rest → more = [] := by
    intro whole more rest ends fresh
    by_contra nonempty
    have last_eq := ends (more.getLast nonempty) (by
      rw [List.getLast?_append_of_ne_nil _ nonempty, List.getLast?_eq_some_getLast nonempty]
      rfl)
    exact fresh (List.mem_append_left _ (last_eq ▸ List.getLast_mem nonempty))
  rcases List.append_eq_append_iff.mp same with ⟨more, rfl, rfl⟩ | ⟨more, rfl, rfl⟩
  · rw [extends_nothing secondWhole single, List.append_nil]
  · rw [extends_nothing firstWhole otherSingle, List.append_nil]

/-- A range through the end marker is as long as the lines before the last one and a mark. -/
theorem RunsThrough.length_eq {range : Text} {lines : List Text} {label : Text}
    (single : '\n' ∉ label)
    (runs : RunsThrough range
      (unlines '\n' lines ++ ConflictMark.end_.text ++ label ++ ['\n'])) :
    range.length = (unlines '\n' lines).length + 7 := by
  obtain ⟨others, otherLabel, otherSingle, -, rfl, same⟩ := runs
  have dropLast := List.append_cancel_right same
  rw [List.append_assoc, List.append_assoc] at dropLast
  have marked : ∀ rest : Text, '\n' ∉ rest → '\n' ∉ ConflictMark.end_.text ++ rest :=
    fun rest fresh member => (List.mem_append.mp member).elim ConflictMark.end_.single_text fresh
  have unique := lines_before_unique (wholeLines_unlines lines) (wholeLines_unlines others)
    (marked _ single) (marked _ otherSingle) dropLast
  rw [List.length_append, ConflictMark.length_text, unique]

/-- The walk from a place finds a block of the line scanner at its place. -/
def FoundAt (buffer : Text) (fuel : Nat) (count : Int) (position : Nat) (index : Int)
    (span : Nat × Nat) : Prop :=
  ∃ stop, findPair buffer index fuel count position = some (some (span.1, stop)) ∧
    RunsThrough (slice buffer span.1 stop) (slice buffer span.1 span.2)

/-- The walk from a place finds all blocks that follow. -/
def AllFound (buffer : Text) (fuel : Nat) (count : Int) (position : Nat)
    (spans : List (Nat × Nat)) : Prop :=
  ∀ (place : Nat) (span : Nat × Nat), spans[place]? = some span →
    FoundAt buffer fuel count position (count + place + 1) span

/-- When the walk passes a pair, the first block has to be at the pair and the others behind
it. -/
theorem allFound_cons_iff {buffer : Text} {fuel position start stop : Nat} {count : Int}
    (turn : ∀ index, findPair buffer index (fuel + 1) count position =
      if count + 1 = index then some (some (start, stop))
      else findPair buffer index fuel (count + 1) stop)
    (span : Nat × Nat) (rest : List (Nat × Nat)) :
    AllFound buffer (fuel + 1) count position (span :: rest) ↔
      (start = span.1 ∧ RunsThrough (slice buffer span.1 stop) (slice buffer span.1 span.2)) ∧
        AllFound buffer fuel (count + 1) stop rest := by
  have atPair : FoundAt buffer (fuel + 1) count position (count + 1) span ↔
      start = span.1 ∧ RunsThrough (slice buffer span.1 stop) (slice buffer span.1 span.2) := by
    rw [FoundAt, turn, if_pos rfl]
    constructor
    · rintro ⟨other, same, runs⟩
      simp only [Option.some.injEq, Prod.mk.injEq] at same
      obtain ⟨start_eq, rfl⟩ := same
      exact ⟨start_eq, runs⟩
    · rintro ⟨rfl, runs⟩
      exact ⟨stop, rfl, runs⟩
  have behind (place : Nat) (next : Nat × Nat) :
      FoundAt buffer (fuel + 1) count position (count + (place + 1 : Nat) + 1) next ↔
        FoundAt buffer fuel (count + 1) stop (count + 1 + place + 1) next := by
    have index_eq : count + (place + 1 : Nat) + 1 = count + 1 + place + 1 := by omega
    rw [index_eq, FoundAt, turn, if_neg (by omega), FoundAt]
  constructor
  · intro all
    refine ⟨atPair.mp (by simpa using all 0 span rfl), fun place next found => ?_⟩
    exact (behind place next).mp (all (place + 1) next found)
  · rintro ⟨first, later⟩ place next found
    cases place with
    | zero =>
        obtain rfl : span = next := by simpa using found
        simpa using atPair.mpr first
    | succ place => exact (behind place next).mpr (later place next found)

/-! ## The blocks of the line scanner one by one -/

/-- Lines without a start marker belong to the gap. -/
theorem blockGaps_gap {mid : List Text} (clear : ∀ line ∈ mid, ¬ ConflictMark.ours.Begins line)
    (gap rest : List Text) :
    blockGaps none gap (mid ++ rest) = blockGaps none (gap ++ mid) rest := by
  induction mid generalizing gap with
  | nil => simp
  | cons line mid inductionHypothesis =>
      have later := inductionHypothesis fun other member =>
        clear other (List.mem_cons_of_mem line member)
      simp [blockGaps, clear line List.mem_cons_self, later]

/-- Lines without an end marker belong to the block. -/
theorem blockGaps_body {body : List Text} (clear : ∀ line ∈ body, ¬ ConflictMark.end_.Begins line)
    (before gap rest : List Text) :
    blockGaps (some before) gap (body ++ rest) = blockGaps (some (before ++ body)) gap rest := by
  induction body generalizing before with
  | nil => simp
  | cons line body inductionHypothesis =>
      have later := inductionHypothesis fun other member =>
        clear other (List.mem_cons_of_mem line member)
      simp [blockGaps, clear line List.mem_cons_self, later]

/-- Lines without a start marker have no span. -/
theorem scanSpans_gap {mid : List Text} (clear : ∀ line ∈ mid, ¬ ConflictMark.ours.Begins line)
    (position : Nat) (rest : List Text) :
    scanSpans lineSize none position (mid ++ rest) =
      scanSpans lineSize none (position + (unlines '\n' mid).length) rest := by
  induction mid generalizing position with
  | nil => simp
  | cons line mid inductionHypothesis =>
      have later := inductionHypothesis fun other member =>
        clear other (List.mem_cons_of_mem line member)
      have length_eq : position + lineSize line + (unlines '\n' mid).length =
          position + (unlines '\n' (line :: mid)).length := by
        simp only [lineSize, unlines_cons, List.length_append, List.length_cons]
        omega
      rw [List.cons_append, scanSpans, if_neg (clear line List.mem_cons_self), later, length_eq]

/-- A marker line is its marker and a label. -/
theorem begins_split {mark : ConflictMark} {line : Text} (begins : mark.Begins line) :
    mark.text ++ line.drop 7 = line := by
  obtain ⟨label, rfl⟩ := begins
  rw [List.drop_left' mark.length_text]

/-- Lines have a first block, or the line scanner finds none in them. -/
theorem first_block (lines : List Text) :
    (∀ gap position, blockGaps none gap lines = [] ∧ scanSpans lineSize none position lines = []) ∨
      ∃ mid start body stop after, lines = mid ++ start :: (body ++ stop :: after) ∧
        (∀ line ∈ mid, ¬ ConflictMark.ours.Begins line) ∧ ConflictMark.ours.Begins start ∧
        (∀ line ∈ body, ¬ ConflictMark.end_.Begins line) ∧ ConflictMark.end_.Begins stop := by
  rcases first_or_none (p := ConflictMark.ours.Begins) lines with
    clear | ⟨mid, start, rest, rfl, starts, clear⟩
  · left
    intro gap position
    have gapEq := blockGaps_gap clear gap []
    have spanEq := scanSpans_gap clear position []
    rw [List.append_nil] at gapEq spanEq
    rw [gapEq, spanEq]
    exact ⟨rfl, rfl⟩
  · rcases first_or_none (p := ConflictMark.end_.Begins) rest with
      unclosed | ⟨body, stop, after, rfl, stops, bodyClear⟩
    · left
      intro gap position
      have bodyEq := blockGaps_body unclosed [start.drop 7] (gap ++ mid) []
      rw [List.append_nil] at bodyEq
      rw [blockGaps_gap clear, scanSpans_gap clear, blockGaps, if_pos starts, bodyEq, scanSpans,
        if_pos starts, scanSpans_open, splitBlock_eq_none_iff.mpr unclosed]
      exact ⟨rfl, rfl⟩
    · exact .inr ⟨mid, start, body, stop, after, rfl, clear, starts, bodyClear, stops⟩

section Block

variable {mid body after : List Text} {start stop : Text}
  (midClear : ∀ line ∈ mid, ¬ ConflictMark.ours.Begins line)
  (starts : ConflictMark.ours.Begins start)
  (bodyClear : ∀ line ∈ body, ¬ ConflictMark.end_.Begins line)
  (stops : ConflictMark.end_.Begins stop)

include midClear starts bodyClear stops

/-- The gaps of the first block, and those behind it. -/
theorem blockGaps_block (gap : List Text) :
    blockGaps none gap (mid ++ start :: (body ++ stop :: after)) =
      (gap ++ mid, start.drop 7 :: body) :: blockGaps none [stop.drop 7] after := by
  rw [blockGaps_gap midClear, blockGaps, if_pos starts, blockGaps_body bodyClear, blockGaps,
    if_pos stops]
  rfl

/-- The span of the first block, and those behind it. -/
theorem scanSpans_block (position : Nat) :
    scanSpans lineSize none position (mid ++ start :: (body ++ stop :: after)) =
      (position + (unlines '\n' mid).length,
          position + (unlines '\n' (mid ++ start :: (body ++ [stop]))).length) ::
        scanSpans lineSize none
          (position + (unlines '\n' (mid ++ start :: (body ++ [stop]))).length) after := by
  have length_eq : position + (unlines '\n' mid).length + lineSize start +
      totalSize lineSize (body ++ [stop]) =
        position + (unlines '\n' (mid ++ start :: (body ++ [stop]))).length := by
    rw [totalSize_lineSize]
    simp only [lineSize, unlines_append, unlines_cons, List.length_append, List.length_cons]
    omega
  rw [scanSpans_gap midClear, scanSpans, if_pos starts, scanSpans_open,
    splitBlock_body bodyClear stops, ← length_eq]

end Block

/-- The start marker of a block and the lines behind it. -/
theorem length_unlines_start {mark : ConflictMark} {start : Text} (starts : mark.Begins start)
    (body : List Text) : (unlines '\n' (start :: body)).length =
      7 + (unlines '\n' (start.drop 7 :: body)).length := by
  conv_lhs => rw [← begins_split starts]
  simp only [unlines_cons, List.length_append, ConflictMark.length_text, List.length_cons]
  omega

/-- Where a marked block stands in a buffer: `front` is in front of it, `rest` behind. -/
theorem runsThrough_slice_iff {front rest label : Text} {start : Text} {body : List Text}
    {stopPos : Nat} (starts : ConflictMark.ours.Begins start) (single : '\n' ∉ label)
    (inside : 7 + stopPos + 7 ≤
      (unlines '\n' (start :: body) ++ ConflictMark.end_.text ++ label ++ ['\n'] ++ rest).length) :
    RunsThrough
        (slice (front ++ (unlines '\n' (start :: body) ++ ConflictMark.end_.text ++ label ++
          ['\n'] ++ rest)) front.length (front.length + (7 + stopPos + 7)))
        (slice (front ++ (unlines '\n' (start :: body) ++ ConflictMark.end_.text ++ label ++
          ['\n'] ++ rest)) front.length (front.length +
            (unlines '\n' (start :: body) ++ ConflictMark.end_.text ++ label ++ ['\n']).length)) ↔
      stopPos = (unlines '\n' (start.drop 7 :: body)).length := by
  have bodyLength := length_unlines_start starts body
  have block_eq : slice (front ++ (unlines '\n' (start :: body) ++ ConflictMark.end_.text ++
      label ++ ['\n'] ++ rest)) front.length (front.length +
        (unlines '\n' (start :: body) ++ ConflictMark.end_.text ++ label ++ ['\n']).length) =
      unlines '\n' (start :: body) ++ ConflictMark.end_.text ++ label ++ ['\n'] := by
    rw [← List.append_assoc front, slice_line]
  rw [block_eq]
  constructor
  · intro runs
    have length_eq := runs.length_eq single
    rw [slice, List.drop_left, List.length_take, Nat.add_sub_cancel_left, Nat.min_eq_left inside,
      bodyLength] at length_eq
    omega
  · rintro rfl
    have stop_eq : front.length + (7 + (unlines '\n' (start.drop 7 :: body)).length + 7) =
        front.length + (unlines '\n' (start :: body) ++ ConflictMark.end_.text).length := by
      rw [List.length_append, bodyLength, ConflictMark.length_text]
    have regroup : front ++ (unlines '\n' (start :: body) ++ ConflictMark.end_.text ++ label ++
        ['\n'] ++ rest) =
          front ++ (unlines '\n' (start :: body) ++ ConflictMark.end_.text) ++
            (label ++ ['\n'] ++ rest) := by simp
    rw [stop_eq, regroup, slice_line]
    refine ⟨start :: body, label, single, ?_, rfl, rfl⟩
    rw [unlines_cons, List.append_assoc]
    exact starts.trans (List.prefix_append start _)

section FirstPair

variable {start stop : Text} (starts : ConflictMark.ours.Begins start)
  (stops : ConflictMark.end_.Begins stop) (mid body after : List Text) (last : Text)

include starts in
/-- What follows the start mark of a block. -/
theorem drop_start :
    (unlines '\n' (mid ++ start :: (body ++ stop :: after)) ++ last).drop
        ((unlines '\n' mid).length + 7) =
      unlines '\n' (start.drop 7 :: body) ++ (stop ++ '\n' :: (unlines '\n' after ++ last)) := by
  have text_eq : unlines '\n' (mid ++ start :: (body ++ stop :: after)) ++ last =
      unlines '\n' mid ++ (start ++ '\n' :: (unlines '\n' (body ++ stop :: after) ++ last)) := by
    simp
  have long : 7 ≤ start.length := by
    rw [← begins_split starts, List.length_append, ConflictMark.length_text]
    omega
  rw [text_eq, ← List.drop_drop, List.drop_left, List.drop_append_of_le_length long]
  simp

include starts stops in
/-- The walk finds a pair of marks, and it is that of the block if the gap and the body are
clear. -/
theorem first_pair : ∃ startPos stopPos,
    Search.find ConflictMark.ours.text
        (unlines '\n' (mid ++ start :: (body ++ stop :: after)) ++ last) = some startPos ∧
      Search.find ConflictMark.end_.text
          ((unlines '\n' (mid ++ start :: (body ++ stop :: after)) ++ last).drop
            ((unlines '\n' mid).length + 7)) = some stopPos ∧
        (startPos = (unlines '\n' mid).length ↔
          ∀ line ∈ mid, ¬ ConflictMark.ours.text <:+: line) ∧
          (stopPos = (unlines '\n' (start.drop 7 :: body)).length ↔
            ∀ line ∈ start.drop 7 :: body, ¬ ConflictMark.end_.text <:+: line) := by
  obtain ⟨startPos, startFound, startClear⟩ := find_marker_iff mid starts
    ('\n' :: (unlines '\n' (body ++ stop :: after) ++ last))
  obtain ⟨stopPos, stopFound, stopClear⟩ := find_marker_iff (start.drop 7 :: body) stops
    ('\n' :: (unlines '\n' after ++ last))
  refine ⟨startPos, stopPos, ?_, ?_, startClear, stopClear⟩
  · rw [← startFound]
    simp
  · rw [drop_start starts, stopFound]

include stops in
/-- The text of a block, with the label of its end marker. -/
theorem block_text : unlines '\n' (start :: body) ++ ConflictMark.end_.text ++ stop.drop 7 ++
    ['\n'] = unlines '\n' (start :: (body ++ [stop])) := by
  rw [List.append_assoc _ _ (stop.drop 7), begins_split stops]
  simp

include stops in
/-- The text of a block, between what is in front of it and what follows. -/
theorem block_split : unlines '\n' (mid ++ start :: (body ++ stop :: after)) ++ last =
    unlines '\n' mid ++ (unlines '\n' (start :: body) ++ ConflictMark.end_.text ++ stop.drop 7 ++
      ['\n'] ++ (unlines '\n' after ++ last)) := by
  rw [block_text stops]
  simp

include stops in
/-- The pair stands inside the text. -/
theorem pair_inside {stopPos : Nat}
    (stopFound : Search.find ConflictMark.end_.text
      ((unlines '\n' (mid ++ start :: (body ++ stop :: after)) ++ last).drop
        ((unlines '\n' mid).length + 7)) = some stopPos) :
    7 + stopPos + 7 ≤ (unlines '\n' (start :: body) ++ ConflictMark.end_.text ++ stop.drop 7 ++
      ['\n'] ++ (unlines '\n' after ++ last)).length := by
  have bound := (Search.prefix_of_find stopFound).length_le
  have within := Search.find_le stopFound
  have whole := congrArg List.length (@block_split start stop stops mid body after last)
  have parted := whole.trans List.length_append
  simp only [ConflictMark.length_text, List.length_drop] at bound within
  omega

include starts in
/-- Behind a pair the walk goes on with the label of the end marker, which is the first line of
the next gap. -/
theorem allFound_behind_iff (front label : Text) (fuel : Nat) (count : Int) :
    AllFound (front ++ (unlines '\n' (start :: body) ++ ConflictMark.end_.text ++ label ++ ['\n'] ++
          (unlines '\n' after ++ last))) fuel count
        (front.length + (7 + (unlines '\n' (start.drop 7 :: body)).length + 7))
        (scanSpans lineSize none (front.length + (unlines '\n' (start :: body) ++
          ConflictMark.end_.text ++ label ++ ['\n']).length) after) ↔
      AllFound (front ++ (unlines '\n' (start :: body) ++ ConflictMark.end_.text) ++
          (unlines '\n' ([label] ++ after) ++ last)) fuel count
        (front ++ (unlines '\n' (start :: body) ++ ConflictMark.end_.text)).length
        (scanSpans lineSize none
          ((front ++ (unlines '\n' (start :: body) ++ ConflictMark.end_.text)).length +
            (unlines '\n' [label]).length) after) := by
  have buffer_eq : front ++ (unlines '\n' (start :: body) ++ ConflictMark.end_.text) ++
      (unlines '\n' ([label] ++ after) ++ last) =
        front ++ (unlines '\n' (start :: body) ++ ConflictMark.end_.text ++ label ++ ['\n'] ++
          (unlines '\n' after ++ last)) := by
    simp
  have position_eq : (front ++ (unlines '\n' (start :: body) ++ ConflictMark.end_.text)).length =
      front.length + (7 + (unlines '\n' (start.drop 7 :: body)).length + 7) := by
    simp only [List.length_append, length_unlines_start starts body, ConflictMark.length_text]
  have span_eq : (front ++ (unlines '\n' (start :: body) ++ ConflictMark.end_.text)).length +
      (unlines '\n' [label]).length = front.length + (unlines '\n' (start :: body) ++
        ConflictMark.end_.text ++ label ++ ['\n']).length := by
    simp only [List.length_append, unlines_cons, unlines_nil, List.length_cons, List.length_nil]
    omega
  rw [buffer_eq, span_eq, position_eq]

end FirstPair

/-- A walk whose next pair does not start at a block does not find the block. -/
theorem not_allFound_of_apart (before : Text) {text : Text} {start : Nat} (fuel : Nat)
    (count : Int) (found : Search.find ConflictMark.ours.text text = some start)
    {span : Nat × Nat} (apart : before.length + start ≠ span.1) (rest : List (Nat × Nat)) :
    ¬ AllFound (before ++ text) (fuel + 1) count before.length (span :: rest) := by
  intro all
  obtain ⟨foundStop, run, -⟩ := all 0 span rfl
  rw [findPair_start before _ count fuel found] at run
  split at run
  · simp at run
  · simp only [Int.natCast_zero, Int.add_zero, if_true, Option.some.injEq, Prod.mk.injEq] at run
    exact absurd run.1 apart

/-- The walk finds the blocks of the line scanner exactly when their gaps are clear. The
induction is on the lines that are left; `gap` has those that the walk has not passed yet. -/
theorem allFound_iff (last : Text) (bound : Nat) (lines gap : List Text) (fuel : Nat)
    (before : Text) (count : Int) (short : lines.length < bound)
    (single : ∀ line ∈ lines, '\n' ∉ line)
    (enough : (unlines '\n' (gap ++ lines) ++ last).length < fuel) :
    AllFound (before ++ (unlines '\n' (gap ++ lines) ++ last)) fuel count before.length
        (scanSpans lineSize none (before.length + (unlines '\n' gap).length) lines) ↔
      ClearGaps (blockGaps none gap lines) := by
  induction bound generalizing lines gap fuel before count with
  | zero => omega
  | succ bound inductionHypothesis =>
  rcases first_block lines with
    empty | ⟨mid, start, body, stop, after, rfl, midClear, starts, bodyClear, stops⟩
  · rw [(empty gap 0).1, (empty gap _).2]
    simp [AllFound, ClearGaps]
  obtain ⟨fuel, rfl⟩ : ∃ less, fuel = less + 1 := ⟨fuel - 1, by omega⟩
  rw [blockGaps_block midClear starts bodyClear stops,
    scanSpans_block midClear starts bodyClear stops]
  have gapLength : before.length + (unlines '\n' gap).length + (unlines '\n' mid).length =
      (before ++ unlines '\n' (gap ++ mid)).length := by
    simp only [unlines_append, List.length_append, Nat.add_assoc]
  have endLength : before.length + (unlines '\n' gap).length +
      (unlines '\n' (mid ++ start :: (body ++ [stop]))).length =
        (before ++ unlines '\n' (gap ++ mid)).length + (unlines '\n' (start :: body) ++
          ConflictMark.end_.text ++ stop.drop 7 ++ ['\n']).length := by
    rw [block_text stops]
    simp only [unlines_append, List.length_append]
    omega
  rw [gapLength, endLength, ← List.append_assoc gap mid]
  rw [← List.append_assoc gap mid] at enough
  obtain ⟨startPos, stopPos, startFound, stopFound, startClear, stopClear⟩ :=
    first_pair starts stops (gap ++ mid) body after last
  have turn (index : Int) := findPair_start before index count fuel startFound
  have cleared : ClearGaps ((gap ++ mid, start.drop 7 :: body) ::
      blockGaps none [stop.drop 7] after) ↔
      (startPos = (unlines '\n' (gap ++ mid)).length ∧
        stopPos = (unlines '\n' (start.drop 7 :: body)).length) ∧
        ClearGaps (blockGaps none [stop.drop 7] after) := by
    rw [startClear, stopClear, ClearGaps, List.forall_mem_cons]
    rfl
  rw [cleared]
  by_cases aligned : startPos = (unlines '\n' (gap ++ mid)).length
  · subst aligned
    rw [stopFound] at turn
    have stop_eq : before.length + ((unlines '\n' (gap ++ mid)).length + 7 + stopPos + 7) =
        (before ++ unlines '\n' (gap ++ mid)).length + (7 + stopPos + 7) := by
      rw [List.length_append]
      omega
    have labelSingle : '\n' ∉ stop.drop 7 := fun member =>
      single stop (by simp) (List.mem_of_mem_drop member)
    have inside := pair_inside stops (gap ++ mid) body after last stopFound
    have whole := @block_split start stop stops (gap ++ mid) body after last
    rw [allFound_cons_iff turn, ← List.length_append, stop_eq, whole,
      ← List.append_assoc before, runsThrough_slice_iff starts labelSingle inside]
    simp only [true_and]
    refine and_congr_right fun bodyAligned => ?_
    subst bodyAligned
    rw [allFound_behind_iff starts]
    refine inductionHypothesis after [stop.drop 7] fuel _ (count + 1) ?_
      (fun line member => single line (by simp [member])) ?_
    · simp only [List.length_append, List.length_cons] at short
      omega
    · have fewer := congrArg List.length whole
      simp only [List.length_append, unlines_append, unlines_cons, unlines_nil,
        List.length_cons, List.length_nil] at fewer enough ⊢
      omega
  · refine iff_of_false (not_allFound_of_apart before fuel count startFound ?_ _)
      fun aligns => aligned aligns.1.1
    rw [List.length_append]
    exact fun same => aligned (Nat.add_left_cancel same)

/-- The walk finds every block of the line scanner at its place. -/
def LocatorsAgree (buffer : Text) : Prop :=
  ∀ blocks spans, constructConflictFile buffer = some blocks →
    constructConflictSpans buffer = some spans →
      ∀ (place : Nat) block span, blocks[place]? = some block → spans[place]? = some span →
        Located buffer block span

/-- A start marker line is open at the end of a file that does not end with a line break. -/
def CutOff (buffer : Text) : Prop :=
  unterminatedLine buffer ≠ [] ∧ Unclosed (completeLines buffer)

/-- The block at a span has the number and the text of its span. -/
theorem blocksAt_getElem (buffer : Text) (index place : Nat) (spans : List (Nat × Nat)) :
    (blocksAt buffer index spans)[place]? = spans[place]?.map fun span =>
      { index := index + place + 1, conflictRange := slice buffer span.1 span.2 } := by
  induction spans generalizing index place with
  | nil => rfl
  | cons span rest inductionHypothesis =>
      cases place with
      | zero => rfl
      | succ place =>
          simp only [blocksAt, List.getElem?_cons_succ, inductionHypothesis]
          congr! 3
          omega

/-- The walk from the beginning finds a block at its place. -/
theorem located_iff (buffer : Text) (place : Nat) (span : Nat × Nat) :
    Located buffer { index := 0 + place + 1, conflictRange := slice buffer span.1 span.2 } span ↔
      FoundAt buffer (buffer.length + 1) 0 0 (0 + place + 1) span := by
  have index_eq : ((0 + place + 1 : Nat) : Int) = 0 + place + 1 := by omega
  constructor
  · rintro ⟨stop, range, found, text, runs⟩
    rw [extractConflictBlock, found] at text
    obtain rfl : slice buffer span.1 stop = range := by simpa using text
    exact ⟨stop, by simpa only [extractConflictSpan, index_eq] using found, runs⟩
  · rintro ⟨stop, found, runs⟩
    have spanFound : extractConflictSpan ((0 + place + 1 : Nat) : Int) buffer =
        some (some (span.1, stop)) := by simpa only [extractConflictSpan, index_eq] using found
    refine ⟨stop, slice buffer span.1 stop, spanFound, ?_, runs⟩
    rw [extractConflictBlock, spanFound, Option.map_some]

/-- The two locators agree and the walk stays inside the buffer exactly when every start mark
has an end mark behind it and, unless the line scanner fails on a cut-off block, no start mark
stands in front of a block and no other end mark inside of it. -/
theorem locators_agree_iff (buffer : Text) :
    (LocatorsAgree buffer ∧ ∀ index, extractConflictBlock index buffer ≠ none) ↔
      (CutOff buffer ∨ ClearGaps (blockGaps none [] (completeLines buffer))) ∧
        EndsFollow buffer := by
  refine and_congr ?_ (extractConflictBlock_inside_iff buffer)
  obtain ⟨single, noBreak⟩ := splitLines_single '\n' buffer
  have text : unlines '\n' (completeLines buffer) ++ unterminatedLine buffer = buffer :=
    splitLines_text '\n' buffer
  have spans_eq := constructConflictSpans_lines single noBreak
  rw [← completeLines, ← unterminatedLine, text] at spans_eq
  have agree_iff := allFound_iff (unterminatedLine buffer) _ (completeLines buffer) []
    (buffer.length + 1) [] 0 (Nat.lt_succ_self _) single (by simp [text])
  simp only [List.nil_append, text, List.length_nil, unlines_nil, Nat.add_zero] at agree_iff
  by_cases cutOff : CutOff buffer
  · have outside : unterminatedLine buffer ≠ [] ∧ Unclosed (completeLines buffer) := cutOff
    rw [if_pos outside] at spans_eq
    simp [LocatorsAgree, spans_eq, cutOff]
  · have inside : ¬ (unterminatedLine buffer ≠ [] ∧ Unclosed (completeLines buffer)) := cutOff
    rw [if_neg inside] at spans_eq
    have blocks_eq := constructConflictFile_eq_blocksAt buffer
    rw [spans_eq, Option.map_some] at blocks_eq
    simp only [cutOff, false_or, ← agree_iff]
    constructor
    · intro agree place span found
      refine (located_iff buffer place span).mp (agree _ _ blocks_eq spans_eq place _ span ?_ found)
      rw [blocksAt_getElem, found, Option.map_some]
    · intro all blocks spans blocksFound spansFound place block span blockAt spanAt
      obtain rfl := Option.some.inj (blocks_eq.symm.trans blocksFound)
      obtain rfl := Option.some.inj (spans_eq.symm.trans spansFound)
      rw [blocksAt_getElem, spanAt, Option.map_some, Option.some.injEq] at blockAt
      rw [← blockAt]
      exact (located_iff buffer place span).mpr (all place span spanAt)

/-- A mark in the middle of a line comes first, and an unfinished pair reaches beyond the
buffer. -/
theorem locators_disagree :
    (constructConflictFile "x <<<<<<<\n<<<<<<< a\n>>>>>>> b\n".toList =
        some [{ index := 1, conflictRange := "<<<<<<< a\n>>>>>>> b\n".toList }] ∧
      ¬ ∃ range, extractConflictBlock 1 "x <<<<<<<\n<<<<<<< a\n>>>>>>> b\n".toList = some range ∧
        range <+: "<<<<<<< a\n>>>>>>> b\n".toList) ∧
      extractConflictBlock 1 "<<<<<<< a\n".toList = none := by
  decide

end MergeBot
