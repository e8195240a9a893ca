import MergeBot.Conflict.Scanner

/-!
# The manager's extraction of conflict blocks

`extractTuple` reads a file with conflict blocks line by line. At the first line of a block it
looks for the line that begins the base, then for the separator and then for the last line. A
block without a base takes the base line of any later block for its own:
`extractTuple_sections_iff`.
-/

namespace MergeBot.Manager

/-! ## Extraction -/

/-- The first characters of a marker line. -/
def markerOf (c : Char) : Text := List.replicate 7 c ++ [' ']

/-- The line that separates the sides. -/
def separatorLine : Text := List.replicate 7 '='

/-- A conflict block as the manager returns it; the fields count lines from 1. -/
structure MergeTuple where
  mark : Nat
  start : Nat
  middle : Nat := 0
  middle2 : Nat := 0
  «end» : Nat := 0
  ours : List Text := []
  theirs : List Text := []
  base : List Text := []
deriving DecidableEq, Repr

/-- The lines between two lines, which are counted from 0. -/
def getCodeSnippets (code : List Text) (start stop : Nat) : List Text :=
  if start ≥ stop then [] else (code.take stop).drop (start + 1)

/-- The first marked line from a line on; `none` when the scan runs out of the file. -/
def scanFrom (marked : Text → Bool) (conflict : List Text) (k : Nat) : Option Nat :=
  ((conflict.drop k).findIdx? marked).map (k + ·)

/-- The tuple of the block that begins at line `i`, and the last line that has been looked at.
A scan that runs out of the file ends in an exception, and the tuple keeps what it has. -/
def extractOne (conflict : List Text) (i cnt : Nat) : MergeTuple × Nat :=
  let found := scanFrom (fun line => markerOf '|' <+: line) conflict i
  let k := found.getD i
  let tuple : MergeTuple := { mark := cnt, start := i + 1, middle := k + 1 }
  match scanFrom (fun line => line = separatorLine) conflict k with
  | none => (tuple, conflict.length)
  | some k2 =>
      let middle := if found = none then k2 + 1 else tuple.middle
      let tuple := { tuple with middle, middle2 := k2 + 1 }
      match scanFrom (fun line => markerOf '>' <+: line) conflict k2 with
      | none => (tuple, conflict.length)
      | some k3 =>
          let tuple := { tuple with «end» := k3 + 1 }
          ({ tuple with
              ours := getCodeSnippets conflict (tuple.start - 1) (tuple.middle - 1)
              base := getCodeSnippets conflict (tuple.middle - 1) (tuple.middle2 - 1)
              theirs := getCodeSnippets conflict (tuple.middle2 - 1) (tuple.end - 1) }, k3)

/-- The tuples of a file and the lines outside of its blocks. -/
structure Extraction where
  copy : List Text := []
  tuples : List MergeTuple := []
deriving DecidableEq, Repr

/-- The loop over the lines from line `i` on; `skipped` lines belong to a block that has been
read. -/
def extractFrom (conflict : List Text) : Nat → List Text → Nat → Nat → Extraction
  | _, [], _, _ => {}
  | skipped + 1, _ :: rest, i, cnt => extractFrom conflict skipped rest (i + 1) cnt
  | 0, line :: rest, i, cnt =>
      if ¬ markerOf '<' <+: line then
        let later := extractFrom conflict 0 rest (i + 1) (cnt + 1)
        { later with copy := line :: later.copy }
      else
        let (tuple, k) := extractOne conflict i cnt
        let later := extractFrom conflict (k - i) rest (i + 1) cnt
        { later with tuples := tuple :: later.tuples }

/-- The blocks of a file. -/
def extractTuple (conflict : List Text) : Extraction := extractFrom conflict 0 conflict 0 0

/-! ## Files with blocks -/

/-- A line that is no marker. -/
structure Plain (line : Text) : Prop where
  noStart : ¬ markerOf '<' <+: line
  noBase : ¬ markerOf '|' <+: line
  noSeparator : line ≠ separatorLine
  noEnd : ¬ markerOf '>' <+: line

/-- A conflict block with or without a base. -/
structure StyledBlock where
  startLine : Text
  ours : List Text
  base : Option (Text × List Text)
  theirs : List Text
  endLine : Text
  starts : markerOf '<' <+: startLine
  based : ∀ part ∈ base, markerOf '|' <+: part.1 ∧ ∀ line ∈ part.2, Plain line
  ends : markerOf '>' <+: endLine
  plain : ∀ line ∈ ours ++ theirs, Plain line

namespace StyledBlock

/-- The lines from the base line up to the separator. -/
def baseLines (block : StyledBlock) : List Text :=
  block.base.elim [] fun part => part.1 :: part.2

/-- The lines of the base. -/
def baseCode (block : StyledBlock) : List Text := block.base.elim [] Prod.snd

/-- The lines of the block. -/
def lines (block : StyledBlock) : List Text :=
  block.startLine ::
    (block.ours ++ (block.baseLines ++ separatorLine :: (block.theirs ++ [block.endLine])))

end StyledBlock

/-- A line of context or a block. -/
inductive StyledItem
  | context (line : Text) (plain : Plain line)
  | block (one : StyledBlock)

namespace StyledItem

/-- The lines of an item. -/
def lines : StyledItem → List Text
  | context line _ => [line]
  | block one => one.lines

/-- A block without a base. -/
def TwoWay : StyledItem → Prop
  | context _ _ => False
  | block one => one.base = none

/-- A block with a base. -/
def Diff3 : StyledItem → Prop
  | context _ _ => False
  | block one => one.base ≠ none

end StyledItem

/-- The lines of a file. -/
def fileLines (items : List StyledItem) : List Text := items.flatMap StyledItem.lines

/-- The sections of a block and its marker lines, which are counted from 1. -/
structure Sections where
  start : Nat
  stop : Nat
  ours : List Text
  base : List Text
  theirs : List Text
deriving DecidableEq, Repr

/-- What a tuple says about the sections. -/
def MergeTuple.sections (tuple : MergeTuple) : Sections where
  start := tuple.start
  stop := tuple.end
  ours := tuple.ours
  base := tuple.base
  theirs := tuple.theirs

/-- The sections of a block that begins at line `i`. -/
def StyledBlock.sections (block : StyledBlock) (i : Nat) : Sections where
  start := i + 1
  stop := i + block.lines.length
  ours := block.ours
  base := block.baseCode
  theirs := block.theirs

/-- The sections of the blocks of a file whose first line is line `i`. -/
def sectionsOf : Nat → List StyledItem → List Sections
  | _, [] => []
  | i, .context _ _ :: rest => sectionsOf (i + 1) rest
  | i, .block one :: rest => one.sections i :: sectionsOf (i + one.lines.length) rest

/-! ## Scans -/

/-- Marker lines of different kinds differ. -/
theorem marker_unique {c d : Char} {line : Text} (first : markerOf c <+: line)
    (second : markerOf d <+: line) : c = d := by
  have heads := List.prefix_of_prefix_length_le first second (by simp [markerOf])
  simp only [markerOf, List.replicate_succ, List.cons_append, List.cons_prefix_cons] at heads
  exact heads.1

/-- The separator is no marker line of another kind. -/
theorem separator_unmarked (c : Char) : ¬ markerOf c <+: separatorLine := fun inside => by
  have lengths := inside.length_le
  simp [markerOf, separatorLine] at lengths

variable {conflict : List Text} {marked : Text → Bool} {i : Nat}

/-- A scan stops at the first marked line. -/
theorem scanFrom_hit (clear : List Text) {back : List Text} {hit : Text}
    (split : conflict.drop i = clear ++ hit :: back)
    (unmarked : ∀ line ∈ clear, marked line = false) (isMarked : marked hit = true) :
    scanFrom marked conflict i = some (i + clear.length) := by
  have none_before : clear.findIdx? marked = none := List.findIdx?_eq_none_iff.mpr unmarked
  rw [scanFrom, split, List.findIdx?_append, none_before, List.findIdx?_cons, if_pos isMarked]
  simp

/-- A scan without a marked line runs out of the file. -/
theorem scanFrom_none (unmarked : ∀ line ∈ conflict.drop i, marked line = false) :
    scanFrom marked conflict i = none := by
  rw [scanFrom, List.findIdx?_eq_none_iff.mpr unmarked, Option.map_none]

/-- A scan passes lines that are not marked, and finds a line behind them. -/
theorem scanFrom_past {clear back : List Text} (split : conflict.drop i = clear ++ back)
    (unmarked : ∀ line ∈ clear, marked line = false) (occurs : ∃ line ∈ back, marked line = true) :
    ∃ k, scanFrom marked conflict i = some k ∧ i + clear.length ≤ k := by
  have none_before : clear.findIdx? marked = none := List.findIdx?_eq_none_iff.mpr unmarked
  cases found : back.findIdx? marked with
  | none =>
      obtain ⟨line, member, isMarked⟩ := occurs
      have unmarkedLine := List.findIdx?_eq_none_iff.mp found line member
      rw [isMarked] at unmarkedLine
      exact Bool.noConfusion unmarkedLine
  | some index =>
      refine ⟨i + (index + clear.length), ?_, by omega⟩
      rw [scanFrom, split, List.findIdx?_append, none_before, found]
      rfl

/-- The lines behind line `i` are those that follow it. -/
theorem drop_behind (front : List Text) {back : List Text}
    (split : conflict.drop i = front ++ back) :
    conflict.drop (i + front.length) = back := by
  rw [← List.drop_drop, split, List.drop_left]

/-- The snippet between two lines. -/
theorem getCodeSnippets_eq {head : Text} {code back : List Text}
    (split : conflict.drop i = head :: (code ++ back)) :
    getCodeSnippets conflict i (i + 1 + code.length) = code := by
  have behind : conflict.drop (i + 1) = code ++ back := by
    rw [← List.drop_drop, split, List.drop_one, List.tail_cons]
  rw [getCodeSnippets, if_neg (by omega), List.drop_take, behind, Nat.add_sub_cancel_left,
    List.take_left]

/-- Lines to skip are dropped. -/
theorem extractFrom_skipped (conflict : List Text) (skipped : Nat) (rest : List Text)
    (i cnt : Nat) :
    extractFrom conflict skipped rest i cnt =
      extractFrom conflict 0 (rest.drop skipped) (i + skipped) cnt := by
  induction rest generalizing skipped i with
  | nil => cases skipped <;> rfl
  | cons line rest inductionHypothesis =>
      cases skipped with
      | zero => rfl
      | succ skipped =>
          rw [extractFrom, inductionHypothesis, List.drop_succ_cons, Nat.add_right_comm,
            Nat.add_assoc]

/-! ## One block -/

/-- A marker line of another kind and a line that is no marker are not marked. -/
theorem Plain.unmarked {line : Text} (plain : Plain line) :
    decide (markerOf '|' <+: line) = false ∧ decide (line = separatorLine) = false ∧
      decide (markerOf '>' <+: line) = false :=
  ⟨decide_eq_false plain.noBase, decide_eq_false plain.noSeparator, decide_eq_false plain.noEnd⟩

/-- Other marker lines are not marked. -/
theorem unmarked_of_ne {c d : Char} {line : Text} (isMarker : markerOf c <+: line) (other : d ≠ c) :
    decide (markerOf d <+: line) = false :=
  decide_eq_false fun both => other (marker_unique both isMarker)

/-- A marker line is not the separator. -/
theorem marker_ne_separator {c : Char} {line : Text} (isMarker : markerOf c <+: line) :
    decide (line = separatorLine) = false :=
  decide_eq_false fun same => separator_unmarked c (same ▸ isMarker)

variable {block : StyledBlock} {back : List Text} {cnt : Nat}

/-- A block has three marker lines besides the lines of its base. -/
theorem StyledBlock.length_lines (block : StyledBlock) :
    block.lines.length =
      block.ours.length + block.baseLines.length + block.theirs.length + 3 := by
  simp only [StyledBlock.lines, List.length_cons, List.length_append, List.length_nil]
  omega

/-- No line of a block without a base begins one. -/
theorem StyledBlock.noBaseLine (twoWay : block.base = none) :
    ∀ line ∈ block.lines, ¬ markerOf '|' <+: line := by
  intro line member isBase
  have plain := List.forall_mem_append.mp block.plain
  simp only [StyledBlock.lines, StyledBlock.baseLines, twoWay, Option.elim_none, List.nil_append,
    List.mem_cons, List.mem_append, List.not_mem_nil, or_false] at member
  rcases member with rfl | ours | rfl | theirs | rfl
  · exact absurd (marker_unique isBase block.starts) (by decide)
  · exact (plain.1 line ours).noBase isBase
  · exact separator_unmarked '|' isBase
  · exact (plain.2 line theirs).noBase isBase
  · exact absurd (marker_unique isBase block.ends) (by decide)

/-- What the scans have to find: the sections of the block, and its last line. -/
def ReadsBlock (block : StyledBlock) (i : Nat) (result : MergeTuple × Nat) : Prop :=
  result.1.sections = block.sections i ∧ result.2 + 1 = i + block.lines.length

/-- From the separator on, the rest of the block is read. -/
theorem scan_theirs {k : Nat} {theirs : List Text} {endLine : Text}
    (split : conflict.drop k = separatorLine :: (theirs ++ endLine :: back))
    (plain : ∀ line ∈ theirs, Plain line) (ends : markerOf '>' <+: endLine) :
    scanFrom (fun line => markerOf '>' <+: line) conflict k = some (k + 1 + theirs.length) ∧
      getCodeSnippets conflict k (k + 1 + theirs.length) = theirs := by
  refine ⟨?_, getCodeSnippets_eq split⟩
  have clear : ∀ line ∈ separatorLine :: theirs, decide (markerOf '>' <+: line) = false :=
    List.forall_mem_cons.mpr
      ⟨decide_eq_false (separator_unmarked '>'),
        fun line member => (plain line member).unmarked.2.2⟩
  rw [scanFrom_hit (separatorLine :: theirs) split clear (decide_eq_true ends), List.length_cons,
    Nat.add_right_comm, Nat.add_assoc]

/-- From a marker line on, the code up to the separator is read. -/
theorem scan_separator {k : Nat} {c : Char} {head : Text} {code : List Text}
    (split : conflict.drop k = head :: (code ++ separatorLine :: back))
    (isMarker : markerOf c <+: head) (plain : ∀ line ∈ code, Plain line) :
    scanFrom (fun line => line = separatorLine) conflict k = some (k + 1 + code.length) ∧
      getCodeSnippets conflict k (k + 1 + code.length) = code ∧
      conflict.drop (k + 1 + code.length) = separatorLine :: back := by
  have clear : ∀ line ∈ head :: code, decide (line = separatorLine) = false :=
    List.forall_mem_cons.mpr
      ⟨marker_ne_separator isMarker, fun line member => (plain line member).unmarked.2.1⟩
  have behind := drop_behind (head :: code) split
  have length : k + (head :: code).length = k + 1 + code.length := by
    rw [List.length_cons, Nat.add_right_comm, Nat.add_assoc]
  rw [length] at behind
  refine ⟨?_, getCodeSnippets_eq split, behind⟩
  rw [scanFrom_hit (head :: code) split clear (decide_eq_true rfl), length]

/-- A block without a base is read when the first scan finds none. -/
theorem extractOne_twoWay (split : conflict.drop i = block.lines ++ back)
    (twoWay : block.base = none)
    (noBase : scanFrom (fun line => markerOf '|' <+: line) conflict i = none) :
    ReadsBlock block i (extractOne conflict i cnt) := by
  have plain := List.forall_mem_append.mp block.plain
  simp only [StyledBlock.lines, StyledBlock.baseLines, twoWay, Option.elim_none, List.nil_append,
    List.cons_append, List.append_assoc] at split
  obtain ⟨separator, ours, behind⟩ := scan_separator split block.starts plain.1
  obtain ⟨last, theirs⟩ := scan_theirs behind plain.2 block.ends
  have empty (k : Nat) : getCodeSnippets conflict k k = [] := if_pos (Nat.le_refl k)
  simp only [extractOne, noBase, Option.getD_none, separator, last, if_true, Nat.add_sub_cancel,
    ours, theirs, empty]
  have noLines : block.baseLines.length = 0 := by rw [StyledBlock.baseLines, twoWay]; rfl
  have noCode : block.baseCode = [] := by rw [StyledBlock.baseCode, twoWay]; rfl
  have whole := block.length_lines
  refine ⟨?_, by simp only; omega⟩
  simp only [MergeTuple.sections, StyledBlock.sections, noCode, Sections.mk.injEq, true_and,
    and_true]
  omega

/-- A block with a base is read. -/
theorem extractOne_diff3 (split : conflict.drop i = block.lines ++ back)
    (diff3 : block.base ≠ none) : ReadsBlock block i (extractOne conflict i cnt) := by
  have plain := List.forall_mem_append.mp block.plain
  obtain ⟨⟨baseLine, code⟩, base_eq⟩ := Option.ne_none_iff_exists'.mp diff3
  obtain ⟨isBase, codePlain⟩ := block.based _ base_eq
  simp only [StyledBlock.lines, StyledBlock.baseLines, base_eq, Option.elim_some,
    List.cons_append, List.append_assoc, List.nil_append] at split
  have clear : ∀ line ∈ block.startLine :: block.ours, decide (markerOf '|' <+: line) = false :=
    List.forall_mem_cons.mpr ⟨unmarked_of_ne block.starts (by decide),
      fun line member => (plain.1 line member).unmarked.1⟩
  have found := scanFrom_hit (block.startLine :: block.ours) split clear (decide_eq_true isBase)
  have atBase := drop_behind (block.startLine :: block.ours) split
  have length : i + (block.startLine :: block.ours).length = i + 1 + block.ours.length := by
    rw [List.length_cons, Nat.add_right_comm, Nat.add_assoc]
  rw [length] at found atBase
  obtain ⟨separator, base, behind⟩ := scan_separator atBase isBase codePlain
  obtain ⟨last, theirs⟩ := scan_theirs behind plain.2 block.ends
  have ours := getCodeSnippets_eq split
  simp only [extractOne, found, Option.getD_some, separator, last, if_neg (Option.some_ne_none _),
    Nat.add_sub_cancel, ours, base, theirs]
  have baseLength : block.baseLines.length = code.length + 1 := by
    rw [StyledBlock.baseLines, base_eq]
    rfl
  have baseCode : block.baseCode = code := by rw [StyledBlock.baseCode, base_eq]; rfl
  have whole := block.length_lines
  refine ⟨?_, by simp only; omega⟩
  simp only [MergeTuple.sections, StyledBlock.sections, baseCode, Sections.mk.injEq, true_and,
    and_true]
  omega

/-- A block without a base is not read when there is a base line behind it. -/
theorem extractOne_wrong (split : conflict.drop i = block.lines ++ back)
    (twoWay : block.base = none) (later : ∃ line ∈ back, markerOf '|' <+: line) :
    (extractOne conflict i cnt).1.sections ≠ block.sections i := by
  have clear : ∀ line ∈ block.lines, decide (markerOf '|' <+: line) = false :=
    fun line member => decide_eq_false (block.noBaseLine twoWay line member)
  obtain ⟨k, found, past⟩ := scanFrom_past split clear (by simpa using later)
  have long := block.length_lines
  have whole := congrArg List.length split
  rw [List.length_drop, List.length_append] at whole
  intro same
  have stop := congrArg Sections.stop same
  have ours := congrArg (fun sections => sections.ours.length) same
  simp only [extractOne, found, Option.getD_some, if_neg (Option.some_ne_none _)] at stop ours
  split at stop
  · simp only [MergeTuple.sections, StyledBlock.sections] at stop
    omega
  · rename_i separator
    simp only [separator] at ours
    split at stop
    · simp only [MergeTuple.sections, StyledBlock.sections] at stop
      omega
    · rename_i last
      simp only [last, MergeTuple.sections, StyledBlock.sections, Nat.add_sub_cancel,
        getCodeSnippets] at ours
      rw [if_neg (by omega), List.length_drop, List.length_take] at ours
      omega

/-! ## The whole file -/

/-- Exactly files with a block with a base have a base line. -/
theorem exists_baseLine_iff {items : List StyledItem} :
    (∃ line ∈ fileLines items, markerOf '|' <+: line) ↔ ∃ item ∈ items, item.Diff3 := by
  constructor
  · rintro ⟨line, member, isBase⟩
    obtain ⟨item, itemMember, inside⟩ := List.mem_flatMap.mp member
    refine ⟨item, itemMember, ?_⟩
    cases item with
    | context other plain => exact plain.noBase (List.mem_singleton.mp inside ▸ isBase)
    | block one =>
        exact fun twoWay => one.noBaseLine twoWay line inside isBase
  · rintro ⟨item, member, diff3⟩
    cases item with
    | context other plain => exact diff3.elim
    | block one =>
        obtain ⟨⟨baseLine, code⟩, base_eq⟩ := Option.ne_none_iff_exists'.mp diff3
        refine ⟨baseLine, List.mem_flatMap.mpr ⟨_, member, ?_⟩, (one.based _ base_eq).1⟩
        simp [StyledItem.lines, StyledBlock.lines, StyledBlock.baseLines, base_eq]

/-- After the first line of a block the loop goes on behind the last line it has looked at. -/
theorem extractFrom_block (conflict : List Text) (block : StyledBlock) (back : List Text)
    (i cnt : Nat) :
    (extractFrom conflict 0 (block.lines ++ back) i cnt).tuples.map MergeTuple.sections =
      (extractOne conflict i cnt).1.sections ::
        (extractFrom conflict ((extractOne conflict i cnt).2 - i)
          ((block.lines ++ back).drop 1) (i + 1) cnt).tuples.map MergeTuple.sections := by
  have starts : ¬ ¬ markerOf '<' <+: block.startLine := not_not.mpr block.starts
  rw [StyledBlock.lines, List.cons_append, extractFrom, if_neg starts]
  rfl

/-- After a block that has been read it goes on behind the block. -/
theorem extractFrom_reads (reads : ReadsBlock block i (extractOne conflict i cnt)) :
    (extractFrom conflict 0 (block.lines ++ back) i cnt).tuples.map MergeTuple.sections =
      block.sections i ::
        (extractFrom conflict 0 back (i + block.lines.length) cnt).tuples.map
          MergeTuple.sections := by
  obtain ⟨same, last⟩ := reads
  have some_ : 0 < block.lines.length := Nat.succ_pos _
  have skipped : 1 + ((extractOne conflict i cnt).2 - i) = block.lines.length := by omega
  rw [extractFrom_block, same, extractFrom_skipped, List.drop_drop, Nat.add_assoc, skipped,
    List.drop_left]

/-- The loop finds the blocks from line `i` on exactly when no block with a base follows one
without. -/
theorem extractFrom_sections_iff (items : List StyledItem)
    (split : conflict.drop i = fileLines items) :
    (extractFrom conflict 0 (fileLines items) i cnt).tuples.map MergeTuple.sections =
        sectionsOf i items ↔
      items.Pairwise fun earlier later => earlier.TwoWay → ¬ later.Diff3 := by
  induction items generalizing i cnt with
  | nil => exact iff_of_true rfl .nil
  | cons item rest inductionHypothesis =>
      rw [List.pairwise_cons]
      cases item with
      | context line plain =>
          have lines_eq : fileLines (.context line plain :: rest) = line :: fileLines rest := rfl
          have behind := drop_behind [line] (lines_eq ▸ split)
          rw [lines_eq, extractFrom, if_pos plain.noStart, sectionsOf]
          exact (inductionHypothesis behind).trans
            (and_iff_right fun later _ twoWay => twoWay.elim).symm
      | block one =>
          have lines_eq : fileLines (.block one :: rest) = one.lines ++ fileLines rest := rfl
          rw [lines_eq] at split ⊢
          have behind := drop_behind one.lines split
          have goes_on (reads : ReadsBlock one i (extractOne conflict i cnt))
              (head : one.base = none → ∀ later ∈ rest, ¬ later.Diff3) :
              (extractFrom conflict 0 (one.lines ++ fileLines rest) i cnt).tuples.map
                  MergeTuple.sections = sectionsOf i (.block one :: rest) ↔
                (∀ later ∈ rest, (StyledItem.block one).TwoWay → ¬ later.Diff3) ∧
                  rest.Pairwise fun earlier later => earlier.TwoWay → ¬ later.Diff3 := by
            rw [extractFrom_reads reads, sectionsOf, List.cons.injEq]
            exact (and_congr_right fun _ => inductionHypothesis behind).trans
              (and_congr_left fun _ => iff_of_true rfl fun later member twoWay =>
                head twoWay later member)
          by_cases twoWay : one.base = none
          · by_cases diff3 : ∃ later ∈ rest, later.Diff3
            · -- the first scan runs into the later block
              have wrong : (extractOne conflict i cnt).1.sections ≠ one.sections i :=
                extractOne_wrong split twoWay (exists_baseLine_iff.mpr diff3)
              refine iff_of_false (fun same => ?_) fun both => ?_
              · rw [extractFrom_block, sectionsOf, List.cons.injEq] at same
                exact wrong same.1
              · obtain ⟨later, member, isDiff3⟩ := diff3
                exact both.1 later member twoWay isDiff3
            · refine goes_on (extractOne_twoWay split twoWay (scanFrom_none ?_)) fun _ later member
                isDiff3 => diff3 ⟨later, member, isDiff3⟩
              intro line member
              refine decide_eq_false fun isBase => ?_
              have found := exists_baseLine_iff.mp ⟨line, lines_eq ▸ split ▸ member, isBase⟩
              obtain ⟨item, itemMember, isDiff3⟩ := found
              rcases List.mem_cons.mp itemMember with rfl | later
              · exact isDiff3 twoWay
              · exact diff3 ⟨item, later, isDiff3⟩
          · exact goes_on (extractOne_diff3 split twoWay) fun none_ => absurd none_ twoWay

/-- The manager finds the sections of every block of a file exactly when no block with a base
follows one without. -/
theorem extractTuple_sections_iff (items : List StyledItem) :
    (extractTuple (fileLines items)).tuples.map MergeTuple.sections = sectionsOf 0 items ↔
      items.Pairwise fun earlier later => earlier.TwoWay → ¬ later.Diff3 :=
  extractFrom_sections_iff items rfl

/-! ## A block with a base behind one without -/

/-- A line shorter than a marker is none. -/
theorem plain_of_short {line : Text} (short : line.length < 7) : Plain line := by
  have unmarked (c : Char) : ¬ markerOf c <+: line := fun inside => by
    have lengths := inside.length_le
    simp only [markerOf, List.length_append, List.length_replicate,
      List.length_singleton] at lengths
    omega
  refine ⟨unmarked '<', unmarked '|', fun same => ?_, unmarked '>'⟩
  rw [same, separatorLine, List.length_replicate] at short
  omega

/-- A block with the sides `x` and `y`. -/
def smallBlock (base : Option (List Text)) (plain : ∀ code ∈ base, ∀ line ∈ code, Plain line) :
    StyledBlock where
  startLine := markerOf '<' ++ ['o']
  ours := [['x']]
  base := base.map fun code => (markerOf '|' ++ ['b'], code)
  theirs := [['y']]
  endLine := markerOf '>' ++ ['t']
  starts := List.prefix_append _ _
  based := by
    intro part isPart
    obtain ⟨code, isCode, rfl⟩ := Option.map_eq_some_iff.mp isPart
    exact ⟨List.prefix_append _ _, plain code isCode⟩
  ends := List.prefix_append _ _
  plain := by
    intro line member
    apply plain_of_short
    rcases List.mem_cons.mp member with rfl | member
    · decide
    · rw [List.mem_singleton.mp member]
      decide

/-- In a file with a block without a base and then one with an empty base, the first block is
returned with the lines up to the base of the second as its side. -/
theorem mixed_blocks_misread :
    (extractTuple (fileLines [.block (smallBlock none (by simp)),
        .block (smallBlock (some []) (by simp))])).tuples.map MergeTuple.sections ≠
      sectionsOf 0 [.block (smallBlock none (by simp)),
        .block (smallBlock (some []) (by simp))] := by
  decide

end MergeBot.Manager
