import MergeBot.Conflict.MarkerLines

/-!
# Cutting the sides out of a conflict block

A file is a list of context lines and conflict `Block`s. The scanner finds
exactly its blocks (`scanLines_items`), but the sides are cut out by substring
search: `extract_eq_section_iff` says when the search finds the section
between two marker lines, and `roundTrips_iff` when scanning and cutting
recover everything that was written.
-/

namespace MergeBot

open Foundation

/-- The code between the line of the first `startMark` and the next `endMark`. -/
def extractCodeFromConflictRange (source startMark endMark : Text) : Text :=
  match Search.find startMark source with
  | none => []
  | some markPos =>
      let startPos := markPos + lineSpan '\n' (source.drop markPos)
      if startPos = source.length then []
      else
        match Search.findFrom endMark source startPos with
        | none => []
        | some endPos => slice source startPos endPos

section Extraction

variable {startMark endMark : Text}

/-- Lines without the mark are skipped by a search. -/
theorem find_unlines (inLine : '\n' ∉ startMark) (nonempty : startMark ≠ []) {lines : List Text}
    (clear : ∀ line ∈ lines, ¬ startMark <:+: line) (text : Text) :
    Search.find startMark (unlines '\n' lines ++ text) =
      (Search.find startMark text).map (· + (unlines '\n' lines).length) := by
  induction lines with
  | nil => simp
  | cons line rest ih =>
      have absent := Search.find_eq_none_iff.mpr (clear line List.mem_cons_self)
      have later := ih fun other member => clear other (List.mem_cons_of_mem _ member)
      rw [unlines_cons, List.append_assoc, List.cons_append,
        find_line inLine nonempty, absent, later]
      simp [Option.map_map, Function.comp_def, Nat.add_comm, Nat.add_left_comm, Nat.add_assoc]

/-- The extraction reads on after the first line with the start mark. -/
theorem extract_lines (inLine : '\n' ∉ startMark) (nonempty : startMark ≠ [])
    (endNonempty : endMark ≠ []) (rest : List Text) {clear : List Text} {start : Text}
    (skipped : ∀ line ∈ clear, ¬ startMark <:+: line) (marked : startMark <:+: start)
    (single : '\n' ∉ start) :
    extractCodeFromConflictRange (unlines '\n' (clear ++ start :: rest)) startMark endMark =
      upTo endMark (unlines '\n' rest) := by
  obtain ⟨column, found⟩ : ∃ column, Search.find startMark start = some column :=
    Option.ne_none_iff_exists'.mp fun absent => Search.find_eq_none_iff.mp absent marked
  have bounded := Search.find_le found
  have shape : unlines '\n' (clear ++ start :: rest) =
      unlines '\n' clear ++ (start ++ '\n' :: unlines '\n' rest) := by simp
  have position : Search.find startMark (unlines '\n' (clear ++ start :: rest)) =
      some (column + (unlines '\n' clear).length) := by
    rw [shape, find_unlines inLine nonempty skipped, find_line inLine nonempty, found]
    rfl
  have remaining : (unlines '\n' (clear ++ start :: rest)).drop
      (column + (unlines '\n' clear).length) = start.drop column ++ '\n' :: unlines '\n' rest := by
    rw [shape, Nat.add_comm, ← List.drop_drop, List.drop_left,
      List.drop_append_of_le_length bounded]
  have span : lineSpan '\n' (start.drop column ++ '\n' :: unlines '\n' rest) =
      start.length - column + 1 := by
    rw [lineSpan_line fun inside => single (List.mem_of_mem_drop inside), List.length_drop]
  have startPos : column + (unlines '\n' clear).length + (start.length - column + 1) =
      (unlines '\n' (clear ++ [start])).length := by
    simp only [unlines_append, unlines_cons, unlines_nil, List.length_append, List.length_cons,
      List.length_nil]
    omega
  have whole : unlines '\n' (clear ++ start :: rest) =
      unlines '\n' (clear ++ [start]) ++ unlines '\n' rest := by simp
  simp only [extractCodeFromConflictRange, position, remaining, span, startPos]
  rw [whole]
  by_cases last : unlines '\n' rest = []
  · simp [last, upTo, Search.find, endNonempty]
  · rw [if_neg (by simp [last]), Search.findFrom, if_pos (by simp), List.drop_left, upTo]
    cases Search.find endMark (unlines '\n' rest) with
    | none => rfl
    | some stop => simp [slice]

end Extraction

/-- The extraction gives the section between two marker lines, if and only if the
start mark occurs in no line before and the end mark in no line of the section. -/
theorem extract_eq_section_iff {startMark endMark : ConflictMark}
    {lines before code after : List Text} {startLine endLine : Text}
    (split : lines = before ++ startLine :: code ++ endLine :: after)
    (single : ∀ line ∈ before ++ startLine :: code, '\n' ∉ line)
    (started : startMark.Begins startLine) (ended : endMark.Begins endLine)
    (notEarlier : ∀ line ∈ before ++ startLine :: code, ¬ endMark.Begins line) :
    extractCodeFromConflictRange (unlines '\n' lines) startMark.text endMark.text =
        unlines '\n' code ↔
      (∀ line ∈ before, ¬ startMark.text <:+: line) ∧
        ∀ line ∈ code, ¬ endMark.text <:+: line := by
  subst split
  have cut (lines : List Text) (inside : ∀ line ∈ lines, line ∈ before ++ startLine :: code) :=
    upTo_unlines ('\n' :: unlines '\n' after) endMark.single_text endMark.text_ne_nil
      (fun line member => single line (inside line member))
      (fun line member => notEarlier line (inside line member)) ended
  have rest (lines : List Text) :
      unlines '\n' lines ++ endLine ++ '\n' :: unlines '\n' after =
        unlines '\n' (lines ++ endLine :: after) := by simp
  simp only [rest] at cut
  rcases first_or_none (p := fun line => startMark.text <:+: line) before with
    clear | ⟨early, line, late, shape, marked, clear⟩
  · -- the marker line itself is the first with the mark
    have extracted := extract_lines startMark.single_text startMark.text_ne_nil endMark.text_ne_nil
      (code ++ endLine :: after) clear started.isInfix (single startLine (by simp))
    rw [List.append_assoc, List.cons_append, extracted]
    rcases cut code (fun line member => by simp [member]) with
      ⟨plain, whole⟩ | ⟨⟨line, member, inside⟩, broken⟩
    · exact ⟨fun _ => ⟨clear, plain⟩, fun _ => whole⟩
    · refine ⟨fun same => ?_, fun plain => absurd inside (plain.2 line member)⟩
      exact absurd (same ▸ wholeLines_unlines code) broken
  · -- an earlier line has the mark, so the marker line is part of what is read
    refine ⟨fun same => ?_, fun plain => absurd marked (plain.1 line (by simp [shape]))⟩
    exfalso
    have extracted := extract_lines startMark.single_text startMark.text_ne_nil endMark.text_ne_nil
      (late ++ startLine :: code ++ endLine :: after) clear marked
      (single line (by simp [shape]))
    rw [shape] at same
    have regroup : early ++ line :: late ++ startLine :: code ++ endLine :: after =
        early ++ line :: (late ++ startLine :: code ++ endLine :: after) := by simp
    rw [regroup, extracted] at same
    rcases cut (late ++ startLine :: code) (fun other member => by
      rw [shape]
      simp only [List.mem_append, List.mem_cons] at member ⊢
      tauto) with ⟨-, whole⟩ | ⟨-, broken⟩
    · rw [same] at whole
      have lengths := congrArg List.length whole
      simp only [unlines_append, unlines_cons, List.length_append, List.length_cons] at lengths
      omega
    · exact broken (same ▸ wholeLines_unlines code)

/-! ## Files with conflict blocks -/

/-- A conflict block as it is written: the labels after the markers and the
lines of the sides, with those of the base in a three-way block. -/
structure Block where
  startLabel : Text
  ours : List Text
  base : Option (Text × List Text)
  middleLabel : Text
  theirs : List Text
  endLabel : Text

namespace Block

variable (block : Block)

def startLine : Text := ConflictMark.ours.text ++ block.startLabel

def middleLine : Text := ConflictMark.theirs.text ++ block.middleLabel

def endLine : Text := ConflictMark.end_.text ++ block.endLabel

/-- The marker line of the base and the base lines, if the block has them. -/
def baseLines : List Text :=
  match block.base with
  | none => []
  | some (label, lines) => (ConflictMark.base.text ++ label) :: lines

/-- The lines of a block, markers included. -/
def lines : List Text :=
  block.startLine :: block.ours ++ block.baseLines ++ block.middleLine :: block.theirs ++
    [block.endLine]

/-- A code line has no line break and does not begin with a marker. -/
def CodeLine (line : Text) : Prop :=
  '\n' ∉ line ∧ ∀ mark : ConflictMark, ¬ mark.Begins line

/-- Labels end with their line, and no line of a side begins with a marker. -/
structure WellFormed : Prop where
  startLabel : '\n' ∉ block.startLabel
  ours : ∀ line ∈ block.ours, CodeLine line
  baseLabel : ∀ base ∈ block.base, '\n' ∉ base.1
  base : ∀ base ∈ block.base, ∀ line ∈ base.2, CodeLine line
  middleLabel : '\n' ∉ block.middleLabel
  theirs : ∀ line ∈ block.theirs, CodeLine line
  endLabel : '\n' ∉ block.endLabel

/-- The handlers' marker pairs cut exactly the written sides out of the text. -/
def Recovers (source : Text) : Prop :=
  match block.base with
  | none =>
      extractCodeFromConflictRange source ConflictMark.ours.text ConflictMark.theirs.text =
          unlines '\n' block.ours ∧
        extractCodeFromConflictRange source ConflictMark.theirs.text ConflictMark.end_.text =
          unlines '\n' block.theirs
  | some (_, base) =>
      extractCodeFromConflictRange source ConflictMark.ours.text ConflictMark.base.text =
          unlines '\n' block.ours ∧
        extractCodeFromConflictRange source ConflictMark.base.text ConflictMark.theirs.text =
          unlines '\n' base ∧
        extractCodeFromConflictRange source ConflictMark.theirs.text ConflictMark.end_.text =
          unlines '\n' block.theirs

/-- No marker text occurs, also in the middle of a line, before or inside the
section that it delimits. -/
def MarksOnlyAtMarkers : Prop :=
  (∀ line ∈ block.startLine :: block.ours ++ block.baseLines,
      ¬ ConflictMark.theirs.text <:+: line) ∧
    (∀ line ∈ block.theirs, ¬ ConflictMark.end_.text <:+: line) ∧
    (block.base.isSome → ∀ line ∈ block.startLine :: block.ours,
      ¬ ConflictMark.base.text <:+: line)

variable {block : Block}

theorem begins_startLine : ConflictMark.ours.Begins block.startLine :=
  List.prefix_append _ _

theorem begins_middleLine : ConflictMark.theirs.Begins block.middleLine :=
  List.prefix_append _ _

theorem begins_endLine : ConflictMark.end_.Begins block.endLine :=
  List.prefix_append _ _

/-- A marker followed by a label is one line. -/
theorem single_marked (mark : ConflictMark) {label : Text} (single : '\n' ∉ label) :
    '\n' ∉ mark.text ++ label := by
  rw [List.mem_append, not_or]
  exact ⟨mark.single_text, single⟩

/-- The base marker line begins with its own marker, and base lines with none. -/
theorem WellFormed.baseLines (wellFormed : block.WellFormed) :
    ∀ line ∈ block.baseLines, '\n' ∉ line ∧
      ∀ mark : ConflictMark, mark ≠ .base → ¬ mark.Begins line := by
  intro line member
  cases shape : block.base with
  | none => simp [Block.baseLines, shape] at member
  | some base =>
      simp only [Block.baseLines, shape, List.mem_cons] at member
      rcases member with rfl | member
      · refine ⟨single_marked .base (wellFormed.baseLabel base (by simp [shape])), ?_⟩
        intro mark distinct
        exact ConflictMark.Begins.not_other (List.prefix_append _ _) distinct
      · have code := wellFormed.base base (by simp [shape]) line member
        exact ⟨code.1, fun mark _ => code.2 mark⟩

/-- What is needed of the lines before the middle marker: they are lines, and
only the start line and the base line begin with a marker. -/
theorem WellFormed.before_middle (wellFormed : block.WellFormed) :
    ∀ line ∈ block.startLine :: block.ours ++ block.baseLines, '\n' ∉ line ∧
      ¬ ConflictMark.theirs.Begins line ∧ ¬ ConflictMark.end_.Begins line := by
  intro line member
  rcases List.mem_append.mp member with inOurs | inBase
  · rcases List.mem_cons.mp inOurs with rfl | inOurs
    · exact ⟨single_marked .ours wellFormed.startLabel, begins_startLine.not_other (by decide),
        begins_startLine.not_other (by decide)⟩
    · have code := wellFormed.ours line inOurs
      exact ⟨code.1, code.2 .theirs, code.2 .end_⟩
  · have code := wellFormed.baseLines line inBase
    exact ⟨code.1, code.2 .theirs (by decide), code.2 .end_ (by decide)⟩

/-- The theirs section is cut out right if and only if no line before it has the
middle mark and none of its lines the end mark. -/
theorem theirs_iff (wellFormed : block.WellFormed) :
    extractCodeFromConflictRange (unlines '\n' block.lines) ConflictMark.theirs.text
        ConflictMark.end_.text = unlines '\n' block.theirs ↔
      (∀ line ∈ block.startLine :: block.ours ++ block.baseLines,
        ¬ ConflictMark.theirs.text <:+: line) ∧
        ∀ line ∈ block.theirs, ¬ ConflictMark.end_.text <:+: line := by
  have facts : ∀ line ∈ (block.startLine :: block.ours ++ block.baseLines) ++
      block.middleLine :: block.theirs, '\n' ∉ line ∧ ¬ ConflictMark.end_.Begins line := by
    intro line member
    rcases List.mem_append.mp member with early | late
    · exact ⟨(wellFormed.before_middle line early).1, (wellFormed.before_middle line early).2.2⟩
    · rcases List.mem_cons.mp late with rfl | inTheirs
      · exact ⟨single_marked .theirs wellFormed.middleLabel,
          begins_middleLine.not_other (by decide)⟩
      · exact ⟨(wellFormed.theirs line inTheirs).1, (wellFormed.theirs line inTheirs).2 .end_⟩
  exact extract_eq_section_iff rfl (fun line member => (facts line member).1) begins_middleLine
    begins_endLine fun line member => (facts line member).2

/-- The sides of a written block are recovered, if and only if the marker texts
occur only in the marker lines that delimit them. -/
theorem recovers_iff (wellFormed : block.WellFormed) :
    block.Recovers (unlines '\n' block.lines) ↔ block.MarksOnlyAtMarkers := by
  have theirs := theirs_iff wellFormed
  have early := wellFormed.before_middle
  cases shape : block.base with
  | none =>
      have noBase : block.baseLines = [] := by simp [Block.baseLines, shape]
      have split : block.lines = [] ++ block.startLine :: block.ours ++
          block.middleLine :: (block.theirs ++ [block.endLine]) := by simp [Block.lines, noBase]
      have ours := extract_eq_section_iff split
        (fun line member => (early line (by simpa [noBase] using member)).1) begins_startLine
        begins_middleLine fun line member => (early line (by simpa [noBase] using member)).2.1
      simp only [Block.Recovers, shape]
      rw [ours, theirs]
      constructor
      · rintro ⟨-, earlier, inside⟩
        exact ⟨earlier, inside, by simp [shape]⟩
      · rintro ⟨earlier, inside, -⟩
        exact ⟨⟨by simp, fun line member => earlier line (by simp [member])⟩, earlier, inside⟩
  | some base =>
      obtain ⟨label, code⟩ := base
      have baseLines : block.baseLines = (ConflictMark.base.text ++ label) :: code := by
        simp [Block.baseLines, shape]
      have oursSplit : block.lines = [] ++ block.startLine :: block.ours ++
          (ConflictMark.base.text ++ label) ::
            (code ++ block.middleLine :: block.theirs ++ [block.endLine]) := by
        simp [Block.lines, baseLines]
      have baseSplit : block.lines = (block.startLine :: block.ours) ++
          (ConflictMark.base.text ++ label) :: code ++
            block.middleLine :: (block.theirs ++ [block.endLine]) := by
        simp [Block.lines, baseLines]
      have oursFacts : ∀ line ∈ [] ++ block.startLine :: block.ours,
          '\n' ∉ line ∧ ¬ ConflictMark.base.Begins line := by
        intro line member
        refine ⟨(early line (List.mem_append_left _ member)).1, ?_⟩
        rcases List.mem_cons.mp member with rfl | inOurs
        · exact begins_startLine.not_other (by decide)
        · exact (wellFormed.ours line inOurs).2 .base
      have ours := extract_eq_section_iff oursSplit (fun line member => (oursFacts line member).1)
        begins_startLine (List.prefix_append ConflictMark.base.text label)
        fun line member => (oursFacts line member).2
      have middle := extract_eq_section_iff baseSplit
        (fun line member => (early line (by rw [baseLines]; exact member)).1)
        (List.prefix_append ConflictMark.base.text label) begins_middleLine
        fun line member => (early line (by rw [baseLines]; exact member)).2.1
      simp only [Block.Recovers, shape]
      rw [ours, middle, theirs]
      constructor
      · rintro ⟨-, ⟨noBase, -⟩, earlier, inside⟩
        exact ⟨earlier, inside, fun _ => noBase⟩
      · rintro ⟨earlier, inside, noBase⟩
        have noBase := noBase (by simp [shape])
        exact ⟨⟨by simp, fun line member => noBase line (List.mem_cons_of_mem _ member)⟩,
          ⟨noBase, fun line member => earlier line (by simp [baseLines, member])⟩, earlier, inside⟩

end Block

/-- A piece of a file: a context line or a conflict block. -/
inductive FileItem
  | context (line : Text)
  | block (block : Block)

namespace FileItem

def lines : FileItem → List Text
  | .context line => [line]
  | .block written => written.lines

def WellFormed : FileItem → Prop
  | .context line => Block.CodeLine line
  | .block written => written.WellFormed

def block? : FileItem → Option Block
  | .context _ => none
  | .block written => some written

end FileItem

/-- The contents of a file. -/
def fileText (items : List FileItem) : Text :=
  unlines '\n' (items.flatMap FileItem.lines)

/-- Blocks as the scanner reports them, numbered after `index`. -/
def numbered (index : Nat) : List Block → List ConflictBlock
  | [] => []
  | block :: rest =>
      { index := index + 1, conflictRange := unlines '\n' block.lines } ::
        numbered (index + 1) rest

theorem numbered_index (index : Nat) (blocks : List Block) :
    (numbered index blocks).map ConflictBlock.index = List.range' (index + 1) blocks.length := by
  induction blocks generalizing index with
  | nil => rfl
  | cons block rest ih => simp [numbered, ih, List.range'_succ]

/-- The automaton takes a written block as one block. -/
theorem scanLines_block {block : Block} (wellFormed : block.WellFormed) (index : Nat)
    (rest : List Text) :
    scanLines none index (block.lines ++ rest) =
      { index := index + 1, conflictRange := unlines '\n' block.lines } ::
        scanLines none (index + 1) rest := by
  have inside : ∀ line ∈ block.ours ++ block.baseLines ++ block.middleLine :: block.theirs,
      ¬ ConflictMark.end_.Begins line := by
    intro line member
    rcases List.mem_append.mp member with early | late
    · exact (wellFormed.before_middle line (by simpa using Or.inr early)).2.2
    · rcases List.mem_cons.mp late with rfl | inTheirs
      · exact Block.begins_middleLine.not_other (by decide)
      · exact (wellFormed.theirs line inTheirs).2 .end_
  have shape : block.lines = block.startLine ::
      (block.ours ++ block.baseLines ++ block.middleLine :: block.theirs) ++ [block.endLine] := by
    simp [Block.lines]
  rw [shape]
  exact scanLines_closed Block.begins_startLine inside Block.begins_endLine index rest

/-- The automaton finds the blocks of a file in order, numbered on. -/
theorem scanLines_items {items : List FileItem} (wellFormed : ∀ item ∈ items, item.WellFormed)
    (index : Nat) :
    scanLines none index (items.flatMap FileItem.lines) =
      numbered index (items.filterMap FileItem.block?) := by
  induction items generalizing index with
  | nil => rfl
  | cons item rest ih =>
      have itemFormed := wellFormed item List.mem_cons_self
      have later := ih fun other member => wellFormed other (List.mem_cons_of_mem _ member)
      cases item with
      | context line =>
          have plain : ¬ ConflictMark.ours.Begins line := itemFormed.2 .ours
          simp [FileItem.lines, FileItem.block?, List.filterMap_cons, scanLines, plain, later]
      | block block =>
          simp only [List.flatMap_cons, FileItem.lines, scanLines_block itemFormed, later]
          simp [FileItem.block?, numbered]

/-- No line of a written file contains a line break. -/
theorem single_items {items : List FileItem} (wellFormed : ∀ item ∈ items, item.WellFormed) :
    ∀ line ∈ items.flatMap FileItem.lines, '\n' ∉ line := by
  intro line member
  obtain ⟨item, itemMember, inItem⟩ := List.mem_flatMap.mp member
  have itemFormed := wellFormed item itemMember
  cases item with
  | context other =>
      simp only [FileItem.lines, List.mem_singleton] at inItem
      exact inItem ▸ itemFormed.1
  | block block =>
      have blockFormed : block.WellFormed := itemFormed
      have cases_ : line ∈ block.startLine :: block.ours ++ block.baseLines ∨
          line = block.middleLine ∨ line ∈ block.theirs ∨ line = block.endLine := by
        simpa [FileItem.lines, Block.lines, or_assoc] using inItem
      rcases cases_ with early | rfl | inTheirs | rfl
      · exact (blockFormed.before_middle line early).1
      · exact Block.single_marked .theirs blockFormed.middleLabel
      · exact (blockFormed.theirs line inTheirs).1
      · exact Block.single_marked .end_ blockFormed.endLabel

/-- The scanner returns the written blocks in order, numbered from one. -/
theorem constructConflictFile_items {items : List FileItem}
    (wellFormed : ∀ item ∈ items, item.WellFormed) :
    constructConflictFile (fileText items) =
      some (numbered 0 (items.filterMap FileItem.block?)) := by
  rw [fileText, constructConflictFile_unlines (single_items wellFormed),
    scanLines_items wellFormed]

/-- Scanning finds the written blocks with indices from one on, and their sides
are cut out as they were written. -/
def RoundTrips (items : List FileItem) : Prop :=
  ∃ blocks, constructConflictFile (fileText items) = some blocks ∧
    blocks.map ConflictBlock.index =
      List.range' 1 (items.filterMap FileItem.block?).length ∧
    List.Forall₂ (fun found written => found.conflictRange = unlines '\n' written.lines ∧
      written.Recovers found.conflictRange) blocks (items.filterMap FileItem.block?)

theorem recovers_numbered {blocks : List Block} (index : Nat)
    (wellFormed : ∀ block ∈ blocks, block.WellFormed) :
    List.Forall₂ (fun found written => found.conflictRange = unlines '\n' written.lines ∧
        written.Recovers found.conflictRange) (numbered index blocks) blocks ↔
      ∀ block ∈ blocks, block.MarksOnlyAtMarkers := by
  induction blocks generalizing index with
  | nil => simp [numbered]
  | cons block rest ih =>
      have later := ih (index + 1) fun other member =>
        wellFormed other (List.mem_cons_of_mem _ member)
      simp only [numbered, List.forall₂_cons, true_and, later, List.forall_mem_cons,
        Block.recovers_iff (wellFormed block List.mem_cons_self)]

/-- A written file comes back from scanning and cutting, if and only if in each
block the marker texts occur only in the marker lines. -/
theorem roundTrips_iff {items : List FileItem} (wellFormed : ∀ item ∈ items, item.WellFormed) :
    RoundTrips items ↔
      ∀ block ∈ items.filterMap FileItem.block?, block.MarksOnlyAtMarkers := by
  have blocksFormed : ∀ block ∈ items.filterMap FileItem.block?, block.WellFormed := by
    intro block member
    obtain ⟨item, itemMember, isBlock⟩ := List.mem_filterMap.mp member
    cases item with
    | context line => simp [FileItem.block?] at isBlock
    | block other =>
        obtain rfl : other = block := by simpa [FileItem.block?] using isBlock
        exact wellFormed _ itemMember
  rw [← recovers_numbered 0 blocksFormed, RoundTrips, constructConflictFile_items wellFormed]
  constructor
  · rintro ⟨blocks, found, -, recovered⟩
    rwa [Option.some.inj found]
  · intro recovered
    exact ⟨_, rfl, numbered_index 0 _, recovered⟩

/-- Two sides, the first with a ruler comment. -/
def rulerBlock : Block where
  startLabel := " HEAD".toList
  ours := ["// ======= Api =======".toList]
  base := none
  middleLabel := []
  theirs := ["int x;".toList]
  endLabel := " topic".toList

theorem rulerBlock_wellFormed : rulerBlock.WellFormed where
  startLabel := by decide
  ours := by
    simp only [rulerBlock, List.mem_singleton, forall_eq]
    exact ⟨by decide, fun mark => by cases mark <;> decide⟩
  baseLabel := by simp [rulerBlock]
  base := by simp [rulerBlock]
  middleLabel := by decide
  theirs := by
    simp only [rulerBlock, List.mem_singleton, forall_eq]
    exact ⟨by decide, fun mark => by cases mark <;> decide⟩
  endLabel := by decide

/-- A ruler of equality signs in a comment is taken for the middle marker. -/
theorem rulerBlock_cut :
    (∀ item ∈ [FileItem.block rulerBlock], item.WellFormed) ∧
      ¬ RoundTrips [FileItem.block rulerBlock] := by
  have wellFormed : ∀ item ∈ [FileItem.block rulerBlock], item.WellFormed := by
    simpa [FileItem.WellFormed] using rulerBlock_wellFormed
  refine ⟨wellFormed, ?_⟩
  rintro ⟨blocks, found, -, recovered⟩
  rw [constructConflictFile_items wellFormed, Option.some.injEq] at found
  subst found
  have ours : extractCodeFromConflictRange (unlines '\n' rulerBlock.lines) ConflictMark.ours.text
      ConflictMark.theirs.text = unlines '\n' rulerBlock.ours :=
    ((List.forall₂_cons.mp recovered).1.2).1
  exact absurd ours (by decide)

/-- The equivalence for a file of one block with a ruler comment. -/
theorem rulerBlock_roundTrips_iff :
    RoundTrips [FileItem.block rulerBlock] ↔
      ∀ block ∈ [FileItem.block rulerBlock].filterMap FileItem.block?, block.MarksOnlyAtMarkers :=
  roundTrips_iff (by simpa [FileItem.WellFormed] using rulerBlock_wellFormed)

end MergeBot
