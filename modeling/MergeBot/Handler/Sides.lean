import MergeBot.Conflict.RoundTrip
import MergeBot.Handler.Resolution

/-!
# The sides that a handler cuts out of a block

The style based and the text based handler look at the first block of the first
file to choose between two-way and three-way extraction, and cut the sides of
every block of every file accordingly. `sidesIndependent_iff` says for which
blocks two lists of files that contain the block lead to the same sides, with
nothing of the base and nothing lost in the ours side.
-/

namespace MergeBot

open Foundation

/-- The first block of the first file contains the three marker texts. -/
def withBase (files : List ConflictFile) : Bool :=
  match files with
  | [] => false
  | file :: _ =>
      match file.conflictBlocks with
      | [] => false
      | block :: _ =>
          (Search.find ConflictMark.ours.text block.conflictRange).isSome &&
            (Search.find ConflictMark.base.text block.conflictRange).isSome &&
            (Search.find ConflictMark.theirs.text block.conflictRange).isSome

/-- The mark before which the ours side ends. -/
def oursEnd (threeWay : Bool) : ConflictMark :=
  if threeWay then .base else .theirs

/-- Both sides of a block. -/
def blockSides (threeWay : Bool) (range : Text) : Text × Text :=
  if threeWay then
    (extractCodeFromConflictRange range ConflictMark.ours.text ConflictMark.base.text,
      extractCodeFromConflictRange range ConflictMark.theirs.text ConflictMark.end_.text)
  else
    (extractCodeFromConflictRange range ConflictMark.ours.text ConflictMark.theirs.text,
      extractCodeFromConflictRange range ConflictMark.theirs.text ConflictMark.end_.text)

/-- What a handler makes of the two sides of a block of a file. -/
abbrev Judge := ConflictFile → ConflictBlock → Text × Text → Option BlockResolutionResult

/-- A handler that judges blocks by their sides, as the list it was given cuts them. -/
def sidesResolver (judge : Judge) (files : List ConflictFile) : Resolver :=
  fun file block => judge file block (blockSides (withBase files) block.conflictRange)

section Handlers

variable {codec : JsonCodec} (judge : Judge) (paths : ResolutionPaths)

/-- The style based handler judges whether the sides differ in style only. -/
def StyleBasedHandler.resolveConflictFiles (files : List ConflictFile) (dir : Directory codec) :
    List ConflictFile × Directory codec :=
  MergeBot.resolveConflictFiles (sidesResolver judge files) paths files dir

/-- The text based handler judges whether one side can be chosen or both joined.
The three-way merges that it stores in front of that are read by nothing here. -/
def TextBasedHandler.resolveConflictFiles (files : List ConflictFile) (dir : Directory codec) :
    List ConflictFile × Directory codec :=
  MergeBot.resolveConflictFiles (sidesResolver judge files) paths files dir

end Handlers

/-- The sides that either handler cuts out of the blocks with a given text in a
given file. -/
def sidesIn (files : List ConflictFile) (filename range : Text) : List (Text × Text) :=
  (files.filter fun file => file.filename = filename).flatMap fun file =>
    (file.conflictBlocks.filter fun block => block.conflictRange = range).map fun block =>
      blockSides (withBase files) block.conflictRange

/-- The list has the written block in the file. -/
def HasBlock (files : List ConflictFile) (filename : Text) (block : Block) : Prop :=
  ∃ file ∈ files, file.filename = filename ∧
    ∃ found ∈ file.conflictBlocks, found.conflictRange = unlines '\n' block.lines

/-- A resolver matters only at the blocks of the files that are handled. -/
theorem resolveConflictFiles_congr {codec : JsonCodec} {resolver other : Resolver}
    {files : List ConflictFile}
    (agree : ∀ file ∈ files, ∀ block ∈ file.conflictBlocks, resolver file block = other file block)
    (paths : ResolutionPaths) (dir : Directory codec) :
    resolveConflictFiles resolver paths files dir = resolveConflictFiles other paths files dir := by
  have sameTurn (state : HandlerState codec) (file : ConflictFile) (member : file ∈ files) :
      resolveFile resolver paths state file = resolveFile other paths state file := by
    have marks : markBlocks resolver file = markBlocks other file :=
      List.map_congr_left fun block inFile => by rw [agree file member block inFile]
    have results : resolvedBlocks resolver file = resolvedBlocks other file :=
      List.filterMap_congr fun block inFile => by rw [agree file member block inFile]
    simp only [resolveFile, marks, results]
  simp only [resolveConflictFiles, List.foldl_ext _ _ _ sameTurn]

/-- Judges that agree on the sides in a list of files resolve the same in it: the
sides are all that a handler makes of the text of a block. -/
theorem sidesResolver_congr {codec : JsonCodec} {judge other : Judge} {files : List ConflictFile}
    (agree : ∀ file ∈ files, ∀ block ∈ file.conflictBlocks,
      ∀ sides ∈ sidesIn files file.filename block.conflictRange,
        judge file block sides = other file block sides)
    (paths : ResolutionPaths) (dir : Directory codec) :
    resolveConflictFiles (sidesResolver judge files) paths files dir =
      resolveConflictFiles (sidesResolver other files) paths files dir := by
  refine resolveConflictFiles_congr (fun file member block inFile => ?_) paths dir
  refine agree file member block inFile _ (List.mem_flatMap.mpr ⟨file, ?_, ?_⟩)
  · exact List.mem_filter.mpr ⟨member, by simp⟩
  · exact List.mem_map.mpr ⟨block, List.mem_filter.mpr ⟨inFile, by simp⟩, rfl⟩

namespace Block

variable (block : Block)

/-- Code without base text that is empty only for an empty ours section. -/
structure OursOnly (code : Text) : Prop where
  noBase : block.base.isSome → code <+: unlines '\n' block.ours
  nonempty : block.ours ≠ [] → code ≠ []

/-- The block's sides are the same in both lists, and are ours sides. -/
def SidesIndependent (filename : Text) (first second : List ConflictFile) : Prop :=
  (∀ sides ∈ sidesIn first filename (unlines '\n' block.lines),
      ∀ others ∈ sidesIn second filename (unlines '\n' block.lines), sides = others) ∧
    ∀ sides ∈ sidesIn first filename (unlines '\n' block.lines) ++
      sidesIn second filename (unlines '\n' block.lines), block.OursOnly sides.1

/-- The lines behind the start marker line. -/
def behindStart : List Text :=
  block.ours ++ (block.baseLines ++ block.middleLine :: block.theirs ++ [block.endLine])

/-- The choices of extraction that suit the block. For a three-way block both are
three-way, or both are two-way and a line of ours cuts the side short. For a
two-way block both are two-way; or both are three-way and there is nothing in
ours, or a base mark somewhere; or they differ and there is neither. -/
def Suits (firstThreeWay secondThreeWay : Bool) : Prop :=
  match block.base with
  | some _ => firstThreeWay = secondThreeWay ∧
      (firstThreeWay ∨ ∃ line ∈ block.ours, ConflictMark.theirs.text <:+: line)
  | none =>
      if firstThreeWay = secondThreeWay then
        firstThreeWay → block.ours = [] ∨
          ∃ line ∈ block.behindStart, ConflictMark.base.text <:+: line
      else block.ours = [] ∧ ∀ line ∈ block.behindStart, ¬ ConflictMark.base.text <:+: line

variable {block : Block}

/-- The text behind the start marker line. -/
def textBehindStart (block : Block) : Text := unlines '\n' block.behindStart

/-- The ours side ends at the first occurrence of its mark behind the start line. -/
theorem ours_side (wellFormed : block.WellFormed) (threeWay : Bool) :
    (blockSides threeWay (unlines '\n' block.lines)).1 =
      upTo (oursEnd threeWay).text block.textBehindStart := by
  have shape : block.lines = [] ++ block.startLine :: block.behindStart := by
    simp [Block.lines, Block.behindStart]
  have cut (mark : ConflictMark) := extract_lines ConflictMark.ours.single_text
    ConflictMark.ours.text_ne_nil mark.text_ne_nil block.behindStart
    (fun line member => absurd member List.not_mem_nil) begins_startLine.isInfix
    (single_marked .ours wellFormed.startLabel)
  rw [← shape] at cut
  cases threeWay
  · exact cut .theirs
  · exact cut .base

/-- The theirs side does not depend on the choice of extraction. -/
theorem theirs_side (range : Text) (threeWay : Bool) :
    (blockSides threeWay range).2 =
      extractCodeFromConflictRange range ConflictMark.theirs.text ConflictMark.end_.text := by
  cases threeWay <;> rfl

/-- Two marks do not occur at one position. -/
theorem mark_unique {first second : ConflictMark} {text : Text} {position : Nat}
    (firstFound : Search.find first.text text = some position)
    (secondFound : Search.find second.text text = some position) : first = second :=
  ConflictMark.Begins.unique (Search.prefix_of_find firstFound) (Search.prefix_of_find secondFound)

/-- No mark ends an ours section at its very beginning. -/
theorem positive_of_ours (wellFormed : block.WellFormed) (some_ : block.ours ≠ [])
    {mark : ConflictMark} {position : Nat}
    (found : Search.find mark.text block.textBehindStart = some position) : 0 < position := by
  obtain ⟨line, rest, shape⟩ := List.exists_cons_of_ne_nil some_
  refine Search.find_pos (fun atStart => ?_) found
  have code := wellFormed.ours line (by simp [shape])
  rw [textBehindStart, behindStart, shape, List.cons_append, unlines_cons,
    prefix_line_iff mark.single_text] at atStart
  exact code.2 mark atStart

/-- The separator is always found. -/
theorem separator_found (block : Block) :
    ∃ position, Search.find ConflictMark.theirs.text block.textBehindStart = some position := by
  refine Option.ne_none_iff_exists'.mp fun absent => Search.find_eq_none_iff.mp absent ?_
  apply (infix_unlines_iff ConflictMark.theirs.single_text ConflictMark.theirs.text_ne_nil _).mpr
  exact ⟨block.middleLine, by simp [behindStart], begins_middleLine.isInfix⟩

/-- A mark in a line of ours is found inside the section, another one behind it. -/
theorem find_in_ours (block : Block) (mark : ConflictMark) :
    ((∃ line ∈ block.ours, mark.text <:+: line) ∧
        ∃ position, Search.find mark.text block.textBehindStart = some position ∧
          position ≤ (unlines '\n' block.ours).length) ∨
      ((∀ line ∈ block.ours, ¬ mark.text <:+: line) ∧
        Search.find mark.text block.textBehindStart =
          (Search.find mark.text (unlines '\n' (block.baseLines ++ block.middleLine ::
            block.theirs ++ [block.endLine]))).map (· + (unlines '\n' block.ours).length)) := by
  have shape : block.textBehindStart = unlines '\n' block.ours ++
      unlines '\n' (block.baseLines ++ block.middleLine :: block.theirs ++ [block.endLine]) := by
    rw [textBehindStart, behindStart, unlines_append]
  by_cases inOurs : ∃ line ∈ block.ours, mark.text <:+: line
  · have occurs := (infix_unlines_iff mark.single_text mark.text_ne_nil block.ours).mpr inOurs
    obtain ⟨position, found⟩ := Option.ne_none_iff_exists'.mp fun absent =>
      Search.find_eq_none_iff.mp absent occurs
    exact .inl ⟨inOurs, position, by rw [shape, Search.find_append_of_some found],
      Search.find_le found⟩
  · have clear : ∀ line ∈ block.ours, ¬ mark.text <:+: line := by simpa using inOurs
    exact .inr ⟨clear, by rw [shape, find_unlines mark.single_text mark.text_ne_nil clear]⟩

/-- In a three-way block the base mark is found at the end of the ours section or
inside of it. -/
theorem base_found {label : Text} {lines : List Text} (threeWay : block.base = some (label, lines)) :
    ∃ position, Search.find ConflictMark.base.text block.textBehindStart = some position ∧
      position ≤ (unlines '\n' block.ours).length := by
  rcases find_in_ours block .base with ⟨-, inside⟩ | ⟨-, behind⟩
  · exact inside
  · refine ⟨_, behind.trans ?_, Nat.le_refl _⟩
    have atStart : ConflictMark.base.text <+: unlines '\n' (block.baseLines ++ block.middleLine ::
        block.theirs ++ [block.endLine]) := by
      simp only [baseLines, threeWay, List.cons_append, unlines_cons]
      rw [prefix_line_iff ConflictMark.base.single_text]
      exact List.prefix_append _ _
    rw [Search.find_of_prefix atStart]
    simp

/-- In a three-way block the separator is found inside the ours section, if and
only if a line of it contains the mark. -/
theorem separator_in_ours_iff {label : Text} {lines : List Text}
    (threeWay : block.base = some (label, lines)) {position : Nat}
    (found : Search.find ConflictMark.theirs.text block.textBehindStart = some position) :
    position ≤ (unlines '\n' block.ours).length ↔
      ∃ line ∈ block.ours, ConflictMark.theirs.text <:+: line := by
  rcases find_in_ours block .theirs with ⟨inOurs, place, placeFound, inside⟩ | ⟨clear, behind⟩
  · obtain rfl : position = place := Option.some.inj (found.symm.trans placeFound)
    exact iff_of_true inside inOurs
  · refine iff_of_false (fun inside => ?_) fun ⟨line, member, occurs⟩ => clear line member occurs
    rw [found] at behind
    obtain ⟨offset, offsetFound, rfl⟩ := Option.map_eq_some_iff.mp behind.symm
    have notAtStart : ¬ ConflictMark.theirs.text <+: unlines '\n' (block.baseLines ++
        block.middleLine :: block.theirs ++ [block.endLine]) := by
      simp only [baseLines, threeWay, List.cons_append, unlines_cons]
      rw [prefix_line_iff ConflictMark.theirs.single_text]
      have isBase : ConflictMark.base.Begins (ConflictMark.base.text ++ label) :=
        List.prefix_append _ _
      exact isBase.not_other (by decide)
    have positive := Search.find_pos notAtStart offsetFound
    omega

/-- The side ends where its mark is found. -/
theorem ours_side_found (wellFormed : block.WellFormed) (threeWay : Bool) {position : Nat}
    (found : Search.find (oursEnd threeWay).text block.textBehindStart = some position) :
    (blockSides threeWay (unlines '\n' block.lines)).1 = block.textBehindStart.take position := by
  rw [ours_side wellFormed, upTo, found]

/-- The side is empty if its mark is not found. -/
theorem ours_side_absent (wellFormed : block.WellFormed) (threeWay : Bool)
    (absent : Search.find (oursEnd threeWay).text block.textBehindStart = none) :
    (blockSides threeWay (unlines '\n' block.lines)).1 = [] := by
  rw [ours_side wellFormed, upTo, absent]

/-- Sides that end at found marks tell the positions. -/
theorem take_inj {mark other : ConflictMark} {first second : Nat}
    (firstFound : Search.find mark.text block.textBehindStart = some first)
    (secondFound : Search.find other.text block.textBehindStart = some second)
    (same : block.textBehindStart.take first = block.textBehindStart.take second) :
    first = second := by
  have lengths := congrArg List.length same
  rwa [List.length_take_of_le (Search.find_le firstFound),
    List.length_take_of_le (Search.find_le secondFound)] at lengths

/-- A side that ends at a found mark is empty only if the mark is at the start. -/
theorem take_ne_nil {mark : ConflictMark} {position : Nat}
    (found : Search.find mark.text block.textBehindStart = some position)
    (positive : 0 < position) : block.textBehindStart.take position ≠ [] := by
  intro empty
  have length := List.length_take_of_le (Search.find_le found)
  rw [empty, List.length_nil] at length
  omega

/-- A side is ours code when it ends at most at the end of the section. -/
theorem take_prefix_iff {mark : ConflictMark} {position : Nat}
    (found : Search.find mark.text block.textBehindStart = some position) :
    block.textBehindStart.take position <+: unlines '\n' block.ours ↔
      position ≤ (unlines '\n' block.ours).length := by
  have shape : block.textBehindStart = unlines '\n' block.ours ++
      unlines '\n' (block.baseLines ++ block.middleLine :: block.theirs ++ [block.endLine]) := by
    rw [textBehindStart, behindStart, unlines_append]
  constructor
  · intro inOurs
    have lengths := inOurs.length_le
    rwa [List.length_take_of_le (Search.find_le found)] at lengths
  · intro bounded
    rw [shape, List.take_append_of_le_length bounded]
    exact List.take_prefix _ _

/-- A side that ends at a found mark is ours code, unless it runs into the base. -/
theorem oursOnly_take (wellFormed : block.WellFormed) {mark : ConflictMark} {position : Nat}
    (found : Search.find mark.text block.textBehindStart = some position) :
    block.OursOnly (block.textBehindStart.take position) ↔
      (block.base.isSome → position ≤ (unlines '\n' block.ours).length) := by
  constructor
  · intro oursOnly hasBase
    exact (take_prefix_iff found).mp (oursOnly.noBase hasBase)
  · intro bounded
    refine ⟨fun hasBase => (take_prefix_iff found).mpr (bounded hasBase), fun some_ => ?_⟩
    exact take_ne_nil found (positive_of_ours wellFormed some_ found)

/-- In a three-way block the two extractions cut different sides. -/
theorem three_way_distinct (wellFormed : block.WellFormed) {label : Text} {lines : List Text}
    (threeWay : block.base = some (label, lines)) :
    (blockSides true (unlines '\n' block.lines)).1 ≠
      (blockSides false (unlines '\n' block.lines)).1 := by
  intro same
  obtain ⟨first, firstFound, -⟩ := base_found threeWay
  obtain ⟨second, secondFound⟩ := separator_found block
  rw [ours_side_found wellFormed true firstFound,
    ours_side_found wellFormed false secondFound] at same
  obtain rfl := take_inj firstFound secondFound same
  exact absurd (mark_unique firstFound secondFound) (by decide)

/-- In a three-way block the three-way extraction cuts ours code; the two-way
extraction does if the separator mark is in a line of it. -/
theorem three_way_oursOnly (wellFormed : block.WellFormed) {label : Text} {lines : List Text}
    (threeWay : block.base = some (label, lines)) (extraction : Bool) :
    block.OursOnly (blockSides extraction (unlines '\n' block.lines)).1 ↔
      extraction ∨ ∃ line ∈ block.ours, ConflictMark.theirs.text <:+: line := by
  cases extraction with
  | true =>
      obtain ⟨position, found, bounded⟩ := base_found threeWay
      rw [ours_side_found wellFormed true found, oursOnly_take wellFormed found]
      exact iff_of_true (fun _ => bounded) (.inl rfl)
  | false =>
      obtain ⟨position, found⟩ := separator_found block
      rw [ours_side_found wellFormed false found, oursOnly_take wellFormed found,
        separator_in_ours_iff threeWay found]
      simp [threeWay]

/-- The base mark is not found, if and only if no line contains it. -/
theorem base_absent_iff (block : Block) :
    Search.find ConflictMark.base.text block.textBehindStart = none ↔
      ∀ line ∈ block.behindStart, ¬ ConflictMark.base.text <:+: line := by
  rw [Search.find_eq_none_iff, textBehindStart,
    infix_unlines_iff ConflictMark.base.single_text ConflictMark.base.text_ne_nil]
  push Not
  rfl

/-- With nothing in ours the separator of a two-way block is at the start. -/
theorem separator_at_start (noBase : block.base = none) (nothing : block.ours = []) :
    Search.find ConflictMark.theirs.text block.textBehindStart = some 0 := by
  apply Search.find_of_prefix
  simp only [textBehindStart, behindStart, nothing, baseLines, noBase, List.nil_append,
    List.cons_append, unlines_cons]
  rw [prefix_line_iff ConflictMark.theirs.single_text]
  exact begins_middleLine

/-- In a two-way block the two-way extraction loses nothing; the three-way
extraction loses the code of ours if there is no base mark to end it. -/
theorem two_way_oursOnly (wellFormed : block.WellFormed) (noBase : block.base = none)
    (extraction : Bool) :
    block.OursOnly (blockSides extraction (unlines '\n' block.lines)).1 ↔
      (extraction → block.ours = [] ∨
        ∃ line ∈ block.behindStart, ConflictMark.base.text <:+: line) := by
  have vacuous {position : Nat} :
      block.base.isSome → position ≤ (unlines '\n' block.ours).length := by simp [noBase]
  cases extraction with
  | false =>
      obtain ⟨position, found⟩ := separator_found block
      rw [ours_side_found wellFormed false found, oursOnly_take wellFormed found]
      exact iff_of_true vacuous fun impossible => Bool.noConfusion impossible
  | true =>
      cases search : Search.find ConflictMark.base.text block.textBehindStart with
      | some position =>
          rw [ours_side_found wellFormed true search,
            oursOnly_take wellFormed search]
          refine iff_of_true vacuous fun _ => .inr ?_
          by_contra none_
          have absent := (base_absent_iff block).mpr (by push Not at none_; exact none_)
          exact Option.some_ne_none position (search.symm.trans absent)
      | none =>
          rw [ours_side_absent wellFormed true search]
          have clear := (base_absent_iff block).mp search
          constructor
          · rintro oursOnly -
            exact .inl (by_contra fun some_ => oursOnly.nonempty some_ rfl)
          · intro suits
            rcases suits rfl with nothing | ⟨line, member, occurs⟩
            · exact ⟨by simp [noBase], fun some_ => absurd nothing some_⟩
            · exact absurd occurs (clear line member)

/-- In a two-way block the two extractions agree when there is nothing in ours,
and no base mark. -/
theorem two_way_same_iff (wellFormed : block.WellFormed) (noBase : block.base = none) :
    (blockSides true (unlines '\n' block.lines)).1 =
        (blockSides false (unlines '\n' block.lines)).1 ↔
      block.ours = [] ∧ ∀ line ∈ block.behindStart, ¬ ConflictMark.base.text <:+: line := by
  obtain ⟨second, secondFound⟩ := separator_found block
  rw [ours_side_found wellFormed false secondFound, ← base_absent_iff]
  cases search : Search.find ConflictMark.base.text block.textBehindStart with
  | some first =>
      rw [ours_side_found wellFormed true search]
      refine iff_of_false (fun same => ?_) fun both => Option.some_ne_none first both.2
      obtain rfl := take_inj search secondFound same
      exact absurd (mark_unique search secondFound) (by decide)
  | none =>
      rw [ours_side_absent wellFormed true search]
      constructor
      · intro same
        refine ⟨by_contra fun some_ => ?_, rfl⟩
        exact take_ne_nil secondFound (positive_of_ours wellFormed some_ secondFound) same.symm
      · rintro ⟨nothing, -⟩
        obtain rfl : 0 = second :=
          Option.some.inj ((separator_at_start noBase nothing).symm.trans secondFound)
        rfl

/-- The choices of extraction suit a block, if and only if they cut the same
sides out of it and nothing but ours code. -/
theorem suits_iff (wellFormed : block.WellFormed) (first second : Bool) :
    block.Suits first second ↔
      blockSides first (unlines '\n' block.lines) = blockSides second (unlines '\n' block.lines) ∧
        block.OursOnly (blockSides first (unlines '\n' block.lines)).1 ∧
        block.OursOnly (blockSides second (unlines '\n' block.lines)).1 := by
  have sameSides : blockSides first (unlines '\n' block.lines) =
      blockSides second (unlines '\n' block.lines) ↔
        (blockSides first (unlines '\n' block.lines)).1 =
          (blockSides second (unlines '\n' block.lines)).1 := by
    rw [Prod.ext_iff, theirs_side, theirs_side]
    exact and_iff_left rfl
  rw [sameSides]
  cases shape : block.base with
  | some base =>
      obtain ⟨label, lines⟩ := base
      have distinct := three_way_distinct wellFormed shape
      have oursOnly := three_way_oursOnly wellFormed shape
      simp only [Suits, shape]
      cases first <;> cases second <;> simp [oursOnly, distinct, distinct.symm]
  | none =>
      have same := two_way_same_iff wellFormed shape
      have oursOnly := two_way_oursOnly wellFormed shape
      have back := eq_comm.trans same
      have nothingLost {conclusion : Prop} :
          (block.ours = [] ∧ ∀ line ∈ block.behindStart, ¬ ConflictMark.base.text <:+: line) →
            block.ours = [] ∨ conclusion := fun both => .inl both.1
      simp only [Suits, shape, oursOnly]
      cases first <;> cases second
      · simp
      · rw [back]
        simpa using nothingLost
      · rw [same]
        simpa using nothingLost
      · simp

end Block

/-- Where a list has a block, a handler cuts exactly one pair of sides out of it. -/
theorem forall_sidesIn {files : List ConflictFile} {filename : Text} {block : Block}
    (has : HasBlock files filename block) (property : Text × Text → Prop) :
    (∀ sides ∈ sidesIn files filename (unlines '\n' block.lines), property sides) ↔
      property (blockSides (withBase files) (unlines '\n' block.lines)) := by
  have all : ∀ sides ∈ sidesIn files filename (unlines '\n' block.lines),
      sides = blockSides (withBase files) (unlines '\n' block.lines) := by
    intro sides member
    obtain ⟨file, -, inFile⟩ := List.mem_flatMap.mp member
    obtain ⟨found, isFound, rfl⟩ := List.mem_map.mp inFile
    have range : found.conflictRange = unlines '\n' block.lines := by
      simpa using (List.mem_filter.mp isFound).2
    rw [range]
  obtain ⟨file, fileMember, name, found, foundMember, range⟩ := has
  have present : blockSides (withBase files) (unlines '\n' block.lines) ∈
      sidesIn files filename (unlines '\n' block.lines) := by
    refine List.mem_flatMap.mpr ⟨file, List.mem_filter.mpr ⟨fileMember, by simp [name]⟩, ?_⟩
    exact List.mem_map.mpr ⟨found, List.mem_filter.mpr ⟨foundMember, by simp [range]⟩, by rw [range]⟩
  exact ⟨fun every => every _ present, fun holds sides member => all sides member ▸ holds⟩

/-- The sides of a block do not depend on the other files and are ours sides, if
and only if the extractions that the two lists choose suit the block. -/
theorem sidesIndependent_iff {block : Block} {filename : Text} {first second : List ConflictFile}
    (wellFormed : block.WellFormed) (inFirst : HasBlock first filename block)
    (inSecond : HasBlock second filename block) :
    block.SidesIndependent filename first second ↔
      block.Suits (withBase first) (withBase second) := by
  rw [Block.suits_iff wellFormed, Block.SidesIndependent, List.forall_mem_append,
    forall_sidesIn inFirst, forall_sidesIn inFirst, forall_sidesIn inSecond,
    forall_sidesIn inSecond]

/-- A block with its base. -/
def baseBlock : Block where
  startLabel := " HEAD".toList
  ours := ["f();".toList]
  base := some (" base".toList, ["g();".toList])
  middleLabel := []
  theirs := ["h();".toList]
  endLabel := " topic".toList

theorem baseBlock_wellFormed : baseBlock.WellFormed where
  startLabel := by decide
  ours := by
    simp only [baseBlock, List.mem_singleton, forall_eq]
    exact ⟨by decide, fun mark => by cases mark <;> decide⟩
  baseLabel := by
    simp only [baseBlock, Option.mem_some_iff, forall_eq']
    decide
  base := by
    simp only [baseBlock, Option.mem_some_iff, forall_eq', List.mem_singleton, forall_eq]
    exact ⟨by decide, fun mark => by cases mark <;> decide⟩
  middleLabel := by decide
  theirs := by
    simp only [baseBlock, List.mem_singleton, forall_eq]
    exact ⟨by decide, fun mark => by cases mark <;> decide⟩
  endLabel := by decide

/-- The file with this block. -/
def baseFile : ConflictFile where
  filename := "b.cpp".toList
  conflictBlocks := [{ index := 1, conflictRange := unlines '\n' baseBlock.lines }]

/-- A file without blocks. -/
def plainFile : ConflictFile where
  filename := "a.cpp".toList
  conflictBlocks := []

theorem baseFile_has {files : List ConflictFile} (member : baseFile ∈ files) :
    HasBlock files "b.cpp".toList baseBlock :=
  ⟨baseFile, member, rfl, _, List.mem_singleton_self _, rfl⟩

/-- Behind a file without blocks the block is cut two-way: its base becomes part
of the ours side. -/
theorem plainFile_first :
    baseBlock.WellFormed ∧ HasBlock [baseFile] "b.cpp".toList baseBlock ∧
      HasBlock [plainFile, baseFile] "b.cpp".toList baseBlock ∧
      ¬ baseBlock.SidesIndependent "b.cpp".toList [baseFile] [plainFile, baseFile] := by
  have alone := baseFile_has (List.mem_singleton_self baseFile)
  have behind : HasBlock [plainFile, baseFile] "b.cpp".toList baseBlock :=
    baseFile_has (by simp)
  refine ⟨baseBlock_wellFormed, alone, behind, fun independent => ?_⟩
  obtain ⟨same, -⟩ := independent
  have cut := (forall_sidesIn behind _).mp ((forall_sidesIn alone _).mp same)
  exact absurd (congrArg Prod.fst cut) (by decide)

/-- The equivalence for the two lists. -/
theorem baseBlock_sides :
    baseBlock.SidesIndependent "b.cpp".toList [baseFile] [plainFile, baseFile] ↔
      baseBlock.Suits (withBase [baseFile]) (withBase [plainFile, baseFile]) :=
  sidesIndependent_iff baseBlock_wellFormed (baseFile_has (List.mem_singleton_self baseFile))
    (baseFile_has (by simp))

end MergeBot
