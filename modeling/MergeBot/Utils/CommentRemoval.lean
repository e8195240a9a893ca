import MergeBot.Conflict.Scanner
import MergeBot.Foundation.Placement
import MergeBot.Model.SemanticNode

/-!
# Removing comments and spaces

`removeCommentsAndSpaces` is a scan with four flags and one character of look-back and
look-ahead. A lexer reads the same code as a sequence of `Segment`s.
`removeCommentsAndSpaces_iff`: the two agree exactly when every segment is `ReadAlike`.
The scan looks for quotes before it looks at its comment flags, and it takes every quote
behind a backslash for an escaped one, also behind an escaped backslash.

It passes on all quotes, so that what stands between two quotes can be compared
separately (`length_upToQuote_le`).
-/

namespace MergeBot

open Foundation

/-! ## The scan -/

/-- The flags of the scan. -/
structure ScanState where
  inSingleLineComment : Bool := false
  inMultiLineComment : Bool := false
  inString : Bool := false
  stringDelimiter : Char := '\x00'
deriving DecidableEq, Repr

/-- What one turn of the scan does: the characters it pushes, the flags that it leaves, and
whether it skips the next character. -/
structure ScanTurn where
  pushed : Text
  state : ScanState
  skips : Bool := false
deriving DecidableEq, Repr

/-- One turn, at a character between its neighbours. -/
def scanTurn (state : ScanState) (previous c next : Char) : ScanTurn :=
  if state.inString then
    { pushed := [c]
      state :=
        if c = state.stringDelimiter ∧ previous ≠ '\\' then { state with inString := false }
        else state }
  else if c = '"' ∨ c = '\'' then
    { pushed := [c], state := { state with inString := true, stringDelimiter := c } }
  else if state.inMultiLineComment then
    if c = '*' ∧ next = '/' then
      { pushed := [], state := { state with inMultiLineComment := false }, skips := true }
    else { pushed := [], state }
  else if state.inSingleLineComment then
    { pushed := []
      state := if c = '\n' then { state with inSingleLineComment := false } else state }
  else if c = '/' ∧ next = '/' then
    { pushed := [], state := { state with inSingleLineComment := true }, skips := true }
  else if c = '/' ∧ next = '*' then
    { pushed := [], state := { state with inMultiLineComment := true }, skips := true }
  else { pushed := if isSpace c then [] else [c], state }

/-- The scan of the rest of a code text; behind its last character comes a zero. -/
def scanCode : ScanState → Char → Text → Text
  | _, _, [] => []
  | state, previous, [c] => (scanTurn state previous c '\x00').pushed
  | state, previous, c :: next :: rest =>
      let turn := scanTurn state previous c next
      turn.pushed ++
        if turn.skips then scanCode turn.state next rest
        else scanCode turn.state c (next :: rest)

/-- Code without its comments and spaces. -/
def removeCommentsAndSpaces (code : Text) : Text :=
  scanCode {} '\x00' code

/-! ## Code as a lexer reads it -/

/-- The characters that delimit literals. -/
def IsQuote (c : Char) : Prop := c = '"' ∨ c = '\''

instance : DecidablePred IsQuote :=
  fun c => inferInstanceAs (Decidable (c = '"' ∨ c = '\''))

/-- A character of a literal, or one behind a backslash. -/
inductive LiteralItem
  | plain (c : Char)
  | escape (c : Char)
deriving DecidableEq, Repr

def LiteralItem.text : LiteralItem → Text
  | plain c => [c]
  | escape c => ['\\', c]

/-- The text of a literal between its delimiters. -/
def contentText (content : List LiteralItem) : Text :=
  content.flatMap LiteralItem.text

/-- A piece of code. A line comment ends with its line break or, if that is missing, with
the code. -/
inductive Segment
  | lineComment (body : Text) (lineBreak : Bool)
  | blockComment (body : Text)
  | literal (delimiter : Char) (content : List LiteralItem)
  | ordinary (run : Text)
deriving DecidableEq, Repr

namespace Segment

def text : Segment → Text
  | lineComment body lineBreak => '/' :: '/' :: (body ++ if lineBreak then ['\n'] else [])
  | blockComment body => '/' :: '*' :: (body ++ ['*', '/'])
  | literal delimiter content => delimiter :: (contentText content ++ [delimiter])
  | ordinary run => run

/-- What a segment contributes: a literal itself, and the characters of a run that are no
white space. -/
def kept : Segment → Text
  | lineComment _ _ | blockComment _ => []
  | literal delimiter content => delimiter :: (contentText content ++ [delimiter])
  | ordinary run => run.filter fun c => !isSpace c

/-- A segment in front of `after` is one that a lexer reads there. A run has no comment
opener, and none begins at its last character. -/
def Valid (after : Text) : Segment → Prop
  | lineComment body lineBreak => '\n' ∉ body ∧ (lineBreak = false → after = [])
  | blockComment body => ¬ ['*', '/'] <:+: body
  | literal delimiter content =>
      IsQuote delimiter ∧ ∀ item ∈ content, item ≠ .plain delimiter ∧ item ≠ .plain '\\'
  | ordinary run =>
      (∀ c ∈ run, ¬ IsQuote c) ∧ ¬ ['/', '/'] <:+: run ++ after.take 1 ∧
        ¬ ['/', '*'] <:+: run ++ after.take 1

end Segment

/-- The text of a sequence of segments. -/
def codeText (segments : List Segment) : Text :=
  segments.flatMap Segment.text

/-- What a sequence of segments contributes. -/
def codeKept (segments : List Segment) : Text :=
  segments.flatMap Segment.kept

/-- Each segment is one that a lexer reads at its place. -/
def Lexed : List Segment → Prop
  | [] => True
  | segment :: rest => segment.Valid (codeText rest) ∧ Lexed rest

/-- A code text as the sequence of the segments that a lexer reads. -/
structure LexedCode where
  segments : List Segment
  lexed : Lexed segments

namespace LexedCode

def text (code : LexedCode) : Text := codeText code.segments

def kept (code : LexedCode) : Text := codeKept code.segments

end LexedCode

/-! ## Quotes with one character of look-back -/

/-- The delimiter of the literal that is open behind a text, read with one character of
look-back: a literal ends at the first of its delimiters that follows no backslash. -/
def openLiteral : Option Char → Char → Text → Option Char
  | opened, _, [] => opened
  | none, _, c :: rest => openLiteral (if IsQuote c then some c else none) c rest
  | some delimiter, previous, c :: rest =>
      openLiteral (if c = delimiter ∧ previous ≠ '\\' then none else some delimiter) c rest

/-- The literal that is open behind a text. -/
def lookBack (text : Text) : Option Char :=
  openLiteral none '\x00' text

/-- A character with which the scan drops something. -/
def Dropped (rest : Text) (c : Char) : Prop :=
  isSpace c ∨ c = '/' ∧ (rest.head? = some '/' ∨ rest.head? = some '*')

/-- The two readings of a segment are alike. `reading` has the literal that is open by
look-back after more text.  -/
def Segment.ReadAlike (reading : Text → Option Char) : Segment → Prop
  | lineComment body _ | blockComment body => reading [] = none ∧ ∀ c ∈ body, ¬ IsQuote c
  | literal delimiter content =>
      ∀ front c rest, contentText content = front ++ c :: rest →
        reading (delimiter :: front) = none → ¬ Dropped rest c
  | ordinary run => reading [] = none ∨ ∀ c ∈ run, ¬ isSpace c

/-- The two readings of all segments are alike. -/
def LexedCode.ReadAlike (code : LexedCode) : Prop :=
  ∀ before segment after, code.segments = before ++ segment :: after →
    segment.ReadAlike fun more => lookBack (codeText before ++ more)

/-- A text read in two steps. -/
theorem openLiteral_append (opened : Option Char) (previous : Char) (first second : Text) :
    openLiteral opened previous (first ++ second) =
      openLiteral (openLiteral opened previous first) (first.getLastD previous) second := by
  induction first generalizing opened previous with
  | nil => rfl
  | cons c rest inductionHypothesis =>
      have last : (c :: rest).getLastD previous = rest.getLastD c := by
        cases rest <;> rfl
      cases opened <;> simp only [List.cons_append, openLiteral, inductionHypothesis, last]

/-- Only a quote is open. -/
theorem isQuote_of_openLiteral {opened : Option Char} (quoted : ∀ d ∈ opened, IsQuote d)
    (previous : Char) (text : Text) : ∀ d ∈ openLiteral opened previous text, IsQuote d := by
  induction text generalizing opened previous with
  | nil => cases opened <;> exact quoted
  | cons c rest inductionHypothesis =>
      cases opened with
      | none =>
          refine inductionHypothesis ?_ c
          by_cases quote : IsQuote c <;> simp [quote]
      | some delimiter =>
          refine inductionHypothesis ?_ c
          by_cases closes : c = delimiter ∧ previous ≠ '\\'
          · simp [closes]
          · simpa [closes] using quoted delimiter rfl

/-- A text without quotes opens and closes nothing. -/
theorem openLiteral_of_quiet {opened : Option Char} (quoted : ∀ d ∈ opened, IsQuote d)
    (previous : Char) {text : Text} (quiet : ∀ c ∈ text, ¬ IsQuote c) :
    openLiteral opened previous text = opened := by
  induction text generalizing previous with
  | nil => cases opened <;> rfl
  | cons c rest inductionHypothesis =>
      have later := inductionHypothesis c fun other member =>
        quiet other (List.mem_cons_of_mem c member)
      have plain := quiet c List.mem_cons_self
      cases opened with
      | none => rw [openLiteral, if_neg plain, later]
      | some delimiter =>
          have different : c ≠ delimiter := fun same => plain (same ▸ quoted delimiter rfl)
          rw [openLiteral, if_neg fun closes => different closes.1, later]

/-! ## One turn after the other -/

/-- A property of texts that is handed on from the rest, or from the rest but one, of a text. -/
theorem scan_induction {motive : Text → Prop} (nil : motive [])
    (cons : ∀ c rest, motive rest → motive rest.tail → motive (c :: rest)) (text : Text) :
    motive text := by
  have both : motive text ∧ motive text.tail := by
    induction text with
    | nil => exact ⟨nil, nil⟩
    | cons c rest inductionHypothesis =>
        exact ⟨cons c rest inductionHypothesis.1 inductionHypothesis.2, inductionHypothesis.1⟩
  exact both.1

/-- One turn, whatever follows. -/
theorem scanCode_cons (state : ScanState) (previous c : Char) (rest : Text) :
    scanCode state previous (c :: rest) =
      (scanTurn state previous c (rest.headD '\x00')).pushed ++
        if (scanTurn state previous c (rest.headD '\x00')).skips then
          scanCode (scanTurn state previous c (rest.headD '\x00')).state (rest.headD '\x00')
            rest.tail
        else scanCode (scanTurn state previous c (rest.headD '\x00')).state c rest := by
  cases rest with
  | nil => simp [scanCode]
  | cons next rest => rfl

section Turn

variable (state : ScanState) (previous c next : Char)

/-- A quote is passed on in every state. -/
theorem scanTurn_quote {c : Char} (quote : IsQuote c) :
    (scanTurn state previous c next).pushed = [c] ∧
      (scanTurn state previous c next).skips = false := by
  have isQuote : c = '"' ∨ c = '\'' := quote
  unfold scanTurn
  by_cases opened : state.inString = true <;> simp [opened, isQuote]

/-- A turn passes its character on or drops it. -/
theorem scanTurn_pushed : (scanTurn state previous c next).pushed = [] ∨
    (scanTurn state previous c next).pushed = [c] := by
  unfold scanTurn
  split_ifs <;> simp

/-- A turn that skips the next character drops its own, and the next one is no quote. -/
theorem scanTurn_skips (skips : (scanTurn state previous c next).skips = true) :
    (scanTurn state previous c next).pushed = [] ∧ (next = '/' ∨ next = '*') := by
  revert skips
  unfold scanTurn
  split_ifs <;> simp_all

/-- One turn hands its character on or drops it, and a quote is handed on; or it drops the next
character too, and neither is a quote. -/
theorem scanCode_cases (rest : Text) :
    (∃ pushed after, (pushed = [] ∨ pushed = [c]) ∧ (IsQuote c → pushed = [c]) ∧
      scanCode state previous (c :: rest) = pushed ++ scanCode after c rest) ∨
    ∃ next more after, rest = next :: more ∧ ¬ IsQuote c ∧ ¬ IsQuote next ∧
      scanCode state previous (c :: rest) = scanCode after next more := by
  have turn := scanCode_cons state previous c rest
  by_cases skips : (scanTurn state previous c (rest.headD '\x00')).skips = true
  · obtain ⟨pushed, nextIs⟩ := scanTurn_skips _ _ _ _ skips
    have plain : ¬ IsQuote c := fun quote =>
      Bool.noConfusion ((scanTurn_quote state previous _ quote).2.symm.trans skips)
    rw [if_pos skips, pushed, List.nil_append] at turn
    cases rest with
    | nil => simp at nextIs
    | cons next more =>
        rw [List.headD_cons] at nextIs
        have nextPlain : ¬ IsQuote next := by
          rcases nextIs with rfl | rfl <;> decide
        exact .inr ⟨next, more, _, rfl, plain, nextPlain, turn⟩
  · rw [if_neg skips] at turn
    exact .inl ⟨_, _, scanTurn_pushed state previous c _,
      fun quote => (scanTurn_quote state previous _ quote).1, turn⟩

end Turn

/-- The scan passes on all quotes. -/
theorem countP_scanCode (state : ScanState) (previous : Char) (text : Text) :
    (scanCode state previous text).countP (IsQuote ·) = text.countP (IsQuote ·) := by
  induction text using scan_induction generalizing state previous with
  | nil => rfl
  | cons c rest later skipped =>
      rcases scanCode_cases state previous c rest with
        ⟨pushed, after, either, quoted, run⟩ | ⟨next, more, after, rfl, plain, nextPlain, run⟩
      · rw [run, List.countP_append, later]
        by_cases quote : IsQuote c
        · rw [quoted quote, ← List.countP_append, List.singleton_append]
        · rcases either with rfl | rfl <;> simp [quote]
      · rw [run, List.tail_cons] at *
        rw [skipped]
        simp [plain, nextPlain]

/-- The text in front of the first quote. -/
def upToQuote (text : Text) : Text :=
  text.takeWhile fun c => !decide (IsQuote c)

theorem upToQuote_quote {c : Char} (quote : IsQuote c) (rest : Text) :
    upToQuote (c :: rest) = [] := by
  simp [upToQuote, quote]

theorem upToQuote_cons {c : Char} (plain : ¬ IsQuote c) (rest : Text) :
    upToQuote (c :: rest) = c :: upToQuote rest := by
  simp [upToQuote, plain]

theorem upToQuote_append {first : Text} (quiet : ∀ c ∈ first, ¬ IsQuote c) (second : Text) :
    upToQuote (first ++ second) = first ++ upToQuote second :=
  List.takeWhile_append_of_pos fun c member => by simpa using quiet c member

/-- The scan adds nothing in front of the first quote. -/
theorem length_upToQuote_le (state : ScanState) (previous : Char) (text : Text) :
    (upToQuote (scanCode state previous text)).length ≤ (upToQuote text).length := by
  induction text using scan_induction generalizing state previous with
  | nil => simp [scanCode]
  | cons c rest later skipped =>
      rcases scanCode_cases state previous c rest with
        ⟨pushed, after, either, quoted, run⟩ | ⟨next, more, after, rfl, plain, nextPlain, run⟩
      · by_cases quote : IsQuote c
        · rw [run, quoted quote, List.singleton_append, upToQuote_quote quote]
          exact Nat.zero_le _
        · have bound := later after c
          rw [run, upToQuote_cons quote, List.length_cons]
          rcases either with rfl | rfl
          · rw [List.nil_append]
            omega
          · rw [List.singleton_append, upToQuote_cons quote, List.length_cons]
            omega
      · have bound := skipped after next
        rw [run, upToQuote_cons plain, upToQuote_cons nextPlain]
        simp only [List.tail_cons, List.length_cons] at bound ⊢
        omega

/-! ## Between the literals and inside of them -/

/-- The flags outside of comments. -/
def scanState : Option Char → ScanState
  | none => {}
  | some delimiter => { inString := true, stringDelimiter := delimiter }

/-- Outside of literals a turn reads neither the last delimiter nor the previous character. -/
theorem scanTurn_delimiter {state : ScanState} (outside : state.inString = false)
    (previous other delimiter c next : Char) :
    let turn := scanTurn state previous c next
    let same := scanTurn { state with stringDelimiter := delimiter } other c next
    same.pushed = turn.pushed ∧ same.skips = turn.skips ∧
      (same.state = turn.state ∨ turn.state.inString = false ∧
        same.state = { turn.state with stringDelimiter := delimiter }) := by
  obtain ⟨line, block, _, _⟩ := state
  obtain rfl : _ = false := outside
  unfold scanTurn
  simp only [Bool.false_eq_true, if_false]
  split_ifs <;> simp

/-- Outside of literals neither the last delimiter nor the previous character matters. -/
theorem scanCode_delimiter (state : ScanState) (outside : state.inString = false)
    (previous other delimiter : Char) (text : Text) :
    scanCode { state with stringDelimiter := delimiter } other text =
      scanCode state previous text := by
  induction text using scan_induction generalizing state previous other with
  | nil => rfl
  | cons c rest later skipped =>
      obtain ⟨pushed, skips, same | ⟨still, same⟩⟩ :=
        scanTurn_delimiter outside previous other delimiter c (rest.headD '\x00')
      · rw [scanCode_cons, scanCode_cons state, pushed, skips, same]
      · rw [scanCode_cons, scanCode_cons state, pushed, skips, same, later _ still c c,
          skipped _ still _ (rest.headD '\x00')]

/-- What is not dropped is handed on. -/
theorem scanCode_keep {opened : Option Char} (previous : Char) {c : Char} {rest : Text}
    (keeps : opened = none → ¬ Dropped rest c) :
    scanCode (scanState opened) previous (c :: rest) =
      c :: scanCode (scanState (openLiteral opened previous [c])) c rest := by
  rw [scanCode_cons]
  cases opened with
  | some delimiter =>
      by_cases closes : c = delimiter ∧ previous ≠ '\\'
      · have outside := scanCode_delimiter (scanState none) rfl c c delimiter rest
        simpa [scanTurn, scanState, closes, openLiteral] using outside
      · simp [scanTurn, scanState, closes, openLiteral]
  | none =>
      obtain ⟨solid, noOpener⟩ := not_or.mp (keeps rfl)
      by_cases quote : c = '"' ∨ c = '\''
      · simp [scanTurn, scanState, quote, openLiteral, IsQuote]
      · have noLine : ¬ (c = '/' ∧ rest.headD '\x00' = '/') := fun opener =>
          noOpener ⟨opener.1, by cases rest <;> simp_all⟩
        have noBlock : ¬ (c = '/' ∧ rest.headD '\x00' = '*') := fun opener =>
          noOpener ⟨opener.1, by cases rest <;> simp_all⟩
        simp only [scanTurn, scanState, quote, noLine, noBlock, solid, openLiteral, IsQuote]
        simp

/-- A white space and a comment opener are no quotes. -/
theorem Dropped.not_quote (rest : Text) {c : Char} (dropped : Dropped rest c) : ¬ IsQuote c := by
  rcases dropped with space | ⟨rfl, -⟩
  · rintro (rfl | rfl) <;> exact absurd space (by decide)
  · decide

/-- Two slashes open a line comment. -/
theorem scanCode_lineComment (previous : Char) (rest : Text) :
    scanCode (scanState none) previous ('/' :: '/' :: rest) =
      scanCode { inSingleLineComment := true } '/' rest := by
  simp [scanCode, scanTurn, scanState]

/-- A slash and an asterisk open a block comment. -/
theorem scanCode_blockComment (previous : Char) (rest : Text) :
    scanCode (scanState none) previous ('/' :: '*' :: rest) =
      scanCode { inMultiLineComment := true } '*' rest := by
  simp [scanCode, scanTurn, scanState]

/-- Outside of literals white space is dropped. -/
theorem scanCode_space (previous : Char) {c : Char} (space : isSpace c = true) (rest : Text) :
    scanCode (scanState none) previous (c :: rest) = scanCode (scanState none) c rest := by
  have plain := Dropped.not_quote rest (.inl space)
  have noSlash : c ≠ '/' := by
    rintro rfl
    exact absurd space (by decide)
  rw [scanCode_cons]
  simp only [IsQuote] at plain
  simp [scanTurn, scanState, plain, noSlash, space]

/-- What is dropped is missing in front of the next quote. -/
theorem length_upToQuote_lt (previous : Char) {c : Char} {rest : Text} (dropped : Dropped rest c) :
    (upToQuote (scanCode (scanState none) previous (c :: rest))).length <
      (upToQuote (c :: rest)).length := by
  have shorter (state : ScanState) (last : Char) {opener : Char} (plain : ¬ IsQuote opener)
      (more : Text) : (upToQuote (scanCode state last more)).length <
        (upToQuote (opener :: more)).length := by
    rw [upToQuote_cons plain, List.length_cons]
    exact Nat.lt_succ_of_le (length_upToQuote_le state last more)
  rcases dropped with space | ⟨rfl, opener⟩
  · rw [scanCode_space previous space]
    exact shorter _ _ (Dropped.not_quote rest (.inl space)) rest
  · rw [upToQuote_cons (by decide), List.length_cons]
    apply Nat.lt_succ_of_lt
    rcases opener with line | block
    · obtain ⟨more, rfl⟩ := List.head?_eq_some_iff.mp line
      rw [scanCode_lineComment]
      exact shorter _ _ (by decide) more
    · obtain ⟨more, rfl⟩ := List.head?_eq_some_iff.mp block
      rw [scanCode_blockComment]
      exact shorter _ _ (by decide) more

/-- What stands in front of the next quote does not depend on what follows the quote. -/
theorem upToQuote_append_quote {quote : Char} (isQuote : IsQuote quote) (first second other : Text) :
    upToQuote (first ++ quote :: second) = upToQuote (first ++ quote :: other) := by
  induction first with
  | nil => rw [List.nil_append, List.nil_append, upToQuote_quote isQuote, upToQuote_quote isQuote]
  | cons c rest inductionHypothesis =>
      by_cases plain : IsQuote c
      · rw [List.cons_append, List.cons_append, upToQuote_quote plain, upToQuote_quote plain]
      · rw [List.cons_append, List.cons_append, upToQuote_cons plain, upToQuote_cons plain,
          inductionHypothesis]

/-- A text in front of a quote is handed on as it is exactly when nothing of it is dropped. -/
theorem scanCode_text_iff (text : Text) (opened : Option Char) (previous : Char) {quote : Char}
    (isQuote : IsQuote quote) (rest kept : Text) :
    scanCode (scanState opened) previous (text ++ quote :: rest) = text ++ quote :: kept ↔
      (∀ front c more, text = front ++ c :: more → openLiteral opened previous front = none →
        ¬ Dropped more c) ∧
      scanCode (scanState (openLiteral opened previous text)) (text.getLastD previous)
        (quote :: rest) = quote :: kept := by
  induction text generalizing opened previous with
  | nil =>
      rw [List.nil_append, List.nil_append]
      simp [openLiteral]
  | cons c text inductionHypothesis =>
      rw [Foundation.Placement.forall_place_cons, List.cons_append, List.cons_append]
      have sameDrop : Dropped (text ++ quote :: rest) c ↔ Dropped text c := by
        cases text with
        | nil =>
            rcases isQuote with rfl | rfl <;> simp [Dropped]
        | cons next text => rfl
      by_cases keeps : opened = none → ¬ Dropped text c
      · have last : (c :: text).getLastD previous = text.getLastD c := by
          cases text <;> rfl
        obtain ⟨step, stepped⟩ : ∃ step, openLiteral opened previous [c] = step := ⟨_, rfl⟩
        have read (front : Text) : openLiteral opened previous (c :: front) =
            openLiteral step c front :=
          stepped ▸ openLiteral_append opened previous [c] front
        have here : openLiteral opened previous [] = none → ¬ Dropped text c := by
          cases opened <;> exact keeps
        rw [scanCode_keep previous fun outside => mt sameDrop.mp (keeps outside), stepped,
          List.cons.injEq, inductionHypothesis, last]
        simp only [read, true_and]
        exact ⟨fun both => ⟨⟨here, both.1⟩, both.2⟩, fun both => ⟨both.1.2, both.2⟩⟩
      · obtain ⟨rfl, dropped⟩ := Classical.not_imp.mp keeps
        have dropped := Classical.not_not.mp dropped
        refine iff_of_false (fun same => ?_) fun all => all.1.1 rfl dropped
        have shorter := length_upToQuote_lt previous (sameDrop.mpr dropped)
        rw [same, ← List.cons_append, ← List.cons_append,
          upToQuote_append_quote isQuote (c :: text) kept rest] at shorter
        exact Nat.lt_irrefl _ shorter

/-! ## Segment by segment -/

/-- Comments have no quotes in them. -/
def Segment.Quiet : Segment → Prop
  | lineComment body _ | blockComment body => ∀ c ∈ body, ¬ IsQuote c
  | literal _ _ | ordinary _ => True

section Pieces

variable (previous : Char) (rest : Text)

/-- Inside of a literal a text without quotes is handed on. -/
theorem scanCode_inside {delimiter : Char} (isQuote : IsQuote delimiter) {text : Text}
    (quiet : ∀ c ∈ text, ¬ IsQuote c) :
    scanCode (scanState (some delimiter)) previous (text ++ rest) =
      text ++ scanCode (scanState (some delimiter)) (text.getLastD previous) rest := by
  induction text generalizing previous with
  | nil => rfl
  | cons c text inductionHypothesis =>
      have last : (c :: text).getLastD previous = text.getLastD c := by
        cases text <;> rfl
      have stays : openLiteral (some delimiter) previous [c] = some delimiter :=
        openLiteral_of_quiet (by simpa using isQuote) previous fun other member =>
          quiet other (List.mem_singleton.mp member ▸ List.mem_cons_self)
      rw [List.cons_append, scanCode_keep previous fun outside => absurd outside (by simp), stays,
        last, inductionHypothesis c fun other member => quiet other (List.mem_cons_of_mem c member)]
      rfl

/-- Inside of a literal nothing is dropped in front of the next quote. -/
theorem length_upToQuote_inside {delimiter : Char} (isQuote : IsQuote delimiter) :
    (upToQuote rest).length ≤
      (upToQuote (scanCode (scanState (some delimiter)) previous rest)).length := by
  have quiet : ∀ c ∈ upToQuote rest, ¬ IsQuote c := fun c member => by
    simpa using List.all_eq_true.mp List.all_takeWhile c member
  have run := scanCode_inside previous (rest.dropWhile fun c => !decide (IsQuote c)) isQuote quiet
  rw [upToQuote, List.takeWhile_append_dropWhile, ← upToQuote] at run
  rw [run, upToQuote_append quiet, List.length_append]
  exact Nat.le_add_right _ _

/-- The rest of a line comment without quotes is dropped. -/
theorem scanCode_lineBody {body : Text} (single : '\n' ∉ body) (quiet : ∀ c ∈ body, ¬ IsQuote c) :
    scanCode { inSingleLineComment := true } previous (body ++ '\n' :: rest) =
        scanCode (scanState none) '\n' rest ∧
      scanCode { inSingleLineComment := true } previous body = [] := by
  induction body generalizing previous with
  | nil =>
      refine ⟨?_, rfl⟩
      rw [List.nil_append, scanCode_cons]
      simp [scanTurn, scanState]
  | cons c body inductionHypothesis =>
      have plain : ¬ (c = '"' ∨ c = '\'') := quiet c List.mem_cons_self
      have noBreak : c ≠ '\n' := fun same => single (same ▸ List.mem_cons_self)
      obtain ⟨closed, open_⟩ := inductionHypothesis c
        (fun member => single (List.mem_cons_of_mem c member))
        fun other member => quiet other (List.mem_cons_of_mem c member)
      constructor
      · rw [List.cons_append, scanCode_cons]
        simpa [scanTurn, plain, noBreak] using closed
      · rw [scanCode_cons]
        simpa [scanTurn, plain, noBreak] using open_

/-- The rest of a block comment without quotes is dropped. -/
theorem scanCode_blockBody {body : Text} (unclosed : ¬ ['*', '/'] <:+: body)
    (quiet : ∀ c ∈ body, ¬ IsQuote c) :
    scanCode { inMultiLineComment := true } previous (body ++ '*' :: '/' :: rest) =
      scanCode (scanState none) '/' rest := by
  induction body generalizing previous with
  | nil => simp [scanCode, scanTurn, scanState]
  | cons c body inductionHypothesis =>
      have plain : ¬ (c = '"' ∨ c = '\'') := quiet c List.mem_cons_self
      have goesOn : ¬ (c = '*' ∧ (body ++ '*' :: '/' :: rest).headD '\x00' = '/') := by
        rintro ⟨rfl, closes⟩
        cases body with
        | nil => simp at closes
        | cons next body =>
            obtain rfl : next = '/' := closes
            exact unclosed ⟨[], body, rfl⟩
      have later := inductionHypothesis c
        (fun inner => unclosed (inner.trans (List.suffix_cons c body).isInfix))
        fun other member => quiet other (List.mem_cons_of_mem c member)
      rw [List.cons_append, scanCode_cons]
      simpa only [scanTurn, plain, goesOn, Bool.false_eq_true, if_false, if_true,
        List.nil_append] using later

/-- Outside of literals the white space of a run is dropped. -/
theorem scanCode_run {run : Text} (noLine : ¬ ['/', '/'] <:+: run ++ rest.take 1)
    (noBlock : ¬ ['/', '*'] <:+: run ++ rest.take 1) (quiet : ∀ c ∈ run, ¬ IsQuote c) :
    scanCode (scanState none) previous (run ++ rest) =
      (run.filter fun c => !isSpace c) ++ scanCode (scanState none) (run.getLastD previous) rest := by
  induction run generalizing previous with
  | nil => rfl
  | cons c run inductionHypothesis =>
      have later := inductionHypothesis c
        (fun inner => noLine (inner.trans (List.suffix_cons c _).isInfix))
        (fun inner => noBlock (inner.trans (List.suffix_cons c _).isInfix))
        fun other member => quiet other (List.mem_cons_of_mem c member)
      have last : (c :: run).getLastD previous = run.getLastD c := by
        cases run <;> rfl
      rw [List.cons_append, last]
      by_cases space : isSpace c = true
      · rw [scanCode_space previous space, later]
        simp [space]
      · have opens {opener : Char} (next : (run ++ rest).head? = some opener) :
            [c, opener] <:+: c :: run ++ rest.take 1 := by
          have shown : (run ++ rest.take 1).head? = some opener := by
            rw [← next]
            cases run with
            | nil => cases rest <;> rfl
            | cons => rfl
          obtain ⟨more, same⟩ := List.head?_eq_some_iff.mp shown
          exact ⟨[], more, by rw [List.cons_append, same]; rfl⟩
        have keeps : ¬ Dropped (run ++ rest) c := by
          rintro (isSpace | ⟨rfl, line | block⟩)
          · exact space isSpace
          · exact noLine (opens line)
          · exact noBlock (opens block)
        have stays : openLiteral none previous [c] = none :=
          openLiteral_of_quiet (by simp) previous fun other member =>
            quiet other (List.mem_singleton.mp member ▸ List.mem_cons_self)
        rw [scanCode_keep previous fun _ => keeps, stays, later]
        simp [space]

end Pieces

/-- The markers of a line comment are no quotes. -/
theorem quiet_lineComment {body : Text} (quiet : ∀ c ∈ body, ¬ IsQuote c) (lineBreak : Bool) :
    ∀ c ∈ (Segment.lineComment body lineBreak).text, ¬ IsQuote c := by
  intro c member
  simp only [Segment.text, List.mem_cons, List.mem_append] at member
  rcases member with rfl | rfl | inBody | inBreak
  · decide
  · decide
  · exact quiet c inBody
  · cases lineBreak <;> simp at inBreak
    subst inBreak
    decide

/-- The markers of a block comment are no quotes. -/
theorem quiet_blockComment {body : Text} (quiet : ∀ c ∈ body, ¬ IsQuote c) :
    ∀ c ∈ (Segment.blockComment body).text, ¬ IsQuote c := by
  intro c member
  simp only [Segment.text, List.mem_cons, List.mem_append, List.not_mem_nil, or_false] at member
  rcases member with rfl | rfl | inBody | rfl | rfl
  · decide
  · decide
  · exact quiet c inBody
  · decide
  · decide

/-- In front of its first quote a sequence of segments contributes no more than it has. -/
theorem length_upToQuote_kept_le {segments : List Segment} (lexed : Lexed segments)
    (quiet : ∀ segment ∈ segments, segment.Quiet) :
    (upToQuote (codeKept segments)).length ≤ (upToQuote (codeText segments)).length := by
  induction segments with
  | nil => exact Nat.le_refl _
  | cons segment rest inductionHypothesis =>
      obtain ⟨valid, restLexed⟩ := lexed
      have later := inductionHypothesis restLexed fun other member =>
        quiet other (List.mem_cons_of_mem segment member)
      have quietHere := quiet segment List.mem_cons_self
      rw [codeKept, codeText, List.flatMap_cons, List.flatMap_cons, ← codeKept, ← codeText]
      cases segment with
      | lineComment body lineBreak =>
          rw [upToQuote_append (quiet_lineComment quietHere lineBreak), List.length_append]
          exact Nat.le_trans later (Nat.le_add_left _ _)
      | blockComment body =>
          rw [upToQuote_append (quiet_blockComment quietHere), List.length_append]
          exact Nat.le_trans later (Nat.le_add_left _ _)
      | literal delimiter content =>
          rw [Segment.kept, List.cons_append, upToQuote_quote valid.1]
          exact Nat.zero_le _
      | ordinary run =>
          have noQuotes : ∀ c ∈ run, ¬ IsQuote c := valid.1
          rw [Segment.kept, Segment.text, upToQuote_append noQuotes,
            upToQuote_append fun c member => noQuotes c (List.mem_of_mem_filter member),
            List.length_append, List.length_append]
          exact Nat.add_le_add (List.length_filter_le _ run) later

section Step

variable {segment : Segment} {rest : List Segment} (valid : segment.Valid (codeText rest))
  (restLexed : Lexed rest) (quiet : segment.Quiet) (restQuiet : ∀ other ∈ rest, other.Quiet)
  {opened : Option Char} (quoted : ∀ d ∈ opened, IsQuote d) (previous : Char)

include restLexed restQuiet in
/-- A text without quotes that a literal by look-back hands on is not missing in the result. -/
theorem scanCode_inside_iff {delimiter : Char} (isQuote : IsQuote delimiter) {text kept : Text}
    (textQuiet : ∀ c ∈ text, ¬ IsQuote c) (keptSublist : kept.Sublist text) :
    scanCode (scanState (some delimiter)) previous (text ++ codeText rest) =
        kept ++ codeKept rest ↔
      kept = text ∧ scanCode (scanState (some delimiter)) (text.getLastD previous) (codeText rest) =
        codeKept rest := by
  rw [scanCode_inside previous _ isQuote textQuiet]
  constructor
  · intro same
    have lengths := congrArg (fun text => (upToQuote text).length) same
    have keptQuiet : ∀ c ∈ kept, ¬ IsQuote c := fun c member =>
      textQuiet c (keptSublist.subset member)
    simp only [upToQuote_append textQuiet, upToQuote_append keptQuiet, List.length_append]
      at lengths
    have inside := length_upToQuote_inside (text.getLastD previous) (codeText rest) isQuote
    have bound := length_upToQuote_kept_le restLexed restQuiet
    obtain rfl := keptSublist.eq_of_length_le (by omega)
    exact ⟨rfl, List.append_cancel_left same⟩
  · rintro ⟨rfl, later⟩
    rw [later]

include restLexed restQuiet quoted in
/-- A comment without quotes is passed over exactly when no literal is open by look-back. -/
theorem scanCode_comment_iff {text : Text} (textQuiet : ∀ c ∈ text, ¬ IsQuote c)
    (nonempty : text ≠ []) {last : Char}
    (passes : scanCode (scanState none) previous (text ++ codeText rest) =
      scanCode (scanState none) last (codeText rest)) :
    scanCode (scanState opened) previous (text ++ codeText rest) = codeKept rest ↔
      opened = none ∧ scanCode (scanState (openLiteral opened previous text))
        (text.getLastD previous) (codeText rest) = codeKept rest := by
  rw [openLiteral_of_quiet quoted previous textQuiet]
  cases opened with
  | none =>
      have same := scanCode_delimiter (scanState none) rfl last (text.getLastD previous)
        '\x00' (codeText rest)
      rw [passes, ← same]
      simp [scanState]
  | some delimiter =>
      have inside := scanCode_inside_iff restLexed restQuiet previous (quoted _ rfl) textQuiet
        (List.nil_sublist text)
      rw [List.nil_append] at inside
      rw [inside]
      simp [Ne.symm nonempty]

include valid restLexed quiet restQuiet quoted in
/-- The scan passes a segment as a lexer does, with the same result behind it, exactly when the
two readings of the segment are alike. -/
theorem scanCode_segment_iff :
    scanCode (scanState opened) previous (segment.text ++ codeText rest) =
        segment.kept ++ codeKept rest ↔
      segment.ReadAlike (openLiteral opened previous) ∧
        scanCode (scanState (openLiteral opened previous segment.text))
          (segment.text.getLastD previous) (codeText rest) = codeKept rest := by
  have here : openLiteral opened previous [] = opened := by
    cases opened <;> rfl
  cases segment with
  | lineComment body lineBreak =>
      obtain ⟨single, unfinished⟩ := valid
      have passes : scanCode (scanState none) previous
          ((Segment.lineComment body lineBreak).text ++ codeText rest) =
            scanCode (scanState none) '\n' (codeText rest) := by
        cases lineBreak with
        | false =>
            rw [unfinished rfl, Segment.text, List.append_nil]
            simp only [Bool.false_eq_true, if_false, List.append_nil]
            rw [scanCode_lineComment, (scanCode_lineBody '/' [] single quiet).2, scanCode]
        | true =>
            simpa [Segment.text, scanCode_lineComment] using
              (scanCode_lineBody '/' (codeText rest) single quiet).1
      rw [Segment.kept, List.nil_append, scanCode_comment_iff restLexed restQuiet quoted previous
        (quiet_lineComment quiet lineBreak) (List.cons_ne_nil _ _) passes, Segment.ReadAlike, here]
      exact and_congr_left' (and_iff_left quiet).symm
  | blockComment body =>
      have passes : scanCode (scanState none) previous
          ((Segment.blockComment body).text ++ codeText rest) =
            scanCode (scanState none) '/' (codeText rest) := by
        simpa [Segment.text, scanCode_blockComment] using
          scanCode_blockBody '*' (codeText rest) valid quiet
      rw [Segment.kept, List.nil_append, scanCode_comment_iff restLexed restQuiet quoted previous
        (quiet_blockComment quiet) (List.cons_ne_nil _ _) passes, Segment.ReadAlike, here]
      exact and_congr_left' (and_iff_left quiet).symm
  | literal delimiter content =>
      have isQuote : IsQuote delimiter := valid.1
      have keeps (behind : Text) : ¬ Dropped behind delimiter :=
        fun dropped => dropped.not_quote _ isQuote
      -- the delimiter, the content, and the delimiter again
      obtain ⟨inner, innerIs⟩ : ∃ inner, openLiteral opened previous [delimiter] = inner :=
        ⟨_, rfl⟩
      have opens (front : Text) : openLiteral opened previous (delimiter :: front) =
          openLiteral inner delimiter front :=
        innerIs ▸ openLiteral_append opened previous [delimiter] front
      have last : (delimiter :: (contentText content ++ [delimiter])).getLastD previous =
          delimiter := by rw [← List.cons_append, List.getLastD_concat]
      rw [Segment.text, Segment.kept, last, Segment.ReadAlike, List.cons_append,
        List.append_assoc, List.singleton_append, scanCode_keep previous fun _ => keeps _, innerIs,
        List.cons_append, List.append_assoc, List.singleton_append, List.cons.injEq,
        scanCode_text_iff _ _ _ isQuote, scanCode_keep _ fun _ => keeps _, List.cons.injEq]
      simp only [opens, openLiteral_append, true_and]
  | ordinary run =>
      obtain ⟨noQuotes, noLine, noBlock⟩ := valid
      have stays := openLiteral_of_quiet quoted previous noQuotes
      rw [Segment.text, stays, Segment.kept, Segment.ReadAlike, here]
      cases opened with
      | none =>
          rw [scanCode_run previous _ noLine noBlock noQuotes, List.append_right_inj]
          simp
      | some delimiter =>
          rw [scanCode_inside_iff restLexed restQuiet previous (quoted _ rfl) noQuotes
            List.filter_sublist, List.filter_eq_self]
          simp

end Step

/-- The scan of a sequence of segments without quotes in comments. The induction is on the
segments; what the next one meets is the literal that is open by look-back. -/
theorem scanCode_segments_iff {segments : List Segment} (lexed : Lexed segments)
    (quiet : ∀ segment ∈ segments, segment.Quiet) (opened : Option Char)
    (quoted : ∀ d ∈ opened, IsQuote d) (previous : Char) :
    scanCode (scanState opened) previous (codeText segments) = codeKept segments ↔
      ∀ before segment after, segments = before ++ segment :: after →
        segment.ReadAlike fun more => openLiteral opened previous (codeText before ++ more) := by
  induction segments generalizing opened previous with
  | nil => simp [codeText, codeKept, scanCode]
  | cons segment rest inductionHypothesis =>
      obtain ⟨valid, restLexed⟩ := lexed
      have restQuiet : ∀ other ∈ rest, other.Quiet := fun other member =>
        quiet other (List.mem_cons_of_mem segment member)
      have text_cons (others : List Segment) :
          codeText (segment :: others) = segment.text ++ codeText others := List.flatMap_cons
      have kept_cons : codeKept (segment :: rest) = segment.kept ++ codeKept rest :=
        List.flatMap_cons
      have readOn (before : List Segment) (more : Text) :
          openLiteral opened previous (codeText (segment :: before) ++ more) =
            openLiteral (openLiteral opened previous segment.text)
              (segment.text.getLastD previous) (codeText before ++ more) := by
        rw [text_cons, List.append_assoc, openLiteral_append]
      rw [Foundation.Placement.forall_place_cons, text_cons, kept_cons,
        scanCode_segment_iff valid restLexed (quiet segment List.mem_cons_self) restQuiet quoted,
        inductionHypothesis restLexed restQuiet _ (isQuote_of_openLiteral quoted previous _)]
      simp only [readOn]
      rfl

/-- A segment contributes no quote that it does not have, and all of them if its comments have
none. -/
theorem countP_kept (segment : Segment) :
    segment.kept.countP (IsQuote ·) ≤ segment.text.countP (IsQuote ·) ∧
      (segment.text.countP (IsQuote ·) ≤ segment.kept.countP (IsQuote ·) → segment.Quiet) := by
  have comment {text body : Text} (inside : body.Sublist text)
      (none : text.countP (IsQuote ·) ≤ 0) : ∀ c ∈ body, ¬ IsQuote c := fun c member quote => by
    have counted : 0 < text.countP (IsQuote ·) :=
      List.countP_pos_iff.mpr ⟨c, inside.subset member, by simpa using quote⟩
    omega
  cases segment with
  | lineComment body lineBreak =>
      refine ⟨Nat.zero_le _, comment ?_⟩
      exact ((List.sublist_append_left body _).cons '/').cons '/'
  | blockComment body =>
      refine ⟨Nat.zero_le _, comment ?_⟩
      exact ((List.sublist_append_left body _).cons '*').cons '/'
  | literal delimiter content => exact ⟨Nat.le_refl _, fun _ => trivial⟩
  | ordinary run => exact ⟨List.filter_sublist.countP_le, fun _ => trivial⟩

/-- Segments that contribute all their quotes have none in comments. -/
theorem quiet_of_countP {segments : List Segment}
    (all : (codeText segments).countP (IsQuote ·) ≤ (codeKept segments).countP (IsQuote ·)) :
    ∀ segment ∈ segments, segment.Quiet := by
  have bound (others : List Segment) :
      (codeKept others).countP (IsQuote ·) ≤ (codeText others).countP (IsQuote ·) := by
    induction others with
    | nil => exact Nat.le_refl _
    | cons first others inductionHypothesis =>
        simp only [codeKept, codeText, List.flatMap_cons, List.countP_append]
        exact Nat.add_le_add (countP_kept first).1 inductionHypothesis
  induction segments with
  | nil => simp
  | cons first rest inductionHypothesis =>
      have firstBound := (countP_kept first).1
      have restBound := bound rest
      simp only [codeKept, codeText] at all restBound inductionHypothesis
      simp only [List.flatMap_cons, List.countP_append] at all
      rw [List.forall_mem_cons]
      exact ⟨(countP_kept first).2 (by omega), inductionHypothesis (by omega)⟩

/-- Comments and spaces are removed as a lexer reads the code exactly when the two readings of
its segments are alike. -/
theorem removeCommentsAndSpaces_iff (code : LexedCode) :
    removeCommentsAndSpaces code.text = code.kept ↔ code.ReadAlike := by
  have segments_iff (quiet : ∀ segment ∈ code.segments, segment.Quiet) :=
    scanCode_segments_iff code.lexed quiet none (by simp) '\x00'
  constructor
  · intro same
    refine (segments_iff (quiet_of_countP ?_)).mp same
    have counted := countP_scanCode {} '\x00' code.text
    exact Nat.le_of_eq (counted.symm.trans (congrArg _ same))
  · intro alike
    refine (segments_iff fun segment member => ?_).mpr alike
    obtain ⟨before, after, split⟩ := List.append_of_mem member
    have reading := alike before segment after split
    cases segment with
    | lineComment | blockComment => exact reading.2
    | literal | ordinary => trivial

/-- A comment with an apostrophe in front of a declaration. -/
def apostropheComment : LexedCode where
  segments := [.lineComment " don't".toList true, .ordinary "int x;".toList]
  lexed := by
    have plain : "int x;".toList.all fun c => decide (¬ IsQuote c) := by decide
    refine ⟨⟨by decide, by simp⟩, ⟨fun c member => ?_, by decide, by decide⟩, trivial⟩
    exact of_decide_eq_true (List.all_eq_true.mp plain c member)

/-- An apostrophe in a comment opens a string. -/
theorem removeCommentsAndSpaces_misreads :
    ¬ ∀ code : LexedCode, removeCommentsAndSpaces code.text = code.kept :=
  fun all => absurd (all apostropheComment) (by decide)

-- a literal goes on behind an escaped backslash, and so does not end in front of a comment
example : removeCommentsAndSpaces "\"\\\\\" // x".toList = "\"\\\\\" // x".toList := by decide

end MergeBot
