import Mathlib.Data.List.TakeWhile
import MergeBot.Foundation.CStrings
import MergeBot.Lsp.Pipe

/-!
# Framed messages

A message is a JSON text behind a header with its length. `RecvResponse` reads the
header line by line and then the text. Both give up when reads would block too
often: `receives_outcomes` says exactly which messages are received, and
`receives_inTime` that with unbroken headers only the waits in a text count.
-/

namespace MergeBot.Lsp

open Foundation

/-- The JSON library: how it parses a text, and the value that is an empty string. -/
structure JsonReader (Value : Type) where
  /-- `none` is a discarded value. -/
  parse : Text → Option Value
  emptyString : Value
  parse_nil : parse [] = none

def lenHeader : Text := "Content-Length: ".toList

def crlf : Text := ['\r', '\n']

/-! ## Reading a line -/

/-- The loop of `readLine`, with the number of bytes for which there is room. What
has been read is lost when a read would block. `none` is a line that does not fit. -/
def readLineLoop (room : Nat) (buf : Text) (pipe : Pipe) : Option (Text × Pipe) :=
  match read 1 pipe with
  | (.nothing, later) => some ([], later)
  | (.failed, later) => some ([], later)
  | (.bytes byte _, later) =>
      match room with
      | 0 => none
      | room + 1 =>
          if byte = '\n' then some (cString (buf ++ [byte]), later)
          else readLineLoop room (buf ++ [byte]) later

/-- The buffer has 256 bytes, one of them for the terminating zero. -/
def readLine (pipe : Pipe) : Option (Text × Pipe) := readLineLoop 255 [] pipe

/-- What a read of one byte does. -/
theorem read_one (pipe : Pipe) :
    (∃ later, read 1 pipe = (.nothing, later) ∧ pipe.timed = waitMore later.timed) ∨
      ∃ byte later, read 1 pipe = (.bytes byte [], later) ∧
        pipe.timed = (0, byte) :: later.timed := by
  rcases coming : pipe.timed with _ | ⟨⟨_ | waits, byte⟩, rest⟩
  · obtain ⟨later, returned, left⟩ := read_empty Nat.one_pos coming
    exact .inl ⟨later, returned, by simp [left, waitMore]⟩
  · have single : pipe.timed = (0, byte) :: [] ++ rest := coming
    rcases read_block single with ⟨-, later, returned, left⟩ | ⟨impossible, -⟩
    · exact .inr ⟨byte, later, returned, by rw [left]⟩
    · exact absurd impossible (by simp)
  · obtain ⟨later, returned, left⟩ := read_blocked Nat.one_pos coming
    exact .inl ⟨later, returned, by simp [left, waitMore]⟩

/-- A line that is not empty has been taken from the pipe. -/
theorem readLineLoop_shorter {room : Nat} {buf line : Text} {pipe later : Pipe}
    (returned : readLineLoop room buf pipe = some (line, later)) (some_ : line ≠ []) :
    later.timed.length < pipe.timed.length := by
  induction room generalizing buf pipe with
  | zero =>
      rcases read_one pipe with ⟨next, reading, -⟩ | ⟨byte, next, reading, -⟩
      · simp only [readLineLoop, reading, Option.some.injEq, Prod.mk.injEq] at returned
        exact absurd returned.1.symm some_
      · simp [readLineLoop, reading] at returned
  | succ room ih =>
      rcases read_one pipe with ⟨next, reading, -⟩ | ⟨byte, next, reading, coming⟩
      · rw [readLineLoop, reading] at returned
        exact absurd (Prod.mk.inj (Option.some.inj returned)).1.symm some_
      · rw [readLineLoop, reading] at returned
        rw [coming, List.length_cons]
        by_cases newline : byte = '\n'
        · simp only [newline, if_true] at returned
          rw [(Prod.mk.inj (Option.some.inj returned)).2]
          exact Nat.lt_succ_self _
        · simp only [newline, if_false] at returned
          exact Nat.lt_succ_of_lt (ih returned)

/-! ## Receiving a message -/

/-- The number at the beginning of a text, up to a bound. -/
def leadingNumber (bound : Nat) (text : Text) : Nat :=
  let number := Nat.ofDigitChars 10 (text.takeWhile Char.isDigit) 0
  if number ≤ bound then number else bound

/-- The greatest value of a `long long`. -/
def longMax : Nat := 9223372036854775807

/-- `strtoll` with base ten: what does not fit is the nearest value that does. -/
def strtoll (text : Text) : Int :=
  match text.dropWhile isSpace with
  | '-' :: digits => -leadingNumber (longMax + 1) digits
  | '+' :: digits => leadingNumber longMax digits
  | digits => leadingNumber longMax digits

/-- How the loop of `RecvResponse` over the header ends. -/
inductive Header
  /-- A read would block: the empty string is returned. -/
  | empty
  /-- A line does not end as it should: nothing is returned. -/
  | illegal
  /-- The header is complete. -/
  | complete (bodySize : Int)
deriving DecidableEq, Repr

/-- The loop of `RecvResponse` over the lines of the header. -/
def readHeader (bodySize : Int) (pipe : Pipe) : Option (Header × Pipe) :=
  match reading : readLine pipe with
  | none => none
  | some (line, later) =>
      if line = [] then some (.empty, later)
      else if ¬ crlf <:+ line then some (.illegal, later)
      else
        let content := line.take (line.length - 2)
        if content = [] then some (.complete bodySize, later)
        else if lenHeader <+: content then
          readHeader (strtoll (content.drop lenHeader.length)) later
        -- the content type and an unknown header are only logged
        else readHeader bodySize later
termination_by pipe.timed.length
decreasing_by all_goals exact readLineLoop_shorter reading ‹_›

/-- The loop of `readMessageContent`. -/
def readContentLoop (len : Nat) (content : Text) (retryCnt : Nat) (pipe : Pipe) : Text × Pipe :=
  if content.length < len then
    match read (len - content.length) pipe with
    | (.failed, later) => ([], later)
    | (.nothing, later) =>
        if retryCnt < 6 then readContentLoop len content (retryCnt + 1) later else ([], later)
    | (.bytes first rest, later) => readContentLoop len (content ++ first :: rest) retryCnt later
  else (content, pipe)
termination_by (len - content.length) + (6 - retryCnt)
decreasing_by
  · omega
  · simp only [List.length_append, List.length_cons]
    omega

def readMessageContent (len : Nat) (pipe : Pipe) : Text × Pipe := readContentLoop len [] 0 pipe

variable {Value : Type} (json : JsonReader Value)

/-- `RecvResponse`. `none` is a line that overruns the buffer, or the exception for
a negative length. -/
def recvResponse (pipe : Pipe) : Option (Option Value × Pipe) :=
  match readHeader (-1) pipe with
  | none => none
  | some (.empty, later) => some (some json.emptyString, later)
  | some (.illegal, later) => some (none, later)
  | some (.complete bodySize, later) =>
      if bodySize = -1 then some (none, later)
      else if bodySize < 0 then none
      else
        let result := readMessageContent bodySize.toNat later
        some (json.parse result.1, result.2)

/-- The results of a number of calls. The reader ends at the first `nullopt`. -/
def responses : Nat → Pipe → Option (List (Option Value))
  | 0, _ => some []
  | calls + 1, pipe =>
      match recvResponse json pipe with
      | none => none
      | some (none, _) => some [none]
      | some (some body, later) => (responses calls later).map fun results => some body :: results

/-- A message in the form in which it is sent. -/
def fillMessageHeader (body : Text) : Text :=
  lenHeader ++ Nat.toDigits 10 body.length ++ crlf ++ crlf ++ body

/-- The text of a message, with its value; it fits into a string. A message is not
the JSON text of an empty string. -/
structure RpcBody where
  text : Text
  value : Value
  parses : json.parse text = some value
  isMessage : value ≠ json.emptyString
  fits : text.length ≤ longMax

/-! ## What a line takes -/

/-- What is left of some bytes when a read has blocked before one of them, and the
bytes before that have been taken. -/
def StopsIn (block left : List TimedByte) : Prop :=
  ∃ taken waits byte others, block = taken ++ (waits + 1, byte) :: others ∧
    left = (waits, byte) :: others

theorem StopsIn.cons {block left : List TimedByte} (stops : StopsIn block left)
    (byte : TimedByte) : StopsIn (byte :: block) left := by
  obtain ⟨taken, waits, next, others, rfl, rfl⟩ := stops
  exact ⟨byte :: taken, waits, next, others, rfl, rfl⟩

/-- The next line is read as a whole, or it is lost up to the first read that blocks. -/
theorem readLineLoop_block {room : Nat} (buf : Text) {text : Text} {pipe : Pipe}
    {block rest : List TimedByte} (coming : pipe.timed = block ++ rest)
    (line : bytesOf block = text ++ ['\n']) (single : '\n' ∉ text) (fits : block.length ≤ room) :
    (totalWaits block = 0 ∧ ∃ later,
        readLineLoop room buf pipe = some (cString (buf ++ bytesOf block), later) ∧
          later.timed = rest) ∨
      (totalWaits block ≠ 0 ∧ ∃ left later, StopsIn block left ∧
        readLineLoop room buf pipe = some ([], later) ∧ later.timed = left ++ rest) := by
  induction block generalizing room buf pipe text with
  | nil => simp at line
  | cons first others ih =>
      obtain ⟨room, rfl⟩ : ∃ less, room = less + 1 :=
        Nat.exists_eq_succ_of_ne_zero (by simp only [List.length_cons] at fits; omega)
      rw [List.length_cons, Nat.succ_le_succ_iff] at fits
      rcases read_one pipe with ⟨next, reading, waited⟩ | ⟨byte, next, reading, arrives⟩
      · obtain ⟨fewer, waits, left⟩ := waitMore_eq_cons (waited.symm.trans coming)
        refine .inr ⟨by rw [totalWaits_cons, waits]; omega, (fewer, first.2) :: others, next,
          ⟨[], fewer, first.2, others, by rw [← waits]; rfl, rfl⟩, ?_, left⟩
        rw [readLineLoop, reading]
      · obtain ⟨rfl, left⟩ := List.cons.inj (arrives.symm.trans coming)
        rw [readLineLoop, reading]
        cases text with
        | nil =>
            -- the newline is the last byte of the line
            obtain ⟨newline, nothing⟩ := List.cons.inj line
            obtain rfl : others = [] := List.map_eq_nil_iff.mp nothing
            obtain rfl : byte = '\n' := newline
            exact .inl ⟨rfl, next, by simp, left⟩
        | cons head text =>
            obtain ⟨rfl, tail⟩ := List.cons.inj line
            have more : byte ≠ '\n' := fun newline => single (newline ▸ List.mem_cons_self)
            simp only [more, if_false, totalWaits_cons, Nat.zero_add]
            rcases ih (buf ++ [byte]) left tail
              (fun later => single (List.mem_cons_of_mem _ later)) fits with
              ⟨noWaits, later, returned, rest_⟩ | ⟨waits, remaining, later, stops, returned, rest_⟩
            · exact .inl ⟨noWaits, later, by simpa using returned, rest_⟩
            · exact .inr ⟨waits, remaining, later, stops.cons _, returned, rest_⟩

/-- A text that a line of a header can have. -/
def PlainLine (text : Text) : Prop := ∀ c ∈ text, c ≠ '\n' ∧ c ≠ Char.ofNat 0

theorem readLine_block {text : Text} {pipe : Pipe} {block rest : List TimedByte}
    (coming : pipe.timed = block ++ rest) (line : bytesOf block = text ++ crlf)
    (plain : PlainLine text) (short : text.length ≤ 253) :
    (totalWaits block = 0 ∧ ∃ later,
        readLine pipe = some (text ++ crlf, later) ∧ later.timed = rest) ∨
      (totalWaits block ≠ 0 ∧ ∃ left later, StopsIn block left ∧
        readLine pipe = some ([], later) ∧ later.timed = left ++ rest) := by
  have ending : bytesOf block = (text ++ ['\r']) ++ ['\n'] := by simp [line, crlf]
  have single : '\n' ∉ text ++ ['\r'] := by
    simp only [List.mem_append, List.mem_singleton, not_or]
    exact ⟨fun member => (plain _ member).1 rfl, by decide⟩
  have fits : block.length ≤ 255 := by
    rw [← bytesOf_length, line, List.length_append]
    exact Nat.add_le_add_right short 2
  have ended : crlf.all (fun c => decide (c ≠ Char.ofNat 0)) := by decide
  have whole : cString ([] ++ bytesOf block) = text ++ crlf := by
    rw [List.nil_append, line, cString_eq_self]
    intro c member
    rcases List.mem_append.mp member with inText | inEnd
    · exact (plain c inText).2
    · exact of_decide_eq_true (List.all_eq_true.mp ended c inEnd)
  have result := readLineLoop_block [] coming ending single fits
  rwa [whole] at result

/-! ## What the header takes -/

/-- A step of the loop over the header. -/
theorem readHeader_line {bodySize : Int} {pipe later : Pipe} {line : Text}
    (returned : readLine pipe = some (line, later)) :
    readHeader bodySize pipe =
      if line = [] then some (.empty, later)
      else if ¬ crlf <:+ line then some (.illegal, later)
      else if line.take (line.length - 2) = [] then some (.complete bodySize, later)
      else if lenHeader <+: line.take (line.length - 2) then
        readHeader (strtoll ((line.take (line.length - 2)).drop lenHeader.length)) later
      else readHeader bodySize later := by
  rw [readHeader]
  split
  · rename_i failed
    exact absurd (returned.symm.trans failed) (by simp)
  · rename_i same
    obtain ⟨rfl, rfl⟩ := Prod.mk.inj (Option.some.inj (returned.symm.trans same))
    rfl

theorem readHeader_stopped {bodySize : Int} {pipe later : Pipe}
    (returned : readLine pipe = some ([], later)) :
    readHeader bodySize pipe = some (.empty, later) := by
  rw [readHeader_line returned, if_pos rfl]

/-- A complete line without its ending. -/
theorem readHeader_crlf {bodySize : Int} {pipe later : Pipe} {text : Text}
    (returned : readLine pipe = some (text ++ crlf, later)) :
    readHeader bodySize pipe =
      if text = [] then some (.complete bodySize, later)
      else if lenHeader <+: text then readHeader (strtoll (text.drop lenHeader.length)) later
      else readHeader bodySize later := by
  have content : (text ++ crlf).take ((text ++ crlf).length - 2) = text := by simp [crlf]
  have some_ : text ++ crlf ≠ [] := by simp [crlf]
  rw [readHeader_line returned, if_neg some_, if_neg (not_not_intro (List.suffix_append _ _)),
    content]

/-- The length that a header tells is read back. -/
theorem strtoll_toDigits {size : Nat} (fits : size ≤ longMax) :
    strtoll (Nat.toDigits 10 size) = size := by
  have isDigit : ∀ c ∈ Nat.toDigits 10 size, c.isDigit := fun c member =>
    Nat.isDigit_of_mem_toDigits (by decide) (by decide) member
  have value : leadingNumber longMax (Nat.toDigits 10 size) = size := by
    rw [leadingNumber, List.takeWhile_eq_self_iff.mpr isDigit, Nat.ofDigitChars_ten_toDigits]
    exact if_pos fits
  rcases digits : Nat.toDigits 10 size with _ | ⟨first, rest⟩
  · exact absurd digits Nat.toDigits_ne_nil
  · have firstDigit : first.isDigit := isDigit first (by simp [digits])
    rw [strtoll, List.dropWhile_cons_of_neg (not_isSpace_of_isDigit firstDigit), ← digits]
    split
    · rename_i negative
      obtain ⟨rfl, -⟩ := List.cons.inj (digits.symm.trans negative)
      exact absurd firstDigit (by decide)
    · rename_i positive
      obtain ⟨rfl, -⟩ := List.cons.inj (digits.symm.trans positive)
      exact absurd firstDigit (by decide)
    · rw [value]

/-- The length behind a line of the header. -/
def headerSize (bodySize : Int) (text : Text) : Int :=
  if lenHeader <+: text then strtoll (text.drop lenHeader.length) else bodySize

/-- Where a read blocks in a part, it blocks in the whole. -/
theorem StopsIn.append {block left : List TimedByte} (stops : StopsIn block left)
    (rest : List TimedByte) : StopsIn (block ++ rest) (left ++ rest) := by
  obtain ⟨taken, waits, byte, others, rfl, rfl⟩ := stops
  exact ⟨taken, waits, byte, others ++ rest, by simp, by simp⟩

theorem StopsIn.behind {block left : List TimedByte} (stops : StopsIn block left)
    (front : List TimedByte) : StopsIn (front ++ block) left := by
  obtain ⟨taken, waits, byte, others, rfl, rfl⟩ := stops
  exact ⟨front ++ taken, waits, byte, others, by simp, rfl⟩

/-- The empty line ends the header. -/
theorem readHeader_blank {bodySize : Int} {pipe : Pipe} {blank rest : List TimedByte}
    (coming : pipe.timed = blank ++ rest) (isBlank : bytesOf blank = crlf) :
    (totalWaits blank = 0 ∧ ∃ later,
        readHeader bodySize pipe = some (.complete bodySize, later) ∧ later.timed = rest) ∨
      (totalWaits blank ≠ 0 ∧ ∃ left later, StopsIn blank left ∧
        readHeader bodySize pipe = some (.empty, later) ∧ later.timed = left ++ rest) := by
  have plain : PlainLine [] := fun _ impossible => absurd impossible List.not_mem_nil
  have line : bytesOf blank = [] ++ crlf := isBlank
  rcases readLine_block coming line plain (Nat.zero_le _) with
    ⟨noWaits, later, returned, left⟩ | ⟨waits, left, later, stops, returned, remaining⟩
  · exact .inl ⟨noWaits, later, by rw [readHeader_crlf returned, if_pos rfl], left⟩
  · exact .inr ⟨waits, left, later, stops, readHeader_stopped returned, remaining⟩

/-- A header of one line is read as a whole, or it is lost up to a read that blocks. -/
theorem readHeader_block (bodySize : Int) {pipe : Pipe} {text : Text}
    {line blank rest : List TimedByte} (coming : pipe.timed = line ++ blank ++ rest)
    (isLine : bytesOf line = text ++ crlf) (isBlank : bytesOf blank = crlf) (some_ : text ≠ [])
    (plain : PlainLine text) (short : text.length ≤ 253) :
    (totalWaits (line ++ blank) = 0 ∧ ∃ later,
        readHeader bodySize pipe = some (.complete (headerSize bodySize text), later) ∧
          later.timed = rest) ∨
      (totalWaits (line ++ blank) ≠ 0 ∧ ∃ left later, StopsIn (line ++ blank) left ∧
        readHeader bodySize pipe = some (.empty, later) ∧ later.timed = left ++ rest) := by
  rw [List.append_assoc] at coming
  rw [totalWaits_append]
  rcases readLine_block coming isLine plain short with
    ⟨noWaits, next, returned, left⟩ | ⟨waits, left, later, stops, returned, remaining⟩
  · have onwards : readHeader bodySize pipe = readHeader (headerSize bodySize text) next := by
      rw [readHeader_crlf returned, if_neg some_, headerSize]
      split <;> rfl
    rw [onwards, noWaits, Nat.zero_add]
    rcases readHeader_blank left isBlank with
      ⟨alsoNone, later, complete, behind⟩ | ⟨waits, remaining, later, stops, stopped, behind⟩
    · exact .inl ⟨alsoNone, later, complete, behind⟩
    · exact .inr ⟨waits, remaining, later, stops.behind line, stopped, behind⟩
  · refine .inr ⟨by omega, left ++ blank, later, stops.append blank, readHeader_stopped returned, ?_⟩
    rw [remaining, List.append_assoc]

/-! ## What the content takes -/

/-- The bytes of a content come within the retries: six before the first of them,
and three before the others. -/
def InTime : List TimedByte → Prop
  | [] => True
  | first :: others => first.1 ≤ 6 ∧ totalWaits others ≤ 3

instance : DecidablePred InTime
  | [] => isTrue trivial
  | first :: others => inferInstanceAs (Decidable (first.1 ≤ 6 ∧ totalWaits others ≤ 3))

theorem readContentLoop_block {retryCnt waits : Nat} {byte : Char} {pipe : Pipe}
    {others rest : List TimedByte} (counted : retryCnt ≤ 6)
    (coming : pipe.timed = (waits, byte) :: others ++ rest) :
    (retryCnt + waits ≤ 6 ∧ totalWaits others ≤ 3 ∧ ∃ later,
        readContentLoop (others.length + 1) [] retryCnt pipe =
            (byte :: bytesOf others, later) ∧ later.timed = rest) ∨
      (¬ (retryCnt + waits ≤ 6 ∧ totalWaits others ≤ 3) ∧ ∃ later,
        readContentLoop (others.length + 1) [] retryCnt pipe = ([], later)) := by
  have missing : ([] : Text).length < others.length + 1 := Nat.succ_pos _
  induction waits generalizing retryCnt pipe with
  | zero =>
      rw [readContentLoop, if_pos missing, List.length_nil, Nat.sub_zero]
      rcases read_block coming with ⟨inTime, later, returned, left⟩ | ⟨late, later, returned⟩
      · refine .inl ⟨counted, inTime, later, ?_, left⟩
        simp [returned, readContentLoop]
      · exact .inr ⟨by omega, later, by simp [returned]⟩
  | succ waits ih =>
      obtain ⟨next, returned, left⟩ := read_blocked (Nat.succ_pos others.length) coming
      rw [readContentLoop, if_pos missing, List.length_nil, Nat.sub_zero, returned]
      by_cases retries : retryCnt < 6
      · simp only [retries, if_true]
        rcases ih (Nat.succ_le_of_lt retries) left with
          ⟨fewer, inTime, later, whole, rest_⟩ | ⟨late, later, dropped⟩
        · exact .inl ⟨by omega, inTime, later, whole, rest_⟩
        · exact .inr ⟨by omega, later, dropped⟩
      · exact .inr ⟨by omega, next, by simp [retries]⟩

/-- A content is read as a whole when its bytes come in time, else it is dropped. -/
theorem readMessageContent_block {pipe : Pipe} {block rest : List TimedByte}
    (some_ : block ≠ []) (coming : pipe.timed = block ++ rest) :
    (InTime block ∧ ∃ later,
        readMessageContent block.length pipe = (bytesOf block, later) ∧ later.timed = rest) ∨
      (¬ InTime block ∧ ∃ later, readMessageContent block.length pipe = ([], later)) := by
  cases block with
  | nil => exact absurd rfl some_
  | cons first others =>
      rcases readContentLoop_block (Nat.zero_le 6) coming with
        ⟨retries, inTime, later, whole, left⟩ | ⟨late, later, dropped⟩
      · exact .inl ⟨⟨by simpa using retries, inTime⟩, later, whole, left⟩
      · exact .inr ⟨by simpa [InTime] using late, later, dropped⟩

/-! ## What a response takes -/

section Responses

variable {json} {pipe : Pipe}

/-- A message without its content. -/
def messageHeader (size : Nat) : Text := lenHeader ++ Nat.toDigits 10 size ++ crlf ++ crlf

/-- A header with a positive length, and a content of this length. -/
theorem recvResponse_complete (json : JsonReader Value) {size : Nat} {block rest : List TimedByte}
    {later : Pipe}
    (header : readHeader (-1) pipe = some (.complete size, later))
    (coming : later.timed = block ++ rest) (sized : block.length = size) (some_ : block ≠ []) :
    (InTime block ∧ ∃ last,
        recvResponse json pipe = some (json.parse (bytesOf block), last) ∧ last.timed = rest) ∨
      (¬ InTime block ∧ ∃ last, recvResponse json pipe = some (none, last)) := by
  have notMinusOne : (size : Int) ≠ -1 := by omega
  have notNegative : ¬ (size : Int) < 0 := by omega
  have received : recvResponse json pipe =
      some (json.parse (readMessageContent block.length later).1,
        (readMessageContent block.length later).2) := by
    simp only [recvResponse, header, notMinusOne, notNegative, if_false, Int.toNat_natCast, sized]
  rw [received]
  rcases readMessageContent_block some_ coming with
    ⟨inTime, last, whole, left⟩ | ⟨late, last, dropped⟩
  · exact .inl ⟨inTime, last, by rw [whole], left⟩
  · exact .inr ⟨late, last, by rw [dropped, json.parse_nil]⟩

theorem recvResponse_stopped {later : Pipe} (header : readHeader (-1) pipe = some (.empty, later)) :
    recvResponse json pipe = some (some json.emptyString, later) := by
  simp only [recvResponse, header]

/-- Before the first byte nothing is lost. -/
theorem recvResponse_waiting (json : JsonReader Value) {waits : Nat} {byte : Char}
    {rest : List TimedByte} (coming : pipe.timed = (waits + 1, byte) :: rest) :
    ∃ later, recvResponse json pipe = some (some json.emptyString, later) ∧
      later.timed = (waits, byte) :: rest := by
  obtain ⟨later, returned, left⟩ := read_blocked Nat.one_pos coming
  have line : readLine pipe = some ([], later) := by simp only [readLine, readLineLoop, returned]
  exact ⟨later, recvResponse_stopped (readHeader_stopped line), left⟩

/-- Without more bytes the pipe is empty. -/
theorem recvResponse_idle (json : JsonReader Value) (coming : pipe.timed = []) :
    ∃ later, recvResponse json pipe = some (some json.emptyString, later) ∧ later.timed = [] := by
  obtain ⟨later, returned, left⟩ := read_empty Nat.one_pos coming
  have line : readLine pipe = some ([], later) := by simp only [readLine, readLineLoop, returned]
  exact ⟨later, recvResponse_stopped (readHeader_stopped line), left⟩

/-- The results, without the empty strings, are in the end these. -/
def Receives [DecidableEq Value] (json : JsonReader Value) (pipe : Pipe)
    (expected : List (Option Value)) : Prop :=
  ∃ enough, ∀ calls, enough ≤ calls → ∃ results, responses json calls pipe = some results ∧
    results.filter (fun result => result ≠ some json.emptyString) = expected

variable [DecidableEq Value] {expected : List (Option Value)} {later : Pipe}

theorem Receives.of_none (received : recvResponse json pipe = some (none, later)) :
    Receives json pipe [none] := by
  refine ⟨1, fun calls enough => ⟨[none], ?_, by simp⟩⟩
  obtain ⟨calls, rfl⟩ := Nat.exists_eq_succ_of_ne_zero (Nat.ne_of_gt enough)
  simp only [responses, received]

theorem Receives.of_empty (received : recvResponse json pipe = some (some json.emptyString, later))
    (then_ : Receives json later expected) : Receives json pipe expected := by
  obtain ⟨enough, answers⟩ := then_
  refine ⟨enough + 1, fun calls more => ?_⟩
  obtain ⟨calls, rfl⟩ := Nat.exists_eq_succ_of_ne_zero (Nat.ne_of_gt (Nat.lt_of_lt_of_le
    (Nat.succ_pos enough) more))
  obtain ⟨results, returned, filtered⟩ := answers calls (Nat.le_of_succ_le_succ more)
  exact ⟨some json.emptyString :: results, by simp [responses, received, returned],
    by simpa using filtered⟩

theorem Receives.of_body {value : Value}
    (received : recvResponse json pipe = some (some value, later))
    (isMessage : value ≠ json.emptyString) (then_ : Receives json later expected) :
    Receives json pipe (some value :: expected) := by
  obtain ⟨enough, answers⟩ := then_
  refine ⟨enough + 1, fun calls more => ?_⟩
  obtain ⟨calls, rfl⟩ := Nat.exists_eq_succ_of_ne_zero (Nat.ne_of_gt (Nat.lt_of_lt_of_le
    (Nat.succ_pos enough) more))
  obtain ⟨results, returned, filtered⟩ := answers calls (Nat.le_of_succ_le_succ more)
  exact ⟨some value :: results, by simp [responses, received, returned],
    by simpa [isMessage] using filtered⟩

/-- Behind the last message only empty strings are returned. -/
theorem Receives.of_idle (coming : pipe.timed = []) : Receives json pipe [] := by
  refine ⟨0, fun calls _ => ?_⟩
  induction calls generalizing pipe with
  | zero => exact ⟨[], rfl, rfl⟩
  | succ calls ih =>
      obtain ⟨later, received, left⟩ := recvResponse_idle json coming
      obtain ⟨results, returned, filtered⟩ := ih left (Nat.zero_le calls)
      exact ⟨some json.emptyString :: results, by simp [responses, received, returned],
        by simpa using filtered⟩

/-- While no byte has come, the pipe is empty. -/
theorem Receives.of_waiting {waits : Nat} {byte : Char} {rest : List TimedByte}
    (coming : pipe.timed = (waits, byte) :: rest)
    (then_ : ∀ later : Pipe, later.timed = (0, byte) :: rest → Receives json later expected) :
    Receives json pipe expected := by
  induction waits generalizing pipe with
  | zero => exact then_ pipe coming
  | succ waits ih =>
      obtain ⟨later, received, left⟩ := recvResponse_waiting json coming
      exact .of_empty received (ih left)

end Responses

/-! ## A broken header -/

/-- A part of a text that has been read byte by byte. -/
theorem bytesOf_split {block : List TimedByte} {front back : Text}
    (bytes : bytesOf block = front ++ back) :
    ∃ first second, block = first ++ second ∧ bytesOf first = front ∧ bytesOf second = back :=
  List.map_eq_append_iff.mp bytes

theorem StopsIn.suffix {block left : List TimedByte} (stops : StopsIn block left) :
    left ≠ [] ∧ bytesOf left <:+ bytesOf block := by
  obtain ⟨taken, waits, byte, others, rfl, rfl⟩ := stops
  exact ⟨by simp, bytesOf taken, by simp⟩

/-- Every read that blocks is one wait less. -/
theorem StopsIn.fewer {block left : List TimedByte} (stops : StopsIn block left) :
    totalWaits left < totalWaits block := by
  obtain ⟨taken, waits, byte, others, rfl, rfl⟩ := stops
  simp only [totalWaits_append, totalWaits_cons]
  omega

/-- What can be left of a line: its newline, its ending, or more. -/
theorem suffix_line {text left : Text} (some_ : left ≠ []) (suffix : left <:+ text ++ crlf) :
    left = ['\n'] ∨ left = crlf ∨ ∃ part, part ≠ [] ∧ part <:+ text ∧ left = part ++ crlf := by
  obtain ⟨taken, split⟩ := suffix
  rcases List.append_eq_append_iff.mp split with ⟨part, front, back⟩ | ⟨part, front, back⟩
  · by_cases none_ : part = []
    · exact .inr (.inl (by simpa [none_] using back))
    · exact .inr (.inr ⟨part, none_, ⟨taken, front.symm⟩, back⟩)
  · rcases part with _ | ⟨first, _ | ⟨second, more⟩⟩
    · exact .inr (.inl (by simpa using back.symm))
    · exact .inl (List.cons.inj back).2.symm
    · obtain ⟨-, rest⟩ := List.cons.inj back
      obtain ⟨-, nothing⟩ := List.cons.inj rest
      exact absurd (List.append_eq_nil_iff.mp nothing.symm).2 some_

/-- A header whose beginning has been lost, and with it the line with the length. -/
def Broken (timed : List TimedByte) : Prop :=
  ∃ text block rest, PlainLine text ∧ 'C' ∉ text ∧ text.length ≤ 253 ∧
    timed = block ++ rest ∧ block ≠ [] ∧ bytesOf block <:+ text ++ crlf ++ crlf

/-- A response ends the reader, or it loses some of these bytes to a read that blocks. -/
def EndsOrStops (json : JsonReader Value) (pipe : Pipe) (block rest : List TimedByte) : Prop :=
  (∃ later, recvResponse json pipe = some (none, later)) ∨
    ∃ left later, StopsIn block left ∧
      recvResponse json pipe = some (some json.emptyString, later) ∧ later.timed = left ++ rest

section Broken

variable {json} {pipe : Pipe} {block rest : List TimedByte}

theorem EndsOrStops.append {more : List TimedByte}
    (result : EndsOrStops json pipe block (more ++ rest)) :
    EndsOrStops json pipe (block ++ more) rest := by
  rcases result with ends | ⟨left, later, stops, received, remaining⟩
  · exact .inl ends
  · exact .inr ⟨left ++ more, later, stops.append more, received, by
      rw [remaining, List.append_assoc]⟩

/-- A line that is only a newline is illegal. -/
theorem newline_ends (coming : pipe.timed = block ++ rest) (isNewline : bytesOf block = ['\n']) :
    EndsOrStops json pipe block rest := by
  have fits : block.length ≤ 255 := by
    rw [← bytesOf_length, isNewline]
    decide
  have line : bytesOf block = [] ++ ['\n'] := isNewline
  rcases readLineLoop_block [] coming line List.not_mem_nil fits with
    ⟨-, later, returned, -⟩ | ⟨-, left, later, stops, returned, remaining⟩
  · have whole : readLine pipe = some (['\n'], later) := by
      rw [readLine, returned, isNewline]
      rfl
    have illegal : readHeader (-1) pipe = some (.illegal, later) := by
      rw [readHeader_line whole, if_neg (by decide), if_pos (by decide)]
    exact .inl ⟨later, by simp only [recvResponse, illegal]⟩
  · exact .inr ⟨left, later, stops, recvResponse_stopped (readHeader_stopped returned), remaining⟩

/-- A header without a length is illegal. -/
theorem header_ends {bodySize : Int} (noLength : bodySize = -1)
    (result : (totalWaits block = 0 ∧ ∃ later,
        readHeader (-1) pipe = some (.complete bodySize, later) ∧ later.timed = rest) ∨
      (totalWaits block ≠ 0 ∧ ∃ left later, StopsIn block left ∧
        readHeader (-1) pipe = some (.empty, later) ∧ later.timed = left ++ rest)) :
    EndsOrStops json pipe block rest := by
  rcases result with ⟨-, later, complete, -⟩ | ⟨-, left, later, stops, stopped, remaining⟩
  · exact .inl ⟨later, by simp only [recvResponse, complete, noLength, if_true]⟩
  · exact .inr ⟨left, later, stops, recvResponse_stopped stopped, remaining⟩

/-- What is left of a header ends the reader, unless a read blocks again. -/
theorem broken_ends (json : JsonReader Value) {text : Text} (plain : PlainLine text)
    (noStart : 'C' ∉ text) (short : text.length ≤ 253) (coming : pipe.timed = block ++ rest)
    (some_ : block ≠ []) (suffix : bytesOf block <:+ text ++ crlf ++ crlf) : EndsOrStops json pipe block rest := by
  have bytes : bytesOf block ≠ [] := fun none_ => some_ (List.map_eq_nil_iff.mp none_)
  rcases suffix_line bytes suffix with isNewline | isBlank | ⟨lines, linesSome, inLines, split⟩
  · exact newline_ends coming isNewline
  · exact header_ends rfl (readHeader_blank coming isBlank)
  · obtain ⟨first, second, rfl, isFirst, isSecond⟩ := bytesOf_split split
    rw [List.append_assoc] at coming
    rcases suffix_line linesSome inLines with newline | blank | ⟨part, partSome, inText, whole⟩
    · exact (newline_ends coming (isFirst.trans newline)).append
    · exact (header_ends rfl (readHeader_blank coming (isFirst.trans blank))).append
    · rw [← List.append_assoc] at coming
      have inPart {c : Char} (member : c ∈ part) : c ∈ text := inText.subset member
      have unknown : headerSize (-1) part = -1 := by
        refine if_neg fun starts => noStart (inPart ?_)
        exact starts.subset (by decide)
      exact header_ends unknown (readHeader_block _ coming (isFirst.trans whole) isSecond partSome
        (fun c member => plain c (inPart member)) (inText.length_le.trans short))

variable [DecidableEq Value]

/-- A broken header ends the reader, however its bytes arrive. -/
theorem Receives.of_broken (broken : Broken pipe.timed) : Receives json pipe [none] := by
  induction counted : totalWaits pipe.timed using Nat.strong_induction_on generalizing pipe with
  | _ waits ih =>
      obtain ⟨text, block, rest, plain, noStart, short, coming, some_, suffix⟩ := broken
      rcases broken_ends json plain noStart short coming some_ suffix with
        ⟨later, received⟩ | ⟨left, later, stops, received, remaining⟩
      · exact .of_none received
      · -- what a read has lost is lost, and the rest is still a broken header
        have fewer : totalWaits later.timed < waits := by
          rw [← counted, coming, remaining, totalWaits_append, totalWaits_append]
          exact Nat.add_lt_add_right stops.fewer _
        have still : Broken later.timed := ⟨text, left, rest, plain, noStart, short, remaining,
          stops.suffix.1, stops.suffix.2.trans suffix⟩
        exact .of_empty received (ih _ fewer still rfl)

end Broken

/-- A byte that needs no waiting is taken. -/
theorem StopsIn.of_cons {byte : Char} {block left : List TimedByte}
    (stops : StopsIn ((0, byte) :: block) left) : StopsIn block left := by
  obtain ⟨taken, waits, next, others, split, rfl⟩ := stops
  cases taken with
  | nil => simp at split
  | cons first taken =>
      obtain ⟨-, rfl⟩ := List.cons.inj split
      exact ⟨taken, waits, next, others, rfl, rfl⟩

/-! ## Messages -/

/-- The reads that block inside a header. -/
def Smooth (header : List TimedByte) : Prop := totalWaits header.tail = 0

instance : DecidablePred Smooth :=
  fun header => inferInstanceAs (Decidable (totalWaits header.tail = 0))

section Message

variable {json} [DecidableEq Value] {pipe : Pipe}

/-- The line with the length. -/
theorem headerSize_lenHeader {size : Nat} (fits : size ≤ longMax) (bodySize : Int) :
    headerSize bodySize (lenHeader ++ Nat.toDigits 10 size) = size := by
  rw [headerSize, if_pos (List.prefix_append _ _), List.drop_left, strtoll_toDigits fits]

/-- The characters of a length are digits. -/
theorem digit_facts {size : Nat} {c : Char} (member : c ∈ Nat.toDigits 10 size) :
    c ≠ '\n' ∧ c ≠ Char.ofNat 0 ∧ c ≠ 'C' := by
  have isDigit : c.isDigit := Nat.isDigit_of_mem_toDigits (by decide) (by decide) member
  refine ⟨?_, ?_, ?_⟩ <;> rintro rfl <;> exact absurd isDigit (by decide)

theorem digits_short {size : Nat} (fits : size ≤ longMax) : (Nat.toDigits 10 size).length ≤ 19 :=
  (Nat.length_toDigits_le_iff (by decide) (by decide)).mpr (Nat.lt_of_le_of_lt fits (by decide))

/-- The line with the length behind its first character. -/
def lengthTail (size : Nat) : Text := lenHeader.tail ++ Nat.toDigits 10 size

theorem lengthTail_plain (size : Nat) : PlainLine (lengthTail size) ∧ 'C' ∉ lengthTail size := by
  have known : lenHeader.tail.all (fun c => decide (c ≠ '\n' ∧ c ≠ Char.ofNat 0 ∧ c ≠ 'C')) := by
    decide
  have each : ∀ c ∈ lengthTail size, c ≠ '\n' ∧ c ≠ Char.ofNat 0 ∧ c ≠ 'C' := by
    intro c member
    rcases List.mem_append.mp member with fixed | digit
    · exact of_decide_eq_true (List.all_eq_true.mp known c fixed)
    · exact digit_facts digit
  exact ⟨fun c member => ⟨(each c member).1, (each c member).2.1⟩,
    fun member => (each _ member).2.2 rfl⟩

theorem lengthTail_short {size : Nat} (fits : size ≤ longMax) : (lengthTail size).length ≤ 34 := by
  rw [lengthTail, List.length_append]
  exact Nat.add_le_add (by decide) (digits_short fits)

theorem messageHeader_eq (size : Nat) :
    messageHeader size = 'C' :: (lengthTail size ++ crlf ++ crlf) := rfl

/-- The header of a message whose first byte is there. -/
theorem readHeader_message {size : Nat} (fits : size ≤ longMax) {more rest : List TimedByte}
    (coming : pipe.timed = (0, 'C') :: more ++ rest)
    (isHeader : bytesOf more = lengthTail size ++ crlf ++ crlf) :
    (totalWaits more = 0 ∧ ∃ later,
        readHeader (-1) pipe = some (.complete size, later) ∧ later.timed = rest) ∨
      (totalWaits more ≠ 0 ∧ ∃ later,
        readHeader (-1) pipe = some (.empty, later) ∧ Broken later.timed) := by
  obtain ⟨line, blank, rfl, isLine, isBlank⟩ := bytesOf_split isHeader
  have wholeLine : bytesOf ((0, 'C') :: line) = (lenHeader ++ Nat.toDigits 10 size) ++ crlf := by
    rw [bytesOf_cons, isLine]
    rfl
  have plainTail := (lengthTail_plain size).1
  have plain : PlainLine (lenHeader ++ Nat.toDigits 10 size) := by
    intro c member
    rcases List.mem_cons.mp (show c ∈ 'C' :: lengthTail size from member) with rfl | later
    · decide
    · exact plainTail c later
  have some_ : lenHeader ++ Nat.toDigits 10 size ≠ [] :=
    List.append_ne_nil_of_left_ne_nil (by decide) _
  have short : (lenHeader ++ Nat.toDigits 10 size).length ≤ 253 :=
    Nat.le_trans (Nat.succ_le_succ (lengthTail_short fits)) (by decide)
  have parts : pipe.timed = ((0, 'C') :: line) ++ blank ++ rest := by
    simpa only [List.cons_append, List.append_assoc] using coming
  have waits : totalWaits (((0, 'C') :: line) ++ blank) = totalWaits (line ++ blank) := by
    rw [List.cons_append, totalWaits_cons, Nat.zero_add]
  have result := readHeader_block (-1) parts wholeLine isBlank some_ plain short
  rw [headerSize_lenHeader fits, waits] at result
  rcases result with complete | ⟨blocked, left, later, stops, stopped, remaining⟩
  · exact .inl complete
  · have behind : StopsIn (line ++ blank) left := StopsIn.of_cons stops
    refine .inr ⟨blocked, later, stopped, lengthTail size, left, rest, plainTail,
      (lengthTail_plain size).2, Nat.le_trans (lengthTail_short fits) (by decide), remaining,
      behind.suffix.1, ?_⟩
    rw [← isHeader]
    exact behind.suffix.2

/-- The bytes of a header, with the wait before the first of them. -/
theorem header_cons {size : Nat} {header : List TimedByte}
    (isHeader : bytesOf header = messageHeader size) :
    ∃ waits more, header = (waits, 'C') :: more ∧
      bytesOf more = lengthTail size ++ crlf ++ crlf := by
  rw [messageHeader_eq] at isHeader
  cases header with
  | nil => exact absurd isHeader.symm (List.cons_ne_nil _ _)
  | cons first more =>
      obtain ⟨isFirst, isMore⟩ := List.cons.inj isHeader
      exact ⟨first.1, more, by rw [← isFirst], isMore⟩

omit [DecidableEq Value] in
theorem RpcBody.text_ne_nil (body : RpcBody json) : body.text ≠ [] := by
  intro none_
  have parsed := body.parses
  rw [none_, json.parse_nil] at parsed
  simp at parsed

variable {body : RpcBody json} {header content rest : List TimedByte}

/-- A message is received when its header comes at once and its content in time. -/
theorem Receives.message {expected : List (Option Value)}
    (coming : pipe.timed = header ++ (content ++ rest))
    (isHeader : bytesOf header = messageHeader body.text.length)
    (isContent : bytesOf content = body.text) (smooth : Smooth header) (inTime : InTime content)
    (then_ : ∀ later : Pipe, later.timed = rest → Receives json later expected) :
    Receives json pipe (some body.value :: expected) := by
  obtain ⟨waits, more, rfl, isMore⟩ := header_cons isHeader
  have sized : content.length = body.text.length := by rw [← bytesOf_length, isContent]
  have some_ : content ≠ [] := fun none_ => body.text_ne_nil (by simpa [none_] using isContent.symm)
  refine .of_waiting coming fun next left => ?_
  rcases readHeader_message body.fits left isMore with ⟨-, behind, complete, arrives⟩ | ⟨blocked, -⟩
  · rcases recvResponse_complete json complete arrives sized some_ with
      ⟨-, later, received, remaining⟩ | ⟨late, -⟩
    · rw [isContent, body.parses] at received
      exact .of_body received body.isMessage (then_ later remaining)
    · exact absurd inTime late
  · exact absurd smooth blocked

/-- Every other message ends the reader. -/
theorem Receives.last (coming : pipe.timed = header ++ (content ++ rest))
    (isHeader : bytesOf header = messageHeader body.text.length)
    (isContent : bytesOf content = body.text) (notReady : ¬ (Smooth header ∧ InTime content)) :
    Receives json pipe [none] := by
  obtain ⟨waits, more, rfl, isMore⟩ := header_cons isHeader
  have sized : content.length = body.text.length := by rw [← bytesOf_length, isContent]
  have some_ : content ≠ [] := fun none_ => body.text_ne_nil (by simpa [none_] using isContent.symm)
  refine .of_waiting coming fun next left => ?_
  rcases readHeader_message body.fits left isMore with
    ⟨noWaits, behind, complete, arrives⟩ | ⟨-, later, stopped, broken⟩
  · rcases recvResponse_complete json complete arrives sized some_ with
      ⟨inTime, -⟩ | ⟨-, later, received⟩
    · exact absurd ⟨noWaits, inTime⟩ notReady
    · exact .of_none received
  · exact .of_empty (recvResponse_stopped stopped) (.of_broken broken)

end Message

/-! ## All messages -/

/-- The bytes that the server writes for a list of messages. -/
def framed (bodies : List (RpcBody json)) : Text :=
  bodies.flatMap fun body => fillMessageHeader body.text

/-- The bodies up to the first message that is not ready, for which nothing is
returned. The messages are cut from their bytes by their lengths. -/
def outcomes (ready : List TimedByte → List TimedByte → Prop)
    [∀ header content, Decidable (ready header content)] :
    List (RpcBody json) → List TimedByte → List (Option Value)
  | [], _ => []
  | body :: bodies, timed =>
      let headerLength := (messageHeader body.text.length).length
      let behind := timed.drop headerLength
      if ready (timed.take headerLength) (behind.take body.text.length) then
        some body.value :: outcomes ready bodies (behind.drop body.text.length)
      else [none]

/-- All messages are ready. -/
def AllReady (ready : List TimedByte → List TimedByte → Prop) :
    List (RpcBody json) → List TimedByte → Prop
  | [], _ => True
  | body :: bodies, timed =>
      let headerLength := (messageHeader body.text.length).length
      let behind := timed.drop headerLength
      ready (timed.take headerLength) (behind.take body.text.length) ∧
        AllReady ready bodies (behind.drop body.text.length)

instance decidableAllReady (ready : List TimedByte → List TimedByte → Prop)
    [∀ header content, Decidable (ready header content)] :
    ∀ bodies timed, Decidable (AllReady json ready bodies timed)
  | [], _ => isTrue trivial
  | _ :: bodies, _ =>
      have := decidableAllReady ready bodies
      inferInstanceAs (Decidable (_ ∧ _))

section All

variable {json} [DecidableEq Value] {pipe : Pipe} {bodies : List (RpcBody json)}

/-- Exactly the messages whose header comes at once and whose content comes in time
are received, up to the first that is not so. -/
theorem receives_outcomes (delivered : bytesOf pipe.timed = framed json bodies) :
    Receives json pipe
      (outcomes json (fun header content => Smooth header ∧ InTime content) bodies pipe.timed) := by
  induction bodies generalizing pipe with
  | nil => exact .of_idle (List.map_eq_nil_iff.mp delivered)
  | cons body bodies ih =>
      have split : bytesOf pipe.timed =
          messageHeader body.text.length ++ (body.text ++ framed json bodies) := by
        rw [delivered]
        simp [framed, fillMessageHeader, messageHeader]
      obtain ⟨header, behind, whole, isHeader, isBehind⟩ := bytesOf_split split
      obtain ⟨content, rest, rfl, isContent, isRest⟩ := bytesOf_split isBehind
      have headerLength : (messageHeader body.text.length).length = header.length := by
        rw [← isHeader, bytesOf_length]
      have contentLength : body.text.length = content.length := by rw [← isContent, bytesOf_length]
      rw [outcomes, headerLength, whole, List.take_left, List.drop_left, contentLength,
        List.take_left, List.drop_left]
      split
      · rename_i ready
        refine .message whole isHeader isContent ready.1 ready.2 fun later left => ?_
        rw [← left]
        exact ih (by rw [left, isRest])
      · rename_i notReady
        exact .last whole isHeader isContent notReady

omit [DecidableEq Value] in
/-- The outcomes are the bodies, if and only if all messages are ready. -/
theorem outcomes_eq_iff {ready : List TimedByte → List TimedByte → Prop}
    [∀ header content, Decidable (ready header content)] {timed : List TimedByte} :
    outcomes json ready bodies timed = bodies.map (fun body => some body.value) ↔
      AllReady json ready bodies timed := by
  induction bodies generalizing timed with
  | nil => simp [outcomes, AllReady]
  | cons body bodies ih =>
      simp only [outcomes, AllReady, List.map_cons]
      split
      · rename_i isReady
        simp only [isReady, true_and, List.cons.injEq]
        exact ih
      · rename_i notReady
        simp [notReady]

omit [DecidableEq Value] in
/-- What holds of all messages need not be asked for. -/
theorem outcomes_of_all {first second : List TimedByte → List TimedByte → Prop}
    [∀ header content, Decidable (second header content)]
    [∀ header content, Decidable (first header content ∧ second header content)]
    {timed : List TimedByte} (all : AllReady json first bodies timed) :
    outcomes json (fun header content => first header content ∧ second header content) bodies timed =
      outcomes json second bodies timed := by
  induction bodies generalizing timed with
  | nil => rfl
  | cons body bodies ih => simp only [outcomes, all.1, true_and, ih all.2]

/-- The results have one limit. -/
theorem Receives.unique {first second : List (Option Value)} (one : Receives json pipe first)
    (other : Receives json pipe second) : first = second := by
  obtain ⟨enough, answers⟩ := one
  obtain ⟨alsoEnough, otherAnswers⟩ := other
  obtain ⟨results, returned, rfl⟩ := answers (enough + alsoEnough) (Nat.le_add_right _ _)
  obtain ⟨same, sameReturned, rfl⟩ := otherAnswers (enough + alsoEnough) (Nat.le_add_left _ _)
  rw [Option.some.inj (returned.symm.trans sameReturned)]

/-- All messages are received, if and only if no read blocks inside a header and all
contents come in time. -/
theorem receives_all_iff (delivered : bytesOf pipe.timed = framed json bodies) :
    Receives json pipe (bodies.map fun body => some body.value) ↔
      AllReady json (fun header content => Smooth header ∧ InTime content) bodies pipe.timed := by
  have received := receives_outcomes delivered
  rw [← outcomes_eq_iff]
  constructor
  · exact fun all => received.unique all
  · intro same
    rwa [same] at received

/-- When no read blocks inside a header, the bodies are received in their order up to
the first whose content does not come in time: all of them, if all come in time. -/
theorem receives_inTime (bodies : List (RpcBody json))
    (delivered : bytesOf pipe.timed = framed json bodies)
    (smooth : AllReady json (fun header _ => Smooth header) bodies pipe.timed) :
    Receives json pipe (outcomes json (fun _ content => InTime content) bodies pipe.timed) ∧
      (AllReady json (fun _ content => InTime content) bodies pipe.timed →
        Receives json pipe (bodies.map fun body => some body.value)) := by
  have received := receives_outcomes delivered
  rw [outcomes_of_all smooth] at received
  exact ⟨received, fun all => outcomes_eq_iff.mpr all ▸ received⟩

end All

/-! ## A message with a late byte -/

/-- A reader that keeps texts as they are. -/
def textReader : JsonReader Text where
  parse text := if text = [] then none else some text
  -- two quotes
  emptyString := [Char.ofNat 34, Char.ofNat 34]
  parse_nil := rfl

/-- The message that is an empty object. -/
def objectBody : RpcBody textReader where
  text := ['{', '}']
  value := ['{', '}']
  parses := rfl
  isMessage := by decide
  fits := by decide

/-- The message arrives in two chunks, with some reads that would block between its
two last bytes. -/
def latePipe (waits : Nat) : Pipe :=
  .chunk 'C' "ontent-Length: 2".toList :: .chunk '\r' ['\n', '\r', '\n', '{'] ::
    (List.replicate waits .wouldBlock ++ [.chunk '}' []])

/-- Three such reads are waited for. -/
theorem latePipe_received :
    Receives textReader (latePipe 3) (outcomes textReader (fun _ content => InTime content)
        [objectBody] (latePipe 3).timed) ∧
      (AllReady textReader (fun _ content => InTime content) [objectBody] (latePipe 3).timed →
        Receives textReader (latePipe 3) [some objectBody.value]) :=
  receives_inTime [objectBody] (by decide) (by decide)

/-- Four are not, though all bytes of the message arrive. -/
theorem latePipe_lost : bytesOf (latePipe 4).timed = framed textReader [objectBody] ∧
    ¬ Receives textReader (latePipe 4) [some objectBody.value] := by
  have delivered : bytesOf (latePipe 4).timed = framed textReader [objectBody] := by decide
  refine ⟨delivered, fun received => ?_⟩
  exact absurd ((receives_all_iff delivered).mp received) (by decide)

end MergeBot.Lsp
