import MergeBot.Conflict.Scanner

/-!
# The pipe of the language server

The server's output arrives in chunks, and a read of the non-blocking pipe may find
none. Whatever the chunks, a pipe comes to its bytes with the number of reads that
would block before each of them (`Pipe.timed`): `sysRead_timed` says what a read
does to them, and `read_timed` what `PipeCommunicator::read` returns.
-/

namespace MergeBot.Lsp

/-- What the next read of a pipe meets. -/
inductive Delivery
  | chunk (first : Char) (rest : Text)
  | wouldBlock
deriving DecidableEq, Repr

/-- What is still to come. Then every read would block: the pipe is not closed. -/
abbrev Pipe := List Delivery

/-- What is left of a chunk stays in the pipe. -/
def putBack (rest : Text) (later : Pipe) : Pipe :=
  match rest with
  | [] => later
  | first :: rest => .chunk first rest :: later

/-- `::read` of up to `len` bytes, for `0 < len`. `none` is -1 with `EAGAIN`. -/
def sysRead (len : Nat) : Pipe → Option (Char × Text) × Pipe
  | [] => (none, [])
  | .wouldBlock :: later => (none, later)
  | .chunk first rest :: later =>
      (some (first, rest.take (len - 1)), putBack (rest.drop (len - 1)) later)

/-- How `PipeCommunicator::read` returns. -/
inductive ReadResult
  /-- The number of bytes in the buffer, when it is not zero. -/
  | bytes (first : Char) (rest : Text)
  /-- 0. -/
  | nothing
  /-- -1 with `EAGAIN`. -/
  | failed
deriving DecidableEq, Repr

/-- The number of bytes in the buffer. -/
def ReadResult.ofBuffer : Text → ReadResult
  | [] => .nothing
  | first :: rest => .bytes first rest

/-- The loop of `PipeCommunicator::read`. It gives up when a read would block before
the first byte, or for the fourth time behind it. -/
def readLoop (len : Nat) (buf : Text) (retryCnt : Nat) (pipe : Pipe) : ReadResult × Pipe :=
  if buf.length < len then
    match sysRead (len - buf.length) pipe with
    | (some (first, rest), later) => readLoop len (buf ++ first :: rest) retryCnt later
    | (none, later) =>
        if buf = [] then (.nothing, later)
        else if retryCnt < 3 then readLoop len buf (retryCnt + 1) later
        else (.failed, later)
  else (.ofBuffer buf, pipe)
termination_by (len - buf.length) + (3 - retryCnt)
decreasing_by
  · simp only [List.length_append, List.length_cons]
    omega
  · omega

/-- `PipeCommunicator::read` of `len` bytes. -/
def read (len : Nat) (pipe : Pipe) : ReadResult × Pipe := readLoop len [] 0 pipe

/-! ## Bytes and waits -/

/-- A byte, with the number of reads that would block before it. -/
abbrev TimedByte := Nat × Char

/-- The bytes that are still to come, when a number of reads would block already. -/
def timedFrom : Nat → Pipe → List TimedByte
  | _, [] => []
  | waits, .wouldBlock :: later => timedFrom (waits + 1) later
  | waits, .chunk first rest :: later =>
      (waits, first) :: rest.map (fun byte => (0, byte)) ++ timedFrom 0 later

/-- The bytes that are still to come. -/
def Pipe.timed (pipe : Pipe) : List TimedByte := timedFrom 0 pipe

/-- The bytes without the waits. -/
def bytesOf (timed : List TimedByte) : Text := timed.map Prod.snd

/-- All reads that would block before one of these bytes. -/
def totalWaits (timed : List TimedByte) : Nat := timed.foldr (fun byte sum => byte.1 + sum) 0

@[simp]
theorem totalWaits_cons (byte : TimedByte) (timed : List TimedByte) :
    totalWaits (byte :: timed) = byte.1 + totalWaits timed := rfl

@[simp]
theorem totalWaits_nil : totalWaits [] = 0 := rfl

@[simp]
theorem bytesOf_cons (byte : TimedByte) (timed : List TimedByte) :
    bytesOf (byte :: timed) = byte.2 :: bytesOf timed := rfl

@[simp]
theorem bytesOf_nil : bytesOf [] = [] := rfl

@[simp]
theorem bytesOf_append (timed more : List TimedByte) :
    bytesOf (timed ++ more) = bytesOf timed ++ bytesOf more := List.map_append

@[simp]
theorem bytesOf_length (timed : List TimedByte) : (bytesOf timed).length = timed.length :=
  List.length_map _

/-- One more read that would block. -/
def waitMore : List TimedByte → List TimedByte
  | [] => []
  | (waits, byte) :: rest => (waits + 1, byte) :: rest

theorem timedFrom_succ (waits : Nat) (pipe : Pipe) :
    timedFrom (waits + 1) pipe = waitMore (timedFrom waits pipe) := by
  induction pipe generalizing waits with
  | nil => rfl
  | cons delivery later ih =>
      cases delivery with
      | chunk first rest => rfl
      | wouldBlock => exact ih (waits + 1)

@[simp]
theorem timed_nil : Pipe.timed [] = [] := rfl

@[simp]
theorem timed_wouldBlock (later : Pipe) :
    Pipe.timed (.wouldBlock :: later) = waitMore later.timed :=
  timedFrom_succ 0 later

@[simp]
theorem timed_chunk (first : Char) (rest : Text) (later : Pipe) :
    Pipe.timed (.chunk first rest :: later) =
      (0, first) :: (rest.map fun byte => (0, byte)) ++ later.timed := rfl

theorem timed_putBack (rest : Text) (later : Pipe) :
    Pipe.timed (putBack rest later) = (rest.map fun byte => (0, byte)) ++ later.timed := by
  cases rest with
  | nil => rfl
  | cons first rest => rfl

theorem waitMore_eq_cons {timed rest : List TimedByte} {waits : Nat} {byte : Char}
    (more : waitMore timed = (waits, byte) :: rest) :
    ∃ fewer, waits = fewer + 1 ∧ timed = (fewer, byte) :: rest := by
  cases timed with
  | nil => simp [waitMore] at more
  | cons first others =>
      simp only [waitMore, List.cons.injEq, Prod.mk.injEq] at more
      obtain ⟨⟨rfl, rfl⟩, rfl⟩ := more
      exact ⟨first.1, rfl, rfl⟩

/-- A read that takes bytes takes some that need no waiting, and no more than it asks for. -/
theorem sysRead_some {len : Nat} (positive : 0 < len) {pipe later : Pipe} {first : Char}
    {bytes : Text} (reading : sysRead len pipe = (some (first, bytes), later)) :
    pipe.timed = (0, first) :: (bytes.map fun byte => (0, byte)) ++ later.timed ∧
      bytes.length < len := by
  cases pipe with
  | nil => simp [sysRead] at reading
  | cons delivery others =>
      cases delivery with
      | wouldBlock => simp [sysRead] at reading
      | chunk head rest =>
          simp only [sysRead, Prod.mk.injEq, Option.some.injEq] at reading
          obtain ⟨⟨rfl, rfl⟩, rfl⟩ := reading
          constructor
          · simp only [timed_putBack, timed_chunk, List.cons_append, List.cons.injEq, true_and]
            rw [← List.append_assoc, ← List.map_append, List.take_append_drop]
          · rw [List.length_take]
            omega

/-- A read that would block takes one of the waits. -/
theorem sysRead_none {len : Nat} {pipe later : Pipe} (reading : sysRead len pipe = (none, later)) :
    pipe.timed = waitMore later.timed := by
  cases pipe with
  | nil =>
      obtain rfl := (Prod.mk.inj reading).2
      rfl
  | cons delivery others =>
      cases delivery with
      | wouldBlock =>
          obtain rfl := (Prod.mk.inj reading).2
          exact timed_wouldBlock others
      | chunk head rest => simp [sysRead] at reading

/-! ## `PipeCommunicator::read` -/

/-- A chunk that fits into what is missing is the beginning of it. -/
theorem chunk_split {bytes : Text} {block rest later : List TimedByte}
    (split : block ++ rest = (bytes.map fun byte => (0, byte)) ++ later)
    (fits : bytes.length ≤ block.length) :
    ∃ remaining, block = (bytes.map fun byte => (0, byte)) ++ remaining ∧
      later = remaining ++ rest := by
  obtain ⟨remaining, taken, left⟩ | ⟨remaining, taken, left⟩ := List.append_eq_append_iff.mp split
  · have none_ : remaining = [] := by
      have lengths := congrArg List.length taken
      simp only [List.length_map, List.length_append] at lengths
      exact List.length_eq_zero_iff.mp (by omega)
    subst none_
    exact ⟨[], by simpa using taken.symm, by simpa using left.symm⟩
  · exact ⟨remaining, taken, left⟩

@[simp]
theorem totalWaits_append (timed more : List TimedByte) :
    totalWaits (timed ++ more) = totalWaits timed + totalWaits more := by
  induction timed with
  | nil => simp
  | cons byte rest ih => simp only [List.cons_append, totalWaits_cons, ih, Nat.add_assoc]

@[simp]
theorem totalWaits_chunk (bytes : Text) :
    totalWaits (bytes.map fun byte => (0, byte)) = 0 := by
  induction bytes with
  | nil => rfl
  | cons byte rest ih => simpa using ih

@[simp]
theorem bytesOf_chunk (bytes : Text) : bytesOf (bytes.map fun byte => (0, byte)) = bytes := by
  simp only [bytesOf, List.map_map]
  exact List.map_id bytes

/-- Behind the first byte, `read` waits for the others, if they come within the
retries that are left. -/
theorem readLoop_started {len retryCnt : Nat} {buf : Text} {pipe : Pipe}
    {block rest : List TimedByte} (started : buf ≠ []) (retries : retryCnt ≤ 3)
    (coming : pipe.timed = block ++ rest) (missing : buf.length + block.length = len) :
    (retryCnt + totalWaits block ≤ 3 ∧ ∃ later,
        readLoop len buf retryCnt pipe = (.ofBuffer (buf ++ bytesOf block), later) ∧
          later.timed = rest) ∨
      (3 < retryCnt + totalWaits block ∧ ∃ later,
        readLoop len buf retryCnt pipe = (.failed, later)) := by
  fun_induction readLoop len buf retryCnt pipe generalizing block with
  | case1 buf retryCnt pipe short first bytes later reading ih =>
      obtain ⟨arrives, fits⟩ := sysRead_some (Nat.sub_pos_of_lt short) reading
      have enough : (first :: bytes).length ≤ block.length := by
        rw [List.length_cons]
        omega
      have chunk : block ++ rest = ((first :: bytes).map fun byte => (0, byte)) ++ later.timed :=
        coming.symm.trans arrives
      obtain ⟨remaining, rfl, left⟩ := chunk_split chunk enough
      have filled : (buf ++ first :: bytes).length + remaining.length = len := by
        simp only [List.length_append, List.length_cons, List.length_map] at missing ⊢
        omega
      have step := ih (by simp) retries left filled
      simpa [Nat.add_assoc] using step
  | case2 pipe later reading short => exact absurd rfl started
  | case3 buf retryCnt pipe short later reading notEmpty again ih =>
      obtain ⟨byte, others, rfl⟩ : ∃ byte others, block = byte :: others :=
        List.exists_cons_of_length_pos (by omega)
      obtain ⟨fewer, waits, left⟩ := waitMore_eq_cons ((sysRead_none reading).symm.trans coming)
      have fewerLeft : later.timed = ((fewer, byte.2) :: others) ++ rest := left
      have step := ih started again fewerLeft (by simpa using missing)
      simp only [totalWaits_cons, bytesOf_cons, waits] at step ⊢
      have sum : retryCnt + (fewer + 1 + totalWaits others) =
          retryCnt + 1 + (fewer + totalWaits others) := by omega
      rwa [sum]
  | case4 buf retryCnt pipe short later reading notEmpty last =>
      obtain ⟨byte, others, rfl⟩ : ∃ byte others, block = byte :: others :=
        List.exists_cons_of_length_pos (by omega)
      obtain ⟨fewer, waits, left⟩ := waitMore_eq_cons ((sysRead_none reading).symm.trans coming)
      refine .inr ⟨?_, later, rfl⟩
      simp only [totalWaits_cons, waits]
      omega
  | case5 buf retryCnt pipe full =>
      obtain rfl : block = [] := List.length_eq_zero_iff.mp (by omega)
      exact .inl ⟨retries, pipe, by simp, coming⟩

/-- Without the first byte, `read` takes nothing, and one of the waits is over. -/
theorem read_blocked {pipe : Pipe} {len waits : Nat} (positive : 0 < len) {byte : Char}
    {rest : List TimedByte} (coming : pipe.timed = (waits + 1, byte) :: rest) :
    ∃ later, read len pipe = (.nothing, later) ∧ later.timed = (waits, byte) :: rest := by
  rw [read, readLoop, if_pos (by simpa using positive)]
  rcases reading : sysRead (len - ([] : Text).length) pipe with ⟨_ | ⟨first, bytes⟩, later⟩
  · obtain ⟨fewer, one, left⟩ := waitMore_eq_cons ((sysRead_none reading).symm.trans coming)
    obtain rfl := Nat.succ.inj one
    exact ⟨later, by simp, left⟩
  · have arrives := (sysRead_some positive reading).1
    rw [coming] at arrives
    simp at arrives

/-- When nothing more comes, it takes nothing. -/
theorem read_empty {pipe : Pipe} {len : Nat} (positive : 0 < len) (coming : pipe.timed = []) :
    ∃ later, read len pipe = (.nothing, later) ∧ later.timed = [] := by
  rw [read, readLoop, if_pos (by simpa using positive)]
  rcases reading : sysRead (len - ([] : Text).length) pipe with ⟨_ | ⟨first, bytes⟩, later⟩
  · have arrives := (sysRead_none reading).symm.trans coming
    refine ⟨later, by simp, ?_⟩
    cases left : later.timed with
    | nil => rfl
    | cons byte others => simp [left, waitMore] at arrives
  · have arrives := (sysRead_some positive reading).1
    rw [coming] at arrives
    simp at arrives

/-- When the first of the bytes that it is asked for is there, it takes them all, if
the others come within three retries. -/
theorem read_block {pipe : Pipe} {first : Char} {block rest : List TimedByte}
    (coming : pipe.timed = (0, first) :: block ++ rest) :
    (totalWaits block ≤ 3 ∧ ∃ later,
        read (block.length + 1) pipe = (.bytes first (bytesOf block), later) ∧
          later.timed = rest) ∨
      (3 < totalWaits block ∧ ∃ later, read (block.length + 1) pipe = (.failed, later)) := by
  rw [read, readLoop, if_pos (by simp)]
  rcases reading : sysRead (block.length + 1 - ([] : Text).length) pipe with
    ⟨_ | ⟨head, bytes⟩, later⟩
  · obtain ⟨fewer, impossible, -⟩ :=
      waitMore_eq_cons ((sysRead_none reading).symm.trans coming)
    exact absurd impossible (by simp)
  · obtain ⟨arrives, fits⟩ := sysRead_some (by simp) reading
    rw [coming] at arrives
    simp only [List.cons_append, List.cons.injEq, Prod.mk.injEq, true_and] at arrives
    obtain ⟨rfl, tails⟩ := arrives
    have enough : bytes.length ≤ block.length := by
      simp only [List.length_nil] at fits
      omega
    obtain ⟨remaining, rfl, left⟩ := chunk_split tails enough
    have filled : ([] ++ first :: bytes).length + remaining.length =
        ((bytes.map fun byte => (0, byte)) ++ remaining).length + 1 := by
      simp only [List.nil_append, List.length_cons, List.length_append, List.length_map]
      omega
    have rest_ := readLoop_started (by simp) (Nat.zero_le 3) left filled
    simpa [ReadResult.ofBuffer] using rest_

end MergeBot.Lsp
