import Mathlib.Data.List.GetD
import MergeBot.Foundation.BlockHash
import MergeBot.Server.Cache

/-!
# The checksum of a project

`SHA1` buffers what it is given, compresses every sixty-four bytes, and pads the last block. The
five working variables are never moved: the unrolled calls name them in turn. The sixteen words
of a block are overwritten by the schedule. `final_updates` says that the digits are those of
the standard's digest of everything that has been given, in whatever pieces.
-/

namespace MergeBot

open Foundation SecureHash

namespace SHA1

/-- The words of a block, which the rounds overwrite. -/
abbrev Block := Vector Word 16

def rol (value : Word) (bits : Nat) : Word := (value <<< bits) ||| (value >>> (32 - bits))

/-- An index is taken modulo sixteen by a mask. -/
def masked (i : Nat) : Fin 16 := ⟨i &&& 15, Nat.lt_of_le_of_lt Nat.and_le_right (by decide)⟩

def blk (block : Block) (i : Fin 16) : Word :=
  rol (block.get (masked (i + 13)) ^^^ block.get (masked (i + 8)) ^^^
    block.get (masked (i + 2)) ^^^ block.get i) 1

/-- What the five operations have in common: the block, and new values of `w` and `z`. -/
def operation (mixed constant : Word) (block : Block) (v w z : Word) (i : Fin 16) :
    Block × Word × Word :=
  (block, rol w 30, z + (mixed + block.get i + constant + rol v 5))

/-- The block with the next word of the schedule. -/
def scheduled (block : Block) (i : Fin 16) : Block := block.set i (blk block i)

def R0 (block : Block) (v w x y z : Word) (i : Fin 16) : Block × Word × Word :=
  operation ((w &&& (x ^^^ y)) ^^^ y) 0x5a827999 block v w z i

def R1 (block : Block) (v w x y z : Word) (i : Fin 16) : Block × Word × Word :=
  operation ((w &&& (x ^^^ y)) ^^^ y) 0x5a827999 (scheduled block i) v w z i

def R2 (block : Block) (v w x y z : Word) (i : Fin 16) : Block × Word × Word :=
  operation (w ^^^ x ^^^ y) 0x6ed9eba1 (scheduled block i) v w z i

def R3 (block : Block) (v w x y z : Word) (i : Fin 16) : Block × Word × Word :=
  operation (((w ||| x) &&& y) ||| (w &&& x)) 0x8f1bbcdc (scheduled block i) v w z i

def R4 (block : Block) (v w x y z : Word) (i : Fin 16) : Block × Word × Word :=
  operation (w ^^^ x ^^^ y) 0xca62c1d6 (scheduled block i) v w z i

inductive Operation
  | R0 | R1 | R2 | R3 | R4
deriving DecidableEq, Repr

def Operation.apply : Operation → Block → Word → Word → Word → Word → Word → Fin 16 →
    Block × Word × Word
  | .R0 => SHA1.R0
  | .R1 => SHA1.R1
  | .R2 => SHA1.R2
  | .R3 => SHA1.R3
  | .R4 => SHA1.R4

/-- The working variables. -/
inductive Variable
  | a | b | c | d | e
deriving DecidableEq, Repr

namespace Variable

def get (working : Digest) : Variable → Word
  | a => working.a
  | b => working.b
  | c => working.c
  | d => working.d
  | e => working.e

def set (working : Digest) (word : Word) : Variable → Digest
  | a => { working with a := word }
  | b => { working with b := word }
  | c => { working with c := word }
  | d => { working with d := word }
  | e => { working with e := word }

end Variable

/-- A call of the unrolled loop: the operation, its variables and its index. -/
structure Call where
  operation : Operation
  v : Variable
  w : Variable
  x : Variable
  y : Variable
  z : Variable
  i : Fin 16
deriving DecidableEq, Repr

/-- The variables `w` and `z` are passed by reference. -/
def Call.run (state : Block × Digest) (call : Call) : Block × Digest :=
  let (block, working) := state
  let (block, w, z) := call.operation.apply block (call.v.get working) (call.w.get working)
    (call.x.get working) (call.y.get working) (call.z.get working) call.i
  (block, call.w.set (call.z.set working z) w)

/-- The loop of eighty rounds, unrolled. -/
def calls : List Call :=
  [⟨.R0, .a, .b, .c, .d, .e, 0⟩, ⟨.R0, .e, .a, .b, .c, .d, 1⟩, ⟨.R0, .d, .e, .a, .b, .c, 2⟩,
    ⟨.R0, .c, .d, .e, .a, .b, 3⟩, ⟨.R0, .b, .c, .d, .e, .a, 4⟩, ⟨.R0, .a, .b, .c, .d, .e, 5⟩,
    ⟨.R0, .e, .a, .b, .c, .d, 6⟩, ⟨.R0, .d, .e, .a, .b, .c, 7⟩, ⟨.R0, .c, .d, .e, .a, .b, 8⟩,
    ⟨.R0, .b, .c, .d, .e, .a, 9⟩, ⟨.R0, .a, .b, .c, .d, .e, 10⟩, ⟨.R0, .e, .a, .b, .c, .d, 11⟩,
    ⟨.R0, .d, .e, .a, .b, .c, 12⟩, ⟨.R0, .c, .d, .e, .a, .b, 13⟩, ⟨.R0, .b, .c, .d, .e, .a, 14⟩,
    ⟨.R0, .a, .b, .c, .d, .e, 15⟩, ⟨.R1, .e, .a, .b, .c, .d, 0⟩, ⟨.R1, .d, .e, .a, .b, .c, 1⟩,
    ⟨.R1, .c, .d, .e, .a, .b, 2⟩, ⟨.R1, .b, .c, .d, .e, .a, 3⟩, ⟨.R2, .a, .b, .c, .d, .e, 4⟩,
    ⟨.R2, .e, .a, .b, .c, .d, 5⟩, ⟨.R2, .d, .e, .a, .b, .c, 6⟩, ⟨.R2, .c, .d, .e, .a, .b, 7⟩,
    ⟨.R2, .b, .c, .d, .e, .a, 8⟩, ⟨.R2, .a, .b, .c, .d, .e, 9⟩, ⟨.R2, .e, .a, .b, .c, .d, 10⟩,
    ⟨.R2, .d, .e, .a, .b, .c, 11⟩, ⟨.R2, .c, .d, .e, .a, .b, 12⟩, ⟨.R2, .b, .c, .d, .e, .a, 13⟩,
    ⟨.R2, .a, .b, .c, .d, .e, 14⟩, ⟨.R2, .e, .a, .b, .c, .d, 15⟩, ⟨.R2, .d, .e, .a, .b, .c, 0⟩,
    ⟨.R2, .c, .d, .e, .a, .b, 1⟩, ⟨.R2, .b, .c, .d, .e, .a, 2⟩, ⟨.R2, .a, .b, .c, .d, .e, 3⟩,
    ⟨.R2, .e, .a, .b, .c, .d, 4⟩, ⟨.R2, .d, .e, .a, .b, .c, 5⟩, ⟨.R2, .c, .d, .e, .a, .b, 6⟩,
    ⟨.R2, .b, .c, .d, .e, .a, 7⟩, ⟨.R3, .a, .b, .c, .d, .e, 8⟩, ⟨.R3, .e, .a, .b, .c, .d, 9⟩,
    ⟨.R3, .d, .e, .a, .b, .c, 10⟩, ⟨.R3, .c, .d, .e, .a, .b, 11⟩, ⟨.R3, .b, .c, .d, .e, .a, 12⟩,
    ⟨.R3, .a, .b, .c, .d, .e, 13⟩, ⟨.R3, .e, .a, .b, .c, .d, 14⟩, ⟨.R3, .d, .e, .a, .b, .c, 15⟩,
    ⟨.R3, .c, .d, .e, .a, .b, 0⟩, ⟨.R3, .b, .c, .d, .e, .a, 1⟩, ⟨.R3, .a, .b, .c, .d, .e, 2⟩,
    ⟨.R3, .e, .a, .b, .c, .d, 3⟩, ⟨.R3, .d, .e, .a, .b, .c, 4⟩, ⟨.R3, .c, .d, .e, .a, .b, 5⟩,
    ⟨.R3, .b, .c, .d, .e, .a, 6⟩, ⟨.R3, .a, .b, .c, .d, .e, 7⟩, ⟨.R3, .e, .a, .b, .c, .d, 8⟩,
    ⟨.R3, .d, .e, .a, .b, .c, 9⟩, ⟨.R3, .c, .d, .e, .a, .b, 10⟩, ⟨.R3, .b, .c, .d, .e, .a, 11⟩,
    ⟨.R4, .a, .b, .c, .d, .e, 12⟩, ⟨.R4, .e, .a, .b, .c, .d, 13⟩, ⟨.R4, .d, .e, .a, .b, .c, 14⟩,
    ⟨.R4, .c, .d, .e, .a, .b, 15⟩, ⟨.R4, .b, .c, .d, .e, .a, 0⟩, ⟨.R4, .a, .b, .c, .d, .e, 1⟩,
    ⟨.R4, .e, .a, .b, .c, .d, 2⟩, ⟨.R4, .d, .e, .a, .b, .c, 3⟩, ⟨.R4, .c, .d, .e, .a, .b, 4⟩,
    ⟨.R4, .b, .c, .d, .e, .a, 5⟩, ⟨.R4, .a, .b, .c, .d, .e, 6⟩, ⟨.R4, .e, .a, .b, .c, .d, 7⟩,
    ⟨.R4, .d, .e, .a, .b, .c, 8⟩, ⟨.R4, .c, .d, .e, .a, .b, 9⟩, ⟨.R4, .b, .c, .d, .e, .a, 10⟩,
    ⟨.R4, .a, .b, .c, .d, .e, 11⟩, ⟨.R4, .e, .a, .b, .c, .d, 12⟩, ⟨.R4, .d, .e, .a, .b, .c, 13⟩,
    ⟨.R4, .c, .d, .e, .a, .b, 14⟩, ⟨.R4, .b, .c, .d, .e, .a, 15⟩]

/-- The block is overwritten, the digest gets the working variables added, and the
transformations are counted. -/
def transform (digest : Digest) (block : Block) (transforms : BitVec 64) :
    Digest × Block × BitVec 64 :=
  let state := calls.foldl Call.run (block, digest)
  (digest.add state.2, state.1, transforms + 1)

/-- A character is sign extended before it is masked. -/
def maskedByte (byte : Byte) : Word := byte.signExtend 32 &&& 0xff

def bufferToBlock (buffer : List Byte) : Block :=
  Vector.ofFn fun i =>
    maskedByte (buffer.getD (4 * i + 3) 0) ||| maskedByte (buffer.getD (4 * i + 2) 0) <<< 8 |||
      maskedByte (buffer.getD (4 * i + 1) 0) <<< 16 ||| maskedByte (buffer.getD (4 * i + 0) 0) <<< 24

end SHA1

/-- The object; between two calls its buffer does not hold a whole block. -/
structure SHA1 where
  digest : Digest
  buffer : List Byte
  transforms : BitVec 64
  short : buffer.length < 64

namespace SHA1

/-- What the constructor and `reset` leave. -/
def reset : SHA1 := ⟨.initial, [], 0, by decide⟩

/-- The loop over a stream: it is read until the buffer holds a block. -/
def update (checksum : SHA1) (is : List Byte) : SHA1 :=
  let sbuf := is.take (64 - checksum.buffer.length)
  let buffer := checksum.buffer ++ sbuf
  if notWhole : buffer.length ≠ 64 then
    { checksum with
      buffer := buffer
      short := by
        have := checksum.short
        simp [buffer, sbuf] at notWhole ⊢
        omega }
  else
    let transformed := transform checksum.digest (bufferToBlock buffer) checksum.transforms
    update ⟨transformed.1, [], transformed.2.2, by decide⟩
      (is.drop (64 - checksum.buffer.length))
termination_by is.length
decreasing_by
  have := checksum.short
  simp [buffer, sbuf] at notWhole ⊢
  omega

/-- A word in a stream with `std::hex`, `std::setfill('0')` and `std::setw(8)`. -/
def hexField (word : Word) : List Char := (Nat.toDigits 16 word.toNat).leftpad 8 '0'

def hexDigest (digest : Digest) : List Char :=
  [digest.a, digest.b, digest.c, digest.d, digest.e].flatMap hexField

/-- The words before the last two are cleared. -/
def cleared (block : Block) : Block :=
  Vector.ofFn fun i => if i.val < 14 then 0 else block.get i

/-- Pad, append the number of bits, and return the digits and the object for the next run. -/
def final (checksum : SHA1) : List Char × SHA1 :=
  let totalBits := (checksum.transforms * 64 + BitVec.ofNat 64 checksum.buffer.length) * 8
  let buffer := checksum.buffer ++ [0x80]
  let origSize := buffer.length
  let block := bufferToBlock (buffer ++ List.replicate (64 - buffer.length) 0)
  let state :=
    if origSize > 64 - 8 then
      let transformed := transform checksum.digest block checksum.transforms
      (transformed.1, cleared transformed.2.1, transformed.2.2)
    else (checksum.digest, block, checksum.transforms)
  let block := (state.2.1.set 15 (totalBits.setWidth 32)).set 14 ((totalBits >>> 32).setWidth 32)
  (hexDigest (transform state.1 block state.2.2).1, reset)

/-! ## The rounds are the steps of the standard -/

theorem rol_eq (value : Word) {bits : Nat} (inWord : bits < 32) :
    rol value bits = value.rotateLeft bits := by
  rw [rol, BitVec.rotateLeft_def, Nat.mod_eq_of_lt inWord]

theorem choose_eq (w x y : Word) : ((w &&& (x ^^^ y)) ^^^ y) = choose w x y := by
  apply BitVec.eq_of_getLsbD_eq
  intro i inWord
  simp only [choose, BitVec.getLsbD_xor, BitVec.getLsbD_and, BitVec.getLsbD_not, inWord]
  cases w.getLsbD i <;> cases x.getLsbD i <;> cases y.getLsbD i <;> rfl

theorem majority_eq (w x y : Word) :
    (((w ||| x) &&& y) ||| (w &&& x)) = majority w x y := by
  apply BitVec.eq_of_getLsbD_eq
  intro i inWord
  simp only [majority, BitVec.getLsbD_xor, BitVec.getLsbD_and, BitVec.getLsbD_or]
  cases w.getLsbD i <;> cases x.getLsbD i <;> cases y.getLsbD i <;> rfl

/-- The variables in order. -/
def Variable.nth : Nat → Variable
  | 0 => .a
  | 1 => .b
  | 2 => .c
  | 3 => .d
  | _ => .e

/-- The variable that stands for a working word of the standard before round `t`. -/
def variableAt (t role : Nat) : Variable := .nth ((4 * t + role) % 5)

def operationAt (t : Nat) : Operation :=
  if t < 16 then .R0 else if t < 20 then .R1 else if t < 40 then .R2 else if t < 60 then .R3
  else .R4

def callAt (t : Nat) : Call where
  operation := operationAt t
  v := variableAt t 0
  w := variableAt t 1
  x := variableAt t 2
  y := variableAt t 3
  z := variableAt t 4
  i := Fin.ofNat 16 t

/-- The unrolled calls follow one rule. -/
theorem calls_eq : calls = (List.range 80).map callAt := by decide

/-- The block holds the last sixteen words of the schedule before round `t`. -/
def HoldsSchedule (words : Nat → Word) (block : Block) (t : Nat) : Prop :=
  ∀ s, s < max t 16 → max t 16 ≤ s + 16 → block.get (Fin.ofNat 16 s) = schedule words s

theorem masked_eq (i : Nat) : masked i = Fin.ofNat 16 i :=
  Fin.ext (Nat.and_two_pow_sub_one_eq_mod i 4)

theorem masked_back {t : Nat} (offset distance : Nat) (behind : 16 ≤ t)
    (around : offset + distance = 16) :
    masked ((Fin.ofNat 16 t).val + offset) = Fin.ofNat 16 (t - distance) := by
  rw [masked_eq]
  apply Fin.ext
  simp only [Fin.val_ofNat]
  omega

/-- The overwritten block yields the next word of the schedule. -/
theorem blk_eq {words : Nat → Word} {block : Block} {t : Nat}
    (holds : HoldsSchedule words block t) (behind : 16 ≤ t) :
    blk block (Fin.ofNat 16 t) = schedule words t := by
  have earlier : ∀ distance, 0 < distance → distance ≤ 16 →
      block.get (Fin.ofNat 16 (t - distance)) = schedule words (t - distance) := by
    intro distance _ _
    exact holds _ (by omega) (by omega)
  have oldest : Fin.ofNat 16 t = Fin.ofNat 16 (t - 16) := by
    apply Fin.ext
    simp only [Fin.val_ofNat]
    omega
  rw [blk, masked_back 13 3 behind rfl, masked_back 8 8 behind rfl,
    masked_back 2 14 behind rfl, oldest,
    earlier 3 (by omega) (by omega), earlier 8 (by omega) (by omega),
    earlier 14 (by omega) (by omega), earlier 16 (by omega) (by omega), rol_eq _ (by omega),
    schedule_of_ge words behind]

theorem get_set (block : Block) (word : Word) (i j : Fin 16) :
    (block.set i word).get j = if i = j then word else block.get j := by
  simp only [Fin.ext_iff]
  exact block.getElem_set i.isLt j.isLt

theorem scheduled_holds {words : Nat → Word} {block : Block} {t : Nat}
    (holds : HoldsSchedule words block t) (behind : 16 ≤ t) :
    HoldsSchedule words (scheduled block (Fin.ofNat 16 t)) (t + 1) := by
  intro s below recent
  rw [scheduled, blk_eq holds behind, get_set]
  by_cases newest : s = t
  · rw [if_pos (by rw [newest]), newest]
  · have differ : Fin.ofNat 16 t ≠ Fin.ofNat 16 s := by
      simp only [ne_eq, Fin.ext_iff, Fin.val_ofNat]
      omega
    rw [if_neg differ]
    exact holds s (by omega) (by omega)

/-- The word of the schedule that a round adds. -/
theorem operation_word {words : Nat → Word} {block : Block} {t : Nat}
    (holds : HoldsSchedule words block (t + 1)) :
    block.get (Fin.ofNat 16 t) = schedule words t :=
  holds t (by omega) (by omega)

theorem HoldsSchedule.succ_of_lt {words : Nat → Word} {block : Block} {t : Nat}
    (holds : HoldsSchedule words block t) (inBlock : t < 16) : HoldsSchedule words block (t + 1) :=
  fun s below recent => holds s (by omega) (by omega)

/-- The variables hold the working words of the standard before round `t`. -/
structure Represents (working standard : Digest) (t : Nat) : Prop where
  a : (variableAt t 0).get working = standard.a
  b : (variableAt t 1).get working = standard.b
  c : (variableAt t 2).get working = standard.c
  d : (variableAt t 3).get working = standard.d
  e : (variableAt t 4).get working = standard.e

/-- An operation mixes by the function of the round, adds its constant, and keeps the schedule
going. -/
theorem operationAt_apply {words : Nat → Word} {block : Block} {t : Nat}
    (holds : HoldsSchedule words block t) (inRounds : t < 80) (v w x y z : Word) :
    ∃ next, HoldsSchedule words next (t + 1) ∧
      (operationAt t).apply block v w x y z (Fin.ofNat 16 t) =
        (next, w.rotateLeft 30,
          v.rotateLeft 5 + stepFunction t w x y + z + stepConstant t + schedule words t) := by
  have shape : ∀ {next : Block} {mixed constant : Word}, HoldsSchedule words next (t + 1) →
      mixed = stepFunction t w x y → constant = stepConstant t →
      operation mixed constant next v w z (Fin.ofNat 16 t) =
        (next, w.rotateLeft 30,
          v.rotateLeft 5 + stepFunction t w x y + z + stepConstant t + schedule words t) := by
    intro next mixed constant nextHolds mixedEq constantEq
    rw [operation, operation_word nextHolds, rol_eq _ (by omega), rol_eq _ (by omega), mixedEq,
      constantEq]
    congr 2
    ac_rfl
  unfold operationAt
  split
  · rename_i early
    refine ⟨block, holds.succ_of_lt early, shape (holds.succ_of_lt early) ?_ ?_⟩
    · rw [choose_eq, stepFunction, if_pos (by omega)]
    · rw [stepConstant, if_pos (by omega)]
  · rename_i late
    have nextHolds := scheduled_holds holds (by omega)
    split
    · refine ⟨_, nextHolds, shape nextHolds ?_ ?_⟩
      · rw [choose_eq, stepFunction, if_pos (by omega)]
      · rw [stepConstant, if_pos (by omega)]
    · split
      · refine ⟨_, nextHolds, shape nextHolds ?_ ?_⟩
        · rw [stepFunction, if_neg (by omega), if_pos (by omega), parity]
        · rw [stepConstant, if_neg (by omega), if_pos (by omega)]
      · split
        · refine ⟨_, nextHolds, shape nextHolds ?_ ?_⟩
          · rw [majority_eq, stepFunction, if_neg (by omega), if_neg (by omega),
              if_pos (by omega)]
          · rw [stepConstant, if_neg (by omega), if_neg (by omega), if_pos (by omega)]
        · refine ⟨_, nextHolds, shape nextHolds ?_ ?_⟩
          · rw [stepFunction, if_neg (by omega), if_neg (by omega), if_neg (by omega), parity]
          · rw [stepConstant, if_neg (by omega), if_neg (by omega), if_neg (by omega)]

@[simp]
theorem Variable.get_set_self (working : Digest) (word : Word) (place : Variable) :
    place.get (place.set working word) = word := by
  cases place <;> rfl

@[simp]
theorem Variable.get_set_of_ne (working : Digest) (word : Word) {place other : Variable}
    (differ : place ≠ other) : place.get (other.set working word) = place.get working := by
  cases place <;> cases other <;> first | rfl | exact absurd rfl differ

/-- From one round to the next every word takes the role behind its own. -/
theorem variableAt_succ (t role : Nat) : variableAt (t + 1) (role + 1) = variableAt t role := by
  have same : (4 * (t + 1) + (role + 1)) % 5 = (4 * t + role) % 5 := by omega
  rw [variableAt, variableAt, same]

theorem variableAt_first (t : Nat) : variableAt (t + 1) 0 = variableAt t 4 := rfl

theorem Variable.nth_inj : ∀ left < 5, ∀ right < 5, nth left = nth right → left = right := by
  decide

theorem variableAt_ne {t role other : Nat} (roles : role < 5) (others : other < 5)
    (differ : role ≠ other) : variableAt t role ≠ variableAt t other := by
  intro same
  have residues := Variable.nth_inj _ (Nat.mod_lt _ (by omega)) _ (Nat.mod_lt _ (by omega)) same
  omega

/-- What an operation writes to `w` and `z` are working words of the next round. -/
theorem Represents.next {working standard : Digest} {t : Nat}
    (represents : Represents working standard t) (first : Word) :
    Represents
      ((variableAt t 1).set ((variableAt t 4).set working first) (standard.b.rotateLeft 30))
      ⟨first, standard.a, standard.b.rotateLeft 30, standard.c, standard.d⟩ (t + 1) := by
  have unchanged : ∀ role, role < 4 → role ≠ 1 →
      (variableAt t role).get
        ((variableAt t 1).set ((variableAt t 4).set working first) (standard.b.rotateLeft 30)) =
      (variableAt t role).get working := by
    intro role others notSecond
    rw [Variable.get_set_of_ne _ _ (variableAt_ne (by omega) (by omega) notSecond),
      Variable.get_set_of_ne _ _ (variableAt_ne (by omega) (by omega) (by omega))]
  constructor
  · rw [variableAt_first,
      Variable.get_set_of_ne _ _ (variableAt_ne (by omega) (by omega) (by omega)),
      Variable.get_set_self]
  · rw [variableAt_succ, unchanged 0 (by omega) (by omega), represents.a]
  · rw [variableAt_succ, Variable.get_set_self]
  · rw [variableAt_succ, unchanged 2 (by omega) (by omega), represents.c]
  · rw [variableAt_succ, unchanged 3 (by omega) (by omega), represents.d]

/-- One call is one step of the standard. -/
theorem run_callAt {words : Nat → Word} {state : Block × Digest} {standard : Digest} {t : Nat}
    (holds : HoldsSchedule words state.1 t) (represents : Represents state.2 standard t)
    (inRounds : t < 80) :
    HoldsSchedule words ((callAt t).run state).1 (t + 1) ∧
      Represents ((callAt t).run state).2 (step (schedule words) standard t) (t + 1) := by
  obtain ⟨block, working⟩ := state
  obtain ⟨next, nextHolds, result⟩ :=
    operationAt_apply holds inRounds standard.a standard.b standard.c standard.d standard.e
  have ran : (callAt t).run (block, working) =
      (next, (variableAt t 1).set ((variableAt t 4).set working
        (standard.a.rotateLeft 5 + stepFunction t standard.b standard.c standard.d + standard.e +
          stepConstant t + schedule words t)) (standard.b.rotateLeft 30)) := by
    simp only [Call.run, callAt, represents.a, represents.b, represents.c, represents.d,
      represents.e, result]
  rw [ran]
  exact ⟨nextHolds, represents.next _⟩

/-- The first calls are the first steps. -/
theorem run_calls {words : Nat → Word} {block : Block} (digest : Digest)
    (given : ∀ i : Fin 16, block.get i = words i) {count : Nat} (inRounds : count ≤ 80) :
    let state := ((List.range count).map callAt).foldl Call.run (block, digest)
    HoldsSchedule words state.1 count ∧
      Represents state.2 (steps (schedule words) digest count) count := by
  induction count with
  | zero =>
    refine ⟨?_, rfl, rfl, rfl, rfl, rfl⟩
    intro s below _
    have inBlock : s < 16 := by omega
    rw [schedule_of_lt words inBlock]
    simpa [Nat.mod_eq_of_lt inBlock] using given (Fin.ofNat 16 s)
  | succ count inductionHypothesis =>
    obtain ⟨holds, represents⟩ := inductionHypothesis (by omega)
    rw [List.range_succ, List.map_append, List.foldl_append, steps_succ]
    exact run_callAt holds represents (by omega)

theorem Represents.eq {working standard : Digest} (represents : Represents working standard 80) :
    working = standard := by
  obtain ⟨a, b, c, d, e⟩ := represents
  cases working
  cases standard
  simp_all [variableAt, Variable.nth, Variable.get]

/-- A transformation compresses the block. -/
theorem transform_digest {words : Nat → Word} {block : Block} (digest : Digest)
    (transforms : BitVec 64) (given : ∀ i : Fin 16, block.get i = words i) :
    (transform digest block transforms).1 = digest.add (steps (schedule words) digest 80) := by
  obtain ⟨-, represents⟩ := run_calls digest given (le_refl 80)
  simp only [transform, calls_eq]
  rw [represents.eq]

/-! ## Bytes and words -/

theorem getLsbD_maskedByte (byte : Byte) {i : Nat} (inWord : i < 32) :
    (maskedByte byte).getLsbD i = byte.getLsbD i := by
  have mask : (0xff : Word).getLsbD i = decide (i < 8) := Nat.testBit_two_pow_sub_one 8 i
  rw [maskedByte, BitVec.getLsbD_and, mask, BitVec.getLsbD_signExtend]
  by_cases low : i < 8
  · simp [low, inWord]
  · simp [low, BitVec.getLsbD_of_ge byte i (by omega)]

/-- The sign of a character does not reach the word. -/
theorem maskedBytes_eq (first second third fourth : Byte) :
    maskedByte fourth ||| maskedByte third <<< 8 ||| maskedByte second <<< 16 |||
      maskedByte first <<< 24 = first ++ second ++ third ++ fourth := by
  apply BitVec.eq_of_getLsbD_eq
  intro i inWord
  have outside : ∀ (byte : Byte) (place : Nat), 8 ≤ place → byte.getLsbD place = false :=
    fun byte place => BitVec.getLsbD_of_ge byte place
  simp only [BitVec.getLsbD_or, BitVec.getLsbD_shiftLeft, BitVec.getLsbD_append,
    getLsbD_maskedByte _ inWord, getLsbD_maskedByte _ (show i - 8 < 32 by omega),
    getLsbD_maskedByte _ (show i - 16 < 32 by omega),
    getLsbD_maskedByte _ (show i - 24 < 32 by omega), inWord, Nat.sub_sub]
  rcases Nat.lt_or_ge i 8 with low | high
  · have := low.trans (show 8 < 16 by decide)
    have := low.trans (show 8 < 24 by decide)
    simp [*]
  · grind

theorem bufferToBlock_get (buffer : List Byte) (i : Fin 16) :
    (bufferToBlock buffer).get i = blockWord buffer i := by
  have word : (bufferToBlock buffer).get i = _ := Vector.getElem_ofFn i.isLt
  rw [word, maskedBytes_eq]
  rfl

/-- Four consecutive bytes of a number are a word of it. -/
theorem extractLsb'_bytes (bits : BitVec 64) (start : Nat) :
    bits.extractLsb' (start + 24) 8 ++ bits.extractLsb' (start + 16) 8 ++
      bits.extractLsb' (start + 8) 8 ++ bits.extractLsb' start 8 = bits.extractLsb' start 32 := by
  rw [BitVec.extractLsb'_append_extractLsb'_eq_extractLsb' (by omega),
    BitVec.extractLsb'_append_extractLsb'_eq_extractLsb' (by omega),
    BitVec.extractLsb'_append_extractLsb'_eq_extractLsb' (by omega)]

/-- The last two words of a block are set to the number of bits. -/
def lengthened (block : Block) (bits : BitVec 64) : Block :=
  (block.set 15 (bits.setWidth 32)).set 14 ((bits >>> 32).setWidth 32)

theorem blockWord_append_of_lt {front : List Byte} {i : Nat} (inFront : 4 * i + 4 ≤ front.length)
    (back : List Byte) : blockWord (front ++ back) i = blockWord front i := by
  have same : ∀ place, place < front.length →
      (front ++ back).getD place 0 = front.getD place 0 :=
    fun place below => List.getD_append _ _ _ _ below
  rw [blockWord, blockWord, same _ (by omega), same _ (by omega), same _ (by omega),
    same _ (by omega)]

theorem blockWord_append_of_ge {front : List Byte} {i j : Nat}
    (behind : 4 * i = front.length + 4 * j) (back : List Byte) :
    blockWord (front ++ back) i = blockWord back j := by
  have same : ∀ offset, (front ++ back).getD (4 * i + offset) 0 = back.getD (4 * j + offset) 0 := by
    intro offset
    rw [List.getD_append_right _ _ _ _ (by omega)]
    congr 1
    omega
  rw [blockWord, blockWord, same 1, same 2, same 3]
  congr 3
  exact same 0

theorem lengthened_apply (block : Block) (bits : BitVec 64) (i : Fin 16) :
    (lengthened block bits).get i =
      if i = 14 then (bits >>> 32).setWidth 32
      else if i = 15 then bits.setWidth 32 else block.get i := by
  have outer : (lengthened block bits).get i = _ :=
    get_set (block.set 15 (bits.setWidth 32)) ((bits >>> 32).setWidth 32) 14 i
  have inner : (block.set 15 (bits.setWidth 32)).get i = _ :=
    get_set block (bits.setWidth 32) 15 i
  rw [outer]
  refine (congrArg (ite _ _) inner).trans ?_
  simp only [eq_comm]

/-- The number of bits is the end of the last block. -/
theorem lengthened_get {front : List Byte} {block : Block} (bits : BitVec 64)
    (room : front.length = 56)
    (given : ∀ i : Fin 16, i.val < 14 → block.get i = blockWord front i) (i : Fin 16) :
    (lengthened block bits).get i = blockWord (front ++ lengthBytes bits) i := by
  rw [lengthened_apply]
  split
  · rename_i same
    subst same
    have last : blockWord (front ++ lengthBytes bits) 14 = blockWord (lengthBytes bits) 0 :=
      blockWord_append_of_ge (by omega) _
    refine Eq.trans ?_ last.symm
    exact BitVec.setWidth_ushiftRight_eq_extractLsb.trans (extractLsb'_bytes bits 32).symm
  · split
    · rename_i same
      subst same
      have last : blockWord (front ++ lengthBytes bits) 15 = blockWord (lengthBytes bits) 1 :=
        blockWord_append_of_ge (by omega) _
      refine Eq.trans ?_ last.symm
      refine Eq.trans ?_ (extractLsb'_bytes bits 0).symm
      exact BitVec.setWidth_eq_extractLsb' (by omega)
    · rw [blockWord_append_of_lt (by omega)]
      exact given i (by omega)

/-! ## The buffer -/

/-- The object has been given a message. -/
structure Absorbed (checksum : SHA1) (message : List Byte) : Prop where
  digest : checksum.digest = (foldBlocks compress 64 .initial message).1
  buffer : checksum.buffer = (foldBlocks compress 64 .initial message).2
  transforms : checksum.transforms = BitVec.ofNat 64 (message.length / 64)

theorem reset_absorbed : Absorbed reset [] := by
  have nothing : foldBlocks compress 64 .initial [] = (.initial, []) :=
    foldBlocks_of_short (by decide) _
  constructor
  · rw [nothing]
    rfl
  · rw [nothing]
    rfl
  · rfl

theorem transform_block (digest : Digest) (block : List Byte) (transforms : BitVec 64) :
    (transform digest (bufferToBlock block) transforms).1 = compress digest block :=
  transform_digest digest transforms (bufferToBlock_get block)

theorem Absorbed.buffer_length {checksum : SHA1} {message : List Byte}
    (absorbed : Absorbed checksum message) : checksum.buffer.length = message.length % 64 := by
  rw [absorbed.buffer]
  exact foldBlocks_rest_length (by decide) _ _

theorem foldBlocks_one {block : List Byte} (whole : block.length = 64) (digest : Digest) :
    foldBlocks compress 64 digest block = (compress digest block, []) := by
  rw [← List.append_nil block, foldBlocks_block (by decide) whole, foldBlocks_of_short (by decide),
    List.append_nil]

/-- A stream that does not fill the buffer is kept. -/
theorem update_of_short (checksum : SHA1) {is : List Byte}
    (fits : (checksum.buffer ++ is).length < 64) :
    checksum.update is = { checksum with buffer := checksum.buffer ++ is, short := fits } := by
  have room : is.length ≤ 64 - checksum.buffer.length := by
    rw [List.length_append] at fits
    omega
  have all : is.take (64 - checksum.buffer.length) = is := List.take_of_length_le room
  rw [update]
  split
  · simp only [all]
  · rename_i whole
    rw [all] at whole
    omega

/-- A block that fills the buffer is compressed, and the rest of the stream is read. -/
theorem update_of_whole (checksum : SHA1) {block : List Byte}
    (whole : (checksum.buffer ++ block).length = 64) (rest : List Byte) :
    checksum.update (block ++ rest) =
      (⟨compress checksum.digest (checksum.buffer ++ block), [], checksum.transforms + 1,
        by decide⟩ : SHA1).update rest := by
  have size : 64 - checksum.buffer.length = block.length := by
    rw [List.length_append] at whole
    omega
  have taken : (block ++ rest).take (64 - checksum.buffer.length) = block := by
    rw [size, List.take_left]
  have dropped : (block ++ rest).drop (64 - checksum.buffer.length) = rest := by
    rw [size, List.drop_left]
  rw [update]
  split
  · rename_i notWhole
    rw [taken] at notWhole
    exact absurd whole notWhole
  · simp only [taken, dropped, transform_block]
    rfl

/-- Whatever a stream contains is added to the message. -/
theorem Absorbed.update {checksum : SHA1} {message : List Byte}
    (absorbed : Absorbed checksum message) (is : List Byte) :
    Absorbed (checksum.update is) (message ++ is) := by
  induction hlen : is.length using Nat.strong_induction_on generalizing checksum message is with
  | _ length inductionHypothesis =>
    have bufferLength := absorbed.buffer_length
    by_cases fits : (checksum.buffer ++ is).length < 64
    · have folded : foldBlocks compress 64 .initial (message ++ is) =
          (checksum.digest, checksum.buffer ++ is) := by
        rw [foldBlocks_append (by decide), ← absorbed.digest, ← absorbed.buffer,
          foldBlocks_of_short fits]
      rw [update_of_short checksum fits]
      refine ⟨by rw [folded], by rw [folded], ?_⟩
      have sameCount : (message ++ is).length / 64 = message.length / 64 := by
        rw [List.length_append] at fits ⊢
        omega
      rw [sameCount]
      exact absorbed.transforms
    · -- The stream is split where the buffer is full.
      obtain ⟨block, rest, rfl, whole⟩ : ∃ block rest, is = block ++ rest ∧
          (checksum.buffer ++ block).length = 64 := by
        refine ⟨is.take (64 - checksum.buffer.length), is.drop (64 - checksum.buffer.length),
          (List.take_append_drop ..).symm, ?_⟩
        rw [List.length_append] at fits
        rw [List.length_append, List.length_take]
        have := checksum.short
        omega
      have positive : 0 < block.length := by
        rw [List.length_append] at whole
        have := checksum.short
        omega
      have folded : foldBlocks compress 64 .initial (message ++ block) =
          (compress checksum.digest (checksum.buffer ++ block), []) := by
        rw [foldBlocks_append (by decide), ← absorbed.digest, ← absorbed.buffer,
          foldBlocks_one whole]
      rw [update_of_whole checksum whole, ← List.append_assoc]
      refine inductionHypothesis rest.length ?_ ⟨by rw [folded], by rw [folded], ?_⟩ rest rfl
      · rw [← hlen, List.length_append]
        omega
      · have counted : (message ++ block).length / 64 = message.length / 64 + 1 := by
          rw [List.length_append] at whole ⊢
          omega
        rw [counted, BitVec.ofNat_add, ← absorbed.transforms]
        rfl

/-! ## The padding -/

/-- The bits of a message are counted by its blocks and the buffer. -/
theorem Absorbed.totalBits {checksum : SHA1} {message : List Byte}
    (absorbed : Absorbed checksum message) :
    (checksum.transforms * 64 + BitVec.ofNat 64 checksum.buffer.length) * 8 =
      BitVec.ofNat 64 (8 * message.length) := by
  rw [absorbed.transforms, absorbed.buffer_length]
  have count : 8 * message.length = (message.length / 64 * 64 + message.length % 64) * 8 := by
    omega
  rw [count, BitVec.ofNat_mul, BitVec.ofNat_add, BitVec.ofNat_mul]
  rfl

/-- The buffer with the padding of the standard. -/
def paddedBuffer (buffer : List Byte) (bits : BitVec 64) : List Byte :=
  buffer ++ (0x80 :: List.replicate ((119 - buffer.length) % 64) 0 ++ lengthBytes bits)

/-- The buffer as `final` fills it, up to a length. -/
def filled (buffer : List Byte) (length : Nat) : List Byte :=
  buffer ++ [0x80] ++ List.replicate (length - (buffer.length + 1)) 0

theorem length_filled {buffer : List Byte} {length : Nat} (room : buffer.length < length) :
    (filled buffer length).length = length := by
  simp [filled]
  omega

/-- The last blocks of the padded message are the buffer with the padding. -/
theorem Absorbed.messageDigest {checksum : SHA1} {message : List Byte}
    (absorbed : Absorbed checksum message) :
    messageDigest message =
      (foldBlocks compress 64 checksum.digest
        (paddedBuffer checksum.buffer (BitVec.ofNat 64 (8 * message.length)))).1 := by
  rw [SecureHash.messageDigest, pad, List.append_assoc, foldBlocks_append (by decide),
    absorbed.digest, ← absorbed.buffer, paddedBuffer, absorbed.buffer_length]

/-- The number of bits needs a block of its own. -/
theorem paddedBuffer_of_long {buffer : List Byte} (short : buffer.length < 64)
    (long : 56 < buffer.length + 1) (bits : BitVec 64) :
    paddedBuffer buffer bits =
      filled buffer 64 ++ (List.replicate 56 0 ++ lengthBytes bits) := by
  have zeros : (119 - buffer.length) % 64 = 64 - (buffer.length + 1) + 56 := by omega
  rw [paddedBuffer, filled, zeros, List.replicate_add]
  simp

/-- The number of bits has room behind the padding. -/
theorem paddedBuffer_of_fits {buffer : List Byte} (fits : buffer.length + 1 ≤ 56)
    (bits : BitVec 64) : paddedBuffer buffer bits = filled buffer 56 ++ lengthBytes bits := by
  have zeros : (119 - buffer.length) % 64 = 56 - (buffer.length + 1) := by omega
  rw [paddedBuffer, filled, zeros]
  simp

theorem filled_of_fits {buffer : List Byte} (fits : buffer.length + 1 ≤ 56) :
    filled buffer 64 = filled buffer 56 ++ List.replicate 8 0 := by
  have zeros : 64 - (buffer.length + 1) = 56 - (buffer.length + 1) + 8 := by omega
  rw [filled, filled, zeros, List.replicate_add]
  simp only [List.append_assoc]

/-- The block with the number of bits, when the words before are those of a list of bytes. -/
theorem transform_lengthened {front : List Byte} {block : Block} (digest : Digest)
    (bits transforms : BitVec 64) (room : front.length = 56)
    (given : ∀ i : Fin 16, i.val < 14 → block.get i = blockWord front i) :
    (transform digest (lengthened block bits) transforms).1 =
      compress digest (front ++ lengthBytes bits) :=
  transform_digest digest transforms (lengthened_get bits room given)

theorem cleared_get (block : Block) (i : Fin 16) (early : i.val < 14) :
    (cleared block).get i = blockWord (List.replicate 56 0) i := by
  have word : (cleared block).get i = _ := Vector.getElem_ofFn i.isLt
  have zero : ∀ place, (List.replicate 56 (0 : Byte)).getD place 0 = 0 := by
    intro place
    rw [List.getD_eq_getElem?_getD, List.getElem?_replicate]
    split <;> rfl
  rw [word, if_pos early, blockWord, zero, zero, zero, zero]
  rfl

/-- The last bytes of the buffer do not matter, for the number of bits takes their place. -/
theorem bufferToBlock_get_of_lt {front back : List Byte} (room : front.length = 56) (i : Fin 16)
    (early : i.val < 14) : (bufferToBlock (front ++ back)).get i = blockWord front i := by
  rw [bufferToBlock_get, blockWord_append_of_lt (by omega)]

/-- The digits are those of the message's digest. -/
theorem Absorbed.final {checksum : SHA1} {message : List Byte}
    (absorbed : Absorbed checksum message) :
    checksum.final = (hexDigest (SecureHash.messageDigest message), reset) := by
  rw [absorbed.messageDigest, ← absorbed.totalBits]
  refine Prod.ext (congrArg hexDigest ?_) rfl
  generalize (checksum.transforms * 64 + BitVec.ofNat 64 checksum.buffer.length) * 8 = bits
  simp only [List.length_append, List.length_singleton]
  split
  · rename_i long
    have whole := length_filled checksum.short
    rw [paddedBuffer_of_long checksum.short long, foldBlocks_block (by decide) whole,
      foldBlocks_one (by simp)]
    refine (transform_lengthened _ bits _ (by simp) (cleared_get _)).trans ?_
    rw [transform_block, filled]
  · rename_i long
    have fits : checksum.buffer.length + 1 ≤ 56 := by omega
    have room : (filled checksum.buffer 56).length = 56 := length_filled (by omega)
    rw [paddedBuffer_of_fits fits, foldBlocks_one (by simp [room])]
    refine transform_lengthened _ bits _ room ?_
    have block := filled_of_fits fits
    rw [filled] at block
    rw [block]
    exact bufferToBlock_get_of_lt room

/-! ## The digits -/

/-- A padded number is padded digit by digit. -/
theorem leftpad_toDigits {width : Nat} (positive : 0 < width) (n : Nat) :
    (Nat.toDigits 16 n).leftpad (width + 1) '0' =
      (Nat.toDigits 16 (n / 16)).leftpad width '0' ++ [Nat.digitChar (n % 16)] := by
  rw [Nat.toDigits_eq_if (by decide)]
  split
  · rename_i small
    rw [Nat.div_eq_of_lt small, Nat.toDigits_zero, Nat.mod_eq_of_lt small]
    obtain ⟨zeros, rfl⟩ : ∃ zeros, width = zeros + 1 := ⟨width - 1, by omega⟩
    simp [List.leftpad, List.replicate_succ']
  · simp [List.leftpad]

theorem leftpad_toDigits_eq {width n : Nat} (positive : 0 < width) (small : n < 16 ^ width) :
    (Nat.toDigits 16 n).leftpad width '0' =
      (List.range width).map fun i => Nat.digitChar (n / 16 ^ (width - 1 - i) % 16) := by
  induction width, positive using Nat.le_induction generalizing n with
  | base =>
    rw [Nat.toDigits_of_lt_base (by omega)]
    simp [List.leftpad, Nat.mod_eq_of_lt (show n < 16 by omega)]
  | succ width positive inductionHypothesis =>
    rw [leftpad_toDigits positive, inductionHypothesis (by rw [pow_succ] at small; omega),
      List.range_succ, List.map_append]
    congr 1
    · apply List.map_congr_left
      intro i member
      have below : i < width := List.mem_range.mp member
      have power : width + 1 - 1 - i = width - 1 - i + 1 := by omega
      rw [power, pow_succ, Nat.mul_comm, ← Nat.div_div_eq_div_mul]
    · simp

theorem hexDigest_eq (digest : Digest) : hexDigest digest = digest.hex := by
  have field : ∀ word : Word, hexField word =
      (List.range 8).map fun i => Nat.digitChar (word.toNat / 16 ^ (7 - i) % 16) :=
    fun word => leftpad_toDigits_eq (by decide) word.isLt
  rw [hexDigest, Digest.hex, funext field]

/-! ## Runs -/

/-- A call of the object's methods. -/
inductive Request
  | update (s : List Byte)
  | final

/-- What the calls of `final` return. -/
def responses : SHA1 → List Request → List (List Char)
  | _, [] => []
  | checksum, .update s :: rest => responses (checksum.update s) rest
  | checksum, .final :: rest => checksum.final.1 :: responses checksum.final.2 rest

/-- The messages that calls of `final` end: everything given since the last one. -/
def messages : List Byte → List Request → List (List Byte)
  | _, [] => []
  | given, .update s :: rest => messages (given ++ s) rest
  | given, .final :: rest => given :: messages [] rest

theorem Absorbed.responses {checksum : SHA1} {message : List Byte}
    (absorbed : Absorbed checksum message) (requests : List Request) :
    checksum.responses requests =
      (messages message requests).map fun given => (SecureHash.messageDigest given).hex := by
  induction requests generalizing checksum message with
  | nil => rfl
  | cons request rest inductionHypothesis =>
    cases request with
    | update s => exact inductionHypothesis (absorbed.update s)
    | final =>
      rw [SHA1.responses, absorbed.final, hexDigest_eq, inductionHypothesis reset_absorbed]
      rfl

/-- The digits that a new object returns are those of the standard, however often it is used and
in whatever pieces the messages come. -/
theorem responses_reset (requests : List Request) :
    reset.responses requests =
      (messages [] requests).map fun given => (SecureHash.messageDigest given).hex :=
  reset_absorbed.responses requests

/-! ## The checksum -/

theorem hex_length (digest : Digest) : digest.hex.length = 40 := by
  simp [Digest.hex]

/-- Every digit is `0` to `9` or `a` to `f`. -/
theorem mem_hex {digest : Digest} {c : Char} (member : c ∈ digest.hex) :
    c ∈ "0123456789abcdef".toList := by
  have digits : ∀ n < 16, Nat.digitChar n ∈ "0123456789abcdef".toList := by decide
  simp only [Digest.hex, List.mem_flatMap, List.mem_map] at member
  obtain ⟨word, -, i, -, rfl⟩ := member
  exact digits _ (Nat.mod_lt _ (by decide))

/-- A string is its bytes. -/
def bytesOf (text : Text) : List Byte :=
  text.flatMap fun c => (String.utf8EncodeChar c).map UInt8.toBitVec

/-- The digits of a string, from an object of its own. -/
def checksumOf (text : Text) : Text := ((reset.update (bytesOf text)).final).1

theorem checksumOf_eq (text : Text) :
    checksumOf text = (SecureHash.messageDigest (bytesOf text)).hex := by
  rw [checksumOf, (reset_absorbed.update _).final, hexDigest_eq, List.nil_append]

theorem checksumOf_single (text : Text) : '/' ∉ checksumOf text := by
  intro member
  rw [checksumOf_eq] at member
  have digit := mem_hex member
  revert digit
  decide

end SHA1

/-- The cache below a home directory, with the digits that `SHA1` computes. -/
def CacheLayout.ofDir (mbDir : Text) : CacheLayout where
  mbDir := mbDir
  sha1 := SHA1.checksumOf
  sha1_single := SHA1.checksumOf_single

end MergeBot
