import Mathlib.Data.List.Basic
import Mathlib.Data.BitVec

/-!
# Hashing a message in blocks

`foldBlocks` compresses the whole blocks of a message and keeps what is left. It does not matter in
how many pieces the message comes (`foldBlocks_append`), so a hash that buffers its input is a
function of the whole message.

`SecureHash` is SHA-1 as its standard gives it: a padded message, a schedule of eighty words for
each block, and eighty steps on five working words.
-/

namespace MergeBot.Foundation

universe u v

section Blocks

variable {α : Type u} {σ : Type v} (compress : σ → List α → σ)

/-- Compress the whole blocks of a message. What is left does not fill a block. -/
def foldBlocks (size : Nat) (state : σ) (message : List α) : σ × List α :=
  if 0 < size ∧ size ≤ message.length then
    foldBlocks size (compress state (message.take size)) (message.drop size)
  else (state, message)
termination_by message.length
decreasing_by grind

variable {compress} {size : Nat}

theorem foldBlocks_of_short {message : List α} (short : message.length < size) (state : σ) :
    foldBlocks compress size state message = (state, message) := by
  rw [foldBlocks, if_neg (by omega)]

theorem foldBlocks_block {block : List α} (positive : 0 < size) (whole : block.length = size)
    (state : σ) (rest : List α) :
    foldBlocks compress size state (block ++ rest) =
      foldBlocks compress size (compress state block) rest := by
  rw [foldBlocks, if_pos ⟨positive, by simp; omega⟩, List.take_left' whole, List.drop_left' whole]

/-- A message may come in two pieces. -/
theorem foldBlocks_append (positive : 0 < size) (state : σ) (front back : List α) :
    foldBlocks compress size state (front ++ back) =
      foldBlocks compress size (foldBlocks compress size state front).1
        ((foldBlocks compress size state front).2 ++ back) := by
  induction hlen : front.length using Nat.strong_induction_on generalizing state front with
  | _ length inductionHypothesis =>
    by_cases short : front.length < size
    · rw [foldBlocks_of_short short]
    · have whole : (front.take size).length = size := by simp; omega
      have split : front = front.take size ++ front.drop size := (List.take_append_drop ..).symm
      have first : foldBlocks compress size state front =
          foldBlocks compress size (compress state (front.take size)) (front.drop size) := by
        conv_lhs => rw [split]
        exact foldBlocks_block positive whole state _
      rw [first, ← inductionHypothesis (front.drop size).length (by simp; omega) _ _ rfl,
        ← foldBlocks_block positive whole, ← List.append_assoc, ← split]

/-- The length of what is left. -/
theorem foldBlocks_rest_length (positive : 0 < size) (state : σ) (message : List α) :
    (foldBlocks compress size state message).2.length = message.length % size := by
  induction hlen : message.length using Nat.strong_induction_on generalizing state message with
  | _ length inductionHypothesis =>
    subst hlen
    by_cases short : message.length < size
    · rw [foldBlocks_of_short short, Nat.mod_eq_of_lt short]
    · rw [foldBlocks, if_pos ⟨positive, by omega⟩, inductionHypothesis _ (by simp; omega) _ _ rfl,
        List.length_drop]
      exact (Nat.mod_eq_sub_mod (by omega)).symm

end Blocks

namespace SecureHash

abbrev Byte := BitVec 8

abbrev Word := BitVec 32

/-- The five words of a digest, and the working words of a block. -/
structure Digest where
  a : Word
  b : Word
  c : Word
  d : Word
  e : Word
deriving DecidableEq, Repr

namespace Digest

/-- The digest of no blocks. -/
def initial : Digest := ⟨0x67452301, 0xefcdab89, 0x98badcfe, 0x10325476, 0xc3d2e1f0⟩

def add (left right : Digest) : Digest :=
  ⟨left.a + right.a, left.b + right.b, left.c + right.c, left.d + right.d, left.e + right.e⟩

/-- Eight hexadecimal digits for each word. -/
def hex (digest : Digest) : List Char :=
  [digest.a, digest.b, digest.c, digest.d, digest.e].flatMap fun word =>
    (List.range 8).map fun i => Nat.digitChar (word.toNat / 16 ^ (7 - i) % 16)

end Digest

def choose (x y z : Word) : Word := (x &&& y) ^^^ (~~~x &&& z)

def parity (x y z : Word) : Word := x ^^^ y ^^^ z

def majority (x y z : Word) : Word := (x &&& y) ^^^ (x &&& z) ^^^ (y &&& z)

/-- The function of a step. -/
def stepFunction (t : Nat) : Word → Word → Word → Word :=
  if t < 20 then choose else if t < 40 then parity else if t < 60 then majority else parity

/-- The constant of a step. -/
def stepConstant (t : Nat) : Word :=
  if t < 20 then 0x5a827999 else if t < 40 then 0x6ed9eba1
  else if t < 60 then 0x8f1bbcdc else 0xca62c1d6

/-- The words of a block, the most significant byte first. -/
def blockWord (block : List Byte) (t : Nat) : Word :=
  block.getD (4 * t) 0 ++ block.getD (4 * t + 1) 0 ++ block.getD (4 * t + 2) 0 ++
    block.getD (4 * t + 3) 0

/-- The schedule of a block: its words, and every further word from four earlier ones. -/
def schedule (words : Nat → Word) (t : Nat) : Word :=
  if t < 16 then words t
  else (schedule words (t - 3) ^^^ schedule words (t - 8) ^^^ schedule words (t - 14) ^^^
    schedule words (t - 16)).rotateLeft 1

/-- One step on the working words. -/
def step (word : Nat → Word) (working : Digest) (t : Nat) : Digest where
  a := working.a.rotateLeft 5 + stepFunction t working.b working.c working.d + working.e +
    stepConstant t + word t
  b := working.a
  c := working.b.rotateLeft 30
  d := working.c
  e := working.d

/-- The working words after the first steps. -/
def steps (word : Nat → Word) (working : Digest) (count : Nat) : Digest :=
  (List.range count).foldl (step word) working

/-- Eighty steps, and the old digest is added. -/
def compress (digest : Digest) (block : List Byte) : Digest :=
  digest.add (steps (schedule (blockWord block)) digest 80)

/-- A number of bits as eight bytes. -/
def lengthBytes (bits : BitVec 64) : List Byte :=
  (List.range 8).map fun i => bits.extractLsb' (8 * (7 - i)) 8

/-- A one bit, zeros, and the number of bits of the message fill the last block. -/
def pad (message : List Byte) : List Byte :=
  message ++ 0x80 :: List.replicate ((119 - message.length % 64) % 64) 0 ++
    lengthBytes (BitVec.ofNat 64 (8 * message.length))

/-- The digest of a message. -/
def messageDigest (message : List Byte) : Digest := (foldBlocks compress 64 .initial (pad message)).1

theorem steps_succ (word : Nat → Word) (working : Digest) (count : Nat) :
    steps word working (count + 1) = step word (steps word working count) count := by
  simp [steps, List.range_succ]

theorem schedule_of_lt (words : Nat → Word) {t : Nat} (inBlock : t < 16) :
    schedule words t = words t := by
  rw [schedule, if_pos inBlock]

theorem schedule_of_ge (words : Nat → Word) {t : Nat} (behind : 16 ≤ t) :
    schedule words t =
      (schedule words (t - 3) ^^^ schedule words (t - 8) ^^^ schedule words (t - 14) ^^^
        schedule words (t - 16)).rotateLeft 1 := by
  rw [schedule, if_neg (by omega)]

@[simp]
theorem length_lengthBytes (bits : BitVec 64) : (lengthBytes bits).length = 8 := by
  simp [lengthBytes]

/-- A padded message is whole blocks. -/
theorem length_pad_mod (message : List Byte) : (pad message).length % 64 = 0 := by
  simp [pad]
  omega

end SecureHash

end MergeBot.Foundation
