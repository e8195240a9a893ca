import MergeBot.Conflict.EditorMarkers
import MergeBot.Editor.DiffHunks

/-!
# Fingerprints of conflict blocks

The editor knows a block by the hash of its text. `findSpecificFingerprint` looks for it with a
scan of its own, from a start marker to the next end marker, and returns the first block with that
hash.
-/

namespace MergeBot

open Foundation

/-- Lines from `start` to `stop`, none of them if these are out of order or outside. -/
def getArraySlice (lines : List Text) (start stop : Int) : List Text :=
  if start < 0 ∨ stop ≥ lines.length ∨ start > stop then []
  else (lines.take (stop + 1).toNat).drop start.toNat

section Hash

variable (sha256 : Text → Text)

/-- The hash of the lines from `start` to `stop`, counted from zero. -/
def getBlockHash (lines : List Text) (start stop : Int) : Text :=
  sha256 (joinLines (getArraySlice lines start stop))

/-- First and last line of a block, counted from zero. -/
structure BlockInterval where
  start : Nat
  stop : Nat
deriving DecidableEq, Repr

/-- The loops from line `i` on, in a block that starts in a line if one is open. -/
def findSpecificFingerprintFrom (lines : List Text) (finger : Text) :
    Option Nat → Nat → List Text → Option BlockInterval
  | _, _, [] => none
  | none, i, line :: rest =>
      if ConflictMark.ours.Begins line then
        findSpecificFingerprintFrom lines finger (some i) (i + 1) rest
      else findSpecificFingerprintFrom lines finger none (i + 1) rest
  | some start, i, line :: rest =>
      if ConflictMark.end_.Begins line then
        if finger = getBlockHash sha256 lines start i then some { start, stop := i }
        else findSpecificFingerprintFrom lines finger none (i + 1) rest
      else findSpecificFingerprintFrom lines finger (some start) (i + 1) rest

/-- Where the block with a hash is, if there is one. -/
def findSpecificFingerprint (lines : List Text) (finger : Text) : Option BlockInterval :=
  findSpecificFingerprintFrom sha256 lines finger none 0 lines

end Hash

end MergeBot
