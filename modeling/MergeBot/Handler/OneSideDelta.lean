import MergeBot.Handler.BlockLookup
import MergeBot.Handler.Resolution

/-!
# De facto one-sided changes

`checkOneSideDelta` looks up a block by its number in the re-merged file and, when one
side of that block only changes comments or spaces of the base, takes the other side of
the block that is being resolved. `judgedOnOwnBlock_iff` says when the two are the same
block: nothing in the code compares their sides.
-/

namespace MergeBot

/-- How code is prepared for a comparison. -/
structure CodeCleanup where
  removeCommentsAndSpaces : Text → Text
  doMacroExpansion : Text → Text

/-- Code with its macros expanded and without comments and spaces. -/
def CodeCleanup.deflate (cleanup : CodeCleanup) (code : Text) : Text :=
  cleanup.removeCommentsAndSpaces (cleanup.doMacroExpansion code)

/-- The ours section of a diff3 block. -/
def ourSection (codeRange : Text) : Text :=
  extractCodeFromConflictRange codeRange ConflictMark.ours.text ConflictMark.base.text

/-- The base section of a diff3 block. -/
def baseSection (codeRange : Text) : Text :=
  extractCodeFromConflictRange codeRange ConflictMark.base.text ConflictMark.theirs.text

/-- The theirs section of a diff3 block. -/
def theirSection (codeRange : Text) : Text :=
  extractCodeFromConflictRange codeRange ConflictMark.theirs.text ConflictMark.end_.text

/-- Whether one side of the block changes nothing, and the result that takes the other.
`conflictFile` is the content of the re-merged file, if it can be read; `none` means that
the lookup leaves its buffer. -/
def checkOneSideDelta (cleanup : CodeCleanup) (our their : Text) (conflictFile : Option Text)
    (brr : BlockResolutionResult) : Option (Bool × BlockResolutionResult) :=
  if our = [] ∨ their = [] then some (false, brr)
  else
    match conflictFile with
    | none => some (false, brr)
    | some file =>
        match extractConflictBlock brr.index file with
        | none => none
        | some codeRange =>
            if codeRange = [] then some (false, brr)
            else
              let ourDeflated := cleanup.deflate (ourSection codeRange)
              let baseDeflated := cleanup.deflate (baseSection codeRange)
              let theirDeflated := cleanup.deflate (theirSection codeRange)
              if ourDeflated = baseDeflated then
                some (true,
                  { brr with
                    code := their
                    desc := "De facto one-sided modification, accept their side.".toList
                    confidence := 0.7 })
              else if theirDeflated = baseDeflated then
                some (true,
                  { brr with
                    code := our
                    desc := "De facto one-sided modification, accept our side.".toList
                    confidence := 0.7 })
              else some (false, brr)

variable (cleanup : CodeCleanup)

/-- Our side of a block does not change the base. -/
def OurUnchanged (codeRange : Text) : Prop :=
  cleanup.deflate (ourSection codeRange) = cleanup.deflate (baseSection codeRange)

/-- Their side of a block does not change the base. -/
def TheirUnchanged (codeRange : Text) : Prop :=
  cleanup.deflate (theirSection codeRange) = cleanup.deflate (baseSection codeRange)

/-- One side of a block does not change the base. -/
def OneSided (codeRange : Text) : Prop :=
  OurUnchanged cleanup codeRange ∨ TheirUnchanged cleanup codeRange

/-- A block of the re-merged file has the sides that are being resolved. -/
def SameSides (our their codeRange : Text) : Prop :=
  ourSection codeRange = our ∧ theirSection codeRange = their

/-- The block with a number in the re-merged file, if the lookup finds one. -/
def FoundBlock (conflictFile : Option Text) (index : Int) (codeRange : Text) : Prop :=
  codeRange ≠ [] ∧ ∃ file, conflictFile = some file ∧
    extractConflictBlock index file = some codeRange

/-- One side is taken because the other one does not change the base. -/
def TakesChangedSide (our their codeRange code : Text) : Prop :=
  (code = their ∨ code = our) ∧ (code = their → OurUnchanged cleanup codeRange) ∧
    (code = our → TheirUnchanged cleanup codeRange)

/-- A decision for a side is made on the block that is being resolved, and because the other side
of it does not change the base. -/
def JudgedOnOwnBlock (our their : Text) (conflictFile : Option Text)
    (brr : BlockResolutionResult) : Prop :=
  ∀ result, checkOneSideDelta cleanup our their conflictFile brr = some (true, result) →
    ∃ codeRange, FoundBlock conflictFile brr.index codeRange ∧ SameSides our their codeRange ∧
      TakesChangedSide cleanup our their codeRange result.code

/-- There is one block with a number. -/
theorem FoundBlock.unique {conflictFile : Option Text} {index : Int} {first second : Text}
    (firstFound : FoundBlock conflictFile index first)
    (secondFound : FoundBlock conflictFile index second) : first = second := by
  obtain ⟨-, file, rfl, firstBlock⟩ := firstFound
  obtain ⟨-, other, same, secondBlock⟩ := secondFound
  obtain rfl := Option.some.inj same
  exact Option.some.inj (firstBlock.symm.trans secondBlock)

/-- A decision is made exactly for a one-sided block of the re-merged file: their side when ours
does not change the base, and else our side when theirs does not. -/
theorem checkOneSideDelta_spec (cleanup : CodeCleanup) (our their : Text)
    (conflictFile : Option Text) (brr : BlockResolutionResult) (code : Text) :
    (∃ result, checkOneSideDelta cleanup our their conflictFile brr = some (true, result) ∧
        result.code = code) ↔
      our ≠ [] ∧ their ≠ [] ∧ ∃ codeRange, FoundBlock conflictFile brr.index codeRange ∧
        (OurUnchanged cleanup codeRange ∧ code = their ∨
          ¬ OurUnchanged cleanup codeRange ∧ TheirUnchanged cleanup codeRange ∧ code = our) := by
  unfold checkOneSideDelta
  by_cases empty : our = [] ∨ their = []
  · rw [if_pos empty]
    refine iff_of_false (fun ⟨_, run, _⟩ => by simp at run) ?_
    exact fun ⟨ourNonempty, theirNonempty, _⟩ => empty.elim ourNonempty theirNonempty
  rw [if_neg empty]
  obtain ⟨ourNonempty, theirNonempty⟩ := not_or.mp empty
  cases conflictFile with
  | none => exact iff_of_false (fun ⟨_, run, _⟩ => by simp at run) (by simp [FoundBlock])
  | some file =>
      cases found : extractConflictBlock brr.index file with
      | none =>
          exact iff_of_false (fun ⟨_, run, _⟩ => by simp [found] at run)
            (by simp [FoundBlock, found])
      | some codeRange =>
          simp only [found]
          by_cases missing : codeRange = []
          · rw [if_pos missing]
            refine iff_of_false (fun ⟨_, run, _⟩ => by simp at run) ?_
            rintro ⟨-, -, other, ⟨present, same, readable, otherFound⟩, -⟩
            obtain rfl := Option.some.inj readable
            exact present ((Option.some.inj (otherFound.symm.trans found)).trans missing)
          have here : FoundBlock (some file) brr.index codeRange := ⟨missing, file, rfl, found⟩
          rw [if_neg missing]
          by_cases ourSame : OurUnchanged cleanup codeRange
          · rw [if_pos (show cleanup.deflate _ = cleanup.deflate _ from ourSame)]
            constructor
            · rintro ⟨result, run, rfl⟩
              obtain ⟨-, rfl⟩ := Prod.mk.inj (Option.some.inj run)
              exact ⟨ourNonempty, theirNonempty, codeRange, here, .inl ⟨ourSame, rfl⟩⟩
            · rintro ⟨-, -, other, otherFound, ⟨-, rfl⟩ | ⟨ourChanged, -⟩⟩
              · exact ⟨_, rfl, rfl⟩
              · exact absurd (here.unique otherFound ▸ ourSame) ourChanged
          rw [if_neg (show ¬ cleanup.deflate _ = cleanup.deflate _ from ourSame)]
          by_cases theirSame : TheirUnchanged cleanup codeRange
          · rw [if_pos (show cleanup.deflate _ = cleanup.deflate _ from theirSame)]
            constructor
            · rintro ⟨result, run, rfl⟩
              obtain ⟨-, rfl⟩ := Prod.mk.inj (Option.some.inj run)
              exact ⟨ourNonempty, theirNonempty, codeRange, here, .inr ⟨ourSame, theirSame, rfl⟩⟩
            · rintro ⟨-, -, other, otherFound, ⟨unchanged, -⟩ | ⟨-, -, rfl⟩⟩
              · exact absurd (otherFound.unique here ▸ unchanged) ourSame
              · exact ⟨_, rfl, rfl⟩
          rw [if_neg (show ¬ cleanup.deflate _ = cleanup.deflate _ from theirSame)]
          refine iff_of_false (fun ⟨_, run, _⟩ => by simp at run) ?_
          rintro ⟨-, -, other, otherFound, ⟨unchanged, -⟩ | ⟨-, unchanged, -⟩⟩
          · exact ourSame (otherFound.unique here ▸ unchanged)
          · exact theirSame (otherFound.unique here ▸ unchanged)

/-- On its own block a decision takes the side that changes the base. -/
theorem takesChangedSide {our their codeRange code : Text} (own : SameSides our their codeRange)
    (decided : OurUnchanged cleanup codeRange ∧ code = their ∨
      ¬ OurUnchanged cleanup codeRange ∧ TheirUnchanged cleanup codeRange ∧ code = our) :
    TakesChangedSide cleanup our their codeRange code := by
  obtain ⟨rfl, rfl⟩ := own
  -- equal sides are both unchanged or both changed
  rcases decided with ⟨unchanged, rfl⟩ | ⟨changed, unchanged, rfl⟩
  · refine ⟨.inl rfl, fun _ => unchanged, fun same => ?_⟩
    rw [TheirUnchanged, same]
    exact unchanged
  · refine ⟨.inr rfl, fun same => ?_, fun _ => unchanged⟩
    rw [OurUnchanged, same]
    exact unchanged

/-- A decision is made on the block that is being resolved exactly when a side of it is empty,
there is no such block in the re-merged file, both sides of that block change the base, or its
sides are those being resolved. -/
theorem judgedOnOwnBlock_iff (cleanup : CodeCleanup) (our their : Text)
    (conflictFile : Option Text) (brr : BlockResolutionResult) :
    JudgedOnOwnBlock cleanup our their conflictFile brr ↔
      our = [] ∨ their = [] ∨ ∀ codeRange, FoundBlock conflictFile brr.index codeRange →
        ¬ OneSided cleanup codeRange ∨ SameSides our their codeRange := by
  have decided := checkOneSideDelta_spec cleanup our their conflictFile brr
  constructor
  · intro own
    by_cases ourEmpty : our = []
    · exact .inl ourEmpty
    by_cases theirEmpty : their = []
    · exact .inr (.inl theirEmpty)
    refine .inr (.inr fun codeRange found => ?_)
    by_cases oneSided : OneSided cleanup codeRange
    · obtain ⟨code, side⟩ : ∃ code, OurUnchanged cleanup codeRange ∧ code = their ∨
          ¬ OurUnchanged cleanup codeRange ∧ TheirUnchanged cleanup codeRange ∧ code = our := by
        by_cases unchanged : OurUnchanged cleanup codeRange
        · exact ⟨their, .inl ⟨unchanged, rfl⟩⟩
        · exact ⟨our, .inr ⟨unchanged, oneSided.resolve_left unchanged, rfl⟩⟩
      obtain ⟨result, run, -⟩ :=
        (decided code).mpr ⟨ourEmpty, theirEmpty, codeRange, found, side⟩
      obtain ⟨other, otherFound, same, -⟩ := own result run
      exact .inr (otherFound.unique found ▸ same)
    · exact .inl oneSided
  · intro condition result run
    obtain ⟨ourNonempty, theirNonempty, codeRange, found, side⟩ :=
      (decided result.code).mp ⟨result, run, rfl⟩
    have oneSided : OneSided cleanup codeRange := by
      rcases side with ⟨unchanged, -⟩ | ⟨-, unchanged, -⟩
      · exact .inl unchanged
      · exact .inr unchanged
    rcases condition with empty | empty | same
    · exact absurd empty ourNonempty
    · exact absurd empty theirNonempty
    · have own := (same codeRange found).resolve_left (not_not.mpr oneSided)
      exact ⟨codeRange, found, own, takesChangedSide cleanup own side⟩

/-- Spaces go, and there are no macros. -/
def spacesOnly : CodeCleanup where
  removeCommentsAndSpaces := fun code => code.filter fun c => !c.isWhitespace
  doMacroExpansion := id

/-- A re-merged file whose first block differs from its base by a space on our side. -/
def otherFirstBlock : Text :=
  "<<<<<<< o\nx \n||||||| b\nx\n=======\ny\n>>>>>>> t\n".toList

/-- The first block being resolved has other sides, but is decided on that block. -/
theorem oneSideDelta_other_block : ¬ ∀ cleanup our their conflictFile brr,
    JudgedOnOwnBlock cleanup our their conflictFile brr := by
  intro own
  have found : extractConflictBlock 1 otherFirstBlock =
      some "<<<<<<< o\nx \n||||||| b\nx\n=======\ny\n>>>>>>>".toList := by decide +kernel
  have here : FoundBlock (some otherFirstBlock) 1
      "<<<<<<< o\nx \n||||||| b\nx\n=======\ny\n>>>>>>>".toList :=
    ⟨by decide, otherFirstBlock, rfl, found⟩
  obtain ⟨result, run, -⟩ := (checkOneSideDelta_spec spacesOnly ['f'] ['h'] (some otherFirstBlock)
    { index := 1 } ['h']).mpr
      ⟨by decide, by decide, _, here, .inl ⟨by unfold OurUnchanged; decide +kernel, rfl⟩⟩
  obtain ⟨codeRange, ⟨-, file, same, other⟩, ⟨ours, -⟩, -⟩ :=
    own spacesOnly ['f'] ['h'] (some otherFirstBlock) { index := 1 } result run
  obtain rfl := Option.some.inj same
  obtain rfl := Option.some.inj (found.symm.trans other)
  revert ours
  decide +kernel

end MergeBot
