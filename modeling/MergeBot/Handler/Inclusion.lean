import MergeBot.Handler.Resolution
import MergeBot.Utils.CommentRemoval

/-!
# Inclusion of one side in the other

`checkInclusion` accepts a side whose deflated code contains that of the other side. In a
source file the side is chosen by its number of lines, and `checkInclusion_keeps_lines` is
what the scan over the lines adds: the lines of the rejected side are a subsequence of those
of the accepted one.
-/

namespace MergeBot

open Foundation

/-! ## Files and their syntax trees -/

def endsWith (str suffix : Text) : Bool :=
  suffix.isSuffixOf str

/-- The file has one of the endings of sources. -/
def TextBasedHandler.isCppSource (filename : Text) : Bool :=
  [".cc", ".cpp", ".cxx", ".cx", ".c++", ".C", ".c++", ".c"].any fun ext =>
    endsWith filename ext.toList

/-- The file has one of the endings of headers. -/
def TextBasedHandler.isCppHeader (filename : Text) : Bool :=
  [".hpp", ".h"].any fun ext => endsWith filename ext.toList

/-- A child of the root of a syntax tree, with the name of its symbol. -/
structure SyntaxNode where
  symbolName : String
  text : String
  isNamed : Bool := true
deriving DecidableEq, Repr

namespace SyntaxNode

def isComment (node : SyntaxNode) : Bool :=
  node.symbolName = "comment"

/-- `find` in the symbol name does not return `npos`. -/
def symbolHas (node : SyntaxNode) (part : String) : Bool :=
  (Search.find part.toList node.symbolName.toList).isSome

end SyntaxNode

/-- The parser, as the children that it gives to the root of the tree for a text. -/
abbrev Parse := Text → List SyntaxNode

/-! ## The check -/

/-- The pointers are the rests of the two sequences. -/
def isSubSequence : List Text → List Text → Bool
  | first :: seq1, second :: seq2 =>
      if first = second then isSubSequence seq1 seq2 else isSubSequence seq1 (second :: seq2)
  | _, seq2 => seq2.isEmpty

/-- Every named child of the root is a comment or a declaration. -/
def onlyDeclarations (nodes : List SyntaxNode) : Bool :=
  (nodes.filter SyntaxNode.isNamed).all fun node =>
    node.isComment || node.symbolHas "declaration"

/-- The result that accepts a side. -/
def BlockResolutionResult.accept (brr : BlockResolutionResult) (code : Text) (desc : String)
    (confidence : Float) : BlockResolutionResult :=
  { brr with code := code, desc := desc.toList, confidence := confidence }

/-- The part of `checkInclusion` for a source file. -/
def checkSourceInclusion (our their : Text) (brr : BlockResolutionResult) :
    Option BlockResolutionResult :=
  let ourLineVec := stringSplit ['\n'] false our
  let theirLineVec := stringSplit ['\n'] false their
  if ourLineVec.length > theirLineVec.length then
    if isSubSequence ourLineVec theirLineVec then
      some (brr.accept our "Added code or method extraction, accept our side." 0.7)
    else none
  else if isSubSequence theirLineVec ourLineVec then
    some (brr.accept their "Added code or method extraction, accept their side" 0.7)
  else none

/-- The part of `checkInclusion` for a header. -/
def checkHeaderInclusion (parse : Parse) (our their : Text) (ourContain theirContain : Bool)
    (brr : BlockResolutionResult) : Option BlockResolutionResult :=
  if !onlyDeclarations (parse our) || !onlyDeclarations (parse their) then none
  else if ourContain then
    some (brr.accept our "Our side contains all the modifications, accept our side" 0.7)
  else if theirContain then
    some (brr.accept their "Their side contains all the modifications, accept their side." 0.7)
  else none

/-- Whether one side contains the other, and the result that accepts it. -/
def checkInclusion (parse : Parse) (our their filename : Text) (brr : BlockResolutionResult) :
    Bool × BlockResolutionResult :=
  let deflatedOurs := removeCommentsAndSpaces our
  let deflatedTheirs := removeCommentsAndSpaces their
  let ourContain := deflatedOurs.length > deflatedTheirs.length &&
    (Search.find deflatedTheirs deflatedOurs).isSome
  let theirContain := deflatedTheirs.length > deflatedOurs.length &&
    (Search.find deflatedOurs deflatedTheirs).isSome
  if !ourContain && !theirContain then (false, brr)
  else
    match if TextBasedHandler.isCppSource filename then
      checkSourceInclusion our their brr else none with
    | some result => (true, result)
    | none =>
        match if TextBasedHandler.isCppHeader filename then
          checkHeaderInclusion parse our their ourContain theirContain brr else none with
        | some result => (true, result)
        | none => (false, brr)

/-! ## What is accepted -/

/-- The lines of a text that are not empty. -/
def nonEmptyLines (text : Text) : List Text :=
  (text.splitOn '\n').filter (· ≠ [])

/-- A source file is no header. -/
theorem TextBasedHandler.isCppHeader_of_isCppSource {filename : Text}
    (source : TextBasedHandler.isCppSource filename = true) :
    TextBasedHandler.isCppHeader filename = false := by
  simp only [TextBasedHandler.isCppSource, endsWith, List.any_eq_true,
    List.isSuffixOf_iff_suffix] at source
  obtain ⟨ext, member, suffix⟩ := source
  by_contra header
  simp only [Bool.not_eq_false, TextBasedHandler.isCppHeader, endsWith, List.any_eq_true,
    List.isSuffixOf_iff_suffix] at header
  obtain ⟨headerExt, headerMember, headerSuffix⟩ := header
  have apart : ∀ first ∈ [".cc", ".cpp", ".cxx", ".cx", ".c++", ".C", ".c++", ".c"],
      ∀ second ∈ [".hpp", ".h"],
        ¬ (first.toList <:+ second.toList ∨ second.toList <:+ first.toList) := by
    decide
  exact apart ext member headerExt headerMember
    (List.suffix_or_suffix_of_suffix suffix headerSuffix)

/-- The greedy scan finds every subsequence. -/
theorem isSubSequence_iff (seq1 seq2 : List Text) :
    isSubSequence seq1 seq2 = true ↔ seq2.Sublist seq1 := by
  fun_induction isSubSequence seq1 seq2 with
  | case1 line seq1 seq2 inductionHypothesis =>
      rw [inductionHypothesis, List.cons_sublist_cons]
  | case2 first seq1 second seq2 differ inductionHypothesis =>
      rw [inductionHypothesis]
      refine ⟨fun later => later.cons first, fun sublist => ?_⟩
      rcases List.sublist_cons_iff.mp sublist with later | ⟨rest, split, -⟩
      · exact later
      · exact absurd (List.cons.inj split).1.symm differ
  | case3 seq1 seq2 finished =>
      cases seq1 with
      | nil => rw [List.isEmpty_iff, List.sublist_nil]
      | cons first seq1 =>
          cases seq2 with
          | nil => simp
          | cons second seq2 => exact (finished first seq1 second seq2 rfl rfl).elim

/-- Splitting without empty segments gives the lines that are not empty. -/
theorem stringSplit_lines (text : Text) : stringSplit ['\n'] false text = nonEmptyLines text := by
  have scan (segment : Text) (inLine : '\n' ∉ segment) :
      stringSplit.go ['\n'] false segment text = nonEmptyLines (segment ++ text) := by
    induction text generalizing segment with
    | nil =>
        rw [stringSplit.go, nonEmptyLines, List.append_nil, List.splitOn_eq_singleton inLine]
        cases segment <;> simp
    | cons c rest inductionHypothesis =>
        by_cases isBreak : c = '\n'
        · subst isBreak
          rw [stringSplit.go, if_pos List.mem_cons_self, inductionHypothesis [] List.not_mem_nil,
            nonEmptyLines, nonEmptyLines, List.splitOn_append_cons_self_of_not_mem inLine]
          cases segment <;> simp
        · rw [stringSplit.go, if_neg (by simpa using isBreak),
            inductionHypothesis (segment ++ [c]) (by simp [inLine, Ne.symm isBreak])]
          simp
  exact scan [] List.not_mem_nil

/-- In a source file the lines of the side that is rejected are found in the other one. -/
theorem checkSourceInclusion_spec {our their : Text} {brr result : BlockResolutionResult}
    (accepts : checkSourceInclusion our their brr = some result) :
    result.code = our ∧ (nonEmptyLines their).Sublist (nonEmptyLines our) ∨
      result.code = their ∧ (nonEmptyLines our).Sublist (nonEmptyLines their) := by
  rw [checkSourceInclusion] at accepts
  simp only [stringSplit_lines] at accepts
  split at accepts <;> split at accepts
  · rename_i included
    obtain rfl := Option.some.inj accepts
    exact .inl ⟨rfl, (isSubSequence_iff _ _).mp included⟩
  · simp at accepts
  · rename_i included
    obtain rfl := Option.some.inj accepts
    exact .inr ⟨rfl, (isSubSequence_iff _ _).mp included⟩
  · simp at accepts

/-- When a side is accepted in a source file, the lines of the other side are a subsequence of
its lines, as the scan over the lines is true exactly for subsequences. -/
theorem checkInclusion_keeps_lines :
    (∀ seq1 seq2, isSubSequence seq1 seq2 = true ↔ seq2.Sublist seq1) ∧
      ∀ parse our their filename brr result, TextBasedHandler.isCppSource filename = true →
        checkInclusion parse our their filename brr = (true, result) →
          result.code = our ∧ (nonEmptyLines their).Sublist (nonEmptyLines our) ∨
            result.code = their ∧ (nonEmptyLines our).Sublist (nonEmptyLines their) := by
  refine ⟨isSubSequence_iff, fun parse our their filename brr result source accepts => ?_⟩
  rw [checkInclusion] at accepts
  simp only [source, TextBasedHandler.isCppHeader_of_isCppSource source, if_true,
    Bool.false_eq_true, if_false] at accepts
  split at accepts
  · simp at accepts
  · split at accepts
    · rename_i accepted
      obtain rfl := (Prod.mk.inj accepts).2
      exact checkSourceInclusion_spec accepted
    · simp at accepts

/-- A side with one more statement is accepted. -/
theorem checkInclusion_keeps_lines_at :
    (nonEmptyLines "f();".toList).Sublist (nonEmptyLines "f();\n\ng();".toList) := by
  have kept := checkInclusion_keeps_lines.2 (fun _ => []) "f();\n\ng();".toList "f();".toList
    "a.cpp".toList {} _ (by decide) rfl
  rcases kept with ⟨-, sublist⟩ | ⟨impossible, -⟩
  · exact sublist
  · exact absurd impossible (by decide)

end MergeBot
