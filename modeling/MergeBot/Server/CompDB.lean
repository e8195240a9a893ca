import MergeBot.Foundation.Segments
import MergeBot.Conflict.Scanner

/-!
# Fine-tuning the compilation database

A scenario's sources are dumped to a directory of their own, and `fineTuneCompDB` rewrites the
project's path in the compile commands to that directory. It replaces every occurrence of the
path, whatever follows it, and the directory is read as a rewrite string:
`fineTuneCompDB_ownPaths_iff`.

`expand` stands for RE2: what a rewrite string means for a match.
-/

namespace MergeBot

open Foundation

variable (expand : Text → Text → Text)

/-- The original path without one trailing separator; there is no last character to look at in
an empty path. -/
def tunedProjectPath (origPath : Text) : Option Text :=
  if origPath = [] then none
  else if origPath.getLast? = some '/' then some origPath.dropLast
  else some origPath

/-- `RE2::GlobalReplace` with the quoted path as pattern: every match that does not overlap an
earlier one is replaced by its rewrite string. -/
def globalReplace (fileData path rewrite : Text) : List (Segment Char) :=
  replaceEach (fun _ => true) path (expand rewrite path) 0 fileData

/-- The segments of the new compilation database. -/
def fineTuneSegments (fileData projPath origPath : Text) : Option (List (Segment Char)) :=
  (tunedProjectPath origPath).map fun path => globalReplace expand fileData path projPath

/-- The new content of the compilation database. -/
def fineTuneCompDB (fileData projPath origPath : Text) : Option Text :=
  (fineTuneSegments expand fileData projPath origPath).map (List.flatMap Segment.text)

/-- A path ends in front of a separator, a quote, white space or the end of the text. -/
def pathEnds (rest : Text) : Bool :=
  rest.head?.all fun c => c ∈ ['/', '"', '\'', ' ', '\t', '\n', '\r', '\x0b', '\x0c']

/-- The project's own paths, and only they, are replaced by the new directory as it is. -/
def OwnPathsTuned (fileData projPath origPath : Text) : Prop :=
  ∃ path, tunedProjectPath origPath = some path ∧
    fineTuneSegments expand fileData projPath origPath =
      some (replaceEach pathEnds path projPath 0 fileData)

/-- Every occurrence of the project's path that the replacement meets ends there, and the
directory as a rewrite string stands for itself. -/
def OnlyOwnPaths (fileData projPath origPath : Text) : Prop :=
  ∃ path, tunedProjectPath origPath = some path ∧
    (∀ rest ∈ behindEach path 0 fileData, pathEnds rest = true) ∧
    (path <:+: fileData → expand projPath path = projPath)

variable {expand}

/-- With the project's path back in its places the new content is the old one. -/
theorem original_fineTuneSegments {fileData projPath origPath path : Text}
    {segments : List (Segment Char)} (tuned : tunedProjectPath origPath = some path)
    (made : fineTuneSegments expand fileData projPath origPath = some segments) :
    segments.flatMap (Segment.original path) = fileData := by
  rw [fineTuneSegments, tuned, Option.map_some, Option.some.injEq] at made
  rw [← made, globalReplace, original_replaceEach, List.drop_zero]

/-- Exactly the project's own paths are replaced, by the new directory, if and only if every
occurrence of the project's path ends there and the directory stands for itself. -/
theorem fineTuneCompDB_ownPaths_iff (fileData projPath origPath : Text) :
    OwnPathsTuned expand fileData projPath origPath ↔
      OnlyOwnPaths expand fileData projPath origPath := by
  refine exists_congr fun path => and_congr_right fun tuned => ?_
  rw [fineTuneSegments, tuned, Option.map_some, Option.some.injEq, globalReplace,
    replaceEach_eq_iff, behindEach_ne_nil_iff]

/-- A rewrite string by the documentation of RE2: `\0` and `\1` are the match and its only
group, `\\` is a backslash. -/
def rewriteString : Text → Text → Text
  | '\\' :: '0' :: rest, found => found ++ rewriteString rest found
  | '\\' :: '1' :: rest, found => found ++ rewriteString rest found
  | '\\' :: '\\' :: rest, found => '\\' :: rewriteString rest found
  | '\\' :: _, _ => []
  | c :: rest, found => c :: rewriteString rest found
  | [], _ => []

/-- A rewrite string without backslashes stands for itself. -/
theorem rewriteString_verbatim {rewrite : Text} (plain : '\\' ∉ rewrite) (found : Text) :
    rewriteString rewrite found = rewrite := by
  fun_induction rewriteString rewrite found <;> simp_all

/-- The path of a sibling directory is rewritten, too. -/
theorem sibling_rewritten :
    ¬ OwnPathsTuned rewriteString "-I/p-old/a".toList "/d".toList "/p/".toList := by
  rintro ⟨path, tuned, same⟩
  have stripped : tunedProjectPath "/p/".toList = some "/p".toList := by decide
  obtain rfl := Option.some.inj (tuned.symm.trans stripped)
  revert same
  decide

end MergeBot
