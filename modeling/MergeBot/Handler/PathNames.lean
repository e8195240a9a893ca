import Mathlib.Data.List.Forall2
import MergeBot.Handler.Resolution

/-!
# Names of resolution files

`pathToName` replaces the separators of a path by `@` and colons by `#`. Both may
occur in a file name, and in a path without `/` the backslash is taken for the separator.
`pathToName_distinct_iff`: two paths have different names exactly when they are not
`Confusable`, that is, the same up to these replacements. `nameToPath` guesses the separator
from the name, and `nameToPath_pathToName` has the paths that it restores.
-/

namespace MergeBot

open Foundation

/-! ## Splitting and joining -/

/-- A text without one separator at its end. -/
def withoutTrailing (separator : Char) (text : Text) : Text :=
  if text.getLast? = some separator then text.dropLast else text

/-- One character for another. -/
def replaceChar (old new : Char) (c : Char) : Char :=
  if c = old then new else c

/-- A text without the character stays as it is. -/
theorem map_replaceChar_of_fresh {old : Char} (new : Char) {text : Text} (fresh : old ∉ text) :
    text.map (replaceChar old new) = text := by
  have unchanged : ∀ c ∈ text, replaceChar old new c = id c := by
    intro c member
    refine if_neg fun same => ?_
    exact fresh (same ▸ member)
  rw [List.map_congr_left unchanged, List.map_id]

/-- The segments, each followed by the new separator, are the text with the separator
replaced; one more follows when the text does not end with a separator. -/
theorem stringSplit_flatMap (old new : Char) (segment text : Text) (fresh : old ∉ segment) :
    (stringSplit.go [old] true segment text).flatMap (· ++ [new]) =
      (segment ++ text).map (replaceChar old new) ++
        if (segment ++ text).getLast? = some old ∨ segment ++ text = [] then [] else [new] := by
  induction text generalizing segment with
  | nil =>
      have same := map_replaceChar_of_fresh new fresh
      by_cases empty : segment = []
      · simp [stringSplit.go, empty]
      · have notLast : segment.getLast? ≠ some old := fun last =>
          fresh (List.mem_of_getLast? last)
        simp [stringSplit.go, empty, notLast, same]
  | cons c rest inductionHypothesis =>
      by_cases isSeparator : c = old
      · subst isSeparator
        have same := map_replaceChar_of_fresh new fresh
        have later := inductionHypothesis [] List.not_mem_nil
        simp only [List.nil_append] at later
        have lastIs : (segment ++ c :: rest).getLast? = some c ↔
            rest.getLast? = some c ∨ rest = [] := by
          cases rest with
          | nil => simp
          | cons next rest => simp [List.getLast?_cons_cons]
        simp only [stringSplit.go, List.mem_singleton, if_true, Bool.or_true, List.flatMap_cons,
          later, List.map_append, same, List.map_cons, lastIs]
        simp [replaceChar]
      · have notInSegment : old ∉ segment ++ [c] := by
          simp [fresh, Ne.symm isSeparator]
        have later := inductionHypothesis (segment ++ [c]) notInSegment
        simp only [List.append_assoc, List.singleton_append] at later
        simp only [stringSplit.go, List.mem_singleton, isSeparator, if_false, later]

/-- A text that ends with the separator is cut before it. -/
theorem stringJoin_of_getLast {parts : List Text} {separator : Char} {text : Text}
    (concatenated : parts.flatMap (· ++ [separator]) = text ++ [separator]) :
    stringJoin parts [separator] = text := by
  simp [stringJoin, concatenated, List.findIdx?_cons]

/-- Joining the segments of a text replaces the separator. -/
theorem stringJoin_stringSplit (old new : Char) (text : Text) :
    stringJoin (stringSplit [old] true text) [new] =
      (withoutTrailing old text).map (replaceChar old new) := by
  have concatenated := stringSplit_flatMap old new [] text List.not_mem_nil
  simp only [List.nil_append] at concatenated
  by_cases empty : text = []
  · subst empty
    rfl
  by_cases trailing : text.getLast? = some old
  · rw [withoutTrailing, if_pos trailing]
    refine stringJoin_of_getLast (concatenated.trans ?_)
    have whole := List.dropLast_append_getLast? old trailing
    rw [if_pos (.inl trailing), List.append_nil]
    conv_lhs => rw [← whole]
    simp [replaceChar]
  · rw [withoutTrailing, if_neg trailing]
    refine stringJoin_of_getLast (concatenated.trans ?_)
    simp [trailing, empty]

/-! ## Names -/

/-- The separator that is guessed for a path. -/
def guessedSeparator (path : Text) : Char :=
  if '/' ∈ path then '/' else '\\'

/-- The character of the name for a character of the path. -/
def nameChar (separator c : Char) : Char :=
  replaceChar ':' '#' (replaceChar separator '@' c)

/-- The name has one character for each of the path, but for a separator at its end. -/
theorem pathToName_eq (path : Text) :
    pathToName path =
      (withoutTrailing (guessedSeparator path) path).map (nameChar (guessedSeparator path)) := by
  have joined := stringJoin_stringSplit (guessedSeparator path) '@' path
  have sep_eq : (if '/' ∈ path then ['/'] else ['\\']) = [guessedSeparator path] := by
    rw [guessedSeparator]
    split <;> rfl
  rw [pathToName, sep_eq]
  simp only [joined, List.map_map]
  rfl

/-- Characters that become `@`. -/
def IsSlash (separator c : Char) : Prop := c = separator ∨ c = '@'

/-- Characters that become `#`. -/
def IsColon (c : Char) : Prop := c = ':' ∨ c = '#'

/-- Characters of two paths that the names do not tell apart. -/
def SameLetter (firstSeparator secondSeparator first second : Char) : Prop :=
  IsSlash firstSeparator first ∧ IsSlash secondSeparator second ∨
    IsColon first ∧ IsColon second ∨
    first = second ∧ ¬ IsSlash firstSeparator first ∧ ¬ IsSlash secondSeparator second

/-- Two paths that have the same letters, a separator at the end not counted. -/
def Confusable (first second : Text) : Prop :=
  List.Forall₂ (SameLetter (guessedSeparator first) (guessedSeparator second))
    (withoutTrailing (guessedSeparator first) first)
    (withoutTrailing (guessedSeparator second) second)

/-- Separators become `@`, colons `#`, and other characters stay as they are. -/
theorem nameChar_spec {separator : Char} (isSeparator : separator = '/' ∨ separator = '\\')
    (c : Char) : IsSlash separator c ∧ ¬ IsColon c ∧ nameChar separator c = '@' ∨
      IsColon c ∧ ¬ IsSlash separator c ∧ nameChar separator c = '#' ∨
      ¬ IsSlash separator c ∧ ¬ IsColon c ∧ nameChar separator c = c := by
  unfold IsSlash IsColon nameChar replaceChar
  rcases isSeparator with rfl | rfl <;> grind

/-- Two characters become the same exactly when they are the same letter. -/
theorem nameChar_eq_iff {firstSeparator secondSeparator : Char}
    (firstIs : firstSeparator = '/' ∨ firstSeparator = '\\')
    (secondIs : secondSeparator = '/' ∨ secondSeparator = '\\') (first second : Char) :
    nameChar firstSeparator first = nameChar secondSeparator second ↔
      SameLetter firstSeparator secondSeparator first second := by
  have notSlash : ∀ c : Char, ¬ IsSlash firstSeparator c → c ≠ '@' :=
    fun c other same => other (.inr same)
  have notSlashSecond : ∀ c : Char, ¬ IsSlash secondSeparator c → c ≠ '@' :=
    fun c other same => other (.inr same)
  have notColon : ∀ c : Char, ¬ IsColon c → c ≠ '#' := fun c other same => other (.inr same)
  unfold SameLetter
  rcases nameChar_spec firstIs first with ⟨firstSlash, firstNoColon, firstName⟩ |
    ⟨firstColon, firstNoSlash, firstName⟩ | ⟨firstNoSlash, firstNoColon, firstName⟩ <;>
  rcases nameChar_spec secondIs second with ⟨secondSlash, secondNoColon, secondName⟩ |
    ⟨secondColon, secondNoSlash, secondName⟩ | ⟨secondNoSlash, secondNoColon, secondName⟩ <;>
  rw [firstName, secondName] <;> grind

/-- Two paths get one name exactly when they are confusable. -/
theorem pathToName_eq_iff (first second : Text) :
    pathToName first = pathToName second ↔ Confusable first second := by
  have isSeparator (path : Text) :
      guessedSeparator path = '/' ∨ guessedSeparator path = '\\' := by
    rw [guessedSeparator]
    split
    · exact .inl rfl
    · exact .inr rfl
  rw [pathToName_eq, pathToName_eq, ← List.forall₂_eq_eq_eq, List.forall₂_map_left_iff,
    List.forall₂_map_right_iff, Confusable]
  simp only [nameChar_eq_iff (isSeparator first) (isSeparator second)]

/-- Distinct paths have distinct names exactly when they differ in a letter. -/
theorem pathToName_distinct_iff (first second : Text) :
    (first ≠ second → pathToName first ≠ pathToName second) ↔
      (first ≠ second → ¬ Confusable first second) := by
  rw [ne_eq (pathToName first), pathToName_eq_iff]

/-- A file in a directory and one with an at sign have the same name, and so have a colon and a
number sign, and a file with a backslash at its end and the file without it. -/
theorem pathToName_collisions :
    pathToName "a/b".toList = pathToName "a@b".toList ∧
      pathToName "a:b".toList = pathToName "a#b".toList ∧
      pathToName "a\\".toList = pathToName "a".toList := by
  decide

/-! ## Paths from names -/

/-- The path of a name. -/
def nameToPath (name : Text) : Text :=
  let sep : Text :=
    if '#' ∈ name ∨ (Search.find "@@".toList name).isSome then ['\\'] else ['/']
  let replaced := (name.map (replaceChar '@' '/')).map (replaceChar '#' ':')
  stringJoin (getlines '/' replaced) sep

/-- Reading up to a separator splits a text. -/
theorem stringSplit_eq_getlines (separator : Char) (text : Text) :
    stringSplit [separator] true text = getlines separator text := by
  have scan (segment : Text) (fresh : separator ∉ segment) :
      stringSplit.go [separator] true segment text = getlines separator (segment ++ text) := by
    induction text generalizing segment with
    | nil =>
        rw [stringSplit.go, getlines, List.append_nil, splitLines_last fresh]
        cases segment <;> simp
    | cons c rest inductionHypothesis =>
        by_cases isSeparator : c = separator
        · subst isSeparator
          rw [stringSplit.go, if_pos List.mem_cons_self, Bool.or_true, if_pos rfl,
            inductionHypothesis [] List.not_mem_nil, getlines, getlines, splitLines_line fresh,
            List.nil_append, List.cons_append]
        · rw [stringSplit.go, if_neg (by simpa using isSeparator),
            inductionHypothesis (segment ++ [c]) (by simp [fresh, Ne.symm isSeparator])]
          simp
  exact scan [] List.not_mem_nil

/-- A relative or absolute path that does not end with a slash. -/
structure PosixPath (path : Text) : Prop where
  nonempty : path ≠ []
  plain : '@' ∉ path ∧ '#' ∉ path ∧ ':' ∉ path
  single : ¬ "//".toList <:+: path
  file : path.getLast? ≠ some '/'
  guessed : '/' ∈ path ∨ '\\' ∉ path

/-- A path that begins with a drive or with two backslashes. -/
structure AbsoluteWindowsPath (path : Text) : Prop where
  rooted : (∃ drive rest, path = drive :: ':' :: rest) ∨ ∃ rest, path = '\\' :: '\\' :: rest
  plain : '/' ∉ path ∧ '@' ∉ path ∧ '#' ∉ path
  file : path.getLast? ≠ some '\\'

/-- The characters of a path in its name, and back, with slashes for the separators. -/
theorem restoreChar {separator c : Char} (isSeparator : separator = '/' ∨ separator = '\\')
    (noAt : c ≠ '@') (noHash : c ≠ '#') :
    replaceChar '#' ':' (replaceChar '@' '/' (nameChar separator c)) =
      replaceChar separator '/' c := by
  unfold nameChar replaceChar
  rcases isSeparator with rfl | rfl <;> grind

/-- A name is taken for one of a Windows path when the path has a colon or two separators next to
each other. -/
theorem windowsName_iff {separator : Char} (isSeparator : separator = '/' ∨ separator = '\\')
    {path : Text} (plain : '@' ∉ path ∧ '#' ∉ path) :
    ('#' ∈ path.map (nameChar separator) ∨
        (Search.find "@@".toList (path.map (nameChar separator))).isSome = true) ↔
      ':' ∈ path ∨ [separator, separator] <:+: path := by
  have isAt {c : Char} (member : c ∈ path) : nameChar separator c = '@' ↔ c = separator := by
    have other : c ≠ '@' := fun same => plain.1 (same ▸ member)
    unfold nameChar replaceChar
    rcases isSeparator with rfl | rfl <;> grind
  have isHash {c : Char} (member : c ∈ path) : nameChar separator c = '#' ↔ c = ':' := by
    have other : c ≠ '#' := fun same => plain.2 (same ▸ member)
    unfold nameChar replaceChar
    rcases isSeparator with rfl | rfl <;> grind
  have hash : '#' ∈ path.map (nameChar separator) ↔ ':' ∈ path := by
    rw [List.mem_map]
    exact ⟨fun ⟨c, member, same⟩ => (isHash member).mp same ▸ member,
      fun member => ⟨':', member, (isHash member).mpr rfl⟩⟩
  have pair : "@@".toList <:+: path.map (nameChar separator) ↔
      [separator, separator] <:+: path := by
    constructor
    · rintro ⟨before, after, whole⟩
      obtain ⟨front, back, rfl, frontName, rfl⟩ := List.map_eq_append_iff.mp whole.symm
      obtain ⟨start, middle, rfl, rfl, middleName⟩ := List.map_eq_append_iff.mp frontName
      obtain ⟨first, more, rfl, firstName, moreName⟩ := List.map_eq_cons_iff.mp middleName
      obtain ⟨second, none_, rfl, secondName, noneName⟩ := List.map_eq_cons_iff.mp moreName
      obtain rfl := List.map_eq_nil_iff.mp noneName
      obtain rfl := (isAt (by simp)).mp firstName
      obtain rfl := (isAt (by simp)).mp secondName
      exact ⟨start, back, rfl⟩
    · rintro ⟨before, after, rfl⟩
      have named : nameChar separator separator = '@' := (isAt (by simp)).mpr rfl
      exact ⟨before.map (nameChar separator), after.map (nameChar separator), by simp [named]⟩
  rw [hash, Option.isSome_iff_ne_none, ne_eq, Search.find_eq_none_iff, not_not, pair]

/-- A path is read back from its name when its separators are guessed right. -/
theorem nameToPath_map {separator : Char} (guess : Char)
    (isSeparator : separator = '/' ∨ separator = '\\') {path : Text}
    (plain : '@' ∉ path ∧ '#' ∉ path)
    (guessed : (if ':' ∈ path ∨ [separator, separator] <:+: path then '\\' else '/') = guess)
    (file : ∀ c ∈ path.getLast?, replaceChar separator '/' c ≠ '/')
    (back : ∀ c ∈ path, replaceChar '/' guess (replaceChar separator '/' c) = c) :
    nameToPath (path.map (nameChar separator)) = path := by
  have sep_eq : (if '#' ∈ path.map (nameChar separator) ∨
      (Search.find "@@".toList (path.map (nameChar separator))).isSome then ['\\'] else ['/']) =
        [guess] := by
    simp only [windowsName_iff isSeparator plain, ← guessed]
    split <;> rfl
  have replaced : ((path.map (nameChar separator)).map (replaceChar '@' '/')).map
      (replaceChar '#' ':') = path.map (replaceChar separator '/') := by
    rw [List.map_map, List.map_map]
    refine List.map_congr_left fun c member => restoreChar isSeparator ?_ ?_
    · exact fun same => plain.1 (same ▸ member)
    · exact fun same => plain.2 (same ▸ member)
  have whole : withoutTrailing '/' (path.map (replaceChar separator '/')) =
      path.map (replaceChar separator '/') := by
    refine if_neg fun last => ?_
    rw [List.getLast?_map, Option.map_eq_some_iff] at last
    obtain ⟨c, isLast, same⟩ := last
    exact file c isLast same
  rw [nameToPath, sep_eq]
  simp only [replaced]
  rw [← stringSplit_eq_getlines, stringJoin_stringSplit, whole, List.map_map]
  exact (List.map_congr_left back).trans (List.map_id path)

/-- The path of a POSIX name. -/
theorem nameToPath_posix {path : Text} (posix : PosixPath path) :
    nameToPath (pathToName path) = path := by
  have plain : '@' ∉ path ∧ '#' ∉ path := ⟨posix.plain.1, posix.plain.2.1⟩
  by_cases slash : '/' ∈ path
  · have sep_eq : guessedSeparator path = '/' := if_pos slash
    rw [pathToName_eq, sep_eq, withoutTrailing, if_neg posix.file]
    apply nameToPath_map '/' (.inl rfl) plain
    · exact if_neg fun windows => windows.elim posix.plain.2.2 posix.single
    · rintro c last
      have other : c ≠ '/' := fun same => posix.file (same ▸ last)
      simpa [replaceChar] using other
    · intro c _
      unfold replaceChar
      grind
  · -- without a slash the backslash is taken for the separator, and there is none
    have sep_eq : guessedSeparator path = '\\' := if_neg slash
    have noBackslash := posix.guessed.resolve_left slash
    have file : path.getLast? ≠ some '\\' := fun last => noBackslash (List.mem_of_getLast? last)
    rw [pathToName_eq, sep_eq, withoutTrailing, if_neg file]
    have noPair : ¬ ['\\', '\\'] <:+: path := fun pair => noBackslash (pair.subset (by simp))
    apply nameToPath_map '/' (.inr rfl) plain
    · exact if_neg fun windows => windows.elim posix.plain.2.2 noPair
    · rintro c last
      have member := List.mem_of_getLast? last
      have other : c ≠ '/' ∧ c ≠ '\\' :=
        ⟨fun same => slash (same ▸ member), fun same => noBackslash (same ▸ member)⟩
      simp [replaceChar, other]
    · intro c member
      have other : c ≠ '\\' := fun same => noBackslash (same ▸ member)
      unfold replaceChar
      grind

/-- The path of a Windows name. -/
theorem nameToPath_windows {path : Text} (windows : AbsoluteWindowsPath path) :
    nameToPath (pathToName path) = path := by
  have sep_eq : guessedSeparator path = '\\' := if_neg windows.plain.1
  rw [pathToName_eq, sep_eq, withoutTrailing, if_neg windows.file]
  apply nameToPath_map '\\' (.inr rfl) windows.plain.2
  · apply if_pos
    rcases windows.rooted with ⟨drive, rest, rfl⟩ | ⟨rest, rfl⟩
    · exact .inl (by simp)
    · exact .inr ⟨[], rest, rfl⟩
  · rintro c last
    have other : c ≠ '/' ∧ c ≠ '\\' :=
      ⟨fun same => windows.plain.1 (same ▸ List.mem_of_getLast? last),
        fun same => windows.file (same ▸ last)⟩
    simp [replaceChar, other]
  · intro c member
    have other : c ≠ '/' := fun same => windows.plain.1 (same ▸ member)
    unfold replaceChar
    grind

/-- A POSIX path or an absolute Windows path is read back from its name. -/
theorem nameToPath_pathToName {path : Text}
    (shape : PosixPath path ∨ AbsoluteWindowsPath path) :
    nameToPath (pathToName path) = path :=
  shape.elim nameToPath_posix nameToPath_windows

/-- A POSIX path, a path on a drive and a path on a server. -/
theorem nameToPath_pathToName_at :
    nameToPath (pathToName "/home/user/file.txt".toList) = "/home/user/file.txt".toList ∧
      nameToPath (pathToName "C:\\path\\file.txt".toList) = "C:\\path\\file.txt".toList ∧
      nameToPath (pathToName "\\\\server\\file.txt".toList) = "\\\\server\\file.txt".toList :=
  ⟨nameToPath_pathToName (.inl ⟨by decide, by decide, by decide, by decide, by decide⟩),
    nameToPath_pathToName (.inr ⟨.inl ⟨_, _, rfl⟩, by decide, by decide⟩),
    nameToPath_pathToName (.inr ⟨.inr ⟨_, rfl⟩, by decide, by decide⟩)⟩

end MergeBot
