import Mathlib.Data.List.Destutter
import MergeBot.Conflict.Scanner
import MergeBot.Foundation.KeyedTable
import MergeBot.Foundation.Segments

/-!
# File records of a renamed or deleted directory

The manager keeps a record for every file of a repository that has conflicts, under its path.
Renaming a directory rewrites the records whose path starts with the directory's path, and
deleting it deletes them; neither looks for the separator, and the renaming replaces every
occurrence of the directory's path: `renamed_deleted_exactly_iff`.

`Platform` is what the code uses of `java.io.File`, `collation` says which paths are the same for
the database, and `fits` which rows it takes.
-/

namespace MergeBot.Manager

open Foundation

/-! ## Trimmed texts -/

/-- What `String.trim` takes away at both ends. -/
def isBlank (c : Char) : Bool := c ≤ ' '

/-- `String.trim`. -/
def trim (text : Text) : Text := (text.dropWhile isBlank).rdropWhile isBlank

/-- Neither end is blank. -/
structure Solid (text : Text) : Prop where
  head : ∀ c ∈ text.head?, isBlank c = false
  last : ∀ c ∈ text.getLast?, isBlank c = false

/-- A text that does not begin with a blank is trimmed at its end. -/
theorem trim_of_head {text : Text} (head : ∀ c ∈ text.head?, isBlank c = false) :
    trim text = text.rdropWhile isBlank := by
  cases text with
  | nil => rfl
  | cons c rest =>
      have solid : ¬ isBlank c = true := by simp [head c rfl]
      rw [trim, List.dropWhile_cons_of_neg solid]

/-- Trimming leaves solid ends. -/
theorem trim_solid (text : Text) : Solid (trim text) where
  head := by
    intro c first
    have inside : trim text <+: text.dropWhile isBlank := List.rdropWhile_prefix _ _
    obtain ⟨rest, split⟩ := inside
    have some_ : text.dropWhile isBlank ≠ [] := fun empty => by
      rw [empty, List.append_eq_nil_iff] at split
      simp [split.1] at first
    have start : (text.dropWhile isBlank).head? = some c := by
      rw [← split]
      cases begins : trim text with
      | nil => simp [begins] at first
      | cons d others => simpa [begins] using first
    have solid := List.head_dropWhile_not isBlank some_
    rw [List.head?_eq_some_head some_, Option.some.injEq] at start
    rwa [start] at solid
  last := by
    intro c ending
    have some_ : trim text ≠ [] := fun empty => by simp [empty] at ending
    have solid := List.rdropWhile_last_not isBlank (text.dropWhile isBlank) some_
    rw [List.getLast?_eq_some_getLast some_, Option.mem_def, Option.some.injEq] at ending
    rw [← ending]
    exact Bool.eq_false_iff.mpr solid

/-- Exactly texts with solid ends are trimmed. -/
theorem trim_eq_self_iff {text : Text} : trim text = text ↔ Solid text := by
  constructor
  · intro same
    exact same ▸ trim_solid text
  · intro solid
    rw [trim_of_head solid.head, List.rdropWhile_eq_self_iff]
    intro some_
    simp [solid.last _ (List.getLast?_eq_some_getLast some_)]

/-- Trimming twice is trimming once. -/
theorem trim_trim (text : Text) : trim (trim text) = trim text :=
  trim_eq_self_iff.mpr (trim_solid text)

/-! ## The table -/

/-- A record; the class trims every path that it is given. -/
structure FileInfoWithBlobs where
  filename : Option Text
  path : Text
  relPath : Option Text
  issolve : Option Int
  ours : Option Text
  theirs : Option Text
  base : Option Text
  repo : Option Text
  trimmed : trim path = path
deriving DecidableEq

namespace FileInfoWithBlobs

/-- Give the record another path. -/
def setPath (record : FileInfoWithBlobs) (path : Text) : FileInfoWithBlobs :=
  { record with path := trim path, trimmed := trim_trim path }

/-- Give the record another file name. -/
def setFilename (record : FileInfoWithBlobs) (filename : Text) : FileInfoWithBlobs :=
  { record with filename := some (trim filename) }

/-- Records with different paths differ. -/
theorem setPath_inj {record : FileInfoWithBlobs} {first second : Text} :
    record.setPath first = record.setPath second ↔ trim first = trim second := by
  simp [setPath]

/-- Giving a record its own path changes nothing. -/
theorem setPath_path (record : FileInfoWithBlobs) : record.setPath record.path = record := by
  simp [setPath, record.trimmed]

end FileInfoWithBlobs

/-- What the code uses of `java.io.File`. A path that does not begin with a blank has no parent
that does. -/
structure Platform where
  separator : Char
  getParent : Text → Option Text
  separator_solid : isBlank separator = false
  parent_solid : ∀ path parent, getParent path = some parent →
    (∀ c ∈ path.head?, isBlank c = false) → ∀ c ∈ parent.head?, isBlank c = false

/-- The path of a directory; there is no file with the empty path. -/
structure Directory where
  path : Text
  nonempty : path ≠ []

/-- What a path leads to. -/
inductive FileKind
  | file
  | directory
deriving DecidableEq, Repr

section Mapper

variable {κ : Type} [DecidableEq κ] (collation : Text → κ)

/-- The table `file`, whose primary key is the path. -/
abbrev FileTable : Type := KeyedTable fun row : FileInfoWithBlobs => collation row.path

/-- Whether a row is about a repository. -/
def ofRepo (repo : Text) (row : FileInfoWithBlobs) : Bool :=
  row.repo.any fun own => collation own = collation repo

variable {collation}

/-- The rows of a repository. -/
def getAllFiles (table : FileTable collation) (repo : Text) : List FileInfoWithBlobs :=
  table.rows.filter (ofRepo collation repo)

/-- The row of a path. -/
def selectByPrimaryKey (table : FileTable collation) (path : Text) : Option FileInfoWithBlobs :=
  table.rows.find? fun row => collation row.path = collation path

/-- Delete the row of a path. -/
def deleteByPrimaryKey (table : FileTable collation) (path : Text) : FileTable collation :=
  table.delete (collation path)

end Mapper

/-! ## Renaming and deleting -/

/-- The path with the separators of the platform. -/
def getSystemCompatiblePath (platform : Platform) (path : Text) : Text :=
  if platform.separator = '/' then path.map fun c => if c = '\\' then '/' else c
  else path.map fun c => if c = '/' then '\\' else c

/-- The path behind a renaming; Java writes a missing parent as `null`. -/
def newPathOf (platform : Platform) (filePath newFileName : Text) : Text :=
  (platform.getParent filePath).getD ['n', 'u', 'l', 'l'] ++ platform.separator :: newFileName

section Calls

variable {κ : Type} [DecidableEq κ] {collation : Text → κ} (platform : Platform)
  (fits : FileInfoWithBlobs → Bool)

/-- What a call leaves: the records it has read, the table, and whether it got through without
an exception. -/
structure Outcome (collation : Text → κ) where
  infos : List FileInfoWithBlobs
  table : FileTable collation
  completed : Bool

/-- The loop over the records of the repository when a directory has got a new path. -/
def renameRecords (filePath newPath : Text) : List FileInfoWithBlobs → FileTable collation →
    Outcome collation
  | [], table => { infos := [], table, completed := true }
  | fileInfo :: rest, table =>
      if filePath <+: fileInfo.path then
        let renamed := fileInfo.setPath (replaceAll filePath newPath fileInfo.path)
        match (deleteByPrimaryKey table fileInfo.path).insert fits renamed with
        | none =>
            { infos := renamed :: rest
              table := deleteByPrimaryKey table fileInfo.path
              completed := false }
        | some next =>
            let later := renameRecords filePath newPath rest next
            { later with infos := renamed :: later.infos }
      else
        let later := renameRecords filePath newPath rest table
        { later with infos := fileInfo :: later.infos }

/-- Rename a file or a directory. `kind` is what the path leads to, and `renamed` whether the
file system renames it. -/
def renameFileAndUpdateTree (kind : Option FileKind) (renamed : Bool)
    (filePath newFileName repoPath : Text) (table : FileTable collation) : Outcome collation :=
  let newPath := newPathOf platform filePath newFileName
  match kind with
  | none => { infos := [], table, completed := false }
  | some .file =>
      match selectByPrimaryKey table filePath, renamed with
      | some info, true =>
          let moved := (info.setPath newPath).setFilename newFileName
          match table.insert fits moved with
          | none => { infos := [moved], table, completed := false }
          | some next =>
              { infos := [moved], table := deleteByPrimaryKey next filePath, completed := true }
      | found, _ => { infos := found.toList, table, completed := true }
  | some .directory =>
      let infos := getAllFiles table (getSystemCompatiblePath platform repoPath)
      if renamed then renameRecords fits filePath newPath infos table
      else { infos, table, completed := true }

/-- Delete a file or a directory with its records. -/
def deleteFileAndUpdateTree (kind : Option FileKind) (filePath repoPath : Text)
    (table : FileTable collation) : FileTable collation :=
  match kind with
  | none => table
  | some .file =>
      if (selectByPrimaryKey table filePath).isSome then deleteByPrimaryKey table filePath
      else table
  | some .directory =>
      (getAllFiles table repoPath).foldl
        (fun table info =>
          if filePath <+: info.path then deleteByPrimaryKey table info.path else table) table

end Calls

/-! ## What should happen to the records -/

/-- The path is that of the directory followed by the separator and more. -/
def Inside (separator : Char) (directory path : Text) : Prop :=
  ∃ more, more ≠ [] ∧ path = directory ++ separator :: more

instance (separator : Char) (directory path : Text) :
    Decidable (Inside separator directory path) :=
  decidable_of_iff
    (directory ++ [separator] <+: path ∧ path ≠ directory ++ [separator]) <| by
      constructor
      · rintro ⟨⟨more, rfl⟩, longer⟩
        exact ⟨more, fun empty => longer (by simp [empty]), by simp⟩
      · rintro ⟨more, some_, rfl⟩
        exact ⟨⟨more, by simp⟩, by simpa using some_⟩

/-- The path of a record when the directory has got a new one. -/
def movedPath (separator : Char) (directory newPath path : Text) : Text :=
  if Inside separator directory path then newPath ++ path.drop directory.length else path

/-- The part of a path that is to stay: what stands behind the directory for a path inside, else
the whole path. -/
def stayingPart (separator : Char) (directory path : Text) : Text :=
  if Inside separator directory path then path.drop directory.length else path

section DirectoryRecords

variable {κ : Type} [DecidableEq κ] {collation : Text → κ} (platform : Platform)
  (fits : FileInfoWithBlobs → Bool) (directory : Directory)

/-- The record when the directory has got a new path. -/
def moved (newFileName : Text) (row : FileInfoWithBlobs) : FileInfoWithBlobs :=
  row.setPath (movedPath platform.separator directory.path
    (newPathOf platform directory.path newFileName) row.path)

/-- Renaming the directory changes the records inside, and only them: the records that have been
read and the table have the new paths. -/
structure RenamesExactly (newFileName repoPath : Text) (table : FileTable collation)
    (after : Outcome collation) : Prop where
  infos : after.infos = (getAllFiles table repoPath).map (moved platform directory newFileName)
  rows : after.table.rows.Perm (table.rows.map fun row =>
    if ofRepo collation repoPath row then moved platform directory newFileName row else row)

/-- Deleting the directory deletes the records inside, and only them. -/
def DeletesExactly (repoPath : Text) (table after : FileTable collation) : Prop :=
  after.rows.Perm (table.rows.filter fun row =>
    ¬ (ofRepo collation repoPath row = true ∧
      Inside platform.separator directory.path row.path))

/-- The records of the repository that the loops take to be inside. -/
def taken (collation : Text → κ) (repoPath : Text) (row : FileInfoWithBlobs) : Bool :=
  decide (directory.path <+: row.path) && ofRepo collation repoPath row

/-- The part of a path that is to stay is unharmed, and there is room for the moved records. -/
structure RenameSafe (newFileName repoPath : Text) (table : FileTable collation) : Prop where
  unharmed : ∀ row ∈ table.rows, ofRepo collation repoPath row = true →
    directory.path <+: row.path →
    Unharmed isBlank directory.path (newPathOf platform directory.path newFileName)
      (stayingPart platform.separator directory.path row.path)
  room : KeyedTable.Room (fun row : FileInfoWithBlobs => collation row.path) fits
    (moved platform directory newFileName)
    (table.rows.filter fun row => !taken directory collation repoPath row)
    (table.rows.filter (taken directory collation repoPath))

variable {platform fits directory} {newFileName repoPath : Text} {row : FileInfoWithBlobs}
  {table : FileTable collation}

/-! ## One record -/

/-- The path of a directory of some record does not begin with a blank. -/
theorem directory_solid (starts : directory.path <+: row.path) :
    ∀ c ∈ directory.path.head?, isBlank c = false := by
  intro c first
  obtain ⟨rest, split⟩ := starts
  apply (trim_eq_self_iff.mp row.trimmed).head c
  rw [← split, List.head?_append_of_ne_nil _ directory.nonempty]
  exact first

variable (platform newFileName) in
/-- The new path is not empty. -/
theorem newPathOf_ne_nil (filePath : Text) : newPathOf platform filePath newFileName ≠ [] := by
  simp [newPathOf]

variable (platform newFileName) in
/-- The new path does not begin with a blank. -/
theorem newPathOf_solid (starts : directory.path <+: row.path) :
    ∀ c ∈ (newPathOf platform directory.path newFileName).head?, isBlank c = false := by
  intro c first
  rw [newPathOf] at first
  cases parent : platform.getParent directory.path with
  | none =>
      rw [parent] at first
      obtain rfl : 'n' = c := by simpa using first
      rfl
  | some text =>
      rw [parent, Option.getD_some] at first
      cases text with
      | nil =>
          obtain rfl : platform.separator = c := by simpa using first
          exact platform.separator_solid
      | cons d rest =>
          apply platform.parent_solid directory.path _ parent (directory_solid starts) c
          simpa using first

/-- Blanks are dropped behind a part that is not blank. -/
theorem rdropWhile_append {front back : Text} (solid : ∃ c ∈ back, isBlank c = false) :
    (front ++ back).rdropWhile isBlank = front ++ back.rdropWhile isBlank := by
  obtain ⟨c, member, notBlank⟩ := solid
  have remains : (back.reverse.dropWhile isBlank).isEmpty = false := by
    rw [List.isEmpty_eq_false_iff]
    intro empty
    have allBlank := List.dropWhile_eq_nil_iff.mp empty c (List.mem_reverse.mpr member)
    rw [notBlank] at allBlank
    exact Bool.noConfusion allBlank
  rw [List.rdropWhile, List.reverse_append, List.dropWhile_append, remains]
  simp [List.rdropWhile]

variable (platform newFileName) in
/-- A path with its occurrences of the directory replaced is not all blank. -/
theorem exists_solid (more : Text) :
    ∃ c ∈ replaceAll directory.path (newPathOf platform directory.path newFileName)
      (platform.separator :: more), isBlank c = false := by
  refine ⟨platform.separator, ?_, platform.separator_solid⟩
  by_cases occurs : directory.path <:+: platform.separator :: more
  · obtain ⟨front, back, -, replaced, -⟩ := exists_first
      (newPathOf platform directory.path newFileName) directory.nonempty occurs
    rw [replaced]
    simp [newPathOf]
  · simp [replaceAll_of_absent occurs]

variable (platform newFileName) in
/-- The path that a record should have is trimmed. -/
theorem trim_movedPath (starts : directory.path <+: row.path) :
    trim (movedPath platform.separator directory.path
        (newPathOf platform directory.path newFileName) row.path) =
      movedPath platform.separator directory.path
        (newPathOf platform directory.path newFileName) row.path := by
  apply trim_eq_self_iff.mpr
  have solid := trim_eq_self_iff.mp row.trimmed
  rw [movedPath]
  split
  · rename_i inside
    obtain ⟨more, some_, split⟩ := inside
    refine ⟨fun c first => newPathOf_solid platform newFileName starts c ?_,
      fun c ending => solid.last c ?_⟩
    · rwa [List.head?_append_of_ne_nil _ (newPathOf_ne_nil platform newFileName _)] at first
    · rw [split, List.drop_left, List.getLast?_append_of_ne_nil _ (List.cons_ne_nil _ _)] at ending
      rwa [split, List.getLast?_append_of_ne_nil _ (List.cons_ne_nil _ _)]
  · exact solid

/-- Replacing every occurrence gives the record the path that it should have exactly when the
part that is to stay is unharmed. -/
theorem setPath_eq_moved_iff (starts : directory.path <+: row.path) :
    row.setPath (replaceAll directory.path (newPathOf platform directory.path newFileName)
        row.path) = moved platform directory newFileName row ↔
      Unharmed isBlank directory.path (newPathOf platform directory.path newFileName)
        (stayingPart platform.separator directory.path row.path) := by
  have head := directory_solid starts
  have solid := trim_eq_self_iff.mp row.trimmed
  have target := trim_movedPath platform newFileName starts
  have newHead := newPathOf_solid platform newFileName starts
  rw [moved, FileInfoWithBlobs.setPath_inj, target, movedPath, stayingPart]
  generalize newPath_eq : newPathOf platform directory.path newFileName = newPath at *
  have replaced (rest : Text) := (replaceAll_append newPath directory.nonempty rest).1
  have newSome : newPath ≠ [] := newPath_eq ▸ newPathOf_ne_nil platform newFileName _
  have headSolid : ∀ c ∈ (replaceAll directory.path newPath row.path).head?,
      isBlank c = false := by
    obtain ⟨rest, split⟩ := starts
    rw [← split, replaced, List.head?_append_of_ne_nil _ newSome]
    exact newHead
  rw [trim_of_head headSolid]
  by_cases inside : Inside platform.separator directory.path row.path
  · rw [if_pos inside, if_pos inside]
    obtain ⟨more, -, split⟩ := inside
    have last := solid.last
    rw [split, List.getLast?_append_of_ne_nil _ (List.cons_ne_nil _ _)] at last
    rw [split, List.drop_left, replaced, ← newPath_eq,
      rdropWhile_append (exists_solid platform newFileName more),
      List.append_cancel_left_eq]
    exact rdropWhile_replaceAll_iff directory.nonempty head last
  · rw [if_neg inside, if_neg inside]
    exact rdropWhile_replaceAll_iff directory.nonempty head solid.last

/-- A path inside the directory starts with its path. -/
theorem Inside.starts {separator : Char} {parent path : Text}
    (inside : Inside separator parent path) : parent <+: path := by
  obtain ⟨more, -, rfl⟩ := inside
  exact List.prefix_append _ _

/-- The path of a record outside the directory stays. -/
theorem moved_of_not_inside (outside : ¬ Inside platform.separator directory.path row.path) :
    moved platform directory newFileName row = row := by
  rw [moved, movedPath, if_neg outside, row.setPath_path]

/-- A moved record has exactly the path that it should have. -/
theorem moved_path (row : FileInfoWithBlobs) :
    (moved platform directory newFileName row).path =
      movedPath platform.separator directory.path
        (newPathOf platform directory.path newFileName) row.path := by
  by_cases inside : Inside platform.separator directory.path row.path
  · exact trim_movedPath platform newFileName inside.starts
  · rw [moved_of_not_inside inside, movedPath, if_neg inside]

/-! ## All records -/

/-- What the renaming makes of a record that it takes to be inside. -/
def changed (filePath newPath : Text) (row : FileInfoWithBlobs) : FileInfoWithBlobs :=
  row.setPath (replaceAll filePath newPath row.path)

/-- The loop rewrites the records whose path starts with the directory's. -/
theorem renameRecords_spec (fits : FileInfoWithBlobs → Bool) (filePath newPath : Text)
    (infos : List FileInfoWithBlobs) (table : FileTable collation) :
    (renameRecords fits filePath newPath infos table).table =
        (table.rewriteEach fits (changed filePath newPath)
          (infos.filter fun info => filePath <+: info.path)).1 ∧
      (renameRecords fits filePath newPath infos table).completed =
        (table.rewriteEach fits (changed filePath newPath)
          (infos.filter fun info => filePath <+: info.path)).2 ∧
      ((renameRecords fits filePath newPath infos table).completed = true →
        (renameRecords fits filePath newPath infos table).infos =
          infos.map fun info =>
            if filePath <+: info.path then changed filePath newPath info else info) := by
  induction infos generalizing table with
  | nil => exact ⟨rfl, rfl, fun _ => rfl⟩
  | cons info rest inductionHypothesis =>
      by_cases starts : filePath <+: info.path
      · rw [List.filter_cons_of_pos (by simpa using starts), List.map_cons, if_pos starts]
        cases inserted : (table.delete (collation info.path)).insert fits
            (changed filePath newPath info) with
        | none =>
            have step : (deleteByPrimaryKey table info.path).insert fits
                (info.setPath (replaceAll filePath newPath info.path)) = none := inserted
            simp only [renameRecords, if_pos starts, step, KeyedTable.rewriteEach, inserted]
            exact ⟨rfl, trivial, fun completed => absurd completed Bool.false_ne_true⟩
        | some next =>
            have step : (deleteByPrimaryKey table info.path).insert fits
                (info.setPath (replaceAll filePath newPath info.path)) = some next := inserted
            obtain ⟨table_eq, completed_eq, infos_eq⟩ := inductionHypothesis next
            simp only [renameRecords, if_pos starts, step, KeyedTable.rewriteEach, inserted]
            exact ⟨table_eq, completed_eq, fun completed => congrArg _ (infos_eq completed)⟩
      · obtain ⟨table_eq, completed_eq, infos_eq⟩ := inductionHypothesis table
        rw [List.filter_cons_of_neg (by simpa using starts), List.map_cons, if_neg starts,
          renameRecords, if_neg starts]
        exact ⟨table_eq, completed_eq, fun completed => congrArg _ (infos_eq completed)⟩

variable (directory) in
/-- The rows are those that the loop takes and the others. -/
theorem rows_split (repoPath : Text) (table : FileTable collation) :
    table.rows.Perm (table.rows.filter (fun row => !taken directory collation repoPath row) ++
      table.rows.filter (taken directory collation repoPath)) :=
  ((List.filter_append_perm _ _).symm.trans List.perm_append_comm)

/-- A record that the loop takes is one of the repository. -/
theorem mem_taken {repo : Text} :
    row ∈ table.rows.filter (taken directory collation repo) ↔
      row ∈ table.rows ∧ directory.path <+: row.path ∧ ofRepo collation repo row = true := by
  simp [taken]

/-- Every record that is taken is changed as it should be, exactly when the part that is to stay
is unharmed. -/
theorem changed_eq_moved_iff {repo : Text} :
    (∀ row ∈ table.rows.filter (taken directory collation repo),
        changed directory.path (newPathOf platform directory.path newFileName) row =
          moved platform directory newFileName row) ↔
      ∀ row ∈ table.rows, ofRepo collation repo row = true → directory.path <+: row.path →
        Unharmed isBlank directory.path (newPathOf platform directory.path newFileName)
          (stayingPart platform.separator directory.path row.path) := by
  constructor
  · intro same row member own starts
    exact (setPath_eq_moved_iff starts).mp (same row (mem_taken.mpr ⟨member, starts, own⟩))
  · intro unharmed row found
    obtain ⟨member, starts, own⟩ := mem_taken.mp found
    exact (setPath_eq_moved_iff starts).mpr (unharmed row member own starts)

/-- With the moved rows in place of those that the loop takes, every row is as it should be. -/
theorem expected_perm (repo : Text) :
    (table.rows.filter (fun row => !taken directory collation repo row) ++
        (table.rows.filter (taken directory collation repo)).map
          (moved platform directory newFileName)).Perm
      (table.rows.map fun row =>
        if ofRepo collation repo row then moved platform directory newFileName row else row) := by
  refine List.Perm.trans (List.Perm.of_eq ?_) ((rows_split directory repo table).map _).symm
  rw [List.map_append]
  congr 1
  · refine (List.map_id'' (fun row => rfl) _).symm.trans (List.map_congr_left fun row found => ?_)
    obtain ⟨member, left⟩ := List.mem_filter.mp found
    split
    · rename_i own
      refine (moved_of_not_inside fun inside => ?_).symm
      simp [taken, own, inside.starts] at left
    · rfl
  · refine List.map_congr_left fun row found => ?_
    rw [if_pos (mem_taken.mp found).2.2]

/-- Renaming a directory changes exactly the records inside it when the part that is to stay is
unharmed and there is room for the moved records. -/
theorem renamesExactly_iff :
    RenamesExactly platform directory newFileName (getSystemCompatiblePath platform repoPath)
        table (renameFileAndUpdateTree platform fits (some .directory) true directory.path
          newFileName repoPath table) ↔
      RenameSafe platform fits directory newFileName (getSystemCompatiblePath platform repoPath)
        table := by
  rw [renameFileAndUpdateTree]
  generalize getSystemCompatiblePath platform repoPath = repo
  simp only [if_true]
  obtain ⟨table_eq, completed_eq, infos_eq⟩ := renameRecords_spec fits directory.path
    (newPathOf platform directory.path newFileName) (getAllFiles table repo) table
  have items : (getAllFiles table repo).filter (fun info => directory.path <+: info.path) =
      table.rows.filter (taken directory collation repo) := List.filter_filter
  rw [items] at table_eq completed_eq
  obtain ⟨through_iff, through, lost⟩ := KeyedTable.rewriteEach_spec fits
    (changed directory.path (newPathOf platform directory.path newFileName))
    (rows_split directory repo table)
  rw [← table_eq, ← completed_eq] at through lost
  rw [← completed_eq] at through_iff
  generalize renameRecords fits directory.path (newPathOf platform directory.path newFileName)
    (getAllFiles table repo) table = after at *
  constructor
  · rintro ⟨infos, rows⟩
    have completed : after.completed = true := by
      by_contra failed
      have shorter := lost (Bool.eq_false_iff.mpr failed)
      rw [rows.length_eq, List.length_map] at shorter
      exact Nat.lt_irrefl _ shorter
    rw [infos_eq completed, List.map_inj_left] at infos
    have same : ∀ row ∈ table.rows.filter (taken directory collation repo),
        changed directory.path (newPathOf platform directory.path newFileName) row =
          moved platform directory newFileName row := by
      intro row found
      obtain ⟨member, starts, own⟩ := mem_taken.mp found
      have changed_eq := infos row (List.mem_filter.mpr ⟨member, own⟩)
      rwa [if_pos starts] at changed_eq
    exact ⟨changed_eq_moved_iff.mp same, (KeyedTable.room_congr same).mp (through_iff.mp completed)⟩
  · rintro ⟨unharmed, room⟩
    have same := changed_eq_moved_iff.mpr unharmed
    have completed := through_iff.mpr ((KeyedTable.room_congr same).mpr room)
    refine ⟨?_, (through completed).trans ?_⟩
    · rw [infos_eq completed, List.map_inj_left]
      intro row member
      obtain ⟨member, own⟩ := List.mem_filter.mp member
      split
      · rename_i starts
        exact same row (mem_taken.mpr ⟨member, starts, own⟩)
      · rename_i apart
        exact (moved_of_not_inside fun inside => apart inside.starts).symm
    · rw [List.map_congr_left same]
      exact expected_perm repo

/-- Deleting a directory deletes exactly the records inside it when every record that starts with
its path is inside. -/
theorem deletesExactly_iff :
    DeletesExactly platform directory repoPath table
        (deleteFileAndUpdateTree (some .directory) directory.path repoPath table) ↔
      ∀ row ∈ table.rows, ofRepo collation repoPath row = true → directory.path <+: row.path →
        Inside platform.separator directory.path row.path := by
  have rows_eq : (deleteFileAndUpdateTree (some .directory) directory.path repoPath table).rows =
      table.rows.filter fun row => !taken directory collation repoPath row := by
    have deleted := KeyedTable.foldl_delete_own (fun row => decide (directory.path <+: row.path))
      (ofRepo collation repoPath) table
    simp only [decide_eq_true_eq] at deleted
    exact deleted
  rw [DeletesExactly, rows_eq]
  constructor
  · intro same row member own starts
    by_contra outside
    have kept := same.mem_iff.mpr
      (List.mem_filter.mpr ⟨member, decide_eq_true fun both => outside both.2⟩)
    simp [taken, own, starts] at kept
  · intro inside
    refine List.Perm.of_eq (List.filter_congr fun row member => ?_)
    rw [Bool.eq_iff_iff, decide_eq_true_iff, Bool.not_eq_true', ← Bool.not_eq_true, taken,
      Bool.and_eq_true, decide_eq_true_iff]
    exact not_congr ⟨fun both => ⟨both.2, inside row member both.2 both.1⟩,
      fun both => ⟨both.2.starts, both.1⟩⟩

/-- Renaming a directory changes exactly the records inside it, and only at their beginning, when
the part of each path that is to stay is unharmed and there is room for the moved records. Deleting
a directory deletes exactly the records inside it when no other record of the repository starts
with its path. -/
theorem renamed_deleted_exactly_iff (platform : Platform) (fits : FileInfoWithBlobs → Bool)
    (directory : Directory) (newFileName repoPath : Text) (table : FileTable collation) :
    (∀ row, (moved platform directory newFileName row).path =
        movedPath platform.separator directory.path
          (newPathOf platform directory.path newFileName) row.path) ∧
      (RenamesExactly platform directory newFileName (getSystemCompatiblePath platform repoPath)
          table (renameFileAndUpdateTree platform fits (some .directory) true directory.path
            newFileName repoPath table) ↔
        RenameSafe platform fits directory newFileName
          (getSystemCompatiblePath platform repoPath) table) ∧
      (DeletesExactly platform directory repoPath table
          (deleteFileAndUpdateTree (some .directory) directory.path repoPath table) ↔
        ∀ row ∈ table.rows, ofRepo collation repoPath row = true → directory.path <+: row.path →
          Inside platform.separator directory.path row.path) :=
  ⟨moved_path, renamesExactly_iff, deletesExactly_iff⟩

end DirectoryRecords


/-! ## A sibling whose name begins alike -/

/-- A path without repeated separators and without one at its end. -/
def unixNormalize (path : Text) : Text :=
  let single := path.destutter fun first second => ¬ (first = '/' ∧ second = '/')
  if single = ['/'] ∨ single.getLast? ≠ some '/' then single else single.dropLast

/-- The parent in a file system with a single root. -/
def unixParent (path : Text) : Option Text :=
  let normal := unixNormalize path
  let upTo := normal.rdropWhile (· ≠ '/')
  if upTo = [] then none
  else if upTo ≠ ['/'] then some upTo.dropLast
  else if normal = ['/'] then none
  else some ['/']

/-- A beginning of a text begins as the text does. -/
theorem head_of_begins {front text : Text} (inside : front <+: text) {c : Char}
    (first : c ∈ front.head?) : c ∈ text.head? := by
  obtain ⟨rest, rfl⟩ := inside
  cases front with
  | nil => simp at first
  | cons d others => simpa using first

/-- Removing repeated separators leaves the first character. -/
theorem head_destutter {R : Char → Char → Prop} [DecidableRel R] (first : Char) (rest : Text) :
    (rest.destutter' R first).head? = some first := by
  induction rest with
  | nil => rfl
  | cons c rest inductionHypothesis =>
      rw [List.destutter'_cons]
      split
      · rfl
      · exact inductionHypothesis

/-- A normalized path begins as the path does. -/
theorem head_unixNormalize {path : Text} {c : Char} (first : c ∈ (unixNormalize path).head?) :
    c ∈ path.head? := by
  have single : c ∈ (path.destutter fun first second => ¬ (first = '/' ∧ second = '/')).head? := by
    rw [unixNormalize] at first
    split at first
    · exact first
    · exact head_of_begins (List.dropLast_prefix _) first
  cases path with
  | nil => simp at single
  | cons d rest => rwa [List.destutter_cons', head_destutter] at single

/-- The parent begins as the path does. -/
theorem head_unixParent {path parent : Text} (isParent : unixParent path = some parent) {c : Char}
    (first : c ∈ parent.head?) : c ∈ path.head? := by
  refine head_unixNormalize (head_of_begins ?_ first)
  have upTo : (unixNormalize path).rdropWhile (· ≠ '/') <+: unixNormalize path :=
    List.rdropWhile_prefix _ _
  simp only [unixParent] at isParent
  split at isParent
  · exact absurd isParent (Option.some_ne_none _).symm
  · split at isParent
    · rw [← Option.some.inj isParent]
      exact (List.dropLast_prefix _).trans upTo
    · rename_i isRoot
      rw [not_not] at isRoot
      split at isParent
      · exact absurd isParent (Option.some_ne_none _).symm
      · rw [← Option.some.inj isParent, ← isRoot]
        exact upTo

/-- `java.io.File` with the separator `/`. -/
def unix : Platform where
  separator := '/'
  getParent := unixParent
  separator_solid := by decide
  parent_solid := fun _ _ isParent solid c first => solid c (head_unixParent isParent first)

/-- A record of a repository. -/
def recordOf (repo path : Text) : FileInfoWithBlobs :=
  FileInfoWithBlobs.setPath
    { filename := none, path := [], relPath := none, issolve := some 1, ours := none
      theirs := none, base := none, repo := some repo, trimmed := rfl } path

/-- The table of a repository `/r` with the single file `/r/ab`. -/
def siblingTable : FileTable (fun path : Text => path) where
  rows := [recordOf ['/', 'r'] ['/', 'r', '/', 'a', 'b']]
  distinct := List.nodup_singleton _

/-- The directory `/r/a`. -/
def siblingDirectory : Directory where
  path := ['/', 'r', '/', 'a']
  nonempty := by decide

/-- Renaming the directory `/r/a` to `c` renames the record of `/r/ab`, and deleting it deletes the
record. The path column takes 200 characters. -/
theorem sibling_renamed_and_deleted :
    ¬ (RenamesExactly unix siblingDirectory ['c'] ['/', 'r'] siblingTable
        (renameFileAndUpdateTree unix (fun row => row.path.length ≤ 200) (some .directory) true
          siblingDirectory.path ['c'] ['/', 'r'] siblingTable)) ∧
      ¬ DeletesExactly unix siblingDirectory ['/', 'r'] siblingTable
        (deleteFileAndUpdateTree (some .directory) siblingDirectory.path ['/', 'r']
          siblingTable) := by
  constructor
  · intro exact_
    exact absurd exact_.infos (by decide)
  · unfold DeletesExactly
    decide

end MergeBot.Manager
