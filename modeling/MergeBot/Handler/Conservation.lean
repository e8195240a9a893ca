import Mathlib.Data.List.Flatten
import Mathlib.Data.List.Nodup
import Mathlib.Data.List.Perm.Basic
import MergeBot.Handler.Resolution

/-!
# No conflict block is lost or resolved twice

`Accounts` is the invariant of a chain of handlers: for every file the indices
in its resolution file and those still in the list are together exactly the
indices it had at the start. `Accounts.step` is one handler, and
`chain_conserved` a chain of any handlers.
-/

namespace MergeBot

variable {codec : JsonCodec}

/-- The indices in a resolution file. -/
def listedIndices (dir : Directory codec) (dest : Text) : List Int :=
  match dir dest with
  | none => []
  | some content => (codec.parse content).resolutions.map BlockResolutionResult.index

/-- The indices of blocks as they are written to JSON. -/
def blockIndices (blocks : List ConflictBlock) : List Int :=
  blocks.map fun block => (block.index : Int)

@[simp]
theorem blockIndices_nil : blockIndices [] = [] := rfl

/-- The indices of the blocks that the list still has for a file name. -/
def remainingIndices (files : List ConflictFile) (filename : Text) : List Int :=
  (files.filter fun file => file.filename = filename).flatMap fun file =>
    blockIndices file.conflictBlocks

/-- Conflict files as they come from the scanner: their resolution files have
different names, and the blocks of each are numbered and unresolved. -/
structure FreshFiles (paths : ResolutionPaths) (files : List ConflictFile) : Prop where
  dests : (files.map fun file => paths.dest file.filename).Nodup
  indices : ∀ file ∈ files, (file.conflictBlocks.map ConflictBlock.index).Nodup
  unresolved : ∀ file ∈ files, ∀ block ∈ file.conflictBlocks, block.resolved = false

/-- Each block of the start is listed once or remains once, and not both. -/
def Conserved (paths : ResolutionPaths) (start files : List ConflictFile)
    (dir : Directory codec) : Prop :=
  ∀ file ∈ start, ∀ block ∈ file.conflictBlocks,
    ((listedIndices dir (paths.dest file.filename)).count (block.index : Int) = 1 ∧
        (remainingIndices files file.filename).count (block.index : Int) = 0) ∨
      ((listedIndices dir (paths.dest file.filename)).count (block.index : Int) = 0 ∧
        (remainingIndices files file.filename).count (block.index : Int) = 1)

/-- What holds between two handlers. -/
structure Accounts (paths : ResolutionPaths) (start files : List ConflictFile)
    (dir : Directory codec) : Prop where
  names : (files.map ConflictFile.filename).Sublist (start.map ConflictFile.filename)
  unresolved : ∀ file ∈ files, ∀ block ∈ file.conflictBlocks, block.resolved = false
  written : ∀ file ∈ start, ∀ content ∈ dir (paths.dest file.filename),
    ∃ result, content = codec.dump result
  indices : ∀ file ∈ start,
    (listedIndices dir (paths.dest file.filename) ++ remainingIndices files file.filename).Perm
      (blockIndices file.conflictBlocks)

/-- Storing results appends their indices to those of the file. -/
theorem listedIndices_marshal {dir : Directory codec} {dest fileName : Text}
    {results : List BlockResolutionResult}
    (written : ∀ content ∈ dir dest, ∃ result, content = codec.dump result) :
    listedIndices (marshalResolutionResult dir dest fileName results) dest =
      listedIndices dir dest ++ results.map BlockResolutionResult.index := by
  cases found : dir dest with
  | none => simp [listedIndices, marshalResolutionResult, found, codec.parse_dump]
  | some content =>
      obtain ⟨result, rfl⟩ := written content found
      simp [listedIndices, marshalResolutionResult, found, codec.accept_dump, codec.parse_dump]

/-- What is stored was dumped. -/
theorem written_marshal (dir : Directory codec) (dest fileName : Text)
    (results : List BlockResolutionResult) :
    ∀ content ∈ marshalResolutionResult dir dest fileName results dest,
      ∃ result, content = codec.dump result := by
  intro content stored
  simp only [marshalResolutionResult, if_true, Option.mem_def, Option.some.injEq] at stored
  split at stored
  · exact ⟨_, stored.symm⟩
  · split at stored <;> exact ⟨_, stored.symm⟩

/-- Storing results changes no other file. -/
theorem marshal_other (dir : Directory codec) {dest other : Text} (fileName : Text)
    (results : List BlockResolutionResult) (distinct : other ≠ dest) :
    marshalResolutionResult dir dest fileName results other = dir other := by
  simp [marshalResolutionResult, distinct]

/-- Tidying up drops exactly the resolved blocks. -/
theorem tidyUpConflictBlocks_eq (blocks : List ConflictBlock) :
    tidyUpConflictBlocks blocks = blocks.filter fun block => !block.resolved := by
  rw [tidyUpConflictBlocks]
  split
  · rfl
  · symm
    rw [List.filter_eq_self]
    simp_all

section Handler

variable (resolver : Resolver) (paths : ResolutionPaths)

/-- A file with its blocks marked and its flag set, as the loop leaves it. -/
def markFile (file : ConflictFile) : ConflictFile :=
  { file with
    conflictBlocks := markBlocks resolver file
    resolved := (markBlocks resolver file).all ConflictBlock.resolved }

/-- The blocks of a file that a handler leaves. -/
def leftBlocks (file : ConflictFile) : List ConflictBlock :=
  file.conflictBlocks.filter fun block => (resolver file block).isNone

variable {resolver paths}

/-- In a file of unresolved blocks exactly the chosen blocks end up resolved. -/
theorem markBlocks_unresolved {file : ConflictFile}
    (unresolved : ∀ block ∈ file.conflictBlocks, block.resolved = false) :
    (markBlocks resolver file).filter (fun block => !block.resolved) =
      leftBlocks resolver file := by
  have chosen : file.conflictBlocks.filter ((fun block => !block.resolved) ∘ fun block =>
      if (resolver file block).isSome then { block with resolved := true } else block) =
        leftBlocks resolver file := by
    refine List.filter_congr fun block member => ?_
    have start := unresolved block member
    cases found : resolver file block <;> simp [found, start]
  rw [markBlocks, List.filter_map, chosen]
  refine (List.map_congr_left fun block member => ?_).trans (List.map_id _)
  have isNone := (List.mem_filter.mp member).2
  cases found : resolver file block <;> simp_all

/-- A block of a handled file is resolved if the handler has a result for it. -/
theorem any_markBlocks {file : ConflictFile}
    (unresolved : ∀ block ∈ file.conflictBlocks, block.resolved = false) :
    (markBlocks resolver file).any ConflictBlock.resolved =
      file.conflictBlocks.any fun block => (resolver file block).isSome := by
  rw [markBlocks, List.any_map, Bool.eq_iff_iff, List.any_eq_true, List.any_eq_true]
  refine exists_congr fun block => and_congr_right fun member => ?_
  have start := unresolved block member
  cases found : resolver file block <;> simp [found, start]

/-- The results of a handler and the blocks it leaves are all the blocks of a file. -/
theorem resolvedBlocks_perm (file : ConflictFile) :
    ((resolvedBlocks resolver file).map BlockResolutionResult.index ++
      blockIndices (leftBlocks resolver file)).Perm (blockIndices file.conflictBlocks) := by
  rw [resolvedBlocks, leftBlocks, blockIndices, blockIndices]
  induction file.conflictBlocks with
  | nil => exact .refl _
  | cons block rest ih =>
      cases found : resolver file block with
      | none =>
          simp only [List.filterMap_cons, found, Option.map_none, List.filter_cons,
            Option.isNone_none, if_true, List.map_cons]
          exact List.perm_middle.trans (ih.cons _)
      | some result =>
          simp only [List.filterMap_cons, found, Option.map_some, List.filter_cons,
            Option.isNone_some, Bool.false_eq_true, if_false, List.map_cons, List.cons_append]
          exact ih.cons _

/-- The files after the loop. -/
theorem foldl_files (files : List ConflictFile) (state : HandlerState codec) :
    (files.foldl (resolveFile resolver paths) state).files =
      state.files ++ files.map (markFile resolver) := by
  induction files generalizing state with
  | nil => simp
  | cons file rest ih => simp [ih, resolveFile, markFile]

/-- The loop asks for tidying if a block of some file is resolved. -/
theorem foldl_needShrink (files : List ConflictFile) (state : HandlerState codec) :
    (files.foldl (resolveFile resolver paths) state).needShrink =
      (state.needShrink || files.any fun file =>
        (markBlocks resolver file).any ConflictBlock.resolved) := by
  induction files generalizing state with
  | nil => simp
  | cons file rest ih => simp [ih, resolveFile, Bool.or_assoc]

/-- The loop stores nothing under the name of a file it does not get. -/
theorem foldl_dir_other (files : List ConflictFile) (state : HandlerState codec) {dest : Text}
    (absent : ∀ file ∈ files, paths.dest file.filename ≠ dest) :
    (files.foldl (resolveFile resolver paths) state).dir dest = state.dir dest := by
  induction files generalizing state with
  | nil => rfl
  | cons file rest ih =>
      have distinct := absent file List.mem_cons_self
      rw [List.foldl_cons, ih _ fun other member => absent other (List.mem_cons_of_mem _ member)]
      simp only [resolveFile]
      split
      · exact marshal_other _ _ _ distinct.symm
      · rfl

/-- One turn appends the results of its file to the resolution file. -/
theorem resolveFile_dir (state : HandlerState codec) {file : ConflictFile}
    (unresolved : ∀ block ∈ file.conflictBlocks, block.resolved = false)
    (written : ∀ content ∈ state.dir (paths.dest file.filename),
      ∃ result, content = codec.dump result) :
    let dir := (resolveFile resolver paths state file).dir
    listedIndices dir (paths.dest file.filename) =
        listedIndices state.dir (paths.dest file.filename) ++
          (resolvedBlocks resolver file).map BlockResolutionResult.index ∧
      ∀ content ∈ dir (paths.dest file.filename), ∃ result, content = codec.dump result := by
  simp only [resolveFile]
  split
  · exact ⟨listedIndices_marshal written, written_marshal _ _ _ _⟩
  · rename_i nothing
    refine ⟨?_, written⟩
    have noResult : resolvedBlocks resolver file = [] := by
      rw [resolvedBlocks, List.filterMap_eq_nil_iff]
      intro block member
      rw [any_markBlocks unresolved, List.any_eq_true] at nothing
      have isNone : resolver file block = none := by
        cases found : resolver file block with
        | none => rfl
        | some result => exact absurd ⟨block, member, by simp [found]⟩ nothing
      simp [isNone]
    simp [noResult]

/-- The loop appends the results of a file to its resolution file. -/
theorem foldl_dir_own (resolver : Resolver) {files : List ConflictFile} (state : HandlerState codec)
    (distinct : (files.map fun file => paths.dest file.filename).Nodup) {file : ConflictFile}
    (member : file ∈ files)
    (unresolved : ∀ block ∈ file.conflictBlocks, block.resolved = false)
    (written : ∀ content ∈ state.dir (paths.dest file.filename),
      ∃ result, content = codec.dump result) :
    let dir := (files.foldl (resolveFile resolver paths) state).dir
    listedIndices dir (paths.dest file.filename) =
        listedIndices state.dir (paths.dest file.filename) ++
          (resolvedBlocks resolver file).map BlockResolutionResult.index ∧
      ∀ content ∈ dir (paths.dest file.filename), ∃ result, content = codec.dump result := by
  induction files generalizing state with
  | nil => simp at member
  | cons head rest ih =>
      rw [List.map_cons, List.nodup_cons] at distinct
      rcases List.mem_cons.mp member with rfl | inRest
      · have later : (rest.foldl (resolveFile resolver paths)
            (resolveFile resolver paths state file)).dir (paths.dest file.filename) = _ :=
          foldl_dir_other rest _ fun other otherMember same =>
            distinct.1 (List.mem_map.mpr ⟨other, otherMember, same⟩)
        simpa only [List.foldl_cons, listedIndices, later] using
          resolveFile_dir state unresolved written
      · have apart : paths.dest head.filename ≠ paths.dest file.filename := fun same =>
          distinct.1 (same ▸ List.mem_map_of_mem inRest)
        have kept : (resolveFile resolver paths state head).dir (paths.dest file.filename) =
            state.dir (paths.dest file.filename) :=
          foldl_dir_other [head] state (by simpa using apart)
        have later := ih (resolveFile resolver paths state head) distinct.2 inRest
          (by simpa only [kept] using written)
        simpa only [List.foldl_cons, listedIndices, kept] using later

/-- After tidying up, what remains are the unresolved blocks, provided that a
file with the flag has none. -/
theorem remainingIndices_tidy {files : List ConflictFile}
    (flagged : ∀ file ∈ files, file.resolved = file.conflictBlocks.all ConflictBlock.resolved)
    (filename : Text) :
    remainingIndices (tidyUpConflictFiles files) filename =
      (files.filter fun file => file.filename = filename).flatMap fun file =>
        blockIndices (file.conflictBlocks.filter fun block => !block.resolved) := by
  have dropped : ∀ file ∈ files, file.resolved = true →
      file.conflictBlocks.filter (fun block => !block.resolved) = [] := by
    intro file member isResolved
    rw [flagged file member, List.all_eq_true] at isResolved
    rw [List.filter_eq_nil_iff]
    intro block blockMember
    simp [isResolved block blockMember]
  rw [tidyUpConflictFiles]
  split
  · rename_i shrunk
    clear shrunk flagged
    simp only [remainingIndices, List.filter_map, List.flatMap_map, Function.comp_def,
      tidyUpConflictBlocks_eq, List.filter_filter]
    induction files with
    | nil => rfl
    | cons file rest ih =>
        have later := ih fun other member => dropped other (List.mem_cons_of_mem _ member)
        have head := dropped file List.mem_cons_self
        cases flag : file.resolved with
        | false =>
            by_cases same : file.filename = filename <;> simp [flag, same, later]
        | true =>
            by_cases same : file.filename = filename <;>
              simp [flag, same, later, head flag]
  · simp [remainingIndices, List.filter_map, List.flatMap_map, Function.comp_def,
      tidyUpConflictBlocks_eq]

/-- Of each file a handler leaves the blocks it does not resolve. -/
theorem remainingIndices_resolve {files : List ConflictFile} (dir : Directory codec)
    (unresolved : ∀ file ∈ files, ∀ block ∈ file.conflictBlocks, block.resolved = false)
    (filename : Text) :
    remainingIndices (resolveConflictFiles resolver paths files dir).1 filename =
      (files.filter fun file => file.filename = filename).flatMap fun file =>
        blockIndices (leftBlocks resolver file) := by
  have marked : ((files.map (markFile resolver)).filter fun file =>
      file.filename = filename).flatMap (fun file =>
        blockIndices (file.conflictBlocks.filter fun block => !block.resolved)) =
      (files.filter fun file => file.filename = filename).flatMap fun file =>
        blockIndices (leftBlocks resolver file) := by
    rw [List.filter_map, List.flatMap_map]
    refine List.flatMap_congr fun file member => ?_
    have isFile := (List.mem_filter.mp member).1
    exact congrArg _ (markBlocks_unresolved (unresolved file isFile))
  simp only [resolveConflictFiles, foldl_files, foldl_needShrink, List.nil_append,
    Bool.false_or]
  split
  · rw [remainingIndices_tidy (by simp [markFile]), marked]
  · rename_i nothing
    rw [← marked, remainingIndices]
    refine List.flatMap_congr fun file member => congrArg _ ?_
    obtain ⟨isFile, -⟩ := List.mem_filter.mp member
    obtain ⟨original, originalMember, rfl⟩ := List.mem_map.mp isFile
    symm
    rw [List.filter_eq_self]
    intro block blockMember
    by_contra isResolved
    refine nothing (List.any_eq_true.mpr ⟨original, originalMember, ?_⟩)
    exact List.any_eq_true.mpr ⟨block, blockMember, by simpa using isResolved⟩

end Handler

section Chain

variable {resolver : Resolver} {paths : ResolutionPaths} {start files : List ConflictFile}
  {dir : Directory codec}

/-- A handler leaves a part of the files, in order. -/
theorem resolve_names :
    ((resolveConflictFiles resolver paths files dir).1.map ConflictFile.filename).Sublist
      (files.map ConflictFile.filename) := by
  have names : (files.map (markFile resolver)).map ConflictFile.filename =
      files.map ConflictFile.filename := by simp [markFile]
  simp only [resolveConflictFiles, foldl_files, List.nil_append]
  rw [← names]
  split
  · rw [tidyUpConflictFiles]
    split
    · have kept : (((files.map (markFile resolver)).filter fun file => !file.resolved).map
          ConflictFile.filename).Sublist
            ((files.map (markFile resolver)).map ConflictFile.filename) :=
        List.filter_sublist.map _
      simpa only [List.map_map, Function.comp_def] using kept
    · simp [Function.comp_def]
  · exact .refl _

/-- A handler leaves no resolved block. -/
theorem resolve_unresolved :
    ∀ file ∈ (resolveConflictFiles resolver paths files dir).1,
      ∀ block ∈ file.conflictBlocks, block.resolved = false := by
  simp only [resolveConflictFiles, foldl_files, foldl_needShrink, List.nil_append, Bool.false_or]
  intro file member block blockMember
  split at member
  · have tidied : ∃ original, file.conflictBlocks = tidyUpConflictBlocks original := by
      rw [tidyUpConflictFiles] at member
      split at member
      · obtain ⟨original, -, rfl⟩ := List.mem_map.mp member
        exact ⟨_, rfl⟩
      · obtain ⟨original, -, rfl⟩ := List.mem_map.mp member
        exact ⟨_, rfl⟩
    obtain ⟨original, shape⟩ := tidied
    rw [shape, tidyUpConflictBlocks_eq] at blockMember
    simpa using (List.mem_filter.mp blockMember).2
  · rename_i nothing
    obtain ⟨original, originalMember, rfl⟩ := List.mem_map.mp member
    by_contra isResolved
    refine nothing (List.any_eq_true.mpr ⟨original, originalMember, ?_⟩)
    exact List.any_eq_true.mpr ⟨block, blockMember, by simpa using isResolved⟩

/-- A file of the list is the only one of its name. -/
theorem filter_filename {file : ConflictFile}
    (distinct : (files.map ConflictFile.filename).Nodup) (member : file ∈ files) :
    (files.filter fun other => other.filename = file.filename) = [file] := by
  induction files with
  | nil => simp at member
  | cons head rest ih =>
      rw [List.map_cons, List.nodup_cons] at distinct
      rcases List.mem_cons.mp member with rfl | inRest
      · have others : (rest.filter fun other => other.filename = file.filename) = [] := by
          rw [List.filter_eq_nil_iff]
          intro other otherMember
          simpa using fun same : other.filename = file.filename =>
            distinct.1 (same ▸ List.mem_map_of_mem otherMember)
        simp [others]
      · have apart : head.filename ≠ file.filename := fun same =>
          distinct.1 (same ▸ List.mem_map_of_mem inRest)
        simp [apart, ih distinct.2 inRest]

/-- One handler keeps the account. -/
theorem Accounts.step (resolver : Resolver) (fresh : FreshFiles paths start)
    (accounts : Accounts paths start files dir) :
    Accounts paths start (resolveConflictFiles resolver paths files dir).1
      (resolveConflictFiles resolver paths files dir).2 := by
  have destNames : (files.map ConflictFile.filename).map paths.dest |>.Sublist
      ((start.map ConflictFile.filename).map paths.dest) := accounts.names.map _
  have startDests : ((start.map ConflictFile.filename).map paths.dest).Nodup := by
    simpa [List.map_map, Function.comp_def] using fresh.dests
  have dests : (files.map fun file => paths.dest file.filename).Nodup := by
    simpa [List.map_map, Function.comp_def] using startDests.sublist destNames
  have names : (files.map ConflictFile.filename).Nodup :=
    (List.Nodup.of_map _ startDests).sublist accounts.names
  have perFile : ∀ file ∈ start,
      (listedIndices (resolveConflictFiles resolver paths files dir).2 (paths.dest file.filename) ++
          remainingIndices (resolveConflictFiles resolver paths files dir).1 file.filename).Perm
        (blockIndices file.conflictBlocks) ∧
      ∀ content ∈ (resolveConflictFiles resolver paths files dir).2 (paths.dest file.filename),
        ∃ result, content = codec.dump result := by
    intro file fileMember
    have before := accounts.indices file fileMember
    rw [remainingIndices_resolve dir accounts.unresolved]
    by_cases present : file.filename ∈ files.map ConflictFile.filename
    · obtain ⟨current, currentMember, sameName⟩ := List.mem_map.mp present
      have alone := filter_filename names currentMember
      have unresolved := accounts.unresolved current currentMember
      have stored := foldl_dir_own resolver ⟨[], dir, false⟩ dests currentMember
        unresolved (by rw [sameName]; exact accounts.written file fileMember)
      simp only [sameName] at stored
      rw [sameName] at alone
      simp only [remainingIndices, alone, List.flatMap_cons, List.flatMap_nil, List.append_nil]
        at before ⊢
      refine ⟨List.Perm.trans ?_ before, stored.2⟩
      rw [resolveConflictFiles, stored.1, List.append_assoc]
      exact (resolvedBlocks_perm current).append_left _
    · have noFile : (files.filter fun other => other.filename = file.filename) = [] := by
        rw [List.filter_eq_nil_iff]
        intro other otherMember
        simpa using fun same : other.filename = file.filename =>
          present (same ▸ List.mem_map_of_mem otherMember)
      have sameDir : (resolveConflictFiles resolver paths files dir).2
          (paths.dest file.filename) = dir (paths.dest file.filename) := by
        refine foldl_dir_other files ⟨[], dir, false⟩ fun other otherMember same => ?_
        have inStart : other.filename ∈ start.map ConflictFile.filename :=
          accounts.names.subset (List.mem_map_of_mem otherMember)
        have equal := List.inj_on_of_nodup_map startDests inStart
          (List.mem_map_of_mem fileMember) same
        exact present (equal ▸ List.mem_map_of_mem otherMember)
      simp only [remainingIndices, noFile, List.flatMap_nil, List.append_nil] at before ⊢
      refine ⟨?_, ?_⟩
      · simpa only [listedIndices, sameDir] using before
      · rw [sameDir]
        exact accounts.written file fileMember
  exact ⟨resolve_names.trans accounts.names, resolve_unresolved,
    fun file member => (perFile file member).2, fun file member => (perFile file member).1⟩

/-- Every handler of a chain keeps the account. -/
theorem Accounts.chain (fresh : FreshFiles paths start) (resolvers : List Resolver)
    (accounts : Accounts paths start files dir) :
    ∀ state ∈ chainStates paths resolvers files dir, Accounts paths start state.1 state.2 := by
  induction resolvers generalizing files dir with
  | nil => simp [chainStates]
  | cons resolver rest ih =>
      have next := accounts.step resolver fresh
      intro state member
      rcases List.mem_cons.mp member with rfl | later
      · exact next
      · split at later
        · simp at later
        · exact ih next state later

/-- With the indices of a file accounted for, each is in one place. -/
theorem Accounts.conserved (fresh : FreshFiles paths start)
    (accounts : Accounts paths start files dir) : Conserved paths start files dir := by
  intro file member block blockMember
  have distinct : (blockIndices file.conflictBlocks).Nodup := by
    have natural := fresh.indices file member
    simpa [blockIndices, List.map_map, Function.comp_def] using
      natural.map (f := Int.ofNat) fun _ _ same => Int.ofNat.inj same
  have inside : (block.index : Int) ∈ blockIndices file.conflictBlocks :=
    List.mem_map_of_mem blockMember
  have once := List.count_eq_one_of_mem distinct inside
  rw [← (accounts.indices file member).count_eq, List.count_append] at once
  omega

/-- Along every chain of handlers, whatever subsets of the blocks they resolve,
each block of the start is at all times either listed once in its resolution
file or waiting once in the list. -/
theorem chain_conserved (fresh : FreshFiles paths start) (resolvers : List Resolver) :
    ∀ state ∈ chainStates paths resolvers start (fun _ => none : Directory codec),
      Conserved paths start state.1 state.2 := by
  have initial : Accounts paths start start (fun _ => none : Directory codec) := by
    refine ⟨.refl _, fresh.unresolved, by simp, fun file member => ?_⟩
    have dests : ((start.map ConflictFile.filename).map paths.dest).Nodup := by
      simpa [List.map_map, Function.comp_def] using fresh.dests
    simp [listedIndices, remainingIndices, filter_filename (List.Nodup.of_map _ dests) member]
  exact fun state member => (initial.chain fresh resolvers state member).conserved fresh

end Chain

/-- Contents as the values they encode. -/
def plainCodec : JsonCodec where
  Content := FileResolutionResult
  dump := id
  accept _ := true
  parse := id
  accept_dump _ := rfl
  parse_dump _ := rfl

/-- Two files, one with two conflict blocks. -/
def twoFiles : List ConflictFile :=
  [⟨"src/a.cpp".toList, [⟨1, [], false⟩, ⟨2, [], false⟩], false⟩,
    ⟨"src/b.cpp".toList, [⟨1, [], false⟩], false⟩]

/-- A handler for the blocks numbered one, then one for all blocks. -/
def twoResolvers : List Resolver :=
  [fun _ block => if block.index = 1 then some {} else none, fun _ _ => some {}]

/-- After both handlers each block of the two files is in one place. -/
theorem twoFiles_conserved :
    ∃ final ∈ (chainStates ⟨id⟩ twoResolvers twoFiles
        (fun _ => none : Directory plainCodec)).getLast?,
      Conserved ⟨id⟩ twoFiles final.1 final.2 := by
  have conserved : ∀ state ∈ chainStates ⟨id⟩ twoResolvers twoFiles
      (fun _ => none : Directory plainCodec), Conserved ⟨id⟩ twoFiles state.1 state.2 :=
    chain_conserved ⟨by decide, by decide, by decide⟩ twoResolvers
  refine ⟨_, List.getLast?_eq_some_getLast ?_, conserved _ (List.getLast_mem _)⟩
  simp [twoResolvers, chainStates]

end MergeBot
