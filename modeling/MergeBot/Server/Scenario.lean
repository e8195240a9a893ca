import MergeBot.Server.Manifest

/-!
# Starting the resolution of a merge scenario

`goResolve` sets the running sign, collects the conflict files and starts the
resolution; when it fails, it is to remove the sign. `unlocksOnFailure_iff` says
exactly when no exception leaves the sign behind.
-/

namespace MergeBot

variable {codec : ProjectsCodec} (layout : CacheLayout)

/-- The errors of `ExecCommand` that are told apart, and the value of any other. -/
inductive ExecError
  | timedOut
  | interrupted
  | ioError
  | other (value : Int)
deriving DecidableEq, Repr

/-- The exception for a failed command. -/
def handleServerExecError (err : ExecError) (cmd : Text) : ServerException :=
  .app "S1000".toList <| match err with
    | .timedOut => "timeout to executing ".toList ++ cmd
    | .interrupted => "cmd [".toList ++ cmd ++ "] accidentally interrupted".toList
    | .ioError => "open popen or waitpid failed for cmd [".toList ++ cmd ++ "]".toList
    | .other value => "cmd [".toList ++ cmd ++ "] accidentally exited with exit code ".toList ++
        (toString value).toList

/-- A request to resolve a merge scenario, with the conflict files it names, if any. -/
structure ResolveRequest where
  project : Text
  path : Text
  ms : MergeScenario
  conflicts : List Text
deriving DecidableEq, Repr

namespace ResolveRequest

variable (request : ResolveRequest)

def checkSum : Text := layout.calcProjChecksum request.project request.path

/-- The directory of the request's merge scenario. -/
def msCacheDir : Text := layout.msCacheDir (request.checkSum layout) request.ms.name

end ResolveRequest

/-- The directory from which the resolution manager removes the sign. It adds a
separator to the project's path, and drops one for the checksum. -/
def ResolveRequest.mergeScenarioPath (request : ResolveRequest) : Text :=
  let projectPath :=
    if !request.path.isEmpty && request.path.getLast? ≠ some '/' then request.path ++ ['/']
    else request.path
  let path := if projectPath.getLast? = some '/' then projectPath.dropLast else projectPath
  layout.msCacheDir (layout.sha1 (request.project ++ '-' :: path)) request.ms.name

/-- What the steps of `goResolve` meet. -/
structure StartAnswers where
  /-- The output of the command that lists the conflict files. -/
  exec : Except ExecError Text
  /-- `fs::create_directories` does not throw for the list of conflict files;
  whether the list is written then does not matter. -/
  creatable : Bool := true
  /-- `doResolution` does not throw. -/
  started : Bool := true

/-- The endings of C and C++ files. -/
def cppExtensions : List Text :=
  [".h".toList, ".hpp".toList, ".c".toList, ".cc".toList, ".cp".toList, ".C".toList,
    ".cxx".toList, ".cpp".toList, ".c++".toList]

/-- The part of the name from the last dot on is one of these endings. -/
def isCppSource (fileName : Text) : Bool :=
  match fileName.reverse.findIdx? (· = '.') with
  | none => false
  | some fromEnd => fileName.drop (fileName.length - 1 - fromEnd) ∈ cppExtensions

/-- The command that lists the conflict files. -/
def diffCommand (path : Text) : Text :=
  "(cd ".toList ++ path ++ " && git diff --name-only --diff-filter=U)".toList

/-- The conflict files that the request names, or that the command lists. -/
def collectConflicts (answers : StartAnswers) (request : ResolveRequest) :
    Except ServerException (List Text) :=
  if request.conflicts.length ≠ 0 then .ok request.conflicts
  else
    match answers.exec with
    | .error err => .error (handleServerExecError err (diffCommand request.path))
    | .ok result => .ok (stringSplit ['\n'] false result)

def noConflictsException (request : ResolveRequest) : ServerException :=
  .app "U1000".toList ("The project [".toList ++ request.project ++ "] at [".toList ++
    request.path ++ "] contains no conflicting C/C++ files, ".toList ++
    "mergebot is temporarily unable to process this project.".toList)

def noSourcesException (request : ResolveRequest) (count : Nat) : ServerException :=
  .app "U1000".toList ("The current project [".toList ++ request.project ++ "] has ".toList ++
    (toString count).toList ++ " conflicting files, but since none ".toList ++
    "of them are C/C++ source files, mergebot is unable to process".toList)

/-- What `goResolve` does behind the running sign: collect the conflict files and
start the resolution with the C and C++ sources among them. -/
def startResolution (answers : StartAnswers) (request : ResolveRequest) (disk : Disk codec) :
    Disk codec × Except ServerException (List Text) :=
  match collectConflicts answers request with
  | .error thrown => (disk, .error thrown)
  | .ok fileNames =>
      let cppSources := fileNames.filter isCppSource
      if fileNames.length = 0 then
        (disk.removeRunningSign (request.msCacheDir layout), .error (noConflictsException request))
      else if cppSources.length = 0 then
        (disk.removeRunningSign (request.msCacheDir layout),
          .error (noSourcesException request fileNames.length))
      else if !answers.creatable then (disk, .error .filesystem)
      else if !answers.started then
        -- rethrowing by value leaves a plain exception
        (disk.removeRunningSign (request.mergeScenarioPath layout), .error .std)
      else (disk, .ok cppSources)

/-- Set the running sign and start the resolution. -/
def goResolve (answers : StartAnswers) (request : ResolveRequest) (disk : Disk codec) :
    Disk codec × Except ServerException (List Text) :=
  startResolution layout answers request
    (disk.setRunningSign (layout.projectCacheDir (request.checkSum layout)) request.ms.name)

/-- After an exception the running sign is gone, so that a later request for the
scenario is not refused as running. -/
def UnlocksOnFailure (answers : StartAnswers) (request : ResolveRequest) (disk : Disk codec) :
    Prop :=
  ∀ after thrown, goResolve layout answers request disk = (after, .error thrown) →
    after.running (request.msCacheDir layout) = false ∧
      ∀ access final outcome,
        checkAndAddMSMetadata layout access request.project request.path request.ms after =
            some (final, outcome) →
          outcome ≠ .error (runningRefusal request.ms.name)

/-- The command is not needed or succeeds, and the directory for the list of
conflict files can be created, unless none of them is a C or C++ source. -/
def StartAnswers.Unlocking (answers : StartAnswers) (request : ResolveRequest) : Prop :=
  if request.conflicts = [] then
    ∃ output, answers.exec = .ok output ∧
      (answers.creatable ∨ ∀ file ∈ stringSplit ['\n'] false output, ¬ isCppSource file)
  else answers.creatable ∨ ∀ file ∈ request.conflicts, ¬ isCppSource file

section Unlocking

variable {layout} {answers : StartAnswers} {request : ResolveRequest} {disk after : Disk codec}

/-- The resolution manager means the same directory. -/
theorem mergeScenarioPath_eq (layout : CacheLayout) (request : ResolveRequest) :
    request.mergeScenarioPath layout = request.msCacheDir layout := by
  simp only [ResolveRequest.mergeScenarioPath, ResolveRequest.msCacheDir,
    ResolveRequest.checkSum, CacheLayout.calcProjChecksum]
  by_cases separated : request.path.getLast? = some '/'
  · simp [separated]
  · by_cases empty : request.path = []
    · simp [empty]
    · simp [separated, empty]

/-- A removed sign is gone. -/
theorem removed (disk : Disk codec) (msPath : Text) :
    (disk.removeRunningSign msPath).running msPath = false := by
  rw [Disk.removeRunningSign_running, if_pos rfl]

/-- Without a running sign no request is refused as running. -/
theorem not_refused {access : FileAccess} {project path : Text} {ms : MergeScenario}
    {final : Disk codec} {outcome : Except ServerException Bool}
    (stopped : disk.running (layout.msCacheDir (layout.calcProjChecksum project path) ms.name) =
      false)
    (called : checkAndAddMSMetadata layout access project path ms disk = some (final, outcome)) :
    outcome ≠ .error (runningRefusal ms.name) := by
  rintro rfl
  rcases checkAndAddMSMetadata_cases layout rfl called with
    ⟨-, failed⟩ | ⟨-, -, returned⟩ | ⟨returned, -⟩
  · rcases failed with thrown | ⟨returned, -⟩
    · simp [runningRefusal] at thrown
    · simp at returned
  · simp [stopped] at returned
  · simp at returned

/-- How `goResolve` can end behind the running sign. -/
inductive StartEnd (layout : CacheLayout) (answers : StartAnswers) (request : ResolveRequest)
    (disk : Disk codec) : Disk codec → Except ServerException (List Text) → Prop
  /-- It gives up and removes the sign. -/
  | unlocked (thrown : ServerException) : StartEnd layout answers request disk
      (disk.removeRunningSign (request.msCacheDir layout)) (.error thrown)
  /-- The command fails. -/
  | command {thrown : ServerException} (failed : collectConflicts answers request = .error thrown) :
      StartEnd layout answers request disk disk (.error thrown)
  /-- The directory for the list of sources cannot be created. -/
  | directory {fileNames : List Text} {file : Text}
      (collected : collectConflicts answers request = .ok fileNames) (member : file ∈ fileNames)
      (isSource : isCppSource file) (failed : answers.creatable = false) :
      StartEnd layout answers request disk disk (.error .filesystem)
  /-- The resolution is started. -/
  | started (cppSources : List Text) : StartEnd layout answers request disk disk (.ok cppSources)

/-- These are all the ways. -/
theorem startResolution_end {outcome : Except ServerException (List Text)}
    (ended : startResolution layout answers request disk = (after, outcome)) :
    StartEnd layout answers request disk after outcome := by
  simp only [startResolution, mergeScenarioPath_eq] at ended
  cases collected : collectConflicts answers request with
  | error thrown =>
      simp only [collected] at ended
      obtain ⟨rfl, rfl⟩ := Prod.mk.inj ended
      exact .command collected
  | ok fileNames =>
      simp only [collected] at ended
      split at ended
      · obtain ⟨rfl, rfl⟩ := Prod.mk.inj ended
        exact .unlocked _
      · split at ended
        · obtain ⟨rfl, rfl⟩ := Prod.mk.inj ended
          exact .unlocked _
        · rename_i some_
          split at ended
          · rename_i notCreatable
            obtain ⟨rfl, rfl⟩ := Prod.mk.inj ended
            obtain ⟨file, isKept⟩ := List.exists_mem_of_length_pos (Nat.pos_of_ne_zero some_)
            obtain ⟨member, isSource⟩ := List.mem_filter.mp isKept
            exact .directory collected member isSource (by simpa using notCreatable)
          · split at ended
            · obtain ⟨rfl, rfl⟩ := Prod.mk.inj ended
              exact .unlocked _
            · obtain ⟨rfl, rfl⟩ := Prod.mk.inj ended
              exact .started _

/-- With the conflict files collected, an exception leaves the sign only when the
directory for the list of their sources cannot be created. -/
theorem startResolution_unlocks {fileNames : List Text} {thrown : ServerException}
    (collected : collectConflicts answers request = .ok fileNames)
    (safe : answers.creatable ∨ ∀ file ∈ fileNames, ¬ isCppSource file)
    (failed : startResolution layout answers request disk = (after, .error thrown)) :
    after.running (request.msCacheDir layout) = false := by
  cases startResolution_end failed with
  | unlocked => exact removed disk _
  | command notCollected => simp [collected] at notCollected
  | directory sameFiles member isSource notCreatable =>
      obtain rfl := Except.ok.inj (collected.symm.trans sameFiles)
      rcases safe with creatable | noSource
      · simp [notCreatable] at creatable
      · exact absurd isSource (noSource _ member)

/-- Without the directory the sign stays. -/
theorem startResolution_locked {fileNames : List Text}
    (collected : collectConflicts answers request = .ok fileNames)
    (notCreatable : answers.creatable = false) {file : Text} (member : file ∈ fileNames)
    (isSource : isCppSource file) :
    startResolution layout answers request disk = (disk, .error .filesystem) := by
  have some_ : (fileNames.filter isCppSource).length ≠ 0 := fun none_ =>
    List.filter_eq_nil_iff.mp (List.length_eq_zero_iff.mp none_) file member isSource
  have named : fileNames.length ≠ 0 := fun none_ =>
    List.not_mem_nil (List.length_eq_zero_iff.mp none_ ▸ member)
  simp only [startResolution, collected, named, some_, notCreatable, if_false, Bool.not_false,
    if_true]

/-- The sign that `goResolve` sets. -/
theorem set_sign (disk : Disk codec) (layout : CacheLayout) (request : ResolveRequest) :
    (disk.setRunningSign (layout.projectCacheDir (request.checkSum layout)) request.ms.name).running
      (request.msCacheDir layout) = true :=
  if_pos rfl

/-- An exception that leaves the sign locks the scenario. -/
theorem not_unlocksOnFailure {thrown : ServerException}
    (left : ∀ disk : Disk codec, startResolution layout answers request disk =
      (disk, .error thrown)) : ¬ UnlocksOnFailure layout answers request disk := by
  intro unlocks
  have gone := (unlocks _ thrown (left _)).1
  rw [set_sign] at gone
  exact Bool.noConfusion gone

/-- With given conflict files, an exception unlocks the scenario if and only if the
directory for the list can be created or is not needed. -/
theorem unlocksOnFailure_of_collected {fileNames : List Text}
    (collected : collectConflicts answers request = .ok fileNames) :
    UnlocksOnFailure layout answers request disk ↔
      (answers.creatable ∨ ∀ file ∈ fileNames, ¬ isCppSource file) := by
  constructor
  · intro unlocks
    by_contra unsafe_
    push Not at unsafe_
    obtain ⟨notCreatable, file, member, isSource⟩ := unsafe_
    exact not_unlocksOnFailure (fun disk => startResolution_locked collected
      (by simpa using notCreatable) member isSource) unlocks
  · intro safe after thrown failed
    have gone := startResolution_unlocks collected safe failed
    exact ⟨gone, fun access final outcome called => not_refused gone called⟩

end Unlocking

/-- No exception leaves the running sign behind, if and only if the command that
lists the conflict files does not fail, and the directory for their list can be
created when it is needed. -/
theorem unlocksOnFailure_iff (layout : CacheLayout) (answers : StartAnswers)
    (request : ResolveRequest) (disk : Disk codec) :
    UnlocksOnFailure layout answers request disk ↔ answers.Unlocking request := by
  by_cases none_ : request.conflicts = []
  · rw [StartAnswers.Unlocking, if_pos none_]
    cases command : answers.exec with
    | error err =>
        have left (disk : Disk codec) : startResolution layout answers request disk =
            (disk, .error (handleServerExecError err (diffCommand request.path))) := by
          simp [startResolution, collectConflicts, none_, command]
        apply iff_of_false (not_unlocksOnFailure left)
        rintro ⟨output, succeeded, -⟩
        exact absurd succeeded nofun
    | ok output =>
        have collected : collectConflicts answers request =
            .ok (stringSplit ['\n'] false output) := by
          simp [collectConflicts, none_, command]
        rw [unlocksOnFailure_of_collected collected]
        simp only [Except.ok.injEq, exists_eq_left']
  · rw [StartAnswers.Unlocking, if_neg none_]
    have collected : collectConflicts answers request = .ok request.conflicts := by
      simp [collectConflicts, none_]
    exact unlocksOnFailure_of_collected collected

/-- A request for the project `p` at `/p` that names no conflict files. -/
def plainRequest : ResolveRequest where
  project := "p".toList
  path := "/p".toList
  ms := .ofRevisions "0123456789".toList "abcdef0123".toList []
  conflicts := []

/-- A command that cannot be started locks the scenario. -/
theorem unstarted_locked : ¬ UnlocksOnFailure oneProjectLayout { exec := .error .ioError }
    plainRequest (ManifestState.fresh plainProjectsCodec).disk := by
  intro unlocks
  have gone := (unlocks _ _ rfl).1
  rw [set_sign] at gone
  exact Bool.noConfusion gone

end MergeBot
