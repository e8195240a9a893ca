import MergeBot.Foundation.Runs
import MergeBot.Server.Cache

/-!
# The project manifest

Requests add their project and their merge scenario to a manifest file, which is
read, changed and rewritten as a whole under a mutex. `manifest_complete` says of
every order of such calls that the manifest neither loses nor duplicates an entry.
-/

namespace MergeBot

open Foundation

variable {codec : ProjectsCodec} (layout : CacheLayout)

/-- How the file operations of a call end that can end in two ways. What is
opened for writing is written whole. -/
structure FileAccess where
  /-- The manifest file can be opened and locked for reading. -/
  readable : Bool := true
  /-- `fs::create_directories` does not throw. -/
  creatable : Bool := true
  /-- The manifest file can be opened and locked for writing. -/
  writable : Bool := true
deriving DecidableEq, Repr

/-- The project of a checksum in a list. -/
def findProject (checkSum : Text) (projects : List Project) : Option Project :=
  projects.find? fun proj => filename proj.cacheDir = checkSum

/-- Add a scenario to the first project of a checksum. -/
def addScenario (checkSum : Text) (ms : MergeScenario) : List Project → List Project
  | [] => []
  | proj :: rest =>
      if filename proj.cacheDir = checkSum then { proj with mss := proj.mss ++ [ms] } :: rest
      else proj :: addScenario checkSum ms rest

/-- Create the project's directory and store a list of projects. -/
def storeProjects (access : FileAccess) (path : Text) (projects : List Project)
    (disk : Disk codec) : Disk codec × Except ServerException Bool :=
  if !access.creatable then (disk, .error .filesystem)
  else if !access.writable then (disk, .ok false)
  else (disk.writeManifest path projects, .ok true)

/-- The entry of a project that is added. -/
def projToWrite (project path : Text) : Project where
  project := project
  path := path
  cacheDir := layout.projectCacheDir (layout.calcProjChecksum project path)

/-- Add a project to its manifest file, unless it is there. -/
def checkAndAddProjectMetadata (access : FileAccess) (project path : Text) (disk : Disk codec) :
    Disk codec × Except ServerException Bool :=
  let cacheDirCheckSum := layout.calcProjChecksum project path
  let manifestPath := layout.manifestPath cacheDirCheckSum
  match disk.manifests manifestPath with
  | none => storeProjects access manifestPath [projToWrite layout project path] disk
  | some content =>
      if !access.readable then (disk, .ok false)
      else
        let projList := codec.parse content
        match findProject cacheDirCheckSum projList with
        | some _ => (disk, .ok true)
        | none =>
            storeProjects access manifestPath (projList ++ [projToWrite layout project path]) disk

/-- The refusal of a scenario whose resolution is running. -/
def runningRefusal (name : Text) : ServerException :=
  .app "C1000".toList ("The conflict resolution algorithm for the merge scenario [".toList ++
    name ++ "] is running...".toList)

/-- Add a merge scenario to its project, unless it is there; then its resolution
must not be running. `none` is a failing assertion: the project is not there. -/
def checkAndAddMSMetadata (access : FileAccess) (project path : Text) (ms : MergeScenario)
    (disk : Disk codec) : Option (Disk codec × Except ServerException Bool) :=
  let cacheDirCheckSum := layout.calcProjChecksum project path
  let manifestPath := layout.manifestPath cacheDirCheckSum
  match disk.manifests manifestPath with
  | none => none
  | some content =>
      if !access.readable then some (disk, .ok false)
      else
        let projsList := codec.parse content
        match findProject cacheDirCheckSum projsList with
        | none => none
        | some proj =>
            if proj.mss.any fun msItem => msItem.name = ms.name then
              if disk.running (layout.msCacheDir cacheDirCheckSum ms.name) then
                some (disk, .error (runningRefusal ms.name))
              else some (disk, .ok true)
            else
              some (storeProjects access manifestPath
                (addScenario cacheDirCheckSum ms projsList) disk)

/-! ## What is recorded -/

namespace Disk

variable (disk : Disk codec)

/-- The projects of a manifest file; none without the file. -/
def projects (path : Text) : List Project :=
  match disk.manifests path with
  | none => []
  | some content => codec.parse content

theorem projects_writeManifest (path : Text) (list : List Project) (other : Text) :
    (disk.writeManifest path list).projects other =
      if other = path then list else disk.projects other := by
  simp only [projects, writeManifest_manifests]
  by_cases same : other = path
  · simp [same, codec.parse_dump]
  · simp [same]

theorem projects_of_manifests {disk other : Disk codec} (same : other.manifests = disk.manifests)
    (path : Text) : other.projects path = disk.projects path := by
  simp only [projects, same]

/-- The projects in the manifest file of a checksum. -/
def listed (checkSum : Text) : List Project := disk.projects (layout.manifestPath checkSum)

/-- The manifest has the project of a checksum. -/
def HasProject (checkSum : Text) : Prop :=
  ∃ proj ∈ disk.listed layout checkSum, filename proj.cacheDir = checkSum

/-- The manifest has the project, and in it the scenario of a name. -/
def HasScenario (checkSum name : Text) : Prop :=
  ∃ proj ∈ disk.listed layout checkSum,
    filename proj.cacheDir = checkSum ∧ ∃ ms ∈ proj.mss, ms.name = name

/-- Every project is in the file of its checksum, once, and has every scenario once. -/
structure Distinct : Prop where
  filed : ∀ path, ∀ proj ∈ disk.projects path,
    path = layout.manifestPath (filename proj.cacheDir)
  projects : ∀ path, ((disk.projects path).map fun proj => filename proj.cacheDir).Nodup
  scenarios : ∀ path, ∀ proj ∈ disk.projects path, (proj.mss.map MergeScenario.name).Nodup

end Disk

/-- A project entry has only got more scenarios, behind those it had. -/
structure Project.Grows (before after : Project) : Prop where
  project : after.project = before.project
  path : after.path = before.path
  cacheDir : after.cacheDir = before.cacheDir
  mss : before.mss <+: after.mss

theorem Project.Grows.refl (proj : Project) : proj.Grows proj :=
  ⟨rfl, rfl, rfl, List.prefix_rfl⟩

theorem Project.Grows.trans {first second third : Project} (before : first.Grows second)
    (after : second.Grows third) : first.Grows third where
  project := after.project.trans before.project
  path := after.path.trans before.path
  cacheDir := after.cacheDir.trans before.cacheDir
  mss := before.mss.trans after.mss

/-- Every entry is still there, with its fields. -/
def Disk.Kept (before after : Disk codec) : Prop :=
  ∀ path, ∀ proj ∈ before.projects path, ∃ later ∈ after.projects path, proj.Grows later

namespace Disk.Kept

variable {first second third : Disk codec}

theorem of_manifests (same : second.manifests = first.manifests) : Kept first second := by
  intro path proj member
  rw [← Disk.projects_of_manifests same] at member
  exact ⟨proj, member, .refl proj⟩

theorem refl (disk : Disk codec) : Kept disk disk := of_manifests rfl

theorem trans (before : Kept first second) (after : Kept second third) : Kept first third := by
  intro path proj member
  obtain ⟨later, laterMember, grows⟩ := before path proj member
  obtain ⟨last, lastMember, growsAgain⟩ := after path later laterMember
  exact ⟨last, lastMember, grows.trans growsAgain⟩

theorem hasProject (kept : Kept first second) {checkSum : Text}
    (has : first.HasProject layout checkSum) : second.HasProject layout checkSum := by
  obtain ⟨proj, member, named⟩ := has
  obtain ⟨later, laterMember, grows⟩ := kept _ proj member
  exact ⟨later, laterMember, grows.cacheDir ▸ named⟩

theorem hasScenario (kept : Kept first second) {checkSum name : Text}
    (has : first.HasScenario layout checkSum name) : second.HasScenario layout checkSum name := by
  obtain ⟨proj, member, named, ms, inProject, isName⟩ := has
  obtain ⟨later, laterMember, grows⟩ := kept _ proj member
  exact ⟨later, laterMember, grows.cacheDir ▸ named, ms, grows.mss.subset inProject, isName⟩

end Disk.Kept

/-! ## What a call does -/

theorem findProject_eq_none_iff {checkSum : Text} {projects : List Project} :
    findProject checkSum projects = none ↔
      ∀ proj ∈ projects, filename proj.cacheDir ≠ checkSum := by
  simp [findProject]

theorem findProject_some {checkSum : Text} {projects : List Project} {proj : Project}
    (found : findProject checkSum projects = some proj) :
    proj ∈ projects ∧ filename proj.cacheDir = checkSum :=
  ⟨List.mem_of_find?_eq_some found, by simpa using List.find?_some found⟩

/-- Adding a scenario changes the entry that was found, and no other. -/
theorem addScenario_split {checkSum : Text} {projects : List Project} {proj : Project}
    (found : findProject checkSum projects = some proj) (ms : MergeScenario) :
    ∃ before after, projects = before ++ proj :: after ∧
      addScenario checkSum ms projects =
        before ++ { proj with mss := proj.mss ++ [ms] } :: after := by
  induction projects with
  | nil => simp [findProject] at found
  | cons first rest ih =>
      by_cases here : filename first.cacheDir = checkSum
      · obtain rfl : first = proj := by simpa [findProject, here] using found
        exact ⟨[], rest, rfl, by simp [addScenario, here]⟩
      · obtain ⟨before, after, split, added⟩ :=
          ih (by simpa [findProject, here] using found)
        exact ⟨first :: before, after, by simp [split], by simp [addScenario, here, added]⟩

/-- How a call ends that could not use the files: it has changed nothing. -/
def FileAccess.Fails (access : FileAccess) (outcome : Except ServerException Bool) : Prop :=
  outcome = .error .filesystem ∨ outcome = .ok false ∧ ¬ (access.readable ∧ access.writable)

/-- Storing fails without a trace, or rewrites the file. -/
theorem storeProjects_cases {access : FileAccess} {path : Text} {list : List Project}
    {disk after : Disk codec} {outcome : Except ServerException Bool}
    (stored : storeProjects access path list disk = (after, outcome)) :
    (after = disk ∧ access.Fails outcome) ∨
      (outcome = .ok true ∧ after = disk.writeManifest path list) := by
  simp only [storeProjects] at stored
  split at stored
  · obtain ⟨rfl, rfl⟩ := Prod.mk.inj stored
    exact .inl ⟨rfl, .inl rfl⟩
  · split at stored
    · rename_i notWritable
      obtain ⟨rfl, rfl⟩ := Prod.mk.inj stored
      refine .inl ⟨rfl, .inr ⟨rfl, fun usable => ?_⟩⟩
      simp [usable.2] at notWritable
    · obtain ⟨rfl, rfl⟩ := Prod.mk.inj stored
      exact .inr ⟨rfl, rfl⟩

/-- A manifest file that is there lists its projects. -/
theorem listed_of_manifests {disk : Disk codec} {checkSum : Text} {content : codec.Content}
    (file : disk.manifests (layout.manifestPath checkSum) = some content) :
    disk.listed layout checkSum = codec.parse content := by
  simp only [Disk.listed, Disk.projects, file]

/-- Adding a project fails, finds it, or adds it behind the projects of its file. -/
theorem checkAndAddProjectMetadata_cases {access : FileAccess} {project path checkSum : Text}
    {disk after : Disk codec} {outcome : Except ServerException Bool}
    (named : layout.calcProjChecksum project path = checkSum)
    (called : checkAndAddProjectMetadata layout access project path disk = (after, outcome)) :
    (after = disk ∧ access.Fails outcome) ∨
      (after = disk ∧ outcome = .ok true ∧ disk.HasProject layout checkSum) ∨
      (outcome = .ok true ∧ findProject checkSum (disk.listed layout checkSum) = none ∧
        after = disk.writeManifest (layout.manifestPath checkSum)
          (disk.listed layout checkSum ++ [projToWrite layout project path])) := by
  simp only [checkAndAddProjectMetadata, named] at called
  cases file : disk.manifests (layout.manifestPath checkSum) with
  | none =>
      have nothing : disk.listed layout checkSum = [] := by
        simp only [Disk.listed, Disk.projects, file]
      simp only [file] at called
      rcases storeProjects_cases called with failed | ⟨added, written⟩
      · exact .inl failed
      · exact .inr (.inr ⟨added, by simp [nothing, findProject], by rw [nothing]; exact written⟩)
  | some content =>
      have something := listed_of_manifests layout file
      simp only [file] at called
      split at called
      · rename_i notReadable
        obtain ⟨rfl, rfl⟩ := Prod.mk.inj called
        refine .inl ⟨rfl, .inr ⟨rfl, fun usable => ?_⟩⟩
        simp [usable.1] at notReadable
      · cases found : findProject checkSum (codec.parse content) with
        | some proj =>
            simp only [found] at called
            obtain ⟨rfl, rfl⟩ := Prod.mk.inj called
            obtain ⟨member, isNamed⟩ := findProject_some found
            exact .inr (.inl ⟨rfl, rfl, proj, something ▸ member, isNamed⟩)
        | none =>
            simp only [found] at called
            rcases storeProjects_cases called with failed | ⟨added, written⟩
            · exact .inl failed
            · exact .inr (.inr ⟨added, something ▸ found, something ▸ written⟩)

/-- Adding a scenario fails, finds it running or not, or adds it to its project. -/
theorem checkAndAddMSMetadata_cases {access : FileAccess} {project path checkSum : Text}
    {ms : MergeScenario} {disk after : Disk codec} {outcome : Except ServerException Bool}
    (named : layout.calcProjChecksum project path = checkSum)
    (called : checkAndAddMSMetadata layout access project path ms disk = some (after, outcome)) :
    (after = disk ∧ access.Fails outcome) ∨
      (after = disk ∧ disk.HasScenario layout checkSum ms.name ∧
        outcome = (if disk.running (layout.msCacheDir checkSum ms.name) then
          .error (runningRefusal ms.name) else .ok true)) ∨
      (outcome = .ok true ∧
        (∃ proj, findProject checkSum (disk.listed layout checkSum) = some proj ∧
          ∀ msItem ∈ proj.mss, msItem.name ≠ ms.name) ∧
        after = disk.writeManifest (layout.manifestPath checkSum)
          (addScenario checkSum ms (disk.listed layout checkSum))) := by
  simp only [checkAndAddMSMetadata, named] at called
  cases file : disk.manifests (layout.manifestPath checkSum) with
  | none => simp [file] at called
  | some content =>
      have something := listed_of_manifests layout file
      simp only [file] at called
      split at called
      · rename_i notReadable
        obtain ⟨rfl, rfl⟩ := Prod.mk.inj (Option.some.inj called)
        refine .inl ⟨rfl, .inr ⟨rfl, fun usable => ?_⟩⟩
        simp [usable.1] at notReadable
      · cases found : findProject checkSum (codec.parse content) with
        | none => simp [found] at called
        | some proj =>
            simp only [found] at called
            split at called
            · rename_i known
              obtain ⟨member, isNamed⟩ := findProject_some found
              obtain ⟨msItem, inProject, isName⟩ := List.any_eq_true.mp known
              have has : disk.HasScenario layout checkSum ms.name :=
                ⟨proj, something ▸ member, isNamed, msItem, inProject, of_decide_eq_true isName⟩
              refine .inr (.inl ?_)
              split at called
              · rename_i running
                obtain ⟨rfl, rfl⟩ := Prod.mk.inj (Option.some.inj called)
                exact ⟨rfl, has, (if_pos running).symm⟩
              · rename_i stopped
                obtain ⟨rfl, rfl⟩ := Prod.mk.inj (Option.some.inj called)
                exact ⟨rfl, has, (if_neg stopped).symm⟩
            · rename_i unknown
              rcases storeProjects_cases (Option.some.inj called) with failed | ⟨added, written⟩
              · exact .inl failed
              · refine .inr (.inr ⟨added, ⟨proj, something ▸ found, ?_⟩, something ▸ written⟩)
                simpa using unknown

/-- A call that can use the files does not return `false`. -/
theorem FileAccess.Fails.not_false {access : FileAccess} (usable : access.readable ∧ access.writable)
    (failed : access.Fails (.ok false)) : False := by
  rcases failed with thrown | ⟨-, unusable⟩
  · simp at thrown
  · exact unusable usable

/-- A call that fails does not return `true`. -/
theorem FileAccess.Fails.not_true {access : FileAccess} (failed : access.Fails (.ok true)) :
    False := by
  rcases failed with thrown | ⟨returned, -⟩
  · simp at thrown
  · simp at returned

/-! ## What a rewritten file keeps -/

section Rewrite

variable {layout} {disk : Disk codec} {path : Text} {list : List Project}

/-- The manifest stays distinct when the projects of the new file are. -/
theorem Disk.Distinct.write (distinct : disk.Distinct layout)
    (filed : ∀ proj ∈ list, path = layout.manifestPath (filename proj.cacheDir))
    (projects : (list.map fun proj => filename proj.cacheDir).Nodup)
    (scenarios : ∀ proj ∈ list, (proj.mss.map MergeScenario.name).Nodup) :
    (disk.writeManifest path list).Distinct layout := by
  constructor <;> intro other <;> rw [disk.projects_writeManifest] <;> by_cases same : other = path
  · simpa only [same, if_true] using filed
  · simpa only [same, if_false] using distinct.filed other
  · simpa only [same, if_true] using projects
  · simpa only [same, if_false] using distinct.projects other
  · simpa only [same, if_true] using scenarios
  · simpa only [same, if_false] using distinct.scenarios other

/-- Entries are kept when the new file has those of the old one. -/
theorem Disk.Kept.write (kept : ∀ proj ∈ disk.projects path, ∃ later ∈ list, proj.Grows later) :
    disk.Kept (disk.writeManifest path list) := by
  intro other proj member
  rw [disk.projects_writeManifest]
  by_cases same : other = path
  · rw [if_pos same]
    exact kept proj (same ▸ member)
  · rw [if_neg same]
    exact ⟨proj, member, .refl proj⟩

variable {checkSum : Text}

theorem listed_writeManifest (disk : Disk codec) (checkSum : Text) (list : List Project) :
    (disk.writeManifest (layout.manifestPath checkSum) list).listed layout checkSum = list := by
  rw [Disk.listed, disk.projects_writeManifest, if_pos rfl]

/-- A new project is added without touching the others. -/
theorem append_kept (proj : Project) : disk.Kept (disk.writeManifest
    (layout.manifestPath checkSum) (disk.listed layout checkSum ++ [proj])) :=
  .write fun other member => ⟨other, List.mem_append_left _ member, .refl other⟩

theorem append_distinct (distinct : disk.Distinct layout)
    (absent : findProject checkSum (disk.listed layout checkSum) = none) {proj : Project}
    (named : filename proj.cacheDir = checkSum) (empty : proj.mss = []) :
    (disk.writeManifest (layout.manifestPath checkSum)
      (disk.listed layout checkSum ++ [proj])).Distinct layout := by
  apply distinct.write
  · intro other member
    rcases List.mem_append.mp member with old | new
    · exact distinct.filed _ other old
    · rw [List.mem_singleton.mp new, named]
  · rw [List.map_append, List.nodup_append]
    refine ⟨distinct.projects _, by simp, ?_⟩
    simp only [List.mem_map, List.map_cons, List.map_nil, List.mem_singleton]
    rintro _ ⟨other, member, rfl⟩ _ rfl
    exact named ▸ findProject_eq_none_iff.mp absent other member
  · intro other member
    rcases List.mem_append.mp member with old | new
    · exact distinct.scenarios _ other old
    · rw [List.mem_singleton.mp new, empty]
      exact List.nodup_nil

variable {proj : Project} {ms : MergeScenario}

/-- A new scenario is added behind those of its project, and nothing else changes. -/
theorem addScenario_kept
    (found : findProject checkSum (disk.listed layout checkSum) = some proj) :
    disk.Kept (disk.writeManifest (layout.manifestPath checkSum)
      (addScenario checkSum ms (disk.listed layout checkSum))) := by
  obtain ⟨before, after, split, added⟩ := addScenario_split found ms
  refine .write fun other inFile => ?_
  have member : other ∈ before ++ proj :: after := split ▸ inFile
  rw [added]
  rcases List.mem_append.mp member with early | late
  · exact ⟨other, List.mem_append_left _ early, .refl other⟩
  · rcases List.mem_cons.mp late with rfl | late
    · exact ⟨{ other with mss := other.mss ++ [ms] }, by simp,
        rfl, rfl, rfl, List.prefix_append _ _⟩
    · exact ⟨other, by simp [late], .refl other⟩

theorem addScenario_distinct (distinct : disk.Distinct layout)
    (found : findProject checkSum (disk.listed layout checkSum) = some proj)
    (absent : ∀ msItem ∈ proj.mss, msItem.name ≠ ms.name) :
    (disk.writeManifest (layout.manifestPath checkSum)
      (addScenario checkSum ms (disk.listed layout checkSum))).Distinct layout := by
  obtain ⟨before, after, split, added⟩ := addScenario_split found ms
  have filed : ∀ other ∈ disk.listed layout checkSum,
      layout.manifestPath checkSum = layout.manifestPath (filename other.cacheDir) :=
    distinct.filed _
  have projects : ((disk.listed layout checkSum).map fun proj => filename proj.cacheDir).Nodup :=
    distinct.projects _
  have scenarios : ∀ other ∈ disk.listed layout checkSum,
      (other.mss.map MergeScenario.name).Nodup := distinct.scenarios _
  rw [split] at filed projects scenarios
  simp only [List.forall_mem_append, List.forall_mem_cons] at filed scenarios
  rw [added]
  apply distinct.write
  · simp only [List.forall_mem_append, List.forall_mem_cons]
    exact filed
  · simpa using projects
  · simp only [List.forall_mem_append, List.forall_mem_cons]
    refine ⟨scenarios.1, ?_, scenarios.2.2⟩
    rw [List.map_append, List.nodup_append]
    refine ⟨scenarios.2.1, by simp, ?_⟩
    simp only [List.mem_map, List.map_cons, List.map_nil, List.mem_singleton]
    rintro _ ⟨msItem, member, rfl⟩ _ rfl
    exact absent msItem member

end Rewrite

/-! ## Runs of calls -/

/-- A call that adds metadata. -/
inductive MetadataCall
  | ofProject (project path : Text)
  | ofScenario (project path : Text) (ms : MergeScenario)
deriving DecidableEq, Repr

/-- What a call does to the files, and what it returns. -/
def MetadataCall.run (access : FileAccess) (disk : Disk codec) :
    MetadataCall → Option (Disk codec × Except ServerException Bool)
  | .ofProject project path => some (checkAndAddProjectMetadata layout access project path disk)
  | .ofScenario project path ms => checkAndAddMSMetadata layout access project path ms disk

/-- The calls that have returned `true`, with one that has ended now. -/
def noteAnswer (call : MetadataCall) (answered : List MetadataCall) :
    Except ServerException Bool → List MetadataCall
  | .ok true => call :: answered
  | _ => answered

/-- The files, and the calls that have returned `true`. -/
structure ManifestState (codec : ProjectsCodec) where
  disk : Disk codec
  answered : List MetadataCall

/-- A step of the server: a call under the mutex, or what else happens to the
running signs. -/
inductive ManifestStep
  | call (access : FileAccess) (call : MetadataCall)
  | setRunningSign (projDir msName : Text)
  | removeRunningSign (msPath : Text)
deriving DecidableEq, Repr

/-- Take a step. A call whose assertion fails does not return. -/
def ManifestState.move (state : ManifestState codec) :
    ManifestStep → Option (ManifestState codec)
  | .call access call =>
      (call.run layout access state.disk).map fun result =>
        { disk := result.1, answered := noteAnswer call state.answered result.2 }
  | .setRunningSign projDir msName =>
      some { state with disk := state.disk.setRunningSign projDir msName }
  | .removeRunningSign msPath => some { state with disk := state.disk.removeRunningSign msPath }

/-- A cache directory without manifest files. -/
def ManifestState.fresh (codec : ProjectsCodec) : ManifestState codec where
  disk := { manifests := fun _ => none, running := fun _ => false }
  answered := []

/-- What a call is about is in the manifest. -/
def MetadataCall.Recorded (disk : Disk codec) : MetadataCall → Prop
  | .ofProject project path => disk.HasProject layout (layout.calcProjChecksum project path)
  | .ofScenario project path ms =>
      disk.HasScenario layout (layout.calcProjChecksum project path) ms.name

/-- Every entry has the fields with which a call has added it. -/
structure Disk.AddedBy (disk : Disk codec) (answered : List MetadataCall) : Prop where
  projects : ∀ path, ∀ proj ∈ disk.projects path,
    .ofProject proj.project proj.path ∈ answered ∧
      proj.cacheDir = (projToWrite layout proj.project proj.path).cacheDir
  scenarios : ∀ path, ∀ proj ∈ disk.projects path, ∀ ms ∈ proj.mss, ∃ project path,
    layout.calcProjChecksum project path = filename proj.cacheDir ∧
      .ofScenario project path ms ∈ answered

/-- The manifest holds what has been added, once, and nothing else. -/
structure ManifestState.Complete (state : ManifestState codec) : Prop where
  distinct : state.disk.Distinct layout
  recorded : ∀ call ∈ state.answered, call.Recorded layout state.disk
  added : state.disk.AddedBy layout state.answered

section Calls

variable {layout} {disk after : Disk codec} {access : FileAccess} {call : MetadataCall}
  {outcome : Except ServerException Bool} {answered : List MetadataCall}

theorem subset_noteAnswer : answered ⊆ noteAnswer call answered outcome := by
  intro other member
  unfold noteAnswer
  split
  · exact List.mem_cons_of_mem _ member
  · exact member

theorem Disk.AddedBy.mono {more : List MetadataCall} (added : disk.AddedBy layout answered)
    (subset : answered ⊆ more) : disk.AddedBy layout more where
  projects path proj member := ⟨subset (added.projects path proj member).1,
    (added.projects path proj member).2⟩
  scenarios path proj member ms inProject := by
    obtain ⟨project, path, named, noted⟩ := added.scenarios path proj member ms inProject
    exact ⟨project, path, named, subset noted⟩

/-- A rewritten file has entries that were added when its new ones were. -/
theorem Disk.AddedBy.write {path : Text} {list : List Project}
    (added : disk.AddedBy layout answered)
    (projects : ∀ proj ∈ list, .ofProject proj.project proj.path ∈ answered ∧
      proj.cacheDir = (projToWrite layout proj.project proj.path).cacheDir)
    (scenarios : ∀ proj ∈ list, ∀ ms ∈ proj.mss, ∃ project path,
      layout.calcProjChecksum project path = filename proj.cacheDir ∧
        .ofScenario project path ms ∈ answered) :
    (disk.writeManifest path list).AddedBy layout answered := by
  constructor <;> intro other <;> rw [disk.projects_writeManifest] <;> by_cases same : other = path
  · simpa only [same, if_true] using projects
  · simpa only [same, if_false] using added.projects other
  · simpa only [same, if_true] using scenarios
  · simpa only [same, if_false] using added.scenarios other

/-- A call keeps every entry. -/
theorem MetadataCall.run_kept (called : call.run layout access disk = some (after, outcome)) :
    disk.Kept after := by
  cases call with
  | ofProject project path =>
      rcases checkAndAddProjectMetadata_cases layout rfl (Option.some.inj called) with
        ⟨rfl, -⟩ | ⟨rfl, -⟩ | ⟨-, -, rfl⟩
      · exact .refl after
      · exact .refl after
      · exact append_kept _
  | ofScenario project path ms =>
      rcases checkAndAddMSMetadata_cases layout rfl called with
        ⟨rfl, -⟩ | ⟨rfl, -⟩ | ⟨-, ⟨proj, found, -⟩, rfl⟩
      · exact .refl after
      · exact .refl after
      · exact addScenario_kept found

/-- A call does not touch running signs. -/
theorem MetadataCall.run_running (called : call.run layout access disk = some (after, outcome)) :
    after.running = disk.running := by
  cases call with
  | ofProject project path =>
      rcases checkAndAddProjectMetadata_cases layout rfl (Option.some.inj called) with
        ⟨rfl, -⟩ | ⟨rfl, -⟩ | ⟨-, -, rfl⟩ <;> rfl
  | ofScenario project path ms =>
      rcases checkAndAddMSMetadata_cases layout rfl called with
        ⟨rfl, -⟩ | ⟨rfl, -⟩ | ⟨-, -, rfl⟩ <;> rfl

/-- A call that can use the files does not return `false`. -/
theorem MetadataCall.run_ne_false (called : call.run layout access disk = some (after, outcome))
    (usable : access.readable ∧ access.writable) : outcome ≠ .ok false := by
  rintro rfl
  cases call with
  | ofProject project path =>
      rcases checkAndAddProjectMetadata_cases layout rfl (Option.some.inj called) with
        ⟨-, failed⟩ | ⟨-, returned, -⟩ | ⟨returned, -⟩
      · exact failed.not_false usable
      · simp at returned
      · simp at returned
  | ofScenario project path ms =>
      rcases checkAndAddMSMetadata_cases layout rfl called with
        ⟨-, failed⟩ | ⟨-, -, returned⟩ | ⟨returned, -⟩
      · exact failed.not_false usable
      · split at returned <;> simp at returned
      · simp at returned

/-- A call duplicates nothing. -/
theorem MetadataCall.run_distinct (called : call.run layout access disk = some (after, outcome))
    (distinct : disk.Distinct layout) : after.Distinct layout := by
  cases call with
  | ofProject project path =>
      rcases checkAndAddProjectMetadata_cases layout rfl (Option.some.inj called) with
        ⟨rfl, -⟩ | ⟨rfl, -⟩ | ⟨-, absent, rfl⟩
      · exact distinct
      · exact distinct
      · exact append_distinct distinct absent (layout.filename_projectCacheDir project path) rfl
  | ofScenario project path ms =>
      rcases checkAndAddMSMetadata_cases layout rfl called with
        ⟨rfl, -⟩ | ⟨rfl, -⟩ | ⟨-, ⟨proj, found, absent⟩, rfl⟩
      · exact distinct
      · exact distinct
      · exact addScenario_distinct distinct found absent

/-- A call that returns `true` is recorded. -/
theorem MetadataCall.run_recorded
    (called : call.run layout access disk = some (after, .ok true)) :
    call.Recorded layout after := by
  cases call with
  | ofProject project path =>
      rcases checkAndAddProjectMetadata_cases layout rfl (Option.some.inj called) with
        ⟨-, failed⟩ | ⟨rfl, -, there⟩ | ⟨-, -, rfl⟩
      · exact failed.not_true.elim
      · exact there
      · refine ⟨projToWrite layout project path, ?_, layout.filename_projectCacheDir project path⟩
        rw [listed_writeManifest]
        simp
  | ofScenario project path ms =>
      rcases checkAndAddMSMetadata_cases layout rfl called with
        ⟨-, failed⟩ | ⟨rfl, there, -⟩ | ⟨-, ⟨proj, found, -⟩, rfl⟩
      · exact failed.not_true.elim
      · exact there
      · obtain ⟨before, behind, -, added⟩ := addScenario_split found ms
        refine ⟨{ proj with mss := proj.mss ++ [ms] }, ?_, (findProject_some found).2, ms, ?_, rfl⟩
        · rw [listed_writeManifest, added]
          simp
        · simp

/-- Whatever a call adds, it adds with its own fields, and then returns `true`. -/
theorem MetadataCall.run_addedBy (called : call.run layout access disk = some (after, outcome))
    (added : disk.AddedBy layout answered) :
    after.AddedBy layout (noteAnswer call answered outcome) := by
  have before : disk.AddedBy layout (noteAnswer call answered outcome) :=
    added.mono subset_noteAnswer
  cases call with
  | ofProject project path =>
      rcases checkAndAddProjectMetadata_cases layout rfl (Option.some.inj called) with
        ⟨rfl, -⟩ | ⟨rfl, -⟩ | ⟨rfl, -, rfl⟩
      · exact before
      · exact before
      · apply before.write
        · rw [List.forall_mem_append]
          refine ⟨before.projects _, ?_⟩
          simp [projToWrite, noteAnswer]
        · rw [List.forall_mem_append]
          refine ⟨before.scenarios _, ?_⟩
          simp [projToWrite]
  | ofScenario project path ms =>
      rcases checkAndAddMSMetadata_cases layout rfl called with
        ⟨rfl, -⟩ | ⟨rfl, -⟩ | ⟨rfl, ⟨proj, found, -⟩, rfl⟩
      · exact before
      · exact before
      · obtain ⟨early, behind, split, extended⟩ := addScenario_split found ms
        have projects : ∀ other ∈ early ++ proj :: behind,
            .ofProject other.project other.path ∈
                noteAnswer (.ofScenario project path ms) answered (.ok true) ∧
              other.cacheDir = (projToWrite layout other.project other.path).cacheDir :=
          split ▸ before.projects _
        have scenarios : ∀ other ∈ early ++ proj :: behind, ∀ msItem ∈ other.mss, ∃ named place,
            layout.calcProjChecksum named place = filename other.cacheDir ∧
              .ofScenario named place msItem ∈
                noteAnswer (.ofScenario project path ms) answered (.ok true) :=
          split ▸ before.scenarios _
        simp only [List.forall_mem_append, List.forall_mem_cons] at projects scenarios
        rw [extended]
        apply before.write
        · simp only [List.forall_mem_append, List.forall_mem_cons]
          exact projects
        · simp only [List.forall_mem_append, List.forall_mem_cons]
          refine ⟨scenarios.1, ⟨scenarios.2.1, ⟨project, path, ?_, ?_⟩, ?_⟩, scenarios.2.2⟩
          · exact (findProject_some found).2.symm
          · exact List.mem_cons_self
          · exact fun _ impossible => absurd impossible List.not_mem_nil

end Calls

section Runs

variable {layout} {state next : ManifestState codec} {label : ManifestStep}

/-- Steps other than calls do not touch the manifest files. -/
theorem Disk.Distinct.of_manifests {disk other : Disk codec} (distinct : disk.Distinct layout)
    (same : other.manifests = disk.manifests) : other.Distinct layout := by
  constructor <;> intro path <;> rw [Disk.projects_of_manifests same]
  · exact distinct.filed path
  · exact distinct.projects path
  · exact distinct.scenarios path

theorem MetadataCall.Recorded.mono {disk other : Disk codec} {call : MetadataCall}
    (recorded : call.Recorded layout disk) (kept : disk.Kept other) :
    call.Recorded layout other := by
  cases call with
  | ofProject project path => exact kept.hasProject layout recorded
  | ofScenario project path ms => exact kept.hasScenario layout recorded

/-- A step keeps every entry. -/
theorem ManifestState.move_kept (moved : state.move layout label = some next) :
    state.disk.Kept next.disk := by
  cases label with
  | call access call =>
      obtain ⟨⟨after, outcome⟩, called, rfl⟩ := Option.map_eq_some_iff.mp moved
      exact call.run_kept called
  | setRunningSign projDir msName =>
      obtain rfl := Option.some.inj moved
      exact .of_manifests rfl
  | removeRunningSign msPath =>
      obtain rfl := Option.some.inj moved
      exact .of_manifests rfl

/-- A step leaves the manifest complete. -/
theorem ManifestState.move_complete (complete : state.Complete layout)
    (moved : state.move layout label = some next) : next.Complete layout := by
  have kept := move_kept moved
  cases label with
  | call access call =>
      obtain ⟨⟨after, outcome⟩, called, rfl⟩ := Option.map_eq_some_iff.mp moved
      refine ⟨call.run_distinct called complete.distinct, fun other member => ?_,
        call.run_addedBy called complete.added⟩
      by_cases earlier : other ∈ state.answered
      · exact (complete.recorded other earlier).mono kept
      · cases outcome with
        | error thrown => exact absurd member earlier
        | ok success =>
            cases success with
            | false => exact absurd member earlier
            | true =>
                obtain rfl | later := List.mem_cons.mp member
                · exact other.run_recorded called
                · exact absurd later earlier
  | setRunningSign projDir msName =>
      obtain rfl := Option.some.inj moved
      exact ⟨complete.distinct.of_manifests rfl,
        fun call member => (complete.recorded call member).mono kept,
        ⟨complete.added.projects, complete.added.scenarios⟩⟩
  | removeRunningSign msPath =>
      obtain rfl := Option.some.inj moved
      exact ⟨complete.distinct.of_manifests rfl,
        fun call member => (complete.recorded call member).mono kept,
        ⟨complete.added.projects, complete.added.scenarios⟩⟩

theorem ManifestState.fresh_complete (layout : CacheLayout) (codec : ProjectsCodec) :
    (fresh codec).Complete layout where
  distinct := ⟨nofun, fun _ => List.nodup_nil, nofun⟩
  recorded := nofun
  added := ⟨nofun, nofun⟩

/-- Once its project is there, a scenario's call returns. -/
theorem scenario_call_returns {disk : Disk codec} {project path : Text}
    (has : disk.HasProject layout (layout.calcProjChecksum project path)) (access : FileAccess)
    (ms : MergeScenario) :
    ((MetadataCall.ofScenario project path ms).run layout access disk).isSome := by
  obtain ⟨proj, member, named⟩ := has
  simp only [MetadataCall.run, checkAndAddMSMetadata]
  simp only [Disk.listed, Disk.projects] at member
  split
  · rename_i absent
    simp [absent] at member
  · rename_i content file
    rw [file] at member
    split
    · rfl
    · split
      · rename_i absent
        exact absurd named (findProject_eq_none_iff.mp absent proj member)
      · split
        · split <;> rfl
        · rfl

end Runs

/-- In every order of calls, from an empty cache directory on: the manifest is
complete, and it keeps every entry from then on. -/
theorem manifest_complete {layout : CacheLayout} {labels more : List ManifestStep}
    {state later : ManifestState codec}
    (run : Steps (ManifestState.move layout) (.fresh codec) labels state)
    (onwards : Steps (ManifestState.move layout) state more later) :
    state.Complete layout ∧ state.disk.Kept later.disk := by
  refine ⟨run.invariant ManifestState.move_complete
    (ManifestState.fresh_complete layout codec), ?_⟩
  exact onwards.relation (fun first second => first.disk.Kept second.disk)
    (fun state => .refl state.disk) (fun first second => first.trans second)
    ManifestState.move_kept

/-- A codec that keeps the list as it is. -/
def plainProjectsCodec : ProjectsCodec where
  Content := List Project
  dump := id
  parse := id
  parse_dump _ := rfl

/-- A home directory, with the checksum of one project. -/
def oneProjectLayout : CacheLayout where
  mbDir := "/home/u/.mergebot".toList
  sha1 _ := "a5c36b8c717fec2410746450ae6e5b388490a078".toList
  sha1_single _ := by decide

/-- The checksums of `p` at `/p` and of `n` at `/q`, which begin alike: the two share a manifest
file. -/
def twoProjectsLayout : CacheLayout where
  mbDir := "/home/u/.mergebot".toList
  sha1 text :=
    if text = "n-/q".toList then "a5c59d2594ccedf357e027eb7498d473b48ce626".toList
    else "a5c36b8c717fec2410746450ae6e5b388490a078".toList
  sha1_single text := by split <;> decide

/-- A scenario of `p`. -/
def releaseScenario : MergeScenario :=
  .ofRevisions "0123456789".toList "abcdef0123".toList []

/-- A scenario of either project. -/
def topicScenario : MergeScenario :=
  .ofRevisions "0123456789".toList "fedcba9876".toList []

/-- The projects and their scenarios are added, one of them twice. -/
def twoProjectsCalls : List ManifestStep :=
  [.call {} (.ofProject "p".toList "/p".toList), .call {} (.ofProject "n".toList "/q/".toList),
    .call {} (.ofScenario "p".toList "/p".toList topicScenario),
    .call {} (.ofScenario "n".toList "/q".toList topicScenario),
    .call {} (.ofScenario "p".toList "/p".toList topicScenario)]

/-- While the scenario of `p` is running it is asked for again, and another one is added. -/
def runningCalls : List ManifestStep :=
  [.setRunningSign
      (twoProjectsLayout.projectCacheDir
        (twoProjectsLayout.calcProjChecksum "p".toList "/p".toList)) topicScenario.name,
    .call {} (.ofScenario "p".toList "/p".toList topicScenario),
    .call {} (.ofScenario "p".toList "/p".toList releaseScenario),
    .call {} (.ofProject "n".toList "/q".toList)]

/-- Two projects in one manifest file, while the server goes on. -/
theorem manifest_complete_twoProjects :
    ∃ state later : ManifestState plainProjectsCodec,
      Steps (ManifestState.move twoProjectsLayout) (.fresh plainProjectsCodec) twoProjectsCalls
          state ∧
        Steps (ManifestState.move twoProjectsLayout) state runningCalls later ∧
          state.Complete twoProjectsLayout ∧ state.disk.Kept later.disk :=
  have first : Steps (ManifestState.move twoProjectsLayout) (.fresh plainProjectsCodec)
      twoProjectsCalls _ :=
    .of_replay rfl
  have second : Steps (ManifestState.move twoProjectsLayout) _ runningCalls _ :=
    .of_replay rfl
  ⟨_, _, first, second, manifest_complete first second⟩

end MergeBot
