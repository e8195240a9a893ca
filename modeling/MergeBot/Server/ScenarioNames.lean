import Mathlib.Data.List.Nodup
import MergeBot.Server.Manifest

/-!
# The names of merge scenarios

A request has its two revisions completed to full commit hashes, but the manifest,
the scenario directory and the running sign know a scenario by the name that the
first six characters of the hashes give. `scenariosApart_iff` says of every run
when two scenarios of one project never share any of them.
-/

namespace MergeBot

open Foundation

variable {codec : ProjectsCodec} (layout : CacheLayout)

/-- A full commit hash, as libgit2 prints it. -/
structure CommitHash where
  text : Text
  length_eq : text.length = 40
  hexadecimal : ∀ c ∈ text, c ∈ "0123456789abcdef".toList
deriving DecidableEq

/-- A request for a merge scenario, with its revisions completed to hashes. Without
a merge base, `base` is empty. -/
structure PostRequest where
  project : Text
  path : Text
  ours : CommitHash
  theirs : CommitHash
  base : Text
deriving DecidableEq

namespace PostRequest

variable (request : PostRequest)

def ms : MergeScenario :=
  .ofRevisions request.ours.text request.theirs.text request.base

def checkSum : Text := layout.calcProjChecksum request.project request.path

def msCacheDir : Text := layout.msCacheDir (request.checkSum layout) request.ms.name

/-- The call that registers the merge scenario. -/
def scenarioCall : MetadataCall := .ofScenario request.project request.path request.ms

/-- What the merge scenario of a request is. -/
def revisions : CommitHash × CommitHash := (request.ours, request.theirs)

end PostRequest

/-- What a request does to the files. -/
inductive PostAction
  | projectMetadata (access : FileAccess)
  | scenarioMetadata (access : FileAccess)
  /-- `goResolve` begins. -/
  | setRunningSign
  /-- `goResolve` fails, or the resolution ends. -/
  | removeRunningSign
deriving DecidableEq

/-- An action of a request as a step of the server. -/
def PostAction.step (request : PostRequest) : PostAction → ManifestStep
  | .projectMetadata access => .call access (.ofProject request.project request.path)
  | .scenarioMetadata access => .call access request.scenarioCall
  | .setRunningSign =>
      .setRunningSign (layout.projectCacheDir (request.checkSum layout)) request.ms.name
  | .removeRunningSign => .removeRunningSign (request.msCacheDir layout)

/-- The steps of the server for the actions of requests, in their order. -/
def postSteps (posts : List (PostRequest × PostAction)) : List ManifestStep :=
  posts.map fun (request, action) => action.step layout request

/-- One of the requests, for the project of a checksum. -/
def Posted (posts : List (PostRequest × PostAction)) (checkSum : Text) (request : PostRequest) :
    Prop :=
  request ∈ posts.map Prod.fst ∧ request.checkSum layout = checkSum

/-- A project has an entry with the hashes of a request. -/
def HasHashes (proj : Project) (request : PostRequest) (entry : MergeScenario) : Prop :=
  entry ∈ proj.mss ∧ entry.ours = request.ours.text ∧ entry.theirs = request.theirs.text

/-- The merge scenarios of one project share no state. -/
structure ScenariosApart (posts : List (PostRequest × PostAction)) (state : ManifestState codec)
    (checkSum : Text) : Prop where
  /-- Nothing that is stored for one of them is where another one looks. -/
  directories : ∀ first second, Posted layout posts checkSum first →
    Posted layout posts checkSum second → first.revisions ≠ second.revisions →
      first.msCacheDir layout ≠ second.msCacheDir layout ∧
        ∀ file other,
          joinPath (first.msCacheDir layout) file ≠ joinPath (second.msCacheDir layout) other
  /-- Registered scenarios are different entries of the manifest. -/
  entries : ∀ first second, Posted layout posts checkSum first →
    Posted layout posts checkSum second → first.revisions ≠ second.revisions →
      first.scenarioCall ∈ state.answered → second.scenarioCall ∈ state.answered →
        ∃ proj ∈ state.disk.listed layout checkSum, filename proj.cacheDir = checkSum ∧
          ∃ firstEntry secondEntry, firstEntry ≠ secondEntry ∧
            HasHashes proj first firstEntry ∧ HasHashes proj second secondEntry
  /-- A running sign has been set for the scenario that is taken to run. -/
  signs : ∀ request, Posted layout posts checkSum request →
    state.disk.running (request.msCacheDir layout) →
      ∃ setter, (setter, .setRunningSign) ∈ posts ∧ setter.checkSum layout = checkSum ∧
        setter.revisions = request.revisions

/-- Different scenarios that are asked for differ in the first six characters of
one of their hashes. -/
def DistinctPrefixes (posts : List (PostRequest × PostAction)) (checkSum : Text) : Prop :=
  ∀ first second, Posted layout posts checkSum first → Posted layout posts checkSum second →
    first.revisions ≠ second.revisions →
      first.ours.text.take 6 ≠ second.ours.text.take 6 ∨
        first.theirs.text.take 6 ≠ second.theirs.text.take 6

/-! ## Names and directories -/

section Names

variable {layout} {first second : PostRequest} {posts : List (PostRequest × PostAction)}
  {checkSum : Text}

theorem CommitHash.ext_text {hash other : CommitHash} (same : hash.text = other.text) :
    hash = other := by
  cases hash
  cases other
  simpa using same

/-- A hash has no separator. -/
theorem CommitHash.single (hash : CommitHash) : '/' ∉ hash.text := by
  intro member
  exact absurd (hash.hexadecimal _ member) (by decide)

/-- The name of a scenario tells both prefixes. -/
theorem ms_name_eq_iff : first.ms.name = second.ms.name ↔
    first.ours.text.take 6 = second.ours.text.take 6 ∧
      first.theirs.text.take 6 = second.theirs.text.take 6 := by
  have lengths : (first.ours.text.take 6).length = (second.ours.text.take 6).length := by
    simp only [List.length_take, first.ours.length_eq, second.ours.length_eq]
  constructor
  · intro same
    obtain ⟨ours, tails⟩ := List.append_inj same lengths
    exact ⟨ours, (List.cons.inj tails).2⟩
  · rintro ⟨ours, theirs⟩
    simp only [PostRequest.ms, MergeScenario.ofRevisions, ours, theirs]

/-- A name is the name of one directory. -/
theorem ms_name_single (request : PostRequest) : '/' ∉ request.ms.name := by
  simp only [PostRequest.ms, MergeScenario.ofRevisions, List.mem_append, List.mem_cons, not_or]
  refine ⟨fun member => ?_, by decide, fun member => ?_⟩
  · exact request.ours.single (List.mem_of_mem_take member)
  · exact request.theirs.single (List.mem_of_mem_take member)

/-- Files of one directory are files of one checksum and name. -/
theorem msCacheDir_file_inj {file other : Text}
    (same : joinPath (first.msCacheDir layout) file = joinPath (second.msCacheDir layout) other) :
    first.checkSum layout = second.checkSum layout ∧ first.ms.name = second.ms.name := by
  have below (request : PostRequest) (rest : Text) :
      joinPath (request.msCacheDir layout) rest =
        layout.msCacheDir (request.checkSum layout) (request.ms.name ++ '/' :: rest) := by
    simp only [PostRequest.msCacheDir, CacheLayout.msCacheDir, joinPath, List.append_assoc,
      List.cons_append]
  rw [below, below] at same
  obtain ⟨sums, names⟩ := layout.msCacheDir_inj (layout.calcProjChecksum_single _ _)
    (layout.calcProjChecksum_single _ _) same
  have heads := congrArg (List.takeWhile fun c => c ≠ '/') names
  rw [takeWhile_separator (ms_name_single first), takeWhile_separator (ms_name_single second)]
    at heads
  exact ⟨sums, heads⟩

/-- Two requests for one directory have one checksum and name. -/
theorem msCacheDir_eq (same : first.msCacheDir layout = second.msCacheDir layout) :
    first.checkSum layout = second.checkSum layout ∧ first.ms.name = second.ms.name :=
  msCacheDir_file_inj (congrArg (fun dir => joinPath dir []) same)

/-- With different prefixes, a name tells the hashes. -/
theorem DistinctPrefixes.revisions_eq (distinct : DistinctPrefixes layout posts checkSum)
    (firstPosted : Posted layout posts checkSum first)
    (secondPosted : Posted layout posts checkSum second)
    (named : first.ms.name = second.ms.name) : first.revisions = second.revisions := by
  by_contra different
  obtain ⟨ours, theirs⟩ := ms_name_eq_iff.mp named
  rcases distinct first second firstPosted secondPosted different with differ | differ
  · exact differ ours
  · exact differ theirs

end Names

/-! ## Runs of requests -/

/-- Everything that a state has comes from a step that was taken. -/
structure Explained (labels : List ManifestStep) (state : ManifestState codec) : Prop where
  called : ∀ call ∈ state.answered, ∃ access, .call access call ∈ labels
  signed : ∀ dir, state.disk.running dir →
    ∃ projDir msName, .setRunningSign projDir msName ∈ labels ∧ joinPath projDir msName = dir

section Runs

variable {layout} {state next : ManifestState codec} {labels : List ManifestStep}
  {label : ManifestStep}

theorem mem_noteAnswer {call other : MetadataCall} {answered : List MetadataCall}
    {outcome : Except ServerException Bool} (member : other ∈ noteAnswer call answered outcome) :
    other = call ∨ other ∈ answered := by
  unfold noteAnswer at member
  split at member
  · exact List.mem_cons.mp member
  · exact .inr member

/-- A step adds nothing but what it is. -/
theorem Explained.move (explained : Explained labels state)
    (moved : state.move layout label = some next) : Explained (labels ++ [label]) next := by
  have earlier {step : ManifestStep} (member : step ∈ labels) : step ∈ labels ++ [label] :=
    List.mem_append_left _ member
  have called (call : MetadataCall) (member : call ∈ state.answered) :
      ∃ access, .call access call ∈ labels ++ [label] := by
    obtain ⟨access, taken⟩ := explained.called call member
    exact ⟨access, earlier taken⟩
  have signed (dir : Text) (running : state.disk.running dir) :
      ∃ projDir msName, .setRunningSign projDir msName ∈ labels ++ [label] ∧
        joinPath projDir msName = dir := by
    obtain ⟨projDir, msName, taken, named⟩ := explained.signed dir running
    exact ⟨projDir, msName, earlier taken, named⟩
  cases label with
  | call access call =>
      obtain ⟨⟨after, outcome⟩, returned, rfl⟩ := Option.map_eq_some_iff.mp moved
      refine ⟨fun other member => ?_, fun dir running => signed dir ?_⟩
      · rcases mem_noteAnswer member with rfl | old
        · exact ⟨access, List.mem_append_right _ List.mem_cons_self⟩
        · exact called other old
      · exact call.run_running returned ▸ running
  | setRunningSign projDir msName =>
      obtain rfl := Option.some.inj moved
      refine ⟨called, fun dir running => ?_⟩
      by_cases same : dir = joinPath projDir msName
      · exact ⟨projDir, msName, List.mem_append_right _ List.mem_cons_self, same.symm⟩
      · simp only [Disk.setRunningSign, same, if_false] at running
        exact signed dir running
  | removeRunningSign msPath =>
      obtain rfl := Option.some.inj moved
      refine ⟨called, fun dir running => ?_⟩
      rw [Disk.removeRunningSign_running] at running
      split at running
      · exact absurd running Bool.false_ne_true
      · exact signed dir running

/-- Every run explains its state. -/
theorem Explained.of_run (run : Steps (ManifestState.move layout) (.fresh codec) labels state) :
    Explained labels state := by
  induction run with
  | refl =>
      exact ⟨fun _ impossible => absurd impossible List.not_mem_nil,
        fun _ impossible => absurd impossible Bool.false_ne_true⟩
  | step _ moved explained => exact explained.move moved

variable {posts : List (PostRequest × PostAction)} {checkSum : Text} {request : PostRequest}

/-- Only the scenario calls of requests register scenarios. -/
theorem Explained.posted (explained : Explained (postSteps layout posts) state)
    {project path : Text} {ms : MergeScenario}
    (registered : .ofScenario project path ms ∈ state.answered)
    (named : layout.calcProjChecksum project path = checkSum) :
    ∃ poster, Posted layout posts checkSum poster ∧ poster.ms = ms := by
  obtain ⟨access, taken⟩ := explained.called _ registered
  obtain ⟨⟨poster, action⟩, member, same⟩ := List.mem_map.mp taken
  have posted : poster ∈ posts.map Prod.fst := List.mem_map_of_mem member
  cases action with
  | projectMetadata other => simp [PostAction.step] at same
  | scenarioMetadata other =>
      simp only [PostAction.step, PostRequest.scenarioCall, ManifestStep.call.injEq,
        MetadataCall.ofScenario.injEq] at same
      obtain ⟨-, rfl, rfl, rfl⟩ := same
      exact ⟨poster, ⟨posted, named⟩, rfl⟩
  | setRunningSign => simp [PostAction.step] at same
  | removeRunningSign => simp [PostAction.step] at same

/-- Only requests set running signs. -/
theorem Explained.setter (explained : Explained (postSteps layout posts) state)
    (running : state.disk.running (request.msCacheDir layout)) :
    ∃ setter, (setter, .setRunningSign) ∈ posts ∧
      setter.msCacheDir layout = request.msCacheDir layout := by
  obtain ⟨projDir, msName, taken, named⟩ := explained.signed _ running
  obtain ⟨⟨setter, action⟩, member, same⟩ := List.mem_map.mp taken
  cases action with
  | projectMetadata other => simp [PostAction.step] at same
  | scenarioMetadata other => simp [PostAction.step] at same
  | setRunningSign =>
      simp only [PostAction.step, ManifestStep.setRunningSign.injEq] at same
      obtain ⟨rfl, rfl⟩ := same
      exact ⟨setter, member, named⟩
  | removeRunningSign => simp [PostAction.step] at same

/-- With different prefixes, a registered scenario has an entry with its hashes. -/
theorem registered_entry (complete : state.Complete layout)
    (explained : Explained (postSteps layout posts) state)
    (distinct : DistinctPrefixes layout posts checkSum) (posted : Posted layout posts checkSum request)
    (registered : request.scenarioCall ∈ state.answered) :
    ∃ proj ∈ state.disk.listed layout checkSum, filename proj.cacheDir = checkSum ∧
      ∃ entry, HasHashes proj request entry := by
  obtain ⟨proj, member, named, entry, inProject, isName⟩ := complete.recorded _ registered
  have checkSumEq : layout.calcProjChecksum request.project request.path = checkSum := posted.2
  rw [checkSumEq] at member named
  obtain ⟨project, path, sameSum, added⟩ := complete.added.scenarios _ proj member entry inProject
  -- the entry was added for a request with this name, which has these hashes
  obtain ⟨poster, posterPosted, rfl⟩ := explained.posted added (sameSum.trans named)
  have revisions := distinct.revisions_eq posterPosted posted isName
  obtain ⟨ours, theirs⟩ := Prod.mk.inj revisions
  exact ⟨proj, member, named, poster.ms, inProject, congrArg CommitHash.text ours,
    congrArg CommitHash.text theirs⟩

/-- A project is listed once. -/
theorem listed_unique (distinct : state.disk.Distinct layout) {proj other : Project}
    (member : proj ∈ state.disk.listed layout checkSum)
    (otherMember : other ∈ state.disk.listed layout checkSum)
    (same : filename proj.cacheDir = filename other.cacheDir) : proj = other :=
  List.inj_on_of_nodup_map (distinct.projects _) member otherMember same

/-- With different prefixes, two registered scenarios have two entries. -/
theorem registered_entries (complete : state.Complete layout)
    (explained : Explained (postSteps layout posts) state)
    (distinct : DistinctPrefixes layout posts checkSum) {first second : PostRequest}
    (firstPosted : Posted layout posts checkSum first)
    (secondPosted : Posted layout posts checkSum second)
    (different : first.revisions ≠ second.revisions)
    (firstRegistered : first.scenarioCall ∈ state.answered)
    (secondRegistered : second.scenarioCall ∈ state.answered) :
    ∃ proj ∈ state.disk.listed layout checkSum, filename proj.cacheDir = checkSum ∧
      ∃ firstEntry secondEntry, firstEntry ≠ secondEntry ∧
        HasHashes proj first firstEntry ∧ HasHashes proj second secondEntry := by
  obtain ⟨proj, member, named, firstEntry, firstHashes⟩ :=
    registered_entry complete explained distinct firstPosted firstRegistered
  obtain ⟨other, otherMember, otherNamed, secondEntry, secondHashes⟩ :=
    registered_entry complete explained distinct secondPosted secondRegistered
  obtain rfl := listed_unique complete.distinct member otherMember (named.trans otherNamed.symm)
  refine ⟨proj, member, named, firstEntry, secondEntry, ?_, firstHashes, secondHashes⟩
  rintro rfl
  have ours := CommitHash.ext_text (firstHashes.2.1.symm.trans secondHashes.2.1)
  have theirs := CommitHash.ext_text (firstHashes.2.2.symm.trans secondHashes.2.2)
  exact different (Prod.ext ours theirs)

end Runs

/-- In every run of requests: the merge scenarios of a project share no state, if and
only if those that are asked for differ in the first six characters of a hash. -/
theorem scenariosApart_iff {layout : CacheLayout} {posts : List (PostRequest × PostAction)}
    {state : ManifestState codec}
    (run : Steps (ManifestState.move layout) (.fresh codec) (postSteps layout posts) state)
    (checkSum : Text) :
    ScenariosApart layout posts state checkSum ↔ DistinctPrefixes layout posts checkSum := by
  have explained := Explained.of_run run
  have complete : state.Complete layout :=
    run.invariant ManifestState.move_complete (ManifestState.fresh_complete layout codec)
  constructor
  · intro apart first second firstPosted secondPosted different
    by_contra alike
    push Not at alike
    apply (apart.directories first second firstPosted secondPosted different).1
    rw [PostRequest.msCacheDir, PostRequest.msCacheDir, firstPosted.2, secondPosted.2,
      ms_name_eq_iff.mpr alike]
  · intro distinct
    refine ⟨?_, ?_, ?_⟩
    · intro first second firstPosted secondPosted different
      have named : first.ms.name ≠ second.ms.name := fun same =>
        different (distinct.revisions_eq firstPosted secondPosted same)
      exact ⟨fun same => named (msCacheDir_eq same).2,
        fun file other same => named (msCacheDir_file_inj same).2⟩
    · intro first second firstPosted secondPosted different
      exact registered_entries complete explained distinct firstPosted secondPosted different
    · intro request posted running
      obtain ⟨setter, member, same⟩ := explained.setter running
      obtain ⟨sums, named⟩ := msCacheDir_eq same
      have setterPosted : Posted layout posts checkSum setter :=
        ⟨List.mem_map_of_mem member, sums.trans posted.2⟩
      exact ⟨setter, member, setterPosted.2, distinct.revisions_eq setterPosted posted named⟩

/-! ## Two scenarios with one name -/

/-- A hash of one digit repeated, behind six given digits. -/
def plainHash (digit : Char) (isDigit : digit ∈ "0123456789abcdef".toList) : CommitHash where
  text := "012345".toList ++ List.replicate 34 digit
  length_eq := by simp
  hexadecimal := by
    have digits : "012345".toList.all (fun c => decide (c ∈ "0123456789abcdef".toList)) := by decide
    intro c member
    rcases List.mem_append.mp member with known | repeated
    · exact of_decide_eq_true (List.all_eq_true.mp digits c known)
    · exact List.eq_of_mem_replicate repeated ▸ isDigit

/-- A request for the project `p` at `/p`. -/
def hashRequest (ours : CommitHash) : PostRequest where
  project := "p".toList
  path := "/p".toList
  ours := ours
  theirs := plainHash 'a' (by decide)
  base := []

/-- Two requests, whose hashes of our side differ behind their sixth character. -/
def firstAlike : PostRequest := hashRequest (plainHash 'b' (by decide))

def secondAlike : PostRequest := hashRequest (plainHash 'c' (by decide))

/-- The second one is posted when the resolution of the first has ended. -/
def alikePosts : List (PostRequest × PostAction) :=
  [(firstAlike, .projectMetadata {}), (firstAlike, .scenarioMetadata {}),
    (firstAlike, .setRunningSign), (firstAlike, .removeRunningSign),
    (secondAlike, .projectMetadata {}), (secondAlike, .scenarioMetadata {})]

theorem alike_revisions_ne : firstAlike.revisions ≠ secondAlike.revisions := by
  intro same
  have texts := congrArg (fun revisions => revisions.1.text) same
  exact absurd texts (by decide)

/-- The rule at this run. -/
theorem scenariosApart_alikePosts :
    ∃ state : ManifestState plainProjectsCodec,
      Steps (ManifestState.move oneProjectLayout) (.fresh plainProjectsCodec)
          (postSteps oneProjectLayout alikePosts) state ∧
        (ScenariosApart oneProjectLayout alikePosts state (firstAlike.checkSum oneProjectLayout) ↔
          DistinctPrefixes oneProjectLayout alikePosts (firstAlike.checkSum oneProjectLayout)) :=
  have run : Steps (ManifestState.move oneProjectLayout) (.fresh plainProjectsCodec)
      (postSteps oneProjectLayout alikePosts) _ := .of_replay rfl
  ⟨_, run, scenariosApart_iff run _⟩

/-- Both requests are answered, but the second scenario is not registered and has
the directory of the first. -/
theorem alikePosts_share :
    ∃ state : ManifestState plainProjectsCodec,
      Steps (ManifestState.move oneProjectLayout) (.fresh plainProjectsCodec)
          (postSteps oneProjectLayout alikePosts) state ∧
        firstAlike.scenarioCall ∈ state.answered ∧ secondAlike.scenarioCall ∈ state.answered ∧
          (state.disk.listed oneProjectLayout (firstAlike.checkSum oneProjectLayout)).map
              Project.mss = [[firstAlike.ms]] ∧
            ¬ ScenariosApart oneProjectLayout alikePosts state
              (firstAlike.checkSum oneProjectLayout) := by
  refine ⟨_, .of_replay rfl, .tail _ (.tail _ (.head _)), .head _, rfl, fun apart => ?_⟩
  have firstPosted : Posted oneProjectLayout alikePosts (firstAlike.checkSum oneProjectLayout)
      firstAlike := ⟨by simp [alikePosts], rfl⟩
  have secondPosted : Posted oneProjectLayout alikePosts (firstAlike.checkSum oneProjectLayout)
      secondAlike := ⟨by simp [alikePosts], rfl⟩
  exact (apart.directories _ _ firstPosted secondPosted alike_revisions_ne).1 rfl

end MergeBot
