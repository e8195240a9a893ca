import Mathlib.Data.List.Nodup
import Mathlib.Tactic.IntervalCases
import MergeBot.Server.Scenario

/-!
# At most one resolution of a merge scenario

Requests run concurrently; their steps are the two metadata calls, each under the
mutex, the setting of the running sign, the start of the resolution and what the
resolution does to the sign. `atMostOne_of_careful` says under which condition on
the steps no two resolutions of one scenario are ever active at once;
`overlap_of_careless` continues a step that is not careful to two active
resolutions, and `twoRequests_overlap` is such a run from the beginning.
`scenario_assertions_hold` shows that every run keeps the order of the calls that
the assertions ask for.
-/

namespace MergeBot

open Foundation

variable {codec : ProjectsCodec} (layout : CacheLayout)

/-- How far a request has come. -/
inductive RequestPhase
  /-- Before `checkAndAddProjectMetadata`. -/
  | arrived
  /-- Before `checkAndAddMSMetadata`. -/
  | listed
  /-- In `goResolve`, before the running sign. -/
  | admitted
  /-- Behind the running sign. -/
  | signed
  /-- The asynchronous resolution goes on. -/
  | resolving
  /-- The last handler has removed the sign, and the resolution is about to end. -/
  | reported
  | done
deriving DecidableEq, Repr

/-- The resolution is active. -/
def RequestPhase.Active (phase : RequestPhase) : Prop :=
  phase = .resolving ∨ phase = .reported

/-- The files and the requests. -/
structure ServerState (codec : ProjectsCodec) where
  disk : Disk codec
  phase : Nat → RequestPhase

/-- A step of a request, with what it meets. -/
inductive RequestStep
  | projectMetadata (access : FileAccess)
  | scenarioMetadata (access : FileAccess)
  | setRunningSign
  | start (answers : StartAnswers)
  | lastHandler
  | finish

/-- `handleMergeScenario` behind the project's call: without the project's
metadata the scenario's are not checked. -/
def afterProject : Except ServerException Bool → RequestPhase
  | .ok true => .listed
  | .ok false => .admitted
  | .error _ => .done

/-- `handleMergeScenario` behind the scenario's call, whatever that returns. -/
def afterScenario : Except ServerException Bool → RequestPhase
  | .ok _ => .admitted
  | .error _ => .done

def afterStart : Except ServerException (List Text) → RequestPhase
  | .ok _ => .resolving
  | .error _ => .done

/-- Move one request on. -/
def ServerState.advance (state : ServerState codec) (index : Nat) (disk : Disk codec)
    (phase : RequestPhase) : ServerState codec where
  disk := disk
  phase other := if other = index then phase else state.phase other

/-- A step of the request with an index. -/
def ServerState.move (requests : Nat → ResolveRequest) (state : ServerState codec) :
    Nat × RequestStep → Option (ServerState codec)
  | (index, step) =>
      let request := requests index
      match step, state.phase index with
      | .projectMetadata access, .arrived =>
          let result := checkAndAddProjectMetadata layout access request.project request.path
            state.disk
          some (state.advance index result.1 (afterProject result.2))
      | .scenarioMetadata access, .listed =>
          (checkAndAddMSMetadata layout access request.project request.path request.ms
            state.disk).map fun result =>
              state.advance index result.1 (afterScenario result.2)
      | .setRunningSign, .admitted =>
          some (state.advance index (state.disk.setRunningSign
            (layout.projectCacheDir (request.checkSum layout)) request.ms.name) .signed)
      | .start answers, .signed =>
          let result := startResolution layout answers request state.disk
          some (state.advance index result.1 (afterStart result.2))
      | .lastHandler, .resolving =>
          some (state.advance index
            (state.disk.removeRunningSign (request.mergeScenarioPath layout)) .reported)
      | .finish, .resolving | .finish, .reported =>
          some (state.advance index
            (state.disk.removeRunningSign (request.mergeScenarioPath layout)) .done)
      | _, _ => none

/-- At most one resolution of every merge scenario is active. -/
def ServerState.AtMostOne (requests : Nat → ResolveRequest) (state : ServerState codec) : Prop :=
  ∀ first second,
    (requests first).msCacheDir layout = (requests second).msCacheDir layout →
      (state.phase first).Active → (state.phase second).Active → first = second

/-- The metadata calls can open the manifest file, and a request does not ask for
its scenario while another one is between its own question and its running sign,
or between the last handler and its end. -/
def Careful (requests : Nat → ResolveRequest) (state : ServerState codec) :
    Nat × RequestStep → Prop
  | (index, step) => match step with
    | .projectMetadata access => access.readable ∧ access.writable
    | .scenarioMetadata access => access.readable ∧ access.writable ∧
        ∀ other, other ≠ index →
          (requests other).msCacheDir layout = (requests index).msCacheDir layout →
            state.phase other ≠ .admitted ∧ state.phase other ≠ .reported
    | _ => True

/-! ## What a step does -/

/-- What a step of a request can do to the files, and where the request is then. -/
inductive RequestMove (requests : Nat → ResolveRequest) (state : ServerState codec) (index : Nat) :
    RequestStep → Disk codec → RequestPhase → Prop
  | projectMetadata {access : FileAccess} {after : Disk codec}
      {outcome : Except ServerException Bool} (phase : state.phase index = .arrived)
      (called : (MetadataCall.ofProject (requests index).project (requests index).path).run layout
        access state.disk = some (after, outcome)) :
      RequestMove requests state index (.projectMetadata access) after (afterProject outcome)
  | scenarioMetadata {access : FileAccess} {after : Disk codec}
      {outcome : Except ServerException Bool} (phase : state.phase index = .listed)
      (called : (MetadataCall.ofScenario (requests index).project (requests index).path
        (requests index).ms).run layout access state.disk = some (after, outcome)) :
      RequestMove requests state index (.scenarioMetadata access) after (afterScenario outcome)
  | setRunningSign (phase : state.phase index = .admitted) :
      RequestMove requests state index .setRunningSign
        (state.disk.setRunningSign (layout.projectCacheDir ((requests index).checkSum layout))
          (requests index).ms.name) .signed
  | start {answers : StartAnswers} {after : Disk codec}
      {outcome : Except ServerException (List Text)} (phase : state.phase index = .signed)
      (ended : StartEnd layout answers (requests index) state.disk after outcome) :
      RequestMove requests state index (.start answers) after (afterStart outcome)
  | lastHandler (phase : state.phase index = .resolving) :
      RequestMove requests state index .lastHandler
        (state.disk.removeRunningSign ((requests index).msCacheDir layout)) .reported
  | finish (active : (state.phase index).Active) :
      RequestMove requests state index .finish
        (state.disk.removeRunningSign ((requests index).msCacheDir layout)) .done

/-- These are all the steps. -/
theorem ServerState.move_cases {layout : CacheLayout} {requests : Nat → ResolveRequest}
    {state next : ServerState codec} {index : Nat} {step : RequestStep}
    (moved : state.move layout requests (index, step) = some next) :
    ∃ disk phase, RequestMove layout requests state index step disk phase ∧
      next = state.advance index disk phase := by
  simp only [ServerState.move, mergeScenarioPath_eq] at moved
  split at moved
  · obtain rfl := Option.some.inj moved
    exact ⟨_, _, .projectMetadata ‹_› rfl, rfl⟩
  · obtain ⟨⟨after, outcome⟩, called, rfl⟩ := Option.map_eq_some_iff.mp moved
    exact ⟨_, _, .scenarioMetadata ‹_› called, rfl⟩
  · obtain rfl := Option.some.inj moved
    exact ⟨_, _, .setRunningSign ‹_›, rfl⟩
  · obtain rfl := Option.some.inj moved
    exact ⟨_, _, .start ‹_› (startResolution_end rfl), rfl⟩
  · obtain rfl := Option.some.inj moved
    exact ⟨_, _, .lastHandler ‹_›, rfl⟩
  · obtain rfl := Option.some.inj moved
    exact ⟨_, _, .finish (.inl ‹_›), rfl⟩
  · obtain rfl := Option.some.inj moved
    exact ⟨_, _, .finish (.inr ‹_›), rfl⟩
  · simp at moved

theorem ServerState.advance_phase (state : ServerState codec) (index : Nat) (disk : Disk codec)
    (phase : RequestPhase) : (state.advance index disk phase).phase index = phase :=
  if_pos rfl

theorem ServerState.advance_other (state : ServerState codec) {index other : Nat}
    (different : other ≠ index) (disk : Disk codec) (phase : RequestPhase) :
    (state.advance index disk phase).phase other = state.phase other :=
  if_neg different

/-- The sign and the start, one after the other, are `goResolve`. -/
theorem goResolve_steps {layout : CacheLayout} {requests : Nat → ResolveRequest}
    {state : ServerState codec} {index : Nat} (admitted : state.phase index = .admitted)
    (answers : StartAnswers) :
    ∃ final, Steps (ServerState.move layout requests) state
        [(index, .setRunningSign), (index, .start answers)] final ∧
      final.disk = (goResolve layout answers (requests index) state.disk).1 ∧
      final.phase index =
        afterStart (goResolve layout answers (requests index) state.disk).2 ∧
      ∀ other, other ≠ index → final.phase other = state.phase other := by
  let signed := state.advance index (state.disk.setRunningSign
    (layout.projectCacheDir ((requests index).checkSum layout)) (requests index).ms.name) .signed
  have isSigned : signed.phase index = .signed := state.advance_phase index _ _
  have signs : state.move layout requests (index, .setRunningSign) = some signed := by
    simp only [ServerState.move, admitted, signed]
  have starts : signed.move layout requests (index, .start answers) =
      some (signed.advance index (goResolve layout answers (requests index) state.disk).1
        (afterStart (goResolve layout answers (requests index) state.disk).2)) := by
    simp only [ServerState.move, isSigned]
    rfl
  refine ⟨_, .step (.step .refl signs) starts, rfl, signed.advance_phase index _ _, ?_⟩
  intro other different
  rw [signed.advance_other different, state.advance_other different]

/-- Behind the sign only the request's own sign changes, and only when it fails. -/
theorem StartEnd.frame {layout : CacheLayout} {answers : StartAnswers} {request : ResolveRequest}
    {disk after : Disk codec} {outcome : Except ServerException (List Text)}
    (ended : StartEnd layout answers request disk after outcome) :
    after.manifests = disk.manifests ∧
      ∀ path, path ≠ request.msCacheDir layout → after.running path = disk.running path := by
  cases ended with
  | unlocked => exact ⟨rfl, fun path other => if_neg other⟩
  | command | directory | started => exact ⟨rfl, fun _ _ => rfl⟩

/-- A step keeps every entry of the manifest. -/
theorem RequestMove.kept {layout : CacheLayout} {requests : Nat → ResolveRequest}
    {state : ServerState codec} {index : Nat} {step : RequestStep} {disk : Disk codec}
    {phase : RequestPhase} (does : RequestMove layout requests state index step disk phase) :
    state.disk.Kept disk := by
  cases does with
  | projectMetadata _ called => exact MetadataCall.run_kept called
  | scenarioMetadata _ called => exact MetadataCall.run_kept called
  | setRunningSign | lastHandler | finish => exact .of_manifests rfl
  | start _ ended => exact .of_manifests ended.frame.1

/-! ## The assertions on the manifest -/

/-- The project of every request that is about to ask for its scenario is there. -/
def ServerState.Prepared (requests : Nat → ResolveRequest) (state : ServerState codec) : Prop :=
  ∀ index, state.phase index = .listed →
    state.disk.HasProject layout ((requests index).checkSum layout)

theorem ServerState.Prepared.move {layout : CacheLayout} {requests : Nat → ResolveRequest}
    {state next : ServerState codec} {label : Nat × RequestStep}
    (prepared : state.Prepared layout requests)
    (moved : state.move layout requests label = some next) : next.Prepared layout requests := by
  obtain ⟨index, step⟩ := label
  obtain ⟨disk, phase, does, rfl⟩ := ServerState.move_cases moved
  intro other isListed
  simp only [ServerState.advance] at isListed ⊢
  by_cases isIndex : other = index
  · rw [if_pos isIndex] at isListed
    subst isIndex
    cases does with
    | @projectMetadata _ _ outcome _ called =>
        cases outcome with
        | error thrown => simp [afterProject] at isListed
        | ok success =>
            cases success with
            | false => simp [afterProject] at isListed
            | true => exact MetadataCall.run_recorded called
    | @scenarioMetadata _ _ outcome => cases outcome <;> simp [afterScenario] at isListed
    | setRunningSign | lastHandler | finish => simp at isListed
    | @start _ _ outcome => cases outcome <;> simp [afterStart] at isListed
  · rw [if_neg isIndex] at isListed
    exact does.kept.hasProject layout (prepared other isListed)

/-- In every run the assertions of `checkAndAddMSMetadata` hold when a request
calls it, so that the call returns or throws. -/
theorem scenario_assertions_hold {layout : CacheLayout} {requests : Nat → ResolveRequest}
    {start state : ServerState codec} {labels : List (Nat × RequestStep)}
    (arrived : ∀ index, start.phase index = .arrived)
    (run : Steps (ServerState.move layout requests) start labels state) {index : Nat}
    (isListed : state.phase index = .listed) (access : FileAccess) :
    (state.move layout requests (index, .scenarioMetadata access)).isSome := by
  have initially : start.Prepared layout requests := by
    intro index isListed
    rw [arrived index] at isListed
    simp at isListed
  have prepared := run.invariant ServerState.Prepared.move initially
  have returns := scenario_call_returns (prepared index isListed) access (requests index).ms
  simp only [ServerState.move, isListed, Option.isSome_map]
  exact returns

/-! ## The invariant -/

namespace RequestPhase

/-- The request has been let through, and has not ended. -/
def Inside (phase : RequestPhase) : Prop :=
  phase = .admitted ∨ phase = .signed ∨ phase = .resolving ∨ phase = .reported

/-- The request holds the running sign. -/
def Holds (phase : RequestPhase) : Prop := phase = .signed ∨ phase = .resolving

instance (phase : RequestPhase) : Decidable phase.Active :=
  inferInstanceAs (Decidable (_ ∨ _))

instance (phase : RequestPhase) : Decidable phase.Inside :=
  inferInstanceAs (Decidable (_ ∨ _ ∨ _ ∨ _))

instance (phase : RequestPhase) : Decidable phase.Holds :=
  inferInstanceAs (Decidable (_ ∨ _))

theorem listed_outside : ¬ Inside .listed := by decide

theorem done_outside : ¬ Inside .done := by decide

theorem admitted_free : ¬ Holds .admitted := by decide

theorem reported_free : ¬ Holds .reported := by decide

theorem done_free : ¬ Holds .done := by decide

theorem Active.inside {phase : RequestPhase} (active : phase.Active) : phase.Inside := by
  rcases active with rfl | rfl <;> decide

theorem Holds.inside {phase : RequestPhase} (holds : phase.Holds) : phase.Inside := by
  rcases holds with rfl | rfl <;> decide

end RequestPhase

/-- One request at most is inside for every scenario; its scenario is in the
manifest, and from the running sign on the sign is there. -/
structure ServerState.Exclusive (requests : Nat → ResolveRequest) (state : ServerState codec) :
    Prop where
  distinct : state.disk.Distinct layout
  one : ∀ first second,
    (requests first).msCacheDir layout = (requests second).msCacheDir layout →
      (state.phase first).Inside → (state.phase second).Inside → first = second
  recorded : ∀ index, (state.phase index).Inside →
    state.disk.HasScenario layout ((requests index).checkSum layout) (requests index).ms.name
  sign : ∀ index, (state.phase index).Holds →
    state.disk.running ((requests index).msCacheDir layout) = true

section Steps

variable {layout} {requests : Nat → ResolveRequest} {state next : ServerState codec} {index : Nat}

/-- Nobody else is inside for the scenario of a request. -/
def ServerState.Alone (layout : CacheLayout) (requests : Nat → ResolveRequest)
    (state : ServerState codec) (index : Nat) : Prop :=
  ∀ other, other ≠ index →
    (requests other).msCacheDir layout = (requests index).msCacheDir layout →
      ¬ (state.phase other).Inside

theorem ServerState.Exclusive.alone (exclusive : state.Exclusive layout requests)
    (inside : (state.phase index).Inside) : state.Alone layout requests index :=
  fun other different same insideToo => different (exclusive.one other index same insideToo inside)

/-- A request may move on when it is alone, or when it stays outside and leaves
the running signs as they are. -/
theorem ServerState.Exclusive.advance (exclusive : state.Exclusive layout requests)
    {disk : Disk codec} {phase : RequestPhase} (kept : state.disk.Kept disk)
    (distinct : disk.Distinct layout)
    (frame : ∀ path, path ≠ (requests index).msCacheDir layout →
      disk.running path = state.disk.running path)
    (safe : state.Alone layout requests index ∨
      ¬ phase.Inside ∧ disk.running = state.disk.running)
    (recorded : phase.Inside →
      disk.HasScenario layout ((requests index).checkSum layout) (requests index).ms.name)
    (sign : phase.Holds → disk.running ((requests index).msCacheDir layout) = true) :
    (state.advance index disk phase).Exclusive layout requests where
  distinct := distinct
  one := by
    intro first second same firstInside secondInside
    simp only [ServerState.advance] at firstInside secondInside
    by_cases isFirst : first = index <;> by_cases isSecond : second = index
    · exact isFirst.trans isSecond.symm
    · rw [if_pos isFirst] at firstInside
      rw [if_neg isSecond] at secondInside
      rcases safe with alone | ⟨outside, -⟩
      · exact absurd secondInside (alone second isSecond (isFirst ▸ same.symm))
      · exact absurd firstInside outside
    · rw [if_neg isFirst] at firstInside
      rw [if_pos isSecond] at secondInside
      rcases safe with alone | ⟨outside, -⟩
      · exact absurd firstInside (alone first isFirst (isSecond ▸ same))
      · exact absurd secondInside outside
    · rw [if_neg isFirst] at firstInside
      rw [if_neg isSecond] at secondInside
      exact exclusive.one first second same firstInside secondInside
  recorded := by
    intro other inside
    simp only [ServerState.advance] at inside ⊢
    by_cases isIndex : other = index
    · rw [if_pos isIndex] at inside
      exact isIndex ▸ recorded inside
    · rw [if_neg isIndex] at inside
      exact kept.hasScenario layout (exclusive.recorded other inside)
  sign := by
    intro other holds
    simp only [ServerState.advance] at holds ⊢
    by_cases isIndex : other = index
    · rw [if_pos isIndex] at holds
      exact isIndex ▸ sign holds
    · rw [if_neg isIndex] at holds
      have before := exclusive.sign other holds
      by_cases same : (requests other).msCacheDir layout = (requests index).msCacheDir layout
      · rcases safe with alone | ⟨-, unchanged⟩
        · exact absurd holds.inside (alone other isIndex same)
        · rw [unchanged, before]
      · rw [frame _ same, before]

/-- A project is found under its checksum only. -/
theorem Disk.Distinct.found_unique {disk : Disk codec} (distinct : disk.Distinct layout)
    {checkSum : Text} {proj other : Project}
    (found : findProject checkSum (disk.listed layout checkSum) = some proj)
    (member : other ∈ disk.listed layout checkSum) (named : filename other.cacheDir = checkSum) :
    other = proj := by
  have unique := distinct.projects (layout.manifestPath checkSum)
  obtain ⟨foundMember, foundNamed⟩ := findProject_some found
  exact List.inj_on_of_nodup_map unique member foundMember (named.trans foundNamed.symm)

/-- A careful request that asks for its scenario and is let through is alone. -/
theorem admitted_alone (exclusive : state.Exclusive layout requests) {access : FileAccess}
    {disk : Disk codec}
    (others : ∀ other, other ≠ index →
      (requests other).msCacheDir layout = (requests index).msCacheDir layout →
        state.phase other ≠ .admitted ∧ state.phase other ≠ .reported)
    (called : checkAndAddMSMetadata layout access (requests index).project (requests index).path
      (requests index).ms state.disk = some (disk, .ok true)) :
    state.Alone layout requests index := by
  intro other different same inside
  have names := layout.msCacheDir_inj (layout.calcProjChecksum_single _ _)
    (layout.calcProjChecksum_single _ _) same
  have holds : (state.phase other).Holds := by
    have notBetween := others other different same
    rcases inside with phase | phase | phase | phase
    · exact absurd phase notBetween.1
    · exact .inl phase
    · exact .inr phase
    · exact absurd phase notBetween.2
  rcases checkAndAddMSMetadata_cases layout rfl called with
    ⟨-, failed⟩ | ⟨-, -, returned⟩ | ⟨-, ⟨proj, found, absent⟩, -⟩
  · exact failed.not_true
  · -- the scenario was found, so its sign was looked for
    have sign := exclusive.sign other holds
    rw [same, ResolveRequest.msCacheDir, ResolveRequest.checkSum] at sign
    rw [if_pos sign] at returned
    simp at returned
  · -- the scenario was not found, but the other request has recorded it
    obtain ⟨entry, member, named, ms, inEntry, isName⟩ := exclusive.recorded other inside
    obtain ⟨sums, scenario⟩ := names
    simp only [ResolveRequest.checkSum] at member named
    rw [sums] at member named
    obtain rfl := exclusive.distinct.found_unique found member named
    exact absent ms inEntry (isName.trans scenario)

/-- A request that stays outside after a metadata call keeps the invariant. -/
theorem ServerState.Exclusive.call_outside (exclusive : state.Exclusive layout requests)
    {access : FileAccess} {call : MetadataCall} {after : Disk codec}
    {outcome : Except ServerException Bool}
    (called : call.run layout access state.disk = some (after, outcome)) {phase : RequestPhase}
    (outside : ¬ phase.Inside) : (state.advance index after phase).Exclusive layout requests :=
  exclusive.advance (call.run_kept called) (call.run_distinct called exclusive.distinct)
    (fun path _ => congrFun (call.run_running called) path)
    (.inr ⟨outside, call.run_running called⟩) (fun inside => absurd inside outside)
    (fun holds => absurd holds.inside outside)

/-- A request that is inside may remove its sign, when it does not hold it any more. -/
theorem ServerState.Exclusive.drop_sign (exclusive : state.Exclusive layout requests)
    (inside : (state.phase index).Inside) {phase : RequestPhase} (free : ¬ phase.Holds) :
    (state.advance index (state.disk.removeRunningSign
      ((requests index).msCacheDir layout)) phase).Exclusive layout requests := by
  refine exclusive.advance (.of_manifests rfl) (exclusive.distinct.of_manifests rfl)
    (fun path other => if_neg other) (.inl (exclusive.alone inside)) (fun _ => ?_)
    (fun holds => absurd holds free)
  exact exclusive.recorded index inside

/-- A careful step keeps the invariant. -/
theorem ServerState.Exclusive.move {label : Nat × RequestStep}
    (exclusive : state.Exclusive layout requests) (careful : Careful layout requests state label)
    (moved : state.move layout requests label = some next) :
    next.Exclusive layout requests := by
  obtain ⟨index, step⟩ := label
  obtain ⟨disk, phase, does, rfl⟩ := ServerState.move_cases moved
  cases does with
  | @projectMetadata access _ outcome _ called =>
      -- the request is listed, or gives up
      apply exclusive.call_outside called
      cases outcome with
      | error thrown => exact RequestPhase.done_outside
      | ok success =>
          cases success with
          | false => exact absurd rfl (MetadataCall.run_ne_false called careful)
          | true => exact RequestPhase.listed_outside
  | @scenarioMetadata access _ outcome _ called =>
      -- the request is alone, or gives up
      cases outcome with
      | error thrown => exact exclusive.call_outside called RequestPhase.done_outside
      | ok success =>
          cases success with
          | false =>
              exact absurd rfl (MetadataCall.run_ne_false called ⟨careful.1, careful.2.1⟩)
          | true =>
              refine exclusive.advance (MetadataCall.run_kept called)
                (MetadataCall.run_distinct called exclusive.distinct)
                (fun path _ => congrFun (MetadataCall.run_running called) path)
                (.inl (admitted_alone exclusive careful.2.2 called)) (fun _ => ?_)
                (fun holds => absurd holds RequestPhase.admitted_free)
              exact MetadataCall.run_recorded called
  | setRunningSign phase =>
      have inside : (state.phase index).Inside := .inl phase
      exact exclusive.advance (.of_manifests rfl) (exclusive.distinct.of_manifests rfl)
        (fun path other => if_neg other) (.inl (exclusive.alone inside))
        (fun _ => exclusive.recorded index inside) (fun _ => set_sign state.disk layout _)
  | start phase ended =>
      -- the resolution goes on behind the sign, or the request gives up
      have holds : (state.phase index).Holds := .inl phase
      obtain ⟨manifests, frame⟩ := ended.frame
      refine exclusive.advance (.of_manifests manifests)
        (exclusive.distinct.of_manifests manifests) frame (.inl (exclusive.alone holds.inside))
        (fun _ => ?_) (fun stillHolds => ?_)
      · exact Disk.Kept.hasScenario layout (.of_manifests manifests)
          (exclusive.recorded index holds.inside)
      · cases ended with
        | unlocked | command | directory => exact absurd stillHolds RequestPhase.done_free
        | started => exact exclusive.sign index holds
  | lastHandler phase =>
      exact exclusive.drop_sign (.inr (.inr (.inl phase))) RequestPhase.reported_free
  | finish active => exact exclusive.drop_sign active.inside RequestPhase.done_free

theorem ServerState.Exclusive.atMostOne (exclusive : state.Exclusive layout requests) :
    state.AtMostOne layout requests :=
  fun first second same firstActive secondActive =>
    exclusive.one first second same firstActive.inside secondActive.inside

end Steps

/-- In every run of careful steps from requests that have just arrived, at most
one resolution of every scenario is active at any time. -/
theorem atMostOne_of_careful {layout : CacheLayout} {requests : Nat → ResolveRequest}
    {start state : ServerState codec} {labels : List (Nat × RequestStep)}
    (distinct : start.disk.Distinct layout) (arrived : ∀ index, start.phase index = .arrived)
    {run : Steps (ServerState.move layout requests) start labels state}
    (careful : run.Within (Careful layout requests)) : state.AtMostOne layout requests := by
  have outside (index : Nat) : ¬ (start.phase index).Inside := by
    rw [arrived index]
    decide
  have initially : start.Exclusive layout requests :=
    ⟨distinct, fun first _ _ inside => absurd inside (outside first),
      fun index inside => absurd inside (outside index),
      fun index holds => absurd holds.inside (outside index)⟩
  exact (Steps.invariant_within ServerState.Exclusive.move careful initially).atMostOne

/-! ## Careless requests -/

section Careless

variable {layout : CacheLayout} {requests : Nat → ResolveRequest} {state : ServerState codec}

/-- The resolution of the request can be started, whatever the files. -/
def Startable (codec : ProjectsCodec) (layout : CacheLayout) (request : ResolveRequest) : Prop :=
  ∃ answers sources, ∀ disk : Disk codec,
    (goResolve layout answers request disk).2 = .ok sources

/-- A request that has been let through can go on until its resolution is active,
while the others stay where they are. -/
theorem admitted_resolves {index : Nat} (startable : Startable codec layout (requests index))
    (admitted : state.phase index = .admitted) :
    ∃ labels final, Steps (ServerState.move layout requests) state labels final ∧
      final.phase index = .resolving ∧
        ∀ other, other ≠ index → final.phase other = state.phase other := by
  obtain ⟨answers, sources, starts⟩ := startable
  obtain ⟨final, run, -, phase, others⟩ := goResolve_steps admitted answers
  rw [starts] at phase
  exact ⟨_, final, run, phase, others⟩

/-- When a request is let through while another one for its scenario is between
its own question and its sign, or between the last handler and its end, two
resolutions can become active at once. -/
theorem overlap_of_careless {first second : Nat} (different : first ≠ second)
    (same : (requests first).msCacheDir layout = (requests second).msCacheDir layout)
    (firstStartable : Startable codec layout (requests first))
    (secondStartable : Startable codec layout (requests second))
    (between : state.phase first = .admitted ∨ state.phase first = .reported)
    {access : FileAccess} {next : ServerState codec}
    (moved : state.move layout requests (second, .scenarioMetadata access) = some next)
    (admitted : next.phase second = .admitted) :
    ∃ labels final, Steps (ServerState.move layout requests) next labels final ∧
      ¬ final.AtMostOne layout requests := by
  have kept : next.phase first = state.phase first := by
    obtain ⟨disk, phase, -, rfl⟩ := ServerState.move_cases moved
    exact state.advance_other different disk phase
  rcases between with isAdmitted | isReported
  · obtain ⟨labels, middle, run, firstActive, others⟩ :=
      admitted_resolves firstStartable (kept.trans isAdmitted)
    obtain ⟨more, final, onwards, secondActive, rest⟩ :=
      admitted_resolves secondStartable ((others second different.symm).trans admitted)
    refine ⟨_, final, run.trans onwards, fun atMostOne => different ?_⟩
    exact atMostOne first second same (.inl ((rest first different).trans firstActive))
      (.inl secondActive)
  · obtain ⟨labels, final, run, secondActive, others⟩ := admitted_resolves secondStartable admitted
    refine ⟨labels, final, run, fun atMostOne => different ?_⟩
    exact atMostOne first second same
      (.inr ((others first different).trans (kept.trans isReported))) (.inl secondActive)

end Careless

/-- Requests have arrived, and nothing is in the cache directory. -/
def arrivedState : ServerState plainProjectsCodec where
  disk := (ManifestState.fresh plainProjectsCodec).disk
  phase _ := .arrived

/-- A request that names a conflict file. -/
def sourceRequest : ResolveRequest := { plainRequest with conflicts := ["a.cpp".toList] }

/-- The first request resolves; the second one asks meanwhile and is refused, and the third one
comes when the first has ended. -/
def oneAfterTheOther : List (Nat × RequestStep) :=
  [(0, .projectMetadata {}), (0, .scenarioMetadata {}), (0, .setRunningSign),
    (0, .start { exec := .ok [] }), (1, .projectMetadata {}), (1, .scenarioMetadata {}),
    (0, .lastHandler), (0, .finish), (2, .projectMetadata {}), (2, .scenarioMetadata {}),
    (2, .setRunningSign), (2, .start { exec := .ok [] })]

/-- A call for a scenario is careful when none of the first three requests is in the way and the
others have just arrived. -/
theorem careful_scenarioMetadata {state : ServerState codec} {layout : CacheLayout}
    {requests : Nat → ResolveRequest} {index : Nat}
    (known : ∀ other ∈ [0, 1, 2], other ≠ index →
      state.phase other ≠ .admitted ∧ state.phase other ≠ .reported)
    (rest : ∀ other ∉ [0, 1, 2], state.phase other = .arrived) :
    Careful layout requests state (index, .scenarioMetadata {}) := by
  refine ⟨rfl, rfl, fun other different _ => ?_⟩
  by_cases isKnown : other ∈ [0, 1, 2]
  · exact known other isKnown different
  · rw [rest other isKnown]
    decide

/-- Requests that take no step stay where they are. -/
theorem ServerState.phase_of_replay {layout : CacheLayout} {requests : Nat → ResolveRequest}
    {state next : ServerState codec} {labels : List (Nat × RequestStep)} {other : Nat}
    (rests : ∀ label ∈ labels, label.1 ≠ other)
    (replayed : replay (ServerState.move layout requests) state labels = some next) :
    next.phase other = state.phase other := by
  induction labels generalizing state with
  | nil =>
      obtain rfl := Option.some.inj replayed
      rfl
  | cons label rest ih =>
      obtain ⟨apart, later⟩ := List.forall_mem_cons.mp rests
      obtain ⟨middle, moved, onwards⟩ := Option.bind_eq_some_iff.mp replayed
      rw [ih later onwards]
      obtain ⟨disk, phase, -, rfl⟩ := ServerState.move_cases moved
      exact state.advance_other apart.symm disk phase

/-- One resolution is over when the next one begins, and a request in between is refused. -/
theorem oneAfterTheOther_atMostOne : ∃ state : ServerState plainProjectsCodec,
    Steps (ServerState.move oneProjectLayout fun _ => sourceRequest) arrivedState
        oneAfterTheOther state ∧
      state.phase 0 = .done ∧ state.phase 1 = .done ∧ state.phase 2 = .resolving ∧
        state.AtMostOne oneProjectLayout fun _ => sourceRequest := by
  have run : Steps (ServerState.move oneProjectLayout fun _ => sourceRequest) arrivedState
      oneAfterTheOther _ := .of_replay rfl
  have indices : ∀ label ∈ oneAfterTheOther, label.1 ∈ [0, 1, 2] := by decide
  have careful : run.Within (Careful oneProjectLayout fun _ => sourceRequest) := by
    refine .of_take run fun place inside state replayed => ?_
    have rest : ∀ other ∉ [0, 1, 2], state.phase other = .arrived := by
      intro other unknown
      refine ServerState.phase_of_replay (fun label member same => unknown ?_) replayed
      exact same ▸ indices label (List.mem_of_mem_take member)
    have short : place < 12 := inside
    interval_cases place <;> obtain rfl := Option.some.inj replayed
    -- a call for a scenario, a call for a project, or a step without a condition
    all_goals first
      | exact careful_scenarioMetadata (by decide) rest
      | exact ⟨rfl, rfl⟩
      | trivial
  exact ⟨_, run, rfl, rfl, rfl, atMostOne_of_careful
    (ManifestState.fresh_complete oneProjectLayout plainProjectsCodec).distinct (fun _ => rfl)
    careful⟩

/-- Two requests ask for their scenario before either sets the running sign. -/
def overlappingSteps : List (Nat × RequestStep) :=
  [(0, .projectMetadata {}), (0, .scenarioMetadata {}), (1, .projectMetadata {}),
    (1, .scenarioMetadata {}), (0, .setRunningSign), (1, .setRunningSign),
    (0, .start { exec := .ok [] }), (1, .start { exec := .ok [] })]

/-- Then both resolutions are active. -/
theorem twoRequests_overlap : ∃ state : ServerState plainProjectsCodec,
    Steps (ServerState.move oneProjectLayout fun _ => sourceRequest) arrivedState
        overlappingSteps state ∧
      ¬ state.AtMostOne oneProjectLayout fun _ => sourceRequest := by
  have run : Steps (ServerState.move oneProjectLayout fun _ => sourceRequest) arrivedState
      overlappingSteps _ := .of_replay rfl
  refine ⟨_, run, fun atMostOne => ?_⟩
  exact absurd (atMostOne 0 1 rfl (.inl rfl) (.inl rfl)) (by decide)

end MergeBot
