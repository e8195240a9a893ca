import Mathlib.Tactic.IntervalCases
import MergeBot.Lsp.Endpoint

/-!
# Concurrent calls of the language server

`calls_answered` says that a result is always that of the call's own response, and
under which condition on the steps of a run the behaviour is defined and a response
in time is returned; `canFail_of_not_safe` continues a step outside it to a state
where one of the two fails.
-/

namespace MergeBot.Lsp

open Foundation

variable {Value : Type}

/-- Every result that is returned is the result of a response with the call's own id,
which no other call has. -/
def OwnResponses (isError : Value → Bool) (labels : List (CallStep Value))
    (state : Endpoint Value) : Prop :=
  ∀ caller id value, state.phase caller = .returned id (some value) →
    (∃ response, .handleResult id response ∈ labels ∧ ¬ isError response.error ∧
        value = response.result) ∧
      ∀ other, (state.phase other).id = some id → other = caller

/-- A call whose response was stored in time has returned what that says, or it can
still do so: the reader finishes, and the call wakes up and reads. -/
def Answered (isError : Value → Bool) (state : Endpoint Value) : Prop :=
  ∀ caller id response, (state.phase caller).id = some id →
    state.responseDict id = some response → state.inTime id →
      (∀ result, state.phase caller = .returned id result → result = response.answer isError) ∧
        ∃ labels final,
          labels.Sublist [.unlock, .notify, .wake caller, .find caller, .read caller] ∧
            Steps (Endpoint.move isError) state labels final ∧ final.undefined = false ∧
              final.phase caller = .returned id (response.answer isError)

/-- The behaviour is defined, and the calls get their own responses and get them. -/
def Served (isError : Value → Bool) (labels : List (CallStep Value))
    (state : Endpoint Value) : Prop :=
  state.undefined = false ∧ OwnResponses isError labels state ∧ Answered isError state

/-- No call that has woken up looks for its response before that is stored or the time
is over, and the time of a call is not over between the storing of its response and
its waking up. An error is returned as nothing anyway. -/
def Prompt (isError : Value → Bool) (state : Endpoint Value) : CallStep Value → Prop
  | .find caller => ∀ id, state.phase caller = .awake id →
      state.responseDict id ≠ none ∨ state.elapsed id
  | .elapse id => ∀ caller notified response, state.phase caller = .waiting id notified →
      state.responseDict id = some response → response.answer isError = none
  | _ => True

/-- A prompt step that does not interfere with a use of a dictionary. -/
def SafeStep (isError : Value → Bool) (state : Endpoint Value) (label : CallStep Value) : Prop :=
  state.races label = false ∧ Prompt isError state label

/-! ## What holds when all steps are safe -/

/-- A call that waits has time left for its response, one that looks for it finds it or has no
time left, and one that has returned has returned it. -/
def CallPrompt (isError : Value → Bool) (state : Endpoint Value) : CallPhase Value → Prop
  | .waiting id _ => ∀ response, state.responseDict id = some response → state.inTime id →
      state.elapsed id → response.answer isError = none
  | .looking id => state.responseDict id ≠ none ∨ state.elapsed id
  | .returned id result =>
      (∀ response, state.responseDict id = some response → state.inTime id →
        result = response.answer isError) ∧
        (state.responseDict id = none → state.elapsed id)
  | _ => True

section Prompt

variable {isError : Value → Bool} {state next : Endpoint Value} {label : CallStep Value}

theorem CallPrompt.frame {phase : CallPhase Value} (prompt : CallPrompt isError state phase)
    (same : ∀ id, phase.id = some id → next.responseDict id = state.responseDict id ∧
      next.inTime id = state.inTime id ∧ next.elapsed id = state.elapsed id) :
    CallPrompt isError next phase := by
  cases phase with
  | idle | started | awake => trivial
  | waiting id | looking id | returned id =>
      obtain ⟨stored, inTime, elapsed⟩ := same id rfl
      simp only [CallPrompt, stored, inTime, elapsed]
      exact prompt

/-- A notified call is as prompt as before. -/
theorem CallPrompt.notify {phase : CallPhase Value} (prompt : CallPrompt isError state phase)
    (id : Int) : CallPrompt isError state (phase.notify id) := by
  cases phase with
  | idle | started | awake => trivial
  | waiting own notified =>
      simp only [CallPhase.notify]
      split <;> exact prompt
  | looking own | returned own => exact prompt

/-- A call that moves on leaves the others as prompt as they were. -/
theorem prompt_advance (prompt : ∀ caller, CallPrompt isError state (state.phase caller))
    {caller : Nat} {id : Int} {phase : CallPhase Value}
    (advances : Advances state caller id phase next) (moving : CallPrompt isError state phase)
    (other : Nat) : CallPrompt isError next (next.phase other) := by
  have same (own : Int) : next.responseDict own = state.responseDict own ∧
      next.inTime own = state.inTime own ∧ next.elapsed own = state.elapsed own :=
    ⟨congrFun advances.responses own, congrFun advances.inTime own, congrFun advances.elapsed own⟩
  rw [advances.phases]
  by_cases isCaller : other = caller
  · rw [isCaller, Function.update_self]
    exact moving.frame fun own _ => same own
  · rw [Function.update_of_ne isCaller]
    exact (prompt other).frame fun own _ => same own

/-- A stored response is in time if the time of its call is not over. -/
theorem prompt_store {rpcId : Int} {phase : CallPhase Value}
    (prompt : CallPrompt isError state phase) (unanswered : state.responseDict rpcId = none)
    (response : Response Value) : CallPrompt isError (state.store rpcId response) phase := by
  by_cases isAnswered : phase.id = some rpcId
  · cases phase with
    | idle | started | awake => trivial
    | waiting own notified =>
        obtain rfl : own = rpcId := Option.some.inj isAnswered
        intro other _ inTime expired
        have isOver : state.elapsed own = true := expired
        rw [Endpoint.store_inTime, isOver] at inTime
        simp at inTime
    | looking own =>
        obtain rfl : own = rpcId := Option.some.inj isAnswered
        exact .inl (by simp [Endpoint.store_responseDict])
    | returned own result =>
        obtain rfl : own = rpcId := Option.some.inj isAnswered
        have expired : state.elapsed own := prompt.2 unanswered
        refine ⟨fun other _ inTime => ?_, fun none_ => ?_⟩
        · rw [Endpoint.store_inTime, expired] at inTime
          simp at inTime
        · rw [Endpoint.store_responseDict] at none_
          simp at none_
  · refine prompt.frame fun own holds => ?_
    obtain ⟨sameResponse, sameTime⟩ :=
      state.store_other rpcId response fun same => isAnswered (same ▸ holds)
    exact ⟨sameResponse, sameTime, rfl⟩

/-- The time of a call can be over when it is not waiting for a stored response. -/
theorem prompt_expire {phase : CallPhase Value} (prompt : CallPrompt isError state phase) {id : Int}
    (meets : ∀ notified response, phase = .waiting id notified →
      state.responseDict id = some response → response.answer isError = none) :
    CallPrompt isError (state.expire id) phase := by
  by_cases isOver : phase.id = some id
  · have expired : (state.expire id).elapsed id := Function.update_self ..
    cases phase with
    | idle | started | awake => trivial
    | waiting own notified =>
        obtain rfl : own = id := Option.some.inj isOver
        exact fun response answered _ _ => meets notified response rfl answered
    | looking own =>
        obtain rfl : own = id := Option.some.inj isOver
        exact .inr expired
    | returned own result =>
        obtain rfl : own = id := Option.some.inj isOver
        exact ⟨prompt.1, fun _ => expired⟩
  · refine prompt.frame fun own holds => ⟨rfl, rfl, ?_⟩
    exact Function.update_of_ne (fun same : own = id => isOver (same ▸ holds)) ..

/-- Every prompt step keeps this. -/
theorem prompt_proceed (sound : Sound isError state)
    (prompt : ∀ caller, CallPrompt isError state (state.phase caller))
    (meets : Prompt isError state label) (moved : Moved isError state label next)
    (other : Nat) : CallPrompt isError next (next.phase other) := by
  cases moved with
  | @takeId caller phase =>
      by_cases isCaller : other = caller
      · have started : (state.begin caller).phase other = .started state.nextId :=
          isCaller ▸ state.setPhase_self caller _
        rw [started]
        trivial
      · have same : (state.begin caller).phase other = state.phase other :=
          state.setPhase_other isCaller _
        rw [same]
        exact (prompt other).frame fun _ _ => ⟨rfl, rfl, rfl⟩
  | @send caller id phase free =>
      have unsent : state.sent id = false := sound.call phase
      have holds : (state.phase caller).id = some id := by rw [phase]; rfl
      refine prompt_advance prompt (.register holds) (fun response answered => ?_) other
      exact absurd (sound.stored id (by simp [answered])) (by simp [unsent])
  | noId idle => exact prompt other
  | handleResult idle sent unanswered => exact (prompt other).frame fun _ _ => ⟨rfl, rfl, rfl⟩
  | @unlock rpcId response storing =>
      exact prompt_store (prompt other) (sound.storing rpcId response storing).2 response
  | @notify found pending =>
      have call : CallPrompt isError (state.signal found) (state.phase other) :=
        (prompt other).frame fun _ _ => ⟨rfl, rfl, rfl⟩
      rcases state.signal_phase found other with same | ⟨id, -, notified⟩
      · rwa [same]
      · rw [notified]
        exact call.notify id
  | @wake caller id phase free =>
      have holds : (state.phase caller).id = some id := by rw [phase]; rfl
      exact prompt_advance prompt (.leave holds) trivial other
  | @spurious caller id notified phase free =>
      have holds : (state.phase caller).id = some id := by rw [phase]; rfl
      exact prompt_advance prompt (.leave holds) trivial other
  | @elapse id sent before =>
      exact prompt_expire (prompt other) fun notified response phase answered =>
        meets other notified response phase answered
  | @timeOut caller id notified phase expired free =>
      have holds : (state.phase caller).id = some id := by rw [phase]; rfl
      have waiting : CallPrompt isError state (.waiting id notified) := phase ▸ prompt caller
      have returned : CallPrompt isError state (.returned id none) :=
        ⟨fun response answered inTime => (waiting response answered inTime expired).symm,
          fun _ => expired⟩
      exact prompt_advance prompt (.setPhase holds rfl) returned other
  | @find caller id phase =>
      have holds : (state.phase caller).id = some id := by rw [phase]; rfl
      have found : CallPrompt isError state (.looking id) := meets id phase
      exact prompt_advance prompt (.look holds) found other
  | @read caller id phase =>
      have holds : (state.phase caller).id = some id := by rw [phase]; rfl
      have looked : CallPrompt isError state (.looking id) := phase ▸ prompt caller
      have returned : CallPrompt isError state (.returned id
          ((state.responseDict id).bind fun response => response.answer isError)) := by
        refine ⟨fun response answered _ => by rw [answered]; rfl, fun unanswered => ?_⟩
        exact looked.resolve_left fun answered => answered unanswered
      exact prompt_advance prompt (.finish holds) returned other

/-- What holds in every run of safe steps. -/
structure PromptSound (isError : Value → Bool) (state : Endpoint Value) : Prop where
  defined : state.undefined = false
  sound : Sound isError state
  prompt : ∀ caller, CallPrompt isError state (state.phase caller)

theorem PromptSound.move (held : PromptSound isError state) (meets : SafeStep isError state label)
    (moved : state.move isError label = some next) : PromptSound isError next := by
  rcases Endpoint.move_cases moved with ⟨defined, ⟨interferes, -⟩ | ⟨-, proceeds⟩⟩
  · exact absurd meets.1 (by simp [interferes])
  · exact ⟨proceeds.undefined_eq.trans defined, held.sound.proceed proceeds,
      prompt_proceed held.sound held.prompt meets.2 proceeds⟩

end Prompt

/-! ## Responses that are returned -/

section Returned

variable {isError : Value → Bool} {state middle : Endpoint Value} {labels : List (CallStep Value)}

theorem Sound.initial (isError : Value → Bool) :
    Sound isError (Endpoint.initial : Endpoint Value) := by
  refine ⟨?_, ?_, Int.le_refl 0, ?_, ?_, ?_, ?_, fun _ => trivial⟩ <;>
    simp [Endpoint.initial, CallPhase.id]

/-- What is stored, or is being stored, was handled in the run. -/
theorem handled_of_stored
    (run : Steps (Endpoint.move isError) Endpoint.initial labels state) {id : Int}
    {response : Response Value}
    (stored : state.reader = .storing id response ∨ state.responseDict id = some response) :
    .handleResult id response ∈ labels := by
  induction run with
  | refl => simp [Endpoint.initial] at stored
  | @step before next labels label prior moved ih =>
      rw [List.mem_append]
      rcases Endpoint.move_cases moved with ⟨-, ⟨-, rfl⟩ | ⟨-, proceeds⟩⟩
      · exact .inl (ih stored)
      cases proceeds with
      | @handleResult rpcId other idle sent unanswered =>
          rcases stored with storing | stored
          · obtain ⟨rfl, rfl⟩ := ReaderPhase.storing.inj storing
            exact .inr List.mem_cons_self
          · exact .inl (ih (.inr stored))
      | @unlock rpcId other storing =>
          rcases stored with stores | stored
          · simp [Endpoint.store] at stores
          by_cases isAnswered : id = rpcId
          · subst isAnswered
            rw [Endpoint.store_responseDict] at stored
            exact .inl (ih (.inl (Option.some.inj stored ▸ storing)))
          · exact .inl (ih (.inr ((before.store_other rpcId other isAnswered).1 ▸ stored)))
      | notify pending =>
          rcases stored with stores | stored
          · simp [Endpoint.signal] at stores
          · exact .inl (ih (.inr stored))
      | takeId | send | noId | wake | spurious | elapse | timeOut | find | read =>
          exact .inl (ih stored)

/-- The reader has left `handleResult`: it has notified, and stored what it was about to. -/
structure ReaderDone (state middle : Endpoint Value) : Prop where
  idle : middle.reader = .idle
  defined : middle.undefined = state.undefined
  sent : middle.sent = state.sent
  elapsed : middle.elapsed = state.elapsed
  phase : ∀ caller, middle.phase caller = state.phase caller ∨
    ∃ id, middle.phase caller = (state.phase caller).notify id
  others : ∀ id, (∀ response, state.reader ≠ .storing id response) →
    middle.responseDict id = state.responseDict id ∧ middle.inTime id = state.inTime id

/-- The reader can always finish. -/
theorem reader_done (isError : Value → Bool) (defined : state.undefined = false) :
    ∃ labels middle, labels.Sublist [.unlock, .notify] ∧
      Steps (Endpoint.move isError) state labels middle ∧ ReaderDone state middle := by
  have phases (state : Endpoint Value) (found : Option Int) (caller : Nat) :
      (state.signal found).phase caller = state.phase caller ∨
        ∃ id, (state.signal found).phase caller = (state.phase caller).notify id :=
    (state.signal_phase found caller).imp_right fun ⟨id, _, notified⟩ => ⟨id, notified⟩
  cases reader : state.reader with
  | idle =>
      exact ⟨[], state, List.nil_sublist _, .refl, reader, rfl, rfl, rfl, fun _ => .inl rfl,
        fun _ _ => ⟨rfl, rfl⟩⟩
  | notifying found =>
      have moved : state.move isError .notify = some (state.signal found) :=
        Endpoint.move_of_proceed defined rfl (by simp only [Endpoint.proceed, reader])
      exact ⟨[.notify], _, by simp, .step .refl moved, rfl, rfl, rfl, rfl, phases state found,
        fun _ _ => ⟨rfl, rfl⟩⟩
  | storing rpcId response =>
      have unlocks : state.move isError .unlock = some (state.store rpcId response) :=
        Endpoint.move_of_proceed defined rfl (by simp only [Endpoint.proceed, reader])
      have notifies : (state.store rpcId response).move isError .notify =
          some ((state.store rpcId response).signal
            (if state.eventDict rpcId then some rpcId else none)) :=
        Endpoint.move_of_proceed defined rfl rfl
      refine ⟨[.unlock, .notify], _, List.Sublist.refl _, (Steps.step .refl unlocks).step notifies,
        rfl, rfl, rfl, rfl, phases (state.store rpcId response) _, fun id apart => ?_⟩
      exact state.store_other rpcId response fun same => apart response (same ▸ reader)

namespace ReaderDone

theorem id_eq (done : ReaderDone state middle) (caller : Nat) :
    (middle.phase caller).id = (state.phase caller).id := by
  rcases done.phase caller with same | ⟨id, notified⟩
  · rw [same]
  · rw [notified, CallPhase.notify_id]

/-- A call that has returned has done so. -/
theorem returned_iff (done : ReaderDone state middle) {caller : Nat} {id : Int}
    {result : Option Value} :
    middle.phase caller = .returned id result ↔ state.phase caller = .returned id result := by
  rcases done.phase caller with same | ⟨other, notified⟩
  · rw [same]
  · rw [notified]
    cases state.phase caller with
    | waiting own =>
        simp only [CallPhase.notify]
        split <;> simp
    | idle | started | awake | looking | returned => rfl

/-- A call that waits still does. -/
theorem waiting (done : ReaderDone state middle) {caller : Nat} {id : Int} {notified : Bool}
    (phase : state.phase caller = .waiting id notified) :
    ∃ now, middle.phase caller = .waiting id now := by
  rcases done.phase caller with same | ⟨other, notifies⟩
  · exact ⟨notified, same.trans phase⟩
  · rw [notifies, phase, CallPhase.notify]
    split
    · exact ⟨true, rfl⟩
    · exact ⟨notified, rfl⟩

end ReaderDone

/-- A call that is looking reads its response. -/
theorem looking_returns (defined : state.undefined = false) {caller : Nat} {id : Int}
    {response : Response Value} (phase : state.phase caller = .looking id)
    (stored : state.responseDict id = some response) :
    ∃ final, Steps (Endpoint.move isError) state [.read caller] final ∧ final.undefined = false ∧
      final.phase caller = .returned id (response.answer isError) := by
  have moved : state.move isError (.read caller) = some (state.finish isError caller id) :=
    Endpoint.move_of_proceed defined rfl (by simp only [Endpoint.proceed, phase])
  refine ⟨_, .step .refl moved, defined, ?_⟩
  show (state.setPhase caller _).phase caller = _
  rw [state.setPhase_self, stored]
  rfl

/-- A call that is awake begins to look, if the reader does not store. -/
theorem awake_returns (defined : state.undefined = false) (idle : state.reader = .idle)
    {caller : Nat} {id : Int} {response : Response Value} (phase : state.phase caller = .awake id)
    (stored : state.responseDict id = some response) :
    ∃ final, Steps (Endpoint.move isError) state [.find caller, .read caller] final ∧
      final.undefined = false ∧ final.phase caller = .returned id (response.answer isError) := by
  have moved : state.move isError (.find caller) = some (state.look caller id) :=
    Endpoint.move_of_proceed defined (by simp only [Endpoint.races, idle, ReaderPhase.isStoring])
      (by simp only [Endpoint.proceed, phase])
  have looking : (state.look caller id).phase caller = .looking id := state.setPhase_self caller _
  have lookDefined : (state.look caller id).undefined = false := defined
  obtain ⟨final, run, returned⟩ : ∃ final,
      Steps (Endpoint.move isError) (state.look caller id) [.read caller] final ∧
        final.undefined = false ∧ final.phase caller = .returned id (response.answer isError) :=
    looking_returns lookDefined looking stored
  exact ⟨final, run.head moved, returned⟩

/-- A call that has been notified wakes up. -/
theorem notified_returns (defined : state.undefined = false) (idle : state.reader = .idle)
    {caller : Nat} {id : Int} {response : Response Value}
    (phase : state.phase caller = .waiting id true)
    (stored : state.responseDict id = some response) :
    ∃ final, Steps (Endpoint.move isError) state [.wake caller, .find caller, .read caller] final ∧
      final.undefined = false ∧ final.phase caller = .returned id (response.answer isError) := by
  have moved : state.move isError (.wake caller) = some (state.leave caller id) :=
    Endpoint.move_of_proceed defined (by simp only [Endpoint.races, idle, ReaderPhase.isNotifying])
      (by simp [Endpoint.proceed, phase, idle, ReaderPhase.isStoring])
  have awake : (state.leave caller id).phase caller = .awake id := state.setPhase_self caller _
  have leaveDefined : (state.leave caller id).undefined = false := defined
  obtain ⟨final, run, returned⟩ : ∃ final,
      Steps (Endpoint.move isError) (state.leave caller id) [.find caller, .read caller] final ∧
        final.undefined = false ∧ final.phase caller = .returned id (response.answer isError) :=
    awake_returns leaveDefined idle awake stored
  exact ⟨final, run.head moved, returned⟩

/-- When the reader is done, a call whose response is stored can return it: its notification is
not lost. -/
theorem Sound.can_return_idle (sound : Sound isError state) (defined : state.undefined = false)
    (idle : state.reader = .idle) {caller : Nat} {id : Int} {response : Response Value}
    (holds : (state.phase caller).id = some id) (stored : state.responseDict id = some response)
    (returned : ∀ result, state.phase caller = .returned id result →
      result = response.answer isError) :
    ∃ labels final, labels <:+ [.wake caller, .find caller, .read caller] ∧
      Steps (Endpoint.move isError) state labels final ∧ final.undefined = false ∧
        final.phase caller = .returned id (response.answer isError) := by
  have answered : state.responseDict id ≠ none := by simp [stored]
  cases phase : state.phase caller with
  | idle => simp [phase, CallPhase.id] at holds
  | started own =>
      rw [phase] at holds
      obtain rfl : own = id := Option.some.inj holds
      have unsent : state.sent own = false := sound.call phase
      exact absurd (sound.stored own answered) (by simp [unsent])
  | waiting own notified =>
      rw [phase] at holds
      obtain rfl : own = id := Option.some.inj holds
      cases notified with
      | true =>
          obtain ⟨final, run, answer⟩ := notified_returns defined idle phase stored
          exact ⟨_, final, List.suffix_rfl, run, answer⟩
      | false =>
          obtain ⟨-, -, noted⟩ := sound.call phase
          exact absurd (noted rfl answered) (by simp [idle])
  | awake own =>
      rw [phase] at holds
      obtain rfl : own = id := Option.some.inj holds
      obtain ⟨final, run, answer⟩ := awake_returns defined idle phase stored
      exact ⟨_, final, List.suffix_cons _ _, run, answer⟩
  | looking own =>
      rw [phase] at holds
      obtain rfl : own = id := Option.some.inj holds
      obtain ⟨final, run, answer⟩ := looking_returns defined phase stored
      exact ⟨_, final, ⟨[.wake caller, .find caller], rfl⟩, run, answer⟩
  | returned own result =>
      rw [phase] at holds
      obtain rfl : own = id := Option.some.inj holds
      refine ⟨[], state, List.nil_suffix, .refl, defined, ?_⟩
      rw [phase, returned result phase]

/-- The reader finishes first. -/
theorem Sound.can_return (sound : Sound isError state) (defined : state.undefined = false)
    {caller : Nat} {id : Int} {response : Response Value}
    (holds : (state.phase caller).id = some id) (stored : state.responseDict id = some response)
    (returned : ∀ result, state.phase caller = .returned id result →
      result = response.answer isError) :
    ∃ labels final,
      labels.Sublist [.unlock, .notify, .wake caller, .find caller, .read caller] ∧
        Steps (Endpoint.move isError) state labels final ∧ final.undefined = false ∧
          final.phase caller = .returned id (response.answer isError) := by
  obtain ⟨first, middle, reading, before, done⟩ := reader_done isError defined
  have apart (other : Response Value) : state.reader ≠ .storing id other := fun storing => by
    simp [(sound.storing id other storing).2] at stored
  obtain ⟨second, final, waking, after, answer⟩ :=
    (before.invariant Sound.move sound).can_return_idle (done.defined.trans defined) done.idle
      ((done.id_eq caller).trans holds) ((done.others id apart).1.trans stored)
      fun result isReturned => returned result (done.returned_iff.mp isReturned)
  exact ⟨first ++ second, final, reading.append waking.sublist, before.trans after, answer⟩

end Returned

/-- In every run: what a call returns while the behaviour is defined is the result of its own
response; and when all steps are safe, the behaviour is defined and every call returns the
response that was stored in time. -/
theorem calls_answered {isError : Value → Bool} {labels : List (CallStep Value)}
    {state : Endpoint Value} (run : Steps (Endpoint.move isError) Endpoint.initial labels state) :
    (state.undefined = false → OwnResponses isError labels state) ∧
      (run.Within (SafeStep isError) → Served isError labels state) := by
  have sound : Sound isError state := run.invariant Sound.move (Sound.initial isError)
  have own : OwnResponses isError labels state := by
    intro caller id value returned
    have holds : (state.phase caller).id = some id := by rw [returned]; rfl
    obtain ⟨response, stored, answer⟩ := sound.call returned value rfl
    refine ⟨⟨response, handled_of_stored run (.inr stored), ?_⟩, fun other otherHolds =>
      sound.own other caller id otherHolds holds⟩
    simp only [Response.answer] at answer
    split at answer
    · simp at answer
    · rename_i noError
      exact ⟨noError, (Option.some.inj answer).symm⟩
  refine ⟨fun _ => own, fun within => ?_⟩
  have held : PromptSound isError state := Steps.invariant_within PromptSound.move within
    ⟨rfl, Sound.initial isError, fun _ => trivial⟩
  refine ⟨held.defined, own, fun caller id response holds stored inTime => ?_⟩
  have returned (result : Option Value) (isReturned : state.phase caller = .returned id result) :
      result = response.answer isError := by
    have call : CallPrompt isError state (.returned id result) :=
      isReturned ▸ held.prompt caller
    exact call.1 response stored inTime
  exact ⟨returned, sound.can_return held.defined holds stored returned⟩

/-! ## Responses that are lost -/

section Lost

variable {isError : Value → Bool} {state next : Endpoint Value} {labels : List (CallStep Value)}

/-- Some run from here serves its calls no more. -/
def CanFail (isError : Value → Bool) (state : Endpoint Value) : Prop :=
  ∃ more final, Steps (Endpoint.move isError) state more final ∧
    (final.undefined = true ∨ ¬ Answered isError final)

/-- A step may come first. -/
theorem CanFail.head {label : CallStep Value} (moved : state.move isError label = some next)
    (fails : CanFail isError next) : CanFail isError state := by
  obtain ⟨more, final, run, failed⟩ := fails
  exact ⟨_, final, run.head moved, failed⟩

/-- A run may come first. -/
theorem CanFail.after (run : Steps (Endpoint.move isError) state labels next)
    (fails : CanFail isError next) : CanFail isError state := by
  obtain ⟨more, final, later, failed⟩ := fails
  exact ⟨_, final, run.trans later, failed⟩

/-- A call that has returned nothing loses a response in time. -/
theorem not_answered {caller : Nat} {id : Int} {response : Response Value}
    (returned : state.phase caller = .returned id none)
    (stored : state.responseDict id = some response) (inTime : state.inTime id)
    (noError : response.answer isError ≠ none) : ¬ Answered isError state := by
  intro answered
  have holds : (state.phase caller).id = some id := by rw [returned]; rfl
  exact noError ((answered caller id response holds stored inTime).1 none returned).symm

/-- A call that has returned nothing before its response comes loses it. -/
theorem fails_returned (defined : state.undefined = false) (idle : state.reader = .idle)
    {caller : Nat} {id : Int} (returned : state.phase caller = .returned id none) (hasId : id ≠ -1)
    (sent : state.sent id) (unanswered : state.responseDict id = none)
    (early : state.elapsed id = false) {response : Response Value}
    (noError : response.answer isError ≠ none) : CanFail isError state := by
  have proceeds : state.proceed isError (.handleResult id response) =
      some { state with reader := .storing id response } := by
    simp only [Endpoint.proceed, idle, hasId, sent, unanswered, if_false, true_and, if_true]
  cases interferes : state.races (.handleResult id response) with
  | true =>
      refine ⟨[.handleResult id response], state.race, .step .refl ?_, .inl rfl⟩
      rw [Endpoint.move, defined, proceeds, interferes]
      rfl
  | false =>
      have handles := Endpoint.move_of_proceed defined interferes proceeds
      let storing : Endpoint Value := { state with reader := .storing id response }
      have unlocks : storing.move isError .unlock = some (storing.store id response) :=
        Endpoint.move_of_proceed defined rfl rfl
      refine CanFail.head handles ⟨_, _, .step .refl unlocks, .inr (not_answered returned
        (storing.store_responseDict id response) ?_ noError)⟩
      rw [storing.store_inTime]
      simp [storing, early]

/-- A call that begins to look for its response too early can lose it. -/
theorem fails_look (sound : Sound isError state) (defined : state.undefined = false)
    (free : ¬ state.reader.isStoring) {caller : Nat} {id : Int}
    (phase : state.phase caller = .awake id) (unanswered : state.responseDict id = none)
    (early : state.elapsed id = false) {response : Response Value}
    (noError : response.answer isError ≠ none) : CanFail isError (state.look caller id) := by
  let looking := state.look caller id
  have isLooking : looking.phase caller = .looking id := state.setPhase_self caller _
  have lookDefined : looking.undefined = false := defined
  have reads : looking.move isError (.read caller) = some (looking.finish isError caller id) :=
    Endpoint.move_of_proceed lookDefined rfl (by simp only [Endpoint.proceed, isLooking])
  have finishDefined : (looking.finish isError caller id).undefined = false := defined
  obtain ⟨labels, middle, -, run, done⟩ := reader_done isError finishDefined
  refine CanFail.head reads (.after run ?_)
  have known := sound.known caller id (by rw [phase]; rfl)
  have apart (other : Response Value) : state.reader ≠ .storing id other := fun storing => by
    simp [storing, ReaderPhase.isStoring] at free
  have returned : (looking.finish isError caller id).phase caller = .returned id none := by
    show (looking.setPhase caller _).phase caller = _
    rw [looking.setPhase_self]
    simp [looking, Endpoint.look, Endpoint.setPhase, unanswered]
  exact fails_returned (done.defined.trans finishDefined) done.idle (done.returned_iff.mpr returned)
    (by omega) ((congrFun done.sent id).trans (sound.call phase))
    ((done.others id apart).1.trans unanswered) ((congrFun done.elapsed id).trans early) noError

/-- A call whose time is over between its response and its waking up can lose it. -/
theorem fails_expire (sound : Sound isError state) (defined : state.undefined = false)
    {caller : Nat} {id : Int} {notified : Bool} (phase : state.phase caller = .waiting id notified)
    (before : ¬ state.elapsed id) {response : Response Value}
    (stored : state.responseDict id = some response) (noError : response.answer isError ≠ none) :
    CanFail isError (state.expire id) := by
  have expireDefined : (state.expire id).undefined = false := defined
  obtain ⟨labels, middle, -, run, done⟩ := reader_done isError expireDefined
  have waits : (state.expire id).phase caller = .waiting id notified := phase
  obtain ⟨now, waiting⟩ := done.waiting waits
  have expired : middle.elapsed id :=
    (congrFun done.elapsed id).trans (Function.update_self ..)
  have moved : middle.move isError (.timeOut caller) =
      some (middle.setPhase caller (.returned id none)) :=
    Endpoint.move_of_proceed (done.defined.trans expireDefined) rfl
      (by simp [Endpoint.proceed, waiting, expired, done.idle, ReaderPhase.isStoring])
  have apart (other : Response Value) : state.reader ≠ .storing id other := fun storing => by
    simp [(sound.storing id other storing).2] at stored
  have inTime : state.inTime id := by
    by_contra late
    exact before (sound.timed id (by simp [stored]) (by simpa using late))
  obtain ⟨sameResponse, sameTime⟩ := done.others id apart
  exact .after run ⟨_, _, .step .refl moved, .inr (not_answered
    (middle.setPhase_self caller _) (sameResponse.trans stored) (sameTime.trans inTime) noError)⟩

/-- A step that is not safe makes the behaviour undefined, or can be continued so that it gets
undefined or a response is lost. -/
theorem canFail_of_not_safe {label : CallStep Value}
    (run : Steps (Endpoint.move isError) Endpoint.initial labels state)
    (notSafe : ¬ SafeStep isError state label) (moved : state.move isError label = some next)
    {response : Response Value} (noError : response.answer isError ≠ none) :
    CanFail isError next := by
  have sound : Sound isError state := run.invariant Sound.move (Sound.initial isError)
  rcases Endpoint.move_cases moved with ⟨defined, ⟨-, rfl⟩ | ⟨apart, proceeds⟩⟩
  · exact ⟨[], _, .refl, .inl rfl⟩
  have unprompt : ¬ Prompt isError state label := fun prompt => notSafe ⟨apart, prompt⟩
  cases proceeds with
  | @find caller id phase =>
      have unseen : ¬ (state.responseDict id ≠ none ∨ state.elapsed id) := by
        intro known
        refine unprompt fun own isAwake => ?_
        obtain rfl := CallPhase.awake.inj (phase.symm.trans isAwake)
        exact known
      obtain ⟨notStored, early⟩ := not_or.mp unseen
      exact fails_look sound defined (Bool.eq_false_iff.mp apart) phase (not_not.mp notStored)
        (Bool.not_eq_true _ ▸ early) noError
  | @elapse id sent before =>
      by_contra kept
      refine unprompt fun caller notified answered phase stored => ?_
      by_contra isResult
      exact kept (fails_expire sound defined phase before stored isResult)
  | takeId | send | noId | handleResult | unlock | notify | wake | spurious | timeOut | read =>
      exact absurd trivial unprompt

end Lost

/-! ## Two calls -/

/-- The response with the result 7. No value is an error. -/
def plainResponse : Response Nat where
  result := 7
  error := 0

/-- Another one. -/
def secondResponse : Response Nat where
  result := 8
  error := 0

def noErrors (_ : Nat) : Bool := false

/-- Two calls whose responses come in time, the later one first. -/
def twoCalls : List (CallStep Nat) :=
  [.takeId 0, .takeId 1, .send 0, .send 1,
    .handleResult 1 secondResponse, .unlock, .notify, .wake 1, .find 1, .read 1,
    .handleResult 0 plainResponse, .unlock, .notify, .wake 0, .find 0, .read 0]

/-- Its steps are safe, and both calls return their responses. -/
theorem twoCalls_answered : ∃ state : Endpoint Nat,
    Steps (Endpoint.move noErrors) Endpoint.initial twoCalls state ∧
      state.phase 0 = .returned 0 (some 7) ∧ state.phase 1 = .returned 1 (some 8) ∧
        Served noErrors twoCalls state := by
  have run : Steps (Endpoint.move noErrors) Endpoint.initial twoCalls _ := .of_replay rfl
  have safe : run.Within (SafeStep noErrors) := by
    refine .of_take run fun place inside state replayed => ?_
    have short : place < 16 := inside
    interval_cases place <;> obtain rfl := Option.some.inj replayed
    -- the steps have to keep out of each other's way, and a lookup has to find its response
    all_goals refine ⟨rfl, ?_⟩
    all_goals first
      | trivial
      | exact fun id awake => CallPhase.awake.inj awake ▸ .inl (by decide)
  exact ⟨_, run, rfl, rfl, (calls_answered run).2 safe⟩

/-- A call wakes up without having been notified, and then its response comes. -/
def spuriousCall : List (CallStep Nat) :=
  [.takeId 0, .send 0, .spurious 0, .find 0, .read 0, .handleResult 0 plainResponse, .unlock]

/-- Nothing is undefined, but its response is lost. -/
theorem spuriousCall_lost : ∃ state : Endpoint Nat,
    Steps (Endpoint.move noErrors) Endpoint.initial spuriousCall state ∧
      state.undefined = false ∧ ¬ Served noErrors spuriousCall state := by
  have run : Steps (Endpoint.move noErrors) Endpoint.initial spuriousCall _ := .of_replay rfl
  refine ⟨_, run, rfl, fun served => ?_⟩
  exact absurd ((served.2.2 0 0 plainResponse rfl rfl rfl).1 none rfl) (by decide)

end MergeBot.Lsp
