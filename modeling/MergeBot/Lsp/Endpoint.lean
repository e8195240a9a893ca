import Mathlib.Logic.Function.Basic
import MergeBot.Foundation.Runs

/-!
# The endpoint of the language server

Threads call methods of one endpoint: each takes an id, registers a condition
variable under it, sends its request and waits; the reader stores the response of
an id and then notifies. Both dictionaries are also used without the lock: a call
looks for its response, and the reader notifies through the iterator it has found.
A step that modifies a dictionary during such a use makes the behaviour undefined.
`Sound` is what holds in every run.
-/

namespace MergeBot.Lsp

open Foundation

variable {Value : Type}

/-- What `handleResult` gets of a response. -/
structure Response (Value : Type) where
  result : Value
  error : Value
deriving DecidableEq, Repr

/-- What a call returns for its response: nothing for an error, that is, when
`error` has a code and a message. -/
def Response.answer (isError : Value → Bool) (response : Response Value) : Option Value :=
  if isError response.error then none else some response.result

/-- How far a call has come. -/
inductive CallPhase (Value : Type)
  /-- Before `CallMethod`. -/
  | idle
  /-- Before it locks `cvMutex`. -/
  | started (id : Int)
  /-- In `wait_for`, without the lock. -/
  | waiting (id : Int) (notified : Bool)
  /-- Behind the wait, when the time was not over, and without the lock again. -/
  | awake (id : Int)
  /-- Between `responseDict.find` and the last use of what it has found. -/
  | looking (id : Int)
  | returned (id : Int) (result : Option Value)
deriving DecidableEq, Repr

/-- The id that a call has taken. -/
def CallPhase.id : CallPhase Value → Option Int
  | .idle => none
  | .started id | .waiting id _ | .awake id | .looking id | .returned id _ => some id

/-- A condition variable is notified, which only a call that waits for it notices. -/
def CallPhase.notify (id : Int) : CallPhase Value → CallPhase Value
  | .waiting own notified => if own = id then .waiting own true else .waiting own notified
  | phase => phase

/-- How far the reader is in `handleResult`. -/
inductive ReaderPhase (Value : Type)
  /-- Outside. -/
  | idle
  /-- It holds `cvMutex` and writes to `responseDict`. -/
  | storing (rpcId : Int) (response : Response Value)
  /-- It has unlocked, and compares and follows the iterator it has found in `eventDict`. -/
  | notifying (found : Option Int)
deriving DecidableEq, Repr

/-- No other thread gets the lock. -/
def ReaderPhase.isStoring : ReaderPhase Value → Bool
  | .storing _ _ => true
  | _ => false

/-- An iterator of `eventDict` is used without the lock. -/
def ReaderPhase.isNotifying : ReaderPhase Value → Bool
  | .notifying _ => true
  | _ => false

/-- The endpoint, its calls and its reader. -/
structure Endpoint (Value : Type) where
  /-- `ID`. -/
  nextId : Int
  /-- The ids with a condition variable. -/
  eventDict : Int → Bool
  responseDict : Int → Option (Response Value)
  phase : Nat → CallPhase Value
  reader : ReaderPhase Value
  /-- How many calls are looking for their response. -/
  lookups : Nat
  /-- A dictionary was modified during an unlocked use of it. -/
  undefined : Bool
  /-- The requests that the server can answer. -/
  sent : Int → Bool
  /-- The calls whose time is over. -/
  elapsed : Int → Bool
  /-- The responses that were stored before the time of their call was over. -/
  inTime : Int → Bool

/-- A step of a call or of the reader. A section of a call under `cvMutex` is one step;
waiting releases the lock. -/
inductive CallStep (Value : Type)
  /-- `ID++`. -/
  | takeId (caller : Nat)
  /-- Register the condition variable, send the request and begin to wait. -/
  | send (caller : Nat)
  /-- `handleResult` returns for no id, or locks and begins to store the response. -/
  | handleResult (rpcId : Int) (response : Response Value)
  /-- The response is stored and the condition variable looked up; `lock.unlock()`. -/
  | unlock
  /-- `notify_one`, if a condition variable was found. -/
  | notify
  /-- A notified call leaves the wait, and its condition variable is erased. -/
  | wake (caller : Nat)
  /-- So does a call that need not be notified. -/
  | spurious (caller : Nat)
  /-- The time of a call is over. -/
  | elapse (id : Int)
  /-- `wait_for` returns that the time is over. -/
  | timeOut (caller : Nat)
  /-- Begin to look for the response. -/
  | find (caller : Nat)
  /-- Return what has been found. -/
  | read (caller : Nat)
deriving DecidableEq, Repr

namespace Endpoint

variable (isError : Value → Bool) (state : Endpoint Value)

/-- Move one call on. -/
def setPhase (caller : Nat) (phase : CallPhase Value) : Endpoint Value :=
  { state with phase := Function.update state.phase caller phase }

/-- Take the next id. -/
def begin (caller : Nat) : Endpoint Value :=
  { state.setPhase caller (.started state.nextId) with nextId := state.nextId + 1 }

/-- Register a condition variable, send the request and wait. -/
def register (caller : Nat) (id : Int) : Endpoint Value :=
  { state.setPhase caller (.waiting id false) with
    eventDict := Function.update state.eventDict id true
    sent := Function.update state.sent id true }

/-- Store a response, and look up the condition variable. -/
def store (rpcId : Int) (response : Response Value) : Endpoint Value :=
  { state with
    responseDict := Function.update state.responseDict rpcId (some response)
    reader := .notifying (if state.eventDict rpcId then some rpcId else none)
    inTime := Function.update state.inTime rpcId (!state.elapsed rpcId) }

/-- Notify the call that waits for a response, if it still does. -/
def signal (found : Option Int) : Endpoint Value :=
  { state with
    reader := .idle
    phase := fun caller => match found with
      | some id => (state.phase caller).notify id
      | none => state.phase caller }

/-- Let the time of a call be over. -/
def expire (id : Int) : Endpoint Value :=
  { state with elapsed := Function.update state.elapsed id true }

/-- Leave the wait. -/
def leave (caller : Nat) (id : Int) : Endpoint Value :=
  { state.setPhase caller (.awake id) with eventDict := Function.update state.eventDict id false }

/-- Begin a lookup. -/
def look (caller : Nat) (id : Int) : Endpoint Value :=
  { state.setPhase caller (.looking id) with lookups := state.lookups + 1 }

/-- End a lookup. -/
def finish (caller : Nat) (id : Int) : Endpoint Value :=
  { state.setPhase caller
      (.returned id ((state.responseDict id).bind fun response => response.answer isError)) with
    lookups := state.lookups - 1 }

/-- A step of a call or of the reader, while the endpoint is not shut down. The server
answers requests that were sent, each at most once. -/
def proceed : CallStep Value → Option (Endpoint Value)
  | .takeId caller => match state.phase caller with
      | .idle => some (state.begin caller)
      | _ => none
  | .send caller => match state.phase caller with
      | .started id => if ¬ state.reader.isStoring then some (state.register caller id) else none
      | _ => none
  | .handleResult rpcId response => match state.reader with
      | .idle =>
          if rpcId = -1 then some state
          else if state.sent rpcId ∧ state.responseDict rpcId = none then
            some { state with reader := .storing rpcId response }
          else none
      | _ => none
  | .unlock => match state.reader with
      | .storing rpcId response => some (state.store rpcId response)
      | _ => none
  | .notify => match state.reader with
      | .notifying found => some (state.signal found)
      | _ => none
  | .wake caller => match state.phase caller with
      | .waiting id true => if ¬ state.reader.isStoring then some (state.leave caller id) else none
      | _ => none
  | .spurious caller => match state.phase caller with
      | .waiting id _ => if ¬ state.reader.isStoring then some (state.leave caller id) else none
      | _ => none
  | .elapse id => if state.sent id ∧ ¬ state.elapsed id then some (state.expire id) else none
  | .timeOut caller => match state.phase caller with
      | .waiting id _ =>
          if state.elapsed id ∧ ¬ state.reader.isStoring then
            some (state.setPhase caller (.returned id none))
          else none
      | _ => none
  | .find caller => match state.phase caller with
      | .awake id => some (state.look caller id)
      | _ => none
  | .read caller => match state.phase caller with
      | .looking id => some (state.finish isError caller id)
      | _ => none

/-- A step modifies a dictionary that is used without the lock, or begins to use one that
is being modified. -/
def races : CallStep Value → Bool
  | .handleResult rpcId _ => rpcId ≠ -1 && state.lookups ≠ 0
  | .send _ | .wake _ | .spurious _ => state.reader.isNotifying
  | .find _ => state.reader.isStoring
  | _ => false

/-- From here on anything can happen. -/
def race : Endpoint Value := { state with undefined := true }

/-- Take a step, as long as the behaviour is defined. -/
def move (label : CallStep Value) : Option (Endpoint Value) :=
  if state.undefined then none
  else (state.proceed isError label).map fun next => if state.races label then state.race else next

end Endpoint

/-- No call, no request and no response yet. -/
def Endpoint.initial : Endpoint Value where
  nextId := 0
  eventDict _ := false
  responseDict _ := none
  phase _ := .idle
  reader := .idle
  lookups := 0
  undefined := false
  sent _ := false
  elapsed _ := false
  inTime _ := false

/-! ## What a step does -/

/-- When a step is possible, and where it leads if it does not interfere. -/
inductive Moved (isError : Value → Bool) (state : Endpoint Value) :
    CallStep Value → Endpoint Value → Prop
  | takeId {caller : Nat} (phase : state.phase caller = .idle) :
      Moved isError state (.takeId caller) (state.begin caller)
  | send {caller : Nat} {id : Int} (phase : state.phase caller = .started id)
      (free : ¬ state.reader.isStoring) :
      Moved isError state (.send caller) (state.register caller id)
  | noId {response : Response Value} (idle : state.reader = .idle) :
      Moved isError state (.handleResult (-1) response) state
  | handleResult {rpcId : Int} {response : Response Value} (idle : state.reader = .idle)
      (sent : state.sent rpcId) (unanswered : state.responseDict rpcId = none) :
      Moved isError state (.handleResult rpcId response)
        { state with reader := .storing rpcId response }
  | unlock {rpcId : Int} {response : Response Value}
      (storing : state.reader = .storing rpcId response) :
      Moved isError state .unlock (state.store rpcId response)
  | notify {found : Option Int} (pending : state.reader = .notifying found) :
      Moved isError state .notify (state.signal found)
  | wake {caller : Nat} {id : Int} (phase : state.phase caller = .waiting id true)
      (free : ¬ state.reader.isStoring) :
      Moved isError state (.wake caller) (state.leave caller id)
  | spurious {caller : Nat} {id : Int} {notified : Bool}
      (phase : state.phase caller = .waiting id notified) (free : ¬ state.reader.isStoring) :
      Moved isError state (.spurious caller) (state.leave caller id)
  | elapse {id : Int} (sent : state.sent id) (before : ¬ state.elapsed id) :
      Moved isError state (.elapse id) (state.expire id)
  | timeOut {caller : Nat} {id : Int} {notified : Bool}
      (phase : state.phase caller = .waiting id notified) (expired : state.elapsed id)
      (free : ¬ state.reader.isStoring) :
      Moved isError state (.timeOut caller) (state.setPhase caller (.returned id none))
  | find {caller : Nat} {id : Int} (phase : state.phase caller = .awake id) :
      Moved isError state (.find caller) (state.look caller id)
  | read {caller : Nat} {id : Int} (phase : state.phase caller = .looking id) :
      Moved isError state (.read caller) (state.finish isError caller id)

section Steps

variable {isError : Value → Bool} {state next : Endpoint Value} {label : CallStep Value}

/-- These are all the steps. -/
theorem moved_of_proceed (moved : state.proceed isError label = some next) :
    Moved isError state label next := by
  cases label <;> simp only [Endpoint.proceed] at moved
  case takeId caller =>
    split at moved
    · obtain rfl := Option.some.inj moved
      exact .takeId ‹_›
    · simp at moved
  case send caller =>
    split at moved
    · obtain ⟨free, rfl⟩ := of_guarded moved
      exact .send ‹_› free
    · simp at moved
  case handleResult rpcId response =>
    split at moved
    · rename_i idle
      split at moved
      · rename_i noId
        obtain rfl := Option.some.inj moved
        rw [noId]
        exact .noId idle
      · obtain ⟨⟨sent, unanswered⟩, rfl⟩ := of_guarded moved
        exact .handleResult idle sent unanswered
    · simp at moved
  case unlock =>
    split at moved
    · obtain rfl := Option.some.inj moved
      exact .unlock ‹_›
    · simp at moved
  case notify =>
    split at moved
    · obtain rfl := Option.some.inj moved
      exact .notify ‹_›
    · simp at moved
  case wake caller =>
    split at moved
    · obtain ⟨free, rfl⟩ := of_guarded moved
      exact .wake ‹_› free
    · simp at moved
  case spurious caller =>
    split at moved
    · obtain ⟨free, rfl⟩ := of_guarded moved
      exact .spurious ‹_› free
    · simp at moved
  case elapse id =>
    obtain ⟨⟨sent, before⟩, rfl⟩ := of_guarded moved
    exact .elapse sent before
  case timeOut caller =>
    split at moved
    · obtain ⟨⟨expired, free⟩, rfl⟩ := of_guarded moved
      exact .timeOut ‹_› expired free
    · simp at moved
  case find caller =>
    split at moved
    · obtain rfl := Option.some.inj moved
      exact .find ‹_›
    · simp at moved
  case read caller =>
    split at moved
    · obtain rfl := Option.some.inj moved
      exact .read ‹_›
    · simp at moved

/-- A step interferes with a use of a dictionary, or is one of these. -/
theorem Endpoint.move_cases (moved : state.move isError label = some next) :
    state.undefined = false ∧
      (state.races label = true ∧ next = state.race ∨
        state.races label = false ∧ Moved isError state label next) := by
  rw [Endpoint.move] at moved
  split at moved
  · simp at moved
  · rename_i defined
    obtain ⟨after, proceeds, rfl⟩ := Option.map_eq_some_iff.mp moved
    refine ⟨Bool.not_eq_true _ ▸ defined, ?_⟩
    cases interferes : state.races label with
    | true => exact .inl ⟨rfl, if_pos rfl⟩
    | false => exact .inr ⟨rfl, moved_of_proceed proceeds⟩

/-- Steps that do not interfere can be taken. -/
theorem Endpoint.move_of_proceed (defined : state.undefined = false)
    (apart : state.races label = false) (proceeds : state.proceed isError label = some next) :
    state.move isError label = some next := by
  rw [Endpoint.move, defined, proceeds, apart]
  rfl

/-- They leave the behaviour defined. -/
theorem Moved.undefined_eq (moved : Moved isError state label next) :
    next.undefined = state.undefined := by
  cases moved <;> rfl

@[simp]
theorem CallPhase.notify_id (id : Int) (phase : CallPhase Value) :
    (phase.notify id).id = phase.id := by
  cases phase with
  | waiting own notified =>
      by_cases same : own = id <;> simp [CallPhase.notify, CallPhase.id, same]
  | idle | started | awake | looking | returned => rfl

theorem Endpoint.setPhase_self (caller : Nat) (phase : CallPhase Value) :
    (state.setPhase caller phase).phase caller = phase :=
  Function.update_self ..

theorem Endpoint.setPhase_other {caller other : Nat} (different : other ≠ caller)
    (phase : CallPhase Value) : (state.setPhase caller phase).phase other = state.phase other :=
  Function.update_of_ne different ..

/-- A call that waits goes on waiting when the reader notifies. -/
theorem Endpoint.signal_phase (found : Option Int) (caller : Nat) :
    (state.signal found).phase caller = state.phase caller ∨
      ∃ id, found = some id ∧ (state.signal found).phase caller = (state.phase caller).notify id := by
  cases found with
  | none => exact .inl rfl
  | some id => exact .inr ⟨id, rfl, rfl⟩

end Steps

/-! ## What holds in every run -/

section Store

variable (state : Endpoint Value) (rpcId : Int) (response : Response Value)

theorem Endpoint.store_responseDict :
    (state.store rpcId response).responseDict rpcId = some response := Function.update_self ..

theorem Endpoint.store_inTime :
    (state.store rpcId response).inTime rpcId = !state.elapsed rpcId := Function.update_self ..

theorem Endpoint.store_other {own : Int} (other : own ≠ rpcId) :
    (state.store rpcId response).responseDict own = state.responseDict own ∧
      (state.store rpcId response).inTime own = state.inTime own :=
  ⟨Function.update_of_ne other .., Function.update_of_ne other ..⟩

end Store

/-- What holds of one call: the condition variable of a call that waits is registered,
and its notification is not lost. -/
def CallSound (isError : Value → Bool) (state : Endpoint Value) : CallPhase Value → Prop
  | .idle => True
  | .started id => state.sent id = false
  | .waiting id notified => state.sent id ∧ state.eventDict id ∧
      (notified = false → state.responseDict id ≠ none → state.reader = .notifying (some id))
  | .awake id | .looking id => state.sent id
  | .returned id result => ∀ value, result = some value →
      ∃ response, state.responseDict id = some response ∧ response.answer isError = some value

/-- The ids are those of one call each, and what is stored answers a request. -/
structure Sound (isError : Value → Bool) (state : Endpoint Value) : Prop where
  known : ∀ caller id, (state.phase caller).id = some id → 0 ≤ id ∧ id < state.nextId
  own : ∀ first second id, (state.phase first).id = some id → (state.phase second).id = some id →
    first = second
  nonneg : 0 ≤ state.nextId
  sent : ∀ id, state.sent id → id < state.nextId
  storing : ∀ id response, state.reader = .storing id response →
    state.sent id ∧ state.responseDict id = none
  stored : ∀ id, state.responseDict id ≠ none → state.sent id
  timed : ∀ id, state.responseDict id ≠ none → state.inTime id = false → state.elapsed id
  calls : ∀ caller, CallSound isError state (state.phase caller)

section Sound

variable {isError : Value → Bool} {state next : Endpoint Value} {label : CallStep Value}

/-- A call is concerned by what happens to its own id only. -/
theorem CallSound.frame {phase : CallPhase Value} (sound : CallSound isError state phase)
    (same : ∀ id, phase.id = some id → next.sent id = state.sent id ∧
      next.eventDict id = state.eventDict id ∧ next.responseDict id = state.responseDict id ∧
        (state.reader = .notifying (some id) → next.reader = .notifying (some id))) :
    CallSound isError next phase := by
  cases phase with
  | idle => trivial
  | started id =>
      obtain ⟨sent, -⟩ := same id rfl
      exact sent.trans sound
  | waiting id notified =>
      obtain ⟨sent, registered, stored, pending⟩ := same id rfl
      obtain ⟨isSent, isRegistered, noted⟩ := sound
      refine ⟨sent.trans isSent, registered.trans isRegistered, fun unnoticed answered => ?_⟩
      exact pending (noted unnoticed (stored ▸ answered))
  | awake id | looking id =>
      obtain ⟨sent, -⟩ := same id rfl
      exact sent.trans sound
  | returned id result =>
      obtain ⟨-, -, stored, -⟩ := same id rfl
      intro value returned
      rw [stored]
      exact sound value returned

/-- Another call has another id. -/
theorem Sound.id_ne (sound : Sound isError state) {caller other : Nat} {id own : Int}
    (holds : (state.phase caller).id = some id) (different : other ≠ caller)
    (otherId : (state.phase other).id = some own) : own ≠ id := by
  rintro rfl
  exact different (sound.own other caller own otherId holds)

/-- A call moves on with its id: it may send its request and register or erase its
condition variable. -/
structure Advances (state : Endpoint Value) (caller : Nat) (id : Int) (phase : CallPhase Value)
    (next : Endpoint Value) : Prop where
  holds : (state.phase caller).id = some id
  keeps : phase.id = some id
  phases : next.phase = Function.update state.phase caller phase
  nextId : next.nextId = state.nextId
  responses : next.responseDict = state.responseDict
  inTime : next.inTime = state.inTime
  elapsed : next.elapsed = state.elapsed
  reader : next.reader = state.reader
  requests : ∀ own, state.sent own → next.sent own
  others : ∀ own, own ≠ id → next.sent own = state.sent own ∧
    next.eventDict own = state.eventDict own

theorem Advances.setPhase {caller : Nat} {id : Int} {phase : CallPhase Value}
    (holds : (state.phase caller).id = some id) (keeps : phase.id = some id) :
    Advances state caller id phase (state.setPhase caller phase) :=
  ⟨holds, keeps, rfl, rfl, rfl, rfl, rfl, rfl, fun _ sent => sent, fun _ _ => ⟨rfl, rfl⟩⟩

theorem Advances.look {caller : Nat} {id : Int} (holds : (state.phase caller).id = some id) :
    Advances state caller id (.looking id) (state.look caller id) :=
  ⟨holds, rfl, rfl, rfl, rfl, rfl, rfl, rfl, fun _ sent => sent, fun _ _ => ⟨rfl, rfl⟩⟩

theorem Advances.finish {caller : Nat} {id : Int} (holds : (state.phase caller).id = some id) :
    Advances state caller id
      (.returned id ((state.responseDict id).bind fun response => response.answer isError))
      (state.finish isError caller id) :=
  ⟨holds, rfl, rfl, rfl, rfl, rfl, rfl, rfl, fun _ sent => sent, fun _ _ => ⟨rfl, rfl⟩⟩

theorem Advances.leave {caller : Nat} {id : Int} (holds : (state.phase caller).id = some id) :
    Advances state caller id (.awake id) (state.leave caller id) :=
  ⟨holds, rfl, rfl, rfl, rfl, rfl, rfl, rfl, fun _ sent => sent,
    fun _ other => ⟨rfl, Function.update_of_ne other ..⟩⟩

theorem Advances.register {caller : Nat} {id : Int} (holds : (state.phase caller).id = some id) :
    Advances state caller id (.waiting id false) (state.register caller id) := by
  refine ⟨holds, rfl, rfl, rfl, rfl, rfl, rfl, rfl, fun own sent => ?_, fun own other => ?_⟩
  · by_cases isCaller : own = id
    · rw [isCaller]
      exact Function.update_self ..
    · exact (Function.update_of_ne isCaller ..).trans sent
  · exact ⟨Function.update_of_ne other .., Function.update_of_ne other ..⟩

/-- The other calls are not concerned. -/
theorem Sound.advance (sound : Sound isError state) {caller : Nat} {id : Int}
    {phase : CallPhase Value} (advances : Advances state caller id phase next)
    (moving : CallSound isError next phase) : Sound isError next := by
  have ids (other : Nat) : (next.phase other).id = (state.phase other).id := by
    rw [advances.phases]
    by_cases isCaller : other = caller
    · rw [isCaller, Function.update_self, advances.keeps, advances.holds]
    · rw [Function.update_of_ne isCaller]
  constructor
  case known =>
    intro other own otherId
    rw [ids] at otherId
    exact advances.nextId ▸ sound.known other own otherId
  case own =>
    intro first second own firstId secondId
    rw [ids] at firstId secondId
    exact sound.own first second own firstId secondId
  case nonneg => exact advances.nextId ▸ sound.nonneg
  case sent =>
    intro own sent
    rw [advances.nextId]
    by_cases isCaller : own = id
    · exact isCaller ▸ (sound.known caller id advances.holds).2
    · exact sound.sent own ((advances.others own isCaller).1 ▸ sent)
  case storing =>
    intro own response storing
    obtain ⟨sent, unanswered⟩ := sound.storing own response (advances.reader ▸ storing)
    exact ⟨advances.requests own sent, advances.responses ▸ unanswered⟩
  case stored =>
    intro own answered
    exact advances.requests own (sound.stored own (advances.responses ▸ answered))
  case timed =>
    intro own answered late
    rw [advances.elapsed]
    exact sound.timed own (advances.responses ▸ answered) (advances.inTime ▸ late)
  case calls =>
    intro other
    rw [advances.phases]
    by_cases isCaller : other = caller
    · rw [isCaller, Function.update_self]
      exact moving
    · rw [Function.update_of_ne isCaller]
      refine (sound.calls other).frame fun own otherId => ?_
      obtain ⟨sent, registered⟩ := advances.others own
        (sound.id_ne advances.holds isCaller otherId)
      exact ⟨sent, registered, congrFun advances.responses own,
        fun pending => advances.reader.trans pending⟩

/-- What is known of a call in a phase. -/
theorem Sound.call (sound : Sound isError state) {caller : Nat} {phase : CallPhase Value}
    (isPhase : state.phase caller = phase) : CallSound isError state phase :=
  isPhase ▸ sound.calls caller

/-- A call that begins takes an id that no other call has. -/
theorem Sound.begin (sound : Sound isError state) (caller : Nat) :
    Sound isError (state.begin caller) := by
  have fresh (other : Nat) : (state.phase other).id ≠ some state.nextId := fun taken =>
    Int.lt_irrefl _ (sound.known other _ taken).2
  have ids (other : Nat) (own : Int)
      (holds : ((state.setPhase caller (.started state.nextId)).phase other).id = some own) :
      (other = caller ∧ own = state.nextId) ∨
        (other ≠ caller ∧ (state.phase other).id = some own) := by
    by_cases isCaller : other = caller
    · rw [isCaller, Endpoint.setPhase_self] at holds
      exact .inl ⟨isCaller, (Option.some.inj holds).symm⟩
    · rw [Endpoint.setPhase_other isCaller] at holds
      exact .inr ⟨isCaller, holds⟩
  have later {own : Int} (known : own < state.nextId) : own < state.nextId + 1 :=
    Int.lt_trans known (Int.lt_succ _)
  constructor
  case known =>
    intro other own holds
    rcases ids other own holds with ⟨-, rfl⟩ | ⟨-, earlier⟩
    · exact ⟨sound.nonneg, Int.lt_succ _⟩
    · exact ⟨(sound.known other own earlier).1, later (sound.known other own earlier).2⟩
  case own =>
    intro first second own firstHolds secondHolds
    rcases ids first own firstHolds with ⟨firstIs, firstNew⟩ | ⟨-, firstOld⟩ <;>
      rcases ids second own secondHolds with ⟨secondIs, secondNew⟩ | ⟨-, secondOld⟩
    · exact firstIs.trans secondIs.symm
    · exact absurd (firstNew ▸ secondOld) (fresh second)
    · exact absurd (secondNew ▸ firstOld) (fresh first)
    · exact sound.own first second own firstOld secondOld
  case nonneg => exact Int.le_of_lt (Int.lt_of_le_of_lt sound.nonneg (Int.lt_succ _))
  case sent => exact fun own sent => later (sound.sent own sent)
  case storing => exact sound.storing
  case stored => exact sound.stored
  case timed => exact sound.timed
  case calls =>
    intro other
    by_cases isCaller : other = caller
    · rw [isCaller]
      show CallSound isError _ ((state.setPhase caller (.started state.nextId)).phase caller)
      rw [Endpoint.setPhase_self]
      exact Bool.eq_false_iff.mpr fun sent => Int.lt_irrefl _ (sound.sent _ sent)
    · show CallSound isError _ ((state.setPhase caller (.started state.nextId)).phase other)
      rw [Endpoint.setPhase_other isCaller]
      exact (sound.calls other).frame fun own _ => ⟨rfl, rfl, rfl, fun pending => pending⟩

/-- The reader stores a response, and is about to notify the call that waits for it. -/
theorem Sound.store (sound : Sound isError state) {rpcId : Int} {response : Response Value}
    (storing : state.reader = .storing rpcId response) :
    Sound isError (state.store rpcId response) := by
  obtain ⟨sent, unanswered⟩ := sound.storing rpcId response storing
  refine ⟨sound.known, sound.own, sound.nonneg, sound.sent, ?_, ?_, ?_, ?_⟩
  · exact fun own other isStoring => by simp [Endpoint.store] at isStoring
  · intro own answered
    by_cases isAnswered : own = rpcId
    · exact isAnswered ▸ sent
    · exact sound.stored own ((state.store_other rpcId response isAnswered).1 ▸ answered)
  · intro own answered late
    by_cases isAnswered : own = rpcId
    · rw [isAnswered, Endpoint.store_inTime] at late
      have expired : state.elapsed rpcId = true := by simpa using late
      exact isAnswered ▸ expired
    · obtain ⟨sameResponse, sameTime⟩ := state.store_other rpcId response isAnswered
      exact sound.timed own (sameResponse ▸ answered) (sameTime ▸ late)
  · intro caller
    have call := sound.calls caller
    by_cases isAnswered : (state.phase caller).id = some rpcId
    · show CallSound isError (state.store rpcId response) (state.phase caller)
      cases phase : state.phase caller with
      | idle => trivial
      | started own =>
          rw [phase] at call
          exact call
      | waiting own notified =>
          rw [phase] at call isAnswered
          obtain rfl : own = rpcId := Option.some.inj isAnswered
          have registered : state.eventDict own = true := call.2.1
          refine ⟨call.1, registered, fun _ _ => ?_⟩
          show ReaderPhase.notifying _ = _
          rw [registered, if_pos rfl]
      | awake own | looking own =>
          rw [phase] at call
          exact call
      | returned own result =>
          rw [phase] at call isAnswered
          obtain rfl : own = rpcId := Option.some.inj isAnswered
          intro value returned
          obtain ⟨early, answered, -⟩ := call value returned
          exact absurd (unanswered.symm.trans answered) (by simp)
    · refine call.frame fun own holds => ⟨rfl, rfl, ?_, ?_⟩
      · exact (state.store_other rpcId response fun same => isAnswered (same ▸ holds)).1
      · simp [storing]

/-- A call is sound when the reader has notified. -/
theorem CallSound.signal {phase : CallPhase Value} (call : CallSound isError state phase)
    {id : Int} (pending : state.reader = .notifying (some id)) :
    CallSound isError (state.signal (some id)) (phase.notify id) := by
  cases phase with
  | idle => trivial
  | waiting own notified =>
      obtain ⟨sent, registered, noted⟩ := call
      by_cases same : own = id
      · rw [CallPhase.notify, if_pos same]
        exact ⟨sent, registered, fun unnoticed => absurd unnoticed (by simp)⟩
      · rw [CallPhase.notify, if_neg same]
        refine ⟨sent, registered, fun unnoticed answered => ?_⟩
        have isPending := noted unnoticed answered
        rw [pending, ReaderPhase.notifying.injEq] at isPending
        exact absurd (Option.some.inj isPending).symm same
  | started own | awake own | looking own | returned own result => exact call

/-- The reader notifies the call that waits for its response. -/
theorem Sound.signal (sound : Sound isError state) {found : Option Int}
    (pending : state.reader = .notifying found) : Sound isError (state.signal found) := by
  have ids (caller : Nat) : ((state.signal found).phase caller).id = (state.phase caller).id := by
    rcases state.signal_phase found caller with same | ⟨id, -, notified⟩
    · rw [same]
    · rw [notified, CallPhase.notify_id]
  refine ⟨?_, ?_, sound.nonneg, sound.sent, ?_, sound.stored, sound.timed, ?_⟩
  · intro caller own holds
    exact sound.known caller own (ids caller ▸ holds)
  · intro first second own firstHolds secondHolds
    exact sound.own first second own (ids first ▸ firstHolds) (ids second ▸ secondHolds)
  · exact fun own response storing => by simp [Endpoint.signal] at storing
  · intro caller
    cases found with
    | none =>
        refine (sound.calls caller).frame fun own _ => ⟨rfl, rfl, rfl, fun waits => ?_⟩
        simp [pending] at waits
    | some id => exact (sound.calls caller).signal pending

/-- Every step that does not interfere keeps this. -/
theorem Sound.proceed (sound : Sound isError state) (moved : Moved isError state label next) :
    Sound isError next := by
  cases moved with
  | @takeId caller phase => exact sound.begin caller
  | @send caller id phase free =>
      have unsent : state.sent id = false := sound.call phase
      have holds : (state.phase caller).id = some id := by rw [phase]; rfl
      refine sound.advance (.register holds)
        ⟨Function.update_self .., Function.update_self .., fun _ answered => ?_⟩
      exact absurd (sound.stored id answered) (by simp [unsent])
  | noId idle => exact sound
  | @handleResult rpcId response idle sent unanswered =>
      refine ⟨sound.known, sound.own, sound.nonneg, sound.sent, ?_, sound.stored, sound.timed, ?_⟩
      · intro own other storing
        obtain ⟨rfl, -⟩ := ReaderPhase.storing.inj storing
        exact ⟨sent, unanswered⟩
      · refine fun caller => (sound.calls caller).frame fun own _ => ⟨rfl, rfl, rfl, fun waits => ?_⟩
        simp [idle] at waits
  | @unlock rpcId response storing => exact sound.store storing
  | @notify found pending => exact sound.signal pending
  | @wake caller id phase free =>
      have holds : (state.phase caller).id = some id := by rw [phase]; rfl
      obtain ⟨sent, -⟩ := sound.call phase
      exact sound.advance (.leave holds) sent
  | @spurious caller id notified phase free =>
      have holds : (state.phase caller).id = some id := by rw [phase]; rfl
      obtain ⟨sent, -⟩ := sound.call phase
      exact sound.advance (.leave holds) sent
  | @elapse id sent before =>
      refine ⟨sound.known, sound.own, sound.nonneg, sound.sent, sound.storing, sound.stored, ?_,
        sound.calls⟩
      intro own answered late
      by_cases isCaller : own = id
      · exact isCaller ▸ Function.update_self ..
      · exact (Function.update_of_ne isCaller ..).trans (sound.timed own answered late)
  | @timeOut caller id notified phase expired free =>
      have holds : (state.phase caller).id = some id := by rw [phase]; rfl
      exact sound.advance (.setPhase holds rfl) (fun value returned => by simp at returned)
  | @find caller id phase =>
      have holds : (state.phase caller).id = some id := by rw [phase]; rfl
      have sent : state.sent id = true := sound.call phase
      exact sound.advance (.look holds) sent
  | @read caller id phase =>
      have holds : (state.phase caller).id = some id := by rw [phase]; rfl
      refine sound.advance (.finish holds) (fun value returned => ?_)
      exact Option.bind_eq_some_iff.mp returned

/-- Every step keeps this. -/
theorem Sound.move (sound : Sound isError state) (moved : state.move isError label = some next) :
    Sound isError next := by
  rcases Endpoint.move_cases moved with ⟨-, ⟨-, rfl⟩ | ⟨-, moved⟩⟩
  · exact ⟨sound.known, sound.own, sound.nonneg, sound.sent, sound.storing, sound.stored,
      sound.timed, fun caller => (sound.calls caller).frame fun _ _ =>
        ⟨rfl, rfl, rfl, fun waits => waits⟩⟩
  · exact sound.proceed moved

end Sound

end MergeBot.Lsp
