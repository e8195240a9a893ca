import Mathlib.Data.List.Perm.Basic
import MergeBot.Foundation.RingBuffer
import MergeBot.Foundation.Runs

/-!
# The thread pool

Worker threads take tasks out of a queue that any thread may add to. What a thread does under the
mutex is one step, and a worker that waits for the condition variable has released the mutex. Tasks
are taken in the order in which they were accepted, whatever the order of the steps (`fifo`), no
wakeup is lost (`settles`), and a graceful shutdown that returns has run all tasks (`graceful`).
A second call of `threadpool_destroy` returns with the mutex locked (`locked_forever`).
-/

namespace MergeBot

open Foundation

def THREADPOOL_QUEUE_FULL : Int := -3

def THREADPOOL_SHUTDOWN : Int := -4

def MAX_THREADS : Int := 1024

def MAX_QUEUE : Int := 65535

inductive ShutDownOption
  | immediateShutdown
  | gracefulShutdown
deriving DecidableEq, Repr

/-- Where a worker is. -/
inductive WorkerPhase (Task : Type)
  /-- In front of the mutex: at the top of its loop, or woken up. -/
  | ready
  /-- In `pthread_cond_wait`, without the mutex. -/
  | waiting
  | running (task : Task)
  | finished
deriving DecidableEq, Repr

namespace WorkerPhase

variable {Task : Type}

/-- The condition is signalled, which only a worker that waits notices. -/
def wake : WorkerPhase Task → WorkerPhase Task
  | waiting => ready
  | phase => phase

/-- The task that a worker runs. -/
def task? : WorkerPhase Task → Option Task
  | running task => some task
  | _ => none

/-- How many more steps a worker takes of its own. -/
def weight : WorkerPhase Task → Nat
  | running _ => 2
  | ready => 1
  | _ => 0

def isFinished : WorkerPhase Task → Bool
  | finished => true
  | _ => false

def isWaiting : WorkerPhase Task → Bool
  | waiting => true
  | _ => false

theorem eq_waiting {phase : WorkerPhase Task} (waits : phase.isWaiting = true) :
    phase = .waiting := by
  cases phase with
  | waiting => rfl
  | _ => exact absurd waits nofun

@[simp]
theorem task?_wake (phase : WorkerPhase Task) : phase.wake.task? = phase.task? := by
  cases phase <;> rfl

@[simp]
theorem isFinished_wake (phase : WorkerPhase Task) : phase.wake.isFinished = phase.isFinished := by
  cases phase <;> rfl

@[simp]
theorem isWaiting_wake (phase : WorkerPhase Task) : phase.wake.isWaiting = false := by
  cases phase <;> rfl

end WorkerPhase

/-- The pool and its workers, and what has become of the tasks so far. -/
structure ThreadPool (Task : Type) where
  queue : RingBuffer Task
  shutdown : Option ShutDownOption
  threadCount : Nat
  started : Nat
  phase : Nat → WorkerPhase Task
  /-- The mutex is held by a thread that will not release it. -/
  locked : Bool
  /-- A call of `threadpool_destroy` waits for the threads. -/
  joining : Bool
  /-- That call has returned. -/
  destroyed : Bool
  accepted : List Task
  taken : List Task
  done : List Task

/-- A step. A section under the mutex is one step. -/
inductive PoolStep (Task : Type)
  /-- `threadpool_add`, and the worker that its signal wakes up. -/
  | add (task : Task) (woken : Option Nat)
  /-- `threadpool_destroy` up to joining the threads. -/
  | destroy (option : ShutDownOption)
  /-- The rest of it. -/
  | join
  /-- A worker in `threadpool_thread` gets the mutex, and releases it again. -/
  | turn (worker : Nat)
  /-- The task of a worker returns. -/
  | finish (worker : Nat)
  /-- A worker wakes up without a signal. -/
  | spurious (worker : Nat)
deriving DecidableEq, Repr

/-- A step that a worker takes by itself. -/
def PoolStep.isWork {Task : Type} : PoolStep Task → Bool
  | .turn _ | .finish _ => true
  | _ => false

namespace ThreadPool

variable {Task : Type}

/-- Start the workers. Numbers out of range are replaced. -/
def threadpoolCreate (threadCount queueSize : Int) : ThreadPool Task :=
  let valid := decide (0 < threadCount ∧ threadCount ≤ MAX_THREADS ∧ 0 < queueSize ∧
    queueSize ≤ MAX_QUEUE)
  let threads := if valid then threadCount.toNat else 4
  { queue := .empty (if valid then queueSize.toNat else 1024)
    shutdown := none
    threadCount := threads
    started := threads
    phase _ := .ready
    locked := false
    joining := false
    destroyed := false
    accepted := []
    taken := []
    done := [] }

variable (pool : ThreadPool Task)

def setPhase (worker : Nat) (phase : WorkerPhase Task) : ThreadPool Task :=
  { pool with phase := Function.update pool.phase worker phase }

/-- Wake one worker up. -/
def signal : Option Nat → ThreadPool Task
  | some worker => pool.setPhase worker .ready
  | none => pool

/-- Whom a signal can wake up: a worker that waits, and nobody only when no worker does. -/
def Signals : Option Nat → Prop
  | some worker => worker < pool.threadCount ∧ (pool.phase worker).isWaiting = true
  | none => ∀ worker < pool.threadCount, (pool.phase worker).isWaiting = false

instance : (woken : Option Nat) → Decidable (pool.Signals woken)
  | some worker =>
      inferInstanceAs (Decidable (worker < pool.threadCount ∧
        (pool.phase worker).isWaiting = true))
  | none =>
      inferInstanceAs (Decidable (∀ worker < pool.threadCount,
        (pool.phase worker).isWaiting = false))

/-- Put a task into the queue. -/
def accept (task : Task) : ThreadPool Task :=
  { pool with queue := pool.queue.push task, accepted := pool.accepted ++ [task] }

/-- What it returns, and the pool. -/
def threadpoolAdd (task : Task) (woken : Option Nat) : Option (Int × ThreadPool Task) :=
  if pool.locked then none
  else if pool.queue.count = pool.queue.size then some (THREADPOOL_QUEUE_FULL, pool)
  else if pool.shutdown.isSome then some (THREADPOOL_SHUTDOWN, pool)
  else if pool.Signals woken then some (0, (pool.accept task).signal woken)
  else none

/-- Begin to shut down: everybody is woken up. -/
def shut (option : ShutDownOption) : ThreadPool Task :=
  { pool with
    shutdown := some option
    phase := fun worker => (pool.phase worker).wake
    joining := true }

/-- The error that it returns, unless it joins the threads, and the pool. -/
def threadpoolDestroy (option : ShutDownOption) : Option (Option Int × ThreadPool Task) :=
  if pool.locked then none
  else if pool.shutdown.isSome then
    -- the way out of the block leaves the mutex locked
    some (some THREADPOOL_SHUTDOWN, { pool with locked := true })
  else some (none, pool.shut option)

/-- All threads are joined, and `threadpool_free` destroys the mutex after it has locked it. -/
def threadpoolJoin : Option (ThreadPool Task) :=
  if pool.joining ∧ ∀ worker < pool.threadCount, (pool.phase worker).isFinished = true then
    if 0 < pool.started then some { pool with joining := false, destroyed := true }
    else if pool.locked then none
    else some { pool with joining := false, destroyed := true, locked := true }
  else none

/-- A worker leaves its loop. -/
def exit (worker : Nat) : ThreadPool Task :=
  { pool.setPhase worker .finished with started := pool.started - 1 }

/-- A worker takes the first task. -/
def take (worker : Nat) (task : Task) : ThreadPool Task :=
  { pool.setPhase worker (.running task) with
    queue := pool.queue.pop.2
    taken := pool.taken ++ [task] }

/-- A turn of a worker: it waits, leaves, or takes a task. -/
def threadpoolThread (worker : Nat) : Option (ThreadPool Task) :=
  match pool.phase worker with
  | .ready =>
      if pool.locked ∨ pool.threadCount ≤ worker then none
      else if pool.queue.count = 0 ∧ pool.shutdown = none then
        some (pool.setPhase worker .waiting)
      else if pool.shutdown = some .immediateShutdown ∨
          (pool.shutdown = some .gracefulShutdown ∧ pool.queue.count = 0) then
        some (pool.exit worker)
      else pool.queue.pop.1.map (pool.take worker)
  | _ => none

/-- A task returns. -/
def complete (worker : Nat) (task : Task) : ThreadPool Task :=
  { pool.setPhase worker .ready with done := pool.done ++ [task] }

def move : PoolStep Task → Option (ThreadPool Task)
  | .add task woken => (pool.threadpoolAdd task woken).map Prod.snd
  | .destroy option => (pool.threadpoolDestroy option).map Prod.snd
  | .join => pool.threadpoolJoin
  | .turn worker => pool.threadpoolThread worker
  | .finish worker =>
      if worker < pool.threadCount then (pool.phase worker).task?.map (pool.complete worker)
      else none
  | .spurious worker =>
      if worker < pool.threadCount ∧ (pool.phase worker).isWaiting = true then
        some (pool.setPhase worker .ready)
      else none

/-! ## What a step does -/

/-- When a step is possible, and where it leads. -/
inductive Moved : PoolStep Task → ThreadPool Task → Prop
  | refused {task : Task} {woken : Option Nat} (unlocked : pool.locked = false)
      (refuses : pool.queue.count = pool.queue.size ∨ pool.shutdown ≠ none) :
      Moved (.add task woken) pool
  | add {task : Task} {woken : Option Nat} (unlocked : pool.locked = false)
      (room : pool.queue.count ≠ pool.queue.size) (up : pool.shutdown = none)
      (signals : pool.Signals woken) : Moved (.add task woken) ((pool.accept task).signal woken)
  | again {option : ShutDownOption} (unlocked : pool.locked = false)
      (down : pool.shutdown ≠ none) : Moved (.destroy option) { pool with locked := true }
  | shut {option : ShutDownOption} (unlocked : pool.locked = false) (up : pool.shutdown = none) :
      Moved (.destroy option) (pool.shut option)
  | join {locked : Bool} (joining : pool.joining = true)
      (finished : ∀ worker < pool.threadCount, (pool.phase worker).isFinished = true)
      (frees : 0 < pool.started ∧ locked = pool.locked ∨ pool.locked = false ∧ locked = true) :
      Moved .join { pool with joining := false, destroyed := true, locked := locked }
  | wait {worker : Nat} (unlocked : pool.locked = false) (isWorker : worker < pool.threadCount)
      (phase : pool.phase worker = .ready) (empty : pool.queue.count = 0)
      (up : pool.shutdown = none) : Moved (.turn worker) (pool.setPhase worker .waiting)
  | exit {worker : Nat} (unlocked : pool.locked = false) (isWorker : worker < pool.threadCount)
      (phase : pool.phase worker = .ready) (down : pool.shutdown ≠ none)
      (drained : pool.shutdown = some .gracefulShutdown → pool.queue.count = 0) :
      Moved (.turn worker) (pool.exit worker)
  | take {worker : Nat} {task : Task} (unlocked : pool.locked = false)
      (isWorker : worker < pool.threadCount) (phase : pool.phase worker = .ready)
      (goesOn : pool.shutdown ≠ some .immediateShutdown) (queued : pool.queue.count ≠ 0)
      (first : pool.queue.pop.1 = some task) : Moved (.turn worker) (pool.take worker task)
  | finish {worker : Nat} {task : Task} (isWorker : worker < pool.threadCount)
      (phase : pool.phase worker = .running task) :
      Moved (.finish worker) (pool.complete worker task)
  | spurious {worker : Nat} (isWorker : worker < pool.threadCount)
      (phase : pool.phase worker = .waiting) :
      Moved (.spurious worker) (pool.setPhase worker .ready)

variable {pool}

theorem move_spec {step : PoolStep Task} {next : ThreadPool Task}
    (moved : pool.move step = some next) : pool.Moved step next := by
  cases step with
  | add task woken =>
    obtain ⟨⟨code, final⟩, added, rfl⟩ := Option.map_eq_some_iff.mp moved
    unfold threadpoolAdd at added
    split at added
    · exact absurd added nofun
    · rename_i unlocked
      rw [Bool.not_eq_true] at unlocked
      split at added
      · rename_i full
        obtain ⟨rfl, rfl⟩ := Prod.mk.inj (Option.some.inj added)
        exact .refused unlocked (.inl full)
      · rename_i room
        split at added
        · rename_i down
          obtain ⟨rfl, rfl⟩ := Prod.mk.inj (Option.some.inj added)
          exact .refused unlocked (.inr (Option.isSome_iff_ne_none.mp down))
        · rename_i up
          obtain ⟨signals, same⟩ := of_guarded added
          obtain ⟨rfl, rfl⟩ := Prod.mk.inj same
          exact .add unlocked room (Option.not_isSome_iff_eq_none.mp up) signals
  | destroy option =>
    obtain ⟨⟨code, final⟩, destroyed, rfl⟩ := Option.map_eq_some_iff.mp moved
    unfold threadpoolDestroy at destroyed
    split at destroyed
    · exact absurd destroyed nofun
    · rename_i unlocked
      rw [Bool.not_eq_true] at unlocked
      split at destroyed
      · rename_i down
        obtain ⟨rfl, rfl⟩ := Prod.mk.inj (Option.some.inj destroyed)
        exact .again unlocked (Option.isSome_iff_ne_none.mp down)
      · rename_i up
        obtain ⟨rfl, rfl⟩ := Prod.mk.inj (Option.some.inj destroyed)
        exact .shut unlocked (Option.not_isSome_iff_eq_none.mp up)
  | join =>
    have joined : pool.threadpoolJoin = some next := moved
    unfold threadpoolJoin at joined
    split at joined
    · rename_i ready
      split at joined
      · rename_i left
        obtain rfl := Option.some.inj joined
        exact .join ready.1 ready.2 (.inl ⟨left, rfl⟩)
      · split at joined
        · exact absurd joined nofun
        · rename_i unlocked
          rw [Bool.not_eq_true] at unlocked
          obtain rfl := Option.some.inj joined
          exact .join ready.1 ready.2 (.inr ⟨unlocked, rfl⟩)
    · exact absurd joined nofun
  | turn worker =>
    have turned : pool.threadpoolThread worker = some next := moved
    unfold threadpoolThread at turned
    split at turned
    · rename_i phase
      split at turned
      · exact absurd turned nofun
      · rename_i free
        obtain ⟨unlocked, isWorker⟩ := not_or.mp free
        rw [Bool.not_eq_true] at unlocked
        rw [Nat.not_le] at isWorker
        split at turned
        · rename_i idle
          obtain rfl := Option.some.inj turned
          exact .wait unlocked isWorker phase idle.1 idle.2
        · rename_i busy
          split at turned
          · rename_i leaves
            obtain rfl := Option.some.inj turned
            refine .exit unlocked isWorker phase ?_ ?_
            · rcases leaves with immediate | ⟨graceful, -⟩
              · rw [immediate]
                exact nofun
              · rw [graceful]
                exact nofun
            · intro graceful
              rcases leaves with immediate | ⟨-, empty⟩
              · rw [immediate] at graceful
                exact absurd graceful nofun
              · exact empty
          · rename_i stays
            obtain ⟨immediate, graceful⟩ := not_or.mp stays
            obtain ⟨task, first, rfl⟩ := Option.map_eq_some_iff.mp turned
            refine .take unlocked isWorker phase immediate (fun empty => ?_) first
            cases down : pool.shutdown with
            | none => exact busy ⟨empty, down⟩
            | some option =>
              cases option with
              | immediateShutdown => exact immediate down
              | gracefulShutdown => exact graceful ⟨down, empty⟩
    · exact absurd turned nofun
  | finish worker =>
    obtain ⟨isWorker, finished⟩ := Option.ite_none_right_eq_some.mp moved
    obtain ⟨task, isTask, rfl⟩ := Option.map_eq_some_iff.mp finished
    refine .finish isWorker ?_
    cases phase : pool.phase worker with
    | running other =>
      rw [phase] at isTask
      obtain rfl := Option.some.inj isTask
      rfl
    | _ =>
      rw [phase] at isTask
      exact absurd isTask nofun
  | spurious worker =>
    obtain ⟨⟨isWorker, waits⟩, rfl⟩ := of_guarded moved
    exact .spurious isWorker (WorkerPhase.eq_waiting waits)

/-! ## The tasks -/

/-- The phases of all workers. -/
def phases (pool : ThreadPool Task) : List (WorkerPhase Task) :=
  (List.range pool.threadCount).map pool.phase

/-- The tasks that the workers run. -/
def runningTasks (pool : ThreadPool Task) : List Task :=
  pool.phases.filterMap WorkerPhase.task?

/-- Tasks are taken in the order in which they were accepted, and each that was taken has returned
or is run by one worker. -/
structure Orderly (pool : ThreadPool Task) : Prop where
  queue : ∃ items, pool.queue.Holds items ∧ pool.accepted = pool.taken ++ items
  tasks : pool.taken.Perm (pool.done ++ pool.runningTasks)

/-- One worker and the others. -/
theorem phases_setPhase {pool : ThreadPool Task} {worker : Nat}
    (isWorker : worker < pool.threadCount) :
    ∃ others, pool.phases.Perm (pool.phase worker :: others) ∧
      ∀ phase, (pool.setPhase worker phase).phases.Perm (phase :: others) := by
  have split := List.perm_cons_erase (List.mem_range.mpr isWorker)
  refine ⟨((List.range pool.threadCount).erase worker).map pool.phase, split.map pool.phase,
    fun phase => (split.map _).trans ?_⟩
  have away : ((List.range pool.threadCount).erase worker).map (pool.setPhase worker phase).phase =
      ((List.range pool.threadCount).erase worker).map pool.phase := by
    refine List.map_congr_left fun other member => ?_
    rw [setPhase]
    refine Function.update_of_ne ?_ _ _
    rintro rfl
    exact (List.Nodup.not_mem_erase List.nodup_range) member
  rw [List.map_cons, away, setPhase]
  dsimp only
  rw [Function.update_self]

/-- What is not about tasks leaves the tasks of the workers. -/
theorem runningTasks_congr {pool next : ThreadPool Task} (count : next.threadCount = pool.threadCount)
    (same : ∀ worker, (next.phase worker).task? = (pool.phase worker).task?) :
    next.runningTasks = pool.runningTasks := by
  rw [runningTasks, runningTasks, phases, phases, count, List.filterMap_map, List.filterMap_map]
  exact List.filterMap_congr fun worker _ => same worker

/-- A worker that runs no task begins with one, or one that runs a task ends. -/
theorem runningTasks_setPhase {pool : ThreadPool Task} {worker : Nat}
    (isWorker : worker < pool.threadCount) (phase : WorkerPhase Task) :
    ((pool.phase worker).task?.toList ++ (pool.setPhase worker phase).runningTasks).Perm
      (phase.task?.toList ++ pool.runningTasks) := by
  obtain ⟨others, before, after⟩ := phases_setPhase isWorker
  have split : ∀ first : WorkerPhase Task, (first :: others).filterMap WorkerPhase.task? =
      first.task?.toList ++ others.filterMap WorkerPhase.task? := by
    intro first
    cases first <;> rfl
  have own := before.filterMap WorkerPhase.task?
  have new := (after phase).filterMap WorkerPhase.task?
  rw [split] at own new
  refine (new.append_left _).trans (.trans ?_ (own.append_left _).symm)
  rw [← List.append_assoc, ← List.append_assoc]
  exact List.perm_append_comm.append_right _

theorem task?_setPhase {pool : ThreadPool Task} {worker : Nat} {phase : WorkerPhase Task}
    (same : phase.task? = (pool.phase worker).task?) (other : Nat) :
    ((pool.setPhase worker phase).phase other).task? = (pool.phase other).task? := by
  rw [setPhase]
  dsimp only
  rcases eq_or_ne other worker with rfl | different
  · rw [Function.update_self, same]
  · rw [Function.update_of_ne different]

theorem task?_signal {pool : ThreadPool Task} {woken : Option Nat} (signals : pool.Signals woken)
    (other : Nat) : ((pool.signal woken).phase other).task? = (pool.phase other).task? := by
  cases woken with
  | none => rfl
  | some worker =>
    refine task?_setPhase ?_ other
    rw [WorkerPhase.eq_waiting signals.2]
    rfl

/-- A step that is not about tasks. -/
theorem Orderly.kept {pool next : ThreadPool Task} (orderly : pool.Orderly)
    (queue : next.queue = pool.queue)
    (lists : next.accepted = pool.accepted ∧ next.taken = pool.taken ∧ next.done = pool.done)
    (count : next.threadCount = pool.threadCount)
    (same : ∀ worker, (next.phase worker).task? = (pool.phase worker).task?) : next.Orderly := by
  obtain ⟨⟨items, holds, order⟩, tasks⟩ := orderly
  obtain ⟨accepted, taken, done⟩ := lists
  refine ⟨⟨items, queue ▸ holds, ?_⟩, ?_⟩
  · rw [accepted, taken, order]
  · rwa [taken, done, runningTasks_congr count same]

theorem Orderly.step {pool next : ThreadPool Task} {step : PoolStep Task} (orderly : pool.Orderly)
    (moved : pool.Moved step next) : next.Orderly := by
  cases moved with
  | refused | again | join => exact orderly.kept rfl ⟨rfl, rfl, rfl⟩ rfl fun _ => rfl
  | shut => exact orderly.kept rfl ⟨rfl, rfl, rfl⟩ rfl fun _ => WorkerPhase.task?_wake _
  | @add task woken unlocked room up signals =>
    obtain ⟨⟨items, holds, order⟩, tasks⟩ := orderly
    have space : items.length < pool.queue.size := by
      refine Nat.lt_of_le_of_ne holds.fits ?_
      rwa [← holds.count]
    have accepts : (pool.accept task).Orderly := by
      refine ⟨⟨items ++ [task], holds.push space task, ?_⟩, tasks⟩
      rw [accept, order, List.append_assoc]
    have signalled : (pool.accept task).Signals woken := signals
    refine accepts.kept ?_ ?_ ?_ (task?_signal signalled)
    · cases woken <;> rfl
    · cases woken <;> exact ⟨rfl, rfl, rfl⟩
    · cases woken <;> rfl
  | wait _ _ phase =>
    exact orderly.kept rfl ⟨rfl, rfl, rfl⟩ rfl (task?_setPhase (by rw [phase]; rfl))
  | exit _ _ phase =>
    exact orderly.kept rfl ⟨rfl, rfl, rfl⟩ rfl (task?_setPhase (by rw [phase]; rfl))
  | spurious _ phase =>
    exact orderly.kept rfl ⟨rfl, rfl, rfl⟩ rfl (task?_setPhase (by rw [phase]; rfl))
  | @take worker task unlocked isWorker phase goesOn queued first =>
    obtain ⟨⟨items, holds, order⟩, tasks⟩ := orderly
    cases items with
    | nil => exact absurd holds.count queued
    | cons item rest =>
      obtain ⟨isFirst, others⟩ := holds.pop
      obtain rfl : item = task := Option.some.inj (isFirst.symm.trans first)
      refine ⟨⟨rest, others, order.trans ?_⟩, ?_⟩
      · rw [take, List.append_assoc]
        rfl
      · have begins := runningTasks_setPhase isWorker (.running item)
        rw [phase] at begins
        refine ((tasks.append_right [item]).trans ?_).trans
          (begins.symm.append_left pool.done)
        rw [List.append_assoc]
        exact List.perm_append_comm.append_left pool.done
  | @finish worker task isWorker phase =>
    obtain ⟨⟨items, holds, order⟩, tasks⟩ := orderly
    have ends := runningTasks_setPhase isWorker .ready
    rw [phase] at ends
    refine ⟨⟨items, holds, order⟩, tasks.trans ((ends.symm.append_left pool.done).trans ?_)⟩
    rw [← List.append_assoc]
    exact .refl _

theorem orderly_create (threadCount queueSize : Int) :
    (threadpoolCreate threadCount queueSize : ThreadPool Task).Orderly := by
  refine ⟨⟨[], RingBuffer.holds_empty ?_, rfl⟩, ?_⟩
  · split
    · rename_i valid
      rw [decide_eq_true_iff] at valid
      omega
    · decide
  · have idle : (threadpoolCreate threadCount queueSize : ThreadPool Task).runningTasks = [] := by
      rw [runningTasks, phases, List.filterMap_map, List.filterMap_eq_nil_iff]
      exact fun _ _ => rfl
    rw [idle]
    exact .refl _

/-! ## The workers -/

/-- Where the workers are: nobody leaves before the shutdown, nobody waits after it, and with a task
in the queue somebody does not wait. -/
structure Alert (pool : ThreadPool Task) : Prop where
  positive : 0 < pool.threadCount
  started : pool.started = pool.phases.countP fun phase => !phase.isFinished
  up : pool.shutdown = none →
    ∀ worker < pool.threadCount, (pool.phase worker).isFinished = false
  awake : pool.shutdown = none → pool.queue.count ≠ 0 →
    ∃ worker < pool.threadCount, (pool.phase worker).isWaiting = false
  down : pool.shutdown ≠ none →
    ∀ worker < pool.threadCount, (pool.phase worker).isWaiting = false
  drained : pool.shutdown = some .gracefulShutdown →
    ∀ worker < pool.threadCount, (pool.phase worker).isFinished = true → pool.queue.count = 0
  asked : pool.joining = true ∨ pool.destroyed = true → pool.shutdown ≠ none
  returned : pool.destroyed = true → pool.locked = true ∧
    ∀ worker < pool.threadCount, (pool.phase worker).isFinished = true

theorem phase_setPhase (pool : ThreadPool Task) (worker : Nat) (phase : WorkerPhase Task)
    (other : Nat) : (pool.setPhase worker phase).phase other =
      if other = worker then phase else pool.phase other :=
  Function.update_apply ..

/-- All workers, when one of them has moved on. -/
theorem forall_setPhase {pool : ThreadPool Task} {worker : Nat} {phase : WorkerPhase Task}
    (holds : WorkerPhase Task → Prop) (own : holds phase) {other : Nat}
    (before : holds (pool.phase other)) : holds ((pool.setPhase worker phase).phase other) := by
  rw [phase_setPhase]
  split
  · exact own
  · exact before

/-- One worker has moved on, and has not left. -/
theorem Alert.setPhase {pool : ThreadPool Task} {worker : Nat} (alert : pool.Alert)
    (isWorker : worker < pool.threadCount) (phase : WorkerPhase Task)
    (alive : (pool.phase worker).isFinished = false) (stays : phase.isFinished = false)
    (rests : phase.isWaiting = true → pool.shutdown = none ∧ pool.queue.count = 0) :
    (pool.setPhase worker phase).Alert := by
  constructor
  case positive => exact alert.positive
  case started =>
    obtain ⟨others, before, after⟩ := phases_setPhase isWorker
    rw [(after phase).countP_eq, List.countP_cons, stays]
    refine alert.started.trans ?_
    rw [before.countP_eq, List.countP_cons, alive]
  case up =>
    exact fun up other isOther => forall_setPhase (fun phase => phase.isFinished = false) stays
      (alert.up up other isOther)
  case awake =>
    intro up queued
    cases waits : phase.isWaiting with
    | true => exact absurd (rests waits).2 queued
    | false =>
      refine ⟨worker, isWorker, ?_⟩
      rw [phase_setPhase, if_pos rfl, waits]
  case down =>
    intro down other isOther
    refine forall_setPhase (fun phase => phase.isWaiting = false) ?_
      (alert.down down other isOther)
    cases waits : phase.isWaiting with
    | true => exact absurd (rests waits).1 down
    | false => rfl
  case drained =>
    intro graceful other isOther finished
    rw [phase_setPhase] at finished
    split at finished
    · exact absurd (finished.symm.trans stays) nofun
    · exact alert.drained graceful other isOther finished
  case asked => exact alert.asked
  case returned =>
    intro destroyed
    exact absurd ((alert.returned destroyed).2 worker isWorker) (by rw [alive]; nofun)

/-- When all workers have left, none is counted. -/
theorem Alert.nobody {pool : ThreadPool Task} (alert : pool.Alert)
    (finished : ∀ worker < pool.threadCount, (pool.phase worker).isFinished = true) :
    pool.started = 0 := by
  rw [alert.started, phases, List.countP_map, List.countP_eq_zero]
  intro worker member
  simp [finished worker (List.mem_range.mp member)]

theorem Alert.step {pool next : ThreadPool Task} {step : PoolStep Task} (alert : pool.Alert)
    (moved : pool.Moved step next) : next.Alert := by
  cases moved with
  | refused => exact alert
  | again =>
    exact { alert with returned := fun destroyed => ⟨rfl, (alert.returned destroyed).2⟩ }
  | shut unlocked up =>
    constructor
    case positive => exact alert.positive
    case started =>
      refine alert.started.trans ?_
      rw [phases, phases, List.countP_map, List.countP_map]
      exact List.countP_congr fun worker _ => by simp [shut]
    case up => exact nofun
    case awake => exact nofun
    case down => exact fun _ worker _ => WorkerPhase.isWaiting_wake _
    case drained =>
      intro _ worker isWorker finished
      have before := alert.up up worker isWorker
      rw [← WorkerPhase.isFinished_wake] at before
      exact absurd (finished.symm.trans before) nofun
    case asked => exact fun _ => nofun
    case returned => exact fun destroyed => absurd up (alert.asked (.inr destroyed))
  | join joining finished frees =>
    refine { alert with
      asked := fun _ => alert.asked (.inl joining)
      returned := fun _ => ⟨?_, finished⟩ }
    rcases frees with ⟨left, -⟩ | ⟨-, locks⟩
    · exact absurd (alert.nobody finished) left.ne'
    · exact locks
  | @add task woken unlocked room up signals =>
    have stillUp : pool.shutdown ≠ some .gracefulShutdown := by
      rw [up]
      exact nofun
    cases woken with
    | none =>
      exact { alert with
        awake := fun _ _ => ⟨0, alert.positive, signals 0 alert.positive⟩
        drained := fun graceful => absurd graceful stillUp }
    | some worker =>
      obtain ⟨isWorker, waits⟩ := signals
      have alive : (pool.phase worker).isFinished = false := alert.up up worker isWorker
      have moved := alert.setPhase isWorker .ready alive rfl nofun
      exact { moved with
        awake := fun _ _ => ⟨worker, isWorker, by rw [signal, phase_setPhase, if_pos rfl]; rfl⟩
        drained := fun graceful => absurd graceful stillUp }
  | wait unlocked isWorker phase empty up =>
    exact alert.setPhase isWorker .waiting (by rw [phase]; rfl) rfl fun _ => ⟨up, empty⟩
  | @exit worker unlocked isWorker phase down drained =>
    have other : ∀ other, other ≠ worker → (pool.exit worker).phase other = pool.phase other :=
      fun other different => Function.update_of_ne different _ _
    constructor
    case positive => exact alert.positive
    case started =>
      obtain ⟨others, before, after⟩ := phases_setPhase isWorker
      have left : (pool.exit worker).phases = (pool.setPhase worker .finished).phases := rfl
      rw [left, (after .finished).countP_eq, exit, alert.started, before.countP_eq, phase]
      simp [WorkerPhase.isFinished]
    case up => exact fun up => absurd up down
    case awake => exact fun up => absurd up down
    case down =>
      exact fun down other isOther => forall_setPhase (fun phase => phase.isWaiting = false) rfl
        (alert.down down other isOther)
    case drained => exact fun graceful _ _ _ => drained graceful
    case asked => exact alert.asked
    case returned =>
      exact fun destroyed => absurd ((alert.returned destroyed).1.symm.trans unlocked) nofun
  | @take worker task unlocked isWorker phase goesOn queued first =>
    have moved := alert.setPhase isWorker (.running task) (by rw [phase]; rfl) rfl nofun
    exact { moved with
      awake := fun _ _ => ⟨worker, isWorker, by rw [take, phase_setPhase, if_pos rfl]; rfl⟩
      drained := fun graceful other isOther finished =>
        absurd (moved.drained graceful other isOther finished) queued }
  | finish isWorker phase =>
    have moved := alert.setPhase isWorker .ready (by rw [phase]; rfl) rfl nofun
    exact { moved with }
  | spurious isWorker phase =>
    exact alert.setPhase isWorker .ready (by rw [phase]; rfl) rfl nofun

theorem alert_create (threadCount queueSize : Int) :
    (threadpoolCreate threadCount queueSize : ThreadPool Task).Alert := by
  have positive : 0 < (threadpoolCreate threadCount queueSize : ThreadPool Task).threadCount := by
    rw [threadpoolCreate]
    dsimp only
    split
    · rename_i valid
      rw [decide_eq_true_iff] at valid
      omega
    · decide
  constructor
  case positive => exact positive
  case started =>
    rw [phases, List.countP_map]
    refine Eq.trans ?_ (List.countP_eq_length.mpr fun _ _ => rfl).symm
    rw [List.length_range]
    rfl
  case up => exact fun _ _ _ => rfl
  case awake => exact fun _ _ => ⟨0, positive, rfl⟩
  case down => exact fun _ _ _ => rfl
  case drained => exact nofun
  case asked => exact nofun
  case returned => exact nofun

/-! ## Whole runs -/

/-- No worker can take a step by itself. -/
def Stuck (pool : ThreadPool Task) : Prop :=
  ∀ step : PoolStep Task, step.isWork = true → pool.move step = none

/-- How many steps the workers take of their own. -/
def work (pool : ThreadPool Task) : Nat :=
  3 * pool.queue.count + (pool.phases.map WorkerPhase.weight).sum

/-- One worker has moved on, and the queue may have changed. -/
theorem work_lt_of {pool next : ThreadPool Task} {worker : Nat} {phase : WorkerPhase Task}
    (isWorker : worker < pool.threadCount)
    (same : next.phases = (pool.setPhase worker phase).phases)
    (less : 3 * next.queue.count + phase.weight <
      3 * pool.queue.count + (pool.phase worker).weight) : next.work < pool.work := by
  obtain ⟨others, before, after⟩ := phases_setPhase isWorker
  have own := (before.map WorkerPhase.weight).sum_nat
  have new := ((after phase).map WorkerPhase.weight).sum_nat
  rw [List.map_cons, List.sum_cons] at own new
  rw [work, work, same]
  omega

/-- Work gets less with every step. -/
theorem Moved.work_lt {pool next : ThreadPool Task} {step : PoolStep Task}
    (moved : pool.Moved step next) (isWork : step.isWork = true) : next.work < pool.work := by
  cases moved with
  | wait _ isWorker phase =>
    refine work_lt_of isWorker rfl ?_
    rw [phase]
    exact Nat.lt_succ_self _
  | exit _ isWorker phase =>
    refine work_lt_of isWorker rfl ?_
    rw [phase]
    exact Nat.lt_succ_self _
  | @take worker task _ isWorker phase _ queued =>
    refine work_lt_of isWorker rfl ?_
    have count : (pool.take worker task).queue.count = pool.queue.count - 1 := rfl
    rw [phase, count, WorkerPhase.weight, WorkerPhase.weight]
    omega
  | finish isWorker phase =>
    refine work_lt_of isWorker rfl ?_
    rw [phase]
    exact Nat.lt_succ_self _
  | _ => exact absurd isWork nofun

/-- A worker that can take no step waits, or has left. -/
theorem Stuck.rests {pool : ThreadPool Task} (stuck : pool.Stuck) (orderly : pool.Orderly)
    (unlocked : pool.locked = false) {worker : Nat} (isWorker : worker < pool.threadCount) :
    pool.phase worker = .waiting ∨ pool.phase worker = .finished := by
  cases phase : pool.phase worker with
  | waiting => exact .inl rfl
  | finished => exact .inr rfl
  | running task =>
    have enabled := stuck (.finish worker) rfl
    rw [move, if_pos isWorker, phase] at enabled
    exact absurd enabled nofun
  | ready =>
    have enabled := stuck (.turn worker) rfl
    rw [move, threadpoolThread, phase] at enabled
    dsimp only at enabled
    rw [if_neg (by simp [unlocked, isWorker])] at enabled
    split at enabled
    · exact absurd enabled nofun
    · rename_i busy
      split at enabled
      · exact absurd enabled nofun
      · rename_i stays
        obtain ⟨⟨items, holds, -⟩, -⟩ := orderly
        have queued : pool.queue.count ≠ 0 := by
          intro empty
          cases down : pool.shutdown with
          | none => exact busy ⟨empty, down⟩
          | some option =>
            cases option with
            | immediateShutdown => exact stays (.inl down)
            | gracefulShutdown => exact stays (.inr ⟨down, empty⟩)
        cases items with
        | nil => exact absurd holds.count queued
        | cons item rest =>
          rw [holds.pop.1] at enabled
          exact absurd enabled nofun

/-- Without tasks in the queue and with the workers, all tasks have returned. -/
theorem Orderly.all_done {pool : ThreadPool Task} (orderly : pool.Orderly)
    (empty : pool.queue.count = 0)
    (idle : ∀ worker < pool.threadCount, (pool.phase worker).task? = none) :
    pool.done.Perm pool.accepted := by
  obtain ⟨⟨items, holds, order⟩, tasks⟩ := orderly
  have nothing : items = [] := List.length_eq_zero_iff.mp (holds.count.symm.trans empty)
  have nobody : pool.runningTasks = [] := by
    rw [runningTasks, phases, List.filterMap_map, List.filterMap_eq_nil_iff]
    exact fun worker member => idle worker (List.mem_range.mp member)
  rw [nobody, List.append_nil] at tasks
  rw [order, nothing, List.append_nil]
  exact tasks.symm

theorem task?_of_waiting_or_finished {phase : WorkerPhase Task}
    (rests : phase = .waiting ∨ phase = .finished) : phase.task? = none := by
  rcases rests with rfl | rfl <;> rfl

section Run

variable {threadCount queueSize : Int} {steps more : List (PoolStep Task)}
  {pool next final : ThreadPool Task}
  (run : Steps move (threadpoolCreate threadCount queueSize) steps pool)

include run

theorem orderly_of_run : pool.Orderly :=
  run.invariant (fun orderly moved => orderly.step (move_spec moved))
    (orderly_create threadCount queueSize)

theorem alert_of_run : pool.Alert :=
  run.invariant (fun alert moved => alert.step (move_spec moved))
    (alert_create threadCount queueSize)

/-- Whatever the threads do and in whatever order, tasks are taken in the order in which they were
accepted, none is lost, and each that was taken has returned or is run by one worker. -/
theorem fifo :
    (∃ items, pool.queue.Holds items ∧ pool.accepted = pool.taken ++ items) ∧
      pool.taken.Perm (pool.done ++ pool.runningTasks) :=
  ⟨(orderly_of_run run).queue, (orderly_of_run run).tasks⟩

/-- No wakeup is lost. When nobody adds tasks any more the workers stop after a bounded number of
steps, in whatever order they take them, and when they can take none all accepted tasks have
returned, unless the pool was shut down immediately. -/
theorem settles (unlocked : pool.locked = false) (goesOn : pool.shutdown ≠ some .immediateShutdown)
    (further : Steps move pool more final) (works : ∀ step ∈ more, step.isWork = true) :
    more.length ≤ pool.work ∧ final.accepted = pool.accepted ∧
      (final.Stuck → final.done.Perm pool.accepted) := by
  have kept : more.length + final.work ≤ pool.work ∧ final.accepted = pool.accepted ∧
      final.locked = false ∧ final.shutdown = pool.shutdown := by
    induction further with
    | refl => exact ⟨(Nat.zero_add _).le, rfl, unlocked, rfl⟩
    | @step state _ earlier step prior moved inductionHypothesis =>
      obtain ⟨bound, accepted, free, shutdown⟩ := inductionHypothesis fun step member =>
        works step (List.mem_append_left _ member)
      have isWork := works step (List.mem_append_right _ List.mem_cons_self)
      have spec := move_spec moved
      have less := spec.work_lt isWork
      rw [List.length_append, List.length_singleton]
      refine ⟨by omega, ?_⟩
      cases spec with
      | wait | exit | take | finish => exact ⟨accepted, free, shutdown⟩
      | _ => exact absurd isWork nofun
  obtain ⟨bound, accepted, free, shutdown⟩ := kept
  refine ⟨(Nat.le_add_right _ _).trans bound, accepted, fun stuck => ?_⟩
  have orderly := orderly_of_run (run.trans further)
  have alert := alert_of_run (run.trans further)
  have rests : ∀ worker < final.threadCount,
      final.phase worker = .waiting ∨ final.phase worker = .finished :=
    fun worker isWorker => stuck.rests orderly free isWorker
  rw [← accepted]
  refine orderly.all_done ?_ fun worker isWorker =>
    task?_of_waiting_or_finished (rests worker isWorker)
  by_contra queued
  cases down : final.shutdown with
  | none =>
    obtain ⟨worker, isWorker, waits⟩ := alert.awake down queued
    rcases rests worker isWorker with phase | phase
    · rw [phase] at waits
      exact absurd waits nofun
    · have left := alert.up down worker isWorker
      rw [phase] at left
      exact absurd left nofun
  | some option =>
    cases option with
    | immediateShutdown => exact goesOn (shutdown.symm.trans down)
    | gracefulShutdown =>
      rcases rests 0 alert.positive with phase | phase
      · have waits := alert.down (by rw [down]; nofun) 0 alert.positive
        rw [phase] at waits
        exact absurd waits nofun
      · exact queued (alert.drained down 0 alert.positive (by rw [phase]; rfl))

/-- When a graceful shutdown has returned, all tasks that were ever accepted have returned. -/
theorem graceful (destroyed : pool.destroyed = true)
    (isGraceful : pool.shutdown = some .gracefulShutdown) : pool.done.Perm pool.accepted := by
  have alert := alert_of_run run
  have finished := (alert.returned destroyed).2
  refine (orderly_of_run run).all_done (alert.drained isGraceful 0 alert.positive
    (finished 0 alert.positive)) fun worker isWorker => ?_
  have left := finished worker isWorker
  cases phase : pool.phase worker with
  | finished => rfl
  | _ =>
    rw [phase] at left
    exact absurd left nofun

/-- A call of `threadpool_destroy` after another one leaves the mutex locked: from then on no task
is accepted or taken, and a shutdown that has not returned never returns. -/
theorem locked_forever {option : ShutDownOption} (down : pool.shutdown ≠ none)
    (again : pool.move (.destroy option) = some next) (further : Steps move next more final) :
    final.accepted = pool.accepted ∧ final.taken = pool.taken ∧
      final.destroyed = pool.destroyed := by
  have first : next.locked = true ∧ next.accepted = pool.accepted ∧ next.taken = pool.taken ∧
      next.destroyed = pool.destroyed := by
    cases move_spec again with
    | again => exact ⟨rfl, rfl, rfl, rfl⟩
    | shut _ up => exact absurd up down
  have kept : final.locked = true ∧ final.accepted = pool.accepted ∧ final.taken = pool.taken ∧
      final.destroyed = pool.destroyed := by
    induction further with
    | refl => exact first
    | @step state _ earlier step prior moved inductionHypothesis =>
      obtain ⟨locked, accepted, taken, destroyed⟩ := inductionHypothesis
      have alert := alert_of_run ((run.trans (.step .refl again)).trans prior)
      cases move_spec moved with
      | finish | spurious => exact ⟨locked, accepted, taken, destroyed⟩
      | join joining finished frees =>
        rcases frees with ⟨left, -⟩ | ⟨unlocked, -⟩
        · exact absurd (alert.nobody finished) left.ne'
        · exact absurd (unlocked.symm.trans locked) nofun
      | refused unlocked | add unlocked | again unlocked | shut unlocked | wait unlocked
      | exit unlocked | take unlocked =>
        -- nobody gets the mutex
        exact absurd (unlocked.symm.trans locked) nofun
  exact kept.2

end Run

/-! ## A worker and two tasks -/

/-- Two tasks are accepted, and the worker takes the first. -/
def smallSteps : List (PoolStep Nat) := [.add 5 none, .add 6 none, .turn 0]

/-- After a graceful shutdown the worker returns from both before it leaves. -/
example : (replay move (threadpoolCreate 1 2) (smallSteps ++
      [.destroy .gracefulShutdown, .finish 0, .turn 0, .finish 0, .turn 0, .join])).map
    (fun pool => (pool.done, pool.destroyed)) = some ([5, 6], true) := by
  decide

/-- After two shutdowns the second task stays in the queue. -/
example : (replay move (threadpoolCreate 1 2) (smallSteps ++
      [.destroy .gracefulShutdown, .destroy .gracefulShutdown, .finish 0])).map
    (fun pool => (pool.taken, pool.accepted, pool.locked)) = some ([5], [5, 6], true) := by
  decide

end ThreadPool

end MergeBot
