import MergeBot.Handler.Resolution

/-!
# The chain of handlers

`HandlerChain::chain` links handlers by pointers and `SAHandler::handle` follows
them. What a handler does to the conflict files, and to the world outside of
them, is its own virtual function. `handle_chain` reads a chain as the list it
was built from; `sameWithoutSkipped_iff` says when a chain has the same effect
as the chain without its skipped handlers.
-/

namespace MergeBot

/-- The virtual function of a handler. -/
abbrev ResolveFiles (World : Type) := List ConflictFile → World → List ConflictFile × World

/-- A handler as it is constructed, with its skip flag. -/
structure SAHandler (World : Type) where
  name : String
  skip : Bool := false
  resolveConflictFiles : ResolveFiles World

/-- A handler with the pointer to the next one, as a position in the chain. -/
structure LinkedHandler (World : Type) extends SAHandler World where
  nextHandler : Option Nat := none

/-- What a chain works on, whether the scenario is marked as running, and the
virtual functions that have been called. -/
structure ChainRun (World : Type) where
  files : List ConflictFile
  world : World
  runningSign : Bool
  called : List (ResolveFiles World)

section Chain

variable {World : Type}

/-- Call the virtual function of a handler. -/
def ChainRun.resolve (run : ChainRun World) (handler : SAHandler World) : ChainRun World :=
  { run with
    files := (handler.resolveConflictFiles run.files run.world).1
    world := (handler.resolveConflictFiles run.files run.world).2
    called := run.called ++ [handler.resolveConflictFiles] }

def ChainRun.removeRunningSign (run : ChainRun World) : ChainRun World :=
  { run with runningSign := false }

/-- The conflict files, the world and the calls: all but the running sign. -/
def ChainRun.effect (run : ChainRun World) : List ConflictFile × World × List (ResolveFiles World) :=
  (run.files, run.world, run.called)

@[simp]
theorem ChainRun.resolve_called (run : ChainRun World) (handler : SAHandler World) :
    (run.resolve handler).called = run.called ++ [handler.resolveConflictFiles] := rfl

@[simp]
theorem ChainRun.removeRunningSign_called (run : ChainRun World) :
    run.removeRunningSign.called = run.called := rfl

@[simp]
theorem ChainRun.removeRunningSign_effect (run : ChainRun World) :
    run.removeRunningSign.effect = run.effect := rfl

/-- Link each handler to the one behind it. -/
def chain (handlers : List (SAHandler World)) : List (LinkedHandler World) :=
  handlers.mapIdx fun cur handler =>
    if cur + 1 < handlers.length then { handler with nextHandler := some (cur + 1) }
    else { handler with }

/-- One handler and those it hands over to. Fuel bounds the pointers followed;
`none` is a dangling pointer or too little fuel. -/
def handle (handlers : List (LinkedHandler World)) :
    Nat → Nat → ChainRun World → Option (ChainRun World)
  | 0, _, _ => none
  | fuel + 1, cur, run => do
      let self ← handlers[cur]?
      match self.skip, self.nextHandler with
      | true, some _ => return run
      | false, next =>
          let run := run.resolve self.toSAHandler
          match next with
          | some next => if run.files.isEmpty then return run else handle handlers fuel next run
          | none => if run.files.isEmpty then return run else return run.removeRunningSign
      | true, none => return run

/-- The effect of a chain: of its first handler, or none. -/
def handleChain (handlers : List (SAHandler World)) (run : ChainRun World) :
    Option (ChainRun World) :=
  if handlers.isEmpty then some run else handle (chain handlers) handlers.length 0 run

/-- The effect of a chain, handler by handler. -/
def runHandlers : List (SAHandler World) → ChainRun World → ChainRun World
  | [], run => run
  | handler :: rest, run =>
      if handler.skip then run
      else
        let run := run.resolve handler
        if run.files.isEmpty then run
        else if rest.isEmpty then run.removeRunningSign
        else runHandlers rest run

theorem chain_getElem? (handlers : List (SAHandler World)) {cur : Nat} {handler : SAHandler World}
    {rest : List (SAHandler World)} (here : handlers.drop cur = handler :: rest) :
    (chain handlers)[cur]? =
      some { handler with nextHandler := if rest.isEmpty then none else some (cur + 1) } := by
  have found : handlers[cur]? = some handler := by
    rw [← Nat.add_zero cur, ← List.getElem?_drop, here]
    rfl
  have length := congrArg List.length here
  rw [List.length_drop, List.length_cons] at length
  rw [chain, List.getElem?_mapIdx, found, Option.map_some]
  cases rest with
  | nil =>
      rw [List.length_nil] at length
      rw [if_neg (by omega)]
      rfl
  | cons next rest =>
      rw [List.length_cons] at length
      rw [if_pos (by omega)]
      rfl

/-- Following the pointers from a position runs the handlers from there on. -/
theorem handle_chain (handlers : List (SAHandler World)) {fuel cur : Nat}
    {rest : List (SAHandler World)} (here : handlers.drop cur = rest) (some_ : rest ≠ [])
    (enough : rest.length ≤ fuel) (run : ChainRun World) :
    handle (chain handlers) fuel cur run = some (runHandlers rest run) := by
  induction fuel generalizing cur rest run with
  | zero => exact absurd (List.length_eq_zero_iff.mp (Nat.le_zero.mp enough)) some_
  | succ fuel ih =>
      cases rest with
      | nil => exact absurd rfl some_
      | cons handler rest =>
          have behind : handlers.drop (cur + 1) = rest := by
            rw [← List.drop_drop, here, List.drop_one, List.tail_cons]
          rw [handle, chain_getElem? handlers here, runHandlers]
          simp only [Option.bind_eq_bind, Option.bind_some]
          cases skipped : handler.skip with
          | true => cases rest <;> simp
          | false =>
              cases rest with
              | nil =>
                  simp only [List.isEmpty_nil, if_true]
                  split <;> rfl
              | cons next rest =>
                  have later := ih behind (by simp) (Nat.le_of_succ_le_succ enough)
                    (run.resolve handler)
                  simp only [List.isEmpty_cons, Bool.false_eq_true, if_false, later]
                  by_cases empty : (run.resolve handler).files.isEmpty
                  · rw [if_pos empty, if_pos empty]
                    rfl
                  · rw [if_neg empty, if_neg empty]

/-- A chain has the effect of its handlers one after the other. -/
theorem handleChain_eq (handlers : List (SAHandler World)) (run : ChainRun World) :
    handleChain handlers run = some (runHandlers handlers run) := by
  cases handlers with
  | nil => rfl
  | cons handler rest =>
      exact handle_chain (handler :: rest) (List.drop_zero) (by simp) (Nat.le_refl _) run

/-! ## Leaving skipped handlers out -/

/-- Skipping handlers equals leaving them out: the same effect on the conflict
files and the world, and the same calls in the same order. -/
def SameWithoutSkipped (handlers : List (SAHandler World)) (run : ChainRun World) : Prop :=
  ∃ withSkipped without, handleChain handlers run = some withSkipped ∧
    handleChain (handlers.filter fun handler => !handler.skip) run = some without ∧
    withSkipped.effect = without.effect

/-- Some first part of the handlers, applied one after the other, leaves no
conflict files. -/
def Exhausts : List (SAHandler World) → List ConflictFile → World → Prop
  | [], _, _ => False
  | handler :: rest, files, world =>
      (handler.resolveConflictFiles files world).1 = [] ∨
        Exhausts rest (handler.resolveConflictFiles files world).1
          (handler.resolveConflictFiles files world).2

/-- No handler stands behind a skipped one, unless it is skipped itself. -/
def NoneBehindSkipped (handlers : List (SAHandler World)) : Prop :=
  ∀ handler ∈ handlers.dropWhile fun handler => !handler.skip, handler.skip

/-- A handler that is not skipped and leaves conflict files hands over to the rest. -/
theorem runHandlers_effect {handler : SAHandler World} (kept : handler.skip = false)
    {run : ChainRun World} (left : (run.resolve handler).files ≠ [])
    (rest : List (SAHandler World)) :
    (runHandlers (handler :: rest) run).effect =
      (runHandlers rest (run.resolve handler)).effect := by
  rw [runHandlers, kept]
  simp only [Bool.false_eq_true, if_false, List.isEmpty_iff, left]
  cases rest with
  | nil => rfl
  | cons next rest => rfl

/-- A handler that is not skipped and leaves no conflict file is the last. -/
theorem runHandlers_exhausted {handler : SAHandler World} (kept : handler.skip = false)
    {run : ChainRun World} (done : (run.resolve handler).files = [])
    (rest : List (SAHandler World)) :
    runHandlers (handler :: rest) run = run.resolve handler := by
  rw [runHandlers, kept]
  simp [done]

/-- Handlers only add to the calls. -/
theorem runHandlers_called (handlers : List (SAHandler World)) (run : ChainRun World) :
    ∃ more, (runHandlers handlers run).called = run.called ++ more := by
  induction handlers generalizing run with
  | nil => exact ⟨[], by simp [runHandlers]⟩
  | cons handler rest ih =>
      obtain ⟨more, later⟩ := ih (run.resolve handler)
      rw [runHandlers]
      split
      · exact ⟨[], by simp⟩
      · simp only
        split
        · exact ⟨[handler.resolveConflictFiles], rfl⟩
        · split
          · exact ⟨[handler.resolveConflictFiles], rfl⟩
          · refine ⟨handler.resolveConflictFiles :: more, ?_⟩
            rw [later, ChainRun.resolve_called, List.append_assoc, List.singleton_append]

/-- A chain calls its first handler, if that is not skipped. -/
theorem runHandlers_called_ne {handler : SAHandler World} (kept : handler.skip = false)
    (rest : List (SAHandler World)) (run : ChainRun World) :
    (runHandlers (handler :: rest) run).called ≠ run.called := by
  by_cases done : (run.resolve handler).files = []
  · rw [runHandlers_exhausted kept done]
    simp
  · obtain ⟨more, called⟩ := runHandlers_called rest (run.resolve handler)
    have same := congrArg (fun effect => effect.2.2) (runHandlers_effect kept done rest)
    simp only [ChainRun.effect, called] at same
    rw [same]
    simp

/-- Handler by handler, skipping equals leaving out if and only if no handler is
cut off by a skipped one before the conflict files are exhausted. -/
theorem runHandlers_filter_iff (handlers : List (SAHandler World)) (run : ChainRun World) :
    (runHandlers handlers run).effect =
        (runHandlers (handlers.filter fun handler => !handler.skip) run).effect ↔
      NoneBehindSkipped handlers ∨
        Exhausts (handlers.takeWhile fun handler => !handler.skip) run.files run.world := by
  induction handlers generalizing run with
  | nil => simp [runHandlers, NoneBehindSkipped]
  | cons handler rest ih =>
      cases skipped : handler.skip with
      | true =>
          have stops : runHandlers (handler :: rest) run = run := by simp [runHandlers, skipped]
          have allSkipped : NoneBehindSkipped (handler :: rest) ↔
              rest.filter (fun other => !other.skip) = [] := by
            simp [NoneBehindSkipped, skipped]
          rw [stops, allSkipped]
          simp only [skipped, List.filter_cons, List.takeWhile_cons, Bool.not_true, if_false,
            Bool.false_eq_true, Exhausts, or_false]
          cases kept : rest.filter (fun other => !other.skip) with
          | nil => simp [runHandlers]
          | cons next more =>
              have member : next ∈ rest.filter fun other => !other.skip := by simp [kept]
              have nextKept : next.skip = false := by simpa using (List.mem_filter.mp member).2
              refine iff_of_false (fun same => ?_) (by simp)
              exact runHandlers_called_ne nextKept more run (congrArg (·.2.2) same).symm
      | false =>
          have behind : NoneBehindSkipped (handler :: rest) ↔ NoneBehindSkipped rest := by
            simp [NoneBehindSkipped, skipped]
          rw [behind]
          simp only [skipped, List.filter_cons, List.takeWhile_cons, Bool.not_false, if_true,
            Exhausts]
          by_cases done : (run.resolve handler).files = []
          · rw [runHandlers_exhausted skipped done, runHandlers_exhausted skipped done]
            simp only [true_iff]
            exact .inr (.inl done)
          · rw [runHandlers_effect skipped done, runHandlers_effect skipped done, ih]
            have left : ¬ (handler.resolveConflictFiles run.files run.world).1 = [] := done
            simp only [left, false_or]
            rfl

/-- Skipping handlers equals leaving them out, if and only if no unskipped handler
stands behind a skipped one, or the handlers before the first skipped one leave
no conflict files. -/
theorem sameWithoutSkipped_iff (handlers : List (SAHandler World)) (run : ChainRun World) :
    SameWithoutSkipped handlers run ↔
      NoneBehindSkipped handlers ∨
        Exhausts (handlers.takeWhile fun handler => !handler.skip) run.files run.world := by
  rw [← runHandlers_filter_iff, SameWithoutSkipped]
  simp only [handleChain_eq, Option.some.injEq, exists_and_left, exists_eq_left']

end Chain

/-! ## Chains of resolvers -/

/-- A handler that resolves blocks and stores the results in the resolutions
directory. -/
def resolverHandler {codec : JsonCodec} (paths : ResolutionPaths) (name : String)
    (resolver : Resolver) : SAHandler (Directory codec) where
  name := name
  resolveConflictFiles := resolveConflictFiles resolver paths

/-- A chain of such handlers ends in the last of the chain's states. -/
theorem runHandlers_resolvers {codec : JsonCodec} (paths : ResolutionPaths) (name : String)
    (resolvers : List Resolver) (run : ChainRun (Directory codec)) :
    let final := runHandlers (resolvers.map (resolverHandler paths name)) run
    (final.files, final.world) =
      ((chainStates paths resolvers run.files run.world).getLast?).getD (run.files, run.world) := by
  induction resolvers generalizing run with
  | nil => rfl
  | cons resolver rest ih =>
      have kept : (resolverHandler paths name resolver : SAHandler (Directory codec)).skip = false :=
        rfl
      have later := ih (run.resolve (resolverHandler paths name resolver))
      simp only [List.map_cons, chainStates, List.getLast?_cons, Option.getD_some]
      by_cases done : (run.resolve (resolverHandler paths name resolver)).files = []
      · have empty : (resolveConflictFiles resolver paths run.files run.world).1 = [] := done
        rw [runHandlers_exhausted kept done]
        simp [empty, ChainRun.resolve, resolverHandler, Prod.ext_iff]
      · have left : ¬ (resolveConflictFiles resolver paths run.files run.world).1 = [] := done
        have effect := runHandlers_effect kept done (rest.map (resolverHandler paths name))
        have files := congrArg (fun effect => effect.1) effect
        have world := congrArg (fun effect => effect.2.1) effect
        simp only [ChainRun.effect] at files world
        rw [files, world, later]
        simp only [List.isEmpty_iff, left, if_false]
        rfl

/-! ## A skipped handler in front -/

/-- A handler that leaves everything as it is. -/
def idleHandler (skip : Bool) : SAHandler Unit where
  name := "idle"
  skip := skip
  resolveConflictFiles files world := (files, world)

/-- One file with a conflict. -/
def idleRun : ChainRun Unit where
  files := [{ filename := "a.cpp".toList, conflictBlocks := [⟨1, [], false⟩] }]
  world := ()
  runningSign := true
  called := []

/-- A skipped handler disables the one behind it. -/
theorem idleHandler_disabled :
    ¬ SameWithoutSkipped [idleHandler true, idleHandler false] idleRun := by
  rintro ⟨withSkipped, without, first, second, same⟩
  rw [handleChain_eq, Option.some.injEq] at first second
  subst first
  subst second
  exact absurd (congrArg (fun effect => effect.2.2.length) same) (by decide)

end MergeBot
