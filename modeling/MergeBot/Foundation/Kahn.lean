import Mathlib.Data.Fintype.Card
import Mathlib.Data.Fintype.EquivFin
import Mathlib.Data.Fintype.Sets
import Mathlib.Data.List.Chain
import Mathlib.Data.List.Perm.Subperm
import Mathlib.Data.List.Sort
import Mathlib.Logic.Relation
import Mathlib.Order.Bounds.Basic
import Mathlib.Order.WellFounded

/-!
# Emitting the nodes of a graph in dependency order

`drain` takes ready nodes from a queue, emits them and takes their edges away from
the degrees of the successors, which become ready when their degree is zero. The
queue discipline and the initial degrees are parameters: a degree may be larger
than the number of edges that lead to a node.

`Emitted.drain`: emitting every node once is fuel enough, and then no node is
ready. `Emitted.sublist_of_chain`: a list along the edges is a sublist of the
emitted one. `Emitted.all_iff`: all nodes are emitted exactly when the graph has no
cycle and no degree is too large. `GreatestFirst.unique`: with a sorted queue what is emitted
does not depend on the order of the successors.
-/

namespace MergeBot.Foundation.Kahn

universe u

variable {α : Type u} [DecidableEq α]

/-- No node can be reached from itself. -/
def Acyclic (successors : α → List α) : Prop :=
  ∀ node, ¬ Relation.TransGen (fun source target => target ∈ successors source) node node

/-- The queue of ready nodes, the degrees that are left and what has been emitted. -/
structure State (α : Type u) where
  ready : List α
  degree : α → Int
  emitted : List α

section Loop

variable (enqueue : α → List α → List α) (successors : α → List α)

/-- Take one edge to `neighbour` away, and queue the neighbour when it was the last. -/
def release (state : State α) (neighbour : α) : State α :=
  let left := state.degree neighbour - 1
  { state with
    degree := Function.update state.degree neighbour left
    ready := if left = 0 then enqueue neighbour state.ready else state.ready }

/-- Emit the node `current`, whose place in the queue has been taken. -/
def emit (state : State α) (current : α) (rest : List α) : State α :=
  (successors current).foldl (release enqueue)
    { state with ready := rest, emitted := state.emitted ++ [current] }

/-- Emit ready nodes until there are none; `none` means that the fuel ran out. -/
def drain : Nat → State α → Option (State α)
  | 0, state => if state.ready.isEmpty then some state else none
  | fuel + 1, state =>
      match state.ready with
      | [] => some state
      | current :: rest => drain fuel (emit enqueue successors state current rest)

end Loop

/-- A finite graph with initial degrees, none smaller than the number of edges that lead
to the node. -/
structure Covered (nodes : List α) (successors : α → List α) (degree : α → Int) : Prop where
  nodup : nodes.Nodup
  simple : ∀ node, (successors node).Nodup
  closed : ∀ source target, target ∈ successors source → source ∈ nodes ∧ target ∈ nodes
  covers : ∀ node, (nodes.countP (node ∈ successors ·) : Int) ≤ degree node

/-- What every step keeps: the degrees count the edges from nodes not emitted yet, nothing
is queued twice, exactly the nodes of degree zero have been queued, and the nodes before
an emitted one have been emitted earlier. -/
structure Emitted (nodes : List α) (successors : α → List α) (degree : α → Int)
    (state : State α) : Prop where
  remaining : ∀ node,
    state.degree node = degree node - state.emitted.countP (node ∈ successors ·)
  distinct : (state.emitted ++ state.ready).Nodup
  reached : ∀ node, node ∈ state.emitted ++ state.ready ↔ node ∈ nodes ∧ state.degree node = 0
  ordered : ∀ front node back, state.emitted = front ++ node :: back →
    ∀ source, node ∈ successors source → source ∈ front

variable {enqueue : α → List α → List α} {successors : α → List α} {nodes : List α}
  {degree : α → Int} {state : State α}

/-! ## Graphs -/

omit [DecidableEq α] in
/-- What satisfies one of two conditions is counted with one of them. -/
theorem countP_or_le (first second : α → Bool) (list : List α) :
    list.countP (fun item => first item || second item) ≤
      list.countP first + list.countP second := by
  induction list with
  | nil => simp
  | cons head tail inductionHypothesis =>
      simp only [List.countP_cons]
      cases first head <;> cases second head <;> simp <;> omega

omit [DecidableEq α] in
/-- Only the edges matter for cycles. -/
theorem acyclic_congr {first second : α → List α}
    (same : ∀ source target, target ∈ first source ↔ target ∈ second source) :
    Acyclic first ↔ Acyclic second := by
  unfold Acyclic
  simp only [same]

/-- The graph without nodes. -/
theorem Covered.empty : Covered ([] : List α) (fun _ => []) fun _ => 0 where
  nodup := List.nodup_nil
  simple := fun _ => List.nodup_nil
  closed := fun _ _ edge => absurd edge List.not_mem_nil
  covers := fun _ => by simp

/-- A new node has no edges. -/
theorem Covered.addNode (graph : Covered nodes successors degree) {node : α}
    (fresh : node ∉ nodes) :
    Covered (nodes ++ [node]) (Function.update successors node [])
      (Function.update degree node 0) := by
  have edge_iff : ∀ source target,
      target ∈ Function.update successors node [] source ↔ target ∈ successors source := by
    intro source target
    rw [Function.update_apply]
    split
    · rename_i same
      subst same
      exact ⟨fun edge => absurd edge List.not_mem_nil,
        fun edge => absurd (graph.closed _ _ edge).1 fresh⟩
    · rfl
  refine ⟨?_, fun source => ?_, fun source target edge => ?_, fun target => ?_⟩
  · exact List.nodup_append.mpr ⟨graph.nodup, List.nodup_singleton node,
      fun other member new isNew same => fresh (List.mem_singleton.mp isNew ▸ same ▸ member)⟩
  · rw [Function.update_apply]
    split
    · exact List.nodup_nil
    · exact graph.simple source
  · obtain ⟨sourceMember, targetMember⟩ := graph.closed source target ((edge_iff _ _).mp edge)
    exact ⟨List.mem_append_left _ sourceMember, List.mem_append_left _ targetMember⟩
  · have noEdge : target ∉ successors node := fun edge => fresh (graph.closed _ _ edge).1
    simp only [edge_iff, List.countP_append, List.countP_singleton, noEdge, decide_false]
    by_cases same : target = node
    · subst same
      have unreached : nodes.countP (target ∈ successors ·) = 0 := by
        rw [List.countP_eq_zero]
        intro source _ edge
        exact fresh (graph.closed source target (by simpa using edge)).2
      simp [unreached]
    · simpa [same] using graph.covers target

/-- An edge counts once more, whether it is new or not. -/
theorem Covered.addEdge (graph : Covered nodes successors degree) {source target : α}
    (sourceMember : source ∈ nodes) (targetMember : target ∈ nodes) :
    Covered nodes (Function.update successors source ((successors source).insert target))
      (Function.update degree target (degree target + 1)) := by
  have edge_iff : ∀ start stop,
      stop ∈ Function.update successors source ((successors source).insert target) start ↔
        stop ∈ successors start ∨ start = source ∧ stop = target := by
    intro start stop
    rw [Function.update_apply]
    split
    · rename_i same
      subst same
      simp [List.mem_insert_iff, or_comm]
    · rename_i other
      simp [other]
  refine ⟨graph.nodup, fun start => ?_, fun start stop edge => ?_, fun stop => ?_⟩
  · rw [Function.update_apply]
    split
    · exact (graph.simple source).insert
    · exact graph.simple start
  · rcases (edge_iff start stop).mp edge with old | ⟨rfl, rfl⟩
    · exact graph.closed start stop old
    · exact ⟨sourceMember, targetMember⟩
  · have covers := graph.covers stop
    simp only [edge_iff]
    by_cases same : stop = target
    · subst same
      have counted := countP_or_le (stop ∈ successors ·) (· == source) nodes
      have once := List.nodup_iff_count_le_one.mp graph.nodup source
      rw [List.count] at once
      have both : nodes.countP (fun start => stop ∈ successors start ∨ start = source ∧ True) =
          nodes.countP fun start => decide (stop ∈ successors start) || (start == source) :=
        List.countP_congr fun start _ => by simp
      rw [Function.update_self]
      simp only [both]
      omega
    · simpa [same] using covers

/-- Only the content of the successor lists matters. -/
theorem Covered.of_perm (graph : Covered nodes successors degree) {ordered : α → List α}
    (perm : ∀ node, (ordered node).Perm (successors node)) : Covered nodes ordered degree where
  nodup := graph.nodup
  simple := fun node => (perm node).nodup_iff.mpr (graph.simple node)
  closed := fun source target edge => graph.closed source target ((perm source).mem_iff.mp edge)
  covers := fun node => by simpa only [(perm _).mem_iff] using graph.covers node

/-! ## One step -/

/-- Releasing the edges to several neighbours. -/
theorem foldl_release (queues : ∀ node queue, (enqueue node queue).Perm (node :: queue))
    {neighbours : List α} (nodup : neighbours.Nodup) (state : State α) :
    (∀ node, (neighbours.foldl (release enqueue) state).degree node =
        state.degree node - if node ∈ neighbours then 1 else 0) ∧
      (neighbours.foldl (release enqueue) state).emitted = state.emitted ∧
      (neighbours.foldl (release enqueue) state).ready.Perm
        (state.ready ++ neighbours.filter (state.degree · = 1)) := by
  induction neighbours generalizing state with
  | nil => simp
  | cons first rest inductionHypothesis =>
      obtain ⟨unrepeated, restNodup⟩ := List.nodup_cons.mp nodup
      obtain ⟨degrees, emitted, ready⟩ :=
        inductionHypothesis restNodup (release enqueue state first)
      refine ⟨fun node => ?_, emitted, ready.trans ?_⟩
      · rw [List.foldl_cons, degrees]
        by_cases same : node = first
        · subst same
          simp [release, unrepeated]
        · simp [release, same]
      · have others : rest.filter ((release enqueue state first).degree · = 1) =
            rest.filter (state.degree · = 1) := by
          refine List.filter_congr fun node member => ?_
          have other : node ≠ first := fun same => unrepeated (same ▸ member)
          simp [release, other]
        rw [others]
        by_cases last : state.degree first = 1
        · have queued := queues first state.ready
          simp only [release, last, Int.sub_self, if_true, List.filter_cons, decide_true]
          exact (queued.append_right _).trans List.perm_middle.symm
        · have stays : state.degree first - 1 ≠ 0 := by omega
          simp [release, stays, last]

/-- A step queues the successors whose last edge it takes away. -/
theorem emit_spec (queues : ∀ node queue, (enqueue node queue).Perm (node :: queue))
    (graph : Covered nodes successors degree) (state : State α) (current : α) (rest : List α) :
    (∀ node, (emit enqueue successors state current rest).degree node =
        state.degree node - if node ∈ successors current then 1 else 0) ∧
      (emit enqueue successors state current rest).emitted = state.emitted ++ [current] ∧
      (emit enqueue successors state current rest).ready.Perm
        (rest ++ (successors current).filter (state.degree · = 1)) :=
  foldl_release queues (graph.simple current) _

/-- The emitted and the queued nodes are nodes, each once. -/
theorem Emitted.subperm (invariant : Emitted nodes successors degree state) :
    (state.emitted ++ state.ready).Subperm nodes :=
  List.subperm_of_subset invariant.distinct fun node member =>
    ((invariant.reached node).mp member).1

/-- The emitted nodes are nodes, each once. -/
theorem Emitted.emitted_subperm (invariant : Emitted nodes successors degree state) :
    state.emitted.Subperm nodes :=
  (List.sublist_append_left _ _).subperm.trans invariant.subperm

omit [DecidableEq α] in
/-- When as many emitted nodes as nodes lead somewhere, all of these have been emitted. -/
theorem mem_of_countP_le (leads : α → Bool) {emitted : List α}
    (subperm : emitted.Subperm nodes) (enough : nodes.countP leads ≤ emitted.countP leads)
    {source : α} (member : source ∈ nodes) (isSource : leads source = true) : source ∈ emitted := by
  have same : (emitted.filter leads).Perm (nodes.filter leads) := by
    apply (subperm.filter leads).perm_of_length_le
    simpa [List.countP_eq_length_filter] using enough
  have kept := same.mem_iff.mpr (List.mem_filter.mpr ⟨member, isSource⟩)
  exact (List.mem_filter.mp kept).1

omit [DecidableEq α] in
/-- When all nodes that lead somewhere have been emitted, as many emitted nodes lead there. -/
theorem countP_eq_of_mem (leads : α → Bool) {emitted : List α} (nodup : nodes.Nodup)
    (subperm : emitted.Subperm nodes)
    (all : ∀ source ∈ nodes, leads source = true → source ∈ emitted) :
    nodes.countP leads = emitted.countP leads := by
  refine Nat.le_antisymm ?_ (subperm.countP_le leads)
  rw [List.countP_eq_length_filter, List.countP_eq_length_filter]
  refine (List.subperm_of_subset (nodup.filter _) fun source member => ?_).length_le
  obtain ⟨inNodes, isSource⟩ := List.mem_filter.mp member
  exact List.mem_filter.mpr ⟨all source inNodes isSource, isSource⟩

/-- All nodes before one of degree zero have been emitted. -/
theorem Emitted.sources (invariant : Emitted nodes successors degree state)
    (graph : Covered nodes successors degree) {node source : α}
    (none_left : state.degree node = 0) (edge : node ∈ successors source) :
    source ∈ state.emitted := by
  refine mem_of_countP_le (node ∈ successors ·) invariant.emitted_subperm ?_
    (graph.closed source node edge).1 (by simpa using edge)
  have covers := graph.covers node
  have remaining := invariant.remaining node
  omega

/-- One step keeps the invariant. -/
theorem Emitted.step (queues : ∀ node queue, (enqueue node queue).Perm (node :: queue))
    (graph : Covered nodes successors degree)
    (invariant : Emitted nodes successors degree state) {current : α} {rest : List α}
    (ready : state.ready = current :: rest) :
    Emitted nodes successors degree (emit enqueue successors state current rest) := by
  obtain ⟨degrees, emitted, queue⟩ := emit_spec queues graph state current rest
  have distinct := invariant.distinct
  have reached := invariant.reached
  rw [ready] at distinct
  simp only [ready] at reached
  have currentZero : state.degree current = 0 := ((reached current).mp (by simp)).2
  have currentFresh : current ∉ state.emitted := fun again =>
    (List.nodup_append.mp distinct).2.2 current again current List.mem_cons_self rfl
  -- A successor of a node that is emitted now has not been queued before.
  have successorFresh : ∀ node ∈ successors current, state.degree node ≠ 0 :=
    fun node edge none_left => currentFresh (invariant.sources graph none_left edge)
  have members : (state.emitted ++ [current] ++
      (rest ++ (successors current).filter (state.degree · = 1))).Perm
        ((state.emitted ++ current :: rest) ++
          (successors current).filter (state.degree · = 1)) := by simp
  have whole : ((emit enqueue successors state current rest).emitted ++
      (emit enqueue successors state current rest).ready).Perm
        ((state.emitted ++ current :: rest) ++
          (successors current).filter (state.degree · = 1)) := by
    rw [emitted]
    exact (queue.append_left _).trans members
  refine ⟨fun node => ?_, ?_, fun node => ?_, ?_⟩
  · rw [degrees, emitted, List.countP_append, invariant.remaining node]
    by_cases edge : node ∈ successors current
    · simp [edge]
      omega
    · simp [edge]
  · refine whole.nodup_iff.mpr (List.nodup_append.mpr ⟨distinct, ?_, ?_⟩)
    · exact (graph.simple current).filter _
    · rintro node queued other new rfl
      obtain ⟨edge, -⟩ := List.mem_filter.mp new
      exact successorFresh node edge ((reached node).mp queued).2
  · rw [whole.mem_iff, List.mem_append, reached node, List.mem_filter, degrees,
      decide_eq_true_eq]
    by_cases edge : node ∈ successors current
    · have inNodes := (graph.closed current node edge).2
      have nonzero := successorFresh node edge
      simp only [edge, inNodes, nonzero, true_and, if_true, and_false, false_or]
      omega
    · simp [edge]
  · intro front node back split_eq source edge
    rw [emitted] at split_eq
    rcases List.eq_nil_or_concat back with rfl | ⟨back, last, rfl⟩
    · obtain ⟨rfl, rfl⟩ := List.append_singleton_inj.mp split_eq
      exact invariant.sources graph currentZero edge
    · rw [List.concat_eq_append, ← List.cons_append, ← List.append_assoc] at split_eq
      obtain ⟨earlier, -⟩ := List.append_singleton_inj.mp split_eq
      exact invariant.ordered front node back earlier source edge

/-! ## The whole run -/

/-- Without ready nodes the loop is over. -/
theorem drain_done (fuel : Nat) (ready : state.ready = []) :
    drain enqueue successors fuel state = some state := by
  cases fuel with
  | zero => simp [drain, ready]
  | succ fuel => simp [drain, ready]

/-- With a ready node the loop emits it. -/
theorem drain_next (fuel : Nat) {current : α} {rest : List α}
    (ready : state.ready = current :: rest) :
    drain enqueue successors (fuel + 1) state =
      drain enqueue successors fuel (emit enqueue successors state current rest) := by
  simp [drain, ready]

/-- A run that has not been everywhere yet finishes with the invariant and an empty queue. -/
theorem Emitted.drain (queues : ∀ node queue, (enqueue node queue).Perm (node :: queue))
    (graph : Covered nodes successors degree) (fuel : Nat)
    (invariant : Emitted nodes successors degree state)
    (enough : nodes.length ≤ state.emitted.length + fuel) :
    ∃ final, Kahn.drain enqueue successors fuel state = some final ∧
      Emitted nodes successors degree final ∧ final.ready = [] := by
  induction fuel generalizing state with
  | zero =>
      have short := invariant.subperm.length_le
      cases ready : state.ready with
      | nil => exact ⟨state, drain_done _ ready, invariant, ready⟩
      | cons current rest =>
          rw [ready, List.length_append, List.length_cons] at short
          omega
  | succ fuel inductionHypothesis =>
      cases ready : state.ready with
      | nil => exact ⟨state, drain_done _ ready, invariant, ready⟩
      | cons current rest =>
          have emitted := (emit_spec queues graph state current rest).2.1
          have stillEnough : nodes.length ≤
              (emit enqueue successors state current rest).emitted.length + fuel := by
            rw [emitted, List.length_append, List.length_singleton]
            omega
          obtain ⟨final, run, finished⟩ :=
            inductionHypothesis (invariant.step queues graph ready) stillEnough
          exact ⟨final, (drain_next fuel ready).trans run, finished⟩

/-- All nodes have been emitted when as many nodes have been emitted as there are. -/
theorem Emitted.perm_iff (graph : Covered nodes successors degree)
    (invariant : Emitted nodes successors degree state) :
    state.emitted.length = nodes.length ↔ ∀ node ∈ nodes, node ∈ state.emitted := by
  constructor
  · intro same node member
    exact (invariant.emitted_subperm.perm_of_length_le same.ge).mem_iff.mpr member
  · intro all
    exact (invariant.emitted_subperm.antisymm (List.subperm_of_subset graph.nodup all)).length_eq

/-- Emitting starts with the nodes of degree zero. -/
theorem Emitted.initial (graph : Covered nodes successors degree) {queue : List α}
    (queued : queue.Perm (nodes.filter (degree · = 0))) :
    Emitted nodes successors degree { ready := queue, degree := degree, emitted := [] } where
  remaining := fun node => by simp
  distinct := by simpa using queued.nodup_iff.mpr (graph.nodup.filter _)
  reached := fun node => by simp [queued.mem_iff]
  ordered := fun front node back split_eq => by simp at split_eq

/-! ## What has been emitted -/

/-- An edge into an emitted node comes from a node emitted earlier. -/
theorem Emitted.idxOf_lt (invariant : Emitted nodes successors degree state)
    {source target : α} (edge : target ∈ successors source) (member : target ∈ state.emitted) :
    source ∈ state.emitted ∧ state.emitted.idxOf source < state.emitted.idxOf target := by
  obtain ⟨front, back, split_eq⟩ := List.append_of_mem member
  have earlier := invariant.ordered front target back split_eq source edge
  have nodup : state.emitted.Nodup := (List.nodup_append.mp invariant.distinct).1
  rw [split_eq] at nodup ⊢
  have targetFresh : target ∉ front := fun again =>
    (List.nodup_append.mp nodup).2.2 target again target List.mem_cons_self rfl
  refine ⟨List.mem_append_left _ earlier, ?_⟩
  rw [List.idxOf_append_of_mem earlier, List.idxOf_append_of_notMem targetFresh,
    List.idxOf_cons_self]
  exact Nat.lt_of_lt_of_le (List.idxOf_lt_length_iff.mpr earlier) (Nat.le_add_right _ _)

/-- The nodes on the way to an emitted one have been emitted earlier. -/
theorem Emitted.idxOf_lt_of_transGen (invariant : Emitted nodes successors degree state)
    {source target : α}
    (path : Relation.TransGen (fun source target => target ∈ successors source) source target)
    (member : target ∈ state.emitted) :
    source ∈ state.emitted ∧ state.emitted.idxOf source < state.emitted.idxOf target := by
  induction path using Relation.TransGen.head_induction_on with
  | single edge => exact invariant.idxOf_lt edge member
  | head edge _ inductionHypothesis =>
      obtain ⟨middleEmitted, later⟩ := inductionHypothesis
      obtain ⟨sourceEmitted, earlier⟩ := invariant.idxOf_lt edge middleEmitted
      exact ⟨sourceEmitted, earlier.trans later⟩

/-- A list of emitted nodes along the edges is a sublist of what has been emitted. -/
theorem Emitted.sublist_of_chain (invariant : Emitted nodes successors degree state)
    {path : List α} (chain : path.IsChain fun source target => target ∈ successors source)
    (members : ∀ node ∈ path, node ∈ state.emitted) : path.Sublist state.emitted := by
  have nodup : state.emitted.Nodup := (List.nodup_append.mp invariant.distinct).1
  have places : (path.map state.emitted.idxOf).Pairwise (· < ·) := by
    refine List.isChain_iff_pairwise.mp ((List.isChain_map _).mpr ?_)
    exact chain.imp_of_mem_imp fun source target _ targetMember edge =>
      (invariant.idxOf_lt edge (members target targetMember)).2
  have antisymm : Std.Antisymm fun source target : α =>
      state.emitted.idxOf source < state.emitted.idxOf target :=
    ⟨fun source target earlier later => absurd later (Nat.lt_asymm earlier)⟩
  have pathOrdered := List.pairwise_map.mp places
  have emittedOrdered : state.emitted.Pairwise fun source target =>
      state.emitted.idxOf source < state.emitted.idxOf target := by
    rw [List.pairwise_iff_getElem]
    intro first second firstBound secondBound before
    rwa [nodup.idxOf_getElem, nodup.idxOf_getElem]
  have pathNodup : path.Nodup := pathOrdered.imp fun before same => by
    rw [same] at before
    exact absurd before (Nat.lt_irrefl _)
  exact List.sublist_of_subperm_of_pairwise (List.subperm_of_subset pathNodup members)
    pathOrdered emittedOrdered

/-- When nothing is ready any more, exactly the nodes whose degree counts the edges into
them and is used up have been emitted. -/
theorem Emitted.mem_iff (invariant : Emitted nodes successors degree state)
    (finished : state.ready = []) (node : α) :
    node ∈ state.emitted ↔
      node ∈ nodes ∧ degree node = state.emitted.countP (node ∈ successors ·) := by
  have reached := invariant.reached node
  rw [finished, List.append_nil, invariant.remaining node] at reached
  rw [reached]
  exact and_congr_right fun _ => by omega

/-- The path relation of a finite graph without cycles is well-founded. -/
theorem Acyclic.wellFounded (acyclic : Acyclic successors) (nodes : List α) :
    WellFounded fun source target : { node // node ∈ nodes } =>
      Relation.TransGen (fun source target => target ∈ successors source) source.1 target.1 := by
  have trans : IsTrans { node // node ∈ nodes } fun source target =>
      Relation.TransGen (fun source target => target ∈ successors source) source.1 target.1 :=
    ⟨fun _ _ _ first second => first.trans second⟩
  have irrefl : Std.Irrefl fun source target : { node // node ∈ nodes } =>
      Relation.TransGen (fun source target => target ∈ successors source) source.1 target.1 :=
    ⟨fun node cycle => acyclic node.1 cycle⟩
  exact Finite.wellFounded_of_trans_of_irrefl _

/-- All nodes are emitted exactly when the graph has no cycle and every degree is the number
of edges into its node. -/
theorem Emitted.all_iff (graph : Covered nodes successors degree)
    (invariant : Emitted nodes successors degree state) (finished : state.ready = []) :
    (∀ node ∈ nodes, node ∈ state.emitted) ↔ Acyclic successors ∧
      ∀ node ∈ nodes, degree node = nodes.countP (node ∈ successors ·) := by
  constructor
  · intro all
    have same : state.emitted.Perm nodes :=
      invariant.emitted_subperm.antisymm (List.subperm_of_subset graph.nodup all)
    refine ⟨fun node cycle => ?_, fun node member => ?_⟩
    · obtain ⟨last, -, edge⟩ := Relation.TransGen.tail'_iff.mp cycle
      have member := all node (graph.closed last node edge).2
      exact Nat.lt_irrefl _ (invariant.idxOf_lt_of_transGen cycle member).2
    · rw [((invariant.mem_iff finished node).mp (all node member)).2, same.countP_eq]
  · rintro ⟨acyclic, exact_degree⟩ node member
    have induct : ∀ one : { node // node ∈ nodes }, one.1 ∈ state.emitted := by
      intro one
      induction one using (acyclic.wellFounded nodes).induction with
      | _ one inductionHypothesis =>
        refine (invariant.mem_iff finished one.1).mpr ⟨one.2, ?_⟩
        rw [exact_degree one.1 one.2]
        have sources : ∀ source ∈ nodes, one.1 ∈ successors source → source ∈ state.emitted :=
          fun source sourceMember edge =>
            inductionHypothesis ⟨source, sourceMember⟩ (.single edge)
        exact_mod_cast countP_eq_of_mem (one.1 ∈ successors ·) graph.nodup
          invariant.emitted_subperm (by simpa using sources)
    exact induct ⟨node, member⟩

/-! ## Emitting the greatest ready node -/

/-- A node can be emitted after others when it is new and they have used its degree up. -/
def Ready (nodes : List α) (successors : α → List α) (degree : α → Int) (emitted : List α)
    (node : α) : Prop :=
  node ∈ nodes ∧ node ∉ emitted ∧ degree node = emitted.countP (node ∈ successors ·)

/-- Exactly the ready nodes are queued. -/
theorem Emitted.ready_iff (invariant : Emitted nodes successors degree state) (node : α) :
    node ∈ state.ready ↔ Ready nodes successors degree state.emitted node := by
  have reached := invariant.reached node
  rw [List.mem_append, invariant.remaining node, Int.sub_eq_zero] at reached
  constructor
  · intro queued
    obtain ⟨member, used⟩ := reached.mp (.inr queued)
    have fresh : node ∉ state.emitted := fun again =>
      (List.nodup_append.mp invariant.distinct).2.2 node again node queued rfl
    exact ⟨member, fresh, used⟩
  · rintro ⟨member, fresh, used⟩
    exact (reached.mpr ⟨member, used⟩).resolve_left fresh

/-- Only the content of the successor lists matters for what is ready. -/
theorem ready_congr {first second : α → List α}
    (same : ∀ source target, target ∈ first source ↔ target ∈ second source) (emitted : List α)
    (node : α) :
    Ready nodes first degree emitted node ↔ Ready nodes second degree emitted node := by
  simp only [Ready, same]

section Greatest

variable [PartialOrder α]

/-- Every node was the greatest ready one when it was emitted, and now none is ready. -/
structure GreatestFirst (nodes : List α) (successors : α → List α) (degree : α → Int)
    (emitted : List α) : Prop where
  greatest : ∀ front node back, emitted = front ++ node :: back →
    IsGreatest { other | Ready nodes successors degree front other } node
  finished : ∀ node, ¬ Ready nodes successors degree emitted node

/-- There is one order in which the greatest ready node comes first. -/
theorem GreatestFirst.unique {front first second : List α}
    (one : GreatestFirst nodes successors degree (front ++ first))
    (other : GreatestFirst nodes successors degree (front ++ second)) : first = second := by
  induction first generalizing front second with
  | nil =>
      cases second with
      | nil => rfl
      | cons node rest =>
          rw [List.append_nil] at one
          exact absurd (other.greatest front node rest rfl).1 (one.finished node)
  | cons node rest inductionHypothesis =>
      cases second with
      | nil =>
          rw [List.append_nil] at other
          exact absurd (one.greatest front node rest rfl).1 (other.finished node)
      | cons otherNode otherRest =>
          have same := (one.greatest front node rest rfl).unique
            (other.greatest front otherNode otherRest rfl)
          subst same
          rw [List.append_cons] at one other
          exact congrArg _ (inductionHypothesis one other)

/-- What every step of a run with a sorted queue keeps: the queue is sorted, and every emitted
node was the greatest ready one. -/
structure Greedy (nodes : List α) (successors : α → List α) (degree : α → Int)
    (state : State α) : Prop where
  emitted : Emitted nodes successors degree state
  sorted : state.ready.Pairwise fun first second => second ≤ first
  greatest : ∀ front node back, state.emitted = front ++ node :: back →
    IsGreatest { other | Ready nodes successors degree front other } node

/-- Releasing edges keeps the queue sorted. -/
theorem sorted_release
    (sorts : ∀ node queue, queue.Pairwise (fun first second => second ≤ first) →
      (enqueue node queue).Pairwise fun first second => second ≤ first)
    (neighbours : List α) (sorted : state.ready.Pairwise fun first second => second ≤ first) :
    (neighbours.foldl (release enqueue) state).ready.Pairwise
      fun first second => second ≤ first := by
  induction neighbours generalizing state with
  | nil => exact sorted
  | cons neighbour rest inductionHypothesis =>
      apply inductionHypothesis
      simp only [release]
      split
      · exact sorts neighbour _ sorted
      · exact sorted

/-- One step keeps all this. -/
theorem Greedy.step (queues : ∀ node queue, (enqueue node queue).Perm (node :: queue))
    (sorts : ∀ node queue, queue.Pairwise (fun first second => second ≤ first) →
      (enqueue node queue).Pairwise fun first second => second ≤ first)
    (graph : Covered nodes successors degree) (greedy : Greedy nodes successors degree state)
    {current : α} {rest : List α} (ready : state.ready = current :: rest) :
    Greedy nodes successors degree (emit enqueue successors state current rest) := by
  have emitted := (emit_spec queues graph state current rest).2.1
  have sorted := greedy.sorted
  rw [ready, List.pairwise_cons] at sorted
  refine ⟨greedy.emitted.step queues graph ready, sorted_release sorts _ sorted.2, ?_⟩
  intro front node back split_eq
  rw [emitted] at split_eq
  rcases List.eq_nil_or_concat back with rfl | ⟨back, last, rfl⟩
  · obtain ⟨rfl, rfl⟩ := List.append_singleton_inj.mp split_eq
    have queued_iff := greedy.emitted.ready_iff
    rw [ready] at queued_iff
    refine ⟨(queued_iff current).mp List.mem_cons_self, fun other isReady => ?_⟩
    rcases List.mem_cons.mp ((queued_iff other).mpr isReady) with rfl | later
    · exact le_refl other
    · exact sorted.1 other later
  · rw [List.concat_eq_append, ← List.cons_append, ← List.append_assoc] at split_eq
    obtain ⟨earlier, -⟩ := List.append_singleton_inj.mp split_eq
    exact greedy.greatest front node back earlier

/-- A run keeps all this. -/
theorem Greedy.drain (queues : ∀ node queue, (enqueue node queue).Perm (node :: queue))
    (sorts : ∀ node queue, queue.Pairwise (fun first second => second ≤ first) →
      (enqueue node queue).Pairwise fun first second => second ≤ first)
    (graph : Covered nodes successors degree) (fuel : Nat)
    (greedy : Greedy nodes successors degree state) {final : State α}
    (run : Kahn.drain enqueue successors fuel state = some final) :
    Greedy nodes successors degree final := by
  induction fuel generalizing state with
  | zero =>
      rw [Kahn.drain] at run
      split at run
      · exact Option.some.inj run ▸ greedy
      · exact absurd run (Option.some_ne_none _).symm
  | succ fuel inductionHypothesis =>
      cases ready : state.ready with
      | nil =>
          rw [drain_done _ ready] at run
          exact Option.some.inj run ▸ greedy
      | cons current rest =>
          rw [drain_next fuel ready] at run
          exact inductionHypothesis (greedy.step queues sorts graph ready) run

/-- When nothing is ready any more, the emitted nodes are in the one order. -/
theorem Greedy.greatestFirst (greedy : Greedy nodes successors degree state)
    (finished : state.ready = []) : GreatestFirst nodes successors degree state.emitted where
  greatest := greedy.greatest
  finished := fun node isReady => by
    have queued := (greedy.emitted.ready_iff node).mpr isReady
    rw [finished] at queued
    exact List.not_mem_nil queued

/-- Only the content of the successor lists matters for the order. -/
theorem GreatestFirst.congr {first second : α → List α} {emitted : List α}
    (same : ∀ source target, target ∈ first source ↔ target ∈ second source)
    (one : GreatestFirst nodes first degree emitted) :
    GreatestFirst nodes second degree emitted where
  greatest := fun front node back split_eq => by
    simpa only [ready_congr same] using one.greatest front node back split_eq
  finished := fun node isReady => one.finished node ((ready_congr same emitted node).mpr isReady)

end Greatest

end MergeBot.Foundation.Kahn
