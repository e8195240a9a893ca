import Mathlib.Data.String.Basic
import MergeBot.Foundation.Kahn

/-!
# The dependency graph of the list merge

`DependencyGraph` keeps nodes, adjacency sets and in-degrees. Its invariant is part
of the type: edges lead between nodes, and no in-degree is smaller than the number of
edges into the node. It can be larger, because `addEdge` counts an edge again that the
set already has.

The iteration orders of the hash containers are a parameter. `hasCycle_spec`: for every
order the search ends, and it returns whether there is a cycle; `hasCycle_build` says so of
the edges that calls have added. `topologicalSort_spec`: the sort ends and returns what
`Kahn.drain` emits. `topologicalSort_greatestFirst`: that is the order in which the greatest
ready node comes first, whatever the order of the containers.
-/

namespace MergeBot

open Foundation

/-- The orders in which the hash containers are iterated: any order of the content, which
may depend on the insertions and, for an adjacency set, on its node. -/
structure IterationOrder where
  nodes : List String → List String
  neighbours : String → List String → List String
  nodes_perm : ∀ keys, (nodes keys).Perm keys
  neighbours_perm : ∀ node items, (neighbours node items).Perm items

/-- A graph with the content of its hash containers. -/
structure DependencyGraph where
  /-- The keys of `adjacencyList`. -/
  nodes : List String
  adjacencyList : String → List String
  inDegree : String → Int
  covered : Kahn.Covered nodes adjacencyList inDegree

namespace DependencyGraph

/-- The graph without nodes. -/
def empty : DependencyGraph where
  nodes := []
  adjacencyList := fun _ => []
  inDegree := fun _ => 0
  covered := Kahn.Covered.empty

/-! ## Building a graph -/

/-- Add a node; the result is `false` when there is one of that name. -/
def addNode (graph : DependencyGraph) (node : String) : Bool × DependencyGraph :=
  if known : node ∈ graph.nodes then (false, graph)
  else
    (true,
      { nodes := graph.nodes ++ [node]
        adjacencyList := Function.update graph.adjacencyList node []
        inDegree := Function.update graph.inDegree node 0
        covered := graph.covered.addNode known })

/-- Add an edge; the result is `false` when an end is no node. The degree of the target is
increased even when the set has the edge. -/
def addEdge (graph : DependencyGraph) (source target : String) : Bool × DependencyGraph :=
  if known : source ∈ graph.nodes ∧ target ∈ graph.nodes then
    (true,
      { nodes := graph.nodes
        adjacencyList := Function.update graph.adjacencyList source
          ((graph.adjacencyList source).insert target)
        inDegree := Function.update graph.inDegree target (graph.inDegree target + 1)
        covered := graph.covered.addEdge known.1 known.2 })
  else (false, graph)

/-- A call that builds a graph. -/
inductive Call
  | addNode (node : String)
  | addEdge (source target : String)
deriving DecidableEq, Repr

/-- The graph after a call. -/
def call (graph : DependencyGraph) : Call → DependencyGraph
  | .addNode node => (graph.addNode node).2
  | .addEdge source target => (graph.addEdge source target).2

/-- The graph that a sequence of calls builds. -/
def build (calls : List Call) : DependencyGraph := calls.foldl call .empty

/-! ## Cycles -/

/-- The sets of a search: the class member `visited` and the nodes of the current path. -/
structure Search where
  visited : List String := []
  path : List String := []
deriving DecidableEq, Repr

section Walk

variable (graph : DependencyGraph) (order : IterationOrder)

/-- The loop over the neighbours of a node; `visit` searches from an unvisited one. -/
def hasCycleScan (visit : String → Search → Option (Bool × Search)) :
    List String → Search → Option (Bool × Search)
  | [], search => some (false, search)
  | neighbor :: rest, search =>
      if neighbor ∈ search.path then some (true, search)
      else if neighbor ∈ search.visited then hasCycleScan visit rest search
      else
        match visit neighbor search with
        | none => none
        | some (true, after) => some (true, after)
        | some (false, after) => hasCycleScan visit rest after

/-- Search from a node; `none` means that the fuel ran out. -/
def hasCycleDFS : Nat → String → Search → Option (Bool × Search)
  | 0, _, _ => none
  | fuel + 1, node, search =>
      match hasCycleScan (hasCycleDFS fuel)
          (order.neighbours node (graph.adjacencyList node))
          { visited := search.visited.insert node, path := search.path.insert node } with
      | none => none
      | some (true, after) => some (true, after)
      | some (false, after) => some (false, { after with path := after.path.erase node })

/-- The loop over the nodes. -/
def hasCycleNodes : List String → Search → Option Bool
  | [], _ => some false
  | node :: rest, search =>
      if node ∈ search.visited then hasCycleNodes rest search
      else
        match hasCycleDFS graph order graph.nodes.length node search with
        | none => none
        | some (true, _) => some true
        | some (false, after) => hasCycleNodes rest after

/-- Whether the graph has a cycle. -/
def hasCycle : Option Bool :=
  hasCycleNodes graph order (order.nodes graph.nodes) {}

/-! ## Sorting -/

/-- Push to the heap, whose greatest item is on top. -/
def push (item : String) (pq : List String) : List String :=
  pq.orderedInsert (fun first second => second ≤ first) item

/-- The nodes in dependency order, the greatest ready one first. The result is `false`
when there is a cycle or nodes are left over. -/
def topologicalSort : Option (Bool × List String) :=
  match hasCycle graph order with
  | none => none
  | some true => some (false, [])
  | some false =>
      let pq := (order.nodes graph.nodes).foldl
        (fun pq node => if graph.inDegree node = 0 then push node pq else pq) []
      let successors := fun node => order.neighbours node (graph.adjacencyList node)
      (Kahn.drain push successors graph.nodes.length
          { ready := pq, degree := graph.inDegree, emitted := [] }).map fun last =>
        (decide (last.emitted.length = graph.nodes.length), last.emitted)

end Walk

/-! ## The search finds exactly the cycles -/

/-- There is an edge from one node to another. -/
def Edge (graph : DependencyGraph) (source target : String) : Prop :=
  target ∈ graph.adjacencyList source

variable {graph : DependencyGraph} {order : IterationOrder} {search : Search}

/-- The order of the containers does not change the edges. -/
theorem edge_iff (graph : DependencyGraph) (order : IterationOrder) (source target : String) :
    target ∈ order.neighbours source (graph.adjacencyList source) ↔
      target ∈ graph.adjacencyList source :=
  (order.neighbours_perm source _).mem_iff

/-- What the search keeps: the path has been visited, and visited nodes that are no longer
on it have all neighbours among themselves and are on no cycle. -/
structure Search.Sound (graph : DependencyGraph) (search : Search) : Prop where
  entered : ∀ node ∈ search.path, node ∈ search.visited
  done : ∀ node ∈ search.visited, node ∉ search.path →
    ∀ neighbor, graph.Edge node neighbor → neighbor ∈ search.visited ∧ neighbor ∉ search.path
  clean : ∀ node ∈ search.visited, node ∉ search.path → ¬ Relation.TransGen graph.Edge node node

/-- How a part of the search ends: it finds a cycle, or it visits the nodes it is about and
restores the path. -/
def Search.Ends (graph : DependencyGraph) (search : Search) (about : List String)
    (result : Option (Bool × Search)) : Prop :=
  ∃ found after, result = some (found, after) ∧
    (found = true → ∃ node, Relation.TransGen graph.Edge node node) ∧
    (found = false → after.Sound graph ∧ after.path = search.path ∧
      (∀ node ∈ search.visited, node ∈ after.visited) ∧
      ∀ node ∈ about, node ∈ after.visited ∧ node ∉ after.path)

/-- Behind a neighbour that has been visited, the rest of the search ends the whole. -/
theorem Search.Ends.behind {first : Search} {neighbor : String} {rest : List String}
    {result : Option (Bool × Search)} (ends : first.Ends graph rest result)
    (grown : ∀ node ∈ search.visited, node ∈ first.visited)
    (samePath : first.path = search.path) (visited : neighbor ∈ first.visited)
    (offPath : neighbor ∉ search.path) : search.Ends graph (neighbor :: rest) result := by
  obtain ⟨found, last, run, cycle, clear⟩ := ends
  refine ⟨found, last, run, cycle, fun none_found => ?_⟩
  obtain ⟨lastSound, lastPath, lastGrown, lastSeen⟩ := clear none_found
  have path_eq := lastPath.trans samePath
  refine ⟨lastSound, path_eq, fun node member => lastGrown node (grown node member),
    fun node member => ?_⟩
  rcases List.mem_cons.mp member with rfl | member
  · exact ⟨lastGrown node visited, path_eq ▸ offPath⟩
  · exact lastSeen node member

/-- The number of nodes that the search has not visited. -/
def unvisited (graph : DependencyGraph) (search : Search) : Nat :=
  graph.nodes.countP (· ∉ search.visited)

/-- Visiting more leaves less. -/
theorem unvisited_mono {after : Search}
    (grown : ∀ node ∈ search.visited, node ∈ after.visited) :
    graph.unvisited after ≤ graph.unvisited search :=
  List.countP_mono_left fun node _ fresh => by
    simp only [decide_eq_true_eq] at fresh ⊢
    exact fun known => fresh (grown node known)

/-- Entering a node leaves at least one less. -/
theorem unvisited_enter {node : String} (member : node ∈ graph.nodes)
    (fresh : node ∉ search.visited) (path : List String) :
    graph.unvisited { visited := search.visited.insert node, path := path } <
      graph.unvisited search := by
  obtain ⟨front, back, split_eq⟩ := List.append_of_mem member
  have fewer (part : List String) : part.countP (· ∉ search.visited.insert node) ≤
      part.countP (· ∉ search.visited) :=
    List.countP_mono_left fun other _ unseen => by
      simp only [decide_eq_true_eq, List.mem_insert_iff, not_or] at unseen ⊢
      exact unseen.2
  have fewerFront := fewer front
  have fewerBack := fewer back
  simp only [unvisited, split_eq, List.countP_append, List.countP_cons]
  simp only [List.mem_insert_iff, true_or, not_true_eq_false, decide_false, fresh,
    not_false_eq_true, decide_true, if_true, Bool.false_eq_true, if_false] at *
  omega

/-- Nodes reached from a visited node that is not on the path are not on it either. -/
theorem Search.Sound.reached (sound : search.Sound graph) {source target : String}
    (path : Relation.TransGen graph.Edge source target) (visited : source ∈ search.visited)
    (off : source ∉ search.path) : target ∈ search.visited ∧ target ∉ search.path := by
  induction path with
  | single edge => exact sound.done source visited off _ edge
  | tail _ edge inductionHypothesis =>
      exact sound.done _ inductionHypothesis.1 inductionHypothesis.2 _ edge

/-- The loop over neighbours of a node on the path. -/
theorem hasCycleScan_ends {visit : String → Search → Option (Bool × Search)} {current : String}
    {bound : Nat}
    (visits : ∀ node search, search.Sound graph → node ∈ graph.nodes → node ∉ search.visited →
      (∀ earlier ∈ search.path, Relation.TransGen graph.Edge earlier node) →
      graph.unvisited search ≤ bound → search.Ends graph [node] (visit node search))
    {neighbours : List String} (edges : ∀ neighbor ∈ neighbours, graph.Edge current neighbor)
    (sound : search.Sound graph)
    (leads : ∀ earlier ∈ search.path, Relation.ReflTransGen graph.Edge earlier current)
    (enough : graph.unvisited search ≤ bound) :
    search.Ends graph neighbours (hasCycleScan visit neighbours search) := by
  induction neighbours generalizing search with
  | nil =>
      exact ⟨false, search, rfl, by simp,
        fun _ => ⟨sound, rfl, fun _ member => member, by simp⟩⟩
  | cons neighbor rest inductionHypothesis =>
      have edge := edges neighbor List.mem_cons_self
      have restEdges : ∀ other ∈ rest, graph.Edge current other :=
        fun other member => edges other (List.mem_cons_of_mem neighbor member)
      by_cases onPath : neighbor ∈ search.path
      · refine ⟨true, search, by simp [hasCycleScan, onPath], fun _ => ⟨current, ?_⟩, by simp⟩
        exact Relation.TransGen.head' edge (leads neighbor onPath)
      by_cases known : neighbor ∈ search.visited
      · have goesOn : hasCycleScan visit (neighbor :: rest) search =
            hasCycleScan visit rest search := by
          simp [hasCycleScan, onPath, known]
        rw [goesOn]
        exact (inductionHypothesis restEdges sound leads enough).behind (fun _ member => member)
          rfl known onPath
      · have toNeighbor : ∀ earlier ∈ search.path, Relation.TransGen graph.Edge earlier neighbor :=
          fun earlier member => Relation.TransGen.tail' (leads earlier member) edge
        obtain ⟨found, after, run, cycle, clear⟩ := visits neighbor search sound
          (graph.covered.closed current neighbor edge).2 known toNeighbor enough
        cases found with
        | true =>
            exact ⟨true, after, by simp [hasCycleScan, onPath, known, run], cycle, by simp⟩
        | false =>
            obtain ⟨afterSound, samePath, grown, seen⟩ := clear rfl
            obtain ⟨visitedNow, offPath⟩ := seen neighbor List.mem_cons_self
            have goesOn : hasCycleScan visit (neighbor :: rest) search =
                hasCycleScan visit rest after := by
              simp [hasCycleScan, onPath, known, run]
            have ends := inductionHypothesis restEdges afterSound (samePath ▸ leads)
              ((unvisited_mono grown).trans enough)
            rw [goesOn]
            exact ends.behind grown samePath visitedNow (samePath ▸ offPath)

/-- Entering an unvisited node keeps the search sound. -/
theorem Search.Sound.enter (sound : search.Sound graph) {node : String}
    (fresh : node ∉ search.visited) :
    Search.Sound graph
      { visited := search.visited.insert node, path := search.path.insert node } where
  entered := fun other member => by
    rcases List.mem_insert_iff.mp member with rfl | member
    · exact List.mem_insert_self
    · exact List.mem_insert_of_mem (sound.entered other member)
  done := fun other visited off neighbor edge => by
    simp only [List.mem_insert_iff, not_or] at visited off ⊢
    obtain ⟨known, offPath⟩ :=
      sound.done other (visited.resolve_left off.1) off.2 neighbor edge
    exact ⟨.inr known, fun same => fresh (same ▸ known), offPath⟩
  clean := fun other visited off => by
    simp only [List.mem_insert_iff, not_or] at visited off
    exact sound.clean other (visited.resolve_left off.1) off.2

/-- Leaving a node whose neighbours have all been visited keeps the search sound. -/
theorem Search.Sound.leave (sound : search.Sound graph) {node : String} {path : List String}
    (path_eq : search.path = node :: path) (fresh : node ∉ path)
    (neighbours : ∀ neighbor, graph.Edge node neighbor →
      neighbor ∈ search.visited ∧ neighbor ∉ search.path) :
    Search.Sound graph { search with path := path } := by
  have still : ∀ other, other ∉ path → other ≠ node → other ∉ search.path := by
    intro other off different member
    rw [path_eq] at member
    exact (List.mem_cons.mp member).elim different off
  refine ⟨fun other member => ?_, fun other visited off neighbor edge => ?_,
    fun other visited off cycle => ?_⟩
  · exact sound.entered other (path_eq ▸ List.mem_cons_of_mem node member)
  · have targets : neighbor ∈ search.visited ∧ neighbor ∉ search.path := by
      by_cases same : other = node
      · exact neighbours neighbor (same ▸ edge)
      · exact sound.done other visited (still other off same) neighbor edge
    exact ⟨targets.1, fun member => targets.2 (path_eq ▸ List.mem_cons_of_mem node member)⟩
  · by_cases same : other = node
    · subst same
      -- A cycle through the node would lead from a neighbour, which is done, back to it.
      obtain ⟨neighbor, edge, back⟩ := Relation.TransGen.head'_iff.mp cycle
      obtain ⟨neighborVisited, neighborOff⟩ := neighbours neighbor edge
      have onPath : other ∈ search.path := path_eq ▸ List.mem_cons_self
      rcases Relation.reflTransGen_iff_eq_or_transGen.mp back with rfl | back
      · exact neighborOff onPath
      · exact (sound.reached back neighborVisited neighborOff).2 onPath
    · exact sound.clean other visited (still other off same) cycle

/-- With fuel for the unvisited nodes, the search from a node ends. -/
theorem hasCycleDFS_ends (order : IterationOrder) (fuel : Nat) (node : String) (search : Search)
    (sound : search.Sound graph) (member : node ∈ graph.nodes) (fresh : node ∉ search.visited)
    (leads : ∀ earlier ∈ search.path, Relation.TransGen graph.Edge earlier node)
    (enough : graph.unvisited search ≤ fuel) :
    search.Ends graph [node] (hasCycleDFS graph order fuel node search) := by
  induction fuel generalizing node search with
  | zero =>
      have someLeft := unvisited_enter member fresh search.path
      omega
  | succ fuel inductionHypothesis =>
      have offPath : node ∉ search.path := fun onPath => fresh (sound.entered node onPath)
      have path_eq : search.path.insert node = node :: search.path :=
        List.insert_of_not_mem offPath
      have less := unvisited_enter member fresh (search.path.insert node)
      have entered := sound.enter fresh
      have fromPath : ∀ earlier ∈ search.path.insert node,
          Relation.ReflTransGen graph.Edge earlier node := by
        intro earlier earlierMember
        rcases List.mem_insert_iff.mp earlierMember with rfl | onPath
        · exact .refl
        · exact (leads earlier onPath).to_reflTransGen
      obtain ⟨found, after, run, cycle, clear⟩ := hasCycleScan_ends inductionHypothesis
        (fun neighbor => (edge_iff graph order node neighbor).mp) entered fromPath (by omega)
      cases found with
      | true => exact ⟨true, after, by simp only [hasCycleDFS, run], cycle, by simp⟩
      | false =>
          obtain ⟨afterSound, samePath, grown, seen⟩ := clear rfl
          have after_path : after.path = node :: search.path := samePath.trans path_eq
          have left := afterSound.leave after_path offPath fun neighbor edge =>
            seen neighbor ((edge_iff graph order node neighbor).mpr edge)
          have erased : after.path.erase node = search.path := by
            rw [after_path, List.erase_cons_head]
          refine ⟨false, { after with path := search.path }, ?_, by simp, fun _ => ⟨left, rfl,
            fun other known => grown other (List.mem_insert_of_mem known), fun other about => ?_⟩⟩
          · simp only [hasCycleDFS, run, erased]
          · rw [List.mem_singleton.mp about]
            exact ⟨grown node List.mem_insert_self, offPath⟩

/-- The loop over the nodes ends and finds a cycle through one of them, if there is any. -/
theorem hasCycleNodes_spec (order : IterationOrder) {nodes : List String}
    (within : ∀ node ∈ nodes, node ∈ graph.nodes)
    (sound : search.Sound graph) (atRoot : search.path = []) :
    ∃ found, hasCycleNodes graph order nodes search = some found ∧
      (found = true → ∃ node, Relation.TransGen graph.Edge node node) ∧
      (found = false → ∀ node ∈ nodes, ¬ Relation.TransGen graph.Edge node node) := by
  induction nodes generalizing search with
  | nil => exact ⟨false, rfl, by simp, by simp⟩
  | cons node rest inductionHypothesis =>
      have restWithin : ∀ other ∈ rest, other ∈ graph.nodes :=
        fun other member => within other (List.mem_cons_of_mem node member)
      by_cases known : node ∈ search.visited
      · obtain ⟨found, run, cycle, clear⟩ := inductionHypothesis restWithin sound atRoot
        refine ⟨found, by simpa [hasCycleNodes, known] using run, cycle,
          fun none_found other member => ?_⟩
        rcases List.mem_cons.mp member with rfl | member
        · exact sound.clean other known (by simp [atRoot])
        · exact clear none_found other member
      · obtain ⟨found, after, run, cycle, clear⟩ :=
          hasCycleDFS_ends order graph.nodes.length node search sound
            (within node List.mem_cons_self) known (by simp [atRoot]) List.countP_le_length
        cases found with
        | true => exact ⟨true, by simp [hasCycleNodes, known, run], cycle, by simp⟩
        | false =>
            obtain ⟨afterSound, samePath, -, seen⟩ := clear rfl
            obtain ⟨visitedNow, offPath⟩ := seen node List.mem_cons_self
            obtain ⟨foundLater, laterRun, laterCycle, laterClear⟩ :=
              inductionHypothesis restWithin afterSound (samePath.trans atRoot)
            refine ⟨foundLater, by simp [hasCycleNodes, known, run, laterRun], laterCycle,
              fun none_found other member => ?_⟩
            rcases List.mem_cons.mp member with rfl | member
            · exact afterSound.clean other visitedNow offPath
            · exact laterClear none_found other member

/-- The search ends, and it finds a cycle exactly when there is one. -/
theorem hasCycle_spec (graph : DependencyGraph) (order : IterationOrder) :
    ∃ found, graph.hasCycle order = some found ∧
      (found = true ↔ ¬ Kahn.Acyclic graph.adjacencyList) := by
  have initial : Search.Sound graph {} := ⟨by simp, by simp, by simp⟩
  obtain ⟨found, run, cycle, clear⟩ := hasCycleNodes_spec order
    (fun node => (order.nodes_perm graph.nodes).mem_iff.mp) initial rfl
  refine ⟨found, run, fun isFound acyclic => ?_, fun cyclic => ?_⟩
  · obtain ⟨node, path⟩ := cycle isFound
    exact acyclic node path
  · by_contra notFound
    refine cyclic fun node path => ?_
    obtain ⟨target, edge, -⟩ := Relation.TransGen.head'_iff.mp path
    exact clear (by simpa using notFound) node
      ((order.nodes_perm graph.nodes).mem_iff.mpr (graph.covered.closed node target edge).1) path

/-! ## The edges of a graph -/

/-- A node is added without edges, and a node of that name stays as it is. -/
theorem addNode_edges (node : String) :
    (∀ other, other ∈ (graph.addNode node).2.nodes ↔ other ∈ graph.nodes ∨ other = node) ∧
      ∀ source target, (graph.addNode node).2.Edge source target ↔ graph.Edge source target := by
  rw [addNode]
  split
  · rename_i known
    exact ⟨fun other => ⟨.inl, fun either => either.elim id fun same => same ▸ known⟩,
      fun _ _ => Iff.rfl⟩
  · rename_i fresh
    refine ⟨fun other => by simp, fun source target => ?_⟩
    by_cases same : source = node
    · subst same
      simp only [Edge, Function.update_self, List.not_mem_nil, false_iff]
      exact fun edge => fresh (graph.covered.closed source target edge).1
    · simp [Edge, same]

/-- A dependency between nodes is added, and it counts. -/
theorem addEdge_spec {source target : String}
    (known : source ∈ graph.nodes ∧ target ∈ graph.nodes) :
    (graph.addEdge source target).1 = true ∧
      (graph.addEdge source target).2.nodes = graph.nodes ∧
      (∀ start stop, (graph.addEdge source target).2.Edge start stop ↔
        graph.Edge start stop ∨ (start, stop) = (source, target)) ∧
      ∀ stop, (graph.addEdge source target).2.inDegree stop =
        graph.inDegree stop + if target = stop then 1 else 0 := by
  rw [addEdge, dif_pos known]
  refine ⟨rfl, rfl, fun start stop => ?_, fun stop => ?_⟩
  · by_cases same : start = source
    · subst same
      simp [Edge, List.mem_insert_iff, or_comm]
    · simp [Edge, same]
  · by_cases same : target = stop
    · subst same
      simp
    · simp [same, Function.update_of_ne (Ne.symm same)]

/-- An edge has been added when both of its ends were nodes. -/
def Added (calls : List Call) (source target : String) : Prop :=
  ∃ front back, calls = front ++ .addEdge source target :: back ∧
    .addNode source ∈ front ∧ .addNode target ∈ front

/-- One more call adds what it says. -/
theorem added_concat {calls : List Call} {last : Call} {source target : String} :
    Added (calls ++ [last]) source target ↔ Added calls source target ∨
      last = .addEdge source target ∧ .addNode source ∈ calls ∧ .addNode target ∈ calls := by
  constructor
  · rintro ⟨front, back, split_eq, nodes⟩
    rcases List.eq_nil_or_concat back with rfl | ⟨back, final, rfl⟩
    · obtain ⟨rfl, rfl⟩ := List.append_singleton_inj.mp split_eq
      exact .inr ⟨rfl, nodes⟩
    · rw [List.concat_eq_append, ← List.cons_append, ← List.append_assoc] at split_eq
      obtain ⟨rfl, -⟩ := List.append_singleton_inj.mp split_eq
      exact .inl ⟨front, back, rfl, nodes⟩
  · rintro (⟨front, back, rfl, nodes⟩ | ⟨rfl, nodes⟩)
    · exact ⟨front, back ++ [last], by simp, nodes⟩
    · exact ⟨calls, [], rfl, nodes⟩

/-- The graph has the nodes and the edges that have been added. -/
theorem build_spec (calls : List Call) :
    (∀ node, node ∈ (build calls).nodes ↔ .addNode node ∈ calls) ∧
      ∀ source target, (build calls).Edge source target ↔ Added calls source target := by
  induction calls using List.reverseRecOn with
  | nil =>
      exact ⟨fun node => by simp [build, empty],
        fun source target => by simp [build, empty, Edge, Added]⟩
  | append_singleton calls last inductionHypothesis =>
      obtain ⟨nodes, edges⟩ := inductionHypothesis
      have step : build (calls ++ [last]) = (build calls).call last := by simp [build]
      simp only [added_concat, step, ← edges]
      cases last with
      | addNode node =>
          obtain ⟨allNodes, sameEdges⟩ := @addNode_edges (build calls) node
          refine ⟨fun other => ?_, fun source target => ?_⟩
          · rw [call, allNodes, nodes]
            simp
          · rw [call, sameEdges]
            simp
      | addEdge source target =>
          by_cases known : source ∈ (build calls).nodes ∧ target ∈ (build calls).nodes
          · obtain ⟨-, sameNodes, allEdges, -⟩ := addEdge_spec known
            rw [nodes, nodes] at known
            refine ⟨fun other => ?_, fun start stop => ?_⟩
            · rw [call, sameNodes, nodes]
              simp
            · rw [call, allEdges, Prod.mk.injEq, Call.addEdge.injEq]
              refine or_congr_right ⟨?_, ?_⟩
              · rintro ⟨rfl, rfl⟩
                exact ⟨⟨rfl, rfl⟩, known⟩
              · rintro ⟨⟨rfl, rfl⟩, -⟩
                exact ⟨rfl, rfl⟩
          · have unchanged : (build calls).call (.addEdge source target) = build calls := by
              simp [call, addEdge, known]
            rw [nodes, nodes] at known
            refine ⟨fun other => by simp [unchanged, nodes], fun start stop => ?_⟩
            rw [unchanged, Call.addEdge.injEq]
            refine (or_iff_left ?_).symm
            rintro ⟨⟨rfl, rfl⟩, both⟩
            exact known both

/-- The search of a graph that calls have built ends, and it finds a cycle exactly when the added
edges have one. -/
theorem hasCycle_build (calls : List Call) (order : IterationOrder) :
    ∃ found, (build calls).hasCycle order = some found ∧
      (found = true ↔ ∃ node, Relation.TransGen (Added calls) node node) := by
  obtain ⟨found, run, cyclic⟩ := hasCycle_spec (build calls) order
  refine ⟨found, run, cyclic.trans ?_⟩
  have same : (fun source target => target ∈ (build calls).adjacencyList source) = Added calls := by
    ext source target
    exact (build_spec calls).2 source target
  rw [Kahn.Acyclic, same, not_forall]
  exact exists_congr fun node => not_not

/-- The heap holds what has been pushed. -/
theorem push_perm (item : String) (pq : List String) : (push item pq).Perm (item :: pq) :=
  List.perm_orderedInsert _ item pq

/-- Pushing the nodes of a kind one by one. -/
theorem foldl_push_perm (wanted : String → Prop) [DecidablePred wanted] (nodes pq : List String) :
    (nodes.foldl (fun pq node => if wanted node then push node pq else pq) pq).Perm
      (pq ++ nodes.filter (wanted ·)) := by
  induction nodes generalizing pq with
  | nil => simp
  | cons node rest inductionHypothesis =>
      by_cases isWanted : wanted node
      · simp only [List.foldl_cons, isWanted, if_true, List.filter_cons, decide_true]
        refine (inductionHypothesis (push node pq)).trans ?_
        exact ((push_perm node pq).append_right _).trans List.perm_middle.symm
      · simpa [isWanted] using inductionHypothesis pq

/-- Pushing keeps the greatest item on top. -/
theorem push_sorted (item : String) (pq : List String)
    (sorted : pq.Pairwise fun first second => second ≤ first) :
    (push item pq).Pairwise fun first second => second ≤ first :=
  List.Pairwise.orderedInsert (r := (· ≥ ·)) item pq sorted

/-- Pushing several nodes keeps the greatest item on top. -/
theorem foldl_push_sorted (wanted : String → Prop) [DecidablePred wanted] (nodes : List String)
    {pq : List String} (sorted : pq.Pairwise fun first second => second ≤ first) :
    (nodes.foldl (fun pq node => if wanted node then push node pq else pq) pq).Pairwise
      fun first second => second ≤ first := by
  induction nodes generalizing pq with
  | nil => exact sorted
  | cons node rest inductionHypothesis =>
      rw [List.foldl_cons]
      split
      · exact inductionHypothesis (push_sorted node pq sorted)
      · exact inductionHypothesis sorted

/-- Without a cycle the loop ends with an empty heap, and every node has been the greatest ready
one when it was emitted. -/
theorem topologicalSort_run (graph : DependencyGraph) (order : IterationOrder)
    (search_eq : graph.hasCycle order = some false) :
    ∃ last, graph.topologicalSort order =
        some (decide (last.emitted.length = graph.nodes.length), last.emitted) ∧
      Kahn.Greedy graph.nodes
        (fun node => order.neighbours node (graph.adjacencyList node)) graph.inDegree last ∧
      last.ready = [] := by
  have covered := graph.covered.of_perm fun node => order.neighbours_perm node _
  have queued := (foldl_push_perm (graph.inDegree · = 0) (order.nodes graph.nodes) []).trans
    ((order.nodes_perm graph.nodes).filter _)
  have initial := Kahn.Emitted.initial covered queued
  obtain ⟨last, run, -, finished⟩ := initial.drain push_perm covered graph.nodes.length (by simp)
  have greedy : Kahn.Greedy graph.nodes _ graph.inDegree _ :=
    { emitted := initial
      sorted := foldl_push_sorted _ _ .nil
      greatest := fun front node back split_eq => by simp at split_eq }
  refine ⟨last, ?_, greedy.drain push_perm push_sorted covered _ run, finished⟩
  simp only [topologicalSort, search_eq, run, Option.map_some]

/-- The sort ends. It succeeds exactly when there is no cycle and every in-degree is the
number of edges into the node, and then it returns all nodes, along the edges. -/
theorem topologicalSort_spec (graph : DependencyGraph) (order : IterationOrder) :
    ∃ success result, graph.topologicalSort order = some (success, result) ∧
      (success = true ↔ Kahn.Acyclic graph.adjacencyList ∧ ∀ node ∈ graph.nodes,
        graph.inDegree node = graph.nodes.countP (node ∈ graph.adjacencyList ·)) ∧
      (success = true → result.Perm graph.nodes ∧ ∀ path : List String, path.IsChain graph.Edge →
        (∀ node ∈ path, node ∈ graph.nodes) → path.Sublist result) := by
  obtain ⟨found, search_eq, cyclic⟩ := hasCycle_spec graph order
  cases found with
  | true =>
      refine ⟨false, [], by simp [topologicalSort, search_eq], ?_, by simp⟩
      have hasCycle := cyclic.mp rfl
      simp [hasCycle]
  | false =>
      have covered := graph.covered.of_perm fun node => order.neighbours_perm node _
      obtain ⟨last, run, greedy, finished⟩ := topologicalSort_run graph order search_eq
      have all_iff := greedy.emitted.all_iff covered finished
      have length_iff := greedy.emitted.perm_iff covered
      simp only [edge_iff, Kahn.acyclic_congr (edge_iff graph order)] at all_iff
      refine ⟨_, last.emitted, run, ?_, ?_⟩
      · rw [decide_eq_true_iff, length_iff, all_iff]
      · intro success
        have whole := greedy.emitted.emitted_subperm.perm_of_length_le
          (of_decide_eq_true success).ge
        refine ⟨whole, fun path chain members => greedy.emitted.sublist_of_chain ?_
          fun node member => whole.mem_iff.mpr (members node member)⟩
        exact chain.imp fun source target edge => (edge_iff graph order source target).mpr edge

/-- With a cycle the result is empty. Without one it is the list in which every node is the
greatest that is ready, up to where none is. -/
theorem topologicalSort_greatestFirst (graph : DependencyGraph) (order : IterationOrder) :
    ∃ success result, graph.topologicalSort order = some (success, result) ∧
      (¬ Kahn.Acyclic graph.adjacencyList → success = false ∧ result = []) ∧
      (Kahn.Acyclic graph.adjacencyList →
        success = decide (result.length = graph.nodes.length) ∧
          Kahn.GreatestFirst graph.nodes graph.adjacencyList graph.inDegree result) := by
  obtain ⟨found, search_eq, cyclic⟩ := hasCycle_spec graph order
  cases found with
  | true =>
      have hasCycle := cyclic.mp rfl
      exact ⟨false, [], by simp [topologicalSort, search_eq], fun _ => ⟨rfl, rfl⟩,
        fun acyclic => absurd acyclic hasCycle⟩
  | false =>
      obtain ⟨last, run, greedy, finished⟩ := topologicalSort_run graph order search_eq
      refine ⟨_, last.emitted, run, fun hasCycle => ?_, fun _ => ⟨rfl, ?_⟩⟩
      · exact absurd (cyclic.mpr hasCycle) Bool.false_ne_true
      · exact (greedy.greatestFirst finished).congr (edge_iff graph order)

/-- The iteration order of the containers does not matter. -/
theorem topologicalSort_order (graph : DependencyGraph) (first second : IterationOrder) :
    graph.topologicalSort first = graph.topologicalSort second := by
  obtain ⟨success, result, run, cyclic, acyclic⟩ := topologicalSort_greatestFirst graph first
  obtain ⟨otherSuccess, other, otherRun, otherCyclic, otherAcyclic⟩ :=
    topologicalSort_greatestFirst graph second
  rw [run, otherRun]
  by_cases free : Kahn.Acyclic graph.adjacencyList
  · obtain ⟨rfl, greatest⟩ := acyclic free
    obtain ⟨rfl, otherGreatest⟩ := otherAcyclic free
    have same : result = other :=
      @Kahn.GreatestFirst.unique _ _ _ _ _ _ [] _ _ greatest otherGreatest
    rw [same]
  · obtain ⟨rfl, rfl⟩ := cyclic free
    obtain ⟨rfl, rfl⟩ := otherCyclic free
    rfl

end DependencyGraph

end MergeBot
