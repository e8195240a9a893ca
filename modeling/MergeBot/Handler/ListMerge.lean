import MergeBot.Foundation.FirstOccurrences
import MergeBot.Utils.DependencyGraph

/-!
# The list merge of the text handler

`mergeVectors` orders the strings of two vectors by the dependencies that each of them
imposes on its neighbours. `mergeVectors_sound`: on success the result has every string
once and keeps the order of both vectors, on failure it is empty.
`mergeVectors_complete_iff`: compatible vectors are merged exactly when no two strings
are neighbours in both. A pair that both vectors have is counted twice in the degree of
its second string but taken away once, so that the string is never emitted.
`mergeVectors_reproducible`: the result does not depend on the order of the hash containers.
-/

namespace MergeBot

open Foundation

/-- The pairs of neighbours in a vector. -/
def consecutive (lines : List String) : List (String × String) :=
  lines.zip lines.tail

/-- Add the nodes of a vector. -/
def addNodes (graph : DependencyGraph) (lines : List String) : DependencyGraph :=
  lines.foldl (fun graph line => (graph.addNode line).2) graph

/-- Add the dependencies of a vector, up to the first that fails. -/
def addDependencies : DependencyGraph → List (String × String) → Bool × DependencyGraph
  | graph, [] => (true, graph)
  | graph, (source, target) :: rest =>
      match graph.addEdge source target with
      | (true, after) => addDependencies after rest
      | (false, after) => (false, after)

/-- Merge two vectors; `result` is what the caller's vector holds before. `none` means that
the fuel of the graph search ran out. -/
def mergeVectors (order : IterationOrder) (vec1 vec2 result : List String) :
    Option (Bool × List String) :=
  if vec1 = [] ∧ vec2 = [] then some (true, [])
  else
    let uniqueVec1 := firsts [] vec1
    let uniqueVec2 := firsts [] vec2
    let graph := addNodes (addNodes .empty uniqueVec1) uniqueVec2
    match addDependencies graph (consecutive uniqueVec1) with
    | (false, _) => some (false, result)
    | (true, graph) =>
        match addDependencies graph (consecutive uniqueVec2) with
        | (false, _) => some (false, result)
        | (true, graph) =>
            (graph.topologicalSort order).map fun sorted =>
              if sorted.1 then (true, sorted.2) else (false, [])

/-! ## The graph of two vectors -/

variable {graph : DependencyGraph}

/-- One more node, and nothing else is different. -/
theorem addNode_spec (node : String) (bare : ∀ source, graph.adjacencyList source = [])
    (zero : ∀ target, graph.inDegree target = 0) :
    (∀ other, other ∈ (graph.addNode node).2.nodes ↔ other ∈ graph.nodes ∨ other = node) ∧
      (∀ source, (graph.addNode node).2.adjacencyList source = []) ∧
      ∀ target, (graph.addNode node).2.inDegree target = 0 := by
  by_cases known : node ∈ graph.nodes
  · refine ⟨fun other => ?_, fun source => ?_, fun target => ?_⟩
    · simp only [DependencyGraph.addNode, known, dif_pos]
      exact ⟨.inl, fun either => either.elim id fun same => same ▸ known⟩
    · simpa [DependencyGraph.addNode, known] using bare source
    · simpa [DependencyGraph.addNode, known] using zero target
  · refine ⟨fun other => ?_, fun source => ?_, fun target => ?_⟩
    · simp [DependencyGraph.addNode, known]
    · simp [DependencyGraph.addNode, known, Function.update_apply, bare]
    · simp [DependencyGraph.addNode, known, Function.update_apply, zero]

/-- The nodes of a vector are added without edges. -/
theorem addNodes_spec (graph : DependencyGraph) (lines : List String)
    (bare : ∀ source, graph.adjacencyList source = [])
    (zero : ∀ target, graph.inDegree target = 0) :
    (∀ line, line ∈ (addNodes graph lines).nodes ↔ line ∈ graph.nodes ∨ line ∈ lines) ∧
      (∀ source, (addNodes graph lines).adjacencyList source = []) ∧
      ∀ target, (addNodes graph lines).inDegree target = 0 := by
  induction lines generalizing graph with
  | nil => exact ⟨by simp [addNodes], bare, zero⟩
  | cons first rest inductionHypothesis =>
      obtain ⟨nodes, bareAfter, zeroAfter⟩ := addNode_spec first bare zero
      obtain ⟨all, stillBare, stillZero⟩ := inductionHypothesis _ bareAfter zeroAfter
      refine ⟨fun line => (all line).trans ?_, stillBare, stillZero⟩
      rw [nodes line, List.mem_cons, or_assoc]

/-- Dependencies between nodes are all added, and each of them counts. -/
theorem addDependencies_spec (graph : DependencyGraph) (pairs : List (String × String))
    (ends : ∀ pair ∈ pairs, pair.1 ∈ graph.nodes ∧ pair.2 ∈ graph.nodes) :
    ∃ after, addDependencies graph pairs = (true, after) ∧ after.nodes = graph.nodes ∧
      (∀ source target, after.Edge source target ↔
        graph.Edge source target ∨ (source, target) ∈ pairs) ∧
      ∀ target, after.inDegree target = graph.inDegree target + pairs.countP (·.2 = target) := by
  induction pairs generalizing graph with
  | nil => exact ⟨graph, rfl, rfl, by simp, by simp⟩
  | cons pair rest inductionHypothesis =>
      obtain ⟨source, target⟩ := pair
      obtain ⟨succeeds, sameNodes, edges, degrees⟩ :=
        DependencyGraph.addEdge_spec (ends _ List.mem_cons_self)
      have step : graph.addEdge source target = (true, (graph.addEdge source target).2) :=
        Prod.ext succeeds rfl
      have restEnds : ∀ pair ∈ rest, pair.1 ∈ (graph.addEdge source target).2.nodes ∧
          pair.2 ∈ (graph.addEdge source target).2.nodes := fun pair member =>
        sameNodes ▸ ends pair (List.mem_cons_of_mem _ member)
      obtain ⟨after, run, nodes_eq, allEdges, allDegrees⟩ := inductionHypothesis _ restEnds
      refine ⟨after, by rw [addDependencies, step]; exact run, nodes_eq.trans sameNodes,
        fun start stop => ?_, fun stop => ?_⟩
      · rw [allEdges, edges, List.mem_cons, or_assoc]
      · rw [allDegrees, degrees, List.countP_cons]
        by_cases same : target = stop
        · simp only [same, if_true, decide_true]
          push_cast
          omega
        · simp [same]

/-! ## Counting dependencies -/

/-- Both strings of a pair of neighbours are in the vector. -/
theorem mem_of_consecutive {lines : List String} {pair : String × String}
    (member : pair ∈ consecutive lines) : pair.1 ∈ lines ∧ pair.2 ∈ lines :=
  ⟨(List.of_mem_zip member).1, List.mem_of_mem_tail (List.of_mem_zip member).2⟩

/-- In a vector without repetitions no pair of neighbours is repeated. -/
theorem nodup_consecutive {lines : List String} (nodup : lines.Nodup) :
    (consecutive lines).Nodup := by
  apply List.Nodup.of_map Prod.snd
  rw [consecutive, List.map_snd_zip (by simp)]
  exact nodup.sublist (List.tail_sublist lines)

/-- A vector is a chain along its pairs of neighbours. -/
theorem isChain_consecutive {lines : List String} {precedes : String → String → Prop}
    (edges : ∀ pair ∈ consecutive lines, precedes pair.1 pair.2) : lines.IsChain precedes := by
  induction lines with
  | nil => exact List.IsChain.nil
  | cons first rest inductionHypothesis =>
      cases rest with
      | nil => exact List.IsChain.singleton first
      | cons second rest =>
          refine List.IsChain.cons_cons ?_ (inductionHypothesis fun pair member => ?_)
          · exact edges (first, second) (by simp [consecutive])
          · exact edges pair (by simpa [consecutive] using Or.inr member)

/-- The pairs to a string, one for each string before it, are among all pairs to it. -/
theorem sources_subperm (pairs : List (String × String)) {nodes : List String}
    (nodup : nodes.Nodup) (target : String) :
    ((nodes.filter fun source => (source, target) ∈ pairs).map (·, target)).Subperm
      (pairs.filter (·.2 = target)) := by
  refine List.subperm_of_subset ?_ fun pair member => ?_
  · exact (nodup.filter _).map fun first second same => (Prod.mk.inj same).1
  · obtain ⟨source, isSource, rfl⟩ := List.mem_map.mp member
    simpa using (List.mem_filter.mp isSource).2

/-- Every string is as often the second of a pair as there are strings before it exactly when
no pair is repeated. -/
theorem countP_pairs_iff {pairs : List (String × String)} {nodes : List String}
    (nodup : nodes.Nodup) (ends : ∀ pair ∈ pairs, pair.1 ∈ nodes ∧ pair.2 ∈ nodes) :
    (∀ target ∈ nodes, pairs.countP (·.2 = target) =
      nodes.countP fun source => (source, target) ∈ pairs) ↔ pairs.Nodup := by
  simp only [List.countP_eq_length_filter]
  constructor
  · intro exact_counts
    refine List.nodup_iff_count_le_one.mpr fun pair => ?_
    by_cases member : pair ∈ pairs
    · have whole := (sources_subperm pairs nodup pair.2).perm_of_length_le
        (by simpa using (exact_counts pair.2 (ends pair member).2).le)
      have single : (pairs.filter (·.2 = pair.2)).Nodup := whole.nodup_iff.mp
        ((nodup.filter _).map fun first second same => (Prod.mk.inj same).1)
      have once := List.nodup_iff_count_le_one.mp single pair
      rwa [List.count_filter (by simp)] at once
    · rw [List.count_eq_zero_of_not_mem member]
      exact Nat.zero_le 1
  · intro pairsNodup target _
    have toSources : (pairs.filter (·.2 = target)).Subperm
        ((nodes.filter fun source => (source, target) ∈ pairs).map (·, target)) := by
      refine List.subperm_of_subset (pairsNodup.filter _) fun pair member => ?_
      obtain ⟨inPairs, toTarget⟩ := List.mem_filter.mp member
      obtain rfl : pair.2 = target := by simpa using toTarget
      exact List.mem_map.mpr ⟨pair.1,
        List.mem_filter.mpr ⟨(ends pair inPairs).1, by simpa using inPairs⟩, rfl⟩
    have same := toSources.length_le.antisymm (sources_subperm pairs nodup target).length_le
    simpa using same

/-! ## The merge -/

/-- A string has to come before another one. -/
def Precedes (vec1 vec2 : List String) (source target : String) : Prop :=
  (source, target) ∈ consecutive (firsts [] vec1) ∨
    (source, target) ∈ consecutive (firsts [] vec2)

/-- The dependencies of two vectors have no cycle. -/
def Compatible (vec1 vec2 : List String) : Prop :=
  ∀ line, ¬ Relation.TransGen (Precedes vec1 vec2) line line

/-- No two strings are neighbours in both vectors. -/
def NoSharedPair (vec1 vec2 : List String) : Prop :=
  ∀ pair ∈ consecutive (firsts [] vec1), pair ∉ consecutive (firsts [] vec2)

/-- The graph that is sorted has the strings of both vectors, their dependencies as edges and
the number of these as degrees. -/
theorem mergeVectors_graph {vec1 vec2 : List String} (nonempty : ¬ (vec1 = [] ∧ vec2 = [])) :
    ∃ graph : DependencyGraph,
      (∀ order result, mergeVectors order vec1 vec2 result =
        (graph.topologicalSort order).map fun sorted =>
          if sorted.1 then (true, sorted.2) else (false, [])) ∧
      (∀ line, line ∈ graph.nodes ↔ line ∈ vec1 ∨ line ∈ vec2) ∧
      (∀ source target, graph.Edge source target ↔ Precedes vec1 vec2 source target) ∧
      ∀ target, graph.inDegree target =
        (consecutive (firsts [] vec1) ++ consecutive (firsts [] vec2)).countP (·.2 = target) := by
  obtain ⟨nodes1, bare1, zero1⟩ := addNodes_spec .empty (firsts [] vec1)
    (fun _ => rfl) (fun _ => rfl)
  obtain ⟨nodes2, bare2, zero2⟩ := addNodes_spec _ (firsts [] vec2) bare1 zero1
  have members : ∀ line, line ∈ (addNodes (addNodes .empty (firsts [] vec1))
      (firsts [] vec2)).nodes ↔ line ∈ vec1 ∨ line ∈ vec2 := by
    intro line
    rw [nodes2, nodes1, mem_firsts, mem_firsts]
    simp [DependencyGraph.empty]
  have inVector : ∀ vec : List String, ∀ pair ∈ consecutive (firsts [] vec),
      pair.1 ∈ vec ∧ pair.2 ∈ vec := fun vec pair member =>
    ⟨(mem_firsts.mp (mem_of_consecutive member).1).1,
      (mem_firsts.mp (mem_of_consecutive member).2).1⟩
  obtain ⟨first, firstRun, firstNodes, firstEdges, firstDegrees⟩ :=
    addDependencies_spec _ (consecutive (firsts [] vec1)) fun pair member =>
      ⟨(members _).mpr (.inl (inVector vec1 pair member).1),
        (members _).mpr (.inl (inVector vec1 pair member).2)⟩
  obtain ⟨second, secondRun, secondNodes, secondEdges, secondDegrees⟩ :=
    addDependencies_spec first (consecutive (firsts [] vec2)) fun pair member => by
      rw [firstNodes]
      exact ⟨(members _).mpr (.inr (inVector vec2 pair member).1),
        (members _).mpr (.inr (inVector vec2 pair member).2)⟩
  refine ⟨second, fun order result => ?_, fun line => ?_, fun source target => ?_,
    fun target => ?_⟩
  · simp only [mergeVectors, nonempty, if_false, firstRun, secondRun]
  · rw [secondNodes, firstNodes, members]
  · rw [secondEdges, firstEdges, Precedes, DependencyGraph.Edge, bare2]
    simp
  · rw [secondDegrees, firstDegrees, zero2, List.countP_append]
    push_cast
    omega

/-- Vectors without strings impose nothing. -/
theorem not_precedes_nil (source target : String) : ¬ Precedes [] [] source target := by
  simp [Precedes, consecutive, firsts]

/-- The merge ends. It succeeds exactly for compatible vectors without a shared pair. -/
theorem mergeVectors_spec (order : IterationOrder) (vec1 vec2 result : List String) :
    ∃ success merged, mergeVectors order vec1 vec2 result = some (success, merged) ∧
      (success = true ↔ Compatible vec1 vec2 ∧ NoSharedPair vec1 vec2) ∧
      (success = true → merged.Nodup ∧
        (∀ line, line ∈ merged ↔ line ∈ vec1 ∨ line ∈ vec2) ∧
        (firsts [] vec1).Sublist merged ∧ (firsts [] vec2).Sublist merged) ∧
      (success = false → merged = []) := by
  by_cases empty : vec1 = [] ∧ vec2 = []
  · obtain ⟨rfl, rfl⟩ := empty
    have compatible : Compatible [] [] := by
      intro line path
      obtain ⟨next, first, -⟩ := Relation.TransGen.head'_iff.mp path
      exact not_precedes_nil line next first
    have noShared : NoSharedPair [] [] := fun pair _ member => by
      simp [consecutive, firsts] at member
    exact ⟨true, [], by simp [mergeVectors], by simp [compatible, noShared],
      by simp [firsts], by simp⟩
  · obtain ⟨graph, merge_eq, nodes, edges, degrees⟩ := mergeVectors_graph empty
    obtain ⟨success, sorted, sort_eq, succeeds, sound⟩ := graph.topologicalSort_spec order
    have ends : ∀ pair ∈ consecutive (firsts [] vec1) ++ consecutive (firsts [] vec2),
        pair.1 ∈ graph.nodes ∧ pair.2 ∈ graph.nodes := by
      intro pair member
      have edge : graph.Edge pair.1 pair.2 := (edges _ _).mpr (List.mem_append.mp member)
      exact graph.covered.closed pair.1 pair.2 edge
    have edge_iff : ∀ source target, target ∈ graph.adjacencyList source ↔
        (source, target) ∈ consecutive (firsts [] vec1) ++ consecutive (firsts [] vec2) :=
      fun source target => (edges source target).trans List.mem_append.symm
    have acyclic_iff : Kahn.Acyclic graph.adjacencyList ↔ Compatible vec1 vec2 := by
      have same : (fun source target => target ∈ graph.adjacencyList source) =
          Precedes vec1 vec2 := by
        ext source target
        exact edges source target
      rw [Kahn.Acyclic, same, Compatible]
    have degree_iff : (∀ node ∈ graph.nodes, graph.inDegree node =
        graph.nodes.countP (node ∈ graph.adjacencyList ·)) ↔ NoSharedPair vec1 vec2 := by
      simp only [edge_iff, degrees, Int.natCast_inj]
      rw [countP_pairs_iff graph.covered.nodup ends, List.nodup_append]
      have once (vec : List String) : (consecutive (firsts [] vec)).Nodup :=
        nodup_consecutive (nodup_firsts [] vec)
      simp only [once, true_and, NoSharedPair]
      exact ⟨fun apart pair first second => apart pair first pair second rfl,
        fun apart pair first other second same => apart pair first (same ▸ second)⟩
    rw [acyclic_iff, degree_iff] at succeeds
    have chain (vec : List String) (within : ∀ pair ∈ consecutive (firsts [] vec),
        Precedes vec1 vec2 pair.1 pair.2) : (firsts [] vec).IsChain graph.Edge :=
      isChain_consecutive fun pair member => (edges _ _).mpr (within pair member)
    cases success with
    | true =>
        obtain ⟨whole, along⟩ := sound rfl
        refine ⟨true, sorted, by simp [merge_eq, sort_eq], succeeds, fun _ => ⟨?_, ?_, ?_, ?_⟩,
          by simp⟩
        · exact whole.nodup_iff.mpr graph.covered.nodup
        · exact fun line => whole.mem_iff.trans (nodes line)
        · exact along _ (chain vec1 fun pair member => .inl member) fun line member =>
            (nodes line).mpr (.inl (mem_firsts.mp member).1)
        · exact along _ (chain vec2 fun pair member => .inr member) fun line member =>
            (nodes line).mpr (.inr (mem_firsts.mp member).1)
    | false => exact ⟨false, [], by simp [merge_eq, sort_eq], succeeds, by simp, by simp⟩

/-- On success the merged vector has every string of the two vectors once and no other one,
and keeps the order of both; on failure it is empty. -/
theorem mergeVectors_sound (order : IterationOrder) (vec1 vec2 result : List String) :
    ∃ success merged, mergeVectors order vec1 vec2 result = some (success, merged) ∧
      (success = true → merged.Nodup ∧
        (∀ line, line ∈ merged ↔ line ∈ vec1 ∨ line ∈ vec2) ∧
        (firsts [] vec1).Sublist merged ∧ (firsts [] vec2).Sublist merged) ∧
      (success = false → merged = []) := by
  obtain ⟨success, merged, run, -, sound, cleared⟩ := mergeVectors_spec order vec1 vec2 result
  exact ⟨success, merged, run, sound, cleared⟩

/-- Compatible vectors are merged exactly when no two strings are neighbours in both. -/
theorem mergeVectors_complete_iff (order : IterationOrder) (vec1 vec2 result : List String) :
    (Compatible vec1 vec2 → ∃ merged,
        mergeVectors order vec1 vec2 result = some (true, merged)) ↔
      (Compatible vec1 vec2 → NoSharedPair vec1 vec2) := by
  obtain ⟨success, merged, run, succeeds, -, -⟩ := mergeVectors_spec order vec1 vec2 result
  refine forall_congr' fun compatible => ?_
  rw [run]
  constructor
  · rintro ⟨other, same⟩
    have isTrue : success = true := by simpa using (Prod.mk.inj (Option.some.inj same)).1
    exact (succeeds.mp isTrue).2
  · intro noShared
    exact ⟨merged, by rw [succeeds.mpr ⟨compatible, noShared⟩]⟩

/-- Two runs of the sort with different orders of the containers return the same: nothing when
there is a cycle, else the list in which every node is the greatest that is ready. So the merge of
two vectors is the same in both runs. -/
theorem mergeVectors_reproducible (graph : DependencyGraph) (first second : IterationOrder) :
    (∃ success sorted, graph.topologicalSort first = some (success, sorted) ∧
      graph.topologicalSort second = some (success, sorted) ∧
      (¬ Kahn.Acyclic graph.adjacencyList → success = false ∧ sorted = []) ∧
      (Kahn.Acyclic graph.adjacencyList →
        success = decide (sorted.length = graph.nodes.length) ∧
          Kahn.GreatestFirst graph.nodes graph.adjacencyList graph.inDegree sorted)) ∧
      ∀ vec1 vec2 result,
        mergeVectors first vec1 vec2 result = mergeVectors second vec1 vec2 result := by
  have same (graph : DependencyGraph) : graph.topologicalSort first =
      graph.topologicalSort second := graph.topologicalSort_order first second
  obtain ⟨success, sorted, run, cyclic, acyclic⟩ := graph.topologicalSort_greatestFirst first
  refine ⟨⟨success, sorted, run, (same graph).symm.trans run, cyclic, acyclic⟩,
    fun vec1 vec2 result => ?_⟩
  simp only [mergeVectors, same]

/-- The containers iterated as they were filled. -/
def insertionOrder : IterationOrder where
  nodes := id
  neighbours := fun _ => id
  nodes_perm := fun _ => List.Perm.refl _
  neighbours_perm := fun _ _ => List.Perm.refl _

/-- Two equal vectors of two strings are compatible, but not merged. -/
theorem mergeVectors_rejects_shared : ¬ ∀ order vec1 vec2 result, Compatible vec1 vec2 →
    ∃ merged, mergeVectors order vec1 vec2 result = some (true, merged) := by
  intro merges
  have compatible : Compatible ["a", "b"] ["a", "b"] := by
    have only : ∀ source target, Precedes ["a", "b"] ["a", "b"] source target →
        source = "a" ∧ target = "b" := by
      intro source target precedes
      simpa [Precedes, consecutive, firsts] using precedes
    intro line path
    obtain ⟨_, first, -⟩ := Relation.TransGen.head'_iff.mp path
    obtain ⟨_, -, last⟩ := Relation.TransGen.tail'_iff.mp path
    have asSource := (only _ _ first).1
    rw [(only _ _ last).2] at asSource
    exact absurd asSource (by decide)
  obtain ⟨merged, run⟩ := merges insertionOrder _ _ [] compatible
  obtain ⟨success, other, otherRun, succeeds, -, -⟩ :=
    mergeVectors_spec insertionOrder ["a", "b"] ["a", "b"] []
  rw [run] at otherRun
  have isTrue : success = true := by simpa using (Prod.mk.inj (Option.some.inj otherRun)).1.symm
  exact (succeeds.mp isTrue).2 ("a", "b") (by decide) (by decide)

end MergeBot
