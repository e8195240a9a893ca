import Mathlib.Data.List.AList
import Mathlib.Tactic.IntervalCases
import MergeBot.Foundation.ShrinkingScan
import MergeBot.Model.TwoWayMatching

/-!
# Weighted bottom-up matching

Five matchers build a bipartite graph over the unmatched nodes of one kind, ask
for a maximum weighted matching and match its pairs. They differ in the edge
test and in what they do with the record of refactored types, so each is a
`WeightedMatcher` and `WeightedMatcher.match_` is the loop they share.

`match_spec` computes the outcome of the loop. `run_partition` says that
every node stays in exactly one place, and `match_complete_iff` how much of the
oracle's matching is applied: the scan is bounded by a vector that shrinks with
every match.
-/

namespace MergeBot

open Foundation

/-- Similarity arithmetic: the cosine of two strings and the threshold test. -/
structure Similarity (W : Type) where
  stringCosine : String → String → W
  /-- `< MIN_SIMI`. -/
  belowMinSimi : W → Bool

/-- Signature hashes of types matched across a rename. -/
abbrev RefactoredTypes := AList fun _ : UInt64 => UInt64

/-- What a matcher does with the record of refactored types. -/
inductive RefactoringUse
  | unused
  | checked
  | recorded
deriving DecidableEq, Repr

/-- What one matcher class adds to the common loop. -/
structure WeightedMatcher where
  kind : NodeKind
  hasEdge : SemanticNode → SemanticNode → Bool
  refactoring : RefactoringUse

section Matchers

variable {W : Type} (similarity : Similarity W)

/-- Function definitions need similar signatures and equal or refactored parents. -/
def FuncDefMatcher : WeightedMatcher where
  kind := .funcDef
  hasEdge base revision := !similarity.belowMinSimi
    (similarity.stringCosine base.originalSignature revision.originalSignature)
  refactoring := .checked

/-- Any two special member functions are joined. -/
def FuncSpecialMemberMatcher : WeightedMatcher where
  kind := .funcSpecialMember
  hasEdge _ _ := true
  refactoring := .unused

/-- Field declarations need similar declarators and equal or refactored parents. -/
def FieldDeclMatcher : WeightedMatcher where
  kind := .fieldDeclaration
  hasEdge base revision := !similarity.belowMinSimi
    (similarity.stringCosine base.declarator revision.declarator)
  refactoring := .checked

/-- Types need similar signatures; their matches are recorded as refactorings. -/
def TypeSpecifierMatcher : WeightedMatcher where
  kind := .type
  hasEdge base revision := !similarity.belowMinSimi
    (similarity.stringCosine base.originalSignature revision.originalSignature)
  refactoring := .recorded

/-- Namespaces are joined within one translation unit. -/
def NamespaceMatcher : WeightedMatcher where
  kind := .namespace_
  hasEdge base revision := base.tuPath = revision.tuPath
  refactoring := .unused

/-- The matcher classes that share the loop. -/
inductive MatcherClass
  | funcDef
  | funcSpecialMember
  | fieldDecl
  | typeSpecifier
  | namespace_
deriving DecidableEq, Repr

/-- The matcher of a class. -/
def MatcherClass.matcher : MatcherClass → WeightedMatcher
  | funcDef => FuncDefMatcher similarity
  | funcSpecialMember => FuncSpecialMemberMatcher
  | fieldDecl => FieldDeclMatcher similarity
  | typeSpecifier => TypeSpecifierMatcher similarity
  | namespace_ => NamespaceMatcher

end Matchers

/-- The graph a matcher builds: base vertices first, revision vertices after
them, and the weights its similarity gives. -/
structure MatchGraph (W : Type) where
  baseNodes : List NodeRef
  revisionNodes : List NodeRef
  hasEdge : NodeRef → NodeRef → Bool
  weight : Nat → Nat → W

namespace MatchGraph

variable {W : Type} (graph : MatchGraph W)

/-- Node at a vertex. -/
def vertex (index : Nat) : Option NodeRef :=
  (graph.baseNodes ++ graph.revisionNodes)[index]?

/-- Weight of the edge added from a base vertex to a revision vertex. -/
def addedEdge (base revision : Nat) : Option W :=
  if base < graph.baseNodes.length ∧ graph.baseNodes.length ≤ revision then
    match graph.vertex base, graph.vertex revision with
    | some baseNode, some revisionNode =>
        if graph.hasEdge baseNode revisionNode then some (graph.weight base revision) else none
    | _, _ => none
  else none

/-- Edges are undirected. -/
def edge (first second : Nat) : Option W :=
  graph.addedEdge first second <|> graph.addedEdge second first

/-- A mate vector is a matching along the edges of the graph. -/
structure IsMatching (mate : List (Option Nat)) : Prop where
  length : mate.length = graph.baseNodes.length + graph.revisionNodes.length
  symmetric : ∀ first second : Nat, mate[first]? = some (some second) →
    mate[second]? = some (some first)
  edge : ∀ first second : Nat, mate[first]? = some (some second) →
    (graph.edge first second).isSome

end MatchGraph

/-- What the loop reads and writes. -/
structure MatchState where
  oneOneMatching : BiMap
  baseNodes : List NodeRef
  revisionNodes : List NodeRef
  refactoredTypes : RefactoredTypes

/-- The unmatched nodes of one kind, as a matcher receives them. -/
def TwoWayMatching.matchState (matching : TwoWayMatching) (kind : NodeKind)
    (refactoredTypes : RefactoredTypes) : MatchState where
  oneOneMatching := matching.oneOneMatching
  baseNodes := matching.possiblyDeleted kind
  revisionNodes := matching.possiblyAdded kind
  refactoredTypes := refactoredTypes

/-- Write back what a matcher made of the unmatched nodes of one kind. -/
def TwoWayMatching.withState (matching : TwoWayMatching) (kind : NodeKind)
    (state : MatchState) : TwoWayMatching :=
  { matching with
    oneOneMatching := state.oneOneMatching
    possiblyDeleted := Function.update matching.possiblyDeleted kind state.baseNodes
    possiblyAdded := Function.update matching.possiblyAdded kind state.revisionNodes }

/-- Both parents are known, and neither equal nor recorded as refactored. -/
def parentsDiffer (std : StdHash) (heap : Heap) (refactoredTypes : RefactoredTypes)
    (base revision : NodeRef) : Bool :=
  match (heap base).parent, (heap revision).parent with
  | some baseParent, some revisionParent =>
      heap.hash std baseParent ≠ heap.hash std revisionParent &&
        (refactoredTypes.lookup (heap.hash std baseParent) ≠
          some (heap.hash std revisionParent))
  | _, _ => false

/-- Erase all nodes with the hash of `ref`. -/
def eraseByHash (std : StdHash) (heap : Heap) (refs : List NodeRef) (ref : NodeRef) :
    List NodeRef :=
  refs.filter fun other => heap.hash std other ≠ heap.hash std ref

namespace WeightedMatcher

variable {W : Type} (matcher : WeightedMatcher) (similarity : Similarity W) (std : StdHash)
  (heap : Heap)

/-- Match one pair and drop its nodes from the unmatched vectors. -/
def matchPair (state : MatchState) (base revision : NodeRef) : MatchState where
  oneOneMatching :=
    state.oneOneMatching.insert (heap.hash std) (heap.hash std) base revision
  baseNodes := eraseByHash std heap state.baseNodes base
  revisionNodes := eraseByHash std heap state.revisionNodes revision
  refactoredTypes :=
    if matcher.refactoring = .recorded ∧ heap.hash std base ∉ state.refactoredTypes then
      state.refactoredTypes.insert (heap.hash std base) (heap.hash std revision)
    else state.refactoredTypes

/-- One turn of the loop; `none` is a read past the end of a vector. -/
def matchVertex (graph : MatchGraph W) (mate : List (Option Nat)) (index : Nat)
    (state : MatchState) : Option MatchState := do
  match ← mate[index]? with
  | none => return state
  | some mateIndex =>
      let base ← graph.vertex index
      let revision ← graph.vertex mateIndex
      match graph.edge index mateIndex with
      | none => return state
      | some weight =>
          if similarity.belowMinSimi weight then return state
          else if matcher.refactoring = .checked ∧
              parentsDiffer std heap state.refactoredTypes base revision then return state
          else return matcher.matchPair std heap state base revision

/-- The loop over the base vertices, bounded by the vector it erases from. -/
def matchLoop (graph : MatchGraph W) (mate : List (Option Nat)) :
    Nat → Nat → MatchState → Option MatchState
  | 0, _, _ => none
  | fuel + 1, index, state =>
      if index < state.baseNodes.length then do
        let next ← matcher.matchVertex similarity std heap graph mate index state
        matchLoop graph mate fuel (index + 1) next
      else some state

/-- The graph built from the unmatched nodes. -/
def graph (heap : Heap) (weight : Nat → Nat → W) (state : MatchState) : MatchGraph W where
  baseNodes := state.baseNodes
  revisionNodes := state.revisionNodes
  hasEdge base revision := matcher.hasEdge (heap base) (heap revision)
  weight := weight

/-- Match the pairs of the mate vector, which the weighted matching algorithm
returned for the graph. -/
def match_ (weight : Nat → Nat → W) (mate : List (Option Nat)) (state : MatchState) :
    Option MatchState :=
  matcher.matchLoop similarity std heap (matcher.graph heap weight state) mate
    (state.baseNodes.length + 1) 0 state

/-- Apply a matcher to the unmatched nodes of its own kind. -/
def run (weight : Nat → Nat → W) (mate : List (Option Nat)) (matching : TwoWayMatching)
    (refactoredTypes : RefactoredTypes) : Option (TwoWayMatching × RefactoredTypes) := do
  let final ← matcher.match_ similarity std heap weight mate
    (matching.matchState matcher.kind refactoredTypes)
  return (matching.withState matcher.kind final, final.refactoredTypes)

end WeightedMatcher

/-! ## The loop computes a shrinking scan -/

/-- The nodes of either side are told apart by their hashes, and none of them
is matched yet. -/
structure Unmatched (std : StdHash) (heap : Heap) (state : MatchState) : Prop where
  base_distinct : (state.baseNodes.map (heap.hash std)).Nodup
  revision_distinct : (state.revisionNodes.map (heap.hash std)).Nodup
  base_fresh : ∀ ref ∈ state.baseNodes,
    state.oneOneMatching.leftFind (heap.hash std) ref = none
  revision_fresh : ∀ ref ∈ state.revisionNodes,
    state.oneOneMatching.rightFind (heap.hash std) ref = none

/-- Erasing the hash of a member removes it and no other node. -/
theorem eraseByHash_perm {std : StdHash} {heap : Heap} {refs : List NodeRef} {ref : NodeRef}
    (distinct : (refs.map (heap.hash std)).Nodup) (member : ref ∈ refs) :
    refs.Perm (ref :: eraseByHash std heap refs ref) := by
  have same : eraseByHash std heap refs ref = refs.erase ref := by
    rw [(List.Nodup.of_map _ distinct).erase_eq_filter]
    refine List.filter_congr fun other otherMember => ?_
    rw [Bool.eq_iff_iff]
    simp only [ne_eq, decide_eq_true_eq, bne_iff_ne, not_iff_not]
    exact ⟨List.inj_on_of_nodup_map distinct otherMember member, congrArg _⟩
  rw [same]
  exact List.perm_cons_erase member

namespace WeightedMatcher

variable {W : Type} (matcher : WeightedMatcher) (similarity : Similarity W) (std : StdHash)
  (heap : Heap)

/-- The pair of a base vertex and its mate, if they are joined by an edge of
sufficient weight and pass the parent test of the matcher. -/
def candidate (graph : MatchGraph W) (mate : List (Option Nat))
    (refactoredTypes : RefactoredTypes) (index : Nat) : Option (NodeRef × NodeRef) :=
  if index < graph.baseNodes.length then do
    let mateIndex ← (mate[index]?).join
    let base ← graph.vertex index
    let revision ← graph.vertex mateIndex
    let weight ← graph.edge index mateIndex
    if similarity.belowMinSimi weight then none
    else if matcher.refactoring = .checked ∧
        parentsDiffer std heap refactoredTypes base revision then none
    else some (base, revision)
  else none

variable {matcher similarity std heap}

section Candidates

variable {graph : MatchGraph W} {mate : List (Option Nat)} {refactoredTypes : RefactoredTypes}

/-- A base vertex is mated with a revision vertex. -/
theorem mate_in_range (matching : graph.IsMatching mate) {index mateIndex : Nat}
    (inside : index < graph.baseNodes.length) (mated : mate[index]? = some (some mateIndex)) :
    ∃ base revision weight, graph.baseNodes[index]? = some base ∧
      graph.revisionNodes[mateIndex - graph.baseNodes.length]? = some revision ∧
      graph.baseNodes.length ≤ mateIndex ∧ graph.vertex index = some base ∧
      graph.vertex mateIndex = some revision ∧ graph.edge index mateIndex = some weight := by
  obtain ⟨weight, joined⟩ := Option.isSome_iff_exists.mp (matching.edge index mateIndex mated)
  have back := List.getElem?_eq_some_iff.mp (matching.symmetric index mateIndex mated)
  have bounded : mateIndex < graph.baseNodes.length + graph.revisionNodes.length :=
    matching.length ▸ back.1
  have across : graph.baseNodes.length ≤ mateIndex := by
    by_contra inBase
    simp only [MatchGraph.edge, MatchGraph.addedEdge] at joined
    simp [inBase, Nat.not_le.mpr inside] at joined
  have offset : mateIndex - graph.baseNodes.length < graph.revisionNodes.length := by omega
  refine ⟨graph.baseNodes[index], graph.revisionNodes[mateIndex - graph.baseNodes.length], weight,
    by simp [inside], by simp [offset], across, ?_, ?_, joined⟩
  · rw [MatchGraph.vertex, List.getElem?_append_left inside, List.getElem?_eq_getElem]
  · rw [MatchGraph.vertex, List.getElem?_append_right across, List.getElem?_eq_getElem]

/-- A candidate is a base node with the revision node its vertex is mated with. -/
theorem candidate_some (matching : graph.IsMatching mate) {index : Nat} {base revision : NodeRef}
    (found : matcher.candidate similarity std heap graph mate refactoredTypes index =
      some (base, revision)) :
    ∃ mateIndex, mate[index]? = some (some mateIndex) ∧ graph.baseNodes[index]? = some base ∧
      graph.baseNodes.length ≤ mateIndex ∧
      graph.revisionNodes[mateIndex - graph.baseNodes.length]? = some revision := by
  by_cases inside : index < graph.baseNodes.length
  · simp only [candidate, inside, if_true] at found
    cases mated : mate[index]? with
    | none => simp [mated] at found
    | some slot =>
        cases slot with
        | none => simp [mated] at found
        | some mateIndex =>
            obtain ⟨baseNode, revisionNode, weight, baseAt, revisionAt, across, vertexAt,
              mateAt, joined⟩ := mate_in_range matching inside mated
            simp only [mated, Option.join_some, Option.bind_eq_bind, Option.bind_some, vertexAt,
              mateAt, joined] at found
            split at found
            · simp at found
            · split at found
              · simp at found
              · obtain ⟨rfl, rfl⟩ : baseNode = base ∧ revisionNode = revision := by
                  simpa using found
                exact ⟨mateIndex, rfl, baseAt, across, revisionAt⟩
  · simp [candidate, inside] at found

/-- Vertices whose candidates share a base node are equal. -/
theorem candidate_base_inj (matching : graph.IsMatching mate)
    (distinct : (graph.baseNodes.map (heap.hash std)).Nodup) {first second : Nat}
    {left right : NodeRef × NodeRef}
    (foundLeft : matcher.candidate similarity std heap graph mate refactoredTypes first = some left)
    (foundRight :
      matcher.candidate similarity std heap graph mate refactoredTypes second = some right)
    (same : left.1 = right.1) : first = second := by
  obtain ⟨-, -, leftAt, -⟩ := candidate_some matching foundLeft
  obtain ⟨-, -, rightAt, -⟩ := candidate_some matching foundRight
  have bounded := (List.getElem?_eq_some_iff.mp leftAt).1
  exact (List.getElem?_inj bounded (List.Nodup.of_map _ distinct)).mp
    (leftAt.trans (same ▸ rightAt.symm))

/-- Vertices whose candidates share a revision node are equal. -/
theorem candidate_revision_inj (matching : graph.IsMatching mate)
    (distinct : (graph.revisionNodes.map (heap.hash std)).Nodup) {first second : Nat}
    {left right : NodeRef × NodeRef}
    (foundLeft : matcher.candidate similarity std heap graph mate refactoredTypes first = some left)
    (foundRight :
      matcher.candidate similarity std heap graph mate refactoredTypes second = some right)
    (same : left.2 = right.2) : first = second := by
  obtain ⟨leftMate, leftMated, -, leftAcross, leftAt⟩ := candidate_some matching foundLeft
  obtain ⟨rightMate, rightMated, -, rightAcross, rightAt⟩ := candidate_some matching foundRight
  have bounded := (List.getElem?_eq_some_iff.mp leftAt).1
  have offsets := (List.getElem?_inj bounded (List.Nodup.of_map _ distinct)).mp
    (leftAt.trans (same ▸ rightAt.symm))
  have mates : leftMate = rightMate := by omega
  have backLeft := matching.symmetric _ _ leftMated
  have backRight := matching.symmetric _ _ rightMated
  rw [mates, backRight] at backLeft
  simpa using backLeft.symm

/-- One turn of the loop reads only positions that exist, and matches the
candidate of its vertex if there is one. -/
theorem matchVertex_eq (similarity : Similarity W) (std : StdHash) (heap : Heap)
    (matching : graph.IsMatching mate) {index : Nat}
    (inside : index < graph.baseNodes.length) {state : MatchState}
    (refactored : matcher.refactoring = .checked → state.refactoredTypes = refactoredTypes) :
    matcher.matchVertex similarity std heap graph mate index state =
      some (match matcher.candidate similarity std heap graph mate refactoredTypes index with
        | none => state
        | some pair => matcher.matchPair std heap state pair.1 pair.2) := by
  have bounded : index < mate.length := by
    have length := matching.length
    omega
  have read : mate[index]? = some mate[index] := List.getElem?_eq_getElem bounded
  cases mated : mate[index] with
  | none => simp [matchVertex, candidate, read, mated]
  | some mateIndex =>
      rw [mated] at read
      obtain ⟨base, revision, weight, -, -, -, vertexAt, mateAt, joined⟩ :=
        mate_in_range matching inside read
      simp only [matchVertex, candidate, read, inside, if_true, Option.join_some,
        Option.bind_eq_bind, Option.bind_some, vertexAt, mateAt, joined, Option.pure_def]
      by_cases light : similarity.belowMinSimi weight = true
      · simp [light]
      · by_cases checked : matcher.refactoring = .checked
        · rw [refactored checked]
          by_cases differ : parentsDiffer std heap refactoredTypes base revision = true
          · simp [light, checked, differ]
          · simp [light, checked, differ]
        · simp [light, checked]

end Candidates

/-- What holds when the pairs `done` have been matched: they were appended to
the matching and took exactly their nodes out of the unmatched vectors. -/
structure Applied (matcher : WeightedMatcher) (std : StdHash) (heap : Heap) (start : MatchState)
    (done : List (NodeRef × NodeRef)) (state : MatchState) : Prop where
  pairs : state.oneOneMatching = start.oneOneMatching ++ done.map fun pair =>
    ⟨pair.1, pair.2, heap.hash std pair.1, heap.hash std pair.2⟩
  base_split : start.baseNodes.Perm (done.map Prod.fst ++ state.baseNodes)
  revision_split : start.revisionNodes.Perm (done.map Prod.snd ++ state.revisionNodes)
  refactored : matcher.refactoring = .checked →
    state.refactoredTypes = start.refactoredTypes

/-- Matching a pair of nodes that are still unmatched takes out exactly these. -/
theorem Applied.matchPair {start state : MatchState} {done : List (NodeRef × NodeRef)}
    (applied : Applied matcher std heap start done state) (unmatched : Unmatched std heap start)
    {pair : NodeRef × NodeRef} (baseMember : pair.1 ∈ start.baseNodes)
    (revisionMember : pair.2 ∈ start.revisionNodes) (baseNew : pair.1 ∉ done.map Prod.fst)
    (revisionNew : pair.2 ∉ done.map Prod.snd) :
    Applied matcher std heap start (done ++ [pair])
        (matcher.matchPair std heap state pair.1 pair.2) ∧
      (matcher.matchPair std heap state pair.1 pair.2).baseNodes.length + 1 =
        state.baseNodes.length := by
  obtain ⟨pairs, baseSplit, revisionSplit, refactored⟩ := applied
  have baseDistinct := (baseSplit.map (heap.hash std)).nodup_iff.mp unmatched.base_distinct
  have revisionDistinct :=
    (revisionSplit.map (heap.hash std)).nodup_iff.mp unmatched.revision_distinct
  have baseLeft : pair.1 ∈ state.baseNodes :=
    (List.mem_append.mp (baseSplit.subset baseMember)).resolve_left baseNew
  have revisionLeft : pair.2 ∈ state.revisionNodes :=
    (List.mem_append.mp (revisionSplit.subset revisionMember)).resolve_left revisionNew
  rw [List.map_append, List.nodup_append] at baseDistinct revisionDistinct
  have baseErased := eraseByHash_perm baseDistinct.2.1 baseLeft
  have revisionErased := eraseByHash_perm revisionDistinct.2.1 revisionLeft
  have baseFresh : state.oneOneMatching.leftFind (heap.hash std) pair.1 = none := by
    rw [pairs, HashBiMap.leftFind, List.find?_append,
      show List.find? _ start.oneOneMatching = none from unmatched.base_fresh _ baseMember]
    simp only [Option.none_or, List.find?_eq_none, List.mem_map]
    rintro entry ⟨earlier, earlierMember, rfl⟩
    simp only [and_self, decide_eq_true_eq]
    exact baseDistinct.2.2 _ (List.mem_map_of_mem (List.mem_map_of_mem earlierMember)) _
      (List.mem_map_of_mem baseLeft)
  have revisionFresh : state.oneOneMatching.rightFind (heap.hash std) pair.2 = none := by
    rw [pairs, HashBiMap.rightFind, List.find?_append,
      show List.find? _ start.oneOneMatching = none from unmatched.revision_fresh _ revisionMember]
    simp only [Option.none_or, List.find?_eq_none, List.mem_map]
    rintro entry ⟨earlier, earlierMember, rfl⟩
    simp only [and_self, decide_eq_true_eq]
    exact revisionDistinct.2.2 _ (List.mem_map_of_mem (List.mem_map_of_mem earlierMember)) _
      (List.mem_map_of_mem revisionLeft)
  refine ⟨⟨?_, ?_, ?_, fun checked => ?_⟩, ?_⟩
  · simp only [WeightedMatcher.matchPair, HashBiMap.insert_fresh baseFresh revisionFresh]
    simp [pairs]
  · simpa [WeightedMatcher.matchPair] using baseSplit.trans (baseErased.append_left _)
  · simpa [WeightedMatcher.matchPair] using revisionSplit.trans (revisionErased.append_left _)
  · simp [WeightedMatcher.matchPair, checked, refactored checked]
  · simpa [WeightedMatcher.matchPair] using baseErased.length_eq.symm

/-- From any turn on, the loop ends without a read past the end of a vector, and
has matched the candidates a shrinking scan hits. -/
theorem Applied.matchLoop {weight : Nat → Nat → W} {mate : List (Option Nat)}
    {start : MatchState} (unmatched : Unmatched std heap start)
    (matching : (matcher.graph heap weight start).IsMatching mate) {fuel index : Nat}
    {state : MatchState} {done : List (NodeRef × NodeRef)} (fuelLeft : 0 < fuel)
    (enough : state.baseNodes.length < index + fuel)
    (earlier : ∀ pair ∈ done, ∃ place < index, matcher.candidate similarity std heap
      (matcher.graph heap weight start) mate start.refactoredTypes place = some pair)
    (applied : Applied matcher std heap start done state) :
    ∃ final, matcher.matchLoop similarity std heap (matcher.graph heap weight start) mate
        fuel index state = some final ∧
      Applied matcher std heap start (done ++ ShrinkingScan.hits (matcher.candidate similarity
        std heap (matcher.graph heap weight start) mate start.refactoredTypes) fuel
        state.baseNodes.length index) final := by
  induction fuel generalizing index state done with
  | zero => omega
  | succ fuel ih =>
      by_cases inside : index < state.baseNodes.length
      · have inGraph : index < (matcher.graph heap weight start).baseNodes.length := by
          have kept := applied.base_split.length_eq
          rw [List.length_append] at kept
          exact Nat.lt_of_lt_of_le inside (by simp only [graph]; omega)
        have turn := matchVertex_eq similarity std heap matching inGraph applied.refactored
        cases found : matcher.candidate similarity std heap (matcher.graph heap weight start) mate
            start.refactoredTypes index with
        | none =>
            rw [found] at turn
            obtain ⟨final, ends, holds⟩ := ih (by omega)
              (show state.baseNodes.length < index + 1 + fuel by omega) (fun pair member => by
              obtain ⟨place, before, placed⟩ := earlier pair member
              exact ⟨place, by omega, placed⟩) applied
            exact ⟨final, by simp [WeightedMatcher.matchLoop, inside, turn, ends],
              by simpa [ShrinkingScan.hits, inside, found] using holds⟩
        | some pair =>
            rw [found] at turn
            obtain ⟨mateIndex, -, baseAt, -, revisionAt⟩ := candidate_some matching found
            have baseNew : pair.1 ∉ done.map Prod.fst := by
              rintro member
              obtain ⟨other, otherMember, same⟩ := List.mem_map.mp member
              obtain ⟨place, before, placed⟩ := earlier other otherMember
              have equal := candidate_base_inj matching unmatched.base_distinct placed found same
              omega
            have revisionNew : pair.2 ∉ done.map Prod.snd := by
              rintro member
              obtain ⟨other, otherMember, same⟩ := List.mem_map.mp member
              obtain ⟨place, before, placed⟩ := earlier other otherMember
              have equal :=
                candidate_revision_inj matching unmatched.revision_distinct placed found same
              omega
            obtain ⟨next, shrunk⟩ := applied.matchPair unmatched (List.mem_of_getElem? baseAt)
              (List.mem_of_getElem? revisionAt) baseNew revisionNew
            obtain ⟨final, ends, holds⟩ := ih (by omega)
              (show _ < index + 1 + fuel by omega) (fun other member => by
              rcases List.mem_append.mp member with old | new
              · obtain ⟨place, before, placed⟩ := earlier other old
                exact ⟨place, by omega, placed⟩
              · rw [List.mem_singleton.mp new]
                exact ⟨index, by omega, found⟩) next
            have size : state.baseNodes.length - 1 =
                (matcher.matchPair std heap state pair.1 pair.2).baseNodes.length := by omega
            exact ⟨final, by simp [WeightedMatcher.matchLoop, inside, turn, ends],
              by simpa [ShrinkingScan.hits, inside, found, size] using holds⟩
      · exact ⟨state, by simp [WeightedMatcher.matchLoop, inside],
          by simpa [ShrinkingScan.hits, inside] using applied⟩

/-- A matcher returns, and has matched the candidates that a scan of the
shrinking base vector hits. -/
theorem match_spec (similarity : Similarity W) {weight : Nat → Nat → W}
    {mate : List (Option Nat)} {start : MatchState} (unmatched : Unmatched std heap start)
    (matching : (matcher.graph heap weight start).IsMatching mate) :
    ∃ final, matcher.match_ similarity std heap weight mate start = some final ∧
      Applied matcher std heap start (ShrinkingScan.hits (matcher.candidate similarity std heap
        (matcher.graph heap weight start) mate start.refactoredTypes)
        (start.baseNodes.length + 1) start.baseNodes.length 0) final := by
  have applied : Applied matcher std heap start [] start :=
    ⟨by simp, by simp, by simp, fun _ => rfl⟩
  simpa [match_] using applied.matchLoop unmatched matching (by omega) (by omega) (by simp)

end WeightedMatcher

/-! ## Partition and completeness -/

/-- Where all places have distinct hashes, the lists of one kind are unmatched nodes. -/
theorem TwoWayMatching.unmatched_of_places {std : StdHash} {heap : Heap}
    {matching : TwoWayMatching} (filed : matching.oneOneMatching.Filed (heap.hash std)
      (heap.hash std)) (baseDistinct : (matching.basePlaces.map (heap.hash std)).Nodup)
    (revisionDistinct : (matching.revisionPlaces.map (heap.hash std)).Nodup) (kind : NodeKind)
    (refactoredTypes : RefactoredTypes) :
    Unmatched std heap (matching.matchState kind refactoredTypes) := by
  have deleted : (matching.possiblyDeleted kind).Perm (matching.possiblyDeleted kind ++ []) := by
    simp
  have added : (matching.possiblyAdded kind).Perm (matching.possiblyAdded kind ++ []) := by simp
  have base := ((KindMap.collect_update deleted).append_left matching.lefts).symm
  have revision := ((KindMap.collect_update added).append_left matching.rights).symm
  have baseApart := (base.map (heap.hash std)).nodup_iff.mpr baseDistinct
  have revisionApart := (revision.map (heap.hash std)).nodup_iff.mpr revisionDistinct
  simp only [List.map_append, List.nodup_append] at baseApart revisionApart
  refine ⟨baseApart.2.1.1, revisionApart.2.1.1, fun ref member => ?_, fun ref member => ?_⟩
  · refine filed.leftFind_none fun entry entryMember => ?_
    exact baseApart.2.2 _ (List.mem_map_of_mem (List.mem_map_of_mem entryMember)) _
      (List.mem_append_left _ (List.mem_map_of_mem member))
  · refine filed.rightFind_none fun entry entryMember => ?_
    exact revisionApart.2.2 _ (List.mem_map_of_mem (List.mem_map_of_mem entryMember)) _
      (List.mem_append_left _ (List.mem_map_of_mem member))

/-- In a partition the lists of one kind are unmatched nodes. -/
theorem TwoWayMatching.Partition.unmatched {std : StdHash} {heap : Heap}
    {matching : TwoWayMatching} {baseNodes revisionNodes : List NodeRef}
    (partition_ : matching.Partition std heap baseNodes revisionNodes) (kind : NodeKind)
    (refactoredTypes : RefactoredTypes) :
    Unmatched std heap (matching.matchState kind refactoredTypes) :=
  matching.unmatched_of_places partition_.filed
    ((partition_.base_places.map (heap.hash std)).nodup_iff.mpr partition_.base_distinct)
    ((partition_.revision_places.map (heap.hash std)).nodup_iff.mpr partition_.revision_distinct)
    kind refactoredTypes

section Partition

variable {W : Type} (matcherClass : MatcherClass) (similarity : Similarity W) (std : StdHash)
  (heap : Heap) (weight : Nat → Nat → W) (mate : List (Option Nat))
  (refactoredTypes : RefactoredTypes)

/-- Whatever the weights and the oracle's matching are, a matcher reads no
position that does not exist and keeps every node in exactly one place. -/
theorem run_partition {matching : TwoWayMatching} {baseNodes revisionNodes : List NodeRef}
    (partition_ : matching.Partition std heap baseNodes revisionNodes)
    (oracle : ((matcherClass.matcher similarity).graph heap weight (matching.matchState
      (matcherClass.matcher similarity).kind refactoredTypes)).IsMatching mate) :
    ∃ next recorded, (matcherClass.matcher similarity).run similarity std heap weight mate
        matching refactoredTypes = some (next, recorded) ∧
      next.Partition std heap baseNodes revisionNodes := by
  obtain ⟨final, returned, applied⟩ := WeightedMatcher.match_spec similarity
    (partition_.unmatched (matcherClass.matcher similarity).kind refactoredTypes) oracle
  refine ⟨matching.withState (matcherClass.matcher similarity).kind final, final.refactoredTypes,
    by simp [WeightedMatcher.run, returned], ?_⟩
  generalize ShrinkingScan.hits _ _ _ _ = done at applied
  generalize (matcherClass.matcher similarity).kind = kind at applied ⊢
  obtain ⟨pairs, baseSplit, revisionSplit, -⟩ := applied
  simp only [TwoWayMatching.matchState] at pairs baseSplit revisionSplit
  have deletedKind := partition_.deleted_kind kind
  have addedKind := partition_.added_kind kind
  refine ⟨List.Perm.trans ?_ partition_.base_places, List.Perm.trans ?_ partition_.revision_places,
    partition_.base_distinct, partition_.revision_distinct, fun entry member => ?_,
    fun entry member => ?_, fun other ref member => ?_, fun other ref member => ?_⟩
  · simpa [TwoWayMatching.basePlaces, TwoWayMatching.lefts, TwoWayMatching.withState, pairs,
      Function.comp_def] using
      ((KindMap.collect_update baseSplit).append_left matching.lefts).symm
  · simpa [TwoWayMatching.revisionPlaces, TwoWayMatching.rights, TwoWayMatching.withState, pairs,
      Function.comp_def] using
      ((KindMap.collect_update revisionSplit).append_left matching.rights).symm
  · simp only [TwoWayMatching.withState, pairs, List.mem_append, List.mem_map] at member
    rcases member with old | ⟨pair, -, rfl⟩
    · exact partition_.filed entry old
    · exact ⟨rfl, rfl⟩
  · simp only [TwoWayMatching.withState, pairs, List.mem_append, List.mem_map] at member
    rcases member with old | ⟨pair, pairMember, rfl⟩
    · exact partition_.same_kind entry old
    · exact (deletedKind pair.1 (baseSplit.symm.subset
        (List.mem_append_left _ (List.mem_map_of_mem pairMember)))).trans
          (addedKind pair.2 (revisionSplit.symm.subset
            (List.mem_append_left _ (List.mem_map_of_mem pairMember)))).symm
  · by_cases same : other = kind
    · subst same
      simp only [TwoWayMatching.withState, Function.update_self] at member
      exact deletedKind ref (baseSplit.symm.subset (List.mem_append_right _ member))
    · simp only [TwoWayMatching.withState, Function.update_of_ne same] at member
      exact partition_.deleted_kind other ref member
  · by_cases same : other = kind
    · subst same
      simp only [TwoWayMatching.withState, Function.update_self] at member
      exact addedKind ref (revisionSplit.symm.subset (List.mem_append_right _ member))
    · simp only [TwoWayMatching.withState, Function.update_of_ne same] at member
      exact partition_.added_kind other ref member

end Partition

/-- Functions 0 and 1 of the base file are renamed to 2 and 3. -/
def renamedFunctions : Heap := fun ref =>
  { kind := .funcDef, usr := (["c:@F@get", "c:@F@set", "c:@F@read", "c:@F@write"])[ref]?.getD "" }

/-- Every two strings and nodes are fully similar, in percent. -/
def fullSimilarity : Similarity Nat where
  stringCosine _ _ := 100
  belowMinSimi weight := weight < 62

/-- Both functions are unmatched on either side. -/
def renamedMatching : TwoWayMatching where
  possiblyDeleted := Function.update (fun _ => []) .funcDef [0, 1]
  possiblyAdded := Function.update (fun _ => []) .funcDef [2, 3]

/-- The oracle's answer: each function is mated with its new name. -/
def renamedMates : List (Option Nat) := [some 2, some 3, some 0, some 1]

theorem renamedMatching_partition :
    renamedMatching.Partition .polynomial renamedFunctions [0, 1] [2, 3] := by
  decide

/-- What holds of the listed mates holds of all. -/
theorem forall_mates {mate : List (Option Nat)} {P : Nat → Nat → Prop}
    (all : ∀ entry ∈ mate.zipIdx, ∀ second ∈ entry.1, P entry.2 second) :
    ∀ first second : Nat, mate[first]? = some (some second) → P first second := by
  intro first second mated
  exact all (some second, first) (List.mk_mem_zipIdx_iff_getElem?.mpr mated) second rfl

theorem renamedMates_isMatching :
    ((MatcherClass.funcDef.matcher fullSimilarity).graph renamedFunctions (fun _ _ => 100)
      (renamedMatching.matchState .funcDef ∅)).IsMatching renamedMates :=
  ⟨by decide, forall_mates (by decide), forall_mates (by decide)⟩

/-- The partition survives matching the renamed functions. -/
theorem renamed_run_partition :
    ∃ next recorded, (MatcherClass.funcDef.matcher fullSimilarity).run fullSimilarity .polynomial
        renamedFunctions (fun _ _ => 100) renamedMates renamedMatching ∅ =
          some (next, recorded) ∧
      next.Partition .polynomial renamedFunctions [0, 1] [2, 3] :=
  run_partition .funcDef fullSimilarity .polynomial renamedFunctions (fun _ _ => 100)
    renamedMates ∅ renamedMatching_partition renamedMates_isMatching

/-- The pair is matched, and neither node is still in an unmatched vector. -/
def MatchState.Holds (state : MatchState) (pair : NodeRef × NodeRef) : Prop :=
  (∃ entry ∈ state.oneOneMatching, entry.left = pair.1 ∧ entry.right = pair.2) ∧
    pair.1 ∉ state.baseNodes ∧ pair.2 ∉ state.revisionNodes

section Completeness

variable {W : Type} (matcherClass : MatcherClass) (similarity : Similarity W) (std : StdHash)
  (heap : Heap) (weight : Nat → Nat → W) (mate : List (Option Nat))

/-- A matcher applies the oracle's whole matching, if and only if every
candidate's index, moved up by the candidates before it, is an index of the base
vector. -/
theorem match_complete_iff {start : MatchState} (unmatched : Unmatched std heap start)
    (oracle : ((matcherClass.matcher similarity).graph heap weight start).IsMatching mate) :
    let candidate := (matcherClass.matcher similarity).candidate similarity std heap
      ((matcherClass.matcher similarity).graph heap weight start) mate start.refactoredTypes
    ∃ final, (matcherClass.matcher similarity).match_ similarity std heap weight mate start =
        some final ∧
      ((∀ index pair, candidate index = some pair → final.Holds pair) ↔
        ∀ index, (candidate index).isSome →
          index + ShrinkingScan.countBetween candidate 0 index < start.baseNodes.length) := by
  intro candidate
  obtain ⟨final, returned, applied⟩ :=
    WeightedMatcher.match_spec similarity unmatched oracle
  refine ⟨final, returned, fun holds index isCandidate => ?_, fun bounded index pair found => ?_⟩
  · obtain ⟨pair, found⟩ := Option.isSome_iff_exists.mp isCandidate
    obtain ⟨-, -, baseAt, -⟩ := WeightedMatcher.candidate_some oracle found
    have placed := applied.base_split.subset (List.mem_of_getElem? baseAt)
    have matched := (List.mem_append.mp placed).resolve_right (holds index pair found).2.1
    obtain ⟨hit, hitMember, same⟩ := List.mem_map.mp matched
    obtain ⟨place, -, placeFound, reached⟩ :=
      (ShrinkingScan.mem_hits_iff (by omega)).mp hitMember
    have equal := WeightedMatcher.candidate_base_inj oracle unmatched.base_distinct
      placeFound found same
    exact equal ▸ reached
  · have hit := (ShrinkingScan.mem_hits_iff
      (show start.baseNodes.length ≤ 0 + (start.baseNodes.length + 1) by omega)).mpr
      ⟨index, Nat.zero_le _, found, bounded index (Option.isSome_iff_exists.mpr ⟨pair, found⟩)⟩
    have baseDistinct := applied.base_split.nodup_iff.mp
      (List.Nodup.of_map _ unmatched.base_distinct)
    have revisionDistinct := applied.revision_split.nodup_iff.mp
      (List.Nodup.of_map _ unmatched.revision_distinct)
    rw [List.nodup_append] at baseDistinct revisionDistinct
    refine ⟨⟨⟨pair.1, pair.2, heap.hash std pair.1, heap.hash std pair.2⟩, ?_, rfl, rfl⟩,
      fun still => ?_, fun still => ?_⟩
    · rw [applied.pairs]
      exact List.mem_append_right _ (List.mem_map_of_mem hit)
    · exact baseDistinct.2.2 _ (List.mem_map_of_mem hit) _ still rfl
    · exact revisionDistinct.2.2 _ (List.mem_map_of_mem hit) _ still rfl

end Completeness

/-- Only the first of two renamed functions is matched. -/
theorem secondRename_lost :
    Unmatched .polynomial renamedFunctions (renamedMatching.matchState .funcDef ∅) ∧
      ((MatcherClass.funcDef.matcher fullSimilarity).graph renamedFunctions (fun _ _ => 100)
        (renamedMatching.matchState .funcDef ∅)).IsMatching renamedMates ∧
      ¬ ∃ final, (MatcherClass.funcDef.matcher fullSimilarity).match_ fullSimilarity .polynomial
          renamedFunctions (fun _ _ => 100) renamedMates
          (renamedMatching.matchState .funcDef ∅) = some final ∧
        ∀ index pair, (MatcherClass.funcDef.matcher fullSimilarity).candidate fullSimilarity
          .polynomial renamedFunctions ((MatcherClass.funcDef.matcher fullSimilarity).graph
            renamedFunctions (fun _ _ => 100) (renamedMatching.matchState .funcDef ∅))
          renamedMates ∅ index = some pair → final.Holds pair := by
  refine ⟨renamedMatching_partition.unmatched .funcDef ∅, renamedMates_isMatching, ?_⟩
  rintro ⟨final, returned, holds⟩
  have left : ((MatcherClass.funcDef.matcher fullSimilarity).match_ fullSimilarity .polynomial
      renamedFunctions (fun _ _ => 100) renamedMates
      (renamedMatching.matchState .funcDef ∅)).map MatchState.baseNodes = some [1] := by
    decide
  have gone := (holds 1 (1, 3) (by decide)).2.1
  rw [returned, Option.map_some, Option.some.injEq] at left
  exact gone (by simp [left])

/-- Three functions of the base file, of which two are renamed. -/
def keptFunctions : Heap := fun ref =>
  { kind := .funcDef
    usr := (["c:@F@get", "c:@F@set", "c:@F@old", "c:@F@read", "c:@F@write"])[ref]?.getD "" }

/-- All of them are unmatched. -/
def keptMatching : TwoWayMatching where
  possiblyDeleted := Function.update (fun _ => []) .funcDef [0, 1, 2]
  possiblyAdded := Function.update (fun _ => []) .funcDef [3, 4]

/-- The oracle mates the first two with their new names. -/
def keptMates : List (Option Nat) := [some 3, some 4, none, some 0, some 1]

/-- The unmated function comes last, and both pairs are applied. -/
theorem keptFunctions_complete :
    let candidate := (MatcherClass.funcDef.matcher fullSimilarity).candidate fullSimilarity
      .polynomial keptFunctions ((MatcherClass.funcDef.matcher fullSimilarity).graph
        keptFunctions (fun _ _ => 100) (keptMatching.matchState .funcDef ∅)) keptMates ∅
    ∃ final, (MatcherClass.funcDef.matcher fullSimilarity).match_ fullSimilarity .polynomial
        keptFunctions (fun _ _ => 100) keptMates (keptMatching.matchState .funcDef ∅) =
          some final ∧
      candidate 0 = some (0, 3) ∧ candidate 1 = some (1, 4) ∧
        ∀ index pair, candidate index = some pair → final.Holds pair := by
  intro candidate
  have kept : keptMatching.Partition .polynomial keptFunctions [0, 1, 2] [3, 4] := by decide
  obtain ⟨final, returned, complete⟩ := match_complete_iff .funcDef fullSimilarity .polynomial
    keptFunctions (fun _ _ => 100) keptMates (kept.unmatched .funcDef ∅)
    ⟨by decide, forall_mates (by decide), forall_mates (by decide)⟩
  refine ⟨final, returned, by decide, by decide, complete.mpr fun index found => ?_⟩
  have small : index < 3 := by
    by_contra outside
    exact absurd found (by simp [WeightedMatcher.candidate, show ¬ index <
      ((MatcherClass.funcDef.matcher fullSimilarity).graph keptFunctions (fun _ _ => 100)
        (keptMatching.matchState .funcDef ∅)).baseNodes.length from outside])
  have bounded : ∀ index < 3, (candidate index).isSome →
      index + ShrinkingScan.countBetween candidate 0 index < 3 := by decide
  exact bounded index small found

end MergeBot
