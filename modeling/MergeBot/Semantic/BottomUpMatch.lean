import MergeBot.Semantic.GreedyMatcher

/-!
# Matching two graphs

`GraphMatcher.match` pairs the nodes with equal signatures, and then asks one matcher after the
other for what is left: each is given the unmatched nodes of its own kind, if there are some on
either side. `match_partition_iff` says when the whole run reads nothing behind the end of a
vector; then every node that top-down matching has kept is in one place of the outcome.

The weighted matching algorithm is a parameter, `MatchServices`, as are the weights of edges; it
returns a matching along the edges of the graph it is given.
-/

namespace MergeBot

open Foundation

/-! ## Pairs of one kind -/

namespace TwoWayMatching

variable {std : StdHash} {heap : Heap} {matching : TwoWayMatching}
  {baseNodes revisionNodes : List NodeRef}

/-- Unmatched nodes of one kind are matched in pairs and leave their lists. -/
theorem Partition.withPairs (partition_ : matching.Partition std heap baseNodes revisionNodes)
    {kind : NodeKind} (pairs : List (NodeRef × NodeRef)) {state : MatchState}
    (entries : state.oneOneMatching = matching.oneOneMatching ++ pairs.map fun pair =>
      ⟨pair.1, pair.2, heap.hash std pair.1, heap.hash std pair.2⟩)
    (baseSplit : (matching.possiblyDeleted kind).Perm (pairs.map Prod.fst ++ state.baseNodes))
    (revisionSplit :
      (matching.possiblyAdded kind).Perm (pairs.map Prod.snd ++ state.revisionNodes)) :
    (matching.withState kind state).Partition std heap baseNodes revisionNodes := by
  -- The lists of one kind are replaced by parts of themselves.
  have kept : ∀ {map : KindMap} {moved rest : List NodeRef}, (map kind).Perm (moved ++ rest) →
      (∀ other, ∀ node ∈ map other, (heap node).kind = other) →
        ∀ other, ∀ node ∈ Function.update map kind rest other, (heap node).kind = other := by
    intro map moved rest split kinds other node member
    by_cases same : other = kind
    · subst same
      rw [Function.update_self] at member
      exact kinds other node (split.symm.subset (List.mem_append_right _ member))
    · rw [Function.update_of_ne same] at member
      exact kinds other node member
  have cases : ∀ entry ∈ state.oneOneMatching, entry ∈ matching.oneOneMatching ∨
      ∃ pair ∈ pairs, entry = ⟨pair.1, pair.2, heap.hash std pair.1, heap.hash std pair.2⟩ := by
    intro entry member
    rw [entries, List.mem_append, List.mem_map] at member
    exact member.imp id fun ⟨pair, inside, same⟩ => ⟨pair, inside, same.symm⟩
  refine ⟨?_, ?_, partition_.base_distinct, partition_.revision_distinct, ?_, ?_,
    kept baseSplit partition_.deleted_kind, kept revisionSplit partition_.added_kind⟩
  · have moved := (KindMap.collect_update baseSplit).append_left matching.lefts
    refine List.Perm.trans ?_ partition_.base_places
    simpa [basePlaces, lefts, withState, entries, Function.comp_def] using moved.symm
  · have moved := (KindMap.collect_update revisionSplit).append_left matching.rights
    refine List.Perm.trans ?_ partition_.revision_places
    simpa [revisionPlaces, rights, withState, entries, Function.comp_def] using moved.symm
  · intro entry member
    rcases cases entry member with old | ⟨pair, -, rfl⟩
    · exact partition_.filed entry old
    · exact ⟨rfl, rfl⟩
  · intro entry member
    rcases cases entry member with old | ⟨pair, inside, rfl⟩
    · exact partition_.same_kind entry old
    · have base := baseSplit.symm.subset
        (List.mem_append_left _ (List.mem_map_of_mem (f := Prod.fst) inside))
      have revision := revisionSplit.symm.subset
        (List.mem_append_left _ (List.mem_map_of_mem (f := Prod.snd) inside))
      exact (partition_.deleted_kind kind pair.1 base).trans
        (partition_.added_kind kind pair.2 revision).symm

/-- What a state writes is overwritten by a later one. -/
theorem withState_withState (matching : TwoWayMatching) (kind : NodeKind)
    (state later : MatchState) :
    (matching.withState kind state).withState kind later = matching.withState kind later := by
  simp [withState]

/-- Nothing is written back where nothing has changed. -/
theorem withState_matchState (matching : TwoWayMatching) (kind : NodeKind)
    (refactoredTypes : RefactoredTypes) :
    matching.withState kind (matching.matchState kind refactoredTypes) = matching := by
  simp [withState, matchState]

end TwoWayMatching

/-! ## One greedy matcher -/

section Greedy

variable {W : Type} {similarity : EnumSimilarity W} {greedyClass : GreedyClass} {std : StdHash}
  {heap : Heap} {matching : TwoWayMatching} {baseNodes revisionNodes : List NodeRef}

/-- Matching the nodes at two positions keeps every node in one place. -/
theorem TwoWayMatching.Partition.matchPair {state : MatchState}
    (partition_ : (matching.withState (greedyClass.matcher similarity).kind state).Partition std
      heap baseNodes revisionNodes)
    {i j : Nat} {base revision : NodeRef} (baseHere : state.baseNodes[i]? = some base)
    (revisionHere : state.revisionNodes[j]? = some revision) :
    (matching.withState (greedyClass.matcher similarity).kind
      ((greedyClass.matcher similarity).matchPair std heap i j base revision state)).Partition std
        heap baseNodes revisionNodes := by
  set kind := (greedyClass.matcher similarity).kind
  obtain ⟨baseDistinct, revisionDistinct, baseFresh, revisionFresh⟩ :=
    partition_.unmatched kind ∅
  have deletedKind := partition_.deleted_kind kind
  have addedKind := partition_.added_kind kind
  simp only [TwoWayMatching.matchState, TwoWayMatching.withState, Function.update_self]
    at baseDistinct revisionDistinct baseFresh revisionFresh deletedKind addedKind
  obtain ⟨baseInside, rfl⟩ := List.getElem?_eq_some_iff.mp baseHere
  obtain ⟨revisionInside, rfl⟩ := List.getElem?_eq_some_iff.mp revisionHere
  rw [← matching.withState_withState kind state]
  refine partition_.withPairs [(state.baseNodes[i], state.revisionNodes[j])] ?_ ?_ ?_
  · exact HashBiMap.insert_fresh (baseFresh _ (List.getElem_mem _))
      (revisionFresh _ (List.getElem_mem _))
  · simp only [TwoWayMatching.withState, Function.update_self, GreedyMatcher.matchPair]
    rw [removeAlias_refs similarity greedyClass std heap baseDistinct deletedKind baseInside]
    exact (List.getElem_cons_eraseIdx_perm baseInside).symm
  · simp only [TwoWayMatching.withState, Function.update_self, GreedyMatcher.matchPair]
    rw [removeAlias_refs similarity greedyClass std heap revisionDistinct addedKind revisionInside]
    exact (List.getElem_cons_eraseIdx_perm revisionInside).symm

/-- So does the inner loop. -/
theorem TwoWayMatching.Partition.matchRow {state next : MatchState} {i turns j : Nat}
    (partition_ : (matching.withState (greedyClass.matcher similarity).kind state).Partition std
      heap baseNodes revisionNodes)
    (returned : (greedyClass.matcher similarity).matchRow std heap i turns j state = some next) :
    (matching.withState (greedyClass.matcher similarity).kind next).Partition std heap baseNodes
      revisionNodes := by
  induction turns generalizing j state with
  | zero =>
    obtain rfl : state = next := Option.some.inj returned
    exact partition_
  | succ turns inductionHypothesis =>
    rw [GreedyMatcher.matchRow] at returned
    obtain ⟨base, baseHere, returned⟩ := Option.bind_eq_some_iff.mp returned
    obtain ⟨revision, revisionHere, returned⟩ := Option.bind_eq_some_iff.mp returned
    split at returned
    · exact inductionHypothesis (partition_.matchPair baseHere revisionHere) returned
    · exact inductionHypothesis partition_ returned

/-- And the outer loop. -/
theorem TwoWayMatching.Partition.matchFrom {state next : MatchState} {turns i : Nat}
    (partition_ : (matching.withState (greedyClass.matcher similarity).kind state).Partition std
      heap baseNodes revisionNodes)
    (returned : (greedyClass.matcher similarity).matchFrom std heap turns i state = some next) :
    (matching.withState (greedyClass.matcher similarity).kind next).Partition std heap baseNodes
      revisionNodes := by
  induction turns generalizing i state with
  | zero =>
    obtain rfl : state = next := Option.some.inj returned
    exact partition_
  | succ turns inductionHypothesis =>
    rw [GreedyMatcher.matchFrom] at returned
    obtain ⟨middle, row, returned⟩ := Option.bind_eq_some_iff.mp returned
    exact inductionHypothesis (partition_.matchRow row) returned

/-- A greedy matcher returns if its vectors are safe, and keeps every node in one place. -/
theorem GreedyClass.run_spec
    (partition_ : matching.Partition std heap baseNodes revisionNodes) :
    let matcher := greedyClass.matcher similarity
    ((matcher.run std heap matching).isSome ↔ NestedScan.Safe (matchedRefs matcher heap)
        (matching.possiblyDeleted matcher.kind) (matching.possiblyAdded matcher.kind)) ∧
      ∀ next, matcher.run std heap matching = some next →
        next.Partition std heap baseNodes revisionNodes ∧
          ∃ state, next = matching.withState matcher.kind state := by
  intro matcher
  have unmatched := partition_.unmatched matcher.kind ∅
  have kept : Kept std heap matcher.kind (matching.matchState matcher.kind ∅)
      (matching.matchState matcher.kind ∅) :=
    ⟨unmatched, ⟨partition_.deleted_kind matcher.kind, partition_.added_kind matcher.kind⟩,
      fun _ member => .inl member, fun _ member => .inl member⟩
  have run : matcher.run std heap matching =
      (matcher.match_ std heap (matching.matchState matcher.kind ∅)).map
        (matching.withState matcher.kind) := by
    rw [GreedyMatcher.run]
    cases matcher.match_ std heap (matching.matchState matcher.kind ∅) <;> rfl
  rw [run]
  constructor
  · rw [Option.isSome_map, ← NestedScan.scan_isSome_iff, NestedScan.scan]
    have vectors := (kept.matchFrom (matching.possiblyDeleted matcher.kind).length 0).1
    exact iff_of_eq (congrArg (· = true) ((Option.isSome_map ..).symm.trans
      (congrArg Option.isSome vectors)))
  · intro next returned
    obtain ⟨final, called, rfl⟩ := Option.map_eq_some_iff.mp returned
    refine ⟨?_, final, rfl⟩
    rw [← matching.withState_matchState matcher.kind ∅] at partition_
    exact partition_.matchFrom called

end Greedy

/-! ## One weighted matcher -/

/-- A weighted matcher returns, and keeps every node in one place. -/
theorem MatcherClass.run_spec {W : Type} {similarity : Similarity W} {matcherClass : MatcherClass}
    {std : StdHash} {heap : Heap} {matching : TwoWayMatching}
    {baseNodes revisionNodes : List NodeRef} {weight : Nat → Nat → W} {mate : List (Option Nat)}
    {refactoredTypes : RefactoredTypes}
    (partition_ : matching.Partition std heap baseNodes revisionNodes)
    (oracle : ((matcherClass.matcher similarity).graph heap weight (matching.matchState
      (matcherClass.matcher similarity).kind refactoredTypes)).IsMatching mate) :
    let matcher := matcherClass.matcher similarity
    ∃ state recorded, matcher.run similarity std heap weight mate matching refactoredTypes =
        some (matching.withState matcher.kind state, recorded) ∧
      (matching.withState matcher.kind state).Partition std heap baseNodes revisionNodes := by
  intro matcher
  obtain ⟨final, returned, applied⟩ := WeightedMatcher.match_spec similarity
    (partition_.unmatched matcher.kind refactoredTypes) oracle
  refine ⟨final, final.refactoredTypes, by simp [WeightedMatcher.run, matcher, returned], ?_⟩
  exact partition_.withPairs _ applied.pairs applied.base_split applied.revision_split

/-! ## One matcher after the other -/

/-- What bottom-up matching calls: the arithmetic of similarities, and the algorithm for weighted
matchings, which returns a matching along the edges of the graph. -/
structure MatchServices (W : Type) where
  similarity : Similarity W
  enumSimilarity : EnumSimilarity W
  calcSimilarity : MatcherClass → Heap → NodeRef → NodeRef → W
  maximumWeightedMatching : MatchGraph W → List (Option Nat)
  isMatching : ∀ graph : MatchGraph W, graph.IsMatching (maximumWeightedMatching graph)

/-- A matcher, of either way. -/
inductive MatchStage
  | greedy (greedyClass : GreedyClass)
  | weighted (matcherClass : MatcherClass)
deriving DecidableEq, Repr

/-- The matchers in the order in which they are asked. -/
def MatchStage.all : List MatchStage :=
  [.greedy .translationUnit, .greedy .linkageSpecList, .weighted .namespace_,
    .weighted .typeSpecifier, .greedy .enum, .weighted .fieldDecl, .weighted .funcDef,
    .weighted .funcSpecialMember]

namespace MatchServices

variable {W : Type} (services : MatchServices W) (std : StdHash) (heap : Heap)

def kindOf : MatchStage → NodeKind
  | .greedy greedyClass => (greedyClass.matcher services.enumSimilarity).kind
  | .weighted matcherClass => (matcherClass.matcher services.similarity).kind

/-- The weight of an edge, by the positions of its vertices. -/
def weight (matcherClass : MatcherClass) (state : MatchState) (first second : Nat) : W :=
  services.calcSimilarity matcherClass heap (state.baseNodes.getD first 0)
    (state.revisionNodes.getD (second - state.baseNodes.length) 0)

/-- Run a matcher; `none` is a read past the end of a vector. -/
def runMatcher (state : TwoWayMatching × RefactoredTypes) :
    MatchStage → Option (TwoWayMatching × RefactoredTypes)
  | .greedy greedyClass => do
      let next ← (greedyClass.matcher services.enumSimilarity).run std heap state.1
      return (next, state.2)
  | .weighted matcherClass =>
      let matcher := matcherClass.matcher services.similarity
      let weight := services.weight heap matcherClass (state.1.matchState matcher.kind state.2)
      matcher.run services.similarity std heap weight (services.maximumWeightedMatching
        (matcher.graph heap weight (state.1.matchState matcher.kind state.2))) state.1 state.2

/-- A matcher runs if there are unmatched nodes of its kind on either side. -/
def runStage (state : TwoWayMatching × RefactoredTypes) (stage : MatchStage) :
    Option (TwoWayMatching × RefactoredTypes) :=
  if state.1.possiblyDeleted (services.kindOf stage) = [] ∨
      state.1.possiblyAdded (services.kindOf stage) = [] then some state
  else services.runMatcher std heap state stage

/-- What a matcher asks of the unmatched nodes of its kind. -/
def Inside (stage : MatchStage) (matching : TwoWayMatching) : Prop :=
  match stage with
  | .greedy greedyClass =>
      NestedScan.Safe (matchedRefs (greedyClass.matcher services.enumSimilarity) heap)
        (matching.possiblyDeleted (greedyClass.matcher services.enumSimilarity).kind)
        (matching.possiblyAdded (greedyClass.matcher services.enumSimilarity).kind)
  | .weighted _ => True

variable {services std heap}

/-- Nothing is asked where one side has no unmatched node. -/
theorem Inside.of_empty {stage : MatchStage} {matching : TwoWayMatching}
    (empty : matching.possiblyDeleted (services.kindOf stage) = [] ∨
      matching.possiblyAdded (services.kindOf stage) = []) : services.Inside heap stage matching := by
  cases stage with
  | weighted _ => exact trivial
  | greedy greedyClass =>
    refine .inl fun first firstMember second secondMember => ?_
    rcases empty with empty | empty <;> rw [kindOf] at empty
    · rw [empty] at firstMember
      exact absurd firstMember List.not_mem_nil
    · rw [empty] at secondMember
      exact absurd secondMember List.not_mem_nil

/-- Only the nodes of the matcher's kind count. -/
theorem inside_congr {stage : MatchStage} {matching matching' : TwoWayMatching}
    (deleted : matching'.possiblyDeleted (services.kindOf stage) =
      matching.possiblyDeleted (services.kindOf stage))
    (added : matching'.possiblyAdded (services.kindOf stage) =
      matching.possiblyAdded (services.kindOf stage)) :
    services.Inside heap stage matching' ↔ services.Inside heap stage matching := by
  cases stage with
  | weighted _ => exact Iff.rfl
  | greedy greedyClass =>
    rw [kindOf] at deleted added
    rw [Inside, Inside, deleted, added]

section Stages

variable {baseNodes revisionNodes : List NodeRef}

/-- One matcher: it returns if it stays inside its vectors, keeps every node in one place, and
leaves the nodes of other kinds alone. -/
theorem runStage_spec {state : TwoWayMatching × RefactoredTypes} (stage : MatchStage)
    (partition_ : state.1.Partition std heap baseNodes revisionNodes) :
    ((services.runStage std heap state stage).isSome ↔ services.Inside heap stage state.1) ∧
      ∀ next, services.runStage std heap state stage = some next →
        next.1.Partition std heap baseNodes revisionNodes ∧
          ∃ written, next.1 = state.1.withState (services.kindOf stage) written := by
  by_cases empty : state.1.possiblyDeleted (services.kindOf stage) = [] ∨
      state.1.possiblyAdded (services.kindOf stage) = []
  · rw [runStage, if_pos empty]
    refine ⟨by simp [Inside.of_empty empty], fun next returned => ?_⟩
    obtain rfl := Option.some.inj returned
    exact ⟨partition_, _, (state.1.withState_matchState _ ∅).symm⟩
  · rw [runStage, if_neg empty]
    cases stage with
    | greedy greedyClass =>
      obtain ⟨inside, kept⟩ := @GreedyClass.run_spec W services.enumSimilarity greedyClass std heap
        state.1 baseNodes revisionNodes partition_
      have shape : services.runMatcher std heap state (.greedy greedyClass) =
          ((greedyClass.matcher services.enumSimilarity).run std heap state.1).map
            fun next => (next, state.2) := by
        rw [runMatcher]
        cases (greedyClass.matcher services.enumSimilarity).run std heap state.1 <;> rfl
      rw [shape, Option.isSome_map]
      refine ⟨inside, fun next returned => ?_⟩
      obtain ⟨matching, called, rfl⟩ := Option.map_eq_some_iff.mp returned
      exact kept matching called
    | weighted matcherClass =>
      obtain ⟨written, recorded, called, kept⟩ := MatcherClass.run_spec partition_
        (services.isMatching ((matcherClass.matcher services.similarity).graph heap
          (services.weight heap matcherClass (state.1.matchState
            (matcherClass.matcher services.similarity).kind state.2)) (state.1.matchState
              (matcherClass.matcher services.similarity).kind state.2)))
      rw [runMatcher, called]
      refine ⟨by simp [Inside], fun next returned => ?_⟩
      obtain rfl := Option.some.inj returned
      exact ⟨kept, written, rfl⟩

/-- Matchers of different kinds, one after the other. -/
theorem runStages_spec {stages : List MatchStage} {state : TwoWayMatching × RefactoredTypes}
    (kinds : (stages.map services.kindOf).Nodup)
    (partition_ : state.1.Partition std heap baseNodes revisionNodes) :
    ((stages.foldlM (services.runStage std heap) state).isSome ↔
        ∀ stage ∈ stages, services.Inside heap stage state.1) ∧
      ∀ next, stages.foldlM (services.runStage std heap) state = some next →
        next.1.Partition std heap baseNodes revisionNodes := by
  induction stages generalizing state with
  | nil =>
    refine ⟨by simp, fun next returned => ?_⟩
    obtain rfl : state = next := Option.some.inj returned
    exact partition_
  | cons stage rest inductionHypothesis =>
    obtain ⟨fresh, kinds⟩ := List.nodup_cons.mp kinds
    obtain ⟨inside, kept⟩ := runStage_spec stage partition_
    rw [List.foldlM_cons, List.forall_mem_cons, ← inside]
    cases called : services.runStage std heap state stage with
    | none => simp
    | some middle =>
      obtain ⟨middlePartition, written, middleState⟩ := kept middle called
      obtain ⟨later, final⟩ := inductionHypothesis kinds middlePartition
      refine ⟨?_, final⟩
      -- The unmatched nodes of the matchers that follow are still the same.
      have same : ∀ other ∈ rest, services.Inside heap other middle.1 ↔
          services.Inside heap other state.1 := by
        intro other member
        have apart : services.kindOf other ≠ services.kindOf stage := fun equal =>
          fresh (equal ▸ List.mem_map_of_mem member)
        rw [middleState]
        exact inside_congr (Function.update_of_ne apart _ _) (Function.update_of_ne apart _ _)
      rw [Option.isSome_some, eq_self_iff_true, true_and]
      exact later.trans (forall₂_congr same)

end Stages

/-- The translation units, the linkage specifications and the enumerations that are unmatched are
safe to be matched greedily. -/
def GreedySafe {W : Type} (services : MatchServices W) (heap : Heap) (unmatched : TwoWayMatching) :
    Prop :=
  ∀ greedyClass : GreedyClass,
    NestedScan.Safe (matchedRefs (greedyClass.matcher services.enumSimilarity) heap)
      (unmatched.possiblyDeleted (greedyClass.matcher services.enumSimilarity).kind)
      (unmatched.possiblyAdded (greedyClass.matcher services.enumSimilarity).kind)

/-- Of all stages only the greedy ones can leave their vectors. -/
theorem forall_inside_iff {W : Type} {services : MatchServices W} {heap : Heap}
    {unmatched : TwoWayMatching} :
    (∀ stage ∈ MatchStage.all, services.Inside heap stage unmatched) ↔
      services.GreedySafe heap unmatched := by
  constructor
  · intro inside greedyClass
    exact inside (.greedy greedyClass) (by cases greedyClass <;> decide)
  · intro safe stage _
    cases stage with
    | greedy greedyClass => exact safe greedyClass
    | weighted _ => exact trivial

end MatchServices

namespace GraphMatcher

variable {W : Type} (services : MatchServices W) (std : StdHash) (heap : Heap)

def bottomUpMatch (matching : TwoWayMatching) : Option TwoWayMatching := do
  let final ← MatchStage.all.foldlM (services.runStage std heap) (matching, ∅)
  return final.1

/-- Match two graphs. -/
def match_ (walk : TableWalk) (addedOrder : KindOrder) (base revision : SemanticGraph) :
    Option TwoWayMatching :=
  bottomUpMatch services std heap (topDownMatch std heap walk addedOrder base revision)

/-- A signature tells the kind of a node: no two nodes to be matched, one of either graph, have
one hash and two kinds. -/
def SignaturesTellKinds (base revision : SemanticGraph) : Prop :=
  ∀ node ∈ base.vertices, ∀ other ∈ revision.vertices, needsMatch heap node →
    needsMatch heap other → heap.hash std node = heap.hash std other →
      (heap node).kind = (heap other).kind

variable {std heap}

/-- Pairs of equal signatures, as top-down matching makes them. -/
def SamePairs (std : StdHash) (heap : Heap) (matching : TwoWayMatching) : Prop :=
  ∀ entry ∈ matching.oneOneMatching, heap.hash std entry.left = heap.hash std entry.right

theorem samePairs_matchBaseNode {state : TwoWayMatching × NodeTable}
    {entry : (_ : UInt64) × NodeRef} (same : SamePairs std heap state.1)
    (keyed : heap.hash std entry.2 = entry.1)
    (unmatched : ∀ other ∈ state.2.entries, heap.hash std other.2 = other.1) :
    SamePairs std heap (matchBaseNode std heap state entry).1 ∧
      ∀ other ∈ (matchBaseNode std heap state entry).2.entries,
        heap.hash std other.2 = other.1 := by
  rw [matchBaseNode]
  cases found : state.2.lookup entry.1 with
  | none => exact ⟨same, unmatched⟩
  | some revision =>
    refine ⟨fun pair member => ?_, fun other member => ?_⟩
    · have revisionKeyed := unmatched _ (NodeTable.lookup_mem found)
      rcases HashBiMap.mem_insert member with old | rfl
      · exact same pair old
      · exact keyed.trans revisionKeyed.symm
    · exact unmatched other ((List.kerase_sublist _ _).subset member)

section TopDown

variable (walk : TableWalk) (addedOrder : KindOrder) (base revision : SemanticGraph)

/-- Top-down matching pairs equal signatures. -/
theorem topDownMatch_samePairs :
    SamePairs std heap (topDownMatch std heap walk addedOrder base revision) := by
  have baseTable := nodesByHash_represents std heap base.vertices
  have revisionTable := nodesByHash_represents std heap revision.vertices
  have bases : ∀ (entries : List ((_ : UInt64) × NodeRef)) (state : TwoWayMatching × NodeTable),
      (∀ entry ∈ entries, heap.hash std entry.2 = entry.1) → SamePairs std heap state.1 →
        (∀ other ∈ state.2.entries, heap.hash std other.2 = other.1) →
          SamePairs std heap (entries.foldl (matchBaseNode std heap) state).1 := by
    intro entries
    induction entries with
    | nil => exact fun state _ same _ => same
    | cons entry rest inductionHypothesis =>
      intro state keyed same unmatched
      obtain ⟨keyedEntry, keyed⟩ := List.forall_mem_cons.mp keyed
      obtain ⟨same, unmatched⟩ := samePairs_matchBaseNode same keyedEntry unmatched
      exact inductionHypothesis _ keyed same unmatched
  have revisions : ∀ (entries : List ((_ : UInt64) × NodeRef)) (matching : TwoWayMatching),
      SamePairs std heap matching → SamePairs std heap (entries.foldl
        (fun matching entry => matching.addUnmatchedNode heap entry.2 false) matching) := by
    intro entries
    induction entries with
    | nil => exact fun matching same => same
    | cons entry rest inductionHypothesis =>
      exact fun matching same => inductionHypothesis _ same
  refine revisions _ _ (bases _ _ (fun entry member => ?_) (fun entry member => ?_)
    fun other member => (revisionTable.sound other member).2.2)
  · exact (baseTable.sound entry ((walk.perm _).subset member)).2.2
  · exact absurd member List.not_mem_nil

/-- Every node of the two tables is in one place after top-down matching. -/
theorem topDownMatch_partition (told : SignaturesTellKinds std heap base revision) :
    (topDownMatch std heap walk addedOrder base revision).Partition std heap
      (nodesByHash std heap base.vertices).nodes
      (nodesByHash std heap revision.vertices).nodes := by
  have baseTable := nodesByHash_represents std heap base.vertices
  have revisionTable := nodesByHash_represents std heap revision.vertices
  obtain ⟨basePlaces, revisionPlaces⟩ :=
    topDownMatch_places std heap walk addedOrder base revision
  obtain ⟨filed, deletedKind, addedKind⟩ :=
    topDownMatch_wellFiled std heap walk addedOrder base revision
  refine ⟨basePlaces, revisionPlaces, baseTable.distinct, revisionTable.distinct, filed, ?_,
    deletedKind, addedKind⟩
  intro entry member
  have left := basePlaces.subset (List.mem_append_left _ (List.mem_map_of_mem member))
  have right := revisionPlaces.subset (List.mem_append_left _ (List.mem_map_of_mem member))
  obtain ⟨leftEntry, leftMember, leftSame⟩ := List.mem_map.mp left
  obtain ⟨rightEntry, rightMember, rightSame⟩ := List.mem_map.mp right
  obtain ⟨isBase, baseNeeded, -⟩ := baseTable.sound leftEntry leftMember
  obtain ⟨isRevision, revisionNeeded, -⟩ := revisionTable.sound rightEntry rightMember
  rw [leftSame] at isBase baseNeeded
  rw [rightSame] at isRevision revisionNeeded
  exact told entry.left isBase entry.right isRevision baseNeeded revisionNeeded
    (topDownMatch_samePairs walk addedOrder base revision entry member)

/-- The whole run returns if the greedy matchers stay inside their vectors, and has every node of
the two tables in one place. -/
theorem match_run {W : Type} (services : MatchServices W)
    (told : SignaturesTellKinds std heap base revision) :
    ((match_ services std heap walk addedOrder base revision).isSome ↔
        ∀ stage ∈ MatchStage.all, services.Inside heap stage
          (topDownMatch std heap walk addedOrder base revision)) ∧
      ∀ matching, match_ services std heap walk addedOrder base revision = some matching →
        matching.Partition std heap (nodesByHash std heap base.vertices).nodes
          (nodesByHash std heap revision.vertices).nodes := by
  have partition_ := topDownMatch_partition walk addedOrder base revision told
  have kinds : (MatchStage.all.map services.kindOf).Nodup := by
    have listed : MatchStage.all.map services.kindOf = [.translationUnit, .linkageSpecList,
      .namespace_, .type, .enum, .fieldDeclaration, .funcDef, .funcSpecialMember] := rfl
    rw [listed]
    decide
  obtain ⟨returns, kept⟩ := @MatchServices.runStages_spec W services std heap _ _ MatchStage.all
    (topDownMatch std heap walk addedOrder base revision, ∅) kinds partition_
  have called : match_ services std heap walk addedOrder base revision =
      (MatchStage.all.foldlM (services.runStage std heap)
        (topDownMatch std heap walk addedOrder base revision, ∅)).map Prod.fst := by
    rw [match_, bottomUpMatch]
    cases MatchStage.all.foldlM (services.runStage std heap)
      (topDownMatch std heap walk addedOrder base revision, ∅) <;> rfl
  rw [called]
  refine ⟨by rw [Option.isSome_map, returns], fun matching returned => ?_⟩
  obtain ⟨final, found, rfl⟩ := Option.map_eq_some_iff.mp returned
  exact kept final found

/-- The whole run reads nothing behind the end of a vector, and has every node of the two tables
in one place, if and only if the translation units, the linkage specifications and the
enumerations that top-down matching leaves are safe to be matched greedily. -/
theorem match_partition_iff {W : Type} (services : MatchServices W)
    (told : SignaturesTellKinds std heap base revision) :
    let unmatched := topDownMatch std heap walk addedOrder base revision
    (∃ matching, match_ services std heap walk addedOrder base revision = some matching ∧
        matching.Partition std heap (nodesByHash std heap base.vertices).nodes
          (nodesByHash std heap revision.vertices).nodes) ↔
      ∀ greedyClass : GreedyClass,
        NestedScan.Safe (matchedRefs (greedyClass.matcher services.enumSimilarity) heap)
          (unmatched.possiblyDeleted (greedyClass.matcher services.enumSimilarity).kind)
          (unmatched.possiblyAdded (greedyClass.matcher services.enumSimilarity).kind) := by
  intro unmatched
  obtain ⟨returns, kept⟩ := match_run walk addedOrder base revision services told
  refine Iff.trans ?_ MatchServices.forall_inside_iff
  rw [← returns, Option.isSome_iff_exists]
  exact exists_congr fun matching => ⟨And.left, fun found => ⟨found, kept matching found⟩⟩

/-- A graph without equal signatures has all nodes that need a match in its table. -/
theorem nodesByHash_perm {graph : SemanticGraph} (distinct : DistinctSignatures std heap graph) :
    (nodesByHash std heap graph.vertices).nodes.Perm
      (graph.vertices.filter fun ref => needsMatch heap ref) := by
  have table := nodesByHash_represents std heap graph.vertices
  refine (List.perm_ext_iff_of_nodup (.of_map _ table.distinct)
    (graph.nodup.filter _)).mpr fun ref => ?_
  rw [List.mem_filter]
  constructor
  · intro listed
    obtain ⟨entry, member, rfl⟩ := List.mem_map.mp listed
    exact ⟨(table.sound entry member).1, (table.sound entry member).2.1⟩
  · rintro ⟨isVertex, needed⟩
    obtain ⟨winner, listed, winnerVertex, winnerNeeded, same⟩ := table.winner isVertex needed
    rwa [← distinct winner winnerVertex ref isVertex winnerNeeded needed same]

end TopDown

/-- A file with a function, a line and an enumeration, and a file with a linkage specification.
The revision renames the function, the enumeration and the second file. -/
def renamedFiles : Heap
  | 0 => { kind := .translationUnit, qualifiedName := "a.h", children := [1, 2, 3] }
  | 1 => { kind := .funcDef, usr := "c:@F@get", parent := some 0 }
  | 2 => { kind := .textual, body := "using std::swap;", parent := some 0 }
  | 3 => { kind := .enum, usr := "c:@E@Color", qualifiedName := "Color", body := "red, green",
           parent := some 0 }
  | 4 => { kind := .translationUnit, qualifiedName := "old.h", children := [5] }
  | 5 => { kind := .linkageSpecList, parentSignatureHash := 1, parent := some 4 }
  | 6 => { kind := .translationUnit, qualifiedName := "a.h", children := [7, 8, 9] }
  | 7 => { kind := .funcDef, usr := "c:@F@read", parent := some 6 }
  | 8 => { kind := .textual, body := "using std::swap;", parent := some 6 }
  | 9 => { kind := .enum, usr := "c:@E@Colour", qualifiedName := "Colour", body := "red, green",
           parent := some 6 }
  | 10 => { kind := .translationUnit, qualifiedName := "new.h", children := [11] }
  | 11 => { kind := .linkageSpecList, parentSignatureHash := 2, parent := some 10 }
  | _ => {}

/-- No two strings are similar, and no graph has an edge worth matching. -/
def noServices : MatchServices Nat where
  similarity := { stringCosine := fun _ _ => 0, belowMinSimi := fun weight => weight < 62 }
  enumSimilarity := noSimilarity
  calcSimilarity _ _ _ _ := 0
  maximumWeightedMatching graph :=
    List.replicate (graph.baseNodes.length + graph.revisionNodes.length) none
  isMatching graph := by
    have unmated : ∀ first second : Nat, (List.replicate (graph.baseNodes.length +
        graph.revisionNodes.length) (none : Option Nat))[first]? ≠ some (some second) := by
      intro first second mated
      exact Option.some_ne_none second
        (List.eq_of_mem_replicate (List.mem_of_getElem? mated))
    exact ⟨List.length_replicate, fun first second mated => absurd mated (unmated first second),
      fun first second mated => absurd mated (unmated first second)⟩

/-- Equal strings are fully similar, in percent, and others are not. -/
def equalServices : MatchServices Nat :=
  { noServices with
    enumSimilarity :=
      { stringLevenshtein := fun first second => if first = second then 100 else 0
        stringCosine := fun first second => if first = second then 100 else 0
        nonNegative := id
        weigh := fun name base body => (name * 20 + base * 20 + body * 60) / 100
        atLeastMinSimi := fun weight => 62 ≤ weight } }

/-- Of what is left for the greedy stages, nothing but the enumerations match, and all nodes come
to their places. -/
theorem renamedFiles_partition :
    let base : SemanticGraph := ⟨[0, 1, 2, 3, 4, 5], by decide⟩
    let revision : SemanticGraph := ⟨[6, 7, 8, 9, 10, 11], by decide⟩
    let unmatched := topDownMatch .polynomial renamedFiles ⟨id, .refl⟩ default base revision
    (unmatched.possiblyDeleted .translationUnit = [4] ∧
        unmatched.possiblyDeleted .linkageSpecList = [5] ∧
        unmatched.possiblyDeleted .enum = [3]) ∧
      ∃ matching, match_ equalServices .polynomial renamedFiles ⟨id, .refl⟩ default base revision =
          some matching ∧
        matching.Partition .polynomial renamedFiles
          (nodesByHash .polynomial renamedFiles base.vertices).nodes
          (nodesByHash .polynomial renamedFiles revision.vertices).nodes := by
  intro base revision unmatched
  refine ⟨by decide, (match_partition_iff ⟨id, .refl⟩ default base revision equalServices
    (by unfold SignaturesTellKinds; decide)).mpr fun greedyClass => ?_⟩
  cases greedyClass with
  | translationUnit => exact .inl (by unfold NestedScan.Unrelated; decide)
  | linkageSpecList => exact .inl (by unfold NestedScan.Unrelated; decide)
  | enum =>
    exact .inr (.inl ⟨[], 3, [], 9, by decide, by decide,
      by unfold NestedScan.Unrelated; decide, by decide, by decide⟩)

end GraphMatcher

end MergeBot
