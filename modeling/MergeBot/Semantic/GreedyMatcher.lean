import MergeBot.Foundation.NestedScan
import MergeBot.Semantic.GraphMatcher
import MergeBot.Semantic.WeightedMatcher

/-!
# Greedy bottom-up matching

Translation units, linkage specification lists and enumerations are matched by
two nested loops over the unmatched vectors. Each match erases from the vectors
that the loops are walking over, through references into them. The matchers
differ in their predicate and in what the erased nodes have in common, so each
is a `GreedyMatcher`. `match_safe_iff` says exactly when the loops read nothing
behind the end of a vector; then every node is still unmatched or matched.
-/

namespace MergeBot

open Foundation

/-- Arithmetic of the similarity of enumerations. -/
structure EnumSimilarity (W : Type) where
  stringLevenshtein : String → String → W
  stringCosine : String → String → W
  /-- Negative similarities count as zero. -/
  nonNegative : W → W
  /-- `NameSim * 0.2 + BaseSim * 0.2 + BodySim * 0.6`. -/
  weigh : W → W → W → W
  /-- `>= MIN_SIMI`. -/
  atLeastMinSimi : W → Bool

/-- What one matcher class adds to the common loops. -/
structure GreedyMatcher where
  kind : NodeKind
  matched : SemanticNode → SemanticNode → Bool
  /-- The comparison by which matched nodes are erased. -/
  sameNode : StdHash → SemanticNode → SemanticNode → Bool

/-- Translation units match by name, and are erased by name. -/
def TranslationUnitMatcher : GreedyMatcher where
  kind := .translationUnit
  matched base revision := base.qualifiedName = revision.qualifiedName
  sameNode _ node other := node.qualifiedName = other.qualifiedName

/-- Linkage specification lists match within one parent. -/
def LinkageSpecListMatcher : GreedyMatcher where
  kind := .linkageSpecList
  matched base revision := base.kind = .linkageSpecList ∧ revision.kind = .linkageSpecList ∧
    base.parentSignatureHash = revision.parentSignatureHash
  sameNode std node other := node.hashSignature std = other.hashSignature std

/-- Enumerations match when their names, base types and bodies are similar. -/
def EnumMatcher {W : Type} (similarity : EnumSimilarity W) : GreedyMatcher where
  kind := .enum
  matched base revision := base.kind = .enum ∧ revision.kind = .enum ∧
    similarity.atLeastMinSimi (similarity.weigh
      (similarity.nonNegative
        (similarity.stringLevenshtein base.qualifiedName revision.qualifiedName))
      (similarity.nonNegative (similarity.stringCosine base.enumBase revision.enumBase))
      (similarity.nonNegative (similarity.stringCosine base.body revision.body)))
  sameNode std node other := node.hashSignature std = other.hashSignature std

/-- The matcher classes that share the loops. -/
inductive GreedyClass
  | translationUnit
  | linkageSpecList
  | enum
deriving DecidableEq, Repr

/-- The matcher of a class. -/
def GreedyClass.matcher {W : Type} (similarity : EnumSimilarity W) : GreedyClass → GreedyMatcher
  | translationUnit => TranslationUnitMatcher
  | linkageSpecList => LinkageSpecListMatcher
  | enum => EnumMatcher similarity

namespace GreedyMatcher

variable (matcher : GreedyMatcher) (std : StdHash) (heap : Heap)

/-- The comparison of node objects when nodes are erased. -/
def sameRef (node other : NodeRef) : Bool :=
  matcher.sameNode std (heap node) (heap other)

/-- Match the nodes at two positions and erase them through references to these
positions. -/
def matchPair (i j : Nat) (base revision : NodeRef) (state : MatchState) : MatchState :=
  { state with
    oneOneMatching :=
      state.oneOneMatching.insert (heap.hash std) (heap.hash std) base revision
    baseNodes := NestedScan.removeAlias (matcher.sameRef std heap) state.baseNodes i
    revisionNodes := NestedScan.removeAlias (matcher.sameRef std heap) state.revisionNodes j }

/-- The loop over the revision nodes, with the turns that are left when it was
entered at its present size; `none` is a read past the end of a vector. -/
def matchRow (i : Nat) : Nat → Nat → MatchState → Option MatchState
  | 0, _, state => some state
  | turns + 1, j, state => do
      let base ← state.baseNodes[i]?
      let revision ← state.revisionNodes[j]?
      if matcher.matched (heap base) (heap revision) then
        matchRow i turns (j + 1) (matcher.matchPair std heap i j base revision state)
      else matchRow i turns (j + 1) state

/-- The loop over the base nodes. -/
def matchFrom : Nat → Nat → MatchState → Option MatchState
  | 0, _, state => some state
  | turns + 1, i, state => do
      let next ← matcher.matchRow std heap i state.revisionNodes.length 0 state
      matchFrom turns (i + 1) next

/-- Match the unmatched nodes greedily. -/
def match_ (state : MatchState) : Option MatchState :=
  matcher.matchFrom std heap state.baseNodes.length 0 state

/-- Apply a matcher to the unmatched nodes of its own kind. -/
def run (matching : TwoWayMatching) : Option TwoWayMatching := do
  let final ← matcher.match_ std heap (matching.matchState matcher.kind ∅)
  return matching.withState matcher.kind final

end GreedyMatcher

/-- Every node is still unmatched or matched. -/
def MatchState.Keeps (start state : MatchState) : Prop :=
  (∀ ref ∈ start.baseNodes, ref ∈ state.baseNodes ∨
      ∃ entry ∈ state.oneOneMatching, entry.left = ref) ∧
    ∀ ref ∈ start.revisionNodes, ref ∈ state.revisionNodes ∨
      ∃ entry ∈ state.oneOneMatching, entry.right = ref

/-- The two vectors of a state. -/
def MatchState.vectors (state : MatchState) : List NodeRef × List NodeRef :=
  (state.baseNodes, state.revisionNodes)

section Loops

variable {W : Type} (similarity : EnumSimilarity W) (greedyClass : GreedyClass) (std : StdHash)
  (heap : Heap)

/-- Both vectors hold nodes of the matcher's kind. -/
def OfKind (kind : NodeKind) (state : MatchState) : Prop :=
  (∀ ref ∈ state.baseNodes, (heap ref).kind = kind) ∧
    ∀ ref ∈ state.revisionNodes, (heap ref).kind = kind

/-- Nodes that are erased together have one hash. -/
theorem hash_of_sameNode {node other : SemanticNode}
    (nodeKind : node.kind = (greedyClass.matcher similarity).kind)
    (otherKind : other.kind = (greedyClass.matcher similarity).kind)
    (same : (greedyClass.matcher similarity).sameNode std node other) :
    node.hashSignature std = other.hashSignature std := by
  cases greedyClass with
  | translationUnit =>
      have names : node.qualifiedName = other.qualifiedName := by
        simpa [GreedyClass.matcher, TranslationUnitMatcher] using same
      have nodeUnit : node.kind = .translationUnit := nodeKind
      have otherUnit : other.kind = .translationUnit := otherKind
      simp [SemanticNode.hashSignature, SemanticNode.signature, nodeUnit, otherUnit, names]
  | linkageSpecList => simpa [GreedyClass.matcher, LinkageSpecListMatcher] using same
  | enum => simpa [GreedyClass.matcher, EnumMatcher] using same

/-- A node is erased with itself. -/
theorem sameNode_self (node : SemanticNode) :
    (greedyClass.matcher similarity).sameNode std node node := by
  cases greedyClass <;> simp [GreedyClass.matcher, TranslationUnitMatcher,
    LinkageSpecListMatcher, EnumMatcher]

/-- Nodes that are told apart by their hashes are erased one by one. -/
theorem removeAlias_refs {refs : List NodeRef} (distinct : (refs.map (heap.hash std)).Nodup)
    (kinds : ∀ ref ∈ refs, (heap ref).kind = (greedyClass.matcher similarity).kind) {index : Nat}
    (inside : index < refs.length) :
    NestedScan.removeAlias ((greedyClass.matcher similarity).sameRef std heap) refs index =
      refs.eraseIdx index := by
  refine NestedScan.removeAlias_eq_eraseIdx (List.Nodup.of_map _ distinct)
    (fun first firstMember second secondMember => ⟨fun same => ?_, ?_⟩) inside
  · exact List.inj_on_of_nodup_map distinct firstMember secondMember
      (hash_of_sameNode similarity greedyClass std (kinds first firstMember)
        (kinds second secondMember) same)
  · rintro rfl
    exact sameNode_self similarity greedyClass std (heap first)

/-- What holds while the loops run: the nodes in the vectors are still unmatched
and of the matcher's kind, and no node has been lost. -/
structure Kept (kind : NodeKind) (start state : MatchState) : Prop where
  unmatched : Unmatched std heap state
  kinds : OfKind heap kind state
  keeps : start.Keeps state

variable {similarity greedyClass std heap}

/-- Erasing one of the distinct hashes leaves the others. -/
theorem hash_notMem_eraseIdx {refs : List NodeRef} {index : Nat} {ref : NodeRef}
    (distinct : (refs.map (heap.hash std)).Nodup) (here : refs[index]? = some ref) :
    heap.hash std ref ∉ (refs.eraseIdx index).map (heap.hash std) ∧
      ((refs.eraseIdx index).map (heap.hash std)).Nodup := by
  obtain ⟨inside, rfl⟩ := List.getElem?_eq_some_iff.mp here
  have perm := (List.getElem_cons_eraseIdx_perm inside).map (heap.hash std)
  have nodup := perm.nodup_iff.mpr distinct
  rw [List.map_cons, List.nodup_cons] at nodup
  exact nodup

/-- A member is the erased one or stays. -/
theorem mem_eraseIdx_or {refs : List NodeRef} {index : Nat} {ref other : NodeRef}
    (here : refs[index]? = some ref) (member : other ∈ refs) :
    other = ref ∨ other ∈ refs.eraseIdx index := by
  obtain ⟨inside, rfl⟩ := List.getElem?_eq_some_iff.mp here
  exact List.mem_cons.mp ((List.getElem_cons_eraseIdx_perm inside).symm.subset member)

/-- Matching a pair erases exactly its two nodes, and loses none. -/
theorem Kept.matchPair {start state : MatchState}
    (kept : Kept std heap (greedyClass.matcher similarity).kind start state) {i j : Nat}
    {base revision : NodeRef} (baseHere : state.baseNodes[i]? = some base)
    (revisionHere : state.revisionNodes[j]? = some revision) :
    let next := (greedyClass.matcher similarity).matchPair std heap i j base revision state
    next.vectors = (state.baseNodes.eraseIdx i, state.revisionNodes.eraseIdx j) ∧
      Kept std heap (greedyClass.matcher similarity).kind start next := by
  intro next
  obtain ⟨⟨baseDistinct, revisionDistinct, baseFresh, revisionFresh⟩, ⟨baseKinds, revisionKinds⟩,
    baseKept, revisionKept⟩ := kept
  obtain ⟨baseInside, -⟩ := List.getElem?_eq_some_iff.mp baseHere
  obtain ⟨revisionInside, -⟩ := List.getElem?_eq_some_iff.mp revisionHere
  have baseNodes : next.baseNodes = state.baseNodes.eraseIdx i :=
    removeAlias_refs similarity greedyClass std heap baseDistinct baseKinds baseInside
  have revisionNodes : next.revisionNodes = state.revisionNodes.eraseIdx j :=
    removeAlias_refs similarity greedyClass std heap revisionDistinct revisionKinds revisionInside
  have table : next.oneOneMatching = state.oneOneMatching ++
      [⟨base, revision, heap.hash std base, heap.hash std revision⟩] :=
    HashBiMap.insert_fresh (baseFresh base (List.mem_of_getElem? baseHere))
      (revisionFresh revision (List.mem_of_getElem? revisionHere))
  obtain ⟨baseGone, baseDistinct'⟩ := hash_notMem_eraseIdx baseDistinct baseHere
  obtain ⟨revisionGone, revisionDistinct'⟩ := hash_notMem_eraseIdx revisionDistinct revisionHere
  refine ⟨by rw [MatchState.vectors, baseNodes, revisionNodes], ⟨?_, ?_, ?_, ?_⟩, ⟨?_, ?_⟩, ?_, ?_⟩
  · rwa [baseNodes]
  · rwa [revisionNodes]
  · intro ref member
    rw [baseNodes] at member
    have other : heap.hash std base ≠ heap.hash std ref := fun same =>
      baseGone (same ▸ List.mem_map_of_mem member)
    rw [table, HashBiMap.leftFind, List.find?_append,
      show List.find? _ state.oneOneMatching = none from
        baseFresh ref (List.mem_of_mem_eraseIdx member)]
    simp [other]
  · intro ref member
    rw [revisionNodes] at member
    have other : heap.hash std revision ≠ heap.hash std ref := fun same =>
      revisionGone (same ▸ List.mem_map_of_mem member)
    rw [table, HashBiMap.rightFind, List.find?_append,
      show List.find? _ state.oneOneMatching = none from
        revisionFresh ref (List.mem_of_mem_eraseIdx member)]
    simp [other]
  · intro ref member
    exact baseKinds ref (List.mem_of_mem_eraseIdx (baseNodes ▸ member))
  · intro ref member
    exact revisionKinds ref (List.mem_of_mem_eraseIdx (revisionNodes ▸ member))
  · intro ref member
    rw [baseNodes, table]
    rcases baseKept ref member with stays | ⟨entry, entryMember, same⟩
    · rcases mem_eraseIdx_or baseHere stays with rfl | stays
      · exact .inr ⟨_, List.mem_append_right _ List.mem_cons_self, rfl⟩
      · exact .inl stays
    · exact .inr ⟨entry, List.mem_append_left _ entryMember, same⟩
  · intro ref member
    rw [revisionNodes, table]
    rcases revisionKept ref member with stays | ⟨entry, entryMember, same⟩
    · rcases mem_eraseIdx_or revisionHere stays with rfl | stays
      · exact .inr ⟨_, List.mem_append_right _ List.mem_cons_self, rfl⟩
      · exact .inl stays
    · exact .inr ⟨entry, List.mem_append_left _ entryMember, same⟩

/-- The predicate on node objects. -/
def matchedRefs (matcher : GreedyMatcher) (heap : Heap) (base revision : NodeRef) : Bool :=
  matcher.matched (heap base) (heap revision)

/-- The inner loop scans a row of the two vectors, and loses no node. -/
theorem Kept.matchRow {start state : MatchState}
    (kept : Kept std heap (greedyClass.matcher similarity).kind start state) (i turns j : Nat) :
    ((greedyClass.matcher similarity).matchRow std heap i turns j state).map MatchState.vectors =
        NestedScan.scanRow (matchedRefs (greedyClass.matcher similarity) heap) i turns j
          state.baseNodes state.revisionNodes ∧
      ∀ next, (greedyClass.matcher similarity).matchRow std heap i turns j state = some next →
        Kept std heap (greedyClass.matcher similarity).kind start next := by
  induction turns generalizing j state with
  | zero =>
      refine ⟨rfl, fun next returned => ?_⟩
      obtain rfl : state = next := Option.some.inj returned
      exact kept
  | succ turns ih =>
      rw [GreedyMatcher.matchRow, NestedScan.scanRow]
      cases baseHere : state.baseNodes[i]? with
      | none => simp
      | some base =>
          cases revisionHere : state.revisionNodes[j]? with
          | none => simp
          | some revision =>
              simp only [Option.bind_eq_bind, Option.bind_some, matchedRefs]
              by_cases hit : (greedyClass.matcher similarity).matched (heap base) (heap revision)
              · obtain ⟨vectors, nextKept⟩ := kept.matchPair baseHere revisionHere
                obtain ⟨bases, revisions⟩ := Prod.mk.inj vectors
                have later := ih nextKept (j + 1)
                rw [bases, revisions] at later
                simpa only [hit, if_true] using later
              · simpa [hit] using ih kept (j + 1)

/-- The outer loop scans the two vectors, and loses no node. -/
theorem Kept.matchFrom {start state : MatchState}
    (kept : Kept std heap (greedyClass.matcher similarity).kind start state) (turns i : Nat) :
    ((greedyClass.matcher similarity).matchFrom std heap turns i state).map MatchState.vectors =
        NestedScan.scanFrom (matchedRefs (greedyClass.matcher similarity) heap) turns i
          state.baseNodes state.revisionNodes ∧
      ∀ next, (greedyClass.matcher similarity).matchFrom std heap turns i state = some next →
        Kept std heap (greedyClass.matcher similarity).kind start next := by
  induction turns generalizing i state with
  | zero =>
      refine ⟨rfl, fun next returned => ?_⟩
      obtain rfl : state = next := Option.some.inj returned
      exact kept
  | succ turns ih =>
      obtain ⟨row, rowKept⟩ := kept.matchRow i state.revisionNodes.length 0
      rw [GreedyMatcher.matchFrom, NestedScan.scanFrom, ← row]
      cases returned : (greedyClass.matcher similarity).matchRow std heap i
          state.revisionNodes.length 0 state with
      | none => simp
      | some next => exact ih (rowKept next returned) (i + 1)

/-- The loops stay inside the vectors and lose no node, if and only if the two
vectors are safe: nothing matches, or only the last nodes of both do, or the base
nodes drain the revision nodes. -/
theorem match_safe_iff {start : MatchState} (unmatched : Unmatched std heap start)
    (kinds : OfKind heap (greedyClass.matcher similarity).kind start) :
    (∃ final, (greedyClass.matcher similarity).match_ std heap start = some final ∧
        start.Keeps final) ↔
      NestedScan.Safe (matchedRefs (greedyClass.matcher similarity) heap) start.baseNodes
        start.revisionNodes := by
  have kept : Kept std heap (greedyClass.matcher similarity).kind start start :=
    ⟨unmatched, kinds, fun _ member => .inl member, fun _ member => .inl member⟩
  obtain ⟨vectors, returned⟩ := kept.matchFrom start.baseNodes.length 0
  rw [← NestedScan.scan_isSome_iff, NestedScan.scan, ← vectors, Option.isSome_map,
    Option.isSome_iff_exists]
  constructor
  · rintro ⟨final, found, -⟩
    exact ⟨final, found⟩
  · rintro ⟨final, found⟩
    exact ⟨final, found, (returned final found).keeps⟩

end Loops

/-- What a matcher receives after top-down matching: the vectors hold unmatched
nodes of their kind. -/
theorem topDownMatch_unmatched (std : StdHash) (heap : Heap) (walk : TableWalk)
    (addedOrder : KindOrder) (base revision : SemanticGraph) (kind : NodeKind) :
    let state := (GraphMatcher.topDownMatch std heap walk addedOrder base revision).matchState kind ∅
    Unmatched std heap state ∧ OfKind heap kind state := by
  intro state
  obtain ⟨basePlaces, revisionPlaces⟩ :=
    GraphMatcher.topDownMatch_places std heap walk addedOrder base revision
  obtain ⟨filed, deletedKind, addedKind⟩ :=
    GraphMatcher.topDownMatch_wellFiled std heap walk addedOrder base revision
  have baseTable := GraphMatcher.nodesByHash_represents std heap base.vertices
  have revisionTable := GraphMatcher.nodesByHash_represents std heap revision.vertices
  refine ⟨TwoWayMatching.unmatched_of_places filed ?_ ?_ kind ∅, deletedKind kind, addedKind kind⟩
  · exact (basePlaces.map _).nodup_iff.mpr baseTable.distinct
  · exact (revisionPlaces.map _).nodup_iff.mpr revisionTable.distinct

/-! ## Two linkage specifications on either side -/

/-- Linkage specification lists of one file: 0 and 1 in the base, 2 and 3 in the
revision, with other contents. -/
def linkageLists : Heap := fun ref =>
  { kind := .linkageSpecList, qualifiedName := String.ofList (List.replicate ref 'a') }

/-- All of them are unmatched. -/
def linkageState : MatchState where
  oneOneMatching := []
  baseNodes := [0, 1]
  revisionNodes := [2, 3]
  refactoredTypes := ∅

/-- Integer arithmetic in place of the similarities. -/
def noSimilarity : EnumSimilarity Nat where
  stringLevenshtein _ _ := 0
  stringCosine _ _ := 0
  nonNegative weight := weight
  weigh _ _ _ := 0
  atLeastMinSimi weight := 62 ≤ weight

theorem linkageState_unmatched : Unmatched .polynomial linkageLists linkageState where
  base_distinct := by decide
  revision_distinct := by decide
  base_fresh _ _ := rfl
  revision_fresh _ _ := rfl

/-- After the first match the inner loop reads behind the revision vector. -/
theorem linkageLists_outside :
    Unmatched .polynomial linkageLists linkageState ∧
      ¬ ∃ final, LinkageSpecListMatcher.match_ .polynomial linkageLists linkageState =
        some final ∧ linkageState.Keeps final := by
  refine ⟨linkageState_unmatched, ?_⟩
  rintro ⟨final, returned, -⟩
  have outside : (LinkageSpecListMatcher.match_ .polynomial linkageLists linkageState).isNone := by
    decide
  simp [returned] at outside

/-- The same lists in four files, of which the last one of either side are the same. -/
def ownFiles : Heap := fun ref =>
  { linkageLists ref with parentSignatureHash := if ref = 3 then 1 else ref.toUInt64 }

/-- The last lists of both sides are matched, and no node is lost. -/
theorem ownFiles_safe_iff :
    ∃ final, ((GreedyClass.linkageSpecList).matcher noSimilarity).match_ .polynomial ownFiles
        linkageState = some final ∧ linkageState.Keeps final :=
  (match_safe_iff ⟨by decide, by decide, fun _ _ => rfl, fun _ _ => rfl⟩
    ⟨fun _ _ => rfl, fun _ _ => rfl⟩).mpr
      (.inr (.inl ⟨[0], 1, [2], 3, rfl, rfl, by unfold NestedScan.Unrelated; decide, by decide,
        by decide⟩))

end MergeBot
