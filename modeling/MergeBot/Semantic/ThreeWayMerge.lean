import MergeBot.Semantic.BottomUpMatch
import MergeBot.Semantic.BuiltMerge

/-!
# From syntax trees to merged files

`threeWayMatch` matches the base graph with either revision and lists the files to merge,
`threeWayMerge` merges them. When the graphs were built from syntax trees, signatures tell the
nodes apart and the greedy matchers stay inside their vectors, the run returns and merges every
file as if it was the only one (`merges`): what the steps of the pipeline ask of each other, they
are given.
-/

namespace MergeBot

open Foundation

/-- The orders in which the hash tables of the matching are walked. -/
structure MatchOrders where
  ours : TableWalk
  theirs : TableWalk
  oursAdded : KindOrder
  theirsAdded : KindOrder
  nodes : List NodeRef → List NodeRef
  nodes_perm : ∀ refs, (nodes refs).Perm refs

namespace GraphMerger

variable {W : Type} (services : MatchServices W) (orders : MatchOrders) (M : GraphMerger)
  (heap : Heap) (base our their : SemanticGraph)

/-- Match the base with either revision, and list the files to merge. -/
def threeWayMatch : Option (GraphMerger × List NodeRef) := do
  let ourMatching ← GraphMatcher.match_ services M.std heap orders.ours orders.oursAdded base our
  let theirMatching ←
    GraphMatcher.match_ services M.std heap orders.theirs orders.theirsAdded base their
  let needToMergeNodes := orders.nodes (base.vertices.filter fun ref =>
    (heap ref).needToMerge || !(heap ref).isSynthetic)
  return ({ M with ourMatching, theirMatching }, needToMergeNodes.filter fun ref =>
    (heap ref).kind = .translationUnit && (heap ref).needToMerge)

end GraphMerger

namespace GraphBuilder

/-- The graph that a builder has made. -/
def graph {low : NodeRef} {builder : GraphBuilder} (built : Built low builder) : SemanticGraph where
  vertices := builder.vertices
  nodup := built.sorted.imp fun less => Nat.ne_of_lt less

namespace Revisions

variable {std : StdHash} {extraction : Extraction} {start base our their : GraphBuilder}
  (revisions : Revisions std extraction start base our their)

def baseGraph : SemanticGraph := graph revisions.base_forest.1

def ourGraph : SemanticGraph := graph revisions.our_forest.1

def theirGraph : SemanticGraph := graph revisions.their_forest.1

/-- Signatures tell the nodes that need a match apart: from those of the same graph, from all
other objects in ours, and from those of another kind in the other graph. -/
structure ToldApart (std : StdHash) : Prop where
  bases : GraphMatcher.DistinctSignatures std their.heap revisions.baseGraph
  ours : ∀ other, Ours base our other → ∀ node ∈ our.vertices,
    GraphMatcher.needsMatch their.heap node →
      their.heap.hash std other = their.heap.hash std node → other = node
  ourKinds : GraphMatcher.SignaturesTellKinds std their.heap revisions.baseGraph revisions.ourGraph
  theirKinds :
    GraphMatcher.SignaturesTellKinds std their.heap revisions.baseGraph revisions.theirGraph

section Returns

variable {W : Type} {services : MatchServices W} {orders : MatchOrders} {M : GraphMerger}

/-- What top-down matching leaves on either side is safe to be matched greedily. -/
structure GreedySafe (services : MatchServices W) (orders : MatchOrders) (std : StdHash) :
    Prop where
  ours : services.GreedySafe their.heap (GraphMatcher.topDownMatch std their.heap orders.ours
    orders.oursAdded revisions.baseGraph revisions.ourGraph)
  theirs : services.GreedySafe their.heap (GraphMatcher.topDownMatch std their.heap orders.theirs
    orders.theirsAdded revisions.baseGraph revisions.theirGraph)

/-- Matching returns exactly when the greedy matchers stay inside their vectors. -/
theorem threeWayMatch_isSome_iff (told : revisions.ToldApart M.std) :
    (M.threeWayMatch services orders their.heap revisions.baseGraph revisions.ourGraph
        revisions.theirGraph).isSome ↔ revisions.GreedySafe services orders M.std := by
  have ours := (GraphMatcher.match_run orders.ours orders.oursAdded revisions.baseGraph
    revisions.ourGraph services told.ourKinds).1
  have theirs := (GraphMatcher.match_run orders.theirs orders.theirsAdded revisions.baseGraph
    revisions.theirGraph services told.theirKinds).1
  rw [MatchServices.forall_inside_iff] at ours theirs
  have both : (M.threeWayMatch services orders their.heap revisions.baseGraph revisions.ourGraph
      revisions.theirGraph).isSome ↔
        (GraphMatcher.match_ services M.std their.heap orders.ours orders.oursAdded
          revisions.baseGraph revisions.ourGraph).isSome ∧
        (GraphMatcher.match_ services M.std their.heap orders.theirs orders.theirsAdded
          revisions.baseGraph revisions.theirGraph).isSome := by
    rw [GraphMerger.threeWayMatch]
    cases GraphMatcher.match_ services M.std their.heap orders.ours orders.oursAdded
      revisions.baseGraph revisions.ourGraph <;>
    cases GraphMatcher.match_ services M.std their.heap orders.theirs orders.theirsAdded
      revisions.baseGraph revisions.theirGraph <;> simp
  rw [both, ours, theirs]
  exact ⟨fun ⟨ours, theirs⟩ => ⟨ours, theirs⟩, fun ⟨ours, theirs⟩ => ⟨ours, theirs⟩⟩

end Returns

section Match

variable {W : Type} {services : MatchServices W} {orders : MatchOrders} {M matched : GraphMerger}
  {files : List NodeRef} (told : revisions.ToldApart M.std)
  (returned : M.threeWayMatch services orders their.heap revisions.baseGraph revisions.ourGraph
    revisions.theirGraph = some (matched, files))

include returned

/-- The merger keeps its settings, and the files are those of the base that need a merge. -/
theorem threeWayMatch_files :
    (matched.std = M.std ∧ matched.orderInFavour = M.orderInFavour) ∧ files.Nodup ∧
      ∀ ref, ref ∈ files ↔ ref ∈ base.vertices ∧ (their.heap ref).kind = .translationUnit ∧
        (their.heap ref).needToMerge = true := by
  rw [GraphMerger.threeWayMatch] at returned
  obtain ⟨ourMatching, -, returned⟩ := Option.bind_eq_some_iff.mp returned
  obtain ⟨theirMatching, -, returned⟩ := Option.bind_eq_some_iff.mp returned
  obtain ⟨rfl, rfl⟩ := Prod.mk.inj (Option.some.inj returned)
  refine ⟨⟨rfl, rfl⟩, ?_, fun ref => ?_⟩
  · refine .filter _ ((orders.nodes_perm _).nodup_iff.mpr (.filter _ ?_))
    exact revisions.baseGraph.nodup
  · rw [List.mem_filter, (orders.nodes_perm _).mem_iff, List.mem_filter]
    simp only [Bool.and_eq_true, decide_eq_true_eq, Bool.or_eq_true]
    exact ⟨fun ⟨⟨isVertex, _⟩, isUnit, needed⟩ => ⟨isVertex, isUnit, needed⟩,
      fun ⟨isVertex, isUnit, needed⟩ => ⟨⟨isVertex, .inl needed⟩, isUnit, needed⟩⟩

include told

/-- The matched nodes of the graphs are in one place each. -/
theorem threeWayMatch_matched :
    Revisions.Matched matched base our their
      (GraphMatcher.nodesByHash M.std their.heap base.vertices).nodes
      (GraphMatcher.nodesByHash M.std their.heap our.vertices).nodes
      (GraphMatcher.nodesByHash M.std their.heap their.vertices).nodes := by
  rw [GraphMerger.threeWayMatch] at returned
  obtain ⟨ourMatching, ourReturned, returned⟩ := Option.bind_eq_some_iff.mp returned
  obtain ⟨theirMatching, theirReturned, returned⟩ := Option.bind_eq_some_iff.mp returned
  obtain ⟨rfl, rfl⟩ := Prod.mk.inj (Option.some.inj returned)
  have listed : ∀ {vertices : List NodeRef} {ref : NodeRef},
      ref ∈ (GraphMatcher.nodesByHash M.std their.heap vertices).nodes → ref ∈ vertices := by
    intro vertices ref member
    obtain ⟨entry, entryMember, rfl⟩ := List.mem_map.mp member
    exact ((GraphMatcher.nodesByHash_represents M.std their.heap vertices).sound entry
      entryMember).1
  refine ⟨?_, ?_, fun ref => listed, fun ref => listed, fun ref => listed, ?_⟩
  · exact (GraphMatcher.match_run _ _ _ _ services told.ourKinds).2 ourMatching ourReturned
  · exact (GraphMatcher.match_run _ _ _ _ services told.theirKinds).2 theirMatching theirReturned
  · intro other isOurs outside node member same
    obtain ⟨entry, entryMember, rfl⟩ := List.mem_map.mp member
    obtain ⟨isVertex, needed, -⟩ := (GraphMatcher.nodesByHash_represents M.std their.heap
      our.vertices).sound entry entryMember
    exact outside (told.ours other isOurs entry.2 isVertex needed same ▸ member)

/-- After matching, every file is merged as if it was the only one, and nothing but nodes of the
base is written. -/
theorem threeWayMatch_merges (favour : M.orderInFavour = .ours)
    (steady : matched.Steady their.heap) :
    ∃ final, matched.threeWayMerge (our.nextRef + 1) their.heap files =
        some (final, files.filterMap fun file =>
          (matched.mergeSemanticNode (our.nextRef + 1) their.heap file).bind Prod.snd) ∧
      (∀ ref, final ref ≠ their.heap ref → ref ∈ base.vertices) ∧
      ∀ file ∈ files, ∃ single merged,
        matched.mergeSemanticNode (our.nextRef + 1) their.heap file = some (single, merged) ∧
          matched.SameOn (matched.BelowMatches their.heap (Ours base our) [file]) final
            single := by
  obtain ⟨⟨sameStd, sameFavour⟩, distinct, listed⟩ := revisions.threeWayMatch_files returned
  have isMatched := revisions.threeWayMatch_matched told returned
  have inTable : ∀ ref ∈ files,
      ref ∈ (GraphMatcher.nodesByHash M.std their.heap base.vertices).nodes := by
    intro ref member
    obtain ⟨isVertex, -, needed⟩ := (listed ref).mp member
    refine (GraphMatcher.nodesByHash_perm told.bases).symm.subset (List.mem_filter.mpr ?_)
    obtain ⟨forest, -⟩ := revisions.base_forest
    have real := (forest.real ref isVertex).1
    rw [← revisions.base_kept (forest.bounds ref isVertex).2] at real
    exact ⟨isVertex, by simp [GraphMatcher.needsMatch, needed, real]⟩
  have mapped : ∀ ref ∈ files, matched.Mapped their.heap (Ours base our)
      (fun ref => our.nextRef - ref) (our.nextRef + 1) ref := fun ref member =>
    revisions.mapped isMatched (inTable ref member) ((listed ref).mp member).2.1
  obtain ⟨final, called, within, sames⟩ := GraphMerger.threeWayMerge_run
    (revisions.prepared isMatched) (sameFavour.trans favour) (revisions.neighborsApart isMatched)
    steady distinct mapped .refl
  refine ⟨final, called, fun ref changed => ?_, sames⟩
  obtain ⟨entry, member, rfl, -⟩ := within ref changed
  exact isMatched.baseVertices (isMatched.ours.base_places.subset
    (List.mem_append_left _ (List.mem_map_of_mem member)))

end Match

/-- The run from three built graphs to the merged files: matching returns and lists every file of
the base that needs a merge once. When no composite node gets a new identity, every file is merged
as if it was the only one, and nothing but nodes of the base is written. -/
theorem merges {W : Type} {services : MatchServices W} {orders : MatchOrders} {M : GraphMerger}
    (told : revisions.ToldApart M.std) (safe : revisions.GreedySafe services orders M.std)
    (favour : M.orderInFavour = .ours) :
    ∃ matched files, M.threeWayMatch services orders their.heap revisions.baseGraph
          revisions.ourGraph revisions.theirGraph = some (matched, files) ∧
      (files.Nodup ∧ ∀ ref, ref ∈ files ↔ ref ∈ base.vertices ∧
        (their.heap ref).kind = .translationUnit ∧ (their.heap ref).needToMerge = true) ∧
      (matched.Steady their.heap →
        ∃ final, matched.threeWayMerge (our.nextRef + 1) their.heap files =
            some (final, files.filterMap fun file =>
              (matched.mergeSemanticNode (our.nextRef + 1) their.heap file).bind Prod.snd) ∧
          (∀ ref, final ref ≠ their.heap ref → ref ∈ base.vertices) ∧
          ∀ file ∈ files, ∃ single merged,
            matched.mergeSemanticNode (our.nextRef + 1) their.heap file = some (single, merged) ∧
              matched.SameOn (matched.BelowMatches their.heap (Ours base our) [file]) final
                single) := by
  obtain ⟨⟨matched, files⟩, returned⟩ :=
    Option.isSome_iff_exists.mp ((revisions.threeWayMatch_isSome_iff told).mpr safe)
  obtain ⟨-, distinct, listed⟩ := revisions.threeWayMatch_files returned
  exact ⟨matched, files, returned, ⟨distinct, listed⟩,
    revisions.threeWayMatch_merges told returned favour⟩

end Revisions

/-- Every table is walked in the order of its entries. -/
def plainOrders : MatchOrders where
  ours := ⟨id, .refl⟩
  theirs := ⟨id, .refl⟩
  oursAdded := default
  theirsAdded := default
  nodes := id
  nodes_perm := .refl

/-- The merger before matching. -/
def freshMerger : GraphMerger where
  std := .polynomial
  gitMergeTextual our _ _ _ _ _ := our

theorem files_told : files_revisions.ToldApart .polynomial where
  bases := by
    unfold GraphMatcher.DistinctSignatures
    decide
  ours := by
    have all : ∀ other < 10, 5 ≤ other → ∀ node ∈ filesOurs.vertices,
        filesTheirs.heap.hash .polynomial other = filesTheirs.heap.hash .polynomial node →
          other = node := by decide
    exact fun other ⟨later, early⟩ node isVertex _ => all other early later node isVertex
  ourKinds := by
    unfold GraphMatcher.SignaturesTellKinds
    decide
  theirKinds := by
    unfold GraphMatcher.SignaturesTellKinds
    decide

/-- No translation unit, linkage specification or enumeration is left. -/
theorem files_safe :
    files_revisions.GreedySafe GraphMatcher.noServices plainOrders .polynomial := by
  constructor <;> intro greedyClass <;> cases greedyClass <;>
    exact .inl (by unfold NestedScan.Unrelated; decide)

/-- The matched merger, and the files. -/
def filesMatch : GraphMerger × List NodeRef :=
  (freshMerger.threeWayMatch GraphMatcher.noServices plainOrders filesTheirs.heap
    files_revisions.baseGraph files_revisions.ourGraph files_revisions.theirGraph).get (by decide)

theorem files_listed : filesMatch.2 = [0, 3] := by
  decide

/-- What the merge leaves. -/
theorem files_result :
    (filesMatch.1.threeWayMerge (filesOurs.nextRef + 1) filesTheirs.heap filesMatch.2).map
        (fun result => (result.2, (result.1 0).children, (result.1 1).body, (result.1 2).body)) =
      some ([0, 3], [1, 2, 13], "int x = 2;", "int y = 3;") := by
  decide +kernel

theorem files_steady : filesMatch.1.Steady filesTheirs.heap := by
  unfold GraphMerger.Steady
  decide +kernel

/-- Both files are listed and merged: the changes of `x` and `y` are kept, and `w` comes behind
`y`. -/
theorem files_merges :
    freshMerger.threeWayMatch GraphMatcher.noServices plainOrders filesTheirs.heap
        files_revisions.baseGraph files_revisions.ourGraph files_revisions.theirGraph =
          some filesMatch ∧
      ∃ final, filesMatch.1.threeWayMerge (filesOurs.nextRef + 1) filesTheirs.heap [0, 3] =
          some (final, [0, 3]) ∧
        ((final 0).children = [1, 2, 13] ∧ (final 1).body = "int x = 2;" ∧
          (final 2).body = "int y = 3;") ∧
        ∀ ref, final ref ≠ filesTheirs.heap ref → ref ∈ filesBase.vertices := by
  have computed : freshMerger.threeWayMatch GraphMatcher.noServices plainOrders filesTheirs.heap
      files_revisions.baseGraph files_revisions.ourGraph files_revisions.theirGraph =
        some filesMatch := (Option.some_get _).symm
  obtain ⟨matched, files, returned, -, merges⟩ := files_revisions.merges files_told files_safe
    (rfl : freshMerger.orderInFavour = .ours)
  have pair : (matched, files) = filesMatch := Option.some.inj (returned.symm.trans computed)
  have first : matched = filesMatch.1 := congrArg Prod.fst pair
  have second : files = filesMatch.2 := congrArg Prod.snd pair
  subst first second
  obtain ⟨final, merged, written, -⟩ := merges files_steady
  have result := files_result
  rw [merged, Option.map_some] at result
  obtain ⟨kept, values⟩ := Prod.mk.inj (Option.some.inj result)
  obtain ⟨children, values⟩ := Prod.mk.inj values
  dsimp only at kept
  rw [kept, files_listed] at merged
  exact ⟨computed, final, merged, ⟨children, Prod.mk.inj values⟩, written⟩

end GraphBuilder

end MergeBot
