import MergeBot.Semantic.BuiltSources
import MergeBot.Semantic.MergeOrder

/-!
# Merging graphs that were built

The graphs of three revisions, matched so that every node is in one place, are a state that a merge
can start from (`built_prepared`): what the theorems about merging ask for need not be assumed of
them. Of the nodes that need no match, access specifiers among them, only their identities count:
none of them may have that of a matched node.
-/

namespace MergeBot

open Foundation

namespace GraphBuilder

/-- A new builder; its objects are numbered from where the last one has stopped. -/
def next (built : GraphBuilder) : GraphBuilder :=
  { built with nodeCount := 0, edgeCount := 0, vertices := [], edges := [] }

theorem next_unused (built : GraphBuilder) : built.next.Unused := ⟨rfl, rfl, rfl, rfl⟩

/-- The graphs of the three revisions, by what their builders have left. -/
structure Revisions (std : StdHash) (extraction : Extraction) (start base our their : GraphBuilder) :
    Prop where
  unused : start.Unused
  baseBuilt : ∃ task : BuildTask, task.build std extraction start = some base
  ourBuilt : ∃ task : BuildTask, task.build std extraction base.next = some our
  theirBuilt : ∃ task : BuildTask, task.build std extraction our.next = some their

variable {std : StdHash} {extraction : Extraction} {start base our their : GraphBuilder}

/-- One graph is a forest, and the objects that were there stay. -/
theorem BuildTask.built {task : BuildTask} {builder built : GraphBuilder} (unused : builder.Unused)
    (finished : task.build std extraction builder = some built) :
    Built builder.nextRef built ∧ builder.nextRef ≤ built.nextRef ∧
      (∀ ref < builder.nextRef, built.heap ref = builder.heap ref) ∧
      ∀ ref < builder.nextRef, built.specifierText ref = builder.specifierText ref := by
  obtain ⟨reaches, old, texts, -⟩ := build_grows finished
  exact ⟨unused.forest.run reaches, reaches.nextRef, old, texts⟩

namespace Revisions

variable (revisions : Revisions std extraction start base our their)

include revisions

theorem base_forest : Built start.nextRef base ∧ start.nextRef ≤ base.nextRef := by
  obtain ⟨task, finished⟩ := revisions.baseBuilt
  obtain ⟨forest, le, -, -⟩ := BuildTask.built revisions.unused finished
  exact ⟨forest, le⟩

/-- Our graph in the end: later objects do not change it. -/
theorem our_forest : Built base.nextRef our ∧ base.nextRef ≤ our.nextRef ∧
    ∀ ref < our.nextRef, their.heap ref = our.heap ref := by
  obtain ⟨task, finished⟩ := revisions.ourBuilt
  obtain ⟨task', finished'⟩ := revisions.theirBuilt
  obtain ⟨forest, le, -, -⟩ := BuildTask.built base.next_unused finished
  obtain ⟨-, -, old, -⟩ := BuildTask.built our.next_unused finished'
  exact ⟨forest, le, old⟩

/-- No child in our graph is a translation unit. -/
theorem our_noUnit : ∀ above, base.nextRef ≤ above → above < our.nextRef →
    ∀ ref ∈ (our.heap above).children, (our.heap ref).kind ≠ .translationUnit := by
  obtain ⟨task, finished⟩ := revisions.ourBuilt
  obtain ⟨-, -, -, sources⟩ := BuildTask.build_grows finished
  exact sources.noUnit

/-- Later objects do not change the base. -/
theorem base_kept {ref : NodeRef} (early : ref < base.nextRef) :
    their.heap ref = base.heap ref := by
  obtain ⟨task, finished⟩ := revisions.ourBuilt
  obtain ⟨-, -, old, -⟩ := BuildTask.built base.next_unused finished
  obtain ⟨-, le, kept⟩ := revisions.our_forest
  rw [kept ref (Nat.lt_of_lt_of_le early le), old ref early]
  rfl

theorem their_forest : Built our.nextRef their ∧ our.nextRef ≤ their.nextRef := by
  obtain ⟨task, finished⟩ := revisions.theirBuilt
  obtain ⟨forest, le, -, -⟩ := BuildTask.built our.next_unused finished
  exact ⟨forest, le⟩

end Revisions

/-- The objects of our graph. -/
def Revisions.Ours (base our : GraphBuilder) (ref : NodeRef) : Prop :=
  base.nextRef ≤ ref ∧ ref < our.nextRef

/-- The matched nodes are vertices of the graphs, in one place each, and no other object of our
graph has the identity of one of them. -/
structure Revisions.Matched (M : GraphMerger) (base our their : GraphBuilder)
    (baseNodes ourNodes theirNodes : List NodeRef) : Prop where
  ours : M.ourMatching.Partition M.std their.heap baseNodes ourNodes
  theirs : M.theirMatching.Partition M.std their.heap baseNodes theirNodes
  baseVertices : baseNodes ⊆ base.vertices
  ourVertices : ourNodes ⊆ our.vertices
  theirVertices : theirNodes ⊆ their.vertices
  distinct : ∀ other, Ours base our other → other ∉ ourNodes → ∀ node ∈ ourNodes,
    their.heap.hash M.std other ≠ their.heap.hash M.std node

section Prepare

variable {M : GraphMerger} {baseNodes ourNodes theirNodes : List NodeRef}
  (revisions : Revisions std extraction start base our their)
  (matched : Revisions.Matched M base our their baseNodes ourNodes theirNodes)

include revisions matched

/-- Nodes from our graph on are no base nodes. -/
theorem Revisions.unwritten {ref : NodeRef} (later : base.nextRef ≤ ref) : M.Unwritten ref := by
  intro entry member same
  have isBase := matched.ours.base_places.subset
    (List.mem_append_left _ (List.mem_map_of_mem member))
  rw [same] at isBase
  have early := (revisions.base_forest.1.bounds ref (matched.baseVertices isBase)).2
  exact absurd early (Nat.not_lt_of_le later)

/-- Objects of our graph, matched or not. -/
theorem Revisions.mem_ours {ref : NodeRef} :
    ref ∈ ourNodes ++ (List.range' base.nextRef (our.nextRef - base.nextRef)).filter
        (fun other => other ∉ ourNodes) ↔ Revisions.Ours base our ref := by
  obtain ⟨forest, le, -⟩ := revisions.our_forest
  rw [List.mem_append, List.mem_filter, List.mem_range'_1, Nat.add_sub_of_le le]
  constructor
  · rintro (isMatched | ⟨inside, -⟩)
    · exact forest.bounds ref (matched.ourVertices isMatched)
    · exact inside
  · rintro inside
    by_cases isMatched : ref ∈ ourNodes
    · exact .inl isMatched
    · exact .inr ⟨inside, by simpa using isMatched⟩

/-- The graphs are a state that a merge can start from. -/
theorem Revisions.prepared :
    M.Prepared their.heap (Revisions.Ours base our) fun ref => our.nextRef - ref := by
  obtain ⟨forest, le, old⟩ := revisions.our_forest
  have theirForest := revisions.their_forest.1
  let outside := (List.range' base.nextRef (our.nextRef - base.nextRef)).filter
    fun other => other ∉ ourNodes
  have region : (· ∈ ourNodes ++ outside) = Revisions.Ours base our :=
    funext fun ref => propext (revisions.mem_ours matched)
  -- An object of our graph with children is a vertex.
  have isVertex : ∀ {parent child}, Revisions.Ours base our parent →
      child ∈ (their.heap parent).children →
        parent ∈ our.vertices ∧ child ∈ (our.heap parent).children := by
    intro parent child inside isChild
    rw [old parent inside.2] at isChild
    refine ⟨(forest.whole parent inside.1 inside.2).resolve_right fun isLabel => ?_, isChild⟩
    rw [isLabel] at isChild
    exact absurd isChild List.not_mem_nil
  rw [← region]
  refine .of_partition_outside outside matched.ours matched.theirs ?_ ?_ ?_ ?_ ?_
  · intro ref isBase
    have early := (revisions.base_forest.1.bounds ref (matched.baseVertices isBase)).2
    refine ⟨fun inside => ?_, fun isTheirs => ?_⟩
    · have later := ((revisions.mem_ours matched).mp inside).1
      exact absurd early (Nat.not_lt_of_le later)
    · have later := (theirForest.bounds ref (matched.theirVertices isTheirs)).1
      exact absurd early (Nat.not_lt_of_le (le.trans later))
  · intro other isOutside node isMatched
    have inside := (revisions.mem_ours matched).mp (List.mem_append_right ourNodes isOutside)
    exact matched.distinct other inside (by simpa using (List.mem_filter.mp isOutside).2) node
      isMatched
  · intro parent isOurs child isChild
    have inside := (revisions.mem_ours matched).mp isOurs
    obtain ⟨vertex, below⟩ := isVertex inside isChild
    obtain ⟨later, early, -⟩ := forest.child parent vertex child below
    refine ⟨(revisions.mem_ours matched).mpr ⟨inside.1.trans later.le, early⟩, ?_⟩
    exact Nat.sub_lt_sub_left inside.2 later
  · intro first isFirst second isSecond child below alsoBelow
    obtain ⟨vertex, isChild⟩ := isVertex ((revisions.mem_ours matched).mp isFirst) below
    obtain ⟨vertex', isChild'⟩ := isVertex ((revisions.mem_ours matched).mp isSecond) alsoBelow
    exact forest.single first vertex second vertex' child isChild isChild'
  · intro parent isOurs
    have inside := (revisions.mem_ours matched).mp isOurs
    rw [old parent inside.2]
    rcases forest.whole parent inside.1 inside.2 with vertex | isLabel
    · exact (forest.siblings parent vertex).imp fun less => Nat.ne_of_lt less
    · rw [isLabel]
      exact .nil

/-- Nodes that are recorded as added, their parents and their siblings are in our graph or in
theirs. -/
theorem Revisions.neighborsApart : M.NeighborsApart their.heap := by
  obtain ⟨forest, le, old⟩ := revisions.our_forest
  have theirForest := revisions.their_forest.1
  have family : ∀ {builder : GraphBuilder} {low added : NodeRef}, Built low builder →
      base.nextRef ≤ low → added ∈ builder.vertices →
        (∀ ref < builder.nextRef, their.heap ref = builder.heap ref) →
          M.Unwritten added ∧ ∀ parent ∈ (their.heap added).parent, M.Unwritten parent ∧
            ∀ sibling ∈ (their.heap parent).children, M.Unwritten sibling := by
    intro builder low added built after isVertex same
    obtain ⟨later, early⟩ := built.bounds added isVertex
    refine ⟨revisions.unwritten matched (after.trans later), fun parent up => ?_⟩
    rw [same added early] at up
    obtain ⟨parentVertex, -⟩ := built.parent added isVertex parent up
    obtain ⟨parentLater, parentEarly⟩ := built.bounds parent parentVertex
    refine ⟨revisions.unwritten matched (after.trans parentLater), fun sibling isSibling => ?_⟩
    rw [same parent parentEarly] at isSibling
    have below := (built.child parent parentVertex sibling isSibling).1
    exact revisions.unwritten matched (after.trans (parentLater.trans below.le))
  rintro added (isOurs | isTheirs)
  · have isNode := matched.ours.revision_places.subset (List.mem_append_right _ isOurs)
    exact family forest (Nat.le_refl _) (matched.ourVertices isNode) old
  · have isNode := matched.theirs.revision_places.subset (List.mem_append_right _ isTheirs)
    exact family theirForest le (matched.theirVertices isNode) fun _ _ => rfl

/-- A file of the base is matched to a root of our graph, or to nothing. -/
theorem Revisions.mapped {ref : NodeRef} (isBase : ref ∈ baseNodes)
    (isUnit : (their.heap ref).kind = .translationUnit) :
    M.Mapped their.heap (Revisions.Ours base our) (fun ref => our.nextRef - ref)
      (our.nextRef + 1) ref := by
  obtain ⟨forest, -, old⟩ := revisions.our_forest
  by_cases found : ∃ entry ∈ M.ourMatching.oneOneMatching, entry.left = ref
  · obtain ⟨entry, member, rfl⟩ := found
    have isOur := matched.ours.revision_places.subset
      (List.mem_append_left _ (List.mem_map_of_mem member))
    obtain ⟨later, early⟩ := forest.bounds entry.right (matched.ourVertices isOur)
    refine .inl ⟨entry, member, rfl, ⟨later, early⟩, Nat.lt_succ_of_le (Nat.sub_le _ _), ?_⟩
    rintro parent ⟨⟨after, before⟩, isChild⟩
    rw [old parent before] at isChild
    refine revisions.our_noUnit parent after before entry.right isChild ?_
    rw [← old entry.right early, ← matched.ours.same_kind entry member, isUnit]
  · refine .inr ⟨fun entry member same => found ⟨entry, member, same⟩, fun entry member same => ?_⟩
    rw [(matched.ours.filed entry member).1] at same
    have entryBase := matched.ours.base_places.subset
      (List.mem_append_left _ (List.mem_map_of_mem member))
    exact found ⟨entry, member,
      List.inj_on_of_nodup_map matched.ours.base_distinct entryBase isBase same⟩

end Prepare

/-- A file of declarations. -/
def declarations (texts : List String) : TsNode :=
  plainNode .translationUnit "" 0 none
    (texts.map fun text => plainNode .declaration text 0 none [])

/-- Two files, as a revision has them. -/
def filesTask (first second : List String) : BuildTask where
  sourceDir := "/s/".toList
  projectPath := "/p/".toList
  conflictPaths := ["a.cpp".toList, "b.cpp".toList]
  sourceList := ["a.cpp".toList, "b.cpp".toList]
  parse path :=
    if path = "/s/a.cpp".toList then some (declarations first)
    else if path = "/s/b.cpp".toList then some (declarations second)
    else none

/-- A declaration is known by what stands in front of its value. -/
def namedExtraction : Extraction where
  describe _ node := { usr := String.ofList (node.text.takeWhile (· ≠ '=')) }
  displayName _ node := node.text

def filesBase : GraphBuilder :=
  ((filesTask ["int x = 1;", "int y = 1;"] ["int z = 1;"]).build .polynomial namedExtraction
    emptyBuilder).get rfl

/-- Our side changes `x` and `z`. -/
def filesOurs : GraphBuilder :=
  ((filesTask ["int x = 2;", "int y = 1;"] ["int z = 2;"]).build .polynomial namedExtraction
    filesBase.next).get rfl

/-- Their side changes `y` and `z`, and adds `w`. -/
def filesTheirs : GraphBuilder :=
  ((filesTask ["int x = 1;", "int y = 3;", "int w = 3;"] ["int z = 3;"]).build .polynomial
    namedExtraction filesOurs.next).get rfl

/-- The merger of the three graphs. -/
def filesMerger : GraphMerger where
  std := .polynomial
  gitMergeTextual our _ _ _ _ _ := our
  ourMatching := {
    oneOneMatching := GraphMerger.tableOf .polynomial filesTheirs.heap
      [(0, 5), (1, 6), (2, 7), (3, 8), (4, 9)] }
  theirMatching := {
    oneOneMatching := GraphMerger.tableOf .polynomial filesTheirs.heap
      [(0, 10), (1, 11), (2, 12), (3, 14), (4, 15)]
    possiblyAdded := Function.update (fun _ => []) .fieldDeclaration [13] }

theorem files_revisions :
    Revisions .polynomial namedExtraction emptyBuilder filesBase filesOurs filesTheirs :=
  ⟨emptyBuilder_unused, ⟨_, (Option.some_get _).symm⟩, ⟨_, (Option.some_get _).symm⟩,
    ⟨_, (Option.some_get _).symm⟩⟩

theorem files_matched :
    Revisions.Matched filesMerger filesBase filesOurs filesTheirs [0, 1, 2, 3, 4]
      [5, 6, 7, 8, 9] [10, 11, 12, 13, 14, 15] where
  ours := by decide
  theirs := by decide
  baseVertices := by decide
  ourVertices := by decide
  theirVertices := by decide
  distinct := by
    rintro other ⟨later, early⟩ unmatched
    have all : ∀ ref < 10, 5 ≤ ref → ref ∈ [5, 6, 7, 8, 9] := by decide
    exact absurd (all other early later) unmatched

end GraphBuilder

end MergeBot
