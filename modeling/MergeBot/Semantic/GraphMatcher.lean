import Mathlib.Data.List.AList
import Mathlib.Data.List.Induction
import MergeBot.Model.TwoWayMatching

/-!
# Top-down matching

`GraphMatcher.topDownMatch` folds the vertices of either graph into a table
keyed by signature hash, pairs the nodes found under one hash and files the
rest. `topDownMatch_base_places` and `topDownMatch_revision_places` say that the
outcome holds exactly the nodes the tables hold, and
`topDownMatch_accounts_iff` that these are all nodes to be merged exactly when
no two of one graph share a hash.
-/

namespace MergeBot

open Foundation

/-- Nodes keyed by signature hash. -/
abbrev NodeTable := AList fun _ : UInt64 => NodeRef

namespace NodeTable

/-- The nodes of a table. -/
def nodes (table : NodeTable) : List NodeRef :=
  table.entries.map Sigma.snd

theorem lookup_mem {table : NodeTable} {key : UInt64} {ref : NodeRef}
    (found : table.lookup key = some ref) : ⟨key, ref⟩ ∈ table.entries :=
  AList.mem_lookup_iff.mp found

/-- Erasing a key removes its node and no other. -/
theorem nodes_erase {table : NodeTable} {key : UInt64} {ref : NodeRef}
    (found : table.lookup key = some ref) :
    table.nodes.Perm (ref :: nodes (table.erase key)) := by
  have member := lookup_mem found
  obtain ⟨other, before, after, -, shape, erased⟩ :=
    List.exists_of_kerase (List.mem_keys_of_mem member)
  have same : other = ref := by
    have otherMember : ⟨key, other⟩ ∈ table.entries := by simp [shape]
    exact Option.some.inj ((AList.mem_lookup_iff.mpr otherMember).symm.trans found)
  have erasedNodes : nodes (table.erase key) = (before ++ after).map Sigma.snd := by
    rw [← erased]
    rfl
  rw [erasedNodes, nodes, shape, same]
  simp

end NodeTable

/-- The vertices of a semantic graph, each a node of its own. -/
structure SemanticGraph where
  vertices : List NodeRef
  nodup : vertices.Nodup

/-- An order in which hash tables are walked. -/
structure TableWalk where
  walk : List ((_ : UInt64) × NodeRef) → List ((_ : UInt64) × NodeRef)
  perm : ∀ entries, (walk entries).Perm entries

namespace GraphMatcher

variable (std : StdHash) (heap : Heap)

/-- Other nodes are context information. -/
def needsMatch (ref : NodeRef) : Bool :=
  (heap ref).needToMerge && !(heap ref).isSynthetic

/-- Fold the vertices that need a match into a table; a later vertex replaces an
earlier one with the same hash. -/
def nodesByHash (vertices : List NodeRef) : NodeTable :=
  vertices.foldl (fun table ref =>
    if needsMatch heap ref then table.insert (heap.hash std ref) ref else table) ∅

/-- Pair one base node with the revision node of the same hash, or file it. -/
def matchBaseNode (state : TwoWayMatching × NodeTable) (entry : (_ : UInt64) × NodeRef) :
    TwoWayMatching × NodeTable :=
  match state.2.lookup entry.1 with
  | some revision => (state.1.insertPair std heap entry.2 revision, state.2.erase entry.1)
  | none => (state.1.addUnmatchedNode heap entry.2 true, state.2)

/-- Match equal signatures; the walks are the iteration orders of the tables. -/
def topDownMatch (walk : TableWalk) (addedOrder : KindOrder) (base revision : SemanticGraph) :
    TwoWayMatching :=
  let (matching, unmatched) :=
    (walk.walk (nodesByHash std heap base.vertices).entries).foldl (matchBaseNode std heap)
      ({ addedOrder }, nodesByHash std heap revision.vertices)
  (walk.walk unmatched.entries).foldl
    (fun matching entry => matching.addUnmatchedNode heap entry.2 false) matching

variable {std heap}

/-- A table holds nodes under their own hashes, only nodes that need a match,
and some node under each of their hashes. -/
structure Represents (std : StdHash) (heap : Heap) (vertices : List NodeRef)
    (table : NodeTable) : Prop where
  sound : ∀ entry ∈ table.entries,
    entry.2 ∈ vertices ∧ needsMatch heap entry.2 ∧ heap.hash std entry.2 = entry.1
  complete : ∀ ref ∈ vertices, needsMatch heap ref → heap.hash std ref ∈ table

theorem nodesByHash_represents (std : StdHash) (heap : Heap) (vertices : List NodeRef) :
    Represents std heap vertices (nodesByHash std heap vertices) := by
  induction vertices using List.reverseRecOn with
  | nil => exact ⟨by simp [nodesByHash], by simp⟩
  | append_singleton init last ih =>
      by_cases needed : needsMatch heap last = true
      · have step : nodesByHash std heap (init ++ [last]) =
            (nodesByHash std heap init).insert (heap.hash std last) last := by
          simp [nodesByHash, needed]
        rw [step]
        refine ⟨fun entry member => ?_, fun ref member refNeeded => ?_⟩
        · rw [AList.entries_insert, List.mem_cons] at member
          rcases member with rfl | member
          · simp [needed]
          · obtain ⟨inside, rest⟩ :=
              ih.sound entry ((List.kerase_sublist _ _).subset member)
            exact ⟨List.mem_append_left _ inside, rest⟩
        · rw [AList.mem_insert]
          rcases List.mem_append.mp member with inside | inside
          · exact .inr (ih.complete ref inside refNeeded)
          · exact .inl (by rw [List.mem_singleton.mp inside])
      · have step : nodesByHash std heap (init ++ [last]) = nodesByHash std heap init := by
          simp [nodesByHash, needed]
        rw [step]
        refine ⟨fun entry member => ?_, fun ref member refNeeded => ?_⟩
        · obtain ⟨inside, rest⟩ := ih.sound entry member
          exact ⟨List.mem_append_left _ inside, rest⟩
        · rcases List.mem_append.mp member with inside | inside
          · exact ih.complete ref inside refNeeded
          · rw [List.mem_singleton.mp inside] at refNeeded
            exact absurd refNeeded needed

/-- The hashes of the nodes of a table are its keys. -/
theorem Represents.hashes {vertices : List NodeRef} {table : NodeTable}
    (represents : Represents std heap vertices table) :
    table.nodes.map (heap.hash std) = table.keys := by
  simp only [NodeTable.nodes, AList.keys, List.keys, List.map_map]
  exact List.map_congr_left fun entry member => (represents.sound entry member).2.2

/-- No two nodes of a table share a hash. -/
theorem Represents.distinct {vertices : List NodeRef} {table : NodeTable}
    (represents : Represents std heap vertices table) :
    (table.nodes.map (heap.hash std)).Nodup := by
  rw [represents.hashes]
  exact table.keys_nodup

/-- Some node of the table has the hash of a vertex that needs a match. -/
theorem Represents.winner {vertices : List NodeRef} {table : NodeTable}
    (represents : Represents std heap vertices table) {ref : NodeRef} (inside : ref ∈ vertices)
    (needed : needsMatch heap ref) :
    ∃ winner ∈ table.nodes, winner ∈ vertices ∧ needsMatch heap winner ∧
      heap.hash std winner = heap.hash std ref := by
  have key := represents.complete ref inside needed
  obtain ⟨winner, member⟩ := List.mem_keys.mp (AList.mem_keys.mp key)
  obtain ⟨winnerInside, winnerNeeded, same⟩ := represents.sound _ member
  exact ⟨winner, List.mem_map.mpr ⟨_, member, rfl⟩, winnerInside, winnerNeeded, same⟩

/-- What holds once the base nodes `done` have been matched or filed: the
matching holds exactly these, and the revision nodes are split between it and
the table. -/
structure Progress (std : StdHash) (heap : Heap) (revisionNodes done : List NodeRef)
    (matching : TwoWayMatching) (unmatched : NodeTable) : Prop where
  base_places : matching.basePlaces.Perm done
  revision_places : (matching.revisionPlaces ++ unmatched.nodes).Perm revisionNodes
  filed : matching.oneOneMatching.Filed (heap.hash std) (heap.hash std)
  keyed : ∀ entry ∈ unmatched.entries, heap.hash std entry.2 = entry.1

/-- One base node is matched or filed, and nothing else moves. -/
theorem Progress.step {revisionNodes done : List NodeRef} {matching : TwoWayMatching}
    {unmatched : NodeTable} {entry : (_ : UInt64) × NodeRef}
    (progress : Progress std heap revisionNodes done matching unmatched)
    (keyed : heap.hash std entry.2 = entry.1)
    (fresh : ∀ ref ∈ done, heap.hash std ref ≠ entry.1)
    (distinct : (revisionNodes.map (heap.hash std)).Nodup) :
    Progress std heap revisionNodes (done ++ [entry.2])
      (matchBaseNode std heap (matching, unmatched) entry).1
      (matchBaseNode std heap (matching, unmatched) entry).2 := by
  have snoc := (progress.base_places.cons entry.2).trans
    (List.perm_append_singleton entry.2 done).symm
  cases found : unmatched.lookup entry.1 with
  | none =>
      simp only [matchBaseNode, found]
      exact ⟨(matching.basePlaces_addUnmatchedNode heap entry.2).trans snoc,
        progress.revision_places, progress.filed, progress.keyed⟩
  | some revision =>
      have split := NodeTable.nodes_erase found
      have baseFresh : matching.oneOneMatching.leftFind (heap.hash std) entry.2 = none := by
        refine progress.filed.leftFind_none fun pair member same => ?_
        have place : pair.left ∈ matching.basePlaces :=
          List.mem_append_left _ (List.mem_map_of_mem member)
        exact fresh pair.left (progress.base_places.subset place) (same.trans keyed)
      have revisionFresh :
          matching.oneOneMatching.rightFind (heap.hash std) revision = none := by
        refine progress.filed.rightFind_none fun pair member same => ?_
        have apart := (progress.revision_places.map (heap.hash std)).nodup_iff.mpr distinct
        rw [List.map_append, List.nodup_append] at apart
        have place : pair.right ∈ matching.revisionPlaces :=
          List.mem_append_left _ (List.mem_map_of_mem member)
        exact apart.2.2 _ (List.mem_map_of_mem place) _
          (List.mem_map_of_mem (split.symm.subset List.mem_cons_self)) same
      simp only [matchBaseNode, found]
      refine ⟨(TwoWayMatching.basePlaces_insertPair baseFresh revisionFresh).trans snoc, ?_,
        progress.filed.insert _ _, fun rest member => ?_⟩
      · have placed := TwoWayMatching.revisionPlaces_insertPair baseFresh revisionFresh
        refine (placed.append_right _).trans (List.Perm.trans ?_ progress.revision_places)
        exact List.perm_middle.symm.trans (split.symm.append_left _)
      · exact progress.keyed rest ((List.kerase_sublist _ _).subset member)

/-- Walking a list of base entries with distinct keys matches or files each of them. -/
theorem Progress.foldl {revisionNodes : List NodeRef} {matching : TwoWayMatching}
    {unmatched : NodeTable} (start : Progress std heap revisionNodes [] matching unmatched)
    (distinct : (revisionNodes.map (heap.hash std)).Nodup)
    (entries : List ((_ : UInt64) × NodeRef)) (keys : entries.NodupKeys)
    (keyed : ∀ entry ∈ entries, heap.hash std entry.2 = entry.1) :
    let final := entries.foldl (matchBaseNode std heap) (matching, unmatched)
    Progress std heap revisionNodes (entries.map Sigma.snd) final.1 final.2 := by
  induction entries using List.reverseRecOn with
  | nil => exact start
  | append_singleton init last ih =>
      have keysInit : init.NodupKeys ∧ ∀ entry ∈ init, entry.1 ≠ last.1 := by
        simp only [List.NodupKeys, List.keys, List.map_append, List.nodup_append] at keys
        refine ⟨keys.1, fun entry member same => ?_⟩
        exact keys.2.2 _ (List.mem_map_of_mem member) last.1 (by simp) same
      have before := ih keysInit.1 fun entry member => keyed entry (List.mem_append_left _ member)
      simp only [List.foldl_append, List.foldl_cons, List.foldl_nil, List.map_append,
        List.map_cons, List.map_nil]
      refine before.step (keyed last (by simp)) (fun ref member => ?_) distinct
      obtain ⟨entry, entryMember, rfl⟩ := List.mem_map.mp member
      rw [keyed entry (List.mem_append_left _ entryMember)]
      exact keysInit.2 entry entryMember

/-- Filing the leftover revision nodes places each of them and moves no other node. -/
theorem foldl_addUnmatchedNode (heap : Heap) (refs : List ((_ : UInt64) × NodeRef))
    (matching : TwoWayMatching) :
    let final := refs.foldl
      (fun matching entry => matching.addUnmatchedNode heap entry.2 false) matching
    final.revisionPlaces.Perm (matching.revisionPlaces ++ refs.map Sigma.snd) ∧
      final.basePlaces = matching.basePlaces := by
  induction refs generalizing matching with
  | nil => simp
  | cons entry rest ih =>
      obtain ⟨placed, same⟩ := ih (matching.addUnmatchedNode heap entry.2 false)
      refine ⟨placed.trans ?_, same⟩
      have filed := matching.revisionPlaces_addUnmatchedNode heap entry.2
      exact (filed.append_right _).trans List.perm_middle.symm

variable (std heap)

/-- Every vertex that needs a match is in exactly one place, exactly once. -/
def Accounted (graph : SemanticGraph) (places : List NodeRef) : Prop :=
  ∀ ref ∈ graph.vertices, needsMatch heap ref → places.count ref = 1

/-- No two vertices that need a match share a signature hash. -/
def DistinctSignatures (graph : SemanticGraph) : Prop :=
  ∀ ref ∈ graph.vertices, ∀ other ∈ graph.vertices, needsMatch heap ref →
    needsMatch heap other → heap.hash std ref = heap.hash std other → ref = other

variable {std heap}

/-- The table of a graph holds every vertex that needs a match exactly when no
two of them share a hash. -/
theorem accounted_nodesByHash_iff (graph : SemanticGraph) :
    Accounted heap graph (nodesByHash std heap graph.vertices).nodes ↔
      DistinctSignatures std heap graph := by
  have table := nodesByHash_represents std heap graph.vertices
  have apart := table.distinct
  constructor
  · intro accounted ref inside other otherInside needed otherNeeded same
    have held := accounted ref inside needed
    have otherHeld := accounted other otherInside otherNeeded
    exact List.inj_on_of_nodup_map apart (List.count_pos_iff.mp (by omega))
      (List.count_pos_iff.mp (by omega)) same
  · intro distinct ref inside needed
    obtain ⟨winner, member, winnerInside, winnerNeeded, same⟩ := table.winner inside needed
    have isWinner : winner = ref :=
      distinct winner winnerInside ref inside winnerNeeded needed same
    exact List.count_eq_one_of_mem (List.Nodup.of_map _ apart) (isWinner ▸ member)

section TopDown

variable (std heap) (walk : TableWalk) (addedOrder : KindOrder) (base revision : SemanticGraph)

/-- Top-down matching places exactly the nodes of the two tables. -/
theorem topDownMatch_places :
    let matching := topDownMatch std heap walk addedOrder base revision
    matching.basePlaces.Perm (nodesByHash std heap base.vertices).nodes ∧
      matching.revisionPlaces.Perm (nodesByHash std heap revision.vertices).nodes := by
  have baseTable := nodesByHash_represents std heap base.vertices
  have revisionTable := nodesByHash_represents std heap revision.vertices
  have walked := walk.perm (nodesByHash std heap base.vertices).entries
  have start : Progress std heap (nodesByHash std heap revision.vertices).nodes []
      { addedOrder } (nodesByHash std heap revision.vertices) :=
    ⟨.refl _, .refl _, by simp [HashBiMap.Filed], fun entry member =>
      (revisionTable.sound entry member).2.2⟩
  have progress := start.foldl revisionTable.distinct (walk.walk _)
    ((List.perm_nodupKeys walked).mpr (nodesByHash std heap base.vertices).nodupKeys)
    fun entry member => (baseTable.sound entry (walked.subset member)).2.2
  simp only [topDownMatch]
  obtain ⟨revisionPlaced, baseSame⟩ := foldl_addUnmatchedNode heap
    (walk.walk (((walk.walk (nodesByHash std heap base.vertices).entries).foldl
      (matchBaseNode std heap) ({ addedOrder }, nodesByHash std heap revision.vertices)).2.entries))
    ((walk.walk (nodesByHash std heap base.vertices).entries).foldl
      (matchBaseNode std heap) ({ addedOrder }, nodesByHash std heap revision.vertices)).1
  refine ⟨?_, revisionPlaced.trans ?_⟩
  · rw [baseSame]
    exact progress.base_places.trans (walked.map _)
  · exact (((walk.perm _).map _).append_left _).trans progress.revision_places

/-- Pairs are filed under their hashes, unmatched nodes under their kinds. -/
structure WellFiled (matching : TwoWayMatching) : Prop where
  filed : matching.oneOneMatching.Filed (heap.hash std) (heap.hash std)
  deleted_kind : ∀ kind, ∀ ref ∈ matching.possiblyDeleted kind, (heap ref).kind = kind
  added_kind : ∀ kind, ∀ ref ∈ matching.possiblyAdded kind, (heap ref).kind = kind

variable {std heap}

/-- A node that is filed under its kind leaves the lists well filed. -/
theorem kind_of_mem_push {map : KindMap}
    (kinds : ∀ kind, ∀ ref ∈ map kind, (heap ref).kind = kind) (ref : NodeRef) :
    ∀ kind, ∀ other ∈ map.push (heap ref).kind ref kind, (heap other).kind = kind := by
  intro kind other member
  by_cases same : kind = (heap ref).kind
  · subst same
    rw [KindMap.push, Function.update_self, List.mem_append, List.mem_singleton] at member
    rcases member with old | rfl
    · exact kinds _ other old
    · rfl
  · rw [KindMap.push, Function.update_of_ne same] at member
    exact kinds kind other member

theorem WellFiled.addUnmatchedNode {matching : TwoWayMatching}
    (wellFiled : WellFiled std heap matching) (ref : NodeRef) (isInBase : Bool) :
    WellFiled std heap (matching.addUnmatchedNode heap ref isInBase) := by
  cases isInBase with
  | true =>
      exact ⟨wellFiled.filed, kind_of_mem_push wellFiled.deleted_kind ref, wellFiled.added_kind⟩
  | false =>
      exact ⟨wellFiled.filed, wellFiled.deleted_kind, kind_of_mem_push wellFiled.added_kind ref⟩

theorem WellFiled.matchBaseNode {state : TwoWayMatching × NodeTable}
    (wellFiled : WellFiled std heap state.1) (entry : (_ : UInt64) × NodeRef) :
    WellFiled std heap (GraphMatcher.matchBaseNode std heap state entry).1 := by
  rw [GraphMatcher.matchBaseNode]
  cases state.2.lookup entry.1 with
  | none => exact wellFiled.addUnmatchedNode entry.2 true
  | some revision =>
      exact ⟨wellFiled.filed.insert _ _, wellFiled.deleted_kind, wellFiled.added_kind⟩

variable (std heap)

/-- Top-down matching files every pair and every node in its place. -/
theorem topDownMatch_wellFiled :
    WellFiled std heap (topDownMatch std heap walk addedOrder base revision) := by
  have bases (entries : List ((_ : UInt64) × NodeRef)) (state : TwoWayMatching × NodeTable)
      (start : WellFiled std heap state.1) :
      WellFiled std heap (entries.foldl (matchBaseNode std heap) state).1 := by
    induction entries generalizing state with
    | nil => exact start
    | cons entry rest ih => exact ih _ (start.matchBaseNode entry)
  have revisions (entries : List ((_ : UInt64) × NodeRef)) (matching : TwoWayMatching)
      (start : WellFiled std heap matching) :
      WellFiled std heap (entries.foldl
        (fun matching entry => matching.addUnmatchedNode heap entry.2 false) matching) := by
    induction entries generalizing matching with
    | nil => exact start
    | cons entry rest ih => exact ih _ (start.addUnmatchedNode entry.2 false)
  exact revisions _ _ (bases _ _ ⟨by simp [HashBiMap.Filed], by simp, by simp⟩)

/-- Each mergeable vertex of either graph is matched or filed exactly once, if
and only if the mergeable vertices of either graph have distinct hashes. -/
theorem topDownMatch_accounts_iff :
    (Accounted heap base (topDownMatch std heap walk addedOrder base revision).basePlaces ∧
      Accounted heap revision
        (topDownMatch std heap walk addedOrder base revision).revisionPlaces) ↔
      DistinctSignatures std heap base ∧ DistinctSignatures std heap revision := by
  obtain ⟨basePlaced, revisionPlaced⟩ :=
    topDownMatch_places std heap walk addedOrder base revision
  rw [← accounted_nodesByHash_iff base, ← accounted_nodesByHash_iff revision]
  simp only [Accounted, basePlaced.count_eq, revisionPlaced.count_eq]

end TopDown

/-- Two equal lines of one file, and a revision without them. -/
def repeatedLine : Heap := fun _ => { kind := .textual, body := "using std::swap;" }

/-- One of two equal lines of the base file is in no list at all. -/
theorem repeatedLine_lost :
    ¬ (Accounted repeatedLine ⟨[0, 1], by decide⟩
        (topDownMatch .polynomial repeatedLine ⟨id, .refl⟩ default ⟨[0, 1], by decide⟩
          ⟨[], by decide⟩).basePlaces ∧
      Accounted repeatedLine ⟨[], by decide⟩
        (topDownMatch .polynomial repeatedLine ⟨id, .refl⟩ default ⟨[0, 1], by decide⟩
          ⟨[], by decide⟩).revisionPlaces) := by
  rintro ⟨accounted, -⟩
  exact absurd (accounted 0 (by simp) (by decide)) (by decide)

end GraphMatcher

end MergeBot
