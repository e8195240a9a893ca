import Mathlib.Data.List.Perm.Basic
import Mathlib.Logic.Function.Basic
import MergeBot.Model.SemanticNode
import MergeBot.Foundation.HashBiMap

/-!
# The matching of two revisions

`TwoWayMatching` pairs base nodes with revision nodes and files the unmatched
nodes of either graph by kind. `Partition` is its invariant: every node of
either graph is in exactly one place, pairs are of one kind, and unmatched
nodes are listed under their own kind.
-/

namespace MergeBot

open Foundation

/-- All enumerators, in order. -/
def NodeKind.all : List NodeKind :=
  [.node, .compositeNode, .translationUnit, .linkageSpecList, .namespace_, .type, .enum,
    .lastCompositeNode, .terminalNode, .fieldDeclaration, .funcDef, .funcOperatorCast,
    .funcSpecialMember, .orphanComment, .textual, .accessSpecifier, .lastTerminalNode, .count]

theorem NodeKind.mem_all (kind : NodeKind) : kind ∈ all := by
  cases kind <;> decide

theorem NodeKind.all_nodup : all.Nodup := by
  decide

/-- Unmatched nodes, filed by kind. -/
abbrev KindMap := NodeKind → List NodeRef

namespace KindMap

/-- All nodes of a kind map, kind by kind. -/
def collect (map : KindMap) : List NodeRef :=
  NodeKind.all.flatMap map

theorem mem_collect {map : KindMap} {ref : NodeRef} :
    ref ∈ map.collect ↔ ∃ kind, ref ∈ map kind := by
  simp [collect, NodeKind.mem_all]

/-- Replacing the list of one kind moves exactly the nodes it loses. -/
theorem collect_update {map : KindMap} {kind : NodeKind} {moved kept : List NodeRef}
    (split : (map kind).Perm (moved ++ kept)) :
    map.collect.Perm (moved ++ collect (Function.update map kind kept)) := by
  obtain ⟨before, after, shape⟩ := List.append_of_mem (NodeKind.mem_all kind)
  have distinct := NodeKind.all_nodup
  rw [shape] at distinct
  have absent : kind ∉ before ∧ kind ∉ after := by
    simp only [List.nodup_append, List.nodup_cons, List.mem_cons] at distinct
    exact ⟨fun inside => distinct.2.2 kind inside kind (.inl rfl) rfl, distinct.2.1.1⟩
  have same : ∀ kinds : List NodeKind, kind ∉ kinds →
      kinds.flatMap (Function.update map kind kept) = kinds.flatMap map := by
    intro kinds outside
    refine List.flatMap_congr fun other member => ?_
    exact Function.update_of_ne (fun equal : other = kind => outside (equal ▸ member)) _ _
  simp only [collect, shape, List.flatMap_append, List.flatMap_cons, same before absent.1,
    same after absent.2, Function.update_self]
  calc before.flatMap map ++ (map kind ++ after.flatMap map)
      |>.Perm (before.flatMap map ++ ((moved ++ kept) ++ after.flatMap map)) :=
        (split.append_right _).append_left _
    _ |>.Perm (moved ++ (before.flatMap map ++ (kept ++ after.flatMap map))) := by
        rw [List.append_assoc]
        exact List.perm_append_comm_assoc _ _ _

/-- File one more node under its kind. -/
def push (map : KindMap) (kind : NodeKind) (ref : NodeRef) : KindMap :=
  Function.update map kind (map kind ++ [ref])

theorem collect_push (map : KindMap) (kind : NodeKind) (ref : NodeRef) :
    (map.push kind ref).collect.Perm (ref :: map.collect) := by
  have moved : ((map.push kind ref) kind).Perm ([ref] ++ map kind) := by
    simp [push]
  simpa [push] using collect_update moved

end KindMap

/-- The table of matched pairs, keyed by signature hashes. -/
abbrev BiMap := HashBiMap NodeRef NodeRef UInt64

/-- An order in which a hash table walks the node kinds. -/
abbrev KindOrder := { kinds : List NodeKind // kinds.Perm NodeKind.all }

instance : Inhabited KindOrder := ⟨⟨NodeKind.all, .refl _⟩⟩

/-- Matched pairs of base and revision nodes, and what is left of either graph. -/
structure TwoWayMatching where
  oneOneMatching : BiMap := []
  possiblyDeleted : KindMap := fun _ => []
  possiblyAdded : KindMap := fun _ => []
  /-- The iteration order of `possiblyAdded`. -/
  addedOrder : KindOrder := default

namespace TwoWayMatching

/-- Add a node that is unmatched in the other graph. -/
def addUnmatchedNode (heap : Heap) (matching : TwoWayMatching) (ref : NodeRef)
    (isInBase : Bool) : TwoWayMatching :=
  if isInBase then
    { matching with possiblyDeleted := matching.possiblyDeleted.push (heap ref).kind ref }
  else
    { matching with possiblyAdded := matching.possiblyAdded.push (heap ref).kind ref }

/-- Match a base node with a revision node, unless either is matched already. -/
def insertPair (std : StdHash) (heap : Heap) (matching : TwoWayMatching)
    (base revision : NodeRef) : TwoWayMatching :=
  { matching with
    oneOneMatching :=
      matching.oneOneMatching.insert (heap.hash std) (heap.hash std) base revision }

/-- Matched base nodes. -/
def lefts (matching : TwoWayMatching) : List NodeRef :=
  matching.oneOneMatching.map BiEntry.left

/-- Matched revision nodes. -/
def rights (matching : TwoWayMatching) : List NodeRef :=
  matching.oneOneMatching.map BiEntry.right

/-- The places of the base nodes: left sides of pairs, then deleted lists. -/
def basePlaces (matching : TwoWayMatching) : List NodeRef :=
  matching.lefts ++ matching.possiblyDeleted.collect

/-- The places of the revision nodes: right sides of pairs, then added lists. -/
def revisionPlaces (matching : TwoWayMatching) : List NodeRef :=
  matching.rights ++ matching.possiblyAdded.collect

/-- Filing a base node gives it a place and moves no other. -/
theorem basePlaces_addUnmatchedNode (heap : Heap) (matching : TwoWayMatching) (ref : NodeRef) :
    (matching.addUnmatchedNode heap ref true).basePlaces.Perm (ref :: matching.basePlaces) := by
  have filed := KindMap.collect_push matching.possiblyDeleted (heap ref).kind ref
  exact (filed.append_left matching.lefts).trans List.perm_middle

/-- Filing a revision node gives it a place and moves no other. -/
theorem revisionPlaces_addUnmatchedNode (heap : Heap) (matching : TwoWayMatching)
    (ref : NodeRef) :
    (matching.addUnmatchedNode heap ref false).revisionPlaces.Perm
      (ref :: matching.revisionPlaces) := by
  have filed := KindMap.collect_push matching.possiblyAdded (heap ref).kind ref
  exact (filed.append_left matching.rights).trans List.perm_middle

section Insertion

variable {std : StdHash} {heap : Heap} {matching : TwoWayMatching} {base revision : NodeRef}
  (baseFresh : matching.oneOneMatching.leftFind (heap.hash std) base = none)
  (revisionFresh : matching.oneOneMatching.rightFind (heap.hash std) revision = none)

include baseFresh revisionFresh

/-- Matching two unmatched nodes gives the base node a place and moves no other. -/
theorem basePlaces_insertPair :
    (matching.insertPair std heap base revision).basePlaces.Perm
      (base :: matching.basePlaces) := by
  simp only [basePlaces, lefts, insertPair, HashBiMap.insert_fresh baseFresh revisionFresh,
    List.map_append, List.map_cons, List.map_nil, List.append_assoc, List.singleton_append]
  exact List.perm_middle

/-- Matching two unmatched nodes gives the revision node a place and moves no other. -/
theorem revisionPlaces_insertPair :
    (matching.insertPair std heap base revision).revisionPlaces.Perm
      (revision :: matching.revisionPlaces) := by
  simp only [revisionPlaces, rights, insertPair, HashBiMap.insert_fresh baseFresh revisionFresh,
    List.map_append, List.map_cons, List.map_nil, List.append_assoc, List.singleton_append]
  exact List.perm_middle

end Insertion

/-- Every node of `baseNodes` and of `revisionNodes` is in exactly one place of
the matching, pairs are of one kind, and lists hold nodes of their own kind.
Nodes of one graph are told apart by their hashes, and pairs are filed under
them. -/
structure Partition (std : StdHash) (heap : Heap) (matching : TwoWayMatching)
    (baseNodes revisionNodes : List NodeRef) : Prop where
  base_places : matching.basePlaces.Perm baseNodes
  revision_places : matching.revisionPlaces.Perm revisionNodes
  base_distinct : (baseNodes.map (heap.hash std)).Nodup
  revision_distinct : (revisionNodes.map (heap.hash std)).Nodup
  filed : matching.oneOneMatching.Filed (heap.hash std) (heap.hash std)
  same_kind : ∀ entry ∈ matching.oneOneMatching, (heap entry.left).kind = (heap entry.right).kind
  deleted_kind : ∀ kind, ∀ ref ∈ matching.possiblyDeleted kind, (heap ref).kind = kind
  added_kind : ∀ kind, ∀ ref ∈ matching.possiblyAdded kind, (heap ref).kind = kind

/-- A partition can be checked entry by entry and kind by kind. -/
theorem partition_iff {std : StdHash} {heap : Heap} {matching : TwoWayMatching}
    {baseNodes revisionNodes : List NodeRef} :
    matching.Partition std heap baseNodes revisionNodes ↔
      (matching.basePlaces.Perm baseNodes ∧ matching.revisionPlaces.Perm revisionNodes) ∧
      ((baseNodes.map (heap.hash std)).Nodup ∧ (revisionNodes.map (heap.hash std)).Nodup) ∧
      (matching.oneOneMatching.Filed (heap.hash std) (heap.hash std) ∧
        ∀ entry ∈ matching.oneOneMatching,
          (heap entry.left).kind = (heap entry.right).kind) ∧
      ∀ kind ∈ NodeKind.all,
        (∀ ref ∈ matching.possiblyDeleted kind, (heap ref).kind = kind) ∧
          ∀ ref ∈ matching.possiblyAdded kind, (heap ref).kind = kind := by
  constructor
  · intro partition
    exact ⟨⟨partition.base_places, partition.revision_places⟩,
      ⟨partition.base_distinct, partition.revision_distinct⟩,
      ⟨partition.filed, partition.same_kind⟩,
      fun kind _ => ⟨partition.deleted_kind kind, partition.added_kind kind⟩⟩
  · rintro ⟨⟨base, revision⟩, ⟨baseDistinct, revisionDistinct⟩, ⟨filed, kinds⟩, lists⟩
    exact ⟨base, revision, baseDistinct, revisionDistinct, filed, kinds,
      fun kind => (lists kind kind.mem_all).1, fun kind => (lists kind kind.mem_all).2⟩

instance (std : StdHash) (heap : Heap) (matching : TwoWayMatching)
    (baseNodes revisionNodes : List NodeRef) :
    Decidable (matching.Partition std heap baseNodes revisionNodes) :=
  decidable_of_iff _ partition_iff.symm

/-- A partition leaves a table in which unmodified nodes are found under their own
entries. -/
theorem Partition.exact {std : StdHash} {heap : Heap} {matching : TwoWayMatching}
    {baseNodes revisionNodes : List NodeRef}
    (partition : matching.Partition std heap baseNodes revisionNodes) :
    matching.oneOneMatching.Exact (heap.hash std) (heap.hash std) (· ∈ baseNodes)
      (· ∈ revisionNodes) := by
  have lefts : matching.lefts.Nodup := by
    have places := partition.base_places.nodup_iff.mpr (List.Nodup.of_map _ partition.base_distinct)
    exact (List.nodup_append.mp places).1
  have rights : matching.rights.Nodup := by
    have places := partition.revision_places.nodup_iff.mpr
      (List.Nodup.of_map _ partition.revision_distinct)
    exact (List.nodup_append.mp places).1
  have baseNode : ∀ entry ∈ matching.oneOneMatching, entry.left ∈ baseNodes := fun entry member =>
    partition.base_places.subset (List.mem_append_left _ (List.mem_map_of_mem member))
  have revisionNode : ∀ entry ∈ matching.oneOneMatching, entry.right ∈ revisionNodes :=
    fun entry member =>
      partition.revision_places.subset (List.mem_append_left _ (List.mem_map_of_mem member))
  refine ⟨fun entry member => (partition.filed entry member).1,
    fun entry member => (partition.filed entry member).2, ?_, ?_, ?_, ?_⟩
  · intro entry member key inside same
    rw [(partition.filed entry member).1] at same
    exact List.inj_on_of_nodup_map partition.base_distinct inside (baseNode entry member) same
  · intro entry member key inside same
    rw [(partition.filed entry member).2] at same
    exact List.inj_on_of_nodup_map partition.revision_distinct inside
      (revisionNode entry member) same
  · exact fun entry member other otherMember =>
      List.inj_on_of_nodup_map lefts member otherMember
  · exact fun entry member other otherMember =>
      List.inj_on_of_nodup_map rights member otherMember

end TwoWayMatching

end MergeBot
