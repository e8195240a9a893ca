import Mathlib.Data.List.Sort
import MergeBot.Foundation.Placement
import MergeBot.Model.TwoWayMatching

/-!
# Merging three graphs

`mergeSemanticNode` merges a base node with its matches on both sides, in place:
the base node takes the merged texts and, for a composite node, the merged list
of children. `directMergeChildren` computes that list in the order of one side:
first the children of that side, those matched to base replaced by their merged
base nodes, then the nodes the other side added, each placed beside its
neighbours by `insertAdded`.

The textual merge of three strings is a parameter. The recursion over the trees
is bounded by fuel; `none` means that it ran out.
-/

namespace MergeBot

open Foundation

/-- Whose order the merged children follow. -/
inductive OrderInfavour
  | ours
  | theirs
deriving DecidableEq, Repr, Inhabited

/-- The merger of three graphs, after the matching. -/
structure GraphMerger where
  std : StdHash
  /-- The textual merge of ours, base and theirs, with the labels of the first,
  second and third side. -/
  gitMergeTextual : String → String → String → String → String → String → String
  ourSideId : String := ""
  baseSideId : String := ""
  theirSideId : String := ""
  ourMatching : TwoWayMatching := {}
  theirMatching : TwoWayMatching := {}
  orderInFavour : OrderInfavour := .ours

namespace GraphMerger

/-! ## Unions of string vectors -/

/-- The last index of each item of a vector. -/
def fences (items : List String) : String → Option Nat :=
  items.zipIdx.foldl (fun table entry => Function.update table entry.1 (some entry.2))
    fun _ => none

/-- The variables of the loop over one vector. -/
structure UnionState where
  ret : List String
  tmpList : List String := []
  insertPos : Nat := 0
deriving DecidableEq, Repr

/-- One item: collect it or, at a fence, insert what has been collected. -/
def unionItem (fence : String → Option Nat) (state : UnionState) (item : String) : UnionState :=
  match fence item with
  | some index =>
      { ret := state.ret.take state.insertPos ++ state.tmpList ++ state.ret.drop state.insertPos
        tmpList := []
        insertPos := index + 1 }
  | none => { state with tmpList := state.tmpList ++ [item] }

/-- One vector; what is left over is appended. -/
def unionVector (fence : String → Option Nat) (state : UnionState) (items : List String) :
    UnionState :=
  let last := items.foldl (unionItem fence) { state with tmpList := [] }
  { last with ret := last.ret ++ last.tmpList }

/-- Keep the first of equal items. -/
def keepFirst : List String → List String → List String
  | _, [] => []
  | seen, item :: rest =>
      if item ∈ seen then keepFirst seen rest else item :: keepFirst (item :: seen) rest

/-- The union of three vectors in the order of the first. -/
def mergeStrVecByUnion (v1 v2 v3 : List String) : List String :=
  keepFirst [] ([v2, v3].foldl (unionVector (fences v1)) { ret := v1 }).ret

variable (M : GraphMerger)

/-! ## Texts and records -/

/-- The text of the side that changed, or the textual merge when both did. -/
def mergeText (ourText baseText theirText : String) : String :=
  if ourText = baseText then theirText
  else if theirText = baseText then ourText
  else M.gitMergeTextual ourText baseText theirText M.baseSideId M.theirSideId M.ourSideId

/-- The signature parts of functions, unless a side left the signature alone. -/
def mergeFunction (our base their : SemanticNode) : SemanticNode :=
  if base.originalSignature = our.originalSignature ∨
      base.originalSignature = their.originalSignature then
    { base with sigUnchanged := true }
  else
    match base.kind with
    | .funcSpecialMember =>
        { base with
          templateParameterList := M.mergeText our.templateParameterList
            base.templateParameterList their.templateParameterList
          defType :=
            if base.body ≠ "" then .plain
            else if our.defType = base.defType then their.defType
            else if their.defType = base.defType then our.defType
            else .plain
          attrs := M.mergeText our.attrs base.attrs their.attrs
          beforeFuncName := M.mergeText our.beforeFuncName base.beforeFuncName
            their.beforeFuncName
          parameterList := mergeStrVecByUnion our.parameterList base.parameterList
            their.parameterList
          initList := mergeStrVecByUnion our.initList base.initList their.initList }
    | _ =>
        -- functions and conversion operators
        { base with
          templateParameterList := M.mergeText our.templateParameterList
            base.templateParameterList their.templateParameterList
          attrs := M.mergeText our.attrs base.attrs their.attrs
          beforeFuncName := M.mergeText our.beforeFuncName base.beforeFuncName
            their.beforeFuncName
          parameterList := mergeStrVecByUnion our.parameterList base.parameterList
            their.parameterList
          afterParameterList := M.mergeText our.afterParameterList base.afterParameterList
            their.afterParameterList }

/-- The texts of a terminal node, its signature aside. -/
def mergeTerminalTexts (our base their : SemanticNode) : SemanticNode :=
  { base with
    body := M.mergeText our.body base.body their.body
    followingEOL := our.followingEOL
    comment := M.mergeText our.comment base.comment their.comment
    qualifiedName := M.mergeText our.qualifiedName base.qualifiedName their.qualifiedName
    accessSpecifier := our.accessSpecifier }

/-- The signature parts, where the class of the node has some. -/
def mergeSignatureParts (our base their : SemanticNode) : SemanticNode :=
  if base.kind.isFunction then M.mergeFunction our base their else base

/-- The merged record of a terminal node. -/
def mergeTerminal (our base their : SemanticNode) : SemanticNode :=
  { M.mergeSignatureParts our (M.mergeTerminalTexts our base their) their with
    originalSignature := M.mergeText our.originalSignature base.originalSignature
      their.originalSignature }

/-- The guards and front declarations of translation units. -/
def mergeTranslationUnit (our base their : SemanticNode) : SemanticNode :=
  if base.kind = .translationUnit ∧ our.kind = .translationUnit ∧
      their.kind = .translationUnit then
    { base with
      traditionGuard := our.traditionGuard
      headerGuard := our.headerGuard
      frontDecls := mergeStrVecByUnion our.frontDecls base.frontDecls their.frontDecls }
  else base

/-- The merged record of a composite node, its children aside. -/
def mergeComposite (our base their : SemanticNode) : SemanticNode :=
  { mergeTranslationUnit our base their with
    followingEOL := our.followingEOL
    accessSpecifier := our.accessSpecifier
    comment := M.mergeText our.comment base.comment their.comment
    originalSignature := M.mergeText our.originalSignature base.originalSignature
      their.originalSignature
    qualifiedName := M.mergeText our.qualifiedName base.qualifiedName their.qualifiedName
    beforeFirstChildEOL := their.beforeFirstChildEOL }

/-! ## Added nodes -/

section Added

variable (heap : Heap)

/-- The order of IDs. -/
def ByID (first second : NodeRef) : Prop :=
  (heap first).id ≤ (heap second).id

instance : DecidableRel (ByID heap) :=
  fun first second => inferInstanceAs (Decidable ((heap first).id ≤ (heap second).id))

instance : IsTrans NodeRef (ByID heap) :=
  ⟨fun _ _ _ => Int.le_trans⟩

instance : Std.Total (ByID heap) :=
  ⟨fun first second => Int.le_total (heap first).id (heap second).id⟩

/-- The nodes added under the match of a base node, by ID. -/
def filterAddedNodes (base : NodeRef) (matching : TwoWayMatching) : List NodeRef :=
  let addedNodes := matching.addedOrder.1.flatMap matching.possiblyAdded
  let filteredAdded :=
    match matching.oneOneMatching.leftFind (heap.hash M.std) base with
    | some entry =>
        addedNodes.filter fun added =>
          (heap added).parent.any fun parent =>
            heap.hash M.std parent = heap.hash M.std entry.right
    | none => []
  filteredAdded.insertionSort (ByID heap)

/-- Whether the parent of a node has the identity of the match of a base node. -/
def AddedUnder (base : NodeRef) (matching : TwoWayMatching) (added : NodeRef) : Prop :=
  ∃ entry, matching.oneOneMatching.leftFind (heap.hash M.std) base = some entry ∧
    ∃ parent, (heap added).parent = some parent ∧
      heap.hash M.std parent = heap.hash M.std entry.right

theorem mem_filterAddedNodes {base : NodeRef} {matching : TwoWayMatching} {added : NodeRef} :
    added ∈ M.filterAddedNodes heap base matching ↔
      added ∈ matching.possiblyAdded.collect ∧ M.AddedUnder heap base matching added := by
  have walked : added ∈ matching.addedOrder.1.flatMap matching.possiblyAdded ↔
      added ∈ matching.possiblyAdded.collect :=
    (matching.addedOrder.2.flatMap_right matching.possiblyAdded).mem_iff
  simp only [filterAddedNodes, AddedUnder, List.mem_insertionSort]
  cases matching.oneOneMatching.leftFind (heap.hash M.std) base with
  | none => simp
  | some entry =>
      simp only [List.mem_filter, walked, Option.any_eq_true, decide_eq_true_eq,
        Option.some.injEq, exists_eq_left']

/-- A node is listed as often as it is recorded. -/
theorem nodup_filterAddedNodes {base : NodeRef} {matching : TwoWayMatching}
    (once : matching.possiblyAdded.collect.Nodup) :
    (M.filterAddedNodes heap base matching).Nodup := by
  have walked : (matching.addedOrder.1.flatMap matching.possiblyAdded).Nodup :=
    ((matching.addedOrder.2.flatMap_right matching.possiblyAdded).nodup_iff).mpr once
  rw [filterAddedNodes, (List.perm_insertionSort (ByID heap) _).nodup_iff]
  cases matching.oneOneMatching.leftFind (heap.hash M.std) base with
  | none => exact List.nodup_nil
  | some entry => exact walked.filter _

/-- The nodes are listed by ID. -/
theorem pairwise_filterAddedNodes (base : NodeRef) (matching : TwoWayMatching) :
    (M.filterAddedNodes heap base matching).Pairwise (ByID heap) :=
  List.pairwise_insertionSort (ByID heap) _

/-- The nodes added by the first side that the second side did not add. -/
def removeDuplicates (ourAdded theirAdded : List NodeRef) : List NodeRef :=
  theirAdded.foldl (fun kept other =>
    kept.filter fun added => heap.hash M.std other ≠ heap.hash M.std added) ourAdded

/-- What is kept, whatever the order of the comparisons. -/
theorem removeDuplicates_eq (ourAdded theirAdded : List NodeRef) :
    M.removeDuplicates heap ourAdded theirAdded =
      ourAdded.filter fun added =>
        theirAdded.all fun other => heap.hash M.std other ≠ heap.hash M.std added := by
  induction theirAdded generalizing ourAdded with
  | nil => simp [removeDuplicates]
  | cons other rest ih =>
      have first := ih (ourAdded.filter fun added =>
        heap.hash M.std other ≠ heap.hash M.std added)
      simp only [removeDuplicates, List.foldl_cons] at first ⊢
      rw [first, List.filter_filter]
      exact List.filter_congr fun added _ => by simp [Bool.and_comm]

/-- Whether a sibling is no anchor for its neighbours. -/
def isOrphanComment (ref : NodeRef) : Bool :=
  (heap ref).kind = .orphanComment

/-- A node between its nearest siblings that are not orphan comments. -/
def getNeighbors (ref : NodeRef) : Option (Option NodeRef × NodeRef × Option NodeRef) :=
  match (heap ref).parent with
  | none => none
  | some parent =>
      let children := (heap parent).children
      match Placement.position (heap.hash M.std) children ref with
      | none => none
      | some pos =>
          some (Placement.previousOf (isOrphanComment heap) (children.take pos), ref,
            Placement.nextOf (isOrphanComment heap) (children.drop (pos + 1)))

/-- The node in the middle is the node itself. -/
theorem getNeighbors_current {ref curNode : NodeRef} {prevSibling nextSibling : Option NodeRef}
    (found : M.getNeighbors heap ref = some (prevSibling, curNode, nextSibling)) :
    curNode = ref := by
  unfold getNeighbors at found
  split at found
  · cases found
  · simp only at found
    split at found
    · cases found
    · cases found
      rfl

/-- Merge one added node into a list of children. -/
def insertAdded (mergedChildren : List NodeRef) (added : NodeRef) : List NodeRef :=
  match M.getNeighbors heap added with
  | none => mergedChildren ++ [added]
  | some (prevSibling, curNode, nextSibling) =>
      Placement.insertNear (heap.hash M.std) prevSibling nextSibling curNode mergedChildren

/-- One added node more. -/
theorem insertAdded_perm (mergedChildren : List NodeRef) (added : NodeRef) :
    (M.insertAdded heap mergedChildren added).Perm (added :: mergedChildren) := by
  unfold insertAdded
  split
  · exact List.perm_append_singleton added mergedChildren
  · rename_i found
    rw [M.getNeighbors_current heap found]
    exact Placement.insertNear_perm _ _ _ _ _

/-- The other nodes stay in their order. -/
theorem sublist_insertAdded (mergedChildren : List NodeRef) (added : NodeRef) :
    mergedChildren.Sublist (M.insertAdded heap mergedChildren added) := by
  unfold insertAdded
  split
  · exact List.sublist_append_left mergedChildren [added]
  · exact Placement.sublist_insertNear _ _ _ _ _

end Added

/-! ## The recursion -/

section Children

variable (mergeNode : Heap → NodeRef → Option (Heap × Option NodeRef))

/-- The merged base node of a matched child, if it is kept, or the child itself. -/
def mergeChild (matching : TwoWayMatching) (heap : Heap) (child : NodeRef) :
    Option (Heap × Option NodeRef) :=
  match matching.oneOneMatching.rightFind (heap.hash M.std) child with
  | none => some (heap, some child)
  | some entry => do
      let (next, merged) ← mergeNode heap entry.left
      match merged with
      | none => return (next, none)
      | some baseChild =>
          return (next.update baseChild
            { next baseChild with followingEOL := (next child).followingEOL }, some baseChild)

/-- The first phase: the children of the side in favour, in their order. -/
def mergeOrderedChildren (matching : TwoWayMatching) :
    Heap → List NodeRef → Option (Heap × List (Option NodeRef))
  | heap, [] => some (heap, [])
  | heap, child :: rest => do
      let (next, merged) ← M.mergeChild mergeNode matching heap child
      let (last, others) ← mergeOrderedChildren matching next rest
      return (last, merged :: others)

/-- The second phase in our order: the nodes that only their side added. -/
def theirsAdded (heap : Heap) (base : NodeRef) : List NodeRef :=
  M.removeDuplicates heap (M.filterAddedNodes heap base M.theirMatching)
    (M.filterAddedNodes heap base M.ourMatching)

/-- The second phase in their order: the nodes that only our side added. -/
def oursAdded (heap : Heap) (base : NodeRef) : List NodeRef :=
  M.removeDuplicates heap (M.filterAddedNodes heap base M.ourMatching)
    (M.filterAddedNodes heap base M.theirMatching)

/-- Merge the children in the order of our side. -/
def directMergeChildrenInOurOrder (heap : Heap) (our base _their : NodeRef) :
    Option (Heap × List NodeRef) := do
  let (next, merged) ←
    M.mergeOrderedChildren mergeNode M.ourMatching heap (heap our).children
  return (next, (M.theirsAdded next base).foldl (M.insertAdded next) merged.reduceOption)

/-- Merge the children in the order of their side. -/
def directMergeChildrenInTheirOrder (heap : Heap) (_our base their : NodeRef) :
    Option (Heap × List NodeRef) := do
  let (next, merged) ←
    M.mergeOrderedChildren mergeNode M.theirMatching heap (heap their).children
  return (next, (M.oursAdded next base).foldl (M.insertAdded next) merged.reduceOption)

/-- Merge the children in the order in favour. -/
def directMergeChildren (heap : Heap) (our base their : NodeRef) :
    Option (Heap × List NodeRef) :=
  match M.orderInFavour with
  | .ours => M.directMergeChildrenInOurOrder mergeNode heap our base their
  | .theirs => M.directMergeChildrenInTheirOrder mergeNode heap our base their

end Children

/-- Merge a base node with its matches; without a match on a side it is deleted. -/
def mergeSemanticNode : Nat → Heap → NodeRef → Option (Heap × Option NodeRef)
  | 0, _, _ => none
  | fuel + 1, heap, base =>
      match M.ourMatching.oneOneMatching.leftFind (heap.hash M.std) base,
          M.theirMatching.oneOneMatching.leftFind (heap.hash M.std) base with
      | some ourEntry, some theirEntry =>
          let our := ourEntry.right
          let their := theirEntry.right
          if (heap base).kind.isTerminal then
            some (heap.update base (M.mergeTerminal (heap our) (heap base) (heap their)),
              some base)
          else do
            let start := heap.update base (M.mergeComposite (heap our) (heap base) (heap their))
            let (next, children) ←
              M.directMergeChildren (mergeSemanticNode fuel) start our base their
            return (next.update base { next base with children := children }, some base)
      | _, _ => some (heap, none)

/-- The table of given pairs, filed under the present identities. -/
def tableOf (std : StdHash) (heap : Heap) (pairs : List (NodeRef × NodeRef)) : BiMap :=
  pairs.map fun pair => ⟨pair.1, pair.2, heap.hash std pair.1, heap.hash std pair.2⟩

end GraphMerger

end MergeBot
