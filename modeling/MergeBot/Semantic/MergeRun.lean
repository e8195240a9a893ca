import MergeBot.Foundation.Forest
import MergeBot.Semantic.MergedRecord

/-!
# What a merge in our order does

`Prepared` is the state in which matching leaves the three graphs: our nodes form
a forest, and the tables find the entries of unmodified nodes. From there a merge
visits the base nodes matched below our node, once each: `Pristine` says that the
nodes still to be visited are unmodified, `Within` that only base nodes matched in
the visited subtree change. `mergeSemanticNode_run` puts it together: with fuel
for the height of our tree the merge returns, the base node is kept exactly when
it has a match in theirs, and every visited base node is `Finished`, which states
its merged record and the order of its children.
-/

namespace MergeBot

open Foundation

namespace GraphMerger

/-- Whether a child is below a node of our graph. -/
def OurChild (origin : Heap) (Ours : NodeRef → Prop) (parent child : NodeRef) : Prop :=
  Ours parent ∧ child ∈ (origin parent).children

/-- Nodes that a merge in our order leaves alone: no base node of our table. -/
def Unwritten (M : GraphMerger) (ref : NodeRef) : Prop :=
  ∀ entry ∈ M.ourMatching.oneOneMatching, entry.left ≠ ref

instance (M : GraphMerger) (ref : NodeRef) : Decidable (M.Unwritten ref) :=
  inferInstanceAs (Decidable (∀ entry ∈ M.ourMatching.oneOneMatching, entry.left ≠ ref))

/-- The graphs and tables after matching. `Ours` are nodes of our graph, and
`rank` bounds the height of their subtrees. -/
structure Prepared (M : GraphMerger) (origin : Heap) (Ours : NodeRef → Prop)
    (rank : NodeRef → Nat) : Prop where
  closed : ∀ parent child, OurChild origin Ours parent child → Ours child
  forest : Forest (OurChild origin Ours) rank
  siblings : ∀ parent, Ours parent → (origin parent).children.Nodup
  our_exact : M.ourMatching.oneOneMatching.Exact (origin.hash M.std) (origin.hash M.std)
    (fun base => ∃ entry ∈ M.ourMatching.oneOneMatching, entry.left = base ∧ Ours entry.right) Ours
  their_exact : M.theirMatching.oneOneMatching.Exact (origin.hash M.std) (origin.hash M.std)
    (fun base => ∃ entry ∈ M.ourMatching.oneOneMatching, entry.left = base ∧ Ours entry.right)
    fun _ => False
  ours_apart : ∀ our, Ours our → M.Unwritten our
  theirs_apart : ∀ their ∈ M.theirMatching.oneOneMatching, M.Unwritten their.right

/-- Matchings that partition the nodes of disjoint graphs are a state to start from, when our
nodes form trees. Our trees may have nodes outside our graph, as access specifiers are, if
none of them has the identity of a matched node. -/
theorem Prepared.of_partition_outside {M : GraphMerger} {origin : Heap} {rank : NodeRef → Nat}
    {baseNodes ourNodes theirNodes : List NodeRef} (outside : List NodeRef)
    (ours : M.ourMatching.Partition M.std origin baseNodes ourNodes)
    (theirs : M.theirMatching.Partition M.std origin baseNodes theirNodes)
    (apart : ∀ base ∈ baseNodes, base ∉ ourNodes ++ outside ∧ base ∉ theirNodes)
    (distinct : ∀ other ∈ outside, ∀ our ∈ ourNodes,
      origin.hash M.std other ≠ origin.hash M.std our)
    (down : ∀ parent ∈ ourNodes ++ outside, ∀ child ∈ (origin parent).children,
      child ∈ ourNodes ++ outside ∧ rank child < rank parent)
    (unique : ∀ first ∈ ourNodes ++ outside, ∀ second ∈ ourNodes ++ outside,
      ∀ child ∈ (origin first).children, child ∈ (origin second).children → first = second)
    (siblings : ∀ parent ∈ ourNodes ++ outside, (origin parent).children.Nodup) :
    M.Prepared origin (· ∈ ourNodes ++ outside) rank := by
  have baseNode : ∀ entry ∈ M.ourMatching.oneOneMatching, entry.left ∈ baseNodes :=
    fun entry member =>
      ours.base_places.subset (List.mem_append_left _ (List.mem_map_of_mem member))
  have ourNode : ∀ entry ∈ M.ourMatching.oneOneMatching, entry.right ∈ ourNodes :=
    fun entry member =>
      ours.revision_places.subset (List.mem_append_left _ (List.mem_map_of_mem member))
  have merged : ∀ base, (∃ entry ∈ M.ourMatching.oneOneMatching, entry.left = base ∧
      entry.right ∈ ourNodes ++ outside) → base ∈ baseNodes := by
    rintro base ⟨entry, member, rfl, -⟩
    exact baseNode entry member
  have exact_ := ours.exact.mono merged fun _ inside => inside
  exact {
    closed := fun parent child step => (down parent step.1 child step.2).1
    forest := {
      parent_unique := fun first second child step step' =>
        unique first step.1 second step'.1 child step.2 step'.2
      rank_lt := fun parent child step => (down parent step.1 child step.2).2 }
    siblings := siblings
    our_exact := { exact_ with
      own_right := fun entry member our inside same => by
        rcases List.mem_append.mp inside with inside | inside
        · exact exact_.own_right entry member our inside same
        · rw [exact_.filed_right entry member] at same
          exact absurd same (distinct our inside entry.right (ourNode entry member)) }
    their_exact := theirs.exact.mono merged fun _ absent => absent.elim
    ours_apart := fun our isOurs entry member same =>
      (apart entry.left (baseNode entry member)).1 (same ▸ isOurs)
    theirs_apart := fun their theirMember entry member same =>
      (apart entry.left (baseNode entry member)).2 (same ▸ theirs.revision_places.subset
        (List.mem_append_left _ (List.mem_map_of_mem theirMember))) }

/-- The same without nodes outside our graph. -/
theorem Prepared.of_partition {M : GraphMerger} {origin : Heap} {rank : NodeRef → Nat}
    {baseNodes ourNodes theirNodes : List NodeRef}
    (ours : M.ourMatching.Partition M.std origin baseNodes ourNodes)
    (theirs : M.theirMatching.Partition M.std origin baseNodes theirNodes)
    (apart : ∀ base ∈ baseNodes, base ∉ ourNodes ∧ base ∉ theirNodes)
    (down : ∀ parent ∈ ourNodes, ∀ child ∈ (origin parent).children,
      child ∈ ourNodes ∧ rank child < rank parent)
    (unique : ∀ first ∈ ourNodes, ∀ second ∈ ourNodes, ∀ child ∈ (origin first).children,
      child ∈ (origin second).children → first = second)
    (siblings : ∀ parent ∈ ourNodes, (origin parent).children.Nodup) :
    M.Prepared origin (· ∈ ourNodes) rank := by
  rw [← List.append_nil ourNodes] at apart down unique siblings ⊢
  exact .of_partition_outside [] ours theirs apart (by simp) down unique siblings

/-- The nodes recorded as added are in the revisions: neither they nor their
parents are base nodes. -/
def RecordedApart (M : GraphMerger) (origin : Heap) : Prop :=
  ∀ added, added ∈ M.ourMatching.possiblyAdded.collect ∨
      added ∈ M.theirMatching.possiblyAdded.collect →
    M.Unwritten added ∧ ∀ parent ∈ (origin added).parent, M.Unwritten parent

/-- Recorded nodes can be checked list by list. -/
theorem recordedApart_iff {M : GraphMerger} {origin : Heap} :
    M.RecordedApart origin ↔
      ∀ added ∈ M.ourMatching.possiblyAdded.collect ++ M.theirMatching.possiblyAdded.collect,
        M.Unwritten added ∧ ∀ parent ∈ (origin added).parent, M.Unwritten parent := by
  simp only [RecordedApart, List.mem_append]

instance (M : GraphMerger) (origin : Heap) : Decidable (M.RecordedApart origin) :=
  decidable_of_iff _ recordedApart_iff.symm

/-- The base nodes matched to our nodes of a region are as they were, and so are
all nodes that no entry of our table has on the left. -/
def Pristine (M : GraphMerger) (origin heap : Heap) (Region : NodeRef → Prop) : Prop :=
  ∀ ref, heap ref ≠ origin ref →
    ∃ entry ∈ M.ourMatching.oneOneMatching, entry.left = ref ∧ ¬ Region entry.right

/-- Only base nodes matched to our nodes of a region have changed. -/
def Within (M : GraphMerger) (heap heap' : Heap) (Region : NodeRef → Prop) : Prop :=
  ∀ ref, heap' ref ≠ heap ref →
    ∃ entry ∈ M.ourMatching.oneOneMatching, entry.left = ref ∧ Region entry.right

variable {M : GraphMerger} {origin heap heap' : Heap} {Region Region' : NodeRef → Prop}

theorem Within.refl : M.Within heap heap Region :=
  fun _ changed => absurd rfl changed

/-- Changes one after the other. -/
theorem Within.trans {last : Heap} (first : M.Within heap heap' Region)
    (second : M.Within heap' last Region) : M.Within heap last Region := by
  intro ref changed
  by_cases same : heap' ref = heap ref
  · exact second ref (same ▸ changed)
  · exact first ref same

theorem Within.mono (within : M.Within heap heap' Region)
    (larger : ∀ our, Region our → Region' our) : M.Within heap heap' Region' := by
  intro ref changed
  obtain ⟨entry, member, left, inside⟩ := within ref changed
  exact ⟨entry, member, left, larger _ inside⟩

/-- Overwriting a matched base node. -/
theorem Within.update {entry : BiEntry NodeRef NodeRef UInt64} {node : SemanticNode}
    (member : entry ∈ M.ourMatching.oneOneMatching) (inside : Region entry.right) :
    M.Within heap (heap.update entry.left node) Region := by
  intro ref changed
  by_cases here : ref = entry.left
  · exact ⟨entry, member, here.symm, inside⟩
  · exact absurd (Heap.update_other here) changed

/-- Nothing has changed yet. -/
theorem Pristine.refl : M.Pristine origin origin Region :=
  fun _ changed => absurd rfl changed

theorem Pristine.mono (pristine : M.Pristine origin heap Region)
    (smaller : ∀ our, Region' our → Region our) : M.Pristine origin heap Region' := by
  intro ref changed
  obtain ⟨entry, member, left, outside⟩ := pristine ref changed
  exact ⟨entry, member, left, fun inside => outside (smaller _ inside)⟩

/-- Changes elsewhere leave a region as it is. -/
theorem Pristine.step (pristine : M.Pristine origin heap Region)
    (within : M.Within heap heap' Region') (apart : ∀ our, Region' our → ¬ Region our) :
    M.Pristine origin heap' Region := by
  intro ref changed
  by_cases same : heap' ref = heap ref
  · exact pristine ref (same ▸ changed)
  · obtain ⟨entry, member, left, inside⟩ := within ref same
    exact ⟨entry, member, left, apart _ inside⟩

/-- Nodes that no merge writes are as they were. -/
theorem Pristine.unwritten (pristine : M.Pristine origin heap Region) {ref : NodeRef}
    (unwritten : M.Unwritten ref) : heap ref = origin ref := by
  by_contra changed
  obtain ⟨entry, member, left, -⟩ := pristine ref changed
  exact unwritten entry member left

/-- Nodes that no merge writes do not change. -/
theorem Within.unwritten (within : M.Within heap heap' Region) {ref : NodeRef}
    (unwritten : M.Unwritten ref) : heap' ref = heap ref := by
  by_contra changed
  obtain ⟨entry, member, left, -⟩ := within ref changed
  exact unwritten entry member left

namespace Prepared

variable {Ours : NodeRef → Prop} {rank : NodeRef → Nat} (prepared : M.Prepared origin Ours rank)
  (pristine : M.Pristine origin heap Region)

include prepared pristine

/-- Base nodes that are still to be visited are as they were. -/
theorem base_unmodified {entry : BiEntry NodeRef NodeRef UInt64}
    (member : entry ∈ M.ourMatching.oneOneMatching) (inside : Region entry.right) :
    heap entry.left = origin entry.left := by
  by_contra changed
  obtain ⟨other, inTable, left, outside⟩ := pristine entry.left changed
  rw [prepared.our_exact.unique_left other inTable entry member left] at outside
  exact outside inside

/-- An our node is found under its own entry. -/
theorem rightFind_iff {our : NodeRef} (isOurs : Ours our)
    {entry : BiEntry NodeRef NodeRef UInt64} :
    M.ourMatching.oneOneMatching.rightFind (heap.hash M.std) our = some entry ↔
      entry ∈ M.ourMatching.oneOneMatching ∧ entry.right = our :=
  prepared.our_exact.rightFind_iff isOurs
    (Heap.hash_congr (pristine.unwritten (prepared.ours_apart our isOurs)))

/-- An our node that is not found is not matched. -/
theorem rightFind_none {our : NodeRef} (isOurs : Ours our)
    (missed : M.ourMatching.oneOneMatching.rightFind (heap.hash M.std) our = none) :
    ∀ entry ∈ M.ourMatching.oneOneMatching, entry.right ≠ our := by
  intro entry member right
  have found := (prepared.rightFind_iff pristine isOurs).mpr ⟨member, right⟩
  rw [missed] at found
  cases found

/-- A base node that is still to be visited is found under its own entry of our table. -/
theorem our_leftFind {entry : BiEntry NodeRef NodeRef UInt64}
    (member : entry ∈ M.ourMatching.oneOneMatching) (isOurs : Ours entry.right)
    (inside : Region entry.right) :
    M.ourMatching.oneOneMatching.leftFind (heap.hash M.std) entry.left = some entry :=
  (prepared.our_exact.leftFind_iff ⟨entry, member, rfl, isOurs⟩
    (Heap.hash_congr (prepared.base_unmodified pristine member inside))).mpr ⟨member, rfl⟩

/-- A base node that is still to be visited is found under its own entry of their table. -/
theorem their_leftFind_iff {entry their : BiEntry NodeRef NodeRef UInt64}
    (member : entry ∈ M.ourMatching.oneOneMatching) (isOurs : Ours entry.right)
    (inside : Region entry.right) :
    M.theirMatching.oneOneMatching.leftFind (heap.hash M.std) entry.left = some their ↔
      their ∈ M.theirMatching.oneOneMatching ∧ their.left = entry.left :=
  prepared.their_exact.leftFind_iff ⟨entry, member, rfl, isOurs⟩
    (Heap.hash_congr (prepared.base_unmodified pristine member inside))

end Prepared

/-- What the tables find for a base node before the merge. -/
theorem Prepared.their_leftFind_origin {Ours : NodeRef → Prop} {rank : NodeRef → Nat}
    (prepared : M.Prepared origin Ours rank) {entry their : BiEntry NodeRef NodeRef UInt64}
    (member : entry ∈ M.ourMatching.oneOneMatching) (isOurs : Ours entry.right) :
    M.theirMatching.oneOneMatching.leftFind (origin.hash M.std) entry.left = some their ↔
      their ∈ M.theirMatching.oneOneMatching ∧ their.left = entry.left :=
  prepared.their_exact.leftFind_iff ⟨entry, member, rfl, isOurs⟩ rfl

/-! ## Outcomes -/

/-- What stands for a child of our node among the merged children: the node
itself if it is not matched to base, else its base node, if that is in theirs. -/
def outcome (M : GraphMerger) (origin : Heap) (child : NodeRef) : Option NodeRef :=
  match M.ourMatching.oneOneMatching.rightFind (origin.hash M.std) child with
  | none => some child
  | some entry =>
      (M.theirMatching.oneOneMatching.leftFind (origin.hash M.std) entry.left).map
        fun _ => entry.left

/-- Whether the merge of a node goes on to a child of our node: the node is a
composite matched on both sides. -/
def GoesOn (M : GraphMerger) (origin : Heap) (our child : NodeRef) : Prop :=
  child ∈ (origin our).children ∧ ∃ entry ∈ M.ourMatching.oneOneMatching, entry.right = our ∧
    (origin entry.left).kind.isTerminal = false ∧
      ∃ their ∈ M.theirMatching.oneOneMatching, their.left = entry.left

/-- The nodes of our graph that the merge of a node comes to. -/
abbrev Visited (M : GraphMerger) (origin : Heap) (root our : NodeRef) : Prop :=
  Relation.ReflTransGen (M.GoesOn origin) root our

/-- The final state of a base node matched on both sides: its merged record and,
for a composite, the children of our node that are kept, in their order, with
the nodes their side added. These are picked at a moment when the texts of the
base node are merged already. -/
structure Finished (M : GraphMerger) (origin heap : Heap)
    (entry their : BiEntry NodeRef NodeRef UInt64) : Prop where
  record : ∃ children eol, heap entry.left =
    { M.mergeRecord (origin entry.right) (origin entry.left) (origin their.right) with
      children := children
      followingEOL := eol }
  order : (origin entry.left).kind.isTerminal = false → ∃ moment : Heap,
    moment entry.left =
        M.mergeComposite (origin entry.right) (origin entry.left) (origin their.right) ∧
      (∀ ref, M.Unwritten ref → moment ref = origin ref) ∧
      (heap entry.left).children =
        (M.theirsAdded moment entry.left).foldl (M.insertAdded moment)
          ((origin entry.right).children.filterMap (M.outcome origin))

/-- All nodes that the merge of a node comes to are in their final state. -/
def AllFinished (M : GraphMerger) (origin heap : Heap) (root : NodeRef) : Prop :=
  ∀ entry ∈ M.ourMatching.oneOneMatching, M.Visited origin root entry.right →
    ∀ their ∈ M.theirMatching.oneOneMatching, their.left = entry.left →
      M.Finished origin heap entry their

/-- A node is finished as long as it stays the same. -/
theorem Finished.congr {entry their : BiEntry NodeRef NodeRef UInt64}
    (finished : M.Finished origin heap entry their)
    (same : heap' entry.left = heap entry.left) : M.Finished origin heap' entry their := by
  refine ⟨?_, ?_⟩
  · rw [same]
    exact finished.record
  · rw [same]
    exact finished.order

/-- Blank lines do not matter. -/
theorem Finished.setEOL {entry their : BiEntry NodeRef NodeRef UInt64}
    (finished : M.Finished origin heap entry their) (eol : Int) :
    M.Finished origin
      (heap.update entry.left { heap entry.left with followingEOL := eol }) entry their := by
  obtain ⟨children, previous, record⟩ := finished.record
  refine ⟨⟨children, eol, ?_⟩, ?_⟩
  · rw [Heap.update_self, record]
  · rw [Heap.update_self]
    exact finished.order

/-- A node that is not matched on both sides leads to no other. -/
theorem allFinished_of_unmatched {root : NodeRef}
    (unmatched : ∀ entry ∈ M.ourMatching.oneOneMatching, entry.right = root →
      ∀ their ∈ M.theirMatching.oneOneMatching, their.left ≠ entry.left) :
    M.AllFinished origin heap root := by
  intro entry member visited their theirMember same
  rcases Relation.ReflTransGen.cases_head visited with here | ⟨child, step, -⟩
  · exact absurd same (unmatched entry member here.symm their theirMember)
  · obtain ⟨-, rootEntry, rootMember, right, -, rootTheir, rootTheirMember, left⟩ := step
    exact absurd left (unmatched rootEntry rootMember right rootTheir rootTheirMember)

/-- The subtrees of some children of our node. -/
def BelowAny (origin : Heap) (Ours : NodeRef → Prop) (children : List NodeRef)
    (our : NodeRef) : Prop :=
  ∃ child ∈ children, Below (OurChild origin Ours) child our

namespace Prepared

variable {Ours : NodeRef → Prop} {rank : NodeRef → Nat} (prepared : M.Prepared origin Ours rank)

include prepared

/-- The merge stays in the subtree. -/
theorem visited_below {root our : NodeRef} (isOurs : Ours root)
    (visited : M.Visited origin root our) :
    Below (OurChild origin Ours) root our ∧ Ours our := by
  induction visited with
  | refl => exact ⟨.refl, isOurs⟩
  | tail _ step ih =>
      have child : OurChild origin Ours _ _ := ⟨ih.2, step.1⟩
      exact ⟨ih.1.tail child, prepared.closed _ _ child⟩

/-- Changes elsewhere leave a finished subtree finished. -/
theorem allFinished_within {root : NodeRef} (finished : M.AllFinished origin heap root)
    (within : M.Within heap heap' Region) (isOurs : Ours root)
    (apart : ∀ our, Below (OurChild origin Ours) root our → ¬ Region our) :
    M.AllFinished origin heap' root := by
  intro entry member visited their theirMember left
  refine (finished entry member visited their theirMember left).congr ?_
  by_contra changed
  obtain ⟨other, otherMember, sameLeft, inside⟩ := within entry.left changed
  rw [prepared.our_exact.unique_left other otherMember entry member sameLeft] at inside
  exact apart _ (prepared.visited_below isOurs visited).1 inside

end Prepared

/-- The merge of one base node, as far as its callers see it, for all nodes whose
rank is below a bound. -/
def NodeRuns (M : GraphMerger) (origin : Heap) (Ours : NodeRef → Prop) (rank : NodeRef → Nat)
    (mergeNode : Heap → NodeRef → Option (Heap × Option NodeRef)) (bound : Nat) : Prop :=
  ∀ entry ∈ M.ourMatching.oneOneMatching, Ours entry.right → rank entry.right < bound →
    ∀ heap, M.Pristine origin heap (Below (OurChild origin Ours) entry.right) →
      ∃ heap', mergeNode heap entry.left =
          some (heap', (M.theirMatching.oneOneMatching.leftFind (origin.hash M.std)
            entry.left).map fun _ => entry.left) ∧
        M.Within heap heap' (Below (OurChild origin Ours) entry.right) ∧
        M.AllFinished origin heap' entry.right

section Children

variable {Ours : NodeRef → Prop} {rank : NodeRef → Nat} (prepared : M.Prepared origin Ours rank)
  {mergeNode : Heap → NodeRef → Option (Heap × Option NodeRef)} {bound : Nat}
  (nodes : M.NodeRuns origin Ours rank mergeNode bound)

include prepared nodes

/-- One child in the first phase. -/
theorem mergeChild_run {child : NodeRef} (isOurs : Ours child) (low : rank child < bound)
    (pristine : M.Pristine origin heap (Below (OurChild origin Ours) child)) :
    ∃ heap', M.mergeChild mergeNode M.ourMatching heap child =
        some (heap', M.outcome origin child) ∧
      M.Within heap heap' (Below (OurChild origin Ours) child) ∧
      M.AllFinished origin heap' child := by
  have here : M.Pristine origin origin (Below (OurChild origin Ours) child) := .refl
  have lookups : M.ourMatching.oneOneMatching.rightFind (heap.hash M.std) child =
      M.ourMatching.oneOneMatching.rightFind (origin.hash M.std) child := by
    ext entry
    rw [prepared.rightFind_iff pristine isOurs, prepared.rightFind_iff here isOurs]
  cases found : M.ourMatching.oneOneMatching.rightFind (origin.hash M.std) child with
  | none =>
      refine ⟨heap, ?_, .refl, ?_⟩
      · simp only [mergeChild, lookups, found, outcome]
      · exact allFinished_of_unmatched fun entry member right =>
          absurd right (prepared.rightFind_none here isOurs found entry member)
  | some entry =>
      obtain ⟨member, right⟩ := (prepared.rightFind_iff here isOurs).mp found
      subst right
      obtain ⟨next, returned, within, finished⟩ := nodes entry member isOurs low heap pristine
      cases kept : M.theirMatching.oneOneMatching.leftFind (origin.hash M.std) entry.left with
      | none =>
          refine ⟨next, ?_, within, finished⟩
          simp only [mergeChild, lookups, found, outcome, returned, kept]
          rfl
      | some their =>
          refine ⟨next.update entry.left { next entry.left with
              followingEOL := (next entry.right).followingEOL }, ?_,
            within.trans (.update member .refl), ?_⟩
          · simp only [mergeChild, lookups, found, outcome, returned, kept]
            rfl
          · intro other otherMember visited theirs theirsMember left
            have done := finished other otherMember visited theirs theirsMember left
            by_cases same : other = entry
            · subst same
              exact done.setEOL _
            · refine done.congr (Heap.update_other fun left => same ?_)
              exact prepared.our_exact.unique_left other otherMember entry member left

/-- The first phase: every child of our node has its outcome. -/
theorem mergeOrderedChildren_run {parent : NodeRef} (isOurs : Ours parent)
    {children : List NodeRef} (distinct : children.Nodup)
    (inside : ∀ child ∈ children, child ∈ (origin parent).children)
    (low : ∀ child ∈ children, rank child < bound)
    (pristine : M.Pristine origin heap (BelowAny origin Ours children)) :
    ∃ heap', M.mergeOrderedChildren mergeNode M.ourMatching heap children =
        some (heap', children.map (M.outcome origin)) ∧
      M.Within heap heap' (BelowAny origin Ours children) ∧
      ∀ child ∈ children, M.AllFinished origin heap' child := by
  induction children generalizing heap with
  | nil => exact ⟨heap, rfl, .refl, by simp⟩
  | cons child rest ih =>
      obtain ⟨fresh, distinct⟩ := List.nodup_cons.mp distinct
      have step : ∀ other ∈ child :: rest, OurChild origin Ours parent other :=
        fun other member => ⟨isOurs, inside other member⟩
      have apart : ∀ our, Below (OurChild origin Ours) child our →
          ¬ BelowAny origin Ours rest our := by
        rintro our below ⟨other, member, below'⟩
        have same := prepared.forest.siblings_eq (step child List.mem_cons_self)
          (step other (List.mem_cons_of_mem child member)) below below'
        exact fresh (same ▸ member)
      obtain ⟨next, returned, within, finished⟩ := mergeChild_run prepared nodes
        (prepared.closed parent child (step child List.mem_cons_self))
        (low child List.mem_cons_self)
        (pristine.mono fun our below => ⟨child, List.mem_cons_self, below⟩)
      have pristineRest : M.Pristine origin next (BelowAny origin Ours rest) :=
        (pristine.mono fun our ⟨other, member, below⟩ =>
          ⟨other, List.mem_cons_of_mem child member, below⟩).step within apart
      obtain ⟨last, others, withinRest, finishedRest⟩ := ih distinct
        (fun other member => inside other (List.mem_cons_of_mem child member))
        (fun other member => low other (List.mem_cons_of_mem child member)) pristineRest
      refine ⟨last, ?_, ?_, ?_⟩
      · rw [mergeOrderedChildren, returned]
        simp only [Option.bind_eq_bind, Option.bind_some, others]
        rfl
      · refine (within.mono ?_).trans (withinRest.mono ?_)
        · exact fun our below => ⟨child, List.mem_cons_self, below⟩
        · exact fun our ⟨other, member, below⟩ =>
            ⟨other, List.mem_cons_of_mem child member, below⟩
      · intro other member
        rcases List.mem_cons.mp member with rfl | later
        · exact prepared.allFinished_within finished withinRest
            (prepared.closed parent other (step other List.mem_cons_self)) apart
        · exact finishedRest other later

/-- The children in our order: what is kept of our children, and then the nodes
that only their side added. -/
theorem directMergeChildrenInOurOrder_run {our : NodeRef} (base their : NodeRef)
    (isOurs : Ours our)
    (low : ∀ child ∈ (origin our).children, rank child < bound)
    (pristine : M.Pristine origin heap (BelowAny origin Ours (origin our).children)) :
    ∃ heap', M.directMergeChildrenInOurOrder mergeNode heap our base their =
        some (heap', (M.theirsAdded heap' base).foldl (M.insertAdded heap')
          ((origin our).children.filterMap (M.outcome origin))) ∧
      M.Within heap heap' (BelowAny origin Ours (origin our).children) ∧
      ∀ child ∈ (origin our).children, M.AllFinished origin heap' child := by
  obtain ⟨heap', returned, within, finished⟩ := mergeOrderedChildren_run prepared nodes isOurs
    (prepared.siblings our isOurs) (fun _ member => member) low pristine
  refine ⟨heap', ?_, within, finished⟩
  have kept : ((origin our).children.map (M.outcome origin)).reduceOption =
      (origin our).children.filterMap (M.outcome origin) :=
    List.filterMap_map
  rw [directMergeChildrenInOurOrder, pristine.unwritten (prepared.ours_apart our isOurs),
    returned, ← kept]
  rfl

end Children

section Nodes

variable {Ours : NodeRef → Prop} {rank : NodeRef → Nat} (prepared : M.Prepared origin Ours rank)

include prepared

/-- A node is not below its own children. -/
theorem Prepared.not_belowAny {our : NodeRef} (isOurs : Ours our) :
    ¬ BelowAny origin Ours (origin our).children our := by
  rintro ⟨child, member, below⟩
  exact prepared.forest.not_below_child ⟨isOurs, member⟩ below

/-- Writing a base node leaves those below pristine. -/
theorem Prepared.pristine_update {entry : BiEntry NodeRef NodeRef UInt64}
    (member : entry ∈ M.ourMatching.oneOneMatching) (isOurs : Ours entry.right)
    (pristine : M.Pristine origin heap (Below (OurChild origin Ours) entry.right))
    (node : SemanticNode) :
    M.Pristine origin (heap.update entry.left node)
      (BelowAny origin Ours (origin entry.right).children) := by
  have below : ∀ our, BelowAny origin Ours (origin entry.right).children our →
      Below (OurChild origin Ours) entry.right our := by
    rintro our ⟨child, inside, below⟩
    exact below.head ⟨isOurs, inside⟩
  have written : M.Within heap (heap.update entry.left node) fun our => our = entry.right :=
    .update member rfl
  apply (pristine.mono below).step written
  rintro our rfl
  exact prepared.not_belowAny isOurs

/-- A base node is not changed by the merge of its children. -/
theorem Prepared.base_kept {entry : BiEntry NodeRef NodeRef UInt64}
    (member : entry ∈ M.ourMatching.oneOneMatching) (isOurs : Ours entry.right)
    (within : M.Within heap heap' (BelowAny origin Ours (origin entry.right).children)) :
    heap' entry.left = heap entry.left := by
  by_contra changed
  obtain ⟨other, otherMember, left, below⟩ := within entry.left changed
  rw [prepared.our_exact.unique_left other otherMember entry member left] at below
  exact prepared.not_belowAny isOurs below

/-- The merge of a base node that is not in theirs comes to no other node. -/
theorem Prepared.allFinished_missed {entry : BiEntry NodeRef NodeRef UInt64}
    (member : entry ∈ M.ourMatching.oneOneMatching) (isOurs : Ours entry.right)
    (missed : M.theirMatching.oneOneMatching.leftFind (origin.hash M.std) entry.left = none) :
    M.AllFinished origin heap entry.right := by
  refine allFinished_of_unmatched fun other otherMember right their theirMember left => ?_
  obtain rfl := prepared.our_exact.unique_right other otherMember entry member right
  have found := (prepared.their_leftFind_origin member isOurs).mpr ⟨theirMember, left⟩
  rw [missed] at found
  cases found

/-- The merge of a terminal finishes it, and comes to no other node. -/
theorem Prepared.allFinished_terminal {entry their : BiEntry NodeRef NodeRef UInt64}
    (member : entry ∈ M.ourMatching.oneOneMatching)
    (alone : ∀ other ∈ M.theirMatching.oneOneMatching, other.left = entry.left → other = their)
    (terminal : (origin entry.left).kind.isTerminal = true)
    (record : heap entry.left =
      M.mergeTerminal (origin entry.right) (origin entry.left) (origin their.right)) :
    M.AllFinished origin heap entry.right := by
  have only : ∀ other ∈ M.ourMatching.oneOneMatching, other.right = entry.right →
      other = entry := fun other otherMember right =>
    prepared.our_exact.unique_right other otherMember entry member right
  intro other otherMember visited theirs theirsMember left
  rcases Relation.ReflTransGen.cases_head visited with here | ⟨child, step, -⟩
  · obtain rfl := only other otherMember here.symm
    obtain rfl := alone theirs theirsMember left
    refine ⟨⟨(heap other.left).children, (heap other.left).followingEOL, ?_⟩, ?_⟩
    · rw [mergeRecord, if_pos terminal, ← record]
    · rw [terminal]
      exact fun composite => absurd composite (by decide)
  · obtain ⟨-, parent, parentMember, right, composite, -⟩ := step
    obtain rfl := only parent parentMember right
    rw [terminal] at composite
    cases composite

/-- The merge of a composite finishes it, when it has finished its children. -/
theorem Prepared.allFinished_composite {entry their : BiEntry NodeRef NodeRef UInt64}
    (member : entry ∈ M.ourMatching.oneOneMatching) (isOurs : Ours entry.right)
    (alone : ∀ other ∈ M.theirMatching.oneOneMatching, other.left = entry.left → other = their)
    (composite : (origin entry.left).kind.isTerminal = false)
    (finished : ∀ child ∈ (origin entry.right).children, M.AllFinished origin heap child)
    (record : heap entry.left =
      M.mergeComposite (origin entry.right) (origin entry.left) (origin their.right))
    (unwritten : ∀ ref, M.Unwritten ref → heap ref = origin ref) {children : List NodeRef}
    (order : children = (M.theirsAdded heap entry.left).foldl (M.insertAdded heap)
      ((origin entry.right).children.filterMap (M.outcome origin))) :
    M.AllFinished origin
      (heap.update entry.left { heap entry.left with children := children }) entry.right := by
  intro other otherMember visited theirs theirsMember left
  rcases Relation.ReflTransGen.cases_head visited with here | ⟨child, step, below⟩
  · obtain rfl := prepared.our_exact.unique_right other otherMember entry member here.symm
    obtain rfl := alone theirs theirsMember left
    refine ⟨⟨children, (heap other.left).followingEOL, ?_⟩,
      fun _ => ⟨heap, record, unwritten, ?_⟩⟩
    · rw [Heap.update_self, mergeRecord, composite, record]
      rfl
    · rw [Heap.update_self, ← order]
  · refine (finished child step.1 other otherMember below theirs theirsMember left).congr
      (Heap.update_other fun same => ?_)
    obtain rfl := prepared.our_exact.unique_left other otherMember entry member same
    have child' : OurChild origin Ours other.right child := ⟨isOurs, step.1⟩
    exact prepared.forest.not_below_child child'
      (prepared.visited_below (prepared.closed _ _ child') below).1

/-- With fuel for the height of our tree, the merge of a base node returns. -/
theorem mergeSemanticNode_run (favour : M.orderInFavour = .ours) (fuel : Nat) :
    M.NodeRuns origin Ours rank (M.mergeSemanticNode fuel) fuel := by
  induction fuel with
  | zero => exact fun _ _ _ low => absurd low (Nat.not_lt_zero _)
  | succ fuel ih =>
      intro entry member isOurs low heap pristine
      have ourFound := prepared.our_leftFind pristine member isOurs .refl
      have theirFound : M.theirMatching.oneOneMatching.leftFind (heap.hash M.std) entry.left =
          M.theirMatching.oneOneMatching.leftFind (origin.hash M.std) entry.left := by
        ext their
        rw [prepared.their_leftFind_iff pristine member isOurs .refl,
          prepared.their_leftFind_origin member isOurs]
      have base := prepared.base_unmodified pristine member .refl
      have our := pristine.unwritten (prepared.ours_apart entry.right isOurs)
      simp only [mergeSemanticNode, ourFound, theirFound]
      cases found : M.theirMatching.oneOneMatching.leftFind (origin.hash M.std) entry.left with
      | none =>
          exact ⟨heap, rfl, .refl, prepared.allFinished_missed member isOurs found⟩
      | some their =>
          obtain ⟨theirMember, left⟩ := (prepared.their_leftFind_origin member isOurs).mp found
          have their' := pristine.unwritten (prepared.theirs_apart their theirMember)
          have alone : ∀ other ∈ M.theirMatching.oneOneMatching, other.left = entry.left →
              other = their := fun other otherMember same =>
            prepared.their_exact.unique_left other otherMember their theirMember
              (same.trans left.symm)
          simp only [our, base, their', Option.map_some]
          cases terminal : (origin entry.left).kind.isTerminal with
          | true =>
              refine ⟨heap.update entry.left (M.mergeTerminal (origin entry.right)
                (origin entry.left) (origin their.right)), rfl, .update member .refl, ?_⟩
              exact prepared.allFinished_terminal member alone terminal (Heap.update_self ..)
          | false =>
              have start := prepared.pristine_update member isOurs pristine
                (M.mergeComposite (origin entry.right) (origin entry.left) (origin their.right))
              obtain ⟨next, returned, within, finished⟩ :=
                directMergeChildrenInOurOrder_run prepared ih entry.left their.right isOurs
                  (fun child inside => Nat.lt_of_lt_of_le
                    (prepared.forest.rank_lt _ _ ⟨isOurs, inside⟩) (Nat.le_of_lt_succ low)) start
              have record := prepared.base_kept member isOurs within
              rw [Heap.update_self] at record
              refine ⟨next.update entry.left { next entry.left with
                  children := (M.theirsAdded next entry.left).foldl (M.insertAdded next)
                    ((origin entry.right).children.filterMap (M.outcome origin)) }, ?_, ?_, ?_⟩
              · simp only [directMergeChildren, favour, returned, Bool.false_eq_true, if_false]
                rfl
              · refine (Within.update member .refl).trans ((within.mono ?_).trans
                  (.update member .refl))
                rintro other ⟨child, inside, below⟩
                exact below.head ⟨isOurs, inside⟩
              · exact prepared.allFinished_composite member isOurs alone terminal finished record
                  (fun ref unwritten =>
                    (within.unwritten unwritten).trans (start.unwritten unwritten)) rfl

end Nodes

end GraphMerger

end MergeBot
