import MergeBot.Semantic.MergeRun

/-!
# The order of the files does not matter

`threeWayMerge` merges the translation units one after the other, in the order in which a hash
table is walked. A merge reads the nodes that no merge writes and the base nodes of its own tree,
and so the units can be taken in any order (`threeWayMerge_perm`), as long as no composite node
gets a new identity: a node is looked up by its identity, and a renamed node could be found under
an entry of another file.
-/

namespace MergeBot

open Foundation

namespace GraphMerger

/-! ## The loop over the files -/

/-- Merge base nodes one after the other; the nodes that are kept. -/
def threeWayMerge (M : GraphMerger) (fuel : Nat) : Heap → List NodeRef →
    Option (Heap × List NodeRef)
  | heap, [] => some (heap, [])
  | heap, base :: rest => do
      let (next, merged) ← M.mergeSemanticNode fuel heap base
      let (last, kept) ← threeWayMerge M fuel next rest
      return (last, merged.toList ++ kept)

/-! ## What a merge reads -/

/-- The nodes that are recorded as added, their parents and their siblings are no base nodes. -/
def NeighborsApart (M : GraphMerger) (origin : Heap) : Prop :=
  ∀ added, added ∈ M.ourMatching.possiblyAdded.collect ∨
      added ∈ M.theirMatching.possiblyAdded.collect →
    M.Unwritten added ∧ ∀ parent ∈ (origin added).parent, M.Unwritten parent ∧
      ∀ sibling ∈ (origin parent).children, M.Unwritten sibling

/-- A composite node that is merged keeps its identity. -/
def Steady (M : GraphMerger) (origin : Heap) : Prop :=
  ∀ entry ∈ M.ourMatching.oneOneMatching, ∀ their ∈ M.theirMatching.oneOneMatching,
    their.left = entry.left → (origin entry.left).kind.isTerminal = false →
      (M.mergeComposite (origin entry.right) (origin entry.left)
        (origin their.right)).hashSignature M.std = origin.hash M.std entry.left

variable {M : GraphMerger} {origin heap other heap' other' : Heap}
  {Region : NodeRef → Prop}

/-- Lists that are sorted by orders that agree on them. -/
theorem insertionSort_byID_congr {refs : List NodeRef}
    (same : ∀ ref ∈ refs, heap ref = other ref) :
    refs.insertionSort (ByID heap) = refs.insertionSort (ByID other) := by
  have insert : ∀ (ref : NodeRef) (sorted : List NodeRef), heap ref = other ref →
      (∀ item ∈ sorted, heap item = other item) →
        sorted.orderedInsert (ByID heap) ref = sorted.orderedInsert (ByID other) ref := by
    intro ref sorted sameRef sameItems
    induction sorted with
    | nil => rfl
    | cons first rest inductionHypothesis =>
      have order : ByID heap ref first ↔ ByID other ref first := by
        rw [ByID, ByID, sameRef, sameItems first List.mem_cons_self]
      have later := inductionHypothesis fun item member =>
        sameItems item (List.mem_cons_of_mem _ member)
      simp only [List.orderedInsert, order, later]
  induction refs with
  | nil => rfl
  | cons ref rest inductionHypothesis =>
    have sameRest : ∀ item ∈ rest, heap item = other item :=
      fun item member => same item (List.mem_cons_of_mem _ member)
    rw [List.insertionSort_cons, List.insertionSort_cons, inductionHypothesis sameRest]
    refine insert ref _ (same ref List.mem_cons_self) fun item member => sameRest item ?_
    exact (List.mem_insertionSort _).mp member

/-- Added nodes are found alike, with the same match of the base node. -/
theorem filterAddedNodes_congr {matching : TwoWayMatching} {base : NodeRef}
    (found : matching.oneOneMatching.leftFind (heap.hash M.std) base =
      matching.oneOneMatching.leftFind (other.hash M.std) base)
    (right : ∀ entry ∈ matching.oneOneMatching.leftFind (other.hash M.std) base,
      heap entry.right = other entry.right)
    (added : ∀ ref ∈ matching.possiblyAdded.collect,
      heap ref = other ref ∧ ∀ parent ∈ (other ref).parent, heap parent = other parent) :
    M.filterAddedNodes heap base matching = M.filterAddedNodes other base matching := by
  have listed : ∀ ref ∈ matching.addedOrder.1.flatMap matching.possiblyAdded,
      ref ∈ matching.possiblyAdded.collect := fun ref member =>
    ((matching.addedOrder.2.flatMap_right matching.possiblyAdded).mem_iff).mp member
  unfold filterAddedNodes
  rw [found]
  dsimp only
  cases entry : matching.oneOneMatching.leftFind (other.hash M.std) base with
  | none => rfl
  | some entry' =>
    have sameRight := @Heap.hash_congr M.std _ _ _ _ (right entry' entry)
    have sameFilter : ∀ ref ∈ matching.addedOrder.1.flatMap matching.possiblyAdded,
        ((heap ref).parent.any fun parent =>
            decide (heap.hash M.std parent = heap.hash M.std entry'.right)) =
          (other ref).parent.any fun parent =>
            decide (other.hash M.std parent = other.hash M.std entry'.right) := by
      intro ref member
      obtain ⟨sameRef, parents⟩ := added ref (listed ref member)
      rw [sameRef]
      cases up : (other ref).parent with
      | none => rfl
      | some parent =>
        have sameParent := @Heap.hash_congr M.std _ _ _ _ (parents parent up)
        simp only [Option.any_some, sameParent, sameRight]
    dsimp only
    rw [List.filter_congr sameFilter]
    refine insertionSort_byID_congr fun ref member => ?_
    exact (added ref (listed ref (List.mem_filter.mp member).1)).1

/-- Positions depend on the identities of the item and of the nodes in the list. -/
theorem position_congr {refs : List NodeRef} {item : NodeRef} (sameItem : heap item = other item)
    (same : ∀ ref ∈ refs, heap ref = other ref) :
    Placement.position (heap.hash M.std) refs item =
      Placement.position (other.hash M.std) refs item := by
  have hashItem := @Heap.hash_congr M.std _ _ _ _ sameItem
  unfold Placement.position
  rw [hashItem]
  induction refs with
  | nil => rfl
  | cons first rest inductionHypothesis =>
    have hashFirst := @Heap.hash_congr M.std _ _ _ _ (same first List.mem_cons_self)
    rw [List.findIdx?_cons, List.findIdx?_cons, hashFirst,
      inductionHypothesis fun ref member => same ref (List.mem_cons_of_mem _ member)]

/-- A node is inserted alike, next to the same siblings, into a list of nodes that are alike. -/
theorem insertAdded_congr {mergedChildren : List NodeRef} {added : NodeRef}
    (sameAdded : heap added = other added)
    (parents : ∀ parent ∈ (other added).parent, heap parent = other parent ∧
      ∀ sibling ∈ (other parent).children, heap sibling = other sibling)
    (same : ∀ child ∈ mergedChildren, heap child = other child) :
    M.insertAdded heap mergedChildren added = M.insertAdded other mergedChildren added := by
  have neighbors : M.getNeighbors heap added = M.getNeighbors other added ∧
      ∀ previous current next, M.getNeighbors other added = some (previous, current, next) →
        ∀ sibling, sibling ∈ previous ∨ sibling ∈ next → heap sibling = other sibling := by
    unfold getNeighbors
    rw [sameAdded]
    cases up : (other added).parent with
    | none => exact ⟨rfl, nofun⟩
    | some parent =>
      obtain ⟨sameParent, siblings⟩ := parents parent up
      have comments : ∀ sibling ∈ (other parent).children,
          isOrphanComment heap sibling = isOrphanComment other sibling := by
        intro sibling member
        rw [isOrphanComment, isOrphanComment, siblings sibling member]
      dsimp only
      rw [sameParent, position_congr sameAdded siblings]
      cases Placement.position (other.hash M.std) (other parent).children added with
      | none => exact ⟨rfl, nofun⟩
      | some pos =>
        dsimp only
        have before : ∀ sibling ∈ (other parent).children.take pos,
            sibling ∈ (other parent).children := fun _ member => List.mem_of_mem_take member
        have after : ∀ sibling ∈ (other parent).children.drop (pos + 1),
            sibling ∈ (other parent).children := fun _ member => List.mem_of_mem_drop member
        refine ⟨?_, ?_⟩
        · rw [Placement.previousOf_congr fun item member => comments item (before item member),
            Placement.nextOf_congr fun item member => comments item (after item member)]
        · intro previous current next found sibling isNear
          simp only [Option.some.injEq, Prod.mk.injEq] at found
          obtain ⟨rfl, -, rfl⟩ := found
          rcases isNear with isPrevious | isNext
          · exact siblings sibling
              (before sibling (List.mem_reverse.mp (List.mem_of_find?_eq_some isPrevious)))
          · exact siblings sibling (after sibling (List.mem_of_find?_eq_some isNext))
  unfold insertAdded
  rw [neighbors.1]
  cases found : M.getNeighbors other added with
  | none => rfl
  | some near =>
    obtain ⟨previous, current, next⟩ := near
    have isNear := neighbors.2 previous current next found
    have positions : ∀ near : Option NodeRef, (∀ sibling ∈ near, heap sibling = other sibling) →
        near.bind (Placement.position (heap.hash M.std) mergedChildren) =
          near.bind (Placement.position (other.hash M.std) mergedChildren) := by
      intro near sameNear
      cases near with
      | none => rfl
      | some sibling => exact position_congr (sameNear sibling rfl) same
    dsimp only [Placement.insertNear]
    rw [positions previous fun sibling member => isNear sibling (.inl member),
      positions next fun sibling member => isNear sibling (.inr member)]

/-- Nodes are inserted in turn alike. -/
theorem foldl_insertAdded_congr {added mergedChildren : List NodeRef}
    (near : ∀ ref ∈ added, heap ref = other ref ∧
      ∀ parent ∈ (other ref).parent, heap parent = other parent ∧
        ∀ sibling ∈ (other parent).children, heap sibling = other sibling)
    (same : ∀ child ∈ mergedChildren, heap child = other child) :
    added.foldl (M.insertAdded heap) mergedChildren =
      added.foldl (M.insertAdded other) mergedChildren := by
  induction added generalizing mergedChildren with
  | nil => rfl
  | cons first rest inductionHypothesis =>
    obtain ⟨sameFirst, parents⟩ := near first List.mem_cons_self
    rw [List.foldl_cons, List.foldl_cons, insertAdded_congr sameFirst parents same]
    refine inductionHypothesis (fun ref member => near ref (List.mem_cons_of_mem _ member)) ?_
    intro child member
    rcases List.mem_cons.mp ((M.insertAdded_perm other mergedChildren first).subset member) with
      rfl | old
    · exact sameFirst
    · exact same child old

/-! ## Runs from two states -/

/-- The base nodes matched to our nodes of a region are the same. -/
def SameOn (M : GraphMerger) (Region : NodeRef → Prop) (heap other : Heap) : Prop :=
  ∀ entry ∈ M.ourMatching.oneOneMatching, Region entry.right → heap entry.left = other entry.left

/-- Runs from two states in which a tree has not been merged yet leave the same base nodes of the
tree. -/
def NodeAgrees (M : GraphMerger) (origin : Heap) (Ours : NodeRef → Prop) (rank : NodeRef → Nat)
    (mergeNode : Heap → NodeRef → Option (Heap × Option NodeRef)) (bound : Nat) : Prop :=
  ∀ entry ∈ M.ourMatching.oneOneMatching, Ours entry.right → rank entry.right < bound →
    ∀ {heap other heap' other' : Heap} {merged merged' : Option NodeRef},
      M.Pristine origin heap (Below (OurChild origin Ours) entry.right) →
      M.Pristine origin other (Below (OurChild origin Ours) entry.right) →
      mergeNode heap entry.left = some (heap', merged) →
      mergeNode other entry.left = some (other', merged') →
        M.SameOn (Below (OurChild origin Ours) entry.right) heap' other'

section Agreement

variable {Ours : NodeRef → Prop} {rank : NodeRef → Nat} (prepared : M.Prepared origin Ours rank)

include prepared

/-- Nodes that are still to be merged are the same. -/
theorem Prepared.sameOn (pristine : M.Pristine origin heap Region)
    (pristine' : M.Pristine origin other Region) : M.SameOn Region heap other := by
  intro entry member inside
  rw [prepared.base_unmodified pristine member inside,
    prepared.base_unmodified pristine' member inside]

variable {mergeNode : Heap → NodeRef → Option (Heap × Option NodeRef)} {bound : Nat}
  (nodes : M.NodeRuns origin Ours rank mergeNode bound)
  (agrees : M.NodeAgrees origin Ours rank mergeNode bound)

include nodes agrees

theorem mergeChild_agrees {child : NodeRef} (isOurs : Ours child) (low : rank child < bound)
    (pristine : M.Pristine origin heap (Below (OurChild origin Ours) child))
    (pristine' : M.Pristine origin other (Below (OurChild origin Ours) child))
    {merged merged' : Option NodeRef}
    (returned : M.mergeChild mergeNode M.ourMatching heap child = some (heap', merged))
    (returned' : M.mergeChild mergeNode M.ourMatching other child = some (other', merged')) :
    M.SameOn (Below (OurChild origin Ours) child) heap' other' := by
  have lookup : ∀ {heap : Heap}, M.Pristine origin heap (Below (OurChild origin Ours) child) →
      ∀ entry, M.ourMatching.oneOneMatching.rightFind (heap.hash M.std) child = some entry ↔
        entry ∈ M.ourMatching.oneOneMatching ∧ entry.right = child :=
    fun pristine entry => prepared.rightFind_iff pristine isOurs
  unfold mergeChild at returned returned'
  cases found : M.ourMatching.oneOneMatching.rightFind (heap.hash M.std) child with
  | none =>
    have found' : M.ourMatching.oneOneMatching.rightFind (other.hash M.std) child = none := by
      refine Option.eq_none_iff_forall_ne_some.mpr fun entry isFound => ?_
      rw [(lookup pristine entry).mpr ((lookup pristine' entry).mp isFound)] at found
      exact absurd found nofun
    rw [found] at returned
    rw [found'] at returned'
    obtain ⟨rfl, -⟩ := Prod.mk.inj (Option.some.inj returned)
    obtain ⟨rfl, -⟩ := Prod.mk.inj (Option.some.inj returned')
    exact prepared.sameOn pristine pristine'
  | some entry =>
    obtain ⟨member, rfl⟩ := (lookup pristine entry).mp found
    rw [found] at returned
    rw [(lookup pristine' entry).mpr ⟨member, rfl⟩] at returned'
    obtain ⟨next, called, within, -⟩ := nodes entry member isOurs low heap pristine
    obtain ⟨next', called', within', -⟩ := nodes entry member isOurs low other pristine'
    have same := agrees entry member isOurs low pristine pristine' called called'
    have child : next entry.right = next' entry.right := by
      have apart := prepared.ours_apart entry.right isOurs
      rw [within.unwritten apart, pristine.unwritten apart, within'.unwritten apart,
        pristine'.unwritten apart]
    dsimp only at returned returned'
    rw [called] at returned
    rw [called'] at returned'
    cases kept : M.theirMatching.oneOneMatching.leftFind (origin.hash M.std) entry.left with
    | none =>
      rw [kept] at returned returned'
      obtain ⟨rfl, -⟩ := Prod.mk.inj (Option.some.inj returned)
      obtain ⟨rfl, -⟩ := Prod.mk.inj (Option.some.inj returned')
      exact same
    | some their =>
      rw [kept] at returned returned'
      obtain ⟨rfl, -⟩ := Prod.mk.inj (Option.some.inj returned)
      obtain ⟨rfl, -⟩ := Prod.mk.inj (Option.some.inj returned')
      intro inner innerMember below
      by_cases here : inner.left = entry.left
      · rw [here, Heap.update_self, Heap.update_self]
        dsimp only
        rw [child, same entry member .refl]
      · rw [Heap.update_other here, Heap.update_other here]
        exact same inner innerMember below

theorem mergeOrderedChildren_agrees {parent : NodeRef} (isOurs : Ours parent)
    {children : List NodeRef} (distinct : children.Nodup)
    (inside : ∀ child ∈ children, child ∈ (origin parent).children)
    (low : ∀ child ∈ children, rank child < bound)
    (pristine : M.Pristine origin heap (BelowAny origin Ours children))
    (pristine' : M.Pristine origin other (BelowAny origin Ours children))
    {merged merged' : List (Option NodeRef)}
    (returned : M.mergeOrderedChildren mergeNode M.ourMatching heap children =
      some (heap', merged))
    (returned' : M.mergeOrderedChildren mergeNode M.ourMatching other children =
      some (other', merged')) :
    M.SameOn (BelowAny origin Ours children) heap' other' := by
  induction children generalizing heap other heap' other' merged merged' with
  | nil =>
    rintro entry - ⟨child, member, -⟩
    exact absurd member List.not_mem_nil
  | cons child rest inductionHypothesis =>
    obtain ⟨fresh, distinct⟩ := List.nodup_cons.mp distinct
    have step : ∀ other ∈ child :: rest, OurChild origin Ours parent other :=
      fun other member => ⟨isOurs, inside other member⟩
    have isOurChild := prepared.closed parent child (step child List.mem_cons_self)
    have lowChild := low child List.mem_cons_self
    have apart : ∀ our, Below (OurChild origin Ours) child our →
        ¬ BelowAny origin Ours rest our := by
      rintro our below ⟨other, member, below'⟩
      have same := prepared.forest.siblings_eq (step child List.mem_cons_self)
        (step other (List.mem_cons_of_mem child member)) below below'
      exact fresh (same ▸ member)
    have first : ∀ our, Below (OurChild origin Ours) child our →
        BelowAny origin Ours (child :: rest) our :=
      fun our below => ⟨child, List.mem_cons_self, below⟩
    have later : ∀ our, BelowAny origin Ours rest our →
        BelowAny origin Ours (child :: rest) our :=
      fun our ⟨other, member, below⟩ => ⟨other, List.mem_cons_of_mem child member, below⟩
    have lowRest : ∀ other ∈ rest, rank other < bound :=
      fun other member => low other (List.mem_cons_of_mem child member)
    have insideRest : ∀ other ∈ rest, other ∈ (origin parent).children :=
      fun other member => inside other (List.mem_cons_of_mem child member)
    obtain ⟨next, called, within, -⟩ :=
      mergeChild_run prepared nodes isOurChild lowChild (pristine.mono first)
    obtain ⟨next', called', within', -⟩ :=
      mergeChild_run prepared nodes isOurChild lowChild (pristine'.mono first)
    have same := mergeChild_agrees prepared nodes agrees isOurChild lowChild
      (pristine.mono first) (pristine'.mono first) called called'
    have pristineRest := (pristine.mono later).step within apart
    have pristineRest' := (pristine'.mono later).step within' apart
    obtain ⟨last, others, withinRest, -⟩ := mergeOrderedChildren_run prepared nodes isOurs
      distinct insideRest lowRest pristineRest
    obtain ⟨last', others', withinRest', -⟩ := mergeOrderedChildren_run prepared nodes isOurs
      distinct insideRest lowRest pristineRest'
    have sameRest := inductionHypothesis distinct insideRest lowRest pristineRest pristineRest'
      others others'
    rw [mergeOrderedChildren, called] at returned
    rw [mergeOrderedChildren, called'] at returned'
    simp only [Option.bind_eq_bind, Option.bind_some, others] at returned
    simp only [Option.bind_eq_bind, Option.bind_some, others'] at returned'
    obtain ⟨rfl, -⟩ := Prod.mk.inj (Option.some.inj returned)
    obtain ⟨rfl, -⟩ := Prod.mk.inj (Option.some.inj returned')
    rintro entry member ⟨other, listed, below⟩
    rcases List.mem_cons.mp listed with rfl | isLater
    · have left : ∀ {start final : Heap}, M.Within start final (BelowAny origin Ours rest) →
          final entry.left = start entry.left := by
        intro start final within
        by_contra changed
        obtain ⟨found, foundMember, sameLeft, below'⟩ := within entry.left changed
        rw [prepared.our_exact.unique_left found foundMember entry member sameLeft] at below'
        exact apart _ below below'
      rw [left withinRest, left withinRest']
      exact same entry member below
    · exact sameRest entry member ⟨other, isLater, below⟩

theorem directMergeChildrenInOurOrder_agrees {our base their : NodeRef} (isOurs : Ours our)
    (low : ∀ child ∈ (origin our).children, rank child < bound)
    (pristine : M.Pristine origin heap (BelowAny origin Ours (origin our).children))
    (pristine' : M.Pristine origin other (BelowAny origin Ours (origin our).children))
    {children children' : List NodeRef}
    (returned : M.directMergeChildrenInOurOrder mergeNode heap our base their =
      some (heap', children))
    (returned' : M.directMergeChildrenInOurOrder mergeNode other our base their =
      some (other', children')) :
    M.SameOn (BelowAny origin Ours (origin our).children) heap' other' := by
  have away := prepared.ours_apart our isOurs
  rw [directMergeChildrenInOurOrder, pristine.unwritten away] at returned
  rw [directMergeChildrenInOurOrder, pristine'.unwritten away] at returned'
  obtain ⟨⟨next, merged⟩, called, ended⟩ := Option.bind_eq_some_iff.mp returned
  obtain ⟨⟨next', merged'⟩, called', ended'⟩ := Option.bind_eq_some_iff.mp returned'
  obtain ⟨rfl, -⟩ := Prod.mk.inj (Option.some.inj ended)
  obtain ⟨rfl, -⟩ := Prod.mk.inj (Option.some.inj ended')
  exact mergeOrderedChildren_agrees prepared nodes agrees isOurs (prepared.siblings our isOurs)
    (fun _ inside => inside) low pristine pristine' called called'

omit nodes agrees in
/-- The children of a base node are the same in two states in which the nodes merged below are. -/
theorem children_agree (apart : M.NeighborsApart origin)
    {entry : BiEntry NodeRef NodeRef UInt64} (member : entry ∈ M.ourMatching.oneOneMatching)
    (isOurs : Ours entry.right)
    (unwritten : ∀ ref, M.Unwritten ref → heap ref = origin ref)
    (unwritten' : ∀ ref, M.Unwritten ref → other ref = origin ref)
    (steady : heap.hash M.std entry.left = origin.hash M.std entry.left)
    (sameBase : heap entry.left = other entry.left)
    (same : M.SameOn (BelowAny origin Ours (origin entry.right).children) heap other) :
    (M.theirsAdded heap entry.left).foldl (M.insertAdded heap)
        ((origin entry.right).children.filterMap (M.outcome origin)) =
      (M.theirsAdded other entry.left).foldl (M.insertAdded other)
        ((origin entry.right).children.filterMap (M.outcome origin)) := by
  have steady' : other.hash M.std entry.left = origin.hash M.std entry.left := by
    rw [← @Heap.hash_congr M.std _ _ _ _ sameBase, steady]
  have known : ∃ other ∈ M.ourMatching.oneOneMatching, other.left = entry.left ∧
      Ours other.right := ⟨entry, member, rfl, isOurs⟩
  have still : ∀ ref, M.Unwritten ref → heap ref = other ref :=
    fun ref away => (unwritten ref away).trans (unwritten' ref away).symm
  have recorded : ∀ added, added ∈ M.ourMatching.possiblyAdded.collect ∨
      added ∈ M.theirMatching.possiblyAdded.collect → heap added = other added ∧
        ∀ parent ∈ (other added).parent, heap parent = other parent ∧
          ∀ sibling ∈ (other parent).children, heap sibling = other sibling := by
    intro added isAdded
    obtain ⟨away, parents⟩ := apart added isAdded
    refine ⟨still added away, fun parent up => ?_⟩
    rw [unwritten' added away] at up
    obtain ⟨parentAway, siblings⟩ := parents parent up
    refine ⟨still parent parentAway, fun sibling isSibling => ?_⟩
    rw [unwritten' parent parentAway] at isSibling
    exact still sibling (siblings sibling isSibling)
  -- A steady base node is found under its own entries.
  have ourFound : ∀ {state : Heap}, state.hash M.std entry.left = origin.hash M.std entry.left →
      ∀ found, M.ourMatching.oneOneMatching.leftFind (state.hash M.std) entry.left = some found ↔
        found ∈ M.ourMatching.oneOneMatching ∧ found.left = entry.left :=
    fun kept found => prepared.our_exact.leftFind_iff known kept
  have theirFound : ∀ {state : Heap}, state.hash M.std entry.left = origin.hash M.std entry.left →
      ∀ found, M.theirMatching.oneOneMatching.leftFind (state.hash M.std) entry.left =
          some found ↔ found ∈ M.theirMatching.oneOneMatching ∧ found.left = entry.left :=
    fun kept found => prepared.their_exact.leftFind_iff known kept
  have ours : M.filterAddedNodes heap entry.left M.ourMatching =
      M.filterAddedNodes other entry.left M.ourMatching := by
    refine filterAddedNodes_congr (Option.ext fun found => ?_) (fun found isFound => ?_)
      fun added isAdded => ?_
    · exact (ourFound steady found).trans (ourFound steady' found).symm
    · obtain ⟨foundMember, left⟩ := (ourFound steady' found).mp isFound
      rw [prepared.our_exact.unique_left found foundMember entry member left]
      exact still _ (prepared.ours_apart _ isOurs)
    · obtain ⟨sameAdded, parents⟩ := recorded added (.inl isAdded)
      exact ⟨sameAdded, fun parent up => (parents parent up).1⟩
  have theirs : M.filterAddedNodes heap entry.left M.theirMatching =
      M.filterAddedNodes other entry.left M.theirMatching := by
    refine filterAddedNodes_congr (Option.ext fun found => ?_) (fun found isFound => ?_)
      fun added isAdded => ?_
    · exact (theirFound steady found).trans (theirFound steady' found).symm
    · obtain ⟨foundMember, -⟩ := (theirFound steady' found).mp isFound
      exact still _ (prepared.theirs_apart found foundMember)
    · obtain ⟨sameAdded, parents⟩ := recorded added (.inr isAdded)
      exact ⟨sameAdded, fun parent up => (parents parent up).1⟩
  have theirsCollected : ∀ added ∈ M.theirsAdded other entry.left,
      added ∈ M.theirMatching.possiblyAdded.collect := by
    intro added isAdded
    rw [theirsAdded, removeDuplicates_eq] at isAdded
    exact ((M.mem_filterAddedNodes other).mp (List.mem_filter.mp isAdded).1).1
  have added : M.theirsAdded heap entry.left = M.theirsAdded other entry.left := by
    rw [theirsAdded, theirsAdded, ours, theirs, removeDuplicates_eq, removeDuplicates_eq]
    refine List.filter_congr fun added isAdded => ?_
    have hashes : ∀ {matching : TwoWayMatching}, ∀ ref ∈ M.filterAddedNodes other entry.left matching,
        (ref ∈ matching.possiblyAdded.collect → heap ref = other ref) →
          heap.hash M.std ref = other.hash M.std ref :=
      fun ref listed sameRef => Heap.hash_congr (sameRef ((M.mem_filterAddedNodes other).mp listed).1)
    have hashAdded := hashes added isAdded fun isTheirs => (recorded added (.inr isTheirs)).1
    rw [hashAdded, Bool.eq_iff_iff, List.all_eq_true, List.all_eq_true]
    refine forall₂_congr fun ref listed => ?_
    rw [hashes ref listed fun isOurs => (recorded ref (.inl isOurs)).1]
  rw [added]
  refine foldl_insertAdded_congr (fun ref isAdded => recorded ref (.inr (theirsCollected ref isAdded)))
    fun child isKept => ?_
  obtain ⟨our, isChild, stands⟩ := List.mem_filterMap.mp isKept
  have ourIsOurs := prepared.closed _ _ (⟨isOurs, isChild⟩ : OurChild origin Ours _ our)
  unfold outcome at stands
  cases matched : M.ourMatching.oneOneMatching.rightFind (origin.hash M.std) our with
  | none =>
    rw [matched] at stands
    obtain rfl := Option.some.inj stands
    exact still our (prepared.ours_apart our ourIsOurs)
  | some found =>
    rw [matched] at stands
    obtain ⟨their, -, rfl⟩ := Option.map_eq_some_iff.mp stands
    have here : M.Pristine origin origin (Below (OurChild origin Ours) our) := .refl
    obtain ⟨foundMember, rfl⟩ := (prepared.rightFind_iff here ourIsOurs).mp matched
    exact same found foundMember ⟨_, isChild, .refl⟩

/-! ## The recursion -/

omit nodes agrees in
/-- The merge of a tree does not depend on what else has been merged. -/
theorem mergeSemanticNode_agrees (favour : M.orderInFavour = .ours)
    (apart : M.NeighborsApart origin) (steady : M.Steady origin) (fuel : Nat) :
    M.NodeAgrees origin Ours rank (M.mergeSemanticNode fuel) fuel := by
  induction fuel with
  | zero => exact fun _ _ _ low => absurd low (Nat.not_lt_zero _)
  | succ fuel inductionHypothesis =>
    intro entry member isOurs low heap other heap' other' merged merged' pristine pristine'
      returned returned'
    have ourFound := prepared.our_leftFind pristine member isOurs .refl
    have ourFound' := prepared.our_leftFind pristine' member isOurs .refl
    have theirFound : ∀ {heap : Heap},
        M.Pristine origin heap (Below (OurChild origin Ours) entry.right) →
        M.theirMatching.oneOneMatching.leftFind (heap.hash M.std) entry.left =
          M.theirMatching.oneOneMatching.leftFind (origin.hash M.std) entry.left := by
      intro heap pristine
      ext their
      rw [prepared.their_leftFind_iff pristine member isOurs .refl,
        prepared.their_leftFind_origin member isOurs]
    have away := prepared.ours_apart entry.right isOurs
    rw [mergeSemanticNode] at returned returned'
    simp only [ourFound, theirFound pristine] at returned
    simp only [ourFound', theirFound pristine'] at returned'
    cases found : M.theirMatching.oneOneMatching.leftFind (origin.hash M.std) entry.left with
    | none =>
      simp only [found, Option.some.injEq, Prod.mk.injEq] at returned returned'
      rw [← returned.1, ← returned'.1]
      exact prepared.sameOn pristine pristine'
    | some their =>
      obtain ⟨theirMember, left⟩ := (prepared.their_leftFind_origin member isOurs).mp found
      have theirAway := prepared.theirs_apart their theirMember
      simp only [found, pristine.unwritten away, prepared.base_unmodified pristine member .refl,
        pristine.unwritten theirAway] at returned
      simp only [found, pristine'.unwritten away, prepared.base_unmodified pristine' member .refl,
        pristine'.unwritten theirAway] at returned'
      cases terminal : (origin entry.left).kind.isTerminal with
      | true =>
        simp only [terminal, if_true, Option.some.injEq, Prod.mk.injEq] at returned returned'
        rw [← returned.1, ← returned'.1]
        intro inner innerMember below
        by_cases here : inner.left = entry.left
        · rw [here, Heap.update_self, Heap.update_self]
        · rw [Heap.update_other here, Heap.update_other here]
          exact prepared.sameOn pristine pristine' inner innerMember below
      | false =>
        have runs := mergeSemanticNode_run prepared favour fuel
        have lowChild : ∀ child ∈ (origin entry.right).children, rank child < fuel :=
          fun child inside => Nat.lt_of_lt_of_le (prepared.forest.rank_lt _ _ ⟨isOurs, inside⟩)
            (Nat.le_of_lt_succ low)
        let record := M.mergeComposite (origin entry.right) (origin entry.left)
          (origin their.right)
        have start := prepared.pristine_update member isOurs pristine record
        have start' := prepared.pristine_update member isOurs pristine' record
        obtain ⟨next, called, within, -⟩ := directMergeChildrenInOurOrder_run prepared runs
          entry.left their.right isOurs lowChild start
        obtain ⟨next', called', within', -⟩ := directMergeChildrenInOurOrder_run prepared runs
          entry.left their.right isOurs lowChild start'
        have same : M.SameOn (BelowAny origin Ours (origin entry.right).children) next next' :=
          directMergeChildrenInOurOrder_agrees prepared runs inductionHypothesis isOurs lowChild
            start start' called called'
        have base : next entry.left = record := by
          rw [prepared.base_kept member isOurs within, Heap.update_self]
        have base' : next' entry.left = record := by
          rw [prepared.base_kept member isOurs within', Heap.update_self]
        have children := children_agree prepared apart member isOurs
          (fun ref away => (within.unwritten away).trans (start.unwritten away))
          (fun ref away => (within'.unwritten away).trans (start'.unwritten away))
          (by rw [Heap.hash, base]; exact steady entry member their theirMember left terminal)
          (base.trans base'.symm) same
        simp only [terminal, Bool.false_eq_true, if_false, directMergeChildren, favour] at returned
        simp only [terminal, Bool.false_eq_true, if_false, directMergeChildren, favour]
          at returned'
        rw [called] at returned
        rw [called'] at returned'
        obtain ⟨rfl, -⟩ := Prod.mk.inj (Option.some.inj returned)
        obtain ⟨rfl, -⟩ := Prod.mk.inj (Option.some.inj returned')
        intro inner innerMember below
        by_cases here : inner.left = entry.left
        · rw [here, Heap.update_self, Heap.update_self]
          dsimp only
          rw [base, base', children]
        · rw [Heap.update_other here, Heap.update_other here]
          rcases Relation.ReflTransGen.cases_head below with isRoot | ⟨child, step, deep⟩
          · rw [prepared.our_exact.unique_right inner innerMember entry member isRoot.symm] at here
            exact absurd rfl here
          · exact same inner innerMember ⟨child, step.2, deep⟩

/-! ## The files -/

omit prepared nodes agrees in
/-- A base node whose match in our graph is a root, or that has none. -/
def Mapped (M : GraphMerger) (origin : Heap) (Ours : NodeRef → Prop) (rank : NodeRef → Nat)
    (fuel : Nat) (base : NodeRef) : Prop :=
  (∃ entry ∈ M.ourMatching.oneOneMatching, entry.left = base ∧ Ours entry.right ∧
      rank entry.right < fuel ∧ ∀ parent, ¬ OurChild origin Ours parent entry.right) ∨
    M.Unwritten base ∧
      ∀ entry ∈ M.ourMatching.oneOneMatching, entry.leftHash ≠ origin.hash M.std base

/-- Our nodes below the matches of some base nodes. -/
def BelowMatches (M : GraphMerger) (origin : Heap) (Ours : NodeRef → Prop)
    (bases : List NodeRef) (our : NodeRef) : Prop :=
  ∃ entry ∈ M.ourMatching.oneOneMatching, entry.left ∈ bases ∧
    Below (OurChild origin Ours) entry.right our

omit nodes agrees in
/-- Trees with different roots have no node in common. -/
theorem Prepared.roots_apart {fuel : Nat} {first second our : NodeRef}
    {entry entry' : BiEntry NodeRef NodeRef UInt64}
    (member : entry ∈ M.ourMatching.oneOneMatching)
    (member' : entry' ∈ M.ourMatching.oneOneMatching) (left : entry.left = first)
    (left' : entry'.left = second) (mapped : M.Mapped origin Ours rank fuel first)
    (mapped' : M.Mapped origin Ours rank fuel second)
    (below : Below (OurChild origin Ours) entry.right our)
    (below' : Below (OurChild origin Ours) entry'.right our) : first = second := by
  have root : ∀ {base : NodeRef} {found : BiEntry NodeRef NodeRef UInt64},
      found ∈ M.ourMatching.oneOneMatching → found.left = base →
        M.Mapped origin Ours rank fuel base →
          ∀ parent, ¬ OurChild origin Ours parent found.right := by
    rintro base found foundMember foundLeft (⟨other, otherMember, otherLeft, -, -, isRoot⟩ | ⟨away, -⟩)
    · rw [prepared.our_exact.unique_left found foundMember other otherMember
        (foundLeft.trans otherLeft.symm)]
      exact isRoot
    · exact absurd foundLeft (away found foundMember)
  have same : entry.right = entry'.right := by
    rcases prepared.forest.above_total below below' with above | above
    · rcases Relation.ReflTransGen.cases_tail above with same | ⟨parent, -, step⟩
      · exact same.symm
      · exact absurd step (root member' left' mapped' parent)
    · rcases Relation.ReflTransGen.cases_tail above with same | ⟨parent, -, step⟩
      · exact same
      · exact absurd step (root member left mapped parent)
  rw [← left, ← left', prepared.our_exact.unique_right entry member entry' member' same]

omit nodes agrees in
/-- The loop over some files, from a state in which they have not been merged yet: it changes
their trees only, and each of them as if it were merged alone. -/
theorem threeWayMerge_run (favour : M.orderInFavour = .ours) (apart : M.NeighborsApart origin)
    (steady : M.Steady origin) {fuel : Nat} {bases : List NodeRef} (distinct : bases.Nodup)
    (mapped : ∀ base ∈ bases, M.Mapped origin Ours rank (fuel + 1) base)
    (pristine : M.Pristine origin heap (M.BelowMatches origin Ours bases)) :
    ∃ final, M.threeWayMerge (fuel + 1) heap bases = some (final, bases.filterMap fun base =>
        ((M.mergeSemanticNode (fuel + 1) origin base).bind Prod.snd)) ∧
      M.Within heap final (M.BelowMatches origin Ours bases) ∧
      ∀ base ∈ bases, ∃ single merged,
        M.mergeSemanticNode (fuel + 1) origin base = some (single, merged) ∧
          M.SameOn (M.BelowMatches origin Ours [base]) final single := by
  induction bases generalizing heap with
  | nil => exact ⟨heap, rfl, .refl, by simp⟩
  | cons base rest inductionHypothesis =>
    obtain ⟨fresh, distinct⟩ := List.nodup_cons.mp distinct
    have later : ∀ our, M.BelowMatches origin Ours rest our →
        M.BelowMatches origin Ours (base :: rest) our :=
      fun our ⟨entry, member, listed, below⟩ =>
        ⟨entry, member, List.mem_cons_of_mem _ listed, below⟩
    have first : ∀ our, M.BelowMatches origin Ours [base] our →
        M.BelowMatches origin Ours (base :: rest) our := by
      rintro our ⟨entry, member, listed, below⟩
      exact ⟨entry, member, List.mem_singleton.mp listed ▸ List.mem_cons_self, below⟩
    have disjoint : ∀ our, M.BelowMatches origin Ours [base] our →
        ¬ M.BelowMatches origin Ours rest our := by
      rintro our ⟨entry, member, listed, below⟩ ⟨entry', member', listed', below'⟩
      have same := prepared.roots_apart member member' (List.mem_singleton.mp listed) rfl
        (mapped base List.mem_cons_self)
        (mapped entry'.left (List.mem_cons_of_mem _ listed')) below below'
      exact fresh (same ▸ listed')
    have step : ∃ next merged single, M.mergeSemanticNode (fuel + 1) heap base =
          some (next, merged) ∧ M.mergeSemanticNode (fuel + 1) origin base =
            some (single, merged) ∧ M.Within heap next (M.BelowMatches origin Ours [base]) ∧
          M.SameOn (M.BelowMatches origin Ours [base]) next single := by
      rcases mapped base List.mem_cons_self with ⟨entry, member, rfl, isOurs, low, -⟩ | ⟨away, absent⟩
      · have runs := mergeSemanticNode_run prepared favour (fuel + 1)
        have only : ∀ our, M.BelowMatches origin Ours [entry.left] our ↔
            Below (OurChild origin Ours) entry.right our := by
          intro our
          constructor
          · rintro ⟨found, foundMember, listed, below⟩
            rwa [prepared.our_exact.unique_left found foundMember entry member
              (List.mem_singleton.mp listed)] at below
          · exact fun below => ⟨entry, member, List.mem_singleton_self _, below⟩
        have pristineHere : M.Pristine origin heap (Below (OurChild origin Ours) entry.right) :=
          pristine.mono fun our below => first our ((only our).mpr below)
        obtain ⟨next, called, within, -⟩ := runs entry member isOurs low heap pristineHere
        obtain ⟨single, alone, -, -⟩ := runs entry member isOurs low origin .refl
        have same := mergeSemanticNode_agrees prepared favour apart steady (fuel + 1) entry member
          isOurs low pristineHere .refl called alone
        exact ⟨next, _, single, called, alone, within.mono fun our => (only our).mpr,
          fun found foundMember below => same found foundMember ((only _).mp below)⟩
      · have missed : ∀ {state : Heap}, state base = origin base →
            M.ourMatching.oneOneMatching.leftFind (state.hash M.std) base = none := by
          intro state same
          refine HashBiMap.leftFind_none fun entry member => ?_
          rw [@Heap.hash_congr M.std _ _ _ _ same]
          exact absent entry member
        have none_ : ∀ {state : Heap}, state base = origin base →
            M.mergeSemanticNode (fuel + 1) state base = some (state, none) := by
          intro state same
          rw [mergeSemanticNode, missed same]
        refine ⟨heap, none, origin, none_ (pristine.unwritten away), none_ rfl, .refl, ?_⟩
        rintro entry member ⟨found, foundMember, listed, -⟩
        exact absurd (List.mem_singleton.mp listed) (away found foundMember)
    obtain ⟨next, merged, single, called, alone, within, same⟩ := step
    obtain ⟨final, others, withinRest, sames⟩ := inductionHypothesis distinct
      (fun other listed => mapped other (List.mem_cons_of_mem _ listed))
      ((pristine.mono later).step within disjoint)
    refine ⟨final, ?_, (within.mono first).trans (withinRest.mono later), ?_⟩
    · rw [threeWayMerge, called]
      simp only [Option.bind_eq_bind, Option.bind_some, others, List.filterMap_cons, alone]
      cases merged <;> rfl
    · intro other listed
      rcases List.mem_cons.mp listed with rfl | isLater
      · refine ⟨single, merged, alone, fun entry member below => ?_⟩
        rw [← same entry member below]
        by_contra changed
        obtain ⟨found, foundMember, left, inside⟩ := withinRest entry.left changed
        rw [prepared.our_exact.unique_left found foundMember entry member left] at inside
        exact disjoint _ below inside
      · exact sames other isLater

omit nodes agrees in
/-- The files can be merged in any order: the nodes are the same in the end, and so are the files
that are kept. -/
theorem threeWayMerge_perm (favour : M.orderInFavour = .ours) (apart : M.NeighborsApart origin)
    (steady : M.Steady origin) {fuel : Nat} {bases bases' : List NodeRef}
    (distinct : bases.Nodup)
    (mapped : ∀ base ∈ bases, M.Mapped origin Ours rank (fuel + 1) base)
    (perm : bases.Perm bases') :
    ∃ final kept kept', M.threeWayMerge (fuel + 1) origin bases = some (final, kept) ∧
      M.threeWayMerge (fuel + 1) origin bases' = some (final, kept') ∧ kept.Perm kept' := by
  obtain ⟨final, returned, within, sames⟩ :=
    threeWayMerge_run prepared favour apart steady distinct mapped .refl
  obtain ⟨final', returned', within', sames'⟩ := threeWayMerge_run prepared favour apart steady
    (perm.nodup_iff.mp distinct) (fun base listed => mapped base (perm.mem_iff.mpr listed)) .refl
  have agree : ∀ ref, M.BelowMatches origin Ours bases ref →
      ∀ entry ∈ M.ourMatching.oneOneMatching, entry.right = ref →
        final entry.left = final' entry.left := by
    rintro ref ⟨root, rootMember, listed, below⟩ entry member rfl
    have here : M.BelowMatches origin Ours [root.left] entry.right :=
      ⟨root, rootMember, List.mem_singleton_self _, below⟩
    obtain ⟨single, merged, alone, same⟩ := sames root.left listed
    obtain ⟨single', merged', alone', same'⟩ := sames' root.left (perm.mem_iff.mp listed)
    rw [alone] at alone'
    obtain ⟨rfl, -⟩ := Prod.mk.inj (Option.some.inj alone')
    rw [same entry member here, same' entry member here]
  have equal : final' = final := by
    funext ref
    by_cases changed : final ref = origin ref
    · by_cases changed' : final' ref = origin ref
      · rw [changed, changed']
      · obtain ⟨entry, member, rfl, root, rootMember, listed, below⟩ := within' ref changed'
        exact (agree entry.right ⟨root, rootMember, perm.mem_iff.mpr listed, below⟩ entry member
          rfl).symm
    · obtain ⟨entry, member, rfl, inside⟩ := within ref changed
      exact (agree entry.right inside entry member rfl).symm
  rw [equal] at returned'
  exact ⟨final, _, _, returned, returned', perm.filterMap _⟩

end Agreement

/-- Two files with one line each; their side adds a line to the first file. -/
def twoFiles : Heap
  | 0 => { kind := .translationUnit, qualifiedName := "a.h", children := [1] }
  | 1 => { kind := .textual, body := "A", parent := some 0, id := 1 }
  | 2 => { kind := .translationUnit, qualifiedName := "b.h", children := [3], id := 2 }
  | 3 => { kind := .textual, body := "B", parent := some 2, id := 3 }
  | 4 => { kind := .translationUnit, qualifiedName := "a.h", children := [5] }
  | 5 => { kind := .textual, body := "A", parent := some 4, id := 1 }
  | 6 => { kind := .translationUnit, qualifiedName := "b.h", children := [7], id := 2 }
  | 7 => { kind := .textual, body := "B", parent := some 6, id := 3 }
  | 8 => { kind := .translationUnit, qualifiedName := "a.h", children := [9, 10] }
  | 9 => { kind := .textual, body := "A", parent := some 8, id := 1 }
  | 10 => { kind := .textual, body := "X", parent := some 8, id := 2 }
  | 11 => { kind := .translationUnit, qualifiedName := "b.h", children := [12], id := 3 }
  | 12 => { kind := .textual, body := "B", parent := some 11, id := 4 }
  | _ => {}

/-- The merger of the three versions. -/
def twoFilesMerger : GraphMerger where
  std := .polynomial
  gitMergeTextual our _ _ _ _ _ := our
  ourMatching :=
    { oneOneMatching := tableOf .polynomial twoFiles [(0, 4), (1, 5), (2, 6), (3, 7)] }
  theirMatching :=
    { oneOneMatching := tableOf .polynomial twoFiles [(0, 8), (1, 9), (2, 11), (3, 12)]
      possiblyAdded := Function.update (fun _ => []) .textual [10] }

theorem twoFilesMerger_prepared :
    twoFilesMerger.Prepared twoFiles (· ∈ [4, 5, 6, 7])
      fun ref => if ref = 4 ∨ ref = 6 then 1 else 0 := by
  have ours : twoFilesMerger.ourMatching.Partition .polynomial twoFiles [0, 1, 2, 3]
      [4, 5, 6, 7] := by decide
  have theirs : twoFilesMerger.theirMatching.Partition .polynomial twoFiles [0, 1, 2, 3]
      [8, 9, 10, 11, 12] := by decide
  exact .of_partition ours theirs (by decide) (by decide) (by decide) (by decide)

/-- The first file and the second, or the second and the first. -/
theorem twoFiles_perm :
    ∃ final kept kept',
      twoFilesMerger.threeWayMerge 2 twoFiles [0, 2] = some (final, kept) ∧
        twoFilesMerger.threeWayMerge 2 twoFiles [2, 0] = some (final, kept') ∧
        kept.Perm kept' := by
  have apart : twoFilesMerger.NeighborsApart twoFiles := by
    intro added isAdded
    have isLine : added = 10 := by
      rcases isAdded with isOurs | isTheirs
      · exact absurd isOurs (by decide +revert)
      · exact List.mem_singleton.mp isTheirs
    subst isLine
    decide
  have mapped : ∀ base ∈ [0, 2], twoFilesMerger.Mapped twoFiles (· ∈ [4, 5, 6, 7])
      (fun ref => if ref = 4 ∨ ref = 6 then 1 else 0) 2 base := by
    have roots : ∀ parent ∈ [4, 5, 6, 7], 4 ∉ (twoFiles parent).children ∧
        6 ∉ (twoFiles parent).children := by decide
    intro base listed
    simp only [List.mem_cons, List.not_mem_nil, or_false] at listed
    rcases listed with rfl | rfl
    · exact .inl ⟨⟨0, 4, twoFiles.hash .polynomial 0, twoFiles.hash .polynomial 4⟩, by decide, rfl,
        by decide, by decide, fun parent step => (roots parent step.1).1 step.2⟩
    · exact .inl ⟨⟨2, 6, twoFiles.hash .polynomial 2, twoFiles.hash .polynomial 6⟩, by decide, rfl,
        by decide, by decide, fun parent step => (roots parent step.1).2 step.2⟩
  exact threeWayMerge_perm twoFilesMerger_prepared rfl apart (by unfold Steady; decide) (by decide)
    mapped (by decide)

end GraphMerger

end MergeBot
