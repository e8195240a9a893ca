import MergeBot.Semantic.MergedRecord

/-!
# The two order modes mirror each other

Merging in the order of their side is merging in the order of our side with the
two sides exchanged (`mergeSemanticNode_exchanged`). The two runs go in step:
whenever they have come to heaps that are `Alike`, the next calls return the
same nodes and heaps that are alike again. Heaps are alike when they agree on
everything but the fields that are taken from one side on purpose.
-/

namespace MergeBot

open Foundation

namespace SemanticNode

/-- A record without guards, front declarations, parameter and initializer lists,
access and blank lines. -/
def core (node : SemanticNode) : SemanticNode :=
  { node with
    followingEOL := 0
    accessSpecifier := .none
    beforeFirstChildEOL := 0
    traditionGuard := true
    headerGuard := []
    frontDecls := []
    parameterList := []
    initList := [] }

theorem hashSignature_core (std : StdHash) (node : SemanticNode) :
    node.core.hashSignature std = node.hashSignature std :=
  rfl

end SemanticNode

/-- Two moments at which every node has the same core. -/
def Alike (first second : Heap) : Prop :=
  ∀ ref, (first ref).core = (second ref).core

namespace Alike

variable {first second : Heap} (alike : Alike first second)

include alike

/-- What is read from the core alone reads the same. -/
theorem read {β : Type} (field : SemanticNode → β) (ref : NodeRef)
    (inCore : ∀ node : SemanticNode, field node.core = field node) :
    field (first ref) = field (second ref) :=
  SemanticNode.read_of_view (alike ref) field inCore

/-- Identities are part of the core. -/
theorem hash (std : StdHash) : first.hash std = second.hash std := by
  ext ref : 1
  exact alike.read (SemanticNode.hashSignature std) ref (SemanticNode.hashSignature_core std)

/-- Overwriting one node with alike records. -/
theorem update {ref : NodeRef} {node node' : SemanticNode} (same : node.core = node'.core) :
    Alike (first.update ref node) (second.update ref node') := by
  intro other
  by_cases here : other = ref
  · subst here
    simpa using same
  · simpa [here] using alike other

end Alike

namespace GraphMerger

/-- The merger with the two sides exchanged, and the other order in favour. The
hash tables of added nodes may be walked in any order. -/
def exchanged (M : GraphMerger) (ourOrder theirOrder : KindOrder) : GraphMerger where
  std := M.std
  gitMergeTextual := M.gitMergeTextual
  ourSideId := M.theirSideId
  baseSideId := M.baseSideId
  theirSideId := M.ourSideId
  ourMatching := { M.theirMatching with addedOrder := ourOrder }
  theirMatching := { M.ourMatching with addedOrder := theirOrder }
  orderInFavour :=
    match M.orderInFavour with
    | .ours => .theirs
    | .theirs => .ours

/-- The textual merge gives the same text when its two sides are exchanged. -/
def SymmetricMerge (M : GraphMerger) : Prop :=
  ∀ our base their baseSide theirSide ourSide,
    M.gitMergeTextual our base their baseSide theirSide ourSide =
      M.gitMergeTextual their base our baseSide ourSide theirSide

/-- Node IDs tell the nodes added on one side apart. -/
def UniqueIds (heap : Heap) (matching : TwoWayMatching) : Prop :=
  ∀ first ∈ matching.possiblyAdded.collect, ∀ second ∈ matching.possiblyAdded.collect,
    (heap first).id = (heap second).id → first = second

variable {M : GraphMerger} {ourOrder theirOrder : KindOrder}

/-- The core of a merged function depends on cores. -/
theorem mergeFunction_core (our base their : SemanticNode) :
    (M.mergeFunction our base their).core =
      (M.mergeFunction our.core base.core their.core).core := by
  unfold mergeFunction
  have condition : (base.core.originalSignature = our.core.originalSignature ∨
        base.core.originalSignature = their.core.originalSignature) =
      (base.originalSignature = our.originalSignature ∨
        base.originalSignature = their.originalSignature) :=
    rfl
  have kind : base.core.kind = base.kind := rfl
  by_cases unchanged : base.originalSignature = our.originalSignature ∨
      base.originalSignature = their.originalSignature
  · simp only [condition, if_pos unchanged]
    rfl
  · simp only [condition, if_neg unchanged, kind]
    cases base.kind <;> rfl

theorem mergeSignatureParts_core (our base their : SemanticNode) :
    (M.mergeSignatureParts our base their).core =
      (M.mergeSignatureParts our.core base.core their.core).core := by
  have kind : base.core.kind = base.kind := rfl
  unfold mergeSignatureParts
  rw [kind]
  split_ifs
  · exact mergeFunction_core our base their
  · rfl

/-- The core of a merged terminal depends on cores. -/
theorem mergeTerminal_core (our base their : SemanticNode) :
    (M.mergeTerminal our base their).core =
      (M.mergeTerminal our.core base.core their.core).core := by
  have parts : (M.mergeSignatureParts our (M.mergeTerminalTexts our base their) their).core =
      (M.mergeSignatureParts our.core (M.mergeTerminalTexts our.core base.core their.core)
        their.core).core :=
    (mergeSignatureParts_core our _ their).trans
      (mergeSignatureParts_core our.core
        (M.mergeTerminalTexts our.core base.core their.core) their.core).symm
  exact congrArg (fun node : SemanticNode => { node with
    originalSignature := M.mergeText our.originalSignature base.originalSignature
      their.originalSignature }) parts

/-- The core of a merged composite: only its texts change. -/
theorem mergeComposite_core (our base their : SemanticNode) :
    (M.mergeComposite our base their).core =
      { base.core with
        comment := M.mergeText our.comment base.comment their.comment
        originalSignature := M.mergeText our.originalSignature base.originalSignature
          their.originalSignature
        qualifiedName := M.mergeText our.qualifiedName base.qualifiedName
          their.qualifiedName } := by
  have unit : (mergeTranslationUnit our base their).core = base.core := by
    unfold mergeTranslationUnit
    split_ifs <;> rfl
  rw [← unit]
  rfl

section Records

variable (symmetric : M.SymmetricMerge)

include symmetric

theorem mergeText_exchanged (our base their : String) :
    (M.exchanged ourOrder theirOrder).mergeText their base our = M.mergeText our base their := by
  simp only [mergeText, exchanged, symmetric our base their]
  split_ifs with theirSame ourSame
  · rw [theirSame, ourSame]
  · rfl
  · rfl
  · rfl

theorem mergeFunction_exchanged (our base their : SemanticNode) :
    ((M.exchanged ourOrder theirOrder).mergeFunction their base our).core =
      (M.mergeFunction our base their).core := by
  unfold mergeFunction
  by_cases unchanged : base.originalSignature = our.originalSignature ∨
      base.originalSignature = their.originalSignature
  · rw [if_pos unchanged, if_pos unchanged.symm]
  · rw [if_neg unchanged, if_neg fun same => unchanged same.symm]
    have definition : (if their.defType = base.defType then our.defType
          else if our.defType = base.defType then their.defType else .plain) =
        if our.defType = base.defType then their.defType
          else if their.defType = base.defType then our.defType else .plain := by
      split_ifs with theirSame ourSame
      · rw [theirSame, ourSame]
      · rfl
      · rfl
      · rfl
    cases base.kind <;>
      simp only [SemanticNode.core, mergeText_exchanged symmetric, definition]

/-- Exchanging the sides gives a terminal the same core. -/
theorem mergeTerminal_exchanged (our base their : SemanticNode) :
    ((M.exchanged ourOrder theirOrder).mergeTerminal their base our).core =
      (M.mergeTerminal our base their).core := by
  have texts : ((M.exchanged ourOrder theirOrder).mergeTerminalTexts their base our).core =
      (M.mergeTerminalTexts our base their).core := by
    simp only [mergeTerminalTexts, SemanticNode.core, mergeText_exchanged symmetric]
  have parts : ((M.exchanged ourOrder theirOrder).mergeSignatureParts their
        ((M.exchanged ourOrder theirOrder).mergeTerminalTexts their base our) our).core =
      (M.mergeSignatureParts our (M.mergeTerminalTexts our base their) their).core := by
    rw [mergeSignatureParts_core, texts, ← mergeSignatureParts_core]
    unfold mergeSignatureParts
    split_ifs
    · exact mergeFunction_exchanged symmetric our _ their
    · rfl
  rw [mergeTerminal, mergeText_exchanged symmetric]
  exact congrArg (fun node : SemanticNode => { node with
    originalSignature := M.mergeText our.originalSignature base.originalSignature
      their.originalSignature }) parts

/-- Exchanging the sides gives a composite the same core. -/
theorem mergeComposite_exchanged (our base their : SemanticNode) :
    ((M.exchanged ourOrder theirOrder).mergeComposite their base our).core =
      (M.mergeComposite our base their).core := by
  simp only [mergeComposite_core, mergeText_exchanged symmetric]

variable {first second : Heap} (alike : Alike first second)

include alike

/-- Merged terminals of alike heaps. -/
theorem mergeTerminal_alike (our base their : NodeRef) :
    ((M.exchanged ourOrder theirOrder).mergeTerminal (second their) (second base)
        (second our)).core =
      (M.mergeTerminal (first our) (first base) (first their)).core := by
  rw [mergeTerminal_core, ← alike our, ← alike base, ← alike their, ← mergeTerminal_core]
  exact mergeTerminal_exchanged symmetric _ _ _

/-- Merged composites of alike heaps. -/
theorem mergeComposite_alike (our base their : NodeRef) :
    ((M.exchanged ourOrder theirOrder).mergeComposite (second their) (second base)
        (second our)).core =
      (M.mergeComposite (first our) (first base) (first their)).core := by
  have cores : ∀ (N : GraphMerger) (our base their : SemanticNode),
      (N.mergeComposite our base their).core =
        (N.mergeComposite our.core base.core their.core).core := by
    intro N our base their
    simp only [mergeComposite_core]
    rfl
  rw [cores, ← alike our, ← alike base, ← alike their, ← cores]
  exact mergeComposite_exchanged symmetric _ _ _

end Records

section Added

variable {first second : Heap} (alike : Alike first second)

include alike

/-- Added nodes are listed in the same order, since their IDs order them. -/
theorem filterAddedNodes_alike {matching : TwoWayMatching} (order : KindOrder)
    (unique : UniqueIds first matching) (base : NodeRef) :
    (M.exchanged ourOrder theirOrder).filterAddedNodes second base
        { matching with addedOrder := order } =
      M.filterAddedNodes first base matching := by
  have hash := alike.hash M.std
  have parents : ∀ added, (second added).parent = (first added).parent := fun added =>
    (alike.read SemanticNode.parent added fun _ => rfl).symm
  have ids : ∀ added, (second added).id = (first added).id := fun added =>
    (alike.read SemanticNode.id added fun _ => rfl).symm
  simp only [filterAddedNodes, exchanged, ← hash, parents]
  cases matching.oneOneMatching.leftFind (first.hash M.std) base with
  | none => rfl
  | some entry =>
      have walked : (order.1.flatMap matching.possiblyAdded).Perm
          (matching.addedOrder.1.flatMap matching.possiblyAdded) :=
        (order.2.trans matching.addedOrder.2.symm).flatMap_right _
      have kept := walked.filter fun added =>
        (first added).parent.any fun parent =>
          first.hash M.std parent = first.hash M.std entry.right
      have sorted := (List.perm_insertionSort (ByID second) _).trans
        (kept.trans (List.perm_insertionSort (ByID first) _).symm)
      have inside : ∀ added, added ∈ (order.1.flatMap matching.possiblyAdded) →
          added ∈ matching.possiblyAdded.collect := fun added =>
        ((order.2.flatMap_right matching.possiblyAdded).mem_iff).mp
      refine sorted.eq_of_pairwise (fun left right inLeft inRight below above => ?_)
        ((List.pairwise_insertionSort (ByID second) _).imp fun {left right} below => ?_)
        (List.pairwise_insertionSort (ByID first) _)
      · have inRight := (sorted.mem_iff).mpr inRight
        simp only [List.mem_insertionSort, List.mem_filter] at inLeft inRight
        simp only [ByID] at below above
        exact unique left (inside left inLeft.1) right (inside right inRight.1)
          (Int.le_antisymm below above)
      · simpa only [ByID, ids] using below

/-- Siblings are the same. -/
theorem getNeighbors_alike (ref : NodeRef) :
    (M.exchanged ourOrder theirOrder).getNeighbors second ref = M.getNeighbors first ref := by
  have comments : isOrphanComment second = isOrphanComment first := by
    ext sibling
    simp only [isOrphanComment, alike.read SemanticNode.kind sibling fun _ => rfl]
  have parent := alike.read SemanticNode.parent ref fun _ => rfl
  simp only [getNeighbors, parent, comments]
  cases (second ref).parent with
  | none => rfl
  | some parent =>
      have children := alike.read SemanticNode.children parent fun _ => rfl
      simp only [children, alike.hash]
      rfl

/-- Insertions are the same. -/
theorem insertAdded_alike :
    (M.exchanged ourOrder theirOrder).insertAdded second = M.insertAdded first := by
  ext mergedChildren added : 2
  simp only [insertAdded, getNeighbors_alike alike, alike.hash]
  rfl

end Added

section Simulation

/-- Heaps of two runs that have come equally far. -/
structure InStep (M : GraphMerger) (first second : Heap) : Prop where
  alike : Alike first second
  ourIds : UniqueIds first M.ourMatching
  theirIds : UniqueIds first M.theirMatching

/-- Both calls run out of fuel, or they return the same and stay in step. -/
def Agree {β : Type} (M : GraphMerger) (result result' : Option (Heap × β)) : Prop :=
  Option.Rel (fun outcome outcome' =>
    M.InStep outcome.1 outcome'.1 ∧ outcome.2 = outcome'.2) result result'

/-- Overwriting one node on both sides. -/
theorem InStep.update {first second : Heap} (inStep : M.InStep first second) {ref : NodeRef}
    {node node' : SemanticNode} (same : node.core = node'.core)
    (sameId : node.id = (first ref).id) :
    M.InStep (first.update ref node) (second.update ref node') := by
  have ids : ∀ other, (first.update ref node other).id = (first other).id := by
    intro other
    by_cases here : other = ref
    · simp [here, sameId]
    · simp [here]
  refine ⟨inStep.alike.update same, ?_, ?_⟩
  · intro left inLeft right inRight
    simpa only [ids] using inStep.ourIds left inLeft right inRight
  · intro left inLeft right inRight
    simpa only [ids] using inStep.theirIds left inLeft right inRight

/-- What agreement says about the outcomes. -/
theorem Agree.outcomes {β : Type} {result result' : Option (Heap × β)}
    (agree : M.Agree result result') :
    Option.Rel (fun outcome outcome' => Alike outcome.1 outcome'.1 ∧ outcome.2 = outcome'.2)
      result result' := by
  cases agree with
  | none => exact .none
  | some same => exact .some ⟨same.1.alike, same.2⟩

/-- One call after the other. -/
theorem Agree.bind {β γ : Type} {result result' : Option (Heap × β)}
    {next next' : Heap × β → Option (Heap × γ)} (agree : M.Agree result result')
    (later : ∀ first second value, M.InStep first second →
      M.Agree (next (first, value)) (next' (second, value))) :
    M.Agree (result.bind next) (result'.bind next') := by
  cases agree with
  | none => exact .none
  | some same =>
      rename_i outcome outcome'
      obtain ⟨inStep, values⟩ := same
      obtain ⟨first, value⟩ := outcome
      obtain ⟨second, value'⟩ := outcome'
      cases values
      exact later first second value inStep

/-- Duplicates are told by identities. -/
theorem removeDuplicates_alike {first second : Heap} (alike : Alike first second)
    (ourAdded theirAdded : List NodeRef) :
    (M.exchanged ourOrder theirOrder).removeDuplicates second ourAdded theirAdded =
      M.removeDuplicates first ourAdded theirAdded := by
  simp only [removeDuplicates, alike.hash]
  rfl

/-- What their side alone added is what our side alone added after the exchange. -/
theorem theirsAdded_exchanged {first second : Heap} (inStep : M.InStep first second)
    (base : NodeRef) :
    (M.exchanged ourOrder theirOrder).oursAdded second base = M.theirsAdded first base := by
  rw [oursAdded, removeDuplicates_alike inStep.alike]
  change M.removeDuplicates first
      ((M.exchanged ourOrder theirOrder).filterAddedNodes second base
        { M.theirMatching with addedOrder := ourOrder })
      ((M.exchanged ourOrder theirOrder).filterAddedNodes second base
        { M.ourMatching with addedOrder := theirOrder }) = _
  rw [filterAddedNodes_alike inStep.alike ourOrder inStep.theirIds,
    filterAddedNodes_alike inStep.alike theirOrder inStep.ourIds]
  rfl

/-- What our side alone added is what their side alone added after the exchange. -/
theorem oursAdded_exchanged {first second : Heap} (inStep : M.InStep first second)
    (base : NodeRef) :
    (M.exchanged ourOrder theirOrder).theirsAdded second base = M.oursAdded first base := by
  rw [theirsAdded, removeDuplicates_alike inStep.alike]
  change M.removeDuplicates first
      ((M.exchanged ourOrder theirOrder).filterAddedNodes second base
        { M.ourMatching with addedOrder := theirOrder })
      ((M.exchanged ourOrder theirOrder).filterAddedNodes second base
        { M.theirMatching with addedOrder := ourOrder }) = _
  rw [filterAddedNodes_alike inStep.alike ourOrder inStep.theirIds,
    filterAddedNodes_alike inStep.alike theirOrder inStep.ourIds]
  rfl

variable {mergeNode mergeNode' : Heap → NodeRef → Option (Heap × Option NodeRef)}
  (nodes : ∀ first second base, M.InStep first second →
    M.Agree (mergeNode first base) (mergeNode' second base))
  {first second : Heap} (inStep : M.InStep first second)

include nodes inStep

/-- The first phase goes in step child by child. -/
theorem mergeChild_agree {matching : TwoWayMatching} (order : KindOrder) (child : NodeRef) :
    M.Agree (M.mergeChild mergeNode matching first child)
      ((M.exchanged ourOrder theirOrder).mergeChild mergeNode'
        { matching with addedOrder := order } second child) := by
  simp only [mergeChild, exchanged, inStep.alike.hash]
  cases matching.oneOneMatching.rightFind (second.hash M.std) child with
  | none => exact .some ⟨inStep, rfl⟩
  | some entry =>
      refine Agree.bind (nodes first second entry.left inStep) fun next next' merged inStep => ?_
      cases merged with
      | none => exact .some ⟨inStep, rfl⟩
      | some baseChild =>
          refine .some ⟨inStep.update ?_ rfl, rfl⟩
          exact inStep.alike baseChild

/-- The first phase goes in step. -/
theorem mergeOrderedChildren_agree {matching : TwoWayMatching} (order : KindOrder)
    (children : List NodeRef) :
    M.Agree (M.mergeOrderedChildren mergeNode matching first children)
      ((M.exchanged ourOrder theirOrder).mergeOrderedChildren mergeNode'
        { matching with addedOrder := order } second children) := by
  induction children generalizing first second with
  | nil => exact .some ⟨inStep, rfl⟩
  | cons child rest ih =>
      refine Agree.bind (mergeChild_agree nodes inStep order child)
        fun next next' merged inStep => ?_
      exact Agree.bind (ih inStep) fun last last' others inStep => .some ⟨inStep, rfl⟩

/-- Both phases go in step: their order on one side, ours on the other. -/
theorem directMergeChildren_agree (our base their : NodeRef) :
    M.Agree (M.directMergeChildren mergeNode first our base their)
      ((M.exchanged ourOrder theirOrder).directMergeChildren mergeNode' second
        their base our) := by
  have siblings : ∀ side, (first side).children = (second side).children := fun side =>
    inStep.alike.read SemanticNode.children side fun _ => rfl
  cases favour : M.orderInFavour with
  | ours =>
      have favour' : (M.exchanged ourOrder theirOrder).orderInFavour = .theirs := by
        simp [exchanged, favour]
      simp only [directMergeChildren, favour, favour']
      refine Agree.bind ?_ fun next next' merged inStep => .some ⟨inStep, ?_⟩
      · rw [siblings]
        exact mergeOrderedChildren_agree nodes inStep theirOrder (second our).children
      · simp only [theirsAdded_exchanged inStep, insertAdded_alike inStep.alike]
  | theirs =>
      have favour' : (M.exchanged ourOrder theirOrder).orderInFavour = .ours := by
        simp [exchanged, favour]
      simp only [directMergeChildren, favour, favour']
      refine Agree.bind ?_ fun next next' merged inStep => .some ⟨inStep, ?_⟩
      · rw [siblings]
        exact mergeOrderedChildren_agree nodes inStep ourOrder (second their).children
      · simp only [oursAdded_exchanged inStep, insertAdded_alike inStep.alike]

end Simulation

/-- Runs in step stay in step. -/
theorem mergeSemanticNode_agree (symmetric : M.SymmetricMerge) (fuel : Nat) {first second : Heap}
    (inStep : M.InStep first second) (base : NodeRef) :
    M.Agree (M.mergeSemanticNode fuel first base)
      ((M.exchanged ourOrder theirOrder).mergeSemanticNode fuel second base) := by
  induction fuel generalizing first second base with
  | zero => exact .none
  | succ fuel ih =>
      have kind := inStep.alike.read SemanticNode.kind base fun _ => rfl
      have std : (M.exchanged ourOrder theirOrder).std = M.std := rfl
      have ourTable : (M.exchanged ourOrder theirOrder).ourMatching.oneOneMatching =
          M.theirMatching.oneOneMatching := rfl
      have theirTable : (M.exchanged ourOrder theirOrder).theirMatching.oneOneMatching =
          M.ourMatching.oneOneMatching := rfl
      simp only [mergeSemanticNode, std, ourTable, theirTable, ← inStep.alike.hash, ← kind]
      cases M.ourMatching.oneOneMatching.leftFind (first.hash M.std) base with
      | none =>
          cases M.theirMatching.oneOneMatching.leftFind (first.hash M.std) base with
          | none => exact .some ⟨inStep, rfl⟩
          | some theirEntry => exact .some ⟨inStep, rfl⟩
      | some ourEntry =>
          cases M.theirMatching.oneOneMatching.leftFind (first.hash M.std) base with
          | none => exact .some ⟨inStep, rfl⟩
          | some theirEntry =>
              simp only
              split_ifs
              · refine .some ⟨inStep.update ?_ ?_, rfl⟩
                · exact (mergeTerminal_alike symmetric inStep.alike _ _ _).symm
                · exact SemanticNode.read_of_view (M.mergeTerminal_unmerged _ _ _) SemanticNode.id
                    fun _ => rfl
              · refine Agree.bind ?_ fun next next' children inStep => .some ⟨?_, rfl⟩
                · apply directMergeChildren_agree fun left right base inStep => ih inStep base
                  apply inStep.update
                  · exact (mergeComposite_alike symmetric inStep.alike _ _ _).symm
                  · exact SemanticNode.read_of_view (M.mergeComposite_unmerged _ _ _) SemanticNode.id
                      fun _ => rfl
                · refine inStep.update ?_ rfl
                  exact congrArg (fun node : SemanticNode => { node with children := children })
                    (inStep.alike base)

/-- Exchanging the two sides and the order mode gives the same merge: both runs
return or neither does, they return the same node, and every node is the same up
to guards, front declarations, parameter and initializer lists, access and blank
lines. -/
theorem mergeSemanticNode_exchanged (symmetric : M.SymmetricMerge) (heap : Heap)
    (ourIds : UniqueIds heap M.ourMatching) (theirIds : UniqueIds heap M.theirMatching)
    (fuel : Nat) (base : NodeRef) :
    Option.Rel (fun outcome outcome' => Alike outcome.1 outcome'.1 ∧ outcome.2 = outcome'.2)
      (M.mergeSemanticNode fuel heap base)
      ((M.exchanged ourOrder theirOrder).mergeSemanticNode fuel heap base) := by
  have start : M.InStep heap heap := ⟨fun _ => rfl, ourIds, theirIds⟩
  exact (mergeSemanticNode_agree symmetric fuel start base).outcomes

/-- A file with one macro line in base; either side adds a line. -/
def bothAdd : Heap
  | 0 => { kind := .translationUnit, qualifiedName := "a.h", children := [1] }
  | 1 => { kind := .textual, body := "A", parent := some 0, id := 1 }
  | 2 => { kind := .translationUnit, qualifiedName := "a.h", children := [3, 4] }
  | 3 => { kind := .textual, body := "A", parent := some 2, id := 1 }
  | 4 => { kind := .textual, body := "X", parent := some 2, id := 2 }
  | 5 => { kind := .translationUnit, qualifiedName := "a.h", children := [6, 7] }
  | 6 => { kind := .textual, body := "Y", parent := some 5, id := 1 }
  | 7 => { kind := .textual, body := "A", parent := some 5, id := 2 }
  | _ => {}

/-- The merger of the three versions, in the order of their side. -/
def bothAddMerger : GraphMerger where
  std := .polynomial
  gitMergeTextual _ base _ _ _ _ := base
  ourMatching :=
    { oneOneMatching := tableOf .polynomial bothAdd [(0, 2), (1, 3)]
      possiblyAdded := Function.update (fun _ => []) .textual [4] }
  theirMatching :=
    { oneOneMatching := tableOf .polynomial bothAdd [(0, 5), (1, 7)]
      possiblyAdded := Function.update (fun _ => []) .textual [6] }
  orderInFavour := .theirs

/-- Their order, and our order with the sides exchanged. -/
theorem bothAdd_exchanged :
    Option.Rel (fun outcome outcome' => Alike outcome.1 outcome'.1 ∧ outcome.2 = outcome'.2)
      (bothAddMerger.mergeSemanticNode 3 bothAdd 0)
      ((bothAddMerger.exchanged default default).mergeSemanticNode 3 bothAdd 0) :=
  mergeSemanticNode_exchanged (fun _ _ _ _ _ _ => rfl) bothAdd
    (by unfold UniqueIds; decide) (by unfold UniqueIds; decide) 3 0

end GraphMerger

end MergeBot
