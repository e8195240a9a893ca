import Mathlib.Data.List.Induction
import Mathlib.Data.List.TakeWhile
import MergeBot.Foundation.FirstOccurrences
import MergeBot.Semantic.GraphMerger

/-!
# The union of string vectors

`mergeStrVecByUnion_safe`: every insertion of the union happens inside the list,
and the result lists each string of the three vectors once, those of the first
vector in their order. `mergeStrVecByUnion_in_place_iff`: additions of the third
vector keep their place exactly when it starts as the first vector does and they
sit in one gap of it or behind its last item. The positions come from the first
vector: they are not moved when something is inserted before them, and the
position that the second vector leaves behind is where additions at the front go.
-/

namespace MergeBot

open Foundation

namespace GraphMerger

/-! ## The fences -/

/-- The last item overwrites the entry of an equal one before it. -/
theorem fences_concat (items : List String) (last : String) :
    fences (items ++ [last]) = Function.update (fences items) last (some items.length) := by
  simp [fences, List.zipIdx_append]

/-- Exactly the items of the vector are fences. -/
theorem fences_eq_none_iff {items : List String} {item : String} :
    fences items item = none ↔ item ∉ items := by
  induction items using List.reverseRecOn with
  | nil => simp [fences]
  | append_singleton items last inductionHypothesis =>
      rw [fences_concat, Function.update_apply]
      by_cases same : item = last
      · simp [same]
      · simp [same, inductionHypothesis]

/-- A fence is a position of the vector. -/
theorem fences_lt {items : List String} {item : String} {index : Nat}
    (found : fences items item = some index) : index < items.length := by
  induction items using List.reverseRecOn with
  | nil => simp [fences] at found
  | append_singleton items last inductionHypothesis =>
      rw [fences_concat, Function.update_apply] at found
      rw [List.length_append, List.length_singleton]
      split at found
      · have index_eq := Option.some.inj found
        omega
      · exact Nat.lt_succ_of_lt (inductionHypothesis found)

/-- In a vector without repetitions an item is at its fence. -/
theorem fences_of_nodup {front rest : List String} {item : String}
    (nodup : (front ++ item :: rest).Nodup) :
    fences (front ++ item :: rest) item = some front.length := by
  induction rest using List.reverseRecOn with
  | nil => rw [fences_concat, Function.update_self]
  | append_singleton rest last inductionHypothesis =>
      have split_eq : front ++ item :: (rest ++ [last]) = (front ++ item :: rest) ++ [last] := by
        simp
      rw [split_eq] at nodup ⊢
      have before : (front ++ item :: rest).Nodup := (List.nodup_append.mp nodup).1
      have other : item ≠ last :=
        (List.nodup_append.mp nodup).2.2 item (by simp) last (by simp)
      rw [fences_concat, Function.update_of_ne other, inductionHypothesis before]

/-! ## One vector -/

variable {v1 : List String} {state : UnionState}

/-- One item is inserted or collected, unless it is a fence. -/
theorem unionItem_perm (fence : String → Option Nat) (state : UnionState) (item : String) :
    ((unionItem fence state item).ret ++ (unionItem fence state item).tmpList).Perm
      (state.ret ++ state.tmpList ++ [item].filter fun one => (fence one).isNone) := by
  cases found : fence item with
  | some index =>
      have inserted : (state.ret.take state.insertPos ++ state.tmpList ++
          state.ret.drop state.insertPos).Perm (state.ret ++ state.tmpList) :=
        calc
          _ = state.ret.take state.insertPos ++
              (state.tmpList ++ state.ret.drop state.insertPos) := List.append_assoc ..
          List.Perm _ (state.ret.take state.insertPos ++
              (state.ret.drop state.insertPos ++ state.tmpList)) :=
            List.perm_append_comm.append_left _
          _ = state.ret ++ state.tmpList := by rw [← List.append_assoc, List.take_append_drop]
      simpa [unionItem, found] using inserted
  | none => simp [unionItem, found]

/-- A vector is inserted or collected, except for its fences. -/
theorem foldl_unionItem_perm (fence : String → Option Nat) (items : List String)
    (state : UnionState) :
    ((items.foldl (unionItem fence) state).ret ++
        (items.foldl (unionItem fence) state).tmpList).Perm
      (state.ret ++ state.tmpList ++ items.filter fun one => (fence one).isNone) := by
  induction items generalizing state with
  | nil => simp
  | cons item rest inductionHypothesis =>
      refine (inductionHypothesis (unionItem fence state item)).trans ?_
      refine ((unionItem_perm fence state item).append_right _).trans ?_
      rw [List.append_assoc, ← List.filter_append, List.singleton_append]

/-- The list grows by what is not a fence. -/
theorem unionVector_perm (fence : String → Option Nat) (state : UnionState)
    (items : List String) :
    (unionVector fence state items).ret.Perm
      (state.ret ++ items.filter fun one => (fence one).isNone) := by
  simpa [unionVector] using foldl_unionItem_perm fence items { state with tmpList := [] }

/-- An insertion leaves what is there in its order. -/
theorem sublist_unionItem (fence : String → Option Nat) (state : UnionState) (item : String) :
    state.ret.Sublist (unionItem fence state item).ret := by
  cases found : fence item with
  | some index =>
      have split_eq := List.take_append_drop state.insertPos state.ret
      have inserted := (List.sublist_append_left (state.ret.take state.insertPos)
        state.tmpList).append (List.Sublist.refl (state.ret.drop state.insertPos))
      rw [split_eq] at inserted
      simpa [unionItem, found] using inserted
  | none => simp [unionItem, found]

/-- A vector leaves what is there in its order. -/
theorem sublist_foldl_unionItem (fence : String → Option Nat) (items : List String)
    (state : UnionState) : state.ret.Sublist (items.foldl (unionItem fence) state).ret := by
  induction items generalizing state with
  | nil => exact List.Sublist.refl _
  | cons item rest inductionHypothesis =>
      exact (sublist_unionItem fence state item).trans (inductionHypothesis _)

/-- The final removal of repeated items is `firsts`. -/
theorem keepFirst_eq_firsts (seen items : List String) :
    keepFirst seen items = firsts seen items := by
  induction items generalizing seen with
  | nil => rfl
  | cons head rest inductionHypothesis => simp [keepFirst, firsts, inductionHypothesis]

/-! ## Safety -/

/-- One item, or `none` when what has been collected would go outside the list. -/
def unionItemChecked (fence : String → Option Nat) (state : UnionState) (item : String) :
    Option UnionState :=
  if (fence item).isSome ∧ state.tmpList ≠ [] ∧ state.ret.length < state.insertPos then none
  else some (unionItem fence state item)

/-- One vector, with every insertion checked. -/
def unionVectorChecked (fence : String → Option Nat) (state : UnionState)
    (items : List String) : Option UnionState :=
  (items.foldlM (unionItemChecked fence) { state with tmpList := [] }).map fun last =>
    { last with ret := last.ret ++ last.tmpList }

/-- The union of three vectors, or `none` when it inserts outside the list. -/
def mergeStrVecByUnionChecked (v1 v2 v3 : List String) : Option (List String) :=
  ([v2, v3].foldlM (unionVectorChecked (fences v1)) { ret := v1 }).map fun last =>
    keepFirst [] last.ret

/-- What every step of the union keeps: the position is one of the first vector, whose
items are in the list as the vector has them, and only other items are collected. -/
structure UnionState.Safe (v1 : List String) (state : UnionState) : Prop where
  position : state.insertPos ≤ v1.length
  anchored : state.ret.filter (· ∈ v1) = v1
  collected : ∀ item ∈ state.tmpList, item ∉ v1

/-- A position of the first vector lies inside the list. -/
theorem UnionState.Safe.inside (safe : state.Safe v1) : state.insertPos ≤ state.ret.length := by
  have shorter : (state.ret.filter (· ∈ v1)).length ≤ state.ret.length :=
    List.length_filter_le _ _
  rw [safe.anchored] at shorter
  exact safe.position.trans shorter

/-- Inserting other items leaves the items of the first vector as they are. -/
theorem filter_insert (front back : List String) {added : List String}
    (apart : ∀ item ∈ added, item ∉ v1) :
    (front ++ added ++ back).filter (· ∈ v1) = (front ++ back).filter (· ∈ v1) := by
  have nothing : added.filter (· ∈ v1) = [] := by
    simpa [List.filter_eq_nil_iff] using apart
  simp only [List.filter_append, nothing, List.append_nil]

/-- One item keeps the union safe. -/
theorem UnionState.Safe.item (safe : state.Safe v1) (item : String) :
    (unionItem (fences v1) state item).Safe v1 := by
  cases found : fences v1 item with
  | some index =>
      have inVector := fences_lt found
      refine ⟨?_, ?_, ?_⟩
      · simp only [unionItem, found]
        exact inVector
      · simp only [unionItem, found]
        rw [filter_insert _ _ safe.collected, List.take_append_drop, safe.anchored]
      · simp [unionItem, found]
  | none =>
      refine ⟨?_, ?_, ?_⟩
      · simpa [unionItem, found] using safe.position
      · simpa [unionItem, found] using safe.anchored
      · intro other member
        simp only [unionItem, found, List.mem_append, List.mem_singleton] at member
        rcases member with earlier | rfl
        · exact safe.collected other earlier
        · exact fences_eq_none_iff.mp found

/-- In a safe state the check of an item passes. -/
theorem UnionState.Safe.item_checked (safe : state.Safe v1) (item : String) :
    unionItemChecked (fences v1) state item = some (unionItem (fences v1) state item) :=
  if_neg fun outside => absurd safe.inside (Nat.not_le.mpr outside.2.2)

/-- The items of a vector keep the union safe and pass their checks. -/
theorem UnionState.Safe.items (safe : state.Safe v1) (items : List String) :
    (items.foldl (unionItem (fences v1)) state).Safe v1 ∧
      items.foldlM (unionItemChecked (fences v1)) state =
        some (items.foldl (unionItem (fences v1)) state) := by
  induction items generalizing state with
  | nil => exact ⟨safe, rfl⟩
  | cons item rest inductionHypothesis =>
      obtain ⟨safeAfter, passed⟩ := inductionHypothesis (safe.item item)
      refine ⟨safeAfter, ?_⟩
      rw [List.foldlM_cons, safe.item_checked item]
      exact passed

/-- A vector keeps the union safe, once what it left over is appended, and passes its
checks. -/
theorem UnionState.Safe.vector (state : UnionState)
    (safe : UnionState.Safe v1 { state with tmpList := [] }) (items : List String) :
    UnionState.Safe v1 { unionVector (fences v1) state items with tmpList := [] } ∧
      unionVectorChecked (fences v1) state items =
        some (unionVector (fences v1) state items) := by
  obtain ⟨safeAfter, passed⟩ := safe.items items
  generalize last_eq : items.foldl (unionItem (fences v1)) { state with tmpList := [] } = last
    at safeAfter passed
  have appended : (last.ret ++ last.tmpList).filter (· ∈ v1) = v1 := by
    have untouched := filter_insert last.ret [] safeAfter.collected
    rw [List.append_nil, List.append_nil] at untouched
    exact untouched.trans safeAfter.anchored
  refine ⟨⟨?_, ?_, by simp⟩, ?_⟩
  · simpa [unionVector, last_eq] using safeAfter.position
  · simpa only [unionVector, last_eq] using appended
  · rw [unionVectorChecked, passed, unionVector, last_eq, Option.map_some]

/-- The state after both passes is safe, and all checks pass on the way. -/
theorem mergeStrVecByUnion_run (v1 v2 v3 : List String) :
    (([v2, v3].foldl (unionVector (fences v1)) { ret := v1 }).ret.filter (· ∈ v1) = v1) ∧
      mergeStrVecByUnionChecked v1 v2 v3 = some (mergeStrVecByUnion v1 v2 v3) := by
  have initial : UnionState.Safe v1 { ret := v1 } := ⟨Nat.zero_le _, by simp, by simp⟩
  obtain ⟨afterSecond, secondPassed⟩ := UnionState.Safe.vector { ret := v1 } initial v2
  obtain ⟨afterThird, thirdPassed⟩ := UnionState.Safe.vector _ afterSecond v3
  refine ⟨afterThird.anchored, ?_⟩
  rw [mergeStrVecByUnionChecked, List.foldlM_cons, secondPassed]
  simp only [Option.bind_eq_bind, Option.bind_some, List.foldlM_cons, List.foldlM_nil,
    thirdPassed, Option.pure_def, Option.map_some]
  rfl

/-- The list after both passes lists the first vector and what the others add. -/
theorem mergeStrVecByUnion_perm (v1 v2 v3 : List String) :
    ([v2, v3].foldl (unionVector (fences v1)) { ret := v1 }).ret.Perm
      (v1 ++ v2.filter (· ∉ v1) ++ v3.filter (· ∉ v1)) := by
  have others : ∀ items : List String,
      (items.filter fun item => (fences v1 item).isNone) = items.filter (· ∉ v1) := by
    intro items
    refine List.filter_congr fun item _ => ?_
    rw [Bool.eq_iff_iff, Option.isNone_iff_eq_none, fences_eq_none_iff, decide_eq_true_iff]
  have second := unionVector_perm (fences v1) { ret := v1 } v2
  have third := unionVector_perm (fences v1) (unionVector (fences v1) { ret := v1 } v2) v3
  rw [others] at second third
  exact third.trans (second.append_right _)

/-- The union inserts inside the list only, and returns each string of the three vectors
once and no other one, those of the first vector in their order. -/
theorem mergeStrVecByUnion_safe (v1 v2 v3 : List String) :
    mergeStrVecByUnionChecked v1 v2 v3 = some (mergeStrVecByUnion v1 v2 v3) ∧
      (mergeStrVecByUnion v1 v2 v3).Nodup ∧
      (∀ item, item ∈ mergeStrVecByUnion v1 v2 v3 ↔ item ∈ v1 ∨ item ∈ v2 ∨ item ∈ v3) ∧
      (keepFirst [] v1).Sublist (mergeStrVecByUnion v1 v2 v3) := by
  obtain ⟨anchored, checked⟩ := mergeStrVecByUnion_run v1 v2 v3
  have members := mergeStrVecByUnion_perm v1 v2 v3
  refine ⟨checked, ?_, fun item => ?_, ?_⟩
  · rw [mergeStrVecByUnion, keepFirst_eq_firsts]
    exact nodup_firsts [] _
  · rw [mergeStrVecByUnion, keepFirst_eq_firsts, mem_firsts, members.mem_iff]
    simp only [List.mem_append, List.mem_filter, decide_eq_true_eq, List.not_mem_nil,
      not_false_iff, and_true]
    tauto
  · rw [mergeStrVecByUnion, keepFirst_eq_firsts, keepFirst_eq_firsts]
    conv_lhs => rw [← anchored, ← firsts_filter]
    exact List.filter_sublist

/-! ## Additions of the third vector -/

/-- Items that are no fences are collected. -/
theorem foldl_additions {items : List String} (apart : ∀ item ∈ items, item ∉ v1)
    (state : UnionState) :
    items.foldl (unionItem (fences v1)) state =
      { state with tmpList := state.tmpList ++ items } := by
  induction items generalizing state with
  | nil => simp
  | cons item rest inductionHypothesis =>
      have noFence := fences_eq_none_iff.mpr (apart item List.mem_cons_self)
      have later : ∀ other ∈ rest, other ∉ v1 :=
        fun other member => apart other (List.mem_cons_of_mem item member)
      rw [List.foldl_cons, inductionHypothesis later, unionItem, noFence]
      simp

/-- At a run of fences what has been collected is inserted, and the position moves behind
the last of them. -/
theorem foldl_anchors (before after : List String) {anchors : List String}
    (nonempty : anchors ≠ []) (nodup : (before ++ anchors ++ after).Nodup) (state : UnionState) :
    anchors.foldl (unionItem (fences (before ++ anchors ++ after))) state =
      { ret := state.ret.take state.insertPos ++ state.tmpList ++
          state.ret.drop state.insertPos
        tmpList := []
        insertPos := before.length + anchors.length } := by
  induction anchors using List.reverseRecOn generalizing after with
  | nil => exact absurd rfl nonempty
  | append_singleton anchors last inductionHypothesis =>
      have regroup : before ++ (anchors ++ [last]) ++ after = before ++ anchors ++ last :: after := by
        simp
      rw [regroup] at nodup ⊢
      have here := fences_of_nodup nodup
      rw [List.foldl_append, List.foldl_cons, List.foldl_nil]
      cases anchors with
      | nil =>
          rw [List.foldl_nil, unionItem, here]
          simp
      | cons first rest =>
          rw [inductionHypothesis _ (List.cons_ne_nil first rest) nodup, unionItem, here]
          simp only [List.append_nil, List.take_append_drop, List.length_append,
            List.length_singleton, Nat.add_assoc]

/-- The pass over the first vector itself leaves the position behind its end. -/
theorem unionVector_self {base : List String} (nodup : base.Nodup) :
    unionVector (fences base) { ret := base } base =
      { ret := base, insertPos := base.length } := by
  by_cases empty : base = []
  · rw [empty]
    rfl
  · have run := foldl_anchors [] [] empty (by simpa using nodup)
    simp only [List.nil_append, List.append_nil] at run
    simp [unionVector, run]

/-- The list after the pass over the third vector, when the others are equal. -/
def ownPass (base their : List String) : List String :=
  (unionVector (fences base) { ret := base, insertPos := base.length } their).ret

/-- In a list without repetitions the members of a sublist are that sublist. -/
theorem filter_mem_of_sublist {base their : List String} (nodup : their.Nodup)
    (sublist : base.Sublist their) : their.filter (· ∈ base) = base := by
  have kept : base.Sublist (their.filter (· ∈ base)) := by
    have filtered := sublist.filter (· ∈ base)
    rwa [List.filter_eq_self.mpr (by simp)] at filtered
  have within : (their.filter (· ∈ base)) ⊆ base := fun item member => by
    simpa using (List.mem_filter.mp member).2
  exact (kept.eq_of_length_le (List.subperm_of_subset (nodup.filter _) within).length_le).symm

/-- Without repetitions the union is the list after the pass over the third vector. -/
theorem mergeStrVecByUnion_eq_ownPass {base their : List String} (nodup : their.Nodup)
    (sublist : base.Sublist their) :
    mergeStrVecByUnion base base their = ownPass base their := by
  have baseNodup : base.Nodup := sublist.nodup nodup
  have members := mergeStrVecByUnion_perm base base their
  have added : base.filter (· ∉ base) = [] := by simp [List.filter_eq_nil_iff]
  have split_perm : (base ++ their.filter (· ∉ base)).Perm their := by
    conv_lhs => arg 1; rw [← filter_mem_of_sublist nodup sublist]
    simpa using List.filter_append_perm (· ∈ base) their
  rw [added, List.append_nil] at members
  have finalNodup := (members.trans split_perm).nodup_iff.mpr nodup
  rw [mergeStrVecByUnion, keepFirst_eq_firsts, firsts_of_nodup finalNodup (by simp), ownPass,
    List.foldl_cons, List.foldl_cons, List.foldl_nil, unionVector_self baseNodup]

/-- When the additions keep their place: the list starts as the base does, and all
additions but those behind the last item of base sit in one gap. -/
def KeepPlaces (base their : List String) : Prop :=
  base = [] ∨ ∃ front added back behind : List String, front ≠ [] ∧ base = front ++ back ∧
    their = front ++ added ++ back ++ behind

/-- The pass over a run at the start of the base moves the position only. -/
theorem foldl_front (back : List String) {front : List String} (nonempty : front ≠ [])
    (nodup : (front ++ back).Nodup) :
    front.foldl (unionItem (fences (front ++ back)))
        { ret := front ++ back, insertPos := (front ++ back).length } =
      { ret := front ++ back, insertPos := front.length } := by
  have run := foldl_anchors [] back nonempty (by simpa using nodup)
  simp only [List.nil_append] at run
  rw [run]
  simp only [List.append_nil, List.take_append_drop, List.length_nil, Nat.zero_add]

/-- Additions in one gap and behind the end stay where they are. -/
theorem ownPass_of_keepPlaces {base their : List String} (nodup : their.Nodup)
    (places : KeepPlaces base their) : ownPass base their = their := by
  rcases places with rfl | ⟨front, added, back, behind, frontNonempty, rfl, rfl⟩
  · have noAnchor : ∀ item ∈ their, item ∉ ([] : List String) := by simp
    simp [ownPass, unionVector, foldl_additions noAnchor]
  · have baseNodup : (front ++ back).Nodup := by grind
    have addedApart : ∀ item ∈ added, item ∉ front ++ back := by grind
    have behindApart : ∀ item ∈ behind, item ∉ front ++ back := by grind
    by_cases empty : back = []
    · subst empty
      simp only [ownPass, unionVector, List.foldl_append, foldl_front _ frontNonempty baseNodup,
        foldl_additions addedApart, foldl_additions behindApart, List.foldl_nil]
      simp
    · have atBack := foldl_anchors front [] empty (by simpa using baseNodup)
      simp only [List.append_nil] at atBack
      simp only [ownPass, unionVector, List.foldl_append, foldl_front _ frontNonempty baseNodup,
        foldl_additions addedApart, atBack, foldl_additions behindApart, List.take_left,
        List.drop_left]
      simp

/-- Behind the first item, insertions leave the head of the list alone. -/
theorem head_foldl_unionItem (fence : String → Option Nat) (items : List String)
    (state : UnionState) (behind : 0 < state.insertPos) (nonempty : state.ret ≠ []) :
    (items.foldl (unionItem fence) state).ret.head? = state.ret.head? := by
  induction items generalizing state with
  | nil => rfl
  | cons item rest inductionHypothesis =>
      have oneItem : (unionItem fence state item).ret.head? = state.ret.head? ∧
          0 < (unionItem fence state item).insertPos := by
        cases found : fence item with
        | some index =>
            obtain ⟨head, tail, list_eq⟩ := List.exists_cons_of_ne_nil nonempty
            obtain ⟨place, place_eq⟩ := Nat.exists_eq_succ_of_ne_zero behind.ne'
            simp [unionItem, found, list_eq, place_eq]
        | none => simp [unionItem, found, behind]
      have stillNonempty : (unionItem fence state item).ret ≠ [] := by
        intro empty
        rw [empty] at oneItem
        exact nonempty (List.head?_eq_none_iff.mp oneItem.1.symm)
      rw [List.foldl_cons, inductionHypothesis _ oneItem.2 stillNonempty, oneItem.1]

/-- An addition in front of the whole base goes behind it. -/
theorem ownPass_ne_of_head {base their : List String} {first : String}
    (nonempty : base ≠ []) (added : first ∉ base) : ownPass base (first :: their) ≠
      first :: their := by
  intro kept
  have sameHead := head_foldl_unionItem (fences base) (first :: their)
    { ret := base, insertPos := base.length } (List.length_pos_iff.mpr nonempty) nonempty
  obtain ⟨head, tail, rfl⟩ := List.exists_cons_of_ne_nil nonempty
  have finalHead := congrArg List.head? kept
  rw [ownPass, unionVector, List.head?_append, sameHead] at finalHead
  simp only [List.head?_cons, Option.some_or, Option.some.injEq] at finalHead
  exact added (finalHead ▸ List.mem_cons_self)

/-- In a list without repetitions, what comes before an item is in front of it. -/
theorem mem_front_of_pair {front back : List String} {earlier item : String}
    (nodup : (front ++ item :: back).Nodup)
    (pair : [earlier, item].Sublist (front ++ item :: back)) : earlier ∈ front := by
  obtain ⟨first, second, split_eq, inFront, inBack⟩ := List.sublist_append_iff.mp pair
  have once : item ∉ back := by grind
  cases first with
  | nil =>
      rw [List.nil_append] at split_eq
      subst split_eq
      have again : [item].Sublist back := (List.cons_sublist_cons'.mp inBack).elim
        (fun skipped => (List.sublist_cons_self earlier [item]).trans skipped) fun here => here.2
      exact absurd (again.subset List.mem_cons_self) once
  | cons head tail =>
      have head_eq : earlier = head := (List.cons.inj split_eq).1
      exact head_eq ▸ inFront.subset List.mem_cons_self

/-- What is inserted before the last anchor precedes it when the list has grown. -/
theorem early_insertion (anchor : String) (back : List String) {front added : List String}
    {place : Nat} {item : String} (early : place ≤ front.length) (member : item ∈ added) :
    [item, anchor].Sublist ((front ++ anchor :: back).take place ++ added ++
      (front ++ anchor :: back).drop place) := by
  rw [List.drop_append_of_le_length early]
  have ofAdded : [item].Sublist added := List.singleton_sublist.mpr member
  have ofRest : [anchor].Sublist (front.drop place ++ anchor :: back) :=
    List.singleton_sublist.mpr (by simp)
  exact (ofAdded.append ofRest).trans
    (by rw [List.append_assoc]; exact List.sublist_append_right _ _)

/-- A second gap before an anchor is filled before the anchor that it follows. -/
theorem ownPass_ne_of_gaps {front added back behind third later : List String}
    {anchor extra next : String} (frontNonempty : front ≠ []) (addedNonempty : added ≠ [])
    (extraMember : extra ∈ behind)
    (nodup : (front ++ added ++ (back ++ [anchor]) ++ behind ++ next :: later).Nodup)
    (baseNodup : (front ++ (back ++ [anchor]) ++ next :: third).Nodup)
    (addedApart : ∀ item ∈ added, item ∉ front ++ (back ++ [anchor]) ++ next :: third)
    (behindApart : ∀ item ∈ behind, item ∉ front ++ (back ++ [anchor]) ++ next :: third) :
    ownPass (front ++ (back ++ [anchor]) ++ next :: third)
        (front ++ added ++ (back ++ [anchor]) ++ behind ++ next :: later) ≠
      front ++ added ++ (back ++ [anchor]) ++ behind ++ next :: later := by
  intro kept
  have atNext := fences_of_nodup baseNodup
  have frontRun := foldl_front ((back ++ [anchor]) ++ next :: third) frontNonempty
    (by simpa using baseNodup)
  rw [← List.append_assoc] at frontRun
  have backRun := foldl_anchors front (next :: third) (by simp : back ++ [anchor] ≠ []) baseNodup
  have early : front.length + (back ++ [anchor]).length ≤ (front ++ added ++ back).length := by
    have atLeastOne := List.length_pos_iff.mpr addedNonempty
    simp only [List.length_append, List.length_singleton]
    omega
  generalize base_eq : front ++ (back ++ [anchor]) ++ next :: third = base at *
  -- The first gap has been filled, the second one is collected.
  have atGap : (front ++ added ++ (back ++ [anchor]) ++ behind).foldl (unionItem (fences base))
      { ret := base, insertPos := base.length } =
      { ret := (front ++ added ++ back) ++ anchor :: next :: third, tmpList := behind,
        insertPos := front.length + (back ++ [anchor]).length } := by
    simp only [List.foldl_append, frontRun, foldl_additions addedApart, backRun,
      foldl_additions behindApart]
    simp [← base_eq]
  have placed : [extra, anchor].Sublist (ownPass base
      (front ++ added ++ (back ++ [anchor]) ++ behind ++ next :: later)) := by
    rw [ownPass, unionVector, List.foldl_append, atGap, List.foldl_cons]
    refine List.Sublist.trans ?_
      ((sublist_foldl_unionItem _ later _).trans (List.sublist_append_left _ _))
    simp only [unionItem, atNext]
    exact early_insertion anchor (next :: third) early extraMember
  have regroup : front ++ added ++ (back ++ [anchor]) ++ behind ++ next :: later =
      (front ++ added ++ back) ++ anchor :: (behind ++ next :: later) := by simp
  rw [kept, regroup] at placed
  rw [regroup] at nodup
  have inFront := mem_front_of_pair nodup placed
  have apart := (List.nodup_append.mp nodup).2.2 extra inFront extra
    (List.mem_cons_of_mem _ (List.mem_append_left _ extraMember))
  exact apart rfl

/-- A list is a run of items of one kind and a rest that starts with another one. -/
theorem exists_run (keep : String → Bool) (list : List String) :
    ∃ run rest, list = run ++ rest ∧ (∀ item ∈ run, keep item = true) ∧
      ∀ item later, rest = item :: later → keep item = false := by
  refine ⟨list.takeWhile keep, list.dropWhile keep, List.takeWhile_append_dropWhile.symm,
    fun item member => List.mem_takeWhile_imp member, fun item later rest_eq => ?_⟩
  have stopped := List.head?_dropWhile_not keep list
  rw [rest_eq] at stopped
  simpa using stopped

/-- Lists that keep all additions in place have them in one gap and behind the end. -/
theorem keepPlaces_of_ownPass {base their : List String} (nodup : their.Nodup)
    (sublist : base.Sublist their) (kept : ownPass base their = their) :
    KeepPlaces base their := by
  by_cases nonempty : base = []
  · exact .inl nonempty
  obtain ⟨front, rest1, their_eq, frontIn, stop1⟩ := exists_run (· ∈ base) their
  obtain ⟨added, rest2, rest1_eq, addedOut, stop2⟩ := exists_run (· ∉ base) rest1
  obtain ⟨back, rest3, rest2_eq, backIn, stop3⟩ := exists_run (· ∈ base) rest2
  obtain ⟨behind, rest4, rest3_eq, behindOut, stop4⟩ := exists_run (· ∉ base) rest3
  simp only [decide_eq_true_eq, decide_eq_false_iff_not, not_not] at *
  have allFront : front.filter (· ∈ base) = front := by simpa [List.filter_eq_self] using frontIn
  have noAdded : added.filter (· ∈ base) = [] := by simpa [List.filter_eq_nil_iff] using addedOut
  have allBack : back.filter (· ∈ base) = back := by simpa [List.filter_eq_self] using backIn
  have noBehind : behind.filter (· ∈ base) = [] := by
    simpa [List.filter_eq_nil_iff] using behindOut
  have base_eq : base = front ++ back ++ rest4.filter (· ∈ base) := by
    have members := filter_mem_of_sublist nodup sublist
    rw [their_eq, rest1_eq, rest2_eq, rest3_eq] at members
    simp only [List.filter_append, allFront, noAdded, allBack, noBehind, List.nil_append] at members
    rw [List.append_assoc]
    exact members.symm
  have frontNonempty : front ≠ [] := by
    rintro rfl
    rw [List.nil_append] at their_eq
    subst their_eq
    obtain ⟨head, tail, rfl⟩ : ∃ head tail, their = head :: tail :=
      List.exists_cons_of_ne_nil fun empty => nonempty (List.sublist_nil.mp (empty ▸ sublist))
    exact ownPass_ne_of_head nonempty (stop1 head tail rfl) kept
  cases rest4 with
  | nil =>
      rw [List.filter_nil, List.append_nil] at base_eq
      refine .inr ⟨front, added, back, behind, frontNonempty, base_eq, ?_⟩
      rw [their_eq, rest1_eq, rest2_eq, rest3_eq]
      simp
  | cons next later =>
      -- An anchor behind a second gap: both gaps and the anchors between them are nonempty.
      have nextIn : next ∈ base := stop4 next later rfl
      obtain ⟨extra, more, rfl⟩ : ∃ extra more, behind = extra :: more := by
        apply List.exists_cons_of_ne_nil
        rintro rfl
        exact stop3 next later rest3_eq nextIn
      have backNonempty : back ≠ [] := by
        rintro rfl
        exact behindOut extra List.mem_cons_self (stop2 extra _ (rest2_eq.trans rest3_eq))
      have addedNonempty : added ≠ [] := by
        rintro rfl
        obtain ⟨head, tail, rfl⟩ := List.exists_cons_of_ne_nil backNonempty
        exact stop1 head _ (rest1_eq.trans rest2_eq) (backIn head List.mem_cons_self)
      obtain ⟨back, anchor, rfl⟩ : ∃ init last, back = init ++ [last] :=
        ⟨_, _, (List.dropLast_append_getLast backNonempty).symm⟩
      rw [List.filter_cons_of_pos (by simpa using nextIn)] at base_eq
      generalize later.filter (· ∈ base) = third at base_eq
      have their_parts : their =
          front ++ added ++ (back ++ [anchor]) ++ extra :: more ++ next :: later := by
        rw [their_eq, rest1_eq, rest2_eq, rest3_eq]
        simp
      rw [their_parts] at kept nodup
      have baseNodup := sublist.nodup (their_parts ▸ nodup)
      rw [base_eq] at kept baseNodup addedOut behindOut
      exact absurd kept (ownPass_ne_of_gaps frontNonempty addedNonempty List.mem_cons_self
        nodup baseNodup addedOut behindOut)

/-- When only their side added entries, the union returns their list exactly when the
additions keep their place. -/
theorem mergeStrVecByUnion_in_place_iff {base their : List String}
    (theirNodup : their.Nodup) (sublist : base.Sublist their) :
    mergeStrVecByUnion base base their = their ↔ KeepPlaces base their := by
  rw [mergeStrVecByUnion_eq_ownPass theirNodup sublist]
  exact ⟨keepPlaces_of_ownPass theirNodup sublist, ownPass_of_keepPlaces theirNodup⟩

/-- An entry added in the middle and one at the end stay where they are. -/
theorem mergeStrVecByUnion_in_place_middle :
    mergeStrVecByUnion ["a", "b"] ["a", "b"] ["a", "x", "b", "y"] = ["a", "x", "b", "y"] ↔
      KeepPlaces ["a", "b"] ["a", "x", "b", "y"] :=
  mergeStrVecByUnion_in_place_iff (by decide) (by decide)

/-- An entry added at the front goes behind the base entries. -/
theorem mergeStrVecByUnion_moves_front : ¬ ∀ base their : List String, base.Nodup →
    their.Nodup → base.Sublist their → mergeStrVecByUnion base base their = their := by
  intro keeps
  have kept := keeps ["a"] ["x", "a"] (by decide) (by decide) (by decide)
  revert kept
  decide

end GraphMerger

end MergeBot
