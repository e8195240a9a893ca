import Mathlib.Data.List.Find
import Mathlib.Data.List.InsertIdx
import Mathlib.Data.List.Nodup
import Mathlib.Data.List.Perm.Basic

/-!
# Inserting items beside their neighbours

A merged list receives new items one by one, each next to the neighbours it has
in a target list: after the nearest kept item before it or, when that one is not
in the merged list, before the nearest kept item after it. Items that may not
serve as neighbours are skipped; a list is searched by key.

Insertion never drops, repeats or reorders what is there
(`sublist_foldl`, `perm_foldl`). `foldl_eq_iff` says when inserting all new items
in target order restores the target list.
-/

namespace MergeBot.Foundation.Placement

universe u v

/-- The places in a list: the first one, and those behind it. -/
theorem forall_place_cons {α : Type u} {item : α} {rest : List α}
    {P : List α → α → List α → Prop} :
    (∀ front next after, item :: rest = front ++ next :: after → P front next after) ↔
      P [] item rest ∧
        ∀ front next after, rest = front ++ next :: after → P (item :: front) next after := by
  constructor
  · intro all
    exact ⟨all [] item rest rfl, fun front next after shape =>
      all (item :: front) next after (by rw [shape, List.cons_append])⟩
  · rintro ⟨here, there⟩ front next after shape
    cases front with
    | nil =>
        obtain ⟨rfl, rfl⟩ := List.cons.inj shape
        exact here
    | cons head front =>
        obtain ⟨rfl, rfl⟩ := List.cons.inj shape
        exact there front next after rfl

section Insertion

variable {α : Type u} {κ : Type v} [DecidableEq κ] (key : α → κ)

/-- The position of the first item with the key of `item`. -/
def position (list : List α) (item : α) : Option Nat :=
  list.findIdx? fun other => key other = key item

/-- Insert an item after `previous` or, failing that, before `next`, or at the end. -/
def insertNear (previous next : Option α) (item : α) (list : List α) : List α :=
  match previous.bind (position key list) with
  | some place => list.insertIdx (place + 1) item
  | none =>
      match next.bind (position key list) with
      | some place => list.insertIdx place item
      | none => list ++ [item]

variable {key}

/-- A position found is one in the list. -/
theorem position_lt {list : List α} {item : α} {place : Nat}
    (found : position key list item = some place) : place < list.length :=
  (List.findIdx?_eq_some_iff_getElem.mp found).1

/-- Items before the first one with the key are passed over. -/
theorem position_append {front : List α} (rest : List α) {item : α}
    (fresh : ∀ other ∈ front, key other ≠ key item) :
    position key (front ++ item :: rest) item = some front.length := by
  have missed : front.findIdx? (fun other => key other = key item) = none := by
    simpa [List.findIdx?_eq_none_iff] using fresh
  simp [position, List.findIdx?_append, missed, List.findIdx?_cons]

/-- A key that is in no item has no position. -/
theorem position_none {list : List α} {item : α}
    (fresh : ∀ other ∈ list, key other ≠ key item) : position key list item = none := by
  simpa [position, List.findIdx?_eq_none_iff] using fresh

variable (key) in
/-- One insertion adds exactly the item. -/
theorem insertNear_perm (previous next : Option α) (item : α) (list : List α) :
    (insertNear key previous next item list).Perm (item :: list) := by
  unfold insertNear
  split
  · rename_i place found
    obtain ⟨neighbour, -, found⟩ := Option.bind_eq_some_iff.mp found
    exact List.perm_insertIdx item list (position_lt found)
  · split
    · rename_i place found
      obtain ⟨neighbour, -, found⟩ := Option.bind_eq_some_iff.mp found
      exact List.perm_insertIdx item list (Nat.le_of_lt (position_lt found))
    · exact List.perm_append_singleton item list

variable (key) in
/-- One insertion leaves the items that are there in their order. -/
theorem sublist_insertNear (previous next : Option α) (item : α) (list : List α) :
    list.Sublist (insertNear key previous next item list) := by
  unfold insertNear
  split
  · exact List.sublist_insertIdx list _ item
  · split
    · exact List.sublist_insertIdx list _ item
    · exact List.sublist_append_left list [item]

variable (key) in
/-- Positions depend on keys alone. -/
theorem position_map (list : List α) (item : α) :
    position id (list.map key) (key item) = position key list item := by
  simp [position, List.findIdx?_map, Function.comp_def]

variable (key) in
/-- The keys after an insertion depend on the keys alone. -/
theorem map_insertNear (previous next : Option α) (item : α) (list : List α) :
    (insertNear key previous next item list).map key =
      insertNear id (previous.map key) (next.map key) (key item) (list.map key) := by
  have same : ∀ neighbour : Option α,
      (neighbour.map key).bind (position id (list.map key)) =
        neighbour.bind (position key list) := by
    intro neighbour
    cases neighbour with
    | none => rfl
    | some neighbour => exact position_map key list neighbour
  unfold insertNear
  rw [same previous, same next]
  cases previous.bind (position key list) with
  | some place => simp only [List.map_insertIdx]
  | none =>
      cases next.bind (position key list) with
      | some place => simp only [List.map_insertIdx]
      | none => simp

/-- Insertion behind a prefix happens in the rest. -/
theorem insertIdx_append (front rest : List α) (place : Nat) (item : α) :
    (front ++ rest).insertIdx (front.length + place) item =
      front ++ rest.insertIdx place item := by
  induction front with
  | nil => simp
  | cons head tail ih =>
      have shift : (head :: tail).length + place = tail.length + place + 1 := by
        simp only [List.length_cons]
        omega
      rw [shift, List.cons_append, List.insertIdx_succ_cons, ih, List.cons_append]

/-- Beside a previous neighbour that is in the list. -/
theorem insertNear_after {front : List α} (rest : List α) {previous : α} (item : α)
    (next : Option α)
    (fresh : ∀ other ∈ front, key other ≠ key previous) :
    insertNear key (some previous) next item (front ++ previous :: rest) =
      front ++ previous :: item :: rest := by
  have found := position_append rest fresh
  simp only [insertNear, Option.bind_some, found, insertIdx_append, List.insertIdx_succ_cons,
    List.insertIdx_zero]

/-- Beside a next neighbour that is in the list. -/
theorem insertNear_before {front : List α} (rest : List α) (item : α) {next : α}
    (fresh : ∀ other ∈ front, key other ≠ key next) :
    insertNear key none (some next) item (front ++ next :: rest) =
      front ++ item :: next :: rest := by
  have found := position_append rest fresh
  have behind := insertIdx_append front (next :: rest) 0 item
  simpa only [insertNear, Option.bind_none, Option.bind_some, found, Nat.add_zero,
    List.insertIdx_zero] using behind

/-- Without neighbours in the list. -/
theorem insertNear_end {list : List α} {item : α} {next : Option α}
    (fresh : ∀ neighbour ∈ next, ∀ other ∈ list, key other ≠ key neighbour) :
    insertNear key none next item list = list ++ [item] := by
  have missed : next.bind (position key list) = none := by
    cases next with
    | none => rfl
    | some next => exact position_none (fresh next rfl)
  simp [insertNear, missed]

end Insertion

section Restoration

variable {α : Type u} {κ : Type v} [DecidableEq κ] {key : α → κ} (skip old : α → Bool)

/-- The nearest item before a place that is not skipped. -/
def previousOf (before : List α) : Option α :=
  before.reverse.find? fun item => !skip item

/-- The nearest item after a place that is not skipped. -/
def nextOf (after : List α) : Option α :=
  after.find? fun item => !skip item

theorem previousOf_congr {skip skip' : α → Bool} {before : List α}
    (same : ∀ item ∈ before, skip item = skip' item) :
    previousOf skip before = previousOf skip' before :=
  List.find?_congr fun item inside => by rw [same item (List.mem_reverse.mp inside)]

theorem nextOf_congr {skip skip' : α → Bool} {after : List α}
    (same : ∀ item ∈ after, skip item = skip' item) : nextOf skip after = nextOf skip' after :=
  List.find?_congr fun item inside => by rw [same item inside]

/-- An item between `before` and `after` goes where it belongs, when everything
of `before` and the old items of `after` are there: it stands directly behind
its previous neighbour; without one, its next neighbour is the first old item
behind it, or there is none. -/
def WellPlaced (before after : List α) : Prop :=
  match previousOf skip before with
  | some previous => before.getLast? = some previous
  | none => ∀ first ∈ (after.filter old).head?, nextOf skip after = some first

/-- Insertions in turn, each by `place`. -/
theorem perm_foldl {place : List α → α → List α}
    (adds : ∀ merged item, (place merged item).Perm (item :: merged)) (items start : List α) :
    (items.foldl place start).Perm (start ++ items) := by
  induction items generalizing start with
  | nil => simp
  | cons item rest ih =>
      have placed := (adds start item).append_right rest
      exact (ih (place start item)).trans (placed.trans List.perm_middle.symm)

/-- Insertions in turn keep what was there in order. -/
theorem sublist_foldl {place : List α → α → List α}
    (keeps : ∀ (merged : List α) item, merged.Sublist (place merged item)) (items start : List α) :
    start.Sublist (items.foldl place start) := by
  induction items generalizing start with
  | nil => exact .refl _
  | cons item rest ih => exact (keeps start item).trans (ih (place start item))

omit [DecidableEq κ] in
/-- Insertions in turn that look at keys alone give the same keys from the same keys. -/
theorem map_foldl_congr {place : List α → α → List α}
    (keyed : ∀ first second item, first.map key = second.map key →
      (place first item).map key = (place second item).map key)
    (items : List α) {first second : List α} (same : first.map key = second.map key) :
    (items.foldl place first).map key = (items.foldl place second).map key := by
  induction items generalizing first second with
  | nil => exact same
  | cons item rest ih => exact ih (keyed first second item same)

/-- Two arrangements of the same items in one list without repetitions are equal. -/
theorem eq_of_sublist_of_perm {first second list : List α} (distinct : list.Nodup)
    (firstIn : first.Sublist list) (secondIn : second.Sublist list)
    (same : first.Perm second) : first = second := by
  induction list generalizing first second with
  | nil => rw [List.sublist_nil.mp firstIn, List.sublist_nil.mp secondIn]
  | cons head rest ih =>
      obtain ⟨absent, distinct⟩ := List.nodup_cons.mp distinct
      cases firstIn with
      | cons _ firstIn =>
          cases secondIn with
          | cons _ secondIn => exact ih distinct firstIn secondIn same
          | cons_cons _ secondIn =>
              exact absurd (firstIn.subset (same.mem_iff.mpr List.mem_cons_self)) absent
      | cons_cons _ firstIn =>
          cases secondIn with
          | cons _ secondIn =>
              exact absurd (secondIn.subset (same.mem_iff.mp List.mem_cons_self)) absent
          | cons_cons _ secondIn =>
              rw [ih distinct firstIn secondIn ((List.perm_cons head).mp same)]

/-- Behind its previous neighbour an item is in place, if no skipped item is
between them. -/
theorem insertNear_previous_iff {before rest : List α} {item previous : α} {next : Option α}
    (distinct : ((before ++ item :: rest).map key).Nodup)
    (found : previousOf skip before = some previous) :
    insertNear key (some previous) next item (before ++ rest) = before ++ item :: rest ↔
      before.getLast? = some previous := by
  obtain ⟨-, tail, front, reversed, -⟩ := List.find?_eq_some_iff_append.mp found
  have shape : before = front.reverse ++ previous :: tail.reverse := by
    rw [← List.reverse_reverse before, reversed]
    simp
  have fresh : ∀ other ∈ front.reverse, key other ≠ key previous := by
    intro other inside same
    rw [shape] at distinct
    simp only [List.append_assoc, List.map_append, List.nodup_append] at distinct
    exact distinct.2.2 _ (List.mem_map_of_mem inside) _ (by simp) same
  have items : (before ++ item :: rest).Nodup := List.Nodup.of_map key distinct
  have apart : previous ∉ tail := by
    rw [shape] at items
    simp only [List.append_assoc, List.cons_append, List.nodup_append, List.nodup_cons] at items
    exact fun inside => items.2.1.1 (by simp [inside])
  have lastShape : before.getLast? = (tail ++ previous :: front).head? := by
    rw [← reversed, List.head?_reverse]
  have placed := insertNear_after (tail.reverse ++ rest) item next fresh
  rw [lastShape]
  cases tail with
  | nil => simpa [shape] using placed
  | cons head others =>
      have passed : head ≠ previous := fun same => apart (by simp [same])
      have notLast : (head :: others ++ previous :: front).head? ≠ some previous := by
        simpa using passed
      refine iff_of_false (fun same => ?_) notLast
      rw [shape, List.append_assoc, List.cons_append, placed, List.append_assoc,
        List.append_cancel_left_eq, List.cons_append, List.cons.injEq] at same
      obtain ⟨first, others', front'⟩ : ∃ first others', (head :: others).reverse = first :: others' :=
        ⟨_, _, (List.cons_head_tail (by simp)).symm⟩
      rw [front', List.cons_append, List.cons_append, List.cons.injEq] at same
      rw [shape, front', ← same.2.1] at items
      simp [List.nodup_append] at items

/-- Before a next neighbour that is in the list, an item is in place if that one
comes first. -/
theorem insertNear_waiting_iff {before after : List α} {item next : α}
    (distinct : ((before ++ item :: after).map key).Nodup)
    (found : nextOf skip after = some next) (isOld : old next = true) :
    insertNear key none (some next) item (before ++ after.filter old) =
        before ++ item :: after.filter old ↔
      (after.filter old).head? = some next := by
  have absent : item ∉ after := by
    have items : (before ++ item :: after).Nodup := List.Nodup.of_map key distinct
    simp only [List.nodup_append, List.nodup_cons] at items
    exact items.2.1.1
  obtain ⟨front, rest, shape⟩ := List.append_of_mem
    (List.mem_filter.mpr ⟨List.mem_of_find?_eq_some found, isOld⟩)
  have fresh : ∀ other ∈ before ++ front, key other ≠ key next := by
    have kept : (before ++ after.filter old).Sublist (before ++ item :: after) :=
      (List.filter_sublist.cons item).append_left before
    have keptKeys := distinct.sublist (kept.map key)
    rw [shape, ← List.append_assoc, List.map_append, List.nodup_append] at keptKeys
    exact fun other inside same =>
      keptKeys.2.2 _ (List.mem_map_of_mem inside) _ (by simp) same
  have placed := insertNear_before rest item fresh
  rw [shape, ← List.append_assoc, placed, List.append_assoc, List.append_cancel_left_eq]
  cases front with
  | nil => simp
  | cons head others =>
      have passed : head ≠ next := fun same => fresh head (by simp) (by rw [same])
      have notItem : head ≠ item := by
        intro same
        refine absent (List.mem_of_mem_filter (p := old) ?_)
        simp [shape, same]
      simp [passed, notItem]

/-- Without a next neighbour in the list, an item is in place if nothing follows. -/
theorem insertNear_missing_iff {before after : List α} {item : α}
    (distinct : ((before ++ item :: after).map key).Nodup)
    (missing : ∀ next ∈ nextOf skip after, old next = false) :
    insertNear key none (nextOf skip after) item (before ++ after.filter old) =
        before ++ item :: after.filter old ↔
      after.filter old = [] := by
  have items : (before ++ item :: after).Nodup := List.Nodup.of_map key distinct
  have fresh : ∀ neighbour ∈ nextOf skip after, ∀ other ∈ before ++ after.filter old,
      key other ≠ key neighbour := by
    intro neighbour found other inside same
    have inAfter : neighbour ∈ after := List.mem_of_find?_eq_some found
    have inTarget : other ∈ before ++ item :: after := by
      rcases List.mem_append.mp inside with inside | inside
      · simp [inside]
      · simp [List.mem_of_mem_filter inside]
    obtain rfl := List.inj_on_of_nodup_map distinct inTarget (by simp [inAfter]) same
    rcases List.mem_append.mp inside with inside | inside
    · exact (List.nodup_append.mp items).2.2 _ inside _ (by simp [inAfter]) rfl
    · have isOld := List.of_mem_filter inside
      rw [missing other found] at isOld
      cases isOld
  rw [insertNear_end fresh, List.append_assoc, List.append_cancel_left_eq]
  cases olds : after.filter old with
  | nil => simp
  | cons head others =>
      have notItem : head ≠ item := by
        rintro rfl
        simp only [List.nodup_append, List.nodup_cons] at items
        exact items.2.1.1 (List.mem_of_mem_filter (p := old) (by simp [olds]))
      simp [notItem]

/-- Before its next neighbour, or at the end, an item is in place, if no other
item is before that neighbour. -/
theorem insertNear_next_iff {before after : List α} {item : α}
    (distinct : ((before ++ item :: after).map key).Nodup) :
    insertNear key none (nextOf skip after) item (before ++ after.filter old) =
        before ++ item :: after.filter old ↔
      ∀ first ∈ (after.filter old).head?, nextOf skip after = some first := by
  by_cases waiting : ∃ next, nextOf skip after = some next ∧ old next = true
  · obtain ⟨next, found, isOld⟩ := waiting
    rw [found, insertNear_waiting_iff skip old distinct found isOld]
    have inside : next ∈ after.filter old :=
      List.mem_filter.mpr ⟨List.mem_of_find?_eq_some found, isOld⟩
    cases olds : after.filter old with
    | nil => simp [olds] at inside
    | cons head others => simp [eq_comm]
  · have missing : ∀ next ∈ nextOf skip after, old next = false := by
      intro next found
      by_contra isOld
      exact waiting ⟨next, found, Bool.not_eq_false _ ▸ isOld⟩
    rw [insertNear_missing_iff skip old distinct missing]
    cases olds : after.filter old with
    | nil => simp
    | cons head others =>
        have inside : head ∈ after.filter old := by simp [olds]
        have isOld := List.of_mem_filter inside
        have notNext : nextOf skip after ≠ some head := fun found =>
          waiting ⟨head, found, isOld⟩
        simp [notNext]

/-- One item lands in its place exactly when it is well placed. -/
theorem insertNear_eq_iff {before after : List α} {item : α}
    (distinct : ((before ++ item :: after).map key).Nodup) :
    insertNear key (previousOf skip before) (nextOf skip after) item
        (before ++ after.filter old) = before ++ item :: after.filter old ↔
      WellPlaced skip old before after := by
  unfold WellPlaced
  cases found : previousOf skip before with
  | some previous =>
      have kept : (before ++ item :: after.filter old).Sublist (before ++ item :: after) :=
        (List.filter_sublist.cons_cons item).append_left before
      exact insertNear_previous_iff skip (distinct.sublist (kept.map key)) found
  | none => exact insertNear_next_iff skip old distinct

/-- When all insertions together restore a list without repeated items, the first
one has put its item in place. -/
theorem landed_of_restored {place : List α → α → List α} {before rest : List α} {item : α}
    (distinct : (before ++ item :: rest).Nodup)
    (keeps : ∀ (merged : List α) item, merged.Sublist (place merged item))
    (adds : (place (before ++ rest.filter old) item).Perm (item :: (before ++ rest.filter old)))
    (restored : (rest.filter fun item => !old item).foldl place
      (place (before ++ rest.filter old) item) = before ++ item :: rest) :
    place (before ++ rest.filter old) item = before ++ item :: rest.filter old := by
  have inside := sublist_foldl keeps (rest.filter fun item => !old item)
    (place (before ++ rest.filter old) item)
  rw [restored] at inside
  have kept : (before ++ item :: rest.filter old).Sublist (before ++ item :: rest) :=
    (List.filter_sublist.cons_cons item).append_left before
  exact eq_of_sublist_of_perm distinct inside kept (adds.trans List.perm_middle.symm)

/-- Inserting the new items of a target list in their order, each by `place` and
so beside the neighbours it has there, restores the target list from its old
items exactly when each of them is well placed. -/
theorem foldl_eq_iff {place : List α → α → List α} {rest : List α} (before : List α)
    (distinct : ((before ++ rest).map key).Nodup)
    (keeps : ∀ (merged : List α) item, merged.Sublist (place merged item))
    (places : ∀ front item after, rest = front ++ item :: after → ∀ merged,
      place merged item = insertNear key (previousOf skip (before ++ front))
        (nextOf skip after) item merged) :
    (rest.filter fun item => !old item).foldl place (before ++ rest.filter old) =
        before ++ rest ↔
      ∀ front item after, rest = front ++ item :: after → old item = false →
        WellPlaced skip old (before ++ front) after := by
  induction rest generalizing before with
  | nil => simp
  | cons item rest ih =>
      obtain ⟨here, later⟩ := forall_place_cons.mp places
      rw [List.append_nil] at here
      have inner := ih (before ++ [item]) (by simpa using distinct) (by simpa using later)
      simp only [List.append_assoc, List.singleton_append] at inner
      rw [forall_place_cons, List.append_nil, ← inner]
      cases isOld : old item with
      | true => simp [isOld]
      | false =>
          have placed := insertNear_eq_iff skip old distinct
          rw [← here] at placed
          simp only [List.filter_cons, isOld, Bool.not_false, if_true, Bool.false_eq_true,
            if_false, List.foldl_cons, forall_const]
          rw [← placed]
          constructor
          · intro restored
            have landed := landed_of_restored old (List.Nodup.of_map key distinct) keeps
              (here (before ++ rest.filter old) ▸ insertNear_perm key _ _ item _) restored
            rw [landed] at restored
            exact ⟨landed, restored⟩
          · rintro ⟨landed, restored⟩
            rw [landed]
            exact restored

/-- The keys of a target list are restored from items with the keys of its old
items exactly when each new item is well placed. -/
theorem map_foldl_eq_iff {place : List α → α → List α} {target start : List α}
    (distinct : (target.map key).Nodup) (started : start.map key = (target.filter old).map key)
    (adds : ∀ merged item, (place merged item).Perm (item :: merged))
    (keeps : ∀ (merged : List α) item, merged.Sublist (place merged item))
    (keyed : ∀ first second item, first.map key = second.map key →
      (place first item).map key = (place second item).map key)
    (places : ∀ front item after, target = front ++ item :: after → ∀ merged,
      place merged item =
        insertNear key (previousOf skip front) (nextOf skip after) item merged) :
    ((target.filter fun item => !old item).foldl place start).map key = target.map key ↔
      ∀ front item after, target = front ++ item :: after → old item = false →
        WellPlaced skip old front after := by
  rw [map_foldl_congr keyed _ started]
  have restored := foldl_eq_iff skip old [] distinct keeps places
  simp only [List.nil_append] at restored
  rw [← restored]
  constructor
  · intro same
    have everything := (perm_foldl adds (target.filter fun item => !old item)
      (target.filter old)).trans (List.filter_append_perm old target)
    have keys := List.inj_on_of_nodup_map distinct
    apply List.ext_getElem
    · simpa using congrArg List.length same
    · intro index first second
      apply keys (everything.subset (List.getElem_mem first)) (List.getElem_mem second)
      have entry := congrArg (fun list => list[index]?) same
      simpa [first, second] using entry
  · intro same
    rw [same]

end Restoration

end MergeBot.Foundation.Placement
