import Mathlib.Data.List.Induction
import MergeBot.Foundation.Placement

/-!
# The order of items inserted at anchors

Items are put into a list one by one, each directly behind an item that is there, directly before
one of the first list, or at the end. Which items go behind an item of the first list is told by
the anchors alone (`Inserted.precedes_iff`). When items are either early or late, and the early ones
are inserted first, the anchors also tell whether all late ones stand behind all early ones in the
end (`Inserted.pairwise_iff`).
-/

namespace MergeBot.Foundation.Anchors

universe u v

/-- Where an item is put. -/
inductive Anchor (α : Type u)
  | behind (item : α)
  | before (item : α)
  | last
deriving DecidableEq, Repr

variable {α : Type u}

/-! ## The order of two items -/

/-- One item stands in front of another one. -/
def Precedes (list : List α) (first second : α) : Prop :=
  [first, second].Sublist list

theorem Precedes.mem_left {list : List α} {first second : α}
    (order : Precedes list first second) : first ∈ list :=
  order.subset (by simp)

theorem Precedes.mem_right {list : List α} {first second : α}
    (order : Precedes list first second) : second ∈ list :=
  order.subset (by simp)

theorem precedes_append_cons {front rest : List α} {first second : α} (inside : first ∈ front) :
    Precedes (front ++ second :: rest) first second := by
  have one : [first].Sublist front := List.singleton_sublist.mpr inside
  exact one.append (List.cons_sublist_cons.mpr (List.nil_sublist rest))

theorem precedes_cons_append {front rest : List α} {first second : α} (inside : second ∈ rest) :
    Precedes (front ++ first :: rest) first second :=
  (List.cons_sublist_cons.mpr (List.singleton_sublist.mpr inside)).trans
    (List.sublist_append_right front _)

/-- In a list without repetitions nothing stands in front of what is in front of it. -/
theorem Precedes.asymm {list : List α} (distinct : list.Nodup) {first second : α}
    (order : Precedes list first second) : ¬ Precedes list second first := by
  intro reverse
  induction list with
  | nil => exact List.not_mem_nil order.mem_left
  | cons head rest inductionHypothesis =>
    obtain ⟨absent, distinct⟩ := List.nodup_cons.mp distinct
    rcases List.sublist_cons_iff.mp order with later | ⟨_, same, later⟩
    · rcases List.sublist_cons_iff.mp reverse with later' | ⟨_, same', -⟩
      · exact inductionHypothesis distinct later later'
      · obtain ⟨rfl, -⟩ := List.cons.inj same'
        exact absent (Precedes.mem_right later)
    · obtain ⟨rfl, rfl⟩ := List.cons.inj same
      have inside := List.singleton_sublist.mp later
      rcases List.sublist_cons_iff.mp reverse with later' | ⟨_, same', -⟩
      · exact absent (Precedes.mem_right later')
      · obtain ⟨rfl, -⟩ := List.cons.inj same'
        exact absent inside

theorem precedes_total {list : List α} {first second : α} (isFirst : first ∈ list)
    (isSecond : second ∈ list) (apart : first ≠ second) :
    Precedes list first second ∨ Precedes list second first := by
  obtain ⟨front, rest, rfl⟩ := List.append_of_mem isFirst
  rcases List.mem_append.mp isSecond with inFront | behind
  · exact .inr (precedes_append_cons inFront)
  · rcases List.mem_cons.mp behind with rfl | inRest
    · exact absurd rfl apart
    · exact .inl (precedes_cons_append inRest)

/-- Of two different items that are there, one stands in front. -/
theorem not_precedes_iff {list : List α} (distinct : list.Nodup) {first second : α}
    (isFirst : first ∈ list) (isSecond : second ∈ list) (apart : first ≠ second) :
    ¬ Precedes list first second ↔ Precedes list second first :=
  ⟨(precedes_total isFirst isSecond apart).resolve_left, fun reverse order =>
    order.asymm distinct reverse⟩

/-- A longer list has the order of the items of a shorter one. -/
theorem precedes_iff_of_sublist {list longer : List α} (inside : list.Sublist longer)
    (distinct : longer.Nodup) {first second : α} (isFirst : first ∈ list)
    (isSecond : second ∈ list) : Precedes longer first second ↔ Precedes list first second := by
  refine ⟨fun order => ?_, fun order => order.trans inside⟩
  have apart : first ≠ second := by
    rintro rfl
    exact order.asymm distinct order
  exact (precedes_total isFirst isSecond apart).resolve_right fun reverse =>
    order.asymm distinct (reverse.trans inside)

/-- The items in front of one and behind it. -/
theorem precedes_part {front rest : List α} {item : α} (distinct : (front ++ item :: rest).Nodup) :
    (∀ other, Precedes (front ++ item :: rest) other item ↔ other ∈ front) ∧
      ∀ other, Precedes (front ++ item :: rest) item other ↔ other ∈ rest := by
  have absent : item ∉ front ++ rest := (List.nodup_middle.mp distinct |> List.nodup_cons.mp).1
  constructor
  · refine fun other => ⟨fun order => ?_, precedes_append_cons⟩
    rcases List.mem_append.mp order.mem_left with inFront | behind
    · exact inFront
    · rcases List.mem_cons.mp behind with rfl | inRest
      · exact absurd order (order.asymm distinct)
      · exact absurd (precedes_cons_append inRest) (order.asymm distinct)
  · refine fun other => ⟨fun order => ?_, precedes_cons_append⟩
    rcases List.mem_append.mp order.mem_right with inFront | behind
    · exact absurd (precedes_append_cons inFront) (order.asymm distinct)
    · rcases List.mem_cons.mp behind with rfl | inRest
      · exact absurd order (order.asymm distinct)
      · exact inRest

/-! ## Insertion at an anchor -/

/-- Put an item into a list at an anchor. -/
inductive Puts (item : α) : Anchor α → List α → List α → Prop
  | behind (front : List α) (other : α) (rest : List α) :
      Puts item (.behind other) (front ++ other :: rest) (front ++ other :: item :: rest)
  | before (front : List α) (other : α) (rest : List α) :
      Puts item (.before other) (front ++ other :: rest) (front ++ item :: other :: rest)
  | last (list : List α) : Puts item .last list (list ++ [item])

/-- Whether an item stands in front of the place that an anchor names. -/
def Anchor.InFront (list : List α) (item : α) : Anchor α → Prop
  | behind other => item = other ∨ Precedes list item other
  | before other => Precedes list item other
  | last => item ∈ list

/-- The anchor is an item. -/
def Anchor.At (item : α) : Anchor α → Prop
  | behind other => other = item
  | before other => other = item
  | last => False

/-- An item is put between those in front of its place and the others. -/
theorem Puts.parts {item : α} {anchor : Anchor α} {list longer : List α}
    (puts : Puts item anchor list longer) (distinct : list.Nodup) :
    ∃ front rest, list = front ++ rest ∧ longer = front ++ item :: rest ∧
      ∀ other, other ∈ front ↔ anchor.InFront list other := by
  cases puts with
  | behind front other rest =>
    refine ⟨front ++ [other], rest, by simp, by simp, fun first => ?_⟩
    rw [Anchor.InFront, (precedes_part distinct).1, List.mem_append, List.mem_singleton, or_comm]
  | before front other rest =>
    exact ⟨front, other :: rest, rfl, rfl, fun first => ((precedes_part distinct).1 first).symm⟩
  | last => exact ⟨list, [], by simp, rfl, fun _ => .rfl⟩

theorem Puts.perm {item : α} {anchor : Anchor α} {list longer : List α}
    (puts : Puts item anchor list longer) : longer.Perm (list ++ [item]) := by
  cases puts with
  | behind front other rest =>
    rw [List.append_assoc, List.cons_append]
    exact ((List.perm_append_singleton item rest).symm.cons other).append_left front
  | before front other rest =>
    rw [List.append_assoc]
    exact (List.perm_append_singleton item (other :: rest)).symm.append_left front
  | last => exact .refl _

theorem Puts.sublist {item : α} {anchor : Anchor α} {list longer : List α}
    (puts : Puts item anchor list longer) : list.Sublist longer := by
  cases puts with
  | behind front other rest =>
    exact (((List.sublist_cons_self item rest).cons_cons other)).append_left front
  | before front other rest => exact (List.sublist_cons_self item _).append_left front
  | last => exact List.sublist_append_left list [item]

/-- The order of a new item and those that are there. -/
theorem Puts.precedes_iff {item : α} {anchor : Anchor α} {list longer : List α}
    (puts : Puts item anchor list longer) (distinct : longer.Nodup) {other : α}
    (isOther : other ∈ list) :
    (Precedes longer other item ↔ anchor.InFront list other) ∧
      (Precedes longer item other ↔ ¬ anchor.InFront list other) := by
  obtain ⟨front, rest, rfl, rfl, inFront⟩ := puts.parts (distinct.sublist puts.sublist)
  obtain ⟨before, after⟩ := precedes_part distinct
  refine ⟨(before other).trans (inFront other), ?_⟩
  rw [after, ← inFront]
  have apart : other ∈ front → other ∉ rest := fun first second =>
    (List.nodup_append.mp (distinct.sublist puts.sublist)).2.2 other first other second rfl
  rcases List.mem_append.mp isOther with first | second
  · exact iff_of_false (apart first) (not_not.mpr first)
  · exact iff_of_true second fun first => apart first second

/-- Items put into a list in turn, each at its anchor. -/
inductive Inserted (anchor : α → Anchor α) (kept : List α) : List α → List α → Prop
  | nil : Inserted anchor kept [] kept
  | snoc {items list longer : List α} {item : α} (earlier : Inserted anchor kept items list)
      (puts : Puts item (anchor item) list longer) :
      Inserted anchor kept (items ++ [item]) longer

/-- An inserted item goes behind an item of the first list: behind that one or a later one, behind
an inserted one that does, before a later one, or at the end. -/
inductive GoesBehind (anchor : α → Anchor α) (kept : List α) (first : α) : α → Prop
  | kept {item other : α} (isAnchor : anchor item = .behind other) (inside : other ∈ kept)
      (order : first = other ∨ Precedes kept first other) : GoesBehind anchor kept first item
  | inserted {item other : α} (isAnchor : anchor item = .behind other) (outside : other ∉ kept)
      (behind : GoesBehind anchor kept first other) : GoesBehind anchor kept first item
  | before {item other : α} (isAnchor : anchor item = .before other)
      (order : Precedes kept first other) : GoesBehind anchor kept first item
  | last {item : α} (isAnchor : anchor item = .last) : GoesBehind anchor kept first item

section GoesBehind

variable {anchor : α → Anchor α} {kept : List α} {first item other : α}

theorem goesBehind_kept_iff (isAnchor : anchor item = .behind other) (inside : other ∈ kept) :
    GoesBehind anchor kept first item ↔ first = other ∨ Precedes kept first other := by
  refine ⟨fun behind => ?_, .kept isAnchor inside⟩
  cases behind with
  | kept isAnchor' _ order => rwa [Anchor.behind.inj (isAnchor.symm.trans isAnchor')]
  | inserted isAnchor' outside _ =>
    exact absurd (Anchor.behind.inj (isAnchor.symm.trans isAnchor') ▸ inside) outside
  | before isAnchor' _ | last isAnchor' => exact absurd (isAnchor.symm.trans isAnchor') nofun

theorem goesBehind_inserted_iff (isAnchor : anchor item = .behind other) (outside : other ∉ kept) :
    GoesBehind anchor kept first item ↔ GoesBehind anchor kept first other := by
  refine ⟨fun behind => ?_, .inserted isAnchor outside⟩
  cases behind with
  | kept isAnchor' inside _ =>
    exact absurd (Anchor.behind.inj (isAnchor.symm.trans isAnchor') ▸ inside) outside
  | inserted isAnchor' _ order => rwa [Anchor.behind.inj (isAnchor.symm.trans isAnchor')]
  | before isAnchor' _ | last isAnchor' => exact absurd (isAnchor.symm.trans isAnchor') nofun

theorem goesBehind_before_iff (isAnchor : anchor item = .before other) :
    GoesBehind anchor kept first item ↔ Precedes kept first other := by
  refine ⟨fun behind => ?_, .before isAnchor⟩
  cases behind with
  | before isAnchor' order => rwa [Anchor.before.inj (isAnchor.symm.trans isAnchor')]
  | kept isAnchor' _ _ | inserted isAnchor' _ _ | last isAnchor' =>
    exact absurd (isAnchor.symm.trans isAnchor') nofun

end GoesBehind

namespace Inserted

variable {anchor : α → Anchor α} {kept items list : List α}

theorem perm (inserted : Inserted anchor kept items list) : list.Perm (kept ++ items) := by
  induction inserted with
  | nil => rw [List.append_nil]
  | snoc _ puts inductionHypothesis =>
    rw [← List.append_assoc]
    exact puts.perm.trans (inductionHypothesis.append_right _)

theorem sublist (inserted : Inserted anchor kept items list) : kept.Sublist list := by
  induction inserted with
  | nil => exact .refl _
  | snoc _ puts inductionHypothesis => exact inductionHypothesis.trans puts.sublist

/-- What an item is put behind is an item of the first list or one that was put in before. -/
theorem mem_of_behind {longer : List α} {item other : α}
    (inserted : Inserted anchor kept items list) (puts : Puts item (anchor item) list longer)
    (isAnchor : anchor item = .behind other) (outside : other ∉ kept) : other ∈ items := by
  have inside : other ∈ list := by
    rw [isAnchor] at puts
    cases puts
    simp
  exact (List.mem_append.mp (inserted.perm.subset inside)).resolve_left outside

/-- The items that go behind an item of the first list stand behind it. -/
theorem precedes_iff (inserted : Inserted anchor kept items list) (distinct : list.Nodup)
    (inKept : ∀ item ∈ items, ∀ other, anchor item = .before other → other ∈ kept) {first : α}
    (isFirst : first ∈ kept) :
    ∀ item ∈ items, Precedes list first item ↔ GoesBehind anchor kept first item := by
  induction inserted with
  | nil => exact fun item absent => absurd absent List.not_mem_nil
  | @snoc items list longer item earlier puts inductionHypothesis =>
    have distinct' := distinct.sublist puts.sublist
    have isThere := earlier.sublist.subset isFirst
    have before := inductionHypothesis distinct' fun other member =>
      inKept other (List.mem_append_left _ member)
    have sameOrder : ∀ second ∈ kept, Precedes list first second ↔ Precedes kept first second :=
      fun second isSecond => precedes_iff_of_sublist earlier.sublist distinct' isFirst isSecond
    intro other member
    rcases List.mem_append.mp member with old | new
    · rw [precedes_iff_of_sublist puts.sublist distinct isThere
        (earlier.perm.mem_iff.mpr (List.mem_append_right _ old))]
      exact before other old
    · obtain rfl := List.mem_singleton.mp new
      rw [(puts.precedes_iff distinct isThere).1]
      cases isAnchor : anchor other with
      | behind place =>
        rw [Anchor.InFront]
        by_cases inside : place ∈ kept
        · rw [goesBehind_kept_iff isAnchor inside, sameOrder place inside]
        · rw [goesBehind_inserted_iff isAnchor inside,
            before place (earlier.mem_of_behind puts isAnchor inside)]
          exact or_iff_right fun same => inside (same ▸ isFirst)
      | before place =>
        rw [goesBehind_before_iff isAnchor]
        exact sameOrder place (inKept other member place isAnchor)
      | last => exact iff_of_true isThere (.last isAnchor)

/-! ## Early and late items -/

variable {early late : α → Prop}

/-- A late item is put behind an early one, if that one does not go behind the item of the first
list that the late one is put at. -/
theorem late_last_iff {longer : List α} {item other : α} (inserted : Inserted anchor kept items list)
    (puts : Puts item (anchor item) list longer) (distinct : longer.Nodup)
    (inKept : ∀ item ∈ items, ∀ other, anchor item = .before other → other ∈ kept)
    (isKept : ∀ other, anchor item = .before other → other ∈ kept)
    (apart : ∀ item, late item → ¬ early item)
    (lateAnchor : ∀ other, anchor item = .behind other → other ∉ kept → late other)
    (behind : ∀ item ∈ items, late item → ¬ Precedes list item other) (member : other ∈ items)
    (isEarly : early other) :
    ¬ Precedes longer item other ↔
      ∀ first ∈ kept, (anchor item).At first → ¬ GoesBehind anchor kept first other := by
  have distinct' := distinct.sublist puts.sublist
  have isThere : ∀ ref ∈ items, ref ∈ list := fun ref member =>
    inserted.perm.mem_iff.mpr (List.mem_append_right _ member)
  have outside : ∀ first ∈ kept, first ≠ other := fun first isFirst =>
    (List.nodup_append.mp (inserted.perm.nodup_iff.mp distinct')).2.2 first isFirst other member
  -- in front of the place that is named by an item of the first list
  have atKept : ∀ first ∈ kept,
      (Precedes list other first ↔ ¬ GoesBehind anchor kept first other) := by
    intro first isFirst
    rw [← inserted.precedes_iff distinct' inKept isFirst other member]
    exact (not_precedes_iff distinct' (inserted.sublist.subset isFirst) (isThere other member)
      (outside first isFirst)).symm
  rw [(puts.precedes_iff distinct (isThere other member)).2, not_not]
  cases isAnchor : anchor item with
  | behind place =>
    rw [Anchor.InFront]
    by_cases inside : place ∈ kept
    · rw [or_iff_right (outside place inside).symm, atKept place inside]
      exact ⟨fun fits first _ same => same ▸ fits, fun fits => fits place inside rfl⟩
    · have there := inserted.mem_of_behind puts isAnchor inside
      have isLate := lateAnchor place isAnchor inside
      have differ : place ≠ other := fun same => apart place isLate (same ▸ isEarly)
      refine iff_of_true (.inr ?_) fun first isFirst same => absurd (same ▸ isFirst) inside
      exact (not_precedes_iff distinct' (isThere place there) (isThere other member) differ).mp
        (behind place there isLate)
  | before place =>
    rw [Anchor.InFront, atKept place (isKept place isAnchor)]
    exact ⟨fun fits first _ same => same ▸ fits,
      fun fits => fits place (isKept place isAnchor) rfl⟩
  | last => exact iff_of_true (isThere other member) fun _ _ => False.elim

/-- All late items are put behind the early ones exactly when no early one goes behind an item of
the first list that a late one is put at. -/
theorem late_behind_early_iff (inserted : Inserted anchor kept items list) (distinct : list.Nodup)
    (inKept : ∀ item ∈ items, ∀ other, anchor item = .before other → other ∈ kept)
    (apart : ∀ item, late item → ¬ early item)
    (ordered : items.Pairwise fun first second => late first → ¬ early second)
    (lateAnchor : ∀ item ∈ items, late item → ∀ other, anchor item = .behind other →
      other ∉ kept → late other) :
    (∀ item ∈ items, late item → ∀ other ∈ items, early other → ¬ Precedes list item other) ↔
      ∀ item ∈ items, late item → ∀ other ∈ items, early other →
        ∀ first ∈ kept, (anchor item).At first → ¬ GoesBehind anchor kept first other := by
  induction inserted with
  | nil => simp
  | @snoc items list longer item earlier puts inductionHypothesis =>
    obtain ⟨ordered, -, lastOrdered⟩ := List.pairwise_append.mp ordered
    have old : ∀ other ∈ items, other ∈ items ++ [item] := fun _ => List.mem_append_left _
    have new : item ∈ items ++ [item] := List.mem_append_right _ List.mem_cons_self
    have inKept' := fun other member => inKept other (old other member)
    have former := inductionHypothesis (distinct.sublist puts.sublist) inKept' ordered
      fun other member => lateAnchor other (old other member)
    -- only a late last item asks for more, and none is late in front of an early last one
    have split : ∀ P : α → α → Prop,
        (∀ first ∈ items ++ [item], late first → ∀ second ∈ items ++ [item], early second →
          P first second) ↔
        (∀ first ∈ items, late first → ∀ second ∈ items, early second → P first second) ∧
          (late item → ∀ second ∈ items, early second → P item second) := by
      intro P
      refine ⟨fun all => ⟨fun first isFirst isLate second isSecond =>
        all first (old first isFirst) isLate second (old second isSecond),
        fun isLate second isSecond => all item new isLate second (old second isSecond)⟩, ?_⟩
      rintro ⟨both, last⟩ first isFirst isLate second isSecond isEarly
      rcases List.mem_append.mp isFirst with inFirst | isItem
      · rcases List.mem_append.mp isSecond with inSecond | isItem
        · exact both first inFirst isLate second inSecond isEarly
        · exact absurd isEarly (lastOrdered first inFirst second isItem isLate)
      · obtain rfl := List.mem_singleton.mp isItem
        rcases List.mem_append.mp isSecond with inSecond | isItem
        · exact last isLate second inSecond isEarly
        · obtain rfl := List.mem_singleton.mp isItem
          exact absurd isEarly (apart second isLate)
    have sameOrder : ∀ first ∈ items, ∀ second ∈ items,
        (Precedes longer first second ↔ Precedes list first second) := by
      intro first isFirst second isSecond
      exact precedes_iff_of_sublist puts.sublist distinct
        (earlier.perm.mem_iff.mpr (List.mem_append_right _ isFirst))
        (earlier.perm.mem_iff.mpr (List.mem_append_right _ isSecond))
    rw [split, split, ← former]
    have sameOld : (∀ first ∈ items, late first → ∀ second ∈ items, early second →
        ¬ Precedes longer first second) ↔
          ∀ first ∈ items, late first → ∀ second ∈ items, early second →
            ¬ Precedes list first second :=
      forall₂_congr fun first isFirst => imp_congr_right fun _ => forall₂_congr fun second isSecond =>
        imp_congr_right fun _ => not_congr (sameOrder first isFirst second isSecond)
    rw [sameOld]
    refine and_congr_right fun behind => imp_congr_right fun isLate => forall₂_congr
      fun second isSecond => imp_congr_right fun isEarly => ?_
    exact earlier.late_last_iff puts distinct inKept' (inKept item new) apart
      (lateAnchor item new isLate)
      (fun first isFirst firstLate => behind first isFirst firstLate second isSecond isEarly)
      isSecond isEarly

/-- Early items stand in front of the late ones exactly when they do in the first list, early items
go in front of its late ones, late items behind its early ones, and no early item goes behind an
item that a late one is put at. -/
theorem pairwise_iff (inserted : Inserted anchor kept items list) (distinct : list.Nodup)
    (inKept : ∀ item ∈ items, ∀ other, anchor item = .before other → other ∈ kept)
    (apart : ∀ item, late item → ¬ early item)
    (ordered : items.Pairwise fun first second => late first → ¬ early second)
    (lateAnchor : ∀ item ∈ items, late item → ∀ other, anchor item = .behind other →
      other ∉ kept → late other) :
    (list.Pairwise fun first second => late first → ¬ early second) ↔
      (kept.Pairwise fun first second => late first → ¬ early second) ∧
      (∀ item ∈ items, early item → ∀ first ∈ kept, late first →
        ¬ GoesBehind anchor kept first item) ∧
      (∀ item ∈ items, late item → ∀ first ∈ kept, early first →
        GoesBehind anchor kept first item) ∧
      ∀ item ∈ items, late item → ∀ other ∈ items, early other →
        ∀ first ∈ kept, (anchor item).At first → ¬ GoesBehind anchor kept first other := by
  rw [← inserted.late_behind_early_iff distinct inKept apart ordered lateAnchor]
  have behind : ∀ first ∈ kept, ∀ item ∈ items,
      (Precedes list first item ↔ GoesBehind anchor kept first item) :=
    fun _ isFirst => inserted.precedes_iff distinct inKept isFirst
  have isThere : ∀ item, item ∈ list ↔ item ∈ kept ∨ item ∈ items := fun item =>
    inserted.perm.mem_iff.trans List.mem_append
  have outside : ∀ first ∈ kept, ∀ item ∈ items, first ≠ item :=
    (List.nodup_append.mp (inserted.perm.nodup_iff.mp distinct)).2.2
  have orders : ∀ {order : List α},
      (order.Pairwise fun first second => late first → ¬ early second) ↔
        ∀ first second, Precedes order first second → late first → ¬ early second := by
    intro order
    rw [List.pairwise_iff_forall_sublist]
    exact ⟨fun all first second => all, fun all first second => all first second⟩
  rw [orders, orders]
  constructor
  · intro all
    refine ⟨fun first second order => all first second (order.trans inserted.sublist), ?_, ?_, ?_⟩
    · intro item member isEarly first isFirst isLate goes
      exact all first item ((behind first isFirst item member).mpr goes) isLate isEarly
    · intro item member isLate first isFirst isEarly
      by_contra goesNot
      rw [← behind first isFirst item member, not_precedes_iff distinct
        ((isThere first).mpr (.inl isFirst)) ((isThere item).mpr (.inr member))
        (outside first isFirst item member)] at goesNot
      exact all item first goesNot isLate isEarly
    · exact fun item _ isLate other _ isEarly order => all item other order isLate isEarly
  · rintro ⟨inKeptOrder, earlyFront, lateBehind, both⟩ first second order isLate isEarly
    rcases (isThere first).mp order.mem_left with isFirst | isFirst <;>
      rcases (isThere second).mp order.mem_right with isSecond | isSecond
    · exact inKeptOrder first second ((precedes_iff_of_sublist inserted.sublist distinct isFirst
        isSecond).mp order) isLate isEarly
    · exact earlyFront second isSecond isEarly first isFirst isLate
        ((behind first isFirst second isSecond).mp order)
    · exact order.asymm distinct ((behind second isSecond first isFirst).mpr
        (lateBehind first isFirst isLate second isSecond isEarly))
    · exact both first isFirst isLate second isSecond isEarly order

end Inserted

/-! ## Anchors of items beside their neighbours -/

section Near

variable {κ : Type v} [DecidableEq κ] (key : α → κ) (kept : List α) (isNew : α → Bool)

/-- The anchor of an item with the given neighbours: its previous neighbour, if one of the first
list has the key of that or it is inserted itself; failing that, one of the first list with the key
of the next neighbour, or the end. -/
def nearAnchor (previous next : Option α) : Anchor α :=
  match previous.bind fun neighbour => kept.find? fun other => key other = key neighbour with
  | some other => .behind other
  | none =>
      match previous.filter isNew with
      | some other => .behind other
      | none =>
          match next.bind fun neighbour => kept.find? fun other => key other = key neighbour with
          | some other => .before other
          | none => .last

variable {key kept isNew}

/-- Only keys of the first list and of the neighbours count. -/
theorem nearAnchor_congr {key' : α → κ} {previous next : Option α}
    (sameKept : ∀ item ∈ kept, key item = key' item)
    (samePrevious : ∀ item ∈ previous, key item = key' item)
    (sameNext : ∀ item ∈ next, key item = key' item) :
    nearAnchor key kept isNew previous next = nearAnchor key' kept isNew previous next := by
  have same : ∀ {neighbours : Option α}, (∀ item ∈ neighbours, key item = key' item) →
      (neighbours.bind fun neighbour => kept.find? fun other => key other = key neighbour) =
        neighbours.bind fun neighbour => kept.find? fun other => key' other = key' neighbour := by
    intro neighbours sameKey
    cases neighbours with
    | none => rfl
    | some neighbour =>
      refine List.find?_congr fun other member => ?_
      rw [sameKept other member, sameKey neighbour rfl]
  rw [nearAnchor, nearAnchor, same samePrevious, same sameNext]

/-- In front of the first kept item with a key there is none with that key, if no inserted item has
the key of a kept one. -/
theorem exists_part_of_find {list : List α} {neighbour other : α} (inside : kept.Sublist list)
    (distinct : list.Nodup)
    (fresh : ∀ item ∈ list, item ∉ kept → ∀ first ∈ kept, key first ≠ key item)
    (found : kept.find? (fun other => key other = key neighbour) = some other) :
    ∃ front rest, list = front ++ other :: rest ∧ key other = key neighbour ∧
      ∀ item ∈ front, key item ≠ key other := by
  obtain ⟨same, keptFront, keptRest, split, earlier⟩ := List.find?_eq_some_iff_append.mp found
  have same : key other = key neighbour := by simpa using same
  have isKept : other ∈ kept := by simp [split]
  obtain ⟨front, rest, rfl⟩ := List.append_of_mem (inside.subset isKept)
  refine ⟨front, rest, rfl, same, fun item inFront equal => ?_⟩
  by_cases itemKept : item ∈ kept
  · have order := (precedes_iff_of_sublist inside distinct itemKept isKept).mp
      (precedes_append_cons inFront)
    rw [split] at order
    have inKeptFront := ((precedes_part (split ▸ distinct.sublist inside)).1 item).mp order
    simpa [equal, same] using earlier item inKeptFront
  · exact fresh item (List.mem_append_left _ inFront) itemKept other isKept equal.symm

/-- Neighbours with one key have one place. -/
theorem position_congr {first second : α} (same : key first = key second) (list : List α) :
    Placement.position key list first = Placement.position key list second := by
  rw [Placement.position, Placement.position, same]

/-- An insertion beside the neighbours is one at the anchor. -/
theorem puts_insertNear {list : List α} {previous next : Option α} (item : α)
    (inside : kept.Sublist list) (distinct : list.Nodup)
    (fresh : ∀ item ∈ list, item ∉ kept → ∀ first ∈ kept, key first ≠ key item)
    (told : ∀ neighbour, neighbour ∈ previous ∨ neighbour ∈ next → ∀ item ∈ list, item ∉ kept →
      key item = key neighbour → item = neighbour)
    (there : ∀ neighbour ∈ previous, neighbour ∈ list ↔ isNew neighbour = true)
    (notYet : ∀ neighbour ∈ next, neighbour ∉ list) :
    Puts item (nearAnchor key kept isNew previous next) list
      (Placement.insertNear key previous next item list) := by
  -- who has the key of a neighbour that no kept item has is that neighbour
  have own : ∀ {neighbour}, neighbour ∈ previous ∨ neighbour ∈ next →
      kept.find? (fun other => key other = key neighbour) = none →
        ∀ other ∈ list, key other = key neighbour → other = neighbour := by
    intro neighbour isNeighbour missing other member same
    refine told neighbour isNeighbour other member (fun isKept => ?_) same
    simpa [same] using List.find?_eq_none.mp missing other isKept
  rw [nearAnchor]
  cases previousKept : previous.bind
      fun neighbour => kept.find? fun other => key other = key neighbour with
  | some other =>
    obtain ⟨neighbour, rfl, found⟩ := Option.bind_eq_some_iff.mp previousKept
    obtain ⟨front, rest, rfl, same, earlier⟩ := exists_part_of_find inside distinct fresh found
    have placed := Placement.insertNear_after rest item next earlier
    simp only [Placement.insertNear, Option.bind_some, position_congr same] at placed ⊢
    rw [placed]
    exact .behind front other rest
  | none =>
    have missing : ∀ neighbour ∈ previous,
        kept.find? (fun other => key other = key neighbour) = none := by
      rintro neighbour rfl
      exact previousKept
    dsimp only
    cases isNeighbour : previous.filter isNew with
    | some neighbour =>
      obtain ⟨rfl, new⟩ := Option.filter_eq_some_iff.mp isNeighbour
      obtain ⟨front, rest, rfl⟩ := List.append_of_mem ((there neighbour rfl).mpr new)
      have earlier : ∀ other ∈ front, key other ≠ key neighbour := by
        intro other inFront same
        have isOther := own (.inl rfl) (missing neighbour rfl) other
          (List.mem_append_left _ inFront) same
        exact (List.nodup_append.mp distinct).2.2 other inFront neighbour List.mem_cons_self isOther
      rw [Placement.insertNear_after rest item next earlier]
      exact .behind front neighbour rest
    | none =>
      have away : previous.bind (Placement.position key list) = none := by
        cases previous with
        | none => rfl
        | some neighbour =>
          refine Placement.position_none fun other member same => ?_
          have isOther := own (.inl rfl) (missing neighbour rfl) other member same
          have new := (there neighbour rfl).mp (isOther ▸ member)
          rw [Option.filter_some, if_pos new] at isNeighbour
          cases isNeighbour
      have without : Placement.insertNear key previous next item list =
          Placement.insertNear key none next item list := by
        rw [Placement.insertNear, Placement.insertNear, away]
        rfl
      rw [without]
      dsimp only
      cases nextKept : next.bind
          fun neighbour => kept.find? fun other => key other = key neighbour with
      | some other =>
        obtain ⟨neighbour, rfl, found⟩ := Option.bind_eq_some_iff.mp nextKept
        obtain ⟨front, rest, rfl, same, earlier⟩ := exists_part_of_find inside distinct fresh found
        have placed := Placement.insertNear_before rest item earlier
        simp only [Placement.insertNear, Option.bind_some, position_congr same] at placed ⊢
        rw [placed]
        exact .before front other rest
      | none =>
        rw [Placement.insertNear_end]
        · exact .last list
        · rintro neighbour rfl other member same
          exact notYet neighbour rfl (own (.inr rfl) nextKept other member same ▸ member)

theorem mem_of_nearAnchor_before {previous next : Option α} {other : α}
    (isAnchor : nearAnchor key kept isNew previous next = .before other) : other ∈ kept := by
  rw [nearAnchor] at isAnchor
  split at isAnchor
  · exact absurd isAnchor nofun
  · split at isAnchor
    · exact absurd isAnchor nofun
    · split at isAnchor
      · rename_i found
        obtain ⟨neighbour, -, found⟩ := Option.bind_eq_some_iff.mp found
        rw [← Anchor.before.inj isAnchor]
        exact List.mem_of_find?_eq_some found
      · exact absurd isAnchor nofun

/-- What an item is put behind is kept, or it is new and its previous neighbour. -/
theorem previous_of_nearAnchor_behind {previous next : Option α} {other : α}
    (isAnchor : nearAnchor key kept isNew previous next = .behind other) (outside : other ∉ kept) :
    previous = some other ∧ isNew other = true := by
  rw [nearAnchor] at isAnchor
  split at isAnchor
  · rename_i found
    obtain ⟨neighbour, -, found⟩ := Option.bind_eq_some_iff.mp found
    exact absurd (Anchor.behind.inj isAnchor ▸ List.mem_of_find?_eq_some found) outside
  · split at isAnchor
    · rename_i found
      rw [← Anchor.behind.inj isAnchor]
      exact Option.filter_eq_some_iff.mp found
    · split at isAnchor <;> exact absurd isAnchor nofun

/-! ### The new items of a list -/

variable [DecidableEq α] (skip : α → Bool) (target : List α)

/-- The nearest item in front of one that is not skipped. -/
def previousIn (item : α) : Option α :=
  Placement.previousOf skip (target.takeWhile (· ≠ item))

/-- The nearest item behind one that is not skipped. -/
def nextIn (item : α) : Option α :=
  Placement.nextOf skip (target.dropWhile (· ≠ item)).tail

variable {skip target}

theorem neighbours_eq {front after : List α} {item : α} (absent : item ∉ front) :
    previousIn skip (front ++ item :: after) item = Placement.previousOf skip front ∧
      nextIn skip (front ++ item :: after) item = Placement.nextOf skip after := by
  have others : ∀ other ∈ front, decide (other ≠ item) = true := fun other member =>
    decide_eq_true fun same => absent (same ▸ member)
  rw [previousIn, nextIn, List.takeWhile_append_of_pos others, List.dropWhile_append_of_pos others]
  simp

variable (key kept isNew skip target) in
/-- The anchor of a new item of a list. -/
def anchorIn (item : α) : Anchor α :=
  nearAnchor key kept isNew (previousIn skip target item) (nextIn skip target item)

omit [DecidableEq α] in
variable (skip) in
/-- When the new items in front of a new one were inserted, an insertion beside its neighbours is
one at its anchor. -/
theorem puts_next {anchor : α → Anchor α} {front after merged : List α} {item : α}
    (distinct : (kept ++ (front ++ item :: after)).Nodup)
    (fresh : ∀ other ∈ front, isNew other = true → ∀ first ∈ kept, key first ≠ key other)
    (told : ∀ other ∈ front, isNew other = true → ∀ neighbour ∈ front ++ item :: after,
      key other = key neighbour → other = neighbour)
    (earlier : Inserted anchor kept (front.filter isNew) merged) :
    Puts item
      (nearAnchor key kept isNew (Placement.previousOf skip front) (Placement.nextOf skip after))
      merged
      (Placement.insertNear key (Placement.previousOf skip front) (Placement.nextOf skip after)
        item merged) := by
  obtain ⟨-, targetDistinct, disjoint⟩ := List.nodup_append.mp distinct
  have apart := (List.nodup_append.mp targetDistinct).2.2
  have listed : ∀ other ∈ merged, other ∉ kept → other ∈ front ∧ isNew other = true :=
    fun other member outside => List.mem_filter.mp
      ((List.mem_append.mp (earlier.perm.subset member)).resolve_left outside)
  have mergedDistinct : merged.Nodup :=
    earlier.perm.nodup_iff.mpr (distinct.sublist
      ((List.filter_sublist.trans (List.sublist_append_left front _)).append_left kept))
  have previousInside : ∀ neighbour ∈ Placement.previousOf skip front, neighbour ∈ front :=
    fun neighbour found => List.mem_reverse.mp (List.mem_of_find?_eq_some found)
  have nextInside : ∀ neighbour ∈ Placement.nextOf skip after, neighbour ∈ item :: after :=
    fun neighbour found => List.mem_cons_of_mem item (List.mem_of_find?_eq_some found)
  refine puts_insertNear item earlier.sublist mergedDistinct ?_ ?_ ?_ ?_
  · intro other member outside
    obtain ⟨inFront, new⟩ := listed other member outside
    exact fresh other inFront new
  · intro neighbour isNeighbour other member outside
    obtain ⟨inFront, new⟩ := listed other member outside
    refine told other inFront new neighbour (List.mem_append.mpr ?_)
    exact isNeighbour.imp (previousInside neighbour) (nextInside neighbour)
  · intro neighbour found
    have inFront := previousInside neighbour found
    constructor
    · intro member
      refine (listed neighbour member fun isKept => ?_).2
      exact disjoint neighbour isKept neighbour (List.mem_append_left _ inFront) rfl
    · intro new
      exact earlier.perm.mem_iff.mpr
        (List.mem_append_right _ (List.mem_filter.mpr ⟨inFront, new⟩))
  · intro neighbour found member
    have behind := nextInside neighbour found
    refine apart neighbour (listed neighbour member fun isKept => ?_).1 neighbour behind rfl
    exact disjoint neighbour isKept neighbour (List.mem_append_right _ behind) rfl

/-- Inserting the new items of a list in turn, each beside its neighbours, is inserting each at its
anchor. -/
theorem inserted_foldl {place : List α → α → List α} (distinct : (kept ++ target).Nodup)
    (fresh : ∀ item ∈ target, isNew item = true → ∀ first ∈ kept, key first ≠ key item)
    (told : ∀ item ∈ target, isNew item = true → ∀ other ∈ target, key item = key other →
      item = other)
    (places : ∀ front item after, target = front ++ item :: after → isNew item = true →
      ∀ merged, place merged item = Placement.insertNear key (Placement.previousOf skip front)
        (Placement.nextOf skip after) item merged) :
    Inserted (anchorIn key kept isNew skip target) kept (target.filter isNew)
      ((target.filter isNew).foldl place kept) := by
  have run : ∀ front rest, target = front ++ rest →
      Inserted (anchorIn key kept isNew skip target) kept (front.filter isNew)
        ((front.filter isNew).foldl place kept) := by
    intro front
    induction front using List.reverseRecOn with
    | nil => exact fun _ _ => .nil
    | append_singleton front item inductionHypothesis =>
      intro after split
      rw [List.append_assoc, List.singleton_append] at split
      have earlier := inductionHypothesis (item :: after) split
      rw [List.filter_append]
      by_cases new : isNew item = true
      · have inTarget : ∀ other ∈ front, other ∈ target := fun other inFront =>
          split ▸ List.mem_append_left _ inFront
        have absent : item ∉ front := fun inFront =>
          (List.nodup_append.mp (split ▸ (List.nodup_append.mp distinct).2.1)).2.2 item inFront
            item List.mem_cons_self rfl
        have puts := puts_next skip (split ▸ distinct)
          (fun other inFront => fresh other (inTarget other inFront))
          (fun other inFront otherNew => split ▸ told other (inTarget other inFront) otherNew)
          earlier
        have filtered : [item].filter isNew = [item] := by simp [new]
        obtain ⟨previousSame, nextSame⟩ :
            previousIn skip (front ++ item :: after) item = Placement.previousOf skip front ∧
              nextIn skip (front ++ item :: after) item = Placement.nextOf skip after :=
          neighbours_eq absent
        rw [filtered, List.foldl_append]
        refine .snoc earlier ?_
        rw [anchorIn, split, previousSame, nextSame]
        simpa only [List.foldl_cons, List.foldl_nil, places front item after split new] using puts
      · simpa [new] using earlier
  exact run target [] (List.append_nil target).symm

end Near

end MergeBot.Foundation.Anchors
