import Mathlib.Data.List.Perm.Basic
import Mathlib.Data.List.Nodup

/-!
# A table with a primary key

`rewriteEach` writes changed rows back to a table with a primary key one by one, by deleting the
old row and inserting the new one, and stops when the table does not take a row.
`rewriteEach_spec`: it gets through exactly when there is `Room` for every new row at its turn.
Then only the given rows have been replaced; else a row is lost.
-/

namespace MergeBot.Foundation

universe u v

variable {α : Type u} {κ : Type v} [DecidableEq κ] {key : α → κ}

/-- Rows no two of which have the same key. -/
structure KeyedTable (key : α → κ) where
  rows : List α
  distinct : (rows.map key).Nodup

namespace KeyedTable

/-- Delete the row with a key, if there is one. -/
def delete (table : KeyedTable key) (gone : κ) : KeyedTable key where
  rows := table.rows.filter fun row => key row ≠ gone
  distinct := table.distinct.sublist (List.filter_sublist.map key)

/-- Insert a row; `none` when it does not fit or its key is taken. -/
def insert (fits : α → Bool) (table : KeyedTable key) (row : α) : Option (KeyedTable key) :=
  if taken : fits row = false ∨ key row ∈ table.rows.map key then none
  else
    some
      { rows := table.rows ++ [row]
        distinct := by
          rw [not_or] at taken
          rw [List.map_append, List.nodup_append]
          refine ⟨table.distinct, List.nodup_singleton _, ?_⟩
          rintro other member _ new rfl
          exact taken.2 (List.mem_singleton.mp new ▸ member) }

/-- Delete the rows one by one and insert each with its change; the result is `false` when a row
could not be inserted. -/
def rewriteEach (fits : α → Bool) (change : α → α) : List α → KeyedTable key →
    KeyedTable key × Bool
  | [], table => (table, true)
  | row :: rest, table =>
      match (table.delete (key row)).insert fits (change row) with
      | none => (table.delete (key row), false)
      | some next => rewriteEach fits change rest next

variable {fits : α → Bool} {change : α → α} {table : KeyedTable key}
  {others items : List α}

/-- Every changed row fits, and when its turn comes its key is not that of another row: one that
is left alone, one that has been changed before or one that has not been changed yet. -/
structure Room (key : α → κ) (fits : α → Bool) (change : α → α) (others items : List α) :
    Prop where
  fitting : ∀ row ∈ items, fits (change row) = true
  apart : ∀ row ∈ items, ∀ other ∈ others, key (change row) ≠ key other
  inTurn : items.Pairwise fun earlier later =>
    key (change earlier) ≠ key later ∧ key (change later) ≠ key (change earlier)

omit [DecidableEq κ] in
/-- Without rows to change there is room. -/
theorem Room.nil : Room key fits change others [] where
  fitting := by simp
  apart := by simp
  inTurn := .nil

omit [DecidableEq κ] in
/-- There is room for equal changes. -/
theorem Room.of_eq {other : α → α} (room : Room key fits change others items)
    (same : ∀ row ∈ items, change row = other row) : Room key fits other others items where
  fitting := fun row member => same row member ▸ room.fitting row member
  apart := fun row member => same row member ▸ room.apart row member
  inTurn := room.inTurn.imp_of_mem fun {earlier later} before after apart => by
    rwa [← same earlier before, ← same later after]

omit [DecidableEq κ] in
/-- Room is about what the change does to the rows. -/
theorem room_congr {other : α → α} (same : ∀ row ∈ items, change row = other row) :
    Room key fits change others items ↔ Room key fits other others items :=
  ⟨fun room => room.of_eq same, fun room => room.of_eq fun row member => (same row member).symm⟩

omit [DecidableEq κ] in
/-- Room for the first row, and room for the rest beside it. -/
theorem room_cons {row : α} {rest : List α} :
    Room key fits change others (row :: rest) ↔
      (fits (change row) = true ∧ key (change row) ∉ (others ++ rest).map key) ∧
        Room key fits change (others ++ [change row]) rest := by
  constructor
  · rintro ⟨fitting, apart, inTurn⟩
    obtain ⟨first, later⟩ := List.pairwise_cons.mp inTurn
    refine ⟨⟨fitting row List.mem_cons_self, ?_⟩,
      fun other member => fitting other (List.mem_cons_of_mem row member), ?_, later⟩
    · simp only [List.map_append, List.mem_append, List.mem_map, not_or]
      refine ⟨?_, ?_⟩
      · rintro ⟨other, member, same⟩
        exact apart row List.mem_cons_self other member same.symm
      · rintro ⟨other, member, same⟩
        exact (first other member).1 same.symm
    · intro item member other found
      rcases List.mem_append.mp found with found | found
      · exact apart item (List.mem_cons_of_mem row member) other found
      · rw [List.mem_singleton.mp found]
        exact (first item member).2
  · rintro ⟨⟨fit, free⟩, fitting, apart, inTurn⟩
    simp only [List.map_append, List.mem_append, List.mem_map, not_or] at free
    refine ⟨List.forall_mem_cons.mpr ⟨fit, fitting⟩,
      List.forall_mem_cons.mpr ⟨fun other member same => free.1 ⟨other, member, same.symm⟩,
        fun item member other found => apart item member other (List.mem_append_left _ found)⟩,
      List.pairwise_cons.mpr ⟨fun other member => ⟨fun same => free.2 ⟨other, member, same.symm⟩,
        ?_⟩, inTurn⟩⟩
    exact apart other member (change row) (List.mem_append_right _ List.mem_cons_self)

/-- Deleting the chosen rows of a list leaves the rows with other keys. -/
theorem foldl_delete_rows (chosen : α → Prop) [DecidablePred chosen] (items : List α)
    (table : KeyedTable key) :
    (items.foldl (fun table row => if chosen row then table.delete (key row) else table)
        table).rows =
      table.rows.filter fun row => ∀ item ∈ items, chosen item → key row ≠ key item := by
  induction items generalizing table with
  | nil => simp
  | cons item rest inductionHypothesis =>
      rw [List.foldl_cons, inductionHypothesis]
      by_cases isChosen : chosen item
      · rw [if_pos isChosen, delete, List.filter_filter]
        refine List.filter_congr fun row _ => ?_
        simp [isChosen, Bool.and_comm]
      · simp [isChosen]

/-- Deleting the chosen rows of a table leaves the others. -/
theorem foldl_delete_own (chosen listed : α → Bool) (table : KeyedTable key) :
    ((table.rows.filter listed).foldl
        (fun table row => if chosen row then table.delete (key row) else table) table).rows =
      table.rows.filter fun row => !(chosen row && listed row) := by
  rw [foldl_delete_rows]
  refine List.filter_congr fun row member => ?_
  have same_key (other : α) (otherMember : other ∈ table.rows) (same : key row = key other) :
      row = other := List.inj_on_of_nodup_map table.distinct member otherMember same
  rw [Bool.eq_iff_iff, decide_eq_true_iff, Bool.not_eq_true', ← Bool.not_eq_true, Bool.and_eq_true]
  constructor
  · rintro apart ⟨isChosen, isListed⟩
    exact apart row (List.mem_filter.mpr ⟨member, isListed⟩) isChosen rfl
  · intro kept item found isChosen same
    obtain ⟨itemMember, isListed⟩ := List.mem_filter.mp found
    rw [same_key item itemMember same] at kept
    exact kept ⟨isChosen, isListed⟩

/-- A row that fits and whose key is free is inserted. -/
theorem insert_free {row : α} (free : ¬ (fits row = false ∨ key row ∈ table.rows.map key)) :
    ∃ next, table.insert fits row = some next ∧ next.rows = table.rows ++ [row] :=
  ⟨_, dif_neg free, rfl⟩

/-- Deleting one row of a table leaves the others. -/
theorem delete_perm {row : α} {rest : List α} (split : table.rows.Perm (others ++ row :: rest)) :
    (table.delete (key row)).rows.Perm (others ++ rest) := by
  have distinct : ((others ++ row :: rest).map key).Nodup :=
    (split.map key).nodup_iff.mp table.distinct
  have middle : ((row :: (others ++ rest)).map key).Nodup :=
    (List.perm_middle.map key).nodup_iff.mp distinct
  rw [List.map_cons, List.nodup_cons] at middle
  have kept : (others ++ rest).filter (fun other => key other ≠ key row) = others ++ rest := by
    rw [List.filter_eq_self]
    intro other member
    exact decide_eq_true fun same => middle.1 (same ▸ List.mem_map_of_mem member)
  refine (split.filter _).trans ?_
  rw [← kept]
  refine ((List.perm_middle.filter _).trans ?_)
  rw [List.filter_cons_of_neg (by simp)]

variable (fits change) in
/-- The run gets through exactly when there is room for every row, and then it has changed
the rows; else one is lost. -/
theorem rewriteEach_spec (split : table.rows.Perm (others ++ items)) :
    ((rewriteEach fits change items table).2 = true ↔ Room key fits change others items) ∧
      ((rewriteEach fits change items table).2 = true →
        (rewriteEach fits change items table).1.rows.Perm (others ++ items.map change)) ∧
      ((rewriteEach fits change items table).2 = false →
        (rewriteEach fits change items table).1.rows.length < table.rows.length) := by
  induction items generalizing table others with
  | nil =>
      exact ⟨iff_of_true rfl .nil, fun _ => split, fun failed => by simp [rewriteEach] at failed⟩
  | cons row rest inductionHypothesis =>
      have left := delete_perm split
      have fewer : (table.delete (key row)).rows.length + 1 = table.rows.length := by
        rw [left.length_eq, split.length_eq, List.length_append, List.length_append,
          List.length_cons]
        omega
      have members := (left.map key).mem_iff (a := key (change row))
      rw [rewriteEach, room_cons]
      by_cases taken : fits (change row) = false ∨
          key (change row) ∈ (table.delete (key row)).rows.map key
      · rw [insert, dif_pos taken]
        refine ⟨iff_of_false Bool.false_ne_true fun room => ?_,
          fun through => absurd through Bool.false_ne_true, fun _ => ?_⟩
        · rcases taken with unfit | known
          · exact absurd room.1.1 (by simp [unfit])
          · exact room.1.2 (members.mp known)
        · change (table.delete (key row)).rows.length < table.rows.length
          omega
      · obtain ⟨next, inserted, rows_eq⟩ := insert_free taken
        rw [not_or, members, Bool.not_eq_false] at taken
        have nextSplit : next.rows.Perm (others ++ [change row] ++ rest) := by
          rw [rows_eq, List.append_assoc]
          refine (left.append_right _).trans ?_
          rw [List.append_assoc]
          exact List.perm_append_comm.append_left others
        obtain ⟨through_iff, through, lost⟩ := inductionHypothesis nextSplit
        rw [inserted]
        refine ⟨through_iff.trans (and_iff_right taken).symm, fun done => ?_, fun failed => ?_⟩
        · simpa using through done
        · have shorter := lost failed
          rwa [rows_eq, List.length_append, List.length_singleton, fewer] at shorter

end KeyedTable

end MergeBot.Foundation
