import Mathlib.Data.List.Basic
import Mathlib.Data.List.Nodup

/-!
# Nested scans that erase what they match

Two nested loops visit the positions of two lists; the end of each loop is fixed
when it is entered. A pair that matches is erased from both lists, so later
positions are read in lists that have become shorter. `scan_isSome_iff` says
exactly when no position outside a list is read. `removeAlias` erases all
elements that are the same as the one at a position, which is read again for
every comparison while the elements are being moved.
-/

namespace MergeBot.Foundation.NestedScan

universe u

variable {α β : Type u}

/-! ## Scanning -/

/-- The inner loop at a position of the left list, with the turns that are left
and the position in the right list. -/
def scanRow (matched : α → β → Bool) (index : Nat) :
    Nat → Nat → List α → List β → Option (List α × List β)
  | 0, _, left, right => some (left, right)
  | turns + 1, place, left, right => do
      let first ← left[index]?
      let second ← right[place]?
      if matched first second then
        scanRow matched index turns (place + 1) (left.eraseIdx index) (right.eraseIdx place)
      else scanRow matched index turns (place + 1) left right

/-- The outer loop, with the turns that are left and the position in the left list. -/
def scanFrom (matched : α → β → Bool) :
    Nat → Nat → List α → List β → Option (List α × List β)
  | 0, _, left, right => some (left, right)
  | turns + 1, index, left, right => do
      let lists ← scanRow matched index right.length 0 left right
      scanFrom matched turns (index + 1) lists.1 lists.2

/-- Both loops from the front of the lists. -/
def scan (matched : α → β → Bool) (left : List α) (right : List β) :
    Option (List α × List β) :=
  scanFrom matched left.length 0 left right

/-- The left list drains the right one. Its elements are visited from the front.
One that matches nothing is passed; one that matches the last element of the
right list and no other takes it away, and the element behind it is not visited.
In the end the right list is empty. -/
inductive Drains (matched : α → β → Bool) : List α → List β → Prop
  | done (left : List α) : Drains matched left []
  | pass {first : α} {left : List α} {right : List β}
      (unmatched : ∀ second ∈ right, ¬ matched first second) (later : Drains matched left right) :
      Drains matched (first :: left) right
  | take {first : α} {left : List α} {right : List β} {last : β} (hit : matched first last)
      (others : ∀ second ∈ right, ¬ matched first second)
      (later : Drains matched (left.drop 1) right) :
      Drains matched (first :: left) (right ++ [last])

/-- No pair of elements matches. -/
def Unrelated (matched : α → β → Bool) (left : List α) (right : List β) : Prop :=
  ∀ first ∈ left, ∀ second ∈ right, ¬ matched first second

/-- The last elements of both lists match; no earlier element of the left list
matches anything, and the last one matches nothing else. -/
def LastPair (matched : α → β → Bool) (left : List α) (right : List β) : Prop :=
  ∃ front first others last, left = front ++ [first] ∧ right = others ++ [last] ∧
    Unrelated matched front right ∧ matched first last ∧ ∀ second ∈ others, ¬ matched first second

/-- The lists on which the scan stays inside both. -/
def Safe (matched : α → β → Bool) (left : List α) (right : List β) : Prop :=
  Unrelated matched left right ∨ LastPair matched left right ∨ Drains matched left right

section Scan

variable {matched : α → β → Bool} {left : List α} {right : List β}

/-- A position behind the end of the left list is read in the first turn. -/
theorem scanRow_outside {index turns : Nat} (outside : left.length ≤ index) (place : Nat) :
    scanRow matched index (turns + 1) place left right = none := by
  have absent : left[index]? = none := List.getElem?_eq_none outside
  simp [scanRow, absent]

/-- More turns than there are elements left read behind the right list. -/
theorem scanRow_overshoot {index turns place : Nat} (long : right.length < place + turns)
    (started : 0 < turns) : scanRow matched index turns place left right = none := by
  induction turns generalizing place left right with
  | zero => omega
  | succ turns ih =>
      rw [scanRow]
      cases left[index]? with
      | none => rfl
      | some first =>
          by_cases inside : place < right.length
          · have erased : (right.eraseIdx place).length ≤ right.length :=
              List.length_eraseIdx_le right place
            simp only [List.getElem?_eq_getElem inside, Option.bind_eq_bind, Option.bind_some]
            split
            · exact ih (by omega) (by omega)
            · exact ih (by omega) (by omega)
          · simp [List.getElem?_eq_none (Nat.le_of_not_lt inside)]

/-- Elements that the visited one does not match are passed. -/
theorem scanRow_pass {index : Nat} {first : α} (here : left[index]? = some first)
    (passed : List β) {clear : List β} (unmatched : ∀ second ∈ clear, ¬ matched first second)
    (later : List β) (turns : Nat) :
    scanRow matched index (clear.length + turns) passed.length left (passed ++ clear ++ later) =
      scanRow matched index turns (passed ++ clear).length left (passed ++ clear ++ later) := by
  induction clear generalizing passed with
  | nil => simp
  | cons second clear ih =>
      have miss := unmatched second List.mem_cons_self
      have rest := ih (passed ++ [second]) fun other member =>
        unmatched other (List.mem_cons_of_mem _ member)
      have size : (second :: clear).length + turns = (clear.length + turns) + 1 := by
        rw [List.length_cons]
        omega
      have found : (passed ++ second :: clear ++ later)[passed.length]? = some second := by
        simp
      rw [size, scanRow, here, found]
      simpa [miss] using rest

/-- An element that matches nothing leaves the lists as they are. -/
theorem scanRow_unmatched {index : Nat} {first : α} (here : left[index]? = some first)
    (unmatched : ∀ second ∈ right, ¬ matched first second) :
    scanRow matched index right.length 0 left right = some (left, right) := by
  have passes := scanRow_pass here [] unmatched [] 0
  simpa [scanRow] using passes

/-- An element that matches the last one only takes it away. -/
theorem scanRow_last {index : Nat} {first : α} (here : left[index]? = some first)
    {last : β} (others : ∀ second ∈ right, ¬ matched first second) (hit : matched first last) :
    scanRow matched index (right ++ [last]).length 0 left (right ++ [last]) =
      some (left.eraseIdx index, right) := by
  have passes := scanRow_pass here [] others [last] 1
  have erased : (right ++ [last]).eraseIdx right.length = right := by
    rw [List.eraseIdx_append_of_length_le (Nat.le_refl _)]
    simp
  simp only [List.nil_append, List.length_nil] at passes
  rw [List.length_append, List.length_singleton, passes, scanRow, here]
  simp [hit, scanRow, erased]

/-- A match before the last element makes the inner loop read behind the list. -/
theorem scanRow_early {index : Nat} {first : α} (here : left[index]? = some first) {last : β}
    (early : ∃ second ∈ right, matched first second) :
    scanRow matched index (right ++ [last]).length 0 left (right ++ [last]) = none := by
  obtain ⟨clear, second, later, rfl, hit, unmatched⟩ :
      ∃ clear second later, right = clear ++ second :: later ∧ matched first second ∧
        ∀ other ∈ clear, ¬ matched first other := by
    obtain ⟨second, member, hit⟩ := early
    cases found : right.find? fun other => matched first other with
    | none => exact absurd hit (by simpa using List.find?_eq_none.mp found second member)
    | some other =>
        obtain ⟨holds, clear, later, shape, before⟩ := List.find?_eq_some_iff_append.mp found
        exact ⟨clear, other, later, shape, holds, by simpa using before⟩
  have passes := scanRow_pass here [] unmatched (second :: later ++ [last])
    (later.length + 1 + 1)
  have size : (clear ++ second :: later ++ [last]).length =
      clear.length + (later.length + 1 + 1) := by simp
  have text : [] ++ clear ++ (second :: later ++ [last]) = clear ++ second :: later ++ [last] := by
    simp
  have found : (clear ++ second :: later ++ [last])[clear.length]? = some second := by simp
  rw [text] at passes
  rw [size, show (0 : Nat) = ([] : List β).length from rfl, passes, scanRow]
  simp only [List.nil_append, here, found, hit, if_true, Option.bind_eq_bind, Option.bind_some]
  refine scanRow_overshoot ?_ (Nat.succ_pos _)
  simp [List.length_eraseIdx]

/-- The three outcomes of a row. -/
theorem row_cases (first : α) (others : List β) (last : β) :
    (∀ second ∈ others ++ [last], ¬ matched first second) ∨
      (∃ second ∈ others, matched first second) ∨
        ((∀ second ∈ others, ¬ matched first second) ∧ matched first last) := by
  by_cases early : ∃ second ∈ others, matched first second
  · exact .inr (.inl early)
  · have clear : ∀ second ∈ others, ¬ matched first second := by simpa using early
    by_cases hit : matched first last
    · exact .inr (.inr ⟨clear, hit⟩)
    · refine .inl fun second member => ?_
      rcases List.mem_append.mp member with inOthers | isLast
      · exact clear second inOthers
      · exact List.mem_singleton.mp isLast ▸ hit

/-- Without elements on the right nothing is read. -/
theorem scanFrom_nil (turns index : Nat) :
    scanFrom matched turns index left ([] : List β) = some (left, []) := by
  induction turns generalizing index with
  | zero => rfl
  | succ turns ih => simp [scanFrom, scanRow, ih]

/-- Behind the end of the left list a turn fails unless the right list is empty. -/
theorem scanFrom_outside {index : Nat} (outside : left.length ≤ index) (turns : Nat) :
    (scanFrom matched (turns + 1) index left right).isSome ↔ right = [] := by
  cases right with
  | nil => simp [scanFrom_nil]
  | cons second right =>
      rw [scanFrom, List.length_cons, scanRow_outside outside]
      simp

variable {first : α} {rest done : List α} {others : List β} {last : β}

theorem scanFrom_unmatched (unmatched : ∀ second ∈ right, ¬ matched first second)
    (turns : Nat) :
    scanFrom matched (turns + 1) done.length (done ++ first :: rest) right =
      scanFrom matched turns (done ++ [first]).length (done ++ [first] ++ rest) right := by
  have here : (done ++ first :: rest)[done.length]? = some first := by simp
  rw [scanFrom, scanRow_unmatched here unmatched]
  simp

theorem scanFrom_early (early : ∃ second ∈ others, matched first second) (turns : Nat) :
    scanFrom matched (turns + 1) done.length (done ++ first :: rest) (others ++ [last]) = none := by
  have here : (done ++ first :: rest)[done.length]? = some first := by simp
  rw [scanFrom, scanRow_early here early]
  rfl

theorem scanFrom_last (clear : ∀ second ∈ others, ¬ matched first second)
    (hit : matched first last) (turns : Nat) :
    scanFrom matched (turns + 1) done.length (done ++ first :: rest) (others ++ [last]) =
      scanFrom matched turns (done.length + 1) (done ++ rest) others := by
  have here : (done ++ first :: rest)[done.length]? = some first := by simp
  have erased : (done ++ first :: rest).eraseIdx done.length = done ++ rest := by
    rw [List.eraseIdx_append_of_length_le (Nat.le_refl _)]
    simp
  rw [scanFrom, scanRow_last here clear hit, erased]
  rfl

/-! ## Draining -/

theorem drains_nil_iff : Drains matched [] right ↔ right = [] := by
  constructor
  · intro drains
    cases drains
    rfl
  · rintro rfl
    exact .done []

theorem drains_unmatched (unmatched : ∀ second ∈ right, ¬ matched first second) :
    Drains matched (first :: rest) right ↔ Drains matched rest right := by
  constructor
  · intro drains
    cases drains with
    | done => exact .done rest
    | pass _ later => exact later
    | take hit => exact absurd hit (unmatched _ (by simp))
  · exact .pass unmatched

theorem not_drains_early (early : ∃ second ∈ others, matched first second) :
    ¬ Drains matched (first :: rest) (others ++ [last]) := by
  obtain ⟨second, member, hit⟩ := early
  intro drains
  generalize whole : others ++ [last] = right at drains
  cases drains with
  | done => simp at whole
  | pass unmatched =>
      exact unmatched second (whole ▸ List.mem_append_left _ member) hit
  | take _ clear =>
      obtain ⟨rfl, -⟩ := List.append_inj' whole rfl
      exact clear second member hit

theorem drains_last (clear : ∀ second ∈ others, ¬ matched first second)
    (hit : matched first last) :
    Drains matched (first :: rest) (others ++ [last]) ↔ Drains matched (rest.drop 1) others := by
  constructor
  · intro drains
    generalize whole : others ++ [last] = right at drains
    cases drains with
    | done => simp at whole
    | pass unmatched => exact absurd hit (unmatched last (whole ▸ by simp))
    | take _ _ later =>
        obtain ⟨rfl, -⟩ := List.append_inj' whole rfl
        exact later
  · exact .take hit clear

/-- After a match the scan stays inside the lists exactly when the left list
drains the right one: each match leaves one more turn than there are elements. -/
theorem scanFrom_drains_iff (rows done : List α) (right : List β) (extra : Nat) :
    (scanFrom matched (rows.length + (extra + 1)) done.length (done ++ rows) right).isSome ↔
      Drains matched rows right := by
  induction size : rows.length using Nat.strongRecOn generalizing rows done right extra with
  | ind length ih =>
  subst size
  cases rows with
  | nil =>
      rw [List.append_nil, List.length_nil, Nat.zero_add,
        scanFrom_outside (Nat.le_refl _), drains_nil_iff]
  | cons first rest =>
      have turns : (first :: rest).length + (extra + 1) = rest.length + (extra + 1) + 1 := by
        rw [List.length_cons]
        omega
      have shorter : rest.length < (first :: rest).length := Nat.lt_succ_self _
      rcases List.eq_nil_or_concat' right with rfl | ⟨others, last, rfl⟩
      · simp [scanFrom_nil, Drains.done]
      · rw [turns]
        rcases row_cases first others last with unmatched | early | ⟨clear, hit⟩
        · rw [scanFrom_unmatched unmatched, drains_unmatched unmatched]
          exact ih _ shorter rest (done ++ [first]) _ extra rfl
        · rw [scanFrom_early early]
          simpa using not_drains_early early
        · rw [scanFrom_last clear hit, drains_last clear hit]
          cases rest with
          | nil =>
              rw [List.append_nil, List.length_nil, Nat.zero_add,
                scanFrom_outside (Nat.le_succ _), List.drop_nil, drains_nil_iff]
          | cons skipped rest =>
              have later := ih rest.length (by simp only [List.length_cons]; omega) rest
                (done ++ [skipped]) others (extra + 1) rfl
              have moved : (skipped :: rest).length + (extra + 1) =
                  rest.length + (extra + 1 + 1) := by
                rw [List.length_cons]
                omega
              rw [moved]
              simpa using later

/-- The first row is the one of the last pair, or it matches nothing. -/
theorem lastPair_cons_iff :
    LastPair matched (first :: rest) (others ++ [last]) ↔
      (rest = [] ∧ matched first last ∧ ∀ second ∈ others, ¬ matched first second) ∨
        (∀ second ∈ others ++ [last], ¬ matched first second) ∧
          LastPair matched rest (others ++ [last]) := by
  constructor
  · rintro ⟨front, only, others', last', rows, columns, unrelated, hit, clear⟩
    obtain ⟨rfl, same⟩ := List.append_inj' columns rfl
    obtain rfl : last = last' := List.cons.inj same |>.1
    cases front with
    | nil =>
        obtain ⟨rfl, rfl⟩ := List.cons.inj rows
        exact .inl ⟨rfl, hit, clear⟩
    | cons head front =>
        obtain ⟨rfl, rfl⟩ := List.cons.inj rows
        rw [Unrelated, List.forall_mem_cons] at unrelated
        exact .inr ⟨unrelated.1, front, only, others, last, rfl, rfl, unrelated.2, hit, clear⟩
  · rintro (⟨rfl, hit, clear⟩ | ⟨unmatched, front, only, others', last', rfl, columns, pair⟩)
    · exact ⟨[], first, others, last, rfl, rfl, by simp [Unrelated], hit, clear⟩
    · refine ⟨first :: front, only, others', last', rfl, columns, ?_, pair.2⟩
      rw [Unrelated, List.forall_mem_cons]
      exact ⟨unmatched, pair.1⟩

/-- A row that matches nothing plays no role for safety. -/
theorem safe_unmatched (unmatched : ∀ second ∈ others ++ [last], ¬ matched first second) :
    Safe matched (first :: rest) (others ++ [last]) ↔ Safe matched rest (others ++ [last]) := by
  have miss : ¬ matched first last := unmatched last (by simp)
  have relations : Unrelated matched (first :: rest) (others ++ [last]) ↔
      Unrelated matched rest (others ++ [last]) := by
    rw [Unrelated, List.forall_mem_cons]
    exact and_iff_right unmatched
  have pairs : LastPair matched (first :: rest) (others ++ [last]) ↔
      LastPair matched rest (others ++ [last]) :=
    lastPair_cons_iff.trans ((or_iff_right fun both => miss both.2.1).trans
      (and_iff_right unmatched))
  rw [Safe, Safe, relations, pairs, drains_unmatched unmatched]

theorem not_safe_early (early : ∃ second ∈ others, matched first second) :
    ¬ Safe matched (first :: rest) (others ++ [last]) := by
  obtain ⟨second, member, hit⟩ := early
  rintro (unrelated | lastPair | drains)
  · exact unrelated first List.mem_cons_self second (List.mem_append_left _ member) hit
  · rcases lastPair_cons_iff.mp lastPair with ⟨-, -, clear⟩ | ⟨unmatched, -⟩
    · exact clear second member hit
    · exact unmatched second (List.mem_append_left _ member) hit
  · exact not_drains_early ⟨second, member, hit⟩ drains

theorem safe_last (clear : ∀ second ∈ others, ¬ matched first second) (hit : matched first last) :
    Safe matched (first :: rest) (others ++ [last]) ↔
      rest = [] ∨ Drains matched (rest.drop 1) others := by
  have related : ¬ Unrelated matched (first :: rest) (others ++ [last]) := fun unrelated =>
    unrelated first List.mem_cons_self last (by simp) hit
  have matches_ : ¬ ∀ second ∈ others ++ [last], ¬ matched first second := fun unmatched =>
    unmatched last (by simp) hit
  rw [Safe, lastPair_cons_iff, drains_last clear hit]
  simp only [related, matches_, false_and, or_false, false_or]
  exact or_congr_left (and_iff_left ⟨hit, clear⟩)

/-- Before any match the scan stays inside the lists exactly when they are safe. -/
theorem scanFrom_safe_iff (rows done : List α) (right : List β) :
    (scanFrom matched rows.length done.length (done ++ rows) right).isSome ↔
      Safe matched rows right := by
  induction rows generalizing done with
  | nil => simp [scanFrom, Safe, Unrelated]
  | cons first rest ih =>
      rcases List.eq_nil_or_concat' right with rfl | ⟨others, last, rfl⟩
      · simp [scanFrom_nil, Safe, Unrelated]
      · rw [List.length_cons]
        rcases row_cases first others last with unmatched | early | ⟨clear, hit⟩
        · rw [scanFrom_unmatched unmatched, safe_unmatched unmatched]
          exact ih (done ++ [first])
        · rw [scanFrom_early early]
          simpa using not_safe_early early
        · rw [scanFrom_last clear hit, safe_last clear hit]
          cases rest with
          | nil => simp [scanFrom]
          | cons skipped rest =>
              have later : (scanFrom matched (rest.length + (0 + 1)) (done ++ [skipped]).length
                  (done ++ [skipped] ++ rest) others).isSome ↔ Drains matched rest others :=
                scanFrom_drains_iff rest (done ++ [skipped]) others 0
              simpa using later

/-- A scan reads no position outside the lists, if and only if they are safe. -/
theorem scan_isSome_iff : (scan matched left right).isSome ↔ Safe matched left right :=
  scanFrom_safe_iff left [] right

end Scan

/-! ## Erasing through a reference -/

/-- The elements that are kept have been moved to the front of the list, so the
reference to position `index` reads the one that stands there now. -/
def removeAliasFrom (same : α → α → Bool) (index : Nat) (all : List α) :
    List α → List α → List α
  | kept, [] => kept
  | kept, value :: rest =>
      let reference := if index < kept.length then kept[index]? else all[index]?
      if reference.any (same value) then removeAliasFrom same index all kept rest
      else removeAliasFrom same index all (kept ++ [value]) rest

/-- Erase every element that is the same as the one at position `index`. -/
def removeAlias (same : α → α → Bool) (all : List α) (index : Nat) : List α :=
  removeAliasFrom same index all [] all

section RemoveAlias

variable {same : α → α → Bool} {all : List α}

/-- Elements that differ from what the reference reads at their turn are kept. -/
theorem removeAliasFrom_keep {index : Nat} (kept todo : List α)
    (differs : ∀ moved value later, todo = moved ++ value :: later →
      ∀ reference ∈ (if index < (kept ++ moved).length then (kept ++ moved)[index]?
        else all[index]?), ¬ same value reference)
    (rest : List α) :
    removeAliasFrom same index all kept (todo ++ rest) =
      removeAliasFrom same index all (kept ++ todo) rest := by
  induction todo generalizing kept with
  | nil => simp
  | cons value todo ih =>
      have here : ¬ ((if index < kept.length then kept[index]? else all[index]?).any
          (same value)) := by
        rw [Option.any_eq_true]
        rintro ⟨reference, found, isSame⟩
        exact differs [] value todo rfl reference (by simpa using found) isSame
      have later := ih (kept ++ [value]) fun moved other after split reference found =>
        differs (value :: moved) other after (by rw [split]; rfl) reference (by simpa using found)
      rw [List.cons_append, removeAliasFrom, if_neg here, later, List.append_assoc]
      rfl

/-- If no two elements are the same, only the one at the position is erased. -/
theorem removeAlias_eq_eraseIdx (distinct : all.Nodup)
    (alone : ∀ first ∈ all, ∀ second ∈ all, same first second ↔ first = second) {index : Nat}
    (inside : index < all.length) : removeAlias same all index = all.eraseIdx index := by
  obtain ⟨front, value, back, rfl, rfl⟩ :
      ∃ front value back, all = front ++ value :: back ∧ front.length = index :=
    ⟨all.take index, all[index], all.drop (index + 1), by simp, by simp; omega⟩
  have here : (front ++ value :: back)[front.length]? = some value := by simp
  rw [List.nodup_append, List.nodup_cons] at distinct
  obtain ⟨-, ⟨notBehind, backDistinct⟩, apart⟩ := distinct
  have equal {first second : α} (firstMember : first ∈ front ++ value :: back)
      (secondMember : second ∈ front ++ value :: back) : same first second ↔ first = second :=
    alone first firstMember second secondMember
  have frontKept (rest : List α) : removeAliasFrom same front.length (front ++ value :: back) []
      (front ++ rest) = removeAliasFrom same front.length (front ++ value :: back) ([] ++ front)
        rest := removeAliasFrom_keep [] front
    (by
      rintro moved other later split reference found isSame
      have shorter : ¬ front.length < ([] ++ moved).length := by
        rw [split]
        simp
      rw [if_neg shorter, here] at found
      obtain rfl : value = reference := Option.some.inj found
      have member : other ∈ front := by simp [split]
      exact apart other member value List.mem_cons_self
        ((equal (by simp [member]) (by simp)).mp isSame)) rest
  have backKept : removeAliasFrom same front.length (front ++ value :: back) front
      (back ++ []) = removeAliasFrom same front.length (front ++ value :: back) (front ++ back) [] :=
    removeAliasFrom_keep front back
    (by
      rintro moved other later rfl reference found isSame
      cases moved with
      | nil =>
          rw [List.append_nil, if_neg (Nat.lt_irrefl _), here] at found
          obtain rfl : value = reference := Option.some.inj found
          obtain rfl := (equal (by simp) (by simp)).mp isSame
          exact notBehind (by simp)
      | cons head moved =>
          rw [if_pos (by simp)] at found
          obtain rfl : head = reference := by simpa using found
          obtain rfl := (equal (by simp) (by simp)).mp isSame
          simp at backDistinct) []
  have isSelf : same value value := (equal (by simp) (by simp)).mpr rfl
  have turn : removeAliasFrom same front.length (front ++ value :: back) front (value :: back) =
      removeAliasFrom same front.length (front ++ value :: back) front back := by
    simp [removeAliasFrom, isSelf]
  rw [List.append_nil] at backKept
  rw [removeAlias, frontKept (value :: back), List.nil_append, turn, backKept, removeAliasFrom,
    List.eraseIdx_append_of_length_le (Nat.le_refl _)]
  simp

end RemoveAlias

end MergeBot.Foundation.NestedScan
