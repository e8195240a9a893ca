import MergeBot.Foundation.Doubles
import MergeBot.Foundation.EditScripts

/-!
# Similarity of names

`levenshtein_distance` fills a table of distances between the beginnings of two strings, row by
row. `levenshteinDistance_spec`: what stands in its last cell is the least number of insertions,
deletions and substitutions of single characters, so that the ratio of `string_levenshtein` stays
between 0 and 1. The characters are those of any alphabet. The cells are of type `int`: one more
than the length of a string has to be below 2^31.
-/

namespace MergeBot

open Foundation

/-! ## The table -/

section Table

variable {α : Type} [DecidableEq α]

/-- The table `dp`; cells that have not been written hold 0. -/
abbrev Table := Nat → Nat → Int32

/-- The table with another value in a cell. -/
def setCell (dp : Table) (i j : Nat) (value : Int32) : Table :=
  fun row column => if row = i ∧ column = j then value else dp row column

/-- The value that is written to a cell. -/
def cellValue (s1 s2 : List α) (dp : Table) (i j : Nat) : Int32 :=
  if i = 0 then .ofNat j
  else if j = 0 then .ofNat i
  else
    min (dp (i - 1) (j - 1) + if s1[i - 1]? ≠ s2[j - 1]? then 1 else 0)
      (min (dp (i - 1) j + 1) (dp i (j - 1) + 1))

/-- The loop over the columns of a row. -/
def fillRow (s1 s2 : List α) (i : Nat) (columns : Nat) (dp : Table) : Table :=
  (List.range columns).foldl (fun dp j => setCell dp i j (cellValue s1 s2 dp i j)) dp

/-- The loop over the rows. -/
def fillRows (s1 s2 : List α) (rows : Nat) (dp : Table) : Table :=
  (List.range rows).foldl (fun dp i => fillRow s1 s2 i (s2.length + 1) dp) dp

/-- `details::levenshtein_distance`. -/
def levenshteinDistance (s1 s2 : List α) : Int32 :=
  fillRows s1 s2 (s1.length + 1) (fun _ _ => 0) s1.length s2.length

/-- `string_levenshtein`; for two empty strings it divides zero by zero, which is no number. The
distance and the size become doubles before the division. -/
def stringLevenshtein (s1 s2 : List α) : Option Rat :=
  let size := max s1.length s2.length
  if size = 0 then none
  else
    let distance := binary64.round (levenshteinDistance s1 s2).toInt
    some (binary64.round (1 - binary64.round (distance / binary64.round size)))

/-- No distance to the beginnings of a string leaves the range of `int`, nor one more. -/
def FitsInt (s : List α) : Prop := s.length + 1 < 2 ^ 31

variable {s1 s2 : List α} {dp : Table} {i j : Nat}

/-- The smaller of two numbers that fit. -/
theorem min_ofNat {m n : Nat} (first : m < 2 ^ 31) (second : n < 2 ^ 31) :
    min (Int32.ofNat m) (Int32.ofNat n) = Int32.ofNat (min m n) := by
  change (if Int32.ofNat m ≤ Int32.ofNat n then _ else _) = _
  simp only [Int32.ofNat_le_iff_le first second]
  split <;> congr 1 <;> omega

/-- The smallest of three sums that fit. -/
theorem min_sums {a b c cost : Nat} (diagonal : a + cost < 2 ^ 31) (above : b + 1 < 2 ^ 31)
    (left : c + 1 < 2 ^ 31) :
    min (Int32.ofNat a + .ofNat cost) (min (Int32.ofNat b + 1) (Int32.ofNat c + 1)) =
      .ofNat (min (a + cost) (min (b + 1) (c + 1))) := by
  change min (Int32.ofNat a + .ofNat cost)
    (min (Int32.ofNat b + .ofNat 1) (Int32.ofNat c + .ofNat 1)) = _
  rw [← Int32.ofNat_add, ← Int32.ofNat_add, ← Int32.ofNat_add, min_ofNat above left,
    min_ofNat diagonal ((min_le_left _ _).trans_lt above)]

/-! ## What the cells hold -/

/-- The distance of two beginnings; the table compares their last characters first. -/
def frontDistance (s1 s2 : List α) (i j : Nat) : Nat :=
  editDistance (s1.take i).reverse (s2.take j).reverse

/-- The cells before cell `(i, j)` hold the distances of the beginnings. -/
def Filled (s1 s2 : List α) (dp : Table) (i j : Nat) : Prop :=
  ∀ row column, row ≤ s1.length → column ≤ s2.length → (row < i ∨ row = i ∧ column < j) →
    dp row column = .ofNat (frontDistance s1 s2 row column)

/-- From an empty beginning everything is inserted. -/
theorem frontDistance_zero_left (inside : j ≤ s2.length) : frontDistance s1 s2 0 j = j := by
  rw [frontDistance, List.take_zero, List.reverse_nil, editDistance_nil_left, List.length_reverse,
    List.length_take, Nat.min_eq_left inside]

/-- To an empty beginning everything is deleted. -/
theorem frontDistance_zero_right (inside : i ≤ s1.length) : frontDistance s1 s2 i 0 = i := by
  rw [frontDistance, List.take_zero, List.reverse_nil, editDistance_nil_right, List.length_reverse,
    List.length_take, Nat.min_eq_left inside]

/-- The beginnings of two strings are no farther apart than the strings are long. -/
theorem frontDistance_le (s1 s2 : List α) (i j : Nat) :
    frontDistance s1 s2 i j ≤ max s1.length s2.length := by
  have lengths := editDistance_le_length (s1.take i).reverse (s2.take j).reverse
  rw [List.length_reverse, List.length_reverse, List.length_take, List.length_take] at lengths
  exact lengths.trans (max_le_max (Nat.min_le_right _ _) (Nat.min_le_right _ _))

omit [DecidableEq α] in
/-- The last character of a beginning comes first in its mirror. -/
theorem reverse_take_succ {list : List α} (inside : i < list.length) :
    (list.take (i + 1)).reverse = list[i] :: (list.take i).reverse := by
  rw [List.take_succ_eq_append_getElem inside, List.reverse_append]
  rfl

/-- A cell gets the distance when the cells before it hold theirs. -/
theorem cellValue_eq (filled : Filled s1 s2 dp i j) (fits1 : FitsInt s1) (fits2 : FitsInt s2)
    (row : i ≤ s1.length) (column : j ≤ s2.length) :
    cellValue s1 s2 dp i j = .ofNat (frontDistance s1 s2 i j) := by
  rw [cellValue]
  cases i with
  | zero => rw [if_pos rfl, frontDistance_zero_left column]
  | succ i =>
      rw [if_neg (Nat.succ_ne_zero i)]
      cases j with
      | zero => rw [if_pos rfl, frontDistance_zero_right row]
      | succ j =>
          rw [if_neg (Nat.succ_ne_zero j)]
          have diagonal := filled i j (by omega) (by omega) (.inl (by omega))
          have above := filled i (j + 1) (by omega) column (.inl (by omega))
          have left := filled (i + 1) j row (by omega) (.inr ⟨rfl, by omega⟩)
          have rowInside : i < s1.length := row
          have columnInside : j < s2.length := column
          -- no sum overflows
          have fits : max s1.length s2.length + 1 < 2 ^ 31 := by
            rw [FitsInt] at fits1 fits2
            omega
          have bound := frontDistance_le s1 s2
          have cost := substitutionCost_le s1[i] s2[j]
          have differ : (if s1[i]? ≠ s2[j]? then (1 : Int32) else 0) =
              .ofNat (substitutionCost s1[i] s2[j]) := by
            rw [List.getElem?_eq_getElem rowInside, List.getElem?_eq_getElem columnInside,
              substitutionCost]
            by_cases same : s1[i] = s2[j] <;> simp [same]
          rw [Nat.add_sub_cancel, Nat.add_sub_cancel, diagonal, above, left, differ,
            min_sums (((Nat.add_le_add (bound i j) cost)).trans_lt fits)
              ((Nat.succ_le_succ (bound i (j + 1))).trans_lt fits)
              ((Nat.succ_le_succ (bound (i + 1) j)).trans_lt fits)]
          rw [frontDistance, frontDistance, frontDistance, frontDistance,
            reverse_take_succ rowInside, reverse_take_succ columnInside, editDistance_cons]

/-- Writing a cell. -/
theorem filled_setCell (filled : Filled s1 s2 dp i j) (fits1 : FitsInt s1) (fits2 : FitsInt s2)
    (inRow : i ≤ s1.length) (inColumn : j ≤ s2.length) :
    Filled s1 s2 (setCell dp i j (cellValue s1 s2 dp i j)) i (j + 1) := by
  intro row column rowInside columnInside before
  rw [setCell]
  split
  · rename_i here
    rw [here.1, here.2, cellValue_eq filled fits1 fits2 inRow inColumn]
  · exact filled row column rowInside columnInside (by omega)

/-- Writing the first cells of a row. -/
theorem filled_fillRow (filled : Filled s1 s2 dp i 0) (fits1 : FitsInt s1) (fits2 : FitsInt s2)
    (inRow : i ≤ s1.length) {columns : Nat} (inColumns : columns ≤ s2.length + 1) :
    Filled s1 s2 (fillRow s1 s2 i columns dp) i columns := by
  induction columns with
  | zero => exact filled
  | succ columns inductionHypothesis =>
      rw [fillRow, List.range_succ, List.foldl_append]
      exact filled_setCell (inductionHypothesis (by omega)) fits1 fits2 inRow (by omega)

/-- Writing the first rows. -/
theorem filled_fillRows (fits1 : FitsInt s1) (fits2 : FitsInt s2) {rows : Nat}
    (inRows : rows ≤ s1.length + 1) :
    Filled s1 s2 (fillRows s1 s2 rows fun _ _ => 0) rows 0 := by
  induction rows with
  | zero => exact fun row column _ _ before => by omega
  | succ rows inductionHypothesis =>
      rw [fillRows, List.range_succ, List.foldl_append]
      have whole := filled_fillRow (inductionHypothesis (by omega)) fits1 fits2 (by omega)
        (Nat.le_refl (s2.length + 1))
      exact fun row column rowInside columnInside before =>
        whole row column rowInside columnInside (by omega)

/-! ## The last cell -/

/-- The last cell holds the least number of edits. -/
theorem levenshteinDistance_least (fits1 : FitsInt s1) (fits2 : FitsInt s2) :
    ∃ distance : Nat, (levenshteinDistance s1 s2).toInt = distance ∧
      LeastEdits s1 s2 distance ∧ distance ≤ max s1.length s2.length := by
  have cell := filled_fillRows fits1 fits2 (Nat.le_refl _) s1.length s2.length (Nat.le_refl _)
    (Nat.le_refl _) (.inl (Nat.lt_succ_self _))
  have bound := frontDistance_le s1 s2 s1.length s2.length
  have small : frontDistance s1 s2 s1.length s2.length < 2 ^ 31 := by
    rw [FitsInt] at fits1 fits2
    omega
  refine ⟨frontDistance s1 s2 s1.length s2.length, ?_, ?_, bound⟩
  · rw [levenshteinDistance, cell, Int32.toInt_ofNat_of_lt small]
  · have mirrored := (leastEdits_editDistance s1.reverse s2.reverse).reverse
    rw [List.reverse_reverse, List.reverse_reverse] at mirrored
    rwa [frontDistance, List.take_length, List.take_length]

/-- The ratio of two strings that are not both empty is between 0 and 1. -/
theorem stringLevenshtein_bounds (fits1 : FitsInt s1) (fits2 : FitsInt s2)
    (some_ : ¬ (s1 = [] ∧ s2 = [])) :
    ∃ ratio, stringLevenshtein s1 s2 = some ratio ∧ 0 ≤ ratio ∧ ratio ≤ 1 := by
  obtain ⟨distance, value, -, bound⟩ := levenshteinDistance_least fits1 fits2
  have size : max s1.length s2.length ≠ 0 := fun empty => some_
    ⟨List.length_eq_zero_iff.mp (by omega), List.length_eq_zero_iff.mp (by omega)⟩
  have small : max s1.length s2.length < 2 ^ binary64.precision := by
    rw [FitsInt] at fits1 fits2
    exact lt_trans (by omega : _ < 2 ^ 31) (by decide)
  have positive : (0 : Rat) < (max s1.length s2.length : Nat) :=
    Nat.cast_pos.mpr (Nat.pos_of_ne_zero size)
  have below : (distance : Rat) ≤ (max s1.length s2.length : Nat) := Nat.cast_le.mpr bound
  -- both operands of the division are exact
  have exactSize := FloatFormat.round_natCast small (by decide)
  have exactDistance := FloatFormat.round_natCast (bound.trans_lt small) (by decide)
  have stays {value : Rat} (low : 0 ≤ value) (high : value ≤ 1) :
      0 ≤ binary64.round value ∧ binary64.round value ≤ 1 :=
    FloatFormat.round_mem_unit low high (by decide) (by decide)
  have quotient := stays (div_nonneg (Nat.cast_nonneg distance) positive.le)
    ((div_le_one positive).mpr below)
  have ratio := stays (sub_nonneg.mpr quotient.2) (sub_le_self 1 quotient.1)
  refine ⟨_, if_neg size, ?_⟩
  rw [value, Int.cast_natCast, exactDistance, exactSize]
  exact ratio

/-- The table holds the edit distance, which is a metric and at most the longer length, so that
the ratio of strings that are not both empty is between 0 and 1. -/
theorem levenshteinDistance_spec (s1 s2 : List α) (fits1 : FitsInt s1) (fits2 : FitsInt s2) :
    (∃ distance : Nat, (levenshteinDistance s1 s2).toInt = distance ∧
      LeastEdits s1 s2 distance) ∧
      levenshteinDistance s1 s2 = levenshteinDistance s2 s1 ∧
      (levenshteinDistance s1 s2 = 0 ↔ s1 = s2) ∧
      (∀ s3, FitsInt s3 → (levenshteinDistance s1 s3).toInt ≤
        (levenshteinDistance s1 s2).toInt + (levenshteinDistance s2 s3).toInt) ∧
      (levenshteinDistance s1 s2).toInt ≤ max s1.length s2.length ∧
      (¬ (s1 = [] ∧ s2 = []) → ∃ ratio, stringLevenshtein s1 s2 = some ratio ∧
        0 ≤ ratio ∧ ratio ≤ 1) := by
  obtain ⟨distance, value, least, bound⟩ := levenshteinDistance_least fits1 fits2
  refine ⟨⟨distance, value, least⟩, ?_, ?_, ?_, ?_, stringLevenshtein_bounds fits1 fits2⟩
  · obtain ⟨back, backValue, backLeast, -⟩ := levenshteinDistance_least fits2 fits1
    rw [← Int32.toInt_inj, value, backValue, least.unique backLeast.symm]
  · rw [← Int32.toInt_inj, value, ← least.eq_zero_iff]
    exact Int.natCast_eq_zero
  · intro s3 fits3
    obtain ⟨whole, wholeValue, wholeLeast, -⟩ := levenshteinDistance_least fits1 fits3
    obtain ⟨second, secondValue, secondLeast, -⟩ := levenshteinDistance_least fits2 fits3
    rw [value, wholeValue, secondValue]
    exact_mod_cast wholeLeast.triangle least secondLeast
  · rw [value]
    exact_mod_cast bound

/-- Three edits lead from one word to the other. -/
theorem levenshteinDistance_kitten :
    (FitsInt "kitten".toList ∧ FitsInt "sitting".toList) ∧
      levenshteinDistance "kitten".toList "sitting".toList = 3 ∧
      LeastEdits "kitten".toList "sitting".toList 3 ∧
      ∃ ratio, stringLevenshtein "kitten".toList "sitting".toList = some ratio ∧
        0 ≤ ratio ∧ ratio ≤ 1 := by
  have fits1 : FitsInt "kitten".toList := by simp [FitsInt]
  have fits2 : FitsInt "sitting".toList := by simp [FitsInt]
  have three : levenshteinDistance "kitten".toList "sitting".toList = 3 := by decide +kernel
  obtain ⟨⟨distance, value, least⟩, -, -, -, -, ratio⟩ :=
    levenshteinDistance_spec "kitten".toList "sitting".toList fits1 fits2
  have count : (3 : Int32).toInt = 3 := by decide
  rw [three, count] at value
  obtain rfl : distance = 3 := by exact_mod_cast value.symm
  exact ⟨⟨fits1, fits2⟩, three, least, ratio (by decide)⟩

end Table

end MergeBot
