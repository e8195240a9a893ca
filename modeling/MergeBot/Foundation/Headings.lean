import Mathlib.Data.List.Basic

/-!
# Lists under headings

Some items of a list have a label, and the list is written with headings: one in front of
each item whose label is not the heading in force. An item without a label writes none, and
there is no heading that ends a section. `truthful_write_iff`: reading the headings back
gives each item its own label exactly when no item without a label stands behind one that
has a label.
-/

namespace MergeBot.Foundation.Headings

universe u v

variable {α : Type u} {κ : Type v}

/-- What is written: a heading, or an item. -/
inductive Entry (α : Type u) (κ : Type v)
  | heading (label : κ)
  | item (value : α)
deriving DecidableEq, Repr

def Entry.value? : Entry α κ → Option α
  | .heading _ => none
  | .item value => some value

/-- The last heading, or the one that was in force before. -/
def inForce (current : Option κ) : List (Entry α κ) → Option κ
  | [] => current
  | .heading label :: rest => inForce (some label) rest
  | .item _ :: rest => inForce current rest

variable (label : α → Option κ)

/-- The items with a heading wherever the label changes. -/
def write [DecidableEq κ] (current : Option κ) : List α → List (Entry α κ)
  | [] => []
  | value :: rest =>
      match label value with
      | none => .item value :: write current rest
      | some own =>
          if current = some own then .item value :: write current rest
          else .heading own :: .item value :: write (some own) rest

/-- Every item for which it matters stands under a heading with its label. -/
def Truthful (matters : α → Prop) (current : Option κ) (written : List (Entry α κ)) : Prop :=
  ∀ before value after, written = before ++ .item value :: after → matters value →
    inForce current before = label value

/-- Two items in their order: with a label in front, none is missing behind. -/
def InSections (matters : α → Prop) (first second : α) : Prop :=
  (label first).isSome → matters second → (label second).isSome

instance (matters : α → Prop) [DecidablePred matters] :
    DecidableRel (InSections label matters) :=
  fun first second =>
    inferInstanceAs (Decidable ((label first).isSome → matters second → (label second).isSome))

variable {label} {matters : α → Prop} {current : Option κ}

@[simp]
theorem truthful_nil : Truthful label matters current [] := by
  intro before value after split
  simp at split

@[simp]
theorem truthful_heading {own : κ} {rest : List (Entry α κ)} :
    Truthful label matters current (.heading own :: rest) ↔
      Truthful label matters (some own) rest := by
  constructor
  · intro truthful before value after split
    exact truthful (.heading own :: before) value after (by rw [split, List.cons_append])
  · intro truthful before value after split
    cases before with
    | nil => cases split
    | cons first before =>
        rw [List.cons_append, List.cons.injEq] at split
        rw [← split.1]
        exact truthful before value after split.2

@[simp]
theorem truthful_item {value : α} {rest : List (Entry α κ)} :
    Truthful label matters current (.item value :: rest) ↔
      (matters value → current = label value) ∧ Truthful label matters current rest := by
  constructor
  · intro truthful
    refine ⟨truthful [] value rest rfl, fun before other after split => ?_⟩
    exact truthful (.item value :: before) other after (by rw [split, List.cons_append])
  · rintro ⟨own, truthful⟩ before other after split
    cases before with
    | nil =>
        cases split
        exact own
    | cons first before =>
        rw [List.cons_append, List.cons.injEq] at split
        rw [← split.1]
        exact truthful before other after split.2

variable [DecidableEq κ]

/-- Every item is written once, in order. -/
theorem values_write (items : List α) :
    (write label current items).filterMap Entry.value? = items := by
  induction items generalizing current with
  | nil => rfl
  | cons value rest ih =>
      cases own : label value with
      | none => simp [write, own, Entry.value?, ih]
      | some label' =>
          by_cases same : current = some label'
          · simp [write, own, same, Entry.value?, ih]
          · simp [write, own, same, Entry.value?, List.filterMap_cons, ih]

/-- Behind a heading every item needs a label; without one, those behind an item that has
one do. -/
theorem truthful_write_from_iff (items : List α) :
    Truthful label matters current (write label current items) ↔
      (current.isSome → ∀ value ∈ items, matters value → (label value).isSome) ∧
        items.Pairwise (InSections label matters) := by
  induction items generalizing current with
  | nil => simp [write]
  | cons value rest ih =>
      cases own : label value with
      | none =>
          -- the item stands under the heading that is in force, if there is one
          have alone : (matters value → current = none) ↔
              (current.isSome → ¬ matters value) := by
            cases current <;> simp
          simp only [write, own, truthful_item, alone, ih, List.mem_cons, forall_eq_or_imp,
            List.pairwise_cons, InSections, Option.isSome_none, Bool.false_eq_true,
            false_imp_iff, implies_true, true_and, imp_false, forall_and, and_assoc]
      | some label' =>
          have behind : Truthful label matters (some label') (write label (some label') rest) ↔
              (∀ other ∈ rest, matters other → (label other).isSome) ∧
                rest.Pairwise (InSections label matters) := by
            rw [ih, Option.isSome_some]
            simp only [true_imp_iff]
          have written : Truthful label matters current (write label current (value :: rest)) ↔
              Truthful label matters (some label') (write label (some label') rest) := by
            by_cases same : current = some label'
            · simp [write, own, same]
            · simp [write, own, same]
          rw [written, behind]
          simp only [List.mem_cons, forall_eq_or_imp, own, Option.isSome_some, implies_true,
            true_and, List.pairwise_cons, InSections, true_imp_iff]
          exact ⟨fun ⟨all, order⟩ => ⟨fun _ => all, all, order⟩, fun ⟨_, all, order⟩ =>
            ⟨all, order⟩⟩

/-- From the beginning: no item that needs a label stands without one behind an item with
a label. -/
theorem truthful_write_iff (items : List α) :
    Truthful label matters none (write label none items) ↔
      items.Pairwise (InSections label matters) := by
  simp [truthful_write_from_iff]

end MergeBot.Foundation.Headings
