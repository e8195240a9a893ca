import Mathlib.Data.List.Basic
import Mathlib.Data.List.Find
import Mathlib.Data.List.Nodup

/-!
# One-to-one hash tables whose keys may change their hash

A bidirectional hash table files each entry under the hashes its two keys had
when the entry was inserted. Two keys are equal when their present hashes are
equal. A key that is rewritten after insertion keeps its old bucket, so a
lookup finds an entry only if the sought hash is both the filed hash and the
present hash of the entry's key.

`Exact` is the situation right after a table was filled from two sets of keys
whose hashes tell them apart; `Exact.leftFind_iff` and `Exact.rightFind_iff`
say what a lookup of an unmodified key returns, whatever has happened to the
other keys since.
-/

namespace MergeBot.Foundation

universe u v w

/-- One association, with the hashes its keys had when it was inserted. -/
structure BiEntry (α : Type u) (β : Type v) (H : Type w) where
  left : α
  right : β
  leftHash : H
  rightHash : H
deriving DecidableEq, Repr

/-- The associations of a table, in insertion order. -/
abbrev HashBiMap (α : Type u) (β : Type v) (H : Type w) := List (BiEntry α β H)

namespace HashBiMap

variable {α : Type u} {β : Type v} {H : Type w} [DecidableEq H]

/-- Look a left key up under its present hash. -/
def leftFind (hash : α → H) (map : HashBiMap α β H) (key : α) : Option (BiEntry α β H) :=
  map.find? fun entry => entry.leftHash = hash key ∧ hash entry.left = hash key

/-- Look a right key up under its present hash. -/
def rightFind (hash : β → H) (map : HashBiMap α β H) (key : β) : Option (BiEntry α β H) :=
  map.find? fun entry => entry.rightHash = hash key ∧ hash entry.right = hash key

/-- Insertion is refused when either key is found. -/
def insert (leftHash : α → H) (rightHash : β → H) (map : HashBiMap α β H) (left : α) (right : β) :
    HashBiMap α β H :=
  match map.leftFind leftHash left, map.rightFind rightHash right with
  | none, none => map ++ [⟨left, right, leftHash left, rightHash right⟩]
  | _, _ => map

/-- What a successful left lookup tells about the entry found. -/
theorem leftFind_some {hash : α → H} {map : HashBiMap α β H} {key : α} {entry : BiEntry α β H}
    (found : map.leftFind hash key = some entry) :
    entry ∈ map ∧ entry.leftHash = hash key ∧ hash entry.left = hash key := by
  have holds := List.find?_some found
  simp only [decide_eq_true_eq] at holds
  exact ⟨List.mem_of_find?_eq_some found, holds⟩

/-- What a successful right lookup tells about the entry found. -/
theorem rightFind_some {hash : β → H} {map : HashBiMap α β H} {key : β} {entry : BiEntry α β H}
    (found : map.rightFind hash key = some entry) :
    entry ∈ map ∧ entry.rightHash = hash key ∧ hash entry.right = hash key := by
  have holds := List.find?_some found
  simp only [decide_eq_true_eq] at holds
  exact ⟨List.mem_of_find?_eq_some found, holds⟩

/-- A left key is found under its own entry as soon as its present hash is the
filed one and no other entry is filed there. -/
theorem leftFind_own {hash : α → H} {map : HashBiMap α β H} {entry : BiEntry α β H}
    (member : entry ∈ map) (current : hash entry.left = entry.leftHash)
    (alone : ∀ other ∈ map, other.leftHash = entry.leftHash → other = entry) :
    map.leftFind hash entry.left = some entry := by
  have found : (map.leftFind hash entry.left).isSome := by
    rw [leftFind, List.find?_isSome]
    exact ⟨entry, member, by simp [current]⟩
  obtain ⟨other, otherFound⟩ := Option.isSome_iff_exists.mp found
  obtain ⟨otherMember, filed, -⟩ := leftFind_some otherFound
  rw [otherFound, alone other otherMember (filed.trans current)]

/-- A left key is not found when no entry is filed under its present hash. -/
theorem leftFind_none {hash : α → H} {map : HashBiMap α β H} {key : α}
    (absent : ∀ entry ∈ map, entry.leftHash ≠ hash key) : map.leftFind hash key = none := by
  rw [leftFind, List.find?_eq_none]
  intro entry member
  simp [absent entry member]

/-- A lookup stays what it is when keys change their hashes, as long as the keys
filed under the sought hash do not. -/
theorem leftFind_congr {hash hash' : α → H} {map : HashBiMap α β H} {key : α}
    (settled : ∀ entry ∈ map, entry.leftHash = hash key → hash' entry.left = hash entry.left)
    (same : hash' key = hash key) : map.leftFind hash' key = map.leftFind hash key := by
  unfold leftFind
  refine List.find?_congr fun entry member => ?_
  by_cases filed : entry.leftHash = hash key
  · simp [filed, same, settled entry member filed]
  · simp [filed, same]

/-- A right key is not found when no entry is filed under its present hash. -/
theorem rightFind_none {hash : β → H} {map : HashBiMap α β H} {key : β}
    (absent : ∀ entry ∈ map, entry.rightHash ≠ hash key) : map.rightFind hash key = none := by
  rw [rightFind, List.find?_eq_none]
  intro entry member
  simp [absent entry member]

/-- Insertion of two keys that are not found appends their entry. -/
theorem insert_fresh {leftHash : α → H} {rightHash : β → H} {map : HashBiMap α β H}
    {left : α} {right : β} (leftFresh : map.leftFind leftHash left = none)
    (rightFresh : map.rightFind rightHash right = none) :
    map.insert leftHash rightHash left right =
      map ++ [⟨left, right, leftHash left, rightHash right⟩] := by
  simp [insert, leftFresh, rightFresh]

/-- What is in a table after an insertion. -/
theorem mem_insert {leftHash : α → H} {rightHash : β → H} {map : HashBiMap α β H}
    {left : α} {right : β} {entry : BiEntry α β H}
    (member : entry ∈ map.insert leftHash rightHash left right) :
    entry ∈ map ∨ entry = ⟨left, right, leftHash left, rightHash right⟩ := by
  unfold insert at member
  split at member
  · simpa using member
  · exact .inl member

/-- Every entry is filed under the present hashes of its keys. -/
def Filed (leftHash : α → H) (rightHash : β → H) (map : HashBiMap α β H) : Prop :=
  ∀ entry ∈ map, entry.leftHash = leftHash entry.left ∧ entry.rightHash = rightHash entry.right

instance (leftHash : α → H) (rightHash : β → H) (map : HashBiMap α β H) :
    Decidable (Filed leftHash rightHash map) :=
  inferInstanceAs (Decidable (∀ entry ∈ map, _))

namespace Filed

variable {leftHash : α → H} {rightHash : β → H} {map : HashBiMap α β H}

/-- In an up-to-date table a key is absent when no left key has its hash. -/
theorem leftFind_none (filed : Filed leftHash rightHash map) {key : α}
    (absent : ∀ entry ∈ map, leftHash entry.left ≠ leftHash key) :
    map.leftFind leftHash key = none :=
  HashBiMap.leftFind_none fun entry member same =>
    absent entry member ((filed entry member).1.symm.trans same)

/-- In an up-to-date table a key is absent when no right key has its hash. -/
theorem rightFind_none (filed : Filed leftHash rightHash map) {key : β}
    (absent : ∀ entry ∈ map, rightHash entry.right ≠ rightHash key) :
    map.rightFind rightHash key = none :=
  HashBiMap.rightFind_none fun entry member same =>
    absent entry member ((filed entry member).2.symm.trans same)

/-- Insertion files a pair under its present hashes. -/
theorem insert (filed : Filed leftHash rightHash map) (left : α) (right : β) :
    Filed leftHash rightHash (map.insert leftHash rightHash left right) := by
  unfold HashBiMap.insert
  split
  · intro entry member
    rcases List.mem_append.mp member with old | new
    · exact filed entry old
    · rw [List.mem_singleton.mp new]
      exact ⟨rfl, rfl⟩
  · exact filed

end Filed

/-- Lookups of the left keys in `Left` and the right keys in `Right` are
exact: each entry is filed under the reference hashes of its keys, no other key
of the same set shares them, and no key has two entries. -/
structure Exact (leftHash : α → H) (rightHash : β → H) (Left : α → Prop) (Right : β → Prop)
    (map : HashBiMap α β H) : Prop where
  filed_left : ∀ entry ∈ map, entry.leftHash = leftHash entry.left
  filed_right : ∀ entry ∈ map, entry.rightHash = rightHash entry.right
  own_left : ∀ entry ∈ map, ∀ key, Left key → leftHash key = entry.leftHash → key = entry.left
  own_right : ∀ entry ∈ map, ∀ key, Right key → rightHash key = entry.rightHash →
    key = entry.right
  unique_left : ∀ entry ∈ map, ∀ other ∈ map, entry.left = other.left → entry = other
  unique_right : ∀ entry ∈ map, ∀ other ∈ map, entry.right = other.right → entry = other

namespace Exact

variable {leftHash : α → H} {rightHash : β → H} {Left : α → Prop} {Right : β → Prop}
  {map : HashBiMap α β H}

omit [DecidableEq H] in
/-- Exactness for fewer keys. -/
theorem mono {Left' : α → Prop} {Right' : β → Prop}
    (exact_ : Exact leftHash rightHash Left Right map) (left : ∀ key, Left' key → Left key)
    (right : ∀ key, Right' key → Right key) : Exact leftHash rightHash Left' Right' map where
  filed_left := exact_.filed_left
  filed_right := exact_.filed_right
  own_left entry member key inside := exact_.own_left entry member key (left key inside)
  own_right entry member key inside := exact_.own_right entry member key (right key inside)
  unique_left := exact_.unique_left
  unique_right := exact_.unique_right

/-- A left key whose hash is the reference hash is found exactly under its own
entry, whatever the present hashes of the other keys are. -/
theorem leftFind_iff (exact_ : Exact leftHash rightHash Left Right map) {hash : α → H} {key : α}
    (inLeft : Left key) (unmodified : hash key = leftHash key) {entry : BiEntry α β H} :
    map.leftFind hash key = some entry ↔ entry ∈ map ∧ entry.left = key := by
  constructor
  · intro found
    obtain ⟨member, filed, -⟩ := leftFind_some found
    exact ⟨member, (exact_.own_left entry member key inLeft (filed.trans unmodified).symm).symm⟩
  · rintro ⟨member, rfl⟩
    have filed := exact_.filed_left entry member
    refine leftFind_own member (unmodified.trans filed.symm) fun other otherMember same => ?_
    have sameKey := exact_.own_left other otherMember entry.left inLeft (by rw [same, filed])
    exact exact_.unique_left other otherMember entry member sameKey.symm

/-- A right key whose hash is the reference hash is found exactly under its own
entry, whatever the present hashes of the other keys are. -/
theorem rightFind_iff (exact_ : Exact leftHash rightHash Left Right map) {hash : β → H} {key : β}
    (inRight : Right key) (unmodified : hash key = rightHash key) {entry : BiEntry α β H} :
    map.rightFind hash key = some entry ↔ entry ∈ map ∧ entry.right = key := by
  constructor
  · intro found
    obtain ⟨member, filed, -⟩ := rightFind_some found
    exact ⟨member, (exact_.own_right entry member key inRight (filed.trans unmodified).symm).symm⟩
  · rintro ⟨member, rfl⟩
    have filed := exact_.filed_right entry member
    have found : (map.rightFind hash entry.right).isSome := by
      rw [rightFind, List.find?_isSome]
      exact ⟨entry, member, by simp [unmodified, filed]⟩
    obtain ⟨other, otherFound⟩ := Option.isSome_iff_exists.mp found
    obtain ⟨otherMember, otherFiled, -⟩ := rightFind_some otherFound
    have sameKey := exact_.own_right other otherMember entry.right inRight
      (otherFiled.trans unmodified).symm
    rw [otherFound, exact_.unique_right other otherMember entry member sameKey.symm]

end Exact

end HashBiMap

end MergeBot.Foundation
