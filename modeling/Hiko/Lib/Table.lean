import Mathlib.Tactic

/-!
# Finite tables

A map from keys to values with finitely many entries, and the number of its entries with a
property.

## Main definitions

* `Table`, `Table.insert`, `Table.erase`: the map and its updates
* `Table.count P`: the number of entries whose value has the property `P`

## Main results

* `get_insert`, `get_erase`: what an update does to the entries
* `count_lt`: a table with fewer entries of a property has a smaller count
-/

namespace Hiko.Lib

/-- A finite map. -/
structure Table (κ α : Type) where
  get : κ → Option α
  keys : Finset κ
  mem_keys : ∀ k, k ∈ keys ↔ (get k).isSome

namespace Table

variable {κ α : Type}

/-- No entries. -/
def empty : Table κ α := ⟨fun _ => none, ∅, by simp⟩

@[simp] theorem get_empty (k : κ) : (empty : Table κ α).get k = none := rfl

variable [DecidableEq κ]

/-- Add or replace an entry. -/
def insert (t : Table κ α) (k : κ) (a : α) : Table κ α where
  get := Function.update t.get k (some a)
  keys := Insert.insert k t.keys
  mem_keys := by
    intro k'
    by_cases hk : k' = k
    · subst hk
      simp
    · simp [hk, t.mem_keys]

/-- Remove an entry. -/
def erase (t : Table κ α) (k : κ) : Table κ α where
  get := Function.update t.get k none
  keys := t.keys.erase k
  mem_keys := by
    intro k'
    by_cases hk : k' = k
    · subst hk
      simp
    · simp [hk, t.mem_keys]

theorem get_insert (t : Table κ α) (k k' : κ) (a : α) :
    (t.insert k a).get k' = if k' = k then some a else t.get k' := by
  simp [insert, Function.update_apply]

@[simp] theorem get_insert_self (t : Table κ α) (k : κ) (a : α) :
    (t.insert k a).get k = some a := by
  simp [get_insert]

@[simp] theorem get_insert_ne (t : Table κ α) {k k' : κ} (h : k' ≠ k) (a : α) :
    (t.insert k a).get k' = t.get k' := by
  simp [get_insert, h]

theorem get_erase (t : Table κ α) (k k' : κ) :
    (t.erase k).get k' = if k' = k then none else t.get k' := by
  simp [erase, Function.update_apply]

@[simp] theorem get_erase_self (t : Table κ α) (k : κ) : (t.erase k).get k = none := by
  simp [get_erase]

@[simp] theorem get_erase_ne (t : Table κ α) {k k' : κ} (h : k' ≠ k) :
    (t.erase k).get k' = t.get k' := by
  simp [get_erase, h]

omit [DecidableEq κ] in
/-- Whether the entry of a key has a property. -/
def holds (P : α → Bool) (t : Table κ α) (k : κ) : Bool := (t.get k).any P

omit [DecidableEq κ] in
/-- The number of entries with a property. -/
def count (P : α → Bool) (t : Table κ α) : ℕ := (t.keys.filter fun k => t.holds P k).card

omit [DecidableEq κ] in
/-- A table whose entries with a property are among those of another, without one of them, has a
smaller count. -/
theorem count_lt {P : α → Bool} {t t' : Table κ α} {k : κ} (hk : t.holds P k)
    (hk' : ¬ t'.holds P k) (hsub : ∀ k', t'.holds P k' → t.holds P k') :
    t'.count P < t.count P := by
  have hmem : ∀ {u : Table κ α} {k' : κ}, u.holds P k' → k' ∈ u.keys := by
    intro u k' h
    rw [u.mem_keys]
    cases hg : u.get k' with
    | none => simp [holds, hg] at h
    | some a => rfl
  refine Finset.card_lt_card ⟨fun k' h => ?_, fun hle => ?_⟩
  · have hp := (Finset.mem_filter.mp h).2
    exact Finset.mem_filter.mpr ⟨hmem (hsub k' hp), hsub k' hp⟩
  · exact hk' (Finset.mem_filter.mp (hle (Finset.mem_filter.mpr ⟨hmem hk, hk⟩))).2

end Table

end Hiko.Lib
