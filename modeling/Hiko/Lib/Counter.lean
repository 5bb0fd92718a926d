import Mathlib.Tactic

/-!
# Counters by key

A finite map from keys to positive counts, as a list of entries: a key that has no entry counts
zero, and an entry that drops to zero is removed.

## Main definitions

* `Counter`, `Counter.bump`, `Counter.drop`: counters, one more, one less
* `Counter.total P`: the counts of the keys in `P`

## Main results

* `total_bump`, `total_drop`: an update changes the totals of its key by one
-/

namespace Hiko.Lib

/-- Positive counts by key. -/
structure Counter (κ : Type) where
  entries : List (κ × ℕ)
  pos : ∀ e ∈ entries, 0 < e.2

namespace Counter

variable {κ : Type} [DecidableEq κ]

/-- No counts. -/
def empty : Counter κ := ⟨[], by simp⟩

/-- Add one to the first entry of `k`, or add an entry. -/
def bumpEntries (k : κ) : List (κ × ℕ) → List (κ × ℕ)
  | [] => [(k, 1)]
  | e :: m => if e.1 = k then (e.1, e.2 + 1) :: m else e :: bumpEntries k m

/-- Take one from the first entry of `k`; an entry that reaches zero goes. -/
def dropEntries (k : κ) : List (κ × ℕ) → List (κ × ℕ)
  | [] => []
  | e :: m =>
    if e.1 = k then (if e.2 - 1 = 0 then m else (e.1, e.2 - 1) :: m) else e :: dropEntries k m

theorem pos_bumpEntries (k : κ) {m : List (κ × ℕ)} (h : ∀ e ∈ m, 0 < e.2) :
    ∀ e ∈ bumpEntries k m, 0 < e.2 := by
  induction m with
  | nil => simp [bumpEntries]
  | cons e m ih =>
    simp only [List.mem_cons, forall_eq_or_imp] at h
    unfold bumpEntries
    split
    · simpa using h.2
    · simpa using ⟨h.1, by simpa using ih h.2⟩

theorem pos_dropEntries (k : κ) {m : List (κ × ℕ)} (h : ∀ e ∈ m, 0 < e.2) :
    ∀ e ∈ dropEntries k m, 0 < e.2 := by
  induction m with
  | nil => simp [dropEntries]
  | cons e m ih =>
    simp only [List.mem_cons, forall_eq_or_imp] at h
    unfold dropEntries
    split
    · split
      · exact h.2
      · next hn =>
        simp only [List.mem_cons, forall_eq_or_imp]
        exact ⟨Nat.pos_of_ne_zero hn, h.2⟩
    · simp only [List.mem_cons, forall_eq_or_imp]
      exact ⟨h.1, ih h.2⟩

/-- Count `k` once more. -/
def bump (m : Counter κ) (k : κ) : Counter κ := ⟨bumpEntries k m.entries, pos_bumpEntries k m.pos⟩

/-- Count `k` once less. -/
def drop (m : Counter κ) (k : κ) : Counter κ := ⟨dropEntries k m.entries, pos_dropEntries k m.pos⟩

/-- The count of a key. -/
def count (m : Counter κ) (k : κ) : ℕ := (m.entries.lookup k).getD 0

/-- The counts of the keys in `P`. -/
def totalOf (P : κ → Bool) (m : List (κ × ℕ)) : ℕ := (m.map fun e => if P e.1 then e.2 else 0).sum

/-- The counts of the keys in `P`. -/
def total (m : Counter κ) (P : κ → Bool) : ℕ := totalOf P m.entries

omit [DecidableEq κ] in
@[simp] theorem totalOf_cons (P : κ → Bool) (e : κ × ℕ) (m : List (κ × ℕ)) :
    totalOf P (e :: m) = (if P e.1 then e.2 else 0) + totalOf P m := by
  simp [totalOf]

omit [DecidableEq κ] in
@[simp] theorem total_empty (P : κ → Bool) : (empty : Counter κ).total P = 0 := rfl

@[simp] theorem total_bump (m : Counter κ) (k : κ) (P : κ → Bool) :
    (m.bump k).total P = m.total P + (if P k then 1 else 0) := by
  obtain ⟨m, hm⟩ := m
  show totalOf P (bumpEntries k m) = totalOf P m + _
  clear hm
  induction m with
  | nil => simp [bumpEntries, totalOf]
  | cons e m ih =>
    unfold bumpEntries
    split
    · next he =>
      subst he
      cases hP : P e.1 <;> simp [hP]
      omega
    · simp only [totalOf_cons, ih]; omega

theorem total_drop (m : Counter κ) (k : κ) (P : κ → Bool) (hk : 0 < m.total (· = k)) :
    (m.drop k).total P = m.total P - (if P k then 1 else 0) ∧
      (if P k then 1 else 0) ≤ m.total P := by
  obtain ⟨m, hm⟩ := m
  change 0 < totalOf _ m at hk
  show totalOf P (dropEntries k m) = totalOf P m - _ ∧ _ ≤ totalOf P m
  induction m with
  | nil => simp [totalOf] at hk
  | cons e m ih =>
    have hpos := hm e (by simp)
    unfold dropEntries
    split
    · next he =>
      subst he
      split
      · next h0 =>
        have : e.2 = 1 := by omega
        cases hP : P e.1 <;> simp [hP, this]
      · cases hP : P e.1 <;> simp [hP] <;> omega
    · next he =>
      simp only [totalOf_cons, he, decide_false, Bool.false_eq_true, if_false, zero_add] at hk
      obtain ⟨h₁, h₂⟩ := ih (fun e he => hm e (by simp [he])) hk
      simp only [totalOf_cons, h₁]
      omega

end Counter

end Hiko.Lib
