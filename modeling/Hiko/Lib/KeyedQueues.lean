import Mathlib.Tactic

/-!
# Queues by key

A map from keys to queues in which a key is present only while its queue is not empty, and sums
over the queues of such a map.

## Main definitions

* `KeyedQueues`, `KeyedQueues.set`: the map, and the replacement of one queue
* `KeyedQueues.sum f`: the sum of `f k q` over the queues `q` present

## Main results

* `sum_set`: replacing one queue changes a sum by what the queue adds to it
* `sum_congr_off`: two sums that differ at one key
-/

namespace Hiko.Lib

/-- Queues by key. -/
structure KeyedQueues (κ α : Type) where
  queue : κ → List α
  keys : Finset κ
  mem_keys : ∀ k, k ∈ keys ↔ queue k ≠ []

namespace KeyedQueues

variable {κ α : Type}

/-- No queue. -/
def empty : KeyedQueues κ α := ⟨fun _ => [], ∅, by simp⟩

/-- The sum of `f` over the queues that are present. -/
def sum (m : KeyedQueues κ α) (f : κ → List α → ℕ) : ℕ := ∑ k ∈ m.keys, f k (m.queue k)

variable [DecidableEq κ]

/-- Replace one queue; an empty queue is not kept. -/
def set (m : KeyedQueues κ α) (k : κ) (q : List α) : KeyedQueues κ α where
  queue := Function.update m.queue k q
  keys := if q.isEmpty then m.keys.erase k else insert k m.keys
  mem_keys := by
    intro k'
    by_cases hk : k' = k
    · subst hk
      cases q <;> simp
    · cases q <;> simp [hk, m.mem_keys]

@[simp] theorem set_queue_self (m : KeyedQueues κ α) (k : κ) (q : List α) :
    (m.set k q).queue k = q := by
  simp [set]

@[simp] theorem set_queue_ne (m : KeyedQueues κ α) {k k' : κ} (h : k' ≠ k) (q : List α) :
    (m.set k q).queue k' = m.queue k' := by
  simp [set, h]

variable {f g : κ → List α → ℕ}

omit [DecidableEq κ] in
/-- A sum may be taken over any keys that include those present. -/
theorem sum_eq_of_subset (m : KeyedQueues κ α) (hf : ∀ k, f k [] = 0) {s : Finset κ}
    (hs : m.keys ⊆ s) : m.sum f = ∑ k ∈ s, f k (m.queue k) := by
  refine Finset.sum_subset hs fun k _ hk => ?_
  have hempty : m.queue k = [] := by
    by_contra hne
    exact hk ((m.mem_keys k).mpr hne)
  rw [hempty, hf]

/-- Two sums over the same keys that differ at one. -/
theorem sum_differ {s : Finset κ} {u v : κ → ℕ} {k : κ} (hk : k ∈ s)
    (h : ∀ k' ∈ s, k' ≠ k → u k' = v k') : ∑ i ∈ s, u i + v k = ∑ i ∈ s, v i + u k := by
  have hrest : ∑ i ∈ s.erase k, u i = ∑ i ∈ s.erase k, v i :=
    Finset.sum_congr rfl fun i hi => h i (Finset.mem_of_mem_erase hi) (Finset.ne_of_mem_erase hi)
  rw [← Finset.add_sum_erase s u hk, ← Finset.add_sum_erase s v hk, hrest]
  omega

/-- Two sums, over a map and over the map with one queue replaced, of functions that agree at the
other keys. -/
theorem sum_set_differ (m : KeyedQueues κ α) (k : κ) (q : List α) (hf : ∀ k, f k [] = 0)
    (hg : ∀ k, g k [] = 0) (h : ∀ k', k' ≠ k → g k' = f k') :
    (m.set k q).sum g + f k (m.queue k) = m.sum f + g k q := by
  have hsub : (m.set k q).keys ⊆ insert k m.keys := by
    cases q with
    | nil => exact (Finset.erase_subset k m.keys).trans (Finset.subset_insert k m.keys)
    | cons => exact Finset.Subset.rfl
  rw [sum_eq_of_subset _ hg hsub, sum_eq_of_subset m hf (Finset.subset_insert k m.keys)]
  have hdiffer := sum_differ (u := fun i => g i ((m.set k q).queue i))
    (v := fun i => f i (m.queue i)) (Finset.mem_insert_self k m.keys)
    (fun k' _ hk => by simp only [set_queue_ne m hk, h k' hk])
  rwa [set_queue_self] at hdiffer

/-- Two sums over one map of functions that agree at the other keys. -/
theorem sum_congr_off (m : KeyedQueues κ α) (k : κ) (hf : ∀ k, f k [] = 0)
    (hg : ∀ k, g k [] = 0) (h : ∀ k', k' ≠ k → g k' = f k') :
    m.sum g + f k (m.queue k) = m.sum f + g k (m.queue k) := by
  have hsub := Finset.subset_insert k m.keys
  rw [sum_eq_of_subset m hg hsub, sum_eq_of_subset m hf hsub]
  exact sum_differ (u := fun i => g i (m.queue i)) (v := fun i => f i (m.queue i))
    (Finset.mem_insert_self k m.keys) fun k' _ hk => by simp only [h k' hk]

/-- Replacing one queue changes a sum by what the queue adds to it. -/
theorem sum_set (m : KeyedQueues κ α) (k : κ) (q : List α) (hf : ∀ k, f k [] = 0) :
    (m.set k q).sum f + f k (m.queue k) = m.sum f + f k q :=
  sum_set_differ m k q hf hf fun _ _ => rfl

omit [DecidableEq κ] in
/-- A queue adds to a sum at most the sum. -/
theorem le_sum (m : KeyedQueues κ α) (hf : ∀ k, f k [] = 0) (k : κ) :
    f k (m.queue k) ≤ m.sum f := by
  by_cases hk : k ∈ m.keys
  · exact Finset.single_le_sum (f := fun i => f i (m.queue i)) (fun _ _ => Nat.zero_le _) hk
  · have hempty : m.queue k = [] := by
      by_contra hne
      exact hk ((m.mem_keys k).mpr hne)
    rw [hempty, hf]
    exact Nat.zero_le _

end KeyedQueues

end Hiko.Lib
