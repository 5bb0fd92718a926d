import Hiko.Heap.Safety

/-!
# Free slots

A collection clears the free list and puts the slots on it that it empties itself, so a slot that
was empty before is on no list afterwards. The list holds the empty slots as long as every
collection starts in a heap without empty slots.

## Main definitions

* `HeapOp`, `Store.run`: allocations and collections in any order
* `Store.SlotsAccounted`: the free list and the limits agree with the empty slots
* `Store.RunsClean`: every collection of a run finds no empty slot

## Main results

* `slotsAccounted_iff`: the slots are accounted for exactly after the clean runs
-/

namespace Hiko

open Lib

/-- An allocation or a collection. -/
inductive HeapOp where
  | alloc (obj : HeapObject)
  | collect (roots : List GcRef)

/-- `live_count`. -/
def Heap.liveCount (h : Heap) : ℕ := h.objects.countP (·.isSome)

namespace Store

/-- An operation on a store. An allocation that fails leaves the store as it is; a collection from
a root that is no slot is a fault. -/
def perform (s : Store) : HeapOp → Option Store
  | .alloc obj => some (s.alloc obj).2
  | .collect roots => s.collect roots

/-- The operations one after the other. -/
def run : List HeapOp → Store → Option Store
  | [], s => some s
  | op :: ops, s => (s.perform op).bind (run ops)

/-- The free list holds the empty slots, each once; so the count behind the object limit is the
number of objects, and an allocation takes an empty slot where there is one. -/
structure SlotsAccounted (s : Store) : Prop where
  free : ∀ i, i ∈ s.heap.freeList ↔ s.heap.objects[i]? = some none
  nodup : s.heap.freeList.Nodup
  live : s.heap.live = s.heap.liveCount
  limit : ∀ obj live limit s', s.alloc obj = (.error (.objects live limit), s') →
    limit ≤ s.heap.liveCount
  reused : ∀ obj r s' (i : ℕ), s.alloc obj = (.ok r, s') → s.heap.objects[i]? = some none →
    s'.heap.objects.length = s.heap.objects.length

/-- A collection starts without empty slots, and all slots whose index is no `u32` stay in use. -/
def Clean (s : Store) : HeapOp → Prop
  | .alloc _ => True
  | .collect roots => none ∉ s.heap.objects ∧
    ∀ marks, markFrom s.heap.succ s.heap.objects.length (roots.map (·.idx)) = some marks →
      ∀ i, u32Size ≤ i → i < s.heap.objects.length → marks[i]? = some true

/-- The collections of a run are clean. -/
def RunsClean : List HeapOp → Store → Prop
  | [], _ => True
  | op :: ops, s => s.Clean op ∧ ∀ s', s.perform op = some s' → RunsClean ops s'

end Store

/-! ## The free list -/

/-- The free list holds the empty slots. -/
structure Heap.SlotsListed (h : Heap) : Prop where
  free : ∀ i, i ∈ h.freeList ↔ h.objects[i]? = some none
  nodup : h.freeList.Nodup

/-- A slot is empty and not on the free list. -/
def Heap.Leaks (h : Heap) : Prop := ∃ i, h.objects[i]? = some none ∧ i ∉ h.freeList

section Listed

variable {h h' : Heap} {s s' : Store}

theorem Heap.Leaks.not_listed (hl : h.Leaks) : ¬ h.SlotsListed := by
  intro hs
  obtain ⟨i, hempty, hnot⟩ := hl
  exact hnot ((hs.free i).mpr hempty)

theorem Heap.Leaks.sameSlots (hl : h.Leaks) (hobjects : h'.objects = h.objects)
    (hfree : h'.freeList = h.freeList) : h'.Leaks := by
  obtain ⟨i, hempty, hnot⟩ := hl
  exact ⟨i, by rw [hobjects]; exact hempty, by rw [hfree]; exact hnot⟩

theorem Heap.SlotsListed.sameSlots (hs : h.SlotsListed) (hobjects : h'.objects = h.objects)
    (hfree : h'.freeList = h.freeList) : h'.SlotsListed :=
  ⟨by rw [hobjects, hfree]; exact hs.free, by rw [hfree]; exact hs.nodup⟩

/-- The slots that are filled and those that are on the free list make up the heap. -/
theorem Heap.SlotsListed.live (hs : h.SlotsListed) : h.live = h.liveCount := by
  have hempty : h.freeList.length = h.objects.countP (·.isNone) := by
    have hperm : h.freeList.Perm
        ((List.range h.objects.length).filter fun i => h.objects[i]? = some none) := by
      rw [List.perm_ext_iff_of_nodup hs.nodup (List.nodup_range.filter _)]
      intro i
      rw [hs.free, List.mem_filter, List.mem_range, decide_eq_true_iff]
      refine ⟨fun hi => ⟨(List.getElem?_eq_some_iff.mp hi).1, hi⟩, fun hi => hi.2⟩
    rw [hperm.length_eq, ← List.countP_eq_length_filter]
    have hmap : h.objects = (List.range h.objects.length).map fun i => (h.objects[i]?).join := by
      apply List.ext_getElem (by simp)
      intro i hi _
      simp [hi]
    have hcount := congrArg (List.countP (·.isNone)) hmap
    rw [List.countP_map] at hcount
    rw [hcount]
    apply List.countP_congr
    intro i hi
    have hlt : i < h.objects.length := List.mem_range.mp hi
    simp only [Function.comp, List.getElem?_eq_getElem hlt, Option.join_some]
    cases h.objects[i] <;> simp
  have hsplit := h.objects.length_eq_countP_add_countP (·.isSome)
  have hnot : (fun o : Option HeapObject => decide ¬ o.isSome = true) = (·.isNone) := by
    funext o
    cases o <;> rfl
  rw [hnot] at hsplit
  rw [Heap.live, Heap.liveCount, hempty]
  omega

end Listed

/-! ## Allocation -/

section Alloc

variable {h : Heap} {s s' : Store}

theorem Heap.SlotsListed.place (hs : h.SlotsListed) (obj : HeapObject) :
    (h.place obj).2.SlotsListed := by
  unfold Heap.place
  split
  · next idx rest hf =>
    have hidx : h.objects[idx]? = some none := (hs.free idx).mp (by simp [hf])
    have hlt : idx < h.objects.length := (List.getElem?_eq_some_iff.mp hidx).1
    have hnodup := hs.nodup
    rw [hf, List.nodup_cons] at hnodup
    refine ⟨fun i => ?_, hnodup.2⟩
    by_cases hi : idx = i
    · subst hi
      simp [hlt, hnodup.1]
    · have hfree := hs.free i
      rw [hf, List.mem_cons] at hfree
      simp only [List.getElem?_set, if_neg hi]
      rw [← hfree]
      exact (or_iff_right (Ne.symm hi)).symm
  · next hf =>
    refine ⟨fun i => ?_, hs.nodup⟩
    change i ∈ h.freeList ↔ (h.objects ++ [some obj])[i]? = some none
    rw [hs.free i]
    rcases Nat.lt_trichotomy i h.objects.length with hi | rfl | hi
    · rw [List.getElem?_append_left hi]
    · simp
    · rw [List.getElem?_eq_none hi.le, List.getElem?_eq_none (by simpa using hi)]

/-- A slot that is on no list is never taken again. -/
theorem Heap.Leaks.place (hl : h.Leaks) (obj : HeapObject) : (h.place obj).2.Leaks := by
  obtain ⟨i, hempty, hnot⟩ := hl
  have hlt : i < h.objects.length := (List.getElem?_eq_some_iff.mp hempty).1
  refine ⟨i, ?_⟩
  unfold Heap.place
  split
  · next idx rest hf =>
    rw [hf, List.mem_cons, not_or] at hnot
    refine ⟨?_, hnot.2⟩
    simp only [List.getElem?_set, if_neg (Ne.symm hnot.1)]
    exact hempty
  · exact ⟨by simpa only [List.getElem?_append_left hlt] using hempty, hnot⟩

theorem Heap.SlotsListed.alloc (hs : s.heap.SlotsListed) (obj : HeapObject) :
    (s.alloc obj).2.heap.SlotsListed := by
  rcases Store.alloc_cases s obj with ⟨e, heq⟩ | ⟨b, -, -, heq⟩
  · rw [heq]
    exact hs
  · rw [heq]
    exact (hs.place obj).sameSlots rfl rfl

theorem Heap.Leaks.alloc (hl : s.heap.Leaks) (obj : HeapObject) :
    (s.alloc obj).2.heap.Leaks := by
  rcases Store.alloc_cases s obj with ⟨e, heq⟩ | ⟨b, -, -, heq⟩
  · rw [heq]
    exact hl
  · rw [heq]
    exact (hl.place obj).sameSlots rfl rfl

theorem alloc_objects_error {obj : HeapObject} {live limit : ℕ}
    (h : s.alloc obj = (.error (.objects live limit), s')) : limit ≤ s.heap.live := by
  unfold Store.alloc at h
  split at h
  · next e he =>
    obtain ⟨rfl, -⟩ : e = .objects live limit ∧ s = s' := by simpa using h
    unfold Store.checkObjects at he
    split at he
    · next max _ =>
      split at he
      · next hle =>
        obtain ⟨-, rfl⟩ : s.heap.live = live ∧ max = limit := by simpa using he
        exact hle
      · cases he
    · cases he
  · split at h
    · next e he =>
      obtain ⟨rfl, -⟩ : e = .objects live limit ∧ s = s' := by simpa using h
      unfold Store.chargeMemory at he
      split at he
      · cases he
      · split at he
        · cases he
        · cases he
    · cases h

theorem Store.slotsAccounted_iff_listed : s.SlotsAccounted ↔ s.heap.SlotsListed := by
  constructor
  · exact fun h => ⟨h.free, h.nodup⟩
  intro h
  refine ⟨h.free, h.nodup, h.live, fun obj live limit s' herr => ?_, ?_⟩
  · rw [← h.live]
    exact alloc_objects_error herr
  · intro obj r s' i hok hi
    rcases Store.alloc_cases s obj with ⟨e, heq⟩ | ⟨b, -, -, heq⟩
    · rw [heq] at hok
      cases hok
    · have hs' : s' = (s.alloc obj).2 := by rw [hok]
      rw [hs', heq]
      have hmem := (h.free i).mpr hi
      cases hf : s.heap.freeList with
      | nil =>
        rw [hf] at hmem
        cases hmem
      | cons idx rest => simp [Heap.place, hf]

end Alloc

/-! ## Collection -/

section Collect

variable {h : Heap} {s s' : Store} {marks : List Bool}

/-- The sweep empties a slot: it holds an object that is not marked. -/
def Heap.frees (h : Heap) (marks : List Bool) (i : ℕ) : Bool :=
  (h.object? i).isSome && marks[i]? != some true

/-- The slots that a sweep empties, the last one first. -/
theorem Store.sweep_freeList (s : Store) (marks : List Bool) :
    (s.sweep marks).heap.freeList = ((((List.range s.heap.objects.length).filter
      (s.heap.frees marks)).map (· % u32Size)).reverse) := by
  have hstart : Swept marks s.heap 0 { s.heap with freeList := [] } :=
    ⟨rfl, fun i => by simp [Heap.object?], by simp, by simp, by simp, rfl, rfl, rfl⟩
  have hall : ∀ k ≤ s.heap.objects.length,
      Swept marks s.heap k ((List.range k).foldl (sweepSlot marks)
        { s with heap := { s.heap with freeList := [] } }).heap ∧
      ((List.range k).foldl (sweepSlot marks)
        { s with heap := { s.heap with freeList := [] } }).heap.freeList =
          (((List.range k).filter (s.heap.frees marks)).map (· % u32Size)).reverse := by
    intro k hk
    induction k with
    | zero => exact ⟨hstart, rfl⟩
    | succ k ih =>
      obtain ⟨hsw, hlist⟩ := ih (by omega)
      rw [List.range_succ, List.foldl_append, List.foldl_cons, List.foldl_nil]
      refine ⟨hsw.slot (by omega), ?_⟩
      rw [List.filter_append, List.map_append, List.reverse_append, ← hlist]
      generalize (List.range k).foldl (sweepSlot marks)
        { s with heap := { s.heap with freeList := [] } } = t at hsw
      have hobj : t.heap.object? k = s.heap.object? k := by
        rw [hsw.object k, if_neg (by omega)]
      unfold sweepSlot
      rw [hobj]
      split
      · next hnone => simp [Heap.frees, hnone]
      · next o ho =>
        split
        · next hm => simp [Heap.frees, ho, hm]
        · next hm => simp [Heap.frees, ho, hm, (sameSlots_releaseHandle t o).freeList]
  exact (hall _ (le_refl _)).2

/-- A collection sweeps with the marks from the roots. -/
theorem collect_eq_some {roots : List GcRef} (hc : s.collect roots = some s') :
    ∃ marks, markFrom s.heap.succ s.heap.objects.length (roots.map (·.idx)) = some marks ∧
      s'.heap.objects = (s.sweep marks).heap.objects ∧
      s'.heap.freeList = (s.sweep marks).heap.freeList := by
  unfold Store.collect at hc
  split at hc
  · cases hc
  · next marks hmarks =>
    cases hc
    exact ⟨marks, hmarks, rfl, rfl⟩

/-- A slot is empty after a sweep exactly if it was empty or is emptied. -/
theorem sweep_empty_iff (s : Store) (marks : List Bool) (i : ℕ) :
    (s.sweep marks).heap.objects[i]? = some none ↔
      s.heap.objects[i]? = some none ∨ i < s.heap.objects.length ∧ s.heap.frees marks i := by
  have hsw := s.sweep_swept marks
  have hobj := hsw.object i
  by_cases hi : i < s.heap.objects.length
  · have hi' : i < (s.sweep marks).heap.objects.length := by rw [hsw.length]; exact hi
    rw [Heap.object?, Heap.object?, List.getElem?_eq_getElem hi, List.getElem?_eq_getElem hi',
      Option.join_some, Option.join_some] at hobj
    rw [List.getElem?_eq_getElem hi, List.getElem?_eq_getElem hi', hobj]
    simp only [hi, true_and, Heap.frees, Heap.object?, List.getElem?_eq_getElem hi,
      Option.join_some, Option.some.injEq]
    by_cases hm : marks[i]? = some true
    · simp [hm]
    · cases s.heap.objects[i] <;> simp [hm]
  · rw [List.getElem?_eq_none (by rw [hsw.length]; omega), List.getElem?_eq_none (by omega)]
    simp [hi]

theorem SlotsListed.collect {roots : List GcRef} (hclean : s.Clean (.collect roots))
    (hc : s.collect roots = some s') : s'.heap.SlotsListed := by
  obtain ⟨marks, hmarks, hobjects, hfree⟩ := collect_eq_some hc
  obtain ⟨hfull, hhigh⟩ := hclean
  have hlow : ∀ i ∈ (List.range s.heap.objects.length).filter (s.heap.frees marks),
      i % u32Size = i := by
    intro i hi
    rw [List.mem_filter, List.mem_range, Heap.frees, Bool.and_eq_true] at hi
    refine Nat.mod_eq_of_lt (Nat.lt_of_not_le fun hle => ?_)
    simpa [hhigh marks hmarks i hle hi.1] using hi.2.2
  rw [Store.sweep_freeList, List.map_congr_left hlow, List.map_id'] at hfree
  refine ⟨fun i => ?_, ?_⟩
  · rw [hfree, hobjects, sweep_empty_iff, List.mem_reverse, List.mem_filter, List.mem_range]
    refine ⟨.inr, fun h => h.resolve_left fun hempty => hfull ?_⟩
    exact List.mem_of_getElem? hempty
  · rw [hfree, List.nodup_reverse]
    exact List.nodup_range.filter _

theorem Leaks.collect {roots : List GcRef} (hclean : ¬ s.Clean (.collect roots))
    (hc : s.collect roots = some s') : s'.heap.Leaks := by
  obtain ⟨marks, hmarks, hobjects, hfree⟩ := collect_eq_some hc
  rw [Store.sweep_freeList] at hfree
  have hmem : ∀ j, j ∈ s'.heap.freeList ↔ ∃ k, (k < s.heap.objects.length ∧
      s.heap.frees marks k = true) ∧ k % u32Size = j := by
    intro j
    rw [hfree, List.mem_reverse, List.mem_map]
    simp only [List.mem_filter, List.mem_range]
  by_cases hhigh : ∃ i, u32Size ≤ i ∧ i < s.heap.objects.length ∧ s.heap.frees marks i = true
  · -- an index that is no `u32` is on no list
    obtain ⟨i, hle, hlt, hfrees⟩ := hhigh
    refine ⟨i, by rw [hobjects, sweep_empty_iff]; exact .inr ⟨hlt, hfrees⟩, fun hi => ?_⟩
    obtain ⟨k, -, rfl⟩ := (hmem i).mp hi
    exact absurd (Nat.mod_lt k (by decide : 0 < u32Size)) (Nat.not_lt.mpr hle)
  · push Not at hhigh
    have hempty : none ∈ s.heap.objects := by
      by_contra hfull
      refine hclean ⟨hfull, fun marks' hmarks' i hle hlt => ?_⟩
      obtain rfl : marks = marks' := Option.some.inj (hmarks.symm.trans hmarks')
      by_contra hm
      have hobj : s.heap.objects[i] ≠ none := fun h => hfull (h ▸ List.getElem_mem hlt)
      refine hhigh i hle hlt ?_
      simp [Heap.frees, Heap.object?, hlt, Option.isSome_iff_ne_none, hobj, hm]
    obtain ⟨i, hi⟩ := List.getElem?_of_mem hempty
    refine ⟨i, by rw [hobjects, sweep_empty_iff]; exact .inl hi, fun hin => ?_⟩
    obtain ⟨k, ⟨hk, hfrees⟩, rfl⟩ := (hmem i).mp hin
    have hsmall : k % u32Size = k :=
      Nat.mod_eq_of_lt (Nat.lt_of_not_le fun hle => hhigh k hle hk hfrees)
    rw [hsmall] at hi
    simp [Heap.frees, Heap.object?, hi] at hfrees

end Collect

/-! ## Runs -/

section Runs

variable {s s' : Store} {ops : List HeapOp}

theorem Heap.Leaks.perform {op : HeapOp} (hl : s.heap.Leaks) (h : s.perform op = some s') :
    s'.heap.Leaks := by
  cases op with
  | alloc obj =>
    cases h
    exact hl.alloc obj
  | collect roots =>
    obtain ⟨i, hempty, -⟩ := hl
    exact Leaks.collect (fun hclean => hclean.1 (List.mem_of_getElem? hempty)) h

theorem Heap.SlotsListed.perform {op : HeapOp} (hs : s.heap.SlotsListed) (hclean : s.Clean op)
    (h : s.perform op = some s') : s'.heap.SlotsListed := by
  cases op with
  | alloc obj =>
    cases h
    exact hs.alloc obj
  | collect roots => exact SlotsListed.collect hclean h

theorem Heap.Leaks.run (hl : s.heap.Leaks) (h : s.run ops = some s') : s'.heap.Leaks := by
  induction ops generalizing s with
  | nil =>
    cases h
    exact hl
  | cons op ops ih =>
    obtain ⟨t, hop, hrest⟩ := Option.bind_eq_some_iff.mp h
    exact ih (hl.perform hop) hrest

/-- A run that is not clean loses a slot for good. -/
theorem Heap.SlotsListed.run (hs : s.heap.SlotsListed) (h : s.run ops = some s') :
    s'.heap.SlotsListed ↔ s.RunsClean ops := by
  induction ops generalizing s with
  | nil =>
    cases h
    exact iff_of_true hs trivial
  | cons op ops ih =>
    obtain ⟨t, hop, hrest⟩ := Option.bind_eq_some_iff.mp h
    by_cases hclean : s.Clean op
    · rw [ih (hs.perform hclean hop) hrest]
      refine ⟨fun ht => ⟨hclean, fun t' ht' => ?_⟩, fun hall => hall.2 t hop⟩
      obtain rfl : t = t' := Option.some.inj (hop.symm.trans ht')
      exact ht
    · have hleaks : t.heap.Leaks := by
        cases op with
        | alloc obj => exact absurd trivial hclean
        | collect roots => exact Leaks.collect hclean hop
      exact iff_of_false (hleaks.run hrest).not_listed fun hall => hclean hall.1

end Runs

/-- **The slots are accounted for exactly after the clean runs.** -/
theorem slotsAccounted_iff (maxObjects : Option ℕ) (budgets : Budgets) (ops : List HeapOp)
    (s : Store) (hrun : Store.run ops ⟨.fresh maxObjects, budgets⟩ = some s) :
    s.SlotsAccounted ↔ Store.RunsClean ops ⟨.fresh maxObjects, budgets⟩ := by
  have hstart : (Heap.fresh maxObjects).SlotsListed := ⟨fun i => by simp [Heap.fresh, Heap.new],
    List.nodup_nil⟩
  rw [Store.slotsAccounted_iff_listed]
  exact hstart.run hrun

theorem slotsAccounted_iff_once :
    ∃ s, Store.run [.alloc (.string "a"), .collect []] ⟨.fresh none, .unlimited⟩ = some s ∧
      (s.SlotsAccounted ↔
        Store.RunsClean [.alloc (.string "a"), .collect []] ⟨.fresh none, .unlimited⟩) :=
  ⟨_, rfl, slotsAccounted_iff none .unlimited [.alloc (.string "a"), .collect []] _ rfl⟩

/-- The second collection forgets the slot that the first one freed. -/
theorem not_slotsAccounted_twice :
    ∃ s, Store.run [.alloc (.string "a"), .collect [], .collect []] ⟨.fresh none, .unlimited⟩ =
      some s ∧ ¬ s.SlotsAccounted := by
  refine ⟨_, rfl, fun h => ?_⟩
  have hmem := (h.free 0).mpr rfl
  cases hmem

end Hiko
