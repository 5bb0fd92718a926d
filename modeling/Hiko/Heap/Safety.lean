import Mathlib.Tactic
import Hiko.Heap.Sendable

/-!
# References and the slots they name

A reference is an index, and a slot is filled again after it was freed. So a reference is safe
only as long as its slot has not been freed: then the slot still holds what the allocation that
handed the reference out put there. This is `Heap.Names`, and `HeapOk` says that the values inside
the objects of a heap are safe. An index is a `u32`, and the part about the objects holds as long
as there are at most `2 ^ 32` slots; that indices are in range holds always.

## Main definitions

* `Heap.Names h r`: the slot of `r` holds the object `r` was handed out for
* `ValueOk`, `HeapOk`: safe values, and heaps whose objects hold safe values

## Main results

* `HeapOk.place`, `HeapOk.collect`, `HeapOk.setClosureCaptures`: the operations keep a heap safe
* `ValueOk.place`, `valueOk_collect`: and the values that are still in use
-/

namespace Hiko

open Lib

/-- The same object, but for the captures of a closure. -/
inductive HeapObject.SameButCaptures : HeapObject → HeapObject → Prop where
  | refl (o : HeapObject) : SameButCaptures o o
  | captures (protoIdx : ℕ) (cs cs' : List Value) :
      SameButCaptures (.closure protoIdx cs) (.closure protoIdx cs')

namespace Heap

/-- Every slot has an index of its own. -/
def Small (h : Heap) : Prop := h.objects.length ≤ u32Size

/-- The slot of `r` holds the object `r` was handed out for. -/
def Names (h : Heap) (r : GcRef) : Prop :=
  (h.object? r.idx).isSome = true ∧ h.owner r.idx = r.serial

end Heap

/-- A value that is safe to use with a heap and a table of `n` builtins. -/
structure ValueOk (n : ℕ) (h : Heap) (v : Value) : Prop where
  range : ∀ r, v = .heap r → r.idx < h.objects.length
  names : ∀ r, v = .heap r → h.Small → h.Names r
  builtin : ∀ id, v = .builtin id → id < n

/-- The values inside the objects are safe, free slots are free, and every object is the one its
allocation put there, but for the captures of a closure. -/
structure HeapOk (n : ℕ) (h : Heap) : Prop where
  children : ∀ i o, h.object? i = some o → ∀ v ∈ o.children, ValueOk n h v
  birth : ∀ i o, h.object? i = some o →
    h.owner i < h.serials ∧ ∃ b, h.births (h.owner i) = some b ∧ b.SameButCaptures o
  freeRange : ∀ i ∈ h.freeList, i < h.objects.length
  free : h.Small → ∀ i ∈ h.freeList, h.object? i = none
  nodup : h.Small → h.freeList.Nodup

section Values

variable {n : ℕ} {h h' : Heap}

theorem ValueOk.of_ref_none {v : Value} (hr : v.ref? = none) (hb : ∀ id, v ≠ .builtin id) :
    ValueOk n h v := by
  refine ⟨?_, ?_, fun id hid => absurd hid (hb id)⟩
  · rintro r rfl
    cases hr
  · rintro r rfl
    cases hr

theorem valueOk_unit : ValueOk n h .unit := .of_ref_none rfl nofun

theorem valueOk_builtin {id : ℕ} (hid : id < n) : ValueOk n h (.builtin id) := by
  refine ⟨nofun, nofun, ?_⟩
  rintro _ ⟨⟩
  exact hid

theorem valueOk_heap {r : GcRef} (hr : r.idx < h.objects.length) (hn : h.Small → h.Names r) :
    ValueOk n h (.heap r) := by
  refine ⟨?_, ?_, nofun⟩
  · rintro _ ⟨⟩
    exact hr
  · rintro _ ⟨⟩
    exact hn

/-- `h'` has the slots of `h` and what they hold: every safe value stays safe. -/
structure Heap.Keeps (h h' : Heap) : Prop where
  length : h.objects.length ≤ h'.objects.length
  object : h'.Small → ∀ i o, h.object? i = some o →
    ∃ o', h'.object? i = some o' ∧ o.SameButCaptures o'
  owner : h'.Small → ∀ i o, h.object? i = some o → h'.owner i = h.owner i

theorem Heap.Keeps.small (hk : h.Keeps h') (hs : h'.Small) : h.Small := hk.length.trans hs

theorem HeapObject.SameButCaptures.trans {a b c : HeapObject} (h : a.SameButCaptures b)
    (h' : b.SameButCaptures c) : a.SameButCaptures c := by
  cases h with
  | refl => exact h'
  | captures i cs cs' =>
    cases h' with
    | refl => exact .captures i cs cs'
    | captures _ _ cs'' => exact .captures i cs cs''

theorem Heap.Keeps.refl (h : Heap) : h.Keeps h :=
  ⟨le_refl _, fun _ _ o ho => ⟨o, ho, .refl o⟩, fun _ _ _ _ => rfl⟩

theorem Heap.Keeps.trans {h'' : Heap} (hk : h.Keeps h') (hk' : h'.Keeps h'') : h.Keeps h'' := by
  refine ⟨hk.length.trans hk'.length, fun hs i o ho => ?_, fun hs i o ho => ?_⟩
  · obtain ⟨o', ho', hsame⟩ := hk.object (hk'.small hs) i o ho
    obtain ⟨o'', ho'', hsame'⟩ := hk'.object hs i o' ho'
    exact ⟨o'', ho'', hsame.trans hsame'⟩
  · obtain ⟨o', ho', -⟩ := hk.object (hk'.small hs) i o ho
    exact (hk'.owner hs i o' ho').trans (hk.owner (hk'.small hs) i o ho)

theorem ValueOk.keeps {v : Value} (hv : ValueOk n h v) (hk : h.Keeps h') : ValueOk n h' v := by
  refine ⟨fun r hr => (hv.range r hr).trans_le hk.length, fun r hr hs => ?_, hv.builtin⟩
  obtain ⟨hsome, howner⟩ := hv.names r hr (hk.small hs)
  obtain ⟨o, ho⟩ := Option.isSome_iff_exists.mp hsome
  obtain ⟨o', ho', -⟩ := hk.object hs _ o ho
  exact ⟨by rw [ho']; rfl, (hk.owner hs _ o ho).trans howner⟩

end Values

/-! ## Allocation -/

/-- What taking a slot does: `obj` is in `slot`, and the reference is to it as long as indices
are wide enough. -/
structure Filled (h : Heap) (obj : HeapObject) (r : GcRef) (slot : ℕ) (h' : Heap) : Prop where
  length : h.objects.length ≤ h'.objects.length
  object : h'.object? slot = some obj
  other : ∀ i, i ≠ slot → h'.object? i = h.object? i
  owner : h'.owner = Function.update h.owner slot h.serials
  births : h'.births = Function.update h.births h.serials (some obj)
  serials : h'.serials = h.serials + 1
  serial : r.serial = h.serials
  range : r.idx < h'.objects.length
  idx : h'.Small → r.idx = slot
  empty : h'.Small → h.object? slot = none
  free : h'.freeList.Sublist h.freeList
  taken : h'.Small → slot ∉ h'.freeList

section Place

variable {n : ℕ} {h : Heap} {obj : HeapObject}

/-- The object in a slot after a slot was set. -/
theorem getElem?_set_join {objs : List (Option HeapObject)} {i j : ℕ} {o : Option HeapObject}
    (hi : i < objs.length) :
    ((objs.set i o)[j]?).join = if i = j then o else (objs[j]?).join := by
  rw [List.getElem?_set]
  by_cases hij : i = j
  · subst hij
    simp [hi]
  · simp [hij]

theorem place_filled (hok : HeapOk n h) (obj : HeapObject) :
    ∃ slot, Filled h obj (h.place obj).1 slot (h.place obj).2 := by
  unfold Heap.place
  split
  · next idx rest hf =>
    have hlt : idx < h.objects.length := hok.freeRange idx (by simp [hf])
    have hsmall : ∀ objs : List (Option HeapObject), objs.length = h.objects.length →
        objs.length ≤ u32Size → h.Small := fun objs hl hs => by
      unfold Heap.Small
      omega
    refine ⟨idx, by simp, ?_, fun i hi => ?_, rfl, rfl, rfl, rfl,
      by simpa using hlt, fun _ => rfl, fun hs => ?_, by simp [hf], fun hs => ?_⟩
    · simp [Heap.object?, hlt]
    · simp only [Heap.object?]
      rw [getElem?_set_join hlt, if_neg (Ne.symm hi)]
    · exact hok.free (hsmall _ (by simp) hs) idx (by simp [hf])
    · have := hok.nodup (hsmall _ (by simp) hs)
      rw [hf] at this
      exact (List.nodup_cons.mp this).1
  · next hf =>
    refine ⟨h.objects.length, by simp, ?_, fun i hi => ?_, rfl, rfl, rfl, rfl,
      ?_, fun hs => ?_, fun hs => ?_, by simp [Heap.recordBirth], ?_⟩
    · simp [Heap.object?]
    · simp only [Heap.object?]
      rcases Nat.lt_or_ge i h.objects.length with hlt | hge
      · rw [List.getElem?_append_left hlt]
      · rw [List.getElem?_eq_none (by simp; omega), List.getElem?_eq_none hge]
    · have := Nat.mod_le h.objects.length u32Size
      simp only [List.length_append, List.length_singleton]
      omega
    · simp only [Heap.Small, List.length_append, List.length_singleton] at hs
      exact Nat.mod_eq_of_lt (by omega)
    · simp [Heap.object?]
    · intro _
      simp [Heap.recordBirth, hf]

theorem Filled.keeps {r : GcRef} {slot : ℕ} {h' : Heap} (hf : Filled h obj r slot h') :
    h.Keeps h' := by
  have hne : h'.Small → ∀ i o, h.object? i = some o → i ≠ slot := by
    rintro hs i o ho rfl
    rw [hf.empty hs] at ho
    cases ho
  refine ⟨hf.length, fun hs i o ho => ⟨o, ?_, .refl o⟩, fun hs i o ho => ?_⟩
  · rw [hf.other i (hne hs i o ho), ho]
  · rw [hf.owner, Function.update_of_ne (hne hs i o ho)]

theorem Filled.valueOk {r : GcRef} {slot : ℕ} {h' : Heap} (hf : Filled h obj r slot h') :
    ValueOk n h' (.heap r) := by
  refine valueOk_heap hf.range fun hs => ?_
  unfold Heap.Names
  rw [hf.idx hs, hf.object, hf.owner, hf.serial]
  simp

theorem Filled.heapOk {r : GcRef} {slot : ℕ} {h' : Heap} (hf : Filled h obj r slot h')
    (hok : HeapOk n h) (hobj : ∀ v ∈ obj.children, ValueOk n h v) : HeapOk n h' := by
  refine ⟨fun i o ho v hv => ?_, fun i o ho => ?_, fun i hi => ?_, fun hs i hi => ?_, fun hs => ?_⟩
  · by_cases hi : i = slot
    · subst hi
      obtain rfl : obj = o := by simpa [hf.object] using ho
      exact (hobj v hv).keeps hf.keeps
    · rw [hf.other i hi] at ho
      exact (hok.children i o ho v hv).keeps hf.keeps
  · by_cases hi : i = slot
    · subst hi
      obtain rfl : obj = o := by simpa [hf.object] using ho
      rw [hf.owner, hf.births, hf.serials]
      exact ⟨by simp, obj, by simp, .refl obj⟩
    · rw [hf.other i hi] at ho
      obtain ⟨hlt, b, hb, hsame⟩ := hok.birth i o ho
      rw [hf.owner, hf.births, hf.serials, Function.update_of_ne hi,
        Function.update_of_ne (Nat.ne_of_lt hlt)]
      exact ⟨by omega, b, hb, hsame⟩
  · exact (hok.freeRange i (hf.free.subset hi)).trans_le hf.length
  · have hne : i ≠ slot := by
      rintro rfl
      exact hf.taken hs hi
    rw [hf.other i hne]
    exact hok.free (hf.keeps.small hs) i (hf.free.subset hi)
  · exact (hok.nodup (hf.keeps.small hs)).sublist hf.free

/-- The bytes and the counters of a heap do not matter for its safety. -/
theorem Filled.counters {r : GcRef} {slot : ℕ} {h' : Heap} (hf : Filled h obj r slot h')
    (sinceGc bytes : ℕ) :
    Filled h obj r slot { h' with allocSinceGc := sinceGc, currentBytes := bytes } :=
  ⟨hf.length, hf.object, hf.other, hf.owner, hf.births, hf.serials, hf.serial, hf.range, hf.idx,
    hf.empty, hf.free, hf.taken⟩

end Place

namespace Store

variable {n : ℕ} {s s' : Store} {obj : HeapObject}

/-- An allocation fails and changes nothing, or takes a slot. -/
theorem alloc_cases (s : Store) (obj : HeapObject) :
    (∃ e, s.alloc obj = (.error e, s)) ∨
      ∃ budgets, s.chargeMemory obj.estimatedBytes = .ok budgets ∧ s.checkObjects = .ok () ∧
        s.alloc obj = (.ok (s.heap.place obj).1, ⟨{ (s.heap.place obj).2 with
          allocSinceGc := (s.heap.place obj).2.allocSinceGc + 1
          currentBytes := min ((s.heap.place obj).2.currentBytes + obj.estimatedBytes)
            (u64Size - 1) }, budgets⟩) := by
  unfold alloc
  split
  · next e _ => exact .inl ⟨e, rfl⟩
  · next hobjects =>
    split
    · next e _ => exact .inl ⟨e, rfl⟩
    · next budgets hcharge => exact .inr ⟨budgets, hcharge, hobjects, rfl⟩

theorem alloc_filled (hok : HeapOk n s.heap) {r : GcRef} (h : s.alloc obj = (.ok r, s')) :
    ∃ slot, Filled s.heap obj r slot s'.heap := by
  rcases alloc_cases s obj with ⟨e, he⟩ | ⟨budgets, -, -, ha⟩
  · rw [he] at h
    cases h
  · rw [ha] at h
    obtain ⟨rfl, rfl⟩ := Prod.mk.inj h |>.imp_left Except.ok.inj
    obtain ⟨slot, hf⟩ := place_filled hok obj
    exact ⟨slot, hf.counters _ _⟩

/-- A successful allocation keeps what there is and hands out a safe reference. -/
theorem alloc_ok (hok : HeapOk n s.heap) (hobj : ∀ v ∈ obj.children, ValueOk n s.heap v)
    {r : GcRef} (h : s.alloc obj = (.ok r, s')) :
    s.heap.Keeps s'.heap ∧ HeapOk n s'.heap ∧ ValueOk n s'.heap (.heap r) := by
  obtain ⟨slot, hf⟩ := alloc_filled hok h
  exact ⟨hf.keeps, hf.heapOk hok hobj, hf.valueOk⟩

/-- The slot of an allocation was empty, and no other slot changes. -/
theorem alloc_object (hok : HeapOk n s.heap) {r : GcRef} (h : s.alloc obj = (.ok r, s'))
    (hs : s'.heap.Small) :
    s.heap.object? r.idx = none ∧ s'.heap.object? r.idx = some obj ∧
      ∀ i, i ≠ r.idx → s'.heap.object? i = s.heap.object? i := by
  obtain ⟨slot, hf⟩ := alloc_filled hok h
  rw [hf.idx hs]
  exact ⟨hf.empty hs, hf.object, hf.other⟩

/-- An allocation adds at most one slot. -/
theorem alloc_length {r : GcRef} (h : s.alloc obj = (.ok r, s')) :
    s'.heap.objects.length ≤ s.heap.objects.length + 1 := by
  rcases alloc_cases s obj with ⟨e, he⟩ | ⟨budgets, -, -, ha⟩
  · rw [he] at h
    cases h
  · rw [ha] at h
    obtain ⟨-, rfl⟩ := Prod.mk.inj h
    unfold Heap.place
    split <;> simp

theorem alloc_error {e : HeapLimitExceeded} (h : s.alloc obj = (.error e, s')) : s' = s := by
  rcases alloc_cases s obj with ⟨e', he⟩ | ⟨budgets, -, -, ha⟩
  · rw [he] at h
    exact (Prod.mk.inj h).2.symm
  · rw [ha] at h
    cases h

end Store

/-! ## Changes that leave the slots alone -/

/-- The slots, the free list and the ghosts are the same. -/
structure Heap.SameSlots (h h' : Heap) : Prop where
  objects : h'.objects = h.objects
  freeList : h'.freeList = h.freeList
  serials : h'.serials = h.serials
  owner : h'.owner = h.owner
  births : h'.births = h.births

section SameSlots

variable {n : ℕ} {h h' : Heap}

theorem Heap.SameSlots.keeps (hs : h.SameSlots h') : h.Keeps h' := by
  refine ⟨by rw [hs.objects], fun _ i o ho => ⟨o, ?_, .refl o⟩, fun _ _ _ _ => by rw [hs.owner]⟩
  rw [Heap.object?, hs.objects]
  exact ho

theorem HeapOk.sameSlots (hok : HeapOk n h) (hs : h.SameSlots h') : HeapOk n h' := by
  have hobj : h'.object? = h.object? := by
    funext i
    rw [Heap.object?, Heap.object?, hs.objects]
  have hsmall : h'.Small → h.Small := hs.keeps.small
  refine ⟨fun i o ho v hv => ?_, ?_, ?_, fun hs' => ?_, fun hs' => ?_⟩
  · rw [hobj] at ho
    exact (hok.children i o ho v hv).keeps hs.keeps
  · rw [hobj, hs.owner, hs.serials, hs.births]
    exact hok.birth
  · rw [hs.freeList, hs.objects]
    exact hok.freeRange
  · rw [hs.freeList, hobj]
    exact hok.free (hsmall hs')
  · rw [hs.freeList]
    exact hok.nodup (hsmall hs')

theorem Heap.SameSlots.refl (h : Heap) : h.SameSlots h := ⟨rfl, rfl, rfl, rfl, rfl⟩

theorem sameSlots_register (h : Heap) (resource : HostResource) :
    h.SameSlots (h.registerResource resource) := ⟨rfl, rfl, rfl, rfl, rfl⟩

theorem sameSlots_unregister (h : Heap) (id : ℕ) (kind : HostHandleKind) :
    h.SameSlots (h.unregisterResource id kind) := ⟨rfl, rfl, rfl, rfl, rfl⟩

theorem sameSlots_releaseHandle (s : Store) (o : HeapObject) :
    s.heap.SameSlots (s.releaseHandle o).heap := by
  cases o with
  | hostHandle kind id =>
    simp only [Store.releaseHandle]
    split
    · exact sameSlots_unregister _ id kind
    · exact .refl _
  | _ => exact .refl _

end SameSlots

/-! ## Collection -/

/-- The sweep has passed the first `k` slots of `h`. -/
structure Swept (marks : List Bool) (h : Heap) (k : ℕ) (h' : Heap) : Prop where
  length : h'.objects.length = h.objects.length
  object : ∀ i, h'.object? i = if i < k ∧ marks[i]? ≠ some true then none else h.object? i
  freeRange : ∀ i ∈ h'.freeList, i < h.objects.length
  free : h.Small → ∀ i ∈ h'.freeList, i < k ∧ h'.object? i = none
  nodup : h.Small → h'.freeList.Nodup
  serials : h'.serials = h.serials
  owner : h'.owner = h.owner
  births : h'.births = h.births

section Collect

variable {n : ℕ} {h : Heap} {marks : List Bool} {k : ℕ}

theorem Swept.skip {h' : Heap} (hsw : Swept marks h k h')
    (hkeep : marks[k]? = some true ∨ h.object? k = none) : Swept marks h (k + 1) h' := by
  refine ⟨hsw.length, fun i => ?_, hsw.freeRange, fun hs i hi => ?_, hsw.nodup, hsw.serials,
    hsw.owner, hsw.births⟩
  · rw [hsw.object i]
    by_cases hik : i = k
    · subst hik
      rcases hkeep with hm | hn
      · simp [hm]
      · simp [hn]
    · have : i < k ↔ i < k + 1 := by omega
      simp only [this]
  · obtain ⟨hlt, hnone⟩ := hsw.free hs i hi
    exact ⟨by omega, hnone⟩

/-- A slot that is not marked is emptied and goes on the free list. -/
theorem Swept.freed {h₁ h₂ : Heap} (hsw : Swept marks h k h₁) (hk : k < h.objects.length)
    (hm : marks[k]? ≠ some true) (hobjects : h₂.objects = h₁.objects.set k none)
    (hfree : h₂.freeList = (k % u32Size) :: h₁.freeList) (hserials : h₂.serials = h₁.serials)
    (howner : h₂.owner = h₁.owner) (hbirths : h₂.births = h₁.births) :
    Swept marks h (k + 1) h₂ := by
  have hget : ∀ i, h₂.object? i = if k = i then none else h₁.object? i := by
    intro i
    rw [Heap.object?, hobjects, getElem?_set_join (hsw.length ▸ hk), Heap.object?]
  have hmod : h.Small → k % u32Size = k := fun hs => Nat.mod_eq_of_lt (hk.trans_le hs)
  refine ⟨by rw [hobjects, List.length_set, hsw.length], fun i => ?_, fun i hi => ?_,
    fun hs i hi => ?_, fun hs => ?_, hserials.trans hsw.serials, howner.trans hsw.owner,
    hbirths.trans hsw.births⟩
  · rw [hget]
    by_cases hik : i = k
    · subst hik
      simp [hm]
    · have : i < k ↔ i < k + 1 := by omega
      rw [if_neg (Ne.symm hik), hsw.object i]
      simp only [this]
  · rw [hfree] at hi
    rcases List.mem_cons.mp hi with rfl | hi
    · exact (Nat.mod_le k u32Size).trans_lt hk
    · exact hsw.freeRange i hi
  · rw [hfree, hmod hs] at hi
    rw [hget]
    rcases List.mem_cons.mp hi with rfl | hi
    · simp
    · obtain ⟨hlt, hnone⟩ := hsw.free hs i hi
      exact ⟨by omega, by simp [hnone]⟩
  · rw [hfree, hmod hs, List.nodup_cons]
    refine ⟨fun hmem => ?_, hsw.nodup hs⟩
    have := (hsw.free hs k hmem).1
    omega

/-- The sweep of one slot. -/
theorem Swept.slot {s : Store} (hsw : Swept marks h k s.heap) (hk : k < h.objects.length) :
    Swept marks h (k + 1) (Store.sweepSlot marks s k).heap := by
  have hobj : s.heap.object? k = h.object? k := by
    rw [hsw.object k, if_neg (by omega)]
  unfold Store.sweepSlot
  split
  · next hnone => exact hsw.skip (.inr (hobj ▸ hnone))
  · next o ho =>
    split
    · next hm => exact hsw.skip (.inl hm)
    · next hm =>
      have hsame := sameSlots_releaseHandle s o
      exact hsw.freed hk hm (congrArg (·.set k none) hsame.objects)
        (congrArg (_ :: ·) hsame.freeList) hsame.serials hsame.owner hsame.births

theorem Store.sweep_swept (s : Store) (marks : List Bool) :
    Swept marks s.heap s.heap.objects.length (s.sweep marks).heap := by
  have hstart : Swept marks s.heap 0 { s.heap with freeList := [] } :=
    ⟨rfl, fun i => by simp [Heap.object?], by simp, by simp, by simp, rfl, rfl, rfl⟩
  have hall : ∀ k ≤ s.heap.objects.length, Swept marks s.heap k
      ((List.range k).foldl (sweepSlot marks)
        { s with heap := { s.heap with freeList := [] } }).heap := by
    intro k hk
    induction k with
    | zero => exact hstart
    | succ k ih =>
      rw [List.range_succ, List.foldl_append, List.foldl_cons, List.foldl_nil]
      exact (ih (by omega)).slot (by omega)
  exact hall _ (le_refl _)

/-- The roots of a collection, and what they reach. -/
def Heap.refSucc (h : Heap) (r : GcRef) : List GcRef :=
  match h.object? r.idx with
  | some o => o.gcRefs
  | none => []

theorem reaches_idx {roots : List GcRef} {r : GcRef} (hr : Reaches h.refSucc roots r) :
    Reaches h.succ (roots.map (·.idx)) r.idx := by
  induction hr with
  | root hr => exact .root (List.mem_map_of_mem hr)
  | step hr hj ih =>
    refine .step ih ?_
    unfold Heap.refSucc at hj
    split at hj
    · next o ho =>
      simp only [Heap.succ, ho]
      exact List.mem_map_of_mem hj
    · cases hj

/-- References reached from safe roots are safe. -/
theorem HeapOk.reaches (hok : HeapOk n h) {roots : List GcRef}
    (hroots : ∀ r ∈ roots, ValueOk n h (.heap r)) {r : GcRef} (hr : Reaches h.refSucc roots r) :
    ValueOk n h (.heap r) := by
  induction hr with
  | root hr => exact hroots _ hr
  | step hr hj ih =>
    unfold Heap.refSucc at hj
    split at hj
    · next o ho => exact hok.children _ o ho _ (mem_refsOf.mp hj)
    · cases hj

end Collect

namespace Store

variable {n : ℕ} {s s' : Store} {roots : List GcRef}

/-- What a collection does to the slots: those that are reached stay, the others are empty. -/
theorem collect_spec (h : s.collect roots = some s') :
    ∃ marks, Swept marks s.heap s.heap.objects.length s'.heap ∧
      (∀ i, Reaches s.heap.succ (roots.map (·.idx)) i → Marked marks i) ∧
      ∀ i, Marked marks i → ∀ j ∈ s.heap.succ i, Marked marks j := by
  unfold collect at h
  split at h
  · cases h
  · next marks hm =>
    obtain rfl := Option.some.inj h
    have hsw := s.sweep_swept marks
    refine ⟨marks, ⟨hsw.length, hsw.object, hsw.freeRange, hsw.free, hsw.nodup, hsw.serials,
      hsw.owner, hsw.births⟩, fun i hi => markFrom_reaches hm hi, (markFrom_spec hm).2.2⟩

/-- An object that is reached survives a collection. -/
theorem collect_object (h : s.collect roots = some s') {i : ℕ}
    (hi : Reaches s.heap.succ (roots.map (·.idx)) i) : s'.heap.object? i = s.heap.object? i := by
  obtain ⟨marks, hsw, hmarked, -⟩ := collect_spec h
  rw [hsw.object i, if_neg]
  exact fun hc => hc.2 (hmarked i hi)

theorem valueOk_collect (h : s.collect roots = some s') {v : Value} (hv : ValueOk n s.heap v)
    (hr : ∀ r, v = .heap r → Reaches s.heap.succ (roots.map (·.idx)) r.idx) :
    ValueOk n s'.heap v := by
  obtain ⟨marks, hsw, -, -⟩ := collect_spec h
  refine ⟨fun r hr' => hsw.length ▸ hv.range r hr', fun r hr' hs => ?_, hv.builtin⟩
  have hsmall : s.heap.Small := by
    unfold Heap.Small at hs ⊢
    rwa [hsw.length] at hs
  obtain ⟨hsome, howner⟩ := hv.names r hr' hsmall
  exact ⟨by rw [collect_object h (hr r hr')]; exact hsome, by rw [hsw.owner]; exact howner⟩

/-- **A collection keeps a heap safe.** -/
theorem heapOk_collect (h : s.collect roots = some s') (hok : HeapOk n s.heap) :
    HeapOk n s'.heap := by
  obtain ⟨marks, hsw, hmarked, hclosed⟩ := collect_spec h
  have hsmall : s'.heap.Small → s.heap.Small := by
    unfold Heap.Small
    rw [hsw.length]
    exact id
  have hlive : ∀ i o, s'.heap.object? i = some o → s.heap.object? i = some o ∧ Marked marks i := by
    intro i o ho
    rw [hsw.object i] at ho
    split at ho
    · cases ho
    · next hn =>
      have hlt : i < s.heap.objects.length := by
        by_contra hge
        simp [Heap.object?, List.getElem?_eq_none (Nat.le_of_not_lt hge)] at ho
      rw [not_and, not_not] at hn
      exact ⟨ho, hn hlt⟩
  refine ⟨fun i o ho v hv => ?_, fun i o ho => ?_, fun i hi => ?_, fun hs i hi => ?_, fun hs => ?_⟩
  · obtain ⟨ho, hm⟩ := hlive i o ho
    have hv' := hok.children i o ho v hv
    refine ⟨fun r hr => hsw.length ▸ hv'.range r hr, fun r hr hs => ?_, hv'.builtin⟩
    obtain ⟨hsome, howner⟩ := hv'.names r hr (hsmall hs)
    refine ⟨?_, by rw [hsw.owner]; exact howner⟩
    have hmr : Marked marks r.idx := by
      refine hclosed i hm r.idx ?_
      rw [Heap.succ, ho]
      exact List.mem_map_of_mem (mem_refsOf.mpr (hr ▸ hv))
    rw [hsw.object, if_neg fun hc => hc.2 hmr]
    exact hsome
  · rw [hsw.owner, hsw.serials, hsw.births]
    exact hok.birth i o (hlive i o ho).1
  · rw [hsw.length]
    exact hsw.freeRange i hi
  · exact (hsw.free (hsmall hs) i hi).2
  · exact hsw.nodup (hsmall hs)

/-- A collection from roots in range does not fault. -/
theorem collect_isSome (hok : HeapOk n s.heap) (hr : ∀ r ∈ roots, r.idx < s.heap.objects.length) :
    ∃ s', s.collect roots = some s' := by
  have hmark : (markFrom s.heap.succ s.heap.objects.length (roots.map (·.idx))).isSome := by
    refine markFrom_isSome ?_ fun i _ j hj => ?_
    · simpa using hr
    · unfold Heap.succ at hj
      split at hj
      · next o ho =>
        obtain ⟨r, hmem, rfl⟩ := List.mem_map.mp hj
        exact (hok.children i o ho _ (mem_refsOf.mp hmem)).range r rfl
      · cases hj
  obtain ⟨marks, hm⟩ := Option.isSome_iff_exists.mp hmark
  exact ⟨finishCollect s.heap.currentBytes (s.sweep marks), by simp only [collect, hm]⟩

end Store

/-! ## Patching a closure -/

/-- New captures keep a heap safe, if they are safe. -/
theorem HeapOk.setClosureCaptures {n : ℕ} {h h' : Heap} {r : GcRef} {captures : List Value}
    (hok : HeapOk n h) (hset : h.setClosureCaptures r captures = .ok h')
    (hc : ∀ v ∈ captures, ValueOk n h v) : h.Keeps h' ∧ HeapOk n h' := by
  unfold Heap.setClosureCaptures at hset
  split at hset
  · next protoIdx cs ho =>
    obtain rfl := Except.ok.inj hset
    have hlt : r.idx < h.objects.length := by
      by_contra hge
      simp [Heap.object?, List.getElem?_eq_none (Nat.le_of_not_lt hge)] at ho
    have hget : ∀ i, Heap.object? { h with
        objects := h.objects.set r.idx (some (.closure protoIdx captures)) } i =
        if r.idx = i then some (.closure protoIdx captures) else h.object? i :=
      fun i => getElem?_set_join hlt
    have hkeeps : h.Keeps { h with
        objects := h.objects.set r.idx (some (.closure protoIdx captures)) } := by
      refine ⟨by simp, fun _ i o hi => ?_, fun _ _ _ _ => rfl⟩
      rw [hget]
      split
      · next heq =>
        subst heq
        obtain rfl : .closure protoIdx cs = o := by simpa [ho] using hi
        exact ⟨_, rfl, .captures protoIdx cs captures⟩
      · exact ⟨o, hi, .refl o⟩
    refine ⟨hkeeps, fun i o hi v hv => ?_, fun i o hi => ?_, fun i hi => ?_, fun hs i hi => ?_,
      fun hs => hok.nodup (hkeeps.small hs)⟩
    · rw [hget] at hi
      split at hi
      · obtain rfl := Option.some.inj hi
        exact (hc v hv).keeps hkeeps
      · exact (hok.children i o hi v hv).keeps hkeeps
    · rw [hget] at hi
      split at hi
      · next heq =>
        subst heq
        obtain rfl := Option.some.inj hi
        obtain ⟨hlt, b, hb, hsame⟩ := hok.birth _ _ ho
        exact ⟨hlt, b, hb, hsame.trans (.captures protoIdx cs captures)⟩
      · exact hok.birth i o hi
    · simpa using hok.freeRange i hi
    · have hnone := hok.free (hkeeps.small hs) i hi
      rw [hget, if_neg, hnone]
      rintro rfl
      rw [ho] at hnone
      cases hnone
  · cases hset
  · cases hset

end Hiko
