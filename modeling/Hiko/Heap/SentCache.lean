import Hiko.Heap.MessageSize
import Hiko.Heap.Slots

/-!
# The cache of sent values

`serialize_shared` keeps the serialized form of each object that was sent, under the index of its
slot. The operations that free, reuse or rewrite a slot and those that change the message limit clear
the cache, so that it never serves a value that `serialize` would not give now.

## Main definitions

* `SentHeap`, `SentHeap.rememberSent`, `SentHeap.serializeShared`: the heap with its cache
* `SentOp`, `SentHeap.perform`, `SentHeap.run`: the operations on a heap, and their runs
* `SentHeap.Coherent`: what holds of the cache in every state of a run

## Main results

* `serializeShared_coherent`: in every run that needs at most 2^32 slots the cache is invisible, and
  its byte counter is exact
* `serializeShared_stale`: with one slot more it serves the value of another object
-/

namespace Hiko

open Lib MessageWalk

/-- `SENT_CACHE_MAX_BYTES`. -/
def sentCacheMaxBytes : ℕ := 16 * 1024 * 1024

/-- A heap with its message limit and the values that were sent from it. The key of an entry is the
index of its `GcRef`. -/
structure SentHeap where
  store : Store
  maxMessageBytes : ℕ
  sent : List (ℕ × SendableValue)
  sentBytes : ℕ

/-- An operation on a heap. A call of `serialize_shared` carries the fuel of its loops. -/
inductive SentOp where
  | alloc (obj : HeapObject)
  | collect (roots : List GcRef)
  | setClosureCaptures (r : GcRef) (captures : List Value)
  | setMaxMessageBytes (max : ℕ)
  | serializeShared (depth fuel : ℕ) (v : Value)

namespace SentHeap

/-- A heap that nothing was sent from. -/
def fresh (maxObjects : Option ℕ) (budgets : Budgets) (maxMessageBytes : ℕ) : SentHeap :=
  ⟨⟨.fresh maxObjects, budgets⟩, maxMessageBytes, [], 0⟩

/-- `forget_sent`. -/
def forgetSent (s : SentHeap) : SentHeap := { s with sent := [], sentBytes := 0 }

/-- `remember_sent`. -/
def rememberSent (r : GcRef) (value : SendableValue) (footprint : ℕ) (s : SentHeap) : SentHeap :=
  if sentCacheMaxBytes < footprint then s
  else
    let s := if sentCacheMaxBytes < s.sentBytes + footprint then s.forgetSent else s
    { s with
      sentBytes := s.sentBytes + footprint
      sent := (r.idx, value) :: s.sent.filter (·.1 ≠ r.idx) }

/-- `serialize_shared`: the value, and whether it was serialized now. -/
def serializeShared (depth fuel : ℕ) (v : Value) (s : SentHeap) :
    Option (Except String (SendableValue × Bool) × SentHeap) :=
  match v.ref? with
  | none => some (.ok (serializeScalar v, true), s)
  | some r =>
    match s.sent.lookup r.idx with
    | some sent => some (.ok (sent, false), s)
    | none =>
      match serialize s.store.heap s.maxMessageBytes depth fuel v with
      | none => none
      | some (.error e) => some (.error e, s)
      | some (.ok m) => some (.ok (m, true), s.rememberSent r m m.footprintUsize)

/-- An operation. A collection can fault, and `serialize_shared` need not end. -/
def perform (s : SentHeap) : SentOp → Option SentHeap
  | .alloc obj => some { s with store := (s.store.alloc obj).2 }
  | .collect roots => (s.store.collect roots).map fun store => { s.forgetSent with store := store }
  | .setClosureCaptures r captures =>
    match s.store.heap.setClosureCaptures r captures with
    | .error _ => some s
    | .ok heap => some { s.forgetSent with store := ⟨heap, s.store.budgets⟩ }
  | .setMaxMessageBytes max => some { s.forgetSent with maxMessageBytes := max }
  | .serializeShared depth fuel v => (s.serializeShared depth fuel v).map (·.2)

/-- The state after some operations. -/
def run : List SentOp → SentHeap → Option SentHeap
  | [], s => some s
  | op :: ops, s => (s.perform op).bind (run ops)

/-- The bytes of the entries. -/
def entryBytes (s : SentHeap) : ℕ := (s.sent.map (·.2.footprintUsize)).sum

/-- `serialize` gives `m` for the object in slot `i`. -/
def Sends (s : SentHeap) (i : ℕ) (m : SendableValue) : Prop :=
  ∃ t, Unfolds s.store.heap t (.heap (slotRef i)) ∧ t.Sendable ∧
    t.toMessage.Fits s.maxMessageBytes ∧ m = t.toMessage

/-- The cache holds what `serialize` gives, and counts it. -/
structure Coherent (s : SentHeap) : Prop where
  free : s.store.heap.Small → s.store.heap.FreeOk
  sends : s.store.heap.Small → ∀ e ∈ s.sent, s.Sends e.1 e.2
  bytes : s.sentBytes = s.entryBytes
  cap : s.sentBytes ≤ sentCacheMaxBytes

end SentHeap

/-! ## The free list -/

section Free

variable {h : Heap} {s s' : Store}

/-- Slots are never given back. -/
theorem alloc_slots (s : Store) (obj : HeapObject) :
    s.heap.objects.length ≤ (s.alloc obj).2.heap.objects.length := by
  rcases Store.alloc_cases s obj with ⟨e, heq⟩ | ⟨b, -, -, heq⟩
  · rw [heq]
  · rw [heq]
    change _ ≤ (s.heap.place obj).2.objects.length
    unfold Heap.place
    split <;> simp

theorem Heap.FreeOk.collect {roots : List GcRef} (hc : s.collect roots = some s')
    (hsmall : s'.heap.Small) : s'.heap.FreeOk := by
  obtain ⟨marks, hsw, -, -⟩ := Store.collect_spec hc
  have hsmall : s.heap.Small := by
    rw [Heap.Small] at hsmall ⊢
    rwa [hsw.length] at hsmall
  exact ⟨fun i hi => ⟨hsw.length ▸ hsw.freeRange i hi, (hsw.free hsmall i hi).2⟩, hsw.nodup hsmall⟩

/-- Patched captures leave the empty slots empty. -/
theorem Heap.FreeOk.setClosureCaptures {h' : Heap} {r : GcRef} {captures : List Value}
    (hfree : h.FreeOk) (heq : h.setClosureCaptures r captures = .ok h') : h'.FreeOk := by
  unfold Heap.setClosureCaptures at heq
  split at heq
  · next protoIdx old hold =>
    obtain rfl := Except.ok.inj heq
    have hlt : r.idx < h.objects.length := by
      by_contra hge
      rw [Heap.object?, List.getElem?_eq_none (Nat.not_lt.mp hge)] at hold
      cases hold
    refine ⟨fun i hi => ?_, hfree.2⟩
    obtain ⟨hi', hnone⟩ := hfree.1 i hi
    have hne : r.idx ≠ i := by
      rintro rfl
      rw [hold] at hnone
      cases hnone
    refine ⟨by simpa using hi', ?_⟩
    rw [Heap.object?, getElem?_set_join hlt, if_neg hne]
    exact hnone
  · cases heq
  · cases heq

end Free

/-! ## One operation -/

namespace SentHeap

variable {s s' : SentHeap} {op : SentOp} {ops : List SentOp}

theorem unfolds_idx {h : Heap} {t : ValueTree} {r r' : GcRef} (hidx : r'.idx = r.idx)
    (hun : Unfolds h t (.heap r)) : Unfolds h t (.heap r') := by
  cases t with
  | scalar w => exact absurd hun (not_unfolds_scalar_heap w r)
  | string str | bytes bs =>
    rw [Unfolds] at hun ⊢
    obtain ⟨r₀, hr, ho⟩ := hun
    cases hr
    exact ⟨r', rfl, by rwa [hidx]⟩
  | tuple ts | data tag ts | closure protoIdx ts =>
    rw [Unfolds] at hun ⊢
    obtain ⟨r₀, fields, hr, ho, hall⟩ := hun
    cases hr
    exact ⟨r', fields, rfl, by rwa [hidx], hall⟩

/-- Only the index of a reference counts. -/
theorem unfolds_slotRef {h : Heap} {t : ValueTree} {r : GcRef} :
    Unfolds h t (.heap (slotRef r.idx)) ↔ Unfolds h t (.heap r) := by
  have hidx : (slotRef r.idx).idx = r.idx := rfl
  exact ⟨unfolds_idx hidx.symm, unfolds_idx hidx⟩

/-- What a slot sends it sends from a heap with more objects. -/
theorem Sends.extends {i : ℕ} {m : SendableValue} (hsends : s.Sends i m)
    (hext : s.store.heap.Extends s'.store.heap) (hmax : s'.maxMessageBytes = s.maxMessageBytes) :
    s'.Sends i m := by
  obtain ⟨t, hun, hs, hfits, rfl⟩ := hsends
  exact ⟨t, hun.extends hext _ _, hs, by rwa [hmax], rfl⟩

/-- A value that was sent is one that `serialize` gives. -/
theorem Sends.of_serialize {depth fuel : ℕ} {r : GcRef} {m : SendableValue}
    (hser : serialize s.store.heap s.maxMessageBytes depth fuel (.heap r) = some (.ok m)) :
    s.Sends r.idx m := by
  obtain ⟨k, e, -, heq⟩ | ⟨t, hun, hs, hfits, heq⟩ := serialize_cases hser
  · cases heq
  · exact ⟨t, unfolds_slotRef.mpr hun, hs, hfits.resolve_left (fun hv => by cases hv),
      Except.ok.inj heq⟩

theorem Sends.serialize {r : GcRef} {m : SendableValue} (hsends : s.Sends r.idx m) :
    ∃ depth fuel,
      MessageWalk.serialize s.store.heap s.maxMessageBytes depth fuel (.heap r) = some (.ok m) := by
  obtain ⟨t, hun, hs, hfits, rfl⟩ := hsends
  exact serialize_of_tree (unfolds_slotRef.mp hun) hs (.inr hfits)

/-- A cache without entries is coherent. -/
theorem coherent_forgotten (hsent : s.sent = []) (hbytes : s.sentBytes = 0)
    (hfree : s.store.heap.Small → s.store.heap.FreeOk) : s.Coherent := by
  refine ⟨hfree, fun _ e he => ?_, ?_, ?_⟩
  · rw [hsent] at he
    cases he
  · rw [hbytes, entryBytes, hsent]
    rfl
  · rw [hbytes]
    exact Nat.zero_le _

theorem Coherent.forgetSent (hc : s.Coherent) : s.forgetSent.Coherent :=
  coherent_forgotten rfl rfl hc.free

/-- The entry of a value that is sent for the first time. -/
theorem Coherent.rememberSent {r : GcRef} {m : SendableValue} (hc : s.Coherent)
    (hnew : s.sent.lookup r.idx = none) (hsends : s.Sends r.idx m) :
    (s.rememberSent r m m.footprintUsize).Coherent := by
  -- an entry that fits next to the others
  have hadd : ∀ u : SentHeap, u.Coherent → u.store = s.store →
      u.maxMessageBytes = s.maxMessageBytes → u.sent.lookup r.idx = none →
      u.sentBytes + m.footprintUsize ≤ sentCacheMaxBytes →
      SentHeap.Coherent { u with
        sentBytes := u.sentBytes + m.footprintUsize
        sent := (r.idx, m) :: u.sent.filter (·.1 ≠ r.idx) } := by
    intro u hu hstore hmax hnone hfits
    have hkeep : u.sent.filter (·.1 ≠ r.idx) = u.sent := by
      rw [List.filter_eq_self]
      intro e he
      have hne : r.idx ≠ e.1 := by simpa using List.lookup_eq_none_iff.mp hnone e he
      exact decide_eq_true hne.symm
    rw [hkeep]
    refine ⟨hu.free, fun hsmall e he => ?_, ?_, hfits⟩
    · rcases List.mem_cons.mp he with rfl | he
      · obtain ⟨t, hun, hs, hfit, rfl⟩ := hsends
        exact ⟨t, by simpa only [hstore] using hun, hs, by simpa only [hmax] using hfit, rfl⟩
      · exact hu.sends hsmall e he
    · rw [entryBytes, List.map_cons, List.sum_cons, hu.bytes, Nat.add_comm]
      rfl
  unfold SentHeap.rememberSent
  split
  · -- a message over the cap alone is not kept
    exact hc
  · next hle =>
    dsimp only
    split
    · -- the new entry would pass the cap: the others are forgotten first
      exact hadd _ hc.forgetSent rfl rfl rfl (by simpa [SentHeap.forgetSent] using hle)
    · next hfits => exact hadd s hc rfl rfl hnew (Nat.not_lt.mp hfits)

/-- **Every operation keeps the cache coherent.** -/
theorem Coherent.perform (hc : s.Coherent) (h : s.perform op = some s') : s'.Coherent := by
  cases op with
  | alloc obj =>
    obtain rfl := Option.some.inj h
    have hsmall : (s.store.alloc obj).2.heap.Small → s.store.heap.Small :=
      (alloc_slots s.store obj).trans
    refine ⟨fun hs => ((hc.free (hsmall hs)).alloc obj).1, fun hs e he => ?_, hc.bytes, hc.cap⟩
    exact (hc.sends (hsmall hs) e he).extends ((hc.free (hsmall hs)).alloc obj).2 rfl
  | collect roots =>
    -- a freed slot may be used again, so the sweep forgets all entries
    obtain ⟨store, hstore, rfl⟩ := Option.map_eq_some_iff.mp h
    exact coherent_forgotten rfl rfl (Heap.FreeOk.collect hstore)
  | setClosureCaptures r captures =>
    -- the one write to an object that is there already
    rw [SentHeap.perform] at h
    split at h
    · obtain rfl := Option.some.inj h
      exact hc
    · next heap heq =>
      obtain rfl := Option.some.inj h
      refine coherent_forgotten rfl rfl fun hsmall => (hc.free ?_).setClosureCaptures heq
      unfold Heap.setClosureCaptures at heq
      split at heq
      · obtain rfl := Except.ok.inj heq
        simpa [Heap.Small] using hsmall
      · cases heq
      · cases heq
  | setMaxMessageBytes max =>
    obtain rfl := Option.some.inj h
    exact coherent_forgotten rfl rfl hc.free
  | serializeShared depth fuel v =>
    obtain ⟨⟨res, u⟩, hser, rfl⟩ := Option.map_eq_some_iff.mp h
    unfold SentHeap.serializeShared at hser
    split at hser
    · cases hser
      exact hc
    · next r hr =>
      split at hser
      · cases hser
        exact hc
      · next hnone =>
        obtain rfl := Value.ref?_eq_some.mp hr
        split at hser
        · cases hser
        · cases hser
          exact hc
        · next m hm =>
          cases hser
          exact hc.rememberSent hnone (.of_serialize hm)

theorem Coherent.run (hc : s.Coherent) (h : s.run ops = some s') : s'.Coherent := by
  induction ops generalizing s with
  | nil =>
    cases h
    exact hc
  | cons op ops ih =>
    obtain ⟨t, hop, hrest⟩ := Option.bind_eq_some_iff.mp h
    exact ih (hc.perform hop) hrest

/-! ## The values that are sent -/

/-- `serialize` gives one result, whatever the fuel of its loops. -/
theorem serialize_unique {h : Heap} {maxBytes depth fuel depth' fuel' : ℕ} {v : Value}
    {res res' : Except String SendableValue}
    (hser : serialize h maxBytes depth fuel v = some res)
    (hser' : serialize h maxBytes depth' fuel' v = some res') : res = res' := by
  -- a value that has a tree within the limits is measured without an error
  have hnot : ∀ {k : ℕ} {e : String} {t : ValueTree}, h.measure maxBytes k v = some (.error e) →
      Unfolds h t v → t.Sendable → ¬ (v.ref? = none ∨ t.toMessage.Fits maxBytes) := by
    intro k e t he hun hs hfits
    obtain ⟨k', size, hsize⟩ := passes_iff.mp ⟨t, hun, hs, hfits⟩
    cases measure_unique he hsize
  obtain ⟨k, e, he, rfl⟩ | ⟨t, hun, hs, hfits, rfl⟩ := serialize_cases hser
  · obtain ⟨k', e', he', rfl⟩ | ⟨t, hun, hs, hfits, -⟩ := serialize_cases hser'
    · exact congrArg Except.error (Except.error.inj (measure_unique he he'))
    · exact absurd hfits (hnot he hun hs)
  · obtain ⟨k', e', he', -⟩ | ⟨t', hun', -, -, rfl⟩ := serialize_cases hser'
    · exact absurd hfits (hnot he' hun hs)
    · rw [unfolds_unique t t' v hun hun']

/-- `serialize_shared` can give `res` for `v`. -/
def Shares (s : SentHeap) (v : Value) (res : Except String SendableValue) : Prop :=
  ∃ depth fuel got, s.serializeShared depth fuel v = some got ∧ got.1.map Prod.fst = res

/-- `serialize` can give `res` for `v`. -/
def Serializes (s : SentHeap) (v : Value) (res : Except String SendableValue) : Prop :=
  ∃ depth fuel, serialize s.store.heap s.maxMessageBytes depth fuel v = some res

/-- A scalar is sent as it is. -/
theorem serializes_scalar {v : Value} (hv : v.ref? = none) :
    s.Serializes v (.ok (serializeScalar v)) := by
  have hun : Unfolds s.store.heap (.scalar v) v := by
    rw [Unfolds]
    exact ⟨rfl, hv⟩
  obtain ⟨depth, fuel, hser⟩ : s.Serializes v (.ok (ValueTree.scalar v).toMessage) :=
    serialize_of_tree hun (by simp [ValueTree.Sendable]) (.inl hv)
  rw [ValueTree.toMessage] at hser
  exact ⟨depth, fuel, hser⟩

/-- The cache is invisible in a coherent state. -/
theorem Coherent.shares_iff (hc : s.Coherent) (hsmall : s.store.heap.Small) {v : Value}
    {res : Except String SendableValue} : s.Shares v res ↔ s.Serializes v res := by
  constructor
  · rintro ⟨depth, fuel, ⟨got, u⟩, hshared, rfl⟩
    unfold SentHeap.serializeShared at hshared
    split at hshared
    · next hv =>
      cases hshared
      exact serializes_scalar hv
    · next r hr =>
      obtain rfl := Value.ref?_eq_some.mp hr
      split at hshared
      · next m hm =>
        -- a hit: the entry is what a walk over the objects of now gives
        cases hshared
        obtain ⟨l, l', hsent, -⟩ := List.lookup_eq_some_iff.mp hm
        exact (hc.sends hsmall (r.idx, m) (by simp [hsent])).serialize
      · split at hshared
        · cases hshared
        · next e he =>
          cases hshared
          exact ⟨depth, fuel, he⟩
        · next m hm =>
          cases hshared
          exact ⟨depth, fuel, hm⟩
  · rintro ⟨depth, fuel, hser⟩
    cases hv : v.ref? with
    | none =>
      obtain ⟨depth', fuel', hser'⟩ := serializes_scalar (s := s) hv
      refine ⟨depth, fuel, _, by rw [SentHeap.serializeShared, hv], ?_⟩
      exact serialize_unique hser' hser
    | some r =>
      obtain rfl := Value.ref?_eq_some.mp hv
      cases hlook : s.sent.lookup r.idx with
      | some m =>
        obtain ⟨l, l', hsent, -⟩ := List.lookup_eq_some_iff.mp hlook
        obtain ⟨depth', fuel', hser'⟩ :=
          (hc.sends hsmall (r.idx, m) (by simp [hsent])).serialize
        refine ⟨depth, fuel, (.ok (m, false), s), ?_, ?_⟩
        · rw [SentHeap.serializeShared, hv]
          simp [hlook]
        exact serialize_unique hser' hser
      | none =>
        cases res with
        | error e =>
          refine ⟨depth, fuel, (.error e, s), ?_, rfl⟩
          simp only [SentHeap.serializeShared, hv, hlook, hser]
        | ok m =>
          refine ⟨depth, fuel, (.ok (m, true), s.rememberSent r m m.footprintUsize), ?_, rfl⟩
          simp only [SentHeap.serializeShared, hv, hlook, hser]

theorem coherent_fresh (maxObjects : Option ℕ) (budgets : Budgets) (maxMessageBytes : ℕ) :
    (fresh maxObjects budgets maxMessageBytes).Coherent := by
  refine coherent_forgotten rfl rfl fun _ => ⟨fun i hi => ?_, List.nodup_nil⟩
  cases hi

/-- **The cache is invisible and its byte counter exact**, after every run that needs at most `2^32`
slots. -/
theorem serializeShared_coherent (maxObjects : Option ℕ) (budgets : Budgets) (maxMessageBytes : ℕ)
    (ops : List SentOp) (s : SentHeap)
    (hrun : run ops (fresh maxObjects budgets maxMessageBytes) = some s)
    (hslots : s.store.heap.objects.length ≤ u32Size) :
    (∀ v res, s.Shares v res ↔ s.Serializes v res) ∧
      s.sentBytes = s.entryBytes ∧ s.sentBytes ≤ sentCacheMaxBytes := by
  have hc := (coherent_fresh maxObjects budgets maxMessageBytes).run hrun
  exact ⟨fun v res => hc.shares_iff hslots, hc.bytes, hc.cap⟩

theorem serializeShared_coherent_cached :
    ∃ s, run [.alloc (.closure 3 []), .serializeShared 2 9 (.heap ⟨0, 0⟩), .alloc (.closure 4 [])]
        (fresh none .unlimited 1000) = some s ∧
      (∀ v res, s.Shares v res ↔ s.Serializes v res) ∧
        s.sentBytes = s.entryBytes ∧ s.sentBytes ≤ sentCacheMaxBytes :=
  ⟨_, rfl, serializeShared_coherent none .unlimited 1000
    [.alloc (.closure 3 []), .serializeShared 2 9 (.heap ⟨0, 0⟩), .alloc (.closure 4 [])] _ rfl
    (by decide)⟩

/-! ## One slot too many -/

/-- No limit stops an allocation. -/
def Roomy (s : SentHeap) : Prop :=
  s.store.heap.maxObjects = none ∧ s.store.budgets.memory = none

/-- An allocation takes a slot, and the limits stay away. -/
theorem Roomy.alloc (hroomy : s.Roomy) (obj : HeapObject) :
    SentHeap.Roomy { s with store := (s.store.alloc obj).2 } ∧
      (s.store.alloc obj).2.heap.objects = (s.store.heap.place obj).2.objects ∧
      (s.store.alloc obj).2.heap.freeList = (s.store.heap.place obj).2.freeList := by
  obtain ⟨hmax, hmemory⟩ := hroomy
  have hobjects : s.store.checkObjects = .ok () := by rw [Store.checkObjects, hmax]
  have hcharge : s.store.chargeMemory obj.estimatedBytes = .ok s.store.budgets := by
    rw [Store.chargeMemory, hmemory]
  have halloc : (s.store.alloc obj).2 = ⟨{ (s.store.heap.place obj).2 with
      allocSinceGc := (s.store.heap.place obj).2.allocSinceGc + 1
      currentBytes := min ((s.store.heap.place obj).2.currentBytes + obj.estimatedBytes)
        (u64Size - 1) }, s.store.budgets⟩ := by
    rw [Store.alloc, hobjects]
    simp only [hcharge]
  have hplace : (s.store.heap.place obj).2.maxObjects = none := by
    unfold Heap.place
    split <;> exact hmax
  rw [halloc]
  exact ⟨⟨hplace, hmemory⟩, rfl, rfl⟩

/-- The state after `n` new slots. -/
theorem run_allocs (obj : HeapObject) : ∀ (n : ℕ) (s : SentHeap), s.Roomy →
    s.store.heap.freeList = [] → ∃ s',
      (∀ ops, run (List.replicate n (.alloc obj) ++ ops) s = run ops s') ∧ s'.Roomy ∧
      s'.store.heap.objects = s.store.heap.objects ++ List.replicate n (some obj) ∧
      s'.maxMessageBytes = s.maxMessageBytes
  | 0, s, hroomy, _ => ⟨s, fun _ => rfl, hroomy, by simp, rfl⟩
  | n + 1, s, hroomy, hnil => by
    obtain ⟨hroomy', hobjects, hfree⟩ := hroomy.alloc obj
    have hplaced : (s.store.heap.place obj).2.objects = s.store.heap.objects ++ [some obj] ∧
        (s.store.heap.place obj).2.freeList = [] := by
      rw [Heap.place, hnil]
      exact ⟨rfl, hnil⟩
    obtain ⟨s', hrun, hroomy'', hall, hmax⟩ := run_allocs obj n _ hroomy' (hfree.trans hplaced.2)
    refine ⟨s', fun ops => ?_, hroomy'', ?_, hmax⟩
    · rw [List.replicate_succ, List.cons_append, run]
      exact hrun ops
    · rw [hall]
      change (s.store.alloc obj).2.heap.objects ++ _ = _
      rw [hobjects, hplaced.1, List.append_assoc, List.replicate_succ]
      rfl

/-- A sweep leaves the limits alone. -/
theorem sweep_roomy (s : Store) (marks : List Bool) (hmax : s.heap.maxObjects = none)
    (hmemory : s.budgets.memory = none) :
    (s.sweep marks).heap.maxObjects = none ∧ (s.sweep marks).budgets.memory = none := by
  have hhandle : ∀ (t : Store) (o : HeapObject),
      (t.releaseHandle o).heap.maxObjects = t.heap.maxObjects ∧
        (t.releaseHandle o).budgets.memory = t.budgets.memory := by
    intro t o
    unfold Store.releaseHandle
    split
    · split <;> exact ⟨rfl, rfl⟩
    · exact ⟨rfl, rfl⟩
  have hslot : ∀ (l : List ℕ) (t : Store), t.heap.maxObjects = none ∧ t.budgets.memory = none →
      (l.foldl (Store.sweepSlot marks) t).heap.maxObjects = none ∧
        (l.foldl (Store.sweepSlot marks) t).budgets.memory = none := by
    intro l
    induction l with
    | nil => exact fun t ht => ht
    | cons i l ih =>
      intro t ht
      refine ih _ ?_
      unfold Store.sweepSlot
      split
      · exact ht
      · split
        · exact ht
        · exact ⟨(hhandle _ _).1.trans ht.1, (hhandle _ _).2.trans ht.2⟩
  exact hslot _ _ ⟨hmax, hmemory⟩

/-- The sweep of `2^32 + 1` strings that keeps the first one: the last slot freed is the slot `2^32`,
and the free list calls it `0`. -/
theorem collect_wraps {s : Store} {obj : HeapObject}
    (hobjects : s.heap.objects = List.replicate (u32Size + 1) (some obj))
    (hleaf : obj.gcRefs = []) (hmax : s.heap.maxObjects = none)
    (hmemory : s.budgets.memory = none) :
    ∃ s' rest, s.collect [⟨0, 0⟩] = some s' ∧ s'.heap.object? 0 = some obj ∧
      s'.heap.freeList = 0 :: rest ∧ 0 < s'.heap.objects.length ∧ s'.heap.maxObjects = none ∧
      s'.budgets.memory = none := by
  have hlength : s.heap.objects.length = u32Size + 1 := by rw [hobjects, List.length_replicate]
  have hobject : ∀ i, i ≤ u32Size → s.heap.object? i = some obj := by
    intro i hi
    rw [Heap.object?, hobjects, List.getElem?_replicate, if_pos (Nat.lt_succ_of_le hi)]
    rfl
  have hpos : 0 < u32Size := by rw [u32Size]; exact Nat.two_pow_pos 32
  set marks := (List.replicate (u32Size + 1) false).set 0 true with hmarks
  have hmark : markFrom s.heap.succ s.heap.objects.length [0] = some marks := by
    have hroot : (List.replicate (u32Size + 1) false)[0]? = some false := by
      rw [List.getElem?_replicate, if_pos (Nat.succ_pos u32Size)]
    have hsucc : s.heap.succ 0 = [] := by
      rw [Heap.succ, hobject 0 (Nat.zero_le u32Size)]
      simp [hleaf]
    rw [hlength, markFrom, markAll, hroot]
    dsimp only
    rw [markAll]
    dsimp only
    rw [trace, hsucc]
    simp [markAll, trace, hmarks]
  have hswept := s.sweep_swept marks
  have hmarked : ∀ i, marks[i]? = some true ↔ i = 0 := by
    intro i
    rw [hmarks, List.getElem?_set, List.getElem?_replicate]
    by_cases hi : 0 = i
    · subst hi
      simp
    · simp only [if_neg hi]
      refine ⟨fun h => ?_, fun h => absurd h.symm hi⟩
      split at h <;> cases h
  have hfree : (s.sweep marks).heap.freeList = 0 :: ((((List.range u32Size).filter
      (s.heap.frees marks)).map (· % u32Size)).reverse) := by
    have hlast : s.heap.frees marks u32Size = true := by
      rw [Heap.frees, hobject u32Size le_rfl]
      have : marks[u32Size]? ≠ some true := fun h => hpos.ne' ((hmarked u32Size).mp h)
      simp [this]
    rw [Store.sweep_freeList, hlength, List.range_succ, List.filter_append, List.map_append,
      List.reverse_append]
    simp [hlast]
  obtain ⟨hmax', hmemory'⟩ := sweep_roomy s marks hmax hmemory
  refine ⟨Store.finishCollect s.heap.currentBytes (s.sweep marks), _, ?_, ?_, hfree, ?_, hmax', ?_⟩
  · rw [Store.collect, List.map_cons, List.map_nil, hmark]
  · change (s.sweep marks).heap.object? 0 = _
    rw [hswept.object 0, if_neg (fun h => h.2 ((hmarked 0).mpr rfl)), hobject 0 (Nat.zero_le _)]
  · change 0 < (s.sweep marks).heap.objects.length
    rw [hswept.length, hlength]
    exact Nat.succ_pos u32Size
  · change ((s.sweep marks).budgets.refundMemory _).memory = none
    rw [Budgets.refundMemory, hmemory']
    rfl

/-- After `2^32 + 1` allocations, a collection, a call of `serialize_shared` and one more allocation,
the cache serves the string that was in the slot before. -/
theorem serializeShared_stale :
    ∃ depth fuel s, run (List.replicate (u32Size + 1) (.alloc (.string "")) ++
        [.collect [⟨0, 0⟩], .serializeShared depth fuel (.heap ⟨0, 0⟩), .alloc (.string "a")])
        (fresh none .unlimited 1000) = some s ∧
      s.Shares (.heap ⟨0, 0⟩) (.ok (.string "")) ∧
      ¬ s.Serializes (.heap ⟨0, 0⟩) (.ok (.string "")) := by
  have hunfolds : ∀ {h : Heap} {str : String}, h.object? 0 = some (.string str) →
      Unfolds h (.string str) (.heap ⟨0, 0⟩) := by
    intro h str ho
    rw [Unfolds]
    exact ⟨⟨0, 0⟩, rfl, ho⟩
  -- the full heap, and its collection
  obtain ⟨s₁, hrun₁, hroomy₁, hobjects₁, hmax₁⟩ := run_allocs (.string "") (u32Size + 1)
    (fresh none .unlimited 1000) ⟨rfl, rfl⟩ rfl
  obtain ⟨store, rest, hcollect, hfirst, hlist, hpos, hlimits⟩ :=
    collect_wraps hobjects₁ rfl hroomy₁.1 hroomy₁.2
  set s₂ : SentHeap := { s₁.forgetSent with store := store } with hs₂
  -- the value of slot 0 is cached
  have hfits : (SendableValue.string "").Fits s₂.maxMessageBytes := by
    change (SendableValue.string "").Fits s₁.maxMessageBytes
    rw [hmax₁]
    exact ⟨by decide, by decide⟩
  obtain ⟨depth, fuel, hser⟩ : ∃ depth fuel,
      serialize s₂.store.heap s₂.maxMessageBytes depth fuel (.heap ⟨0, 0⟩) =
        some (.ok (ValueTree.string "").toMessage) :=
    serialize_of_tree (hunfolds hfirst) (by simp [ValueTree.Sendable]) (.inr hfits)
  rw [ValueTree.toMessage] at hser
  set s₃ := s₂.rememberSent ⟨0, 0⟩ (.string "") (SendableValue.string "").footprintUsize with hs₃
  have hs₃ : s₃ = { s₂ with
      sentBytes := (SendableValue.string "").footprintUsize
      sent := [(0, .string "")] } := by
    have hcap : ¬ sentCacheMaxBytes < 0 + (SendableValue.string "").footprintUsize := by decide
    rw [hs₃, rememberSent, if_neg (by decide)]
    exact if_neg hcap ▸ rfl
  -- the next string takes the slot
  have hroomy₃ : s₃.Roomy := by rw [hs₃]; exact hlimits
  obtain ⟨-, hobjects₄, -⟩ := hroomy₃.alloc (.string "a")
  set s₄ : SentHeap := { s₃ with store := (s₃.store.alloc (.string "a")).2 }
  have hsent : s₄.sent = [(0, .string "")] := by
    change s₃.sent = _
    rw [hs₃]
  refine ⟨depth, fuel, s₄, ?_, ?_, ?_⟩
  · rw [hrun₁, run, perform, hcollect]
    change (s₂.perform (.serializeShared depth fuel (.heap ⟨0, 0⟩))).bind _ = _
    have hshared : s₂.serializeShared depth fuel (.heap ⟨0, 0⟩) =
        some (.ok (.string "", true), s₃) := by
      simp only [serializeShared, Value.ref?]
      rw [hser]
      rfl
    rw [perform, hshared]
    rfl
  · refine ⟨0, 0, (.ok (.string "", false), s₄), ?_, rfl⟩
    simp only [serializeShared, Value.ref?, hsent]
    rfl
  · rintro ⟨depth', fuel', hser'⟩
    have hobject₄ : (s₃.store.alloc (.string "a")).2.heap.object? 0 = some (.string "a") := by
      have hfree : s₃.store.heap.freeList = 0 :: rest := by rw [hs₃]; exact hlist
      have hlt : 0 < s₃.store.heap.objects.length := by rw [hs₃]; exact hpos
      rw [Heap.object?, hobjects₄, Heap.place, hfree]
      simp [hlt]
    obtain ⟨k, e, -, heq⟩ | ⟨t, hun, -, -, heq⟩ := serialize_cases hser'
    · cases heq
    · obtain rfl := unfolds_unique _ _ _ hun (hunfolds hobject₄)
      rw [ValueTree.toMessage] at heq
      exact absurd heq (by simp)

end SentHeap

end Hiko
