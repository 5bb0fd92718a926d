import Mathlib.Tactic
import Hiko.Heap.Safety

/-!
# Accounting in a process tree

The heaps of a process tree charge budgets they share: the bytes of their objects, and their live
host resources, in total and by kind. An operation of one heap changes its own tables and the
budgets; the other heaps are an amount that stays. `Budgets.Covers o b` says that the budgets `b`
have charged exactly the amounts `o`, and `Heap.Accounts h` that the tables of a heap count what
is in it. Together they say that the budgets have charged what is in the heaps of the tree.

A slot is numbered by a `u32`, and bytes and handles are counted by a `u64`: the result is for
runs that stay within these (`Heap.Roomy`).

## Main definitions

* `Heap.Accounts`, `Budgets.Covers`: a heap counts what it holds, budgets have charged it
* `Tree`, `Tree.Step`, `Tree.Reachable`: the heaps of a tree and what they do

## Main results

* `Tree.Reachable.accounts`: the budgets have charged what the heaps hold
* `allocHostResource_error`: what a failed allocation leaves behind
-/

namespace Hiko

open Lib

/-! ## Amounts -/

/-- What some heaps hold: bytes, resources, and resources by kind name. -/
structure Amounts where
  bytes : ℕ
  resources : ℕ
  kinds : String → ℕ

namespace Amounts

/-- So many bytes more. -/
def addBytes (o : Amounts) (k : ℕ) : Amounts := { o with bytes := o.bytes + k }

/-- So many resources more, in the total. -/
def addResources (o : Amounts) (k : ℕ) : Amounts := { o with resources := o.resources + k }

/-- So many resources more of each kind. -/
def addKinds (o : Amounts) (k : String → ℕ) : Amounts :=
  { o with kinds := fun name => o.kinds name + k name }

end Amounts

/-- `k` of one kind name. -/
def ofKind (name : String) (k : ℕ) : String → ℕ := fun n => if n = name then k else 0

/-- A budget has charged exactly an amount, within its limit. -/
def SharedBudget.Charged (b : SharedBudget) (amount : ℕ) : Prop :=
  b.used = amount ∧ b.used ≤ b.limit

theorem SharedBudget.Charged.tryCharge {b b' : SharedBudget} {amount k : ℕ}
    (h : b.Charged amount) (hb : b.tryCharge k = .ok b') : b'.Charged (amount + k) := by
  obtain ⟨rfl, -, hle⟩ := SharedBudget.tryCharge_ok hb
  exact ⟨by rw [h.1], hle⟩

theorem SharedBudget.Charged.refund {b : SharedBudget} {amount k : ℕ}
    (h : b.Charged (amount + k)) : (b.refund k).Charged amount := by
  obtain ⟨hused, hle⟩ := h
  constructor
  · rw [SharedBudget.refund_used, hused]
    omega
  · rw [SharedBudget.refund_used, SharedBudget.refund_limit]
    omega

/-- A charge that is taken back leaves the budget as it was. -/
theorem SharedBudget.refund_tryCharge {b b' : SharedBudget} {k : ℕ}
    (hb : b.tryCharge k = .ok b') : b'.refund k = b := by
  obtain ⟨rfl, -, -⟩ := SharedBudget.tryCharge_ok hb
  unfold SharedBudget.refund
  split
  · next h => simp [h]
  · simp

/-- The budgets have charged exactly the amounts `o`. -/
structure Budgets.Covers (o : Amounts) (b : Budgets) : Prop where
  memory : ∀ m, b.memory = some m → m.Charged o.bytes
  hostResource : ∀ m, b.hostResource = some m → m.Charged o.resources
  kinds : ∀ name m, (name, m) ∈ b.hostResourceKind → m.Charged (o.kinds name)
  keys : (b.hostResourceKind.map (·.1)).Nodup

section Covers

variable {o : Amounts} {b b' : Budgets} {s : Store} {k : ℕ}

theorem mem_updateKind {name : String} {f : SharedBudget → SharedBudget} {n : String}
    {m : SharedBudget} (h : (n, m) ∈ (b.updateKind name f).hostResourceKind) :
    ∃ m₀, (n, m₀) ∈ b.hostResourceKind ∧ m = if n = name then f m₀ else m₀ := by
  obtain ⟨⟨n₀, m₀⟩, hmem, heq⟩ := List.mem_map.mp h
  dsimp only at heq
  split at heq
  · next hn =>
    obtain ⟨rfl, rfl⟩ := Prod.mk.inj heq
    exact ⟨m₀, hmem, by simp [hn]⟩
  · next hn =>
    obtain ⟨rfl, rfl⟩ := Prod.mk.inj heq
    exact ⟨m₀, hmem, by simp [hn]⟩

theorem keys_updateKind (b : Budgets) (name : String) (f : SharedBudget → SharedBudget) :
    (b.updateKind name f).hostResourceKind.map (·.1) = b.hostResourceKind.map (·.1) := by
  simp only [Budgets.updateKind, List.map_map]
  refine List.map_congr_left fun e _ => ?_
  simp only [Function.comp_apply]
  split <;> rfl

/-- The budget of a kind name is the entry of that name. -/
theorem kindBudget_eq_some {name : String} {m : SharedBudget}
    (h : b.kindBudget name = some m) : (name, m) ∈ b.hostResourceKind := by
  obtain ⟨l₁, l₂, hl, -⟩ := List.lookup_eq_some_iff.mp h
  rw [hl]
  exact List.mem_append_right _ List.mem_cons_self

/-- With unique names there is one budget to a name. -/
theorem Budgets.Covers.unique (hc : b.Covers o) {name : String} {m m' : SharedBudget}
    (h : (name, m) ∈ b.hostResourceKind) (h' : (name, m') ∈ b.hostResourceKind) : m = m' := by
  have := List.inj_on_of_nodup_map hc.keys h h' rfl
  exact (Prod.mk.inj this).2

theorem Budgets.Covers.chargeMemory (hc : s.budgets.Covers o)
    (h : s.chargeMemory k = .ok b') : b'.Covers (o.addBytes k) := by
  unfold Store.chargeMemory at h
  split at h
  · next hnone =>
    obtain rfl := Except.ok.inj h
    exact ⟨fun m hm => absurd hm (by simp [hnone]), hc.hostResource, hc.kinds, hc.keys⟩
  · next m hsome =>
    split at h
    · next m' hm' =>
      obtain rfl := Except.ok.inj h
      refine ⟨?_, hc.hostResource, hc.kinds, hc.keys⟩
      rintro _ ⟨⟩
      exact (hc.memory m hsome).tryCharge hm'
    · cases h

theorem Budgets.Covers.refundMemory (hc : b.Covers (o.addBytes k)) :
    (b.refundMemory k).Covers o := by
  refine ⟨fun m hm => ?_, hc.hostResource, hc.kinds, hc.keys⟩
  obtain ⟨m₀, hm₀, rfl⟩ := Option.map_eq_some_iff.mp hm
  exact (hc.memory m₀ hm₀).refund

theorem Budgets.Covers.chargeHostResource (hc : s.budgets.Covers o)
    (h : s.chargeHostResource = .ok b') : b'.Covers (o.addResources 1) := by
  unfold Store.chargeHostResource at h
  split at h
  · next hnone =>
    obtain rfl := Except.ok.inj h
    exact ⟨hc.memory, fun m hm => absurd hm (by simp [hnone]), hc.kinds, hc.keys⟩
  · next m hsome =>
    split at h
    · next m' hm' =>
      obtain rfl := Except.ok.inj h
      refine ⟨hc.memory, ?_, hc.kinds, hc.keys⟩
      rintro _ ⟨⟩
      exact (hc.hostResource m hsome).tryCharge hm'
    · cases h

theorem Budgets.Covers.refundHostResource (hc : b.Covers (o.addResources k)) :
    (b.refundHostResource k).Covers o := by
  refine ⟨hc.memory, fun m hm => ?_, hc.kinds, hc.keys⟩
  obtain ⟨m₀, hm₀, rfl⟩ := Option.map_eq_some_iff.mp hm
  exact (hc.hostResource m₀ hm₀).refund

theorem Budgets.Covers.chargeKind (hc : b.Covers o) {name : String}
    (h : b.chargeKind name = .ok b') : b'.Covers (o.addKinds (ofKind name 1)) := by
  unfold Budgets.chargeKind at h
  split at h
  · next hnone =>
    obtain rfl := Except.ok.inj h
    refine ⟨hc.memory, hc.hostResource, fun n m hm => ?_, hc.keys⟩
    have hne : n ≠ name := by
      rintro rfl
      exact absurd (List.lookup_eq_none_iff.mp hnone (n, m) hm) (by simp)
    simpa [Amounts.addKinds, ofKind, hne] using hc.kinds n m hm
  · next k hk =>
    split at h
    · next k' hk' =>
      obtain rfl := Except.ok.inj h
      refine ⟨hc.memory, hc.hostResource, fun n m hm => ?_, by rw [keys_updateKind]; exact hc.keys⟩
      obtain ⟨m₀, hm₀, rfl⟩ := mem_updateKind hm
      by_cases hn : n = name
      · subst hn
        have hcharged := (hc.kinds n k (kindBudget_eq_some hk)).tryCharge hk'
        simpa [Amounts.addKinds, ofKind] using hcharged
      · simpa [Amounts.addKinds, ofKind, hn] using hc.kinds n m₀ hm₀
    · cases h

theorem Budgets.Covers.refundKind {name : String} (hc : b.Covers (o.addKinds (ofKind name k))) :
    (b.updateKind name (·.refund k)).Covers o := by
  refine ⟨hc.memory, hc.hostResource, fun n m hm => ?_, by rw [keys_updateKind]; exact hc.keys⟩
  obtain ⟨m₀, hm₀, rfl⟩ := mem_updateKind hm
  have hcharged := hc.kinds n m₀ hm₀
  by_cases hn : n = name
  · subst hn
    rw [if_pos rfl]
    refine SharedBudget.Charged.refund ?_
    simpa [Amounts.addKinds, ofKind] using hcharged
  · simpa [Amounts.addKinds, ofKind, hn] using hcharged

theorem Budgets.Covers.releaseHostResource {kind : HostHandleKind}
    (hc : b.Covers ((o.addResources 1).addKinds (ofKind (hostHandleKindName kind) 1))) :
    (b.releaseHostResource kind).Covers o :=
  Budgets.Covers.refundKind (Budgets.Covers.refundHostResource hc)

end Covers

/-! ## The tables of a heap -/

/-- The bytes a slot counts for. -/
def slotBytes (o : Option HeapObject) : ℕ := (o.map (·.estimatedBytes)).getD 0

namespace Heap

variable (h : Heap)

/-- The object sizes of the live slots. -/
def liveBytes : ℕ := (h.objects.map slotBytes).sum

/-- The live resources of a kind name. -/
def resourcesOf (name : String) : ℕ :=
  h.hostResources.countP fun e => hostHandleKindName e.2.kind = name

/-- A handle with this kind and number is one that was given out, for a resource of that kind. -/
def Issued (kind : HostHandleKind) (id : ℕ) : Prop :=
  id < h.nextHostHandleId ∧ ∀ r, (id, r) ∈ h.hostResources → r.kind = kind

/-- The tables of a heap count what is in it. -/
structure Accounts : Prop where
  sizes : h.objectBytes = h.objects.map slotBytes
  bytes : h.currentBytes = h.liveBytes
  free : ∀ i ∈ h.freeList, h.objects[i]? = some none
  nodup : h.freeList.Nodup
  ids : ∀ e ∈ h.hostResources, e.1 < h.nextHostHandleId
  unique : (h.hostResources.map (·.1)).Nodup
  byKind : ∀ P : HostHandleKind → Bool,
    h.hostResourcesByKind.total P = h.hostResources.countP fun e => P e.2.kind
  handles : ∀ i kind id, h.object? i = some (.hostHandle kind id) → h.Issued kind id

/-- The slots, the bytes and the handles are within the machine's numbers. -/
structure Roomy : Prop where
  slots : h.objects.length ≤ u32Size
  bytes : h.liveBytes < u64Size
  ids : h.nextHostHandleId < u64Size - 1

end Heap

/-- The amounts `o`, and what a heap holds, with `bytes` of them. -/
def Amounts.addHeap (o : Amounts) (bytes : ℕ) (h : Heap) : Amounts :=
  ⟨o.bytes + bytes, o.resources + h.hostResources.length,
    fun name => o.kinds name + h.resourcesOf name⟩

section Sums

variable {α : Type} {f : α → ℕ} {l : List α} {i : ℕ} {x : α}

theorem sum_map_eraseIdx (h : l[i]? = some x) :
    (l.map f).sum = f x + ((l.eraseIdx i).map f).sum := by
  induction l generalizing i with
  | nil => cases h
  | cons a l ih =>
    cases i with
    | zero =>
      obtain rfl : a = x := by simpa using h
      simp
    | succ i =>
      have := ih (i := i) (by simpa using h)
      simp only [List.map_cons, List.sum_cons, List.eraseIdx_cons_succ]
      omega

theorem sum_map_set (h : l[i]? = some x) (y : α) :
    ((l.set i y).map f).sum = f y + ((l.eraseIdx i).map f).sum := by
  have hlt := (List.getElem?_eq_some_iff.mp h).1
  have hget : (l.set i y)[i]? = some y := by simp [hlt]
  rw [sum_map_eraseIdx hget, List.eraseIdx_set_eq]

/-- Taking the one entry of a key out of a table. -/
theorem countP_filter_key {κ β : Type} [DecidableEq κ] {table : List (κ × β)} {k : κ} {b : β}
    (hn : (table.map (·.1)).Nodup) (hm : (k, b) ∈ table) (P : κ × β → Bool) :
    table.countP P = (table.filter (·.1 ≠ k)).countP P + if P (k, b) then 1 else 0 := by
  induction table with
  | nil => cases hm
  | cons e table ih =>
    rw [List.map_cons, List.nodup_cons] at hn
    rcases List.mem_cons.mp hm with rfl | hm
    · -- the entry is here, and no later entry has its key
      have hall : table.filter (·.1 ≠ k) = table := by
        rw [List.filter_eq_self]
        intro e' he'
        have : e'.1 ≠ k := fun heq => hn.1 (List.mem_map.mpr ⟨e', he', heq⟩)
        simpa using this
      rw [List.filter_cons_of_neg (by simp), hall, List.countP_cons]
    · have hne : e.1 ≠ k := fun heq => hn.1 (List.mem_map.mpr ⟨(k, b), hm, heq.symm⟩)
      rw [List.filter_cons_of_pos (by simpa using hne), List.countP_cons, List.countP_cons,
        ih hn.2 hm]
      omega

end Sums

theorem getElem?_of_object? {h : Heap} {i : ℕ} {obj : HeapObject} (hi : h.object? i = some obj) :
    h.objects[i]? = some (some obj) := by
  unfold Heap.object? at hi
  cases ho : h.objects[i]? with
  | none => simp [ho] at hi
  | some slot => simpa [ho] using hi

/-! ## Allocation -/

section Alloc

variable {h : Heap} {o : Amounts} {s s' : Store} {obj : HeapObject}

/-- A free slot is in the table. -/
theorem Heap.Accounts.freeSlot (ha : h.Accounts) {idx : ℕ} {rest : List ℕ}
    (hf : h.freeList = idx :: rest) : idx < h.objects.length :=
  (List.getElem?_eq_some_iff.mp (ha.free idx (by simp [hf]))).1

/-- Taking a slot adds the bytes of its object, and changes no other table. -/
theorem place_tables (ha : h.Accounts) (obj : HeapObject) :
    (h.place obj).2.liveBytes = h.liveBytes + obj.estimatedBytes ∧
      (h.place obj).2.objectBytes = (h.place obj).2.objects.map slotBytes ∧
      (h.place obj).2.currentBytes = h.currentBytes ∧
      (h.place obj).2.hostResources = h.hostResources ∧
      (h.place obj).2.nextHostHandleId = h.nextHostHandleId ∧
      (h.place obj).2.hostResourcesByKind = h.hostResourcesByKind := by
  unfold Heap.place
  split
  · next idx rest hf =>
    have hfree := ha.free idx (by simp [hf])
    refine ⟨?_, ?_, rfl, rfl, rfl, rfl⟩
    · have hnew := sum_map_set (f := slotBytes) hfree (some obj)
      have hold := sum_map_eraseIdx (f := slotBytes) hfree
      simp only [Heap.liveBytes, slotBytes, Option.map_some, Option.getD_some, Option.map_none,
        Option.getD_none] at hnew hold ⊢
      omega
    · dsimp only [Heap.recordBirth]
      rw [ha.sizes, List.map_set]
      rfl
  · refine ⟨?_, ?_, rfl, rfl, rfl, rfl⟩
    · simp [Heap.liveBytes, slotBytes]
    · simp [ha.sizes, slotBytes]

/-- The free slots that are left are empty. -/
theorem place_free (ha : h.Accounts) (obj : HeapObject) :
    (∀ i ∈ (h.place obj).2.freeList, (h.place obj).2.objects[i]? = some none) ∧
      (h.place obj).2.freeList.Nodup := by
  unfold Heap.place
  split
  · next idx rest hf =>
    have hnodup := ha.nodup
    rw [hf, List.nodup_cons] at hnodup
    refine ⟨fun i hi => ?_, hnodup.2⟩
    have hne : idx ≠ i := fun heq => hnodup.1 (heq ▸ hi)
    dsimp only
    rw [List.getElem?_set_ne hne]
    exact ha.free i (by simp [hf, hi])
  · next hf =>
    dsimp only [Heap.recordBirth]
    rw [hf]
    exact ⟨by simp, List.nodup_nil⟩

/-- The objects after taking a slot: the old ones and the new one. -/
theorem place_object (ha : h.Accounts) (obj : HeapObject) {i : ℕ} {o : HeapObject}
    (hi : (h.place obj).2.object? i = some o) : o = obj ∨ h.object? i = some o := by
  unfold Heap.place at hi
  split at hi
  · next idx rest hf =>
    have hlt := ha.freeSlot hf
    simp only [Heap.object?] at hi ⊢
    rw [getElem?_set_join hlt] at hi
    split at hi
    · exact .inl (Option.some.inj hi).symm
    · exact .inr hi
  · simp only [Heap.object?] at hi ⊢
    rcases Nat.lt_trichotomy i h.objects.length with hlt | rfl | hgt
    · rw [List.getElem?_append_left hlt] at hi
      exact .inr hi
    · left
      simpa [eq_comm] using hi
    · rw [List.getElem?_eq_none (by simp; omega)] at hi
      cases hi

/-- **An allocation keeps the accounts.** -/
theorem Heap.Accounts.alloc {r : GcRef} (ha : s.heap.Accounts)
    (hc : s.budgets.Covers (o.addHeap s.heap.currentBytes s.heap))
    (hobj : ∀ kind id, obj = .hostHandle kind id → s.heap.Issued kind id)
    (halloc : s.alloc obj = (.ok r, s')) (hroomy : s'.heap.liveBytes < u64Size) :
    s'.heap.Accounts ∧ s'.budgets.Covers (o.addHeap s'.heap.currentBytes s'.heap) := by
  rcases Store.alloc_cases s obj with ⟨e, he⟩ | ⟨budgets, hcharge, -, heq⟩
  · rw [he] at halloc
    cases halloc
  · rw [heq] at halloc
    obtain ⟨-, rfl⟩ := Prod.mk.inj halloc
    obtain ⟨hlive, hsizes, hbytes, hres, hnext, hkind⟩ := place_tables ha obj
    obtain ⟨hfree, hnodup⟩ := place_free ha obj
    -- the new count does not saturate
    have hsum : min ((s.heap.place obj).2.currentBytes + obj.estimatedBytes) (u64Size - 1) =
        s.heap.currentBytes + obj.estimatedBytes := by
      change (s.heap.place obj).2.liveBytes < u64Size at hroomy
      rw [hbytes, ha.bytes]
      omega
    constructor
    · refine ⟨hsizes, ?_, hfree, hnodup, ?_, ?_, ?_, fun i kind id hi => ?_⟩
      · change min _ _ = (s.heap.place obj).2.liveBytes
        rw [hsum, hlive, ha.bytes]
      · dsimp only
        rw [hres, hnext]
        exact ha.ids
      · dsimp only
        rw [hres]
        exact ha.unique
      · dsimp only
        rw [hres, hkind]
        exact ha.byKind
      · have hissued : s.heap.Issued kind id := by
          rcases place_object ha obj hi with hnew | hold
          · exact hobj kind id hnew.symm
          · exact ha.handles i kind id hold
        unfold Heap.Issued
        dsimp only
        rw [hres, hnext]
        exact hissued
    · have hcov := hc.chargeMemory hcharge
      convert hcov using 1
      simp only [Amounts.addHeap, Amounts.addBytes, hsum, hres, Amounts.mk.injEq]
      exact ⟨by omega, trivial, rfl⟩

end Alloc

/-! ## Host resources -/

section Resources

variable {h : Heap} {o : Amounts} {s s' : Store} {resource : HostResource}

/-- No entry has the next number yet. -/
theorem Heap.Accounts.filter_next (ha : h.Accounts) :
    h.hostResources.filter (·.1 ≠ h.nextHostHandleId) = h.hostResources := by
  rw [List.filter_eq_self]
  intro e he
  have := ha.ids e he
  simp only [ne_eq, decide_eq_true_eq]
  omega

theorem Heap.Accounts.register_table (ha : h.Accounts) (resource : HostResource) :
    (h.registerResource resource).hostResources =
      (h.nextHostHandleId, resource) :: h.hostResources :=
  congrArg ((h.nextHostHandleId, resource) :: ·) ha.filter_next

/-- Registering a resource under the next number. -/
theorem Heap.Accounts.register (ha : h.Accounts) (hroomy : h.nextHostHandleId < u64Size - 1)
    (resource : HostResource) : (h.registerResource resource).Accounts := by
  have hnext : (h.registerResource resource).nextHostHandleId = h.nextHostHandleId + 1 :=
    min_eq_left (by omega)
  have hres := ha.register_table resource
  refine ⟨ha.sizes, ha.bytes, ha.free, ha.nodup, ?_, ?_, fun P => ?_, fun i kind id hi => ?_⟩
  · rw [hres, hnext]
    refine List.forall_mem_cons.mpr ⟨by simp, fun e he => ?_⟩
    have := ha.ids e he
    omega
  · rw [hres, List.map_cons, List.nodup_cons]
    refine ⟨fun hmem => ?_, ha.unique⟩
    obtain ⟨e, he, heq⟩ := List.mem_map.mp hmem
    have := ha.ids e he
    omega
  · rw [hres, List.countP_cons, ← ha.byKind]
    exact Counter.total_bump _ _ _
  · obtain ⟨hlt, hkind⟩ := ha.handles i kind id hi
    refine ⟨by rw [hnext]; omega, fun r hr => ?_⟩
    rw [hres, List.mem_cons] at hr
    rcases hr with heq | hr
    · have := (Prod.mk.inj heq).1
      omega
    · exact hkind r hr

theorem issued_register (ha : h.Accounts) (hroomy : h.nextHostHandleId < u64Size - 1)
    (resource : HostResource) :
    (h.registerResource resource).Issued resource.kind h.nextHostHandleId := by
  refine ⟨?_, fun r hr => ?_⟩
  · have hnext : (h.registerResource resource).nextHostHandleId = h.nextHostHandleId + 1 :=
      min_eq_left (by omega)
    omega
  · rcases List.mem_cons.mp hr with heq | hr
    · rw [(Prod.mk.inj heq).2]
    · have := ha.ids _ (List.mem_of_mem_filter hr)
      simp at this

/-- What a heap holds with one resource more. -/
theorem addHeap_register (ha : h.Accounts) (bytes : ℕ) (resource : HostResource) :
    o.addHeap bytes (h.registerResource resource) =
      ((o.addHeap bytes h).addResources 1).addKinds
        (ofKind (hostHandleKindName resource.kind) 1) := by
  simp only [Amounts.addHeap, Amounts.addResources, Amounts.addKinds, Amounts.mk.injEq,
    Heap.resourcesOf, ha.register_table, List.length_cons, List.countP_cons]
  refine ⟨trivial, by omega, funext fun name => ?_⟩
  simp only [ofKind, decide_eq_true_eq, eq_comm (a := name)]
  omega

/-- **Opening a resource keeps the accounts.** -/
theorem Heap.Accounts.allocHostResource {r : GcRef} (ha : s.heap.Accounts)
    (hc : s.budgets.Covers (o.addHeap s.heap.currentBytes s.heap))
    (hids : s.heap.nextHostHandleId < u64Size - 1)
    (halloc : s.allocHostResource resource = (.ok r, s')) (hroomy : s'.heap.liveBytes < u64Size) :
    s'.heap.Accounts ∧ s'.budgets.Covers (o.addHeap s'.heap.currentBytes s'.heap) := by
  unfold Store.allocHostResource at halloc
  dsimp only at halloc
  split at halloc
  · cases halloc
  · next b₁ hb₁ =>
    split at halloc
    · cases halloc
    · next b₂ hb₂ =>
      split at halloc
      · next r' s₁ hs₁ =>
        obtain ⟨rfl, rfl⟩ := Prod.mk.inj halloc |>.imp_left Except.ok.inj
        refine Heap.Accounts.alloc (ha.register hids resource) ?_ ?_ hs₁ hroomy
        · rw [addHeap_register ha]
          exact (hc.chargeHostResource hb₁).chargeKind hb₂
        · rintro kind id heq
          obtain ⟨rfl, rfl⟩ := HeapObject.hostHandle.inj heq
          exact issued_register ha hids resource
      · cases halloc

/-- Counting a kind once more and once less. -/
theorem drop_bump {κ : Type} [DecidableEq κ] (m : Counter κ) (k : κ) : (m.bump k).drop k = m := by
  obtain ⟨m, hm⟩ := m
  have hentries : Counter.dropEntries k (Counter.bumpEntries k m) = m := by
    induction m with
    | nil => simp [Counter.bumpEntries, Counter.dropEntries]
    | cons e m ih =>
      have hpos := hm e List.mem_cons_self
      unfold Counter.bumpEntries
      split
      · next he =>
        rw [Counter.dropEntries, if_pos he, if_neg (by simp only; omega)]
        rfl
      · next he =>
        rw [Counter.dropEntries, if_neg he, ih fun e he => hm e (List.mem_cons_of_mem _ he)]
  simp only [Counter.drop, Counter.bump, hentries]

/-- Registering a resource and taking it out again uses up a number. -/
theorem Heap.Accounts.unregister_register (ha : h.Accounts) (hids : h.nextHostHandleId < u64Size - 1)
    (resource : HostResource) :
    (h.registerResource resource).unregisterResource h.nextHostHandleId resource.kind =
      { h with nextHostHandleId := h.nextHostHandleId + 1 } := by
  have htable : (h.registerResource resource).hostResources.filter (·.1 ≠ h.nextHostHandleId) =
      h.hostResources := by
    rw [ha.register_table, List.filter_cons_of_neg (by simp)]
    exact ha.filter_next
  unfold Heap.unregisterResource
  rw [htable]
  simp only [Heap.registerResource, drop_bump]
  rw [min_eq_left (by omega)]

/-- A total charge that is taken back. -/
theorem refund_chargeHostResource {b : Budgets} (h : s.chargeHostResource = .ok b) :
    b.refundHostResource 1 = s.budgets := by
  unfold Store.chargeHostResource at h
  split at h
  · next hnone =>
    obtain rfl := Except.ok.inj h
    unfold Budgets.refundHostResource
    rw [hnone, Option.map_none, ← hnone]
  · next m hsome =>
    split at h
    · next m' hm' =>
      obtain rfl := Except.ok.inj h
      unfold Budgets.refundHostResource
      rw [Option.map_some, SharedBudget.refund_tryCharge hm', ← hsome]
    · cases h

/-- An update that changes no budget of its kind. -/
theorem updateKind_eq_self {b : Budgets} {name : String} {f : SharedBudget → SharedBudget}
    (hf : ∀ m, (name, m) ∈ b.hostResourceKind → f m = m) : b.updateKind name f = b := by
  have hmap : (b.hostResourceKind.map fun e => if e.1 = name then (e.1, f e.2) else e) =
      b.hostResourceKind := by
    refine (List.map_congr_left fun e he => ?_).trans (List.map_id _)
    split
    · next hn =>
      rw [hf e.2 (hn ▸ he)]
      rfl
    · rfl
  unfold Budgets.updateKind
  rw [hmap]

theorem updateKind_updateKind (b : Budgets) (name : String) (f g : SharedBudget → SharedBudget) :
    (b.updateKind name f).updateKind name g = b.updateKind name (g ∘ f) := by
  simp only [Budgets.updateKind, List.map_map]
  congr 1
  refine List.map_congr_left fun e _ => ?_
  by_cases hn : e.1 = name <;> simp [hn]

/-- A charge to a kind that is taken back. -/
theorem refund_chargeKind {b b' : Budgets} (hc : b.Covers o) {name : String}
    (h : b.chargeKind name = .ok b') : b'.updateKind name (·.refund 1) = b := by
  unfold Budgets.chargeKind at h
  split at h
  · next hnone =>
    obtain rfl := Except.ok.inj h
    refine updateKind_eq_self fun m hm => ?_
    exact absurd (List.lookup_eq_none_iff.mp hnone (name, m) hm) (by simp)
  · next k hk =>
    split at h
    · next k' hk' =>
      obtain rfl := Except.ok.inj h
      rw [updateKind_updateKind]
      refine updateKind_eq_self fun m hm => ?_
      rw [hc.unique hm (kindBudget_eq_some hk)]
      exact SharedBudget.refund_tryCharge hk'
    · cases h

theorem refundHostResource_updateKind (b : Budgets) (name : String)
    (f : SharedBudget → SharedBudget) (k : ℕ) :
    (b.refundHostResource k).updateKind name f = (b.updateKind name f).refundHostResource k := rfl

/-- **A failed allocation of a resource** takes back what it charged; it may have used up a
number. -/
theorem allocHostResource_error {e : HeapLimitExceeded} (ha : s.heap.Accounts)
    (hc : s.budgets.Covers o) (hids : s.heap.nextHostHandleId < u64Size - 1)
    (h : s.allocHostResource resource = (.error e, s')) :
    s'.budgets = s.budgets ∧ (s'.heap = s.heap ∨
      s'.heap = { s.heap with nextHostHandleId := s.heap.nextHostHandleId + 1 }) := by
  unfold Store.allocHostResource at h
  dsimp only at h
  split at h
  · obtain ⟨-, rfl⟩ := Prod.mk.inj h
    exact ⟨rfl, .inl rfl⟩
  · next b₁ hb₁ =>
    split at h
    · obtain ⟨-, rfl⟩ := Prod.mk.inj h
      exact ⟨refund_chargeHostResource hb₁, .inl rfl⟩
    · next b₂ hb₂ =>
      split at h
      · cases h
      · next e' s₁ hs₁ =>
        obtain ⟨-, rfl⟩ := Prod.mk.inj h
        obtain rfl := Store.alloc_error hs₁
        refine ⟨?_, .inr (ha.unregister_register hids resource)⟩
        unfold Budgets.releaseHostResource
        rw [refundHostResource_updateKind, refund_chargeKind (hc.chargeHostResource hb₁) hb₂]
        exact refund_chargeHostResource hb₁

end Resources

/-- A number that is used up changes no account. -/
theorem Heap.Accounts.skipId {h : Heap} (ha : h.Accounts) :
    Heap.Accounts { h with nextHostHandleId := h.nextHostHandleId + 1 } := by
  refine ⟨ha.sizes, ha.bytes, ha.free, ha.nodup, fun e he => ?_, ha.unique, ha.byKind,
    fun i kind id hi => ?_⟩
  · have := ha.ids e he
    dsimp only
    omega
  · obtain ⟨hlt, hkind⟩ := ha.handles i kind id hi
    exact ⟨Nat.lt_succ_of_lt hlt, hkind⟩

/-- The size of a closure does not depend on its captures. -/
theorem Heap.Accounts.setClosureCaptures {h h' : Heap} {r : GcRef} {captures : List Value}
    (ha : h.Accounts) (hset : h.setClosureCaptures r captures = .ok h') :
    h'.Accounts ∧ h'.currentBytes = h.currentBytes ∧ h'.hostResources = h.hostResources := by
  unfold Heap.setClosureCaptures at hset
  split at hset
  · next protoIdx cs hobj =>
    obtain rfl := Except.ok.inj hset
    have hslot := getElem?_of_object? hobj
    have hlt : r.idx < h.objects.length := (List.getElem?_eq_some_iff.mp hslot).1
    have hmap : (h.objects.set r.idx (some (.closure protoIdx captures))).map slotBytes =
        h.objects.map slotBytes := by
      have hget : (h.objects.map slotBytes)[r.idx]? = some heapObjectSize := by
        rw [List.getElem?_map, hslot]
        rfl
      refine List.ext_getElem? fun j => ?_
      rw [List.map_set, List.getElem?_set]
      split
      · next heq =>
        subst heq
        rw [hget, if_pos (by simpa using hlt)]
        rfl
      · rfl
    refine ⟨⟨?_, ?_, fun i hi => ?_, ha.nodup, ha.ids, ha.unique, ha.byKind,
      fun i kind id hi => ?_⟩, rfl, rfl⟩
    · exact ha.sizes.trans hmap.symm
    · exact ha.bytes.trans (congrArg List.sum hmap.symm)
    · have hfree := ha.free i hi
      dsimp only
      rw [List.getElem?_set_ne]
      · exact hfree
      · rintro rfl
        rw [hslot] at hfree
        cases Option.some.inj hfree
    · refine ha.handles i kind id ?_
      simp only [Heap.object?] at hi ⊢
      rw [getElem?_set_join hlt] at hi
      split at hi
      · cases hi
      · exact hi
  · cases hset
  · cases hset

/-! ## Collection and drop -/

section Collect

variable {o : Amounts} {s : Store} {B : ℕ}

theorem lookup_isSome {table : List (ℕ × HostResource)} {id : ℕ}
    (h : (table.lookup id).isSome = true) : ∃ r, (id, r) ∈ table := by
  obtain ⟨r, hr⟩ := Option.isSome_iff_exists.mp h
  obtain ⟨l₁, l₂, hl, -⟩ := List.lookup_eq_some_iff.mp hr
  exact ⟨r, by rw [hl]; exact List.mem_append_right _ List.mem_cons_self⟩

/-- Taking a resource out of the tables. -/
theorem Heap.Accounts.unregister {h : Heap} (ha : h.Accounts) {id : ℕ} {r : HostResource}
    (hr : (id, r) ∈ h.hostResources) : (h.unregisterResource id r.kind).Accounts := by
  refine ⟨ha.sizes, ha.bytes, ha.free, ha.nodup, fun e he => ?_, ?_, fun P => ?_,
    fun i kind id' hi => ?_⟩
  · exact ha.ids e (List.mem_of_mem_filter he)
  · exact ha.unique.sublist (List.filter_sublist.map _)
  · have hcount := countP_filter_key ha.unique hr fun e => P e.2.kind
    have hpos : 0 < h.hostResourcesByKind.total (· = r.kind) := by
      rw [ha.byKind, List.countP_pos_iff]
      exact ⟨(id, r), hr, by simp⟩
    obtain ⟨hdrop, -⟩ := Counter.total_drop h.hostResourcesByKind r.kind P hpos
    simp only [Heap.unregisterResource]
    rw [hdrop, ha.byKind, hcount]
    exact Nat.add_sub_cancel _ _
  · obtain ⟨hlt, hkind⟩ := ha.handles i kind id' hi
    exact ⟨hlt, fun r' hr' => hkind r' (List.mem_of_mem_filter hr')⟩

theorem addHeap_unregister {h : Heap} (ha : h.Accounts) {id : ℕ} {r : HostResource}
    (hr : (id, r) ∈ h.hostResources) (bytes : ℕ) :
    o.addHeap bytes h = ((o.addHeap bytes (h.unregisterResource id r.kind)).addResources 1).addKinds
      (ofKind (hostHandleKindName r.kind) 1) := by
  have hlen := countP_filter_key ha.unique hr fun _ => true
  simp only [List.countP_true, if_true] at hlen
  have hcount : ∀ name, h.resourcesOf name =
      (h.unregisterResource id r.kind).resourcesOf name +
        ofKind (hostHandleKindName r.kind) 1 name := by
    intro name
    simp only [Heap.resourcesOf, Heap.unregisterResource, ofKind,
      countP_filter_key ha.unique hr fun e => decide (hostHandleKindName e.2.kind = name),
      decide_eq_true_eq, eq_comm (a := name)]
  simp only [Amounts.addHeap, Amounts.addResources, Amounts.addKinds, Amounts.mk.injEq]
  refine ⟨trivial, ?_, funext fun name => ?_⟩
  · simp only [Heap.unregisterResource]
    omega
  · rw [hcount name]
    omega

/-- Releasing the resource of a freed handle. -/
theorem Heap.Accounts.releaseHandle (ha : s.heap.Accounts)
    (hc : s.budgets.Covers (o.addHeap B s.heap)) {i : ℕ} {obj : HeapObject}
    (hi : s.heap.object? i = some obj) :
    (s.releaseHandle obj).heap.Accounts ∧
      (s.releaseHandle obj).budgets.Covers (o.addHeap B (s.releaseHandle obj).heap) := by
  cases obj with
  | hostHandle kind id =>
    simp only [Store.releaseHandle]
    split
    · next hsome =>
      obtain ⟨r, hr⟩ := lookup_isSome hsome
      obtain rfl := (ha.handles i kind id hi).2 r hr
      refine ⟨ha.unregister hr, Budgets.Covers.releaseHostResource ?_⟩
      rw [← addHeap_unregister ha hr]
      exact hc
    · exact ⟨ha, hc⟩
  | _ => exact ⟨ha, hc⟩

/-- Emptying a slot whose object has its size on record. -/
theorem Heap.Accounts.empty {h : Heap} (ha : h.Accounts) {i : ℕ} {obj : HeapObject}
    (hi : h.object? i = some obj) :
    Heap.Accounts { h with
      currentBytes := h.currentBytes - (h.objectBytes[i]?).getD 0
      objects := h.objects.set i none
      objectBytes := h.objectBytes.set i 0
      freeList := i :: h.freeList } := by
  have hslot := getElem?_of_object? hi
  have hlt : i < h.objects.length := (List.getElem?_eq_some_iff.mp hslot).1
  have hsize : (h.objectBytes[i]?).getD 0 = obj.estimatedBytes := by
    rw [ha.sizes, List.getElem?_map, hslot]
    rfl
  refine ⟨?_, ?_, fun j hj => ?_, ?_, ha.ids, ha.unique, ha.byKind, fun j kind id hj => ?_⟩
  · dsimp only
    rw [ha.sizes, List.map_set]
    rfl
  · have hnew := sum_map_set (f := slotBytes) hslot none
    have hold := sum_map_eraseIdx (f := slotBytes) hslot
    have hbytes := ha.bytes
    simp only [Heap.liveBytes, slotBytes, Option.map_some, Option.getD_some, Option.map_none,
      Option.getD_none, hsize] at hnew hold hbytes ⊢
    omega
  · dsimp only at hj ⊢
    rcases List.mem_cons.mp hj with rfl | hj
    · simp [hlt]
    · rw [List.getElem?_set]
      split
      · simp
      · exact ha.free j hj
  · refine List.nodup_cons.mpr ⟨fun hmem => ?_, ha.nodup⟩
    have hfree := ha.free i hmem
    rw [hslot] at hfree
    cases Option.some.inj hfree
  · refine ha.handles j kind id ?_
    simp only [Heap.object?] at hj ⊢
    rw [getElem?_set_join hlt] at hj
    split at hj
    · cases hj
    · exact hj

/-- What the sweep keeps, with `B` bytes still charged. -/
structure SweepAccounts (o : Amounts) (B : ℕ) (n : ℕ) (s : Store) : Prop where
  accounts : s.heap.Accounts
  covers : s.budgets.Covers (o.addHeap B s.heap)
  bytes : s.heap.currentBytes ≤ B
  slots : s.heap.objects.length = n

theorem SweepAccounts.slot {n : ℕ} {marks : List Bool} {i : ℕ}
    (h : SweepAccounts o B n s) (hn : n ≤ u32Size) (hi : i < n) :
    SweepAccounts o B n (Store.sweepSlot marks s i) := by
  unfold Store.sweepSlot
  split
  · exact h
  · next obj hobj =>
    split
    · exact h
    · obtain ⟨ha, hc⟩ := h.accounts.releaseHandle h.covers hobj
      have hsame := sameSlots_releaseHandle s obj
      have hobj' : (s.releaseHandle obj).heap.object? i = some obj := by
        rw [Heap.object?, hsame.objects]
        exact hobj
      have hbytes : (s.releaseHandle obj).heap.currentBytes = s.heap.currentBytes := by
        rw [ha.bytes, h.accounts.bytes, Heap.liveBytes, hsame.objects, Heap.liveBytes]
      have hmod : i % u32Size = i := Nat.mod_eq_of_lt (by omega)
      refine ⟨?_, hc, ?_, ?_⟩
      · simp only [hmod]
        exact ha.empty hobj'
      · have := h.bytes
        dsimp only
        omega
      · dsimp only
        rw [List.length_set, hsame.objects]
        exact h.slots

/-- The sweep of all slots. -/
theorem SweepAccounts.sweep {n : ℕ} (marks : List Bool)
    (h : SweepAccounts o B n s) (hn : n ≤ u32Size) (k : ℕ) (hk : k ≤ n) :
    SweepAccounts o B n ((List.range k).foldl (Store.sweepSlot marks) s) := by
  induction k with
  | zero => exact h
  | succ k ih =>
    rw [List.range_succ, List.foldl_append, List.foldl_cons, List.foldl_nil]
    exact (ih (by omega)).slot hn (by omega)

/-- **A collection keeps the accounts.** -/
theorem Heap.Accounts.collect {s' : Store} {roots : List GcRef} (ha : s.heap.Accounts)
    (hc : s.budgets.Covers (o.addHeap s.heap.currentBytes s.heap))
    (hn : s.heap.objects.length ≤ u32Size) (hcollect : s.collect roots = some s') :
    s'.heap.Accounts ∧ s'.budgets.Covers (o.addHeap s'.heap.currentBytes s'.heap) := by
  unfold Store.collect at hcollect
  split at hcollect
  · cases hcollect
  · next marks _ =>
    obtain rfl := Option.some.inj hcollect
    have hstart : SweepAccounts o s.heap.currentBytes s.heap.objects.length
        { s with heap := { s.heap with freeList := [] } } :=
      ⟨⟨ha.sizes, ha.bytes, by simp, List.nodup_nil, ha.ids, ha.unique, ha.byKind, ha.handles⟩,
        hc, le_refl _, rfl⟩
    have hswept := hstart.sweep marks hn _ (le_refl _)
    change SweepAccounts _ _ _ (s.sweep marks) at hswept
    obtain ⟨hacc, hcov, hbytes, -⟩ := hswept
    constructor
    · exact ⟨hacc.sizes, hacc.bytes, hacc.free, hacc.nodup, hacc.ids, hacc.unique, hacc.byKind,
        hacc.handles⟩
    · refine Budgets.Covers.refundMemory ?_
      convert hcov using 1
      simp only [Amounts.addHeap, Amounts.addBytes, Store.finishCollect, Amounts.mk.injEq]
      exact ⟨by omega, trivial, rfl⟩

/-- Returning the counts of some kinds, one kind after another. -/
theorem Budgets.Covers.refundKinds {b : Budgets} {entries : List (HostHandleKind × ℕ)}
    (hc : b.Covers (o.addKinds fun name =>
      Counter.totalOf (fun kind => hostHandleKindName kind = name) entries)) :
    (entries.foldl (fun b e => b.updateKind (hostHandleKindName e.1) (·.refund e.2)) b).Covers
      o := by
  induction entries generalizing b with
  | nil => simpa [Counter.totalOf, Amounts.addKinds] using hc
  | cons e entries ih =>
    rw [List.foldl_cons]
    refine ih (Budgets.Covers.refundKind ?_)
    convert hc using 1
    simp only [Amounts.addKinds, Counter.totalOf_cons, ofKind, Amounts.mk.injEq, true_and]
    funext name
    simp only [decide_eq_true_eq, eq_comm (a := name)]
    omega

/-- **A dropped heap** returns what it holds. -/
theorem Heap.Accounts.drop (ha : s.heap.Accounts)
    (hc : s.budgets.Covers (o.addHeap s.heap.currentBytes s.heap)) : s.dropHeap.Covers o := by
  have hkinds : ∀ name, s.heap.resourcesOf name = Counter.totalOf
      (fun kind => hostHandleKindName kind = name) s.heap.hostResourcesByKind.entries := by
    intro name
    exact (ha.byKind fun kind => hostHandleKindName kind = name).symm
  refine Budgets.Covers.refundKinds (Budgets.Covers.refundHostResource
    (Budgets.Covers.refundMemory ?_))
  convert hc using 1
  simp only [Amounts.addHeap, Amounts.addBytes, Amounts.addResources, Amounts.addKinds, hkinds]

end Collect

/-! ## Trees -/

/-- The heaps of a process tree, and the budgets they share. -/
structure Tree where
  heaps : List Heap
  budgets : Budgets

namespace Tree

/-- What some heaps hold together. -/
def amounts (heaps : List Heap) : Amounts where
  bytes := (heaps.map (·.currentBytes)).sum
  resources := (heaps.map (·.hostResources.length)).sum
  kinds := fun name => (heaps.map (·.resourcesOf name)).sum

/-- Heap `i` and the budgets after an operation. -/
def put (t : Tree) (i : ℕ) (s : Store) : Tree := ⟨t.heaps.set i s.heap, s.budgets⟩

/-- An operation of one heap of the tree. Host handles are allocated by `alloc_host_resource`
alone. -/
inductive Step (t : Tree) : Tree → Prop where
  | share (maxObjects : Option ℕ) : Step t ⟨t.heaps ++ [Heap.fresh maxObjects], t.budgets⟩
  | alloc (i : ℕ) (h : Heap) (obj : HeapObject) (heap : t.heaps[i]? = some h)
      (noHandle : ∀ kind id, obj ≠ .hostHandle kind id) :
      Step t (t.put i (Store.alloc ⟨h, t.budgets⟩ obj).2)
  | allocHostResource (i : ℕ) (h : Heap) (resource : HostResource) (heap : t.heaps[i]? = some h) :
      Step t (t.put i (Store.allocHostResource ⟨h, t.budgets⟩ resource).2)
  | setClosureCaptures (i : ℕ) (h h' : Heap) (r : GcRef) (captures : List Value)
      (heap : t.heaps[i]? = some h) (done : h.setClosureCaptures r captures = .ok h') :
      Step t (t.put i ⟨h', t.budgets⟩)
  | collect (i : ℕ) (h : Heap) (roots : List GcRef) (s : Store) (heap : t.heaps[i]? = some h)
      (done : Store.collect ⟨h, t.budgets⟩ roots = some s) : Step t (t.put i s)
  | drop (i : ℕ) (h : Heap) (heap : t.heaps[i]? = some h) :
      Step t ⟨t.heaps.eraseIdx i, Store.dropHeap ⟨h, t.budgets⟩⟩

/-- A tree of one new heap, with budgets of which nothing is used. -/
structure Start (t : Tree) : Prop where
  heaps : ∃ maxObjects, t.heaps = [Heap.fresh maxObjects]
  budgets : t.budgets.Covers ⟨0, 0, fun _ => 0⟩

/-- The trees a run reaches, all of them within the machine's numbers. -/
inductive Reachable (t₀ : Tree) : Tree → Prop where
  | start : Reachable t₀ t₀
  | step {t t' : Tree} (h : Reachable t₀ t) (hstep : Step t t')
      (hroomy : ∀ h ∈ t'.heaps, h.Roomy) : Reachable t₀ t'

/-- The tables of every heap count what is in it, and the budgets have charged all of it. -/
structure Accounts (t : Tree) : Prop where
  heaps : ∀ h ∈ t.heaps, h.Accounts
  covers : t.budgets.Covers (amounts t.heaps)

variable {t t' t₀ : Tree} {i : ℕ} {h : Heap}

/-- The amounts of a tree, with one heap apart. -/
theorem amounts_eraseIdx (hi : t.heaps[i]? = some h) :
    amounts t.heaps = (amounts (t.heaps.eraseIdx i)).addHeap h.currentBytes h := by
  simp only [amounts, Amounts.addHeap, Amounts.mk.injEq, sum_map_eraseIdx hi]
  exact ⟨Nat.add_comm _ _, Nat.add_comm _ _, funext fun _ => Nat.add_comm _ _⟩

theorem amounts_set (hi : t.heaps[i]? = some h) (h' : Heap) :
    amounts (t.heaps.set i h') = (amounts (t.heaps.eraseIdx i)).addHeap h'.currentBytes h' := by
  simp only [amounts, Amounts.addHeap, Amounts.mk.injEq, sum_map_set hi]
  exact ⟨Nat.add_comm _ _, Nat.add_comm _ _, funext fun _ => Nat.add_comm _ _⟩

/-- The accounts of one heap, with the others as an amount. -/
theorem Accounts.store (ha : t.Accounts) (hi : t.heaps[i]? = some h) :
    h.Accounts ∧ t.budgets.Covers ((amounts (t.heaps.eraseIdx i)).addHeap h.currentBytes h) :=
  ⟨ha.heaps h (List.mem_of_getElem? hi), amounts_eraseIdx hi ▸ ha.covers⟩

theorem Accounts.put (ha : t.Accounts) (hi : t.heaps[i]? = some h) {s : Store}
    (hs : s.heap.Accounts ∧
      s.budgets.Covers ((amounts (t.heaps.eraseIdx i)).addHeap s.heap.currentBytes s.heap)) :
    (t.put i s).Accounts := by
  constructor
  · intro h' hh'
    rcases List.mem_or_eq_of_mem_set hh' with hh' | rfl
    · exact ha.heaps h' hh'
    · exact hs.1
  · change s.budgets.Covers (amounts (t.heaps.set i s.heap))
    rw [amounts_set hi]
    exact hs.2

theorem roomy_fresh (maxObjects : Option ℕ) : (Heap.fresh maxObjects).Roomy := by
  constructor <;> simp [Heap.fresh, Heap.new, Heap.liveBytes, u32Size, u64Size]

theorem accounts_fresh (maxObjects : Option ℕ) : (Heap.fresh maxObjects).Accounts := by
  have hnone : ∀ i o, (Heap.fresh maxObjects).object? i ≠ some o := by
    simp [Heap.object?, Heap.fresh, Heap.new]
  exact ⟨rfl, rfl, by simp [Heap.fresh, Heap.new], List.nodup_nil, by simp [Heap.fresh, Heap.new],
    List.nodup_nil, fun _ => rfl, fun i kind id hi => absurd hi (hnone i _)⟩

/-- **An operation keeps the accounts.** -/
theorem Accounts.step (ha : t.Accounts) (hroomy : ∀ h ∈ t.heaps, h.Roomy) (hstep : Step t t')
    (hroomy' : ∀ h ∈ t'.heaps, h.Roomy) : t'.Accounts := by
  have hlt : ∀ {i : ℕ} {h : Heap}, t.heaps[i]? = some h → i < t.heaps.length :=
    fun hi => (List.getElem?_eq_some_iff.mp hi).1
  have hput : ∀ {i : ℕ} {h : Heap} (s : Store), t.heaps[i]? = some h → t' = t.put i s →
      s.heap.Roomy := by
    rintro i h s hi rfl
    exact hroomy' _ (List.mem_set (hlt hi) _)
  cases hstep with
  | share maxObjects =>
    constructor
    · intro h hh
      rcases List.mem_append.mp hh with hh | hh
      · exact ha.heaps h hh
      · rw [List.mem_singleton.mp hh]
        exact accounts_fresh maxObjects
    · have hsame : amounts (t.heaps ++ [Heap.fresh maxObjects]) = amounts t.heaps := by
        simp [amounts, Heap.fresh, Heap.new, Heap.resourcesOf]
      rw [hsame]
      exact ha.covers
  | alloc i h obj heap noHandle =>
    obtain ⟨hacc, hcov⟩ := ha.store heap
    rcases hres : Store.alloc ⟨h, t.budgets⟩ obj with ⟨e | r, s⟩
    · obtain rfl := Store.alloc_error hres
      exact ha.put heap ⟨hacc, hcov⟩
    · exact ha.put heap (Heap.Accounts.alloc hacc hcov (fun kind id heq => absurd heq
        (noHandle kind id)) hres (hput s heap (by rw [hres])).bytes)
  | allocHostResource i h resource heap =>
    obtain ⟨hacc, hcov⟩ := ha.store heap
    have hids : h.nextHostHandleId < u64Size - 1 := (hroomy h (List.mem_of_getElem? heap)).ids
    rcases hres : Store.allocHostResource ⟨h, t.budgets⟩ resource with ⟨e | r, s⟩
    · obtain ⟨hbudgets, hheap⟩ := allocHostResource_error hacc hcov hids hres
      refine ha.put heap ?_
      dsimp only at hbudgets hheap ⊢
      rw [hbudgets]
      rcases hheap with hheap | hheap
      · rw [hheap]
        exact ⟨hacc, hcov⟩
      · rw [hheap]
        exact ⟨hacc.skipId, hcov⟩
    · exact ha.put heap (Heap.Accounts.allocHostResource hacc hcov hids hres
        (hput s heap (by rw [hres])).bytes)
  | setClosureCaptures i h h' r captures heap done =>
    obtain ⟨hacc, hcov⟩ := ha.store heap
    obtain ⟨hacc', hbytes, hres⟩ := hacc.setClosureCaptures done
    refine ha.put heap ⟨hacc', ?_⟩
    have hkinds : ∀ name, h'.resourcesOf name = h.resourcesOf name := by
      intro name
      rw [Heap.resourcesOf, hres, Heap.resourcesOf]
    simpa only [Amounts.addHeap, hbytes, hres, hkinds] using hcov
  | collect i h roots s heap done =>
    obtain ⟨hacc, hcov⟩ := ha.store heap
    have hslots : h.objects.length ≤ u32Size := (hroomy h (List.mem_of_getElem? heap)).slots
    exact ha.put heap (Heap.Accounts.collect hacc hcov hslots done)
  | drop i h heap =>
    obtain ⟨hacc, hcov⟩ := ha.store heap
    exact ⟨fun h' hh' => ha.heaps h' (List.mem_of_mem_eraseIdx hh'),
      Heap.Accounts.drop (s := ⟨h, t.budgets⟩) hacc hcov⟩

theorem Start.accounts (h : Start t) : t.Accounts := by
  obtain ⟨⟨maxObjects, hheaps⟩, hcov⟩ := h
  constructor
  · rw [hheaps, List.forall_mem_singleton]
    exact accounts_fresh maxObjects
  · have hzero : amounts t.heaps = ⟨0, 0, fun _ => 0⟩ := by
      rw [hheaps]
      simp [amounts, Heap.fresh, Heap.new, Heap.resourcesOf]
    rw [hzero]
    exact hcov

/-- **The budgets of a tree have charged what its heaps hold**, in every state of a run. -/
theorem Reachable.accounts (hstart : Start t₀) (h : Reachable t₀ t) :
    t.Accounts ∧ ∀ h ∈ t.heaps, h.Roomy := by
  induction h with
  | start =>
    obtain ⟨maxObjects, hheaps⟩ := hstart.heaps
    refine ⟨hstart.accounts, ?_⟩
    rw [hheaps, List.forall_mem_singleton]
    exact roomy_fresh maxObjects
  | step h hstep hroomy ih => exact ⟨ih.1.step ih.2 hstep hroomy, hroomy⟩

end Tree

/-- **Accounting of a process tree.** In every tree a run reaches, the memory budget has charged
the bytes of all heaps, each heap's count is the size of its live objects, the host-resource
budgets have charged the live resources, and a failed allocation changes none of this: it leaves
the budgets and the heap as they were, but for a number a resource used up. -/
theorem tree_accounts {t₀ t : Tree} (hstart : t₀.Start) (h : t₀.Reachable t) :
    (∀ b, t.budgets.memory = some b →
      b.used = (t.heaps.map (·.currentBytes)).sum ∧ b.used ≤ b.limit) ∧
    (∀ h ∈ t.heaps, h.currentBytes = h.liveBytes) ∧
    (∀ b, t.budgets.hostResource = some b →
      b.used = (t.heaps.map (·.hostResources.length)).sum ∧ b.used ≤ b.limit) ∧
    (∀ name b, (name, b) ∈ t.budgets.hostResourceKind →
      b.used = (t.heaps.map (·.resourcesOf name)).sum ∧ b.used ≤ b.limit) ∧
    (∀ h ∈ t.heaps, ∀ obj e s, Store.alloc ⟨h, t.budgets⟩ obj = (.error e, s) →
      s = ⟨h, t.budgets⟩) ∧
    ∀ h ∈ t.heaps, ∀ resource e s,
      Store.allocHostResource ⟨h, t.budgets⟩ resource = (.error e, s) →
        s.budgets = t.budgets ∧
          (s.heap = h ∨ s.heap = { h with nextHostHandleId := h.nextHostHandleId + 1 }) := by
  obtain ⟨⟨hheaps, hcov⟩, hroomy⟩ := h.accounts hstart
  refine ⟨hcov.memory, fun h hh => (hheaps h hh).bytes, hcov.hostResource, hcov.kinds, ?_, ?_⟩
  · intro h _ obj e s hs
    exact Store.alloc_error hs
  · intro h hh resource e s hs
    exact allocHostResource_error (hheaps h hh) hcov (hroomy h hh).ids hs

/-- An operation that failed after it took a number leaves another heap behind. -/
theorem allocHostResource_uses_id :
    ∃ e s, Store.allocHostResource ⟨Heap.fresh (some 0), Budgets.unlimited⟩ .unsupported =
        (.error e, s) ∧ s.heap ≠ Heap.fresh (some 0) ∧ s.heap.nextHostHandleId = 2 := by
  refine ⟨.objects 0 0, _, rfl, fun heq => ?_, rfl⟩
  have hid : (2 : ℕ) = 1 := congrArg Heap.nextHostHandleId heq
  omega

/-- A tree of two heaps with a budget of 100 bytes, after one of them allocated. -/
theorem tree_accounts_pair :
    ∃ t : Tree, Tree.Reachable ⟨[Heap.fresh none], ⟨some (.new 100), none, []⟩⟩ t ∧
      t.heaps.length = 2 ∧ ∀ b, t.budgets.memory = some b → b.used = 56 ∧
        b.used = (t.heaps.map (·.currentBytes)).sum := by
  have hstart : Tree.Start ⟨[Heap.fresh none], ⟨some (.new 100), none, []⟩⟩ := by
    refine ⟨⟨none, rfl⟩, ?_, by simp, by simp, List.nodup_nil⟩
    rintro _ ⟨⟩
    exact ⟨rfl, by decide⟩
  have hshare : Tree.Reachable ⟨[Heap.fresh none], ⟨some (.new 100), none, []⟩⟩ _ :=
    .step .start (.share none) (by simpa using Tree.roomy_fresh none)
  have hrun := hshare.step (.alloc 1 (Heap.fresh none) (.rng 0 0) rfl nofun)
    (List.forall_mem_cons.mpr ⟨Tree.roomy_fresh none, List.forall_mem_singleton.mpr
      ⟨(by decide : 1 ≤ u32Size), (by decide : 56 < u64Size), (by decide : 1 < u64Size - 1)⟩⟩)
  refine ⟨_, hrun, rfl, fun b hb => ⟨?_, ((tree_accounts hstart hrun).1 b hb).1⟩⟩
  obtain rfl := Option.some.inj hb
  rfl

end Hiko
