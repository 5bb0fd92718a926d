import Hiko.Heap.Copies
import Hiko.Vm.Memory

/-!
# Globals across spawns

A child runs a closure of its parent's program and reads the parent's globals from a snapshot. The
parent serializes a global once, at the first spawn after its definition, and children and
grandchildren share the message until the global is defined again. A child deserializes a global
when it first reads it.

## Main definitions

* `ProcessGlobals`: what a VM keeps about its globals, with `setGlobal`, `getGlobal`,
  `refreshSpawnSnapshot` and `createChild`
* `ProcessGlobals.held`: what a slot holds, as it is sent
* `GlobalsStep`, `GlobalsRun`: the processes of a tree, in any order of steps

## Main results

* `ProcessGlobals.Ok`: the invariant of a process
* `child_reads_snapshot`: a child reads what its parent held at the spawn
-/

namespace Hiko

open Lib

variable {W : Type}

/-! ## The globals of a process -/

/-- `SnapshotEntry`: a global in its serialized form, or the reason it has none. -/
abbrev SnapshotEntry := Except String SendableValue

/-- `GlobalSnapshot`. -/
abbrev GlobalSnapshot := ℕ → Option SnapshotEntry

/-- What a VM keeps about its globals. `definedGlobals` lists a hash map. -/
structure ProcessGlobals where
  store : Store
  globals : List (Option Value)
  definedGlobals : List (ℕ × Option SnapshotEntry)
  inheritedGlobals : Option GlobalSnapshot
  spawnSnapshot : Option GlobalSnapshot

namespace ProcessGlobals

/-- The value of a slot. -/
def value? (g : ProcessGlobals) (slot : ℕ) : Option Value := (g.globals[slot]?).join

/-- The inherited global of a slot. -/
def inherited? (g : ProcessGlobals) (slot : ℕ) : Option SnapshotEntry :=
  g.inheritedGlobals.bind fun snapshot => snapshot slot

/-- The slots that the VM has defined itself. -/
def Defined (g : ProcessGlobals) (slot : ℕ) : Prop := slot ∈ g.definedGlobals.map Prod.fst

instance (g : ProcessGlobals) (slot : ℕ) : Decidable (g.Defined slot) :=
  inferInstanceAs (Decidable (_ ∈ _))

/-- `note_global_defined`. -/
def noteGlobalDefined (slot : ℕ) (g : ProcessGlobals) : ProcessGlobals :=
  { g with
    spawnSnapshot := none
    definedGlobals := (slot, none) :: g.definedGlobals.filter fun d => d.1 ≠ slot }

/-- `*self.global_mut(slot) = Some(v)`. -/
def setCell (p : CompiledProgram) (slot : ℕ) (v : Value) (g : ProcessGlobals) : ProcessGlobals :=
  { g with globals := (growGlobals p slot g.globals).set slot (some v) }

/-- `Op::SetGlobal` of a value. -/
def setGlobal (p : CompiledProgram) (slot : ℕ) (v : Value) (g : ProcessGlobals) : ProcessGlobals :=
  (g.setCell p slot v).noteGlobalDefined slot

/-- `load_global`. The verifier has checked the slot. -/
def loadGlobal (host : Host W) (p : CompiledProgram) (slot : ℕ) (g : ProcessGlobals) (w : W) :
    Except String Value × ProcessGlobals × W :=
  let name := p.globals.getD slot ""
  match g.inherited? slot with
  | none =>
    match host.byName name with
    | none => (.error ("undefined global: " ++ name), g, w)
    | some id => (.ok (.builtin id), g.setCell p slot (.builtin id), w)
  | some (.error reason) =>
    (.error ("top-level `" ++ name ++ "` cannot be used in a child process: " ++ reason), g, w)
  | some (.ok msg) =>
    match host.chargeHostWork w msg with
    | .error e => (.error (name ++ ": " ++ e), g, w)
    | .ok w' =>
      match Store.deserialize msg g.store with
      | (.error e, store) => (.error e.message, { g with store := store }, w')
      | (.ok v, store) => (.ok v, { g with store := store }.setCell p slot v, w')

/-- `Op::GetGlobal`. -/
def getGlobal (host : Host W) (p : CompiledProgram) (slot : ℕ) (g : ProcessGlobals) (w : W) :
    Except String Value × ProcessGlobals × W :=
  match g.value? slot with
  | some v => (.ok v, g, w)
  | none => g.loadGlobal host p slot w

/-- The loop of `refresh_spawn_snapshot`: the snapshot or an error, and the defined globals with
their serialized forms. `none` where the walk over a value does not end within `fuel`. -/
def refreshEntries (chargeSent : W → SendableValue → Except String W) (maxBytes fuel : ℕ)
    (g : ProcessGlobals) : List (ℕ × Option SnapshotEntry) → GlobalSnapshot → W →
    Option (Except String GlobalSnapshot × List (ℕ × Option SnapshotEntry) × W)
  | [], snapshot, w => some (.ok snapshot, [], w)
  | (slot, some entry) :: rest, snapshot, w =>
    (refreshEntries chargeSent maxBytes fuel g rest
      (Function.update snapshot slot (some entry)) w).map
      fun r => (r.1, (slot, some entry) :: r.2.1, r.2.2)
  | (slot, none) :: rest, snapshot, w =>
    match g.value? slot with
    | none =>
      (refreshEntries chargeSent maxBytes fuel g rest snapshot w).map
        fun r => (r.1, (slot, none) :: r.2.1, r.2.2)
    | some v =>
      match g.store.heap.serialize maxBytes fuel v with
      | none => none
      | some (.error reason) =>
        (refreshEntries chargeSent maxBytes fuel g rest
          (Function.update snapshot slot (some (.error reason))) w).map
          fun r => (r.1, (slot, some (.error reason)) :: r.2.1, r.2.2)
      | some (.ok msg) =>
        match chargeSent w msg with
        | .error e => some (.error ("spawn: " ++ e), (slot, none) :: rest, w)
        | .ok w' =>
          (refreshEntries chargeSent maxBytes fuel g rest
            (Function.update snapshot slot (some (.ok msg))) w').map
            fun r => (r.1, (slot, some (.ok msg)) :: r.2.1, r.2.2)

/-- `refresh_spawn_snapshot`. -/
def refreshSpawnSnapshot (chargeSent : W → SendableValue → Except String W) (maxBytes fuel : ℕ)
    (g : ProcessGlobals) (w : W) : Option (Except String Unit × ProcessGlobals × W) :=
  if g.spawnSnapshot.isSome then some (.ok (), g, w)
  else if g.definedGlobals = [] then
    some (.ok (), { g with spawnSnapshot := g.inheritedGlobals }, w)
  else
    match g.refreshEntries chargeSent maxBytes fuel g.definedGlobals g.inherited? w with
    | none => none
    | some (.error e, defined, w') => some (.error e, { g with definedGlobals := defined }, w')
    | some (.ok snapshot, defined, w') =>
      some (.ok (), { g with definedGlobals := defined, spawnSnapshot := some snapshot }, w')

/-- The globals of `create_child`, in a heap that holds the captures. -/
def createChild (g : ProcessGlobals) (store : Store) : ProcessGlobals where
  store := store
  globals := []
  definedGlobals := []
  inheritedGlobals := g.spawnSnapshot
  spawnSnapshot := none

/-- What a slot holds, as it is sent: the serialized form of the VM's own definition, else what was
inherited. -/
def held (maxBytes fuel : ℕ) (g : ProcessGlobals) (slot : ℕ) : Option SnapshotEntry :=
  if g.Defined slot then (g.value? slot).bind (g.store.heap.serialize maxBytes fuel)
  else g.inherited? slot

end ProcessGlobals

/-! ## Trees of processes -/

/-- What the other instructions do to a heap: they allocate, collect from roots that include the
globals, and bind the captures of closures they have just allocated, which no global reaches. -/
inductive HeapStep (n : ℕ) (globals : List Value) (s : Store) : Store → Prop
  | alloc {obj : HeapObject} {r : GcRef} {s' : Store}
      (safe : ∀ v ∈ obj.children, ValueOk n s.heap v)
      (done : s.alloc obj = (.ok r, s')) : HeapStep n globals s s'
  | collect {roots : List GcRef} {s' : Store} (rooted : ∀ r ∈ refsOf globals, r ∈ roots)
      (done : s.collect roots = some s') : HeapStep n globals s s'
  | captures {r : GcRef} {captures : List Value} {h' : Heap}
      (fresh : ¬ Reaches s.heap.succ ((refsOf globals).map (·.idx)) r.idx)
      (safe : ∀ v ∈ captures, ValueOk n s.heap v)
      (done : s.heap.setClosureCaptures r captures = .ok h') :
      HeapStep n globals s { s with heap := h' }
  | resources {s' : Store} (done : s.heap.SameSlots s'.heap) : HeapStep n globals s s'

/-- A process, and as a ghost what its parent was when it was spawned. -/
structure SpawnedProcess where
  state : ProcessGlobals
  origin : Option ProcessGlobals

/-- The processes of a tree, and what they share. -/
structure GlobalsTree (W : Type) where
  processes : List SpawnedProcess
  world : W

/-- A process of a tree goes on. -/
def GlobalsTree.update (t : GlobalsTree W) (i : ℕ) (g : ProcessGlobals) (w : W) :
    GlobalsTree W where
  processes := t.processes.modify i fun q => { q with state := g }
  world := w

section Steps

variable (host : Host W) (chargeSent : W → SendableValue → Except String W) (maxBytes fuel : ℕ)
  (p : CompiledProgram)

/-- A step of a process, or a charge to what the tree shares. A step of `spawn` that fails after
the snapshot is a `refresh`. Heaps stay within the range of their indices. -/
inductive GlobalsStep (t : GlobalsTree W) : GlobalsTree W → Prop
  | heap {i : ℕ} {q : SpawnedProcess} {s' : Store} (process : t.processes[i]? = some q)
      (done : HeapStep host.nBuiltins (q.state.globals.filterMap id) q.state.store s')
      (small : s'.heap.Small) : GlobalsStep t (t.update i { q.state with store := s' } t.world)
  | define {i : ℕ} {q : SpawnedProcess} {slot : ℕ} {v : Value} (process : t.processes[i]? = some q)
      (safe : ValueOk host.nBuiltins q.state.store.heap v) :
      GlobalsStep t (t.update i (q.state.setGlobal p slot v) t.world)
  | read {i : ℕ} {q : SpawnedProcess} {slot : ℕ} {r : Except String Value} {g' : ProcessGlobals}
      {w' : W} (process : t.processes[i]? = some q)
      (done : q.state.getGlobal host p slot t.world = (r, g', w')) (small : g'.store.heap.Small) :
      GlobalsStep t (t.update i g' w')
  | refresh {i : ℕ} {q : SpawnedProcess} {r : Except String Unit} {g' : ProcessGlobals} {w' : W}
      (process : t.processes[i]? = some q)
      (done : q.state.refreshSpawnSnapshot chargeSent maxBytes fuel t.world = some (r, g', w')) :
      GlobalsStep t (t.update i g' w')
  | spawn {i : ℕ} {q : SpawnedProcess} {g' : ProcessGlobals} {w' : W} {budgets : Budgets}
      {maxObjects : Option ℕ} {msgs : List SendableValue} {captures : List Value} {store : Store}
      (process : t.processes[i]? = some q)
      (done : q.state.refreshSpawnSnapshot chargeSent maxBytes fuel t.world = some (.ok (), g', w'))
      (sent : SendableValue.AllOk host.nBuiltins msgs)
      (arrived : Store.deserializeAll msgs ⟨Heap.fresh maxObjects, budgets⟩ = (.ok captures, store))
      (small : store.heap.Small) :
      GlobalsStep t { t.update i g' w' with
        processes := (t.update i g' w').processes ++ [⟨g'.createChild store, some g'⟩] }
  | work (w' : W) : GlobalsStep t { t with world := w' }

/-- The runs of a tree, from a root with no globals. -/
inductive GlobalsRun : GlobalsTree W → Prop
  | start (budgets : Budgets) (maxObjects : Option ℕ) (w : W) :
      GlobalsRun ⟨[⟨⟨⟨Heap.fresh maxObjects, budgets⟩, [], [], none, none⟩, none⟩], w⟩
  | step {t t' : GlobalsTree W} (run : GlobalsRun t)
      (done : GlobalsStep host chargeSent maxBytes fuel p t t') : GlobalsRun t'

end Steps

/-! ## Heaps under running processes -/

section Heaps

variable {n : ℕ} {h : Heap} {s s' : Store} {globals : List Value}

/-- The part of a heap that some values reach. -/
def Heap.reached (h : Heap) (vs : List Value) : Set ℕ :=
  {i | Reaches h.succ ((refsOf vs).map (·.idx)) i}

theorem into_reached {vs : List Value} {v : Value} (hv : v ∈ vs) : v.Into (h.reached vs) := by
  rintro r rfl
  exact .root (List.mem_map_of_mem (mem_refsOf.mpr hv))

/-- What safe values reach is there. -/
theorem reached_object (hok : HeapOk n h) (hsmall : h.Small) {vs : List Value}
    (hvs : ∀ v ∈ vs, ValueOk n h v) {i : ℕ} (hi : i ∈ h.reached vs) :
    ∃ o, h.object? i = some o := by
  refine Option.isSome_iff_exists.mp ?_
  induction hi with
  | root hr =>
    obtain ⟨r, hmem, rfl⟩ := List.mem_map.mp hr
    exact ((hvs _ (mem_refsOf.mp hmem)).names r rfl hsmall).1
  | step hr hj ih =>
    unfold Heap.succ at hj
    split at hj
    · next o ho =>
      obtain ⟨r, hmem, rfl⟩ := List.mem_map.mp hj
      exact ((hok.children _ o ho _ (mem_refsOf.mp hmem)).names r rfl hsmall).1
    · cases hj

/-- A heap that keeps what some values reach shares it. -/
theorem shares_reached {h' : Heap} (hok : HeapOk n h) (hsmall : h.Small) {vs : List Value}
    (hvs : ∀ v ∈ vs, ValueOk n h v)
    (hkeep : ∀ i ∈ h.reached vs, ∀ o, h.object? i = some o → h'.object? i = some o) :
    h.Shares h' (h.reached vs) := by
  intro i hi
  obtain ⟨o, ho⟩ := reached_object hok hsmall hvs hi
  refine ⟨o, ho, hkeep i hi o ho, fun r hr => Reaches.step hi ?_⟩
  rw [Heap.succ, ho]
  exact List.mem_map_of_mem hr

/-- What a step of the heap leaves, for the globals. -/
structure Carried (n : ℕ) (globals : List Value) (h h' : Heap) : Prop where
  heap : HeapOk n h'
  safe : ∀ v ∈ globals, ValueOk n h' v
  shares : h.Shares h' (h.reached globals)

theorem HeapStep.carried (h : HeapStep n globals s s') (hok : HeapOk n s.heap)
    (hsmall : s.heap.Small) (hvs : ∀ v ∈ globals, ValueOk n s.heap v) (hsmall' : s'.heap.Small) :
    Carried n globals s.heap s'.heap := by
  cases h with
  | alloc safe done =>
    obtain ⟨hkeeps, hok', -⟩ := Store.alloc_ok hok safe done
    obtain ⟨hempty, -, hother⟩ := Store.alloc_object hok done hsmall'
    refine ⟨hok', fun v hv => (hvs v hv).keeps hkeeps, ?_⟩
    refine shares_reached hok hsmall hvs fun i _ o ho => ?_
    rw [hother i ?_]
    · exact ho
    · rintro rfl
      rw [hempty] at ho
      cases ho
  | collect rooted done =>
    have hmono : ∀ i ∈ s.heap.reached globals, s'.heap.object? i = s.heap.object? i :=
      fun i hi => Store.collect_object done (Reaches.mono hi fun j hj => by
        obtain ⟨r, hr, rfl⟩ := List.mem_map.mp hj
        exact .root (List.mem_map_of_mem (rooted r hr)))
    refine ⟨Store.heapOk_collect done hok, fun v hv => ?_, ?_⟩
    · refine Store.valueOk_collect done (hvs v hv) fun r hr => ?_
      subst hr
      exact .root (List.mem_map_of_mem (rooted r (mem_refsOf.mpr hv)))
    · exact shares_reached hok hsmall hvs fun i hi o ho => (hmono i hi).trans ho
  | @captures r captures h' fresh safe done =>
    obtain ⟨hkeeps, hok'⟩ := hok.setClosureCaptures done safe
    refine ⟨hok', fun v hv => (hvs v hv).keeps hkeeps, ?_⟩
    refine shares_reached hok hsmall hvs fun i hi o ho => ?_
    have hne : r.idx ≠ i := by
      rintro rfl
      exact fresh hi
    unfold Heap.setClosureCaptures at done
    split at done
    · obtain rfl := Except.ok.inj done
      rw [Heap.object?, List.getElem?_set_ne hne]
      exact ho
    · cases done
    · cases done
  | resources done =>
    refine ⟨hok.sameSlots done, fun v hv => (hvs v hv).keeps done.keeps, ?_⟩
    refine shares_reached hok hsmall hvs fun i _ o ho => ?_
    rw [Heap.object?, done.objects]
    exact ho

end Heaps

/-! ## Cells -/

namespace ProcessGlobals

section Cells

variable {p : CompiledProgram} {g : ProcessGlobals} {slot : ℕ} {v : Value}

theorem lt_length_growGlobals (p : CompiledProgram) (slot : ℕ) (globals : List (Option Value)) :
    slot < (growGlobals p slot globals).length := by
  unfold growGlobals
  split
  · simp only [List.length_append, List.length_replicate]
    omega
  · omega

theorem value?_setCell (slot' : ℕ) :
    (g.setCell p slot v).value? slot' = if slot' = slot then some v else g.value? slot' := by
  have hlt := lt_length_growGlobals p slot g.globals
  have hgrow : ((growGlobals p slot g.globals)[slot']?).join = g.value? slot' := by
    unfold growGlobals value?
    split
    · rcases lt_or_ge slot' g.globals.length with hin | hout
      · rw [List.getElem?_append_left hin]
      · rw [List.getElem?_append_right hout, List.getElem?_eq_none hout, List.getElem?_replicate]
        split <;> rfl
    · rfl
  unfold value? setCell
  dsimp only
  rw [List.getElem?_set]
  by_cases heq : slot' = slot
  · subst heq
    simp [hlt]
  · rw [if_neg (Ne.symm heq), if_neg heq]
    exact hgrow

theorem value?_mem (hv : g.value? slot = some v) : v ∈ g.globals.filterMap id := by
  rw [value?, Option.join_eq_some_iff] at hv
  exact List.mem_filterMap.mpr ⟨some v, List.mem_of_getElem? hv, rfl⟩

theorem mem_value? (hv : v ∈ g.globals.filterMap id) : ∃ slot, g.value? slot = some v := by
  obtain ⟨o, ho, rfl⟩ := List.mem_filterMap.mp hv
  obtain ⟨slot, hslot⟩ := List.mem_iff_getElem?.mp ho
  exact ⟨slot, by rw [value?, hslot]; rfl⟩

theorem defined_noteGlobalDefined (slot' : ℕ) :
    (g.noteGlobalDefined slot).Defined slot' ↔ slot' = slot ∨ g.Defined slot' := by
  simp only [Defined, noteGlobalDefined, List.map_cons, List.mem_cons, List.mem_map,
    List.mem_filter, decide_eq_true_eq]
  constructor
  · rintro (rfl | ⟨d, ⟨hd, -⟩, rfl⟩)
    · exact .inl rfl
    · exact .inr ⟨d, hd, rfl⟩
  · rintro (rfl | ⟨d, hd, rfl⟩)
    · exact .inl rfl
    · by_cases heq : d.1 = slot
      · exact .inl heq
      · exact .inr ⟨d, ⟨hd, heq⟩, rfl⟩

end Cells

end ProcessGlobals

/-! ## The invariant of a process -/

section Invariant

variable {host : Host W} {chargeSent : W → SendableValue → Except String W} {maxBytes fuel : ℕ}
  {p : CompiledProgram}

namespace ProcessGlobals

/-- A definition holds a value, and its cached form, if there is one, is that of the value. -/
def Cached (maxBytes fuel : ℕ) (g : ProcessGlobals) (d : ℕ × Option SnapshotEntry) : Prop :=
  ∃ v, g.value? d.1 = some v ∧
    ∀ entry, d.2 = some entry → g.store.heap.serialize maxBytes fuel v = some entry

/-- **The invariant of a process.** What it has cached and handed on is what its slots hold now. -/
structure Ok (host : Host W) (maxBytes fuel : ℕ) (p : CompiledProgram) (g : ProcessGlobals) :
    Prop where
  heap : HeapOk host.nBuiltins g.store.heap
  small : g.store.heap.Small
  safe : ∀ v ∈ g.globals.filterMap id, ValueOk host.nBuiltins g.store.heap v
  nodup : (g.definedGlobals.map Prod.fst).Nodup
  cached : ∀ d ∈ g.definedGlobals, g.Cached maxBytes fuel d
  /-- a value that is not the VM's own was inherited, or is a builtin -/
  loaded : ∀ slot v, g.value? slot = some v → ¬ g.Defined slot →
    (∃ msg, g.inherited? slot = some (.ok msg) ∧ Unfolds g.store.heap msg.tree v) ∨
      (g.inherited? slot = none ∧
        ∃ id, host.byName (p.globals.getD slot "") = some id ∧ v = .builtin id)
  inherited : ∀ slot msg, g.inherited? slot = some (.ok msg) → msg.Ok host.nBuiltins
  snapshot : ∀ snapshot, g.spawnSnapshot = some snapshot →
    ∀ slot, snapshot slot = g.held maxBytes fuel slot ∧
      (g.Defined slot → (snapshot slot).isSome = true)

variable {g : ProcessGlobals} {w w' : W}

theorem Ok.value_of_defined (hok : g.Ok host maxBytes fuel p) {slot : ℕ} (hd : g.Defined slot) :
    ∃ v, g.value? slot = some v := by
  obtain ⟨d, hmem, rfl⟩ := List.mem_map.mp hd
  obtain ⟨v, hv, -⟩ := hok.cached d hmem
  exact ⟨v, hv⟩

/-- A message that may be sent names builtins that are there. -/
theorem Ok.held_ok (hok : g.Ok host maxBytes fuel p) {slot : ℕ} {msg : SendableValue}
    (hheld : g.held maxBytes fuel slot = some (.ok msg)) : msg.Ok host.nBuiltins := by
  unfold held at hheld
  split at hheld
  · obtain ⟨v, hv, hser⟩ := Option.bind_eq_some_iff.mp hheld
    exact ok_of_unfolds msg hok.heap (hok.safe v (value?_mem hv)) (unfolds_of_serialize hser)
  · exact hok.inherited slot msg hheld

/-- A heap that carries the globals. -/
theorem held_store {s' : Store}
    (hshare : g.store.heap.Shares s'.heap (g.store.heap.reached (g.globals.filterMap id)))
    (slot : ℕ) :
    held maxBytes fuel { g with store := s' } slot = g.held maxBytes fuel slot := by
  unfold held
  change (if g.Defined slot then (g.value? slot).bind (s'.heap.serialize maxBytes fuel)
    else g.inherited? slot) = _
  cases hv : g.value? slot with
  | none => rfl
  | some v =>
    simp only [Option.bind_some,
      hshare.serialize (into_reached (value?_mem hv)) maxBytes fuel]

theorem Ok.store (hok : g.Ok host maxBytes fuel p) {s' : Store}
    (hc : Carried host.nBuiltins (g.globals.filterMap id) g.store.heap s'.heap)
    (hsmall : s'.heap.Small) : Ok host maxBytes fuel p { g with store := s' } := by
  have hinto : ∀ {slot v}, g.value? slot = some v →
      v.Into (g.store.heap.reached (g.globals.filterMap id)) :=
    fun hv => into_reached (value?_mem hv)
  refine ⟨hc.heap, hsmall, hc.safe, hok.nodup, fun d hd => ?_, fun slot v hv hd => ?_,
    hok.inherited, fun snapshot hs slot => ?_⟩
  · obtain ⟨v, hv, hform⟩ := hok.cached d hd
    refine ⟨v, hv, fun entry he => ?_⟩
    exact (hc.shares.serialize (hinto hv) maxBytes fuel).trans (hform entry he)
  · rcases hok.loaded slot v hv hd with ⟨msg, hmsg, hun⟩ | hbuiltin
    · exact .inl ⟨msg, hmsg, hc.shares.unfolds _ _ (hinto hv) hun⟩
    · exact .inr hbuiltin
  · rw [held_store hc.shares]
    exact hok.snapshot snapshot hs slot

theorem Ok.setGlobal (hok : g.Ok host maxBytes fuel p) {slot : ℕ} {v : Value}
    (hv : ValueOk host.nBuiltins g.store.heap v) :
    (g.setGlobal p slot v).Ok host maxBytes fuel p := by
  have hvalue : ∀ slot', (g.setGlobal p slot v).value? slot' =
      if slot' = slot then some v else g.value? slot' := value?_setCell
  refine ⟨hok.heap, hok.small, fun u hu => ?_, ?_, fun d hd => ?_, fun slot' u hu hd => ?_,
    hok.inherited, nofun⟩
  · obtain ⟨slot', hslot'⟩ := mem_value? hu
    rw [hvalue] at hslot'
    split at hslot'
    · obtain rfl := Option.some.inj hslot'
      exact hv
    · exact hok.safe u (value?_mem hslot')
  · change ((slot, none) :: g.definedGlobals.filter fun d => d.1 ≠ slot).map Prod.fst |>.Nodup
    rw [List.map_cons, List.nodup_cons]
    refine ⟨?_, hok.nodup.sublist (List.filter_sublist.map _)⟩
    simp
  · rcases List.mem_cons.mp hd with rfl | hd
    · exact ⟨v, by rw [hvalue]; simp, nofun⟩
    · obtain ⟨hmem, hne⟩ := List.mem_filter.mp hd
      obtain ⟨u, hu, hform⟩ := hok.cached d hmem
      refine ⟨u, ?_, hform⟩
      rw [hvalue, if_neg (by simpa using hne)]
      exact hu
  · have hnot := mt (defined_noteGlobalDefined slot').mpr hd
    push Not at hnot
    rw [hvalue, if_neg hnot.1] at hu
    exact hok.loaded slot' u hu hnot.2

/-- Another cell of a slot that had no value. -/
theorem Ok.setCell (hok : g.Ok host maxBytes fuel p) {slot : ℕ} {v : Value}
    (hnone : g.value? slot = none) (hv : ValueOk host.nBuiltins g.store.heap v)
    (hloaded : (∃ msg, g.inherited? slot = some (.ok msg) ∧ Unfolds g.store.heap msg.tree v) ∨
      (g.inherited? slot = none ∧
        ∃ id, host.byName (p.globals.getD slot "") = some id ∧ v = .builtin id)) :
    (g.setCell p slot v).Ok host maxBytes fuel p := by
  have hvalue : ∀ slot', (g.setCell p slot v).value? slot' =
      if slot' = slot then some v else g.value? slot' := value?_setCell
  have hne : ∀ slot', g.Defined slot' → slot' ≠ slot := by
    rintro slot' hd rfl
    obtain ⟨u, hu⟩ := hok.value_of_defined hd
    rw [hnone] at hu
    cases hu
  refine ⟨hok.heap, hok.small, fun u hu => ?_, hok.nodup, fun d hd => ?_, fun slot' u hu hd => ?_,
    hok.inherited, fun snapshot hs slot' => ?_⟩
  · obtain ⟨slot', hslot'⟩ := mem_value? hu
    rw [hvalue] at hslot'
    split at hslot'
    · obtain rfl := Option.some.inj hslot'
      exact hv
    · exact hok.safe u (value?_mem hslot')
  · obtain ⟨u, hu, hform⟩ := hok.cached d hd
    refine ⟨u, ?_, hform⟩
    rw [hvalue, if_neg (hne d.1 (List.mem_map_of_mem hd))]
    exact hu
  · rw [hvalue] at hu
    split at hu
    · next heq =>
      obtain rfl := Option.some.inj hu
      subst heq
      exact hloaded
    · exact hok.loaded slot' u hu hd
  · obtain ⟨hheld, hsome⟩ := hok.snapshot snapshot hs slot'
    refine ⟨?_, hsome⟩
    rw [hheld]
    change _ = if g.Defined slot' then
      ((g.setCell p slot v).value? slot').bind (g.store.heap.serialize maxBytes fuel)
      else g.inherited? slot'
    unfold held
    split
    · next hd => rw [hvalue, if_neg (hne slot' hd)]
    · rfl

end ProcessGlobals

end Invariant

/-! ## Reading a global -/

section Read

variable {host : Host W} {p : CompiledProgram} {maxBytes fuel : ℕ}

namespace ProcessGlobals

/-- What a read of a slot can do. -/
inductive Read (host : Host W) (p : CompiledProgram) (slot : ℕ) (g : ProcessGlobals) (w : W) :
    Except String Value × ProcessGlobals × W → Prop
  | value {v : Value} (hv : g.value? slot = some v) : Read host p slot g w (.ok v, g, w)
  | builtin {id : ℕ} (hv : g.value? slot = none) (hinh : g.inherited? slot = none)
      (hid : host.byName (p.globals.getD slot "") = some id) :
      Read host p slot g w (.ok (.builtin id), g.setCell p slot (.builtin id), w)
  | undefined (hv : g.value? slot = none) (hinh : g.inherited? slot = none)
      (hid : host.byName (p.globals.getD slot "") = none) :
      Read host p slot g w (.error ("undefined global: " ++ p.globals.getD slot ""), g, w)
  | unsent {reason : String} (hv : g.value? slot = none)
      (hinh : g.inherited? slot = some (.error reason)) :
      Read host p slot g w (.error ("top-level `" ++ p.globals.getD slot "" ++
        "` cannot be used in a child process: " ++ reason), g, w)
  | work {msg : SendableValue} {e : String} (hv : g.value? slot = none)
      (hinh : g.inherited? slot = some (.ok msg)) (hwork : host.chargeHostWork w msg = .error e) :
      Read host p slot g w (.error (p.globals.getD slot "" ++ ": " ++ e), g, w)
  | full {msg : SendableValue} {w' : W} {e : HeapLimitExceeded} {store : Store}
      (hv : g.value? slot = none) (hinh : g.inherited? slot = some (.ok msg))
      (hwork : host.chargeHostWork w msg = .ok w')
      (hdes : Store.deserialize msg g.store = (.error e, store)) :
      Read host p slot g w (.error e.message, { g with store := store }, w')
  | loaded {msg : SendableValue} {w' : W} {v : Value} {store : Store}
      (hv : g.value? slot = none) (hinh : g.inherited? slot = some (.ok msg))
      (hwork : host.chargeHostWork w msg = .ok w')
      (hdes : Store.deserialize msg g.store = (.ok v, store)) :
      Read host p slot g w (.ok v, { g with store := store }.setCell p slot v, w')

variable {g g' : ProcessGlobals} {slot : ℕ} {w w' : W} {r : Except String Value}

theorem getGlobal_read (host : Host W) (p : CompiledProgram) (slot : ℕ) (g : ProcessGlobals)
    (w : W) : Read host p slot g w (g.getGlobal host p slot w) := by
  unfold getGlobal
  split
  · next v hv => exact .value hv
  · next hv =>
    unfold loadGlobal
    dsimp only
    split
    · next hinh =>
      split
      · next hid => exact .undefined hv hinh hid
      · next id hid => exact .builtin hv hinh hid
    · next reason hinh => exact .unsent hv hinh
    · next msg hinh =>
      split
      · next e hwork => exact .work hv hinh hwork
      · next w' hwork =>
        split
        · next e store hdes => exact .full hv hinh hwork hdes
        · next v store hdes => exact .loaded hv hinh hwork hdes

theorem carried_deserialize {n : ℕ} {s s' : Store} {globals : List Value} {msg : SendableValue}
    {r : Except HeapLimitExceeded Value} (hok : HeapOk n s.heap) (hsmall : s.heap.Small)
    (hvs : ∀ v ∈ globals, ValueOk n s.heap v) (hm : msg.Ok n)
    (hdes : Store.deserialize msg s = (r, s')) (hsmall' : s'.heap.Small) :
    Carried n globals s.heap s'.heap ∧
      ∀ v, r = .ok v → ValueOk n s'.heap v ∧ Unfolds s'.heap msg.tree v := by
  obtain ⟨hkeeps, hok', hsafe⟩ := arrives_deserialize msg s hok hm
  have hlands := lands_deserialize msg s hok hm
  rw [hdes] at hkeeps hok' hsafe hlands
  obtain ⟨hext, hun⟩ := hlands hsmall'
  refine ⟨⟨hok', fun v hv => (hvs v hv).keeps hkeeps, ?_⟩, fun v hv => ⟨?_, hun v hv⟩⟩
  · exact shares_reached hok hsmall hvs fun i _ o ho => hext i o ho
  · exact hsafe v hv v List.mem_cons_self

/-- A read keeps the invariant, and leaves the value it gives in the slot. -/
theorem Ok.getGlobal (hnames : ∀ name id, host.byName name = some id → id < host.nBuiltins)
    (hok : g.Ok host maxBytes fuel p) (hread : g.getGlobal host p slot w = (r, g', w'))
    (hsmall : g'.store.heap.Small) :
    g'.Ok host maxBytes fuel p ∧ g'.inheritedGlobals = g.inheritedGlobals ∧
      g'.definedGlobals = g.definedGlobals ∧ ∀ v, r = .ok v → g'.value? slot = some v := by
  have hcell : ∀ (g : ProcessGlobals) v, (g.setCell p slot v).value? slot = some v := fun g v => by
    rw [value?_setCell, if_pos rfl]
  have h := getGlobal_read host p slot g w
  rw [hread] at h
  cases h with
  | value hv =>
    refine ⟨hok, rfl, rfl, ?_⟩
    rintro _ ⟨⟩
    exact hv
  | builtin hv hinh hid =>
    refine ⟨hok.setCell hv (valueOk_builtin (hnames _ _ hid)) (.inr ⟨hinh, _, hid, rfl⟩), rfl, rfl,
      ?_⟩
    rintro _ ⟨⟩
    exact hcell _ _
  | undefined | unsent | work => exact ⟨hok, rfl, rfl, nofun⟩
  | full hv hinh hwork hdes =>
    obtain ⟨hc, -⟩ := carried_deserialize hok.heap hok.small hok.safe (hok.inherited _ _ hinh) hdes
      hsmall
    exact ⟨hok.store hc hsmall, rfl, rfl, nofun⟩
  | @loaded msg w' v store hv hinh hwork hdes =>
    obtain ⟨hc, hval⟩ := carried_deserialize hok.heap hok.small hok.safe (hok.inherited _ _ hinh)
      hdes hsmall
    obtain ⟨hsafe, hun⟩ := hval v rfl
    have hstore := hok.store hc hsmall
    refine ⟨hstore.setCell hv hsafe (.inl ⟨msg, hinh, hun⟩), rfl, rfl, ?_⟩
    rintro _ ⟨⟩
    exact hcell _ _

end ProcessGlobals

end Read

/-! ## The instruction -/

section Instruction

variable {host : Host W} {p : CompiledProgram}

/-- The globals of a VM, with what the host keeps for spawns. -/
def Vm.processGlobals (s : Vm W) (defined : List (ℕ × Option SnapshotEntry))
    (snapshot : Option GlobalSnapshot) : ProcessGlobals :=
  ⟨s.store, s.globals, defined, some s.inheritedGlobals, snapshot⟩

/-- The VM loads a global as its process does, and notes the refusal of an allocation. -/
theorem loadGlobal_processGlobals {slot : ℕ} (hslot : slot < p.globals.length) (s : Vm W)
    (defined : List (ℕ × Option SnapshotEntry)) (snapshot : Option GlobalSnapshot) :
    ∃ refused, loadGlobal host p slot s =
      match (s.processGlobals defined snapshot).loadGlobal host p slot s.world with
      | (.ok v, g', w') => .ok v { s with store := g'.store, globals := g'.globals, world := w' }
      | (.error e, g', w') =>
        .error ⟨e⟩ { s with store := g'.store, world := w', refused := refused } := by
  have hname : p.globals[slot]? = some (p.globals.getD slot "") := by
    rw [List.getD_eq_getElem?_getD, List.getElem?_eq_getElem hslot]
    rfl
  have hcell : ∀ (v : Value) (s : Vm W), setGlobalCell p slot v s =
      .ok () { s with globals := (growGlobals p slot s.globals).set slot (some v) } :=
    fun v s => if_pos (ProcessGlobals.lt_length_growGlobals p slot s.globals)
  have hinh : (s.processGlobals defined snapshot).inherited? slot = s.inheritedGlobals slot := rfl
  unfold loadGlobal ProcessGlobals.loadGlobal
  rw [hname, hinh]
  simp only [Exec.orFault, bind, Exec.get, Exec.modify, pure]
  cases s.inheritedGlobals slot with
  | none =>
    refine ⟨s.refused, ?_⟩
    cases host.byName (p.globals.getD slot "") with
    | none => rfl
    | some id =>
      simp only [Exec.orThrow, pure, hcell]
      rfl
  | some entry =>
    cases entry with
    | error reason => exact ⟨s.refused, rfl⟩
    | ok msg =>
      cases hwork : host.chargeHostWork s.world msg with
      | error e =>
        refine ⟨s.refused, ?_⟩
        simp only [hwork]
        rfl
      | ok w' =>
        simp only [deserializeValue, Vm.processGlobals, hwork]
        cases hdes : Store.deserialize msg s.store with
        | mk r store =>
          cases r with
          | error e => exact ⟨some e, rfl⟩
          | ok v =>
            refine ⟨s.refused, ?_⟩
            simp only [hcell]
            rfl

end Instruction

/-! ## The snapshot -/

section Refresh

variable {host : Host W} {chargeSent : W → SendableValue → Except String W} {maxBytes fuel : ℕ}
  {p : CompiledProgram}

namespace ProcessGlobals

variable {g g' : ProcessGlobals} {w w' : W}

/-- A charge of `spawn` has failed with this error. -/
def ChargeFailed (chargeSent : W → SendableValue → Except String W) (e : String) : Prop :=
  ∃ w msg reason, chargeSent w msg = .error reason ∧ e = "spawn: " ++ reason

/-- What the loop of `refresh_spawn_snapshot` leaves. -/
structure Refreshed (chargeSent : W → SendableValue → Except String W) (maxBytes fuel : ℕ)
    (g : ProcessGlobals) (defined : List (ℕ × Option SnapshotEntry)) (snapshot : GlobalSnapshot)
    (r : Except String GlobalSnapshot × List (ℕ × Option SnapshotEntry) × W) : Prop where
  slots : r.2.1.map Prod.fst = defined.map Prod.fst
  cached : ∀ d ∈ r.2.1, g.Cached maxBytes fuel d
  ok : ∀ snapshot', r.1 = .ok snapshot' → ∀ slot,
    (slot ∈ defined.map Prod.fst → (snapshot' slot).isSome = true ∧
      snapshot' slot = (g.value? slot).bind (g.store.heap.serialize maxBytes fuel)) ∧
    (slot ∉ defined.map Prod.fst → snapshot' slot = snapshot slot)
  error : ∀ e, r.1 = .error e → ChargeFailed chargeSent e

/-- One definition with its serialized form, before the others. -/
theorem Refreshed.cons {defined : List (ℕ × Option SnapshotEntry)} {snapshot : GlobalSnapshot}
    {r : Except String GlobalSnapshot × List (ℕ × Option SnapshotEntry) × W} {slot : ℕ} {v : Value}
    {entry : SnapshotEntry} {form : Option SnapshotEntry} (hnotin : slot ∉ defined.map Prod.fst)
    (hv : g.value? slot = some v) (hform : g.store.heap.serialize maxBytes fuel v = some entry)
    (h : Refreshed chargeSent maxBytes fuel g defined
      (Function.update snapshot slot (some entry)) r) :
    Refreshed chargeSent maxBytes fuel g ((slot, form) :: defined) snapshot
      (r.1, (slot, some entry) :: r.2.1, r.2.2) := by
  refine ⟨by simp [h.slots], ?_, fun snapshot' hr slot' => ?_, h.error⟩
  · refine List.forall_mem_cons.mpr ⟨⟨v, hv, ?_⟩, h.cached⟩
    rintro _ ⟨⟩
    exact hform
  · obtain ⟨hin, hout⟩ := h.ok snapshot' hr slot'
    simp only [List.map_cons, List.mem_cons, not_or]
    constructor
    · rintro (rfl | hmem)
      · rw [hout hnotin, Function.update_self, hv]
        exact ⟨rfl, hform.symm⟩
      · exact hin hmem
    · rintro ⟨hne, hmem⟩
      rw [hout hmem, Function.update_of_ne hne]

theorem refreshEntries_refreshed : ∀ (defined : List (ℕ × Option SnapshotEntry))
    (snapshot : GlobalSnapshot) (w : W)
    {r : Except String GlobalSnapshot × List (ℕ × Option SnapshotEntry) × W},
    (∀ d ∈ defined, g.Cached maxBytes fuel d) → (defined.map Prod.fst).Nodup →
    g.refreshEntries chargeSent maxBytes fuel defined snapshot w = some r →
    Refreshed chargeSent maxBytes fuel g defined snapshot r
  | [], snapshot, w, r, _, _, h => by
    obtain rfl := Option.some.inj h
    refine ⟨rfl, by simp, ?_, nofun⟩
    rintro _ ⟨⟩ slot
    simp
  | (slot, some entry) :: rest, snapshot, w, r, hcached, hnodup, h => by
    rw [refreshEntries, Option.map_eq_some_iff] at h
    obtain ⟨r', hrest, rfl⟩ := h
    rw [List.map_cons, List.nodup_cons] at hnodup
    obtain ⟨v, hv, hform⟩ := hcached _ List.mem_cons_self
    exact (refreshEntries_refreshed rest _ w (fun d hd => hcached d (List.mem_cons_of_mem _ hd))
      hnodup.2 hrest).cons hnodup.1 hv (hform entry rfl)
  | (slot, none) :: rest, snapshot, w, r, hcached, hnodup, h => by
    obtain ⟨v, hv, -⟩ := hcached _ List.mem_cons_self
    have hcached' : ∀ d ∈ rest, g.Cached maxBytes fuel d :=
      fun d hd => hcached d (List.mem_cons_of_mem _ hd)
    have hslot := hnodup
    rw [List.map_cons, List.nodup_cons] at hslot
    rw [refreshEntries, hv] at h
    dsimp only at h
    split at h
    · cases h
    · next reason hser =>
      obtain ⟨r', hrest, rfl⟩ := Option.map_eq_some_iff.mp h
      exact (refreshEntries_refreshed rest _ w hcached' hslot.2 hrest).cons hslot.1 hv hser
    · next msg hser =>
      split at h
      · next e hcharge =>
        obtain rfl := Option.some.inj h
        refine ⟨rfl, ?_, nofun, ?_⟩
        · exact List.forall_mem_cons.mpr ⟨⟨v, hv, nofun⟩, hcached'⟩
        · rintro _ ⟨⟩
          exact ⟨w, msg, e, hcharge, rfl⟩
      · next w' hcharge =>
        obtain ⟨r', hrest, rfl⟩ := Option.map_eq_some_iff.mp h
        exact (refreshEntries_refreshed rest _ w' hcached' hslot.2 hrest).cons hslot.1 hv hser

/-- What a refresh leaves: everything but the cached forms is as it was, and after a success the
snapshot is what the slots hold. -/
structure Renewed (chargeSent : W → SendableValue → Except String W) (maxBytes fuel : ℕ)
    (g : ProcessGlobals) (r : Except String Unit) (g' : ProcessGlobals) : Prop where
  inherited : g'.inheritedGlobals = g.inheritedGlobals
  snapshot : r = .ok () → ∀ slot, (g'.spawnSnapshot.bind fun snapshot => snapshot slot) =
    g'.held maxBytes fuel slot ∧ (g'.Defined slot → (g'.held maxBytes fuel slot).isSome = true)
  error : ∀ e, r = .error e → ChargeFailed chargeSent e

theorem Ok.refresh {r : Except String Unit} (hok : g.Ok host maxBytes fuel p)
    (h : g.refreshSpawnSnapshot chargeSent maxBytes fuel w = some (r, g', w')) :
    g'.Ok host maxBytes fuel p ∧ Renewed chargeSent maxBytes fuel g r g' := by
  unfold refreshSpawnSnapshot at h
  split at h
  · next hsome =>
    obtain ⟨rfl, rfl, rfl⟩ : .ok () = r ∧ g = g' ∧ w = w' := by simpa using h
    obtain ⟨snapshot, hs⟩ := Option.isSome_iff_exists.mp hsome
    refine ⟨hok, rfl, fun _ slot => ?_, nofun⟩
    obtain ⟨hheld, hdef⟩ := hok.snapshot snapshot hs slot
    rw [hs, ← hheld]
    exact ⟨rfl, hdef⟩
  · next hnosnap =>
    split at h
    · next hnil =>
      obtain ⟨rfl, rfl, rfl⟩ : .ok () = r ∧ { g with spawnSnapshot := g.inheritedGlobals } = g' ∧
        w = w' := by simpa using h
      have hnone : ∀ slot, ¬ g.Defined slot := by
        intro slot hd
        rw [Defined, hnil] at hd
        cases hd
      have hheld : ∀ slot, held maxBytes fuel { g with spawnSnapshot := g.inheritedGlobals } slot =
          g.inherited? slot := fun slot => if_neg (hnone slot)
      refine ⟨⟨hok.heap, hok.small, hok.safe, hok.nodup, hok.cached, hok.loaded, hok.inherited,
        fun snapshot hs slot => ?_⟩, rfl, fun _ slot => ?_, nofun⟩
      · rw [hheld]
        exact ⟨by rw [inherited?, show g.inheritedGlobals = some snapshot from hs]; rfl,
          fun hd => absurd hd (hnone slot)⟩
      · rw [hheld]
        exact ⟨rfl, fun hd => absurd hd (hnone slot)⟩
    · split at h
      · cases h
      · next e defined w₁ hentries =>
        obtain ⟨rfl, rfl, rfl⟩ : .error e = r ∧ { g with definedGlobals := defined } = g' ∧
          w₁ = w' := by simpa using h
        have hr := refreshEntries_refreshed _ _ _ hok.cached hok.nodup hentries
        have hdef : ∀ slot, slot ∈ defined.map Prod.fst ↔ g.Defined slot := fun slot => by
          rw [hr.slots, Defined]
        refine ⟨⟨hok.heap, hok.small, hok.safe, ?_, hr.cached, fun slot v hv hd => ?_,
          hok.inherited, fun snapshot hs slot => ?_⟩, rfl, nofun, fun e he => hr.error e ?_⟩
        · exact hr.slots ▸ hok.nodup
        · exact hok.loaded slot v hv (mt (hdef slot).mpr hd)
        · rw [show g.spawnSnapshot = some snapshot from hs] at hnosnap
          exact absurd rfl hnosnap
        · obtain rfl := Except.error.inj he
          rfl
      · next snapshot defined w₁ hentries =>
        obtain ⟨rfl, rfl, rfl⟩ : .ok () = r ∧
          { g with definedGlobals := defined, spawnSnapshot := some snapshot } = g' ∧ w₁ = w' := by
            simpa using h
        have hr := refreshEntries_refreshed _ _ _ hok.cached hok.nodup hentries
        have hdef : ∀ slot, slot ∈ defined.map Prod.fst ↔ g.Defined slot := fun slot => by
          rw [hr.slots, Defined]
        have hsnap : ∀ slot, snapshot slot = held maxBytes fuel
            { g with definedGlobals := defined, spawnSnapshot := some snapshot } slot ∧
            (g.Defined slot → (snapshot slot).isSome = true) := by
          intro slot
          obtain ⟨hin, hout⟩ := hr.ok snapshot rfl slot
          refine ⟨?_, fun hd => (hin hd).1⟩
          unfold held
          split
          · next hd => exact (hin ((hdef slot).mp hd)).2
          · next hd => exact hout (mt (hdef slot).mpr hd)
        refine ⟨⟨hok.heap, hok.small, hok.safe, hr.slots ▸ hok.nodup, hr.cached,
          fun slot v hv hd => hok.loaded slot v hv (mt (hdef slot).mpr hd), hok.inherited, ?_⟩, rfl,
          fun _ slot => ?_, nofun⟩
        · rintro _ ⟨⟩ slot
          exact ⟨(hsnap slot).1, fun hd => (hsnap slot).2 ((hdef slot).mp hd)⟩
        · rw [← (hsnap slot).1]
          exact ⟨rfl, fun hd => (hsnap slot).2 ((hdef slot).mp hd)⟩

end ProcessGlobals

end Refresh

/-! ## Runs -/

section Runs

variable {host : Host W} {chargeSent : W → SendableValue → Except String W} {maxBytes fuel : ℕ}
  {p : CompiledProgram} {t t' : GlobalsTree W}

/-- A process keeps its invariant, and has inherited what its parent held when it was spawned. -/
structure SpawnedProcess.Ok (host : Host W) (maxBytes fuel : ℕ) (p : CompiledProgram)
    (q : SpawnedProcess) : Prop where
  state : q.state.Ok host maxBytes fuel p
  origin : ∀ g₀, q.origin = some g₀ → g₀.Ok host maxBytes fuel p ∧
    ∀ slot, q.state.inherited? slot = g₀.held maxBytes fuel slot ∧
      (g₀.Defined slot → (g₀.held maxBytes fuel slot).isSome = true)

/-- One process goes on, the others stay. -/
theorem GlobalsTree.update_ok {i : ℕ} {q : SpawnedProcess} {g : ProcessGlobals} {w : W}
    (h : ∀ q ∈ t.processes, q.Ok host maxBytes fuel p) (hq : t.processes[i]? = some q)
    (hg : g.Ok host maxBytes fuel p) (hinh : g.inheritedGlobals = q.state.inheritedGlobals) :
    ∀ q ∈ (t.update i g w).processes, q.Ok host maxBytes fuel p := by
  intro q' hq'
  obtain ⟨j, hj⟩ := List.mem_iff_getElem?.mp hq'
  rw [GlobalsTree.update, List.getElem?_modify] at hj
  by_cases hij : i = j
  · subst hij
    rw [hq] at hj
    obtain rfl : { q with state := g } = q' := by simpa using hj
    have hold := h q (List.mem_of_getElem? hq)
    refine ⟨hg, fun g₀ hg₀ => ?_⟩
    obtain ⟨hok, hheld⟩ := hold.origin g₀ hg₀
    refine ⟨hok, fun slot => ?_⟩
    rw [ProcessGlobals.inherited?, hinh]
    exact hheld slot
  · have hsame : t.processes[j]? = some q' := by simpa [hij] using hj
    exact h q' (List.mem_of_getElem? hsame)

/-- **A step keeps the invariant of every process.** -/
theorem GlobalsStep.processes_ok
    (hnames : ∀ name id, host.byName name = some id → id < host.nBuiltins)
    (h : ∀ q ∈ t.processes, q.Ok host maxBytes fuel p)
    (hstep : GlobalsStep host chargeSent maxBytes fuel p t t') :
    ∀ q ∈ t'.processes, q.Ok host maxBytes fuel p := by
  cases hstep with
  | heap process done small =>
    have hok := (h _ (List.mem_of_getElem? process)).state
    exact GlobalsTree.update_ok h process
      (hok.store (done.carried hok.heap hok.small hok.safe small) small) rfl
  | define process safe =>
    have hok := (h _ (List.mem_of_getElem? process)).state
    exact GlobalsTree.update_ok h process (hok.setGlobal safe) rfl
  | read process done small =>
    obtain ⟨hok, hinh, -⟩ :=
      (h _ (List.mem_of_getElem? process)).state.getGlobal hnames done small
    exact GlobalsTree.update_ok h process hok hinh
  | refresh process done =>
    obtain ⟨hok, hrenewed⟩ := (h _ (List.mem_of_getElem? process)).state.refresh done
    exact GlobalsTree.update_ok h process hok hrenewed.inherited
  | @spawn i q g' w' budgets maxObjects msgs captures store process done sent arrived small =>
    obtain ⟨hok, hrenewed⟩ := (h _ (List.mem_of_getElem? process)).state.refresh done
    have hheap := (arrives_deserializeAll msgs ⟨Heap.fresh maxObjects, budgets⟩
      (heapOk_fresh host.nBuiltins maxObjects) sent).2.1
    rw [arrived] at hheap
    have hinh : ∀ slot, (g'.createChild store).inherited? slot = g'.held maxBytes fuel slot :=
      fun slot => (hrenewed.snapshot rfl slot).1
    have hnone : ∀ slot, (g'.createChild store).value? slot = none := fun slot => by
      simp [ProcessGlobals.value?, ProcessGlobals.createChild]
    intro q' hq'
    rcases List.mem_append.mp hq' with hold | hnew
    · exact GlobalsTree.update_ok h process hok hrenewed.inherited q' hold
    · obtain rfl := List.mem_singleton.mp hnew
      refine ⟨⟨hheap, small, by simp [ProcessGlobals.createChild], List.nodup_nil, by
        simp [ProcessGlobals.createChild], fun slot v hv => ?_, fun slot msg hmsg => ?_, nofun⟩, ?_⟩
      · rw [hnone] at hv
        cases hv
      · rw [hinh] at hmsg
        exact hok.held_ok hmsg
      · rintro _ ⟨⟩
        exact ⟨hok, fun slot => ⟨hinh slot, (hrenewed.snapshot rfl slot).2⟩⟩
  | work => exact h

/-- The invariant holds along every run. -/
theorem GlobalsRun.processes_ok
    (hnames : ∀ name id, host.byName name = some id → id < host.nBuiltins)
    (hrun : GlobalsRun host chargeSent maxBytes fuel p t) :
    ∀ q ∈ t.processes, q.Ok host maxBytes fuel p := by
  induction hrun with
  | start budgets maxObjects w =>
    intro q hq
    obtain rfl := List.mem_singleton.mp hq
    refine ⟨⟨heapOk_fresh _ _, ?_, by simp, List.nodup_nil, by simp, fun slot v hv => ?_,
      fun slot msg hmsg => ?_, nofun⟩, nofun⟩
    · simp [Heap.Small, Heap.fresh, Heap.new]
    · simp [ProcessGlobals.value?] at hv
    · simp [ProcessGlobals.inherited?] at hmsg
  | step _ done ih => exact done.processes_ok hnames ih

/-- **A child reads what its parent held at the spawn.** In every run of a tree, a read of a slot
that the child has not defined gives

* a copy of the value in its parent's slot, or of the value that its parent had inherited and not
  loaded;
* the reason, where the parent's value could not be sent, and nothing else changes;
* and a value whenever there is one to send, and the work and the room for it;
* for a slot that the parent neither had nor inherited, the builtin of the name, if there is one.

A spawn itself fails for no value that cannot be sent. -/
theorem child_reads_snapshot
    (hnames : ∀ name id, host.byName name = some id → id < host.nBuiltins)
    (hrun : GlobalsRun host chargeSent maxBytes fuel p t) {i : ℕ} {q : SpawnedProcess}
    {g₀ g' : ProcessGlobals} {slot : ℕ} {w w' : W} {r : Except String Value}
    (hq : t.processes[i]? = some q) (horigin : q.origin = some g₀)
    (hslot : ¬ q.state.Defined slot) (hread : q.state.getGlobal host p slot w = (r, g', w'))
    (hsmall : g'.store.heap.Small) :
    (∀ v v', g₀.value? slot = some v → r = .ok v' →
      ∃ t, Unfolds g₀.store.heap t v ∧ Unfolds g'.store.heap t v') ∧
    (∀ msg v', g₀.value? slot = none → g₀.inherited? slot = some (.ok msg) → r = .ok v' →
      Unfolds g'.store.heap msg.tree v') ∧
    (∀ reason, g₀.held maxBytes fuel slot = some (.error reason) →
      r = .error ("top-level `" ++ p.globals.getD slot "" ++
        "` cannot be used in a child process: " ++ reason) ∧ g' = q.state ∧ w' = w) ∧
    (∀ msg w₁, g₀.held maxBytes fuel slot = some (.ok msg) → host.chargeHostWork w msg = .ok w₁ →
      q.state.store.Fits msg.objects msg.heapBytes → ∃ v', r = .ok v') ∧
    (g₀.value? slot = none → g₀.inherited? slot = none →
      r = match host.byName (p.globals.getD slot "") with
        | some id => .ok (.builtin id)
        | none => .error ("undefined global: " ++ p.globals.getD slot "")) ∧
    ∀ w₁ w₂ e g₁, q.state.refreshSpawnSnapshot chargeSent maxBytes fuel w₁ =
      some (.error e, g₁, w₂) → ProcessGlobals.ChargeFailed chargeSent e := by
  obtain ⟨hstate, hparent⟩ := hrun.processes_ok hnames q (List.mem_of_getElem? hq)
  obtain ⟨hok₀, hheld⟩ := hparent g₀ horigin
  obtain ⟨hinh, hsome⟩ := hheld slot
  obtain ⟨hok', hinh', hdef', hvalue⟩ := hstate.getGlobal hnames hread hsmall
  have hslot' : ¬ g'.Defined slot := by
    rw [ProcessGlobals.Defined, hdef']
    exact hslot
  -- a value that was read is in the slot, so the invariant says where it comes from
  have hcopy : ∀ v', r = .ok v' → (∃ msg, g₀.held maxBytes fuel slot = some (.ok msg) ∧
      Unfolds g'.store.heap msg.tree v') ∨ (g₀.held maxBytes fuel slot = none ∧
        ∃ id, host.byName (p.globals.getD slot "") = some id ∧ v' = .builtin id) := by
    intro v' hv'
    have hsame : g'.inherited? slot = g₀.held maxBytes fuel slot := by
      rw [← hinh, ProcessGlobals.inherited?, hinh', ProcessGlobals.inherited?]
    rw [← hsame]
    exact hok'.loaded slot v' (hvalue v' hv') hslot'
  have hundefined : g₀.value? slot = none → ¬ g₀.Defined slot := by
    intro hnone hd
    obtain ⟨v, hv⟩ := hok₀.value_of_defined hd
    rw [hnone] at hv
    cases hv
  have hreads := q.state.getGlobal_read host p slot w
  rw [hread] at hreads
  refine ⟨fun v v' hv hr => ?_, fun msg v' hnone hmsg hr => ?_, fun reason hreason => ?_,
    fun msg w₁ hmsg hwork hfits => ?_, fun hnone hnoinh => ?_, fun w₁ w₂ e g₁ hrefresh => ?_⟩
  · by_cases hd : g₀.Defined slot
    · have hser : g₀.held maxBytes fuel slot = g₀.store.heap.serialize maxBytes fuel v := by
        rw [ProcessGlobals.held, if_pos hd, hv, Option.bind_some]
      rcases hcopy v' hr with ⟨msg, hmsg, hun⟩ | ⟨hnone, -⟩
      · exact ⟨msg.tree, unfolds_of_serialize (hser ▸ hmsg), hun⟩
      · rw [hnone] at hsome
        exact absurd (hsome hd) (by simp)
    · have hheld₀ : g₀.held maxBytes fuel slot = g₀.inherited? slot := if_neg hd
      rw [hheld₀] at hcopy
      rcases hok₀.loaded slot v hv hd with ⟨msg, hmsg, hun⟩ | ⟨hnone, id, hid, rfl⟩
      · rcases hcopy v' hr with ⟨msg', hmsg', hun'⟩ | ⟨hnone, -⟩
        · obtain rfl : msg = msg' := by simpa [hmsg] using hmsg'
          exact ⟨msg.tree, hun, hun'⟩
        · rw [hmsg] at hnone
          cases hnone
      · rcases hcopy v' hr with ⟨msg', hmsg', -⟩ | ⟨-, id', hid', rfl⟩
        · rw [hnone] at hmsg'
          cases hmsg'
        · obtain rfl : id = id' := Option.some.inj (hid.symm.trans hid')
          refine ⟨.scalar (.builtin id), ?_, ?_⟩ <;>
          · rw [Unfolds]
            exact ⟨rfl, rfl⟩
  · have hheld₀ : g₀.held maxBytes fuel slot = some (.ok msg) := by
      rw [ProcessGlobals.held, if_neg (hundefined hnone), hmsg]
    rcases hcopy v' hr with ⟨msg', hmsg', hun⟩ | ⟨hno, -⟩
    · obtain rfl : msg = msg' := by simpa [hheld₀] using hmsg'
      exact hun
    · rw [hheld₀] at hno
      cases hno
  · rw [hreason] at hinh
    cases hreads with
    | unsent hv hsent =>
      obtain rfl : reason = _ := by simpa [hinh] using hsent
      exact ⟨rfl, rfl, rfl⟩
    | value hv =>
      rcases hstate.loaded slot _ hv hslot with ⟨msg, hmsg, -⟩ | ⟨hno, -⟩
      · rw [hinh] at hmsg
        cases hmsg
      · rw [hinh] at hno
        cases hno
    | builtin hv hno | undefined hv hno | work hv hno | full hv hno | loaded hv hno =>
      rw [hinh] at hno
      cases hno
  · rw [hmsg] at hinh
    cases hreads with
    | value => exact ⟨_, rfl⟩
    | builtin hv hno | undefined hv hno | unsent hv hno =>
      rw [hinh] at hno
      cases hno
    | work hv hsame hfail =>
      obtain rfl : msg = _ := by simpa [hinh] using hsame
      rw [hwork] at hfail
      cases hfail
    | loaded => exact ⟨_, rfl⟩
    | full hv hsame hpaid hdes =>
      obtain rfl : msg = _ := by simpa [hinh] using hsame
      obtain ⟨v', s', hfit, -⟩ := deserialize_spec msg q.state.store 0 0
        (hstate.heap.freeOk hstate.small) (by simpa using hfits)
      rw [hfit] at hdes
      cases hdes
  · have hheld₀ : g₀.held maxBytes fuel slot = none := by
      rw [ProcessGlobals.held, if_neg (hundefined hnone), hnoinh]
    rw [hheld₀] at hinh
    cases hreads with
    | value hv =>
      rcases hstate.loaded slot _ hv hslot with ⟨msg, hmsg, -⟩ | ⟨-, id, hid, rfl⟩
      · rw [hinh] at hmsg
        cases hmsg
      · rw [hid]
    | builtin hv hno hid => rw [hid]
    | undefined hv hno hid => rw [hid]
    | unsent hv hno | work hv hno | full hv hno | loaded hv hno =>
      rw [hinh] at hno
      cases hno
  · exact (hstate.refresh hrefresh).2.error e rfl

end Runs

/-! ## A spawn -/

/-- A program with the globals `print`, which is the name of a builtin, and `x`. -/
def printXProgram : CompiledProgram := ⟨⟨[], []⟩, 0, [], [], ["print", "x"]⟩

/-- A process that has defined `x` as 7 and spawned. -/
def spawningParent : ProcessGlobals where
  store := ⟨Heap.fresh none, Budgets.unlimited⟩
  globals := [none, some (.int 7)]
  definedGlobals := [(1, some (.ok (.int 7)))]
  inheritedGlobals := none
  spawnSnapshot := some (Function.update (fun _ => none) 1 (some (.ok (.int 7))))

/-- Its child. -/
def spawnedChild : ProcessGlobals :=
  spawningParent.createChild ⟨Heap.fresh none, Budgets.unlimited⟩

theorem globalsRun_printXProgram :
    GlobalsRun printHost (fun w _ => .ok w) 1000 10 printXProgram
      ⟨[⟨spawningParent, none⟩, ⟨spawnedChild, some spawningParent⟩], ()⟩ := by
  have hstart := @GlobalsRun.start Unit printHost (fun w _ => .ok w) 1000 10 printXProgram
    Budgets.unlimited none ()
  have hdefine := GlobalsRun.step hstart
    (@GlobalsStep.define _ _ _ _ _ _ _ 0 _ 1 (.int 7) rfl (.of_ref_none rfl nofun))
  refine hdefine.step (@GlobalsStep.spawn _ _ _ _ _ _ _ 0 _ spawningParent () Budgets.unlimited none
    [] [] ⟨Heap.fresh none, Budgets.unlimited⟩ rfl ?_ (by simp [SendableValue.AllOk]) rfl ?_)
  · rfl
  · simp [Heap.Small, Heap.fresh, Heap.new]

/-- The child reads the builtin in a slot that its parent had not defined. -/
theorem undefined_reads_builtin :
    ∃ (t : GlobalsTree Unit) (q : SpawnedProcess) (g₀ : ProcessGlobals),
      GlobalsRun printHost (fun w _ => .ok w) 1000 10 printXProgram t ∧
      t.processes[1]? = some q ∧ q.origin = some g₀ ∧ g₀.value? 0 = none ∧
      g₀.inherited? 0 = none ∧ ¬ q.state.Defined 0 ∧
      (q.state.getGlobal printHost printXProgram 0 ()).1 = .ok (.builtin 0) :=
  ⟨_, _, spawningParent, globalsRun_printXProgram, rfl, rfl, rfl, rfl, by decide, rfl⟩

/-! ## A grandchild -/

/-- A store without limits and without objects. -/
def emptyStoreWithoutLimit : Store := ⟨Heap.fresh none, Budgets.unlimited⟩

/-- A store with a string. -/
def stringStore : Store := (emptyStoreWithoutLimit.alloc (.string "seven")).2

/-- A store with a pair of a number and the string. -/
def pairStore : Store := (stringStore.alloc (.tuple (.fromSlice [.int 7, .heap ⟨0, 0⟩]))).2

/-- The pair, as it is sent. -/
def pairMessage : SendableValue := .tuple [.int 7, .string "seven"]

/-- A root that has bound `x` to the pair and spawned. -/
def pairParent : ProcessGlobals where
  store := pairStore
  globals := [none, some (.heap ⟨1, 1⟩)]
  definedGlobals := [(1, some (.ok pairMessage))]
  inheritedGlobals := none
  spawnSnapshot := some (Function.update (fun _ => none) 1 (some (.ok pairMessage)))

/-- Its child, which binds nothing and has spawned. -/
def pairChild : ProcessGlobals :=
  { pairParent.createChild emptyStoreWithoutLimit with spawnSnapshot := pairParent.spawnSnapshot }

/-- The child of this child. -/
def pairGrandchild : ProcessGlobals := pairChild.createChild emptyStoreWithoutLimit

theorem globalsRun_pairStore :
    GlobalsRun printHost (fun w _ => .ok w) 1000 10 printXProgram
      ⟨[⟨⟨pairStore, [], [], none, none⟩, none⟩], ()⟩ := by
  have hstart := @GlobalsRun.start Unit printHost (fun w _ => .ok w) 1000 10 printXProgram
    Budgets.unlimited none ()
  have hstring : HeapStep printHost.nBuiltins [] emptyStoreWithoutLimit stringStore :=
    @HeapStep.alloc _ _ _ (.string "seven") ⟨0, 0⟩ _ (fun _ h => absurd h List.not_mem_nil) rfl
  have hfields : ∀ v ∈ [Value.int 7, .heap ⟨0, 0⟩],
      ValueOk printHost.nBuiltins stringStore.heap v := by
    refine List.forall_mem_cons.mpr ⟨.of_ref_none rfl nofun, List.forall_mem_singleton.mpr ?_⟩
    exact valueOk_heap Nat.zero_lt_one fun _ => ⟨rfl, rfl⟩
  have hpair : HeapStep printHost.nBuiltins [] stringStore pairStore :=
    @HeapStep.alloc _ _ _ (.tuple (.fromSlice [.int 7, .heap ⟨0, 0⟩])) ⟨1, 1⟩ _ hfields rfl
  have hone : stringStore.heap.objects.length ≤ u32Size := (by decide : 1 ≤ u32Size)
  have htwo : pairStore.heap.objects.length ≤ u32Size := (by decide : 2 ≤ u32Size)
  have hrun := hstart.step (.heap (i := 0)
    (q := ⟨⟨emptyStoreWithoutLimit, [], [], none, none⟩, none⟩) rfl hstring hone)
  exact hrun.step (.heap (i := 0) (q := ⟨⟨stringStore, [], [], none, none⟩, none⟩) rfl hpair htwo)

theorem globalsRun_pairParent :
    GlobalsRun printHost (fun w _ => .ok w) 1000 10 printXProgram
      ⟨[⟨pairParent, none⟩, ⟨pairParent.createChild emptyStoreWithoutLimit, some pairParent⟩], ()⟩ := by
  have hdefine := globalsRun_pairStore.step (@GlobalsStep.define _ _ _ _ _ _ _ 0 _ 1
    (.heap ⟨1, 1⟩) rfl (valueOk_heap Nat.one_lt_two fun _ => ⟨rfl, rfl⟩))
  refine hdefine.step (@GlobalsStep.spawn _ _ _ _ _ _ _ 0 _ pairParent () Budgets.unlimited none
    [] [] emptyStoreWithoutLimit rfl ?_ (by simp [SendableValue.AllOk]) rfl (Nat.zero_le _))
  rfl

theorem globalsRun_pairGrandchild :
    GlobalsRun printHost (fun w _ => .ok w) 1000 10 printXProgram
      ⟨[⟨pairParent, none⟩, ⟨pairChild, some pairParent⟩, ⟨pairGrandchild, some pairChild⟩], ()⟩ :=
  globalsRun_pairParent.step (@GlobalsStep.spawn _ _ _ _ _ _ _ 1 _ pairChild () Budgets.unlimited
    none [] [] emptyStoreWithoutLimit rfl rfl (by simp [SendableValue.AllOk]) rfl (Nat.zero_le _))

/-- The child of a child reads a copy of what its parent had inherited and not loaded. -/
theorem child_reads_snapshot_pair :
    pairChild.value? 1 = none ∧ pairChild.inherited? 1 = some (.ok pairMessage) ∧
      ∃ v' g', pairGrandchild.getGlobal printHost printXProgram 1 () = (.ok v', g', ()) ∧
        Unfolds g'.store.heap (.tuple [.scalar (.int 7), .string "seven"]) v' := by
  have hread : ∃ v' g', pairGrandchild.getGlobal printHost printXProgram 1 () = (.ok v', g', ()) ∧
      g'.store.heap.objects.length = 2 := ⟨_, _, rfl, rfl⟩
  obtain ⟨v', g', hg', hlen⟩ := hread
  have hnames : ∀ name id, printHost.byName name = some id → id < printHost.nBuiltins := by
    intro name id hid
    simp only [printHost, Option.ite_none_right_eq_some, Option.some.injEq] at hid ⊢
    omega
  have hchild : ([⟨pairParent, none⟩, ⟨pairChild, some pairParent⟩,
      ⟨pairGrandchild, some pairChild⟩] : List SpawnedProcess)[2]? =
        some ⟨pairGrandchild, some pairChild⟩ := rfl
  have hdefined : ¬ pairGrandchild.Defined 1 := by decide
  have hsmall : g'.store.heap.objects.length ≤ u32Size := hlen.trans_le (by decide)
  have hreads := child_reads_snapshot hnames globalsRun_pairGrandchild hchild rfl hdefined hg' hsmall
  have hcopy := hreads.2.1 pairMessage v' rfl rfl rfl
  exact ⟨rfl, rfl, v', g', hg', hcopy⟩

end Hiko
