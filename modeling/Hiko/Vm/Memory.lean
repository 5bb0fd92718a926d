import Mathlib.Tactic
import Hiko.Vm.Gc
import Hiko.Vm.Run

/-!
# Memory safety of the interpreter

Two invariants hold in every state of a run. Every frame, and every clause a handler may unwind
to, is at an instruction of its code or at its end; so the operands of an instruction are there,
and its unchecked accesses are in range, whatever the builtins return. And every value a VM holds
is safe, if its builtins work on the heap as `HostOk` says; so a reference still names the object
it was handed out for.

## Main definitions

* `AtBoundaries`: the frames and the clauses of a VM are at boundaries
* `FreshStart`: the states a run starts in, with the heap of a new process

## Main results

* `Reachable.atBoundaries`, `Reachable.safe`: the two invariants
* `memory_in_range`: no iteration leaves the memory of the interpreter
-/

namespace Hiko

open Lib Lib.Exec

variable {W : Type} {host : Host W} {p : CompiledProgram} {good : Vm W → Prop} {s₀ s s' : Vm W}

/-! ## Boundaries -/

/-- A function of the program has an instruction at `ip`, or ends there. -/
def AtBoundary (p : CompiledProgram) (i : ProtoIdx) (ip : ℕ) : Prop :=
  ∃ c, p.ctxOf i = some c ∧ Boundary c (decodedOf p i) ip

/-- Every frame is at a boundary, and so is every clause a handler may unwind to. -/
structure AtBoundaries (p : CompiledProgram) (s : Vm W) : Prop where
  frames : ∀ f ∈ s.frames, AtBoundary p f.protoIdx f.ip
  clauses : ∀ h ∈ s.allHandlers, ∀ cl ∈ h.clauses, ∀ ip, cl.action = .abort ip →
    AtBoundary p h.protoIdx ip

theorem atBoundary_entry (hp : Verified p) {i : ℕ} {q : FunctionProto}
    (hq : p.functions[i]? = some q) : AtBoundary p (.fn i) 0 := by
  have hc : p.ctxOf (.fn i) = some (p.fnCtx q) := by simp [CompiledProgram.ctxOf, hq]
  exact ⟨_, hc, hp.boundary_zero hc⟩

theorem AtBoundaries.topAtBoundary (h : AtBoundaries p s) : TopAtBoundary p s := by
  intro fs f hs
  exact h.frames f (by simp [hs])

section Step

variable {fs : List CallFrame} {f : CallFrame} {c : DecodeCtx} {r : DecodedInst × ℕ}

/-- The clauses of handlers that were there are at boundaries. -/
theorem AtBoundaries.subset (h : AtBoundaries p s) {hs : List HandlerFrame}
    (hsub : ∀ x ∈ hs, x ∈ s.allHandlers) :
    ∀ x ∈ hs, ∀ cl ∈ x.clauses, ∀ ip, cl.action = .abort ip → AtBoundary p x.protoIdx ip :=
  fun x hx => h.clauses x (hsub x hx)

/-- **A `Change` keeps frames and clauses at boundaries.** -/
theorem AtBoundaries.change (hp : Verified p) (hs : s.frames = fs ++ [f])
    (hc : p.ctxOf f.protoIdx = some c) (hr : InstAt p c f r) (h : AtBoundaries p s)
    (hch : Change p c.code fs f r.1 r.2 s.stack s.allHandlers s') : AtBoundaries p s' := by
  have hold : ∀ g ∈ fs, AtBoundary p g.protoIdx g.ip := fun g hg => h.frames g (by simp [hs, hg])
  have hnext : AtBoundary p f.protoIdx r.2 := ⟨c, hc, hr.next⟩
  have htarget : ∀ t ∈ r.1.successors ++ r.1.handlerClauseTargets, AtBoundary p f.protoIdx t :=
    fun t ht => ⟨c, hc, .inl (hp.target hc hr.mem ht)⟩
  cases hch with
  | goto need delta target rule succ frames len handlers =>
    refine ⟨?_, h.subset handlers⟩
    rw [frames]
    exact List.forall_mem_append.mpr ⟨hold, by simpa using htarget _ (List.mem_append_left _ succ)⟩
  | enter need delta i base q captures rule fn succ frames pos len handlers =>
    refine ⟨?_, h.subset handlers⟩
    rw [frames]
    exact List.forall_mem_append.mpr ⟨List.forall_mem_append.mpr ⟨hold, by simpa using hnext⟩,
      by simpa using atBoundary_entry hp fn⟩
  | reuse i q captures fn need frames len handlers =>
    refine ⟨?_, h.subset handlers⟩
    rw [frames]
    exact List.forall_mem_append.mpr ⟨hold, by simpa using atBoundary_entry hp fn⟩
  | ret rule frames len handlers =>
    refine ⟨?_, h.subset handlers⟩
    rw [frames]
    exact hold
  | builtinTail arity id op operand pos callee frames handlers =>
    refine ⟨?_, h.subset handlers⟩
    rw [frames]
    exact List.forall_mem_append.mpr ⟨hold, by simpa using hnext⟩
  | install hd op succ frames fn clauses handlers =>
    refine ⟨?_, fun x hx cl hcl ip hip => ?_⟩
    · rw [frames]
      exact List.forall_mem_append.mpr ⟨hold, by simpa using hnext⟩
    · rcases handlers x hx with rfl | hx
      · rw [fn]
        exact htarget ip (List.mem_append_right _ (clauses cl hcl ip hip))
      · exact h.clauses x hx cl hcl ip hip
  | abort hd installed cl clause ip action older g sub fn start frames handlers =>
    refine ⟨?_, h.subset handlers⟩
    rw [frames]
    refine List.forall_mem_append.mpr ⟨fun g' hg' => hold g' (sub g' hg'), ?_⟩
    rw [List.forall_mem_singleton, fn, start]
    exact h.clauses hd installed cl clause ip action

/-- An instruction that has read its operands and failed leaves its frame at a boundary. -/
theorem AtBoundaries.readPast (hs : s.frames = fs ++ [f]) (hc : p.ctxOf f.protoIdx = some c)
    (hr : InstAt p c f r) (h : AtBoundaries p s) (hpast : ReadPast fs f r.2 s s') :
    AtBoundaries p s' := by
  have hold : ∀ g ∈ fs, AtBoundary p g.protoIdx g.ip := fun g hg => h.frames g (by simp [hs, hg])
  have hnext : AtBoundary p f.protoIdx r.2 := ⟨c, hc, hr.next⟩
  refine ⟨?_, by rw [hpast.handlers]; exact h.clauses⟩
  rw [hpast.frames]
  exact List.forall_mem_append.mpr ⟨hold, by simpa using hnext⟩

end Step

theorem AtBoundaries.start (hp : Verified p) (h : Starts p s) : AtBoundaries p s := by
  cases h with
  | main store world fuel =>
    have hc : p.ctxOf .main = some p.mainCtx := rfl
    exact ⟨by simpa [Vm.start] using ⟨_, hc, hp.boundary_zero hc⟩,
      by simp [Vm.start, Vm.fresh, Vm.allHandlers]⟩
  | child store world inherited i q captures fuel fn =>
    exact ⟨by simpa [Vm.childStart] using atBoundary_entry hp fn,
      by simp [Vm.childStart, Vm.fresh, Vm.allHandlers]⟩

/-- **Frames and clauses are at boundaries in every state of a run.** -/
theorem Reachable.atBoundaries (hp : Verified p) (hstart : Starts p s₀)
    (h : Reachable host p good s₀ s) : AtBoundaries p s :=
  (Reachable.invariant hp (fun _ h => h.topAtBoundary)
    (fun _ _ _ _ _ _ hinv _ _ hs hc hr hch => hinv.change hp hs hc hr hch)
    (fun _ _ _ _ _ _ _ hinv _ hs hc hr _ _ hpast => hinv.readPast hs hc hr hpast)
    (fun s s' hinv hframes hhandlers _ =>
      ⟨by rw [hframes]; exact hinv.frames, by rw [hhandlers]; exact hinv.clauses⟩)
    (AtBoundaries.start hp hstart) hstart.quiet h).1

/-! ## Values -/

/-- The states a run starts in: the main chunk or a spawned function, with the heap of a new
process and the fuel of its first slice. The values a child gets were sent by a VM with the same
builtins. -/
inductive FreshStart (host : Host W) (p : CompiledProgram) : Vm W → Prop where
  | main (budgets : Budgets) (maxObjects : Option ℕ) (world : W) (fuel : Option ℕ) :
      FreshStart host p { Vm.start ⟨Heap.fresh maxObjects, budgets⟩ world with fuel := fuel }
  | child (budgets : Budgets) (maxObjects : Option ℕ) (store : Store) (world : W)
      (inherited : ℕ → Option (Except String SendableValue)) (i : ℕ) (q : FunctionProto)
      (msgs : List SendableValue) (captures : List Value) (fuel : Option ℕ)
      (fn : p.functions[i]? = some q) (sent : SendableValue.AllOk host.nBuiltins msgs)
      (arrived : Store.deserializeAll msgs ⟨Heap.fresh maxObjects, budgets⟩ =
        (.ok captures, store))
      (snapshot : ∀ slot msg, inherited slot = some (.ok msg) → msg.Ok host.nBuiltins) :
      FreshStart host p { Vm.childStart store world inherited i captures with fuel := fuel }

theorem FreshStart.starts (h : FreshStart host p s) : Starts p s := by
  cases h with
  | main => exact .main _ _ _
  | child budgets maxObjects store world inherited i q msgs captures fuel fn =>
    exact .child _ _ _ i q captures fuel fn

theorem heapOk_fresh (n : ℕ) (maxObjects : Option ℕ) : HeapOk n (Heap.fresh maxObjects) := by
  have hnone : ∀ i o, (Heap.fresh maxObjects).object? i ≠ some o := by
    simp [Heap.object?, Heap.fresh, Heap.new]
  exact ⟨fun i o ho => absurd ho (hnone i o), fun i o ho => absurd ho (hnone i o),
    by simp [Heap.fresh, Heap.new], by simp [Heap.fresh, Heap.new], by simp [Heap.fresh, Heap.new]⟩

theorem FreshStart.safe (h : FreshStart host p s) : Safe host.nBuiltins s [] := by
  cases h with
  | main budgets maxObjects world fuel =>
    exact ⟨heapOk_fresh _ _, by simp [Vm.held, Vm.start, Vm.fresh], by simp,
      by simp [Vm.start, Vm.fresh]⟩
  | child budgets maxObjects store world inherited i q msgs captures fuel fn sent arrived snapshot =>
    obtain ⟨-, hok, hcaptures⟩ := arrives_deserializeAll msgs ⟨Heap.fresh maxObjects, budgets⟩
      (heapOk_fresh _ maxObjects) sent
    rw [arrived] at hok hcaptures
    refine ⟨hok, ?_, by simp, snapshot⟩
    refine held_cases ?_ ?_ ?_ ?_ ?_ ?_
    · simpa [Vm.childStart] using valueOk_unit
    · simpa [Vm.childStart, Vm.fresh] using hcaptures captures rfl
    all_goals simp [Vm.childStart, Vm.fresh]

theorem Safe.collectAtBoundary {n : ℕ} (hs : Safe n s [])
    (h : gcCollectAtBoundaryIfNeeded s = .ok () s') : Safe n s' [] := by
  unfold gcCollectAtBoundaryIfNeeded gcCollectWithExtraRoots at h
  split at h
  · split at h
    · cases h
    · next st hst =>
      obtain ⟨-, rfl⟩ := Outcome.ok.inj h
      exact hs.collect hst (by simp)
  · obtain ⟨-, rfl⟩ := Outcome.ok.inj h
    exact hs

theorem Safe.resumes (hs : Safe host.nBuiltins s []) (h : Resumes host s s') :
    Safe host.nBuiltins s' [] := by
  cases h with
  | @same s₁ collected budgets world fuel =>
    have hs₁ : Safe host.nBuiltins s₁ [] := by
      rcases collected with rfl | collected
      · exact hs
      · exact hs.collectAtBoundary collected
    exact ⟨hs₁.heap, hs₁.held, hs₁.inHand, hs₁.inherited⟩
  | @answer s₁ collected budgets world fuel st v₀ v store vs placeholder built given =>
    have hs₁ := hs.collectAtBoundary collected
    obtain ⟨hkeeps, hok, hvs⟩ := built.ok hs₁.heap (by simp)
    refine ⟨hok, ?_, by simp, hs₁.inherited⟩
    have hheld : ∀ w ∈ s₁.held, ValueOk host.nBuiltins store.heap w :=
      fun w hw => (hs₁.held w hw).keeps hkeeps
    refine held_cases (fun w hw => ?_) (fun _ hf _ hw => hheld _ (held_capture hf hw))
      (fun _ hw => hheld _ (held_global hw)) (fun _ hh _ hw => hheld _ (held_handler hh hw))
      (fun _ hh _ hw => hheld _ (held_hidden hh hw)) fun _ he => hheld _ (held_cached he)
    rcases List.mem_append.mp hw with hw | hw
    · exact hheld w (held_stack (by simp [placeholder, hw]))
    · rw [List.mem_singleton.mp hw]
      exact hvs v given

/-- **Everything is safe in every state of a run.** -/
theorem Reachable.safe (hhost : HostOk host) (hstart : FreshStart host p s₀)
    (h : Reachable host p good s₀ s) : Safe host.nBuiltins s [] := by
  induction h with
  | start => exact hstart.safe
  | step h hgood hstep ih => exact wp_of_ok (carries_stackStep hhost p _ ih) hstep
  | refuel h hfuel hresume ih => exact ih.resumes hresume
  | answer h hgood hstep hreq hresume ih =>
    exact Safe.resumes (wp_of_error (carries_stackStep hhost p _ ih) hstep) hresume
  | rerun h hgood hstep hyields hreq hresume ih =>
    exact Safe.resumes (wp_of_error (carries_stackStep hhost p _ ih) hstep) hresume

/-! ## Accesses -/

theorem wp_of_fault {α : Type} {m : M W α} {Q : α → Vm W → Prop} {E : RuntimeError → Vm W → Prop}
    {F : Fault → Prop} {x : Fault} (h : wp m Q E F s) (hm : m s = .fault x) : F x := by
  simpa only [wp, hm] using h

theorem stackStep_fault (hp : Verified p) (h : AtBoundaries p s) {x : Fault}
    (hx : stackStep host p s = .fault x) : x = .heapSlot ∨ x = .builtinTable := by
  rcases List.eq_nil_or_concat s.frames with hs | ⟨fs, f, hs⟩
  · exact (wp_of_fault (wp_stackStep_no_frames host p hs) hx).elim
  · rw [List.concat_eq_append] at hs
    obtain ⟨c, hc, hb⟩ := h.topAtBoundary fs f hs
    exact wp_of_fault (wp_stackStep host hp hs hc hb) hx

/-- **No iteration of a verified program leaves the memory of the interpreter**: whatever the
builtins return, the stack, the frames, the handlers, the captures and the globals are indexed in
range, and so are the heap and the builtin table if the builtins work on the heap as they
should. -/
theorem memory_in_range (hp : Verified p) (hstart : Starts p s₀)
    (h : Reachable host p (fun _ => True) s₀ s) :
    (∀ x, stackStep host p s = .fault x → x = .heapSlot ∨ x = .builtinTable) ∧
      (HostOk host → FreshStart host p s₀ → ∀ x, stackStep host p s ≠ .fault x) := by
  have hbound : AtBoundaries p s := h.atBoundaries hp hstart
  refine ⟨fun x hx => stackStep_fault hp hbound hx, fun hhost hfresh x hx => ?_⟩
  have hsafe : Safe host.nBuiltins s [] := h.safe hhost hfresh
  obtain ⟨hheap, hbuiltin⟩ := wp_of_fault (carries_stackStep hhost p s hsafe) hx
  rcases stackStep_fault hp hbound hx with rfl | rfl
  · exact hheap rfl
  · exact hbuiltin rfl

/-- The main chunk installs a handler whose clause is at offset 13, performs its effect, and goes
on there: `InstallHandler; Unit; Perform; Halt; Pop; Pop; Halt`. -/
def effectProgram : CompiledProgram where
  main := ⟨[53, 1, 0, 0, 0, 0, 5, 0, 1, 54, 0, 0, 52, 9, 9, 52], []⟩
  mainNLocals := 0
  functions := []
  effects := [⟨"Abort", 0⟩]
  globals := []

theorem hostOk_printHost : HostOk printHost := by
  refine ⟨fun name id h => ?_, fun world store globals id arg => ?_⟩
  · have : id = 0 := by
      simp only [printHost] at h
      split at h
      · exact (Option.some.inj h).symm
      · cases h
    simp [printHost, this]
  · exact ⟨[.unit, arg], .scalar .unit .start rfl nofun, List.mem_cons_self⟩

/-- In a slice, the iteration after the effect was performed is in range. -/
theorem memory_in_range_effectProgram :
    ∃ s : Vm Unit,
      iterate printHost effectProgram 3 { Vm.start emptyStore () with fuel := some 10 } = some s ∧
      s.frames = [⟨.main, 13, 0, []⟩] ∧ ∀ x, stackStep printHost effectProgram s ≠ .fault x := by
  have hstart : FreshStart printHost effectProgram
      { Vm.start emptyStore () with fuel := some 10 } := .main _ none () (some 10)
  have hrun : (iterate printHost effectProgram 3
      { Vm.start emptyStore () with fuel := some 10 }).map (·.frames) =
      some [⟨.main, 13, 0, []⟩] := by decide +kernel
  obtain ⟨s, hs, hframes⟩ := Option.map_eq_some_iff.mp hrun
  exact ⟨s, hs, hframes, (memory_in_range (by decide +kernel) hstart.starts
    (Reachable.start.iterate (fun _ => trivial) hs)).2 hostOk_printHost hstart⟩

/-! ## References -/

/-- The slot of `r` holds the object that was allocated for `r`, but for the captures of a
closure. -/
def Heap.Intact (h : Heap) (r : GcRef) : Prop :=
  ∃ o born, h.object? r.idx = some o ∧ h.owner r.idx = r.serial ∧
    h.births r.serial = some born ∧ born.SameButCaptures o

/-- A slot of the heap is reached from the VM or from the object that is to be allocated. -/
def AllocReaches (s : Vm W) (obj : HeapObject) (i : ℕ) : Prop :=
  Reaches s.store.heap.succ ((s.roots ++ obj.gcRefs).map (·.idx)) i

/-- `VM::alloc` frees no object that is reached from the VM or from the new object, and the index
it returns is none of theirs. It faults on a reference that is no slot. -/
def AllocKeeps (s : Vm W) (obj : HeapObject) : Prop :=
  wp (alloc obj)
    (fun v s' => ∃ r, v = .heap r ∧ ∀ i o, AllocReaches s obj i → s.store.heap.object? i = some o →
      s'.store.heap.object? i = some o ∧ r.idx ≠ i)
    (fun _ s' => ∀ i, AllocReaches s obj i → s'.store.heap.object? i = s.store.heap.object? i)
    (fun _ => ∃ r ∈ obj.gcRefs, s.store.heap.objects.length ≤ r.idx) s

/-- A reference reached from a safe VM is intact. -/
theorem Safe.intact {n : ℕ} (hs : Safe n s []) (hsmall : s.store.heap.Small) {r : GcRef}
    (hr : Reaches s.store.heap.refSucc s.roots r) : s.store.heap.Intact r := by
  have hok := hs.heap.reaches (fun r hr => hs.held _ (mem_roots.mp hr)) hr
  obtain ⟨hsome, howner⟩ := hok.names r rfl hsmall
  obtain ⟨o, ho⟩ := Option.isSome_iff_exists.mp hsome
  obtain ⟨-, b, hb, hsame⟩ := hs.heap.birth _ o ho
  exact ⟨o, b, ho, howner, howner ▸ hb, hsame⟩

/-- The collection before an allocation keeps what is reached. -/
theorem wp_collectBefore_reached {n : ℕ} (hs : Safe n s []) (obj : HeapObject) :
    wp (collectBefore obj)
      (fun _ s' => HeapOk n s'.store.heap ∧
        s'.store.heap.objects.length = s.store.heap.objects.length ∧
        ∀ i, AllocReaches s obj i → s'.store.heap.object? i = s.store.heap.object? i)
      (fun _ _ => False) (fun _ => ∃ r ∈ obj.gcRefs, s.store.heap.objects.length ≤ r.idx) s := by
  unfold wp collectBefore
  split
  · next heq =>
    split at heq
    · unfold gcCollectWithExtraRoots at heq
      split at heq
      · cases heq
      · next st hst =>
        obtain ⟨-, rfl⟩ := Outcome.ok.inj heq
        obtain ⟨marks, hsw, -, -⟩ := Store.collect_spec hst
        exact ⟨Store.heapOk_collect hst hs.heap, hsw.length, fun i hi => Store.collect_object hst hi⟩
    · obtain ⟨-, rfl⟩ := Outcome.ok.inj heq
      exact ⟨hs.heap, rfl, fun _ _ => rfl⟩
  · next heq =>
    unfold gcCollectWithExtraRoots at heq
    split at heq
    · split at heq <;> cases heq
    · cases heq
  · next heq =>
    by_contra hrange
    push Not at hrange
    obtain ⟨st, hst⟩ := Store.collect_isSome hs.heap fun r hr =>
      (List.mem_append.mp hr).elim (fun hr => (hs.held _ (mem_roots.mp hr)).range r rfl) (hrange r)
    simp only [gcCollectWithExtraRoots, hst] at heq
    split at heq <;> cases heq

theorem Safe.allocKeeps {n : ℕ} (hs : Safe n s []) (hlen : s.store.heap.objects.length < u32Size)
    (obj : HeapObject) : AllocKeeps s obj := by
  unfold AllocKeeps
  rw [alloc, wp_bind]
  refine wp_mono (wp_collectBefore_reached hs obj) ?_ (fun _ _ h => h.elim) fun _ h => h
  rintro _ s₁ ⟨hok, hlen₁, hkept⟩
  unfold wp heapAlloc
  rcases halloc : s₁.store.alloc obj with ⟨e | r, st⟩
  · obtain rfl := Store.alloc_error halloc
    exact hkept
  · have hsmall : st.heap.Small := by
      have := Store.alloc_length halloc
      unfold Heap.Small
      omega
    obtain ⟨hempty, -, hother⟩ := Store.alloc_object hok halloc hsmall
    refine ⟨r, rfl, fun i o hi ho => ?_⟩
    have ho₁ : s₁.store.heap.object? i = some o := (hkept i hi).trans ho
    have hne : i ≠ r.idx := by
      rintro rfl
      rw [hempty] at ho₁
      cases ho₁
    exact ⟨(hother i hne).trans ho₁, hne.symm⟩

/-- **The collector is safe** as long as a `u32` numbers the slots: in every state of a run, every
reference that is reached is intact; and in every safe state, such as the states of a run, an
allocation frees nothing that is reached and returns the index of no object that is reached. -/
theorem gc_safe (hhost : HostOk host) (hstart : FreshStart host p s₀)
    (h : Reachable host p (fun _ => True) s₀ s) :
    (s.store.heap.objects.length ≤ u32Size →
      ∀ r, Reaches s.store.heap.refSucc s.roots r → s.store.heap.Intact r) ∧
    Safe host.nBuiltins s [] ∧
    ∀ t : Vm W, Safe host.nBuiltins t [] → t.store.heap.objects.length < u32Size →
      ∀ obj, AllocKeeps t obj := by
  have hsafe : Safe host.nBuiltins s [] := h.safe hhost hstart
  exact ⟨fun hlen r hr => hsafe.intact hlen hr, hsafe, fun t ht hlen obj => ht.allocKeeps hlen obj⟩

/-- The main chunk is `Unit; Unit; MakeTuple 2; Halt`. -/
def pairProgram : CompiledProgram where
  main := ⟨[1, 1, 41, 2, 52], []⟩
  mainNLocals := 0
  functions := []
  effects := []
  globals := []

/-- The fuel of the first slice is used up after the pair was pushed, and in the next slice the
reference to the pair is intact. -/
theorem gc_safe_pairProgram :
    ∃ s s' : Vm Unit,
      iterate printHost pairProgram 3 { Vm.start emptyStore () with fuel := some 3 } = some s ∧
      s.fuel = some 0 ∧ Resumes printHost s s' ∧ s'.fuel = some 5 ∧ s'.stack = [.heap ⟨0, 0⟩] ∧
      s'.store.heap.Intact ⟨0, 0⟩ := by
  have hrun : (iterate printHost pairProgram 3
      { Vm.start emptyStore () with fuel := some 3 }).map (fun s => (s.stack, s.fuel,
        s.store.heap.objects.length, s.store.heap.shouldCollectAtBoundary)) =
      some ([.heap ⟨0, 0⟩], some 0, 1, false) := by
    decide +kernel
  obtain ⟨s, hs, hpair⟩ := Option.map_eq_some_iff.mp hrun
  simp only [Prod.mk.injEq] at hpair
  obtain ⟨hstack, hfuel, hlen, hcollect⟩ := hpair
  have hcollected : gcCollectAtBoundaryIfNeeded s = .ok () s := by
    simp [gcCollectAtBoundaryIfNeeded, hcollect]
  have hresumes : Resumes printHost s _ := .same (.inr hcollected) s.store.budgets () (some 5)
  have hslice : Reachable printHost pairProgram (fun _ => True) _ s :=
    Reachable.start.iterate (fun _ => trivial) hs
  have hreach := hslice.refuel hfuel hresumes
  refine ⟨s, _, hs, hfuel, hresumes, rfl, hstack, ?_⟩
  refine (gc_safe hostOk_printHost (.main _ none () (some 3)) hreach).1 ?_ ⟨0, 0⟩ (.root ?_)
  · exact hlen.trans_le (by decide)
  · exact mem_roots.mpr (held_stack (by simp [hstack]))

/-! ## A heap with `2 ^ 32` slots -/

/-- A heap of `2 ^ 32` strings, none of them free. -/
def fullHeap : Heap :=
  { Heap.new with
    objects := List.replicate u32Size (some (.string ""))
    objectBytes := List.replicate u32Size (HeapObject.string "").estimatedBytes
    currentBytes := u32Size * (HeapObject.string "").estimatedBytes
    serials := u32Size
    owner := id
    births := fun _ => some (.string "") }

/-- A VM with that heap whose stack holds a reference to slot 0. -/
def fullVm : Vm Unit :=
  { Vm.fresh ⟨fullHeap, Budgets.unlimited⟩ () fun _ => none with stack := [.heap ⟨0, 0⟩] }

theorem fullHeap_object {i : ℕ} {o : HeapObject} (h : fullHeap.object? i = some o) :
    i < u32Size ∧ o = .string "" := by
  simp only [Heap.object?, fullHeap, List.getElem?_replicate] at h
  split at h
  · next hlt => exact ⟨hlt, (Option.some.inj h).symm⟩
  · cases h

theorem fullHeap_zero : fullHeap.object? 0 = some (.string "") := by
  have hpos : 0 < u32Size := by decide
  simp [Heap.object?, fullHeap, hpos]

theorem safe_fullVm : Safe 0 fullVm [] := by
  refine ⟨⟨fun i o ho => ?_, fun i o ho => ?_, ?_, ?_, ?_⟩, ?_, by simp, by simp [fullVm, Vm.fresh]⟩
  · obtain ⟨-, rfl⟩ := fullHeap_object ho
    simp [HeapObject.children]
  · obtain ⟨hlt, rfl⟩ := fullHeap_object ho
    exact ⟨hlt, .string "", rfl, .refl _⟩
  · simp [fullVm, Vm.fresh, fullHeap, Heap.new]
  · simp [fullVm, Vm.fresh, fullHeap, Heap.new]
  · simp [fullVm, Vm.fresh, fullHeap, Heap.new]
  · have hheld : fullVm.held = [.heap ⟨0, 0⟩] := rfl
    rw [hheld, List.forall_mem_singleton]
    refine valueOk_heap ?_ fun _ => ⟨?_, rfl⟩
    · have hpos : 0 < u32Size := by decide
      simpa [fullVm, Vm.fresh, fullHeap] using hpos
    · exact congrArg Option.isSome fullHeap_zero

/-- Without limits, and with no slot to reuse, an allocation takes a new slot. -/
theorem alloc_new_slot (obj : HeapObject) (hcollect : s.store.heap.shouldCollect = false)
    (hobjects : s.store.heap.maxObjects = none) (hmemory : s.store.budgets.memory = none)
    (hfree : s.store.heap.freeList = []) :
    ∃ s', alloc obj s =
      .ok (.heap ⟨s.store.heap.objects.length % u32Size, s.store.heap.serials⟩) s' := by
  have hbefore : collectBefore obj s = .ok () s := by
    simp [collectBefore, hcollect, Store.allocationWouldExceedLimits, hobjects, hmemory]
  rw [alloc]
  simp only [bind, hbefore, heapAlloc, Store.alloc, Store.checkObjects, hobjects,
    Store.chargeMemory, hmemory, Heap.place, hfree]
  exact ⟨_, rfl⟩

/-- The next allocation returns the index of the string on the stack: `objects.len() as u32`
is 0. -/
theorem alloc_index_wraps :
    Safe 0 fullVm [] ∧ AllocReaches fullVm (.string "a") 0 ∧
      fullVm.store.heap.object? 0 = some (.string "") ∧
      (∃ s', alloc (.string "a") fullVm = .ok (.heap ⟨0, u32Size⟩) s') ∧
      ¬ AllocKeeps fullVm (.string "a") := by
  have hzero : fullVm.store.heap.object? 0 = some (.string "") := fullHeap_zero
  have hreach : AllocReaches fullVm (.string "a") 0 := .root (by simp [fullVm, Vm.roots, refsOf])
  have hlen : fullVm.store.heap.objects.length % u32Size = 0 := by
    simp [fullVm, Vm.fresh, fullHeap]
  obtain ⟨s', hs'⟩ := alloc_new_slot (s := fullVm) (.string "a") rfl rfl rfl rfl
  rw [hlen] at hs'
  refine ⟨safe_fullVm, hreach, hzero, ⟨s', hs'⟩, fun hkeeps => ?_⟩
  obtain ⟨r, hr, hall⟩ := wp_of_ok hkeeps hs'
  obtain rfl := Value.heap.inj hr
  exact (hall 0 _ hreach hzero).2 rfl

end Hiko
