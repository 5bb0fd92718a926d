import Mathlib.Tactic
import Hiko.Heap.Built
import Hiko.Vm.Rules

/-!
# The values a VM holds

A VM holds values in its stack, in the captures of its frames and handlers, in its globals and in
its string cache, and these are the roots of a collection. An instruction also holds values for a
moment in local variables. `Carries vs m ws` says that `m`, started with the safe values `vs` in
hand, keeps everything safe and ends with the values `ws` in hand: an allocation may collect, and
after it only the new object is in hand.

## Main definitions

* `Vm.held`: the values a VM holds
* `Safe`: the heap, the held values and the values in hand are safe
* `Carries`: the computations that keep them safe

## Main results

* `Carries.bind`: computations that keep values safe compose
* `carries_alloc`: an allocation, with a collection before it
-/

namespace Hiko

open Lib Lib.Exec

variable {W : Type}

/-- The values a VM holds: the roots of a collection. -/
def Vm.held (s : Vm W) : List Value :=
  s.stack ++ s.frames.flatMap (·.captures) ++ s.globals.filterMap id ++
    s.handlers.flatMap (·.captures) ++
    (s.hiddenHandlers.flatMap (·.handlers)).flatMap (·.captures) ++
    s.stringCache.map fun e => .heap e.2

theorem mem_roots {s : Vm W} {r : GcRef} : r ∈ s.roots ↔ .heap r ∈ s.held := by
  simp [Vm.roots, Vm.held, eq_comm]

theorem mem_held {s : Vm W} {v : Value} :
    v ∈ s.held ↔ v ∈ s.stack ∨ v ∈ s.frames.flatMap (·.captures) ∨ some v ∈ s.globals ∨
      v ∈ s.handlers.flatMap (·.captures) ∨
      v ∈ (s.hiddenHandlers.flatMap (·.handlers)).flatMap (·.captures) ∨
      ∃ e ∈ s.stringCache, .heap e.2 = v := by
  simp only [Vm.held, List.mem_append, List.mem_filterMap, List.mem_map, id, or_assoc,
    exists_eq_right]

section Held

variable {s s' : Vm W} {v : Value}

theorem held_stack (hv : v ∈ s.stack) : v ∈ s.held := mem_held.mpr (.inl hv)

theorem held_capture {f : CallFrame} (hf : f ∈ s.frames) (hv : v ∈ f.captures) : v ∈ s.held :=
  mem_held.mpr (.inr (.inl (List.mem_flatMap.mpr ⟨f, hf, hv⟩)))

theorem held_global (hv : some v ∈ s.globals) : v ∈ s.held :=
  mem_held.mpr (.inr (.inr (.inl hv)))

theorem held_handler {h : HandlerFrame} (hh : h ∈ s.handlers) (hv : v ∈ h.captures) :
    v ∈ s.held :=
  mem_held.mpr (.inr (.inr (.inr (.inl (List.mem_flatMap.mpr ⟨h, hh, hv⟩)))))

theorem held_hidden {h : HandlerFrame} (hh : h ∈ s.hiddenHandlers.flatMap (·.handlers))
    (hv : v ∈ h.captures) : v ∈ s.held :=
  mem_held.mpr (.inr (.inr (.inr (.inr (.inl (List.mem_flatMap.mpr ⟨h, hh, hv⟩))))))

theorem held_cached {e : (ProtoIdx × ℕ) × GcRef} (he : e ∈ s.stringCache) :
    .heap e.2 ∈ s.held :=
  mem_held.mpr (.inr (.inr (.inr (.inr (.inr ⟨e, he, rfl⟩)))))

/-- What a VM holds, place by place. -/
theorem held_cases {P : Value → Prop} (hstack : ∀ v ∈ s.stack, P v)
    (hframes : ∀ f ∈ s.frames, ∀ v ∈ f.captures, P v) (hglobals : ∀ v, some v ∈ s.globals → P v)
    (hhandlers : ∀ h ∈ s.handlers, ∀ v ∈ h.captures, P v)
    (hhidden : ∀ h ∈ s.hiddenHandlers.flatMap (·.handlers), ∀ v ∈ h.captures, P v)
    (hcache : ∀ e ∈ s.stringCache, P (.heap e.2)) : ∀ v ∈ s.held, P v := by
  intro v hv
  rcases mem_held.mp hv with h | h | h | h | h | ⟨e, he, rfl⟩
  · exact hstack v h
  · obtain ⟨f, hf, h⟩ := List.mem_flatMap.mp h
    exact hframes f hf v h
  · exact hglobals v h
  · obtain ⟨f, hf, h⟩ := List.mem_flatMap.mp h
    exact hhandlers f hf v h
  · obtain ⟨f, hf, h⟩ := List.mem_flatMap.mp h
    exact hhidden f hf v h
  · exact hcache e he

/-- Another stack. -/
theorem held_of_stack {st : List Value} {t : List ℕ} {P : Value → Prop}
    (h : ∀ v ∈ st, v ∈ s.held ∨ P v) :
    ∀ v ∈ ({ s with stack := st, touched := t } : Vm W).held, v ∈ s.held ∨ P v :=
  held_cases h (fun _ hf _ hv => .inl (held_capture hf hv)) (fun _ hv => .inl (held_global hv))
    (fun _ hf _ hv => .inl (held_handler hf hv)) (fun _ hf _ hv => .inl (held_hidden hf hv))
    fun _ he => .inl (held_cached he)

/-- Other frames. -/
theorem held_of_frames {fs : List CallFrame} {P : Value → Prop}
    (h : ∀ f ∈ fs, ∀ v ∈ f.captures, v ∈ s.held ∨ P v) :
    ∀ v ∈ ({ s with frames := fs } : Vm W).held, v ∈ s.held ∨ P v :=
  held_cases (fun _ hv => .inl (held_stack hv)) h (fun _ hv => .inl (held_global hv))
    (fun _ hf _ hv => .inl (held_handler hf hv)) (fun _ hf _ hv => .inl (held_hidden hf hv))
    fun _ he => .inl (held_cached he)

/-- Other globals. -/
theorem held_of_globals {gs : List (Option Value)} {P : Value → Prop}
    (h : ∀ v, some v ∈ gs → v ∈ s.held ∨ P v) :
    ∀ v ∈ ({ s with globals := gs } : Vm W).held, v ∈ s.held ∨ P v :=
  held_cases (fun _ hv => .inl (held_stack hv)) (fun _ hf _ hv => .inl (held_capture hf hv)) h
    (fun _ hf _ hv => .inl (held_handler hf hv)) (fun _ hf _ hv => .inl (held_hidden hf hv))
    fun _ he => .inl (held_cached he)

/-- Other handlers. -/
theorem held_of_handlers {hs : List HandlerFrame} {hidden : List HiddenHandlers}
    {P : Value → Prop} (h : ∀ f ∈ hs, ∀ v ∈ f.captures, v ∈ s.held ∨ P v)
    (h' : ∀ f ∈ hidden.flatMap (·.handlers), ∀ v ∈ f.captures, v ∈ s.held ∨ P v) :
    ∀ v ∈ ({ s with handlers := hs, hiddenHandlers := hidden } : Vm W).held,
      v ∈ s.held ∨ P v :=
  held_cases (fun _ hv => .inl (held_stack hv)) (fun _ hf _ hv => .inl (held_capture hf hv))
    (fun _ hv => .inl (held_global hv)) h h' fun _ he => .inl (held_cached he)

end Held

/-- A value that names nothing. -/
def Value.Scalar (v : Value) : Prop := v.ref? = none ∧ ∀ id, v ≠ .builtin id

theorem Value.Scalar.ok {n : ℕ} {h : Heap} {v : Value} (hv : v.Scalar) : ValueOk n h v :=
  .of_ref_none hv.1 hv.2

/-- The heap, the values a VM holds and the values in hand are safe, and so are the values it
inherited. -/
structure Safe (n : ℕ) (s : Vm W) (vs : List Value) : Prop where
  heap : HeapOk n s.store.heap
  held : ∀ v ∈ s.held, ValueOk n s.store.heap v
  inHand : ∀ v ∈ vs, ValueOk n s.store.heap v
  inherited : ∀ slot msg, s.inheritedGlobals slot = some (.ok msg) → msg.Ok n

/-- A computation keeps everything safe, with the values `vs` in hand before it and `ws` after
it. -/
def Carries {α : Type} (n : ℕ) (vs : List Value) (m : M W α) (ws : α → List Value) : Prop :=
  ∀ s : Vm W, Safe n s vs →
    wp m (fun a s' => Safe n s' (ws a)) (fun _ s' => Safe n s' [])
      (fun x => x ≠ .heapSlot ∧ x ≠ .builtinTable) s

section Carries

variable {n : ℕ} {α β : Type} {vs : List Value} {s s' : Vm W}

/-- A value in hand, or one that names nothing. -/
def InHand (vs : List Value) (v : Value) : Prop := v ∈ vs ∨ v.Scalar

theorem Safe.ok (h : Safe n s vs) {v : Value} (hv : InHand vs v) : ValueOk n s.store.heap v :=
  hv.elim (h.inHand v) fun hs => hs.ok

/-- The values in hand may be others, if they are held or in hand. -/
theorem Safe.hand (h : Safe n s vs) {ws : List Value}
    (hw : ∀ v ∈ ws, InHand vs v ∨ v ∈ s.held) : Safe n s ws :=
  ⟨h.heap, h.held, fun v hv => (hw v hv).elim h.ok (h.held v), h.inherited⟩

theorem Safe.drop (h : Safe n s vs) : Safe n s [] := h.hand (by simp)

/-- A state that differs in the limit that refused an allocation. -/
theorem Safe.refuse (h : Safe n s vs) (refused : Option HeapLimitExceeded) :
    Safe n { s with refused := refused } vs :=
  ⟨h.heap, h.held, h.inHand, h.inherited⟩

/-- A state with the same heap that holds no new values. -/
theorem Safe.of_held (h : Safe n s vs) (hstore : s'.store = s.store)
    (hinh : s'.inheritedGlobals = s.inheritedGlobals)
    (hheld : ∀ v ∈ s'.held, v ∈ s.held ∨ InHand vs v) : Safe n s' vs := by
  refine ⟨by rw [hstore]; exact h.heap, fun v hv => ?_, by rw [hstore]; exact h.inHand,
    by rw [hinh]; exact h.inherited⟩
  rw [hstore]
  exact (hheld v hv).elim (h.held v) h.ok

theorem carries_pure {ws : α → List Value} (a : α) (hw : ∀ v ∈ ws a, InHand vs v) :
    Carries n vs (pure a : M W α) ws :=
  fun _ hs => hs.hand fun v hv => .inl (hw v hv)

theorem carries_throwMsg {ws : α → List Value} (msg : String) :
    Carries n vs (throwMsg msg : M W α) ws := fun _ hs => hs.drop

theorem carries_orThrow {ws : α → List Value} (o : Option α) (e : RuntimeError)
    (hw : ∀ a, o = some a → ∀ v ∈ ws a, InHand vs v) :
    Carries n vs (orThrow o e : M W α) ws := by
  cases o with
  | none => exact fun _ hs => hs.drop
  | some a => exact carries_pure a (hw a rfl)

theorem carries_orThrow_keep (o : Option α) (e : RuntimeError) :
    Carries n vs (orThrow o e : M W α) fun _ => vs :=
  carries_orThrow o e fun _ _ _ h => .inl h

/-- **Computations that keep values safe compose.** -/
theorem Carries.bind {m : M W α} {g : α → M W β} {ws : α → List Value} {us : β → List Value}
    (hm : Carries n vs m ws) (hg : ∀ a, Carries n (ws a) (g a) us) :
    Carries n vs (m >>= g) us := by
  intro s hs
  rw [wp_bind]
  exact wp_mono (hm s hs) (fun a s' h => hg a s' h) (fun _ _ h => h) fun _ h => h

theorem Carries.mono {m : M W α} {ws us : α → List Value} {vs' : List Value}
    (hm : Carries n vs m ws) (hv : ∀ v ∈ vs, InHand vs' v) (hw : ∀ a, ∀ v ∈ us a, v ∈ ws a) :
    Carries n vs' m us := by
  intro s hs
  refine wp_mono (hm s (hs.hand fun v h => .inl (hv v h))) ?_ (fun _ _ h => h) fun _ h => h
  exact fun a s' h => h.hand fun v hv => .inl (.inl (hw a v hv))

/-- A computation that leaves the heap alone and holds no new values. -/
theorem carries_of_held {m : M W α}
    (h : ∀ s : Vm W, wp m
      (fun _ s' => s'.store = s.store ∧ s'.inheritedGlobals = s.inheritedGlobals ∧
        ∀ v ∈ s'.held, v ∈ s.held ∨ InHand vs v)
      (fun _ s' => s'.store = s.store ∧ s'.inheritedGlobals = s.inheritedGlobals ∧
        ∀ v ∈ s'.held, v ∈ s.held ∨ InHand vs v)
      (fun x => x ≠ .heapSlot ∧ x ≠ .builtinTable) s) :
    Carries n vs m fun _ => vs := by
  intro s hs
  refine wp_mono (h s) ?_ ?_ fun _ h => h
  · rintro a s' ⟨hstore, hinh, hheld⟩
    exact hs.of_held hstore hinh hheld
  · rintro e s' ⟨hstore, hinh, hheld⟩
    exact (hs.of_held hstore hinh hheld).drop

/-- An update that leaves the heap alone and holds no new values. -/
theorem carries_modify {f : Vm W → Vm W}
    (hf : ∀ s : Vm W, (f s).store = s.store ∧ (f s).inheritedGlobals = s.inheritedGlobals ∧
      ∀ v ∈ (f s).held, v ∈ s.held ∨ InHand vs v) :
    Carries n vs (Exec.modify f : M W Unit) fun _ => vs :=
  carries_of_held hf

/-! ### The accesses -/

theorem carries_get {ws : Vm W → List Value} (hw : ∀ s, ∀ v ∈ ws s, InHand vs v ∨ v ∈ s.held) :
    Carries n vs (Exec.get : M W (Vm W)) ws := fun s hs => hs.hand (hw s)

theorem carries_get_keep : Carries n vs (Exec.get : M W (Vm W)) fun _ => vs :=
  carries_get fun _ _ h => .inl (.inl h)

theorem carries_push {v : Value} (hv : InHand vs v) :
    Carries n vs (push v : M W Unit) fun _ => vs := by
  refine carries_of_held fun s => ?_
  rw [wp_push]
  refine ⟨fun _ => ⟨rfl, rfl, fun _ h => .inl h⟩, fun _ => ⟨rfl, rfl, held_of_stack fun w hw => ?_⟩⟩
  rcases List.mem_append.mp hw with hw | hw
  · exact .inl (held_stack hw)
  · rw [List.mem_singleton.mp hw]
    exact .inr hv

/-- A computation that takes held values into its hand. -/
theorem carries_take {m : M W α} {ws : α → List Value}
    (h : ∀ s : Vm W, wp m
      (fun a s' => s'.store = s.store ∧ s'.inheritedGlobals = s.inheritedGlobals ∧
        (∀ v ∈ s'.held, v ∈ s.held ∨ InHand vs v) ∧ ∀ v ∈ ws a, InHand vs v ∨ v ∈ s.held)
      (fun _ s' => s'.store = s.store ∧ s'.inheritedGlobals = s.inheritedGlobals ∧
        ∀ v ∈ s'.held, v ∈ s.held ∨ InHand vs v)
      (fun x => x ≠ .heapSlot ∧ x ≠ .builtinTable) s) :
    Carries n vs m ws := by
  intro s hs
  refine wp_mono (h s) ?_ ?_ fun _ h => h
  · rintro a s' ⟨hstore, hinh, hheld, hw⟩
    obtain ⟨hheap, hheld', hhand, hinh'⟩ := (hs.hand hw : Safe n s (ws a))
    refine ⟨by rw [hstore]; exact hheap, fun v hv => ?_, by rw [hstore]; exact hhand,
      by rw [hinh]; exact hinh'⟩
    rw [hstore]
    exact (hheld v hv).elim (hs.held v) hs.ok
  · rintro e s' ⟨hstore, hinh, hheld⟩
    exact (hs.of_held hstore hinh hheld).drop

theorem carries_pop : Carries n vs (pop : M W Value) fun v => v :: vs := by
  refine carries_take fun s => ?_
  rw [wp_pop]
  refine ⟨fun _ => ⟨rfl, rfl, fun _ h => .inl h⟩, fun st v hst => ⟨rfl, rfl, ?_, fun w hw => ?_⟩⟩
  · exact held_of_stack fun w hw => .inl (held_stack (by rw [hst]; exact List.mem_append_left _ hw))
  · rcases List.mem_cons.mp hw with rfl | hw
    · exact .inr (held_stack (by simp [hst]))
    · exact .inl (.inl hw)

theorem carries_readSlot (i : ℕ) : Carries n vs (readSlot i : M W Value) fun v => v :: vs := by
  refine carries_take fun s => ?_
  rw [wp_readSlot]
  refine ⟨fun _ => by decide, fun v hv => ⟨rfl, rfl, fun _ h => .inl h, fun w hw => ?_⟩⟩
  rcases List.mem_cons.mp hw with rfl | hw
  · exact .inr (held_stack (List.mem_of_getElem? hv))
  · exact .inl (.inl hw)

theorem carries_getSlot (i : ℕ) (msg : String) :
    Carries n vs (getSlot i msg : M W Value) fun v => v :: vs := by
  refine carries_take fun s => ?_
  rw [wp_getSlot]
  refine ⟨fun _ => ⟨rfl, rfl, fun _ h => .inl h⟩,
    fun v hv => ⟨rfl, rfl, fun _ h => .inl h, fun w hw => ?_⟩⟩
  rcases List.mem_cons.mp hw with rfl | hw
  · exact .inr (held_stack (List.mem_of_getElem? hv))
  · exact .inl (.inl hw)

theorem carries_writeSlot (i : ℕ) {v : Value} (hv : InHand vs v) :
    Carries n vs (writeSlot i v : M W Unit) fun _ => vs := by
  refine carries_of_held fun s => ?_
  rw [wp_writeSlot]
  refine ⟨fun _ => by decide, fun _ => ⟨rfl, rfl, held_of_stack fun w hw => ?_⟩⟩
  rcases List.mem_or_eq_of_mem_set hw with hw | rfl
  · exact .inl (held_stack hw)
  · exact .inr hv

theorem carries_readFrom (start : ℕ) :
    Carries n vs (readFrom start : M W (List Value)) fun ws => ws ++ vs := by
  refine carries_take fun s => ?_
  rw [wp_readFrom]
  refine ⟨fun _ => by decide, fun _ => ⟨rfl, rfl, fun _ h => .inl h, fun w hw => ?_⟩⟩
  rcases List.mem_append.mp hw with hw | hw
  · exact .inr (held_stack (List.mem_of_mem_drop hw))
  · exact .inl (.inl hw)

theorem carries_truncate (k : ℕ) : Carries n vs (truncate k : M W Unit) fun _ => vs := by
  refine carries_of_held fun s => ?_
  rw [wp_truncate]
  exact ⟨rfl, rfl, held_of_stack fun w hw => .inl (held_stack (List.mem_of_mem_take hw))⟩

/-- A computation that leaves the state alone. -/
theorem carries_check {m : M W α}
    (h : ∀ s : Vm W, wp m (fun _ s' => s' = s) (fun _ s' => s' = s)
      (fun x => x ≠ .heapSlot ∧ x ≠ .builtinTable) s) : Carries n vs m fun _ => vs := by
  refine carries_of_held fun s => wp_mono (h s) ?_ ?_ fun _ h => h
  · rintro a _ rfl
    exact ⟨rfl, rfl, fun _ h => .inl h⟩
  · rintro e _ rfl
    exact ⟨rfl, rfl, fun _ h => .inl h⟩

theorem carries_currentFrameIndex :
    Carries n vs (currentFrameIndex : M W ℕ) fun _ => vs := by
  refine carries_check fun s => ?_
  unfold wp currentFrameIndex
  cases s.frames.length <;> rfl

theorem carries_checkCallFrames : Carries n vs (checkCallFrames : M W Unit) fun _ => vs :=
  carries_check fun s => by simp

theorem carries_checkedStackIndex (base offset : ℕ) (what : String) :
    Carries n vs (checkedStackIndex base offset what : M W ℕ) fun _ => vs :=
  carries_check fun s => by simp

theorem carries_stackStart (k arity : ℕ) (what : String) :
    Carries n vs (stackStart k arity what : M W ℕ) fun _ => vs :=
  carries_check fun s => by simp

theorem carries_jumpTarget (ip : ℕ) (offset : ℤ) (codeLen : ℕ) (what : String) :
    Carries n vs (jumpTarget ip offset codeLen what : M W ℕ) fun _ => vs :=
  carries_check fun _ => wp_jumpTarget _ _ _ _ (fun _ _ => rfl) fun _ => rfl

theorem wp_frameAt {Q : CallFrame → Vm W → Prop} {E : RuntimeError → Vm W → Prop}
    {F : Fault → Prop} (fi : ℕ) (hQ : ∀ f ∈ s.frames, Q f s) (hF : F .frame) :
    wp (frameAt fi) Q E F s := by
  unfold wp frameAt
  cases hf : s.frames[fi]? with
  | none => exact hF
  | some f => exact hQ f (List.mem_of_getElem? hf)

theorem wp_updateFrame {R : Unit → Vm W → Prop} {E : RuntimeError → Vm W → Prop}
    {F : Fault → Prop} (fi : ℕ) (g : CallFrame → CallFrame)
    (hR : ∀ f ∈ s.frames, R () { s with frames := s.frames.set fi (g f) }) (hF : F .frame) :
    wp (updateFrame fi g) R E F s := by
  unfold wp updateFrame
  cases hf : s.frames[fi]? with
  | none => exact hF
  | some f => exact hR f (List.mem_of_getElem? hf)

theorem carries_frameAt (fi : ℕ) :
    Carries n vs (frameAt fi : M W CallFrame) fun f => f.captures ++ vs := by
  refine carries_take fun s => wp_frameAt fi (fun f hf => ?_) (by decide)
  refine ⟨rfl, rfl, fun _ h => .inl h, fun v hv => ?_⟩
  rcases List.mem_append.mp hv with hv | hv
  · exact .inr (held_capture hf hv)
  · exact .inl (.inl hv)

/-- A frame may be changed as long as its captures stay or come from the hand. -/
theorem carries_updateFrame (fi : ℕ) {g : CallFrame → CallFrame}
    (hg : ∀ f, (g f).captures = f.captures ∨ ∀ v ∈ (g f).captures, InHand vs v) :
    Carries n vs (updateFrame fi g : M W Unit) fun _ => vs := by
  refine carries_of_held fun s => wp_updateFrame fi g (fun f hf => ⟨rfl, rfl, ?_⟩) (by decide)
  refine held_of_frames fun f' hf' v hv => ?_
  rcases List.mem_or_eq_of_mem_set hf' with hf' | rfl
  · exact .inl (held_capture hf' hv)
  · rcases hg f with heq | hin
    · exact .inl (held_capture hf (heq ▸ hv))
    · exact .inr (hin v hv)

theorem carries_setIp (fi ip : ℕ) : Carries n vs (setIp fi ip : M W Unit) fun _ => vs :=
  carries_updateFrame fi fun _ => .inl rfl

theorem carries_pushFrame {f : CallFrame} (hf : ∀ v ∈ f.captures, InHand vs v) :
    Carries n vs (pushFrame f : M W Unit) fun _ => vs := by
  refine carries_of_held fun s => (wp_pushFrame f).mpr ⟨rfl, rfl, held_of_frames ?_⟩
  intro f' hf' v hv
  rcases List.mem_append.mp hf' with hf' | hf'
  · exact .inl (held_capture hf' hv)
  · rw [List.mem_singleton] at hf'
    subst hf'
    exact .inr (hf v hv)

/-! ### Operands and locals -/

theorem Carries.forget {m : M W α} {ws : α → List Value} (hm : Carries n vs m ws)
    (hw : ∀ a, ∀ v ∈ vs, v ∈ ws a) : Carries n vs m fun _ => vs :=
  hm.mono (fun _ h => .inl h) hw

theorem carries_operand (read : List UInt8 → ℕ → Option α) (width : ℕ) (code : List UInt8)
    (fi : ℕ) : Carries n vs (operand read width code fi : M W α) fun _ => vs := by
  refine ((carries_frameAt fi).forget fun _ _ h => List.mem_append_right _ h).bind fun f => ?_
  refine (carries_orThrow_keep _ _).bind fun a => ?_
  exact (carries_setIp fi _).bind fun _ => carries_pure a fun _ h => .inl h

theorem carries_chunkForChecked (p : CompiledProgram) (i : ProtoIdx) :
    Carries n vs (chunkForChecked p i : M W Chunk) fun _ => vs :=
  carries_orThrow_keep _ _

theorem carries_proto (p : CompiledProgram) (i : ProtoIdx) :
    Carries n vs (proto p i : M W FunctionProto) fun _ => vs :=
  carries_orThrow_keep _ _

theorem carries_readOperand (p : CompiledProgram) {read : List UInt8 → ℕ → M W α}
    (hr : ∀ code fi, Carries n vs (read code fi) fun _ => vs) :
    Carries n vs (readOperand p read) fun _ => vs :=
  carries_currentFrameIndex.bind fun fi =>
    ((carries_frameAt fi).forget fun _ _ h => List.mem_append_right _ h).bind fun f =>
      (carries_chunkForChecked p f.protoIdx).bind fun chunk => hr chunk.code fi

theorem carries_localStackIndex (fi slot : ℕ) (what : String) :
    Carries n vs (localStackIndex fi slot what : M W ℕ) fun _ => vs := by
  refine carries_get_keep.bind fun s => (carries_orThrow_keep _ _).bind fun f => ?_
  exact carries_checkedStackIndex f.base slot what

theorem carries_readLocal (fi slot : ℕ) (what : String) :
    Carries n vs (readLocal fi slot what : M W Value) fun v => v :: vs :=
  (carries_localStackIndex fi slot what).bind fun idx => carries_readSlot idx

theorem carries_writeLocal (fi slot : ℕ) (what : String) {v : Value} (hv : InHand vs v) :
    Carries n vs (writeLocal fi slot what v : M W Unit) fun _ => vs :=
  (carries_localStackIndex fi slot what).bind fun idx => carries_writeSlot idx hv

theorem carries_takeArgs (arity : ℕ) (what : String) :
    Carries n vs (takeArgs arity what : M W (List Value)) fun ws => ws ++ vs :=
  (carries_stackStart _ _ _).bind fun start => (carries_readFrom start).bind fun ws =>
    (carries_truncate start).bind fun _ => carries_pure ws fun _ h => .inl h

theorem carries_captureValue (fi : ℕ) (isLocal : Bool) (index : ℕ) :
    Carries n vs (captureValue fi isLocal index : M W Value) fun v => v :: vs := by
  refine (carries_frameAt fi).bind fun f => ?_
  split
  · exact carries_throwMsg _
  · refine (carries_getSlot _ _).mono (fun _ h => .inl h) fun v w hw => ?_
    rcases List.mem_cons.mp hw with rfl | hw
    · exact List.mem_cons_self
    · exact List.mem_cons_of_mem _ (List.mem_append_right _ hw)
  · refine carries_orThrow _ _ fun v hv w hw => .inl ?_
    rcases List.mem_cons.mp hw with rfl | hw
    · exact List.mem_append_left _ (List.mem_of_getElem? hv)
    · exact List.mem_append_right _ hw

theorem carries_popAs (host : Host W) (what : String) (as : Value → Option α) :
    Carries n vs (popAs host what as) fun _ => vs :=
  carries_pop.bind fun _ => carries_orThrow _ _ fun _ _ _ h => .inl (List.mem_cons_of_mem _ h)

/-! ### The heap -/

theorem carries_heapGet (r : GcRef) :
    Carries n vs (heapGet r : M W HeapObject) fun o => o.children ++ vs := by
  intro s hs
  refine wp_heapGet r (fun o ho => ?_) fun _ => hs.drop
  refine ⟨hs.heap, hs.held, fun v hv => ?_, hs.inherited⟩
  rcases List.mem_append.mp hv with hv | hv
  · exact hs.heap.children _ o ho v hv
  · exact hs.inHand v hv

/-- A collection keeps the held values safe, and those in hand that are among its extra roots. -/
theorem Safe.collect (h : Safe n s vs) {extra : List GcRef} {st : Store}
    (hc : s.store.collect (s.roots ++ extra) = some st) {ws : List Value}
    (hw : ∀ v ∈ ws, ValueOk n s.store.heap v ∧ ∀ r, v = .heap r → r ∈ extra) :
    Safe n { s with store := st } ws := by
  have hroot : ∀ r ∈ s.roots ++ extra,
      Reaches s.store.heap.succ ((s.roots ++ extra).map (·.idx)) r.idx :=
    fun r hr => .root (List.mem_map_of_mem hr)
  refine ⟨Store.heapOk_collect hc h.heap, fun v hv => ?_, fun v hv => ?_, h.inherited⟩
  · have hv' : v ∈ s.held := hv
    refine Store.valueOk_collect hc (h.held v hv') ?_
    rintro r rfl
    exact hroot r (List.mem_append_left _ (mem_roots.mpr hv'))
  · refine Store.valueOk_collect hc (hw v hv).1 ?_
    rintro r rfl
    exact hroot r (List.mem_append_right _ ((hw _ hv).2 r rfl))

/-- The roots of a safe VM are slots, so a collection does not fault. -/
theorem Safe.collect_isSome (h : Safe n s vs) (extra : List GcRef)
    (he : ∀ r ∈ extra, ValueOk n s.store.heap (.heap r)) :
    ∃ st, s.store.collect (s.roots ++ extra) = some st := by
  refine Store.collect_isSome h.heap fun r hr => ?_
  rcases List.mem_append.mp hr with hr | hr
  · exact (h.held _ (mem_roots.mp hr)).range r rfl
  · exact (he r hr).range r rfl

theorem carries_collectBefore {obj : HeapObject} (hobj : ∀ v ∈ obj.children, InHand vs v) :
    Carries n vs (collectBefore obj : M W Unit) fun _ => obj.children := by
  intro s hs
  have hok : ∀ v ∈ obj.children, ValueOk n s.store.heap v := fun v hv => hs.ok (hobj v hv)
  unfold wp collectBefore
  by_cases hdue : (s.store.heap.shouldCollect ||
      s.store.allocationWouldExceedLimits obj.estimatedBytes) = true
  · obtain ⟨st, hst⟩ := hs.collect_isSome obj.gcRefs fun r hr => hok _ (mem_refsOf.mp hr)
    simp only [hdue, if_true, gcCollectWithExtraRoots, hst]
    refine hs.collect hst fun v hv => ⟨hok v hv, ?_⟩
    rintro r rfl
    exact mem_refsOf.mpr hv
  · simp only [hdue, Bool.false_eq_true, if_false]
    exact hs.hand fun v hv => .inl (hobj v hv)

/-- A store that keeps the slots keeps everything safe. -/
theorem Safe.keeps (h : Safe n s vs) (st : Store) (hk : s.store.heap.Keeps st.heap)
    (hok : HeapOk n st.heap) {ws : List Value} (hw : ∀ v ∈ ws, ValueOk n st.heap v) :
    Safe n { s with store := st } ws :=
  ⟨hok, fun v hv => (h.held v hv).keeps hk, hw, h.inherited⟩

theorem carries_heapAlloc {obj : HeapObject} (hobj : ∀ v ∈ obj.children, InHand vs v) :
    Carries n vs (heapAlloc obj : M W Value) fun v => [v] := by
  intro s hs
  unfold wp heapAlloc
  rcases halloc : s.store.alloc obj with ⟨e | r, st⟩
  · obtain rfl := Store.alloc_error halloc
    exact hs.drop.refuse (some e)
  · obtain ⟨hkeeps, hok, hr⟩ := Store.alloc_ok hs.heap (fun v hv => hs.ok (hobj v hv)) halloc
    exact hs.keeps st hkeeps hok (by simpa using hr)

/-- **An allocation**, with a collection before it, keeps what the VM holds and what the new object
refers to. -/
theorem carries_alloc {obj : HeapObject} (hobj : ∀ v ∈ obj.children, InHand vs v) :
    Carries n vs (alloc obj : M W Value) fun v => [v] :=
  (carries_collectBefore hobj).bind fun _ => carries_heapAlloc fun _ h => .inl h

theorem carries_setClosureCaptures (r : GcRef) {captures : List Value}
    (hc : ∀ v ∈ captures, InHand vs v) :
    Carries n vs (setClosureCaptures r captures : M W Unit) fun _ => vs := by
  intro s hs
  unfold wp setClosureCaptures
  cases hset : s.store.heap.setClosureCaptures r captures with
  | error e => exact hs.drop
  | ok h =>
    obtain ⟨hkeeps, hok⟩ := hs.heap.setClosureCaptures hset fun v hv => hs.ok (hc v hv)
    exact hs.keeps { s.store with heap := h } hkeeps hok
      fun v hv => (hs.inHand v hv).keeps hkeeps

theorem carries_deserializeValue {msg : SendableValue} (hm : msg.Ok n) :
    Carries n vs (deserializeValue msg : M W Value) fun v => [v] := by
  intro s hs
  have harr := arrives_deserialize msg s.store hs.heap hm
  unfold wp deserializeValue
  rcases hd : Store.deserialize msg s.store with ⟨e | v, st⟩
  · rw [hd] at harr
    exact (hs.keeps st harr.1 harr.2.1 (by simp)).refuse (some e)
  · rw [hd] at harr
    exact hs.keeps st harr.1 harr.2.1 (harr.2.2 v rfl)

end Carries

end Hiko
