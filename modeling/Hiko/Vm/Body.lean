import Mathlib.Tactic
import Hiko.Verify.Boundaries
import Hiko.Vm.Rules

/-!
# Computations that stay in the current frame

Most instructions read operands, take values off the stack and push a result: they change
neither the other frames nor the handlers. Such a computation is a `Body`, with the `ip`s it
starts and ends at, the operands it needs and the change of the stack depth, and bodies compose.
Nothing is assumed about the depth of the stack: a body that finds too few operands stops with an
error, or takes them from below its frame, and `need` says from how far.

## Main definitions

* `Body fs f k k' need delta m`: `m` stays in the frame `f`
* `Steady P s m`: `m` keeps frames, handlers and the size of the stack

## Main results

* `Body.bind`: bodies compose
* `body_checkedBinop`, `body_makeObject`, `body_makeRecClosures`, …: the instructions
-/

namespace Hiko

open Lib Lib.Exec

variable {W : Type}

/-- The slots touched since `s` are in the frame with this base, or among the top `need`. -/
def Within (base need : ℕ) (s s' : Vm W) : Prop :=
  ∀ i ∈ s'.touched, i ∈ s.touched ∨ base ≤ i ∨ s.stack.length ≤ i + need

/-- What a body leaves alone. -/
structure Kept (s s' : Vm W) : Prop where
  handlers : s'.handlers = s.handlers
  hidden : s'.hiddenHandlers = s.hiddenHandlers
  pending : s'.pendingRuntimeRequest = s.pendingRuntimeRequest

theorem Kept.refl (s : Vm W) : Kept s s := ⟨rfl, rfl, rfl⟩

theorem Kept.trans {s s' s'' : Vm W} (h : Kept s s') (h' : Kept s' s'') : Kept s s'' :=
  ⟨h'.handlers.trans h.handlers, h'.hidden.trans h.hidden, h'.pending.trans h.pending⟩

/-- The stack stays within its limit. -/
def Bounded (s s' : Vm W) : Prop :=
  s.stack.length ≤ maxStackSlots → s'.stack.length ≤ maxStackSlots

/-- A computation that stays in the current frame `f`: it moves the `ip` from `k` to `k'`, leaves
the other frames and the handlers, changes the stack by `delta`, and touches the frame and at most
`need` operands. -/
def Body {α : Type} (fs : List CallFrame) (f : CallFrame) (k k' need : ℕ) (delta : ℤ)
    (m : M W α) : Prop :=
  ∀ s : Vm W, s.frames = fs ++ [{ f with ip := k }] →
    wp m
      (fun _ s' => s'.frames = fs ++ [{ f with ip := k' }] ∧ Kept s s' ∧
        (s'.stack.length : ℤ) = s.stack.length + delta ∧ Bounded s s' ∧ Within f.base need s s')
      (fun _ s' => s'.pendingRuntimeRequest = s.pendingRuntimeRequest ∧ Within f.base need s s')
      (fun x => x = .heapSlot) s

section Bodies

variable {fs : List CallFrame} {f : CallFrame} {k k' k'' : ℕ} {α β : Type}

theorem Within.refl (base need : ℕ) (s : Vm W) : Within base need s s := fun _ hi => .inl hi

theorem Within.mono {base need need' : ℕ} {s s' : Vm W} (h : Within base need s s')
    (hn : need ≤ need') : Within base need' s s' := by
  intro i hi
  rcases h i hi with h | h | h
  · exact .inl h
  · exact .inr (.inl h)
  · exact .inr (.inr (by omega))

theorem Within.trans {base n₁ n₂ need : ℕ} {d : ℤ} {s s' s'' : Vm W} (h : Within base n₁ s s')
    (h' : Within base n₂ s' s'') (hlen : (s'.stack.length : ℤ) = s.stack.length + d)
    (h₁ : n₁ ≤ need) (h₂ : (n₂ : ℤ) ≤ need + d) : Within base need s s'' := by
  intro i hi
  rcases h' i hi with hi | hi | hi
  · exact h.mono h₁ i hi
  · exact .inr (.inl hi)
  · exact .inr (.inr (by omega))

/-- **Bodies compose**: the second part may take what the first one pushed. -/
theorem Body.bind {m : M W α} {g : α → M W β} {n₁ n₂ : ℕ} {d₁ d₂ : ℤ} (need : ℕ) (delta : ℤ)
    (hm : Body fs f k k' n₁ d₁ m)
    (h : n₁ ≤ need ∧ (n₂ : ℤ) ≤ need + d₁ ∧ delta = d₁ + d₂)
    (hg : ∀ a, Body fs f k' k'' n₂ d₂ (g a)) : Body fs f k k'' need delta (m >>= g) := by
  obtain ⟨h₁, h₂, hd⟩ := h
  intro s hs
  rw [wp_bind]
  refine wp_mono (hm s hs) ?_ ?_ (fun _ hx => hx)
  · rintro a s' ⟨hframes, hkept, hlen, hbound, hwithin⟩
    refine wp_mono (hg a s' hframes) ?_ ?_ (fun _ hx => hx)
    · rintro b s'' ⟨hframes', hkept', hlen', hbound', hwithin'⟩
      exact ⟨hframes', hkept.trans hkept', by omega, fun h => hbound' (hbound h),
        hwithin.trans hwithin' hlen h₁ h₂⟩
    · rintro e s'' ⟨hpend, hwithin'⟩
      exact ⟨hpend.trans hkept.pending, hwithin.trans hwithin' hlen h₁ h₂⟩
  · rintro e s' ⟨hpend, hwithin⟩
    exact ⟨hpend, hwithin.mono h₁⟩

/-- `Body.bind` with the second part to prove. -/
theorem Body.seq {m : M W α} {g : α → M W β} {n₁ need : ℕ} {d₁ delta : ℤ} (n₂ : ℕ) (d₂ : ℤ)
    (hm : Body fs f k k' n₁ d₁ m)
    (h : n₁ ≤ need ∧ (n₂ : ℤ) ≤ need + d₁ ∧ delta = d₁ + d₂)
    (hg : ∀ a, Body fs f k' k'' n₂ d₂ (g a)) : Body fs f k k'' need delta (m >>= g) :=
  hm.bind need delta h hg

theorem Body.mono {m : M W α} {n need : ℕ} {delta : ℤ} (hm : Body fs f k k' n delta m)
    (hn : n ≤ need) : Body fs f k k' need delta m := by
  intro s hs
  refine wp_mono (hm s hs) ?_ ?_ (fun _ hx => hx)
  · rintro a s' ⟨hframes, hkept, hlen, hbound, hwithin⟩
    exact ⟨hframes, hkept, hlen, hbound, hwithin.mono hn⟩
  · rintro e s' ⟨hpend, hwithin⟩
    exact ⟨hpend, hwithin.mono hn⟩

/-- A body that neither touches the stack nor changes it. -/
theorem body_of_pure {m : M W α}
    (h : ∀ s : Vm W, s.frames = fs ++ [{ f with ip := k }] →
      wp m (fun _ s' => s'.frames = s.frames ∧ Kept s s' ∧ s'.stack = s.stack ∧
          s'.touched = s.touched)
        (fun _ s' => s'.pendingRuntimeRequest = s.pendingRuntimeRequest ∧ s'.touched = s.touched)
        (fun x => x = .heapSlot) s) : Body fs f k k 0 0 m := by
  intro s hs
  refine wp_mono (h s hs) ?_ ?_ (fun _ hx => hx)
  · rintro a s' ⟨hframes, hkept, hstack, htouched⟩
    exact ⟨hframes.trans hs, hkept, by simp [hstack], by simp [Bounded, hstack],
      fun i hi => .inl (htouched ▸ hi)⟩
  · rintro e s' ⟨hpend, htouched⟩
    exact ⟨hpend, fun i hi => .inl (htouched ▸ hi)⟩

theorem body_pure (a : α) : Body fs f k k 0 0 (pure a : M W α) :=
  body_of_pure fun s _ => ⟨rfl, Kept.refl s, rfl, rfl⟩

theorem body_get : Body fs f k k 0 0 (Exec.get : M W (Vm W)) :=
  body_of_pure fun s _ => ⟨rfl, Kept.refl s, rfl, rfl⟩

theorem body_throwMsg {need : ℕ} {delta : ℤ} (msg : String) :
    Body fs f k k' need delta (throwMsg msg : M W α) :=
  fun s _ => ⟨rfl, Within.refl _ _ s⟩

theorem body_orThrow (o : Option α) (e : RuntimeError) :
    Body fs f k k 0 0 (orThrow o e : M W α) := by
  cases o with
  | some a => exact body_pure a
  | none => exact fun s _ => ⟨rfl, Within.refl _ _ s⟩

/-- Reading an operand that is there moves the `ip` past it. -/
theorem body_operand {read : List UInt8 → ℕ → Option α} {code : List UInt8} {a : α} (width : ℕ)
    (ha : read code k = some a) {m : α → M W β} {need : ℕ} {delta : ℤ}
    (hm : Body fs f (k + width) k' need delta (m a)) :
    Body fs f k k' need delta (operand read width code fs.length >>= m) := by
  intro s hs
  rw [wp_bind, wp_operand_concat hs ha]
  have hafter := hm { s with frames := fs ++ [{ f with ip := k + width }] } rfl
  refine wp_mono hafter ?_ (fun _ _ h => h) (fun _ hx => hx)
  rintro b s' ⟨hframes, hkept, hrest⟩
  exact ⟨hframes, ⟨hkept.handlers, hkept.hidden, hkept.pending⟩, hrest⟩

theorem body_push (v : Value) : Body fs f k k 0 1 (push v : M W Unit) := by
  intro s hs
  rw [wp_push]
  refine ⟨fun _ => ⟨rfl, Within.refl _ _ s⟩, fun hlt => ⟨hs, ⟨rfl, rfl, rfl⟩, by simp, ?_, ?_⟩⟩
  · intro _
    simpa using hlt
  intro i hi
  rcases List.mem_cons.mp hi with rfl | hi
  · exact .inr (.inr (by omega))
  · exact .inl hi

theorem body_pop : Body fs f k k 1 (-1) (pop : M W Value) := by
  intro s hs
  rw [wp_pop]
  refine ⟨fun _ => ⟨rfl, Within.refl _ _ s⟩, fun st v hst => ⟨hs, ⟨rfl, rfl, rfl⟩, ?_, ?_, ?_⟩⟩
  · simp [hst]
  · intro hle
    rw [hst, List.length_append, List.length_singleton] at hle
    exact Nat.le_of_succ_le hle
  · intro i hi
    rcases List.mem_cons.mp hi with rfl | hi
    · exact .inr (.inr (by simp [hst]))
    · exact .inl hi

theorem body_popAs (host : Host W) (what : String) (as : Value → Option α) :
    Body fs f k k 1 (-1) (popAs host what as) :=
  body_pop.bind 1 (-1) (by omega) fun _ => body_orThrow _ _

theorem body_heapGet (r : GcRef) : Body fs f k k 0 0 (heapGet r : M W HeapObject) :=
  body_of_pure fun s _ => wp_heapGet r (fun _ _ => ⟨rfl, Kept.refl s, rfl, rfl⟩)
    fun _ => ⟨rfl, rfl⟩

theorem body_alloc (obj : HeapObject) : Body fs f k k 0 0 (alloc obj : M W Value) :=
  body_of_pure fun _ _ => wp_alloc_of obj (fun _ _ => ⟨rfl, ⟨rfl, rfl, rfl⟩, rfl, rfl⟩)
    (fun _ _ => ⟨rfl, rfl⟩) rfl

/-- A body that reads or writes one slot of the frame. -/
theorem within_slot {need i : ℕ} {s s' : Vm W} (h : s'.touched = i :: s.touched)
    (hi : f.base ≤ i) : Within f.base need s s' := by
  intro j hj
  rw [h] at hj
  rcases List.mem_cons.mp hj with rfl | hj
  · exact .inr (.inl hi)
  · exact .inl hj

theorem body_readLocal (slot : ℕ) (what : String) :
    Body fs f k k 0 0 (readLocal fs.length slot what : M W Value) := by
  intro s hs
  simp only [readLocal, wp_bind, wp_localStackIndex_concat hs, wp_checkedStackIndex, wp_readSlot]
  refine ⟨fun _ => ⟨trivial, Within.refl _ _ s⟩,
    fun _ hlt => ⟨fun hge => by omega, fun v _ => ⟨hs, ⟨rfl, rfl, rfl⟩, by simp, id, ?_⟩⟩,
    fun _ _ => ⟨trivial, Within.refl _ _ s⟩⟩
  exact within_slot rfl (by omega)

theorem body_writeLocal (slot : ℕ) (what : String) (v : Value) :
    Body fs f k k 0 0 (writeLocal fs.length slot what v : M W Unit) := by
  intro s hs
  simp only [writeLocal, wp_bind, wp_localStackIndex_concat hs, wp_checkedStackIndex, wp_writeSlot]
  refine ⟨fun _ => ⟨trivial, Within.refl _ _ s⟩,
    fun _ hlt => ⟨fun hge => by omega, fun _ => ⟨hs, ⟨rfl, rfl, rfl⟩, by simp, by simp [Bounded], ?_⟩⟩,
    fun _ _ => ⟨trivial, Within.refl _ _ s⟩⟩
  exact within_slot rfl (by omega)

theorem body_takeArgs (arity : ℕ) (what : String) :
    Body fs f k k arity (-(arity : ℤ)) (takeArgs arity what : M W (List Value)) := by
  intro s hs
  simp only [takeArgs, stackStartForArity, wp_bind, wp_stackStart, wp_readFrom, wp_truncate,
    wp_pure]
  refine ⟨fun hle => ⟨fun hlt => by omega, fun _ => ⟨hs, ⟨rfl, rfl, rfl⟩, ?_, ?_, ?_⟩⟩,
    fun _ => ⟨trivial, Within.refl _ _ s⟩⟩
  · simp only [List.length_take]
    omega
  · intro hmax
    simp only [List.length_take]
    omega
  · intro i hi
    have : i = s.stack.length - arity ∨ i ∈ s.touched := by
      split at hi <;> simpa using hi
    rcases this with rfl | hi
    · exact .inr (.inr (by omega))
    · exact .inl hi

/-! ### Instructions that stay in their frame -/

section

variable (host : Host W) (p : CompiledProgram)

theorem body_checkedBinop (what : String) (as : Value → Option α) (g : α → α → Option Value)
    (msg : String) : Body fs f k k 2 (-1) (checkedBinop (popAs host what as) g msg) :=
  (body_popAs host what as).bind 2 (-1) (by omega) fun _ => (body_popAs host what as).bind 1 0 (by omega) fun _ =>
    (body_orThrow _ _).bind 0 1 (by omega) fun _ => body_push _

theorem body_scalarEq (eq : Bool) : Body fs f k k 2 (-1) (scalarEq host eq) :=
  body_pop.bind 2 (-1) (by omega) fun _ => body_pop.bind 1 0 (by omega) fun _ => body_get.bind 0 1 (by omega) fun _ => body_push _

theorem body_getLocal (slot : ℕ) {need : ℕ} :
    Body fs f k k need 1 (getLocal fs.length slot : M W Unit) :=
  (body_readLocal slot _).bind need 1 (by omega) fun _ => body_push _

theorem body_setLocal (slot : ℕ) {need : ℕ} (hn : 1 ≤ need) :
    Body fs f k k need (-1) (setLocal fs.length slot : M W Unit) :=
  body_pop.bind need (-1) (by omega) fun v => body_writeLocal slot _ v

theorem body_fieldOf (v : Value) (idx : ℕ) (what : String) :
    Body fs f k k 0 0 (fieldOf v idx what : M W Value) := by
  cases v with
  | heap r =>
    exact (body_heapGet r).bind 0 0 (by omega) fun o => (body_orThrow _ _).bind 0 0 (by omega) fun _ => body_orThrow _ _
  | _ => exact body_throwMsg _

theorem body_dataTag (v : Value) (what : String) : Body fs f k k 0 0 (dataTag v what : M W ℕ) := by
  cases v with
  | heap r =>
    refine (body_heapGet r).seq 0 0 (by omega) fun o => ?_
    cases o with
    | data tag _ => exact body_pure tag
    | _ => exact body_throwMsg _
  | _ => exact body_throwMsg _

theorem body_pushField (idx : ℕ) : Body fs f k k 1 0 (pushField idx : M W Unit) :=
  body_pop.bind 1 0 (by omega) fun v => (body_fieldOf v idx _).bind 0 1 (by omega) fun _ => body_push _

theorem body_opNeg : Body fs f k k 1 0 (opNeg host) := by
  refine body_pop.seq 0 1 (by omega) fun v => ?_
  cases v with
  | int n => exact (body_orThrow _ _).bind 0 1 (by omega) fun _ => body_push _
  | float x => exact body_push _
  | _ => exact body_throwMsg _

theorem body_opNegFloat : Body fs f k k 1 0 (opNegFloat host) :=
  (body_popAs host _ _).bind 1 0 (by omega) fun _ => body_push _

theorem body_opNot : Body fs f k k 1 0 (opNot host) :=
  (body_popAs host _ _).bind 1 0 (by omega) fun _ => body_push _

theorem body_opConcatString : Body fs f k k 2 (-1) (opConcatString host) :=
  (body_popAs host _ _).bind 2 (-1) (by omega) fun _ => (body_popAs host _ _).bind 1 0 (by omega) fun _ =>
    (body_heapGet _).bind 0 1 (by omega) fun _ => (body_heapGet _).bind 0 1 (by omega) fun _ =>
      (body_alloc _).bind 0 1 (by omega) fun _ => body_push _

theorem body_makeObject (arity : ℕ) (what : String) (mk : Fields → HeapObject) :
    Body fs f k k arity (1 - (arity : ℤ)) (makeObject arity what mk : M W Unit) :=
  (body_takeArgs arity what).bind arity (1 - (arity : ℤ)) (by omega) fun _ =>
    (body_alloc _).bind 0 1 (by omega) fun _ => body_push _

theorem body_rememberString (cached : (ProtoIdx × ℕ) × GcRef) :
    Body fs f k k 0 0
      (Exec.modify fun s => { s with stringCache := cached :: s.stringCache } : M W Unit) :=
  body_of_pure fun _ _ => ⟨rfl, ⟨rfl, rfl, rfl⟩, rfl, rfl⟩

theorem body_loadString (i : ProtoIdx) (idx : ℕ) (str : String) :
    Body fs f k k 0 0 (loadString i idx str : M W Value) := by
  refine body_get.seq 0 0 (by omega) fun s => ?_
  split
  · exact body_pure _
  · refine (body_alloc _).seq 0 0 (by omega) fun v => ?_
    cases v with
    | heap r =>
      exact (body_rememberString _).bind 0 0 (by omega) fun _ => body_pure _
    | _ => exact body_pure _

theorem body_constantValue (i : ProtoIdx) (idx : ℕ) (c : Constant) :
    Body fs f k k 0 0 (constantValue i idx c : M W Value) := by
  cases c with
  | string str => exact body_loadString i idx str
  | _ => exact body_pure _

theorem body_setGlobalCell (slot : ℕ) (v : Value) :
    Body fs f k k 0 0 (setGlobalCell p slot v : M W Unit) := by
  refine body_of_pure fun s _ => ?_
  have hlt : slot < (growGlobals p slot s.globals).length := by
    unfold growGlobals
    split
    · simp only [List.length_append, List.length_replicate]
      omega
    · omega
  simp only [wp, setGlobalCell, hlt, if_true]
  exact ⟨trivial, ⟨rfl, rfl, rfl⟩, trivial, trivial⟩

theorem body_deserializeValue (msg : SendableValue) :
    Body fs f k k 0 0 (deserializeValue msg : M W Value) := by
  refine body_of_pure fun s _ => ?_
  unfold wp deserializeValue
  rcases Store.deserialize msg s.store with ⟨r | r, st⟩
  · exact ⟨rfl, rfl⟩
  · exact ⟨rfl, ⟨rfl, rfl, rfl⟩, rfl, rfl⟩

theorem body_modifyWorld (w : Vm W → W) :
    Body fs f k k 0 0 (Exec.modify fun s => { s with world := w s } : M W Unit) :=
  body_of_pure fun _ _ => ⟨rfl, ⟨rfl, rfl, rfl⟩, rfl, rfl⟩

/-- A slot in the program's table of globals is loaded without a fault. -/
theorem body_loadGlobal {slot : ℕ} (hslot : slot < p.globals.length) :
    Body fs f k k 0 0 (loadGlobal host p slot) := by
  obtain ⟨name, hname⟩ : ∃ name, p.globals[slot]? = some name := ⟨_, List.getElem?_eq_getElem hslot⟩
  unfold loadGlobal
  rw [hname]
  refine (body_pure name).seq 0 0 (by omega) fun _ => body_get.seq 0 0 (by omega) fun s => ?_
  split
  · exact (body_orThrow _ _).bind 0 0 (by omega) fun _ => (body_setGlobalCell p slot _).bind 0 0 (by omega) fun _ =>
      body_pure _
  · exact body_throwMsg _
  · split
    · exact body_throwMsg _
    · next w _ =>
      exact (body_modifyWorld fun _ => w).bind 0 0 (by omega) fun _ => (body_deserializeValue _).bind 0 0 (by omega)
        fun _ => (body_setGlobalCell p slot _).bind 0 0 (by omega) fun _ => body_pure _

theorem body_opGetGlobal {code : List UInt8} {slot : ℕ} (hr : readU16 code k = some slot)
    (hslot : slot < p.globals.length) :
    Body fs f k (k + 2) 0 1 (opGetGlobal host p code fs.length) := by
  refine body_operand 2 hr (body_get.seq 0 1 (by omega) fun s => ?_)
  split
  · exact body_push _
  · exact (body_loadGlobal host p hslot).bind 0 1 (by omega) fun _ => body_push _

theorem body_opSetGlobal {code : List UInt8} {slot : ℕ} (hr : readU16 code k = some slot) :
    Body fs f k (k + 2) 1 (-1) (opSetGlobal host p code fs.length) :=
  body_operand 2 hr (body_pop.bind 1 (-1) (by omega) fun _ => (body_setGlobalCell p slot _).bind 0 0 (by omega) fun _ =>
    body_modifyWorld _)

theorem body_opConst {chunk : Chunk} {idx : ℕ} (hr : readU16 chunk.code k = some idx)
    (i : ProtoIdx) : Body fs f k (k + 2) 0 1 (opConst chunk fs.length i : M W Unit) :=
  body_operand 2 hr ((body_orThrow _ _).bind 0 1 (by omega) fun _ => (body_constantValue i idx _).bind 0 1 (by omega)
    fun _ => body_push _)

theorem body_frameAt : Body fs f k k 0 0 (frameAt fs.length : M W CallFrame) :=
  body_of_pure fun s hs => (wp_frameAt_concat hs).mpr ⟨rfl, Kept.refl s, rfl, rfl⟩

theorem body_opGetUpvalue {code : List UInt8} {idx : ℕ} (hr : readU16 code k = some idx) :
    Body fs f k (k + 2) 0 1 (opGetUpvalue code fs.length : M W Unit) :=
  body_operand 2 hr (body_frameAt.bind 0 1 (by omega) fun _ => (body_orThrow _ _).bind 0 1 (by omega) fun _ =>
    body_push _)

theorem body_opGetLocalField {code : List UInt8} {slot : ℕ} (hr : readU16 code k = some slot)
    (field : ℕ) : Body fs f k (k + 2) 0 1 (opGetLocalField code fs.length field : M W Unit) :=
  body_operand 2 hr ((body_readLocal slot _).bind 0 1 (by omega) fun v => (body_fieldOf v field _).bind 0 1 (by omega)
    fun _ => body_push _)

theorem body_captureValue (isLocal : Bool) (index : ℕ) :
    Body fs f k k 0 0 (captureValue fs.length isLocal index : M W Value) := by
  intro s hs
  simp only [captureValue, wp_bind, wp_frameAt_concat hs]
  split
  · exact ⟨rfl, Within.refl _ _ s⟩
  · rw [wp_getSlot]
    exact ⟨fun _ => ⟨rfl, Within.refl _ _ s⟩,
      fun v _ => ⟨hs, ⟨rfl, rfl, rfl⟩, by simp, id, within_slot rfl (by omega)⟩⟩
  · exact body_orThrow _ _ s hs

/-- The captures are read as they were decoded. -/
theorem body_readCaptures {c : DecodeCtx} {start j n next : ℕ}
    (h : decodeCaptures c start j n k = .ok next) :
    Body fs f k next 0 0 (readCaptures c.code fs.length n : M W (List Value)) := by
  induction n generalizing j k with
  | zero => exact (Except.ok.inj h) ▸ body_pure []
  | succ n ih =>
    obtain ⟨isLocal, index, hl, hi, h⟩ := decodeCaptures_succ h
    exact body_operand 1 hl (body_operand 2 hi ((body_captureValue _ index).bind 0 0 (by omega) fun _ =>
      (ih h).bind 0 0 (by omega) fun _ => body_pure _))

theorem body_opMakeClosure {c : DecodeCtx} {start target n next : ℕ}
    (ht : readU16 c.code k = some target) (hn : readU8 c.code (k + 2) = some n)
    (h : decodeCaptures c start 0 n (k + 3) = .ok next) :
    Body fs f k next 0 1 (opMakeClosure c.code fs.length : M W Unit) :=
  body_operand 2 ht (body_operand 1 hn ((body_readCaptures h).bind 0 1 (by omega) fun _ =>
    (body_alloc _).bind 0 1 (by omega) fun _ => body_push _))

/-! ### Recursive closures -/

/-- Looking up the code of the top frame finds the code that was decoded. -/
theorem wp_readOperand {Q : α → Vm W → Prop} {E : RuntimeError → Vm W → Prop} {F : Fault → Prop}
    {chunk : Chunk} (hc : p.chunkOf f.protoIdx = some chunk) {s : Vm W}
    (hs : s.frames = fs ++ [{ f with ip := k }]) (read : List UInt8 → ℕ → M W α) :
    wp (readOperand p read) Q E F s ↔ wp (read chunk.code fs.length) Q E F s := by
  simp only [readOperand, wp_bind, wp_currentFrameIndex_concat hs, wp_frameAt_concat hs,
    chunkForChecked, hc, orThrow, wp_pure]

theorem body_readOperand {read : List UInt8 → ℕ → Option α} {c : DecodeCtx} {a : α} (width : ℕ)
    (hc : p.chunkOf f.protoIdx = some c.chunk) (ha : read c.code k = some a) {m : α → M W β}
    {need : ℕ} {delta : ℤ} (hm : Body fs f (k + width) k' need delta (m a)) :
    Body fs f k k' need delta (readOperand p (operand read width) >>= m) := by
  intro s hs
  rw [wp_bind, wp_readOperand p hc hs, ← wp_bind]
  exact body_operand width ha hm s hs

theorem body_recCapture (nClosures source index : ℕ) :
    Body fs f k k 0 0 (recCapture fs.length nClosures source index : M W (Option Value)) := by
  unfold recCapture
  split
  · exact (body_captureValue _ _).bind 0 0 (by omega) fun _ => body_pure _
  · split
    · exact (body_captureValue _ _).bind 0 0 (by omega) fun _ => body_pure _
    · split
      · exact body_pure _
      · exact body_throwMsg _

theorem body_readRecCaptures {c : DecodeCtx} (hc : p.chunkOf f.protoIdx = some c.chunk)
    {start m member j n next : ℕ} (h : decodeRecCaptures c start m member j n k = .ok next) :
    Body fs f k next 0 0 (readRecCaptures p fs.length m j n : M W _) := by
  induction n generalizing j k with
  | zero => exact (Except.ok.inj h) ▸ body_pure _
  | succ n ih =>
    obtain ⟨source, index, hl, hi, -, h⟩ := decodeRecCaptures_succ h
    refine body_readOperand p 1 hc hl (body_readOperand p 2 hc hi
      ((body_recCapture m source index).seq 0 0 (by omega) fun v =>
        (ih h).seq 0 0 (by omega) fun rest => ?_))
    cases v with
    | some v => exact body_pure _
    | none => exact body_pure _

theorem body_allocRecClosures {c : DecodeCtx} (hc : p.chunkOf f.protoIdx = some c.chunk)
    {start m member n next : ℕ} (h : decodeRecMembers c start m member n k = .ok next) :
    Body fs f k next 0 n (allocRecClosures p fs.length m member n : M W _) := by
  induction n generalizing member k with
  | zero => exact (Except.ok.inj h) ▸ body_pure _
  | succ n ih =>
    obtain ⟨target, nCaptures, mid, ht, hn, hmid, h⟩ := decodeRecMembers_succ h
    exact body_readOperand p 2 hc ht (body_readOperand p 1 hc hn
      ((body_readRecCaptures p hc hmid).bind 0 _ (by omega) fun _ =>
        (body_alloc _).bind 0 (n + 1) (by omega) fun _ =>
          (body_push _).bind 0 (n + 1) (by omega) fun _ =>
            (ih h).bind 0 n (by omega) fun _ => body_pure _))

/-- A patch of a group of `n` closures refers to its members, and to places of its captures. -/
def PatchOk (n : ℕ) (patch : RecClosurePatch) : Prop :=
  patch.member < n ∧ ∀ e ∈ patch.groupRefs, e.1 < patch.captures.length ∧ e.2 < n

theorem returns_recCapture (fi nClosures source index : ℕ) :
    Returns (fun v => v = none → index < nClosures)
      (recCapture fi nClosures source index : M W (Option Value)) := by
  unfold recCapture
  split
  · exact (returns_true _).bind fun _ _ => returns_pure (by simp)
  · split
    · exact (returns_true _).bind fun _ _ => returns_pure (by simp)
    · split
      · next h => exact returns_pure fun _ => h.2
      · exact returns_throw _

theorem returns_readRecCaptures (fi nClosures j n : ℕ) :
    Returns (fun r => r.1.length = n ∧ ∀ e ∈ r.2, j ≤ e.1 ∧ e.1 < j + n ∧ e.2 < nClosures)
      (readRecCaptures p fi nClosures j n : M W _) := by
  induction n generalizing j with
  | zero => exact returns_pure (by simp)
  | succ n ih =>
    refine (returns_true _).bind fun source _ => (returns_true _).bind fun index _ =>
      (returns_recCapture fi nClosures source index).bind fun v hv => (ih (j + 1)).bind ?_
    rintro ⟨vals, refs⟩ ⟨hlen, hrefs⟩
    have hlater : ∀ e ∈ refs, j ≤ e.1 ∧ e.1 < j + (n + 1) ∧ e.2 < nClosures := by
      intro e he
      obtain ⟨h₁, h₂, h₃⟩ := hrefs e he
      exact ⟨by omega, by omega, h₃⟩
    cases v with
    | some v => exact returns_pure ⟨by simpa using hlen, hlater⟩
    | none =>
      refine returns_pure ⟨by simpa using hlen, ?_⟩
      simp only [List.mem_cons, forall_eq_or_imp]
      exact ⟨⟨le_refl _, by omega, hv rfl⟩, hlater⟩

theorem returns_allocRecClosures (fi nClosures member n : ℕ) (h : member + n ≤ nClosures) :
    Returns (fun patches => ∀ patch ∈ patches, PatchOk nClosures patch)
      (allocRecClosures p fi nClosures member n : M W _) := by
  induction n generalizing member with
  | zero => exact returns_pure (by simp)
  | succ n ih =>
    refine (returns_true _).bind fun _ _ => (returns_true _).bind fun nCaptures _ =>
      (returns_readRecCaptures p fi nClosures 0 nCaptures).bind fun captures hcap =>
        (returns_true _).bind fun _ _ => (returns_true _).bind fun _ _ =>
          (ih (member + 1) (by omega)).bind fun rest hrest => returns_pure ?_
    split
    · exact hrest
    · simp only [List.mem_cons, forall_eq_or_imp]
      have hmember : member < nClosures := by omega
      refine ⟨⟨hmember, fun e he => ?_⟩, hrest⟩
      obtain ⟨-, h₂, h₃⟩ := hcap.2 e he
      rw [Nat.zero_add, ← hcap.1] at h₂
      exact ⟨h₂, h₃⟩

/-- A computation that keeps frames, handlers and the size of the stack, and touches slots in
`P`. -/
def Steady (P : ℕ → Prop) (s : Vm W) (m : M W α) : Prop :=
  wp m
    (fun _ s' => s'.frames = s.frames ∧ Kept s s' ∧ s'.stack.length = s.stack.length ∧
      ∀ i ∈ s'.touched, i ∈ s.touched ∨ P i)
    (fun _ s' => s'.pendingRuntimeRequest = s.pendingRuntimeRequest ∧
      ∀ i ∈ s'.touched, i ∈ s.touched ∨ P i)
    (fun x => x = .heapSlot) s

section Steady

variable {P : ℕ → Prop} {s : Vm W}

theorem Steady.bind {m : M W α} {g : α → M W β} (hm : Steady P s m)
    (hg : ∀ a s', s'.stack.length = s.stack.length → Steady P s' (g a)) :
    Steady P s (m >>= g) := by
  unfold Steady at *
  rw [wp_bind]
  refine wp_mono hm ?_ (fun _ _ h => h) (fun _ h => h)
  rintro a s' ⟨hframes, hkept, hlen, htouched⟩
  have htrans : ∀ t : List ℕ, (∀ i ∈ t, i ∈ s'.touched ∨ P i) → ∀ i ∈ t, i ∈ s.touched ∨ P i := by
    intro t ht i hi
    rcases ht i hi with hi | hi
    · exact htouched i hi
    · exact .inr hi
  refine wp_mono (hg a s' hlen) ?_ ?_ (fun _ h => h)
  · rintro b s'' ⟨hframes', hkept', hlen', htouched'⟩
    exact ⟨hframes'.trans hframes, hkept.trans hkept', hlen'.trans hlen, htrans _ htouched'⟩
  · rintro e s'' ⟨hpend, htouched'⟩
    exact ⟨hpend.trans hkept.pending, htrans _ htouched'⟩

theorem steady_pure (a : α) : Steady P s (pure a : M W α) :=
  ⟨rfl, Kept.refl s, rfl, fun _ hi => .inl hi⟩

theorem steady_throwMsg (msg : String) : Steady P s (throwMsg msg : M W α) :=
  ⟨rfl, fun _ hi => .inl hi⟩

theorem touched_cons {i : ℕ} (hi : P i) : ∀ j ∈ i :: s.touched, j ∈ s.touched ∨ P j := by
  intro j hj
  rcases List.mem_cons.mp hj with rfl | hj
  · exact .inr hi
  · exact .inl hj

theorem steady_readSlot {i : ℕ} (hi : P i) (hlt : i < s.stack.length) :
    Steady P s (readSlot i) := by
  unfold Steady
  rw [wp_readSlot]
  exact ⟨fun h => by omega, fun v _ => ⟨rfl, ⟨rfl, rfl, rfl⟩, rfl, touched_cons hi⟩⟩

theorem steady_writeSlot {i : ℕ} (hi : P i) (hlt : i < s.stack.length) (v : Value) :
    Steady P s (writeSlot i v) := by
  unfold Steady
  rw [wp_writeSlot]
  exact ⟨fun h => by omega, fun _ => ⟨rfl, ⟨rfl, rfl, rfl⟩, by simp, touched_cons hi⟩⟩

theorem steady_setClosureCaptures (r : GcRef) (captures : List Value) :
    Steady P s (setClosureCaptures r captures) := by
  unfold Steady wp setClosureCaptures
  cases s.store.heap.setClosureCaptures r captures with
  | error e => exact ⟨rfl, fun _ hi => .inl hi⟩
  | ok h => exact ⟨rfl, ⟨rfl, rfl, rfl⟩, rfl, fun _ hi => .inl hi⟩

end Steady

theorem steady_fillGroupRefs {base n : ℕ} {s : Vm W} {refs : List (ℕ × ℕ)}
    {captures : List Value} (hlen : base + n ≤ s.stack.length)
    (h : ∀ e ∈ refs, e.1 < captures.length ∧ e.2 < n) :
    Steady (base ≤ ·) s (fillGroupRefs base refs captures : M W _) := by
  induction refs generalizing s captures with
  | nil => exact steady_pure _
  | cons e refs ih =>
    obtain ⟨idx, target⟩ := e
    simp only [List.mem_cons, forall_eq_or_imp] at h
    refine (steady_readSlot (Nat.le_add_right _ _) (by omega)).bind fun v s' hs' => ?_
    rw [if_pos h.1.1]
    exact ih (by omega) (by simpa using h.2)

theorem steady_patchRecClosures {base n : ℕ} {s : Vm W} {patches : List RecClosurePatch}
    (hlen : base + n ≤ s.stack.length) (h : ∀ patch ∈ patches, PatchOk n patch) :
    Steady (base ≤ ·) s (patchRecClosures base patches) := by
  induction patches generalizing s with
  | nil => exact steady_pure _
  | cons patch patches ih =>
    simp only [List.mem_cons, forall_eq_or_imp] at h
    obtain ⟨⟨hmember, hrefs⟩, hrest⟩ := h
    refine (steady_fillGroupRefs hlen hrefs).bind fun captures s' hs' => ?_
    refine (steady_readSlot (Nat.le_add_right _ _) (by omega)).bind fun v s'' hs'' => ?_
    cases v with
    | heap r =>
      exact (steady_setClosureCaptures r captures).bind fun _ s₃ hs₃ => ih (by omega) hrest
    | _ => exact steady_throwMsg _

/-- A recursive group is read as it was decoded, and grows the stack by its members. -/
theorem body_makeRecClosures {c : DecodeCtx} (hc : p.chunkOf f.protoIdx = some c.chunk)
    {start n next : ℕ} (hn : readU8 c.code k = some n)
    (h : decodeRecMembers c start n 0 n (k + 1) = .ok next) :
    Body fs f k next 0 n (makeRecClosures p fs.length : M W Unit) := by
  refine body_readOperand p 1 hc hn fun s hs => ?_
  rw [wp_bind, wp_get, wp_bind]
  have hboth := wp_and (body_allocRecClosures p hc h s hs)
    (returns_allocRecClosures p fs.length n 0 n (by omega) s)
  refine wp_mono hboth ?_ (fun _ _ h => h.1) (fun _ h => h.1)
  rintro patches s' ⟨⟨hframes, hkept, hlen, hbound, hwithin⟩, hpatches⟩
  have hpatch : Steady (s.stack.length ≤ ·) s' (patchRecClosures s.stack.length patches) :=
    steady_patchRecClosures (by omega) hpatches
  refine wp_mono hpatch ?_ ?_ (fun _ h => h)
  · rintro _ s'' ⟨hframes', hkept', hlen', htouched'⟩
    refine ⟨hframes'.trans hframes, hkept.trans hkept', by rw [hlen']; exact hlen,
      fun h => hlen' ▸ hbound h, fun i hi => ?_⟩
    rcases htouched' i hi with hi | hi
    · exact hwithin i hi
    · exact .inr (.inr hi)
  · rintro e s'' ⟨hpend, htouched'⟩
    refine ⟨hpend.trans hkept.pending, fun i hi => ?_⟩
    rcases htouched' i hi with hi | hi
    · exact hwithin i hi
    · exact .inr (.inr hi)

end

end Bodies

end Hiko
