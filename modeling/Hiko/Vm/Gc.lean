import Mathlib.Tactic
import Hiko.Vm.Values

/-!
# Instructions and the collector

Every instruction keeps the values of a VM safe, wherever a collection happens in it. The builtins
are the host's: they work on the heap through `Built`.

## Main definitions

* `HostOk`: the builtins of a host only read and allocate

## Main results

* `carries_execOp`, `carries_stackStep`: instructions and iterations keep everything safe
-/

namespace Hiko

open Lib Lib.Exec

variable {W : Type}

/-- What a builtin leaves of the heap was built from its argument, and so was its result. -/
def BuiltinOutcome.Built (n : ℕ) (s : Store) (arg : Value) : BuiltinOutcome W → Prop
  | .value v store _ => ∃ vs, Hiko.Built n s [arg] store vs ∧ v ∈ vs
  | .error _ _ store _ => ∃ vs, Hiko.Built n s [arg] store vs
  | .request _ store _ => ∃ vs, Hiko.Built n s [arg] store vs

/-- The builtins of a host are in its table, and only read and allocate. -/
structure HostOk (host : Host W) : Prop where
  byName : ∀ name id, host.byName name = some id → id < host.nBuiltins
  builtin : ∀ world store globals id arg,
    (host.callBuiltin world store globals id arg).Built host.nBuiltins store arg

section Instructions

variable {n : ℕ} {host : Host W} {p : CompiledProgram} {α : Type} {vs : List Value}

theorem scalar_int (k : Int64) : (Value.int k).Scalar := ⟨rfl, nofun⟩
theorem scalar_word (w : UInt64) : (Value.word w).Scalar := ⟨rfl, nofun⟩
theorem scalar_float (f : UInt64) : (Value.float f).Scalar := ⟨rfl, nofun⟩
theorem scalar_bool (b : Bool) : (Value.bool b).Scalar := ⟨rfl, nofun⟩
theorem scalar_char (c : Char) : (Value.char c).Scalar := ⟨rfl, nofun⟩
theorem scalar_unit : Value.unit.Scalar := ⟨rfl, nofun⟩

theorem carries_pushScalar {v : Value} (hv : v.Scalar) :
    Carries n vs (push v : M W Unit) fun _ => vs := carries_push (.inr hv)

/-- Push a value in hand and drop the rest. -/
theorem carries_pushLast {v : Value} {us : List Value} (hv : v ∈ vs) (hu : ∀ u ∈ us, u ∈ vs) :
    Carries n vs (push v : M W Unit) fun _ => us :=
  (carries_push (.inl hv)).mono (fun _ h => .inl h) fun _ => hu

theorem carries_checkedBinop (what : String) (as : Value → Option α) (f : α → α → Option Value)
    (msg : String) (hf : ∀ a b v, f a b = some v → v.Scalar) :
    Carries n vs (checkedBinop (popAs host what as) f msg) fun _ => vs := by
  refine (carries_popAs host what as).bind fun b => (carries_popAs host what as).bind fun a => ?_
  intro s hs
  rw [wp_bind, wp_orThrow]
  exact ⟨fun v hv => carries_pushScalar (hf a b v hv) s hs, fun _ => hs.drop⟩

theorem carries_scalarEq (eq : Bool) : Carries n vs (scalarEq host eq) fun _ => vs := by
  refine carries_pop.bind fun b => carries_pop.bind fun a => carries_get_keep.bind fun s => ?_
  exact (carries_pushScalar (scalar_bool _)).mono (fun _ h => .inl h) fun _ v hv =>
    List.mem_cons_of_mem _ (List.mem_cons_of_mem _ hv)

theorem carries_getLocal (fi slot : ℕ) :
    Carries n vs (getLocal fi slot : M W Unit) fun _ => vs :=
  (carries_readLocal fi slot _).bind fun _ =>
    carries_pushLast List.mem_cons_self fun _ => List.mem_cons_of_mem _

theorem carries_setLocal (fi slot : ℕ) :
    Carries n vs (setLocal fi slot : M W Unit) fun _ => vs :=
  carries_pop.bind fun _ => (carries_writeLocal fi slot _ (.inl List.mem_cons_self)).mono
    (fun _ h => .inl h) fun _ _ => List.mem_cons_of_mem _

theorem carries_fieldOf (v : Value) (idx : ℕ) (what : String) :
    Carries n vs (fieldOf v idx what : M W Value) fun w => w :: vs := by
  cases v with
  | heap r =>
    refine (carries_heapGet r).bind fun o => ?_
    intro s hs
    simp only [wp_bind, wp_orThrow]
    refine ⟨fun f hf => ⟨fun w hw => ?_, fun _ => hs.drop⟩, fun _ => hs.drop⟩
    refine hs.hand fun u hu => .inl (.inl ?_)
    rcases List.mem_cons.mp hu with rfl | hu
    · refine List.mem_append_left _ ?_
      cases o with
      | tuple g => exact (Option.some.inj hf) ▸ List.mem_of_getElem? hw
      | data _ g => exact (Option.some.inj hf) ▸ List.mem_of_getElem? hw
      | _ => cases hf
    · exact List.mem_append_right _ hu
  | _ => exact carries_throwMsg _

theorem carries_dataTag (v : Value) (what : String) :
    Carries n vs (dataTag v what : M W ℕ) fun _ => vs := by
  cases v with
  | heap r =>
    refine (carries_heapGet r).bind fun o => ?_
    cases o with
    | data tag f => exact carries_pure tag fun _ h => .inl (List.mem_append_right _ h)
    | _ => exact carries_throwMsg _
  | _ => exact carries_throwMsg _

theorem carries_pushField (idx : ℕ) : Carries n vs (pushField idx : M W Unit) fun _ => vs :=
  carries_pop.bind fun v => (carries_fieldOf v idx _).bind fun _ =>
    carries_pushLast List.mem_cons_self fun _ h =>
      List.mem_cons_of_mem _ (List.mem_cons_of_mem _ h)

theorem carries_opNeg : Carries n [] (opNeg host) fun _ => [] := by
  refine carries_pop.bind fun v => ?_
  cases v with
  | int k => exact (carries_orThrow_keep _ _).bind fun _ =>
      (carries_pushScalar (scalar_int _)).mono (fun _ h => .inl h) (by simp)
  | float f => exact (carries_pushScalar (scalar_float _)).mono (fun _ h => .inl h) (by simp)
  | _ => exact carries_throwMsg _

theorem carries_opNegFloat : Carries n [] (opNegFloat host) fun _ => [] :=
  (carries_popAs host _ _).bind fun _ => carries_pushScalar (scalar_float _)

theorem carries_opNot : Carries n [] (opNot host) fun _ => [] :=
  (carries_popAs host _ _).bind fun _ => carries_pushScalar (scalar_bool _)

/-- Allocate and push. -/
theorem carries_allocPush {obj : HeapObject} (hobj : ∀ v ∈ obj.children, InHand vs v) :
    Carries n vs (alloc obj >>= fun v => (push v : M W Unit)) fun _ => [] :=
  (carries_alloc hobj).bind fun _ => carries_pushLast (by simp) (by simp)

theorem carries_opConcatString : Carries n [] (opConcatString host) fun _ => [] :=
  (carries_popAs host _ _).bind fun b => (carries_popAs host _ _).bind fun a =>
    (carries_heapGet a).bind fun _ => (carries_heapGet b).bind fun _ =>
      carries_allocPush (by simp [HeapObject.children])

theorem carries_makeObject (arity : ℕ) (what : String) {mk : Fields → HeapObject}
    (hmk : ∀ f, (mk f).children = f.vals) :
    Carries n [] (makeObject arity what mk : M W Unit) fun _ => [] := by
  refine (carries_takeArgs arity what).bind fun vs => carries_allocPush fun v hv => .inl ?_
  rw [hmk] at hv
  exact List.mem_append_left _ hv

theorem carries_loadString (i : ProtoIdx) (idx : ℕ) (str : String) :
    Carries n [] (loadString i idx str : M W Value) fun v => [v] := by
  intro s hs
  unfold loadString
  rw [wp_bind, wp_get]
  split
  · next r hr =>
    refine hs.hand fun v hv => .inr ?_
    rw [List.mem_singleton] at hv
    subst hv
    obtain ⟨l₁, l₂, hl, -⟩ := List.lookup_eq_some_iff.mp hr
    exact held_cached (e := ((i, idx), r)) (by rw [hl]; simp)
  · refine ((carries_alloc (by simp [HeapObject.children])).bind fun v => ?_) s hs
    cases v with
    | heap r =>
      refine (carries_of_held fun s => ?_).bind fun _ => carries_pure _ fun _ h => .inl h
      refine ⟨rfl, rfl, held_cases (fun _ hv => .inl (held_stack hv))
        (fun _ hf _ hv => .inl (held_capture hf hv)) (fun _ hv => .inl (held_global hv))
        (fun _ hf _ hv => .inl (held_handler hf hv)) (fun _ hf _ hv => .inl (held_hidden hf hv))
        fun e he => ?_⟩
      rcases List.mem_cons.mp he with rfl | he
      · exact .inr (.inl (by simp))
      · exact .inl (held_cached he)
    | _ => exact carries_pure _ fun _ h => .inl h

theorem carries_constantValue (i : ProtoIdx) (idx : ℕ) (c : Constant) :
    Carries n [] (constantValue i idx c : M W Value) fun v => [v] := by
  cases c with
  | string str => exact carries_loadString i idx str
  | int k => exact carries_pure _ (by simpa using .inr (scalar_int k))
  | float f => exact carries_pure _ (by simpa using .inr (scalar_float f))
  | word w => exact carries_pure _ (by simpa using .inr (scalar_word w))
  | char c => exact carries_pure _ (by simpa using .inr (scalar_char c))

theorem carries_opConst (chunk : Chunk) (fi : ℕ) (i : ProtoIdx) :
    Carries n [] (opConst chunk fi i : M W Unit) fun _ => [] :=
  (carries_operand _ _ _ _).bind fun _ => (carries_orThrow_keep _ _).bind fun c =>
    (carries_constantValue i _ c).bind fun _ => carries_pushLast (by simp) (by simp)

theorem carries_setGlobalCell (slot : ℕ) {v : Value} (hv : InHand vs v) :
    Carries n vs (setGlobalCell p slot v : M W Unit) fun _ => vs := by
  refine carries_of_held fun s => ?_
  unfold wp setGlobalCell
  split
  · next heq =>
    split at heq
    · obtain ⟨-, rfl⟩ := Outcome.ok.inj heq
      refine ⟨rfl, rfl, held_of_globals fun w hw => ?_⟩
      rcases List.mem_or_eq_of_mem_set hw with hw | hw
      · unfold growGlobals at hw
        split at hw
        · rcases List.mem_append.mp hw with hw | hw
          · exact .inl (held_global hw)
          · exact absurd (List.eq_of_mem_replicate hw) nofun
        · exact .inl (held_global hw)
      · obtain rfl := Option.some.inj hw
        exact .inr hv
    · cases heq
  · next heq =>
    split at heq <;> cases heq
  · next heq =>
    split at heq
    · cases heq
    · obtain rfl := Outcome.fault.inj heq
      decide

theorem carries_modifyWorld (g : Vm W → W) :
    Carries n vs (Exec.modify fun s => { s with world := g s } : M W Unit) fun _ => vs :=
  carries_of_held fun _ => ⟨rfl, rfl, fun _ h => .inl h⟩

theorem carries_loadGlobal (hhost : HostOk host) (slot : ℕ) :
    Carries host.nBuiltins [] (loadGlobal host p slot) fun v => [v] := by
  intro s hs
  unfold loadGlobal
  rw [wp_bind, wp_orFault]
  refine ⟨fun name _ => ?_, fun _ => by decide⟩
  rw [wp_bind, wp_get]
  split
  · rw [wp_bind, wp_orThrow]
    refine ⟨fun id hid => ?_, fun _ => hs.drop⟩
    have hsafe : Safe host.nBuiltins s [.builtin id] :=
      ⟨hs.heap, hs.held, by simpa using valueOk_builtin (hhost.byName name id hid), hs.inherited⟩
    exact ((carries_setGlobalCell slot (.inl (by simp))).bind fun _ =>
      carries_pure _ fun _ h => .inl h) s hsafe
  · exact hs.drop
  · next msg hmsg =>
    have hm := hs.inherited slot msg hmsg
    split
    · exact hs.drop
    · next w _ =>
      exact ((carries_modifyWorld fun _ => w).bind fun _ => (carries_deserializeValue hm).bind
        fun v => (carries_setGlobalCell slot (.inl (by simp))).bind fun _ =>
          carries_pure v fun _ h => .inl h) s hs

theorem carries_opGetGlobal (hhost : HostOk host) (code : List UInt8) (fi : ℕ) :
    Carries host.nBuiltins [] (opGetGlobal host p code fi) fun _ => [] := by
  refine (carries_operand _ _ _ _).bind fun slot => ?_
  intro s hs
  rw [wp_bind, wp_get]
  split
  · next v hv =>
    have hsafe : Safe host.nBuiltins s [v] := by
      refine hs.hand fun w hw => .inr ?_
      rw [List.mem_singleton.mp hw]
      exact held_global (List.mem_of_getElem? hv)
    exact carries_pushLast List.mem_cons_self (by simp) s hsafe
  · exact ((carries_loadGlobal hhost slot).bind fun _ => carries_pushLast (by simp) (by simp)) s hs

theorem carries_opSetGlobal (code : List UInt8) (fi : ℕ) :
    Carries n [] (opSetGlobal host p code fi) fun _ => [] :=
  (carries_operand _ _ _ _).bind fun slot => carries_pop.bind fun _ =>
    (carries_setGlobalCell slot (.inl (by simp))).bind fun _ =>
      (carries_modifyWorld _).mono (fun _ h => .inl h) (by simp)

theorem carries_opGetUpvalue (code : List UInt8) (fi : ℕ) :
    Carries n [] (opGetUpvalue code fi : M W Unit) fun _ => [] := by
  refine (carries_operand _ _ _ _).bind fun idx => (carries_frameAt fi).bind fun f => ?_
  intro s hs
  rw [wp_bind, wp_orThrow]
  refine ⟨fun v hv => ?_, fun _ => hs.drop⟩
  exact carries_pushLast (List.mem_append_left _ (List.mem_of_getElem? hv)) (by simp) s hs

theorem carries_opGetLocalField (code : List UInt8) (fi field : ℕ) :
    Carries n [] (opGetLocalField code fi field : M W Unit) fun _ => [] :=
  (carries_operand _ _ _ _).bind fun slot => (carries_readLocal fi slot _).bind fun v =>
    (carries_fieldOf v field _).bind fun _ => carries_pushLast (by simp) (by simp)

theorem carries_readCaptures (code : List UInt8) (fi k : ℕ) :
    Carries n vs (readCaptures code fi k : M W (List Value)) fun ws => ws ++ vs := by
  induction k generalizing vs with
  | zero => exact carries_pure _ fun _ h => .inl h
  | succ k ih =>
    refine (carries_operand _ _ _ _).bind fun _ => (carries_operand _ _ _ _).bind fun index =>
      (carries_captureValue fi _ index).bind fun v => ih.bind fun ws => ?_
    refine carries_pure _ fun w hw => .inl ?_
    simp only [List.cons_append, List.mem_cons, List.mem_append] at hw ⊢
    tauto

theorem carries_opMakeClosure (code : List UInt8) (fi : ℕ) :
    Carries n [] (opMakeClosure code fi : M W Unit) fun _ => [] :=
  (carries_operand _ _ _ _).bind fun _ => (carries_operand _ _ _ _).bind fun k =>
    (carries_readCaptures code fi k).bind fun _ =>
      carries_allocPush fun _ h => .inl (List.mem_append_left _ h)

/-! ### Jumps -/

theorem carries_relativeJump (fi codeLen : ℕ) (offset : ℤ) (name : String) :
    Carries n [] (relativeJump fi codeLen offset name : M W Unit) fun _ => [] :=
  ((carries_frameAt fi).forget (by simp)).bind fun f =>
    (carries_jumpTarget f.ip offset codeLen name).bind fun target => carries_setIp fi target

theorem carries_jumpIf (taken : Bool) (fi codeLen : ℕ) (offset : ℤ) (name : String) :
    Carries n vs (jumpIf taken fi codeLen offset name : M W Unit) fun _ => [] := by
  unfold jumpIf
  split
  · exact (carries_relativeJump fi codeLen offset name).mono (by simp) (by simp)
  · exact carries_pure _ (by simp)

theorem carries_opJump (code : List UInt8) (fi : ℕ) :
    Carries n [] (opJump code fi : M W Unit) fun _ => [] :=
  (carries_operand _ _ _ _).bind fun _ => carries_relativeJump fi _ _ _

theorem carries_popTag (what : String) : Carries n [] (popTag what : M W ℕ) fun _ => [] :=
  carries_pop.bind fun v => (carries_dataTag v what).mono (fun _ h => .inl h) (by simp)

theorem carries_localTag (fi slot : ℕ) (what : String) :
    Carries n [] (localTag fi slot what : M W ℕ) fun _ => [] :=
  (carries_readLocal fi slot what).bind fun v =>
    (carries_dataTag v what).mono (fun _ h => .inl h) (by simp)

theorem carries_popEqual : Carries n [] (popEqual host) fun _ => [] :=
  carries_pop.bind fun _ => carries_pop.bind fun _ => carries_get_keep.bind fun _ =>
    carries_pure _ (by simp)

theorem carries_popIntsHold (holds : Int64 → Int64 → Bool) :
    Carries n [] (popIntsHold host holds) fun _ => [] :=
  (carries_popAs host _ _).bind fun _ => (carries_popAs host _ _).bind fun _ =>
    carries_pure _ (by simp)

theorem carries_opJumpIfNotTag (code : List UInt8) (fi : ℕ) :
    Carries n [] (opJumpIfNotTag code fi : M W Unit) fun _ => [] :=
  (carries_operand _ _ _ _).bind fun _ => (carries_operand _ _ _ _).bind fun _ =>
    (carries_popTag _).bind fun _ => carries_jumpIf _ fi _ _ _

theorem carries_opJumpIfLocalNotTag (code : List UInt8) (fi : ℕ) :
    Carries n [] (opJumpIfLocalNotTag code fi : M W Unit) fun _ => [] :=
  (carries_operand _ _ _ _).bind fun slot => (carries_operand _ _ _ _).bind fun _ =>
    (carries_operand _ _ _ _).bind fun _ => (carries_localTag fi slot _).bind fun _ =>
      carries_jumpIf _ fi _ _ _

theorem carries_opJumpIfEquality (onEqual : Bool) (name : String) (code : List UInt8) (fi : ℕ) :
    Carries n [] (opJumpIfEquality host onEqual name code fi) fun _ => [] :=
  (carries_operand _ _ _ _).bind fun _ => carries_popEqual.bind fun _ => carries_jumpIf _ fi _ _ _

theorem carries_opJumpIfNotInt (holds : Int64 → Int64 → Bool) (name : String)
    (code : List UInt8) (fi : ℕ) :
    Carries n [] (opJumpIfNotInt host holds name code fi) fun _ => [] :=
  (carries_operand _ _ _ _).bind fun _ => (carries_popIntsHold holds).bind fun _ =>
    carries_jumpIf _ fi _ _ _

theorem carries_opJumpIfFalse (code : List UInt8) (fi : ℕ) :
    Carries n [] (opJumpIfFalse host code fi) fun _ => [] :=
  (carries_operand _ _ _ _).bind fun _ => (carries_popAs host _ _).bind fun _ =>
    carries_jumpIf _ fi _ _ _

end Instructions

/-! ## Recursive closures

The captures of a member wait in a local variable, over the allocations of the later members,
until the whole group is there. They survive because the member itself is on the stack and
refers to them. -/

/-- A value that survives a collection: the roots reach it. -/
structure Pinned (n : ℕ) (s : Vm W) (v : Value) : Prop where
  range : ∀ r, v = .heap r → r.idx < s.store.heap.objects.length
  live : s.store.heap.Small → ∀ r, v = .heap r → Reaches s.store.heap.refSucc s.roots r
  builtin : ∀ id, v = .builtin id → id < n

section Rec

variable {n : ℕ} {p : CompiledProgram} {α β : Type} {vs : List Value} {s s' : Vm W}

theorem Pinned.ok {v : Value} (h : Pinned n s v) (hs : Safe n s vs) :
    ValueOk n s.store.heap v := by
  refine ⟨h.range, fun r hr hsmall => ?_, h.builtin⟩
  have hroots : ∀ r ∈ s.roots, ValueOk n s.store.heap (.heap r) :=
    fun r hr => hs.held _ (mem_roots.mp hr)
  exact (hs.heap.reaches hroots (h.live hsmall r hr)).names r rfl hsmall

/-- The state keeps every value that is pinned. -/
def Pins (n : ℕ) (s s' : Vm W) : Prop := ∀ v, Pinned n s v → Pinned n s' v

theorem Pins.refl (s : Vm W) : Pins n s s := fun _ h => h

theorem Pins.trans {s'' : Vm W} (h : Pins n s s') (h' : Pins n s' s'') : Pins n s s'' :=
  fun v hv => h' v (h v hv)

/-- The same heap and at least the same values held. -/
theorem pins_of_held (hstore : s'.store = s.store) (hheld : ∀ v ∈ s.held, v ∈ s'.held) :
    Pins n s s' := by
  intro v hv
  refine ⟨by rw [hstore]; exact hv.range, ?_, hv.builtin⟩
  rw [hstore]
  exact fun hsmall r hr => (hv.live hsmall r hr).mono fun r' hr' =>
    .root (mem_roots.mpr (hheld _ (mem_roots.mp hr')))

/-- A computation that keeps the heap and the values held. -/
def Still (m : M W α) : Prop :=
  ∀ s : Vm W, wp m (fun _ s' => s'.store = s.store ∧ ∀ v ∈ s.held, v ∈ s'.held)
    (fun _ _ => True) (fun _ => True) s

theorem Still.bind {m : M W α} {g : α → M W β} (hm : Still m) (hg : ∀ a, Still (g a)) :
    Still (m >>= g) := by
  intro s
  rw [wp_bind]
  refine wp_mono (hm s) ?_ (fun _ _ h => h) fun _ h => h
  rintro a s₁ ⟨hstore, hheld⟩
  refine wp_mono (hg a s₁) ?_ (fun _ _ h => h) fun _ h => h
  rintro b s₂ ⟨hstore', hheld'⟩
  exact ⟨hstore'.trans hstore, fun v hv => hheld' v (hheld v hv)⟩

theorem still_pure (a : α) : Still (pure a : M W α) := fun _ => ⟨rfl, fun _ h => h⟩

theorem still_orThrow (o : Option α) (e : RuntimeError) : Still (orThrow o e : M W α) := by
  intro s
  rw [wp_orThrow]
  exact ⟨fun _ _ => ⟨rfl, fun _ h => h⟩, fun _ => trivial⟩

theorem still_throwMsg (msg : String) : Still (throwMsg msg : M W α) := fun _ => trivial

theorem still_frameAt (fi : ℕ) : Still (frameAt fi : M W CallFrame) :=
  fun _ => wp_frameAt fi (fun _ _ => ⟨rfl, fun _ h => h⟩) trivial

theorem still_setIp (fi ip : ℕ) : Still (setIp fi ip : M W Unit) := by
  intro s
  unfold setIp wp updateFrame
  cases hf : s.frames[fi]? with
  | none => trivial
  | some f =>
    refine ⟨rfl, held_cases (fun _ hv => held_stack hv) (fun g hg v hv => ?_)
      (fun _ hv => held_global hv) (fun _ hh _ hv => held_handler hh hv)
      (fun _ hh _ hv => held_hidden hh hv) fun _ he => held_cached he⟩
    obtain ⟨j, hj⟩ := List.mem_iff_getElem?.mp hg
    by_cases hji : fi = j
    · subst hji
      obtain rfl : f = g := by simpa [hf] using hj
      exact held_capture (List.mem_set (List.getElem?_eq_some_iff.mp hf).1 _) hv
    · refine held_capture (List.mem_iff_getElem?.mpr ⟨j, ?_⟩) hv
      rw [List.getElem?_set_ne hji, hj]

theorem still_operand (read : List UInt8 → ℕ → Option α) (width : ℕ) (code : List UInt8)
    (fi : ℕ) : Still (operand read width code fi : M W α) :=
  (still_frameAt fi).bind fun _ => (still_orThrow _ _).bind fun a =>
    (still_setIp fi _).bind fun _ => still_pure a

theorem still_currentFrameIndex : Still (currentFrameIndex : M W ℕ) := by
  intro s
  unfold wp currentFrameIndex
  cases s.frames.length with
  | zero => trivial
  | succ n => exact ⟨rfl, fun _ h => h⟩

theorem still_readOperand {read : List UInt8 → ℕ → M W α} (hr : ∀ code fi, Still (read code fi)) :
    Still (readOperand p read) :=
  still_currentFrameIndex.bind fun fi => (still_frameAt fi).bind fun _ =>
    (still_orThrow _ _).bind fun chunk => hr chunk.code fi

theorem still_captureValue (fi : ℕ) (isLocal : Bool) (index : ℕ) :
    Still (captureValue fi isLocal index : M W Value) := by
  refine (still_frameAt fi).bind fun f => ?_
  split
  · exact still_throwMsg _
  · intro s
    rw [wp_getSlot]
    exact ⟨fun _ => trivial, fun _ _ => ⟨rfl, fun _ h => h⟩⟩
  · exact still_orThrow _ _

theorem still_recCapture (fi nClosures source index : ℕ) :
    Still (recCapture fi nClosures source index : M W (Option Value)) := by
  unfold recCapture
  split
  · exact (still_captureValue _ _ _).bind fun _ => still_pure _
  · split
    · exact (still_captureValue _ _ _).bind fun _ => still_pure _
    · split
      · exact still_pure _
      · exact still_throwMsg _

theorem still_readRecCaptures (fi nClosures j k : ℕ) :
    Still (readRecCaptures p fi nClosures j k : M W _) := by
  induction k generalizing j with
  | zero => exact still_pure _
  | succ k ih =>
    refine (still_readOperand fun _ _ => still_operand _ _ _ _).bind fun source =>
      (still_readOperand fun _ _ => still_operand _ _ _ _).bind fun index =>
        (still_recCapture fi nClosures source index).bind fun v => (ih (j + 1)).bind fun rest => ?_
    cases v with
    | some v => exact still_pure _
    | none => exact still_pure _

theorem carries_recCapture (fi nClosures source index : ℕ) :
    Carries n vs (recCapture fi nClosures source index : M W (Option Value))
      fun v => v.toList ++ vs := by
  have hcapture : ∀ isLocal, Carries n vs (do
      let v ← captureValue fi isLocal index
      pure (some v) : M W (Option Value)) fun v => v.toList ++ vs := fun isLocal =>
    (carries_captureValue fi isLocal index).bind fun v => carries_pure _ fun _ h => .inl h
  unfold recCapture
  split
  · exact hcapture false
  · split
    · exact hcapture true
    · split
      · exact carries_pure _ fun _ h => .inl h
      · exact carries_throwMsg _

theorem carries_readRecCaptures (fi nClosures j k : ℕ) :
    Carries n vs (readRecCaptures p fi nClosures j k : M W _) fun r => r.1 ++ vs := by
  induction k generalizing j vs with
  | zero => exact carries_pure _ fun _ h => .inl h
  | succ k ih =>
    refine (carries_readOperand p fun _ _ => carries_operand _ _ _ _).bind fun source =>
      (carries_readOperand p fun _ _ => carries_operand _ _ _ _).bind fun index =>
        (carries_recCapture fi nClosures source index).bind fun v =>
          (ih (j + 1)).bind fun rest => ?_
    cases v with
    | some v =>
      refine carries_pure _ fun w hw => .inl ?_
      simp only [List.cons_append, List.mem_cons, List.mem_append, Option.toList_some,
        List.not_mem_nil] at hw ⊢
      tauto
    | none =>
      refine carries_pure _ fun w hw => ?_
      simp only [List.cons_append, List.mem_cons] at hw
      rcases hw with rfl | hw
      · exact .inr scalar_unit
      · exact .inl (by simpa using hw)

/-- Reachability stays when the objects that are reached stay. -/
theorem reaches_of_objects {h h' : Heap} {roots : List GcRef} {r : GcRef}
    (hr : Reaches h.refSucc roots r)
    (hobj : ∀ r, Reaches h.refSucc roots r → h'.object? r.idx = h.object? r.idx) :
    Reaches h'.refSucc roots r :=
  hr.congr fun r' hr' => by rw [Heap.refSucc, Heap.refSucc, hobj r' hr']

theorem pins_collect (extra : List GcRef) {st : Store}
    (hc : s.store.collect (s.roots ++ extra) = some st) : Pins n s { s with store := st } := by
  intro v hv
  obtain ⟨marks, hsw, -, -⟩ := Store.collect_spec hc
  refine ⟨fun r hr => hsw.length ▸ hv.range r hr, fun hsmall r hr => ?_, hv.builtin⟩
  have hsmall' : s.store.heap.Small := by
    unfold Heap.Small at hsmall ⊢
    rwa [hsw.length] at hsmall
  refine reaches_of_objects (hv.live hsmall' r hr) fun r' hr' => Store.collect_object hc ?_
  exact (reaches_idx hr').mono fun i hi => .root (by
    rw [List.map_append]
    exact List.mem_append_left _ hi)

/-- An allocation keeps what is pinned, and its object is in the slot of the new reference. -/
theorem wp_alloc_pins {obj : HeapObject} (hs : Safe n s vs)
    (hobj : ∀ v ∈ obj.children, InHand vs v) :
    wp (alloc obj)
      (fun v s' => Safe n s' [v] ∧ Pins n s s' ∧ s'.roots = s.roots ∧
        s.store.heap.objects.length ≤ s'.store.heap.objects.length ∧
        ∃ r, v = .heap r ∧ (s'.store.heap.Small → s'.store.heap.object? r.idx = some obj))
      (fun _ s' => Safe n s' []) (fun x => x ≠ .heapSlot ∧ x ≠ .builtinTable) s := by
  have hcollect : wp (collectBefore obj)
      (fun _ s' => Pins n s s' ∧ s'.roots = s.roots ∧
        s.store.heap.objects.length ≤ s'.store.heap.objects.length)
      (fun _ _ => True) (fun _ => True) s := by
    unfold wp collectBefore
    split
    · next heq =>
      split at heq
      · unfold gcCollectWithExtraRoots at heq
        split at heq
        · cases heq
        · next st hst =>
          obtain ⟨-, rfl⟩ := Outcome.ok.inj heq
          obtain ⟨marks, hsw, -, -⟩ := Store.collect_spec hst
          exact ⟨pins_collect _ hst, rfl, hsw.length.ge⟩
      · obtain ⟨-, rfl⟩ := Outcome.ok.inj heq
        exact ⟨.refl s, rfl, le_refl _⟩
    · trivial
    · trivial
  rw [alloc, wp_bind]
  refine wp_mono (wp_and (carries_collectBefore hobj s hs) hcollect) ?_ (fun _ _ h => h.1)
    (fun _ h => h.1)
  rintro _ s₁ ⟨hs₁, hpins, hroots, hlen⟩
  unfold wp heapAlloc
  rcases halloc : s₁.store.alloc obj with ⟨e | r, st⟩
  · obtain rfl := Store.alloc_error halloc
    exact hs₁.drop.refuse (some e)
  · obtain ⟨hkeeps, hok, hr⟩ := Store.alloc_ok hs₁.heap hs₁.inHand halloc
    refine ⟨hs₁.keeps st hkeeps hok (by simpa using hr), hpins.trans fun v hv => ?_, hroots,
      hlen.trans hkeeps.length, r, rfl, fun hsmall => (Store.alloc_object hs₁.heap halloc hsmall).2.1⟩
    refine ⟨fun r hr => (hv.range r hr).trans_le hkeeps.length, fun hsmall r' hr' => ?_, hv.builtin⟩
    refine reaches_of_objects (hv.live (hkeeps.small hsmall) r' hr') fun r'' hr'' => ?_
    obtain ⟨hnone, -, hother⟩ := Store.alloc_object hs₁.heap halloc hsmall
    refine hother _ fun heq => ?_
    have hroots₁ : ∀ r ∈ s₁.roots, ValueOk n s₁.store.heap (.heap r) :=
      fun r hr => hs₁.held _ (mem_roots.mp hr)
    have hsome := ((hs₁.heap.reaches hroots₁ hr'').names r'' rfl (hkeeps.small hsmall)).1
    rw [heq, hnone] at hsome
    cases hsome

theorem Carries.pins {m : M W α} {ws : α → List Value} (hc : Carries n vs m ws) (hm : Still m)
    (hs : Safe n s vs) :
    wp m (fun a s' => Safe n s' (ws a) ∧ Pins n s s') (fun _ s' => Safe n s' [])
      (fun x => x ≠ .heapSlot ∧ x ≠ .builtinTable) s :=
  wp_mono (wp_and (hc s hs) (hm s)) (fun _ _ h => ⟨h.1, pins_of_held h.2.1 h.2.2⟩)
    (fun _ _ h => h.1) fun _ h => h.1

theorem wp_readOperand_pins (read : List UInt8 → ℕ → Option α) (width : ℕ) (hs : Safe n s []) :
    wp (readOperand p (operand read width)) (fun _ s' => Safe n s' [] ∧ Pins n s s')
      (fun _ s' => Safe n s' []) (fun x => x ≠ .heapSlot ∧ x ≠ .builtinTable) s :=
  (carries_readOperand p fun _ _ => carries_operand _ _ _ _).pins
    (still_readOperand fun _ _ => still_operand _ _ _ _) hs

/-- A member on the stack pins its captures. -/
theorem wp_pushMember {r : GcRef} {protoIdx : ℕ} {captures : List Value} (hs : Safe n s [.heap r])
    (hobj : s.store.heap.Small → s.store.heap.object? r.idx = some (.closure protoIdx captures))
    (hrange : ∀ v ∈ captures, ∀ r, v = .heap r → r.idx < s.store.heap.objects.length)
    (hbuiltin : ∀ v ∈ captures, ∀ id, v = .builtin id → id < n) :
    wp (push (.heap r))
      (fun _ s' => Safe n s' [] ∧ Pins n s s' ∧ ∀ v ∈ captures, Pinned n s' v)
      (fun _ s' => Safe n s' []) (fun x => x ≠ .heapSlot ∧ x ≠ .builtinTable) s := by
  have hpush : wp (push (.heap r)) (fun _ s' => Pins n s s' ∧ ∀ v ∈ captures, Pinned n s' v)
      (fun _ _ => True) (fun _ => True) s := by
    rw [wp_push]
    refine ⟨fun _ => trivial, fun _ => ⟨?_, fun v hv => ?_⟩⟩
    · exact pins_of_held rfl (held_cases (fun _ hv => held_stack (List.mem_append_left _ hv))
        (fun _ hf _ hv => held_capture hf hv) (fun _ hv => held_global hv)
        (fun _ hh _ hv => held_handler hh hv) (fun _ hh _ hv => held_hidden hh hv)
        fun _ he => held_cached he)
    · refine ⟨hrange v hv, fun hsmall r' hr' => ?_, hbuiltin v hv⟩
      refine (Reaches.root (mem_roots.mpr (held_stack (v := .heap r) ?_))).step ?_
      · exact List.mem_append_right _ List.mem_cons_self
      · simp only [Heap.refSucc, hobj hsmall]
        exact mem_refsOf.mpr (hr' ▸ hv)
  exact wp_mono (wp_and (carries_pushLast List.mem_cons_self (by simp) s hs) hpush)
    (fun _ _ h => h) (fun _ _ h => h.1) fun _ h => h.1

/-- The captures of a member survive until the group is there. -/
theorem wp_allocRecClosures (fi nClosures member k : ℕ) (hs : Safe n s []) :
    wp (allocRecClosures p fi nClosures member k)
      (fun patches s' => Safe n s' [] ∧ Pins n s s' ∧
        ∀ patch ∈ patches, ∀ v ∈ patch.captures, Pinned n s' v)
      (fun _ s' => Safe n s' []) (fun x => x ≠ .heapSlot ∧ x ≠ .builtinTable) s := by
  induction k generalizing member s with
  | zero => exact ⟨hs, .refl s, by simp⟩
  | succ k ih =>
    rw [allocRecClosures, wp_bind]
    refine wp_mono (wp_readOperand_pins _ _ hs) ?_ (fun _ _ h => h) fun _ h => h
    rintro protoIdx s₁ ⟨hs₁, hp₁⟩
    rw [wp_bind]
    refine wp_mono (wp_readOperand_pins _ _ hs₁) ?_ (fun _ _ h => h) fun _ h => h
    rintro nCaptures s₂ ⟨hs₂, hp₂⟩
    rw [wp_bind]
    refine wp_mono ((carries_readRecCaptures fi nClosures 0 nCaptures).pins
      (still_readRecCaptures fi nClosures 0 nCaptures) hs₂) ?_ (fun _ _ h => h) fun _ h => h
    rintro captures s₃ ⟨hs₃, hp₃⟩
    have hcap : ∀ v ∈ captures.1, ValueOk n s₃.store.heap v :=
      fun v hv => hs₃.inHand v (List.mem_append_left _ hv)
    rw [wp_bind]
    refine wp_mono (wp_alloc_pins hs₃ fun v hv => .inl (List.mem_append_left _ hv)) ?_
      (fun _ _ h => h) fun _ h => h
    rintro v s₄ ⟨hs₄, hp₄, -, hlen, r, rfl, hobj⟩
    rw [wp_bind]
    refine wp_mono (wp_pushMember hs₄ hobj
      (fun v hv r hr => ((hcap v hv).range r hr).trans_le hlen) fun v hv => (hcap v hv).builtin)
      ?_ (fun _ _ h => h) fun _ h => h
    rintro _ s₅ ⟨hs₅, hp₅, hpinned⟩
    rw [wp_bind]
    refine wp_mono (ih (member + 1) hs₅) ?_ (fun _ _ h => h) fun _ h => h
    rintro rest s₆ ⟨hs₆, hp₆, hrest⟩
    refine ⟨hs₆, hp₁.trans (hp₂.trans (hp₃.trans (hp₄.trans (hp₅.trans hp₆)))), ?_⟩
    split
    · exact hrest
    · exact List.forall_mem_cons.mpr ⟨fun v hv => hp₆ v (hpinned v hv), hrest⟩

theorem carries_fillGroupRefs (base : ℕ) (refs : List (ℕ × ℕ)) {captures : List Value}
    (hc : ∀ v ∈ captures, InHand vs v) :
    Carries n vs (fillGroupRefs base refs captures : M W _) fun cs => cs ++ vs := by
  induction refs generalizing captures vs with
  | nil =>
    refine carries_pure _ fun v hv => ?_
    rcases List.mem_append.mp hv with hv | hv
    · exact hc v hv
    · exact .inl hv
  | cons e refs ih =>
    obtain ⟨idx, target⟩ := e
    refine (carries_readSlot _).bind fun v => ?_
    split
    · have hset : ∀ w ∈ captures.set idx v, InHand (v :: vs) w := by
        intro w hw
        rcases List.mem_or_eq_of_mem_set hw with hw | rfl
        · exact (hc w hw).imp (List.mem_cons_of_mem _) id
        · exact .inl List.mem_cons_self
      refine (ih hset).mono (fun _ h => .inl h) fun cs w hw => ?_
      simp only [List.mem_append, List.mem_cons] at hw ⊢
      tauto
    · exact fun s hs => by
        rw [wp_fault]
        decide

theorem carries_patchRecClosures (base : ℕ) {patches : List RecClosurePatch}
    (hc : ∀ patch ∈ patches, ∀ v ∈ patch.captures, v ∈ vs) :
    Carries n vs (patchRecClosures base patches : M W Unit) fun _ => [] := by
  induction patches with
  | nil => exact carries_pure _ (by simp)
  | cons patch patches ih =>
    rw [List.forall_mem_cons] at hc
    refine (carries_fillGroupRefs base patch.groupRefs fun v hv => .inl (hc.1 v hv)).bind
      fun captures => (carries_readSlot _).bind fun v => ?_
    cases v with
    | heap r =>
      refine (carries_setClosureCaptures r fun v hv => .inl ?_).bind fun _ =>
        (ih hc.2).mono (fun v hv => .inl ?_) (by simp)
      · exact List.mem_cons_of_mem _ (List.mem_append_left _ hv)
      · exact List.mem_cons_of_mem _ (List.mem_append_right _ hv)
    | _ => exact carries_throwMsg _

theorem carries_makeRecClosures (fi : ℕ) :
    Carries n [] (makeRecClosures p fi : M W Unit) fun _ => [] := by
  refine (carries_readOperand p fun _ _ => carries_operand _ _ _ _).bind fun k =>
    carries_get_keep.bind fun s₀ => ?_
  intro s hs
  rw [wp_bind]
  refine wp_mono (wp_allocRecClosures fi k 0 k hs) ?_ (fun _ _ h => h) fun _ h => h
  rintro patches s' ⟨hs', -, hpinned⟩
  have hsafe : Safe n s' (patches.flatMap (·.captures)) := by
    refine ⟨hs'.heap, hs'.held, fun v hv => ?_, hs'.inherited⟩
    obtain ⟨patch, hp, hv⟩ := List.mem_flatMap.mp hv
    exact (hpinned patch hp v hv).ok hs'
  exact carries_patchRecClosures _ (fun patch hp v hv => List.mem_flatMap.mpr ⟨patch, hp, hv⟩) s'
    hsafe

end Rec

/-! ## Calls -/

section Calls

variable {n : ℕ} {host : Host W} {p : CompiledProgram} {vs : List Value}

theorem carries_closureOf (v : Value) (msg : String) :
    Carries n vs (closureOf v msg : M W (ℕ × List Value)) fun closure => closure.2 ++ vs := by
  cases v with
  | heap r =>
    refine (carries_heapGet r).bind fun o => ?_
    cases o with
    | closure i captures => exact carries_pure _ fun _ h => .inl h
    | _ => exact carries_throwMsg _
  | _ => exact carries_throwMsg _

theorem carries_shiftArgs (pos i k : ℕ) :
    Carries n vs (shiftArgs pos i k : M W Unit) fun _ => vs := by
  induction k generalizing i with
  | zero => exact carries_pure _ fun _ h => .inl h
  | succ k ih =>
    refine (carries_readSlot _).bind fun v =>
      (carries_writeSlot _ (.inl List.mem_cons_self)).bind fun _ => ?_
    exact (ih (i + 1)).mono (fun _ h => .inl (List.mem_cons_of_mem _ h)) fun _ _ h => h

theorem carries_moveArgs (dst src : ℕ) (what : String) (i k : ℕ) :
    Carries n vs (moveArgs dst src what i k : M W Unit) fun _ => vs := by
  induction k generalizing i with
  | zero => exact carries_pure _ fun _ h => .inl h
  | succ k ih =>
    refine (carries_checkedStackIndex _ _ _).bind fun d =>
      (carries_checkedStackIndex _ _ _).bind fun a => (carries_readSlot a).bind fun v =>
        (carries_writeSlot d (.inl List.mem_cons_self)).bind fun _ => ?_
    exact (ih (i + 1)).mono (fun _ h => .inl (List.mem_cons_of_mem _ h)) fun _ _ h => h

theorem carries_enterClosure (pos arity : ℕ) :
    Carries n [] (enterClosure host p pos arity) fun _ => [] := by
  refine (carries_readSlot pos).bind fun callee => (carries_closureOf callee _).bind fun closure =>
    (carries_proto p _).bind fun q => ?_
  split
  · exact carries_throwMsg _
  · exact (carries_checkCallFrames.bind fun _ => (carries_shiftArgs pos 0 arity).bind fun _ =>
      (carries_truncate _).bind fun _ =>
        carries_pushFrame fun v hv => .inl (List.mem_append_left _ hv)).mono (fun _ h => .inl h)
      (by simp)

/-- What a builtin leaves is safe. -/
theorem Safe.built {s : Vm W} {arg : Value} {store : Store} (hs : Safe n s [arg]) (w : W)
    {ws us : List Value} (hb : Built n s.store [arg] store ws) (hu : ∀ v ∈ us, v ∈ ws) :
    Safe n { s with store := store, world := w } us := by
  obtain ⟨hkeeps, hok, hws⟩ := hb.ok hs.heap hs.inHand
  obtain ⟨h₁, h₂, h₃, h₄⟩ := hs.keeps store hkeeps hok fun v hv => hws v (hu v hv)
  exact ⟨h₁, h₂, h₃, h₄⟩

theorem carries_suspend (r : RuntimeRequest) (pos : ℕ) :
    Carries n [] (suspendForRuntimeRequest r pos : M W Unit) fun _ => [] := by
  unfold suspendForRuntimeRequest
  refine Carries.bind (carries_modify fun _ => ⟨rfl, rfl, fun _ h => .inl h⟩) fun _ => ?_
  exact (carries_truncate pos).bind fun _ => (carries_pushScalar scalar_unit).bind fun _ =>
    carries_throwMsg _

theorem carries_callBuiltin (hhost : HostOk host) {id pos arity : ℕ} (hid : id < host.nBuiltins) :
    Carries host.nBuiltins [] (callBuiltin host id pos arity) fun _ => [] := by
  unfold callBuiltin
  split
  · exact carries_throwMsg _
  · rw [if_neg (by omega)]
    refine (carries_readSlot _).bind fun arg => ?_
    intro s hs
    rw [wp_bind, wp_modify, wp_bind, wp_get]
    have hs' : Safe host.nBuiltins { s with calls := (id, arg) :: s.calls } [arg] :=
      ⟨hs.heap, hs.held, hs.inHand, hs.inherited⟩
    have hbuilt := hhost.builtin s.world s.store s.globals id arg
    dsimp only
    cases hout : host.callBuiltin s.world s.store s.globals id arg with
    | value v store world =>
      rw [hout] at hbuilt
      obtain ⟨ws, hb, hv⟩ := hbuilt
      have hfinish : Carries host.nBuiltins [v] (truncate pos >>= fun _ => push v : M W Unit)
          fun _ => [] :=
        (carries_truncate pos).bind fun _ => carries_pushLast List.mem_cons_self (by simp)
      exact hfinish _ (hs'.built world hb (List.forall_mem_singleton.mpr hv))
    | error msg refused store world =>
      rw [hout] at hbuilt
      obtain ⟨ws, hb⟩ := hbuilt
      exact (hs'.built world hb (by simp)).refuse refused
    | request r store world =>
      rw [hout] at hbuilt
      obtain ⟨ws, hb⟩ := hbuilt
      exact carries_suspend r pos _ (hs'.built world hb (by simp))

/-- A callee in hand that is a builtin is in the table. -/
theorem carries_builtin {α : Type} {id : ℕ} {m : M W α} {ws : α → List Value}
    (h : id < n → Carries n [] m ws) : Carries n [.builtin id] m ws := by
  intro s hs
  exact h ((hs.inHand _ List.mem_cons_self).builtin id rfl) s hs.drop

theorem carries_opCall (hhost : HostOk host) (code : List UInt8) (fi : ℕ) :
    Carries host.nBuiltins [] (opCall host p code fi) fun _ => [] := by
  refine (carries_operand _ _ _ _).bind fun arity => (carries_stackStart _ _ _).bind fun pos =>
    (carries_readSlot pos).bind fun callee => ?_
  cases callee with
  | builtin id => exact carries_builtin fun hid => carries_callBuiltin hhost hid
  | _ => exact (carries_enterClosure pos arity).mono (by simp) (by simp)

theorem carries_reuseFrame (fi start arity : ℕ) (what : String) (i : ProtoIdx)
    {captures : List Value} (hc : ∀ v ∈ captures, v ∈ vs) :
    Carries n vs (reuseFrame fi start arity what i captures : M W Unit) fun _ => [] := by
  refine ((carries_frameAt fi).forget fun _ _ h => List.mem_append_right _ h).bind fun f =>
    (carries_moveArgs _ _ _ _ _).bind fun _ => (carries_truncate _).bind fun _ => ?_
  exact (carries_updateFrame fi fun _ => .inr fun v hv => .inl (hc v hv)).mono
    (fun _ h => .inl h) (by simp)

theorem carries_opTailCall (hhost : HostOk host) (code : List UInt8) (fi : ℕ) :
    Carries host.nBuiltins [] (opTailCall host p code fi) fun _ => [] := by
  have hclosure : ∀ (callee : Value) (pos arity : ℕ),
      Carries host.nBuiltins [callee] (do
        let closure ← closureOf callee "tail call: expected function"
        let q ← proto p (.fn closure.1)
        if q.arity.toNat ≠ arity then
          throwMsg ("tail call: function expects " ++ toString q.arity.toNat ++ " arg(s), got " ++
            toString arity)
        else do
          let fi ← currentFrameIndex
          reuseFrame fi (pos + 1) arity "TailCall" (.fn closure.1) closure.2 : M W Unit)
        fun _ => [] := by
    intro callee pos arity
    refine (carries_closureOf callee _).bind fun closure => (carries_proto p _).bind fun q => ?_
    split
    · exact carries_throwMsg _
    · exact carries_currentFrameIndex.bind fun fi =>
        carries_reuseFrame fi _ _ _ _ fun _ h => List.mem_append_left _ h
  refine (carries_operand _ _ _ _).bind fun arity => (carries_stackStart _ _ _).bind fun pos =>
    (carries_readSlot pos).bind fun callee => ?_
  cases callee with
  | builtin id => exact carries_builtin fun hid => carries_callBuiltin hhost hid
  | _ => exact hclosure _ pos arity

theorem carries_callProto (i : ProtoIdx) (what : String) {captures : List Value}
    (hc : ∀ v ∈ captures, v ∈ vs) :
    Carries n vs (callProto p i what captures : M W Unit) fun _ => [] := by
  refine (carries_proto p i).bind fun q => (carries_stackStart _ _ _).bind fun start =>
    carries_checkCallFrames.bind fun _ => ?_
  exact (carries_pushFrame fun v hv => .inl (hc v hv)).mono (fun _ h => .inl h) (by simp)

theorem carries_opCallDirect (code : List UInt8) (fi : ℕ) :
    Carries n [] (opCallDirect p code fi : M W Unit) fun _ => [] :=
  (carries_operand _ _ _ _).bind fun i => carries_callProto (.fn i) _ (by simp)

theorem carries_opCallSelf (fi : ℕ) (i : ProtoIdx) :
    Carries n [] (opCallSelf p fi i : M W Unit) fun _ => [] :=
  (carries_frameAt fi).bind fun _ => carries_callProto i _ fun _ h => List.mem_append_left _ h

theorem carries_opTailCallDirect (code : List UInt8) (fi : ℕ) :
    Carries n [] (opTailCallDirect p code fi : M W Unit) fun _ => [] :=
  (carries_operand _ _ _ _).bind fun i => (carries_proto p _).bind fun q =>
    (carries_stackStart _ _ _).bind fun start => carries_currentFrameIndex.bind fun fi =>
      carries_reuseFrame fi _ _ _ _ (by simp)

theorem carries_opTailCallSelf (fi : ℕ) (i : ProtoIdx) :
    Carries n [] (opTailCallSelf p fi i : M W Unit) fun _ => [] :=
  (carries_proto p i).bind fun _ => (carries_stackStart _ _ _).bind fun _ =>
    (carries_frameAt fi).bind fun _ =>
      carries_reuseFrame fi _ _ _ _ fun _ h => List.mem_append_left _ h

theorem carries_popFrame : Carries n vs (popFrame : M W CallFrame) fun _ => vs := by
  refine carries_of_held fun s => ?_
  unfold wp popFrame
  cases s.frames.getLast? with
  | none => exact ⟨rfl, rfl, fun _ h => .inl h⟩
  | some f =>
    refine ⟨rfl, rfl, held_of_frames fun f' hf' v hv => ?_⟩
    exact .inl (held_capture (List.mem_of_mem_dropLast hf') hv)

theorem carries_unhideHandlers : Carries n vs (unhideHandlers : M W Unit) fun _ => vs := by
  refine carries_of_held fun s => ?_
  unfold unhideHandlers
  rw [wp_modify]
  split
  · next hidden hlast =>
    have hmem : hidden ∈ s.hiddenHandlers := List.mem_of_getLast? hlast
    split
    · refine ⟨rfl, rfl, held_of_handlers (fun h hh v hv => .inl ?_) fun h hh v hv => .inl ?_⟩
      · rcases List.mem_append.mp hh with hh | hh
        · exact held_handler hh hv
        · exact held_hidden (List.mem_flatMap.mpr ⟨hidden, hmem, hh⟩) hv
      · obtain ⟨b, hb, hh⟩ := List.mem_flatMap.mp hh
        exact held_hidden (List.mem_flatMap.mpr ⟨b, List.mem_of_mem_dropLast hb, hh⟩) hv
    · exact ⟨rfl, rfl, fun _ h => .inl h⟩
  · exact ⟨rfl, rfl, fun _ h => .inl h⟩

theorem carries_opReturn : Carries n [] (opReturn : M W Flow) fun _ => [] :=
  carries_pop.bind fun _ => carries_popFrame.bind fun _ => (carries_truncate _).bind fun _ =>
    (carries_push (.inl List.mem_cons_self)).bind fun _ => carries_unhideHandlers.bind fun _ =>
      carries_get_keep.bind fun _ => carries_pure _ (by simp)

theorem carries_opPanic (code : List UInt8) (fi : ℕ) (i : ProtoIdx) :
    Carries n [] (opPanic p code fi i : M W Unit) fun _ => [] := by
  refine (carries_operand _ _ _ _).bind fun idx => (carries_chunkForChecked p i).bind fun chunk => ?_
  split <;> exact carries_throwMsg _

/-! ### Effect handlers -/

theorem carries_readClauseAction (code : List UInt8) (fi flags : ℕ) :
    Carries n [] (readClauseAction code fi flags : M W ClauseAction) fun _ => [] := by
  unfold readClauseAction
  split
  · exact (carries_operand _ _ _ _).bind fun slot => (carries_localStackIndex fi slot _).bind
      fun _ => carries_pure _ (by simp)
  · split
    · exact (carries_operand _ _ _ _).bind fun offset =>
        ((carries_frameAt fi).forget (by simp)).bind fun f => (carries_jumpTarget _ _ _ _).bind
          fun _ => carries_pure _ (by simp)
    · exact carries_throwMsg _

theorem carries_readClauses (code : List UInt8) (fi k : ℕ) :
    Carries n [] (readClauses code fi k : M W (List HandlerClause)) fun _ => [] := by
  induction k with
  | zero => exact carries_pure _ (by simp)
  | succ k ih =>
    exact (carries_operand _ _ _ _).bind fun _ => (carries_operand _ _ _ _).bind fun flags =>
      (carries_readClauseAction code fi flags).bind fun _ => ih.bind fun _ =>
        carries_pure _ (by simp)

theorem carries_pushHandler (fi : ℕ) (clauses : List HandlerClause) :
    Carries n [] (pushHandler fi clauses : M W Unit) fun _ => [] := by
  refine (carries_frameAt fi).bind fun f => ?_
  refine Carries.mono (carries_modify fun s => ⟨rfl, rfl, held_of_handlers
    (fun h hh v hv => ?_) fun h hh v hv => .inl (held_hidden hh hv)⟩) (fun _ h => .inl h)
    fun _ v hv => absurd hv (by simp)
  rcases List.mem_append.mp hh with hh | hh
  · exact .inl (held_handler hh hv)
  · rw [List.mem_singleton] at hh
    subst hh
    exact .inr (.inl (List.mem_append_left _ hv))

theorem carries_opInstallHandler (code : List UInt8) (fi : ℕ) :
    Carries n [] (opInstallHandler code fi : M W Unit) fun _ => [] := by
  refine carries_get_keep.bind fun s => ?_
  split
  · exact carries_throwMsg _
  · exact (carries_operand _ _ _ _).bind fun k => (carries_readClauses code fi k).bind
      fun clauses => carries_pushHandler fi clauses

theorem carries_opRemoveHandler : Carries n [] (opRemoveHandler : M W Unit) fun _ => [] :=
  carries_modify fun _ => ⟨rfl, rfl, held_of_handlers
    (fun _ hh _ hv => .inl (held_handler (List.mem_of_mem_dropLast hh) hv))
    fun _ hh _ hv => .inl (held_hidden hh hv)⟩

theorem carries_handlerAt (k : ℕ) :
    Carries n vs (handlerAt k : M W HandlerFrame) fun h => h.captures ++ vs := by
  refine carries_take fun s => ?_
  unfold wp handlerAt
  cases hh : s.handlers[k]? with
  | none => exact ⟨nofun, nofun⟩
  | some h =>
    refine ⟨rfl, rfl, fun _ h => .inl h, fun v hv => ?_⟩
    rcases List.mem_append.mp hv with hv | hv
    · exact .inr (held_handler (List.mem_of_getElem? hh) hv)
    · exact .inl (.inl hv)

theorem carries_checkHandlerActive (h : HandlerFrame) :
    Carries n vs (checkHandlerActive h : M W Unit) fun _ => vs := by
  refine carries_check fun s => ?_
  unfold wp checkHandlerActive
  cases s.frames[h.callFrameIdx]? with
  | none => rfl
  | some f => by_cases hf : f.base ≤ h.stackBase ∧ h.stackBase ≤ s.stack.length <;> simp [hf]

theorem carries_performProvide (hIdx saveFrom closureSlot : ℕ) {payload : Value}
    (hpayload : payload ∈ vs) :
    Carries n vs (performProvide host p hIdx saveFrom closureSlot payload) fun _ => [] := by
  unfold performProvide
  split
  · exact carries_throwMsg _
  · refine Carries.bind (carries_modify fun s => ⟨rfl, rfl, held_of_handlers
      (fun h hh v hv => .inl ?_) fun h hh v hv => .inl ?_⟩) fun _ => ?_
    · exact held_handler (List.mem_of_mem_take hh) hv
    · simp only [List.flatMap_append, List.flatMap_singleton, List.mem_append] at hh
      rcases hh with hh | hh
      · exact held_hidden hh hv
      · exact held_handler (List.mem_of_mem_drop hh) hv
    · exact carries_get_keep.bind fun s => (carries_readSlot _).bind fun closure =>
        (carries_push (.inl List.mem_cons_self)).bind fun _ =>
          (carries_push (.inl (List.mem_cons_of_mem _ hpayload))).bind fun _ =>
            (carries_pushScalar scalar_unit).bind fun _ =>
              (carries_enterClosure _ 2).mono (by simp) (by simp)

theorem carries_performAbort (hIdx : ℕ) {h : HandlerFrame} (ip : ℕ) {payload : Value}
    (hcaptures : ∀ v ∈ h.captures, v ∈ vs) (hpayload : payload ∈ vs) :
    Carries n vs (performAbort hIdx h ip payload : M W Unit) fun _ => [] := by
  unfold performAbort
  refine Carries.bind (carries_modify fun s => ⟨rfl, rfl, held_of_handlers
    (fun _ hh _ hv => .inl (held_handler (List.mem_of_mem_take hh) hv))
    fun _ hh _ hv => .inl (held_hidden hh hv)⟩) fun _ => ?_
  refine (carries_truncate _).bind fun _ => ?_
  refine Carries.bind (carries_modify fun s => ⟨rfl, rfl, held_cases
    (fun _ hv => .inl (held_stack hv))
    (fun _ hf _ hv => .inl (held_capture (List.mem_of_mem_take hf) hv))
    (fun _ hv => .inl (held_global hv)) (fun _ hh _ hv => .inl (held_handler hh hv))
    (fun h hh v hv => .inl ?_) fun _ he => .inl (held_cached he)⟩) fun _ => ?_
  · obtain ⟨b, hb, hh⟩ := List.mem_flatMap.mp hh
    exact held_hidden (List.mem_flatMap.mpr ⟨b, (List.rdropWhile_prefix _ _).subset hb, hh⟩) hv
  · refine (carries_updateFrame _ fun _ => .inr fun v hv => .inl (hcaptures v hv)).bind fun _ => ?_
    exact (carries_push (.inl hpayload)).bind fun _ =>
      (carries_pushScalar scalar_unit).mono (fun _ h => .inl h) (by simp)

theorem carries_opPerform (code : List UInt8) (fi : ℕ) :
    Carries n [] (opPerform host p code fi) fun _ => [] := by
  refine (carries_operand _ _ _ _).bind fun tag => carries_pop.bind fun payload =>
    carries_get_keep.bind fun s => (carries_orThrow_keep _ _).bind fun found =>
      (carries_handlerAt found.1).bind fun h => (carries_checkHandlerActive h).bind fun _ => ?_
  have hpayload : payload ∈ h.captures ++ [payload] := by simp
  split
  · exact carries_performProvide _ _ _ hpayload
  · exact carries_performAbort _ _ (fun _ hv => List.mem_append_left _ hv) hpayload

end Calls

/-! ## Iterations -/

section Step

variable {host : Host W} {p : CompiledProgram}

/-- **Every instruction keeps everything safe.** -/
theorem carries_execOp (hhost : HostOk host) (chunk : Chunk) (fi : ℕ) (i : ProtoIdx) (op : Op) :
    Carries host.nBuiltins [] (execOp host p chunk fi i op) fun _ => [] := by
  cases op with
  | const => exact carries_opConst chunk fi i
  | unit => exact carries_pushScalar scalar_unit
  | true | false => exact carries_pushScalar (scalar_bool _)
  | getLocal => exact (carries_operand _ _ _ _).bind fun slot => carries_getLocal fi slot
  | getLocal0 | getLocal1 | getLocal2 | getLocal3 => exact carries_getLocal fi _
  | setLocal => exact (carries_operand _ _ _ _).bind fun slot => carries_setLocal fi slot
  | setLocal0 | setLocal1 | setLocal2 | setLocal3 => exact carries_setLocal fi _
  | getUpvalue => exact carries_opGetUpvalue chunk.code fi
  | getGlobal => exact carries_opGetGlobal hhost chunk.code fi
  | setGlobal => exact carries_opSetGlobal chunk.code fi
  | pop => exact carries_pop.bind fun _ => carries_pure _ (by simp)
  | addInt | subInt | mulInt | divInt | modInt =>
    refine carries_checkedBinop _ _ _ _ fun a b v hv => ?_
    obtain ⟨k, -, rfl⟩ := Option.map_eq_some_iff.mp hv
    exact scalar_int k
  | addFloat | subFloat | mulFloat | divFloat =>
    refine carries_checkedBinop _ _ _ _ fun a b v hv => ?_
    obtain rfl := Option.some.inj hv
    exact scalar_float _
  | ltInt | gtInt | leInt | geInt | ltFloat | gtFloat | leFloat | geFloat
  | ltWord | gtWord | leWord | geWord =>
    refine carries_checkedBinop _ _ _ _ fun a b v hv => ?_
    obtain rfl := Option.some.inj hv
    exact scalar_bool _
  | addWord | subWord | mulWord =>
    refine carries_checkedBinop _ _ _ _ fun a b v hv => ?_
    obtain rfl := Option.some.inj hv
    exact scalar_word _
  | divWord | modWord =>
    refine carries_checkedBinop _ _ _ _ fun a b v hv => ?_
    obtain ⟨k, -, rfl⟩ := Option.map_eq_some_iff.mp hv
    exact scalar_word k
  | neg => exact carries_opNeg
  | negFloat => exact carries_opNegFloat
  | eq | ne => exact carries_scalarEq _
  | concatString => exact carries_opConcatString
  | not => exact carries_opNot
  | makeTuple =>
    exact (carries_operand _ _ _ _).bind fun arity => carries_makeObject arity _ fun _ => rfl
  | makeData =>
    exact (carries_operand _ _ _ _).bind fun tag => (carries_operand _ _ _ _).bind fun arity =>
      carries_makeObject arity _ fun _ => rfl
  | makeCons => exact carries_makeObject 2 _ fun _ => rfl
  | getField => exact (carries_operand _ _ _ _).bind fun idx => carries_pushField idx
  | getField0 | getField1 => exact carries_pushField _
  | getLocalField0 | getLocalField1 => exact carries_opGetLocalField chunk.code fi _
  | jump => exact carries_opJump chunk.code fi
  | jumpIfNotTag => exact carries_opJumpIfNotTag chunk.code fi
  | jumpIfLocalNotTag => exact carries_opJumpIfLocalNotTag chunk.code fi
  | jumpIfNotEq | jumpIfEq => exact carries_opJumpIfEquality _ _ chunk.code fi
  | jumpIfNotLtInt | jumpIfNotGtInt | jumpIfNotLeInt | jumpIfNotGeInt =>
    exact carries_opJumpIfNotInt _ _ chunk.code fi
  | jumpIfFalse => exact carries_opJumpIfFalse chunk.code fi
  | makeClosure => exact carries_opMakeClosure chunk.code fi
  | makeRecClosures => exact carries_makeRecClosures fi
  | call => exact carries_opCall hhost chunk.code fi
  | tailCall => exact carries_opTailCall hhost chunk.code fi
  | callDirect => exact carries_opCallDirect chunk.code fi
  | callSelf => exact carries_opCallSelf fi i
  | tailCallSelf => exact carries_opTailCallSelf fi i
  | tailCallDirect => exact carries_opTailCallDirect chunk.code fi
  | panic => exact carries_opPanic chunk.code fi i
  | installHandler => exact carries_opInstallHandler chunk.code fi
  | removeHandler => exact carries_opRemoveHandler
  | perform => exact carries_opPerform chunk.code fi
  | halt | ret => exact carries_pure _ (by simp)

theorem carries_exec (hhost : HostOk host) (chunk : Chunk) (fi : ℕ) (i : ProtoIdx) (op : Op) :
    Carries host.nBuiltins [] (exec host p chunk fi i op) fun _ => [] := by
  have hnext : Carries host.nBuiltins [] (andNext (execOp host p chunk fi i op)) fun _ => [] :=
    (carries_execOp hhost chunk fi i op).bind fun _ => carries_pure _ (by simp)
  cases op with
  | halt => exact carries_pure _ (by simp)
  | ret => exact carries_opReturn
  | _ => exact hnext

theorem carries_chargeFuel {n : ℕ} {vs : List Value} :
    Carries n vs (chargeFuel : M W Unit) fun _ => vs := by
  refine carries_of_held fun s => ?_
  unfold wp chargeFuel
  rcases s.fuel with _ | _ | k <;> exact ⟨rfl, rfl, fun _ h => .inl h⟩

theorem carries_fetch {n : ℕ} (code : List UInt8) (fi : ℕ) :
    Carries n [] (fetch code fi : M W Op) fun _ => [] :=
  ((carries_frameAt fi).forget (by simp)).bind fun f => (carries_orThrow_keep _ _).bind fun b =>
    (carries_setIp fi _).bind fun _ => carries_orThrow_keep _ _

/-- **Every iteration keeps everything safe**, and does not leave the heap or the builtin table. -/
theorem carries_stackStep (hhost : HostOk host) (p : CompiledProgram) :
    Carries host.nBuiltins [] (stackStep host p) fun _ => [] :=
  Carries.bind (carries_modify fun _ => ⟨rfl, rfl, fun _ h => .inl h⟩) fun _ =>
    carries_currentFrameIndex.bind fun fi => ((carries_frameAt fi).forget (by simp)).bind fun f =>
      (carries_chunkForChecked p f.protoIdx).bind fun chunk => carries_chargeFuel.bind fun _ =>
        (carries_fetch chunk.code fi).bind fun op => carries_exec hhost chunk fi f.protoIdx op

end Step

end Hiko
