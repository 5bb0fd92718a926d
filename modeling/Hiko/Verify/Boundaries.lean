import Mathlib.Tactic
import Hiko.Verify.StackEffects

/-!
# What a decoded chunk says about its bytes

An instruction of a decoded chunk can be decoded again at its offset, and the offset after it is
the next instruction or the end of the code. The operand readers are inverted here once, so that
the dispatch loop's reads can be compared with the decoder's.

## Main definitions

* `Boundary c ip`: an instruction of the chunk starts at `ip`, or the code ends there
* `Verified p`: the program passed the verifier
* `depthsOf p i`: the depths recorded for the code a frame runs

## Main results

* `Verified.decodeAt`: the instruction at a boundary
* `Verified.successor`, `Verified.next`: its targets and the offset after it are boundaries
* `Verified.entry`, `Verified.depth_succ`: the recorded depths are a solution
-/

namespace Hiko

theorem Except.bind_eq_ok {ε α β : Type} {x : Except ε α} {f : α → Except ε β} {b : β} :
    (x >>= f) = .ok b ↔ ∃ a, x = .ok a ∧ f a = .ok b := by
  cases x with
  | error e => simp [bind, Except.bind]
  | ok a => simp [bind, Except.bind]

theorem Except.ite_error_eq_ok {ε α : Type} {P : Prop} [Decidable P] {e : ε} {x : Except ε α}
    {b : α} : (if P then .error e else x) = .ok b ↔ ¬ P ∧ x = .ok b := by
  by_cases h : P <;> simp [h]

section Readers

variable {c : DecodeCtx} {start ip : ℕ}

@[simp] theorem decodeU8_ok {what : String} {r : ℕ × ℕ} :
    decodeU8 c start what ip = .ok r ↔ ∃ n, readU8 c.code ip = some n ∧ r = (n, ip + 1) := by
  unfold decodeU8
  cases readU8 c.code ip with
  | none => simp
  | some n => simp [eq_comm]

@[simp] theorem decodeU16_ok {what : String} {r : ℕ × ℕ} :
    decodeU16 c start what ip = .ok r ↔ ∃ n, readU16 c.code ip = some n ∧ r = (n, ip + 2) := by
  unfold decodeU16
  cases readU16 c.code ip with
  | none => simp
  | some n => simp [eq_comm]

@[simp] theorem decodeTarget_ok {base : ℕ} {offset : ℤ} {what : String} {t : ℕ} :
    decodeTarget c start base offset what = .ok t ↔
      0 ≤ (base : ℤ) + offset ∧ t ≤ c.code.length ∧ t = ((base : ℤ) + offset).toNat := by
  unfold decodeTarget
  rw [Except.ite_error_eq_ok, not_or]
  simp only [Except.ok.injEq, not_lt]
  constructor
  · rintro ⟨⟨h1, h2⟩, rfl⟩
    exact ⟨h1, h2, rfl⟩
  · rintro ⟨h1, h2, rfl⟩
    exact ⟨⟨h1, h2⟩, rfl⟩

@[simp] theorem decodeJump_ok {what : String} {r : ℕ × ℕ} :
    decodeJump c start what ip = .ok r ↔
      ∃ n, readU16 c.code ip = some n ∧ 0 ≤ ((ip + 2 : ℕ) : ℤ) + asI16 n ∧
        r.1 ≤ c.code.length ∧ r = ((((ip + 2 : ℕ) : ℤ) + asI16 n).toNat, ip + 2) := by
  obtain ⟨t, j⟩ := r
  simp only [decodeJump, Except.bind_eq_ok, decodeU16_ok, decodeTarget_ok]
  constructor
  · rintro ⟨_, ⟨n, hn, rfl⟩, t', ⟨h1, h2, rfl⟩, heq⟩
    obtain ⟨rfl, rfl⟩ : _ = t ∧ _ = j := by simpa using heq
    exact ⟨n, hn, h1, h2, rfl⟩
  · rintro ⟨n, hn, h1, h2, heq⟩
    obtain ⟨rfl, rfl⟩ : t = _ ∧ j = _ := by simpa using heq
    exact ⟨_, ⟨n, hn, rfl⟩, _, ⟨h1, h2, rfl⟩, rfl⟩

@[simp] theorem checkLocalSlot_ok {what : String} {slot : ℕ} {u : Unit} :
    checkLocalSlot c start what slot = .ok u ↔ slot < c.nLocals := by
  unfold checkLocalSlot
  rw [Except.ite_error_eq_ok]
  simp

@[simp] theorem validateEffectTag_ok {tag : ℕ} {context : String} {u : Unit} :
    validateEffectTag c tag context = .ok u ↔ tag ∈ c.effectTags := by
  unfold validateEffectTag
  by_cases h : tag ∈ c.effectTags <;> simp [h]

theorem readU8_lt {code : List UInt8} {n : ℕ} (h : readU8 code ip = some n) :
    ip + 1 ≤ code.length := by
  unfold readU8 at h
  obtain ⟨b, hb, -⟩ := Option.map_eq_some_iff.mp h
  exact (List.getElem?_eq_some_iff.mp hb).1

theorem readU16_lt {code : List UInt8} {n : ℕ} (h : readU16 code ip = some n) :
    ip + 2 ≤ code.length := by
  unfold readU16 at h
  split at h
  · next hi => exact (List.getElem?_eq_some_iff.mp hi).1
  · cases h

end Readers

section Instructions

variable {c : DecodeCtx} {start ip : ℕ} {r : DecodedInst × ℕ}

theorem decodeLocal_ok {op : Op} {what shown : String} {extra : ℕ} {delta : ℤ}
    (h : decodeLocal c start op what shown extra delta ip = .ok r) :
    ∃ slot, readU16 c.code ip = some slot ∧
      r = straight start op (slot + extra) delta (ip + 2) := by
  simp only [decodeLocal, Except.bind_eq_ok, decodeU16_ok, checkLocalSlot_ok] at h
  obtain ⟨_, ⟨slot, hslot, rfl⟩, _, -, h⟩ := h
  exact ⟨slot, hslot, (Except.ok.inj h).symm⟩

theorem decodeFixedLocal_ok {op : Op} {what : String} {slot extra : ℕ} {delta : ℤ}
    (h : decodeFixedLocal c start op what slot extra delta ip = .ok r) :
    r = straight start op (slot + extra) delta ip := by
  simp only [decodeFixedLocal, Except.bind_eq_ok, checkLocalSlot_ok] at h
  obtain ⟨_, -, h⟩ := h
  exact (Except.ok.inj h).symm

theorem decodeGlobal_ok {op : Op} {minDepth : ℕ} {delta : ℤ}
    (h : decodeGlobal c start op minDepth delta ip = .ok r) :
    ∃ slot, readU16 c.code ip = some slot ∧ slot < c.nGlobals ∧
      r = straight start op minDepth delta (ip + 2) := by
  simp only [decodeGlobal, Except.bind_eq_ok, decodeU16_ok] at h
  obtain ⟨_, ⟨slot, hslot, rfl⟩, h⟩ := h
  rw [Except.ite_error_eq_ok] at h
  exact ⟨slot, hslot, by omega, (Except.ok.inj h.2).symm⟩

theorem decodeConst_ok (h : decodeConst c start ip = .ok r) :
    ∃ idx, readU16 c.code ip = some idx ∧ r = straight start .const 0 1 (ip + 2) := by
  simp only [decodeConst, Except.bind_eq_ok, decodeU16_ok] at h
  obtain ⟨_, ⟨idx, hidx, rfl⟩, h⟩ := h
  rw [Except.ite_error_eq_ok] at h
  exact ⟨idx, hidx, (Except.ok.inj h.2).symm⟩

theorem decodeGetUpvalue_ok (h : decodeGetUpvalue c start ip = .ok r) :
    ∃ idx, readU16 c.code ip = some idx ∧ r = straight start .getUpvalue 0 1 (ip + 2) := by
  simp only [decodeGetUpvalue, Except.bind_eq_ok, decodeU16_ok] at h
  obtain ⟨_, ⟨idx, hidx, rfl⟩, h⟩ := h
  rw [Except.ite_error_eq_ok] at h
  exact ⟨idx, hidx, (Except.ok.inj h.2).symm⟩

theorem decodePanic_ok (h : decodePanic c start ip = .ok r) :
    ∃ idx, readU16 c.code ip = some idx ∧
      r = (⟨start, .panic, .terminal 0, [ip + 2], none, [], []⟩, ip + 2) := by
  simp only [decodePanic, Except.bind_eq_ok, decodeU16_ok] at h
  obtain ⟨_, ⟨idx, hidx, rfl⟩, h⟩ := h
  dsimp only at h
  split at h
  · exact ⟨idx, hidx, (Except.ok.inj h).symm⟩
  · cases h
  · cases h

theorem decodeArity_ok {op : Op} {what : String} (h : decodeArity c start op what ip = .ok r) :
    ∃ arity, readU8 c.code ip = some arity ∧
      r = straight start op arity (1 - (arity : ℤ)) (ip + 1) := by
  simp only [decodeArity, Except.bind_eq_ok, decodeU8_ok] at h
  obtain ⟨_, ⟨arity, harity, rfl⟩, h⟩ := h
  exact ⟨arity, harity, (Except.ok.inj h).symm⟩

/-- The bytes of a jump: its offset, and its target in the code. -/
def JumpBytes (c : DecodeCtx) (ip : ℕ) (offset : ℤ) (target : ℕ) : Prop :=
  readI16 c.code ip = some offset ∧ 0 ≤ ((ip + 2 : ℕ) : ℤ) + offset ∧
    target = (((ip + 2 : ℕ) : ℤ) + offset).toNat

theorem decodeJump_bytes {what : String} {e : ℕ × ℕ} (h : decodeJump c start what ip = .ok e) :
    ∃ offset target, JumpBytes c ip offset target ∧ e = (target, ip + 2) := by
  rw [decodeJump_ok] at h
  obtain ⟨n, hn, h0, -, rfl⟩ := h
  exact ⟨asI16 n, _, ⟨by simp [readI16, hn], h0, rfl⟩, rfl⟩

theorem decodeJumpInst_ok (h : decodeJumpInst c start ip = .ok r) :
    ∃ offset target, JumpBytes c ip offset target ∧
      r = (⟨start, .jump, .exact 0 0, [target], some target, [], []⟩, ip + 2) := by
  simp only [decodeJumpInst, Except.bind_eq_ok] at h
  obtain ⟨_, hj, h⟩ := h
  obtain ⟨offset, target, hb, rfl⟩ := decodeJump_bytes hj
  exact ⟨offset, target, hb, (Except.ok.inj h).symm⟩

theorem decodeBranch_ok {op : Op} {what : String} {minDepth : ℕ}
    (h : decodeBranch c start op what minDepth ip = .ok r) :
    ∃ offset target, JumpBytes c ip offset target ∧
      r = branch start op minDepth (-(minDepth : ℤ)) target (ip + 2) := by
  simp only [decodeBranch, Except.bind_eq_ok] at h
  obtain ⟨_, hj, h⟩ := h
  obtain ⟨offset, target, hb, rfl⟩ := decodeJump_bytes hj
  exact ⟨offset, target, hb, (Except.ok.inj h).symm⟩

theorem decodeJumpIfNotTag_ok (h : decodeJumpIfNotTag c start ip = .ok r) :
    ∃ tag offset target, readU16 c.code ip = some tag ∧ JumpBytes c (ip + 2) offset target ∧
      r = branch start .jumpIfNotTag 1 (-1) target (ip + 4) := by
  simp only [decodeJumpIfNotTag, Except.bind_eq_ok, decodeU16_ok] at h
  obtain ⟨_, ⟨tag, htag, rfl⟩, _, hj, h⟩ := h
  obtain ⟨offset, target, hb, rfl⟩ := decodeJump_bytes hj
  exact ⟨tag, offset, target, htag, hb, (Except.ok.inj h).symm⟩

theorem decodeJumpIfLocalNotTag_ok (h : decodeJumpIfLocalNotTag c start ip = .ok r) :
    ∃ slot tag offset target, readU16 c.code ip = some slot ∧
      readU16 c.code (ip + 2) = some tag ∧ JumpBytes c (ip + 4) offset target ∧
      r = branch start .jumpIfLocalNotTag (slot + 1) 0 target (ip + 6) := by
  simp only [decodeJumpIfLocalNotTag, Except.bind_eq_ok, decodeU16_ok, checkLocalSlot_ok] at h
  obtain ⟨_, ⟨slot, hslot, rfl⟩, _, -, _, ⟨tag, htag, rfl⟩, _, hj, h⟩ := h
  obtain ⟨offset, target, hb, rfl⟩ := decodeJump_bytes hj
  exact ⟨slot, tag, offset, target, hslot, htag, hb, (Except.ok.inj h).symm⟩

theorem decodeMakeClosure_ok (h : decodeMakeClosure c start ip = .ok r) :
    ∃ target nCaptures next, readU16 c.code ip = some target ∧
      readU8 c.code (ip + 2) = some nCaptures ∧
      decodeCaptures c start 0 nCaptures (ip + 3) = .ok next ∧
      r = straight start .makeClosure 0 1 next := by
  simp only [decodeMakeClosure, Except.bind_eq_ok, decodeU16_ok] at h
  obtain ⟨_, ⟨target, htarget, rfl⟩, h⟩ := h
  dsimp only at h
  split at h
  · cases h
  · simp only [Except.bind_eq_ok, decodeU8_ok] at h
    obtain ⟨_, ⟨n, hn, rfl⟩, h⟩ := h
    dsimp only at h
    rw [Except.ite_error_eq_ok, Except.bind_eq_ok] at h
    obtain ⟨-, next, hnext, h⟩ := h
    exact ⟨target, n, next, htarget, hn, hnext, (Except.ok.inj h).symm⟩

theorem decodeMakeRecClosures_ok (h : decodeMakeRecClosures c start ip = .ok r) :
    ∃ n next, readU8 c.code ip = some n ∧
      decodeRecMembers c start n 0 n (ip + 1) = .ok next ∧
      r = straight start .makeRecClosures 0 n next := by
  simp only [decodeMakeRecClosures, Except.bind_eq_ok, decodeU8_ok] at h
  obtain ⟨_, ⟨n, hn, rfl⟩, h⟩ := h
  dsimp only at h
  rw [Except.ite_error_eq_ok, Except.bind_eq_ok] at h
  obtain ⟨-, next, hnext, h⟩ := h
  exact ⟨n, next, hn, hnext, (Except.ok.inj h).symm⟩

theorem decodeCall_ok (h : decodeCall c start ip = .ok r) :
    ∃ arity, readU8 c.code ip = some arity ∧
      r = straight start .call (arity + 1) (-(arity : ℤ)) (ip + 1) := by
  simp only [decodeCall, Except.bind_eq_ok, decodeU8_ok] at h
  obtain ⟨_, ⟨arity, harity, rfl⟩, h⟩ := h
  exact ⟨arity, harity, (Except.ok.inj h).symm⟩

theorem decodeTailCall_ok (h : decodeTailCall c start ip = .ok r) :
    ∃ arity, readU8 c.code ip = some arity ∧
      r = terminal start .tailCall (arity + 1) (ip + 1) := by
  simp only [decodeTailCall, Except.bind_eq_ok, decodeU8_ok] at h
  obtain ⟨_, ⟨arity, harity, rfl⟩, h⟩ := h
  exact ⟨arity, harity, (Except.ok.inj h).symm⟩

theorem decodeSelfCall_ok {op : Op} (h : decodeSelfCall c start op ip = .ok r) :
    ∃ q, c.proto = some q ∧
      r = (if op = .callSelf then straight start op q.arity.toNat (1 - (q.arity.toNat : ℤ)) ip
        else terminal start op q.arity.toNat ip) := by
  unfold decodeSelfCall at h
  split at h
  · cases h
  · next q hq =>
    refine ⟨q, hq, ?_⟩
    split at h
    · next hop => rw [if_pos hop]; exact (Except.ok.inj h).symm
    · next hop => rw [if_neg hop]; exact (Except.ok.inj h).symm

theorem decodeDirectCall_ok {op : Op} (h : decodeDirectCall c start op ip = .ok r) :
    ∃ i q, readU16 c.code ip = some i ∧ c.functions[i]? = some q ∧
      r = (if op = .callDirect then
          straight start op q.arity.toNat (1 - (q.arity.toNat : ℤ)) (ip + 2)
        else terminal start op q.arity.toNat (ip + 2)) := by
  simp only [decodeDirectCall, Except.bind_eq_ok, decodeU16_ok] at h
  obtain ⟨_, ⟨i, hi, rfl⟩, h⟩ := h
  dsimp only at h
  split at h
  · cases h
  · next q hq =>
    refine ⟨i, q, hi, hq, ?_⟩
    split at h
    · next hop => rw [if_pos hop]; exact (Except.ok.inj h).symm
    · next hop => rw [if_neg hop]; exact (Except.ok.inj h).symm

theorem decodeInstallHandler_ok (h : decodeInstallHandler c start ip = .ok r) :
    ∃ n targets slots next, readU16 c.code ip = some n ∧
      decodeClauses c start n (ip + 2) = .ok (targets, slots, next) ∧
      r = (⟨start, .installHandler, .exact 0 0, [next], none, targets, slots⟩, next) := by
  simp only [decodeInstallHandler, Except.bind_eq_ok, decodeU16_ok] at h
  obtain ⟨_, ⟨n, hn, rfl⟩, ⟨targets, slots, next⟩, hcl, h⟩ := h
  exact ⟨n, targets, slots, next, hn, hcl, (Except.ok.inj h).symm⟩

theorem decodePerform_ok (h : decodePerform c start ip = .ok r) :
    ∃ tag, readU16 c.code ip = some tag ∧ r = straight start .perform 1 0 (ip + 2) := by
  simp only [decodePerform, Except.bind_eq_ok, decodeU16_ok, validateEffectTag_ok] at h
  obtain ⟨_, ⟨tag, htag, rfl⟩, _, -, h⟩ := h
  exact ⟨tag, htag, (Except.ok.inj h).symm⟩

/-! ### Loops -/

theorem decodeCaptures_succ {k n next : ℕ} (h : decodeCaptures c start k (n + 1) ip = .ok next) :
    ∃ isLocal index, readU8 c.code ip = some isLocal ∧ readU16 c.code (ip + 1) = some index ∧
      decodeCaptures c start (k + 1) n (ip + 3) = .ok next := by
  simp only [decodeCaptures, Except.bind_eq_ok, decodeU8_ok, decodeU16_ok] at h
  obtain ⟨_, ⟨isLocal, hl, rfl⟩, _, ⟨index, hi, rfl⟩, h⟩ := h
  refine ⟨isLocal, index, hl, hi, ?_⟩
  split at h
  · exact (Except.ite_error_eq_ok.mp h).2
  · exact (Except.ite_error_eq_ok.mp h).2

theorem decodeRecCaptures_succ {m member k n next : ℕ}
    (h : decodeRecCaptures c start m member k (n + 1) ip = .ok next) :
    ∃ source index, readU8 c.code ip = some source ∧ readU16 c.code (ip + 1) = some index ∧
      (source = recCaptureGroup → index < m) ∧
      decodeRecCaptures c start m member (k + 1) n (ip + 3) = .ok next := by
  simp only [decodeRecCaptures, Except.bind_eq_ok, decodeU8_ok, decodeU16_ok] at h
  obtain ⟨_, ⟨source, hl, rfl⟩, _, ⟨index, hi, rfl⟩, h⟩ := h
  dsimp only at h
  split at h
  · cases h
  · next what limit hlim =>
    rw [Except.ite_error_eq_ok] at h
    refine ⟨source, index, hl, hi, fun hs => ?_, h.2⟩
    subst hs
    obtain ⟨-, rfl⟩ : "group member" = what ∧ m = limit := by
      simpa [recCaptureLimit, recCaptureGroup, recCaptureUpvalue, recCaptureLocal] using hlim
    omega

theorem decodeRecMembers_succ {m member n next : ℕ}
    (h : decodeRecMembers c start m member (n + 1) ip = .ok next) :
    ∃ target nCaptures mid, readU16 c.code ip = some target ∧
      readU8 c.code (ip + 2) = some nCaptures ∧
      decodeRecCaptures c start m member 0 nCaptures (ip + 3) = .ok mid ∧
      decodeRecMembers c start m (member + 1) n mid = .ok next := by
  simp only [decodeRecMembers, Except.bind_eq_ok, decodeU16_ok] at h
  obtain ⟨_, ⟨target, ht, rfl⟩, h⟩ := h
  dsimp only at h
  split at h
  · cases h
  · simp only [Except.bind_eq_ok, decodeU8_ok] at h
    obtain ⟨_, ⟨n, hn, rfl⟩, h⟩ := h
    dsimp only at h
    rw [Except.ite_error_eq_ok, Except.bind_eq_ok] at h
    obtain ⟨-, mid, hmid, h⟩ := h
    exact ⟨target, n, mid, ht, hn, hmid, h⟩

theorem decodeClauses_succ {n next : ℕ} {targets slots : List ℕ}
    (h : decodeClauses c start (n + 1) ip = .ok (targets, slots, next)) :
    ∃ tag flags, readU16 c.code ip = some tag ∧ readU8 c.code (ip + 2) = some flags ∧
      ((flags = handlerClauseProvider ∧ ∃ slot slots', readU16 c.code (ip + 3) = some slot ∧
          slots = slot :: slots' ∧
          decodeClauses c start n (ip + 5) = .ok (targets, slots', next)) ∨
        (flags = 0 ∧ ∃ offset target targets', JumpBytes c (ip + 3) offset target ∧
          targets = target :: targets' ∧
          decodeClauses c start n (ip + 5) = .ok (targets', slots, next))) := by
  simp only [decodeClauses, Except.bind_eq_ok, decodeU8_ok, decodeU16_ok,
    validateEffectTag_ok] at h
  obtain ⟨_, ⟨tag, htag, rfl⟩, _, -, _, ⟨flags, hflags, rfl⟩, h⟩ := h
  refine ⟨tag, flags, htag, hflags, ?_⟩
  dsimp only at h
  split at h
  · next hf =>
    simp only [Except.bind_eq_ok, decodeU16_ok] at h
    obtain ⟨_, ⟨slot, hslot, rfl⟩, ⟨ts, ss, nx⟩, hrest, h⟩ := h
    obtain ⟨rfl, rfl, rfl⟩ : ts = targets ∧ slot :: ss = slots ∧ nx = next := by simpa using h
    exact .inl ⟨hf, slot, ss, hslot, rfl, hrest⟩
  · split at h
    · next hf =>
      simp only [Except.bind_eq_ok] at h
      obtain ⟨_, hj, ⟨ts, ss, nx⟩, hrest, h⟩ := h
      obtain ⟨offset, target, hb, rfl⟩ := decodeJump_bytes hj
      obtain ⟨rfl, rfl, rfl⟩ : target :: ts = targets ∧ ss = slots ∧ nx = next := by simpa using h
      exact .inr ⟨hf, offset, target, ts, hb, rfl, hrest⟩
    · cases h

/-- The offsets of a loop grow and stay in the code. -/
def Advances (c : DecodeCtx) (ip next : ℕ) : Prop :=
  ip ≤ next ∧ (ip ≤ c.code.length → next ≤ c.code.length)

theorem Advances.refl : Advances c ip ip := ⟨le_refl _, id⟩

theorem Advances.of_read {mid next : ℕ} (h : Advances c mid next) (hle : ip ≤ mid)
    (hmid : mid ≤ c.code.length) : Advances c ip next :=
  ⟨hle.trans h.1, fun _ => h.2 hmid⟩

theorem Advances.add {k : ℕ} (h : ip + k ≤ c.code.length) : Advances c ip (ip + k) :=
  ⟨Nat.le_add_right _ _, fun _ => h⟩

theorem decodeCaptures_advances {k n next : ℕ} (h : decodeCaptures c start k n ip = .ok next) :
    Advances c ip next := by
  induction n generalizing k ip with
  | zero => exact (Except.ok.inj h) ▸ .refl
  | succ n ih =>
    obtain ⟨_, _, -, hi, h⟩ := decodeCaptures_succ h
    exact (ih h).of_read (by omega) (readU16_lt hi)

theorem decodeRecCaptures_advances {m member k n next : ℕ}
    (h : decodeRecCaptures c start m member k n ip = .ok next) : Advances c ip next := by
  induction n generalizing k ip with
  | zero => exact (Except.ok.inj h) ▸ .refl
  | succ n ih =>
    obtain ⟨_, _, -, hi, -, h⟩ := decodeRecCaptures_succ h
    exact (ih h).of_read (by omega) (readU16_lt hi)

theorem decodeRecMembers_advances {m member n next : ℕ}
    (h : decodeRecMembers c start m member n ip = .ok next) : Advances c ip next := by
  induction n generalizing member ip with
  | zero => exact (Except.ok.inj h) ▸ .refl
  | succ n ih =>
    obtain ⟨_, _, mid, -, hn, hmid, h⟩ := decodeRecMembers_succ h
    have hadv := decodeRecCaptures_advances hmid
    exact (ih h).of_read (by have := hadv.1; omega) (hadv.2 (readU8_lt hn))

theorem decodeClauses_advances {n next : ℕ} {targets slots : List ℕ}
    (h : decodeClauses c start n ip = .ok (targets, slots, next)) : Advances c ip next := by
  induction n generalizing ip targets slots with
  | zero =>
    obtain ⟨-, -, rfl⟩ : [] = targets ∧ [] = slots ∧ ip = next := by
      simpa [decodeClauses] using h
    exact .refl
  | succ n ih =>
    obtain ⟨_, _, -, -, h | h⟩ := decodeClauses_succ h
    · obtain ⟨-, _, _, hr, -, h⟩ := h
      exact (ih h).of_read (by omega) (readU16_lt hr)
    · obtain ⟨-, _, _, _, hb, -, h⟩ := h
      obtain ⟨n, hn, -⟩ := Option.map_eq_some_iff.mp hb.1
      exact (ih h).of_read (by omega) (readU16_lt hn)

theorem JumpBytes.lt {offset : ℤ} {target : ℕ} (h : JumpBytes c ip offset target) :
    ip + 2 ≤ c.code.length := by
  obtain ⟨n, hn, -⟩ := Option.map_eq_some_iff.mp h.1
  exact readU16_lt hn

/-- **What decoding an instruction says**: its offset and opcode, and the offset after it. -/
theorem decodeInstruction_spec {op : Op} (h : decodeInstruction c start op ip = .ok r) :
    r.1.start = start ∧ r.1.op = op ∧ Advances c ip r.2 := by
  cases op <;> simp only [decodeInstruction] at h
  case const =>
    obtain ⟨_, hr, rfl⟩ := decodeConst_ok h
    exact ⟨rfl, rfl, .add (readU16_lt hr)⟩
  case getLocal | setLocal | getLocalField0 | getLocalField1 =>
    obtain ⟨_, hr, rfl⟩ := decodeLocal_ok h
    exact ⟨rfl, rfl, .add (readU16_lt hr)⟩
  case getLocal0 | getLocal1 | getLocal2 | getLocal3 | setLocal0 | setLocal1 | setLocal2
      | setLocal3 =>
    obtain rfl := decodeFixedLocal_ok h
    exact ⟨rfl, rfl, .refl⟩
  case getUpvalue =>
    obtain ⟨_, hr, rfl⟩ := decodeGetUpvalue_ok h
    exact ⟨rfl, rfl, .add (readU16_lt hr)⟩
  case getGlobal | setGlobal =>
    obtain ⟨_, hr, -, rfl⟩ := decodeGlobal_ok h
    exact ⟨rfl, rfl, .add (readU16_lt hr)⟩
  case panic =>
    obtain ⟨_, hr, rfl⟩ := decodePanic_ok h
    exact ⟨rfl, rfl, .add (readU16_lt hr)⟩
  case getField =>
    simp only [Except.bind_eq_ok, decodeU8_ok] at h
    obtain ⟨_, ⟨_, hr, rfl⟩, h⟩ := h
    obtain rfl := Except.ok.inj h
    exact ⟨rfl, rfl, .add (readU8_lt hr)⟩
  case makeTuple =>
    obtain ⟨_, hr, rfl⟩ := decodeArity_ok h
    exact ⟨rfl, rfl, .add (readU8_lt hr)⟩
  case makeData =>
    simp only [Except.bind_eq_ok, decodeU16_ok] at h
    obtain ⟨_, ⟨_, -, rfl⟩, h⟩ := h
    obtain ⟨_, hr, rfl⟩ := decodeArity_ok h
    have hlt := readU8_lt hr
    exact ⟨rfl, rfl, (Advances.add hlt).of_read (Nat.le_add_right _ _) (by omega)⟩
  case jump =>
    obtain ⟨_, _, hb, rfl⟩ := decodeJumpInst_ok h
    exact ⟨rfl, rfl, Advances.refl.of_read (Nat.le_add_right _ _) hb.lt⟩
  case jumpIfNotTag =>
    obtain ⟨_, _, _, -, hb, rfl⟩ := decodeJumpIfNotTag_ok h
    exact ⟨rfl, rfl, Advances.refl.of_read (Nat.le_add_right _ _) hb.lt⟩
  case jumpIfLocalNotTag =>
    obtain ⟨_, _, _, _, -, -, hb, rfl⟩ := decodeJumpIfLocalNotTag_ok h
    exact ⟨rfl, rfl, Advances.refl.of_read (Nat.le_add_right _ _) hb.lt⟩
  case jumpIfNotEq | jumpIfEq | jumpIfNotLtInt | jumpIfNotGtInt | jumpIfNotLeInt
      | jumpIfNotGeInt | jumpIfFalse =>
    obtain ⟨_, _, hb, rfl⟩ := decodeBranch_ok h
    exact ⟨rfl, rfl, Advances.refl.of_read (Nat.le_add_right _ _) hb.lt⟩
  case makeClosure =>
    obtain ⟨_, _, _, -, hr, hn, rfl⟩ := decodeMakeClosure_ok h
    exact ⟨rfl, rfl, (decodeCaptures_advances hn).of_read (by omega) (readU8_lt hr)⟩
  case makeRecClosures =>
    obtain ⟨_, _, hr, hn, rfl⟩ := decodeMakeRecClosures_ok h
    exact ⟨rfl, rfl, (decodeRecMembers_advances hn).of_read (by omega) (readU8_lt hr)⟩
  case call =>
    obtain ⟨_, hr, rfl⟩ := decodeCall_ok h
    exact ⟨rfl, rfl, .add (readU8_lt hr)⟩
  case tailCall =>
    obtain ⟨_, hr, rfl⟩ := decodeTailCall_ok h
    exact ⟨rfl, rfl, .add (readU8_lt hr)⟩
  case callSelf | tailCallSelf =>
    obtain ⟨_, -, rfl⟩ := decodeSelfCall_ok h
    exact ⟨rfl, rfl, .refl⟩
  case callDirect | tailCallDirect =>
    obtain ⟨_, _, hr, -, rfl⟩ := decodeDirectCall_ok h
    exact ⟨rfl, rfl, .add (readU16_lt hr)⟩
  case installHandler =>
    obtain ⟨_, _, _, _, hr, hc, rfl⟩ := decodeInstallHandler_ok h
    exact ⟨rfl, rfl, (decodeClauses_advances hc).of_read (by omega) (readU16_lt hr)⟩
  case perform =>
    obtain ⟨_, hr, rfl⟩ := decodePerform_ok h
    exact ⟨rfl, rfl, .add (readU16_lt hr)⟩
  -- the instructions without operands
  all_goals
    obtain rfl := Except.ok.inj h
    exact ⟨rfl, rfl, .refl⟩

end Instructions

/-! ## Boundaries -/

/-- An instruction of the chunk starts at `ip`. -/
def InstStart (decoded : List DecodedInst) (ip : ℕ) : Prop := ip ∈ decoded.map (·.start)

/-- An instruction starts at `ip`, or the code ends there. -/
def Boundary (c : DecodeCtx) (decoded : List DecodedInst) (ip : ℕ) : Prop :=
  InstStart decoded ip ∨ ip = c.code.length

section Chunk

variable {c : DecodeCtx}

theorem decodeAt_ok {ip : ℕ} {r : DecodedInst × ℕ} (h : decodeAt c ip = .ok r) :
    ∃ b op, c.code[ip]? = some b ∧ Op.ofByte b = some op ∧
      decodeInstruction c ip op (ip + 1) = .ok r := by
  unfold decodeAt at h
  split at h
  · cases h
  · next b hb =>
    split at h
    · cases h
    · next op hop => exact ⟨b, op, hb, hop, h⟩

theorem decodeAt_spec {ip : ℕ} {r : DecodedInst × ℕ} (h : decodeAt c ip = .ok r) :
    r.1.start = ip ∧ ip < r.2 ∧ r.2 ≤ c.code.length := by
  obtain ⟨b, op, hb, -, hi⟩ := decodeAt_ok h
  obtain ⟨hs, -, hle, hlen⟩ := decodeInstruction_spec hi
  have := (List.getElem?_eq_some_iff.mp hb).1
  exact ⟨hs, by omega, hlen (by omega)⟩

/-- The instructions from an offset on: the first is there, each decodes at its own offset, and
the offset after it is the next instruction or the end of the code. -/
theorem decodeFrom_spec {fuel ip : ℕ} {ds : List DecodedInst}
    (h : decodeFrom c fuel ip = .ok ds) (hf : c.code.length - ip ≤ fuel)
    (hip : ip ≤ c.code.length) :
    Boundary c ds ip ∧ (∀ d ds', ds = d :: ds' → d.start = ip) ∧
      ∀ d ∈ ds, ∃ next, decodeAt c d.start = .ok (d, next) ∧ Boundary c ds next := by
  induction fuel generalizing ip ds with
  | zero =>
    obtain rfl : [] = ds := by simpa [decodeFrom] using h
    exact ⟨.inr (by omega), by simp, by simp⟩
  | succ fuel ih =>
    unfold decodeFrom at h
    split at h
    · next hlt =>
      simp only [Except.bind_eq_ok] at h
      obtain ⟨⟨inst, next⟩, hinst, rest, hrest, h⟩ := h
      obtain rfl := Except.ok.inj h
      obtain ⟨hstart, hnext, hlen⟩ := decodeAt_spec hinst
      dsimp only at hstart hnext hlen hrest
      obtain ⟨hb, -, hall⟩ := ih hrest (by omega) hlen
      have hmono : ∀ i, Boundary c rest i → Boundary c (inst :: rest) i := by
        rintro i (hi | hi)
        · exact .inl (List.mem_cons_of_mem _ hi)
        · exact .inr hi
      refine ⟨.inl (by simp [InstStart, hstart]), ?_, ?_⟩
      · rintro d ds' heq
        rw [← (List.cons.inj heq).1, hstart]
      · rintro d hd
        rcases List.mem_cons.mp hd with rfl | hd
        · exact ⟨next, by rw [hstart]; exact hinst, hmono _ hb⟩
        · obtain ⟨nx, hnx, hbx⟩ := hall d hd
          exact ⟨nx, hnx, hmono _ hbx⟩
    · obtain rfl : [] = ds := by simpa using h
      exact ⟨.inr (by omega), by simp, by simp⟩

theorem checkTargets_ok {ds : List DecodedInst} {u : Unit} (h : checkTargets ds = .ok u) :
    ∀ d ∈ ds, ∀ t ∈ d.successors ++ d.handlerClauseTargets, InstStart ds t := by
  unfold checkTargets at h
  split at h
  · cases h
  · next hn =>
    intro d hd t ht
    have := List.find?_eq_none.mp hn t (List.mem_flatMap.mpr ⟨d, hd, ht⟩)
    simpa [InstStart] using this

/-- **What a decoded chunk says**: where it starts, and where each instruction leads. -/
theorem decodeChunk_spec {ds : List DecodedInst} (h : decodeChunk c = .ok ds) :
    Boundary c ds 0 ∧ (∀ d ds', ds = d :: ds' → d.start = 0) ∧
      (∀ d ∈ ds, ∃ next, decodeAt c d.start = .ok (d, next) ∧ Boundary c ds next) ∧
      ∀ d ∈ ds, ∀ t ∈ d.successors ++ d.handlerClauseTargets, InstStart ds t := by
  simp only [decodeChunk, Except.bind_eq_ok] at h
  obtain ⟨ds', hds, _, ht, h⟩ := h
  obtain rfl := Except.ok.inj h
  obtain ⟨hb, hfirst, hall⟩ := decodeFrom_spec hds (by omega) (by omega)
  exact ⟨hb, hfirst, hall, checkTargets_ok ht⟩

end Chunk

/-! ## Verified programs -/

/-- The program passed `verify_program`. -/
def Verified (p : CompiledProgram) : Prop := verifyProgram p = .ok ()

instance (p : CompiledProgram) : Decidable (Verified p) :=
  match h : verifyProgram p with
  | .ok () => .isTrue h
  | .error e => .isFalse (by simp [Verified, h])

/-- The depths `verify_stack_effects` recorded for the code a frame runs. -/
def depthsOf (p : CompiledProgram) (i : ProtoIdx) : DepthMap :=
  match p.ctxOf i with
  | none => fun _ => none
  | some c =>
    match verifyChunk c with
    | .ok depths => depths
    | .error _ => fun _ => none

/-- The instructions of the code a frame runs. -/
def decodedOf (p : CompiledProgram) (i : ProtoIdx) : List DecodedInst :=
  match p.ctxOf i with
  | none => []
  | some c =>
    match decodeChunk c with
    | .ok decoded => decoded
    | .error _ => []

theorem verifyFunctions_ok {p : CompiledProgram} {k : ℕ} {qs : List FunctionProto}
    (h : verifyFunctions p k qs = .ok ()) : ∀ q ∈ qs, ∃ depths, verifyChunk (p.fnCtx q) = .ok depths := by
  induction qs generalizing k with
  | nil => simp
  | cons q qs ih =>
    unfold verifyFunctions at h
    split at h
    · cases h
    · next depths hd =>
      intro q' hq'
      rcases List.mem_cons.mp hq' with rfl | hq'
      · exact ⟨depths, hd⟩
      · exact ih h q' hq'

namespace Verified

variable {p : CompiledProgram} {i : ProtoIdx} {c : DecodeCtx}

theorem verifyChunk_ok (hp : Verified p) (hc : p.ctxOf i = some c) :
    ∃ depths, verifyChunk c = .ok depths := by
  unfold Verified verifyProgram at hp
  split at hp
  · cases hp
  · next depths hd =>
    cases i with
    | main =>
      obtain rfl : p.mainCtx = c := by simpa [CompiledProgram.ctxOf] using hc
      exact ⟨depths, hd⟩
    | fn i =>
      simp only [CompiledProgram.ctxOf, Option.map_eq_some_iff] at hc
      obtain ⟨q, hq, rfl⟩ := hc
      exact verifyFunctions_ok hp q (List.mem_of_getElem? hq)

/-- A verified chunk, with its instructions and depths. -/
theorem chunk (hp : Verified p) (hc : p.ctxOf i = some c) :
    decodeChunk c = .ok (decodedOf p i) ∧
      verifyStackEffects (decodedOf p i) c.initialDepth = .ok (depthsOf p i) := by
  obtain ⟨depths, hd⟩ := hp.verifyChunk_ok hc
  simp only [decodedOf, depthsOf, hc, hd]
  unfold verifyChunk at hd
  split at hd
  · cases hd
  · next decoded hdec => exact ⟨by rw [hdec], by rw [hdec]; exact hd⟩

/-- The instruction at an instruction start. -/
theorem decodeAt (hp : Verified p) (hc : p.ctxOf i = some c) {ip : ℕ}
    (h : InstStart (decodedOf p i) ip) :
    ∃ inst ∈ decodedOf p i, ∃ next, Hiko.decodeAt c ip = .ok (inst, next) ∧
      Boundary c (decodedOf p i) next := by
  obtain ⟨inst, hinst, rfl⟩ := List.mem_map.mp h
  obtain ⟨-, -, hall, -⟩ := decodeChunk_spec (hp.chunk hc).1
  obtain ⟨next, hnext, hb⟩ := hall inst hinst
  exact ⟨inst, hinst, next, hnext, hb⟩

/-- The start of a chunk is a boundary. -/
theorem boundary_zero (hp : Verified p) (hc : p.ctxOf i = some c) :
    Boundary c (decodedOf p i) 0 :=
  (decodeChunk_spec (hp.chunk hc).1).1

/-- The targets of an instruction are instructions. -/
theorem target (hp : Verified p) (hc : p.ctxOf i = some c) {inst : DecodedInst}
    (h : inst ∈ decodedOf p i) {t : ℕ} (ht : t ∈ inst.successors ++ inst.handlerClauseTargets) :
    InstStart (decodedOf p i) t :=
  (decodeChunk_spec (hp.chunk hc).1).2.2.2 inst h t ht

/-- **A chunk that is not empty is entered at a recorded instruction**, with at least its
depth. -/
theorem entry (hp : Verified p) (hc : p.ctxOf i = some c) (hne : c.code ≠ []) :
    ∃ d, depthsOf p i 0 = some d ∧ d ≤ c.initialDepth := by
  obtain ⟨hdec, hver⟩ := hp.chunk hc
  obtain ⟨hb, hfirst, -, -⟩ := decodeChunk_spec hdec
  obtain ⟨-, hentry⟩ := verifyStackEffects_settled hver
  cases hd : decodedOf p i with
  | nil =>
    rw [hd] at hb
    rcases hb with hb | hb
    · cases hb
    · exact absurd (List.length_eq_zero_iff.mp hb.symm) hne
  | cons first rest =>
    obtain ⟨d, hdep, hle⟩ := hentry first rest hd
    exact ⟨d, by rw [← hfirst first rest hd]; exact hdep, hle⟩

/-- **A recorded instruction accepts its depth, and its successors are recorded** with at most
the depths they are entered with. -/
theorem settled (hp : Verified p) (hc : p.ctxOf i = some c) {ip d : ℕ}
    (hd : depthsOf p i ip = some d) :
    ∃ inst ∈ decodedOf p i, ∃ next succs, Hiko.decodeAt c ip = .ok (inst, next) ∧
      instSuccessors inst d = .ok succs ∧
      ∀ e ∈ succs, ∃ d', depthsOf p i e.1 = some d' ∧ d' ≤ e.2 := by
  obtain ⟨hdec, hver⟩ := hp.chunk hc
  obtain ⟨hset, -⟩ := verifyStackEffects_settled hver
  obtain ⟨inst, succs, hinst, hsucc, hall⟩ := hset ip d hd
  have hmem := List.mem_of_find?_eq_some hinst
  have hstart : inst.start = ip := by simpa using List.find?_some hinst
  obtain ⟨-, -, hdecs, -⟩ := decodeChunk_spec hdec
  obtain ⟨next, hnext, -⟩ := hdecs inst hmem
  refine ⟨inst, hmem, next, succs, by rw [← hstart]; exact hnext, hsucc, fun e he => ?_⟩
  rcases hall e he with hcov | hnil
  · exact covered_iff.mp hcov
  · cases hnil

end Verified

end Hiko
