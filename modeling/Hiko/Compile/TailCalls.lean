import Mathlib.Tactic
import Hiko.Compile.Codegen

/-!
# Tail calls

A tail call gives up the frame it stands in, so it may stand only where a plain call would be
followed by nothing but the ends of scopes, jumps and the return. `Tails` says that of a code
fragment whose end is the end of its function, and the lemmas of this file say what it means for
the fragments the compiler puts together.

## Main definitions

* `Instr.isTailCall`, `Instr.skips`: the tail calls, and the instructions that do no work
* `Reach`: a position is reached from another without work
* `Tails`, `TailsDone`: every tail call of a fragment, or of a function, has no work after it

## Main results

* `tails_append_work`, `tails_append_exit`: sequences of fragments
* `tailsDone_ret`, `tailsDone_halt`: whole functions
-/

namespace Hiko

/-- `TailCall`, `TailCallDirect` and `TailCallSelf`. -/
def Instr.isTailCall : Instr → Bool
  | .op .tailCallSelf => true
  | .op1 .tailCallDirect _ => true
  | .op1 .tailCall _ => true
  | _ => false

/-- For an instruction that does no work, the number of instructions it skips. The end of a scope
only drops locals from below the value on top. -/
def Instr.skips : Instr → Option ℕ
  | .endScope _ _ => some 0
  | .jump .jump off => some off
  | _ => none

/-- A position is reached from another without work. -/
inductive Reach (code : Code) : ℕ → ℕ → Prop where
  | refl (i : ℕ) : Reach code i i
  | step {i j n : ℕ} {ins : Instr} (hi : code[i]? = some ins) (hn : ins.skips = some n)
      (h : Reach code (i + 1 + n) j) : Reach code i j

/-- Every tail call of a fragment is followed by no work up to the end of the fragment. -/
def Tails (code : Code) : Prop :=
  ∀ i ins, code[i]? = some ins → ins.isTailCall → Reach code (i + 1) code.length

/-- Every tail call of a function is followed by no work up to a return. -/
def TailsDone (code : Code) : Prop :=
  ∀ i ins, code[i]? = some ins → ins.isTailCall →
    ∃ j, Reach code (i + 1) j ∧ code[j]? = some (.op .ret)

/-- A fragment without tail calls. -/
def NoTail (c : Code) : Prop := ∀ ins ∈ c, ins.isTailCall = false

/-- A fragment that is left at its end only. -/
structure Closed (code : Code) : Prop where
  jumps : ∀ i ins n, code[i]? = some ins → ins.skips = some n → i + 1 + n ≤ code.length
  noRet : ∀ ins ∈ code, ins ≠ .op .ret

/-- A fragment that starts with work. -/
def StartsStraight (c : Code) : Prop := ∃ ins rest, c = ins :: rest ∧ ins.skips = none

variable {a b c : Code} {i j : ℕ}

namespace Reach

theorem trans {k : ℕ} (h : Reach c i j) (h' : Reach c j k) : Reach c i k := by
  induction h with
  | refl i => exact h'
  | step hi hn _ ih => exact .step hi hn (ih h')

theorem append_right (h : Reach a i j) : Reach (a ++ b) i j := by
  induction h with
  | refl i => exact .refl i
  | step hi hn _ ih =>
    refine .step ?_ hn ih
    obtain ⟨hlt, -⟩ := List.getElem?_eq_some_iff.1 hi
    rw [List.getElem?_append_left hlt, hi]

theorem append_left (h : Reach b i j) : Reach (a ++ b) (a.length + i) (a.length + j) := by
  induction h with
  | refl i => exact .refl _
  | @step i j n ins hi hn _ ih =>
    refine .step (n := n) ?_ hn ?_
    · rw [List.getElem?_append_right (by omega), Nat.add_sub_cancel_left, hi]
    · rw [show a.length + i + 1 + n = a.length + (i + 1 + n) by omega]
      exact ih

/-- What is reached from a position of the second part is in the second part. -/
theorem of_append_left {k : ℕ} (h : Reach (a ++ b) k j) (hk : k = a.length + i) :
    ∃ l, j = a.length + l ∧ Reach b i l := by
  induction h generalizing i with
  | refl k => exact ⟨i, hk, .refl i⟩
  | @step k j n ins hi hn _ ih =>
    subst hk
    rw [List.getElem?_append_right (by omega), Nat.add_sub_cancel_left] at hi
    obtain ⟨l, hl, hreach⟩ := ih (i := i + 1 + n) (by omega)
    exact ⟨l, hl, .step hi hn hreach⟩

/-- From a closed first part the second is reached through its start. -/
theorem of_append (ha : Closed a) (hi : i ≤ a.length) (h : Reach (a ++ b) i j) :
    (j ≤ a.length ∧ Reach a i j) ∨ (Reach a i a.length ∧ Reach (a ++ b) a.length j) := by
  induction h with
  | refl i => exact Or.inl ⟨hi, .refl i⟩
  | @step i j n ins hget hn hrest ih =>
    by_cases hlt : i < a.length
    case pos =>
      rw [List.getElem?_append_left hlt] at hget
      rcases ih (ha.jumps i ins n hget hn) with ⟨hj, h⟩ | ⟨h, h'⟩
      · exact Or.inl ⟨hj, .step hget hn h⟩
      · exact Or.inr ⟨.step hget hn h, h'⟩
    case neg =>
      obtain rfl : i = a.length := by omega
      exact Or.inr ⟨.refl _, .step hget hn hrest⟩

/-- Nothing is reached past work. -/
theorem eq_of_starts (hb : StartsStraight b) (h : Reach (a ++ b) a.length j) : j = a.length := by
  obtain ⟨ins, rest, rfl, hins⟩ := hb
  cases h with
  | refl => rfl
  | step hi hn _ =>
    simp only [le_refl, List.getElem?_append_right, Nat.sub_self, List.getElem?_cons_zero,
      Option.some.injEq] at hi
    rw [← hi, hins] at hn
    cases hn

end Reach

theorem noTail_append : NoTail (a ++ b) ↔ NoTail a ∧ NoTail b := by
  simp only [NoTail, List.mem_append]
  grind

theorem noTail_nil : NoTail [] := by simp [NoTail]

theorem noTail_cons {ins : Instr} : NoTail (ins :: c) ↔ ins.isTailCall = false ∧ NoTail c := by
  simp [NoTail]

theorem NoTail.tails (h : NoTail c) : Tails c := by
  intro i ins hi hins
  rw [h ins (List.mem_of_getElem? hi)] at hins
  cases hins

/-- The tail calls of a sequence are those of its parts. -/
theorem tails_append_iff :
    Tails (a ++ b) ↔
      (∀ i ins, a[i]? = some ins → ins.isTailCall → Reach (a ++ b) (i + 1) (a ++ b).length) ∧
        Tails b := by
  constructor
  · intro h
    refine ⟨fun i ins hi => h i ins ?_, fun i ins hi hins => ?_⟩
    · obtain ⟨hlt, -⟩ := List.getElem?_eq_some_iff.1 hi
      rw [List.getElem?_append_left hlt, hi]
    · have hget : (a ++ b)[a.length + i]? = some ins := by
        rw [List.getElem?_append_right (by omega), Nat.add_sub_cancel_left, hi]
      obtain ⟨l, hl, hreach⟩ := (h _ ins hget hins).of_append_left (Nat.add_assoc ..)
      rw [List.length_append] at hl
      obtain rfl : b.length = l := by omega
      exact hreach
  · rintro ⟨ha, hb⟩ i ins hi hins
    by_cases hlt : i < a.length
    · rw [List.getElem?_append_left hlt] at hi
      exact ha i ins hi hins
    · rw [List.getElem?_append_right (by omega)] at hi
      have h := (hb _ ins hi hins).append_left (a := a)
      rw [List.length_append]
      convert h using 1
      omega

/-- Code without tail calls before a fragment. -/
theorem tails_append_noTail (ha : NoTail a) : Tails (a ++ b) ↔ Tails b := by
  rw [tails_append_iff]
  refine and_iff_right fun i ins hi hins => ?_
  rw [ha ins (List.mem_of_getElem? hi)] at hins
  cases hins

theorem tails_cons {ins : Instr} (h : ins.isTailCall = false) : Tails (ins :: c) ↔ Tails c :=
  tails_append_noTail (a := [ins]) (by simpa [NoTail] using h)

/-- **A fragment with work after it** must not have a tail call. -/
theorem tails_append_work (ha : Closed a) (hb : StartsStraight b) :
    Tails (a ++ b) ↔ NoTail a ∧ Tails b := by
  rw [tails_append_iff]
  refine and_congr_left fun _ => ⟨fun h ins hmem => ?_, fun h i ins hi hins => ?_⟩
  · by_contra hins
    obtain ⟨i, hi⟩ := List.mem_iff_getElem?.1 hmem
    obtain ⟨hlt, -⟩ := List.getElem?_eq_some_iff.1 hi
    have hpos : 0 < b.length := by
      obtain ⟨ins, rest, rfl, -⟩ := hb
      simp
    have hreach := h i ins hi (by simpa using hins)
    rw [List.length_append] at hreach
    rcases hreach.of_append ha hlt with ⟨hj, -⟩ | ⟨-, h'⟩
    · omega
    · have := h'.eq_of_starts hb
      omega
  · rw [h ins (List.mem_of_getElem? hi)] at hins
    cases hins

/-- **A fragment whose end leads to the end** keeps its tail calls. -/
theorem tails_append_exit (ha : Closed a) (hb : Reach b 0 b.length) :
    Tails (a ++ b) ↔ Tails a ∧ Tails b := by
  have hexit : Reach (a ++ b) a.length (a ++ b).length := by
    rw [List.length_append]
    exact hb.append_left
  rw [tails_append_iff]
  refine and_congr_left fun _ => ⟨fun h i ins hi hins => ?_, fun h i ins hi hins => ?_⟩
  · obtain ⟨hlt, -⟩ := List.getElem?_eq_some_iff.1 hi
    rcases (h i ins hi hins).of_append ha hlt with ⟨hj, h'⟩ | ⟨h', -⟩
    · rw [List.length_append] at hj h'
      obtain hb' : b.length = 0 := by omega
      rwa [hb', Nat.add_zero] at h'
    · exact h'
  · exact (h i ins hi hins).append_right.trans hexit

theorem closed_nil : Closed [] := ⟨by simp, by simp⟩

theorem Closed.append (ha : Closed a) (hb : Closed b) : Closed (a ++ b) := by
  refine ⟨fun i ins n hi hn => ?_, fun ins hmem => ?_⟩
  · rw [List.length_append]
    by_cases hlt : i < a.length
    · rw [List.getElem?_append_left hlt] at hi
      have := ha.jumps i ins n hi hn
      omega
    · rw [List.getElem?_append_right (by omega)] at hi
      have := hb.jumps _ ins n hi hn
      omega
  · rcases List.mem_append.1 hmem with h | h
    · exact ha.noRet ins h
    · exact hb.noRet ins h

/-- An instruction in front of a closed fragment that does not jump past its end. -/
theorem Closed.cons {ins : Instr} (hc : Closed c) (hret : ins ≠ .op .ret)
    (hn : ∀ n, ins.skips = some n → n ≤ c.length) : Closed (ins :: c) := by
  refine ⟨fun i ins' n hi hs => ?_, ?_⟩
  · rw [List.length_cons]
    cases i with
    | zero =>
      rw [List.getElem?_cons_zero, Option.some.injEq] at hi
      have := hn n (hi ▸ hs)
      omega
    | succ i =>
      have := hc.jumps i ins' n hi hs
      omega
  · simpa using ⟨hret, hc.noRet⟩

/-- **A function** has no work after its tail calls iff its body has none. -/
theorem tailsDone_ret (ha : Closed a) : TailsDone (a ++ [.op .ret]) ↔ Tails a := by
  have hb : StartsStraight [Instr.op .ret] := ⟨_, _, rfl, rfl⟩
  constructor
  · intro h i ins hi hins
    obtain ⟨hlt, -⟩ := List.getElem?_eq_some_iff.1 hi
    obtain ⟨j, hreach, hj⟩ := h i ins (by rw [List.getElem?_append_left hlt, hi]) hins
    rcases hreach.of_append ha hlt with ⟨hle, h'⟩ | ⟨h', -⟩
    · rcases Nat.lt_or_eq_of_le hle with hlt' | rfl
      · rw [List.getElem?_append_left hlt'] at hj
        exact absurd rfl (ha.noRet _ (List.mem_of_getElem? hj))
      · exact h'
    · exact h'
  · intro h i ins hi hins
    have hlt : i < a.length := by
      by_contra hge
      rw [List.getElem?_append_right (by omega)] at hi
      obtain rfl := List.mem_singleton.1 (List.mem_of_getElem? hi)
      cases hins
    rw [List.getElem?_append_left hlt] at hi
    exact ⟨a.length, (h i ins hi hins).append_right, by simp⟩

/-- The main chunk does not return, so it has no place for a tail call. -/
theorem tailsDone_halt (ha : Closed a) : TailsDone (a ++ [.op .halt]) ↔ NoTail a := by
  have hb : StartsStraight [Instr.op .halt] := ⟨_, _, rfl, rfl⟩
  constructor
  · intro h ins hmem
    by_contra hins
    obtain ⟨i, hi⟩ := List.mem_iff_getElem?.1 hmem
    obtain ⟨hlt, -⟩ := List.getElem?_eq_some_iff.1 hi
    obtain ⟨j, hreach, hj⟩ := h i ins (by rw [List.getElem?_append_left hlt, hi])
      (by simpa using hins)
    have hj' : j ≤ a.length := by
      rcases hreach.of_append ha hlt with ⟨hle, -⟩ | ⟨-, h'⟩
      · exact hle
      · exact (h'.eq_of_starts hb).le
    rcases Nat.lt_or_eq_of_le hj' with hlt' | rfl
    · rw [List.getElem?_append_left hlt'] at hj
      exact absurd rfl (ha.noRet _ (List.mem_of_getElem? hj))
    · simp at hj
  · intro h i ins hi hins
    rcases List.mem_append.1 (List.mem_of_getElem? hi) with hmem | hmem
    · rw [h ins hmem] at hins
      cases hins
    · obtain rfl := List.mem_singleton.1 hmem
      cases hins

end Hiko
