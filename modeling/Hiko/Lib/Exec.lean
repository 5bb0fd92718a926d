import Mathlib.Tactic

/-!
# Computations that end normally, with an error, or with a fault

An interpreter written in a systems language has two ways to stop early. An *error* is a value
the program returns: the state it leaves behind is still there and may be used again. A *fault*
is an unchecked access out of range: the process aborts and there is no state after it. `Exec`
keeps the two apart, and `wp` is the weakest precondition over all three ways to end.

## Main definitions

* `Outcome`, `Exec`: how a computation ends, and computations over a state
* `wp m Q E F`: `m` ends in `Q`, or with an error in `E`, or with a fault in `F`
* `Returns`, `Within`: what `m` returns, and how its last state relates to its first
* `Throws`: what the errors of `m` are
* `Logs`: what `m` adds to a part of the state that grows

## Main results

* `wp_pure`, `wp_bind`, `wp_throw`, `wp_fault`, `wp_get`, `wp_modify`: the rules of `wp`
* `wp_mono`: consequence
-/

namespace Hiko.Lib

variable {σ ε φ α β : Type}

/-- How a computation ends: with a value, with an error (the state survives), or with a fault
(nothing survives). -/
inductive Outcome (σ ε φ α : Type) where
  | ok (a : α) (s : σ)
  | error (e : ε) (s : σ)
  | fault (f : φ)

/-- A computation over the state `σ` with errors `ε` and faults `φ`. -/
def Exec (σ ε φ α : Type) : Type := σ → Outcome σ ε φ α

namespace Exec

instance : Monad (Exec σ ε φ) where
  pure a := fun s => .ok a s
  bind m f := fun s =>
    match m s with
    | .ok a s' => f a s'
    | .error e s' => .error e s'
    | .fault x => .fault x

theorem pure_bind (a : α) (f : α → Exec σ ε φ β) : (pure a >>= f) = f a := rfl

/-- The current state. -/
def get : Exec σ ε φ σ := fun s => .ok s s

/-- Replace the state. -/
def set (s : σ) : Exec σ ε φ Unit := fun _ => .ok () s

/-- Update the state. -/
def modify (f : σ → σ) : Exec σ ε φ Unit := fun s => .ok () (f s)

/-- Stop with an error. -/
def throw (e : ε) : Exec σ ε φ α := fun s => .error e s

/-- Stop with a fault. -/
def fault (x : φ) : Exec σ ε φ α := fun _ => .fault x

/-- The value of an option, or an error. -/
def orThrow (o : Option α) (e : ε) : Exec σ ε φ α :=
  match o with
  | some a => pure a
  | none => throw e

/-- The value of an option, or a fault. -/
def orFault (o : Option α) (x : φ) : Exec σ ε φ α :=
  match o with
  | some a => pure a
  | none => fault x

/-- **The weakest precondition**: from `s`, `m` ends in `Q`, or with an error in `E`, or with a
fault in `F`. -/
def wp (m : Exec σ ε φ α) (Q : α → σ → Prop) (E : ε → σ → Prop) (F : φ → Prop) (s : σ) : Prop :=
  match m s with
  | .ok a s' => Q a s'
  | .error e s' => E e s'
  | .fault x => F x

variable {Q : α → σ → Prop} {R : β → σ → Prop} {E : ε → σ → Prop} {F : φ → Prop} {s : σ}

@[simp] theorem wp_pure (a : α) : wp (pure a : Exec σ ε φ α) Q E F s ↔ Q a s := Iff.rfl

@[simp] theorem wp_get {Q : σ → σ → Prop} :
    wp (get : Exec σ ε φ σ) Q E F s ↔ Q s s := Iff.rfl

@[simp] theorem wp_set {Q : Unit → σ → Prop} (t : σ) :
    wp (set t : Exec σ ε φ Unit) Q E F s ↔ Q () t := Iff.rfl

@[simp] theorem wp_modify {Q : Unit → σ → Prop} (f : σ → σ) :
    wp (modify f : Exec σ ε φ Unit) Q E F s ↔ Q () (f s) := Iff.rfl

@[simp] theorem wp_throw (e : ε) : wp (throw e : Exec σ ε φ α) Q E F s ↔ E e s := Iff.rfl

@[simp] theorem wp_fault (x : φ) : wp (fault x : Exec σ ε φ α) Q E F s ↔ F x := Iff.rfl

@[simp] theorem wp_bind (m : Exec σ ε φ α) (f : α → Exec σ ε φ β) :
    wp (m >>= f) R E F s ↔ wp m (fun a s' => wp (f a) R E F s') E F s := by
  simp only [wp, bind]
  cases m s <;> rfl

theorem wp_orThrow (o : Option α) (e : ε) :
    wp (orThrow o e : Exec σ ε φ α) Q E F s ↔ (∀ a, o = some a → Q a s) ∧ (o = none → E e s) := by
  cases o <;> simp [orThrow]

theorem wp_orFault (o : Option α) (x : φ) :
    wp (orFault o x : Exec σ ε φ α) Q E F s ↔ (∀ a, o = some a → Q a s) ∧ (o = none → F x) := by
  cases o <;> simp [orFault]

theorem wp_ite {c : Prop} [Decidable c] (m n : Exec σ ε φ α) :
    wp (if c then m else n) Q E F s ↔ (c → wp m Q E F s) ∧ (¬ c → wp n Q E F s) := by
  by_cases h : c <;> simp [h]

/-- Consequence: a computation that ends in `Q`, `E`, `F` ends in anything they imply. -/
theorem wp_mono {m : Exec σ ε φ α} {Q' : α → σ → Prop} {E' : ε → σ → Prop} {F' : φ → Prop}
    (h : wp m Q E F s) (hQ : ∀ a s', Q a s' → Q' a s') (hE : ∀ e s', E e s' → E' e s')
    (hF : ∀ x, F x → F' x) : wp m Q' E' F' s := by
  unfold wp at h ⊢
  cases hm : m s with
  | ok a s' => exact hQ a s' (by simpa [hm] using h)
  | error e s' => exact hE e s' (by simpa [hm] using h)
  | fault x => exact hF x (by simpa [hm] using h)

/-- Two postconditions that hold separately hold together. -/
theorem wp_and {m : Exec σ ε φ α} {Q' : α → σ → Prop} {E' : ε → σ → Prop} {F' : φ → Prop}
    (h : wp m Q E F s) (h' : wp m Q' E' F' s) :
    wp m (fun a t => Q a t ∧ Q' a t) (fun e t => E e t ∧ E' e t) (fun x => F x ∧ F' x) s := by
  unfold wp at h h' ⊢
  cases hm : m s <;> simp_all

/-- Every value `m` returns is in `P`. -/
def Returns (P : α → Prop) (m : Exec σ ε φ α) : Prop :=
  ∀ s, wp m (fun a _ => P a) (fun _ _ => True) (fun _ => True) s

theorem returns_pure {P : α → Prop} {a : α} (h : P a) : Returns P (pure a : Exec σ ε φ α) :=
  fun _ => h

theorem returns_throw {P : α → Prop} (e : ε) : Returns P (throw e : Exec σ ε φ α) :=
  fun _ => trivial

theorem returns_true (m : Exec σ ε φ α) : Returns (fun _ => True) m := by
  intro s
  unfold wp
  cases m s <;> trivial

theorem Returns.bind {P : α → Prop} {R : β → Prop} {m : Exec σ ε φ α} {f : α → Exec σ ε φ β}
    (hm : Returns P m) (hf : ∀ a, P a → Returns R (f a)) : Returns R (m >>= f) := by
  intro s
  rw [wp_bind]
  exact wp_mono (hm s) (fun a s' ha => hf a ha s') (fun _ _ h => h) fun _ h => h

/-- Wherever `m` ends, with a value or an error, it ends in a state related to the one it started
in. -/
def Within (R : σ → σ → Prop) (m : Exec σ ε φ α) : Prop :=
  ∀ s, wp m (fun _ s' => R s s') (fun _ s' => R s s') (fun _ => True) s

section Within

variable {R : σ → σ → Prop}

theorem within_modify {f : σ → σ} (hf : ∀ s, R s (f s)) :
    Within R (modify f : Exec σ ε φ Unit) := hf

@[grind ←] theorem within_fault (x : φ) : Within R (fault x : Exec σ ε φ α) := fun _ => trivial

variable [Std.Refl R]

@[grind ←] theorem within_pure (a : α) : Within R (pure a : Exec σ ε φ α) := fun s => Std.Refl.refl s

@[grind ←] theorem within_get : Within R (get : Exec σ ε φ σ) := fun s => Std.Refl.refl s

@[grind ←] theorem within_throw (e : ε) : Within R (throw e : Exec σ ε φ α) := fun s => Std.Refl.refl s

@[grind ←] theorem within_orThrow (o : Option α) (e : ε) :
    Within R (orThrow o e : Exec σ ε φ α) := by
  cases o with
  | none => exact within_throw e
  | some a => exact within_pure a

@[grind ←] theorem within_orFault (o : Option α) (x : φ) :
    Within R (orFault o x : Exec σ ε φ α) := by
  cases o with
  | none => exact within_fault x
  | some a => exact within_pure a

omit [Std.Refl R] in
@[grind ←] theorem within_bind [IsTrans σ R] {m : Exec σ ε φ α} {f : α → Exec σ ε φ β}
    (hm : Within R m) (hf : ∀ a, Within R (f a)) : Within R (m >>= f) := by
  intro s
  rw [wp_bind]
  refine wp_mono (hm s) (fun a s' h => ?_) (fun _ _ h => h) fun _ h => h
  exact wp_mono (hf a s') (fun _ s'' h' => IsTrans.trans s s' s'' h h')
    (fun _ s'' h' => IsTrans.trans s s' s'' h h') fun _ h' => h'

end Within

/-- Every error `m` raises is in `P`. -/
def Throws (P : ε → Prop) (m : Exec σ ε φ α) : Prop :=
  ∀ s, wp m (fun _ _ => True) (fun e _ => P e) (fun _ => True) s

section Throws

variable {P : ε → Prop}

@[grind ←] theorem throws_pure (a : α) : Throws P (pure a : Exec σ ε φ α) := fun _ => trivial

@[grind ←] theorem throws_get : Throws P (get : Exec σ ε φ σ) := fun _ => trivial

@[grind ←] theorem throws_modify (f : σ → σ) : Throws P (modify f : Exec σ ε φ Unit) :=
  fun _ => trivial

@[grind ←] theorem throws_fault (x : φ) : Throws P (fault x : Exec σ ε φ α) := fun _ => trivial

theorem throws_throw {e : ε} (h : P e) : Throws P (throw e : Exec σ ε φ α) := fun _ => h

theorem throws_orThrow (o : Option α) {e : ε} (h : P e) :
    Throws P (orThrow o e : Exec σ ε φ α) := by
  cases o with
  | none => exact throws_throw h
  | some a => exact throws_pure a

@[grind ←] theorem throws_orFault (o : Option α) (x : φ) :
    Throws P (orFault o x : Exec σ ε φ α) := by
  cases o with
  | none => exact throws_fault x
  | some a => exact throws_pure a

@[grind ←] theorem throws_bind {m : Exec σ ε φ α} {f : α → Exec σ ε φ β} (hm : Throws P m)
    (hf : ∀ a, Throws P (f a)) : Throws P (m >>= f) := by
  intro s
  rw [wp_bind]
  exact wp_mono (hm s) (fun a s' _ => hf a s') (fun _ _ h => h) fun _ h => h

end Throws

/-- A log that grows with the state: `m` adds entries to it that are related to the value it
returns. -/
def Logs {γ : Type} (log : σ → List γ) (P : α → List γ → Prop) (m : Exec σ ε φ α) : Prop :=
  ∀ s, wp m (fun a s' => ∃ new, log s' = log s ++ new ∧ P a new) (fun _ _ => True)
    (fun _ => True) s

section Logs

variable {γ : Type} {log : σ → List γ} {P : α → List γ → Prop} {R : β → List γ → Prop}

theorem logs_pure {a : α} (h : P a []) : Logs log P (pure a : Exec σ ε φ α) :=
  fun _ => ⟨[], (List.append_nil _).symm, h⟩

theorem logs_throw (e : ε) : Logs log P (throw e : Exec σ ε φ α) := fun _ => trivial

theorem logs_fault (x : φ) : Logs log P (fault x : Exec σ ε φ α) := fun _ => trivial

theorem logs_get : Logs log (fun _ new => new = []) (get : Exec σ ε φ σ) :=
  fun _ => ⟨[], (List.append_nil _).symm, rfl⟩

theorem logs_modify {f : σ → σ} (hf : ∀ s, log (f s) = log s) :
    Logs log (fun _ new => new = []) (modify f : Exec σ ε φ Unit) :=
  fun s => ⟨[], by simp [hf], rfl⟩

theorem logs_orThrow (o : Option α) (e : ε) :
    Logs log (fun _ new => new = []) (orThrow o e : Exec σ ε φ α) := by
  cases o with
  | none => exact logs_throw e
  | some a => exact logs_pure rfl

theorem logs_orFault (o : Option α) (x : φ) :
    Logs log (fun _ new => new = []) (orFault o x : Exec σ ε φ α) := by
  cases o with
  | none => exact logs_fault x
  | some a => exact logs_pure rfl

theorem Logs.mono {P' : α → List γ → Prop} {m : Exec σ ε φ α} (h : Logs log P m)
    (hP : ∀ a new, P a new → P' a new) : Logs log P' m := fun s =>
  wp_mono (h s) (fun a _ ⟨new, hnew, ha⟩ => ⟨new, hnew, hP a new ha⟩) (fun _ _ h => h) fun _ h => h

theorem Logs.bind {m : Exec σ ε φ α} {f : α → Exec σ ε φ β} (hm : Logs log P m)
    (hf : ∀ a new, P a new → Logs log (fun b new' => R b (new ++ new')) (f a)) :
    Logs log R (m >>= f) := by
  intro s
  rw [wp_bind]
  refine wp_mono (hm s) (fun a s' h => ?_) (fun _ _ h => h) fun _ h => h
  obtain ⟨new, hnew, ha⟩ := h
  refine wp_mono (hf a new ha s') (fun b s'' h => ?_) (fun _ _ h => h) fun _ h => h
  obtain ⟨new', hnew', hb⟩ := h
  exact ⟨new ++ new', by rw [hnew', hnew, List.append_assoc], hb⟩

/-- A computation that logs nothing. -/
theorem Logs.bind_silent {m : Exec σ ε φ α} {f : α → Exec σ ε φ β}
    (hm : Logs log (fun _ new => new = []) m) (hf : ∀ a, Logs log R (f a)) :
    Logs log R (m >>= f) := by
  refine hm.bind fun a new hnew => ?_
  subst hnew
  exact hf a

end Logs

end Exec

end Hiko.Lib
