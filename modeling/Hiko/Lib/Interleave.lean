import Mathlib.Tactic

/-!
# Programs of several parties over a shared state

Parties run programs that are built from atomic actions on a state they share. Between two actions
of one party the others may take any number of theirs. A program may call procedures by name, so
that it may loop without end.

An invariant of such a system cannot speak of the state alone, since what a party may do depends on
what it has done before. It speaks of the state and of the *holdings* of the parties: elements of a
commutative monoid that a party gains and gives up with its actions. The rules of `wp` look at one
party at a time, and what all other parties hold is a frame that the party neither sees nor changes.

## Main definitions

* `Interface`, `Prog`: the actions and the procedures of a program, and programs
* `Machine`, `Config`, `Step`, `Reachable`: parties that take turns in any order
* `Discipline`: an invariant with holdings, what a party must hold to act, and the contracts of the
  procedures
* `wp`: the holdings from which a program keeps to the invariant
* `Team`: a discipline for parties with roles, each of which holds its part apart from the others

## Main results

* `wp_shift`, `wp_bind`, `wp_end`, `wp_frame`, `wp_act`, `wp_call`: the rules of `wp`
* `wp_team`: a program that follows a discipline follows it as a member of a team
* `Reachable.held`: in every state that is reached the invariant holds, and each party keeps to it
  from what it holds
-/

namespace Hiko.Lib.Interleave

/-! ## Programs -/

/-- The actions of a program with their results, and the procedures it may call. -/
structure Interface where
  Act : Type
  Res : Act → Type
  Call : Type
  Ret : Call → Type

/-- A program: the next action or call, and how to go on with its result. -/
inductive Prog (I : Interface) (α : Type) : Type
  | pure (a : α)
  | act (a : I.Act) (k : I.Res a → Prog I α)
  | call (c : I.Call) (k : I.Ret c → Prog I α)

namespace Prog

variable {I : Interface} {α β : Type}

/-- Go on with the value of a program. -/
def bind : Prog I α → (α → Prog I β) → Prog I β
  | .pure a, f => f a
  | .act a k, f => .act a fun r => bind (k r) f
  | .call c k, f => .call c fun r => bind (k r) f

instance : Monad (Prog I) where
  pure := .pure
  bind := .bind

/-- One action. -/
def perform (a : I.Act) : Prog I (I.Res a) := .act a .pure

/-- One call. -/
def invoke (c : I.Call) : Prog I (I.Ret c) := .call c .pure

/-- A program for each element of a list, in turn. -/
def each {γ : Type} (f : γ → Prog I Unit) : List γ → Prog I Unit
  | [] => Pure.pure ()
  | x :: xs => do
    f x
    each f xs

end Prog

open Prog

/-! ## Parties -/

/-- What the actions do to the state, the bodies of the procedures, and the program that each party
runs again and again for as long as it returns `true`. -/
structure Machine (I : Interface) (σ ι : Type) where
  run : (a : I.Act) → σ → I.Res a → σ → Prop
  body : (c : I.Call) → Prog I (I.Ret c)
  main : ι → Prog I Bool

/-- A party between two rounds, within one, or after the last one. -/
inductive Local (I : Interface) where
  | idle
  | running (p : Prog I Bool)
  | stopped

/-- The shared state and where each party is. -/
structure Config (I : Interface) (σ ι : Type) where
  state : σ
  parties : ι → Local I

section Machine

variable {I : Interface} {σ ι : Type} [DecidableEq ι] (S : Machine I σ ι)

/-- One step of the party `i`. -/
inductive Step (i : ι) : Config I σ ι → Config I σ ι → Prop
  | start {s ps} (h : ps i = .idle) :
    Step i ⟨s, ps⟩ ⟨s, Function.update ps i (.running (S.main i))⟩
  | act {s ps a k r s'} (h : ps i = .running (.act a k)) (hrun : S.run a s r s') :
    Step i ⟨s, ps⟩ ⟨s', Function.update ps i (.running (k r))⟩
  | call {s ps c k} (h : ps i = .running (.call c k)) :
    Step i ⟨s, ps⟩ ⟨s, Function.update ps i (.running ((S.body c).bind k))⟩
  | again {s ps} (h : ps i = .running (.pure true)) :
    Step i ⟨s, ps⟩ ⟨s, Function.update ps i .idle⟩
  | stop {s ps} (h : ps i = .running (.pure false)) :
    Step i ⟨s, ps⟩ ⟨s, Function.update ps i .stopped⟩

/-- The configurations of the runs from the state `s₀`, with all parties idle, in which the parties
take their steps in any order. -/
inductive Reachable (s₀ : σ) : Config I σ ι → Prop
  | init : Reachable s₀ ⟨s₀, fun _ => .idle⟩
  | step {c c' i} (h : Reachable s₀ c) (hstep : Step S i c c') : Reachable s₀ c'

end Machine

/-! ## The discipline -/

/-- An invariant of the state and of all holdings together, what a party must hold to act, and
the contracts of the procedures: for each index of a call, what it takes, which results it may
return and what it leaves with them. -/
structure Discipline (I : Interface) (σ M : Type) [AddCommMonoid M] where
  Inv : σ → M → Prop
  Need : I.Act → M → Prop
  Idx : I.Call → Type
  pre : (c : I.Call) → Idx c → M
  Ensures : (c : I.Call) → Idx c → I.Ret c → Prop
  post : (c : I.Call) → Idx c → I.Ret c → M
  need_add : ∀ a m n, Need a m → Need a (m + n)

section Rules

variable {I : Interface} {σ M α β : Type} [AddCommMonoid M] (D : Discipline I σ M)
  (run : (a : I.Act) → σ → I.Res a → σ → Prop)

/-- **The weakest holdings** from which a program keeps to the invariant, whatever the others hold,
and ends with a value and holdings in `Q`. -/
def wp (Q : α → M → Prop) : Prog I α → M → Prop
  | .pure a, m => ∀ s F, D.Inv s (m + F) → ∃ m', D.Inv s (m' + F) ∧ Q a m'
  | .act a k, m => ∀ s F, D.Inv s (m + F) → ∃ m₁, D.Inv s (m₁ + F) ∧ D.Need a m₁ ∧
      ∀ r s', run a s r s' → ∃ m', D.Inv s' (m' + F) ∧ wp Q (k r) m'
  | .call c k, m => ∀ s F, D.Inv s (m + F) → ∃ (x : D.Idx c) (n : M),
      D.Inv s (D.pre c x + n + F) ∧ ∀ r, D.Ensures c x r → wp Q (k r) (D.post c x r + n)

variable {D run} {Q R : α → M → Prop}

/-- Holdings may be exchanged where the invariant allows it. -/
theorem wp_shift {p : Prog I α} {m : M}
    (h : ∀ s F, D.Inv s (m + F) → ∃ m', D.Inv s (m' + F) ∧ wp D run Q p m') : wp D run Q p m := by
  cases p with
  | pure a =>
    intro s F hinv
    obtain ⟨m', hinv', hp⟩ := h s F hinv
    exact hp s F hinv'
  | act a k =>
    intro s F hinv
    obtain ⟨m', hinv', hp⟩ := h s F hinv
    exact hp s F hinv'
  | call c k =>
    intro s F hinv
    obtain ⟨m', hinv', hp⟩ := h s F hinv
    exact hp s F hinv'

theorem wp_mono (hQ : ∀ a m, Q a m → R a m) {p : Prog I α} {m : M} (h : wp D run Q p m) :
    wp D run R p m := by
  induction p generalizing m with
  | pure a =>
    intro s F hinv
    obtain ⟨m', hinv', hq⟩ := h s F hinv
    exact ⟨m', hinv', hQ a m' hq⟩
  | act a k ih =>
    intro s F hinv
    obtain ⟨m₁, hinv₁, hneed, hk⟩ := h s F hinv
    refine ⟨m₁, hinv₁, hneed, fun r s' hrun => ?_⟩
    obtain ⟨m', hinv', hp⟩ := hk r s' hrun
    exact ⟨m', hinv', ih r hp⟩
  | call c k ih =>
    intro s F hinv
    obtain ⟨x, n, hinv', hk⟩ := h s F hinv
    exact ⟨x, n, hinv', fun r hr => ih r (hk r hr)⟩

theorem wp_pure {a : α} {m : M} (h : Q a m) : wp D run Q (.pure a) m :=
  fun _ _ hinv => ⟨m, hinv, h⟩

/-- A program followed by another one. -/
theorem wp_bind {Q : β → M → Prop} {p : Prog I α} {f : α → Prog I β} {m : M}
    (h : wp D run (fun a n => wp D run Q (f a) n) p m) : wp D run Q (p >>= f) m := by
  induction p generalizing m with
  | pure a => exact wp_shift h
  | act a k ih =>
    intro s F hinv
    obtain ⟨m₁, hinv₁, hneed, hk⟩ := h s F hinv
    refine ⟨m₁, hinv₁, hneed, fun r s' hrun => ?_⟩
    obtain ⟨m', hinv', hp⟩ := hk r s' hrun
    exact ⟨m', hinv', ih r hp⟩
  | call c k ih =>
    intro s F hinv
    obtain ⟨x, n, hinv', hk⟩ := h s F hinv
    exact ⟨x, n, hinv', fun r hr => ih r (hk r hr)⟩

/-- Holdings may be exchanged at the end of a program. -/
theorem wp_end {p : Prog I α} {m : M}
    (h : wp D run (fun a n => ∀ s F, D.Inv s (n + F) → ∃ m', D.Inv s (m' + F) ∧ Q a m') p m) :
    wp D run Q p m := by
  induction p generalizing m with
  | pure a =>
    intro s F hinv
    obtain ⟨n, hinv', hq⟩ := h s F hinv
    exact hq s F hinv'
  | act a k ih =>
    intro s F hinv
    obtain ⟨m₁, hinv₁, hneed, hk⟩ := h s F hinv
    refine ⟨m₁, hinv₁, hneed, fun r s' hrun => ?_⟩
    obtain ⟨m', hinv', hp⟩ := hk r s' hrun
    exact ⟨m', hinv', ih r hp⟩
  | call c k ih =>
    intro s F hinv
    obtain ⟨x, n, hinv', hk⟩ := h s F hinv
    exact ⟨x, n, hinv', fun r hr => ih r (hk r hr)⟩

/-- What a program does not use stays with its party. -/
theorem wp_frame {p : Prog I α} {m n : M} (h : wp D run Q p m) :
    wp D run (fun a m' => ∃ l, Q a l ∧ m' = l + n) p (m + n) := by
  induction p generalizing m with
  | pure a =>
    intro s F hinv
    rw [add_assoc] at hinv
    obtain ⟨m', hinv', hq⟩ := h s (n + F) hinv
    rw [← add_assoc] at hinv'
    exact ⟨m' + n, hinv', m', hq, rfl⟩
  | act a k ih =>
    intro s F hinv
    rw [add_assoc] at hinv
    obtain ⟨m₁, hinv₁, hneed, hk⟩ := h s (n + F) hinv
    rw [← add_assoc] at hinv₁
    refine ⟨m₁ + n, hinv₁, D.need_add a m₁ n hneed, fun r s' hrun => ?_⟩
    obtain ⟨m', hinv', hp⟩ := hk r s' hrun
    rw [← add_assoc] at hinv'
    exact ⟨m' + n, hinv', ih r hp⟩
  | call c k ih =>
    intro s F hinv
    rw [add_assoc] at hinv
    obtain ⟨x, l, hinv', hk⟩ := h s (n + F) hinv
    refine ⟨x, l + n, ?_, fun r hr => ?_⟩
    · rw [← add_assoc, add_assoc _ n F]
      exact hinv'
    · rw [← add_assoc]
      exact ih r (hk r hr)

/-- One action and what follows it. -/
theorem wp_act {a : I.Act} {f : I.Res a → Prog I α} {m : M}
    (h : ∀ s F, D.Inv s (m + F) → D.Need a m ∧
      ∀ r s', run a s r s' → ∃ m', D.Inv s' (m' + F) ∧ wp D run Q (f r) m') :
    wp D run Q (perform a >>= f) m :=
  fun s F hinv => ⟨m, hinv, (h s F hinv).1, (h s F hinv).2⟩

/-- One call and what follows it. -/
theorem wp_call {c : I.Call} {f : I.Ret c → Prog I α} {m n : M} (x : D.Idx c)
    (hm : m = D.pre c x + n)
    (h : ∀ r, D.Ensures c x r → wp D run Q (f r) (D.post c x r + n)) :
    wp D run Q (invoke c >>= f) m := by
  subst hm
  exact fun s F hinv => ⟨x, n, hinv, h⟩

end Rules

/-! ## Teams -/

section Team

variable {I : Interface} {σ M α ρ : Type} [AddCommMonoid M]

/-- All that the members of a team hold. -/
def total (B : Multiset (ρ × M)) : M := (B.map Prod.snd).sum

@[simp] theorem total_zero : total (0 : Multiset (ρ × M)) = 0 := by
  simp [total]

@[simp] theorem total_cons (x : ρ × M) (B : Multiset (ρ × M)) :
    total (x ::ₘ B) = x.2 + total B := by
  simp [total]

@[simp] theorem total_add (B C : Multiset (ρ × M)) : total (B + C) = total B + total C := by
  simp [total]

@[simp] theorem total_singleton (x : ρ × M) : total ({x} : Multiset (ρ × M)) = x.2 := by
  simp [total]

/-- A discipline for the parties of a *team*: each has a role, and holds its own part apart from the
others. What the roles say of the state and of each other is `Side`, and a party in one of the roles
`busy` follows the discipline `D` by itself. -/
structure Team (D : Discipline I σ M) (ρ : Type) where
  busy : ρ → Prop
  Side : σ → Multiset (ρ × M) → Prop
  Need : I.Act → Multiset (ρ × M) → Prop
  need_add : ∀ a B C, Need a B → Need a (B + C)

variable {D : Discipline I σ M} (T : Team D ρ) {run : (a : I.Act) → σ → I.Res a → σ → Prop}

/-- The discipline of the team. A call is made in one of the busy roles, with a rest that is
kept. -/
def Team.discipline : Discipline I σ (Multiset (ρ × M)) where
  Inv s B := D.Inv s (total B) ∧ T.Side s B
  Need := T.Need
  Idx c := D.Idx c × {r // T.busy r} × M
  pre c x := {(x.2.1.1, D.pre c x.1 + x.2.2)}
  Ensures c x := D.Ensures c x.1
  post c x r := {(x.2.1.1, D.post c x.1 r + x.2.2)}
  need_add := T.need_add

/-- What the team must allow its parties in the busy roles. -/
structure Team.Lets (run : (a : I.Act) → σ → I.Res a → σ → Prop) : Prop where
  shift : ∀ {s r m m' B}, T.busy r → T.Side s ((r, m) ::ₘ B) → T.Side s ((r, m') ::ₘ B)
  act : ∀ {s r m m' B a res s'}, T.busy r → D.Need a m → run a s res s' →
    T.Side s ((r, m) ::ₘ B) → T.Side s' ((r, m') ::ₘ B)
  need : ∀ {r m a}, D.Need a m → T.Need a {(r, m)}

variable {T} {Q : α → M → Prop}

/-- **A party in a busy role follows the discipline of the team** if it follows its own. -/
theorem wp_team (hT : T.Lets run) {r : ρ} (hr : T.busy r) {p : Prog I α} {m : M}
    (h : wp D run Q p m) :
    wp T.discipline run (fun a B => ∃ n, B = {(r, n)} ∧ Q a n) p {(r, m)} := by
  have hinv : ∀ {s m F}, T.discipline.Inv s ({(r, m)} + F) ↔
      D.Inv s (m + total F) ∧ T.Side s ((r, m) ::ₘ F) := fun {s m F} => by
    simp [Team.discipline]
  induction p generalizing m with
  | pure a =>
    intro s F hi
    obtain ⟨hi, hside⟩ := hinv.mp hi
    obtain ⟨m', hi', hq⟩ := h s _ hi
    exact ⟨{(r, m')}, hinv.mpr ⟨hi', hT.shift hr hside⟩, m', rfl, hq⟩
  | act a k ih =>
    intro s F hi
    obtain ⟨hi, hside⟩ := hinv.mp hi
    obtain ⟨m₁, hi₁, hneed, hk⟩ := h s _ hi
    have hside₁ : T.Side s ((r, m₁) ::ₘ F) := hT.shift hr hside
    refine ⟨{(r, m₁)}, hinv.mpr ⟨hi₁, hside₁⟩, hT.need hneed, fun res s' hrun => ?_⟩
    obtain ⟨m', hi', hp⟩ := hk res s' hrun
    exact ⟨{(r, m')}, hinv.mpr ⟨hi', hT.act hr hneed hrun hside₁⟩, ih res hp⟩
  | call c k ih =>
    intro s F hi
    obtain ⟨hi, hside⟩ := hinv.mp hi
    obtain ⟨x, n, hi', hk⟩ := h s _ hi
    refine ⟨(x, ⟨r, hr⟩, n), 0, ?_, fun res hres => ?_⟩
    · rw [add_zero]
      exact hinv.mpr ⟨hi', hT.shift hr hside⟩
    · rw [add_zero]
      exact ih res (hk res hres)

/-- A procedure that keeps its contract keeps it in a team. -/
theorem wp_team_body (hT : T.Lets run) {c : I.Call} {p : Prog I (I.Ret c)}
    (x : T.discipline.Idx c)
    (h : wp D run (fun r m => D.Ensures c x.1 r ∧ m = D.post c x.1 r) p (D.pre c x.1)) :
    wp T.discipline run (fun r B => T.discipline.Ensures c x r ∧ B = T.discipline.post c x r) p
      (T.discipline.pre c x) := by
  refine wp_mono ?_ (wp_team hT x.2.1.2 (wp_frame (n := x.2.2) h))
  rintro r _ ⟨_, rfl, _, ⟨hr, rfl⟩, rfl⟩
  exact ⟨hr, rfl⟩

end Team

/-! ## Soundness -/

section Soundness

variable {I : Interface} {σ ι M : Type} [DecidableEq ι] [Fintype ι] [AddCommMonoid M]

/-- Every procedure keeps its contract, and every round of a party begins with what the party holds
between its rounds, and ends with that or with what it holds after the last one. -/
structure Discipline.Follows (D : Discipline I σ M) (S : Machine I σ ι) (rest last : ι → M) :
    Prop where
  body : ∀ c x, wp D S.run (fun r m => D.Ensures c x r ∧ m = D.post c x r) (S.body c) (D.pre c x)
  main : ∀ i, wp D S.run (fun r m => m = if r = true then rest i else last i) (S.main i) (rest i)

variable {D : Discipline I σ M} {S : Machine I σ ι} {rest last : ι → M}

/-- What the party `i` may hold where it stands. -/
def Discipline.Allows (D : Discipline I σ M) (S : Machine I σ ι) (rest last : ι → M)
    (i : ι) (m : M) :
    Local I → Prop
  | .idle => m = rest i
  | .running p => wp D S.run (fun r m => m = if r = true then rest i else last i) p m
  | .stopped => m = last i

/-- The invariant holds with what the parties hold, and each of them keeps to it from there. -/
def Discipline.Held (D : Discipline I σ M) (S : Machine I σ ι) (rest last : ι → M)
    (c : Config I σ ι) : Prop :=
  ∃ m : ι → M, D.Inv c.state (∑ i, m i) ∧ ∀ i, D.Allows S rest last i (m i) (c.parties i)

/-- The step lemma of a party: the others keep what they hold. -/
theorem held_update {ps : ι → Local I} {m : ι → M} (i : ι) (l : Local I) {s : σ} {m' : M}
    (hinv : D.Inv s (m' + ∑ j ∈ Finset.univ.erase i, m j)) (hl : D.Allows S rest last i m' l)
    (hall : ∀ j, D.Allows S rest last j (m j) (ps j)) :
    D.Held S rest last ⟨s, Function.update ps i l⟩ := by
  refine ⟨Function.update m i m', ?_, fun j => ?_⟩
  · rw [← Finset.add_sum_erase _ _ (Finset.mem_univ i), Function.update_self]
    rw [Finset.sum_congr rfl fun j hj => Function.update_of_ne (Finset.ne_of_mem_erase hj) m' m]
    exact hinv
  · by_cases hj : j = i
    · subst hj
      simpa using hl
    · simpa [hj] using hall j

theorem Step.held (hD : D.Follows S rest last) {c c' : Config I σ ι} {i : ι} (hstep : Step S i c c')
    (h : D.Held S rest last c) : D.Held S rest last c' := by
  obtain ⟨m, hinv, hall⟩ := h
  rw [← Finset.add_sum_erase _ _ (Finset.mem_univ i)] at hinv
  have hi := hall i
  cases hstep with
  | start h =>
    simp only [h, Discipline.Allows] at hi
    rw [hi] at hinv
    exact held_update i (.running _) hinv (hD.main i) hall
  | act h hrun =>
    simp only [h, Discipline.Allows] at hi
    obtain ⟨m₁, -, -, hk⟩ := hi _ _ hinv
    obtain ⟨m', hinv', hp⟩ := hk _ _ hrun
    exact held_update i (.running _) hinv' hp hall
  | @call s ps c k h =>
    simp only [h, Discipline.Allows] at hi
    obtain ⟨x, n, hinv', hk⟩ := hi _ _ hinv
    refine held_update i (.running _) hinv' ?_ hall
    refine wp_bind (wp_mono ?_ (wp_frame (hD.body c x)))
    rintro r _ ⟨_, ⟨hr, rfl⟩, rfl⟩
    exact hk r hr
  | again h =>
    simp only [h, Discipline.Allows] at hi
    obtain ⟨m', hinv', hm'⟩ := hi _ _ hinv
    exact held_update i .idle hinv' (by simpa [Discipline.Allows] using hm') hall
  | stop h =>
    simp only [h, Discipline.Allows] at hi
    obtain ⟨m', hinv', hm'⟩ := hi _ _ hinv
    exact held_update i .stopped hinv' (by simpa [Discipline.Allows] using hm') hall

/-- **The run lemma**: where the invariant holds at first and all programs follow the discipline, it
holds in every configuration, whatever the order of steps was. -/
theorem Reachable.held (hD : D.Follows S rest last) {s₀ : σ} (h₀ : D.Inv s₀ (∑ i, rest i))
    {c : Config I σ ι} (h : Reachable S s₀ c) : D.Held S rest last c := by
  induction h with
  | init => exact ⟨rest, h₀, fun _ => rfl⟩
  | step _ hstep ih => exact hstep.held hD ih

omit [DecidableEq ι] in
/-- While no party is within a round, each holds what it holds between its rounds or at the end. -/
theorem Discipline.Held.quiet {c : Config I σ ι} (h : D.Held S rest last c)
    (hquiet : ∀ i p, c.parties i ≠ .running p) :
    ∃ m : ι → M, D.Inv c.state (∑ i, m i) ∧ ∀ i, m i = rest i ∨ m i = last i := by
  obtain ⟨m, hinv, hall⟩ := h
  refine ⟨m, hinv, fun i => ?_⟩
  have hi := hall i
  cases hl : c.parties i with
  | running p => exact absurd hl (hquiet i p)
  | idle => exact .inl (by simpa [hl, Discipline.Allows] using hi)
  | stopped => exact .inr (by simpa [hl, Discipline.Allows] using hi)

/-- A party that is about to act holds what it needs, apart from what all others hold. -/
theorem Discipline.Held.need {c : Config I σ ι} (h : D.Held S rest last c) {i : ι} {a : I.Act}
    {k : I.Res a → Prog I Bool} (hi : c.parties i = .running (.act a k)) :
    ∃ m F, D.Need a m ∧ D.Inv c.state (m + F) := by
  obtain ⟨m, hinv, hall⟩ := h
  rw [← Finset.add_sum_erase _ _ (Finset.mem_univ i)] at hinv
  have hallows := hall i
  simp only [hi, Discipline.Allows] at hallows
  obtain ⟨m₁, hinv₁, hneed, -⟩ := hallows _ _ hinv
  exact ⟨m₁, _, hneed, hinv₁⟩

/-- Two parties that are about to act hold what they need side by side. -/
theorem Discipline.Held.need_two {c : Config I σ ι} (h : D.Held S rest last c) {i j : ι}
    (hij : i ≠ j) {a b : I.Act} {k : I.Res a → Prog I Bool} {l : I.Res b → Prog I Bool}
    (hi : c.parties i = .running (.act a k)) (hj : c.parties j = .running (.act b l)) :
    ∃ m n F, D.Need a m ∧ D.Need b n ∧ D.Inv c.state (m + (n + F)) := by
  obtain ⟨m, hinv, hall⟩ := h
  rw [← Finset.add_sum_erase _ _ (Finset.mem_univ i)] at hinv
  have hmem : j ∈ Finset.univ.erase i := Finset.mem_erase.mpr ⟨hij.symm, Finset.mem_univ j⟩
  have hallows := hall i
  simp only [hi, Discipline.Allows] at hallows
  obtain ⟨m₁, hinv₁, hneed, -⟩ := hallows _ _ hinv
  rw [← Finset.add_sum_erase _ _ hmem, add_left_comm] at hinv₁
  have hallows' := hall j
  simp only [hj, Discipline.Allows] at hallows'
  obtain ⟨n₁, hinv₂, hneed', -⟩ := hallows' _ _ hinv₁
  exact ⟨m₁, n₁, _, hneed, hneed', by rwa [add_left_comm] at hinv₂⟩

/-- A procedure without a contract is never called. -/
theorem Discipline.Held.no_call {c : Config I σ ι}
    (h : D.Held S rest last c) {f : I.Call} (hf : IsEmpty (D.Idx f)) {i : ι}
    {k : I.Ret f → Prog I Bool} : c.parties i ≠ .running (.call f k) := by
  intro hi
  obtain ⟨m, hinv, hall⟩ := h
  rw [← Finset.add_sum_erase _ _ (Finset.mem_univ i)] at hinv
  have hallows := hall i
  simp only [hi, Discipline.Allows] at hallows
  obtain ⟨x, -⟩ := hallows _ _ hinv
  exact hf.elim x

end Soundness

end Hiko.Lib.Interleave
