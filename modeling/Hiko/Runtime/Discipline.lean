import Hiko.Runtime.Handover

/-!
# The functions of the threaded runtime keep the invariant

Each function is looked at on its own: from the tokens it takes it keeps the invariant with every
access, whatever the other threads hold, and ends with the tokens it leaves.

## Main definitions

* `discipline`: the invariant, and what the functions that loop take and leave
* `Safe`: a program keeps to it

## Main results

* `safe_access`, `safe_takeWaiter`, `safe_drain`: the rules for accesses and calls
* `safe_resume`, `safe_resumeOrFail`, `safe_clear`: transitions of a process
-/

namespace Hiko.Threaded

open Lib.Interleave
open Lib.Interleave.Prog (perform invoke each)

variable {V : Type}

/-! ## The discipline -/

/-- The tokens of the processes that are to be terminated. -/
def toks (ts : Terminations V) : Tokens :=
  (ts.map fun t => Token.seat (t.1.held .doomed) : List Token)

@[simp] theorem toks_nil : toks ([] : Terminations V) = 0 := rfl

@[simp] theorem toks_cons (p : Process V) (o : ChildOutcome) (ts : Terminations V) :
    toks ((p, o) :: ts) = .seat (p.held .doomed) ::ₘ toks ts := rfl

/-- What a thread must hold to run a slice. The counters, the queue and the completions belong to
the loops of the threads. -/
def needs : Act V → Tokens → Prop
  | .runSlice p, m => Token.seat (p.held .working) ∈ m
  | .counter _, _ | .dequeue, _ | .shutdown, _ | .poll, _ => False
  | _, _ => True

/-- Where `take_waiter` is in the list of waiters of its caller. Nobody calls `fail_deadlocked`. -/
def index : Call V → Type
  | .takeWaiter _ _ _ => List ℕ
  | .failDeadlocked _ => Empty
  | _ => Unit

/-- What the functions that loop take. -/
def takes : (c : Call V) → index c → Tokens
  | .takeWaiter pid m c, l => {.wake m c (some (pid :: l))}
  | .tryCancelInTable _ ts, _ => toks ts
  | .drainTerminations ts, _ => toks ts
  | .failDeadlocked _, x => x.elim

/-- What their results satisfy. -/
def ensures : (c : Call V) → index c → c.Ret → Prop
  | .takeWaiter pid m c, _, r => ∀ p, r = .ok p → p.pid = pid ∧ c ∈ p.children ∧
      ∃ reason, p.status = .blocked reason ∧ waitsFor m c reason = true
  | _, _, _ => True

/-- What they leave. -/
def leaves : (c : Call V) → index c → c.Ret → Tokens
  | .takeWaiter _ m c, l, .ok p =>
    .seat (p.hold .working ∅ p.seat.regs none) ::ₘ {.wake m c (some l)}
  | .takeWaiter _ m c, l, .error .inFlight => {.wake m c (some l)}
  | .takeWaiter pid m c, l, .error .stale => .stale m c pid ::ₘ {.wake m c (some l)}
  | .tryCancelInTable _ _, _, r => toks r.2
  | .drainTerminations _, _, _ => 0
  | .failDeadlocked _, x, _ => x.elim

/-- The discipline of the threads. -/
def discipline (V : Type) : Discipline (interface V) (Shared V) Tokens where
  Inv := Inv
  Need := needs
  Idx := index
  pre := takes
  Ensures := ensures
  post := leaves
  need_add a m n h := by
    cases a with
    | runSlice p => exact Multiset.mem_add.mpr (.inl h)
    | counter | dequeue | shutdown | poll => exact h.elim
    | _ => trivial

@[simp] theorem discipline_inv : (discipline V).Inv = Inv := rfl

/-- From the tokens `m`, the program keeps the invariant, and ends in `Q`. -/
abbrev Safe {α : Type} (b : Behaviour V) (Q : α → Tokens → Prop) (p : Run V α)
    (m : Tokens) : Prop :=
  wp (discipline V) (Act.run b) Q p m

section Rules

variable {α β : Type} {b : Behaviour V} {Q : α → Tokens → Prop} {m n : Tokens}

/-! ## Rules -/

theorem safe_pure {a : α} (h : Q a m) : Safe b Q (pure a) m := wp_pure h

theorem safe_bind {Q : β → Tokens → Prop} {p : Run V α} {f : α → Run V β}
    (h : Safe b (fun a n => Safe b Q (f a) n) p m) : Safe b Q (p >>= f) m := wp_bind h

theorem safe_mono {R : α → Tokens → Prop} (hQ : ∀ a m, Q a m → R a m) {p : Run V α}
    (h : Safe b Q p m) : Safe b R p m := wp_mono hQ h

/-- Tokens may be exchanged where the invariant allows it. -/
theorem safe_shift {p : Run V α}
    (h : ∀ (s : Shared V) F, Inv s (m + F) → ∃ m', Inv s (m' + F) ∧ Safe b Q p m') :
    Safe b Q p m := wp_shift h

theorem safe_end {p : Run V α}
    (h : Safe b (fun a n => ∀ (s : Shared V) F, Inv s (n + F) → ∃ m', Inv s (m' + F) ∧ Q a m')
      p m) :
    Safe b Q p m := wp_end h

theorem safe_ite {c : Prop} [Decidable c] {p q : Run V α} (hp : Safe b Q p m) (hq : Safe b Q q m) :
    Safe b Q (if c then p else q) m := by
  split
  · exact hp
  · exact hq

/-- An access and what follows it. -/
theorem safe_access {a : Op V} {f : a.Res → Run V α}
    (h : ∀ s F, Inv s (m + F) → ∃ m', Inv (a.run b.requestCancellation s).2 (m' + F) ∧
      Safe b Q (f (a.run b.requestCancellation s).1) m') : Safe b Q (access a >>= f) m := by
  refine wp_act (D := discipline V) (a := .op a) fun s F hinv => ⟨trivial, fun r s' hrun => ?_⟩
  obtain ⟨m', hinv', hf⟩ := h s F hinv
  cases hr : a.run b.requestCancellation s with
  | mk r₀ s₀ =>
    simp only [hr] at hinv' hf
    have he : (r, s') = (r₀, s₀) := hr ▸ hrun
    cases he
    exact ⟨m', hinv', hf⟩

/-- An access that ends a program. -/
theorem safe_last {a : Op V} {Q : a.Res → Tokens → Prop}
    (h : ∀ s F, Inv s (m + F) → ∃ m', Inv (a.run b.requestCancellation s).2 (m' + F) ∧
      Q (a.run b.requestCancellation s).1 m') : Safe b Q (access a) m :=
  safe_access (f := pure) fun s F hinv => by
    obtain ⟨m', hinv', hq⟩ := h s F hinv
    exact ⟨m', hinv', safe_pure hq⟩

/-- An action that leaves what is shared as it is. -/
theorem safe_silent {a : Act V} {f : a.Res → Run V α} (ha : ∀ s r s', a.run b s r s' → s' = s)
    (hneed : needs a m) (h : ∀ r, Safe b Q (f r) m) : Safe b Q (action a >>= f) m :=
  wp_act (D := discipline V) (a := a) fun s F hinv => ⟨hneed, fun r s' hrun =>
    ⟨m, by rw [ha s r s' hrun]; exact hinv, h r⟩⟩

theorem safe_silent_last {a : Act V} {Q : a.Res → Tokens → Prop}
    (ha : ∀ s r s', a.run b s r s' → s' = s) (hneed : needs a m) (h : ∀ r, Q r m) :
    Safe b Q (action a) m :=
  safe_silent (f := pure) ha hneed fun r => safe_pure (h r)

/-- The program of each element of a list. -/
theorem safe_each {γ : Type} {f : γ → Run V Unit} {R : List γ → Tokens → Prop}
    (hf : ∀ x xs m, R (x :: xs) m → Safe b (fun _ n => R xs n) (f x) m) :
    ∀ xs m, R xs m → Safe b (fun _ n => R [] n) (each f xs) m
  | [], _, h => safe_pure h
  | x :: xs, m, h => safe_bind (safe_mono (fun _ _ h => safe_each hf xs _ h) (hf x xs m h))

/-! ## Calls -/

theorem safe_takeWaiter {pid : ℕ} {w : WaitMap} {c : ℕ} {l : List ℕ}
    {f : Except NotTaken (Process V) → Run V α}
    (hok : ∀ p : Process V, p.pid = pid → c ∈ p.children →
      (∃ reason, p.status = .blocked reason ∧ waitsFor w c reason = true) →
      Safe b Q (f (.ok p)) (.seat (p.hold .working ∅ p.seat.regs none) ::ₘ
        .wake w c (some l) ::ₘ m))
    (hflight : Safe b Q (f (.error .inFlight)) (.wake w c (some l) ::ₘ m))
    (hstale : Safe b Q (f (.error .stale)) (.stale w c pid ::ₘ .wake w c (some l) ::ₘ m)) :
    Safe b Q (call (.takeWaiter pid w c) >>= f) (.wake w c (some (pid :: l)) ::ₘ m) := by
  refine wp_call (D := discipline V) (c := .takeWaiter pid w c) (n := m) l rfl fun r hr => ?_
  cases r with
  | ok p =>
    obtain ⟨h1, h2, h3⟩ := hr p rfl
    change Safe b Q (f (.ok p)) (.seat (p.hold .working ∅ p.seat.regs none) ::ₘ
      {.wake w c (some l)} + m)
    rw [Multiset.cons_add, Multiset.singleton_add]
    exact hok p h1 h2 h3
  | error e =>
    cases e with
    | inFlight =>
      change Safe b Q (f (.error .inFlight)) ({.wake w c (some l)} + m)
      rw [Multiset.singleton_add]
      exact hflight
    | stale =>
      change Safe b Q (f (.error .stale)) (.stale w c pid ::ₘ {.wake w c (some l)} + m)
      rw [Multiset.cons_add, Multiset.singleton_add]
      exact hstale

theorem safe_tryCancel {pid : ℕ} {ts : Terminations V} {f : Bool × Terminations V → Run V α}
    (h : ∀ r, Safe b Q (f r) (toks r.2 + m)) :
    Safe b Q (call (.tryCancelInTable pid ts) >>= f) (toks ts + m) :=
  wp_call (D := discipline V) (c := .tryCancelInTable pid ts) (n := m) () rfl fun r _ => h r

/-- `drain_terminations`. -/
theorem safe_drain {Q : Unit → Tokens → Prop} {ts : Terminations V} (h : Q () m) :
    Safe b Q (drain ts) (toks ts + m) := by
  refine wp_call (D := discipline V) (c := .drainTerminations ts) (f := pure) (n := m) () rfl
    fun r _ => safe_pure ?_
  rw [show (discipline V).post (.drainTerminations ts) () r = 0 from rfl, zero_add]
  exact h

theorem safe_terminate {Q : Unit → Tokens → Prop} {p : Process V} {o : ChildOutcome} (h : Q () m) :
    Safe b Q (terminateProcess p o) (.seat (p.held .doomed) ::ₘ m) :=
  (safe_drain h : Safe b Q (drain [(p, o)]) (toks [(p, o)] + m))

/-! ## Transitions -/

/-- `resume`. -/
theorem safe_resume {Q : Unit → Tokens → Prop} {p : Process V} {A : Finset ℕ} (h : Q () m) :
    Safe b Q (resume p) (.seat (p.hold .working A ∅ none) ::ₘ m) := by
  refine safe_access fun s F hinv => ?_
  rw [Multiset.cons_add] at hinv
  have hput := Inv.putRunnable (p := { p with status := .runnable }) hinv rfl
  refine ⟨.enq p.pid ::ₘ m, by rw [Multiset.cons_add]; exact hput, ?_⟩
  refine safe_last fun s F hinv => ⟨m, ?_, h⟩
  rw [Multiset.cons_add] at hinv
  exact hinv.enqueue

/-- A process that waits for nothing is to be terminated. -/
theorem safe_doom {p : Process V} {A : Finset ℕ} {r : Run V α}
    (h : Safe b Q r (.seat (p.held .doomed) ::ₘ m)) :
    Safe b Q r (.seat (p.hold .working A ∅ none) ::ₘ m) := by
  refine safe_shift fun s F hinv => ⟨_, ?_, h⟩
  rw [Multiset.cons_add] at hinv ⊢
  exact hinv.restage (.inr rfl)

/-- The end of a delivery. -/
theorem safe_resumeOrFail {Q : Terminations V → Tokens → Prop} {p : Process V} {A : Finset ℕ}
    {d : Except ProcessFailure Unit × V} {ts : Terminations V}
    (h : ∀ ts', Q ts' (toks ts' + m)) :
    Safe b Q (resumeOrFail p d ts) (.seat (p.hold .working A ∅ none) ::ₘ (toks ts + m)) := by
  obtain ⟨r, vm⟩ := d
  cases r with
  | ok u =>
    exact safe_bind (safe_resume (p := { p with vm := vm }) (safe_pure (h ts)))
  | error failure =>
    refine safe_doom (safe_pure ?_)
    rw [← Multiset.cons_add]
    exact h (({ p with vm := vm }, .err failure) :: ts)

/-- `remove_any_waiter_registration`, by the thread that has the process. -/
theorem safe_removeAny {Q : Unit → Tokens → Prop} {p : Process V} {stage : Stage} {A : Finset ℕ}
    {io : Option ℕ} {cs : List ℕ} {R : Finset (WaitMap × ℕ)}
    (hs : stage ≠ .recorded) (hR : ∀ x ∈ R, ∃ c ∈ cs, x = (.anyWaiters, c))
    (h : Q () (.seat (p.hold stage A ∅ io) ::ₘ m)) :
    Safe b Q (removeAnyWaiterRegistration p.pid cs) (.seat (p.hold stage A R io) ::ₘ m) := by
  have heach := safe_each (b := b) (f := fun c => access (.removeWaiter .anyWaiters c p.pid))
    (R := fun cs n => ∃ R, n = .seat (p.hold stage A R io) ::ₘ m ∧
      ∀ x ∈ R, ∃ c ∈ cs, x = (.anyWaiters, c)) ?_ cs _ ⟨R, rfl, hR⟩
  · refine safe_mono ?_ heach
    rintro _ _ ⟨R', rfl, hR'⟩
    have : R' = ∅ := Finset.eq_empty_of_forall_notMem fun x hx => by
      obtain ⟨c, hc, -⟩ := hR' x hx
      cases hc
    rw [this]
    exact h
  · rintro c cs _ ⟨R', rfl, hR'⟩
    refine safe_last fun s F hinv => ?_
    rw [Multiset.cons_add] at hinv
    refine ⟨_, by rw [Multiset.cons_add]; exact hinv.removeWaiter hs, _, rfl, fun x hx => ?_⟩
    obtain ⟨hne, hx⟩ := Finset.mem_erase.mp hx
    obtain ⟨c', hc', rfl⟩ := hR' x hx
    rcases List.mem_cons.mp hc' with rfl | hc'
    · exact absurd rfl hne
    · exact ⟨c', hc', rfl⟩

theorem regsOf_waitAny {cs : List ℕ} :
    ∀ x ∈ regsOf (.waitAny cs), ∃ c ∈ cs, x = (.anyWaiters, c) := by
  intro x hx
  obtain ⟨c, hc, rfl⟩ := Finset.mem_image.mp hx
  exact ⟨c, List.mem_toFinset.mp hc, rfl⟩

/-- `cancel` of the backend. -/
theorem safe_cancelIo {Q : Unit → Tokens → Prop} {t : ℕ} (h : Q () m) :
    Safe b Q (action (.cancelIo t)) m := by
  refine wp_act (D := discipline V) (a := .cancelIo t) (f := pure) fun s F hinv =>
    ⟨trivial, fun r s' hrun => ⟨m, ?_, safe_pure h⟩⟩
  rcases hrun with rfl | rfl
  · exact hinv
  · exact Inv.setInFlight hinv fun t' ht' => .inl (Finset.mem_of_mem_erase ht')

/-- `clear_blocked_registration`. -/
theorem safe_clear {Q : Unit → Tokens → Prop} {p : Process V} {reason : BlockReason}
    (hr : p.status = .blocked reason) (h : Q () (.seat (p.held .doomed) ::ₘ m)) :
    Safe b Q (clearBlockedRegistration p)
      (.seat (p.hold .doomed ∅ (regsOf reason) (ioOf reason)) ::ₘ m) := by
  unfold clearBlockedRegistration
  rw [hr]
  cases reason with
  | await c kind =>
    refine safe_last fun s F hinv => ?_
    rw [Multiset.cons_add] at hinv
    have hremove := hinv.removeWaiter (m := .waiters) (c := c) (by simp)
    have hempty : (regsOf (.await c kind)).erase (.waiters, c) = ∅ := by simp [regsOf]
    rw [hempty] at hremove
    exact ⟨_, by rw [Multiset.cons_add]; exact hremove, h⟩
  | waitAny cs => exact safe_removeAny (by simp) regsOf_waitAny h
  | io t =>
    refine safe_access fun s F hinv => ?_
    rw [Multiset.cons_add] at hinv
    exact ⟨_, by rw [Multiset.cons_add]; exact hinv.ioWaitersClear, safe_cancelIo h⟩

end Rules

end Hiko.Threaded
