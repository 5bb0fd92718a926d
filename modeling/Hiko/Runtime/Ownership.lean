import Hiko.Runtime.Threaded

/-!
# Who holds a process

A process that is alive is in one place: in the table, or in the hands of one thread. What a thread
may do with a process, and what it still has to do for others, is written on *tokens* that the
threads hold; the shared state and all tokens together satisfy an invariant.

## Main definitions

* `Seat`: a process that is alive, as the invariant sees it, wherever it is
* `Token`: what a thread holds
* `Placed`: the processes in the table and in the hands of threads
* `Family`, `Waits`, `IoWaits`: who is whose child, who waits for whom, and who waits for I/O
* `Inv`: the invariant

## Main results

* `Places.uniq`, `Inv.live_iff`: a process is live if it is in one place, and is in no other one
* `Family.mono`, `Waits.move`, `IoWaits.move`: what a process keeps when it changes its place
-/

namespace Hiko.Threaded

variable {V : Type}

/-! ## Seats and tokens -/

/-- What is being done with a process. -/
inductive Stage where
  /-- in the table, runnable -/
  | queued
  /-- in the table, blocked -/
  | parked
  /-- in the hands of a thread that puts it back -/
  | working
  /-- in the hands of a thread that terminates it -/
  | doomed
  /-- as before, with its outcome recorded -/
  | recorded
  deriving DecidableEq

/-- A process that is alive: `targets` are the children that its thread found live, `regs` its
entries in the maps of waiters, `io` the token it waits for, `ready` whether that token is
registered, and `fresh` a child that has a pid and is not live yet. -/
@[ext] structure Seat where
  pid : ℕ
  parent : Option ℕ
  children : Finset ℕ
  stage : Stage
  targets : Finset ℕ
  regs : Finset (WaitMap × ℕ)
  io : Option ℕ
  ready : Bool
  fresh : Option ℕ

/-- The entries in the maps of waiters that a blocked process has. -/
def regsOf : BlockReason → Finset (WaitMap × ℕ)
  | .await child _ => {(.waiters, child)}
  | .waitAny children => children.toFinset.image fun child => (.anyWaiters, child)
  | .io _ => ∅

/-- The token that a blocked process waits for. -/
def ioOf : BlockReason → Option ℕ
  | .io token => some token
  | _ => none

theorem mem_regsOf {m : WaitMap} {c : ℕ} {reason : BlockReason} :
    (m, c) ∈ regsOf reason ↔ waitsFor m c reason = true := by
  cases reason with
  | await child kind =>
    simp [regsOf, waitsFor, @eq_comm ℕ c]
  | waitAny children =>
    simp only [regsOf, waitsFor, Finset.mem_image, List.mem_toFinset, Prod.mk.injEq,
      decide_eq_true_eq]
    constructor
    · rintro ⟨c', hc', rfl, rfl⟩
      exact ⟨rfl, hc'⟩
    · rintro ⟨rfl, hc⟩
      exact ⟨c, hc, rfl, rfl⟩
  | io token => simp [regsOf, waitsFor]

/-- A process with the children its thread found live, its entries in the maps of waiters and the
token it waits for. -/
def Process.hold (p : Process V) (stage : Stage) (targets : Finset ℕ)
    (regs : Finset (WaitMap × ℕ)) (io : Option ℕ) : Seat :=
  ⟨p.pid, p.parent, p.children, stage, targets, regs, io, true, none⟩

/-- A process that waits for nothing. -/
abbrev Process.held (p : Process V) (stage : Stage) : Seat := p.hold stage ∅ ∅ none

/-- A process whose new child `child` has a pid and is not live yet. -/
def Process.expecting (p : Process V) (child : ℕ) : Seat :=
  ⟨p.pid, p.parent, insert child p.children, .working, ∅, ∅, none, true, some child⟩

/-- A process whose token is not registered yet. -/
def Process.awaiting (p : Process V) (token : ℕ) : Seat :=
  ⟨p.pid, p.parent, p.children, .working, ∅, ∅, some token, false, none⟩

/-- A process in the table. -/
def Process.seat (p : Process V) : Seat :=
  match p.status with
  | .blocked reason =>
    p.hold .parked ∅ (regsOf reason) (ioOf reason)
  | _ => p.held .queued

/-- What a thread holds. -/
inductive Token where
  /-- a process -/
  | seat (x : Seat)
  /-- a process in the table is to be queued -/
  | enq (pid : ℕ)
  /-- a pid was taken from the queue -/
  | deq (pid : ℕ)
  /-- the thread parked a process with the entries `regs`, will look whether the children are live,
  and wakes the waiters of one that is not -/
  | due (m : WaitMap) (children : List ℕ) (regs : Finset (WaitMap × ℕ))
  /-- the thread wakes the waiters of `child`: all, or those of the list -/
  | wake (m : WaitMap) (child : ℕ) (waiters : Option (List ℕ))
  /-- the process `waiter` will not wait for `child` any more -/
  | stale (m : WaitMap) (child waiter : ℕ)
  /-- a request to cancel `pid` may be left over, and the thread will look for it -/
  | unpend (pid : ℕ)
  /-- the outcome of `child` may have no reader, and the thread will look whether it has -/
  | recheck (child : ℕ)
  /-- the outcome of `child` has no reader -/
  | reap (child : ℕ)
  /-- `child` has no parent -/
  | orphan (child : ℕ)
  /-- the process that waits for the token was parked -/
  | released (token : ℕ)
  /-- the thread took the registration of `pid` for the token -/
  | taking (token pid : ℕ)
  /-- the process `pid` is being terminated, or is gone -/
  | dying (pid : ℕ)
  /-- the token was given to a request of `pid` -/
  | owner (token pid : ℕ)

/-- The process of a token. -/
@[simp, reducible] def Token.seat? : Token → Option Seat
  | .seat x => some x
  | .enq _ | .deq _ | .due _ _ _ | .wake _ _ _ | .stale _ _ _ | .unpend _ | .recheck _ | .reap _
  | .orphan _ | .released _ | .taking _ _ | .dying _ | .owner _ _ => none

/-- A token that stands for the process `pid`. -/
def Token.seats (pid : ℕ) (t : Token) : Prop := ∃ x, t = .seat x ∧ x.pid = pid

/-- A token for the registration of an I/O token. -/
def Token.takes (token : ℕ) (t : Token) : Prop := ∃ w, t = .taking token w

instance (pid : ℕ) : DecidablePred (Token.seats pid) := fun t =>
  match t with
  | .seat x => decidable_of_iff (x.pid = pid) (by simp [Token.seats])
  | .enq _ | .deq _ | .due _ _ _ | .wake _ _ _ | .stale _ _ _ | .unpend _ | .recheck _ | .reap _
  | .orphan _ | .released _ | .taking _ _ | .dying _ | .owner _ _ =>
    .isFalse (by simp [Token.seats])

instance (token : ℕ) : DecidablePred (Token.takes token) := fun t =>
  match t with
  | .taking t w => decidable_of_iff (t = token) (by simp [Token.takes])
  | .enq _ | .deq _ | .due _ _ _ | .wake _ _ _ | .stale _ _ _ | .unpend _ | .recheck _ | .reap _
  | .orphan _ | .released _ | .seat _ | .dying _ | .owner _ _ => .isFalse (by simp [Token.takes])

abbrev Tokens := Multiset Token

/-- The processes that are alive, in the table and in the hands of threads. -/
def Placed (processes : ℕ → Option (Process V)) (T : Tokens) (x : Seat) : Prop :=
  (∃ p, processes x.pid = some p ∧ p.isLive = true ∧ p.seat = x) ∨ Token.seat x ∈ T

/-- The process `pid` is in the table and has not ended. -/
def InTable (processes : ℕ → Option (Process V)) (pid : ℕ) : Prop :=
  ∃ p, processes pid = some p ∧ p.isLive = true

/-- The process `pid` is a root that has ended. -/
def HasEnded (processes : ℕ → Option (Process V)) (pid : ℕ) : Prop :=
  ∃ p, processes pid = some p ∧ p.isLive = false

/-- Some thread will come to the process `x`, which waits for `child`. -/
def Covered (T : Tokens) (m : WaitMap) (child : ℕ) (x : Seat) : Prop :=
  (∃ cs, Token.due m cs x.regs ∈ T ∧ child ∈ cs) ∨ Token.wake m child none ∈ T ∨
    ∃ l, Token.wake m child (some l) ∈ T ∧ x.pid ∈ l

/-- The processes that a thread has seen, in a map of waiters or as children. -/
@[simp, reducible] def Token.named : Token → List ℕ
  | .due _ cs _ => cs
  | .wake _ _ (some l) => l
  | .stale _ _ w => [w]
  | .wake _ _ none | .seat _ | .enq _ | .deq _ | .unpend _ | .recheck _ | .reap _ | .orphan _
  | .released _ | .taking _ _ | .dying _ | .owner _ _ => []

/-- A thread has seen the process. -/
def Seen (T : Tokens) (pid : ℕ) : Prop := ∃ t ∈ T, pid ∈ t.named

/-! ## The invariant -/

section

variable (P : Seat → Prop) (live : Finset ℕ) (next : ℕ)

/-- The pid was given to a process, which is gone. -/
def Gone (pid : ℕ) : Prop := pid < next ∧ pid ∉ live ∧ ∀ x, P x → x.fresh ≠ some pid

/-- The process is being terminated, or is gone. -/
def Dying (pid : ℕ) : Prop :=
  pid < next ∧ ∀ x, P x →
    (x.pid = pid → x.stage = .doomed ∨ x.stage = .recorded) ∧ x.fresh ≠ some pid

/-- The process waits for no token but this one. -/
def OnlyIo (token pid : ℕ) : Prop :=
  ∀ x, P x → x.pid = pid → x.io = some token ∨ x.io = none

/-- A process that is parked waits for something. -/
def Waiting : Prop := ∀ x, P x → x.stage = .parked → x.regs ≠ ∅ ∨ x.io ≠ none

/-- The token belongs to a request of the process. -/
def Owned (nextToken token pid : ℕ) : Prop :=
  token < nextToken ∧ ∀ x, P x → x.io = some token → x.pid = pid

/-- The process has ended: its thread has recorded its outcome, and nothing else is left to do. -/
def Ended (pid : ℕ) : Prop :=
  pid < next ∧ ∀ x, P x →
    x.fresh ≠ some pid ∧ (x.pid = pid → x.stage = .recorded ∧ x.regs = ∅ ∧ x.targets = ∅)

/-- Parents, children and the outcomes of children. -/
structure Family (tombstones : ℕ → Option ChildRecord) (owed lost : ℕ → Prop) : Prop where
  pos : ∀ x, P x → x.pid < next
  child_lt : ∀ x, P x → ∀ c ∈ x.children, x.pid < c ∧ c < next
  parent_of : ∀ x, P x → ∀ y, P y → y.pid ∈ x.children → y.parent = some x.pid
  child_of : ∀ x, P x → ∀ y, P y → y.parent = some x.pid → y.pid ∈ x.children
  disjoint : ∀ x, P x → ∀ y, P y → ∀ c ∈ x.children, c ∈ y.children → x.pid = y.pid
  parent_lt : ∀ x, P x → ∀ a, x.parent = some a → a < next
  fresh : ∀ x, P x → ∀ c, x.fresh = some c → c ∈ x.children ∧ c ∉ live ∧ tombstones c = none
  fresh_parent : ∀ x, P x → ∀ c, x.fresh = some c → ∀ y, P y → y.parent ≠ some c
  fresh_tomb : ∀ x, P x → ∀ c, x.fresh = some c → ∀ c' r, tombstones c' = some r → r.parent ≠ c
  kids : ∀ x, P x → ∀ c ∈ x.children,
    c ∈ live ∨ x.fresh = some c ∨ (tombstones c).isSome = true
  tomb_lt : ∀ c r, tombstones c = some r → c < next ∧ r.parent < next
  tomb_owner : ∀ c r, tombstones c = some r → ∀ x, P x → c ∈ x.children → r.parent = x.pid
  tomb_kid : ∀ c r, tombstones c = some r → ∀ x, P x → r.parent = x.pid → c ∈ x.children
  tomb_parent : ∀ c r, tombstones c = some r → r.parent ∈ live ∨ owed c
  recorded : ∀ y, P y → y.stage = .recorded → ∀ x, P x → y.parent = some x.pid →
    (tombstones y.pid).isSome = true
  reaped : ∀ c, lost c → c < next ∧ ∀ x, P x → c ∉ x.children

/-- The maps of waiters, and the wakeups that are owed. -/
structure Waits (waiters : WaitMap → ℕ → List ℕ) (covered : WaitMap → ℕ → Seat → Prop)
    (woken : WaitMap → ℕ → Prop) (stale : WaitMap → ℕ → ℕ → Prop) (seen : ℕ → Prop) : Prop where
  reg : ∀ m c w, w ∈ waiters m c ↔ ∃ x, P x ∧ x.pid = w ∧ (m, c) ∈ x.regs
  reg_kid : ∀ x, P x → ∀ m c, (m, c) ∈ x.regs → c ∈ x.children
  target_kid : ∀ x, P x → ∀ c ∈ x.targets, c ∈ x.children
  cover : ∀ x, P x → x.stage = .parked → ∀ m c, (m, c) ∈ x.regs → c ∉ live →
    ∃ c', (m, c') ∈ x.regs ∧ c' ∉ live ∧ covered m c' x
  gone : ∀ m c, woken m c → Gone P live next c
  stale_gone : ∀ m c w, stale m c w → Gone P live next c
  stale_off : ∀ m c w, stale m c w → ∀ x, P x → x.pid = w → (m, c) ∉ x.regs ∧ c ∉ x.targets
  born : ∀ w, seen w → w < next ∧ ∀ x, P x → x.fresh ≠ some w

/-- The processes that wait for I/O. -/
structure IoWaits (ioWaiters : ℕ → Option ℕ) (inFlight : Finset ℕ) (nextToken : ℕ)
    (released : ℕ → Prop) (taking : ℕ → ℕ → Prop) (takes : ℕ → ℕ) (dying : ℕ → Prop) :
    Prop where
  reg : ∀ t w, ioWaiters t = some w → ∃ x, P x ∧ x.pid = w ∧ x.io = some t
  parked : ∀ x, P x → x.stage = .parked → ∀ t, x.io = some t →
    ioWaiters t = some x.pid ∨ taking t x.pid
  working : ∀ x, P x → x.stage = .working → ∀ t, x.io = some t →
    ioWaiters t = (if x.ready then some x.pid else none) ∧ t ∉ inFlight ∧ ¬ released t ∧
      ∀ w, ¬ taking t w
  unique : ∀ x, P x → ∀ y, P y → ∀ t, x.io = some t → y.io = some t → x.pid = y.pid
  taken : ∀ t w, taking t w → ioWaiters t = none
  taker : ∀ t w, taking t w →
    (∃ x, P x ∧ x.pid = w ∧ x.stage = .parked ∧ x.io = some t) ∨
      Dying P next w ∧ OnlyIo P t w
  dead : ∀ w, dying w → Dying P next w ∧ ∀ t, ioWaiters t ≠ some w
  one : ∀ t, takes t ≤ 1
  flight_lt : ∀ t ∈ inFlight, t < nextToken
  released_lt : ∀ t, released t → t < nextToken
  taking_lt : ∀ t w, taking t w → t < nextToken
  seat_lt : ∀ x, P x → ∀ t, x.io = some t → t < nextToken

end

/-- A process that is alive is in the table or has one token, and only roots stay in the table when
they end. -/
structure Places (processes : ℕ → Option (Process V)) (live : Finset ℕ) (T : Tokens) : Prop where
  key : ∀ k p, processes k = some p → p.pid = k
  table : ∀ k, InTable processes k → k ∈ live ∧ T.countP (Token.seats k) = 0
  hands : ∀ k, ¬ InTable processes k → T.countP (Token.seats k) = if k ∈ live then 1 else 0
  hand : ∀ x, Token.seat x ∈ T → x.stage ≠ .queued ∧ x.stage ≠ .parked
  root : ∀ k p, processes k = some p → p.isLive = false → p.parent = none

/-- The invariant of the shared state and of all tokens. -/
structure Inv (s : Shared V) (T : Tokens) : Prop where
  places : Places s.processes s.live T
  family : Family (Placed s.processes T) s.live s.nextPid s.tombstones
    (fun c => Token.recheck c ∈ T ∨ Token.reap c ∈ T)
    (fun c => Token.reap c ∈ T ∨ Token.orphan c ∈ T)
  waits : Waits (Placed s.processes T) s.live s.nextPid s.waiters (Covered T)
    (fun m c => ∃ l, Token.wake m c l ∈ T) (fun m c w => Token.stale m c w ∈ T) (Seen T)
  io : IoWaits (Placed s.processes T) s.nextPid s.ioWaiters s.inFlight s.nextIoToken
    (fun t => Token.released t ∈ T) (fun t w => Token.taking t w ∈ T)
    (fun t => T.countP (Token.takes t)) (fun w => Token.dying w ∈ T)
  queue : ∀ x, Placed s.processes T x → x.stage = .queued →
    x.pid ∈ s.queue ∨ Token.enq x.pid ∈ T ∨ Token.deq x.pid ∈ T
  pending : ∀ pid ∈ s.pendingCancels, pid ∈ s.live ∨ Token.unpend pid ∈ T
  ended : ∀ pid, HasEnded s.processes pid → Ended (Placed s.processes T) s.nextPid pid
  owned : ∀ t w, Token.owner t w ∈ T → Owned (Placed s.processes T) s.nextIoToken t w
  waiting : Waiting (Placed s.processes T)

/-! ## Places -/

@[simp] theorem Process.hold_pid (p : Process V) (stage : Stage) (targets : Finset ℕ)
    (regs : Finset (WaitMap × ℕ)) (io : Option ℕ) :
    (p.hold stage targets regs io).pid = p.pid := rfl

@[simp] theorem Process.seat_pid (p : Process V) : p.seat.pid = p.pid := by
  unfold Process.seat
  split <;> rfl

@[simp] theorem Process.seat_parent (p : Process V) : p.seat.parent = p.parent := by
  unfold Process.seat
  split <;> rfl

@[simp] theorem Process.seat_children (p : Process V) : p.seat.children = p.children := by
  unfold Process.seat
  split <;> rfl

@[simp] theorem Process.seat_fresh (p : Process V) : p.seat.fresh = none := by
  unfold Process.seat
  split <;> rfl

@[simp] theorem Process.seat_targets (p : Process V) : p.seat.targets = ∅ := by
  unfold Process.seat
  split <;> rfl

theorem Process.seat_stage (p : Process V) : p.seat.stage ≠ .recorded := by
  unfold Process.seat
  split <;> simp [Process.hold]

theorem Process.seat_runnable (p : Process V) (h : p.status = .runnable) :
    p.seat = p.held .queued := by
  simp [Process.seat, h]

theorem Process.seat_blocked (p : Process V) {reason : BlockReason}
    (h : p.status = .blocked reason) :
    p.seat = p.hold .parked ∅ (regsOf reason) (ioOf reason) := by
  simp [Process.seat, h]

theorem HasEnded.of_take {processes : ℕ → Option (Process V)} {pid k : ℕ}
    (h : HasEnded (Function.update processes pid none) k) : HasEnded processes k := by
  obtain ⟨q, hq, hl⟩ := h
  by_cases hk : k = pid
  · simp [hk] at hq
  · exact ⟨q, by rwa [Function.update_of_ne hk] at hq, hl⟩

theorem HasEnded.of_put {processes : ℕ → Option (Process V)} {p : Process V} {k : ℕ}
    (hp : p.isLive = true) (h : HasEnded (Function.update processes p.pid (some p)) k) :
    HasEnded processes k ∧ k ≠ p.pid := by
  obtain ⟨q, hq, hl⟩ := h
  by_cases hk : k = p.pid
  · subst hk
    simp only [Function.update_self, Option.some.injEq] at hq
    rw [← hq, hp] at hl
    cases hl
  · exact ⟨⟨q, by rwa [Function.update_of_ne hk] at hq, hl⟩, hk⟩

variable {s : Shared V} {T F : Tokens} {x y : Seat}

/-- A token that owes a wakeup. -/
@[simp, reducible] def Token.owes : Token → Bool
  | .due _ _ _ | .wake _ _ _ => true
  | .seat _ | .enq _ | .deq _ | .stale _ _ _ | .unpend _ | .recheck _ | .reap _ | .orphan _
  | .released _ | .taking _ _ | .dying _ | .owner _ _ => false

/-- A token for the registration of an I/O token. -/
@[simp, reducible] def Token.isTaking : Token → Bool
  | .taking _ _ => true
  | .seat _ | .enq _ | .deq _ | .due _ _ _ | .wake _ _ _ | .stale _ _ _ | .unpend _ | .recheck _
  | .reap _ | .orphan _ | .released _ | .dying _ | .owner _ _ => false

@[simp] theorem covered_cons {t : Token} (ht : t.owes = false) :
    Covered (t ::ₘ T) = Covered T := by
  have hdue : ∀ m cs R, Token.due m cs R ≠ t := by
    rintro m cs R rfl
    simp at ht
  have hwake : ∀ m c l, Token.wake m c l ≠ t := by
    rintro m c l rfl
    simp at ht
  funext m c x
  simp [Covered, hdue, hwake]

theorem seen_cons_iff {t : Token} {pid : ℕ} : Seen (t ::ₘ T) pid ↔ pid ∈ t.named ∨ Seen T pid := by
  simp [Seen]

@[simp] theorem seen_cons {t : Token} (ht : t.named = []) : Seen (t ::ₘ T) = Seen T := by
  funext w
  simp [seen_cons_iff, ht]

@[simp] theorem countP_takes_cons (token : ℕ) {t : Token} (ht : t.isTaking = false) :
    (t ::ₘ T).countP (Token.takes token) = T.countP (Token.takes token) := by
  refine Multiset.countP_cons_of_neg T ?_
  rintro ⟨w, rfl⟩
  simp at ht

@[simp] theorem countP_takes_taking (token t w : ℕ) :
    (Token.taking t w ::ₘ T).countP (Token.takes token) =
      T.countP (Token.takes token) + if t = token then 1 else 0 := by
  simp [Multiset.countP_cons, Token.takes]

@[simp] theorem placed_cons {processes : ℕ → Option (Process V)} {t : Token}
    (ht : t.seat? = none) : Placed processes (t ::ₘ T) = Placed processes T := by
  funext x
  have : Token.seat x ≠ t := by
    rintro rfl
    simp at ht
  simp [Placed, this]

theorem seats_seat {pid : ℕ} : Token.seats pid (.seat x) ↔ x.pid = pid := by
  simp [Token.seats]

@[simp] theorem countP_seats_cons (pid : ℕ) {t : Token} (ht : t.seat? = none) :
    (t ::ₘ T).countP (Token.seats pid) = T.countP (Token.seats pid) := by
  refine Multiset.countP_cons_of_neg T ?_
  rintro ⟨x, rfl, -⟩
  simp at ht

@[simp] theorem countP_seats_seat {pid : ℕ} :
    (Token.seat x ::ₘ T).countP (Token.seats pid) =
      T.countP (Token.seats pid) + if x.pid = pid then 1 else 0 := by
  simp [Multiset.countP_cons, seats_seat]

theorem countP_seats_pos {pid : ℕ} (h : 0 < T.countP (Token.seats pid)) :
    ∃ x, Token.seat x ∈ T ∧ x.pid = pid := by
  obtain ⟨_, ht, x, rfl, hx⟩ := Multiset.countP_pos.mp h
  exact ⟨x, ht, hx⟩

theorem countP_seats_of_mem (hx : Token.seat x ∈ T) : 0 < T.countP (Token.seats x.pid) :=
  Multiset.countP_pos.mpr ⟨_, hx, x, rfl, rfl⟩

theorem placed_of_table {processes : ℕ → Option (Process V)} {p : Process V}
    (hp : processes p.pid = some p) (hl : p.isLive = true) : Placed processes T p.seat :=
  .inl ⟨p, by rwa [p.seat_pid], hl, rfl⟩

@[simp] theorem places_cons {processes : ℕ → Option (Process V)} {live : Finset ℕ} {t : Token}
    (ht : t.seat? = none) : Places processes live (t ::ₘ T) ↔ Places processes live T := by
  have hmem : ∀ x, Token.seat x ∈ t ::ₘ T ↔ Token.seat x ∈ T := fun x => by
    have : Token.seat x ≠ t := by
      rintro rfl
      simp at ht
    simp [this]
  have hcount : ∀ k, (t ::ₘ T).countP (Token.seats k) = T.countP (Token.seats k) :=
    fun k => countP_seats_cons k ht
  constructor
  · intro h
    exact ⟨h.key, fun k hk => (hcount k) ▸ h.table k hk, fun k hk => (hcount k) ▸ h.hands k hk,
      fun x hx => h.hand x ((hmem x).mpr hx), h.root⟩
  · intro h
    exact ⟨h.key, fun k hk => (hcount k).symm ▸ h.table k hk,
      fun k hk => (hcount k).symm ▸ h.hands k hk, fun x hx => h.hand x ((hmem x).mp hx), h.root⟩

namespace Places

variable {processes : ℕ → Option (Process V)} {live : Finset ℕ}

/-- A process that is placed is live. -/
theorem live_of_placed (h : Places processes live T) (hx : Placed processes T x) :
    x.pid ∈ live := by
  rcases hx with ⟨p, hp, hl, -⟩ | hx
  · exact (h.table x.pid ⟨p, hp, hl⟩).1
  · have hpos := countP_seats_of_mem hx
    by_cases ht : InTable processes x.pid
    · exact (h.table x.pid ht).1
    · rw [h.hands x.pid ht] at hpos
      by_contra hlive
      simp [hlive] at hpos

theorem placed_of_live (h : Places processes live T) {pid : ℕ} (hlive : pid ∈ live) :
    ∃ x, Placed processes T x ∧ x.pid = pid := by
  by_cases ht : InTable processes pid
  · obtain ⟨p, hp, hl⟩ := ht
    have hpid := h.key pid p hp
    subst hpid
    exact ⟨p.seat, placed_of_table hp hl, p.seat_pid⟩
  · have hcount := h.hands pid ht
    rw [if_pos hlive] at hcount
    obtain ⟨x, hx, hpid⟩ := countP_seats_pos (show 0 < T.countP (Token.seats pid) by omega)
    exact ⟨x, .inr hx, hpid⟩

/-- The process of a token is not in the table. -/
theorem not_inTable (h : Places processes live T) (hx : Token.seat x ∈ T) :
    ¬ InTable processes x.pid := by
  intro ht
  have := (h.table x.pid ht).2
  have := countP_seats_of_mem hx
  omega

/-- The process of a token has no other token. -/
theorem seat_only (h : Places processes live (.seat x ::ₘ F)) (hy : Token.seat y ∈ F) :
    y.pid ≠ x.pid := by
  intro hpid
  have hmem : Token.seat x ∈ Token.seat x ::ₘ F := Multiset.mem_cons_self _ _
  have hcount := h.hands x.pid (h.not_inTable hmem)
  have hpos := countP_seats_of_mem hy
  rw [if_pos (h.live_of_placed (.inr hmem)), countP_seats_seat, if_pos rfl] at hcount
  rw [hpid] at hpos
  omega

/-- A process is placed once. -/
theorem uniq (h : Places processes live T) (hx : Placed processes T x) (hy : Placed processes T y)
    (hpid : x.pid = y.pid) : x = y := by
  rcases hx with ⟨p, hp, hl, rfl⟩ | hx
  · rcases hy with ⟨q, hq, -, rfl⟩ | hy
    · rw [hpid, hq] at hp
      cases hp
      rfl
    · rw [hpid] at hp
      exact absurd ⟨p, hp, hl⟩ (h.not_inTable hy)
  · rcases hy with ⟨q, hq, hl, rfl⟩ | hy
    · rw [← hpid] at hq
      exact absurd ⟨q, hq, hl⟩ (h.not_inTable hx)
    · obtain ⟨F, rfl⟩ := Multiset.exists_cons_of_mem hx
      rcases Multiset.mem_cons.mp hy with hxy | hy
      · cases hxy
        rfl
      · exact absurd hpid.symm (h.seat_only hy)

end Places

/-- A process is live if it is in some place. -/
theorem Inv.live_iff (h : Inv s T) (pid : ℕ) :
    pid ∈ s.live ↔ ∃ x, Placed s.processes T x ∧ x.pid = pid :=
  ⟨h.places.placed_of_live, fun hx => hx.elim fun _ hx => hx.2 ▸ h.places.live_of_placed hx.1⟩

/-! ## Moves -/

/-- A process has changed its place or its seat. -/
def Move (P : Seat → Prop) (x' : Seat) (y : Seat) : Prop := y = x' ∨ (P y ∧ y.pid ≠ x'.pid)

namespace Places

variable {processes : ℕ → Option (Process V)} {live : Finset ℕ} {p : Process V}

/-- A process taken from the table. -/
theorem placed_take (h : Places processes live T) (hp : processes p.pid = some p)
    (hl : p.isLive = true) (hpid : x.pid = p.pid) :
    Placed (Function.update processes p.pid none) (.seat x ::ₘ T) =
      Move (Placed processes T) x := by
  funext y
  have hno : ∀ y, Token.seat y ∈ T → y.pid ≠ p.pid := fun y hy he =>
    h.not_inTable hy (by rw [he]; exact ⟨p, hp, hl⟩)
  refine propext ⟨?_, ?_⟩
  · rintro (⟨q, hq, hql, rfl⟩ | hy)
    · by_cases he : q.seat.pid = p.pid
      · rw [he, Function.update_self] at hq
        cases hq
      · rw [Function.update_of_ne he] at hq
        exact .inr ⟨.inl ⟨q, hq, hql, rfl⟩, by rwa [hpid]⟩
    · rcases Multiset.mem_cons.mp hy with hy | hy
      · cases hy
        exact .inl rfl
      · exact .inr ⟨.inr hy, by rw [hpid]; exact hno y hy⟩
  · rintro (rfl | ⟨⟨q, hq, hql, rfl⟩ | hy, hne⟩)
    · exact .inr (Multiset.mem_cons_self _ _)
    · rw [hpid] at hne
      exact .inl ⟨q, by rwa [Function.update_of_ne hne], hql, rfl⟩
    · exact .inr (Multiset.mem_cons_of_mem hy)

theorem take (h : Places processes live T) (hp : processes p.pid = some p) (hl : p.isLive = true)
    (hpid : x.pid = p.pid) (hs : x.stage ≠ .queued ∧ x.stage ≠ .parked) :
    Places (Function.update processes p.pid none) live (.seat x ::ₘ T) where
  key k q hq := by
    by_cases hk : k = p.pid
    · simp [hk] at hq
    · exact h.key k q (by rwa [Function.update_of_ne hk] at hq)
  table k hk := by
    obtain ⟨q, hq, hql⟩ := hk
    by_cases hkp : k = p.pid
    · simp [hkp] at hq
    · rw [Function.update_of_ne hkp] at hq
      rw [countP_seats_seat, hpid, if_neg (Ne.symm hkp)]
      exact h.table k ⟨q, hq, hql⟩
  hands k hk := by
    by_cases hkp : k = p.pid
    · subst hkp
      have ht := h.table p.pid ⟨p, hp, hl⟩
      rw [countP_seats_seat, if_pos hpid, ht.2, if_pos ht.1]
    · rw [countP_seats_seat, hpid, if_neg (Ne.symm hkp)]
      refine h.hands k fun ht => hk ?_
      rwa [InTable, Function.update_of_ne hkp]
  hand y hy := by
    rcases Multiset.mem_cons.mp hy with hy | hy
    · cases hy
      exact hs
    · exact h.hand y hy
  root k q hq := by
    by_cases hk : k = p.pid
    · simp [hk] at hq
    · exact h.root k q (by rwa [Function.update_of_ne hk] at hq)

/-- A process put back into the table. -/
theorem placed_put (h : Places processes live (.seat x ::ₘ F)) (hpid : p.pid = x.pid)
    (hl : p.isLive = true) :
    Placed (Function.update processes p.pid (some p)) F =
      Move (Placed processes (.seat x ::ₘ F)) p.seat := by
  funext y
  refine propext ⟨?_, ?_⟩
  · rintro (⟨q, hq, hql, rfl⟩ | hy)
    · by_cases he : q.seat.pid = p.pid
      · rw [he, Function.update_self] at hq
        cases hq
        exact .inl rfl
      · rw [Function.update_of_ne he] at hq
        exact .inr ⟨.inl ⟨q, hq, hql, rfl⟩, by rwa [p.seat_pid]⟩
    · exact .inr ⟨.inr (Multiset.mem_cons_of_mem hy), by
        rw [p.seat_pid, hpid]
        exact h.seat_only hy⟩
  · rintro (rfl | ⟨⟨q, hq, hql, rfl⟩ | hy, hne⟩)
    · exact .inl ⟨p, by rw [p.seat_pid, Function.update_self], hl, rfl⟩
    · rw [p.seat_pid] at hne
      exact .inl ⟨q, by rwa [Function.update_of_ne hne], hql, rfl⟩
    · rcases Multiset.mem_cons.mp hy with hy | hy
      · cases hy
        rw [p.seat_pid, hpid] at hne
        exact absurd rfl hne
      · exact .inr hy

theorem put (h : Places processes live (.seat x ::ₘ F)) (hpid : p.pid = x.pid)
    (hl : p.isLive = true) : Places (Function.update processes p.pid (some p)) live F where
  key k q hq := by
    by_cases hk : k = p.pid
    · subst hk
      simp only [Function.update_self, Option.some.injEq] at hq
      exact hq ▸ rfl
    · exact h.key k q (by rwa [Function.update_of_ne hk] at hq)
  table k hk := by
    have hmem : Token.seat x ∈ Token.seat x ::ₘ F := Multiset.mem_cons_self _ _
    by_cases hkp : k = p.pid
    · have hcount := h.hands x.pid (h.not_inTable hmem)
      rw [if_pos (h.live_of_placed (.inr hmem)), countP_seats_seat, if_pos rfl] at hcount
      rw [hkp, hpid]
      exact ⟨h.live_of_placed (.inr hmem), by omega⟩
    · obtain ⟨q, hq, hql⟩ := hk
      rw [Function.update_of_ne hkp] at hq
      have := h.table k ⟨q, hq, hql⟩
      rwa [countP_seats_seat, ← hpid, if_neg (Ne.symm hkp)] at this
  hands k hk := by
    have hkp : k ≠ p.pid := fun hkp => hk ⟨p, by rw [hkp, Function.update_self], hl⟩
    have := h.hands k fun ht => hk (by rwa [InTable, Function.update_of_ne hkp])
    rwa [countP_seats_seat, ← hpid, if_neg (Ne.symm hkp)] at this
  hand y hy := h.hand y (Multiset.mem_cons_of_mem hy)
  root k q hq hql := by
    by_cases hk : k = p.pid
    · subst hk
      simp only [Function.update_self, Option.some.injEq] at hq
      rw [← hq, hl] at hql
      cases hql
    · exact h.root k q (by rwa [Function.update_of_ne hk] at hq) hql

/-- A process that stays in the hands of its thread. -/
theorem placed_swap (h : Places processes live (.seat x ::ₘ F)) (hpid : y.pid = x.pid) :
    Placed processes (.seat y ::ₘ F) = Move (Placed processes (.seat x ::ₘ F)) y := by
  funext z
  refine propext ⟨?_, ?_⟩
  · rintro (⟨q, hq, hql, rfl⟩ | hz)
    · refine .inr ⟨.inl ⟨q, hq, hql, rfl⟩, fun he => ?_⟩
      rw [he, hpid] at hq
      exact h.not_inTable (Multiset.mem_cons_self _ _) ⟨q, hq, hql⟩
    · rcases Multiset.mem_cons.mp hz with hz | hz
      · cases hz
        exact .inl rfl
      · exact .inr ⟨.inr (Multiset.mem_cons_of_mem hz), by rw [hpid]; exact h.seat_only hz⟩
  · rintro (rfl | ⟨⟨q, hq, hql, rfl⟩ | hz, hne⟩)
    · exact .inr (Multiset.mem_cons_self _ _)
    · exact .inl ⟨q, hq, hql, rfl⟩
    · rcases Multiset.mem_cons.mp hz with hz | hz
      · cases hz
        exact absurd hpid.symm hne
      · exact .inr (Multiset.mem_cons_of_mem hz)

theorem swap (h : Places processes live (.seat x ::ₘ F)) (hpid : y.pid = x.pid)
    (hs : y.stage ≠ .queued ∧ y.stage ≠ .parked) : Places processes live (.seat y ::ₘ F) where
  key := h.key
  table k hk := by
    have := h.table k hk
    rwa [countP_seats_seat, ← hpid, ← countP_seats_seat] at this
  hands k hk := by
    have := h.hands k hk
    rwa [countP_seats_seat, ← hpid, ← countP_seats_seat] at this
  hand z hz := by
    rcases Multiset.mem_cons.mp hz with hz | hz
    · cases hz
      exact hs
    · exact h.hand z (Multiset.mem_cons_of_mem hz)
  root := h.root

end Places

/-! ## What a move keeps -/

section Move

variable {P : Seat → Prop} {live : Finset ℕ} {next : ℕ} {x' : Seat}

/-- The seats after a move come from those before it. -/
theorem Move.from {R : Seat → Seat → Prop} (hR : ∀ y, R y y) (hx : P x) (hxx : R x x')
    (hy : Move P x' y) : ∃ z, P z ∧ R z y := by
  rcases hy with rfl | ⟨hy, -⟩
  · exact ⟨x, hx, hxx⟩
  · exact ⟨y, hy, hR y⟩

/-- The same process with the same family. -/
structure Kin (x y : Seat) : Prop where
  pid : x.pid = y.pid
  parent : x.parent = y.parent
  children : x.children = y.children
  fresh : x.fresh = y.fresh
  recorded : y.stage = .recorded → x.stage = .recorded ∨ y.parent = none

theorem Kin.refl (x : Seat) : Kin x x := ⟨rfl, rfl, rfl, rfl, .inl⟩

theorem Family.mono {Q : Seat → Prop} {tombstones : ℕ → Option ChildRecord} {owed lost : ℕ → Prop}
    (h : Family P live next tombstones owed lost) (hQ : ∀ y, Q y → ∃ x, P x ∧ Kin x y) :
    Family Q live next tombstones owed lost where
  pos y hy := by
    obtain ⟨x, hx, k⟩ := hQ y hy
    exact k.pid ▸ h.pos x hx
  child_lt y hy c hc := by
    obtain ⟨x, hx, k⟩ := hQ y hy
    exact k.pid ▸ h.child_lt x hx c (k.children ▸ hc)
  parent_of y hy z hz hc := by
    obtain ⟨x, hx, k⟩ := hQ y hy
    obtain ⟨w, hw, l⟩ := hQ z hz
    rw [← l.parent, ← k.pid]
    refine h.parent_of x hx w hw ?_
    rw [k.children, l.pid]
    exact hc
  child_of y hy z hz hp := by
    obtain ⟨x, hx, k⟩ := hQ y hy
    obtain ⟨w, hw, l⟩ := hQ z hz
    rw [← l.pid, ← k.children]
    refine h.child_of x hx w hw ?_
    rw [k.pid, l.parent]
    exact hp
  disjoint y hy z hz c hcy hcz := by
    obtain ⟨x, hx, k⟩ := hQ y hy
    obtain ⟨w, hw, l⟩ := hQ z hz
    rw [← k.pid, ← l.pid]
    exact h.disjoint x hx w hw c (k.children ▸ hcy) (l.children ▸ hcz)
  fresh y hy c hc := by
    obtain ⟨x, hx, k⟩ := hQ y hy
    rw [← k.children]
    exact h.fresh x hx c (k.fresh ▸ hc)
  parent_lt y hy a ha := by
    obtain ⟨x, hx, k⟩ := hQ y hy
    exact h.parent_lt x hx a (k.parent.trans ha)
  fresh_parent y hy c hc z hz := by
    obtain ⟨x, hx, k⟩ := hQ y hy
    obtain ⟨w, hw, l⟩ := hQ z hz
    rw [← l.parent]
    exact h.fresh_parent x hx c (k.fresh.trans hc) w hw
  fresh_tomb y hy c hc := by
    obtain ⟨x, hx, k⟩ := hQ y hy
    exact h.fresh_tomb x hx c (k.fresh.trans hc)
  kids y hy c hc := by
    obtain ⟨x, hx, k⟩ := hQ y hy
    rw [← k.fresh]
    exact h.kids x hx c (k.children ▸ hc)
  tomb_lt := h.tomb_lt
  tomb_owner c r hr y hy hc := by
    obtain ⟨x, hx, k⟩ := hQ y hy
    rw [← k.pid]
    exact h.tomb_owner c r hr x hx (k.children ▸ hc)
  tomb_kid c r hr y hy hp := by
    obtain ⟨x, hx, k⟩ := hQ y hy
    rw [← k.children]
    exact h.tomb_kid c r hr x hx (k.pid ▸ hp)
  tomb_parent := h.tomb_parent
  recorded y hy hs z hz hp := by
    obtain ⟨x, hx, k⟩ := hQ y hy
    obtain ⟨w, hw, l⟩ := hQ z hz
    rcases k.recorded hs with hs' | hroot
    · rw [← k.pid]
      refine h.recorded x hx hs' w hw ?_
      rw [k.parent, l.pid]
      exact hp
    · rw [hroot] at hp
      cases hp
  reaped c hc := by
    refine ⟨(h.reaped c hc).1, fun y hy => ?_⟩
    obtain ⟨x, hx, k⟩ := hQ y hy
    rw [← k.children]
    exact (h.reaped c hc).2 x hx

theorem Gone.mono {Q : Seat → Prop} {pid : ℕ} (h : Gone P live next pid)
    (hQ : ∀ y, Q y → ∃ x, P x ∧ x.fresh = y.fresh) : Gone Q live next pid := by
  refine ⟨h.1, h.2.1, fun y hy => ?_⟩
  obtain ⟨x, hx, hf⟩ := hQ y hy
  rw [← hf]
  exact h.2.2 x hx

theorem Ended.mono {Q : Seat → Prop} {pid : ℕ} (h : Ended P next pid) (hQ : ∀ y, Q y → P y) :
    Ended Q next pid :=
  ⟨h.1, fun y hy => h.2 y (hQ y hy)⟩

/-- A process that has not ended moves. -/
theorem Ended.move {pid : ℕ} (h : Ended P next pid) (hx : P x) (hpid : x.pid = x'.pid)
    (hfresh : x.fresh = x'.fresh) (hs : x'.pid = pid → x.stage ≠ .recorded) :
    Ended (Move P x') next pid := by
  refine ⟨h.1, ?_⟩
  rintro y (rfl | ⟨hy, -⟩)
  · exact ⟨hfresh ▸ (h.2 x hx).1, fun he => absurd ((h.2 x hx).2 (hpid.trans he)).1 (hs he)⟩
  · exact h.2 y hy

theorem Waiting.mono {Q : Seat → Prop} (h : Waiting P) (hQ : ∀ y, Q y → P y) : Waiting Q :=
  fun y hy => h y (hQ y hy)

theorem Waiting.move (h : Waiting P) (hx : x'.stage = .parked → x'.regs ≠ ∅ ∨ x'.io ≠ none) :
    Waiting (Move P x') := by
  rintro y (rfl | ⟨hy, -⟩)
  · exact hx
  · exact h y hy

theorem Owned.mono {Q : Seat → Prop} {nextToken t w : ℕ} (h : Owned P nextToken t w)
    (hQ : ∀ y, Q y → P y) : Owned Q nextToken t w :=
  ⟨h.1, fun y hy => h.2 y (hQ y hy)⟩

theorem Owned.move {nextToken t w : ℕ} (h : Owned P nextToken t w) (hx : P x)
    (hpid : x.pid = x'.pid) (hio : x'.io = x.io ∨ x'.io = none) :
    Owned (Move P x') nextToken t w := by
  refine ⟨h.1, ?_⟩
  rintro y (rfl | ⟨hy, -⟩) ht
  · rcases hio with hio | hio
    · rw [← hpid]
      exact h.2 x hx (hio ▸ ht)
    · rw [hio] at ht
      cases ht
  · exact h.2 y hy ht

/-- The same process with the same entries in the maps of waiters, which may lose children that it
does not wait for. -/
structure Entry (x y : Seat) : Prop where
  pid : x.pid = y.pid
  kids : ∀ c ∈ x.children, c ∈ y.children ∨ c ∉ y.targets ∧ ∀ m, (m, c) ∉ y.regs
  fresh : x.fresh = y.fresh
  regs : x.regs = y.regs
  targets : y.targets ⊆ x.targets

theorem Entry.refl (x : Seat) : Entry x x :=
  ⟨rfl, fun _ hc => .inl hc, rfl, rfl, Finset.Subset.refl _⟩

/-- The maps of waiters after a move, where the waiters stay and what is owed to a process that was
parked is owed to it. -/
theorem Waits.move {waiters : WaitMap → ℕ → List ℕ} {covered : WaitMap → ℕ → Seat → Prop}
    {woken : WaitMap → ℕ → Prop} {stale : WaitMap → ℕ → ℕ → Prop} {seen : ℕ → Prop}
    (h : Waits P live next waiters covered woken stale seen) (hx : P x)
    (huniq : ∀ y, P y → y.pid = x.pid → y = x) (k : Entry x x')
    (hcover : x'.stage = .parked → ∀ m c, (m, c) ∈ x'.regs → c ∉ live → covered m c x') :
    Waits (Move P x') live next waiters covered woken stale seen where
  reg m c w := by
    rw [h.reg]
    constructor
    · rintro ⟨y, hy, hw, hr⟩
      by_cases he : y.pid = x'.pid
      · have := huniq y hy (he.trans k.pid.symm)
        subst this
        exact ⟨x', .inl rfl, he.symm.trans hw, k.regs ▸ hr⟩
      · exact ⟨y, .inr ⟨hy, he⟩, hw, hr⟩
    · rintro ⟨y, rfl | ⟨hy, -⟩, hw, hr⟩
      · exact ⟨x, hx, k.pid.trans hw, k.regs ▸ hr⟩
      · exact ⟨y, hy, hw, hr⟩
  reg_kid y hy m c hr := by
    obtain ⟨z, hz, l⟩ := Move.from Entry.refl hx k hy
    rcases l.kids c (h.reg_kid z hz m c (l.regs ▸ hr)) with hc | hc
    · exact hc
    · exact absurd hr (hc.2 m)
  target_kid y hy c hc := by
    obtain ⟨z, hz, l⟩ := Move.from Entry.refl hx k hy
    rcases l.kids c (h.target_kid z hz c (l.targets hc)) with hc' | hc'
    · exact hc'
    · exact absurd hc hc'.1
  cover y hy hs m c hr hc := by
    rcases hy with rfl | ⟨hy, -⟩
    · exact ⟨c, hr, hc, hcover hs m c hr hc⟩
    · exact h.cover y hy hs m c hr hc
  gone m c hw := (h.gone m c hw).mono fun y hy => by
    obtain ⟨z, hz, l⟩ := Move.from Entry.refl hx k hy
    exact ⟨z, hz, l.fresh⟩
  stale_gone m c w hw := (h.stale_gone m c w hw).mono fun y hy => by
    obtain ⟨z, hz, l⟩ := Move.from Entry.refl hx k hy
    exact ⟨z, hz, l.fresh⟩
  stale_off m c w hw y hy hp := by
    obtain ⟨z, hz, l⟩ := Move.from Entry.refl hx k hy
    have := h.stale_off m c w hw z hz (l.pid.trans hp)
    exact ⟨l.regs ▸ this.1, fun hc => this.2 (l.targets hc)⟩
  born w hw := by
    refine ⟨(h.born w hw).1, fun y hy => ?_⟩
    obtain ⟨z, hz, l⟩ := Move.from Entry.refl hx k hy
    rw [← l.fresh]
    exact (h.born w hw).2 z hz

/-- The same process with the same I/O token, or without it. -/
structure Port (x y : Seat) : Prop where
  pid : x.pid = y.pid
  fresh : x.fresh = y.fresh
  io : y.io = x.io ∨ y.io = none
  doomed : x.stage = .doomed ∨ x.stage = .recorded → y.stage = .doomed ∨ y.stage = .recorded

theorem Port.refl (x : Seat) : Port x x := ⟨rfl, rfl, .inl rfl, id⟩

theorem Dying.mono {Q : Seat → Prop} {pid : ℕ} (h : Dying P next pid)
    (hQ : ∀ y, Q y → ∃ x, P x ∧ Port x y) : Dying Q next pid := by
  refine ⟨h.1, fun y hy => ?_⟩
  obtain ⟨x, hx, k⟩ := hQ y hy
  rw [← k.fresh]
  refine ⟨fun hp => k.doomed ((h.2 x hx).1 (k.pid.trans hp)), (h.2 x hx).2⟩

theorem OnlyIo.mono {Q : Seat → Prop} {t pid : ℕ} (h : OnlyIo P t pid)
    (hQ : ∀ y, Q y → ∃ x, P x ∧ Port x y) : OnlyIo Q t pid := by
  intro y hy hp
  obtain ⟨x, hx, k⟩ := hQ y hy
  rcases k.io with hio | hio
  · rw [hio]
    exact h x hx (k.pid.trans hp)
  · exact .inr hio

/-- The processes that wait for I/O after a move of a process that keeps its token. -/
theorem IoWaits.move {ioWaiters : ℕ → Option ℕ} {inFlight : Finset ℕ} {nextToken : ℕ}
    {released : ℕ → Prop} {taking : ℕ → ℕ → Prop} {takes : ℕ → ℕ} {dying : ℕ → Prop}
    (h : IoWaits P next ioWaiters inFlight nextToken released taking takes dying) (hx : P x)
    (huniq : ∀ y, P y → y.pid = x.pid → y = x) (k : Port x x') (hio : x'.io = x.io)
    (hparked : x'.stage = .parked → ∀ t, x.io = some t →
      ioWaiters t = some x.pid ∨ taking t x.pid)
    (hworking : x'.stage = .working → ∀ t, x.io = some t →
      ioWaiters t = (if x'.ready then some x.pid else none) ∧ t ∉ inFlight ∧ ¬ released t ∧
        ∀ w, ¬ taking t w)
    (htaker : ∀ t, x.io = some t → taking t x.pid → x.stage = .parked →
      x'.stage = .parked ∨ Dying (Move P x') next x.pid ∧ OnlyIo (Move P x') t x.pid) :
    IoWaits (Move P x') next ioWaiters inFlight nextToken released taking takes dying where
  reg t w hw := by
    obtain ⟨y, hy, hp, ht⟩ := h.reg t w hw
    by_cases he : y.pid = x'.pid
    · have := huniq y hy (he.trans k.pid.symm)
      subst this
      exact ⟨x', .inl rfl, he.symm.trans hp, hio.trans ht⟩
    · exact ⟨y, .inr ⟨hy, he⟩, hp, ht⟩
  parked y hy hs t ht := by
    rcases hy with rfl | ⟨hy, -⟩
    · rw [← k.pid]
      exact hparked hs t (hio ▸ ht)
    · exact h.parked y hy hs t ht
  working y hy hs t ht := by
    rcases hy with rfl | ⟨hy, -⟩
    · rw [← k.pid]
      exact hworking hs t (hio ▸ ht)
    · exact h.working y hy hs t ht
  unique y hy z hz t hyt hzt := by
    rcases hy with rfl | ⟨hy, -⟩ <;> rcases hz with rfl | ⟨hz, -⟩
    · rfl
    · exact k.pid.symm.trans (h.unique x hx z hz t (hio ▸ hyt) hzt)
    · exact (h.unique y hy x hx t hyt (hio ▸ hzt)).trans k.pid
    · exact h.unique y hy z hz t hyt hzt
  taken := h.taken
  taker t w hw := by
    rcases h.taker t w hw with ⟨y, hy, hp, hs, ht⟩ | hd
    · by_cases he : y.pid = x'.pid
      · have := huniq y hy (he.trans k.pid.symm)
        subst this
        rw [hp] at htaker
        rcases htaker t ht hw hs with hs' | hd
        · exact .inl ⟨x', .inl rfl, he.symm.trans hp, hs', hio.trans ht⟩
        · exact .inr hd
      · exact .inl ⟨y, .inr ⟨hy, he⟩, hp, hs, ht⟩
    · exact .inr ⟨hd.1.mono fun y hy => Move.from Port.refl hx k hy,
        hd.2.mono fun y hy => Move.from Port.refl hx k hy⟩
  dead w hw := ⟨(h.dead w hw).1.mono fun y hy => Move.from Port.refl hx k hy, (h.dead w hw).2⟩
  one := h.one
  flight_lt := h.flight_lt
  released_lt := h.released_lt
  taking_lt := h.taking_lt
  seat_lt y hy t ht := by
    rcases hy with rfl | ⟨hy, -⟩
    · exact h.seat_lt x hx t (hio ▸ ht)
    · exact h.seat_lt y hy t ht

/-- A process that does not wait for I/O. -/
theorem IoWaits.move_none {ioWaiters : ℕ → Option ℕ} {inFlight : Finset ℕ} {nextToken : ℕ}
    {released : ℕ → Prop} {taking : ℕ → ℕ → Prop} {takes : ℕ → ℕ} {dying : ℕ → Prop}
    (h : IoWaits P next ioWaiters inFlight nextToken released taking takes dying) (hx : P x)
    (huniq : ∀ y, P y → y.pid = x.pid → y = x) (k : Port x x') (hio : x.io = none)
    (hio' : x'.io = none) :
    IoWaits (Move P x') next ioWaiters inFlight nextToken released taking takes dying := by
  refine h.move hx huniq k (hio'.trans hio.symm) ?_ ?_ ?_ <;> simp [hio]

end Move

end Hiko.Threaded
