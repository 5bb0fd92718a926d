import Hiko.Runtime.Conduct

/-!
# The rounds of the threads

The monitor looks at one process after the other while the workers go on. What it may conclude rests
on the two counters: if no slice was active at one moment and none has started since, then no worker
had a process in its hands in between, and what the monitor saw is still so.

## Main definitions

* `Role`, `Phase`: where a worker is in its round, and what the monitor knows
* `Knows`, `Side`: what the phases say of the state, and what the roles say of each other
* `crew`: the threads, each with its role and its tokens

## Main results

* `Inv.dead_of_still`: where no process can run and none waits for I/O, nothing is live
* `worker_follows`, `monitor_follows`: the rounds of the threads
* `crew_follows`: the runtime follows the discipline
-/

namespace Hiko.Threaded

open Lib.Interleave
open Lib.Interleave.Prog (perform invoke each)

variable {V : Type}

/-! ## Roles -/

/-- What the monitor knows. -/
inductive Phase where
  /-- it is between two rounds -/
  | idle
  /-- it handles completions -/
  | io
  /-- `slices_started` was `slices` -/
  | seen (slices : ℕ)
  /-- no slice was active then, and unless one has started since, only the processes of the list may
  be runnable -/
  | calm (slices : ℕ) (left : Option (List ℕ))
  /-- no process can run, and only the tokens of the list may be registered -/
  | still (left : Option (List ℕ))
  /-- nothing is live -/
  | finished

/-- Where a thread is. -/
inductive Role where
  /-- it took a pid from the queue -/
  | ready
  /-- it was counted as active -/
  | active
  /-- it counted the slice -/
  | started
  /-- it took the process -/
  | slice
  | monitor (phase : Phase)

/-- What a thread in this role adds to `active_workers`. -/
@[simp] def Role.counted : Role → ℕ
  | .active | .started | .slice => 1
  | _ => 0

/-- What a thread in this role adds to the number of monitors. -/
@[simp] def Role.monitors : Role → ℕ
  | .monitor _ => 1
  | _ => 0

/-- A thread in this role may have any tokens. -/
def Role.isBusy : Role → Prop
  | .slice | .monitor .io => True
  | _ => False

/-- The threads with their roles and tokens. -/
abbrev Parts := Multiset (Role × Tokens)

/-- What the threads add up to. -/
def weigh (f : Role → ℕ) (B : Parts) : ℕ := (B.map fun x => f x.1).sum

@[simp] theorem weigh_zero (f : Role → ℕ) : weigh f 0 = 0 := rfl

@[simp] theorem weigh_cons (f : Role → ℕ) (x : Role × Tokens) (B : Parts) :
    weigh f (x ::ₘ B) = f x.1 + weigh f B := by
  simp [weigh]

@[simp] theorem weigh_singleton (f : Role → ℕ) (x : Role × Tokens) : weigh f {x} = f x.1 := by
  simp [weigh]

theorem weigh_add (f : Role → ℕ) (B C : Parts) : weigh f (B + C) = weigh f B + weigh f C := by
  simp [weigh]

theorem le_weigh (f : Role → ℕ) {x : Role × Tokens} {B : Parts} (h : x ∈ B) :
    f x.1 ≤ weigh f B := by
  obtain ⟨C, rfl⟩ := Multiset.exists_cons_of_mem h
  rw [weigh_cons]
  exact Nat.le_add_right ..

theorem mem_total {B : Parts} {t : Token} : t ∈ total B ↔ ∃ x ∈ B, t ∈ x.2 := by
  refine (Multiset.mem_join (S := B.map Prod.snd)).trans ?_
  simp only [Multiset.mem_map]
  constructor
  · rintro ⟨_, ⟨x, hx, rfl⟩, ht⟩
    exact ⟨x, hx, ht⟩
  · rintro ⟨x, hx, ht⟩
    exact ⟨x.2, ⟨x, hx, rfl⟩, ht⟩

/-- A thread that is not busy has nothing but a pid from the queue. -/
def Light (x : Role × Tokens) : Prop := ¬ x.1.isBusy → ∀ t ∈ x.2, ∃ pid, t = .deq pid

/-- What the monitor knows in a phase. -/
def Knows (s : Shared V) (B : Parts) : Phase → Prop
  | .idle | .io => s.shutdown = false
  | .seen slices => s.shutdown = false ∧ slices ≤ s.slicesStarted
  | .calm slices left => s.shutdown = false ∧ slices ≤ s.slicesStarted ∧
      (s.slicesStarted = slices → (∀ x ∈ B, x.1 ≠ .started ∧ x.1 ≠ .slice) ∧
        ∀ l, left = some l → ∀ pid p, s.processes pid = some p → p.status = .runnable → pid ∈ l)
  | .still left => s.shutdown = false ∧ (∀ x ∈ B, x.1 ≠ .slice) ∧
      (∀ pid p, s.processes pid = some p → p.status ≠ .runnable) ∧
        ∀ l, left = some l → ∀ t, s.ioWaiters t ≠ none → t ∈ l
  | .finished => (∀ x ∈ B, x.1 ≠ .slice) ∧ s.live = ∅

/-- What the roles say of the state and of each other. -/
structure Side (s : Shared V) (B : Parts) : Prop where
  light : ∀ x ∈ B, Light x
  one : weigh Role.monitors B = 1
  counter : s.activeWorkers = weigh Role.counted B
  phase : ∀ ph m, (Role.monitor ph, m) ∈ B → Knows s B ph

/-- Some threads change their roles and tokens. -/
theorem Side.exchange {s s' : Shared V} {X Y F : Parts} (h : Side s (X + F))
    (hlight : ∀ x ∈ Y, Light x)
    (hone : weigh Role.monitors Y = weigh Role.monitors X)
    (hcounter : s'.activeWorkers + weigh Role.counted X = s.activeWorkers + weigh Role.counted Y)
    (hown : ∀ ph m, (Role.monitor ph, m) ∈ Y → Knows s' (Y + F) ph)
    (hrest : ∀ ph m, (Role.monitor ph, m) ∈ F → Knows s (X + F) ph → Knows s' (Y + F) ph) :
    Side s' (Y + F) where
  light x hx := (Multiset.mem_add.mp hx).elim (hlight x) fun hx =>
    h.light x (Multiset.mem_add.mpr (.inr hx))
  one := by
    have := h.one
    rw [weigh_add] at this ⊢
    omega
  counter := by
    have := h.counter
    rw [weigh_add] at this ⊢
    omega
  phase ph m hm := (Multiset.mem_add.mp hm).elim (hown ph m) fun hm =>
    hrest ph m hm (h.phase ph m (Multiset.mem_add.mpr (.inr hm)))

/-- There is one monitor. -/
theorem Side.alone {s : Shared V} {ph ph' : Phase} {m m' : Tokens} {F : Parts}
    (h : Side s ((Role.monitor ph, m) ::ₘ F)) : (Role.monitor ph', m') ∉ F := fun hm => by
  have hone := h.one
  have hle := le_weigh Role.monitors hm
  rw [weigh_cons] at hone
  simp only [Role.monitors] at hone hle
  omega

/-- The monitor goes on to another phase. -/
theorem Side.monitor {s s' : Shared V} {ph ph' : Phase} {m m' : Tokens} {F : Parts}
    (h : Side s ((Role.monitor ph, m) ::ₘ F)) (hlight : Light (Role.monitor ph', m'))
    (hactive : s'.activeWorkers = s.activeWorkers)
    (hknows : Knows s' ((Role.monitor ph', m') ::ₘ F) ph') :
    Side s' ((Role.monitor ph', m') ::ₘ F) := by
  have halone : ∀ ph₀ m₀, (Role.monitor ph₀, m₀) ∉ F := fun _ _ => h.alone
  rw [← Multiset.singleton_add] at h hknows ⊢
  refine h.exchange ?_ ?_ ?_ ?_ fun ph₀ m₀ hm => absurd hm (halone ph₀ m₀)
  · intro x hx
    rwa [Multiset.mem_singleton.mp hx]
  · simp
  · simp [hactive]
  · intro ph₀ m₀ hm
    cases Multiset.mem_singleton.mp hm
    exact hknows

/-- A busy thread goes on by itself. -/
theorem Side.busy {s s' : Shared V} {r : Role} {m m' : Tokens} {F : Parts} (hr : r.isBusy)
    (h : Side s ((r, m) ::ₘ F)) (hshutdown : s'.shutdown = s.shutdown)
    (hslices : s'.slicesStarted = s.slicesStarted) (hactive : s'.activeWorkers = s.activeWorkers) :
    Side s' ((r, m') ::ₘ F) := by
  have hlight : Light (r, m') := fun hn => absurd hr hn
  cases r with
  | monitor ph =>
    cases ph with
    | io =>
      exact h.monitor hlight hactive
        (hshutdown.trans (h.phase _ _ (Multiset.mem_cons_self _ _)))
    | _ => exact hr.elim
  | slice =>
    have hmem : (Role.slice, m) ∈ {(Role.slice, m)} + F := by simp
    rw [← Multiset.singleton_add] at h ⊢
    refine h.exchange ?_ ?_ ?_ ?_ ?_
    · intro x hx
      rwa [Multiset.mem_singleton.mp hx]
    · simp
    · simp [hactive]
    · intro ph₀ m₀ hm
      cases Multiset.mem_singleton.mp hm
    · intro ph₀ m₀ _ hk
      cases ph₀ with
      | idle | io => exact hshutdown.trans hk
      | seen n => exact ⟨hshutdown.trans hk.1, hslices ▸ hk.2⟩
      | calm n left =>
        refine ⟨hshutdown.trans hk.1, hslices ▸ hk.2.1, fun he => ?_⟩
        exact absurd rfl ((hk.2.2 (hslices ▸ he)).1 _ hmem).2
      | still left => exact absurd rfl (hk.2.1 _ hmem)
      | finished => exact absurd rfl (hk.1 _ hmem)
  | _ => exact hr.elim

/-! ## The crew -/

/-- The threads. -/
def crew (V : Type) : Team (discipline V) Role where
  busy := Role.isBusy
  Side := Side
  Need a B := match a with
    | .runSlice p => ∃ x ∈ B, Token.seat (p.held .working) ∈ x.2
    | _ => True
  need_add a B C h := by
    cases a with
    | runSlice p =>
      obtain ⟨x, hx, hp⟩ := h
      exact ⟨x, Multiset.mem_add.mpr (.inl hx), hp⟩
    | _ => trivial

/-- An action that belongs to no loop leaves the counters alone. -/
theorem run_counters {b : Behaviour V} {a : Act V} {m : Tokens} {s s' : Shared V} {r : a.Res}
    (hneed : needs a m) (hrun : a.run b s r s') :
    s'.shutdown = s.shutdown ∧ s'.slicesStarted = s.slicesStarted ∧
      s'.activeWorkers = s.activeWorkers := by
  cases a with
  | op a =>
    have hs : s' = (a.run b.requestCancellation s).2 := congrArg Prod.snd hrun
    subst hs
    cases a with
    | takeRunnable pid =>
      simp only [Op.run, Op.takeIf]
      split
      · split <;> simp
      · simp
    | takeBlocked pid pred =>
      simp only [Op.run, Op.takeIf]
      split
      · split <;> simp
      · simp
    | requestInTable pid =>
      simp only [Op.run]
      split
      · split <;> simp
      · simp
    | _ => exact ⟨rfl, rfl, rfl⟩
  | counter | dequeue | shutdown | poll => exact hneed.elim
  | keys | runSlice | childResult | createChild | deliverResult | deliverJoinResult | deliverPid
  | chargeIoBytes =>
    obtain ⟨-, rfl⟩ := hrun
    exact ⟨rfl, rfl, rfl⟩
  | visit =>
    obtain ⟨-, -, rfl⟩ := hrun
    exact ⟨rfl, rfl, rfl⟩
  | registerFor t =>
    rcases hrun with ⟨-, rfl⟩ | ⟨-, rfl⟩
    · exact ⟨rfl, rfl, rfl⟩
    · exact ⟨rfl, rfl, rfl⟩
  | cancelIo t =>
    rcases hrun with rfl | rfl
    · exact ⟨rfl, rfl, rfl⟩
    · exact ⟨rfl, rfl, rfl⟩

theorem crew_lets (b : Behaviour V) : (crew V).Lets (Act.run b) where
  shift hr h := h.busy hr rfl rfl rfl
  act hr hneed hrun h :=
    have hs := run_counters hneed hrun
    h.busy hr hs.1 hs.2.1 hs.2.2
  need {r m a} h := by
    cases a with
    | runSlice p => exact ⟨(r, m), Multiset.mem_singleton_self _, h⟩
    | _ => trivial

section Rounds

variable {α : Type} {b : Behaviour V} {Q : α → Parts → Prop}

/-- From these roles and tokens, the program keeps to what the crew has agreed, and ends in `Q`. -/
abbrev Crew (b : Behaviour V) (Q : α → Parts → Prop) (p : Run V α) (B : Parts) : Prop :=
  wp (crew V).discipline (Act.run b) Q p B

/-- The counters and the end are no concern of the processes. -/
theorem Inv.counters {s : Shared V} {T : Tokens} (h : Inv s T) (shutdown : Bool)
    (active slices : ℕ) :
    Inv { s with shutdown := shutdown, activeWorkers := active, slicesStarted := slices } T :=
  ⟨h.places, h.family, h.waits, h.io, h.queue, h.pending, h.ended, h.owned, h.waiting⟩

/-! ## Workers -/

/-- What the monitor knows stays so where a worker takes no process. -/
theorem Knows.worker {s s' : Shared V} {X Y F : Parts} {ph : Phase} (h : Knows s (X + F) ph)
    (hshutdown : s'.shutdown = s.shutdown) (hmono : s.slicesStarted ≤ s'.slicesStarted)
    (hprocesses : s'.processes = s.processes) (hio : s'.ioWaiters = s.ioWaiters)
    (hlive : s'.live = s.live)
    (hcalm : s'.slicesStarted = s.slicesStarted → (∀ x ∈ X, x.1 ≠ .started ∧ x.1 ≠ .slice) →
      ∀ x ∈ Y, x.1 ≠ .started ∧ x.1 ≠ .slice)
    (hslice : (∀ x ∈ X, x.1 ≠ .slice) → ∀ x ∈ Y, x.1 ≠ .slice) : Knows s' (Y + F) ph := by
  have hF : ∀ {x}, x ∈ F → x ∈ X + F := fun hx => Multiset.mem_add.mpr (.inr hx)
  have hX : ∀ {x}, x ∈ X → x ∈ X + F := fun hx => Multiset.mem_add.mpr (.inl hx)
  have hsl : (∀ x ∈ X + F, x.1 ≠ .slice) → ∀ x ∈ Y + F, x.1 ≠ .slice := fun ha x hx =>
    (Multiset.mem_add.mp hx).elim (hslice (fun y hy => ha y (hX hy)) x) fun hx => ha x (hF hx)
  cases ph with
  | idle | io => exact hshutdown.trans h
  | seen n => exact ⟨hshutdown.trans h.1, h.2.trans hmono⟩
  | calm n left =>
    refine ⟨hshutdown.trans h.1, h.2.1.trans hmono, fun he => ?_⟩
    have hsame : s.slicesStarted = n := le_antisymm (hmono.trans he.le) h.2.1
    obtain ⟨hroles, hleft⟩ := h.2.2 hsame
    refine ⟨fun x hx => ?_, by rwa [hprocesses]⟩
    rcases Multiset.mem_add.mp hx with hx | hx
    · exact hcalm (he.trans hsame.symm) (fun y hy => hroles y (hX hy)) x hx
    · exact hroles x (hF hx)
  | still left =>
    exact ⟨hshutdown.trans h.1, hsl h.2.1, by rw [hprocesses]; exact h.2.2.1,
      by rw [hio]; exact h.2.2.2⟩
  | finished => exact ⟨hsl h.1, hlive.trans h.2⟩

/-- A worker changes its role. -/
theorem Side.worker {s s' : Shared V} {X Y F : Parts} (h : Side s (X + F))
    (hlight : ∀ x ∈ Y, Light x) (hX : weigh Role.monitors X = 0) (hY : weigh Role.monitors Y = 0)
    (hcounter : s'.activeWorkers + weigh Role.counted X = s.activeWorkers + weigh Role.counted Y)
    (hrest : ∀ ph, Knows s (X + F) ph → Knows s' (Y + F) ph) : Side s' (Y + F) := by
  refine h.exchange hlight (hY.trans hX.symm) hcounter (fun ph m hm => ?_)
    fun ph m _ hk => hrest ph hk
  have hle := le_weigh Role.monitors hm
  rw [hY] at hle
  cases hle

theorem light_deq {r : Role} {pid : ℕ} : Light (r, {.deq pid}) := fun _ _ ht =>
  ⟨pid, Multiset.mem_singleton.mp ht⟩

theorem light_zero {r : Role} : Light (r, 0) := fun _ _ ht => absurd ht (Multiset.notMem_zero _)

/-- The end of a round: the worker is not active any more. -/
theorem crew_leave {r : Role} (hr : r.counted = 1) (hmon : r.monitors = 0) :
    Crew b (fun _ B => B = 0) (do
      action (.counter .activeSub)
      pure true) {(r, 0)} := by
  refine wp_act (D := (crew V).discipline) (a := .counter .activeSub) fun s F hinv =>
    ⟨trivial, fun u s' hrun => ?_⟩
  obtain rfl : s' = { s with activeWorkers := s.activeWorkers - 1 } := congrArg Prod.snd hrun
  obtain ⟨hinv, hside⟩ := hinv
  have hpos : 1 ≤ s.activeWorkers := by
    rw [hside.counter, weigh_add, weigh_singleton, hr]
    exact Nat.le_add_right ..
  refine ⟨0, ⟨?_, ?_⟩, wp_pure rfl⟩
  · simpa using hinv.counters s.shutdown (s.activeWorkers - 1) s.slicesStarted
  · refine hside.worker (fun x hx => absurd hx (Multiset.notMem_zero _))
      ((weigh_singleton _ _).trans hmon) rfl ?_
      fun ph hk => hk.worker rfl le_rfl rfl rfl rfl
        (fun _ _ x hx => absurd hx (Multiset.notMem_zero _))
        fun _ x hx => absurd hx (Multiset.notMem_zero _)
    · rw [weigh_singleton, hr, weigh_zero]
      exact Nat.sub_add_cancel hpos

/-- A process that is queued and in the table is taken, and the worker is busy. -/
theorem crew_runProcess {pid : ℕ} {Q : Unit → Parts → Prop}
    (hnone : Q () {(.started, 0)}) (hsome : Q () {(.slice, 0)}) :
    Crew b Q (runProcess b pid) {(.started, {.deq pid})} := by
  refine wp_act (D := (crew V).discipline) (a := .op (.takeRunnable pid)) fun s F hinv =>
    ⟨trivial, fun r s' hrun => ?_⟩
  obtain ⟨hinv, hside⟩ := hinv
  have hinv : Inv s (.deq pid ::ₘ total F) := by simpa using hinv
  by_cases htake : ∃ p, s.processes pid = some p ∧ p.isRunnable = true
  · obtain ⟨p, hp, hr⟩ := htake
    obtain rfl := hinv.places.key pid p hp
    have hstatus : p.status = .runnable := by
      cases hs : p.status <;> simp [Proc.isRunnable, hs] at hr ⊢
    have heq := takeIf_some (f := fun p : Process V => p.isRunnable) hp hr
    obtain ⟨rfl, rfl⟩ := Prod.mk.inj ((show (r, s') = Op.takeIf _ _ s from hrun).trans heq)
    refine ⟨{(.slice, {.seat (p.held .working)})}, ⟨?_, ?_⟩, ?_⟩
    · simpa using hinv.takeRunnable hp hstatus
    · -- the monitor does not know of a process that may run
      refine hside.worker (fun x hx hbusy => ?_) rfl rfl (by simp) fun ph hk => ?_
      · rw [Multiset.mem_singleton.mp hx] at hbusy
        exact absurd trivial hbusy
      · have hmem : (Role.started, ({.deq p.pid} : Tokens)) ∈
            {(Role.started, ({.deq p.pid} : Tokens))} + F := by simp
        cases ph with
        | idle | io => exact hk
        | seen n => exact hk
        | calm n left => exact ⟨hk.1, hk.2.1, fun he => absurd rfl ((hk.2.2 he).1 _ hmem).1⟩
        | still left => exact absurd hstatus (hk.2.2.1 p.pid p hp)
        | finished =>
          have hlive := hinv.places.live_of_placed
            (placed_of_table hp (by simp [Proc.isLive, hstatus]))
          rw [hk.2] at hlive
          exact absurd hlive (Finset.notMem_empty _)
    · have hteam := wp_team (crew_lets b) (r := .slice) trivial
        (safe_runTaken (p := p) (m := 0) (Q := fun _ n => n = 0) rfl)
      refine wp_mono ?_ hteam
      rintro _ _ ⟨_, rfl, rfl⟩
      exact hsome
  · have hno : ∀ p, s.processes pid = some p → p.isRunnable = false :=
      fun p hp => by simpa using fun hok => htake ⟨p, hp, hok⟩
    have heq := takeIf_none (f := fun p : Process V => p.isRunnable) hno
    obtain ⟨rfl, rfl⟩ := Prod.mk.inj ((show (r, s') = Op.takeIf _ _ s from hrun).trans heq)
    refine ⟨{(.started, 0)}, ⟨?_, ?_⟩, wp_pure hnone⟩
    · have hdrop := hinv.drop_deq fun x hx hs hpid => by
        obtain ⟨p, hp, hr⟩ := hinv.queued_inTable (by simpa using hx) hs
        have hfalse := hno p (hpid ▸ hp)
        simp [Proc.isRunnable, hr] at hfalse
      simpa using hdrop
    · refine hside.worker (fun x hx => ?_) rfl rfl (by simp) fun ph hk =>
        hk.worker rfl le_rfl rfl rfl rfl (fun _ hX => ?_) fun _ x hx => ?_
      · rw [Multiset.mem_singleton.mp hx]
        exact light_zero
      · exact absurd rfl (hX _ (Multiset.mem_singleton_self _)).1
      · rw [Multiset.mem_singleton.mp hx]
        exact fun h => by cases h

/-- A round of `worker_loop`. -/
theorem worker_follows : Crew b (fun _ B => B = 0) (workerLoop b) 0 := by
  refine wp_act (D := (crew V).discipline) (a := .dequeue) fun s F hinv =>
    ⟨trivial, fun r s' hrun => ?_⟩
  rcases hrun with ⟨-, rfl, rfl⟩ | ⟨pid, rest, -, hq, rfl, rfl⟩
  · exact ⟨0, hinv, wp_pure rfl⟩
  obtain ⟨hinv, hside⟩ := hinv
  refine ⟨{(.ready, {.deq pid})}, ⟨?_, ?_⟩, ?_⟩
  · have hdeq := hinv.dequeue hq
    simpa using hdeq
  · refine hside.worker (fun x hx => ?_) rfl rfl (by simp) fun ph hk =>
      hk.worker rfl le_rfl rfl rfl rfl (fun _ _ x hx => ?_) fun _ x hx => ?_
    all_goals rw [Multiset.mem_singleton.mp hx]
    · exact light_deq
    · exact ⟨(fun h => by cases h), fun h => by cases h⟩
    · exact fun h => by cases h
  refine wp_act (D := (crew V).discipline) (a := .counter .activeAdd) fun s F hinv =>
    ⟨trivial, fun u s' hrun => ?_⟩
  obtain rfl : s' = { s with activeWorkers := s.activeWorkers + 1 } := congrArg Prod.snd hrun
  obtain ⟨hinv, hside⟩ := hinv
  refine ⟨{(.active, {.deq pid})}, ⟨?_, ?_⟩, ?_⟩
  · simpa using hinv.counters s.shutdown (s.activeWorkers + 1) s.slicesStarted
  · refine hside.worker (fun x hx => ?_) rfl rfl (by simp) fun ph hk =>
      hk.worker rfl le_rfl rfl rfl rfl (fun _ _ x hx => ?_) fun _ x hx => ?_
    all_goals rw [Multiset.mem_singleton.mp hx]
    · exact light_deq
    · exact ⟨(fun h => by cases h), fun h => by cases h⟩
    · exact fun h => by cases h
  refine wp_act (D := (crew V).discipline) (a := .counter .slicesAdd) fun s F hinv =>
    ⟨trivial, fun u s' hrun => ?_⟩
  obtain rfl : s' = { s with slicesStarted := s.slicesStarted + 1 } := congrArg Prod.snd hrun
  obtain ⟨hinv, hside⟩ := hinv
  refine ⟨{(.started, {.deq pid})}, ⟨?_, ?_⟩, ?_⟩
  · simpa using hinv.counters s.shutdown s.activeWorkers (s.slicesStarted + 1)
  · refine hside.worker (fun x hx => ?_) rfl rfl (by simp) fun ph hk =>
      hk.worker rfl (Nat.le_succ _) rfl rfl rfl (fun he => absurd he (Nat.succ_ne_self _))
        fun _ x hx => ?_
    all_goals rw [Multiset.mem_singleton.mp hx]
    · exact light_deq
    · exact fun h => by cases h
  exact wp_bind (crew_runProcess (crew_leave rfl rfl) (crew_leave rfl rfl))

/-! ## The monitor -/

/-- **Where no process can run and none waits for I/O, nothing is live**: only a parent waits for
its child, and a child has a greater pid. -/
theorem Inv.dead_of_still {s : Shared V} {T : Tokens} (h : Inv s T)
    (hlight : ∀ t ∈ T, ∃ pid, t = .deq pid)
    (hrun : ∀ pid p, s.processes pid = some p → p.status ≠ .runnable)
    (hio : ∀ t, s.ioWaiters t = none) : s.live = ∅ := by
  have hno : ∀ {t : Token}, t ∈ T → (∀ pid, t ≠ .deq pid) → False := fun ht hne => by
    obtain ⟨pid, he⟩ := hlight _ ht
    exact hne pid he
  by_contra hne
  obtain ⟨pid, hpid, hmax⟩ := s.live.exists_max_image id (Finset.nonempty_iff_ne_empty.mpr hne)
  obtain ⟨x, hx, rfl⟩ := h.places.placed_of_live hpid
  -- it is in the table, and blocked
  have hparked : x.stage = .parked := by
    rcases hx with ⟨p, hp, hl, rfl⟩ | hx
    · cases hr : p.status with
      | blocked reason => simp [p.seat_blocked hr, Process.hold]
      | runnable => exact absurd hr (hrun _ p hp)
      | done => simp [Proc.isLive, hr] at hl
      | failed failure => simp [Proc.isLive, hr] at hl
    · exact (hno hx fun _ h => by cases h).elim
  rcases h.waiting x hx hparked with hregs | hxio
  · obtain ⟨⟨w, c⟩, hr⟩ := Finset.nonempty_iff_ne_empty.mpr hregs
    have hlt := (h.family.child_lt x hx c (h.waits.reg_kid x hx w c hr)).1
    have hc : c ∉ s.live := fun hc => absurd (hmax c hc) (not_le.mpr hlt)
    obtain ⟨c', -, -, ⟨cs, hdue, -⟩ | hwake | ⟨l, hwake, -⟩⟩ := h.waits.cover x hx hparked w c hr hc
    · exact hno hdue fun _ h => by cases h
    · exact hno hwake fun _ h => by cases h
    · exact hno hwake fun _ h => by cases h
  · obtain ⟨t, ht⟩ := Option.ne_none_iff_exists'.mp hxio
    rcases h.io.parked x hx hparked t ht with hreg | htaking
    · rw [hio t] at hreg
      cases hreg
    · exact hno htaking fun _ h => by cases h

/-- An action of the monitor that changes nothing. -/
theorem crew_look {a : Act V} {f : a.Res → Run V α} {ph : Phase}
    (hneed : ∀ B, (crew V).Need a B)
    (h : ∀ (s : Shared V) F, Inv s (total F) → Side s ((Role.monitor ph, 0) ::ₘ F) →
      ∀ r s', a.run b s r s' → s' = s ∧ ∃ ph', Knows s ((Role.monitor ph', 0) ::ₘ F) ph' ∧
        Crew b Q (f r) {(.monitor ph', 0)}) :
    Crew b Q (action a >>= f) {(.monitor ph, 0)} := by
  refine wp_act (D := (crew V).discipline) (a := a) fun s F hinv => ⟨hneed _, fun r s' hrun => ?_⟩
  obtain ⟨hinv, hside⟩ := hinv
  rw [Multiset.singleton_add] at hside
  have hinv : Inv s (total F) := by simpa using hinv
  obtain ⟨rfl, ph', hknows, hf⟩ := h s F hinv hside r s' hrun
  refine ⟨{(.monitor ph', 0)}, ⟨by simpa using hinv, ?_⟩, hf⟩
  rw [Multiset.singleton_add]
  exact hside.monitor light_zero rfl hknows

/-- A look of the monitor at what is shared. -/
theorem crew_read {a : Op V} {f : a.Res → Run V α} {ph : Phase}
    (hread : ∀ s, (a.run b.requestCancellation s).2 = s)
    (h : ∀ (s : Shared V) F, Inv s (total F) → Knows s ((Role.monitor ph, 0) ::ₘ F) ph →
      ∃ ph', Knows s ((Role.monitor ph', 0) ::ₘ F) ph' ∧
        Crew b Q (f (a.run b.requestCancellation s).1) {(.monitor ph', 0)}) :
    Crew b Q (access a >>= f) {(.monitor ph, 0)} :=
  crew_look (a := .op a) (fun _ => trivial) fun s F hinv hside r s' hrun => by
    obtain ⟨rfl, rfl⟩ := Prod.mk.inj (show (r, s') = _ from hrun)
    exact ⟨hread s, h s F hinv (hside.phase ph 0 (Multiset.mem_cons_self _ _))⟩

/-- The monitor ends its round. -/
theorem crew_idle {Q : Bool → Parts → Prop} {ph : Phase} (hph : ph ≠ .finished)
    (h : Q true {(.monitor .idle, 0)}) : Crew b Q (pure true) {(.monitor ph, 0)} := by
  intro s F hinv
  obtain ⟨hinv, hside⟩ := hinv
  refine ⟨{(.monitor .idle, 0)}, ⟨by simpa using hinv, ?_⟩, h⟩
  rw [Multiset.singleton_add] at hside ⊢
  refine hside.monitor light_zero rfl ?_
  have hknows := hside.phase ph 0 (Multiset.mem_cons_self _ _)
  cases ph with
  | idle | io => exact hknows
  | seen n => exact hknows.1
  | calm n left => exact hknows.1
  | still left => exact hknows.1
  | finished => exact absurd rfl hph

/-- `is_all_done_or_blocked`: a process that was seen blocked, or not at all, does not run unless a
slice has started. -/
theorem crew_allStatus {n : ℕ} {Q : Bool → Parts → Prop}
    (htrue : Q true {(.monitor (.calm n (some [])), 0)})
    (hfalse : ∀ l, Q false {(.monitor (.calm n l), 0)}) : ∀ pids,
    Crew b Q (allStatus (V := V) doneOrBlocked pids) {(.monitor (.calm n (some pids)), 0)}
  | [] => wp_pure htrue
  | pid :: pids => by
    refine crew_read (fun _ => rfl) fun s F _ hknows => ?_
    obtain ⟨hshutdown, hle, hcalm⟩ := hknows
    have hnext : (∀ p, s.processes pid = some p → p.status ≠ .runnable) →
        Knows s ((Role.monitor (.calm n (some pids)), 0) ::ₘ F) (.calm n (some pids)) := by
      refine fun hpid => ⟨hshutdown, hle, fun he => ?_⟩
      obtain ⟨hroles, hleft⟩ := hcalm he
      refine ⟨fun x hx => ?_, ?_⟩
      · rcases Multiset.mem_cons.mp hx with rfl | hx
        · exact ⟨(fun h => by cases h), fun h => by cases h⟩
        · exact hroles x (Multiset.mem_cons_of_mem hx)
      · rintro _ ⟨⟩ k p hp hr
        rcases List.mem_cons.mp (hleft _ rfl k p hp hr) with rfl | hk
        · exact absurd hr (hpid p hp)
        · exact hk
    cases hp : s.processes pid with
    | none =>
      refine ⟨_, hnext fun p hp' => absurd (hp.symm.trans hp') (fun h => by cases h), ?_⟩
      simp only [Op.run, hp, Option.map_none]
      exact crew_allStatus htrue hfalse pids
    | some p =>
      by_cases hr : p.status = .runnable
      · refine ⟨.calm n (some (pid :: pids)), ⟨hshutdown, hle, hcalm⟩, ?_⟩
        simp only [Op.run, hp, Option.map_some, hr, doneOrBlocked]
        exact wp_pure (hfalse _)
      · have hok : doneOrBlocked p.status = true := by
          cases hs : p.status <;> simp_all [doneOrBlocked]
        refine ⟨_, hnext fun q hq => ?_, ?_⟩
        · rw [hp] at hq
          cases hq
          exact hr
        · simp only [Op.run, hp, Option.map_some, hok, if_true]
          exact crew_allStatus htrue hfalse pids

/-- `io_waiters.is_empty()`: a token that was seen without a waiter has none. -/
theorem crew_noIoWaiter {Q : Bool → Parts → Prop}
    (htrue : Q true {(.monitor (.still (some [])), 0)})
    (hfalse : ∀ l, Q false {(.monitor (.still l), 0)}) : ∀ tokens,
    Crew b Q (noIoWaiter (V := V) tokens) {(.monitor (.still (some tokens)), 0)}
  | [] => wp_pure htrue
  | t :: tokens => by
    refine crew_read (fun _ => rfl) fun s F _ hknows => ?_
    cases ht : s.ioWaiters t with
    | some w =>
      refine ⟨_, hknows, ?_⟩
      simp only [Op.run, ht]
      exact wp_pure (hfalse _)
    | none =>
      obtain ⟨hshutdown, hroles, hrun, hleft⟩ := hknows
      refine ⟨.still (some tokens), ⟨hshutdown, fun x hx => ?_, hrun, ?_⟩, ?_⟩
      · rcases Multiset.mem_cons.mp hx with rfl | hx
        · exact fun h => by cases h
        · exact hroles x (Multiset.mem_cons_of_mem hx)
      · rintro _ ⟨⟩ t' ht'
        rcases List.mem_cons.mp (hleft _ rfl t' ht') with rfl | hmem
        · exact absurd ht ht'
        · exact hmem
      · simp only [Op.run, ht]
        exact crew_noIoWaiter htrue hfalse tokens

/-! ## The end -/

section Finished

theorem crew_allStatus_finished {Q : Bool → Parts → Prop} {ok : ProcessStatus → Bool}
    (h : ∀ r, Q r {(.monitor .finished, 0)}) :
    ∀ pids, Crew b Q (allStatus (V := V) ok pids) {(.monitor .finished, 0)}
  | [] => wp_pure (h true)
  | pid :: pids => crew_read (fun _ => rfl) fun s F _ hknows => ⟨_, hknows, by
      cases (Op.run b.requestCancellation (.processesStatus pid) s).1 with
      | none => exact crew_allStatus_finished h pids
      | some status =>
        dsimp only
        split
        · exact crew_allStatus_finished h pids
        · exact wp_pure (h false)⟩

theorem crew_noIoWaiter_finished {Q : Bool → Parts → Prop}
    (h : ∀ r, Q r {(.monitor .finished, 0)}) :
    ∀ tokens, Crew b Q (noIoWaiter (V := V) tokens) {(.monitor .finished, 0)}
  | [] => wp_pure (h true)
  | t :: tokens => crew_read (fun _ => rfl) fun s F _ hknows => ⟨_, hknows, by
      cases (Op.run b.requestCancellation (.ioWaitersGet t) s).1 with
      | none => exact crew_noIoWaiter_finished h tokens
      | some w => exact wp_pure (h false)⟩

/-- Where nothing is live, no process is blocked. -/
theorem crew_filterStatus_finished : ∀ {Q : List ℕ → Parts → Prop}
    (_ : Q [] {(.monitor .finished, 0)}) (pids : List ℕ),
    Crew b Q (filterStatus (V := V) (blockedOn blockedOnProcess) pids) {(.monitor .finished, 0)}
  | _, h, [] => wp_pure h
  | _, h, pid :: pids => crew_read (fun _ => rfl) fun s F hinv hknows => by
      refine ⟨_, hknows, wp_bind (crew_filterStatus_finished ?_ pids)⟩
      have hnone : ((s.processes pid).map (·.status)).any (blockedOn blockedOnProcess) = false := by
        cases hp : s.processes pid with
        | none => rfl
        | some p =>
          have hpid := hinv.places.key pid p hp
          subst hpid
          by_contra hb
          obtain ⟨reason, hr, -⟩ := blockedOn_iff.mp (by simpa using hb)
          have hlive := hinv.places.live_of_placed
            (placed_of_table hp (by simp [Proc.isLive, hr]))
          rw [hknows.2] at hlive
          exact absurd hlive (Finset.notMem_empty _)
      simp only [Op.run, hnone]
      exact wp_pure h

/-- `permanently_blocked` finds no process. -/
theorem crew_permanentlyBlocked {Q : List ℕ → Parts → Prop} (h : Q [] {(.monitor .finished, 0)}) :
    Crew b Q (permanentlyBlocked (V := V)) {(.monitor .finished, 0)} := by
  have hkeep : ∀ {m : Keys} {f : List ℕ → Run V (List ℕ)},
      (∀ keys, Crew b Q (f keys) {(.monitor .finished, 0)}) →
      Crew b Q (action (.keys m) >>= f) {(.monitor .finished, 0)} := fun hf =>
    crew_look (fun _ => trivial) fun s F _ hside r s' hrun =>
      ⟨hrun.2, _, hside.phase _ 0 (Multiset.mem_cons_self _ _), hf r⟩
  have hif : ∀ {c : Bool} {p : Run V (List ℕ)}, Crew b Q p {(.monitor .finished, 0)} →
      Crew b Q (if c = true then p else pure []) {(.monitor .finished, 0)} := fun {c} {p} hp => by
    split
    · exact hp
    · exact wp_pure h
  refine wp_bind ?_
  refine crew_look (a := .keys .ioWaiters) (fun _ => trivial) fun s F _ hside r s' hrun =>
    ⟨hrun.2, _, hside.phase _ 0 (Multiset.mem_cons_self _ _), ?_⟩
  refine crew_noIoWaiter_finished (fun noIo => hif ?_) r
  refine hkeep fun keys => wp_bind (crew_allStatus_finished (fun none => hif ?_) keys)
  exact hkeep fun keys => crew_filterStatus_finished h keys

end Finished

/-- What the monitor does where it found no work: it ends, and nothing is live. -/
theorem crew_endOrFail {Q : Bool → Parts → Prop} (h : Q false {(.monitor .finished, 0)}) :
    Crew b Q (endOrFail (V := V)) {(.monitor (.still (some [])), 0)} := by
  refine wp_shift fun s F hinv => ⟨{(.monitor .finished, 0)}, ?_, ?_⟩
  · obtain ⟨hinv, hside⟩ := hinv
    have hinv : Inv s (total F) := by simpa using hinv
    rw [Multiset.singleton_add] at hside
    obtain ⟨-, hroles, hrun, hleft⟩ := hside.phase _ 0 (Multiset.mem_cons_self _ _)
    have hdead := hinv.dead_of_still (fun t ht => ?_) hrun fun t => by
      by_contra ht
      cases hleft [] rfl t ht
    · refine ⟨by simpa using hinv, ?_⟩
      rw [Multiset.singleton_add]
      refine hside.monitor light_zero rfl ⟨fun x hx => ?_, hdead⟩
      rcases Multiset.mem_cons.mp hx with rfl | hx
      · exact fun h => by cases h
      · exact hroles x (Multiset.mem_cons_of_mem hx)
    · -- the others have nothing but pids from the queue
      obtain ⟨x, hx, ht⟩ := mem_total.mp ht
      refine hside.light x (Multiset.mem_cons_of_mem hx) ?_ t ht
      have hslice := hroles x (Multiset.mem_cons_of_mem hx)
      obtain ⟨r, m⟩ := x
      cases r with
      | slice => exact absurd rfl hslice
      | monitor ph => exact absurd hx hside.alone
      | _ => exact id
  refine wp_bind (crew_permanentlyBlocked ?_)
  rw [if_pos rfl]
  refine wp_act (D := (crew V).discipline) (a := .shutdown) fun s F hinv =>
    ⟨trivial, fun u s' hrun => ?_⟩
  obtain rfl : s' = { s with shutdown := true } := hrun
  obtain ⟨hinv, hside⟩ := hinv
  refine ⟨{(.monitor .finished, 0)}, ⟨?_, ?_⟩, wp_pure h⟩
  · simpa using hinv.counters true s.activeWorkers s.slicesStarted
  · rw [Multiset.singleton_add] at hside ⊢
    exact hside.monitor light_zero rfl (hside.phase .finished 0 (Multiset.mem_cons_self _ _))

/-- The checks of the monitor after it took the completions. -/
theorem crew_checkIdle {Q : Bool → Parts → Prop} (htrue : Q true {(.monitor .idle, 0)})
    (hfalse : Q false {(.monitor .finished, 0)}) :
    Crew b Q (checkIdle (V := V)) {(.monitor .idle, 0)} := by
  refine crew_look (a := .counter .slicesLoad) (fun _ => trivial)
    fun s F _ hside before s' hrun => ?_
  obtain ⟨rfl, rfl⟩ := Prod.mk.inj (show (before, s') = (s.slicesStarted, s) from hrun)
  refine ⟨rfl, .seen s'.slicesStarted,
    ⟨hside.phase .idle 0 (Multiset.mem_cons_self _ _), le_rfl⟩, ?_⟩
  generalize s'.slicesStarted = before
  refine crew_look (a := .counter .activeLoad) (fun _ => trivial)
    fun s F _ hside active s' hrun => ?_
  obtain ⟨rfl, rfl⟩ := Prod.mk.inj (show (active, s') = (s.activeWorkers, s) from hrun)
  refine ⟨rfl, ?_⟩
  have hseen := hside.phase (.seen before) 0 (Multiset.mem_cons_self _ _)
  by_cases hactive : s'.activeWorkers = 0
  swap
  · rw [if_neg hactive]
    exact ⟨.seen before, hseen, crew_idle (fun h => by cases h) htrue⟩
  rw [if_pos hactive]
  -- no worker is counted, so none has a process
  refine ⟨.calm before none, ⟨hseen.1, hseen.2, fun _ => ⟨fun x hx => ?_, fun _ h => by cases h⟩⟩,
    wp_bind ?_⟩
  · have hle := le_weigh Role.counted hx
    have hcounter := hside.counter
    rw [weigh_cons] at hcounter
    rw [weigh_cons] at hle
    constructor
    all_goals
      intro he
      rw [he] at hle
      simp only [Role.counted] at hle hcounter
      omega
  refine crew_look (a := .keys .processes) (fun _ => trivial) fun s F _ hside keys s' hrun => ?_
  obtain ⟨hkeys, rfl⟩ := hrun
  obtain ⟨hshutdown, hle, hcalm⟩ := hside.phase (.calm before none) 0 (Multiset.mem_cons_self _ _)
  refine ⟨rfl, .calm before (some keys), ⟨hshutdown, hle, fun he => ⟨fun x hx => ?_, ?_⟩⟩, ?_⟩
  · rcases Multiset.mem_cons.mp hx with rfl | hx
    · exact ⟨(fun h => by cases h), fun h => by cases h⟩
    · exact (hcalm he).1 x (Multiset.mem_cons_of_mem hx)
  · rintro _ ⟨⟩ pid p hp -
    exact hkeys pid (by simp [Act.hasKey, hp])
  refine crew_allStatus ?_ (fun l => ?_) keys
  swap
  · rw [if_neg Bool.false_ne_true]
    exact crew_idle (fun h => by cases h) htrue
  rw [if_pos rfl]
  refine crew_look (a := .counter .slicesLoad) (fun _ => trivial)
    fun s F _ hside after s' hrun => ?_
  obtain ⟨rfl, rfl⟩ := Prod.mk.inj (show (after, s') = (s.slicesStarted, s) from hrun)
  refine ⟨rfl, ?_⟩
  obtain ⟨hshutdown, hle, hcalm⟩ :=
    hside.phase (.calm before (some [])) 0 (Multiset.mem_cons_self _ _)
  by_cases he : s'.slicesStarted = before
  swap
  · rw [if_neg he]
    exact ⟨.calm before (some []), ⟨hshutdown, hle, hcalm⟩, crew_idle (fun h => by cases h) htrue⟩
  rw [if_pos he]
  -- no slice has started since
  obtain ⟨hroles, hleft⟩ := hcalm he
  refine ⟨.still none, ⟨hshutdown, fun x hx => ?_, fun pid p hp hr => ?_, fun _ h => by cases h⟩,
    wp_bind ?_⟩
  · rcases Multiset.mem_cons.mp hx with rfl | hx
    · exact fun h => by cases h
    · exact (hroles x (Multiset.mem_cons_of_mem hx)).2
  · cases hleft [] rfl pid p hp hr
  refine crew_look (a := .keys .ioWaiters) (fun _ => trivial) fun s F _ hside keys s' hrun => ?_
  obtain ⟨hkeys, rfl⟩ := hrun
  obtain ⟨hshutdown, hroles, hrun, -⟩ := hside.phase (.still none) 0 (Multiset.mem_cons_self _ _)
  refine ⟨rfl, .still (some keys), ⟨hshutdown, fun x hx => ?_, hrun, ?_⟩, ?_⟩
  · rcases Multiset.mem_cons.mp hx with rfl | hx
    · exact fun h => by cases h
    · exact hroles x (Multiset.mem_cons_of_mem hx)
  · rintro _ ⟨⟩ t ht
    exact hkeys t ht
  refine crew_noIoWaiter ?_ (fun l => ?_) keys
  · rw [if_pos rfl]
    exact crew_endOrFail hfalse
  · rw [if_neg Bool.false_ne_true]
    exact crew_idle (fun h => by cases h) htrue

/-- What the monitor holds between its rounds, and after the last one. -/
abbrev Parts.idle : Parts := {(.monitor .idle, 0)}

abbrev Parts.finished : Parts := {(.monitor .finished, 0)}

/-- A round of the loop of `run_to_completion`. -/
theorem monitor_follows :
    Crew b (fun r B => B = if r = true then Parts.idle else Parts.finished)
    (monitorLoop (V := V)) Parts.idle := by
  refine wp_act (D := (crew V).discipline) (a := .poll)
    fun s F hinv => ⟨trivial, fun r s' hrun => ?_⟩
  obtain ⟨hflight, rfl⟩ := hrun
  obtain ⟨hinv, hside⟩ := hinv
  rw [Multiset.singleton_add] at hside
  have hinv : Inv s (total F) := by simpa using hinv
  let m : Tokens := (r.map fun c => Token.released c.1 : List Token)
  refine ⟨{(.monitor .io, m)}, ⟨?_, ?_⟩, ?_⟩
  · have hadd := (hinv.add_completions hflight).setInFlight fun t ht =>
      .inl (Finset.mem_of_mem_filter (p := fun token => token ∉ r.map Prod.fst) t ht)
    simpa [m] using hadd
  · rw [Multiset.singleton_add]
    exact hside.monitor (fun hn => absurd trivial hn) rfl
      (hside.phase .idle 0 (Multiset.mem_cons_self _ _))
  refine wp_bind (wp_mono ?_ (wp_team (crew_lets b) (r := .monitor .io) trivial
    (completions_follow r)))
  rintro _ _ ⟨_, rfl, rfl⟩
  refine wp_shift fun s F hinv => ⟨Parts.idle, ?_, crew_checkIdle rfl rfl⟩
  obtain ⟨hinv, hside⟩ := hinv
  refine ⟨by simpa using hinv, ?_⟩
  rw [Multiset.singleton_add] at hside ⊢
  exact hside.monitor light_zero rfl (hside.phase .io 0 (Multiset.mem_cons_self _ _))

/-! ## The discipline is followed -/

/-- What a thread holds between its rounds. -/
def rest {workers : ℕ} : Thread workers → Parts
  | some _ => 0
  | none => .idle

/-- What a thread holds after its last round. -/
def last {workers : ℕ} : Thread workers → Parts
  | some _ => 0
  | none => .finished

/-- **The threads keep to the discipline.** -/
theorem crew_follows (b : Behaviour V) (workers : ℕ) :
    (crew V).discipline.Follows (machine b workers) rest last where
  body c x := by
    refine wp_team_body (crew_lets b) x ?_
    cases c with
    | takeWaiter pid w c => exact takeWaiter_follows pid w c x.1
    | tryCancelInTable pid ts =>
      exact wp_mono (fun _ _ h => ⟨trivial, h⟩) (tryCancel_follows pid ts)
    | drainTerminations ts => exact wp_mono (fun _ _ h => ⟨trivial, h⟩) (drain_follows ts)
    | failDeadlocked stuck => exact x.1.elim
  main i := by
    cases i with
    | some i => exact wp_mono (fun r _ h => by cases r <;> exact h) worker_follows
    | none => exact monitor_follows

end Rounds

end Hiko.Threaded
