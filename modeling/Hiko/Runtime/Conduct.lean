import Hiko.Runtime.Discipline

/-!
# The functions of the runtime follow the discipline

From what it takes, each function keeps the invariant with every access, whatever the other threads
hold, and ends with what it leaves. What a function does after an access may rest on what the access
returned only where a token says that it stays true.

## Main results

* `tryCancel_follows`, `takeWaiter_follows`, `drain_follows`: the functions that loop
* `safe_runTaken`: what a worker does with a process it took
* `completions_follow`: what the monitor does with the completions it took
-/

namespace Hiko.Threaded

open Lib.Interleave
open Lib.Interleave.Prog (perform invoke each)

variable {V α : Type} {b : Behaviour V} {Q : α → Tokens → Prop} {m : Tokens}

/-! ## Taking a process -/

theorem takeIf_some {pid : ℕ} {f : Process V → Bool} {s : Shared V} {p : Process V}
    (hp : s.processes pid = some p) (hok : f p = true) :
    Op.takeIf pid f s =
      (some p, { s with processes := Function.update s.processes pid none }) := by
  simp [Op.takeIf, hp, hok]

theorem takeIf_none {pid : ℕ} {f : Process V → Bool} {s : Shared V}
    (h : ∀ p, s.processes pid = some p → f p = false) : Op.takeIf pid f s = (none, s) := by
  unfold Op.takeIf
  cases hp : s.processes pid with
  | none => rfl
  | some p => simp [h p hp]

theorem blockedOn_iff {pred : BlockReason → Bool} {status : ProcessStatus} :
    blockedOn pred status = true ↔ ∃ reason, status = .blocked reason ∧ pred reason = true := by
  cases status <;> simp [blockedOn]

/-- `remove_if` of a process that is blocked on a reason with the property. -/
theorem safe_takeBlocked {pid : ℕ} {pred : BlockReason → Bool}
    {f : Option (Process V) → Run V α}
    (htaken : ∀ (s : Shared V) F p reason, Inv s (m + F) → s.processes p.pid = some p →
      p.pid = pid → p.status = .blocked reason → pred reason = true →
      ∃ m', Inv { s with processes := Function.update s.processes p.pid none } (m' + F) ∧
        Safe b Q (f (some p)) m')
    (hnone : ∀ (s : Shared V) F, Inv s (m + F) →
      (∀ p reason, s.processes pid = some p → p.status = .blocked reason → pred reason = false) →
      ∃ m', Inv s (m' + F) ∧ Safe b Q (f none) m') :
    Safe b Q (access (.takeBlocked pid pred) >>= f) m := by
  refine safe_access fun s F hinv => ?_
  by_cases h : ∃ p, s.processes pid = some p ∧ blockedOn pred p.status = true
  · obtain ⟨p, hp, hok⟩ := h
    obtain ⟨reason, hr, hpred⟩ := blockedOn_iff.mp hok
    have hpid := hinv.places.key pid p hp
    have hrun := takeIf_some (f := fun p => blockedOn pred p.status) hp hok
    simp only [Op.run, hrun]
    subst hpid
    exact htaken s F p reason hinv hp rfl hr hpred
  · have hno : ∀ p, s.processes pid = some p → blockedOn pred p.status = false :=
      fun p hp => by simpa using fun hok => h ⟨p, hp, hok⟩
    have hrun := takeIf_none (f := fun p => blockedOn pred p.status) hno
    simp only [Op.run, hrun]
    refine hnone s F hinv fun p reason hp hr => ?_
    simpa [blockedOn, hr] using hno p hp

/-- A look whether a process is live. -/
theorem safe_liveContains {pid : ℕ} {f : Bool → Run V α}
    (hlive : ∀ (s : Shared V) F, Inv s (m + F) → pid ∈ s.live →
      ∃ m', Inv s (m' + F) ∧ Safe b Q (f true) m')
    (hdead : ∀ (s : Shared V) F, Inv s (m + F) → pid ∉ s.live →
      ∃ m', Inv s (m' + F) ∧ Safe b Q (f false) m') :
    Safe b Q (access (.liveContains pid) >>= f) m := by
  refine safe_access fun s F hinv => ?_
  by_cases h : pid ∈ s.live
  · simp only [Op.run, h, decide_true]
    exact hlive s F hinv h
  · simp only [Op.run, h, decide_false]
    exact hdead s F hinv h

/-! ## Cancellation -/

/-- `try_cancel_in_table`. -/
theorem tryCancel_follows (pid : ℕ) (ts : Terminations V) :
    Safe b (fun r n => n = toks r.2) (tryCancelInTable pid ts) (toks ts) := by
  refine safe_takeBlocked ?_ ?_
  · intro s F p reason hinv hp hpid hr _
    refine ⟨.seat (p.hold .doomed ∅ (regsOf reason) (ioOf reason)) ::ₘ toks ts, ?_, ?_⟩
    · rw [Multiset.cons_add]
      exact hinv.takeDoomed hp hr
    · exact safe_bind (safe_clear hr (safe_pure rfl))
  · intro s F hinv _
    refine ⟨toks ts, hinv, safe_access fun s F hinv => ⟨toks ts, ?_, ?_⟩⟩
    · simp only [Op.run]
      cases hp : s.processes pid with
      | none => exact hinv
      | some p =>
        have hpid := hinv.places.key pid p hp
        subst hpid
        dsimp only
        split
        · exact hinv.request hp _
        · exact hinv
    · generalize (Op.run b.requestCancellation (.requestInTable pid) s).1 = r
      change Option ProcessStatus at r
      cases r with
      | none => exact safe_pure rfl
      | some status =>
        cases status with
        | blocked reason =>
          have hcall : Safe b (fun r n => n = toks r.2) (call (.tryCancelInTable pid ts) >>= pure)
              (toks ts + 0) := safe_tryCancel fun r => safe_pure (by rw [add_zero])
          rwa [add_zero] at hcall
        | _ => exact safe_pure rfl

/-- `cancel_pid`. -/
theorem safe_cancelPid {Q : Terminations V → Tokens → Prop} {pid : ℕ} {ts : Terminations V}
    (h : ∀ ts', Q ts' (toks ts' + m)) : Safe b Q (cancelPid pid ts) (toks ts + m) := by
  refine safe_tryCancel fun r => ?_
  by_cases hr : r.1 = true
  · rw [if_pos hr]
    exact safe_pure (h r.2)
  · rw [if_neg hr]
    refine safe_access fun s F hinv => ⟨.unpend pid ::ₘ (toks r.2 + m), ?_, ?_⟩
    · rw [Multiset.cons_add]
      exact hinv.pendingInsert pid
    refine safe_liveContains (fun s F hinv hlive => ?_) fun s F hinv _ => ?_
    · rw [Multiset.cons_add] at hinv
      refine ⟨toks r.2 + m, hinv.drop_unpend hlive, ?_⟩
      rw [if_pos rfl]
      exact safe_tryCancel fun r' => safe_pure (h r'.2)
    · refine ⟨_, hinv, ?_⟩
      rw [if_neg (by simp)]
      refine safe_access fun s F hinv => ⟨toks r.2 + m, ?_, safe_pure (h r.2)⟩
      rw [Multiset.cons_add] at hinv
      exact hinv.pendingClear

/-- `park`. -/
theorem safe_park {Q : Terminations V → Tokens → Prop} {p : Process V} {ts : Terminations V}
    {n : Tokens}
    (hput : ∀ (s : Shared V) F, Inv s (n + F) →
      Inv { s with processes := Function.update s.processes p.pid (some p) } (toks ts + m + F))
    (h : ∀ ts', Q ts' (toks ts' + m)) : Safe b Q (park p ts) n := by
  refine safe_access fun s F hinv => ⟨toks ts + m, hput s F hinv, ?_⟩
  refine safe_access fun s F hinv => ⟨toks ts + m, hinv.pendingRemove p.pid, ?_⟩
  by_cases hc : p.pid ∈ s.pendingCancels
  · simp only [Op.run, hc, decide_true, if_true]
    exact safe_tryCancel fun r => safe_pure (h r.2)
  · simp only [Op.run, hc, decide_false, Bool.false_eq_true, if_false]
    exact safe_pure (h ts)

/-! ## Delivery -/

theorem safe_deliverAwaitOutcome {Q : Except ProcessFailure Unit × V → Tokens → Prop} {vm : V}
    {kind : AwaitKind} {outcome : ChildOutcome} (h : ∀ r, Q r m) :
    Safe b Q (deliverAwaitOutcome vm kind outcome) m := by
  cases kind <;> cases outcome
  · exact safe_silent_last (fun _ _ _ hr => hr.2) trivial h
  · exact safe_pure (h _)
  · exact safe_silent_last (fun _ _ _ hr => hr.2) trivial h
  · exact safe_silent_last (fun _ _ _ hr => hr.2) trivial h

theorem safe_answerAlreadyJoined {Q : Except ProcessFailure Unit × V → Tokens → Prop} {vm : V}
    {kind : AwaitKind} (h : ∀ r, Q r m) : Safe b Q (answerAlreadyJoined vm kind) m := by
  cases kind
  · exact safe_pure (h _)
  · exact safe_silent_last (fun _ _ _ hr => hr.2) trivial h

/-- `consume_child`, after the outcome was taken. -/
theorem safe_consumeChild {Q : Terminations V → Tokens → Prop} {p : Process V} {c : ℕ}
    {outcome : ChildOutcome} {kind : AwaitKind} {ts : Terminations V} {A : Finset ℕ}
    (h : ∀ ts', Q ts' (toks ts' + m)) :
    Safe b Q (consumeChild p c outcome kind ts)
      (.seat ({ p with children := p.children.erase c }.hold .working A ∅ none) ::ₘ
        (toks ts + m)) :=
  safe_bind (safe_deliverAwaitOutcome fun _ => safe_resumeOrFail h)

theorem safe_deliverAlreadyJoined {Q : Terminations V → Tokens → Prop} {p : Process V}
    {kind : AwaitKind} {ts : Terminations V} {A : Finset ℕ} (h : ∀ ts', Q ts' (toks ts' + m)) :
    Safe b Q (deliverAlreadyJoined p kind ts)
      (.seat (p.hold .working A ∅ none) ::ₘ (toks ts + m)) :=
  safe_bind (safe_answerAlreadyJoined fun _ => safe_resumeOrFail h)

/-! ## Waking -/

/-- What a wakeup knows of the child. -/
theorem Inv.woken {s : Shared V} {T : Tokens} (h : Inv s T) {w : WaitMap} {c : ℕ}
    {l : Option (List ℕ)} (hw : Token.wake w c l ∈ T) :
    Gone (Placed s.processes T) s.live s.nextPid c :=
  h.waits.gone w c ⟨l, hw⟩

/-- A process that is blocked for other reasons, or has ended, does not wait for the child. -/
theorem Inv.off {s : Shared V} {T : Tokens} (h : Inv s T) {w : WaitMap} {c : ℕ} {p : Process V}
    (hp : s.processes p.pid = some p) (hstatus : blockedOn (waitsFor w c) p.status = false) :
    ∀ x, Placed s.processes T x → x.pid = p.pid → (w, c) ∉ x.regs ∧ c ∉ x.targets := by
  intro x hx hpid
  by_cases hl : p.isLive = true
  · rw [h.placed_uniq (placed_of_table hp hl) x hx (hpid.trans p.seat_pid.symm)]
    refine ⟨?_, by simp⟩
    cases hs : p.status with
    | blocked reason =>
      rw [p.seat_blocked hs]
      rw [hs] at hstatus
      exact fun hr => absurd (mem_regsOf.mp hr) (by simpa [blockedOn] using hstatus)
    | runnable => simp [p.seat_runnable hs, Process.hold]
    | _ => simp [Proc.isLive, hs] at hl
  · obtain ⟨-, hr, ht⟩ := ((h.ended p.pid ⟨p, hp, by simpa using hl⟩).2 x hx).2 hpid
    simp [hr, ht]

/-- `take_waiter`. -/
theorem takeWaiter_follows (pid : ℕ) (w : WaitMap) (c : ℕ) (l : List ℕ) :
    Safe b (fun r n => ensures (.takeWaiter pid w c) l r ∧ n = leaves (.takeWaiter pid w c) l r)
      (takeWaiter pid w c) {.wake w c (some (pid :: l))} := by
  refine safe_takeBlocked ?_ ?_
  · rintro s F p reason hinv hp rfl hr hpred
    have hl : p.isLive = true := by simp [Proc.isLive, hr]
    have hplaced := placed_of_table (T := {.wake w c (some (p.pid :: l))} + F) hp hl
    rw [Multiset.singleton_add] at hinv
    refine ⟨.seat (p.hold .working ∅ p.seat.regs none) ::ₘ {.wake w c (some l)}, ?_,
      safe_pure ⟨?_, rfl⟩⟩
    · rw [Multiset.cons_add, Multiset.singleton_add, p.seat_blocked hr]
      exact hinv.takeWaiting hp hr hpred
    · rintro _ ⟨⟩
      rw [Multiset.singleton_add] at hplaced
      have hkid := hinv.waits.reg_kid _ hplaced w c (by
        rw [p.seat_blocked hr]
        exact mem_regsOf.mpr hpred)
      rw [p.seat_children] at hkid
      exact ⟨rfl, hkid, reason, hr, hpred⟩
  intro s F hinv _
  refine ⟨_, hinv, safe_access fun s F hinv => ?_⟩
  rw [Multiset.singleton_add] at hinv
  have hgone := hinv.woken (Multiset.mem_cons_self _ _)
  have hborn := hinv.waits.born pid (seen_cons_iff.mpr (.inl (List.mem_cons_self ..)))
  -- the waiter will not wait for the child any more
  have hstale : (∀ x, Placed s.processes (.wake w c (some (pid :: l)) ::ₘ F) x → x.pid = pid →
      (w, c) ∉ x.regs ∧ c ∉ x.targets) →
      Inv s (.stale w c pid ::ₘ {.wake w c (some l)} + F) := fun hoff => by
    have h1 := hinv.add_stale hgone hoff hborn
    rw [Multiset.cons_swap] at h1
    have h2 := h1.wake_skip fun x hx _ hpid => (h1.waits.stale_off w c pid
      (Multiset.mem_cons_of_mem (Multiset.mem_cons_self _ _)) x (by simpa using hx) hpid).1
    rw [Multiset.cons_swap] at h2
    rwa [Multiset.cons_add, Multiset.singleton_add]
  cases hp : s.processes pid with
  | some p =>
    have hpid := hinv.places.key pid p hp
    subst hpid
    by_cases hstatus : blockedOn (waitsFor w c) p.status = true
    · refine ⟨{.wake w c (some (p.pid :: l))}, by rwa [Multiset.singleton_add], ?_⟩
      simp only [Op.run, hp, Option.map_some, hstatus, if_true]
      refine safe_takeWaiter (f := pure) (m := 0) (fun p' hpid hc hr => safe_pure ⟨?_, rfl⟩)
        (safe_pure ⟨(fun _ he => by cases he), rfl⟩) (safe_pure ⟨(fun _ he => by cases he), rfl⟩)
      rintro _ ⟨⟩
      exact ⟨hpid, hc, hr⟩
    · have hinv' := hstale (hinv.off hp (by simpa using hstatus))
      refine ⟨_, hinv', ?_⟩
      simp only [Op.run, hp, Option.map_some, hstatus]
      exact safe_pure ⟨(fun _ he => by cases he), rfl⟩
  | none =>
    -- it is not parked now, and the thread remembers that it has been seen
    have hdue := (hinv.add_due w (l := [pid]) ∅ fun v hv => by
      rw [List.mem_singleton.mp hv]
      exact hborn)
    rw [Multiset.cons_swap] at hdue
    have hskip := hdue.wake_skip fun x hx hs hpid => by
      rcases hx with ⟨p, hp', -⟩ | hx
      · rw [hpid, hp] at hp'
        cases hp'
      · exact absurd hs (hdue.places.hand x (Multiset.mem_cons_of_mem hx)).2
    refine ⟨.wake w c (some l) ::ₘ {.due w [pid] ∅}, ?_, ?_⟩
    · rwa [Multiset.cons_add, Multiset.singleton_add]
    simp only [Op.run, hp, Option.map_none]
    refine safe_liveContains (fun s F hinv hlive => ?_) fun s F hinv hdead => ?_
    · refine ⟨{.wake w c (some l)}, ?_, ?_⟩
      · rw [Multiset.cons_add, Multiset.singleton_add, Multiset.cons_swap] at hinv
        rw [Multiset.singleton_add]
        exact hinv.due_none
      · rw [if_pos rfl]
        exact safe_pure ⟨(fun _ he => by cases he), rfl⟩
    · rw [Multiset.cons_add, Multiset.singleton_add] at hinv
      have hborn := hinv.waits.born pid
        ⟨_, Multiset.mem_cons_of_mem (Multiset.mem_cons_self _ _), List.mem_singleton_self pid⟩
      have hinv' := hinv.add_stale (w := pid) (m := w) (hinv.woken (Multiset.mem_cons_self _ _))
        (fun x hx hpid => absurd (hinv.places.live_of_placed hx) (hpid ▸ hdead)) hborn
      refine ⟨.stale w c pid ::ₘ {.wake w c (some l)}, ?_, ?_⟩
      · rw [Multiset.cons_add, Multiset.singleton_add]
        rw [Multiset.cons_swap (Token.wake w c (some l)),
          Multiset.cons_swap (Token.stale w c pid)] at hinv'
        exact hinv'.due_none
      · rw [if_neg (by simp)]
        exact safe_pure ⟨(fun _ he => by cases he), rfl⟩

/-- `remove_stale_waiter`. -/
theorem safe_removeStale {Q : Unit → Tokens → Prop} {w : WaitMap} {c pid : ℕ} (h : Q () m) :
    Safe b Q (removeStaleWaiter w c pid) (.stale w c pid ::ₘ m) := by
  refine safe_liveContains (fun s F hinv _ => ⟨_, hinv, ?_⟩) fun s F hinv hdead => ?_
  · rw [if_pos rfl]
    refine safe_last fun s F hinv => ⟨m, ?_, h⟩
    rw [Multiset.cons_add] at hinv
    have hoff : pid ∉ s.waiters w c := fun hin => by
      obtain ⟨x, hx, hpid, hr⟩ := (hinv.waits.reg w c pid).mp hin
      exact (hinv.waits.stale_off w c pid (Multiset.mem_cons_self _ _) x hx hpid).1 hr
    exact (hinv.removeWaiter_none hoff).drop_stale
  · rw [if_neg (by simp)]
    rw [Multiset.cons_add] at hinv
    have hborn := hinv.waits.born pid
      (seen_cons_iff.mpr (.inl (List.mem_singleton_self pid)))
    have hinv' := (hinv.add_stale (m := w) (c := pid) (w := pid) ⟨hborn.1, hdead, hborn.2⟩
      (fun x hx hpid => absurd (hinv.places.live_of_placed hx) (hpid ▸ hdead)) hborn)
    rw [Multiset.cons_swap] at hinv'
    refine ⟨.stale w pid pid ::ₘ m, by rw [Multiset.cons_add]; exact hinv'.drop_stale, ?_⟩
    -- a process that is gone is in no list of waiters
    refine safe_silent (fun _ _ _ hr => hr.2) trivial fun keys => ?_
    have heach := safe_each (b := b) (f := fun c => access (.removeWaiter w c pid))
      (R := fun _ n => n = .stale w pid pid ::ₘ m) ?_ keys _ rfl
    · refine safe_end (safe_mono ?_ heach)
      rintro _ _ rfl s F hinv
      rw [Multiset.cons_add] at hinv
      exact ⟨m, hinv.drop_stale, h⟩
    · rintro c' _ _ rfl
      refine safe_last fun s F hinv => ⟨_, ?_, rfl⟩
      have hgone := hinv.waits.stale_gone w pid pid (by simp)
      refine hinv.removeWaiter_none fun hin => ?_
      obtain ⟨x, hx, hpid, -⟩ := (hinv.waits.reg w c' pid).mp hin
      exact hgone.2.1 (hpid ▸ hinv.places.live_of_placed hx)

/-- The scan of the children of a process that is woken finds one that has ended. -/
theorem safe_findTerminated {Q : Option ℕ → Tokens → Prop} {w : WaitMap} {c : ℕ}
    {l : Option (List ℕ)} {cs : List ℕ} (hc : c ∈ cs) (h : ∀ d, Q (some d) (.wake w c l ::ₘ m)) :
    Safe b Q (findTerminated cs) (.wake w c l ::ₘ m) := by
  induction cs with
  | nil => cases hc
  | cons d ds ih =>
    refine safe_liveContains (fun s F hinv hlive => ⟨_, hinv, ?_⟩) fun s F hinv _ => ⟨_, hinv, ?_⟩
    · rw [if_pos rfl]
      refine ih ((List.mem_cons.mp hc).resolve_left ?_)
      rintro rfl
      rw [Multiset.cons_add] at hinv
      exact (hinv.woken (Multiset.mem_cons_self _ _)).2.1 hlive
    · rw [if_neg (by simp)]
      exact safe_pure (h d)

/-- One waiter of `wake_any_waiters`. -/
theorem safe_wakeAnyWaiter {Q : Terminations V → Tokens → Prop} {c pid : ℕ} {l : List ℕ}
    {ts : Terminations V} (h : ∀ ts', Q ts' (.wake .anyWaiters c (some l) ::ₘ (toks ts' + m))) :
    Safe b Q (wakeAnyWaiter c pid ts)
      (.wake .anyWaiters c (some (pid :: l)) ::ₘ (toks ts + m)) := by
  refine safe_takeWaiter ?_ (safe_pure (h ts)) (safe_bind (safe_removeStale (safe_pure (h ts))))
  rintro p rfl - ⟨reason, hr, hw⟩
  obtain ⟨cs, rfl⟩ : ∃ cs, reason = .waitAny cs := by
    cases reason with
    | waitAny cs => exact ⟨cs, rfl⟩
    | _ => simp [waitsFor] at hw
  have hc : c ∈ cs := by simpa [waitsFor] using hw
  rw [p.seat_blocked hr]
  simp only [hr, Process.hold]
  rw [Multiset.cons_swap]
  refine safe_bind (safe_findTerminated hc fun d => ?_)
  rw [Multiset.cons_swap]
  refine safe_bind (safe_removeAny (p := p) (by simp) regsOf_waitAny ?_)
  refine safe_silent (fun _ _ _ hr => hr.2) trivial fun r => ?_
  have hresume : Safe b Q (resumeOrFail p r ts) (.seat (p.hold .working ∅ ∅ none) ::ₘ
      (toks ts + .wake .anyWaiters c (some l) ::ₘ m)) := safe_resumeOrFail fun ts' => by
    rw [Multiset.add_cons]
    exact h ts'
  rwa [Multiset.add_cons] at hresume

theorem safe_wakeAnyLoop {Q : Terminations V → Tokens → Prop} {c : ℕ}
    (h : ∀ ts', Q ts' (toks ts' + m)) : ∀ (l : List ℕ) (ts : Terminations V),
    Safe b Q (wakeAnyLoop c l ts) (.wake .anyWaiters c (some l) ::ₘ (toks ts + m))
  | [], ts => safe_shift fun s F hinv => by
    rw [Multiset.cons_add] at hinv
    exact ⟨_, hinv.wake_end, safe_pure (h ts)⟩
  | _ :: l, _ => safe_bind (safe_wakeAnyWaiter fun ts' => safe_wakeAnyLoop h l ts')

/-- `wake_any_waiters`. -/
theorem safe_wakeAny {Q : Terminations V → Tokens → Prop} {c : ℕ} {ts : Terminations V}
    (h : ∀ ts', Q ts' (toks ts' + m)) :
    Safe b Q (wakeAnyWaiters c ts) (.wake .anyWaiters c none ::ₘ (toks ts + m)) := by
  refine safe_access fun s F hinv => ?_
  rw [Multiset.cons_add] at hinv
  refine ⟨.wake .anyWaiters c (some (s.waiters .anyWaiters c)) ::ₘ (toks ts + m), ?_, ?_⟩
  · rw [Multiset.cons_add]
    exact hinv.wake_get
  · exact safe_wakeAnyLoop h _ ts

/-- One waiter of `wake_join_waiters`. -/
theorem safe_wakeJoinWaiter {Q : Terminations V → Tokens → Prop} {c pid : ℕ} {l : List ℕ}
    {ts : Terminations V} (h : ∀ ts', Q ts' (.wake .waiters c (some l) ::ₘ (toks ts' + m))) :
    Safe b Q (wakeJoinWaiter c pid ts)
      (.wake .waiters c (some (pid :: l)) ::ₘ (toks ts + m)) := by
  refine safe_takeWaiter ?_ (safe_pure (h ts)) (safe_bind (safe_removeStale (safe_pure (h ts))))
  rintro p rfl hkid ⟨reason, hr, hw⟩
  obtain ⟨kind, rfl⟩ : ∃ kind, reason = .await c kind := by
    cases reason with
    | await d kind =>
      obtain rfl : d = c := by simpa [waitsFor] using hw
      exact ⟨kind, rfl⟩
    | _ => simp [waitsFor] at hw
  rw [p.seat_blocked hr]
  simp only [hr, Process.hold]
  have hregs : (regsOf (.await c kind)).erase (.waiters, c) = ∅ := by simp [regsOf]
  have hfinish : ∀ ts', Q ts' (toks ts' + .wake .waiters c (some l) ::ₘ m) := fun ts' => by
    rw [Multiset.add_cons]
    exact h ts'
  refine safe_access fun s F hinv => ⟨.seat (p.held .working) ::ₘ .wake .waiters c (some l) ::ₘ
    (toks ts + m), ?_, ?_⟩
  · rw [Multiset.cons_add] at hinv ⊢
    have hremove := Inv.removeWaiter (p := p) (m := .waiters) (c := c) hinv
      (by simp)
    rwa [hregs] at hremove
  refine safe_access fun s F hinv =>
    ⟨.seat ({ p with children := p.children.erase c }.held .working)
    ::ₘ .wake .waiters c (some l) ::ₘ (toks ts + m), ?_, ?_⟩
  · rw [Multiset.cons_add] at hinv ⊢
    exact hinv.consumeTombstone hkid (hinv.woken (w := .waiters) (l := some l) (by simp)).2.1
  · rw [← Multiset.add_cons]
    simp only [Op.run]
    cases s.tombstones c with
    | some record => exact safe_consumeChild hfinish
    | none => exact safe_deliverAlreadyJoined hfinish

theorem safe_wakeJoinLoop {Q : Terminations V → Tokens → Prop} {c : ℕ}
    (h : ∀ ts', Q ts' (toks ts' + m)) : ∀ (l : List ℕ) (ts : Terminations V),
    Safe b Q (wakeJoinLoop c l ts) (.wake .waiters c (some l) ::ₘ (toks ts + m))
  | [], ts => safe_shift fun s F hinv => by
    rw [Multiset.cons_add] at hinv
    exact ⟨_, hinv.wake_end, safe_pure (h ts)⟩
  | _ :: l, _ => safe_bind (safe_wakeJoinWaiter fun ts' => safe_wakeJoinLoop h l ts')

/-- Nobody waits for a process that has no parent. -/
theorem Inv.waiters_orphan {s : Shared V} {T : Tokens} (h : Inv s T) {c : ℕ}
    (hc : ∀ x, Placed s.processes T x → c ∉ x.children) (w : WaitMap) : s.waiters w c = [] := by
  refine List.eq_nil_iff_forall_not_mem.mpr fun pid hpid => ?_
  obtain ⟨x, hx, -, hr⟩ := (h.waits.reg w c pid).mp hpid
  exact hc x hx (h.waits.reg_kid x hx w c hr)

/-- Where nobody waits for the child, the wakeups of a list are owed to nobody. -/
theorem Inv.wake_drop {s : Shared V} {T : Tokens} {w : WaitMap} {c : ℕ} {l : List ℕ}
    (h : Inv s (.wake w c (some l) ::ₘ T))
    (hoff : ∀ x, Placed s.processes T x → (w, c) ∉ x.regs) : Inv s T := by
  induction l with
  | nil => exact h.wake_end
  | cons pid l ih => exact ih (h.wake_skip fun x hx _ _ => hoff x hx)

/-- `wake_join_waiters`. -/
theorem safe_wakeJoin {Q : Terminations V → Tokens → Prop} {c : ℕ} {ts : Terminations V}
    (h : ∀ ts', Q ts' (toks ts' + m)) :
    Safe b Q (wakeJoinWaiters c ts) (.wake .waiters c none ::ₘ (toks ts + m)) := by
  refine safe_access fun s F hinv => ?_
  rw [Multiset.cons_add] at hinv
  generalize hl : s.waiters .waiters c = l
  have hget := hinv.wake_get
  rw [hl] at hget
  simp only [Op.run, hl]
  by_cases hnil : l = []
  · subst hnil
    exact ⟨_, hget.wake_end, by rw [if_pos rfl]; exact safe_pure (h ts)⟩
  refine ⟨.wake .waiters c (some l) ::ₘ (toks ts + m), by rwa [Multiset.cons_add], ?_⟩
  rw [if_neg hnil]
  refine safe_access fun s F hinv => ?_
  cases htomb : s.tombstones c with
  | some record =>
    refine ⟨_, hinv, ?_⟩
    simp only [Op.run, htomb, Option.isSome_some, if_true]
    exact safe_wakeJoinLoop h l ts
  | none =>
    -- the outcome has been taken: the child has no parent now
    rw [Multiset.cons_add] at hinv
    have hgone := hinv.woken (Multiset.mem_cons_self _ _)
    have hkids : ∀ x, Placed s.processes (.wake .waiters c (some l) ::ₘ (toks ts + m + F)) x →
        c ∉ x.children := fun x hx hc => by
      rcases hinv.family.kids x hx c hc with hl | hf | ht
      · exact hgone.2.1 hl
      · exact hgone.2.2 x hx hf
      · simp [htomb] at ht
    have horphan := hinv.add_orphan hgone.1 hkids
    rw [Multiset.cons_swap] at horphan
    have hdrop := horphan.wake_drop fun x hx hr => hkids x (by simpa using hx)
      (horphan.waits.reg_kid x (by simpa using hx) .waiters c hr)
    refine ⟨.orphan c ::ₘ (toks ts + m), by rwa [Multiset.cons_add], ?_⟩
    simp only [Op.run, htomb, Option.isSome_none, Bool.false_eq_true, if_false]
    refine safe_access fun s F hinv => ⟨toks ts + m, ?_, safe_pure (h ts)⟩
    rw [Multiset.cons_add] at hinv
    have hnone := hinv.waiters_orphan
      (hinv.family.reaped c (.inr (Multiset.mem_cons_self _ _))).2 .waiters
    exact (hinv.waitersRemove_none hnone).drop_orphan

/-! ## Termination -/

/-- The first step of `finish_process`. -/
theorem safe_recordOutcome {Q : Unit → Tokens → Prop} {p : Process V} {outcome : ChildOutcome}
    (h : Q () (.seat (p.held .recorded) ::ₘ m)) :
    Safe b Q (recordOutcome p outcome) (.seat (p.held .doomed) ::ₘ m) := by
  unfold recordOutcome
  cases ha : p.parent with
  | none =>
    refine safe_last fun s F hinv => ⟨_, ?_, h⟩
    rw [Multiset.cons_add] at hinv ⊢
    refine (hinv.recordRoot ha).putRoot
      (p := { p with status := _, parent := none, children := ∅ }) rfl ⟨rfl, rfl, rfl⟩ ?_ rfl
    cases outcome <;> rfl
  | some a =>
    refine safe_access fun s F hinv => ⟨.seat (p.held .recorded) ::ₘ .recheck p.pid ::ₘ m, ?_, ?_⟩
    · rw [Multiset.cons_add] at hinv
      rw [Multiset.cons_add, Multiset.cons_add]
      exact hinv.recordTombstone ha
    refine safe_liveContains (fun s F hinv hlive => ?_) fun s F hinv hdead => ?_
    all_goals
      rw [Multiset.cons_add, Multiset.cons_add, Multiset.cons_swap] at hinv
      have hp : Placed s.processes (.recheck p.pid ::ₘ .seat (p.held .recorded) ::ₘ (m + F))
          (p.held .recorded) := .inr (by simp)
    · refine ⟨.seat (p.held .recorded) ::ₘ m, ?_, by rw [if_pos rfl]; exact safe_pure h⟩
      rw [Multiset.cons_add]
      refine hinv.drop_recheck fun r hr => ?_
      -- the record names the parent, which is live
      obtain ⟨x, hx, rfl⟩ := hinv.places.placed_of_live hlive
      have hkid := hinv.family.child_of x hx _ hp ha
      rwa [hinv.family.tomb_owner p.pid r hr x hx hkid]
    · refine ⟨.reap p.pid ::ₘ .seat (p.held .recorded) ::ₘ m, ?_, ?_⟩
      · rw [Multiset.cons_add, Multiset.cons_add]
        refine hinv.recheck_reap (hinv.family.pos _ hp) fun x hx hc => hdead ?_
        have hparent : some a = some x.pid := ha.symm.trans
          (hinv.family.parent_of x (by simpa using hx) _ hp hc)
        rw [Option.some.inj hparent]
        exact hinv.places.live_of_placed (by simpa using hx)
      · rw [if_neg (by simp)]
        refine safe_access fun s F hinv => ⟨_, ?_, safe_pure h⟩
        rw [Multiset.cons_add] at hinv
        exact hinv.reapTombstone

/-- The end of a scope. -/
theorem safe_cancelChildren {Q : Terminations V → Tokens → Prop}
    (h : ∀ ts', Q ts' (toks ts' + m)) : ∀ (l : List ℕ) (ts : Terminations V),
    Safe b Q (cancelChildren l ts) ((l.map Token.reap : List Token) + (toks ts + m))
  | [], ts => safe_pure (by simpa using h ts)
  | c :: l, ts => by
    rw [List.map_cons, ← Multiset.cons_coe, Multiset.cons_add]
    have hrest : ∀ ts', Safe b Q (do
        let _ ← access (.tombstonesRemove c)
        cancelChildren l ts') (.reap c ::ₘ ((l.map Token.reap : List Token) + (toks ts' + m))) :=
      fun ts' => safe_access fun s F hinv => by
        rw [Multiset.cons_add] at hinv
        exact ⟨_, hinv.reapTombstone, safe_cancelChildren h l ts'⟩
    refine safe_liveContains (fun s F hinv _ => ⟨_, hinv, ?_⟩) fun s F hinv _ => ⟨_, hinv, ?_⟩
    · rw [if_pos rfl, add_left_comm, ← Multiset.add_cons]
      refine safe_bind (safe_cancelPid fun ts' => ?_)
      rw [Multiset.add_cons, add_left_comm]
      exact hrest ts'
    · rw [if_neg (by simp)]
      exact safe_bind (safe_pure (hrest ts))

/-- A visit of a hash set. -/
theorem safe_visit {C : Finset ℕ} {f : List ℕ → Run V α}
    (h : ∀ l : List ℕ, (l : Multiset ℕ) = C.val → Safe b Q (f l) m) :
    Safe b Q (action (.visit C) >>= f) m := by
  refine wp_act (D := discipline V) (a := .visit C) fun s F hinv => ⟨trivial, fun l s' hrun => ?_⟩
  obtain ⟨hmem, hnodup, rfl⟩ := hrun
  exact ⟨m, hinv, h l ((Multiset.Nodup.ext (Multiset.coe_nodup.mpr hnodup) C.nodup).mpr hmem)⟩

/-- `finish_process`. -/
theorem safe_finishProcess {Q : Terminations V → Tokens → Prop} {p : Process V}
    {outcome : ChildOutcome} {ts : Terminations V} (h : ∀ ts', Q ts' (toks ts' + m)) :
    Safe b Q (finishProcess p outcome ts) (.seat (p.held .doomed) ::ₘ (toks ts + m)) := by
  refine safe_access fun s F hinv => ⟨.seat (p.held .doomed) ::ₘ (toks ts + m), ?_, ?_⟩
  · rw [Multiset.cons_add] at hinv ⊢
    exact hinv.schedulerRemove
  refine safe_bind (safe_recordOutcome ?_)
  refine safe_access fun s F hinv => ⟨.unpend p.pid ::ₘ .wake .waiters p.pid none ::ₘ
    .wake .anyWaiters p.pid none ::ₘ (Inv.reaps p.children + (toks ts + m)), ?_, ?_⟩
  · rw [Multiset.cons_add] at hinv
    have hremove := hinv.liveRemove
    rw [Multiset.cons_swap (Token.wake .anyWaiters p.pid none), Multiset.cons_swap] at hremove
    simp only [Multiset.cons_add, add_assoc] at hremove ⊢
    exact hremove
  refine safe_access fun s F hinv => ⟨.wake .waiters p.pid none ::ₘ
    .wake .anyWaiters p.pid none ::ₘ (Inv.reaps p.children + (toks ts + m)), ?_, ?_⟩
  · rw [Multiset.cons_add] at hinv
    exact hinv.pendingClear
  refine safe_visit fun l hl => ?_
  have hreaps : Inv.reaps p.children = (l.map Token.reap : List Token) := by
    rw [Inv.reaps, ← hl, Multiset.map_coe]
  rw [hreaps, ← Multiset.add_cons, ← Multiset.add_cons, ← Multiset.add_cons, ← Multiset.add_cons]
  refine safe_bind (safe_cancelChildren (fun ts' => ?_) l ts)
  rw [Multiset.add_cons, Multiset.add_cons, Multiset.cons_swap, ← Multiset.add_cons]
  refine safe_bind (safe_wakeAny fun ts' => ?_)
  rw [Multiset.add_cons]
  exact safe_wakeJoin h

/-- `drain_terminations`. -/
theorem drain_follows (ts : Terminations V) :
    Safe b (fun _ n => n = 0) (drainTerminations ts) (toks ts) := by
  cases ts with
  | nil => exact safe_pure rfl
  | cons t ts =>
    obtain ⟨p, outcome⟩ := t
    rw [toks_cons, ← add_zero (toks ts)]
    exact safe_bind (safe_finishProcess fun ts' => safe_drain rfl)

/-! ## Requests -/

/-- A child that a process knows is not a child to come. -/
theorem Inv.born_child {s : Shared V} {T : Tokens} (h : Inv s T) {x : Seat}
    (hx : Placed s.processes T x) (hfresh : x.fresh = none) {c : ℕ} (hc : c ∈ x.children) :
    c < s.nextPid ∧ ∀ y, Placed s.processes T y → y.fresh ≠ some c := by
  refine ⟨(h.family.child_lt x hx c hc).2, fun y hy hf => ?_⟩
  have hpid := h.family.disjoint y hy x hx c (h.family.fresh y hy c hf).1 hc
  rw [h.placed_uniq hx y hy hpid, hfresh] at hf
  cases hf

/-- `classify_child`: a child that is live may be waited for, and one that has ended stays so. -/
theorem safe_classifyChild {Q : ChildState → Tokens → Prop} {p : Process V} {A : Finset ℕ} {c : ℕ}
    (hlive : c ∈ p.children → Q .live (.seat (p.hold .working (insert c A) ∅ none) ::ₘ m))
    (hdead : c ∈ p.children →
      Q .terminated (.seat (p.hold .working A ∅ none) ::ₘ .stale .waiters c c ::ₘ m))
    (hother : ∀ r, r ≠ .live → r ≠ .terminated → Q r (.seat (p.hold .working A ∅ none) ::ₘ m)) :
    Safe b Q (classifyChild p c) (.seat (p.hold .working A ∅ none) ::ₘ m) := by
  unfold classifyChild
  by_cases hc : c ∈ p.children
  · rw [if_pos hc]
    refine safe_liveContains (fun s F hinv hl => ?_) fun s F hinv hl => ?_
    · refine ⟨.seat (p.hold .working (insert c A) ∅ none) ::ₘ m, ?_, ?_⟩
      · rw [Multiset.cons_add] at hinv ⊢
        exact hinv.target hc hl
      · rw [if_pos rfl]
        exact safe_pure (hlive hc)
    · refine ⟨.seat (p.hold .working A ∅ none) ::ₘ .stale .waiters c c ::ₘ m, ?_, ?_⟩
      · rw [Multiset.cons_add] at hinv
        rw [Multiset.cons_add, Multiset.cons_add, Multiset.cons_swap]
        have hborn := hinv.born_child (.inr (Multiset.mem_cons_self _ _)) rfl hc
        exact hinv.add_stale ⟨hborn.1, hl, hborn.2⟩
          (fun x hx hpid => absurd (hinv.places.live_of_placed hx) (hpid ▸ hl)) hborn
      · rw [if_neg (by simp)]
        exact safe_pure (hdead hc)
  · rw [if_neg hc]
    have hno : ∀ r, r ≠ .live → r ≠ .terminated →
        Safe b Q (pure r) (.seat (p.hold .working A ∅ none) ::ₘ m) := fun r h₁ h₂ =>
      safe_pure (hother r h₁ h₂)
    have hnotChild := hno .notChild (by simp) (by simp)
    have hunknown := hno .unknown (by simp) (by simp)
    have hreaped := hno .reaped (by simp) (by simp)
    refine safe_access fun s F hinv => ⟨_, hinv, ?_⟩
    refine safe_ite hnotChild ?_
    refine safe_access fun s F hinv => ⟨_, hinv, ?_⟩
    refine safe_ite hnotChild ?_
    refine safe_access fun s F hinv => ⟨_, hinv, ?_⟩
    refine safe_ite hnotChild (safe_ite ?_ hunknown)
    refine safe_access fun s F hinv => ⟨_, hinv, ?_⟩
    exact safe_ite hreaped hunknown

/-- `block_on_child`. -/
theorem safe_blockOnChild {Q : Terminations V → Tokens → Prop} {p : Process V} {A : Finset ℕ}
    {c : ℕ} {kind : AwaitKind} {ts : Terminations V} (hc : c ∈ A)
    (h : ∀ ts', Q ts' (toks ts' + m)) :
    Safe b Q (blockOnChild p c kind ts) (.seat (p.hold .working A ∅ none) ::ₘ (toks ts + m)) := by
  refine safe_access fun s F hinv => ⟨.due .waiters [c] (regsOf (.await c kind)) ::ₘ
    .seat (p.hold .working A (regsOf (.await c kind)) none) ::ₘ (toks ts + m), ?_, ?_⟩
  · rw [Multiset.cons_add] at hinv
    have hpush := hinv.waitersPush (m := .waiters) hc
    have hx : Placed s.processes (.seat (p.hold .working A ∅ none) ::ₘ (toks ts + m + F))
        (p.hold .working A ∅ none) := .inr (Multiset.mem_cons_self _ _)
    rw [Multiset.cons_add, Multiset.cons_add]
    refine hpush.add_due .waiters _ fun d hd => ?_
    rw [List.mem_singleton.mp hd]
    exact hpush.born_child (.inr (Multiset.mem_cons_self _ _)) rfl (hinv.waits.target_kid _ hx c hc)
  refine safe_bind (safe_park (p := { p with status := .blocked (.await c kind) })
    (m := .due .waiters [c] (regsOf (.await c kind)) ::ₘ m) (fun s F hinv => ?_) fun ts' => ?_)
  · rw [Multiset.cons_add, Multiset.cons_add, Multiset.cons_swap] at hinv
    rw [Multiset.add_cons, Multiset.cons_add]
    refine Inv.putWaiting (p := { p with status := .blocked (.await c kind) }) hinv rfl rfl
      (Finset.singleton_ne_empty _) ?_
    intro w d hd
    obtain ⟨rfl, rfl⟩ := Prod.mk.inj (Finset.mem_singleton.mp hd)
    exact .inl ⟨_, Multiset.mem_cons_self _ _, List.mem_singleton_self _⟩
  · rw [Multiset.add_cons]
    refine safe_liveContains (fun s F hinv hlive => ?_) fun s F hinv hdead => ?_
    all_goals rw [Multiset.cons_add] at hinv
    · refine ⟨_, (hinv.due_live hlive).due_end, ?_⟩
      rw [if_pos rfl]
      exact safe_pure (h ts')
    · refine ⟨.wake .waiters c none ::ₘ (toks ts' + m), ?_, ?_⟩
      · rw [Multiset.cons_add]
        exact hinv.due_wake (Finset.mem_singleton_self _) (List.mem_singleton_self _) hdead
      · rw [if_neg (by simp)]
        exact safe_wakeJoin h

/-- `handle_await`. -/
theorem safe_handleAwait {Q : Unit → Tokens → Prop} {p : Process V} {c : ℕ} {kind : AwaitKind}
    (h : Q () m) : Safe b Q (handleAwait p c kind) (.seat (p.held .working) ::ₘ m) := by
  have hfail : ∀ o, Safe b Q (drain [(p, o)]) (.seat (p.held .working) ::ₘ m) := fun o =>
    safe_doom (safe_terminate (o := o) h)
  refine safe_bind (safe_classifyChild (fun hc => ?_) (fun hc => ?_) fun r hl ht => ?_)
  · have hblock : Safe b (fun ts n => Safe b Q (drain ts) n) (blockOnChild p c kind [])
        (.seat (p.hold .working (insert c ∅) ∅ none) ::ₘ (toks [] + m)) :=
      safe_blockOnChild (Finset.mem_insert_self c ∅) fun ts' => safe_drain h
    rw [toks_nil, zero_add] at hblock
    exact safe_bind hblock
  · refine safe_access fun s F hinv =>
      ⟨.seat ({ p with children := p.children.erase c }.held .working)
      ::ₘ m, ?_, ?_⟩
    · rw [Multiset.cons_add, Multiset.cons_add] at hinv
      have hgone := hinv.waits.stale_gone .waiters c c (by simp)
      have hconsume := hinv.consumeTombstone hc hgone.2.1
      rw [Multiset.cons_swap] at hconsume
      rw [Multiset.cons_add]
      exact hconsume.drop_stale
    · simp only [Op.run]
      cases s.tombstones c with
      | some record =>
        have hc : Safe b (fun ts n => Safe b Q (drain ts) n)
            (consumeChild p c record.outcome kind [])
            (.seat ({ p with children := p.children.erase c }.held .working) ::ₘ (toks [] + m)) :=
          safe_consumeChild fun ts' => safe_drain h
        rw [toks_nil, zero_add] at hc
        exact safe_bind hc
      | none =>
        have hc : Safe b (fun ts n => Safe b Q (drain ts) n)
            (deliverAlreadyJoined { p with children := p.children.erase c } kind [])
            (.seat ({ p with children := p.children.erase c }.held .working) ::ₘ (toks [] + m)) :=
          safe_deliverAlreadyJoined fun ts' => safe_drain h
        rw [toks_nil, zero_add] at hc
        exact safe_bind hc
  · cases r with
    | live => exact absurd rfl hl
    | terminated => exact absurd rfl ht
    | reaped =>
      have hc : Safe b (fun ts n => Safe b Q (drain ts) n) (deliverAlreadyJoined p kind [])
          (.seat (p.held .working) ::ₘ (toks [] + m)) :=
        safe_deliverAlreadyJoined fun ts' => safe_drain h
      rw [toks_nil, zero_add] at hc
      exact safe_bind hc
    | notChild => exact hfail _
    | unknown => exact hfail _

/-- What a thread knows may be forgotten. -/
theorem safe_forget {p : Run V α} {t : Token} {w : WaitMap} {c d : ℕ}
    (h : Safe b Q p (t ::ₘ m)) : Safe b Q p (t ::ₘ .stale w c d ::ₘ m) := by
  refine safe_shift fun s F hinv => ⟨t ::ₘ m, ?_, h⟩
  rw [Multiset.cons_add, Multiset.cons_add, Multiset.cons_swap] at hinv
  rw [Multiset.cons_add]
  exact hinv.drop_stale

theorem safe_drain_nil {Q : Unit → Tokens → Prop} (h : Q () m) :
    Safe b Q (drain ([] : Terminations V)) m := by
  have hdrain : Safe b Q (drain ([] : Terminations V)) (toks [] + m) := safe_drain h
  rwa [toks_nil, zero_add] at hdrain

/-- `handle_cancel`. -/
theorem safe_handleCancel {Q : Unit → Tokens → Prop} {p : Process V} {c : ℕ} (h : Q () m) :
    Safe b Q (handleCancel b p c) (.seat (p.held .working) ::ₘ m) := by
  have hanswer : ∀ A, Safe b Q (answerCancel b p) (.seat (p.hold .working A ∅ none) ::ₘ m) :=
    fun A => safe_resume (p := { p with vm := b.answerUnit p.vm }) h
  have hfail : ∀ o, Safe b Q (terminateProcess p o) (.seat (p.held .working) ::ₘ m) := fun o =>
    safe_doom (safe_terminate h)
  refine safe_bind (safe_classifyChild (fun _ => ?_) (fun _ => ?_) fun r hl ht => ?_)
  · have hcancel : Safe b
        (fun ts n => Safe b (fun _ n => Safe b Q (answerCancel b p) n) (drain ts) n)
        (cancelPid c []) (toks [] + .seat (p.hold .working (insert c ∅) ∅ none) ::ₘ m) :=
      safe_cancelPid fun ts' => safe_drain (hanswer _)
    rw [toks_nil, zero_add] at hcancel
    exact safe_bind (safe_mono (fun ts n hn => safe_bind hn) hcancel)
  · exact safe_forget (safe_bind (safe_drain_nil (hanswer ∅)))
  · cases r with
    | live => exact absurd rfl hl
    | terminated => exact absurd rfl ht
    | reaped => exact safe_bind (safe_drain_nil (hanswer ∅))
    | notChild => exact safe_bind (safe_drain_nil (hfail _))
    | unknown => exact safe_bind (safe_drain_nil (hfail _))

/-- The registrations of a process that waits for any of its children. -/
theorem safe_registerAny {Q : Unit → Tokens → Prop} {p : Process V} {A : Finset ℕ} {cs : List ℕ}
    (hA : ∀ c ∈ cs, c ∈ A)
    (h : Q () (.seat (p.hold .working A (regsOf (.waitAny cs)) none) ::ₘ m)) :
    Safe b Q (registerAny p.pid cs) (.seat (p.hold .working A ∅ none) ::ₘ m) := by
  have heach := safe_each (b := b) (f := fun c => access (.waitersPush .anyWaiters c p.pid))
    (R := fun xs n => ∃ R, n = .seat (p.hold .working A R none) ::ₘ m ∧ (∀ c ∈ xs, c ∈ A) ∧
      R ∪ regsOf (.waitAny xs) = regsOf (.waitAny cs)) ?_ cs _ ⟨∅, rfl, hA, Finset.empty_union _⟩
  · refine safe_mono ?_ heach
    rintro _ _ ⟨R, rfl, -, hR⟩
    have hR : R = regsOf (.waitAny cs) := by simpa [regsOf] using hR
    rw [hR]
    exact h
  · rintro c xs _ ⟨R, rfl, hxs, hR⟩
    refine safe_last fun s F hinv =>
      ⟨.seat (p.hold .working A (insert (.anyWaiters, c) R) none) ::ₘ m,
      ?_, _, rfl, fun d hd => hxs d (List.mem_cons_of_mem _ hd), ?_⟩
    · rw [Multiset.cons_add] at hinv ⊢
      exact hinv.waitersPush (hxs c (List.mem_cons_self ..))
    · rw [← hR]
      simp [regsOf, Finset.insert_union]

/-- The look whether a child has ended in the meantime. -/
theorem safe_findDue {Q : Option ℕ → Tokens → Prop} {w : WaitMap} {R : Finset (WaitMap × ℕ)}
    {cs : List ℕ} (hR : ∀ c ∈ cs, (w, c) ∈ R) (hnone : Q none m)
    (hsome : ∀ c, Q (some c) (.wake w c none ::ₘ m)) :
    Safe b Q (findTerminated cs) (.due w cs R ::ₘ m) := by
  induction cs with
  | nil =>
    refine safe_shift fun s F hinv => ⟨m, ?_, safe_pure hnone⟩
    rw [Multiset.cons_add] at hinv
    exact hinv.due_end
  | cons c cs ih =>
    refine safe_liveContains (fun s F hinv hlive => ?_) fun s F hinv hdead => ?_
    all_goals rw [Multiset.cons_add] at hinv
    · refine ⟨.due w cs R ::ₘ m, ?_, ?_⟩
      · rw [Multiset.cons_add]
        exact hinv.due_live hlive
      · rw [if_pos rfl]
        exact ih fun d hd => hR d (List.mem_cons_of_mem _ hd)
    · refine ⟨.wake w c none ::ₘ m, ?_, ?_⟩
      · rw [Multiset.cons_add]
        exact hinv.due_wake (hR c (List.mem_cons_self ..)) (List.mem_cons_self ..) hdead
      · rw [if_neg (by simp)]
        exact safe_pure (hsome c)

/-- The end of `handle_wait_any`, where every pid listed was live. -/
theorem safe_blockOnAny {Q : Unit → Tokens → Prop} {p : Process V} {A : Finset ℕ} {cs : List ℕ}
    (hne : cs ≠ []) (hA : ∀ c ∈ cs, c ∈ A) (h : Q () m) :
    Safe b Q (blockOnAny p cs) (.seat (p.hold .working A ∅ none) ::ₘ m) := by
  have hregs : ∀ c ∈ cs, (WaitMap.anyWaiters, c) ∈ regsOf (.waitAny cs) := fun c hc =>
    mem_regsOf.mpr (by simpa [waitsFor] using hc)
  refine safe_bind (safe_registerAny hA ?_)
  -- from here on the thread looks at the children again
  refine safe_shift fun s F hinv => ⟨.due .anyWaiters cs (regsOf (.waitAny cs)) ::ₘ
    .seat (p.hold .working A (regsOf (.waitAny cs)) none) ::ₘ m, ?_, ?_⟩
  · rw [Multiset.cons_add] at hinv
    rw [Multiset.cons_add, Multiset.cons_add]
    have hx : Placed s.processes (.seat (p.hold .working A (regsOf (.waitAny cs)) none) ::ₘ (m + F))
        (p.hold .working A (regsOf (.waitAny cs)) none) := .inr (Multiset.mem_cons_self _ _)
    exact hinv.add_due _ _ fun c hc =>
      hinv.born_child hx rfl (hinv.waits.reg_kid _ hx _ c (hregs c hc))
  refine safe_bind (safe_park (p := { p with status := .blocked (.waitAny cs) })
    (m := .due .anyWaiters cs (regsOf (.waitAny cs)) ::ₘ m) (fun s F hinv => ?_) fun ts' => ?_)
  · rw [Multiset.cons_add, Multiset.cons_add, Multiset.cons_swap] at hinv
    rw [toks_nil, zero_add, Multiset.cons_add]
    refine Inv.putWaiting (p := { p with status := .blocked (.waitAny cs) }) hinv rfl rfl ?_ ?_
    · obtain ⟨c, hc⟩ := List.exists_mem_of_ne_nil cs hne
      exact Finset.ne_empty_of_mem (hregs c hc)
    intro w c hc
    obtain ⟨d, hd, he⟩ := regsOf_waitAny _ hc
    obtain ⟨rfl, rfl⟩ := Prod.mk.inj he
    exact .inl ⟨cs, Multiset.mem_cons_self _ _, hd⟩
  · rw [Multiset.add_cons]
    refine safe_bind (safe_findDue hregs (safe_drain h) fun c => ?_)
    exact safe_bind (safe_wakeAny fun ts'' => safe_drain h)

/-- The scan of `handle_wait_any`. -/
theorem safe_waitAnyScan {Q : Unit → Tokens → Prop} {p : Process V} {all : List ℕ}
    (hne : all ≠ []) (h : Q () m) :
    ∀ (rest : List ℕ) (A : Finset ℕ), (∀ c ∈ all, c ∈ A ∨ c ∈ rest) →
      Safe b Q (waitAnyScan p all rest) (.seat (p.hold .working A ∅ none) ::ₘ m)
  | [], A, hA => safe_blockOnAny hne (fun c hc => (hA c hc).resolve_right (List.not_mem_nil)) h
  | c :: rest, A, hA => by
    have hfail : ∀ o, Safe b Q (terminateProcess p o) (.seat (p.hold .working A ∅ none) ::ₘ m) :=
      fun o => safe_doom (safe_terminate h)
    have hdeliver : Safe b Q (do
        let delivered ← action (.deliverPid p.vm c)
        let ts ← resumeOrFail p delivered []
        drain ts) (.seat (p.hold .working A ∅ none) ::ₘ m) := by
      refine safe_silent (fun _ _ _ hr => hr.2) trivial fun r => ?_
      have hresume : Safe b (fun ts n => Safe b Q (drain ts) n) (resumeOrFail p r [])
          (.seat (p.hold .working A ∅ none) ::ₘ (toks [] + m)) :=
        safe_resumeOrFail fun ts' => safe_drain h
      rw [toks_nil, zero_add] at hresume
      exact safe_bind hresume
    refine safe_bind (safe_classifyChild (fun _ => ?_) (fun _ => safe_forget hdeliver)
      fun r hl ht => ?_)
    · refine safe_waitAnyScan hne h rest (insert c A) fun d hd => ?_
      rcases hA d hd with hd | hd
      · exact .inl (Finset.mem_insert_of_mem hd)
      · rcases List.mem_cons.mp hd with rfl | hd
        · exact .inl (Finset.mem_insert_self ..)
        · exact .inr hd
    · cases r with
      | live => exact absurd rfl hl
      | terminated => exact absurd rfl ht
      | reaped => exact hdeliver
      | notChild => exact hfail _
      | unknown => exact hfail _

/-- `handle_wait_any`. -/
theorem safe_handleWaitAny {Q : Unit → Tokens → Prop} {p : Process V} {cs : List ℕ} (h : Q () m) :
    Safe b Q (handleWaitAny p cs) (.seat (p.held .working) ::ₘ m) := by
  unfold handleWaitAny
  by_cases hne : dedupPids cs = []
  · simp only [hne, if_true]
    exact safe_doom (safe_terminate h)
  · simp only [hne, if_false]
    exact safe_waitAnyScan hne h _ ∅ fun c hc => .inr hc

/-- The branch of `handle_slice_result` for a spawn. -/
theorem safe_handleSpawn {Q : Unit → Tokens → Prop} {p : Process V} {protoIdx : ℕ}
    {captures : List SendableValue} (h : Q () m) :
    Safe b Q (handleSpawn b p protoIdx captures) (.seat (p.held .working) ::ₘ m) := by
  refine safe_silent (fun _ _ _ hr => hr.2) trivial fun r => ?_
  cases r with
  | error failure => exact safe_doom (safe_terminate h)
  | ok vm =>
    refine safe_access fun s F hinv => ⟨.seat (p.expecting s.nextPid) ::ₘ m, ?_, ?_⟩
    · rw [Multiset.cons_add] at hinv ⊢
      exact hinv.allocPid
    simp only [Op.run]
    generalize s.nextPid = child
    let q : Process V := .new child vm (some p.pid) p.root
    let p' : Process V := { p with children := insert child p.children }
    refine safe_bind (safe_access fun s F hinv => ⟨.seat (q.held .working) ::ₘ
      .seat (p'.held .working) ::ₘ m, ?_, ?_⟩)
    · rw [Multiset.cons_add] at hinv
      rw [Multiset.cons_add, Multiset.cons_add]
      exact Inv.liveInsert (q := q) hinv rfl rfl
    refine safe_last fun s F hinv => ⟨.enq child ::ₘ .seat (p'.held .working) ::ₘ m, ?_, ?_⟩
    · rw [Multiset.cons_add, Multiset.cons_add] at hinv
      rw [Multiset.cons_add, Multiset.cons_add]
      exact Inv.putRunnable (p := q) hinv rfl
    refine safe_access fun s F hinv => ⟨.seat (p'.held .working) ::ₘ m, ?_, ?_⟩
    · rw [Multiset.cons_add] at hinv
      exact hinv.enqueue
    exact safe_resume (p := { p' with vm := b.answerPid p.vm child }) h

/-! ## I/O -/

/-- The processes that wait for the token. -/
theorem onlyIo_iff {t : ℕ} {reason : BlockReason} :
    (match reason with
      | .io t' => decide (t' = t)
      | _ => false) = true ↔ reason = .io t := by
  cases reason <;> simp

/-- A process that is parked is in the table. -/
theorem Inv.parked_inTable {s : Shared V} {T : Tokens} (h : Inv s T) {x : Seat}
    (hx : Placed s.processes T x) (hs : x.stage = .parked) :
    ∃ p reason, s.processes x.pid = some p ∧ p.seat = x ∧ p.status = .blocked reason := by
  rcases hx with ⟨p, hp, hl, rfl⟩ | hx
  · cases hr : p.status with
    | blocked reason => exact ⟨p, reason, hp, rfl, hr⟩
    | runnable =>
      rw [p.seat_runnable hr] at hs
      cases hs
    | done => simp [Proc.isLive, hr] at hl
    | failed failure => simp [Proc.isLive, hr] at hl
  · exact absurd hs (h.places.hand x hx).2

/-- The end of a process that waited for the token, by the thread that took its registration. -/
theorem safe_takeIo {f : Option (Process V) → Run V α} {t pid : ℕ}
    (htaken : ∀ p : Process V, Safe b Q (f (some p)) (.seat (p.held .working) ::ₘ m))
    (hnone : Safe b Q (f none) (.dying pid ::ₘ m)) :
    Safe b Q (access (.takeBlocked pid fun reason => match reason with
      | .io t' => t' = t
      | _ => false) >>= f) (.taking t pid ::ₘ m) := by
  refine safe_takeBlocked ?_ ?_
  · rintro s F p reason hinv hp rfl hr hpred
    obtain rfl := onlyIo_iff.mp hpred
    rw [Multiset.cons_add] at hinv
    refine ⟨_, ?_, htaken p⟩
    rw [Multiset.cons_add]
    exact hinv.takeIo hp hr
  · intro s F hinv hno
    rw [Multiset.cons_add] at hinv
    refine ⟨.dying pid ::ₘ m, ?_, hnone⟩
    rw [Multiset.cons_add]
    refine hinv.taking_dying fun x hx hpid hs ht => ?_
    obtain ⟨p, reason, hp, rfl, hr⟩ := hinv.parked_inTable (by simpa using hx) hs
    rw [p.seat_blocked hr] at ht
    have hio : reason = .io t := by
      cases reason with
      | io t' => exact congrArg BlockReason.io (Option.some.inj ht)
      | _ => cases ht
    have hfalse := hno p reason (hpid ▸ hp) hr
    rw [onlyIo_iff.mpr hio] at hfalse
    cases hfalse

/-- A look at a token that is not registered changes nothing. -/
theorem Inv.ioWaiters_none {s : Shared V} {T : Tokens} (h : Inv s T) {t : ℕ}
    (ht : s.ioWaiters t = none) :
    Inv { s with ioWaiters := Function.update s.ioWaiters t none } T := by
  rw [show Function.update s.ioWaiters t none = s.ioWaiters by rw [← ht, Function.update_eq_self]]
  exact h

/-- A request to the I/O backend. -/
theorem safe_requestIo {Q : Unit → Tokens → Prop} {p : Process V} {t : ℕ} (h : Q () m) :
    Safe b Q (requestIo p t) (.seat (p.awaiting t) ::ₘ m) := by
  refine safe_access fun s F hinv => ⟨.owner t p.pid ::ₘ
    .seat (p.hold .working ∅ ∅ (some t)) ::ₘ m, ?_, ?_⟩
  · rw [Multiset.cons_add] at hinv
    rw [Multiset.cons_add, Multiset.cons_add]
    exact hinv.ioWaitersInsert.add_owner (.inr (Multiset.mem_cons_self _ _)) rfl
  refine safe_bind (safe_park (p := { p with status := .blocked (.io t) })
    (m := .released t ::ₘ .owner t p.pid ::ₘ m) (fun s F hinv => ?_)
    fun ts' => safe_bind (safe_drain ?_))
  · rw [Multiset.cons_add, Multiset.cons_add, Multiset.cons_swap] at hinv
    rw [toks_nil, zero_add, Multiset.cons_add, Multiset.cons_add]
    exact Inv.putIo (p := { p with status := .blocked (.io t) }) hinv rfl
  -- the process is in the table, and the backend is to be asked
  have hdrop : ∀ (r : Run V Unit), Safe b Q r m →
      Safe b Q r (.released t ::ₘ .owner t p.pid ::ₘ m) := fun r hr =>
    safe_shift fun s F hinv => ⟨m, by
      rw [Multiset.cons_add, Multiset.cons_add] at hinv
      exact hinv.drop_released.drop_owner, hr⟩
  refine safe_access fun s F hinv => ⟨_, hinv, ?_⟩
  generalize (Op.run b.requestCancellation (.ioWaitersGet t) s).1 = w
  cases w with
  | none => exact hdrop _ (safe_pure h)
  | some w =>
    refine wp_act (D := discipline V) (a := .registerFor t) fun s F hinv =>
      ⟨trivial, fun r s' hrun => ?_⟩
    rcases hrun with ⟨rfl, rfl⟩ | ⟨⟨message, rfl⟩, rfl⟩
    · refine ⟨_, Inv.setInFlight hinv fun t' ht' => ?_, ?_⟩
      · rcases Finset.mem_insert.mp ht' with rfl | ht'
        · exact .inr (Multiset.mem_add.mpr (.inl (Multiset.mem_cons_self _ _)))
        · exact .inl ht'
      refine safe_access fun s F hinv => ⟨_, hinv, hdrop _ ?_⟩
      generalize (Op.run b.requestCancellation (.ioWaitersGet t) s).1 = w
      cases w with
      | none => exact safe_cancelIo h
      | some w => exact safe_pure h
    · refine ⟨_, hinv, safe_access fun s F hinv => ?_⟩
      rw [Multiset.cons_add, Multiset.cons_add] at hinv
      cases hw : s.ioWaiters t with
      | none =>
        refine ⟨m, hinv.drop_released.drop_owner.ioWaiters_none hw, ?_⟩
        simp only [Op.run, hw]
        exact safe_pure h
      | some w =>
        obtain ⟨x, hx, hxw, hxt⟩ := hinv.io.reg t w hw
        have hown := (hinv.owned t p.pid (by simp)).2 x hx hxt
        obtain rfl : w = p.pid := hxw.symm.trans hown
        refine ⟨.taking t p.pid ::ₘ m, ?_, ?_⟩
        · have htake := hinv.ioWaitersTake hw
          rw [Multiset.cons_swap] at htake
          have htake := htake.drop_released
          rw [Multiset.cons_swap] at htake
          rw [Multiset.cons_add]
          exact htake.drop_owner
        · simp only [Op.run, hw]
          refine safe_takeIo (fun q => safe_doom (safe_terminate h)) ?_
          refine safe_shift fun s F hinv => ⟨m, ?_, safe_pure h⟩
          rw [Multiset.cons_add] at hinv
          exact hinv.drop_dying

/-- The branch of `handle_slice_result` for a request to the I/O backend. -/
theorem safe_handleIo {Q : Unit → Tokens → Prop} {p : Process V} (h : Q () m) :
    Safe b Q (handleIo p) (.seat (p.held .working) ::ₘ m) := by
  refine safe_access fun s F hinv => ⟨.seat (p.awaiting s.nextIoToken) ::ₘ m, ?_, safe_requestIo h⟩
  rw [Multiset.cons_add] at hinv ⊢
  exact hinv.allocIoToken

/-- The delivery of a completion. -/
theorem safe_deliverIo {Q : Unit → Tokens → Prop} {p : Process V} {result : IoResult} (h : Q () m) :
    Safe b Q (deliverIo p result) (.seat (p.held .working) ::ₘ m) := by
  have hfail : ∀ (q : Process V) o, q.held .working = p.held .working →
      Safe b Q (terminateProcess q o) (.seat (p.held .working) ::ₘ m) := fun q o hq => by
    rw [← hq]
    exact safe_doom (safe_terminate h)
  cases result with
  | ok value bytes =>
    refine safe_silent (fun _ _ _ hr => hr.2) trivial fun charged => ?_
    obtain ⟨r, vm⟩ := charged
    cases r with
    | error failure => exact hfail _ _ rfl
    | ok u =>
      refine safe_silent (fun _ _ _ hr => hr.2) trivial fun r => ?_
      have hresume : Safe b (fun ts n => Safe b Q (drain ts) n) (resumeOrFail p r [])
          (.seat (p.held .working) ::ₘ (toks [] + m)) :=
        safe_resumeOrFail fun ts' => safe_drain h
      rw [toks_nil, zero_add] at hresume
      exact safe_bind hresume
  | err message =>
    refine safe_silent (fun _ _ _ hr => hr.2) trivial fun charged => ?_
    obtain ⟨r, vm⟩ := charged
    cases r with
    | error failure => exact hfail _ _ rfl
    | ok u => exact hfail _ _ rfl

/-- `remove_io_waiters_for_pid` finds nothing: the process has no registration left. -/
theorem safe_ioTokensOf {Q : List ℕ → Tokens → Prop} {pid : ℕ} {keys : List ℕ}
    (h : Q [] (.dying pid ::ₘ m)) : Safe b Q (ioTokensOf pid keys) (.dying pid ::ₘ m) := by
  induction keys generalizing Q with
  | nil => exact safe_pure h
  | cons t keys ih =>
    refine safe_access fun s F hinv => ⟨_, hinv, safe_bind (ih ?_)⟩
    rw [Multiset.cons_add] at hinv
    have hne := (hinv.io.dead pid (Multiset.mem_cons_self _ _)).2 t
    simp only [Op.run, hne, if_false]
    exact safe_pure h

theorem safe_removeIoWaiters {Q : Unit → Tokens → Prop} {pid : ℕ} (h : Q () m) :
    Safe b Q (removeIoWaitersForPid pid) (.dying pid ::ₘ m) := by
  refine safe_silent (fun _ _ _ hr => hr.2) trivial fun keys => safe_bind (safe_ioTokensOf ?_)
  refine safe_shift fun s F hinv => ⟨m, ?_, safe_pure h⟩
  rw [Multiset.cons_add] at hinv
  exact hinv.drop_dying

/-- `handle_io_completion`. -/
theorem safe_handleIoCompletion {Q : Unit → Tokens → Prop} {t : ℕ} {result : IoResult}
    (h : Q () m) : Safe b Q (handleIoCompletion t result) (.released t ::ₘ m) := by
  refine safe_access fun s F hinv => ?_
  rw [Multiset.cons_add] at hinv
  cases hw : s.ioWaiters t with
  | none =>
    refine ⟨m, hinv.drop_released.ioWaiters_none hw, ?_⟩
    simp only [Op.run, hw]
    exact safe_pure h
  | some pid =>
    refine ⟨.taking t pid ::ₘ m, ?_, ?_⟩
    · have htake := hinv.ioWaitersTake hw
      rw [Multiset.cons_swap] at htake
      rw [Multiset.cons_add]
      exact htake.drop_released
    · simp only [Op.run, hw]
      exact safe_takeIo (fun p => safe_deliverIo h) (safe_removeIoWaiters h)

/-! ## Workers -/

/-- `handle_slice_result`. -/
theorem safe_handleSliceResult {Q : Unit → Tokens → Prop} {p : Process V} {r : RunResult}
    (h : Q () m) : Safe b Q (handleSliceResult b p r) (.seat (p.held .working) ::ₘ m) := by
  have hend : ∀ o, Safe b Q (terminateProcess p o) (.seat (p.held .working) ::ₘ m) := fun o =>
    safe_doom (safe_terminate h)
  cases r with
  | done =>
    exact safe_ite (safe_silent (fun _ _ _ hr => hr.2) trivial fun o => hend o) (hend _)
  | yielded => exact safe_resume h
  | failed failure => exact hend _
  | cancelled => exact hend _
  | request request =>
    cases request with
    | spawn protoIdx captures => exact safe_handleSpawn h
    | await child => exact safe_handleAwait h
    | awaitResult child => exact safe_handleAwait h
    | cancel child => exact safe_handleCancel h
    | waitAny childPids => exact safe_handleWaitAny h
    | io => exact safe_handleIo h

/-- A process that is queued is in the table, and may run. -/
theorem Inv.queued_inTable {s : Shared V} {T : Tokens} (h : Inv s T) {x : Seat}
    (hx : Placed s.processes T x) (hs : x.stage = .queued) :
    ∃ p, s.processes x.pid = some p ∧ p.status = .runnable := by
  rcases hx with ⟨p, hp, hl, rfl⟩ | hx
  · refine ⟨p, hp, ?_⟩
    cases hr : p.status with
    | runnable => rfl
    | blocked reason =>
      rw [p.seat_blocked hr] at hs
      cases hs
    | done => simp [Proc.isLive, hr] at hl
    | failed failure => simp [Proc.isLive, hr] at hl
  · exact absurd hs (h.places.hand x hx).1

/-- What a worker does with a process it took. -/
theorem safe_runTaken {Q : Unit → Tokens → Prop} {p : Process V} (h : Q () m) :
    Safe b Q (runTaken b p.pid p) (.seat (p.held .working) ::ₘ m) := by
  refine safe_access fun s F hinv => ⟨_, hinv.pendingRemove p.pid, ?_⟩
  refine safe_silent (fun _ _ _ hr => hr.2) ?_ fun r => ?_
  · refine Multiset.mem_cons.mpr (.inl (congrArg Token.seat ?_))
    split <;> rfl
  · refine (?_ : Token.seat (Process.held _ .working) ::ₘ m = _) ▸ safe_handleSliceResult h
    split <;> rfl

/-- The tokens of the completions that the backend reports. -/
theorem Inv.add_completions {s : Shared V} {T : Tokens} (h : Inv s T) {r : List (ℕ × IoResult)}
    (hr : ∀ c ∈ r, c.1 ∈ s.inFlight) :
    Inv s ((r.map fun c => Token.released c.1 : List Token) + T) := by
  induction r with
  | nil => simpa using h
  | cons c r ih =>
    have hrest := ih fun d hd => hr d (List.mem_cons_of_mem _ hd)
    rw [List.map_cons, ← Multiset.cons_coe, Multiset.cons_add]
    exact hrest.add_released (.inl (hr c (List.mem_cons_self ..)))

/-- The monitor handles the completions it took. -/
theorem completions_follow (r : List (ℕ × IoResult)) :
    Safe b (fun _ n => n = 0) (each (fun c => handleIoCompletion (V := V) c.1 c.2) r)
      (r.map fun c => Token.released c.1 : List Token) :=
  safe_each (R := fun xs n => n = (xs.map fun c => Token.released c.1 : List Token))
    (fun c xs n hn => by
      rw [hn, List.map_cons, ← Multiset.cons_coe]
      exact safe_handleIoCompletion rfl) r _ rfl

end Hiko.Threaded
