import Hiko.Runtime.Board

/-!
# The lifecycle of processes in the single-threaded runtime

Every operation of the runtime keeps its bookkeeping consistent. The processes on the stack of
terminations are away from the board, and so is the process that runs a slice. A process that
terminates wakes the processes registered with it one after the other: those that are not yet woken
count as registered.

## Main definitions

* `Runtime.board`: the bookkeeping of a runtime
* `onStack`: the processes that are to be terminated
* `Stays`: what a drain does not touch

## Main results

* `lifecycle_cancelChildren`, `lifecycle_wakeAny`, `lifecycle_wakeJoin`: the loops of a termination
* `lifecycle_drain`: terminations, and those that follow from them
* `RuntimeRun.lifecycle`: the states between two slices are consistent
* `RuntimeRun.bookkeeping`: what that says about the tables of the runtime
-/

namespace Hiko

open Lib

/-- What the runtime keeps about a process. -/
def Proc.core {V : Type} (p : Proc V) : Core := ⟨p.status, p.parent, p.children⟩

theorem Proc.isLive_core {V : Type} (p : Proc V) : p.core.status.isLive = p.isLive := by
  cases hs : p.status <;> simp [core, isLive, ProcessStatus.isLive, hs]

namespace Runtime

variable {V W : Type}

/-- The bookkeeping of a runtime. -/
def board (s : Runtime V W) : Board where
  nextPid := s.nextPid
  proc pid := (s.processes.get pid).map Proc.core
  kept pid := (s.tombstones pid).map ChildRecord.parent
  queue := s.queue
  waiters := s.waiters
  anyWaiters := s.anyWaiters

/-! ## Reading the board -/

section Board

variable {s : Runtime V W} {pid : ℕ} {p : Proc V}

theorem board_proc (h : s.processes.get pid = some p) : s.board.proc pid = some p.core := by
  simp [board, h]

theorem board_status (h : s.processes.get pid = some p) : s.board.status pid = some p.status := by
  simp [Board.status, board_proc h, Proc.core]

theorem get_of_status {st : ProcessStatus} (h : s.board.status pid = some st) :
    ∃ p, s.processes.get pid = some p ∧ p.status = st := by
  cases hget : s.processes.get pid with
  | none => simp [Board.status, board, hget] at h
  | some p =>
    rw [board_status hget, Option.some.injEq] at h
    exact ⟨p, rfl, h⟩

theorem board_live : s.board.Live pid ↔ s.isLive pid = true := by
  cases hget : s.processes.get pid with
  | none => simp [Board.Live, board, isLive, Table.holds, hget]
  | some p => simp [Board.Live, board, isLive, Table.holds, hget, Proc.isLive_core]

theorem board_hasChild (h : s.processes.get pid = some p) (x : ℕ) :
    s.board.HasChild pid x ↔ x ∈ p.children := by
  simp [Board.HasChild, board_proc h, Proc.core]

theorem board_setProcess (s : Runtime V W) (pid : ℕ) (p : Proc V) :
    (s.setProcess pid p).board = s.board.set pid p.core := by
  have hproc : (fun q => ((s.processes.insert pid p).get q).map Proc.core) =
      Function.update (fun q => (s.processes.get q).map Proc.core) pid (some p.core) := by
    funext q
    by_cases hq : q = pid
    · subst hq
      simp
    · simp [hq]
  simp only [board, setProcess, Board.set, hproc]

/-- Replacing the VM of a process changes nothing on the board. -/
theorem board_setVm (h : s.processes.get pid = some p) (vm : V) :
    (s.setProcess pid { p with vm := vm }).board = s.board := by
  rw [board_setProcess]
  have hself : Function.update s.board.proc pid (some p.core) = s.board.proc := by
    rw [← board_proc h, Function.update_eq_self]
  show { s.board with proc := Function.update s.board.proc pid (some p.core) } = s.board
  rw [hself]

theorem board_erase (s : Runtime V W) (pid : ℕ) (queue : List ℕ) :
    { s with processes := s.processes.erase pid, queue := queue }.board =
      { s.board with proc := Function.update s.board.proc pid none, queue := queue } := by
  have hproc : (fun q => ((s.processes.erase pid).get q).map Proc.core) =
      Function.update (fun q => (s.processes.get q).map Proc.core) pid none := by
    funext q
    by_cases hq : q = pid
    · subst hq
      simp
    · simp [hq]
  simp only [board, hproc]

theorem board_tombstones (s : Runtime V W) (x : ℕ) (record : Option ChildRecord) :
    { s with tombstones := Function.update s.tombstones x record }.board =
      { s.board with
        kept := Function.update s.board.kept x (record.map ChildRecord.parent) } := by
  have hkept : (fun y => (Function.update s.tombstones x record y).map ChildRecord.parent) =
      Function.update (fun y => (s.tombstones y).map ChildRecord.parent) x
        (record.map ChildRecord.parent) := by
    funext y
    by_cases hy : y = x
    · subst hy
      simp
    · simp [hy]
  simp only [board, hkept]

theorem board_reap (s : Runtime V W) (x : ℕ) :
    { s with tombstones := Function.update s.tombstones x none }.board =
      { s.board with kept := Function.update s.board.kept x none } :=
  board_tombstones s x none

theorem board_enqueue (s : Runtime V W) (pid : ℕ) :
    (s.enqueue pid).board = { s.board with queue := s.board.queue ++ [pid] } := rfl

end Board

end Runtime

/-! ## Registrations -/

section Registrations

theorem mem_removeWaiter (m : ℕ → List ℕ) (child waiter x q : ℕ) :
    q ∈ removeWaiter m child waiter x ↔ q ∈ m x ∧ (x = child → q ≠ waiter) := by
  by_cases hx : x = child
  · subst hx
    simp [removeWaiter]
  · simp [removeWaiter, hx]

theorem nodup_removeWaiter {m : ℕ → List ℕ} (h : ∀ x, (m x).Nodup) (child waiter x : ℕ) :
    (removeWaiter m child waiter x).Nodup := by
  by_cases hx : x = child
  · subst hx
    simpa [removeWaiter] using (h x).filter _
  · simpa [removeWaiter, hx] using h x

theorem mem_removeWaiters (waiter x q : ℕ) (children : List ℕ) : ∀ m : ℕ → List ℕ,
    q ∈ children.foldl (fun m child => removeWaiter m child waiter) m x ↔
      q ∈ m x ∧ (x ∈ children → q ≠ waiter) := by
  induction children with
  | nil => simp
  | cons child children ih =>
    intro m
    rw [List.foldl_cons, ih, mem_removeWaiter, List.mem_cons]
    tauto

theorem nodup_removeWaiters (waiter : ℕ) (children : List ℕ) : ∀ m : ℕ → List ℕ,
    (∀ x, (m x).Nodup) →
      ∀ x, (children.foldl (fun m child => removeWaiter m child waiter) m x).Nodup := by
  induction children with
  | nil => exact fun m h => h
  | cons child children ih =>
    exact fun m h => ih _ fun x => nodup_removeWaiter h child waiter x

theorem mem_addWaiter (m : ℕ → List ℕ) (child waiter x q : ℕ) :
    q ∈ addWaiter m child waiter x ↔ q ∈ m x ∨ (q = waiter ∧ x = child) := by
  by_cases hx : x = child
  · subst hx
    simp [addWaiter]
  · simp [addWaiter, hx]

theorem nodup_addWaiter {m : ℕ → List ℕ} (h : ∀ x, (m x).Nodup) {child waiter : ℕ}
    (hnot : waiter ∉ m child) (x : ℕ) : (addWaiter m child waiter x).Nodup := by
  by_cases hx : x = child
  · subst hx
    rw [addWaiter, Function.update_self]
    exact (List.perm_append_singleton waiter (m x)).nodup_iff.mpr
      (List.nodup_cons.mpr ⟨hnot, h x⟩)
  · simpa [addWaiter, hx] using h x

theorem mem_addWaiters (waiter x q : ℕ) (children : List ℕ) : ∀ m : ℕ → List ℕ,
    q ∈ children.foldl (fun m child => addWaiter m child waiter) m x ↔
      q ∈ m x ∨ (q = waiter ∧ x ∈ children) := by
  induction children with
  | nil => simp
  | cons child children ih =>
    intro m
    rw [List.foldl_cons, ih, mem_addWaiter, List.mem_cons]
    tauto

theorem nodup_addWaiters (waiter : ℕ) (children : List ℕ) : ∀ m : ℕ → List ℕ,
    (∀ x, (m x).Nodup) → children.Nodup → (∀ child ∈ children, waiter ∉ m child) →
      ∀ x, (children.foldl (fun m child => addWaiter m child waiter) m x).Nodup := by
  induction children with
  | nil => exact fun m h _ _ => h
  | cons child children ih =>
    intro m h hnd hnot
    rw [List.nodup_cons] at hnd
    refine ih _ (nodup_addWaiter h (hnot child (.head _))) hnd.2 fun x hx => ?_
    rw [mem_addWaiter]
    rintro (hin | ⟨-, rfl⟩)
    · exact hnot x (.tail _ hx) hin
    · exact hnd.1 hx

end Registrations

/-! ## The stack of terminations -/

/-- The processes that are to be terminated, and those of a set. -/
def onStack (ts : Terminations) (away : Set ℕ) : Set ℕ := {q | (∃ o, (q, o) ∈ ts) ∨ q ∈ away}

theorem onStack_nil (away : Set ℕ) : onStack [] away = away := by
  simp [onStack]

theorem onStack_cons (p : ℕ) (o : ChildOutcome) (ts : Terminations) (away : Set ℕ) :
    onStack ((p, o) :: ts) away = insert p (onStack ts away) := by
  ext q
  simp only [onStack, List.mem_cons, Prod.mk.injEq, Set.mem_ofPred_eq, Set.mem_insert_iff]
  constructor
  · rintro (⟨o', ⟨rfl, -⟩ | hin⟩ | hin)
    · exact .inl rfl
    · exact .inr (.inl ⟨o', hin⟩)
    · exact .inr (.inr hin)
  · rintro (rfl | ⟨o', hin⟩ | hin)
    · exact .inl ⟨o, .inl ⟨rfl, rfl⟩⟩
    · exact .inl ⟨o', .inr hin⟩
    · exact .inr hin

theorem onStack_insert (p : ℕ) (ts : Terminations) (away : Set ℕ) :
    onStack ts (insert p away) = insert p (onStack ts away) := by
  ext q
  simp only [onStack, Set.mem_ofPred_eq, Set.mem_insert_iff]
  tauto

namespace Runtime

variable {V W : Type}

/-- A runnable process that is not to be terminated stays so. -/
def Stays (s : Runtime V W) (ts : Terminations) (s' : Runtime V W) (ts' : Terminations) : Prop :=
  ∀ q, s.board.status q = some .runnable → (∀ o, (q, o) ∉ ts) →
    s'.board.status q = some .runnable ∧ ∀ o, (q, o) ∉ ts'

theorem Stays.refl (s : Runtime V W) (ts : Terminations) : Stays s ts s ts :=
  fun _ hrun hnot => ⟨hrun, hnot⟩

theorem Stays.trans {s₁ s₂ s₃ : Runtime V W} {ts₁ ts₂ ts₃ : Terminations}
    (h : Stays s₁ ts₁ s₂ ts₂) (h' : Stays s₂ ts₂ s₃ ts₃) : Stays s₁ ts₁ s₃ ts₃ := by
  intro q hrun hnot
  obtain ⟨hrun', hnot'⟩ := h q hrun hnot
  exact h' q hrun' hnot'

/-- A process that is blocked may be put on the stack. -/
theorem stays_push {s s' : Runtime V W} {ts : Terminations} {pid : ℕ} {reason : BlockReason}
    (hst : s.board.status pid = some (.blocked reason))
    (hsame : ∀ q, s.board.status q = some .runnable → s'.board.status q = some .runnable)
    (o : ChildOutcome) : Stays s ts s' ((pid, o) :: ts) := by
  intro q hrun hnot
  refine ⟨hsame q hrun, fun o' hin => ?_⟩
  rcases List.mem_cons.mp hin with he | hin
  · obtain ⟨rfl, -⟩ := Prod.mk.inj he
    rw [hst] at hrun
    cases hrun
  · exact hnot o' hin

section Cancel

variable {away ended orphans : Set ℕ} {s : Runtime V W} {pid : ℕ} {p : Proc V}

/-- A blocked process that loses its registrations goes away. -/
theorem lifecycle_clear (h : s.board.Lifecycle away ended orphans)
    (hget : s.processes.get pid = some p) {reason : BlockReason}
    (hs : p.status = .blocked reason) :
    (s.clearBlockedRegistration pid).board.Lifecycle (insert pid away) ended orphans ∧
      (s.clearBlockedRegistration pid).board.proc = s.board.proc ∧
      (s.clearBlockedRegistration pid).board.kept = s.board.kept := by
  have hst := board_status hget
  rw [hs] at hst
  have hq : pid ∉ s.board.queue := by
    intro hin
    obtain ⟨-, hrun⟩ := (h.queue_mem pid).mp hin
    rw [hst] at hrun
    cases hrun
  have hwaits : ∀ x, pid ∈ s.board.waiters x → ∃ kind, reason = .await x kind := by
    intro x hin
    obtain ⟨-, kind, hst'⟩ := (h.waiters_mem x pid).mp hin
    rw [hst] at hst'
    cases hst'
    exact ⟨kind, rfl⟩
  have hany : ∀ x, pid ∈ s.board.anyWaiters x → ∃ cs, reason = .waitAny cs ∧ x ∈ cs := by
    intro x hin
    obtain ⟨-, cs, hst', hx⟩ := (h.any_mem x pid).mp hin
    rw [hst] at hst'
    cases hst'
    exact ⟨cs, rfl, hx⟩
  unfold clearBlockedRegistration
  rw [hget, Option.map_some, hs]
  cases reason with
  | await child kind =>
    refine ⟨h.unregister hq (nodup_removeWaiter h.waiters_nodup child pid) (fun x q => ?_)
      h.any_nodup (fun x q => ?_), rfl, rfl⟩
    · rw [mem_removeWaiter]
      constructor
      · rintro ⟨hin, hx⟩
        refine ⟨hin, ?_⟩
        rintro rfl
        obtain ⟨kind', he⟩ := hwaits x hin
        cases he
        exact hx rfl rfl
      · exact fun ⟨hin, hne⟩ => ⟨hin, fun _ => hne⟩
    · constructor
      · intro hin
        refine ⟨hin, ?_⟩
        rintro rfl
        obtain ⟨cs, he, -⟩ := hany x hin
        cases he
      · exact fun hin => hin.1
  | waitAny children =>
    refine ⟨h.unregister hq h.waiters_nodup (fun x q => ?_)
      (nodup_removeWaiters pid children _ h.any_nodup) (fun x q => ?_), rfl, rfl⟩
    · constructor
      · intro hin
        refine ⟨hin, ?_⟩
        rintro rfl
        obtain ⟨kind', he⟩ := hwaits x hin
        cases he
      · exact fun hin => hin.1
    · refine (mem_removeWaiters pid x q children s.anyWaiters).trans ?_
      constructor
      · rintro ⟨hin, hx⟩
        refine ⟨hin, ?_⟩
        rintro rfl
        obtain ⟨cs, he, hxcs⟩ := hany x hin
        cases he
        exact hx hxcs rfl
      · exact fun ⟨hin, hne⟩ => ⟨hin, fun _ => hne⟩
  | io token => exact absurd hst (h.no_io pid token)

variable (ops : VmOps V W) {ts : Terminations}

/-- `cancelProcess` puts a blocked process on the stack and leaves the others. -/
theorem lifecycle_cancelProcess (h : s.board.Lifecycle (onStack ts away) ended orphans)
    (pid : ℕ) :
    (s.cancelProcess ops pid ts).1.board.Lifecycle
        (onStack (s.cancelProcess ops pid ts).2 away) ended orphans ∧
      (s.cancelProcess ops pid ts).1.board.proc = s.board.proc ∧
      (s.cancelProcess ops pid ts).1.board.kept = s.board.kept ∧
      Stays s ts (s.cancelProcess ops pid ts).1 (s.cancelProcess ops pid ts).2 := by
  cases hget : s.processes.get pid with
  | none =>
    simp only [cancelProcess, hget]
    exact ⟨h, trivial, trivial, .refl s ts⟩
  | some p =>
    cases hs : p.status with
    | runnable =>
      have hvm := board_setVm hget (ops.requestCancellation p.vm)
      rw [hs] at hvm
      simp only [cancelProcess, hget, hs]
      rw [hvm]
      refine ⟨h, rfl, rfl, fun q hrun hnot => ⟨?_, hnot⟩⟩
      rwa [hvm]
    | blocked reason =>
      simp only [cancelProcess, hget, hs]
      obtain ⟨hlife, hproc, hkept⟩ := lifecycle_clear h hget hs
      rw [onStack_cons]
      refine ⟨hlife, hproc, hkept, stays_push (hs ▸ board_status hget) (fun q hrun => ?_) _⟩
      rwa [Board.status, hproc]
    | done =>
      simp only [cancelProcess, hget, hs]
      exact ⟨h, trivial, trivial, .refl s ts⟩
    | failed failure =>
      simp only [cancelProcess, hget, hs]
      exact ⟨h, trivial, trivial, .refl s ts⟩

/-- One child at the end of a scope. -/
theorem lifecycle_cancelChild (h : s.board.Lifecycle (onStack ts away) ended orphans) {child : ℕ}
    (hdead : ∀ q, s.board.kept child = some q → ¬ s.board.Live q) :
    (s.cancelChild ops child ts).1.board.Lifecycle
        (onStack (s.cancelChild ops child ts).2 away) ended (orphans \ {child}) ∧
      (s.cancelChild ops child ts).1.board.proc = s.board.proc ∧
      (∀ x q, (s.cancelChild ops child ts).1.board.kept x = some q → s.board.kept x = some q) ∧
      Stays s ts (s.cancelChild ops child ts).1 (s.cancelChild ops child ts).2 := by
  -- the rule for the outcome, once the process is cancelled or not
  have hdrop : ∀ {s' : Runtime V W} {ts' : Terminations},
      s'.board.Lifecycle (onStack ts' away) ended orphans → s'.board.proc = s.board.proc →
      s'.board.kept = s.board.kept →
      { s' with tombstones := Function.update s'.tombstones child none }.board.Lifecycle
          (onStack ts' away) ended (orphans \ {child}) ∧
        ∀ x q, { s' with tombstones := Function.update s'.tombstones child none }.board.kept x =
          some q → s.board.kept x = some q := by
    intro s' ts' h' hproc hkept
    rw [board_reap]
    refine ⟨h'.dropKept fun q hk hl => ?_, fun x q hk => ?_⟩
    · refine hdead q (hkept ▸ hk) ?_
      rwa [Board.Live, hproc] at hl
    · by_cases hx : x = child
      · subst hx
        simp at hk
      · rw [← hkept]
        simpa [hx] using hk
  by_cases hlive : s.isLive child = true
  · obtain ⟨h', hproc, hkept, hstays⟩ := lifecycle_cancelProcess ops h child
    obtain ⟨hlife, hk⟩ := hdrop h' hproc hkept
    simp only [cancelChild, hlive, if_true]
    exact ⟨hlife, hproc, hk, hstays⟩
  · obtain ⟨hlife, hk⟩ := hdrop h rfl rfl
    simp only [cancelChild, hlive, if_false, Bool.false_eq_true]
    exact ⟨hlife, rfl, hk, .refl s ts⟩

/-- The children of a process that is no longer alive. -/
theorem lifecycle_cancelChildren (children : List ℕ) : ∀ {orphans : Set ℕ} {s : Runtime V W}
    {ts : Terminations}, s.board.Lifecycle (onStack ts away) ended orphans →
    (∀ child ∈ children, ∀ q, s.board.kept child = some q → ¬ s.board.Live q) →
    (s.cancelChildren ops ts children).1.board.Lifecycle
        (onStack (s.cancelChildren ops ts children).2 away) ended
          (orphans \ {x | x ∈ children}) ∧
      (s.cancelChildren ops ts children).1.board.proc = s.board.proc ∧
      Stays s ts (s.cancelChildren ops ts children).1 (s.cancelChildren ops ts children).2 := by
  induction children with
  | nil =>
    intro orphans s ts h _
    simpa [cancelChildren] using ⟨h, Stays.refl s ts⟩
  | cons child children ih =>
    intro orphans s ts h hdead
    obtain ⟨h₁, hproc₁, hkept₁, hstays₁⟩ := lifecycle_cancelChild ops h (hdead child (.head _))
    obtain ⟨h₂, hproc₂, hstays₂⟩ := ih h₁ fun x hx q hk hl => by
      refine hdead x (.tail _ hx) q (hkept₁ x q hk) ?_
      rwa [Board.Live, hproc₁] at hl
    have hset : (orphans \ {child}) \ {x | x ∈ children} =
        orphans \ {x | x ∈ child :: children} := by
      ext x
      simp only [Set.mem_sdiff, Set.mem_singleton_iff, Set.mem_ofPred_eq, List.mem_cons]
      tauto
    rw [hset] at h₂
    exact ⟨h₂, hproc₂.trans hproc₁, hstays₁.trans hstays₂⟩

end Cancel

end Runtime

/-! ## Waking the processes that wait -/

/-- The board as it was when `waiters` waited for any of several processes. -/
def Board.pendingAny (b : Board) (finished : ℕ) (waiters : List ℕ) : Board :=
  { b with anyWaiters := Function.update b.anyWaiters finished waiters }

theorem Board.pendingAny_self (b : Board) (finished : ℕ) (waiters : List ℕ) :
    (b.pendingAny finished waiters).anyWaiters finished = waiters :=
  Function.update_self ..

theorem Board.pendingAny_ne (b : Board) {finished x : ℕ} (waiters : List ℕ) (h : x ≠ finished) :
    (b.pendingAny finished waiters).anyWaiters x = b.anyWaiters x :=
  Function.update_of_ne h ..

/-- The board as it was when `waiters` waited for a process to be joined. -/
def Board.pendingJoin (b : Board) (finished : ℕ) (waiters : List ℕ) : Board :=
  { b with waiters := Function.update b.waiters finished waiters }

theorem Board.pendingJoin_self (b : Board) (finished : ℕ) (waiters : List ℕ) :
    (b.pendingJoin finished waiters).waiters finished = waiters :=
  Function.update_self ..

theorem Board.pendingJoin_ne (b : Board) {finished x : ℕ} (waiters : List ℕ) (h : x ≠ finished) :
    (b.pendingJoin finished waiters).waiters x = b.waiters x :=
  Function.update_of_ne h ..

namespace Runtime

variable {V W : Type} (ops : VmOps V W)

section Wake

variable {away : Set ℕ} {s : Runtime V W} {ts : Terminations} {finished w : ℕ} {ws : List ℕ}

/-- A status that becomes runnable leaves the other processes runnable. -/
theorem status_set_runnable {b : Board} {q : ℕ} {c : Core} (hc : c.status = .runnable)
    (hrun : b.status q = some .runnable) : (b.set w c).status q = some .runnable := by
  by_cases hq : q = w
  · subst hq
    rw [Board.status_set_self, hc]
  · rwa [Board.status_set_ne b hq]

/-- One waiter is woken by a process that is no longer alive. -/
theorem lifecycle_wakeAnyWaiter (hnd : (w :: ws).Nodup) (hempty : s.anyWaiters finished = [])
    (h : (s.board.pendingAny finished (w :: ws)).Lifecycle (onStack ts away) {finished} ∅) :
    ((s.wakeAnyWaiter ops w ts).1.board.pendingAny finished ws).Lifecycle
        (onStack (s.wakeAnyWaiter ops w ts).2 away) {finished} ∅ ∧
      (s.wakeAnyWaiter ops w ts).1.anyWaiters finished = [] ∧
      Stays s ts (s.wakeAnyWaiter ops w ts).1 (s.wakeAnyWaiter ops w ts).2 := by
  obtain ⟨haway, cs, hst, hin⟩ := (h.any_mem finished w).mp (by simp [Board.pendingAny])
  obtain ⟨p, hget, hs⟩ := get_of_status (s := s) hst
  have hnotlive : s.isLive finished = false := by
    by_contra hl
    exact h.ended_dead finished rfl (board_live.mpr (by simpa using hl))
  obtain ⟨winner, hwin⟩ : ∃ winner, cs.find? (fun child => !s.isLive child) = some winner := by
    rw [← Option.isSome_iff_exists, List.find?_isSome]
    exact ⟨finished, hin, by simp [hnotlive]⟩
  -- `w` loses its registrations
  have hold : ∀ {x}, x ≠ finished →
      (s.board.pendingAny finished (w :: ws)).anyWaiters x = s.anyWaiters x :=
    fun hx => Board.pendingAny_ne _ _ hx
  have hnodup : ∀ x, (s.anyWaiters x).Nodup := by
    intro x
    by_cases hx : x = finished
    · rw [hx, hempty]
      exact List.nodup_nil
    · exact hold hx ▸ h.any_nodup x
  have hm : (s.removeWaitAnyRegistration w cs).anyWaiters finished = [] := by
    refine List.eq_nil_iff_forall_not_mem.mpr fun q hq => ?_
    have hq' := ((mem_removeWaiters w finished q cs s.anyWaiters).mp hq).1
    rw [hempty] at hq'
    cases hq'
  have hquiet : w ∉ (s.board.pendingAny finished (w :: ws)).queue := by
    intro hq
    have hrun := ((h.queue_mem w).mp hq).2
    rw [hst] at hrun
    cases hrun
  have hlife : ((s.removeWaitAnyRegistration w cs).board.pendingAny finished ws).Lifecycle
      (insert w (onStack ts away)) {finished} ∅ := by
    refine h.unregister hquiet h.waiters_nodup (fun x q => ?_) (fun x => ?_) fun x q => ?_
    · constructor
      · intro hq
        refine ⟨hq, ?_⟩
        rintro rfl
        obtain ⟨-, kind, hst'⟩ := (h.waiters_mem x q).mp hq
        rw [hst] at hst'
        cases hst'
      · exact fun hq => hq.1
    · by_cases hx : x = finished
      · rw [hx, Function.update_self]
        exact (List.nodup_cons.mp hnd).2
      · rw [Function.update_of_ne hx]
        exact nodup_removeWaiters w cs _ hnodup x
    · by_cases hx : x = finished
      · subst hx
        rw [Function.update_self, Board.pendingAny_self, List.mem_cons]
        constructor
        · intro hq
          refine ⟨.inr hq, ?_⟩
          rintro rfl
          exact (List.nodup_cons.mp hnd).1 hq
        · exact fun ⟨hq, hne⟩ => hq.resolve_left hne
      · rw [Function.update_of_ne hx, hold hx]
        refine (mem_removeWaiters w x q cs s.anyWaiters).trans ?_
        constructor
        · rintro ⟨hq, hne⟩
          refine ⟨hq, ?_⟩
          rintro rfl
          obtain ⟨-, cs', hst', hxcs⟩ := (h.any_mem x q).mp (hold hx ▸ hq)
          rw [hst] at hst'
          cases hst'
          exact hne hxcs rfl
        · exact fun ⟨hq, hne⟩ => ⟨hq, fun _ => hne⟩
  have hget' : (s.removeWaitAnyRegistration w cs).processes.get w = some p := hget
  have hcore : p.core.status = .blocked (.waitAny cs) := hs
  rcases hdel : ops.deliverPid p.vm winner with ⟨failure | _, vm⟩
  · simp only [wakeAnyWaiter, hget, hs, hwin, hdel]
    rw [← hs, board_setVm hget' vm, onStack_cons]
    refine ⟨hlife, hm, stays_push (s := s) hst (fun q hrun => ?_) _⟩
    rw [board_setVm hget' vm]
    exact hrun
  · simp only [wakeAnyWaiter, hget, hs, hwin, hdel]
    rw [board_enqueue, board_setProcess]
    refine ⟨?_, hm, fun q hrun hnot => ⟨?_, hnot⟩⟩
    · exact (hlife.setStatus (.inl rfl) (board_proc hget') (by rw [hcore]; rfl) .runnable rfl
        (by simp)).enqueue haway (Board.status_set_self _ w _)
    · rw [board_enqueue, board_setProcess]
      exact status_set_runnable rfl hrun

/-- The loop over the waiters of a process that is no longer alive. -/
theorem lifecycle_wakeAnyLoop (waiters : List ℕ) : ∀ {s : Runtime V W} {ts : Terminations},
    waiters.Nodup → s.anyWaiters finished = [] →
    (s.board.pendingAny finished waiters).Lifecycle (onStack ts away) {finished} ∅ →
    (s.wakeAnyLoop ops ts waiters).1.board.Lifecycle
        (onStack (s.wakeAnyLoop ops ts waiters).2 away) {finished} ∅ ∧
      (s.wakeAnyLoop ops ts waiters).1.anyWaiters finished = [] ∧
      Stays s ts (s.wakeAnyLoop ops ts waiters).1 (s.wakeAnyLoop ops ts waiters).2 := by
  induction waiters with
  | nil =>
    intro s ts _ hempty h
    have hself : s.board.pendingAny finished [] = s.board := by
      rw [Board.pendingAny, ← show s.board.anyWaiters finished = [] from hempty,
        Function.update_eq_self]
    rw [hself] at h
    exact ⟨h, hempty, .refl s ts⟩
  | cons w ws ih =>
    intro s ts hnd hempty h
    obtain ⟨h₁, hempty₁, hstays₁⟩ := lifecycle_wakeAnyWaiter ops hnd hempty h
    obtain ⟨h₂, hempty₂, hstays₂⟩ := ih (List.nodup_cons.mp hnd).2 hempty₁ h₁
    exact ⟨h₂, hempty₂, hstays₁.trans hstays₂⟩

/-- `wakeAnyWaiters` wakes all processes that wait for any of several. -/
theorem lifecycle_wakeAny (h : s.board.Lifecycle (onStack ts away) {finished} ∅) :
    (s.wakeAnyWaiters ops finished ts).1.board.Lifecycle
        (onStack (s.wakeAnyWaiters ops finished ts).2 away) {finished} ∅ ∧
      (s.wakeAnyWaiters ops finished ts).1.anyWaiters finished = [] ∧
      Stays s ts (s.wakeAnyWaiters ops finished ts).1 (s.wakeAnyWaiters ops finished ts).2 := by
  refine lifecycle_wakeAnyLoop ops (s.anyWaiters finished)
    (s := { s with anyWaiters := Function.update s.anyWaiters finished [] })
    (h.any_nodup finished) (Function.update_self ..) ?_
  have hself : Board.pendingAny
      { s with anyWaiters := Function.update s.anyWaiters finished [] }.board finished
      (s.anyWaiters finished) = s.board := by
    simp [Board.pendingAny, board]
  rw [hself]
  exact h

/-- One waiter is woken with the outcome of a process that is no longer alive, which no other
process then waits for. -/
theorem lifecycle_wakeJoinWaiter (hnd : (w :: ws).Nodup) (hempty : s.waiters finished = [])
    (h : (s.board.pendingJoin finished (w :: ws)).Lifecycle (onStack ts away) {finished} ∅) :
    ((s.wakeJoinWaiter ops finished w ts).1.board.pendingJoin finished ws).Lifecycle
        (onStack (s.wakeJoinWaiter ops finished w ts).2 away) {finished} ∅ ∧
      (s.wakeJoinWaiter ops finished w ts).1.waiters finished = [] ∧
      (s.wakeJoinWaiter ops finished w ts).1.anyWaiters = s.anyWaiters ∧
      Stays s ts (s.wakeJoinWaiter ops finished w ts).1
        (s.wakeJoinWaiter ops finished w ts).2 := by
  obtain ⟨haway, kind, hst⟩ := (h.waiters_mem finished w).mp (by simp [Board.pendingJoin])
  obtain ⟨p, hget, hs⟩ := get_of_status (s := s) hst
  -- the outcome is kept for `w`
  have hlive : (s.board.pendingJoin finished (w :: ws)).Live w :=
    Board.live_iff_status.mpr ⟨_, hst, rfl⟩
  have hkept : s.board.kept finished = some w := by
    obtain ⟨hchild, -⟩ := h.await_child w haway finished kind hst
    rcases h.child_of w finished hlive hchild with ⟨hl, -⟩ | hk
    · exact absurd hl (h.ended_dead finished rfl)
    · exact hk
  obtain ⟨record, hrecord, -⟩ := Option.map_eq_some_iff.mp hkept
  -- `w` loses its registration
  have hquiet : w ∉ (s.board.pendingJoin finished (w :: ws)).queue := by
    intro hq
    have hrun := ((h.queue_mem w).mp hq).2
    rw [hst] at hrun
    cases hrun
  have hlife : (s.board.pendingJoin finished ws).Lifecycle (insert w (onStack ts away))
      {finished} ∅ := by
    refine h.unregister hquiet (fun x => ?_) (fun x q => ?_) h.any_nodup fun x q => ?_
    · by_cases hx : x = finished
      · rw [hx, Function.update_self]
        exact (List.nodup_cons.mp hnd).2
      · rw [Function.update_of_ne hx]
        exact Board.pendingJoin_ne s.board (w :: ws) hx ▸ h.waiters_nodup x
    · by_cases hx : x = finished
      · subst hx
        rw [Function.update_self, Board.pendingJoin_self, List.mem_cons]
        constructor
        · intro hq
          refine ⟨.inr hq, ?_⟩
          rintro rfl
          exact (List.nodup_cons.mp hnd).1 hq
        · exact fun ⟨hq, hne⟩ => hq.resolve_left hne
      · rw [Function.update_of_ne hx, Board.pendingJoin_ne _ _ hx]
        constructor
        · intro hq
          refine ⟨hq, ?_⟩
          rintro rfl
          obtain ⟨-, kind', hst'⟩ := (h.waiters_mem x q).mp
            (Board.pendingJoin_ne s.board (q :: ws) hx ▸ hq)
          rw [hst] at hst'
          cases hst'
          exact hx rfl
        · exact fun hq => hq.1
    · constructor
      · intro hq
        refine ⟨hq, ?_⟩
        rintro rfl
        obtain ⟨-, cs, hst', -⟩ := (h.any_mem x q).mp hq
        rw [hst] at hst'
        cases hst'
      · exact fun hq => hq.1
  have hcore : p.core.status = .blocked (.await finished kind) := hs
  have hconsumed := hlife.consume (.inl rfl) (board_proc hget) hkept
  rcases hdel : ops.deliverAwaitOutcome p.vm kind record.outcome s.world with
    ⟨failure | _, vm, world⟩
  · simp only [wakeJoinWaiter, hget, hs, hrecord, hdel, if_true]
    rw [← hs, board_setProcess, onStack_cons]
    have hboard : { s with tombstones := Function.update s.tombstones finished none
                           world := world }.board =
        { s.board with kept := Function.update s.board.kept finished none } :=
      board_reap s finished
    refine ⟨?_, hempty, rfl, stays_push (s := s) hst (fun q hrun => ?_) _⟩
    · rw [hboard]
      exact hconsumed
    · have hq : q ≠ w := by
        rintro rfl
        rw [show s.board.status q = _ from hst] at hrun
        cases hrun
      rw [board_setProcess, Board.status_set_ne _ hq]
      exact hrun
  · simp only [wakeJoinWaiter, hget, hs, hrecord, hdel, if_true]
    rw [board_enqueue, board_setProcess]
    have hboard : { s with tombstones := Function.update s.tombstones finished none
                           world := world }.board =
        { s.board with kept := Function.update s.board.kept finished none } :=
      board_reap s finished
    refine ⟨?_, hempty, rfl, fun q hrun hnot => ⟨?_, hnot⟩⟩
    · rw [hboard]
      have hset := hconsumed.setStatus (.inl rfl) (Function.update_self ..)
        (by show p.core.status.isLive = true; rw [hcore]; rfl) .runnable rfl (by simp)
      have hq := hset.enqueue haway (Board.status_set_self _ w _)
      simpa only [Board.set, Board.pendingJoin, Proc.core, Function.update_idem] using hq
    · rw [board_enqueue, board_setProcess]
      exact status_set_runnable rfl hrun

/-- The loop over the waiters that join a process that is no longer alive. -/
theorem lifecycle_wakeJoinLoop (waiters : List ℕ) : ∀ {s : Runtime V W} {ts : Terminations},
    waiters.Nodup → s.waiters finished = [] →
    (s.board.pendingJoin finished waiters).Lifecycle (onStack ts away) {finished} ∅ →
    (s.wakeJoinLoop ops finished ts waiters).1.board.Lifecycle
        (onStack (s.wakeJoinLoop ops finished ts waiters).2 away) {finished} ∅ ∧
      (s.wakeJoinLoop ops finished ts waiters).1.waiters finished = [] ∧
      (s.wakeJoinLoop ops finished ts waiters).1.anyWaiters = s.anyWaiters ∧
      Stays s ts (s.wakeJoinLoop ops finished ts waiters).1
        (s.wakeJoinLoop ops finished ts waiters).2 := by
  induction waiters with
  | nil =>
    intro s ts _ hempty h
    have hself : s.board.pendingJoin finished [] = s.board := by
      rw [Board.pendingJoin, ← show s.board.waiters finished = [] from hempty,
        Function.update_eq_self]
    rw [hself] at h
    exact ⟨h, hempty, rfl, .refl s ts⟩
  | cons w ws ih =>
    intro s ts hnd hempty h
    obtain ⟨h₁, hempty₁, hany₁, hstays₁⟩ := lifecycle_wakeJoinWaiter ops hnd hempty h
    obtain ⟨h₂, hempty₂, hany₂, hstays₂⟩ := ih (List.nodup_cons.mp hnd).2 hempty₁ h₁
    exact ⟨h₂, hempty₂, hany₂.trans hany₁, hstays₁.trans hstays₂⟩

/-- `wakeJoinWaiters` is the last step of a termination: no process waits any longer. -/
theorem lifecycle_wakeJoin (h : s.board.Lifecycle (onStack ts away) {finished} ∅)
    (hany : s.anyWaiters finished = []) :
    (s.wakeJoinWaiters ops finished ts).1.board.Lifecycle
        (onStack (s.wakeJoinWaiters ops finished ts).2 away) ∅ ∅ ∧
      Stays s ts (s.wakeJoinWaiters ops finished ts).1
        (s.wakeJoinWaiters ops finished ts).2 := by
  have hself : Board.pendingJoin
      { s with waiters := Function.update s.waiters finished [] }.board finished
      (s.waiters finished) = s.board := by
    simp [Board.pendingJoin, board]
  obtain ⟨hlife, hempty, hany', hstays⟩ := lifecycle_wakeJoinLoop ops (s.waiters finished)
    (s := { s with waiters := Function.update s.waiters finished [] })
    (h.waiters_nodup finished) (Function.update_self ..) (by rw [hself]; exact h)
  exact ⟨hlife.woken hempty ((congrFun hany' finished).trans hany), hstays⟩

end Wake

/-! ## Terminations -/

section Drain

variable {away : Set ℕ} {s : Runtime V W} {ts : Terminations} {pid : ℕ} {p : Proc V}

/-- What is on the board when the outcome of a process is recorded. -/
theorem board_recordOutcome (h : s.board.Lifecycle away ∅ ∅)
    (hget : s.processes.get pid = some p) (outcome : ChildOutcome) :
    ∃ (d : Option Core) (k : Option ℕ), (s.recordOutcome pid p outcome).board = { s.board with
        proc := Function.update s.board.proc pid d
        kept := Function.update s.board.kept pid k
        queue := s.board.queue.filter (· ≠ pid) } ∧
      (∀ e, d = some e → e.parent = none ∧ e.children = ∅ ∧ ¬ e.status.isLive) ∧
      (∀ q, p.parent = some q → d = none) ∧
      ∀ q, k = some q ↔ p.parent = some q ∧ s.board.Live q := by
  have hnone : s.board.kept pid = none := by
    cases hk : s.board.kept pid with
    | none => rfl
    | some q =>
      have hgone := (h.kept_gone pid q hk).1
      rw [board_proc hget] at hgone
      cases hgone
  have hsame : Function.update s.board.kept pid none = s.board.kept := by
    rw [← hnone, Function.update_eq_self]
  cases hpar : p.parent with
  | none =>
    obtain ⟨st, hst, hrecord⟩ : ∃ st : ProcessStatus, st.isLive = false ∧
        s.recordOutcome pid p outcome = { s with
          processes := s.processes.erase pid
          queue := s.queue.filter (· ≠ pid) }.setProcess pid
            { p with status := st, children := ∅ } := by
      cases outcome with
      | ok value => exact ⟨.done, rfl, by simp [recordOutcome, hpar]⟩
      | err failure => exact ⟨.failed failure, rfl, by simp [recordOutcome, hpar]⟩
    refine ⟨some ⟨st, none, ∅⟩, none, ?_, fun e he => ?_, by simp, by simp⟩
    · rw [hrecord, board_setProcess, board_erase, hsame]
      simp only [Board.set, Proc.core, hpar, Function.update_idem]
      rfl
    · cases he
      exact ⟨rfl, rfl, by simp [hst]⟩
  | some parent =>
    have hlt : parent < pid := h.parent_lt pid p.core (board_proc hget) parent hpar
    have hlives : { s with
        processes := s.processes.erase pid
        queue := s.queue.filter (· ≠ pid) }.isLive parent = s.isLive parent := by
      simp [isLive, Table.holds, hlt.ne]
    by_cases hl : s.isLive parent = true
    · refine ⟨none, some parent, ?_, by simp, by simp, fun q => ?_⟩
      · simp only [recordOutcome, hpar, hlives, hl, if_true]
        refine (board_tombstones { s with
          processes := s.processes.erase pid
          queue := s.queue.filter (· ≠ pid) } pid _).trans ?_
        rw [board_erase]
        rfl
      · constructor
        · rintro ⟨⟩
          exact ⟨rfl, board_live.mpr hl⟩
        · rintro ⟨⟨⟩, -⟩
          rfl
    · refine ⟨none, none, ?_, by simp, by simp, fun q => ?_⟩
      · simp only [recordOutcome, hpar, hlives, hl, if_false, Bool.false_eq_true]
        rw [board_erase, hsame]
        rfl
      · constructor
        · rintro ⟨⟩
        · rintro ⟨⟨⟩, hlq⟩
          exact absurd (board_live.mp hlq) hl

/-- The first half of a termination. -/
theorem lifecycle_recordOutcome (h : s.board.Lifecycle away ∅ ∅) (hin : pid ∈ away)
    (hget : s.processes.get pid = some p) (hlive : p.isLive) (outcome : ChildOutcome) :
    (s.recordOutcome pid p outcome).board.Lifecycle away {pid} {x | x ∈ p.children} ∧
      (∀ q, q ≠ pid → (s.recordOutcome pid p outcome).board.status q = s.board.status q) ∧
      ∀ x q, x ≠ pid → (s.recordOutcome pid p outcome).board.kept x = some q →
        s.board.kept x = some q := by
  obtain ⟨d, k, hboard, hd, hdk, hk⟩ := board_recordOutcome h hget outcome
  rw [hboard]
  refine ⟨h.finish hin (board_proc hget) ?_ hd hdk hk, fun q hq => ?_, fun x q hx hkx => ?_⟩
  · rw [Proc.isLive_core]
    exact hlive
  · simp [Board.status, hq]
  · simpa [hx] using hkx

variable (iter : ℕ → Finset ℕ → List ℕ)

/-- A termination takes the process off the stack, and may put others there. -/
theorem lifecycle_finishProcess (hiter : ∀ q cs x, x ∈ iter q cs ↔ x ∈ cs)
    (h : s.board.Lifecycle (insert pid (onStack ts away)) ∅ ∅) (outcome : ChildOutcome) :
    (s.finishProcess ops iter pid outcome ts).1.board.Lifecycle
        (onStack (s.finishProcess ops iter pid outcome ts).2 away) ∅ ∅ ∧
      Stays s ((pid, outcome) :: ts) (s.finishProcess ops iter pid outcome ts).1
        (s.finishProcess ops iter pid outcome ts).2 := by
  have hpop : Stays s ((pid, outcome) :: ts) s ts :=
    fun q hrun hnot => ⟨hrun, fun o hin => hnot o (.tail _ hin)⟩
  by_cases hlive : s.isLive pid = true
  swap
  · have hfinish : s.finishProcess ops iter pid outcome ts = (s, ts) := by
      cases hget : s.processes.get pid with
      | none => simp only [finishProcess, hget]
      | some p =>
        have hp : p.isLive = false := by
          simpa [isLive, Table.holds, hget] using hlive
        simp only [finishProcess, hget, hp, if_false, Bool.false_eq_true]
    rw [hfinish]
    exact ⟨h.settle fun hl => hlive (board_live.mp hl), hpop⟩
  obtain ⟨p, hget, hp⟩ : ∃ p, s.processes.get pid = some p ∧ p.isLive = true := by
    simpa [isLive, Table.holds, Option.any_eq_true] using hlive
  obtain ⟨h₁, hstatus, hkept⟩ := lifecycle_recordOutcome h (.inl rfl) hget hp outcome
  -- the outcomes of the children are kept for `pid`, which is no longer alive
  have hdead : ∀ x ∈ iter pid p.children, ∀ q, (s.recordOutcome pid p outcome).board.kept x = some q →
      ¬ (s.recordOutcome pid p outcome).board.Live q := by
    intro x hx q hk
    have hchild : s.board.HasChild pid x := (board_hasChild hget x).mpr ((hiter pid _ x).mp hx)
    have hq : q = pid := by
      rcases h.child_of pid x (board_live.mpr hlive) hchild with ⟨⟨e, he, -⟩, e', he', hpar⟩ | hk'
      · have hx : pid < x := h.parent_lt x e' he' pid hpar
        rw [(h.kept_gone x q (hkept x q hx.ne' hk)).1] at he
        cases he
      · have hx := (h.kept_gone x pid hk').2
        have := hkept x q hx.ne' hk
        rw [hk', Option.some.injEq] at this
        exact this.symm
    rw [hq]
    exact h₁.ended_dead pid rfl
  rw [← onStack_insert] at h₁
  obtain ⟨h₂, hproc₂, hstays₂⟩ := lifecycle_cancelChildren ops (iter pid p.children) h₁ hdead
  have horphans : {x | x ∈ p.children} \ {x | x ∈ iter pid p.children} = (∅ : Set ℕ) := by
    ext x
    simp [hiter]
  rw [horphans, onStack_insert] at h₂
  have hsettled := h₂.settle (h₂.ended_dead pid rfl)
  obtain ⟨h₃, hany₃, hstays₃⟩ := lifecycle_wakeAny ops hsettled
  obtain ⟨h₄, hstays₄⟩ := lifecycle_wakeJoin ops h₃ hany₃
  have hstays₁ : Stays s ((pid, outcome) :: ts) (s.recordOutcome pid p outcome) ts := by
    intro q hrun hnot
    have hq : q ≠ pid := by
      rintro rfl
      exact hnot outcome (.head _)
    exact ⟨(hstatus q hq).trans hrun, fun o hin => hnot o (.tail _ hin)⟩
  simp only [finishProcess, hget, hp, if_true]
  exact ⟨h₄, hstays₁.trans (hstays₂.trans (hstays₃.trans hstays₄))⟩

/-- `drainTerminations` empties the stack. -/
theorem lifecycle_drain (hiter : ∀ q cs x, x ∈ iter q cs ↔ x ∈ cs) (s : Runtime V W)
    (ts : Terminations) (h : s.board.Lifecycle (onStack ts away) ∅ ∅) :
    (s.drainTerminations ops iter ts).board.Lifecycle away ∅ ∅ ∧
      Stays s ts (s.drainTerminations ops iter ts) [] := by
  induction s, ts using drainTerminations.induct ops iter with
  | case1 s =>
    rw [onStack_nil] at h
    rw [drainTerminations]
    exact ⟨h, .refl s []⟩
  | case2 s pid outcome ts ih =>
    rw [onStack_cons] at h
    obtain ⟨h₁, hstays₁⟩ := lifecycle_finishProcess ops iter hiter h outcome
    obtain ⟨h₂, hstays₂⟩ := ih h₁
    rw [drainTerminations]
    exact ⟨h₂, hstays₁.trans hstays₂⟩

/-- `terminate`, for the process that runs a slice. -/
theorem lifecycle_terminate (hiter : ∀ q cs x, x ∈ iter q cs ↔ x ∈ cs)
    (h : s.board.Lifecycle (insert pid away) ∅ ∅) (outcome : ChildOutcome) :
    (s.terminate ops iter pid outcome).board.Lifecycle away ∅ ∅ :=
  (lifecycle_drain ops iter hiter s [(pid, outcome)]
    (by rw [onStack_cons, onStack_nil]; exact h)).1

end Drain

/-! ## Requests -/

section Requests

variable {s : Runtime V W} {pid child : ℕ} {p : Proc V}

theorem classifyChild_live (hget : s.processes.get pid = some p)
    (h : s.classifyChild pid child = .live) : child ∈ p.children ∧ s.isLive child = true := by
  simp only [classifyChild, hget, Option.any_some, decide_eq_true_eq] at h
  split_ifs at h with hin hl
  exact ⟨hin, hl⟩

theorem classifyChild_terminated (hget : s.processes.get pid = some p)
    (h : s.classifyChild pid child = .terminated) :
    child ∈ p.children ∧ ¬ s.isLive child = true := by
  simp only [classifyChild, hget, Option.any_some, decide_eq_true_eq] at h
  split_ifs at h with hin hl
  exact ⟨hin, hl⟩

/-- A process blocks on children that are alive. -/
theorem lifecycle_block (hget : s.processes.get pid = some p) (hrun : p.status = .runnable)
    (h : s.board.Lifecycle (insert pid ∅) ∅ ∅) {reason : BlockReason}
    {waiters anyWaiters : ℕ → List ℕ}
    (hio : ∀ token, reason ≠ .io token)
    (hnd : ∀ x, (waiters x).Nodup)
    (hmem : ∀ x q, q ∈ waiters x ↔ q ∈ s.waiters x ∨ (q = pid ∧ ∃ kind, reason = .await x kind))
    (hnd' : ∀ x, (anyWaiters x).Nodup)
    (hmem' : ∀ x q, q ∈ anyWaiters x ↔
      q ∈ s.anyWaiters x ∨ (q = pid ∧ ∃ cs, reason = .waitAny cs ∧ x ∈ cs))
    (hawait : ∀ x kind, reason = .await x kind → x ∈ p.children ∧ s.isLive x = true)
    (hany : ∀ cs, reason = .waitAny cs → cs ≠ [] ∧
      ∀ x ∈ cs, x ∈ p.children ∧ s.isLive x = true) :
    { s.setProcess pid { p with status := .blocked reason } with
      waiters := waiters
      anyWaiters := anyWaiters }.board.Lifecycle ∅ ∅ ∅ := by
  have hset := h.setStatus (.inl rfl) (board_proc hget)
    (by rw [Proc.isLive_core, Proc.isLive, hrun]) (.blocked reason) rfl (by simpa using hio)
  have hlives : ∀ {x}, s.isLive x = true →
      (s.board.set pid { p.core with status := .blocked reason }).Live x := by
    intro x hl
    rw [Board.live_set]
    split
    · rfl
    · exact board_live.mpr hl
  have hchild : ∀ {x}, x ∈ p.children →
      (s.board.set pid { p.core with status := .blocked reason }).HasChild pid x := by
    intro x hx
    rw [Board.hasChild_set, if_pos rfl]
    exact hx
  have hboard : { s.setProcess pid { p with status := .blocked reason } with
        waiters := waiters
        anyWaiters := anyWaiters }.board =
      { s.board.set pid { p.core with status := .blocked reason } with
        waiters := waiters
        anyWaiters := anyWaiters } := by
    show { (s.setProcess pid { p with status := .blocked reason }).board with
        waiters := waiters
        anyWaiters := anyWaiters } = _
    rw [board_setProcess]
    rfl
  rw [hboard]
  refine hset.register id (Board.status_set_self ..) hnd hmem hnd' hmem' (fun x kind he => ?_)
    fun cs he => ?_
  · obtain ⟨hx, hl⟩ := hawait x kind he
    exact ⟨hchild hx, hlives hl⟩
  · obtain ⟨hne, hall⟩ := hany cs he
    exact ⟨hne, fun x hx => ⟨hchild (hall x hx).1, hlives (hall x hx).2⟩⟩

variable (iter : ℕ → Finset ℕ → List ℕ) (hiter : ∀ q cs x, x ∈ iter q cs ↔ x ∈ cs)

include hiter

/-- A process that was answered is queued, or terminates. -/
theorem lifecycle_resumeOrFail (hrun : p.status = .runnable)
    (h : (s.setProcess pid p).board.Lifecycle (insert pid ∅) ∅ ∅)
    (delivered : Except ProcessFailure Unit) :
    (s.resumeOrFail ops iter pid p delivered).board.Lifecycle ∅ ∅ ∅ := by
  cases delivered with
  | error failure => exact lifecycle_terminate ops iter hiter h _
  | ok _ =>
    have hself : { p with status := .runnable } = p := by
      rw [← hrun]
    simp only [resumeOrFail, hself]
    rw [board_enqueue]
    refine h.enqueue id ?_
    rw [board_setProcess, Board.status_set_self]
    exact congrArg some hrun

/-- An answer that leaves the bookkeeping as it is. -/
theorem lifecycle_answer (hget : s.processes.get pid = some p) (hrun : p.status = .runnable)
    (h : s.board.Lifecycle (insert pid ∅) ∅ ∅) (vm : V) (world : W)
    (delivered : Except ProcessFailure Unit) :
    (resumeOrFail ops iter { s with world := world } pid { p with vm := vm }
      delivered).board.Lifecycle ∅ ∅ ∅ := by
  refine lifecycle_resumeOrFail ops iter hiter (by exact hrun) ?_ delivered
  rw [board_setVm (s := { s with world := world }) hget]
  exact h

/-- `consumeChild`. -/
theorem lifecycle_consumeChild (hget : s.processes.get pid = some p) (hrun : p.status = .runnable)
    (h : s.board.Lifecycle (insert pid ∅) ∅ ∅) (hchild : child ∈ p.children)
    (hdead : ¬ s.isLive child = true) (kind : AwaitKind) :
    (s.consumeChild ops iter pid child kind).board.Lifecycle ∅ ∅ ∅ := by
  have hlive : s.board.Live pid := Board.live_iff_status.mpr ⟨_, board_status hget, by rw [hrun]; rfl⟩
  have hkept : s.board.kept child = some pid := by
    rcases h.child_of pid child hlive ((board_hasChild hget child).mpr hchild) with ⟨hl, -⟩ | hk
    · exact absurd (board_live.mp hl) hdead
    · exact hk
  obtain ⟨record, hrecord, -⟩ := Option.map_eq_some_iff.mp hkept
  have hconsumed := h.consume (.inl rfl) (board_proc hget) hkept
  simp only [consumeChild, hget, hrecord]
  refine lifecycle_resumeOrFail ops iter hiter (by exact hrun) ?_ _
  rw [board_setProcess]
  have hboard : ∀ world : W, { s with
      tombstones := Function.update s.tombstones child none
      world := world }.board =
        { s.board with kept := Function.update s.board.kept child none } :=
    fun _ => board_reap s child
  rw [hboard]
  exact hconsumed

/-- `handleAwait`. -/
theorem lifecycle_handleAwait (hget : s.processes.get pid = some p) (hrun : p.status = .runnable)
    (h : s.board.Lifecycle (insert pid ∅) ∅ ∅) (child : ℕ) (kind : AwaitKind) :
    (s.handleAwait ops iter pid child kind).board.Lifecycle ∅ ∅ ∅ := by
  cases hclass : s.classifyChild pid child with
  | live =>
    obtain ⟨hchild, hlive⟩ := classifyChild_live hget hclass
    have hnot : pid ∉ s.waiters child :=
      fun hin => ((h.waiters_mem child pid).mp hin).1 (.inl rfl)
    simp only [handleAwait, hclass, hget]
    refine lifecycle_block hget hrun h (by simp) (nodup_addWaiter h.waiters_nodup hnot)
      (fun x q => ?_) h.any_nodup (fun x q => ?_) (fun x kind' he => ?_) (by simp)
    · refine (mem_addWaiter s.waiters child pid x q).trans (or_congr_right ?_)
      constructor
      · rintro ⟨rfl, rfl⟩
        exact ⟨rfl, kind, rfl⟩
      · rintro ⟨rfl, kind', he⟩
        cases he
        exact ⟨rfl, rfl⟩
    · simp [setProcess]
    · cases he
      exact ⟨hchild, hlive⟩
  | terminated =>
    obtain ⟨hchild, hdead⟩ := classifyChild_terminated hget hclass
    simp only [handleAwait, hclass]
    exact lifecycle_consumeChild ops iter hiter hget hrun h hchild hdead kind
  | reaped =>
    simp only [handleAwait, hclass, hget]
    exact lifecycle_answer ops iter hiter hget hrun h _ _ _
  | notChild =>
    simp only [handleAwait, hclass]
    exact lifecycle_terminate ops iter hiter h _
  | unknown =>
    simp only [handleAwait, hclass]
    exact lifecycle_terminate ops iter hiter h _

omit hiter in
/-- `answerCancel`, for a process that is still runnable. -/
theorem lifecycle_answerCancel (hst : s.board.status pid = some .runnable)
    (h : s.board.Lifecycle (insert pid ∅) ∅ ∅) :
    (s.answerCancel ops pid).board.Lifecycle ∅ ∅ ∅ := by
  obtain ⟨p, hget, hrun⟩ := get_of_status hst
  simp only [answerCancel, hget]
  rw [board_enqueue, ← hrun, board_setVm hget]
  exact h.enqueue id hst

/-- `handleCancel`. -/
theorem lifecycle_handleCancel (hget : s.processes.get pid = some p)
    (hrun : p.status = .runnable) (h : s.board.Lifecycle (insert pid ∅) ∅ ∅) (child : ℕ) :
    (s.handleCancel ops iter pid child).board.Lifecycle ∅ ∅ ∅ := by
  have hst : s.board.status pid = some .runnable := hrun ▸ board_status hget
  cases hclass : s.classifyChild pid child with
  | live =>
    simp only [handleCancel, hclass]
    rw [← onStack_nil (insert pid ∅)] at h
    obtain ⟨h₁, -, -, hstays₁⟩ := lifecycle_cancelProcess ops h child
    obtain ⟨h₂, hstays₂⟩ := lifecycle_drain ops iter hiter _ _ h₁
    exact lifecycle_answerCancel ops ((hstays₁.trans hstays₂) pid hst (by simp)).1 h₂
  | terminated =>
    simp only [handleCancel, hclass]
    exact lifecycle_answerCancel ops hst h
  | reaped =>
    simp only [handleCancel, hclass]
    exact lifecycle_answerCancel ops hst h
  | notChild =>
    simp only [handleCancel, hclass]
    exact lifecycle_terminate ops iter hiter h _
  | unknown =>
    simp only [handleCancel, hclass]
    exact lifecycle_terminate ops iter hiter h _

/-- The scan of `handleWaitAny`: the pids of `all` before `rest` are children that are alive. -/
theorem lifecycle_waitAnyScan (hget : s.processes.get pid = some p) (hrun : p.status = .runnable)
    (h : s.board.Lifecycle (insert pid ∅) ∅ ∅) {all : List ℕ} (hnd : all.Nodup) (hne : all ≠ []) :
    ∀ rest : List ℕ, (∀ x ∈ all, x ∉ rest → x ∈ p.children ∧ s.isLive x = true) →
      (s.waitAnyScan ops iter pid all rest).board.Lifecycle ∅ ∅ ∅ := by
  intro rest
  induction rest with
  | nil =>
    intro hall
    have hnot : ∀ x ∈ all, pid ∉ s.anyWaiters x :=
      fun x _ hin => ((h.any_mem x pid).mp hin).1 (.inl rfl)
    simp only [waitAnyScan, hget]
    refine lifecycle_block hget hrun h (by simp) h.waiters_nodup (fun x q => ?_)
      (nodup_addWaiters pid all _ h.any_nodup hnd hnot) (fun x q => ?_) (by simp) fun cs he => ?_
    · simp [setProcess]
    · refine (mem_addWaiters pid x q all s.anyWaiters).trans (or_congr_right ?_)
      simp
    · cases he
      exact ⟨hne, fun x hx => hall x hx (by simp)⟩
  | cons child rest ih =>
    intro hall
    cases hclass : s.classifyChild pid child with
    | live =>
      simp only [waitAnyScan, hclass]
      refine ih fun x hx hrest => ?_
      by_cases hxc : x = child
      · rw [hxc]
        exact classifyChild_live hget hclass
      · exact hall x hx (by simp [hxc, hrest])
    | terminated =>
      simp only [waitAnyScan, hclass, hget]
      exact lifecycle_answer ops iter hiter hget hrun h _ _ _
    | reaped =>
      simp only [waitAnyScan, hclass, hget]
      exact lifecycle_answer ops iter hiter hget hrun h _ _ _
    | notChild =>
      simp only [waitAnyScan, hclass]
      exact lifecycle_terminate ops iter hiter h _
    | unknown =>
      simp only [waitAnyScan, hclass]
      exact lifecycle_terminate ops iter hiter h _

omit hiter in
theorem nodup_dedupPids_go (pids : List ℕ) : ∀ seen : Finset ℕ,
    (dedupPids.go seen pids).Nodup ∧ ∀ pid ∈ dedupPids.go seen pids, pid ∉ seen := by
  induction pids with
  | nil => simp [dedupPids.go]
  | cons pid pids ih =>
    intro seen
    by_cases hin : pid ∈ seen
    · simpa [dedupPids.go, hin] using ih seen
    · obtain ⟨hnd, hnot⟩ := ih (insert pid seen)
      simp only [dedupPids.go, hin, if_false]
      refine ⟨List.nodup_cons.mpr ⟨fun hmem => hnot pid hmem (by simp), hnd⟩, fun q hq => ?_⟩
      rcases List.mem_cons.mp hq with rfl | hq
      · exact hin
      · exact fun hseen => hnot q hq (by simp [hseen])

/-- `handleWaitAny`. -/
theorem lifecycle_handleWaitAny (hget : s.processes.get pid = some p)
    (hrun : p.status = .runnable) (h : s.board.Lifecycle (insert pid ∅) ∅ ∅)
    (children : List ℕ) :
    (s.handleWaitAny ops iter pid children).board.Lifecycle ∅ ∅ ∅ := by
  by_cases hempty : dedupPids children = []
  · simp only [handleWaitAny, hempty, if_true]
    exact lifecycle_terminate ops iter hiter h _
  · simp only [handleWaitAny, hempty, if_false]
    exact lifecycle_waitAnyScan ops iter hiter hget hrun h (nodup_dedupPids_go children ∅).1 hempty
      (dedupPids children) fun x hx hnot => absurd hx hnot

omit hiter in
/-- What is on the board after a process was created, by a parent or as a root. -/
theorem lifecycle_spawned (h : s.board.Lifecycle (insert pid ∅) ∅ ∅)
    (hget : s.processes.get pid = some p) (hrun : p.status = .runnable) (vm childVm : V) :
    (((({ s with nextPid := s.nextPid + 1 }.setProcess s.nextPid (.new childVm (some pid))).setProcess
      pid { p with vm := vm, children := insert s.nextPid p.children }).enqueue
        s.nextPid).enqueue pid).board.Lifecycle ∅ ∅ ∅ := by
  have hlt : pid < s.nextPid := h.pid_lt pid p.core (board_proc hget)
  have hspawn := h.spawn (some pid)
    (Function.update (Function.update s.board.proc s.nextPid
      (some ⟨.runnable, some pid, ∅⟩)) pid
      (some ⟨p.status, p.parent, insert s.nextPid p.children⟩))
    (fun q hq => by
      cases hq
      exact ⟨.inl rfl, p.core, board_proc hget, by rw [Proc.isLive_core, Proc.isLive, hrun]⟩)
    (fun q => by
      by_cases hq : q = pid
      · subst hq
        rw [Function.update_self, if_neg (show ¬ q = s.board.nextPid from hlt.ne), board_proc hget]
        simp [Proc.core, board]
      · rw [Function.update_of_ne hq]
        by_cases hn : q = s.nextPid
        · subst hn
          rw [Function.update_self]
          exact (if_pos rfl).symm
        · have hne : some pid ≠ some q := fun he => hq (Option.some.inj he).symm
          rw [Function.update_of_ne hn, if_neg (show ¬ q = s.board.nextPid from hn)]
          simp [hne])
  have hchild : s.nextPid ∉ insert pid (∅ : Set ℕ) := by
    rintro (he | hin)
    · exact hlt.ne' he
    · exact hin
  rw [board_enqueue, board_enqueue, board_setProcess, board_setProcess]
  refine Board.Lifecycle.enqueue (Board.Lifecycle.enqueue hspawn hchild ?_) id ?_
  · exact (Board.status_set_ne _ hlt.ne' _).trans (Board.status_set_self ..)
  · exact (Board.status_set_self ..).trans (congrArg some hrun)

/-- `handleSpawn`. -/
theorem lifecycle_handleSpawn (hget : s.processes.get pid = some p) (hrun : p.status = .runnable)
    (h : s.board.Lifecycle (insert pid ∅) ∅ ∅) (protoIdx : ℕ) (captures : List SendableValue) :
    (s.handleSpawn ops iter pid protoIdx captures).board.Lifecycle ∅ ∅ ∅ := by
  rcases hcreate : ops.createChild p.vm protoIdx captures s.world with ⟨failure | childVm, world⟩
  · simp only [handleSpawn, hget, hcreate]
    exact lifecycle_terminate ops iter hiter (s := { s with world := world }) h _
  · simp only [handleSpawn, hget, hcreate]
    exact lifecycle_spawned (s := { s with world := world }) h hget hrun _ childVm

omit hiter in
/-- `spawnRoot`. -/
theorem lifecycle_spawnRoot {s : Runtime V W} (h : s.board.Lifecycle ∅ ∅ ∅) (vm : V) :
    (s.spawnRoot vm).board.Lifecycle ∅ ∅ ∅ := by
  have hspawn := h.spawn none
    (Function.update s.board.proc s.nextPid (some ⟨.runnable, none, ∅⟩))
    (by simp)
    (fun q => by
      by_cases hn : q = s.nextPid
      · subst hn
        rw [Function.update_self]
        exact (if_pos rfl).symm
      · rw [Function.update_of_ne hn, if_neg (show ¬ q = s.board.nextPid from hn)]
        simp)
  rw [spawnRoot, board_enqueue, board_setProcess]
  exact Board.Lifecycle.enqueue hspawn id (Board.status_set_self ..)

/-- The result of a slice. -/
theorem lifecycle_handleResult (hget : s.processes.get pid = some p)
    (hrun : p.status = .runnable) (h : s.board.Lifecycle (insert pid ∅) ∅ ∅)
    (result : RunResult) : (s.handleResult ops iter pid p result).board.Lifecycle ∅ ∅ ∅ := by
  cases result with
  | done =>
    simp only [handleResult]
    exact lifecycle_terminate ops iter hiter (by exact h) _
  | yielded =>
    rw [handleResult, board_enqueue]
    exact h.enqueue id (hrun ▸ board_status hget)
  | failed failure => exact lifecycle_terminate ops iter hiter h _
  | cancelled => exact lifecycle_terminate ops iter hiter h _
  | request request =>
    cases request with
    | spawn protoIdx captures =>
      exact lifecycle_handleSpawn ops iter hiter hget hrun h protoIdx captures
    | await child => exact lifecycle_handleAwait ops iter hiter hget hrun h child .raw
    | awaitResult child => exact lifecycle_handleAwait ops iter hiter hget hrun h child .result
    | cancel child => exact lifecycle_handleCancel ops iter hiter hget hrun h child
    | waitAny children => exact lifecycle_handleWaitAny ops iter hiter hget hrun h children
    | io => exact lifecycle_terminate ops iter hiter h _

/-- A slice of the first process of the queue. -/
theorem lifecycle_runOneSlice {s : Runtime V W} (h : s.board.Lifecycle ∅ ∅ ∅) {queue : List ℕ}
    (hq : s.queue = pid :: queue) :
    ∃ s', runOneSlice ops iter { s with queue := queue } pid = .ok s' ∧
      s'.board.Lifecycle ∅ ∅ ∅ := by
  obtain ⟨hlife, hst, -⟩ := h.dequeue hq
  obtain ⟨p, hget, hrun⟩ := get_of_status hst
  have hrunnable : p.isRunnable = true := by rw [Proc.isRunnable, hrun]
  rcases hslice : ops.runSlice p.vm s.world with ⟨result, vm, world⟩
  simp only [runOneSlice, hget, hrunnable, hslice, Bool.not_true, Bool.false_eq_true, if_false]
  refine ⟨_, rfl, lifecycle_handleResult ops iter hiter (by simp [setProcess]) (by exact hrun) ?_
    result⟩
  rw [board_setVm (s := { s with queue := queue, world := world }) hget]
  exact hlife

end Requests

end Runtime

/-! ## Runs -/

section Runs

variable {V W : Type} {ops : VmOps V W} {iter : ℕ → Finset ℕ → List ℕ} {w : W} {s : Runtime V W}

/-- A runtime without processes is consistent. -/
theorem lifecycle_new (w : W) : (Runtime.new (V := V) w).board.Lifecycle ∅ ∅ ∅ := by
  have hproc : ∀ q, (Runtime.new (V := V) w).board.proc q = none := fun _ => rfl
  have hstatus : ∀ q, (Runtime.new (V := V) w).board.status q = none := fun _ => rfl
  have hkept : ∀ q, (Runtime.new (V := V) w).board.kept q = none := fun _ => rfl
  constructor
  case queue_nodup => exact List.nodup_nil
  case waiters_nodup => exact fun _ => List.nodup_nil
  case any_nodup => exact fun _ => List.nodup_nil
  case queue_mem =>
    intro q
    rw [hstatus]
    simp [Runtime.board, Runtime.new]
  case waiters_mem =>
    intro x q
    rw [hstatus]
    simp [Runtime.board, Runtime.new]
  case any_mem =>
    intro x q
    rw [hstatus]
    simp [Runtime.board, Runtime.new]
  all_goals simp [hproc, hstatus, hkept, Board.HasChild, Board.Live]

/-- A process that is blocked is alive. -/
theorem Runtime.live_of_mem_stuck {pid : ℕ} (h : pid ∈ s.stuck) : s.board.Live pid := by
  have hblocked := (Finset.mem_filter.mp h).2
  cases hget : s.processes.get pid with
  | none => simp [Table.holds, hget] at hblocked
  | some p =>
    have hp : p.isBlocked = true := by simpa [Table.holds, hget] using hblocked
    refine ⟨p.core, Runtime.board_proc hget, ?_⟩
    rw [Proc.isLive_core]
    cases hs : p.status <;> simp_all [Proc.isBlocked, Proc.isLive]

/-- Where nothing is queued, nothing is blocked. -/
theorem Runtime.stuck_eq_empty (h : s.board.Lifecycle ∅ ∅ ∅) (hq : s.queue = []) :
    s.stuck = ∅ :=
  Finset.eq_empty_of_forall_notMem fun pid hin => h.quiet hq pid (live_of_mem_stuck hin)

/-- The states between two slices are consistent. -/
theorem RuntimeRun.lifecycle (hiter : ∀ q cs x, x ∈ iter q cs ↔ x ∈ cs)
    (h : RuntimeRun ops iter w s) : s.board.Lifecycle ∅ ∅ ∅ := by
  induction h with
  | new => exact lifecycle_new w
  | root _ vm ih => exact Runtime.lifecycle_spawnRoot ih vm
  | slice _ hq hs ih =>
    obtain ⟨s', hs', hlife⟩ := Runtime.lifecycle_runOneSlice ops iter hiter ih hq
    rw [hs', Except.ok.injEq] at hs
    exact hs ▸ hlife
  | deadlock _ hq hs ih => exact absurd (Runtime.stuck_eq_empty ih hq) hs

/-- The tables of the runtime agree with each other. -/
structure Runtime.Bookkeeping (s : Runtime V W) : Prop where
  /-- the runnable processes are queued, once each -/
  queue_nodup : s.queue.Nodup
  queue_mem : ∀ pid, pid ∈ s.queue ↔ ∃ p, s.processes.get pid = some p ∧ p.isRunnable = true
  /-- a blocked process waits for children of its own that are alive, and is registered there -/
  await : ∀ pid p child kind, s.processes.get pid = some p →
    p.status = .blocked (.await child kind) →
    (child ∈ p.children ∧ ∃ q, s.processes.get child = some q ∧ q.isLive = true ∧
      q.parent = some pid) ∧
    (∀ x, pid ∈ s.waiters x ↔ x = child) ∧ ∀ x, pid ∉ s.anyWaiters x
  waitAny : ∀ pid p children, s.processes.get pid = some p →
    p.status = .blocked (.waitAny children) →
    (children ≠ [] ∧ ∀ child ∈ children, child ∈ p.children ∧
      ∃ q, s.processes.get child = some q ∧ q.isLive = true ∧ q.parent = some pid) ∧
    (∀ x, pid ∈ s.anyWaiters x ↔ x ∈ children) ∧ ∀ x, pid ∉ s.waiters x
  no_io : ∀ pid p token, s.processes.get pid = some p → p.status ≠ .blocked (.io token)
  /-- no other process is registered, and none twice -/
  waiters : ∀ x, (s.waiters x).Nodup ∧ ∀ pid ∈ s.waiters x, ∃ p kind,
    s.processes.get pid = some p ∧ p.status = .blocked (.await x kind)
  anyWaiters : ∀ x, (s.anyWaiters x).Nodup ∧ ∀ pid ∈ s.anyWaiters x, ∃ p children,
    s.processes.get pid = some p ∧ p.status = .blocked (.waitAny children) ∧ x ∈ children
  /-- an outcome is kept for a parent that is alive and still has the child -/
  kept : ∀ child record, s.tombstones child = some record → s.processes.get child = none ∧
    ∃ p, s.processes.get record.parent = some p ∧ p.isLive = true ∧ child ∈ p.children

/-- What a consistent board says about the tables. -/
theorem Runtime.bookkeeping_of_lifecycle (h : s.board.Lifecycle ∅ ∅ ∅) : s.Bookkeeping := by
  have hlive : ∀ {pid p reason}, s.processes.get pid = some p → p.status = .blocked reason →
      s.board.Live pid := by
    intro pid p reason hget hs
    exact Board.live_iff_status.mpr ⟨_, board_status hget, by rw [hs]; rfl⟩
  -- a child that is alive has its parent recorded
  have hchild : ∀ {pid p child}, s.board.Live pid → s.processes.get pid = some p →
      s.board.HasChild pid child ∧ (s.board.Live child ∨ child ∈ (∅ : Set ℕ)) →
      child ∈ p.children ∧ ∃ q, s.processes.get child = some q ∧ q.isLive = true ∧
        q.parent = some pid := by
    rintro pid p child hl hget ⟨hhas, hlc⟩
    refine ⟨(board_hasChild hget child).mp hhas, ?_⟩
    obtain ⟨e, he, hle⟩ := hlc.resolve_right id
    obtain ⟨q, hq, rfl⟩ := Option.map_eq_some_iff.mp he
    refine ⟨q, hq, q.isLive_core ▸ hle, ?_⟩
    rcases h.child_of pid child hl hhas with ⟨-, e', he', hpar⟩ | hk
    · rw [he, Option.some.injEq] at he'
      subst he'
      exact hpar
    · rw [(h.kept_gone child pid hk).1] at he
      cases he
  refine ⟨h.queue_nodup, fun pid => ?_, fun pid p child kind hget hs => ?_,
    fun pid p children hget hs => ?_, fun pid p token hget hs => ?_, fun x => ⟨h.waiters_nodup x,
    fun pid hin => ?_⟩, fun x => ⟨h.any_nodup x, fun pid hin => ?_⟩, fun child record hrecord => ?_⟩
  · refine (h.queue_mem pid).trans ?_
    constructor
    · rintro ⟨-, hst⟩
      obtain ⟨p, hget, hs⟩ := get_of_status hst
      exact ⟨p, hget, by rw [Proc.isRunnable, hs]⟩
    · rintro ⟨p, hget, hp⟩
      refine ⟨id, ?_⟩
      rw [board_status hget]
      cases hs : p.status <;> simp_all [Proc.isRunnable]
  · have hst := board_status hget
    rw [hs] at hst
    refine ⟨hchild (hlive hget hs) hget (h.await_child pid id child kind hst), fun x => ?_,
      fun x hin => ?_⟩
    · refine (h.waiters_mem x pid).trans ?_
      rw [hst]
      simp [eq_comm]
    · obtain ⟨-, cs, hst', -⟩ := (h.any_mem x pid).mp hin
      rw [hst] at hst'
      cases hst'
  · have hst := board_status hget
    rw [hs] at hst
    obtain ⟨hne, hall⟩ := h.any_child pid id children hst
    refine ⟨⟨hne, fun child hin => hchild (hlive hget hs) hget (hall child hin)⟩, fun x => ?_,
      fun x hin => ?_⟩
    · refine (h.any_mem x pid).trans ?_
      rw [hst]
      simp
    · obtain ⟨-, kind, hst'⟩ := (h.waiters_mem x pid).mp hin
      rw [hst] at hst'
      cases hst'
  · exact h.no_io pid token (hs ▸ board_status hget)
  · obtain ⟨-, kind, hst⟩ := (h.waiters_mem x pid).mp hin
    obtain ⟨p, hget, hs⟩ := get_of_status hst
    exact ⟨p, kind, hget, hs⟩
  · obtain ⟨-, cs, hst, hx⟩ := (h.any_mem x pid).mp hin
    obtain ⟨p, hget, hs⟩ := get_of_status hst
    exact ⟨p, cs, hget, hs, hx⟩
  · have hk : s.board.kept child = some record.parent := by
      simp [board, hrecord]
    refine ⟨Option.map_eq_none_iff.mp (h.kept_gone child _ hk).1, ?_⟩
    rcases h.kept_parent child _ hk with ⟨ho, -⟩ | ⟨⟨e, he, hle⟩, hhas⟩
    · cases ho
    · obtain ⟨p, hget, rfl⟩ := Option.map_eq_some_iff.mp he
      exact ⟨p, hget, p.isLive_core ▸ hle, (board_hasChild hget child).mp hhas⟩

/-- In every state between two slices the tables agree with each other. Where no process is queued,
none is blocked, and no outcome or registration is left. -/
theorem RuntimeRun.bookkeeping (hiter : ∀ q cs x, x ∈ iter q cs ↔ x ∈ cs)
    (h : RuntimeRun ops iter w s) :
    s.Bookkeeping ∧ (s.queue = [] → s.stuck = ∅ ∧ (∀ pid, s.isLive pid = false) ∧
      ∀ x, s.tombstones x = none ∧ s.waiters x = [] ∧ s.anyWaiters x = []) := by
  have hlife := h.lifecycle hiter
  refine ⟨Runtime.bookkeeping_of_lifecycle hlife, fun hq => ⟨Runtime.stuck_eq_empty hlife hq,
    fun pid => ?_, fun x => ?_⟩⟩
  · by_contra hl
    exact hlife.quiet hq pid (Runtime.board_live.mpr (by simpa using hl))
  · obtain ⟨hkept, hwaiters, hany⟩ := hlife.nothing_left (hlife.quiet hq)
    exact ⟨Option.map_eq_none_iff.mp (hkept x), hwaiters x, hany x⟩

/-- A VM that gives the results of a list. -/
def scripted : VmOps (List RunResult) Unit where
  runSlice vm w := (vm.headD .done, vm.tail, w)
  childResult _ w := (.ok .unit, w)
  createChild _ _ _ w := (.ok [.yielded, .done], w)
  answerPid vm _ := vm
  answerUnit vm := vm
  requestCancellation vm := vm
  deliverResult vm _ w := (.ok (), vm, w)
  deliverJoinResult vm _ w := (.ok (), vm, w)
  deliverPid vm _ := (.ok (), vm)

/-- A root spawns a child, which yields, and awaits it: the root is blocked, and the child is the
only process that is queued. -/
theorem RuntimeRun.bookkeeping_awaiting : ∃ s : Runtime (List RunResult) Unit,
    RuntimeRun scripted (fun _ cs => cs.sort (· ≤ ·)) () s ∧ s.queue = [2] ∧ s.waiters 2 = [1] ∧
      s.Bookkeeping := by
  have hnew : RuntimeRun scripted (fun _ cs => cs.sort (· ≤ ·)) () (.new ()) := .new
  have hrun := RuntimeRun.slice (.slice (.slice (.root hnew
    [.request (.spawn 0 []), .request (.await 2), .done]) rfl rfl) rfl rfl) rfl rfl
  exact ⟨_, hrun, rfl, rfl, (RuntimeRun.bookkeeping (fun _ cs x => Finset.mem_sort _) hrun).1⟩

end Runs

end Hiko
