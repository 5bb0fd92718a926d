import Hiko.Runtime.Single

/-!
# The bookkeeping of the runtime

What a runtime keeps about its processes, without their VMs: status, parent and children of each,
for which parents outcomes are kept, the run queue and the registrations. `Lifecycle` is what ties
these together; the rules below say how each kind of update keeps it.

Some processes are `away`: the one that runs a slice, and those that are to be terminated. They are
neither queued nor registered, whatever their status. Some are `ended`: they are no longer alive,
and the processes that wait for them are not yet woken. The outcomes of `orphans` are still to be
dropped.

## Main definitions

* `Core`, `Board`: the bookkeeping
* `Board.Lifecycle`: the invariant

## Main results

* `enqueue`, `dequeue`, `unregister`, `setStatus`, `register`: processes come and go
* `finish`, `dropKept`, `woken`: a process terminates
* `Lifecycle.quiet`: where nothing is queued, nothing is alive
-/

namespace Hiko

/-- What a runtime keeps about a process. -/
structure Core where
  status : ProcessStatus
  parent : Option ℕ
  children : Finset ℕ

/-- Neither done nor failed. -/
def ProcessStatus.isLive : ProcessStatus → Bool
  | .done => false
  | .failed _ => false
  | _ => true

/-- The bookkeeping of a runtime. -/
structure Board where
  nextPid : ℕ
  proc : ℕ → Option Core
  /-- the parent for which the outcome of a terminated child is kept -/
  kept : ℕ → Option ℕ
  queue : List ℕ
  waiters : ℕ → List ℕ
  anyWaiters : ℕ → List ℕ

namespace Board

/-- A process that is alive. -/
def Live (b : Board) (pid : ℕ) : Prop := ∃ c, b.proc pid = some c ∧ c.status.isLive

/-- The status of a process. -/
def status (b : Board) (pid : ℕ) : Option ProcessStatus := (b.proc pid).map Core.status

/-- A process has another as a child whose outcome it has not consumed. -/
def HasChild (b : Board) (pid child : ℕ) : Prop :=
  ∃ c, b.proc pid = some c ∧ child ∈ c.children

/-- Replace what is kept about a process. -/
def set (b : Board) (pid : ℕ) (c : Core) : Board :=
  { b with proc := Function.update b.proc pid (some c) }

/-- The bookkeeping is consistent. -/
structure Lifecycle (away ended orphans : Set ℕ) (b : Board) : Prop where
  queue_nodup : b.queue.Nodup
  queue_mem : ∀ p, p ∈ b.queue ↔ p ∉ away ∧ b.status p = some .runnable
  waiters_nodup : ∀ c, (b.waiters c).Nodup
  waiters_mem : ∀ c p, p ∈ b.waiters c ↔
    p ∉ away ∧ ∃ kind, b.status p = some (.blocked (.await c kind))
  any_nodup : ∀ c, (b.anyWaiters c).Nodup
  any_mem : ∀ c p, p ∈ b.anyWaiters c ↔
    p ∉ away ∧ ∃ cs, b.status p = some (.blocked (.waitAny cs)) ∧ c ∈ cs
  await_child : ∀ p, p ∉ away → ∀ c kind, b.status p = some (.blocked (.await c kind)) →
    b.HasChild p c ∧ (b.Live c ∨ c ∈ ended)
  any_child : ∀ p, p ∉ away → ∀ cs, b.status p = some (.blocked (.waitAny cs)) →
    cs ≠ [] ∧ ∀ c ∈ cs, b.HasChild p c ∧ (b.Live c ∨ c ∈ ended)
  no_io : ∀ p token, b.status p ≠ some (.blocked (.io token))
  pid_lt : ∀ p c, b.proc p = some c → p < b.nextPid
  parent_lt : ∀ p c, b.proc p = some c → ∀ parent, c.parent = some parent → parent < p
  child_lt : ∀ p child, b.HasChild p child → child < b.nextPid
  child_of : ∀ p child, b.Live p → b.HasChild p child →
    (b.Live child ∧ ∃ c, b.proc child = some c ∧ c.parent = some p) ∨ b.kept child = some p
  child_known : ∀ p c parent, b.proc p = some c → c.status.isLive → c.parent = some parent →
    b.Live parent → b.HasChild parent p
  kept_parent : ∀ child p, b.kept child = some p →
    (child ∈ orphans ∧ ¬ b.Live p) ∨ (b.Live p ∧ b.HasChild p child)
  kept_gone : ∀ child p, b.kept child = some p → b.proc child = none ∧ p < child
  dead_root : ∀ p c, b.proc p = some c → ¬ c.status.isLive → c.parent = none ∧ c.children = ∅
  ended_dead : ∀ p ∈ ended, ¬ b.Live p

/-! ## Reading an update -/

section Read

variable {b : Board} {pid p : ℕ} {c : Core}

theorem status_set_self (b : Board) (pid : ℕ) (c : Core) :
    (b.set pid c).status pid = some c.status := by
  simp [status, set]

theorem status_set_ne (b : Board) (h : p ≠ pid) (c : Core) :
    (b.set pid c).status p = b.status p := by
  simp [status, set, h]

theorem live_iff_status : b.Live p ↔ ∃ st, b.status p = some st ∧ st.isLive := by
  constructor
  · rintro ⟨c, hc, hl⟩
    exact ⟨c.status, by simp [status, hc], hl⟩
  · rintro ⟨st, hst, hl⟩
    obtain ⟨c, hc, rfl⟩ := Option.map_eq_some_iff.mp hst
    exact ⟨c, hc, hl⟩

end Read

namespace Lifecycle

variable {away ended orphans : Set ℕ} {b : Board} {p : ℕ} {c : Core}

/-- A process that is neither queued nor registered may be away or not if it is not alive. -/
theorem settle (h : Lifecycle (insert p away) ended orphans b) (hp : ¬ b.Live p) :
    Lifecycle away ended orphans b := by
  have hno : ∀ st, b.status p = some st → st.isLive = false := by
    intro st hst
    by_contra hl
    exact hp (live_iff_status.mpr ⟨st, hst, by simpa using hl⟩)
  have hswap : ∀ q st, st.isLive = true →
      ((q ∉ insert p away ∧ b.status q = some st) ↔ (q ∉ away ∧ b.status q = some st)) := by
    intro q st hl
    constructor
    · exact fun ⟨hq, hst⟩ => ⟨fun hin => hq (.inr hin), hst⟩
    · rintro ⟨hq, hst⟩
      refine ⟨?_, hst⟩
      rintro (rfl | hin)
      · rw [hno st hst] at hl
        cases hl
      · exact hq hin
  refine ⟨h.queue_nodup, fun q => ?_, h.waiters_nodup, fun x q => ?_, h.any_nodup, fun x q => ?_,
    fun q hq x kind hst => ?_, fun q hq cs hst => ?_, h.no_io, h.pid_lt, h.parent_lt, h.child_lt,
    h.child_of, h.child_known, h.kept_parent, h.kept_gone, h.dead_root, h.ended_dead⟩
  · rw [h.queue_mem q, hswap q _ rfl]
  · rw [h.waiters_mem x q]
    constructor
    · rintro ⟨hq, kind, hst⟩
      exact ⟨fun hin => hq (.inr hin), kind, hst⟩
    · rintro ⟨hq, kind, hst⟩
      exact ⟨((hswap q _ rfl).mpr ⟨hq, hst⟩).1, kind, hst⟩
  · rw [h.any_mem x q]
    constructor
    · rintro ⟨hq, cs, hst, hx⟩
      exact ⟨fun hin => hq (.inr hin), cs, hst, hx⟩
    · rintro ⟨hq, cs, hst, hx⟩
      exact ⟨((hswap q _ rfl).mpr ⟨hq, hst⟩).1, cs, hst, hx⟩
  · exact h.await_child q ((hswap q _ rfl).mpr ⟨hq, hst⟩).1 x kind hst
  · exact h.any_child q ((hswap q _ rfl).mpr ⟨hq, hst⟩).1 cs hst

/-- A runnable process that is away may be queued. -/
theorem enqueue (h : Lifecycle (insert p away) ended orphans b) (hp : p ∉ away)
    (hrun : b.status p = some .runnable) :
    Lifecycle away ended orphans { b with queue := b.queue ++ [p] } := by
  have hnot : p ∉ b.queue := fun hin => ((h.queue_mem p).mp hin).1 (.inl rfl)
  have hother : ∀ q, q ∉ away → (∀ r, b.status q = some (.blocked r) → q ∉ insert p away) := by
    rintro q hq r hst (rfl | hin)
    · rw [hrun] at hst
      cases hst
    · exact hq hin
  refine ⟨?_, fun q => ?_, h.waiters_nodup, fun x q => ?_, h.any_nodup, fun x q => ?_,
    fun q hq x kind hst => h.await_child q (hother q hq _ hst) x kind hst,
    fun q hq cs hst => h.any_child q (hother q hq _ hst) cs hst, h.no_io, h.pid_lt, h.parent_lt,
    h.child_lt, h.child_of, h.child_known, h.kept_parent, h.kept_gone, h.dead_root, h.ended_dead⟩
  · exact (List.perm_append_singleton p b.queue).nodup_iff.mpr
      (List.nodup_cons.mpr ⟨hnot, h.queue_nodup⟩)
  · show q ∈ b.queue ++ [p] ↔ q ∉ away ∧ b.status q = some .runnable
    rw [List.mem_append, List.mem_singleton, h.queue_mem q]
    constructor
    · rintro (⟨hq, hst⟩ | rfl)
      · exact ⟨fun hin => hq (.inr hin), hst⟩
      · exact ⟨hp, hrun⟩
    · rintro ⟨hq, hst⟩
      by_cases he : q = p
      · exact .inr he
      · refine .inl ⟨?_, hst⟩
        rintro (hin | hin)
        · exact he hin
        · exact hq hin
  · show q ∈ b.waiters x ↔ q ∉ away ∧ ∃ kind, b.status q = some (.blocked (.await x kind))
    rw [h.waiters_mem x q]
    constructor
    · exact fun ⟨hq, kind, hst⟩ => ⟨fun hin => hq (.inr hin), kind, hst⟩
    · exact fun ⟨hq, kind, hst⟩ => ⟨hother q hq _ hst, kind, hst⟩
  · show q ∈ b.anyWaiters x ↔ q ∉ away ∧ ∃ cs, b.status q = some (.blocked (.waitAny cs)) ∧ x ∈ cs
    rw [h.any_mem x q]
    constructor
    · exact fun ⟨hq, cs, hst, hx⟩ => ⟨fun hin => hq (.inr hin), cs, hst, hx⟩
    · exact fun ⟨hq, cs, hst, hx⟩ => ⟨hother q hq _ hst, cs, hst, hx⟩

/-- The first process of the queue is runnable, and may go away. -/
theorem dequeue (h : Lifecycle away ended orphans b) {queue : List ℕ}
    (hq : b.queue = p :: queue) :
    Lifecycle (insert p away) ended orphans { b with queue := queue } ∧
      b.status p = some .runnable ∧ p ∉ away := by
  have hnd := h.queue_nodup
  rw [hq, List.nodup_cons] at hnd
  obtain ⟨hp, hrun⟩ := (h.queue_mem p).mp (by simp [hq])
  have hsub : ∀ {q}, q ∉ insert p away → q ∉ away := fun hq hin => hq (.inr hin)
  have hblocked : ∀ q r, q ∉ away → b.status q = some (.blocked r) → q ∉ insert p away := by
    rintro q r hq hst (rfl | hin)
    · rw [hrun] at hst
      cases hst
    · exact hq hin
  refine ⟨⟨hnd.2, fun q => ?_, h.waiters_nodup, fun x q => ?_, h.any_nodup, fun x q => ?_,
    fun q hq => h.await_child q (hsub hq), fun q hq => h.any_child q (hsub hq), h.no_io, h.pid_lt,
    h.parent_lt, h.child_lt, h.child_of, h.child_known, h.kept_parent, h.kept_gone, h.dead_root,
    h.ended_dead⟩, hrun, hp⟩
  · show q ∈ queue ↔ q ∉ insert p away ∧ b.status q = some .runnable
    have hmem := h.queue_mem q
    rw [hq, List.mem_cons] at hmem
    constructor
    · intro hin
      obtain ⟨hqa, hst⟩ := hmem.mp (.inr hin)
      refine ⟨?_, hst⟩
      rintro (rfl | ha)
      · exact hnd.1 hin
      · exact hqa ha
    · rintro ⟨hqa, hst⟩
      refine (hmem.mpr ⟨hsub hqa, hst⟩).resolve_left ?_
      rintro rfl
      exact hqa (.inl rfl)
  · show q ∈ b.waiters x ↔ _ ∧ ∃ kind, b.status q = some (.blocked (.await x kind))
    rw [h.waiters_mem x q]
    constructor
    · exact fun ⟨hqa, kind, hst⟩ => ⟨hblocked q _ hqa hst, kind, hst⟩
    · exact fun ⟨hqa, kind, hst⟩ => ⟨hsub hqa, kind, hst⟩
  · show q ∈ b.anyWaiters x ↔ _ ∧ ∃ cs, b.status q = some (.blocked (.waitAny cs)) ∧ x ∈ cs
    rw [h.any_mem x q]
    constructor
    · exact fun ⟨hqa, cs, hst, hx⟩ => ⟨hblocked q _ hqa hst, cs, hst, hx⟩
    · exact fun ⟨hqa, cs, hst, hx⟩ => ⟨hsub hqa, cs, hst, hx⟩

/-- A process that is not queued goes away when its registrations are removed. -/
theorem unregister (h : Lifecycle away ended orphans b) (hq : p ∉ b.queue)
    {waiters anyWaiters : ℕ → List ℕ}
    (hnd : ∀ x, (waiters x).Nodup) (hmem : ∀ x q, q ∈ waiters x ↔ q ∈ b.waiters x ∧ q ≠ p)
    (hnd' : ∀ x, (anyWaiters x).Nodup)
    (hmem' : ∀ x q, q ∈ anyWaiters x ↔ q ∈ b.anyWaiters x ∧ q ≠ p) :
    Lifecycle (insert p away) ended orphans
      { b with waiters := waiters, anyWaiters := anyWaiters } := by
  have hsub : ∀ {q}, q ∉ insert p away ↔ q ∉ away ∧ q ≠ p := by
    intro q
    rw [Set.mem_insert_iff, not_or, and_comm]
  refine ⟨h.queue_nodup, fun q => ?_, hnd, fun x q => ?_, hnd', fun x q => ?_,
    fun q hq => h.await_child q (hsub.mp hq).1, fun q hq => h.any_child q (hsub.mp hq).1, h.no_io,
    h.pid_lt, h.parent_lt, h.child_lt, h.child_of, h.child_known, h.kept_parent, h.kept_gone,
    h.dead_root, h.ended_dead⟩
  · show q ∈ b.queue ↔ _ ∧ b.status q = some .runnable
    rw [h.queue_mem q, hsub]
    constructor
    · rintro ⟨hqa, hst⟩
      refine ⟨⟨hqa, ?_⟩, hst⟩
      rintro rfl
      exact hq ((h.queue_mem q).mpr ⟨hqa, hst⟩)
    · exact fun ⟨⟨hqa, _⟩, hst⟩ => ⟨hqa, hst⟩
  · show q ∈ waiters x ↔ _ ∧ ∃ kind, b.status q = some (.blocked (.await x kind))
    rw [hmem x q, h.waiters_mem x q, hsub]
    tauto
  · show q ∈ anyWaiters x ↔ _ ∧ ∃ cs, b.status q = some (.blocked (.waitAny cs)) ∧ x ∈ cs
    rw [hmem' x q, h.any_mem x q, hsub]
    tauto

end Lifecycle

theorem hasChild_set {b : Board} {p q x : ℕ} {c : Core} :
    (b.set p c).HasChild q x ↔ if q = p then x ∈ c.children else b.HasChild q x := by
  by_cases hq : q = p
  · subst hq
    simp [HasChild, set]
  · simp [HasChild, set, hq]

theorem live_set {b : Board} {p q : ℕ} {c : Core} :
    (b.set p c).Live q ↔ if q = p then c.status.isLive = true else b.Live q := by
  by_cases hq : q = p
  · subst hq
    simp [Live, set]
  · simp [Live, set, hq]

namespace Lifecycle

variable {away ended orphans : Set ℕ} {b : Board} {p : ℕ} {c : Core}

/-- A process that is away may become runnable, or blocked on other processes. -/
theorem setStatus (h : Lifecycle away ended orphans b) (hp : p ∈ away) (hc : b.proc p = some c)
    (hlive : c.status.isLive) (st : ProcessStatus) (hst : st.isLive)
    (hio : ∀ token, st ≠ .blocked (.io token)) :
    Lifecycle away ended orphans (b.set p { c with status := st }) := by
  have hne : ∀ {q}, q ∉ away → q ≠ p := by
    rintro q hq rfl
    exact hq hp
  have hstatus : ∀ q, q ∉ away →
      (b.set p { c with status := st }).status q = b.status q :=
    fun q hq => status_set_ne b (hne hq) _
  have hchild : ∀ q x, (b.set p { c with status := st }).HasChild q x ↔ b.HasChild q x := by
    intro q x
    rw [hasChild_set]
    split
    · next he =>
      subst he
      simp [HasChild, hc]
    · rfl
  have hlives : ∀ q, (b.set p { c with status := st }).Live q ↔ b.Live q := by
    intro q
    rw [live_set]
    split
    · next he =>
      subst he
      simp [Live, hc, hlive, hst]
    · rfl
  have hproc : ∀ q d, (b.set p { c with status := st }).proc q = some d →
      ∃ d', b.proc q = some d' ∧ d'.parent = d.parent ∧ d'.children = d.children ∧
        (d.status.isLive = d'.status.isLive) := by
    intro q d hd
    by_cases he : q = p
    · subst he
      simp only [set, Function.update_self, Option.some.injEq] at hd
      subst hd
      exact ⟨c, hc, rfl, rfl, by simp [hlive, hst]⟩
    · simp only [set, Function.update_of_ne he] at hd
      exact ⟨d, hd, rfl, rfl, rfl⟩
  refine ⟨h.queue_nodup, fun q => ?_, h.waiters_nodup, fun x q => ?_, h.any_nodup, fun x q => ?_,
    fun q hq x kind hs => ?_, fun q hq cs hs => ?_, fun q token hs => ?_, fun q d hd => ?_,
    fun q d hd => ?_, fun q x hx => ?_, fun q x hl hx => ?_, fun q d parent hd hl hpar hlp => ?_,
    fun x q hk => ?_, fun x q hk => ?_, fun q d hd hl => ?_, fun q hq hl => ?_⟩
  · rw [show (b.set p { c with status := st }).queue = b.queue from rfl, h.queue_mem q]
    constructor
    · exact fun ⟨hq, hs⟩ => ⟨hq, (hstatus q hq).trans hs⟩
    · exact fun ⟨hq, hs⟩ => ⟨hq, (hstatus q hq).symm.trans hs⟩
  · rw [show (b.set p { c with status := st }).waiters = b.waiters from rfl, h.waiters_mem x q]
    constructor
    · exact fun ⟨hq, kind, hs⟩ => ⟨hq, kind, (hstatus q hq).trans hs⟩
    · exact fun ⟨hq, kind, hs⟩ => ⟨hq, kind, (hstatus q hq).symm.trans hs⟩
  · rw [show (b.set p { c with status := st }).anyWaiters = b.anyWaiters from rfl, h.any_mem x q]
    constructor
    · exact fun ⟨hq, cs, hs, hx⟩ => ⟨hq, cs, (hstatus q hq).trans hs, hx⟩
    · exact fun ⟨hq, cs, hs, hx⟩ => ⟨hq, cs, (hstatus q hq).symm.trans hs, hx⟩
  · rw [hstatus q hq] at hs
    rw [hchild, hlives]
    exact h.await_child q hq x kind hs
  · rw [hstatus q hq] at hs
    obtain ⟨hne', hall⟩ := h.any_child q hq cs hs
    exact ⟨hne', fun x hx => by rw [hchild, hlives]; exact hall x hx⟩
  · by_cases he : q = p
    · subst he
      rw [status_set_self, Option.some.injEq] at hs
      exact hio token hs
    · rw [status_set_ne b he] at hs
      exact h.no_io q token hs
  · obtain ⟨d', hd', -⟩ := hproc q d hd
    exact h.pid_lt q d' hd'
  · obtain ⟨d', hd', hpar, -⟩ := hproc q d hd
    exact hpar ▸ h.parent_lt q d' hd'
  · exact h.child_lt q x ((hchild q x).mp hx)
  · rcases h.child_of q x ((hlives q).mp hl) ((hchild q x).mp hx) with ⟨hlx, d, hd, hpar⟩ | hk
    · left
      refine ⟨(hlives x).mpr hlx, ?_⟩
      by_cases he : x = p
      · subst he
        rw [hc, Option.some.injEq] at hd
        exact ⟨_, Function.update_self .., hd ▸ hpar⟩
      · exact ⟨d, by simpa [set, he] using hd, hpar⟩
    · exact .inr hk
  · obtain ⟨d', hd', hpar', -, hlive'⟩ := hproc q d hd
    rw [hchild]
    exact h.child_known q d' parent hd' (hlive' ▸ hl) (hpar'.trans hpar) ((hlives parent).mp hlp)
  · rcases h.kept_parent x q hk with ⟨ho, hd⟩ | ⟨hl, hx⟩
    · exact .inl ⟨ho, fun hl => hd ((hlives q).mp hl)⟩
    · exact .inr ⟨(hlives q).mpr hl, (hchild q x).mpr hx⟩
  · obtain ⟨hnone, hlt⟩ := h.kept_gone x q hk
    refine ⟨?_, hlt⟩
    have he : x ≠ p := by
      rintro rfl
      rw [hnone] at hc
      cases hc
    simpa [set, he] using hnone
  · obtain ⟨d', hd', hpar, hch, hlive'⟩ := hproc q d hd
    obtain ⟨hn, he⟩ := h.dead_root q d' hd' (hlive' ▸ hl)
    exact ⟨hpar ▸ hn, hch ▸ he⟩
  · exact h.ended_dead q hq ((hlives q).mp hl)

/-- A process that is blocked on children that are alive may be registered with them. -/
theorem register (h : Lifecycle (insert p away) ended orphans b) (hp : p ∉ away)
    {reason : BlockReason} (hst : b.status p = some (.blocked reason))
    {waiters anyWaiters : ℕ → List ℕ} (hnd : ∀ x, (waiters x).Nodup)
    (hmem : ∀ x q, q ∈ waiters x ↔
      q ∈ b.waiters x ∨ (q = p ∧ ∃ kind, reason = .await x kind))
    (hnd' : ∀ x, (anyWaiters x).Nodup)
    (hmem' : ∀ x q, q ∈ anyWaiters x ↔
      q ∈ b.anyWaiters x ∨ (q = p ∧ ∃ cs, reason = .waitAny cs ∧ x ∈ cs))
    (hawait : ∀ x kind, reason = .await x kind → b.HasChild p x ∧ b.Live x)
    (hany : ∀ cs, reason = .waitAny cs → cs ≠ [] ∧ ∀ x ∈ cs, b.HasChild p x ∧ b.Live x) :
    Lifecycle away ended orphans { b with waiters := waiters, anyWaiters := anyWaiters } := by
  have hsub : ∀ {q}, q ∉ insert p away ↔ q ∉ away ∧ q ≠ p := by
    intro q
    rw [Set.mem_insert_iff, not_or, and_comm]
  refine ⟨h.queue_nodup, fun q => ?_, hnd, fun x q => ?_, hnd', fun x q => ?_,
    fun q hq x kind hs => ?_, fun q hq cs hs => ?_, h.no_io, h.pid_lt, h.parent_lt, h.child_lt,
    h.child_of, h.child_known, h.kept_parent, h.kept_gone, h.dead_root, h.ended_dead⟩
  · show q ∈ b.queue ↔ q ∉ away ∧ b.status q = some .runnable
    rw [h.queue_mem q, hsub]
    constructor
    · exact fun ⟨⟨hq, _⟩, hs⟩ => ⟨hq, hs⟩
    · rintro ⟨hq, hs⟩
      refine ⟨⟨hq, ?_⟩, hs⟩
      rintro rfl
      rw [hst] at hs
      cases hs
  · show q ∈ waiters x ↔ q ∉ away ∧ ∃ kind, b.status q = some (.blocked (.await x kind))
    rw [hmem, h.waiters_mem x q, hsub]
    constructor
    · rintro (⟨⟨hq, _⟩, hs⟩ | ⟨rfl, kind, rfl⟩)
      · exact ⟨hq, hs⟩
      · exact ⟨hp, kind, hst⟩
    · rintro ⟨hq, kind, hs⟩
      by_cases he : q = p
      · subst he
        rw [hst] at hs
        cases hs
        exact .inr ⟨rfl, kind, rfl⟩
      · exact .inl ⟨⟨hq, he⟩, kind, hs⟩
  · show q ∈ anyWaiters x ↔ q ∉ away ∧ ∃ cs, b.status q = some (.blocked (.waitAny cs)) ∧ x ∈ cs
    rw [hmem', h.any_mem x q, hsub]
    constructor
    · rintro (⟨⟨hq, _⟩, hs⟩ | ⟨rfl, cs, rfl, hx⟩)
      · exact ⟨hq, hs⟩
      · exact ⟨hp, cs, hst, hx⟩
    · rintro ⟨hq, cs, hs, hx⟩
      by_cases he : q = p
      · subst he
        rw [hst] at hs
        cases hs
        exact .inr ⟨rfl, cs, rfl, hx⟩
      · exact .inl ⟨⟨hq, he⟩, cs, hs, hx⟩
  · by_cases he : q = p
    · subst he
      have hs' : b.status q = some (.blocked (.await x kind)) := hs
      rw [hst] at hs'
      cases hs'
      obtain ⟨hchild, hlive⟩ := hawait x kind rfl
      exact ⟨hchild, .inl hlive⟩
    · exact h.await_child q (hsub.mpr ⟨hq, he⟩) x kind hs
  · by_cases he : q = p
    · subst he
      have hs' : b.status q = some (.blocked (.waitAny cs)) := hs
      rw [hst] at hs'
      cases hs'
      obtain ⟨hne, hall⟩ := hany cs rfl
      exact ⟨hne, fun x hx => ⟨(hall x hx).1, .inl (hall x hx).2⟩⟩
    · exact h.any_child q (hsub.mpr ⟨hq, he⟩) cs hs

/-- The outcome of a terminated child may be consumed by a parent that is away. -/
theorem consume (h : Lifecycle away ended orphans b) (hp : p ∈ away) (hc : b.proc p = some c)
    {x : ℕ} (hkept : b.kept x = some p) :
    Lifecycle away ended orphans { b.set p { c with children := c.children.erase x } with
      kept := Function.update b.kept x none } := by
  have hne : ∀ {q}, q ∉ away → q ≠ p := by
    rintro q hq rfl
    exact hq hp
  have hstatus : ∀ q, (b.set p { c with children := c.children.erase x }).status q =
      b.status q := by
    intro q
    by_cases he : q = p
    · subst he
      rw [status_set_self, status, hc, Option.map_some]
    · exact status_set_ne b he _
  have hchild : ∀ q y, (b.set p { c with children := c.children.erase x }).HasChild q y ↔
      b.HasChild q y ∧ ¬ (q = p ∧ y = x) := by
    intro q y
    rw [hasChild_set]
    split
    · next he =>
      subst he
      simp [HasChild, hc, and_comm]
    · next he => simp [he]
  have hlives : ∀ q, (b.set p { c with children := c.children.erase x }).Live q ↔ b.Live q := by
    intro q
    rw [live_iff_status, live_iff_status, hstatus q]
  have hproc : ∀ q d, (b.set p { c with children := c.children.erase x }).proc q = some d →
      ∃ d', b.proc q = some d' ∧ d'.parent = d.parent ∧ d'.status = d.status ∧
        (d'.children = ∅ → d.children = ∅) := by
    intro q d hd
    by_cases he : q = p
    · subst he
      simp only [set, Function.update_self, Option.some.injEq] at hd
      subst hd
      exact ⟨c, hc, rfl, rfl, fun he => by simp [he]⟩
    · simp only [set, Function.update_of_ne he] at hd
      exact ⟨d, hd, rfl, rfl, id⟩
  refine ⟨h.queue_nodup, fun q => ?_, h.waiters_nodup, fun y q => ?_, h.any_nodup, fun y q => ?_,
    fun q hq y kind hs => ?_, fun q hq cs hs => ?_, fun q token hs => ?_, fun q d hd => ?_,
    fun q d hd => ?_, fun q y hy => ?_, fun q y hl hy => ?_, fun q d parent hd hl hpar hlp => ?_,
    fun y q hk => ?_, fun y q hk => ?_, fun q d hd hl => ?_, fun q hq hl => ?_⟩
  · exact (h.queue_mem q).trans (and_congr_right fun _ => by rw [← hstatus q]; rfl)
  · refine (h.waiters_mem y q).trans (and_congr_right fun _ => ?_)
    rw [← hstatus q]
    rfl
  · refine (h.any_mem y q).trans (and_congr_right fun _ => ?_)
    rw [← hstatus q]
    rfl
  · obtain ⟨hy, hl⟩ := h.await_child q hq y kind ((hstatus q).symm.trans hs)
    exact ⟨(hchild q y).mpr ⟨hy, fun he => hne hq he.1⟩, hl.imp_left (hlives y).mpr⟩
  · obtain ⟨hne', hall⟩ := h.any_child q hq cs ((hstatus q).symm.trans hs)
    refine ⟨hne', fun y hy => ?_⟩
    obtain ⟨hy', hl⟩ := hall y hy
    exact ⟨(hchild q y).mpr ⟨hy', fun he => hne hq he.1⟩, hl.imp_left (hlives y).mpr⟩
  · exact h.no_io q token ((hstatus q).symm.trans hs)
  · obtain ⟨d', hd', -⟩ := hproc q d hd
    exact h.pid_lt q d' hd'
  · obtain ⟨d', hd', hpar, -⟩ := hproc q d hd
    exact hpar ▸ h.parent_lt q d' hd'
  · exact h.child_lt q y ((hchild q y).mp hy).1
  · obtain ⟨hy', hnot⟩ := (hchild q y).mp hy
    rcases h.child_of q y ((hlives q).mp hl) hy' with ⟨hly, d, hd, hpar⟩ | hk
    · left
      refine ⟨(hlives y).mpr hly, ?_⟩
      by_cases he : y = p
      · subst he
        rw [hc, Option.some.injEq] at hd
        exact ⟨_, Function.update_self .., hd ▸ hpar⟩
      · exact ⟨d, by simpa [set, he] using hd, hpar⟩
    · right
      have hyx : y ≠ x := by
        rintro rfl
        rw [hkept, Option.some.injEq] at hk
        exact hnot ⟨hk.symm, rfl⟩
      simpa [hyx] using hk
  · obtain ⟨d', hd', hpar', hst', -⟩ := hproc q d hd
    refine (hchild parent q).mpr ⟨h.child_known q d' parent hd' (hst' ▸ hl) (hpar'.trans hpar)
      ((hlives parent).mp hlp), ?_⟩
    rintro ⟨-, rfl⟩
    rw [(h.kept_gone q p hkept).1] at hd'
    cases hd'
  · by_cases hyx : y = x
    · subst hyx
      simp at hk
    · have hk' : b.kept y = some q := by simpa [hyx] using hk
      rcases h.kept_parent y q hk' with ⟨ho, hd⟩ | ⟨hl, hy⟩
      · exact .inl ⟨ho, fun hl => hd ((hlives q).mp hl)⟩
      · exact .inr ⟨(hlives q).mpr hl, (hchild q y).mpr ⟨hy, fun he => hyx he.2⟩⟩
  · by_cases hyx : y = x
    · subst hyx
      simp at hk
    · have hk' : b.kept y = some q := by simpa [hyx] using hk
      obtain ⟨hnone, hlt⟩ := h.kept_gone y q hk'
      have he : y ≠ p := by
        rintro rfl
        rw [hnone] at hc
        cases hc
      exact ⟨by simpa [set, he] using hnone, hlt⟩
  · obtain ⟨d', hd', hpar, hst', hempty⟩ := hproc q d hd
    obtain ⟨hn, he⟩ := h.dead_root q d' hd' (hst' ▸ hl)
    exact ⟨hpar ▸ hn, hempty he⟩
  · exact h.ended_dead q hq ((hlives q).mp hl)

/-- The outcome of a child may be dropped when the parent is no longer alive. -/
theorem dropKept (h : Lifecycle away ended orphans b) {x : ℕ}
    (hdead : ∀ q, b.kept x = some q → ¬ b.Live q) :
    Lifecycle away ended (orphans \ {x}) { b with kept := Function.update b.kept x none } := by
  have hkept : ∀ y q, Function.update b.kept x none y = some q → y ≠ x ∧ b.kept y = some q := by
    intro y q hk
    by_cases hyx : y = x
    · subst hyx
      simp at hk
    · exact ⟨hyx, by simpa [hyx] using hk⟩
  refine ⟨h.queue_nodup, h.queue_mem, h.waiters_nodup, h.waiters_mem, h.any_nodup, h.any_mem,
    h.await_child, h.any_child, h.no_io, h.pid_lt, h.parent_lt, h.child_lt, fun q y hl hy => ?_,
    h.child_known, fun y q hk => ?_, fun y q hk => h.kept_gone y q (hkept y q hk).2, h.dead_root,
    h.ended_dead⟩
  · rcases h.child_of q y hl hy with hlive | hk
    · exact .inl hlive
    · right
      have hyx : y ≠ x := by
        rintro rfl
        exact hdead q hk hl
      show Function.update b.kept x none y = some q
      rwa [Function.update_of_ne hyx]
  · obtain ⟨hyx, hk'⟩ := hkept y q hk
    exact (h.kept_parent y q hk').imp_left fun ⟨ho, hd⟩ => ⟨⟨ho, hyx⟩, hd⟩

/-- A process that has ended is done with once no process is registered with it. -/
theorem woken (h : Lifecycle away {p} orphans b) (hw : b.waiters p = [])
    (hany : b.anyWaiters p = []) : Lifecycle away ∅ orphans b := by
  refine ⟨h.queue_nodup, h.queue_mem, h.waiters_nodup, h.waiters_mem, h.any_nodup, h.any_mem,
    fun q hq x kind hs => ?_, fun q hq cs hs => ?_, h.no_io, h.pid_lt, h.parent_lt, h.child_lt,
    h.child_of, h.child_known, h.kept_parent, h.kept_gone, h.dead_root, by simp⟩
  · obtain ⟨hx, hl⟩ := h.await_child q hq x kind hs
    refine ⟨hx, .inl (hl.resolve_right ?_)⟩
    rintro rfl
    have hin := (h.waiters_mem x q).mpr ⟨hq, kind, hs⟩
    rw [hw] at hin
    cases hin
  · obtain ⟨hne, hall⟩ := h.any_child q hq cs hs
    refine ⟨hne, fun x hx => ?_⟩
    obtain ⟨hx', hl⟩ := hall x hx
    refine ⟨hx', .inl (hl.resolve_right ?_)⟩
    rintro rfl
    have hin := (h.any_mem x q).mpr ⟨hq, cs, hs, hx⟩
    rw [hany] at hin
    cases hin

/-- A new process, of a parent that is away or of none, comes to the table. -/
theorem spawn (h : Lifecycle away ∅ ∅ b) (parent : Option ℕ) (procs : ℕ → Option Core)
    (hparent : ∀ q, parent = some q → q ∈ away ∧ ∃ d, b.proc q = some d ∧ d.status.isLive)
    (hprocs : ∀ q, procs q = if q = b.nextPid then some ⟨.runnable, parent, ∅⟩ else
      (b.proc q).map fun d => if parent = some q then
        { d with children := insert b.nextPid d.children } else d) :
    Lifecycle (insert b.nextPid away) ∅ ∅ { b with nextPid := b.nextPid + 1, proc := procs } := by
  obtain ⟨n, hn⟩ : ∃ n, n = b.nextPid := ⟨_, rfl⟩
  rw [← hn] at hprocs ⊢
  have hfresh : b.proc n = none := by
    cases hget : b.proc n with
    | none => rfl
    | some d => exact absurd (h.pid_lt n d hget) (hn ▸ Nat.lt_irrefl n)
  have hnew : procs n = some ⟨.runnable, parent, ∅⟩ := by rw [hprocs, if_pos rfl]
  have hold : ∀ q, q ≠ n → procs q = (b.proc q).map fun d => if parent = some q then
      { d with children := insert n d.children } else d := by
    intro q hq
    rw [hprocs, if_neg hq]
  set b' : Board := { b with nextPid := n + 1, proc := procs } with hb'
  have hstatus : ∀ q, q ≠ n → b'.status q = b.status q := by
    intro q hq
    show (procs q).map Core.status = (b.proc q).map Core.status
    rw [hold q hq]
    cases b.proc q with
    | none => rfl
    | some d =>
      simp only [Option.map_some]
      split <;> rfl
  have hlives : ∀ q, b'.Live q ↔ b.Live q ∨ q = n := by
    intro q
    by_cases hq : q = n
    · subst hq
      simp only [or_true, iff_true]
      exact ⟨_, hnew, rfl⟩
    · rw [live_iff_status, live_iff_status, hstatus q hq]
      simp [hq]
  have hchild : ∀ q x, b'.HasChild q x ↔ b.HasChild q x ∨ (parent = some q ∧ x = n) := by
    intro q x
    by_cases hq : q = n
    · subst hq
      have hnot : parent ≠ some q := by
        rintro rfl
        obtain ⟨-, d, hd, -⟩ := hparent q rfl
        rw [hfresh] at hd
        cases hd
      simp [HasChild, hb', hnew, hfresh, hnot]
    · simp only [HasChild, hb', hold q hq]
      cases hget : b.proc q with
      | none =>
        have hnot : parent ≠ some q := by
          rintro rfl
          obtain ⟨-, d, hd, -⟩ := hparent q rfl
          rw [hget] at hd
          cases hd
        simp [hnot]
      | some d =>
        by_cases hpar : parent = some q <;> simp [hpar, or_comm]
  have hproc : ∀ q d, b'.proc q = some d → (q = n ∧ d = ⟨.runnable, parent, ∅⟩) ∨
      ∃ d', b.proc q = some d' ∧ d'.parent = d.parent ∧ d'.status = d.status ∧
        (parent ≠ some q → d = d') := by
    intro q d hd
    have hd' : procs q = some d := hd
    by_cases hq : q = n
    · subst hq
      rw [hnew, Option.some.injEq] at hd'
      exact .inl ⟨rfl, hd'.symm⟩
    · rw [hold q hq, Option.map_eq_some_iff] at hd'
      obtain ⟨d', hget, rfl⟩ := hd'
      right
      refine ⟨d', hget, ?_, ?_, fun hpar => if_neg hpar⟩ <;> split <;> rfl
  have hnotin : ∀ q, q ∉ insert n away ↔ q ∉ away ∧ q ≠ n := by
    intro q
    rw [Set.mem_insert_iff, not_or, and_comm]
  have hreal : ∀ {q st}, b.status q = some st → q ≠ n := by
    rintro q st hs rfl
    simp [status, hfresh] at hs
  refine ⟨h.queue_nodup, fun q => ?_, h.waiters_nodup, fun x q => ?_, h.any_nodup, fun x q => ?_,
    fun q hq x kind hs => ?_, fun q hq cs hs => ?_, fun q token hs => ?_, fun q d hd => ?_,
    fun q d hd => ?_, fun q x hx => ?_, fun q x hl hx => ?_, fun q d par hd hl hpar hlp => ?_,
    fun x q hk => ?_, fun x q hk => ?_, fun q d hd hl => ?_, fun q hq hl => ?_⟩
  · refine (h.queue_mem q).trans ?_
    rw [hnotin]
    constructor
    · rintro ⟨hqa, hs⟩
      exact ⟨⟨hqa, hreal hs⟩, (hstatus q (hreal hs)).trans hs⟩
    · rintro ⟨⟨hqa, hqn⟩, hs⟩
      exact ⟨hqa, (hstatus q hqn).symm.trans hs⟩
  · refine (h.waiters_mem x q).trans ?_
    rw [hnotin]
    constructor
    · rintro ⟨hqa, kind, hs⟩
      exact ⟨⟨hqa, hreal hs⟩, kind, (hstatus q (hreal hs)).trans hs⟩
    · rintro ⟨⟨hqa, hqn⟩, kind, hs⟩
      exact ⟨hqa, kind, (hstatus q hqn).symm.trans hs⟩
  · refine (h.any_mem x q).trans ?_
    rw [hnotin]
    constructor
    · rintro ⟨hqa, cs, hs, hx⟩
      exact ⟨⟨hqa, hreal hs⟩, cs, (hstatus q (hreal hs)).trans hs, hx⟩
    · rintro ⟨⟨hqa, hqn⟩, cs, hs, hx⟩
      exact ⟨hqa, cs, (hstatus q hqn).symm.trans hs, hx⟩
  · obtain ⟨hqa, hqn⟩ := (hnotin q).mp hq
    obtain ⟨hx, hl⟩ := h.await_child q hqa x kind ((hstatus q hqn).symm.trans hs)
    exact ⟨(hchild q x).mpr (.inl hx), hl.imp_left fun hl => (hlives x).mpr (.inl hl)⟩
  · obtain ⟨hqa, hqn⟩ := (hnotin q).mp hq
    obtain ⟨hne, hall⟩ := h.any_child q hqa cs ((hstatus q hqn).symm.trans hs)
    refine ⟨hne, fun x hx => ?_⟩
    obtain ⟨hx', hl⟩ := hall x hx
    exact ⟨(hchild q x).mpr (.inl hx'), hl.imp_left fun hl => (hlives x).mpr (.inl hl)⟩
  · by_cases hqn : q = n
    · subst hqn
      simp [status, hb', hnew] at hs
    · exact h.no_io q token ((hstatus q hqn).symm.trans hs)
  · show q < n + 1
    rcases hproc q d hd with ⟨rfl, -⟩ | ⟨d', hd', -⟩
    · exact Nat.lt_succ_self _
    · exact hn ▸ (h.pid_lt q d' hd').trans (Nat.lt_succ_self _)
  · rcases hproc q d hd with ⟨rfl, rfl⟩ | ⟨d', hd', hpar, -⟩
    · intro par hpar
      obtain ⟨-, d', hd', -⟩ := hparent par hpar
      exact hn ▸ h.pid_lt par d' hd'
    · exact hpar ▸ h.parent_lt q d' hd'
  · show x < n + 1
    rcases (hchild q x).mp hx with hx | ⟨-, rfl⟩
    · exact hn ▸ (h.child_lt q x hx).trans (Nat.lt_succ_self _)
    · exact Nat.lt_succ_self _
  · rcases (hchild q x).mp hx with hx' | ⟨hpar, rfl⟩
    · have hqn : q ≠ n := by
        rintro rfl
        obtain ⟨d, hd, -⟩ := hx'
        rw [hfresh] at hd
        cases hd
      have hlq := ((hlives q).mp hl).resolve_right hqn
      rcases h.child_of q x hlq hx' with ⟨hlx, d, hd, hdp⟩ | hk
      · left
        refine ⟨(hlives x).mpr (.inl hlx), ?_⟩
        have hxn : x ≠ n := by
          rintro rfl
          rw [hfresh] at hd
          cases hd
        refine ⟨_, by rw [hb']; exact (hold x hxn).trans (by rw [hd]; rfl), ?_⟩
        dsimp only
        split <;> exact hdp
      · exact .inr hk
    · exact .inl ⟨(hlives _).mpr (.inr rfl), _, hnew, hpar⟩
  · rcases hproc q d hd with ⟨rfl, rfl⟩ | ⟨d', hd', hpar', hst', -⟩
    · exact (hchild par _).mpr (.inr ⟨hpar, rfl⟩)
    · have hparn : par ≠ n := by
        rintro rfl
        have hlt := h.parent_lt q d' hd' _ (hpar'.trans hpar)
        have hlt' := h.pid_lt q d' hd'
        omega
      have hlpar := ((hlives par).mp hlp).resolve_right hparn
      exact (hchild par q).mpr (.inl
        (h.child_known q d' par hd' (hst' ▸ hl) (hpar'.trans hpar) hlpar))
  · rcases h.kept_parent x q hk with ⟨ho, -⟩ | ⟨hl, hx⟩
    · cases ho
    · exact .inr ⟨(hlives q).mpr (.inl hl), (hchild q x).mpr (.inl hx)⟩
  · obtain ⟨hnone, hlt⟩ := h.kept_gone x q hk
    refine ⟨?_, hlt⟩
    rcases h.kept_parent x q hk with ⟨ho, -⟩ | ⟨-, hx⟩
    · cases ho
    · have hxn : x ≠ n := by
        rintro rfl
        have hlt' := h.child_lt q x hx
        omega
      exact (hold x hxn).trans (by rw [hnone]; rfl)
  · rcases hproc q d hd with ⟨rfl, rfl⟩ | ⟨d', hd', hpar, hst', hsame⟩
    · exact absurd rfl hl
    · have hdead := h.dead_root q d' hd' (hst' ▸ hl)
      have hnot : parent ≠ some q := by
        rintro rfl
        obtain ⟨-, e, he, hle⟩ := hparent q rfl
        rw [hd', Option.some.injEq] at he
        subst he
        exact hl (hst' ▸ hle)
      rw [hsame hnot]
      exact hdead
  · cases hq

/-- A process that is away terminates: its outcome is kept for a parent that is alive, and it stays
in the table, dead, only if it has no parent. -/
theorem finish (h : Lifecycle away ∅ ∅ b) (hp : p ∈ away) (hc : b.proc p = some c)
    (hlive : c.status.isLive) {d : Option Core} {k : Option ℕ}
    (hd : ∀ e, d = some e → e.parent = none ∧ e.children = ∅ ∧ ¬ e.status.isLive)
    (hdk : ∀ q, c.parent = some q → d = none)
    (hk : ∀ q, k = some q ↔ c.parent = some q ∧ b.Live q) :
    Lifecycle away {p} {x | x ∈ c.children} { b with
      proc := Function.update b.proc p d
      kept := Function.update b.kept p k
      queue := b.queue.filter (· ≠ p) } := by
  set b' : Board := { b with
    proc := Function.update b.proc p d
    kept := Function.update b.kept p k
    queue := b.queue.filter (· ≠ p) } with hb'
  have hne : ∀ {q}, q ∉ away → q ≠ p := by
    rintro q hq rfl
    exact hq hp
  have hold : ∀ {q}, q ≠ p → b'.proc q = b.proc q := fun hq => Function.update_of_ne hq ..
  have hself : b'.proc p = d := Function.update_self ..
  have hstatus : ∀ {q}, q ≠ p → b'.status q = b.status q := by
    intro q hq
    rw [status, hold hq]
    rfl
  have hlives : ∀ q, b'.Live q ↔ b.Live q ∧ q ≠ p := by
    intro q
    by_cases hq : q = p
    · subst hq
      simp only [ne_eq, not_true_eq_false, and_false, iff_false]
      rintro ⟨e, he, hle⟩
      exact (hd e (hself.symm.trans he)).2.2 hle
    · simp [Live, hold hq, hq]
  have hchild : ∀ q x, b'.HasChild q x ↔ b.HasChild q x ∧ q ≠ p := by
    intro q x
    by_cases hq : q = p
    · subst hq
      simp only [ne_eq, not_true_eq_false, and_false, iff_false]
      rintro ⟨e, he, hx⟩
      rw [(hd e (hself.symm.trans he)).2.1] at hx
      cases hx
    · simp [HasChild, hold hq, hq]
  have hparent : ∀ {q}, c.parent = some q → q ≠ p :=
    fun hq => (h.parent_lt p c hc _ hq).ne
  refine ⟨h.queue_nodup.filter _, fun q => ?_, h.waiters_nodup, fun x q => ?_, h.any_nodup,
    fun x q => ?_, fun q hq x kind hs => ?_, fun q hq cs hs => ?_, fun q token hs => ?_,
    fun q e he => ?_, fun q e he => ?_, fun q x hx => ?_, fun q x hl hx => ?_,
    fun q e par he hl hpar hlp => ?_, fun x q hx => ?_, fun x q hx => ?_, fun q e he hl => ?_,
    fun q hq hl => ((hlives q).mp hl).2 hq⟩
  · show q ∈ b.queue.filter (· ≠ p) ↔ _
    rw [List.mem_filter, h.queue_mem q]
    constructor
    · rintro ⟨⟨hq, hs⟩, -⟩
      exact ⟨hq, (hstatus (hne hq)).trans hs⟩
    · rintro ⟨hq, hs⟩
      exact ⟨⟨hq, (hstatus (hne hq)).symm.trans hs⟩, by simpa using hne hq⟩
  · refine (h.waiters_mem x q).trans (and_congr_right fun hq => ?_)
    rw [hstatus (hne hq)]
  · refine (h.any_mem x q).trans (and_congr_right fun hq => ?_)
    rw [hstatus (hne hq)]
  · obtain ⟨hx, hl⟩ := h.await_child q hq x kind ((hstatus (hne hq)).symm.trans hs)
    refine ⟨(hchild q x).mpr ⟨hx, hne hq⟩, ?_⟩
    by_cases hxp : x = p
    · exact .inr hxp
    · exact .inl ((hlives x).mpr ⟨hl.resolve_right id, hxp⟩)
  · obtain ⟨hcs, hall⟩ := h.any_child q hq cs ((hstatus (hne hq)).symm.trans hs)
    refine ⟨hcs, fun x hx => ?_⟩
    obtain ⟨hx', hl⟩ := hall x hx
    refine ⟨(hchild q x).mpr ⟨hx', hne hq⟩, ?_⟩
    by_cases hxp : x = p
    · exact .inr hxp
    · exact .inl ((hlives x).mpr ⟨hl.resolve_right id, hxp⟩)
  · have hl : b'.Live q := live_iff_status.mpr ⟨_, hs, rfl⟩
    exact h.no_io q token ((hstatus ((hlives q).mp hl).2).symm.trans hs)
  · by_cases hq : q = p
    · subst hq
      exact h.pid_lt q c hc
    · exact h.pid_lt q e ((hold hq).symm.trans he)
  · by_cases hq : q = p
    · subst hq
      rw [(hd e (hself.symm.trans he)).1]
      rintro par ⟨⟩
    · exact h.parent_lt q e ((hold hq).symm.trans he)
  · exact h.child_lt q x ((hchild q x).mp hx).1
  · obtain ⟨hlq, -⟩ := (hlives q).mp hl
    rcases h.child_of q x hlq ((hchild q x).mp hx).1 with ⟨hlx, e, he, hpar⟩ | hkx
    · by_cases hxp : x = p
      · subst hxp
        rw [hc, Option.some.injEq] at he
        subst he
        right
        show Function.update b.kept x k x = some q
        rw [Function.update_self, hk q]
        exact ⟨hpar, hlq⟩
      · exact .inl ⟨(hlives x).mpr ⟨hlx, hxp⟩, e, (hold hxp).trans he, hpar⟩
    · right
      have hxp : x ≠ p := by
        rintro rfl
        rw [(h.kept_gone x q hkx).1] at hc
        cases hc
      show Function.update b.kept p k x = some q
      rwa [Function.update_of_ne hxp]
  · obtain ⟨hlpar, hpp⟩ := (hlives par).mp hlp
    have hqp : q ≠ p := ((hlives q).mp ⟨e, he, hl⟩).2
    exact (hchild par q).mpr ⟨h.child_known q e par ((hold hqp).symm.trans he) hl hpar hlpar, hpp⟩
  · by_cases hxp : x = p
    · subst hxp
      have hkq : k = some q := by
        simpa [hb'] using hx
      obtain ⟨hpar, hlq⟩ := (hk q).mp hkq
      exact .inr ⟨(hlives q).mpr ⟨hlq, hparent hpar⟩,
        (hchild q x).mpr ⟨h.child_known x c q hc hlive hpar hlq, hparent hpar⟩⟩
    · have hkx : b.kept x = some q := by
        simpa [hb', hxp] using hx
      obtain ⟨hlq, hqx⟩ := (h.kept_parent x q hkx).resolve_left fun ho => ho.1
      by_cases hqp : q = p
      · subst hqp
        obtain ⟨e, he, hmem⟩ := hqx
        rw [hc, Option.some.injEq] at he
        subst he
        exact .inl ⟨hmem, fun hl => ((hlives q).mp hl).2 rfl⟩
      · exact .inr ⟨(hlives q).mpr ⟨hlq, hqp⟩, (hchild q x).mpr ⟨hqx, hqp⟩⟩
  · by_cases hxp : x = p
    · subst hxp
      have hkq : k = some q := by
        simpa [hb'] using hx
      obtain ⟨hpar, -⟩ := (hk q).mp hkq
      exact ⟨hself.trans (hdk q hpar), h.parent_lt x c hc q hpar⟩
    · have hkx : b.kept x = some q := by
        simpa [hb', hxp] using hx
      obtain ⟨hnone, hlt⟩ := h.kept_gone x q hkx
      exact ⟨(hold hxp).trans hnone, hlt⟩
  · by_cases hq : q = p
    · subst hq
      obtain ⟨hpar, hempty, -⟩ := hd e (hself.symm.trans he)
      exact ⟨hpar, hempty⟩
    · exact h.dead_root q e ((hold hq).symm.trans he) hl

/-! ## Quiet states -/

/-- Where no process is away, a process that is alive is queued, or waits for a child that is alive
and has a larger pid. -/
theorem live_cases (h : Lifecycle ∅ ∅ ∅ b) (hp : b.Live p) :
    p ∈ b.queue ∨ ∃ x, p < x ∧ x < b.nextPid ∧ b.Live x := by
  have hwaits : ∀ x, b.HasChild p x ∧ (b.Live x ∨ x ∈ (∅ : Set ℕ)) →
      ∃ x, p < x ∧ x < b.nextPid ∧ b.Live x := by
    rintro x ⟨hx, hl⟩
    have hlx := hl.resolve_right id
    rcases h.child_of p x hp hx with ⟨-, e, he, hpar⟩ | hk
    · exact ⟨x, h.parent_lt x e he p hpar, h.child_lt p x hx, hlx⟩
    · exact ⟨x, (h.kept_gone x p hk).2, h.child_lt p x hx, hlx⟩
  obtain ⟨st, hst, hl⟩ := live_iff_status.mp hp
  cases st with
  | runnable => exact .inl ((h.queue_mem p).mpr ⟨id, hst⟩)
  | blocked reason =>
    right
    cases reason with
    | await x kind => exact hwaits x (h.await_child p id x kind hst)
    | waitAny cs =>
      obtain ⟨hne, hall⟩ := h.any_child p id cs hst
      obtain ⟨x, hx⟩ := List.exists_mem_of_ne_nil cs hne
      exact hwaits x (hall x hx)
    | io token => exact absurd hst (h.no_io p token)
  | done => cases hl
  | failed => cases hl

/-- Where nothing is queued, nothing is alive. -/
theorem quiet (h : Lifecycle ∅ ∅ ∅ b) (hq : b.queue = []) (p : ℕ) : ¬ b.Live p := by
  -- a process that is alive waits for one with a larger pid, and pids are bounded
  induction hn : b.nextPid - p using Nat.strong_induction_on generalizing p with
  | _ n ih =>
    intro hp
    rcases h.live_cases hp with hin | ⟨x, hlt, hbound, hl⟩
    · rw [hq] at hin
      cases hin
    · exact ih (b.nextPid - x) (by omega) x rfl hl

/-- Where nothing is alive, no outcome is kept and no process is registered. -/
theorem nothing_left (h : Lifecycle ∅ ∅ ∅ b) (hdead : ∀ p, ¬ b.Live p) :
    (∀ x, b.kept x = none) ∧ (∀ x, b.waiters x = []) ∧ ∀ x, b.anyWaiters x = [] := by
  refine ⟨fun x => ?_, fun x => ?_, fun x => ?_⟩
  · cases hk : b.kept x with
    | none => rfl
    | some q =>
      rcases h.kept_parent x q hk with ⟨ho, -⟩ | ⟨hl, -⟩
      · cases ho
      · exact absurd hl (hdead q)
  · refine List.eq_nil_iff_forall_not_mem.mpr fun q hq => ?_
    obtain ⟨-, kind, hs⟩ := (h.waiters_mem x q).mp hq
    exact hdead q (live_iff_status.mpr ⟨_, hs, rfl⟩)
  · refine List.eq_nil_iff_forall_not_mem.mpr fun q hq => ?_
    obtain ⟨-, cs, hs, -⟩ := (h.any_mem x q).mp hq
    exact hdead q (live_iff_status.mpr ⟨_, hs, rfl⟩)

end Lifecycle

end Board

end Hiko
