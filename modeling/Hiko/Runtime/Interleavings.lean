import Hiko.Runtime.Phases

/-!
# What holds in every interleaving

The invariant holds where the roots have been spawned, and the functions of the runtime keep it, so
it holds in every state that is reached, in whatever order the threads take their steps.

## Main definitions

* `Reached`: the configurations of a runtime
* `Forest`, `Clean`, `Checked`, `Awake`: families, the end, what `check_invariants` looks for, and
  that no wakeup was lost

## Main results

* `slice_exclusive`: no two threads run the same process
* `forest_kept`: families hold together, and no outcome is lost
* `shutdown_clean`, `never_deadlocked`: the monitor ends when all work is done, and no process is
  ever stuck
* `quiet_checked`, `quiet_progress`: between the rounds the bookkeeping is exact, and no wakeup was
  lost
-/

namespace Hiko.Threaded

open Lib.Interleave

variable {V : Type}

/-! ## The start -/

namespace Inv

theorem empty : Inv (Shared.empty : Shared V) 0 where
  places := by
    refine ⟨?_, ?_, ?_, ?_, ?_⟩ <;> simp [Shared.empty, InTable]
  family := by
    constructor <;> simp [Shared.empty, Placed]
  waits := by
    constructor <;> simp [Shared.empty, Placed, Seen]
  io := by
    constructor <;> simp [Shared.empty, Placed]
  queue := by simp [Shared.empty, Placed]
  pending := by simp [Shared.empty]
  ended := by simp [Shared.empty, HasEnded]
  owned := by simp
  waiting := by simp [Waiting, Shared.empty, Placed]

/-- Nothing is in the table under the next pid. -/
theorem processes_next {s : Shared V} {T : Tokens} (h : Inv s T) :
    s.processes s.nextPid = none := by
  by_contra hne
  obtain ⟨p, hp⟩ := Option.ne_none_iff_exists'.mp hne
  have hpid := h.places.key _ p hp
  by_cases hl : p.isLive = true
  · have hlt := h.family.pos _ (placed_of_table (T := T) (hpid.symm ▸ hp) hl)
    rw [p.seat_pid, hpid] at hlt
    exact lt_irrefl _ hlt
  · exact lt_irrefl _ (h.ended s.nextPid ⟨p, hp, by simpa using hl⟩).1

/-- The seat of a new root. -/
abbrev rootSeat (s : Shared V) (vm : V) : Seat :=
  (Process.new s.nextPid vm none s.nextPid).held .queued

theorem inTable_insertRoot (s : Shared V) (vm : V) (k : ℕ) : InTable (s.insertRoot vm).processes k ↔
    k = s.nextPid ∨ InTable s.processes k := by
  by_cases hk : k = s.nextPid
  · subst hk
    exact ⟨fun _ => .inl rfl, fun _ => ⟨_, Function.update_self .., rfl⟩⟩
  · have : (s.insertRoot vm).processes k = s.processes k := Function.update_of_ne hk ..
    simp [InTable, this, hk]

section NewRoot

variable {s : Shared V} (h : Inv s 0) (vm : V)
include h

/-- The seats are those there were, and that of the root. -/
theorem placed_insertRoot (y : Seat) : Placed (s.insertRoot vm).processes 0 y ↔
    y = rootSeat s vm ∨ Placed s.processes 0 y := by
  have hnone := h.processes_next
  by_cases hy : y.pid = s.nextPid
  · constructor
    · rintro (⟨q, hq, -, rfl⟩ | hq)
      · have hself : (s.insertRoot vm).processes s.nextPid =
            some (.new s.nextPid vm none s.nextPid) := Function.update_self ..
        rw [hy, hself] at hq
        cases hq
        exact .inl rfl
      · cases hq
    · rintro (rfl | ⟨q, hq, -⟩ | hq)
      · exact .inl ⟨.new s.nextPid vm none s.nextPid, Function.update_self .., rfl, rfl⟩
      · rw [hy, hnone] at hq
        cases hq
      · cases hq
  · have hne : y ≠ rootSeat s vm := fun he => hy (he ▸ rfl)
    simp [Placed, Shared.insertRoot, hy, hne, Process.new, Proc.new]

/-- A root has no parent and no children. -/
theorem family_insertRoot : Family (Placed (s.insertRoot vm).processes 0) (s.insertRoot vm).live
    (s.insertRoot vm).nextPid s.tombstones
    (fun c => Token.recheck c ∈ (0 : Tokens) ∨ Token.reap c ∈ (0 : Tokens))
    (fun c => Token.reap c ∈ (0 : Tokens) ∨ Token.orphan c ∈ (0 : Tokens)) := by
  have hf := h.family
  have hQ := h.placed_insertRoot vm
  have hlt : ∀ y, Placed s.processes 0 y → y.pid < s.nextPid := hf.pos
  have hkid : ∀ y, Placed s.processes 0 y → ∀ c ∈ y.children, c < s.nextPid := fun y hy c hc =>
    (hf.child_lt y hy c hc).2
  have hmem : ∀ {t : Token}, t ∉ (0 : Tokens) := fun {t} => Multiset.notMem_zero t
  constructor
  case pos =>
    intro y hy
    rcases (hQ y).mp hy with rfl | hy
    · exact Nat.lt_succ_self _
    · exact Nat.lt_succ_of_lt (hlt y hy)
  case child_lt =>
    intro y hy c hc
    rcases (hQ y).mp hy with rfl | hy
    · cases hc
    · exact ⟨(hf.child_lt y hy c hc).1, Nat.lt_succ_of_lt (hkid y hy c hc)⟩
  case parent_of =>
    intro x hx y hy hc
    rcases (hQ x).mp hx with rfl | hx
    · cases hc
    · rcases (hQ y).mp hy with rfl | hy
      · exact absurd (hkid x hx _ hc) (lt_irrefl _)
      · exact hf.parent_of x hx y hy hc
  case child_of =>
    intro x hx y hy hp
    rcases (hQ y).mp hy with rfl | hy
    · cases hp
    · rcases (hQ x).mp hx with rfl | hx
      · exact absurd (hf.parent_lt y hy _ hp) (lt_irrefl _)
      · exact hf.child_of x hx y hy hp
  case disjoint =>
    intro x hx y hy c hcx hcy
    rcases (hQ x).mp hx with rfl | hx
    · cases hcx
    · rcases (hQ y).mp hy with rfl | hy
      · cases hcy
      · exact hf.disjoint x hx y hy c hcx hcy
  case parent_lt =>
    intro y hy a ha
    rcases (hQ y).mp hy with rfl | hy
    · cases ha
    · exact Nat.lt_succ_of_lt (hf.parent_lt y hy a ha)
  case fresh =>
    intro y hy c hc
    rcases (hQ y).mp hy with rfl | hy
    · cases hc
    · obtain ⟨hk, hl, ht⟩ := hf.fresh y hy c hc
      refine ⟨hk, fun hin => ?_, ht⟩
      rcases Finset.mem_insert.mp hin with rfl | hin
      · exact lt_irrefl _ (hkid y hy _ hk)
      · exact hl hin
  case fresh_parent =>
    intro x hx c hc y hy hp
    rcases (hQ y).mp hy with rfl | hy
    · cases hp
    · rcases (hQ x).mp hx with rfl | hx
      · cases hc
      · exact hf.fresh_parent x hx c hc y hy hp
  case fresh_tomb =>
    intro x hx c hc
    rcases (hQ x).mp hx with rfl | hx
    · cases hc
    · exact hf.fresh_tomb x hx c hc
  case kids =>
    intro y hy c hc
    rcases (hQ y).mp hy with rfl | hy
    · cases hc
    · exact (hf.kids y hy c hc).imp_left Finset.mem_insert_of_mem
  case tomb_lt =>
    exact fun c r hr => ⟨Nat.lt_succ_of_lt (hf.tomb_lt c r hr).1,
      Nat.lt_succ_of_lt (hf.tomb_lt c r hr).2⟩
  case tomb_owner =>
    intro c r hr y hy hc
    rcases (hQ y).mp hy with rfl | hy
    · cases hc
    · exact hf.tomb_owner c r hr y hy hc
  case tomb_kid =>
    intro c r hr y hy hp
    rcases (hQ y).mp hy with rfl | hy
    · have hlt := (hf.tomb_lt c r hr).2
      rw [hp] at hlt
      exact absurd hlt (lt_irrefl _)
    · exact hf.tomb_kid c r hr y hy hp
  case tomb_parent =>
    exact fun c r hr => (hf.tomb_parent c r hr).imp_left Finset.mem_insert_of_mem
  case recorded =>
    intro y hy hs x hx hp
    rcases (hQ y).mp hy with rfl | hy
    · cases hs
    · rcases (hQ x).mp hx with rfl | hx
      · exact absurd (hf.parent_lt y hy _ hp) (lt_irrefl _)
      · exact hf.recorded y hy hs x hx hp
  case reaped => exact fun c hc => (hc.elim (fun h => hmem h) fun h => hmem h).elim

/-- It waits for nothing. -/
theorem waits_insertRoot : Waits (Placed (s.insertRoot vm).processes 0) (s.insertRoot vm).live
    (s.insertRoot vm).nextPid s.waiters (Covered 0)
    (fun m c => ∃ l, Token.wake m c l ∈ (0 : Tokens))
    (fun m c w => Token.stale m c w ∈ (0 : Tokens)) (Seen 0) := by
  have hw := h.waits
  have hQ := h.placed_insertRoot vm
  have hkid : ∀ y, Placed s.processes 0 y → ∀ c ∈ y.children, c < s.nextPid := fun y hy c hc =>
    (h.family.child_lt y hy c hc).2
  have hmem : ∀ {t : Token}, t ∉ (0 : Tokens) := fun {t} => Multiset.notMem_zero t
  constructor
  case reg =>
    intro m c w
    rw [hw.reg]
    constructor
    · exact fun h => h.imp fun y hy => ⟨(hQ y).mpr (.inr hy.1), hy.2⟩
    · rintro ⟨y, hy, hyw, hr⟩
      rcases (hQ y).mp hy with rfl | hy
      · cases hr
      · exact ⟨y, hy, hyw, hr⟩
  case reg_kid =>
    intro y hy m c hr
    rcases (hQ y).mp hy with rfl | hy
    · cases hr
    · exact hw.reg_kid y hy m c hr
  case target_kid =>
    intro y hy c hc
    rcases (hQ y).mp hy with rfl | hy
    · cases hc
    · exact hw.target_kid y hy c hc
  case cover =>
    intro y hy hs m c hr hc
    rcases (hQ y).mp hy with rfl | hy
    · cases hs
    · obtain ⟨c', hr', hc', hcov⟩ := hw.cover y hy hs m c hr
        fun hin => hc (Finset.mem_insert_of_mem hin)
      refine ⟨c', hr', fun hin => ?_, hcov⟩
      rcases Finset.mem_insert.mp hin with rfl | hin
      · exact lt_irrefl _ (hkid y hy _ (hw.reg_kid y hy m _ hr'))
      · exact hc' hin
  case gone => exact fun m c h => h.elim fun l hl => absurd hl hmem
  case stale_gone => exact fun m c w hst => absurd hst hmem
  case stale_off => exact fun m c w hst => absurd hst hmem
  case born => exact fun w h => h.elim fun t ht => absurd ht.1 hmem

theorem io_insertRoot : IoWaits (Placed (s.insertRoot vm).processes 0) (s.insertRoot vm).nextPid
    s.ioWaiters s.inFlight s.nextIoToken (fun t => Token.released t ∈ (0 : Tokens))
    (fun t w => Token.taking t w ∈ (0 : Tokens)) (fun t => (0 : Tokens).countP (Token.takes t))
    (fun w => Token.dying w ∈ (0 : Tokens)) := by
  have hio := h.io
  have hQ := h.placed_insertRoot vm
  have hmem : ∀ {t : Token}, t ∉ (0 : Tokens) := fun {t} => Multiset.notMem_zero t
  constructor
  case reg =>
    intro t w ht
    obtain ⟨y, hy, hr⟩ := hio.reg t w ht
    exact ⟨y, (hQ y).mpr (.inr hy), hr⟩
  case parked =>
    intro y hy hs t ht
    rcases (hQ y).mp hy with rfl | hy
    · cases hs
    · exact hio.parked y hy hs t ht
  case working =>
    intro y hy hs t ht
    rcases (hQ y).mp hy with rfl | hy
    · cases hs
    · exact hio.working y hy hs t ht
  case unique =>
    intro x hx y hy t hxt hyt
    rcases (hQ x).mp hx with rfl | hx
    · cases hxt
    · rcases (hQ y).mp hy with rfl | hy
      · cases hyt
      · exact hio.unique x hx y hy t hxt hyt
  case taken => exact fun t w ht => absurd ht hmem
  case taker => exact fun t w ht => absurd ht hmem
  case dead => exact fun w hw => absurd hw hmem
  case one => exact hio.one
  case flight_lt => exact hio.flight_lt
  case released_lt => exact hio.released_lt
  case taking_lt => exact hio.taking_lt
  case seat_lt =>
    intro y hy t ht
    rcases (hQ y).mp hy with rfl | hy
    · cases ht
    · exact hio.seat_lt y hy t ht

end NewRoot

/-- A new root. -/
theorem insertRoot {s : Shared V} (h : Inv s 0) (vm : V) : Inv (s.insertRoot vm) 0 := by
  let p : Process V := .new s.nextPid vm none s.nextPid
  have hQ := h.placed_insertRoot vm
  have htable := inTable_insertRoot s vm
  have hmem : ∀ {t : Token}, t ∉ (0 : Tokens) := fun {t} => Multiset.notMem_zero t
  refine ⟨?_, h.family_insertRoot vm, h.waits_insertRoot vm, h.io_insertRoot vm, ?_, ?_, ?_, ?_, ?_⟩
  · constructor
    case key =>
      intro k q hq
      by_cases hk : k = s.nextPid
      · subst hk
        have hself : (s.insertRoot vm).processes s.nextPid = some p := Function.update_self ..
        rw [hself] at hq
        cases hq
        rfl
      · exact h.places.key k q ((Function.update_of_ne hk ..).symm.trans hq)
    case table =>
      intro k hk
      rcases (htable k).mp hk with rfl | hk
      · exact ⟨Finset.mem_insert_self .., rfl⟩
      · exact ⟨Finset.mem_insert_of_mem (h.places.table k hk).1, rfl⟩
    case hands =>
      intro k hk
      have hne : k ≠ s.nextPid := fun he => hk ((htable k).mpr (.inl he))
      have hold := h.places.hands k fun ht => hk ((htable k).mpr (.inr ht))
      simpa [Shared.insertRoot, Process.new, hne] using hold
    case hand => exact fun x hx => absurd hx hmem
    case root =>
      intro k q hq hl
      by_cases hk : k = s.nextPid
      · subst hk
        have hself : (s.insertRoot vm).processes s.nextPid = some p := Function.update_self ..
        rw [hself] at hq
        cases hq
        rfl
      · exact h.places.root k q ((Function.update_of_ne hk ..).symm.trans hq) hl
  · rintro y hy hs
    rcases (hQ y).mp hy with rfl | hy
    · exact .inl (List.mem_append_right _ (List.mem_singleton_self _))
    · rcases h.queue y hy hs with hq | hq | hq
      · exact .inl (List.mem_append_left _ hq)
      · exact absurd hq hmem
      · exact absurd hq hmem
  · intro pid hp
    exact (h.pending pid hp).imp_left (Finset.mem_insert_of_mem)
  · rintro k ⟨q, hq, hl⟩
    have hk : k ≠ s.nextPid := fun hk => by
      subst hk
      have hself : (s.insertRoot vm).processes s.nextPid = some p := Function.update_self ..
      rw [hself] at hq
      cases hq
      cases hl
    have hend := h.ended k ⟨q, (Function.update_of_ne hk ..).symm.trans hq, hl⟩
    refine ⟨Nat.lt_succ_of_lt hend.1, fun y hy => ?_⟩
    rcases (hQ y).mp hy with rfl | hy
    · exact ⟨(fun he => by cases he), fun he => absurd he.symm hk⟩
    · exact hend.2 y hy
  · exact fun t w ht => absurd ht hmem
  · intro y hy hs
    rcases (hQ y).mp hy with rfl | hy
    · cases hs
    · exact h.waiting y hy hs

end Inv

/-! ## Runs -/

section Runs

variable {b : Behaviour V} {workers : ℕ} {vms : List V}

/-- The state in which the threads start. -/
theorem spawned (vms : List V) :
    Inv (Shared.spawned vms) 0 ∧ (Shared.spawned vms).shutdown = false ∧
      (Shared.spawned vms).activeWorkers = 0 := by
  have hfold : ∀ (vms : List V) (s : Shared V), Inv s 0 → s.shutdown = false → s.activeWorkers = 0 →
      Inv (vms.foldl Shared.insertRoot s) 0 ∧ (vms.foldl Shared.insertRoot s).shutdown = false ∧
        (vms.foldl Shared.insertRoot s).activeWorkers = 0 := by
    intro vms
    induction vms with
    | nil => exact fun s h hs ha => ⟨h, hs, ha⟩
    | cons vm vms ih => exact fun s h hs ha => ih _ (h.insertRoot vm) hs ha
  exact hfold vms _ .empty rfl rfl

theorem sum_rest : ∑ i : Thread workers, rest i = Parts.idle := by
  rw [Fintype.sum_option]
  simp [rest]

/-- The threads keep to the discipline from the start. -/
theorem start_inv : (crew V).discipline.Inv (Shared.spawned vms)
    (∑ i : Thread workers, rest i) := by
  obtain ⟨hinv, hshutdown, hactive⟩ := spawned vms
  rw [sum_rest]
  refine ⟨by simpa using hinv, fun x hx => ?_, rfl, by simp [hactive], fun ph m hm => ?_⟩
  · rw [Multiset.mem_singleton.mp hx]
    exact light_zero
  · cases Multiset.mem_singleton.mp hm
    exact hshutdown

/-- The configurations that the runtime reaches from these roots. -/
abbrev Reached (b : Behaviour V) (workers : ℕ) (vms : List V)
    (c : Config (interface V) (Shared V) (Thread workers)) : Prop :=
  Reachable (machine b workers) (Shared.spawned vms) c

variable {c : Config (interface V) (Shared V) (Thread workers)}

theorem Reached.crew_held (h : Reached b workers vms c) :
    (crew V).discipline.Held (machine b workers) rest last c :=
  Reachable.held (crew_follows b workers) start_inv h

/-- Somebody holds tokens with which the invariant holds. -/
theorem Reached.inv (h : Reached b workers vms c) :
    ∃ B, Inv c.state (total B) ∧ Side c.state B := by
  obtain ⟨m, hinv, -⟩ := h.crew_held
  exact ⟨_, hinv⟩

/-- While no thread is within a round, no tokens are left. -/
theorem Reached.quiet (h : Reached b workers vms c)
    (hquiet : ∀ i p, c.parties i ≠ .running p) : Inv c.state 0 := by
  obtain ⟨m, hinv, hm⟩ := h.crew_held.quiet hquiet
  have htotal : ∀ i, total (m i) = 0 := fun i => by
    rcases hm i with he | he <;> rw [he]
    all_goals
      cases i with
      | none => rfl
      | some i => rfl
  have hsum : total (∑ i, m i) = 0 := by
    rw [Fintype.sum_option, total_add, htotal none, zero_add]
    refine Finset.sum_induction (s := Finset.univ) (fun i => m (some i))
      (fun B => total B = 0) ?_ ?_ ?_
    · intro B C hB hC
      rw [total_add, hB, hC, add_zero]
    · rfl
    · exact fun i _ => htotal (some i)
  exact hsum ▸ hinv.1

/-! ## Runs of one process and of two -/

/-- VMs without a state that may do anything. -/
def anything : Behaviour Unit where
  runSlice _ _ := True
  childResult _ _ := True
  createChild _ _ _ _ := True
  deliverResult _ _ _ := True
  deliverJoinResult _ _ _ := True
  deliverPid _ _ _ := True
  chargeIoBytes _ _ _ := True
  answerPid _ _ := ()
  answerUnit _ := ()
  requestCancellation _ := ()

/-- The worker has run the only process, and the monitor has seen that it has ended. -/
theorem reached_end : ∃ c, Reached anything 1 [()] c ∧ c.state.shutdown = true := by
  have h : Reachable (machine anything 1) (Shared.spawned [()]) _ := .init
  -- the worker runs the process, which is done
  have h := h.step (.start (i := some 0) rfl)
  have h := h.step (.act (Function.update_self ..) (.inr ⟨1, [], rfl, rfl, rfl, rfl⟩))
  have h := h.step (.act (Function.update_self ..) rfl)
  have h := h.step (.act (Function.update_self ..) rfl)
  have h := h.step (.act (Function.update_self ..) rfl)
  have h := h.step (.act (Function.update_self ..) rfl)
  have h := h.step (.act (r := (.done, ())) (Function.update_self ..) ⟨trivial, rfl⟩)
  have h := h.step (.call (Function.update_self ..))
  have h := h.step (.act (Function.update_self ..) rfl)
  have h := h.step (.act (Function.update_self ..) rfl)
  have h := h.step (.act (Function.update_self ..) rfl)
  have h := h.step (.act (Function.update_self ..) rfl)
  have h := h.step (.act (r := ([] : List ℕ)) (Function.update_self ..)
    ⟨fun _ => ⟨fun h => absurd h List.not_mem_nil, fun h => absurd h (Finset.notMem_empty _)⟩,
      List.nodup_nil, rfl⟩)
  have h := h.step (.act (Function.update_self ..) rfl)
  have h := h.step (.act (Function.update_self ..) rfl)
  have h := h.step (.call (Function.update_self ..))
  have h := h.step (.act (Function.update_self ..) rfl)
  -- the monitor sees that it has ended
  have h := h.step (.start (i := none) rfl)
  have h := h.step (.act (r := []) (Function.update_self ..)
    ⟨fun _ h => absurd h List.not_mem_nil, rfl⟩)
  have h := h.step (.act (Function.update_self ..) rfl)
  have h := h.step (.act (Function.update_self ..) rfl)
  let root : Process Unit := .new 1 () none 1
  let f : ℕ → Option (Process Unit) := fun _ => none
  have hkeys : ∀ k, Function.update (Function.update (Function.update f 1 (some root)) 1 none) 1
      (some { root with status := .done, children := ∅ }) k ≠ none → k ∈ [1] := fun k hk => by
    by_contra hne
    have hne : k ≠ 1 := fun he => hne (List.mem_singleton.mpr he)
    rw [Function.update_of_ne hne, Function.update_of_ne hne, Function.update_of_ne hne] at hk
    exact hk rfl
  have h := h.step (.act (r := [1]) (Function.update_self ..) ⟨fun k hk => hkeys k hk, rfl⟩)
  have h := h.step (.act (Function.update_self ..) rfl)
  have h := h.step (.act (Function.update_self ..) rfl)
  have h := h.step (.act (r := []) (Function.update_self ..) ⟨fun _ h => absurd rfl h, rfl⟩)
  have h := h.step (.act (r := []) (Function.update_self ..) ⟨fun _ h => absurd rfl h, rfl⟩)
  have h := h.step (.act (r := [1]) (Function.update_self ..) ⟨fun k hk => hkeys k hk, rfl⟩)
  have h := h.step (.act (Function.update_self ..) rfl)
  have h := h.step (.act (r := [1]) (Function.update_self ..) ⟨fun k hk => hkeys k hk, rfl⟩)
  have h := h.step (.act (Function.update_self ..) rfl)
  have h := h.step (.act (r := ()) (Function.update_self ..) rfl)
  exact ⟨_, h, rfl⟩

/-- On two workers, the root spawns a child. One worker is about to run the child, the other to run the
root; then the root awaits the child, the child yields, and no thread is within a round. -/
theorem reached_family :
    (∃ (c : Config (interface Unit) (Shared Unit) (Thread 2)) (p q : Process Unit)
      (k l : RunResult × Unit → Run Unit Bool), Reached anything 2 [()] c ∧
        c.parties (some 0) = .running (.act (.runSlice p) k) ∧
        c.parties (some 1) = .running (.act (.runSlice q) l) ∧ p.pid = 2 ∧ q.pid = 1) ∧
    ∃ c : Config (interface Unit) (Shared Unit) (Thread 2), Reached anything 2 [()] c ∧
      (∀ i, c.parties i = .idle) ∧ c.state.live = {2, 1} ∧ c.state.waiters .waiters 2 = [1] ∧
      (c.state.processes 1).map (·.status) = some (.blocked (.await 2 .result)) ∧
      (c.state.processes 2).map (·.status) = some .runnable := by
  have h : Reachable (machine anything 2) (Shared.spawned [()]) _ := .init
  -- a worker runs the root, which spawns a child
  have h := h.step (.start (i := some 0) rfl)
  have h := h.step (.act (Function.update_self ..) (.inr ⟨1, [], rfl, rfl, rfl, rfl⟩))
  have h := h.step (.act (Function.update_self ..) rfl)
  have h := h.step (.act (Function.update_self ..) rfl)
  have h := h.step (.act (Function.update_self ..) rfl)
  have h := h.step (.act (Function.update_self ..) rfl)
  have h := h.step (.act (r := (.request (.spawn 0 []), ())) (Function.update_self ..)
    ⟨trivial, rfl⟩)
  have h := h.step (.act (r := (Except.ok () : Except ProcessFailure Unit))
    (Function.update_self ..) ⟨trivial, rfl⟩)
  have h := h.step (.act (Function.update_self ..) rfl)
  have h := h.step (.act (Function.update_self ..) rfl)
  have h := h.step (.act (Function.update_self ..) rfl)
  have h := h.step (.act (Function.update_self ..) rfl)
  have h := h.step (.act (Function.update_self ..) rfl)
  have h := h.step (.act (Function.update_self ..) rfl)
  have h := h.step (.act (Function.update_self ..) rfl)
  have h := h.step (.again (Function.update_self ..))
  -- it takes the child, and the other worker takes the root
  have h := h.step (.start (i := some 0) (Function.update_self ..))
  have h := h.step (.act (Function.update_self ..) (.inr ⟨2, [1], rfl, rfl, rfl, rfl⟩))
  have h := h.step (.act (Function.update_self ..) rfl)
  have h := h.step (.act (Function.update_self ..) rfl)
  have h := h.step (.act (Function.update_self ..) rfl)
  have h := h.step (.act (Function.update_self ..) rfl)
  have h := h.step (.start (i := some 1) rfl)
  have h := h.step (.act (Function.update_self ..) (.inr ⟨1, [], rfl, rfl, rfl, rfl⟩))
  have h := h.step (.act (Function.update_self ..) rfl)
  have h := h.step (.act (Function.update_self ..) rfl)
  have h := h.step (.act (Function.update_self ..) rfl)
  have h := h.step (.act (Function.update_self ..) rfl)
  refine ⟨⟨_, _, _, _, _, h, rfl, rfl, rfl, rfl⟩, ?_⟩
  -- the root awaits its child
  have h := h.step (.act (r := (.request (.awaitResult 2), ())) (Function.update_self ..)
    ⟨trivial, rfl⟩)
  have h := h.step (.act (Function.update_self ..) rfl)
  have h := h.step (.act (Function.update_self ..) rfl)
  have h := h.step (.act (Function.update_self ..) rfl)
  have h := h.step (.act (Function.update_self ..) rfl)
  have h := h.step (.act (Function.update_self ..) rfl)
  have h := h.step (.call (Function.update_self ..))
  have h := h.step (.act (Function.update_self ..) rfl)
  have h := h.step (.again (Function.update_self ..))
  -- the child yields
  have h := h.step (.act (i := some 0) (r := (.yielded, ())) rfl ⟨trivial, rfl⟩)
  have h := h.step (.act (Function.update_self ..) rfl)
  have h := h.step (.act (Function.update_self ..) rfl)
  have h := h.step (.act (Function.update_self ..) rfl)
  have h := h.step (.again (Function.update_self ..))
  refine ⟨_, h, ?_, rfl, rfl, rfl, rfl⟩
  rintro (_ | i)
  · rfl
  · fin_cases i <;> rfl

/-! ## A slice -/

theorem Places.count_le {processes : ℕ → Option (Process V)} {live : Finset ℕ} {T : Tokens}
    (h : Places processes live T) (k : ℕ) : T.countP (Token.seats k) ≤ 1 := by
  by_cases ht : InTable processes k
  · rw [(h.table k ht).2]
    exact Nat.zero_le 1
  · rw [h.hands k ht]
    split <;> omega

theorem seat_countP {x : Seat} {T : Tokens} (h : Token.seat x ∈ T) :
    1 ≤ T.countP (Token.seats x.pid) :=
  Multiset.countP_pos.mpr ⟨_, h, x, rfl, rfl⟩

theorem need_slice {p : Process V} {B : Parts} (h : (crew V).Need (.runSlice p) B) :
    Token.seat (p.held .working) ∈ total B := by
  obtain ⟨x, hx, ht⟩ := h
  exact mem_total.mpr ⟨x, hx, ht⟩

/-- **A process runs on one thread**: while a thread is about to run a slice of a process, the
process is live, it is not in the table, and no other thread is about to run a slice of it. -/
theorem slice_exclusive (h : Reached b workers vms c) {i : Thread workers} {p : Process V}
    {k : RunResult × V → Run V Bool} (hi : c.parties i = .running (.act (.runSlice p) k)) :
    p.pid ∈ c.state.live ∧ ¬ InTable c.state.processes p.pid ∧
      ∀ j, j ≠ i → ∀ (q : Process V) (l : RunResult × V → Run V Bool),
        c.parties j = .running (.act (.runSlice q) l) → q.pid ≠ p.pid := by
  obtain ⟨B, F, hneed, hinv⟩ := h.crew_held.need hi
  have hp := need_slice hneed
  have hinv : Inv c.state (total B + total F) := by simpa using hinv.1
  have hcount : 1 ≤ (total B + total F).countP (Token.seats p.pid) :=
    seat_countP (Multiset.mem_add.mpr (.inl hp))
  refine ⟨hinv.places.live_of_placed (.inr (Multiset.mem_add.mpr (.inl hp))), fun ht => ?_, ?_⟩
  · rw [(hinv.places.table _ ht).2] at hcount
    cases hcount
  · intro j hj q l hj' hpid
    obtain ⟨B, C, F, hB, hC, hinv⟩ := h.crew_held.need_two hj.symm hi hj'
    have hinv : Inv c.state (total B + (total C + total F)) := by simpa using hinv.1
    have hle := hinv.places.count_le p.pid
    have h1 : 1 ≤ (total B).countP (Token.seats p.pid) := seat_countP (need_slice hB)
    have h2 : 1 ≤ (total C).countP (Token.seats p.pid) := hpid ▸ seat_countP (need_slice hC)
    rw [Multiset.countP_add, Multiset.countP_add] at hle
    omega

theorem slice_exclusive_family : ∃ (c : Config (interface Unit) (Shared Unit) (Thread 2))
    (p : Process Unit), p.pid = 2 ∧ p.pid ∈ c.state.live ∧ ¬ InTable c.state.processes p.pid ∧
      ∀ j, j ≠ some 0 → ∀ (q : Process Unit) (l : RunResult × Unit → Run Unit Bool),
        c.parties j = .running (.act (.runSlice q) l) → q.pid ≠ p.pid := by
  obtain ⟨⟨c, p, q, k, l, h, hp, -, hpid, -⟩, -⟩ := reached_family
  exact ⟨c, p, hpid, slice_exclusive h hp⟩

/-! ## Families -/

/-- The processes in the table are a forest, and no outcome of a child is lost: a child that its
parent in the table still knows of is live, or has left its outcome for this parent. -/
structure Forest (s : Shared V) : Prop where
  key : ∀ pid p, s.processes pid = some p → p.pid = pid
  live : ∀ pid p, s.processes pid = some p → p.isLive = true → pid ∈ s.live
  ended : ∀ pid p, s.processes pid = some p → p.isLive = false → p.parent = none
  older : ∀ pid p, s.processes pid = some p → p.isLive = true →
    ∀ child ∈ p.children, pid < child ∧ child < s.nextPid
  parent : ∀ pid p, s.processes pid = some p → p.isLive = true → ∀ child q,
    s.processes child = some q → q.isLive = true → (child ∈ p.children ↔ q.parent = some pid)
  disjoint : ∀ pid p, s.processes pid = some p → p.isLive = true → ∀ pid' q,
    s.processes pid' = some q → q.isLive = true → ∀ child ∈ p.children, child ∈ q.children →
      pid = pid'
  outcome : ∀ pid p, s.processes pid = some p → p.isLive = true → ∀ child ∈ p.children,
    child ∈ s.live ∨ ∃ record, s.tombstones child = some record ∧ record.parent = pid
  reader : ∀ child record, s.tombstones child = some record → ∀ p,
    s.processes record.parent = some p → p.isLive = true → child ∈ p.children

theorem Inv.forest {s : Shared V} {T : Tokens} (h : Inv s T) : Forest s := by
  have hf := h.family
  have hplaced : ∀ {pid} {p : Process V}, s.processes pid = some p → p.isLive = true →
      p.pid = pid ∧ Placed s.processes T p.seat := fun hp hl => by
    obtain rfl := h.places.key _ _ hp
    exact ⟨rfl, placed_of_table hp hl⟩
  constructor
  case key => exact h.places.key
  case live => exact fun pid p hp hl => (h.places.table pid ⟨p, hp, hl⟩).1
  case ended => exact h.places.root
  case older =>
    intro pid p hp hl child hc
    obtain ⟨rfl, hx⟩ := hplaced hp hl
    simpa using hf.child_lt _ hx child (by simpa using hc)
  case parent =>
    intro pid p hp hl child q hq hlq
    obtain ⟨rfl, hx⟩ := hplaced hp hl
    obtain ⟨rfl, hy⟩ := hplaced hq hlq
    constructor
    · intro hc
      simpa using hf.parent_of _ hx _ hy (by simpa using hc)
    · intro hp
      simpa using hf.child_of _ hx _ hy (by simpa using hp)
  case disjoint =>
    intro pid p hp hl pid' q hq hlq child hc hc'
    obtain ⟨rfl, hx⟩ := hplaced hp hl
    obtain ⟨rfl, hy⟩ := hplaced hq hlq
    simpa using hf.disjoint _ hx _ hy child (by simpa using hc) (by simpa using hc')
  case outcome =>
    intro pid p hp hl child hc
    obtain ⟨rfl, hx⟩ := hplaced hp hl
    have hc : child ∈ p.seat.children := by simpa using hc
    refine (hf.kids _ hx child hc).imp_right fun hk => ?_
    obtain ⟨record, hr⟩ := Option.isSome_iff_exists.mp
      (hk.resolve_left fun hfresh => by simp at hfresh)
    exact ⟨record, hr, by simpa using hf.tomb_owner child record hr _ hx hc⟩
  case reader =>
    intro child record hr p hp hl
    obtain ⟨hpid, hx⟩ := hplaced hp hl
    simpa using hf.tomb_kid child record hr _ hx (by simp [hpid])

/-- **Families hold together in every interleaving.** -/
theorem forest_kept (h : Reached b workers vms c) : Forest c.state := by
  obtain ⟨B, hinv, -⟩ := h.inv
  exact hinv.forest

theorem forest_kept_family : ∃ c : Config (interface Unit) (Shared Unit) (Thread 2),
    c.state.live = {2, 1} ∧ Forest c.state := by
  obtain ⟨-, c, h, -, hlive, -⟩ := reached_family
  exact ⟨c, hlive, forest_kept h⟩

/-! ## The end -/

/-- Nothing is left to do: no process is live, only roots that have ended are in the table, and
nothing is registered or recorded. -/
structure Clean (s : Shared V) : Prop where
  live : s.live = ∅
  processes : ∀ pid p, s.processes pid = some p → p.isLive = false ∧ p.parent = none
  waiters : ∀ m child, s.waiters m child = []
  ioWaiters : ∀ token, s.ioWaiters token = none
  tombstones : ∀ pid, s.tombstones pid = none
  pendingCancels : s.pendingCancels = ∅

/-- Where nothing is live and the threads hold nothing but pids from the queue, nothing is left. -/
theorem Inv.clean {s : Shared V} {T : Tokens} (h : Inv s T) (hlive : s.live = ∅)
    (hlight : ∀ t ∈ T, ∃ pid, t = .deq pid) : Clean s := by
  have hno : ∀ {x : Seat}, ¬ Placed s.processes T x := fun hx => by
    have hx := h.places.live_of_placed hx
    rw [hlive] at hx
    exact absurd hx (Finset.notMem_empty _)
  have hdeq : ∀ {t : Token}, t ∈ T → (∀ pid, t ≠ .deq pid) → False := fun ht hne => by
    obtain ⟨pid, he⟩ := hlight _ ht
    exact hne pid he
  constructor
  case live => exact hlive
  case processes =>
    intro pid p hp
    have hl : p.isLive = false := by
      by_contra hl
      have hpid := h.places.key pid p hp
      subst hpid
      exact hno (placed_of_table hp (by simpa using hl))
    exact ⟨hl, h.places.root pid p hp hl⟩
  case waiters =>
    intro m child
    refine List.eq_nil_iff_forall_not_mem.mpr fun w hw => ?_
    obtain ⟨x, hx, -⟩ := (h.waits.reg m child w).mp hw
    exact hno hx
  case ioWaiters =>
    intro t
    by_contra ht
    obtain ⟨w, hw⟩ := Option.ne_none_iff_exists'.mp ht
    obtain ⟨x, hx, -⟩ := h.io.reg t w hw
    exact hno hx
  case tombstones =>
    intro pid
    by_contra ht
    obtain ⟨r, hr⟩ := Option.ne_none_iff_exists'.mp ht
    rcases h.family.tomb_parent pid r hr with hl | hrecheck | hreap
    · rw [hlive] at hl
      exact Finset.notMem_empty _ hl
    · exact hdeq hrecheck fun _ h => by cases h
    · exact hdeq hreap fun _ h => by cases h
  case pendingCancels =>
    refine Finset.eq_empty_of_forall_notMem fun pid hp => ?_
    rcases h.pending pid hp with hl | hu
    · rw [hlive] at hl
      exact Finset.notMem_empty _ hl
    · exact hdeq hu fun _ h => by cases h

/-- Once the monitor is done, the others hold nothing but pids from the queue. -/
theorem Side.finished {s : Shared V} {B : Parts} (h : Side s B) (hs : s.shutdown = true) :
    s.live = ∅ ∧ ∀ t ∈ total B, ∃ pid, t = .deq pid := by
  obtain ⟨⟨r, m⟩, hr, hm⟩ : ∃ x ∈ B, x.1.monitors ≠ 0 := by
    by_contra hno
    have hzero : weigh Role.monitors B = 0 := by
      refine Multiset.sum_eq_zero fun n hn => ?_
      obtain ⟨x, hx, rfl⟩ := Multiset.mem_map.mp hn
      by_contra hne
      exact hno ⟨x, hx, hne⟩
    exact absurd (h.one.symm.trans hzero) Nat.one_ne_zero
  cases r with
  | monitor ph =>
    have hknows := h.phase ph m hr
    cases ph with
    | finished =>
      refine ⟨hknows.2, fun t ht => ?_⟩
      obtain ⟨⟨r, n⟩, hx, ht⟩ := mem_total.mp ht
      refine h.light _ hx (fun hbusy => ?_) t ht
      cases r with
      | slice => exact hknows.1 _ hx rfl
      | monitor ph =>
        obtain ⟨C, rfl⟩ := Multiset.exists_cons_of_mem hr
        rcases Multiset.mem_cons.mp hx with he | hx
        · cases he
          exact hbusy
        · exact h.alone hx
      | _ => exact hbusy
    | idle | io => exact absurd (hs.symm.trans hknows) fun h => by cases h
    | seen n => exact absurd (hs.symm.trans hknows.1) fun h => by cases h
    | calm n left => exact absurd (hs.symm.trans hknows.1) fun h => by cases h
    | still left => exact absurd (hs.symm.trans hknows.1) fun h => by cases h
  | _ => exact absurd rfl hm

/-- **The monitor ends the workers only when all work is done**: in every state with `shutdown` set,
nothing is left to do. -/
theorem shutdown_clean (h : Reached b workers vms c) (hs : c.state.shutdown = true) :
    Clean c.state := by
  obtain ⟨B, hinv, hside⟩ := h.inv
  obtain ⟨hlive, hlight⟩ := hside.finished hs
  exact hinv.clean hlive hlight

theorem shutdown_clean_root : ∃ c : Config (interface Unit) (Shared Unit) (Thread 1),
    c.state.shutdown = true ∧ Clean c.state := by
  obtain ⟨c, h, hs⟩ := reached_end
  exact ⟨c, hs, shutdown_clean h hs⟩

/-- **The safety net is never needed**: no thread comes to call `fail_deadlocked`. -/
theorem never_deadlocked (h : Reached b workers vms c) (i : Thread workers) (stuck : List ℕ)
    (k : Unit → Run V Bool) : c.parties i ≠ .running (.call (.failDeadlocked stuck) k) := by
  have hnone : IsEmpty ((crew V).discipline.Idx (.failDeadlocked stuck)) :=
    ⟨fun x => Empty.elim x.1⟩
  exact h.crew_held.no_call hnone

theorem never_deadlocked_root : ∃ c : Config (interface Unit) (Shared Unit) (Thread 1),
    c.state.shutdown = true ∧ ∀ i stuck (k : Unit → Run Unit Bool),
      c.parties i ≠ .running (.call (.failDeadlocked stuck) k) := by
  obtain ⟨c, h, hs⟩ := reached_end
  exact ⟨c, hs, never_deadlocked h⟩

/-! ## Between the rounds -/

/-- What `check_invariants` looks for. -/
structure Checked (s : Shared V) : Prop where
  known : ∀ m child, s.waiters m child ≠ [] → child ∈ s.live ∨ (s.tombstones child).isSome = true
  waiters : ∀ m child waiter, waiter ∈ s.waiters m child → ∃ p reason,
    s.processes waiter = some p ∧ p.status = .blocked reason ∧ waitsFor m child reason = true
  ioWaiters : ∀ token pid, s.ioWaiters token = some pid → ∃ p,
    s.processes pid = some p ∧ p.status = .blocked (.io token)
  tombstones : ∀ pid record, s.tombstones pid = some record → record.parent ∈ s.live
  pendingCancels : ∀ pid ∈ s.pendingCancels, pid ∈ s.live
  live : ∀ pid ∈ s.live, ∃ p, s.processes pid = some p ∧ p.isLive = true
  processes : ∀ pid p, s.processes pid = some p → p.isLive = false → p.parent = none

/-- A process that is alive while no tokens are left is in the table. -/
theorem placed_table {processes : ℕ → Option (Process V)} {x : Seat} (h : Placed processes 0 x) :
    ∃ p, processes x.pid = some p ∧ p.isLive = true ∧ p.seat = x :=
  h.elim id fun hx => absurd hx (Multiset.notMem_zero _)

/-- A process in the table that has an entry in a map of waiters is blocked. -/
theorem Process.blocked_of_regs {p : Process V} {m : WaitMap} {child : ℕ}
    (h : (m, child) ∈ p.seat.regs) :
    ∃ reason, p.status = .blocked reason ∧ waitsFor m child reason = true := by
  cases hr : p.status with
  | blocked reason =>
    rw [p.seat_blocked hr] at h
    exact ⟨reason, rfl, mem_regsOf.mp h⟩
  | _ => simp [Process.seat, hr, Process.hold] at h

theorem Process.blocked_of_io {p : Process V} {token : ℕ} (h : p.seat.io = some token) :
    p.status = .blocked (.io token) := by
  cases hr : p.status with
  | blocked reason =>
    rw [p.seat_blocked hr] at h
    cases reason with
    | io t => exact congrArg (ProcessStatus.blocked ∘ BlockReason.io) (Option.some.inj h)
    | _ => cases h
  | _ => simp [Process.seat, hr, Process.hold] at h

theorem Inv.checked {s : Shared V} (h : Inv s 0) : Checked s := by
  have hno : ∀ {t : Token}, t ∉ (0 : Tokens) := fun {t} => Multiset.notMem_zero t
  constructor
  case known =>
    intro m child hne
    obtain ⟨w, hw⟩ := List.exists_mem_of_ne_nil _ hne
    obtain ⟨x, hx, -, hr⟩ := (h.waits.reg m child w).mp hw
    refine (h.family.kids x hx child (h.waits.reg_kid x hx m child hr)).imp_right fun hk => ?_
    refine hk.resolve_left fun hfresh => ?_
    obtain ⟨p, -, -, rfl⟩ := placed_table hx
    simp at hfresh
  case waiters =>
    intro m child w hw
    obtain ⟨x, hx, rfl, hr⟩ := (h.waits.reg m child w).mp hw
    obtain ⟨p, hp, -, rfl⟩ := placed_table hx
    obtain ⟨reason, hb, hwait⟩ := p.blocked_of_regs hr
    exact ⟨p, reason, hp, hb, hwait⟩
  case ioWaiters =>
    intro t w hw
    obtain ⟨x, hx, rfl, hio⟩ := h.io.reg t w hw
    obtain ⟨p, hp, -, rfl⟩ := placed_table hx
    exact ⟨p, hp, p.blocked_of_io hio⟩
  case tombstones =>
    exact fun pid r hr => (h.family.tomb_parent pid r hr).resolve_right fun ho =>
      ho.elim (hno ·) (hno ·)
  case pendingCancels => exact fun pid hp => (h.pending pid hp).resolve_right (hno ·)
  case live =>
    intro pid hl
    obtain ⟨x, hx, rfl⟩ := h.places.placed_of_live hl
    obtain ⟨p, hp, hlive, -⟩ := placed_table hx
    exact ⟨p, hp, hlive⟩
  case processes => exact h.places.root

/-- **The bookkeeping is exact while no thread is within a round.** -/
theorem quiet_checked (h : Reached b workers vms c) (hquiet : ∀ i p, c.parties i ≠ .running p) :
    Checked c.state :=
  (h.quiet hquiet).checked

theorem quiet_checked_family : ∃ c : Config (interface Unit) (Shared Unit) (Thread 2),
    c.state.waiters .waiters 2 = [1] ∧ Checked c.state := by
  obtain ⟨-, c, h, hidle, -, hwaiters, -⟩ := reached_family
  exact ⟨c, hwaiters, quiet_checked h fun i p hp => by rw [hidle i] at hp; cases hp⟩

/-- No wakeup was lost: a process that may run is queued, and one that is blocked is registered, and
waits for children that are all live, or for I/O. -/
structure Awake (s : Shared V) : Prop where
  queued : ∀ pid p, s.processes pid = some p → p.status = .runnable → pid ∈ s.queue
  waiting : ∀ pid p reason, s.processes pid = some p → p.status = .blocked reason →
    (∃ token, reason = .io token ∧ s.ioWaiters token = some pid) ∨
      ∃ m child, waitsFor m child reason = true
  registered : ∀ pid p reason m child, s.processes pid = some p → p.status = .blocked reason →
    waitsFor m child reason = true → pid ∈ s.waiters m child ∧ child ∈ s.live
  progress : s.live ≠ ∅ → (∃ pid ∈ s.queue, ∃ p, s.processes pid = some p ∧ p.status = .runnable) ∨
    ∃ token pid, s.ioWaiters token = some pid ∧ pid ∈ s.live

theorem Inv.awake {s : Shared V} (h : Inv s 0) : Awake s := by
  have hno : ∀ {t : Token}, t ∉ (0 : Tokens) := fun {t} => Multiset.notMem_zero t
  have hqueued : ∀ pid p, s.processes pid = some p → p.status = .runnable → pid ∈ s.queue := by
    intro pid p hp hr
    obtain rfl := h.places.key pid p hp
    have hseat := h.queue p.seat (placed_of_table hp (by simp [Proc.isLive, hr]))
      (by rw [p.seat_runnable hr]; rfl)
    rw [p.seat_pid] at hseat
    exact hseat.resolve_right fun ho => ho.elim (hno ·) (hno ·)
  have hplaced : ∀ {pid} {p : Process V} {reason}, s.processes pid = some p →
      p.status = .blocked reason →
      Placed s.processes 0 (p.hold .parked ∅ (regsOf reason) (ioOf reason)) := fun hp hb => by
    obtain rfl := h.places.key _ _ hp
    rw [← Process.seat_blocked _ hb]
    exact placed_of_table hp (by simp [Proc.isLive, hb])
  constructor
  case queued => exact hqueued
  case waiting =>
    intro pid p reason hp hb
    obtain rfl := h.places.key pid p hp
    rcases h.waiting _ (hplaced hp hb) rfl with hregs | hio
    · obtain ⟨⟨m, child⟩, hr⟩ := Finset.nonempty_iff_ne_empty.mpr hregs
      exact .inr ⟨m, child, mem_regsOf.mp hr⟩
    · cases reason with
      | io t => exact .inl ⟨t, rfl, (h.io.parked _ (hplaced hp hb) rfl t rfl).resolve_right (hno ·)⟩
      | _ => exact absurd rfl hio
  case registered =>
    intro pid p reason m child hp hb hwait
    obtain rfl := h.places.key pid p hp
    have hx := hplaced hp hb
    have hr : (m, child) ∈ regsOf reason := mem_regsOf.mpr hwait
    refine ⟨(h.waits.reg m child _).mpr ⟨_, hx, rfl, hr⟩, ?_⟩
    by_contra hc
    obtain ⟨c', -, -, ⟨cs, hdue, -⟩ | hwake | ⟨l, hwake, -⟩⟩ := h.waits.cover _ hx rfl m child hr hc
    · exact hno hdue
    · exact hno hwake
    · exact hno hwake
  case progress =>
    intro hlive
    by_contra hnone
    refine hlive (h.dead_of_still (fun t ht => absurd ht hno) (fun pid p hp hr => ?_) fun t => ?_)
    · exact hnone (.inl ⟨pid, hqueued pid p hp hr, p, hp, hr⟩)
    · by_contra ht
      obtain ⟨w, hw⟩ := Option.ne_none_iff_exists'.mp ht
      obtain ⟨x, hx, rfl, -⟩ := h.io.reg t w hw
      exact hnone (.inr ⟨t, _, hw, h.places.live_of_placed hx⟩)

/-- **No wakeup is lost.** -/
theorem quiet_progress (h : Reached b workers vms c) (hquiet : ∀ i p, c.parties i ≠ .running p) :
    Awake c.state :=
  (h.quiet hquiet).awake

theorem quiet_progress_family : ∃ c : Config (interface Unit) (Shared Unit) (Thread 2),
    (c.state.processes 1).map (·.status) = some (.blocked (.await 2 .result)) ∧
      Awake c.state := by
  obtain ⟨-, c, h, hidle, -, -, hstatus, -⟩ := reached_family
  exact ⟨c, hstatus, quiet_progress h fun i p hp => by rw [hidle i] at hp; cases hp⟩

end Runs

end Hiko.Threaded
