import Hiko.Runtime.Ownership

/-!
# What the accesses of a thread do to the invariant

One lemma for each access, and one for each exchange of tokens that goes without an access.

## Main results

* `Inv.takeRunnable`, `Inv.takeWaiting`, `Inv.takeDoomed`, `Inv.takeIo`: a process leaves the table
* `Inv.putRunnable`, `Inv.putWaiting`, `Inv.putIo`, `Inv.putRoot`: a process comes back
* `Inv.recordTombstone`, `Inv.liveRemove`: a process ends
* `Inv.consumeTombstone`, `Inv.reapTombstone`: an outcome is taken
* `Inv.allocPid`, `Inv.liveInsert`: a process is spawned
-/

namespace Hiko.Threaded

variable {V : Type} {s : Shared V} {T : Tokens} {x : Seat}

/-! ## Tokens -/

section Retoken

variable {P : Seat → Prop} {live : Finset ℕ} {next : ℕ}

theorem Waits.retoken {waiters : WaitMap → ℕ → List ℕ}
    {covered covered' : WaitMap → ℕ → Seat → Prop} {woken woken' : WaitMap → ℕ → Prop}
    {stale stale' : WaitMap → ℕ → ℕ → Prop} {seen seen' : ℕ → Prop}
    (h : Waits P live next waiters covered woken stale seen)
    (hcovered : ∀ x, P x → x.stage = .parked → ∀ m c, (m, c) ∈ x.regs → c ∉ live →
      covered m c x → ∃ c', (m, c') ∈ x.regs ∧ c' ∉ live ∧ covered' m c' x)
    (hwoken : ∀ m c, woken' m c → Gone P live next c)
    (hstale : ∀ m c w, stale' m c w → stale m c w ∨ Gone P live next c ∧
      ∀ x, P x → x.pid = w → (m, c) ∉ x.regs ∧ c ∉ x.targets)
    (hseen : ∀ w, seen' w → w < next ∧ ∀ x, P x → x.fresh ≠ some w) :
    Waits P live next waiters covered' woken' stale' seen' where
  reg := h.reg
  reg_kid := h.reg_kid
  target_kid := h.target_kid
  cover x hx hs m c hr hc := by
    obtain ⟨c', hr', hc', hcov⟩ := h.cover x hx hs m c hr hc
    exact hcovered x hx hs m c' hr' hc' hcov
  gone := hwoken
  stale_gone m c w hw := by
    rcases hstale m c w hw with hold | hnew
    · exact h.stale_gone m c w hold
    · exact hnew.1
  stale_off m c w hw := by
    rcases hstale m c w hw with hold | hnew
    · exact h.stale_off m c w hold
    · exact hnew.2
  born := hseen

theorem IoWaits.release {ioWaiters : ℕ → Option ℕ} {inFlight inFlight' : Finset ℕ} {nextToken : ℕ}
    {released released' : ℕ → Prop} {taking : ℕ → ℕ → Prop} {takes : ℕ → ℕ} {dying : ℕ → Prop}
    (h : IoWaits P next ioWaiters inFlight nextToken released taking takes dying)
    (hflight : ∀ t ∈ inFlight', t ∈ inFlight ∨ released t)
    (hreleased : ∀ t, released' t → t ∈ inFlight ∨ released t ∨ t < nextToken ∧
      ∀ x, P x → x.stage = .working → x.io ≠ some t) :
    IoWaits P next ioWaiters inFlight' nextToken released' taking takes dying where
  reg := h.reg
  parked := h.parked
  working x hx hs t ht := by
    obtain ⟨hw, hf, hr, hk⟩ := h.working x hx hs t ht
    refine ⟨hw, fun hf' => ?_, fun hr' => ?_, hk⟩
    · rcases hflight t hf' with h' | h'
      · exact hf h'
      · exact hr h'
    · rcases hreleased t hr' with h' | h' | h'
      · exact hf h'
      · exact hr h'
      · exact h'.2 x hx hs ht
  unique := h.unique
  taken := h.taken
  taker := h.taker
  dead := h.dead
  one := h.one
  flight_lt t ht := by
    rcases hflight t ht with h' | h'
    · exact h.flight_lt t h'
    · exact h.released_lt t h'
  released_lt t ht := by
    rcases hreleased t ht with h' | h' | h'
    · exact h.flight_lt t h'
    · exact h.released_lt t h'
    · exact h'.1
  taking_lt := h.taking_lt
  seat_lt := h.seat_lt

/-- The maps of waiters, where only seats without entries come and go. -/
theorem Waits.transfer {Q : Seat → Prop} {live' : Finset ℕ} {next' : ℕ}
    {waiters : WaitMap → ℕ → List ℕ} {covered covered' : WaitMap → ℕ → Seat → Prop}
    {woken woken' : WaitMap → ℕ → Prop} {stale : WaitMap → ℕ → ℕ → Prop} {seen : ℕ → Prop}
    (h : Waits P live next waiters covered woken stale seen)
    (hto : ∀ x, P x → x.regs ≠ ∅ → Q x)
    (hfrom : ∀ y, Q y → P y ∨ y.regs = ∅ ∧ y.targets = ∅)
    (hgone : ∀ c, Gone P live next c → Gone Q live' next' c)
    (hcover : ∀ x, P x → Q x → x.stage = .parked → ∀ m c, (m, c) ∈ x.regs → c ∉ live' →
      ∃ c', (m, c') ∈ x.regs ∧ c' ∉ live' ∧ covered' m c' x)
    (hwoken : ∀ m c, woken' m c → woken m c ∨ Gone Q live' next' c)
    (hborn : ∀ w, (w < next ∧ ∀ x, P x → x.fresh ≠ some w) →
      w < next' ∧ ∀ x, Q x → x.fresh ≠ some w) :
    Waits Q live' next' waiters covered' woken' stale seen where
  reg m c w := by
    rw [h.reg]
    constructor
    · rintro ⟨x, hx, hw, hr⟩
      exact ⟨x, hto x hx (Finset.ne_empty_of_mem hr), hw, hr⟩
    · rintro ⟨y, hy, hw, hr⟩
      rcases hfrom y hy with hy | ⟨he, -⟩
      · exact ⟨y, hy, hw, hr⟩
      · rw [he] at hr
        exact absurd hr (Finset.notMem_empty _)
  reg_kid y hy m c hr := by
    rcases hfrom y hy with hy | ⟨he, -⟩
    · exact h.reg_kid y hy m c hr
    · rw [he] at hr
      exact absurd hr (Finset.notMem_empty _)
  target_kid y hy c hc := by
    rcases hfrom y hy with hy | ⟨-, he⟩
    · exact h.target_kid y hy c hc
    · rw [he] at hc
      exact absurd hc (Finset.notMem_empty _)
  cover y hy hs m c hr hc := by
    rcases hfrom y hy with hp | ⟨he, -⟩
    · exact hcover y hp hy hs m c hr hc
    · rw [he] at hr
      exact absurd hr (Finset.notMem_empty _)
  gone m c hw := by
    rcases hwoken m c hw with hw | hw
    · exact hgone c (h.gone m c hw)
    · exact hw
  stale_gone m c w hw := hgone c (h.stale_gone m c w hw)
  stale_off m c w hw y hy hpid := by
    rcases hfrom y hy with hy | ⟨he, he'⟩
    · exact h.stale_off m c w hw y hy hpid
    · rw [he, he']
      exact ⟨Finset.notMem_empty _, Finset.notMem_empty _⟩
  born w hw := hborn w (h.born w hw)

/-- The processes that wait for I/O, where only seats without a token come and go. -/
theorem IoWaits.transfer {Q : Seat → Prop} {next' : ℕ} {ioWaiters : ℕ → Option ℕ}
    {inFlight : Finset ℕ} {nextToken : ℕ} {released : ℕ → Prop} {taking : ℕ → ℕ → Prop}
    {takes : ℕ → ℕ} {dying : ℕ → Prop}
    (h : IoWaits P next ioWaiters inFlight nextToken released taking takes dying)
    (hto : ∀ x, P x → x.io ≠ none → Q x) (hfrom : ∀ y, Q y → P y ∨ y.io = none)
    (hdying : ∀ w, Dying P next w → Dying Q next' w) :
    IoWaits Q next' ioWaiters inFlight nextToken released taking takes dying where
  reg t w hw := by
    obtain ⟨x, hx, hp, ht⟩ := h.reg t w hw
    exact ⟨x, hto x hx (by simp [ht]), hp, ht⟩
  parked y hy hs t ht := by
    rcases hfrom y hy with hy | he
    · exact h.parked y hy hs t ht
    · simp [he] at ht
  working y hy hs t ht := by
    rcases hfrom y hy with hy | he
    · exact h.working y hy hs t ht
    · simp [he] at ht
  unique y hy z hz t hyt hzt := by
    rcases hfrom y hy with hy | he
    · rcases hfrom z hz with hz | he
      · exact h.unique y hy z hz t hyt hzt
      · simp [he] at hzt
    · simp [he] at hyt
  taken := h.taken
  taker t w hw := by
    rcases h.taker t w hw with ⟨x, hx, hp, hs, ht⟩ | hd
    · exact .inl ⟨x, hto x hx (by simp [ht]), hp, hs, ht⟩
    · refine .inr ⟨hdying w hd.1, fun y hy hp => ?_⟩
      rcases hfrom y hy with hy | he
      · exact hd.2 y hy hp
      · exact .inr he
  dead w hw := ⟨hdying w (h.dead w hw).1, (h.dead w hw).2⟩
  one := h.one
  flight_lt := h.flight_lt
  released_lt := h.released_lt
  taking_lt := h.taking_lt
  seat_lt y hy t ht := by
    rcases hfrom y hy with hy | he
    · exact h.seat_lt y hy t ht
    · simp [he] at ht

end Retoken

namespace Inv

theorem add_enq (h : Inv s T) (pid : ℕ) : Inv s (.enq pid ::ₘ T) where
  places := by simpa using h.places
  family := by simpa using h.family
  waits := by simpa using h.waits
  io := by simpa using h.io
  queue := by
    intro x hx hs
    rcases h.queue x (by simpa using hx) hs with hq | hq | hq
    · exact .inl hq
    · exact .inr (.inl (Multiset.mem_cons_of_mem hq))
    · exact .inr (.inr (Multiset.mem_cons_of_mem hq))
  pending := by simpa using h.pending
  ended := by simpa using h.ended
  owned := by simpa using h.owned
  waiting := by simpa using h.waiting

/-- A pid from the queue whose process is not there to run. -/
theorem drop_deq {pid : ℕ} (h : Inv s (.deq pid ::ₘ T))
    (hq : ∀ x, Placed s.processes T x → x.stage = .queued → x.pid ≠ pid) : Inv s T where
  places := by simpa using h.places
  family := by simpa using h.family
  waits := by simpa using h.waits
  io := by simpa using h.io
  queue := by
    intro x hx hs
    have := h.queue x (by simpa using hx) hs
    simpa [hq x hx hs] using this
  pending := by simpa using h.pending
  ended := by simpa using h.ended
  owned := by simpa using h.owned
  waiting := by simpa using h.waiting

theorem add_due (h : Inv s T) (m : WaitMap) {l : List ℕ} (R : Finset (WaitMap × ℕ))
    (hborn : ∀ c ∈ l, c < s.nextPid ∧ ∀ x, Placed s.processes T x → x.fresh ≠ some c) :
    Inv s (.due m l R ::ₘ T) where
  places := by simpa using h.places
  family := by simpa using h.family
  waits := by
    have hw := h.waits
    simp only [Multiset.mem_cons, reduceCtorEq, false_or, placed_cons]
    refine hw.retoken (fun x _ _ m' c' hr hc hcov => ⟨c', hr, hc, ?_⟩) hw.gone
      (fun m c w hw => .inl hw) fun v hv => (seen_cons_iff.mp hv).elim (hborn v) (hw.born v)
    rcases hcov with ⟨cs', hcs, hmem⟩ | hcov | ⟨l, hl, hmem⟩
    · exact .inl ⟨cs', Multiset.mem_cons_of_mem hcs, hmem⟩
    · exact .inr (.inl (Multiset.mem_cons_of_mem hcov))
    · exact .inr (.inr ⟨l, Multiset.mem_cons_of_mem hl, hmem⟩)
  io := by simpa using h.io
  queue := by simpa using h.queue
  pending := by simpa using h.pending
  ended := by simpa using h.ended
  owned := by simpa using h.owned
  waiting := by simpa using h.waiting

/-- What covers a process after a token was exchanged for another one, which covers the process
where the first one did. -/
theorem covered_exchange {t u : Token} {m : WaitMap} {c : ℕ} {Q : ℕ → Prop}
    (hcov : Covered (t ::ₘ T) m c x) (hc : Q c)
    (ht : (∃ cs, t = .due m cs x.regs ∧ c ∈ cs) ∨ t = .wake m c none ∨
        (∃ l, t = .wake m c (some l) ∧ x.pid ∈ l) → ∃ c', Q c' ∧ Covered (u ::ₘ T) m c' x) :
    ∃ c', Q c' ∧ Covered (u ::ₘ T) m c' x := by
  rcases hcov with ⟨cs, hcs, hmem⟩ | hcov | ⟨l, hl, hmem⟩
  · rcases Multiset.mem_cons.mp hcs with he | hcs
    · exact ht (.inl ⟨cs, he.symm, hmem⟩)
    · exact ⟨c, hc, .inl ⟨cs, Multiset.mem_cons_of_mem hcs, hmem⟩⟩
  · rcases Multiset.mem_cons.mp hcov with he | hcov
    · exact ht (.inr (.inl he.symm))
    · exact ⟨c, hc, .inr (.inl (Multiset.mem_cons_of_mem hcov))⟩
  · rcases Multiset.mem_cons.mp hl with he | hl
    · exact ht (.inr (.inr ⟨l, he.symm, hmem⟩))
    · exact ⟨c, hc, .inr (.inr ⟨l, Multiset.mem_cons_of_mem hl, hmem⟩)⟩

/-- A child that was found live owes nothing yet. -/
theorem due_live {m : WaitMap} {c : ℕ} {cs : List ℕ} {R : Finset (WaitMap × ℕ)}
    (h : Inv s (.due m (c :: cs) R ::ₘ T)) (hc : c ∈ s.live) : Inv s (.due m cs R ::ₘ T) where
  places := by simpa using h.places
  family := by simpa using h.family
  waits := by
    have hw := h.waits
    simp only [Multiset.mem_cons, reduceCtorEq, false_or, placed_cons] at hw ⊢
    refine hw.retoken (fun x _ _ m' c' hr hc' hcov => ?_) hw.gone (fun m c w hw => .inl hw) ?_
    · have := covered_exchange (Q := fun c' => (m', c') ∈ x.regs ∧ c' ∉ s.live)
        (u := .due m cs R) hcov ⟨hr, hc'⟩ fun he => ?_
      · simpa only [and_assoc] using this
      · rcases he with ⟨cs', he, hmem⟩ | he | ⟨l, he, -⟩
        · obtain ⟨rfl, rfl, rfl⟩ := Token.due.inj he
          rcases List.mem_cons.mp hmem with rfl | hmem
          · exact absurd hc hc'
          · exact ⟨c', ⟨hr, hc'⟩, .inl ⟨cs, Multiset.mem_cons_self _ _, hmem⟩⟩
        · cases he
        · cases he
    · intro v hv
      rw [seen_cons_iff] at hv
      exact hw.born v (seen_cons_iff.mpr (hv.imp_left (List.mem_cons_of_mem c)))
  io := by simpa using h.io
  queue := by simpa using h.queue
  pending := by simpa using h.pending
  ended := by simpa using h.ended
  owned := by simpa using h.owned
  waiting := by simpa using h.waiting

/-- All children were found live. -/
theorem due_end {m : WaitMap} {R : Finset (WaitMap × ℕ)} (h : Inv s (.due m [] R ::ₘ T)) :
    Inv s T where
  places := by simpa using h.places
  family := by simpa using h.family
  waits := by
    have hw := h.waits
    simp only [Multiset.mem_cons, reduceCtorEq, false_or, placed_cons, seen_cons] at hw
    refine hw.retoken (fun x _ _ m' c' hr hc' hcov => ⟨c', hr, hc', ?_⟩) hw.gone
      (fun m c w hw => .inl hw) hw.born
    rcases hcov with ⟨cs', hcs, hmem⟩ | hcov | ⟨l, hl, hmem⟩
    · rcases Multiset.mem_cons.mp hcs with he | hcs
      · cases he
        cases hmem
      · exact .inl ⟨cs', hcs, hmem⟩
    · exact .inr (.inl (by simpa using hcov))
    · exact .inr (.inr ⟨l, by simpa using hl, hmem⟩)
  io := by simpa using h.io
  queue := by simpa using h.queue
  pending := by simpa using h.pending
  ended := by simpa using h.ended
  owned := by simpa using h.owned
  waiting := by simpa using h.waiting

/-- Where nobody was parked, nothing is owed. -/
theorem due_none {m : WaitMap} {cs : List ℕ} (h : Inv s (.due m cs ∅ ::ₘ T)) : Inv s T where
  places := by simpa using h.places
  family := by simpa using h.family
  waits := by
    have hw := h.waits
    simp only [Multiset.mem_cons, reduceCtorEq, false_or, placed_cons] at hw
    refine hw.retoken (fun x _ _ m' c' hr hc' hcov => ⟨c', hr, hc', ?_⟩) hw.gone
      (fun m c w hw => .inl hw) fun v hv => hw.born v (seen_cons_iff.mpr (.inr hv))
    rcases hcov with ⟨cs', hcs, hmem⟩ | hcov | ⟨l, hl, hmem⟩
    · rcases Multiset.mem_cons.mp hcs with he | hcs
      · rw [(Token.due.inj he).2.2] at hr
        exact absurd hr (Finset.notMem_empty _)
      · exact .inl ⟨cs', hcs, hmem⟩
    · exact .inr (.inl (by simpa using hcov))
    · exact .inr (.inr ⟨l, by simpa using hl, hmem⟩)
  io := by simpa using h.io
  queue := by simpa using h.queue
  pending := by simpa using h.pending
  ended := by simpa using h.ended
  owned := by simpa using h.owned
  waiting := by simpa using h.waiting

/-- A child that was found dead owes a wakeup, and its wakeup is all that is owed. -/
theorem due_wake {m : WaitMap} {c : ℕ} {cs : List ℕ} {R : Finset (WaitMap × ℕ)}
    (h : Inv s (.due m cs R ::ₘ T)) (hR : (m, c) ∈ R) (hmem : c ∈ cs) (hlive : c ∉ s.live) :
    Inv s (.wake m c none ::ₘ T) where
  places := by simpa using h.places
  family := by simpa using h.family
  waits := by
    have hw := h.waits
    simp only [Multiset.mem_cons, reduceCtorEq, false_or, placed_cons] at hw ⊢
    have hborn := hw.born c (seen_cons_iff.mpr (.inl hmem))
    have hc : Gone (Placed s.processes T) s.live s.nextPid c := ⟨hborn.1, hlive, hborn.2⟩
    refine hw.retoken (fun x _ _ m' c' hr hc' hcov => ?_) ?_ (fun m c w hw => .inl hw)
      fun v hv => hw.born v (seen_cons_iff.mpr (.inr (by simpa using hv)))
    · have := covered_exchange (Q := fun c' => (m', c') ∈ x.regs ∧ c' ∉ s.live)
        (u := .wake m c none) hcov ⟨hr, hc'⟩ fun he => ?_
      · simpa only [and_assoc] using this
      · rcases he with ⟨cs', he, -⟩ | he | ⟨l, he, -⟩
        · obtain ⟨rfl, -, rfl⟩ := Token.due.inj he
          exact ⟨c, ⟨hR, hc.2.1⟩, .inr (.inl (Multiset.mem_cons_self _ _))⟩
        · cases he
        · cases he
    · rintro m' c' ⟨l, hl | hl⟩
      · cases hl
        exact hc
      · exact hw.gone m' c' ⟨l, hl⟩
  io := by simpa using h.io
  queue := by simpa using h.queue
  pending := by simpa using h.pending
  ended := by simpa using h.ended
  owned := by simpa using h.owned
  waiting := by simpa using h.waiting

/-- The waiters of a child that is dead are read. -/
theorem wake_get {m : WaitMap} {c : ℕ} (h : Inv s (.wake m c none ::ₘ T)) :
    Inv s (.wake m c (some (s.waiters m c)) ::ₘ T) where
  places := by simpa using h.places
  family := by simpa using h.family
  waits := by
    have hw := h.waits
    have hplaces := h.places
    have hf := h.family
    rw [places_cons rfl] at hplaces
    simp only [placed_cons] at hf
    simp only [Multiset.mem_cons, reduceCtorEq, false_or, placed_cons] at hw ⊢
    refine hw.retoken (fun x hx _ m' c' hr hc' hcov => ?_) ?_ (fun m c w hw => .inl hw) ?_
    · have := covered_exchange (Q := fun c' => (m', c') ∈ x.regs ∧ c' ∉ s.live)
        (u := .wake m c (some (s.waiters m c))) hcov ⟨hr, hc'⟩ fun he => ?_
      · simpa only [and_assoc] using this
      · rcases he with ⟨cs', he, -⟩ | he | ⟨l, he, -⟩
        · cases he
        · cases he
          exact ⟨c, ⟨hr, hc'⟩, .inr (.inr ⟨_, Multiset.mem_cons_self _ _,
            (hw.reg m c x.pid).mpr ⟨x, hx, rfl, hr⟩⟩)⟩
        · cases he
    · rintro m' c' ⟨l, hl | hl⟩
      · cases hl
        exact hw.gone m c ⟨none, .inl rfl⟩
      · exact hw.gone m' c' ⟨l, .inr hl⟩
    · intro w hv
      rcases seen_cons_iff.mp hv with hmem | hv
      · obtain ⟨x, hx, rfl, -⟩ := (hw.reg m c w).mp hmem
        exact ⟨hf.pos x hx, fun y hy hfr =>
          (hf.fresh y hy x.pid hfr).2.1 (hplaces.live_of_placed hx)⟩
      · exact hw.born w (seen_cons_iff.mpr (.inr hv))
  io := by simpa using h.io
  queue := by simpa using h.queue
  pending := by simpa using h.pending
  ended := by simpa using h.ended
  owned := by simpa using h.owned
  waiting := by simpa using h.waiting

/-- A waiter that is not parked for the child needs no wakeup of its thread. -/
theorem wake_skip {m : WaitMap} {c w : ℕ} {l : List ℕ} (h : Inv s (.wake m c (some (w :: l)) ::ₘ T))
    (hoff : ∀ x, Placed s.processes T x → x.stage = .parked → x.pid = w → (m, c) ∉ x.regs) :
    Inv s (.wake m c (some l) ::ₘ T) where
  places := by simpa using h.places
  family := by simpa using h.family
  waits := by
    have hw := h.waits
    simp only [Multiset.mem_cons, reduceCtorEq, false_or, placed_cons] at hw ⊢
    refine hw.retoken (fun x hx hs m' c' hr hc' hcov => ?_) ?_ (fun m c w hw => .inl hw) ?_
    · have := covered_exchange (Q := fun c' => (m', c') ∈ x.regs ∧ c' ∉ s.live)
        (u := .wake m c (some l)) hcov ⟨hr, hc'⟩ fun he => ?_
      · simpa only [and_assoc] using this
      · rcases he with ⟨cs', he, -⟩ | he | ⟨l', he, hin⟩
        · cases he
        · cases he
        · cases he
          rcases List.mem_cons.mp hin with heq | hin
          · exact absurd hr (hoff x hx hs heq)
          · exact ⟨c, ⟨hr, hc'⟩, .inr (.inr ⟨l, Multiset.mem_cons_self _ _, hin⟩)⟩
    · rintro m' c' ⟨l', hl | hl⟩
      · cases hl
        exact hw.gone m c ⟨_, .inl rfl⟩
      · exact hw.gone m' c' ⟨l', .inr hl⟩
    · intro v hv
      rw [seen_cons_iff] at hv
      exact hw.born v (seen_cons_iff.mpr (hv.imp_left (List.mem_cons_of_mem w)))
  io := by simpa using h.io
  queue := by simpa using h.queue
  pending := by simpa using h.pending
  ended := by simpa using h.ended
  owned := by simpa using h.owned
  waiting := by simpa using h.waiting

theorem wake_end {m : WaitMap} {c : ℕ} (h : Inv s (.wake m c (some []) ::ₘ T)) : Inv s T where
  places := by simpa using h.places
  family := by simpa using h.family
  waits := by
    have hw := h.waits
    simp only [Multiset.mem_cons, reduceCtorEq, false_or, placed_cons] at hw
    refine hw.retoken (fun x _ _ m' c' hr hc' hcov => ⟨c', hr, hc', ?_⟩)
      (fun m' c' hl => hw.gone m' c' (hl.imp fun l hl => .inr hl)) (fun m c w hw => .inl hw) ?_
    · rcases hcov with ⟨cs', hcs, hmem⟩ | hcov | ⟨l, hl, hmem⟩
      · exact .inl ⟨cs', by simpa using hcs, hmem⟩
      · exact .inr (.inl (by simpa using hcov))
      · rcases Multiset.mem_cons.mp hl with he | hl
        · cases he
          cases hmem
        · exact .inr (.inr ⟨l, hl, hmem⟩)
    · exact fun v hv => hw.born v (seen_cons_iff.mpr (.inr hv))
  io := by simpa using h.io
  queue := by simpa using h.queue
  pending := by simpa using h.pending
  ended := by simpa using h.ended
  owned := by simpa using h.owned
  waiting := by simpa using h.waiting

/-- The thread may remember that a process will not wait for a child that is dead. -/
theorem add_stale {m : WaitMap} {c w : ℕ} (h : Inv s T)
    (hc : Gone (Placed s.processes T) s.live s.nextPid c)
    (hoff : ∀ x, Placed s.processes T x → x.pid = w → (m, c) ∉ x.regs ∧ c ∉ x.targets)
    (hborn : w < s.nextPid ∧ ∀ x, Placed s.processes T x → x.fresh ≠ some w) :
    Inv s (.stale m c w ::ₘ T) where
  places := by simpa using h.places
  family := by simpa using h.family
  waits := by
    have hw := h.waits
    simp only [Multiset.mem_cons, reduceCtorEq, false_or, placed_cons, covered_cons]
    refine hw.retoken (fun x _ _ m' c' hr hc' hcov => ⟨c', hr, hc', hcov⟩) hw.gone ?_ ?_
    · rintro m' c' w' (he | hold)
      · cases he
        exact .inr ⟨hc, hoff⟩
      · exact .inl hold
    · intro v hv
      rcases seen_cons_iff.mp hv with hmem | hv
      · cases List.mem_singleton.mp hmem
        exact hborn
      · exact hw.born v hv
  io := by simpa using h.io
  queue := by simpa using h.queue
  pending := by simpa using h.pending
  ended := by simpa using h.ended
  owned := by simpa using h.owned
  waiting := by simpa using h.waiting

theorem drop_stale {m : WaitMap} {c w : ℕ} (h : Inv s (.stale m c w ::ₘ T)) : Inv s T where
  places := by simpa using h.places
  family := by simpa using h.family
  waits := by
    have hw := h.waits
    simp only [Multiset.mem_cons, reduceCtorEq, false_or, placed_cons, covered_cons] at hw
    refine hw.retoken (fun x _ _ m' c' hr hc' hcov => ⟨c', hr, hc', hcov⟩) hw.gone
      (fun m c w hold => .inl (.inr hold)) fun v hv => hw.born v (seen_cons_iff.mpr (.inr hv))
  io := by simpa using h.io
  queue := by simpa using h.queue
  pending := by simpa using h.pending
  ended := by simpa using h.ended
  owned := by simpa using h.owned
  waiting := by simpa using h.waiting

theorem drop_unpend {pid : ℕ} (h : Inv s (.unpend pid ::ₘ T)) (hlive : pid ∈ s.live) :
    Inv s T where
  places := by simpa using h.places
  family := by simpa using h.family
  waits := by simpa using h.waits
  io := by simpa using h.io
  queue := by simpa using h.queue
  pending := by
    intro pid' hp
    rcases h.pending pid' hp with hl | hu
    · exact .inl hl
    · rcases Multiset.mem_cons.mp hu with he | hu
      · cases he
        exact .inl hlive
      · exact .inr hu
  ended := by simpa using h.ended
  owned := by simpa using h.owned
  waiting := by simpa using h.waiting

theorem Family.retoken {P : Seat → Prop} {live : Finset ℕ} {next : ℕ}
    {tombstones : ℕ → Option ChildRecord} {owed lost owed' lost' : ℕ → Prop}
    (h : Family P live next tombstones owed lost)
    (howed : ∀ c r, tombstones c = some r → owed c → r.parent ∈ live ∨ owed' c)
    (hlost : ∀ c, lost' c → c < next ∧ ∀ x, P x → c ∉ x.children) :
    Family P live next tombstones owed' lost' :=
  { h with
    tomb_parent := fun c r hr => by
      rcases h.tomb_parent c r hr with hl | hre
      · exact .inl hl
      · exact howed c r hr hre
    reaped := hlost }

/-- The parent of a process that ends is live: it will take the outcome. -/
theorem drop_recheck {c : ℕ} (h : Inv s (.recheck c ::ₘ T))
    (hc : ∀ r, s.tombstones c = some r → r.parent ∈ s.live) : Inv s T where
  places := by simpa using h.places
  family := by
    have hf := h.family
    simp only [Multiset.mem_cons, reduceCtorEq, false_or, placed_cons, Token.recheck.injEq] at hf
    refine Family.retoken hf (fun c' r hr hre => ?_) hf.reaped
    rcases hre with (rfl | hre) | hre
    · exact .inl (hc r hr)
    · exact .inr (.inl hre)
    · exact .inr (.inr hre)
  waits := by simpa using h.waits
  io := by simpa using h.io
  queue := by simpa using h.queue
  pending := by simpa using h.pending
  ended := by simpa using h.ended
  owned := by simpa using h.owned
  waiting := by simpa using h.waiting

/-- The parent of a process that ends is gone: nobody will take the outcome. -/
theorem recheck_reap {c : ℕ} (h : Inv s (.recheck c ::ₘ T)) (hc : c < s.nextPid)
    (hkids : ∀ x, Placed s.processes T x → c ∉ x.children) : Inv s (.reap c ::ₘ T) where
  places := by simpa using h.places
  family := by
    have hf := h.family
    simp only [Multiset.mem_cons, reduceCtorEq, false_or, placed_cons, Token.recheck.injEq,
      Token.reap.injEq] at hf ⊢
    refine Family.retoken hf (fun c' r hr hre => ?_) ?_
    · rcases hre with (rfl | hre) | hre
      · exact .inr (.inr (.inl rfl))
      · exact .inr (.inl hre)
      · exact .inr (.inr (.inr hre))
    · rintro c' ((rfl | hre) | hre)
      · exact ⟨hc, hkids⟩
      · exact hf.reaped c' (.inl hre)
      · exact hf.reaped c' (.inr hre)
  waits := by simpa using h.waits
  io := by simpa using h.io
  queue := by simpa using h.queue
  pending := by simpa using h.pending
  ended := by simpa using h.ended
  owned := by simpa using h.owned
  waiting := by simpa using h.waiting

/-- The thread may remember that a process has no parent. -/
theorem add_orphan {c : ℕ} (h : Inv s T) (hc : c < s.nextPid)
    (hkids : ∀ x, Placed s.processes T x → c ∉ x.children) : Inv s (.orphan c ::ₘ T) where
  places := by simpa using h.places
  family := by
    have hf := h.family
    simp only [Multiset.mem_cons, reduceCtorEq, false_or, placed_cons, Token.orphan.injEq]
    refine Family.retoken hf (fun c' r hr hre => .inr hre) ?_
    rintro c' (hre | rfl | hre)
    · exact hf.reaped c' (.inl hre)
    · exact ⟨hc, hkids⟩
    · exact hf.reaped c' (.inr hre)
  waits := by simpa using h.waits
  io := by simpa using h.io
  queue := by simpa using h.queue
  pending := by simpa using h.pending
  ended := by simpa using h.ended
  owned := by simpa using h.owned
  waiting := by simpa using h.waiting

theorem drop_orphan {c : ℕ} (h : Inv s (.orphan c ::ₘ T)) : Inv s T where
  places := by simpa using h.places
  family := by
    have hf := h.family
    simp only [Multiset.mem_cons, reduceCtorEq, false_or, placed_cons] at hf
    refine Family.retoken hf (fun c' r hr hre => .inr hre) fun c' hre => hf.reaped c' ?_
    rcases hre with hre | hre
    · exact .inl hre
    · exact .inr (.inr hre)
  waits := by simpa using h.waits
  io := by simpa using h.io
  queue := by simpa using h.queue
  pending := by simpa using h.pending
  ended := by simpa using h.ended
  owned := by simpa using h.owned
  waiting := by simpa using h.waiting

/-- A token of the backend that no thread is about to park a process for. -/
theorem add_released {t : ℕ} (h : Inv s T) (ht : t ∈ s.inFlight ∨ t < s.nextIoToken ∧
    ∀ x, Placed s.processes T x → x.stage = .working → x.io ≠ some t) :
    Inv s (.released t ::ₘ T) where
  places := by simpa using h.places
  family := by simpa using h.family
  waits := by simpa using h.waits
  io := by
    simp only [Multiset.mem_cons, reduceCtorEq, false_or, placed_cons, Token.released.injEq,
      countP_takes_cons]
    refine h.io.release (fun t' h' => .inl h') ?_
    rintro t' (rfl | h')
    · rcases ht with ht | ht
      · exact .inl ht
      · exact .inr (.inr ht)
    · exact .inr (.inl h')
  queue := by simpa using h.queue
  pending := by simpa using h.pending
  ended := by simpa using h.ended
  owned := by simpa using h.owned
  waiting := by simpa using h.waiting

theorem drop_released {t : ℕ} (h : Inv s (.released t ::ₘ T)) : Inv s T where
  places := by simpa using h.places
  family := by simpa using h.family
  waits := by simpa using h.waits
  io := by
    have hio := h.io
    simp only [Multiset.mem_cons, reduceCtorEq, false_or, placed_cons, countP_takes_cons] at hio
    exact hio.release (fun t' h' => .inl h') fun t' h' => .inr (.inl (.inr h'))
  queue := by simpa using h.queue
  pending := by simpa using h.pending
  ended := by simpa using h.ended
  owned := by simpa using h.owned
  waiting := by simpa using h.waiting

/-! ## The table -/

theorem placed_uniq (h : Inv s T) (hx : Placed s.processes T x) :
    ∀ y, Placed s.processes T y → y.pid = x.pid → y = x :=
  fun _ hy hpid => h.places.uniq hy hx hpid

/-- A process that is live has no fresh pid. -/
theorem fresh_ne (h : Inv s T) (hx : Placed s.processes T x) {y : Seat}
    (hy : Placed s.processes T y) : y.fresh ≠ some x.pid := fun hf =>
  (h.family.fresh y hy x.pid hf).2.1 (h.places.live_of_placed hx)

/-- A process leaves the table. -/
theorem take (h : Inv s T) {p : Process V} (hp : s.processes p.pid = some p)
    (hl : p.isLive = true) (hk : Kin p.seat x) (he : Entry p.seat x)
    (hs : x.stage ≠ .queued ∧ x.stage ≠ .parked) (hi : x.io = p.seat.io ∨ x.io = none)
    (hio : IoWaits (Move (Placed s.processes T) x) s.nextPid s.ioWaiters s.inFlight s.nextIoToken
      (fun t => Token.released t ∈ T) (fun t w => Token.taking t w ∈ T)
      (fun t => T.countP (Token.takes t)) (fun w => Token.dying w ∈ T)) :
    Inv { s with processes := Function.update s.processes p.pid none } (.seat x ::ₘ T) := by
  have hpid : x.pid = p.pid := hk.pid.symm.trans p.seat_pid
  have hx : Placed s.processes T p.seat := placed_of_table hp hl
  have hmove := h.places.placed_take hp hl hpid
  refine ⟨h.places.take hp hl hpid hs, ?_, ?_, ?_, ?_, ?_, ?_, ?_, ?_⟩
  · simp only [Multiset.mem_cons, reduceCtorEq, false_or, hmove]
    exact h.family.mono fun y hy => Move.from Kin.refl hx hk hy
  · simp only [Multiset.mem_cons, reduceCtorEq, false_or, hmove, covered_cons, seen_cons]
    exact h.waits.move hx (fun y hy hp => h.places.uniq hy hx hp) he fun hp => absurd hp hs.2
  · simp only [Multiset.mem_cons, reduceCtorEq, false_or, hmove, countP_takes_cons]
    exact hio
  · simp only [Multiset.mem_cons, reduceCtorEq, false_or, hmove]
    rintro y (rfl | ⟨hy, -⟩) hq
    · exact absurd hq hs.1
    · exact h.queue y hy hq
  · simpa using h.pending
  · simp only [hmove]
    exact fun k he => (h.ended k he.of_take).move hx hk.pid hk.fresh fun _ => p.seat_stage
  · simp only [Multiset.mem_cons, reduceCtorEq, false_or, hmove]
    exact fun t w ht => (h.owned t w ht).move hx hk.pid hi
  · simp only [hmove]
    exact h.waiting.move fun hp => absurd hp hs.2

theorem takeRunnable {p : Process V} (h : Inv s (.deq p.pid ::ₘ T))
    (hp : s.processes p.pid = some p) (hr : p.status = .runnable) :
    Inv { s with processes := Function.update s.processes p.pid none }
      (.seat (p.held .working) ::ₘ T) := by
  have hl : p.isLive = true := by simp [Proc.isLive, hr]
  have hseat := p.seat_runnable hr
  have hx := placed_of_table (T := .deq p.pid ::ₘ T) hp hl
  have htake := h.take (x := p.held .working) hp hl
    (by rw [hseat]; exact ⟨rfl, rfl, rfl, rfl, by simp [Process.hold]⟩)
    (by rw [hseat]; exact ⟨rfl, fun _ hc => .inl hc, rfl, rfl, Finset.Subset.refl _⟩)
    (by simp [Process.hold]) (.inr rfl)
    (h.io.move_none hx (h.placed_uniq hx)
      (by rw [hseat]; exact ⟨rfl, rfl, .inl rfl, by simp [Process.hold]⟩) (by rw [hseat]; rfl) rfl)
  rw [Multiset.cons_swap] at htake
  refine htake.drop_deq fun y hy hq hpid => ?_
  have hplaces := htake.places
  rw [places_cons rfl] at hplaces
  rw [hplaces.uniq hy (.inr (Multiset.mem_cons_self _ _)) hpid] at hq
  cases hq

/-- A waker takes a process that waits for the child. -/
theorem takeWaiting {p : Process V} {m : WaitMap} {c : ℕ} {l : List ℕ} {reason : BlockReason}
    (h : Inv s (.wake m c (some (p.pid :: l)) ::ₘ T)) (hp : s.processes p.pid = some p)
    (hr : p.status = .blocked reason) (hw : waitsFor m c reason = true) :
    Inv { s with processes := Function.update s.processes p.pid none }
      (.seat (p.hold .working ∅ (regsOf reason) none) ::ₘ .wake m c (some l) ::ₘ T) := by
  have hl : p.isLive = true := by simp [Proc.isLive, hr]
  have hio : ioOf reason = none := by
    cases reason <;> simp_all [ioOf, waitsFor]
  have hseat := p.seat_blocked hr
  have hx := placed_of_table (T := .wake m c (some (p.pid :: l)) ::ₘ T) hp hl
  have htake := h.take (x := (p.hold .working ∅ (regsOf reason) none)) hp hl
    (by rw [hseat]; exact ⟨rfl, rfl, rfl, rfl, by simp [Process.hold]⟩)
    (by rw [hseat]; exact ⟨rfl, fun _ hc => .inl hc, rfl, rfl, Finset.Subset.refl _⟩)
    (by simp [Process.hold]) (.inr rfl)
    (h.io.move_none hx (h.placed_uniq hx)
      (by rw [hseat]; exact ⟨rfl, rfl, .inl hio.symm, by simp [Process.hold]⟩)
      (by rw [hseat]; exact hio) rfl)
  rw [Multiset.cons_swap] at htake
  rw [Multiset.cons_swap]
  refine htake.wake_skip fun y hy hs hpid => ?_
  have hplaces := htake.places
  rw [places_cons rfl] at hplaces
  rw [hplaces.uniq hy (.inr (Multiset.mem_cons_self _ _)) hpid] at hs
  cases hs

/-- A thread takes a process that is blocked, to terminate it. -/
theorem takeDoomed {p : Process V} {reason : BlockReason} (h : Inv s T)
    (hp : s.processes p.pid = some p) (hr : p.status = .blocked reason) :
    Inv { s with processes := Function.update s.processes p.pid none }
      (.seat (p.hold .doomed ∅ (regsOf reason) (ioOf reason)) ::ₘ T) := by
  have hl : p.isLive = true := by simp [Proc.isLive, hr]
  have hseat := p.seat_blocked hr
  have hx := placed_of_table (T := T) hp hl
  refine h.take hp hl (by rw [hseat]; exact ⟨rfl, rfl, rfl, rfl, by simp [Process.hold]⟩)
    (by rw [hseat]; exact ⟨rfl, fun _ hc => .inl hc, rfl, rfl, Finset.Subset.refl _⟩)
    (by simp [Process.hold]) (.inl (by rw [hseat]; rfl)) ?_
  refine h.io.move hx (h.placed_uniq hx)
    (by rw [hseat]; exact ⟨rfl, rfl, .inl rfl, by simp [Process.hold]⟩) (by rw [hseat]; rfl)
    (fun hs => by cases hs) (fun hs => by cases hs) ?_
  rintro t ht - -
  refine .inr ⟨⟨h.family.pos _ hx, ?_⟩, ?_⟩
  · rintro y (rfl | ⟨hy, hne⟩)
    · exact ⟨fun _ => .inl rfl, by simp [Process.hold]⟩
    · refine ⟨fun hpid => absurd (hpid.trans p.seat_pid) hne, h.fresh_ne hx hy⟩
  · rintro y (rfl | ⟨-, hne⟩) hpid
    · rw [hseat] at ht
      exact .inl ht
    · exact absurd (hpid.trans p.seat_pid) hne

/-- The thread that took the registration of a process takes the process. -/
theorem takeIo {p : Process V} {t : ℕ} (h : Inv s (.taking t p.pid ::ₘ T))
    (hp : s.processes p.pid = some p) (hr : p.status = .blocked (.io t)) :
    Inv { s with processes := Function.update s.processes p.pid none }
      (.seat (p.held .working) ::ₘ T) := by
  have hl : p.isLive = true := by simp [Proc.isLive, hr]
  have hseat := p.seat_blocked hr
  have hx := placed_of_table (T := .taking t p.pid ::ₘ T) hp hl
  have hpid : (p.held .working).pid = p.pid := rfl
  have hk : Port p.seat (p.held .working) := by
    rw [hseat]
    exact ⟨rfl, rfl, .inr rfl, by simp [Process.hold]⟩
  have hxio : p.seat.io = some t := by rw [hseat]; rfl
  have hmove := h.places.placed_take hp hl hpid
  have hplaces := h.places.take hp hl hpid (by simp [Process.hold])
  have hio := h.io
  have hnone : s.ioWaiters t = none := hio.taken t p.pid (Multiset.mem_cons_self _ _)
  have hone : ∀ w, Token.taking t w ∉ T := fun w hw => by
    have hle := hio.one t
    have hpos : 0 < T.countP (Token.takes t) := Multiset.countP_pos.mpr ⟨_, hw, w, rfl⟩
    simp only [countP_takes_taking, if_true] at hle
    omega
  rw [Multiset.cons_swap, places_cons rfl] at hplaces
  rw [Multiset.cons_swap, placed_cons rfl] at hmove
  refine ⟨hplaces, ?_, ?_, ?_, ?_, ?_, ?_, ?_, ?_⟩
  · have hf := h.family
    simp only [Multiset.mem_cons, reduceCtorEq, false_or] at hf
    simp only [Multiset.mem_cons, reduceCtorEq, false_or, hmove]
    exact hf.mono fun y hy => Move.from Kin.refl hx
      (by rw [hseat]; exact ⟨rfl, rfl, rfl, rfl, by simp [Process.hold]⟩) hy
  · have hw := h.waits
    have hregs : p.seat.regs = ∅ := by rw [hseat]; rfl
    simp only [Multiset.mem_cons, reduceCtorEq, false_or, covered_cons, seen_cons] at hw
    simp only [Multiset.mem_cons, reduceCtorEq, false_or, hmove, covered_cons, seen_cons]
    exact hw.move hx (h.placed_uniq hx)
      ⟨p.seat_pid, fun _ hc => .inl (by rwa [p.seat_children] at hc), p.seat_fresh, hregs,
        by simp [Process.hold]⟩
      fun hs => by cases hs
  · simp only [Multiset.mem_cons, reduceCtorEq, false_or, hmove, countP_takes_cons]
    have hne : ∀ {y : Seat}, Placed s.processes (.taking t p.pid ::ₘ T) y → ∀ t', t' ≠ t →
        y.io = some t' → y.pid ≠ p.pid := fun {y} hy t' ht' hy' he => by
      rw [h.placed_uniq hx y hy (he.trans p.seat_pid.symm), hxio] at hy'
      exact ht' (Option.some.inj hy').symm
    refine ⟨?_, ?_, ?_, ?_, ?_, ?_, ?_, ?_, ?_, ?_, ?_, ?_⟩
    · intro t' w hw
      obtain ⟨y, hy, hyp, hyt⟩ := hio.reg t' w hw
      refine ⟨y, .inr ⟨hy, hne hy t' ?_ hyt⟩, hyp, hyt⟩
      rintro rfl
      rw [hnone] at hw
      cases hw
    · rintro y (rfl | ⟨hy, hyp⟩) hs t' ht'
      · cases ht'
      · rcases hio.parked y hy hs t' ht' with hw | hw
        · exact .inl hw
        · rcases Multiset.mem_cons.mp hw with he | hw
          · exact absurd (Token.taking.inj he).2 hyp
          · exact .inr hw
    · rintro y (rfl | ⟨hy, -⟩) hs t' ht'
      · cases ht'
      · obtain ⟨h1, h2, h3, h4⟩ := hio.working y hy hs t' ht'
        exact ⟨h1, h2, fun hr => h3 (Multiset.mem_cons_of_mem hr),
          fun w hw => h4 w (Multiset.mem_cons_of_mem hw)⟩
    · rintro y (rfl | ⟨hy, -⟩) z (rfl | ⟨hz, -⟩) t' hyt hzt
      · rfl
      · cases hyt
      · cases hzt
      · exact hio.unique y hy z hz t' hyt hzt
    · exact fun t' w hw => hio.taken t' w (Multiset.mem_cons_of_mem hw)
    · intro t' w hw
      have ht' : t' ≠ t := by
        rintro rfl
        exact hone w hw
      rcases hio.taker t' w (Multiset.mem_cons_of_mem hw) with ⟨y, hy, hyp, hs, hyt⟩ | hd
      · exact .inl ⟨y, .inr ⟨hy, hne hy t' ht' hyt⟩, hyp, hs, hyt⟩
      · exact .inr ⟨hd.1.mono fun y hy => Move.from Port.refl hx hk hy,
          hd.2.mono fun y hy => Move.from Port.refl hx hk hy⟩
    · intro w hw
      have hd := hio.dead w (Multiset.mem_cons_of_mem hw)
      exact ⟨hd.1.mono fun y hy => Move.from Port.refl hx hk hy, hd.2⟩
    · intro t'
      exact (Multiset.countP_le_of_le _ (Multiset.le_cons_self T _)).trans (hio.one t')
    · exact hio.flight_lt
    · exact fun t' ht' => hio.released_lt t' (Multiset.mem_cons_of_mem ht')
    · exact fun t' w hw => hio.taking_lt t' w (Multiset.mem_cons_of_mem hw)
    · rintro y (rfl | ⟨hy, -⟩) t' ht'
      · cases ht'
      · exact hio.seat_lt y hy t' ht'
  · simp only [Multiset.mem_cons, reduceCtorEq, false_or, hmove]
    rintro y (rfl | ⟨hy, -⟩) hq
    · cases hq
    · simpa using h.queue y hy hq
  · simpa using h.pending
  · simp only [hmove]
    exact fun k he => (h.ended k he.of_take).move hx hk.pid p.seat_fresh fun _ => p.seat_stage
  · simp only [Multiset.mem_cons, reduceCtorEq, false_or, hmove]
    exact fun t' w ht => (h.owned t' w (Multiset.mem_cons_of_mem ht)).move hx hk.pid (.inr rfl)
  · simp only [hmove]
    exact h.waiting.move fun hs => by cases hs

/-- A process comes back into the table. -/
theorem put (h : Inv s (.seat x ::ₘ T)) {p : Process V} (hl : p.isLive = true)
    (hk : Kin x p.seat) (he : Entry x p.seat) (hi : p.seat.io = x.io ∨ p.seat.io = none)
    (hcover : p.seat.stage = .parked → ∀ m c, (m, c) ∈ p.seat.regs → c ∉ s.live →
      Covered T m c p.seat)
    (hio : IoWaits (Move (Placed s.processes (.seat x ::ₘ T)) p.seat) s.nextPid s.ioWaiters
      s.inFlight s.nextIoToken (fun t => Token.released t ∈ T) (fun t w => Token.taking t w ∈ T)
      (fun t => T.countP (Token.takes t)) (fun w => Token.dying w ∈ T))
    (hqueue : p.seat.stage = .queued →
      p.pid ∈ s.queue ∨ Token.enq p.pid ∈ T ∨ Token.deq p.pid ∈ T)
    (hwait : p.seat.stage = .parked → p.seat.regs ≠ ∅ ∨ p.seat.io ≠ none) :
    Inv { s with processes := Function.update s.processes p.pid (some p) } T := by
  have hpid : p.pid = x.pid := p.seat_pid.symm.trans hk.pid.symm
  have hx : Placed s.processes (.seat x ::ₘ T) x := .inr (Multiset.mem_cons_self _ _)
  have hmove := h.places.placed_put hpid hl
  refine ⟨h.places.put hpid hl, ?_, ?_, ?_, ?_, ?_, ?_, ?_, ?_⟩
  · have hf := h.family
    simp only [Multiset.mem_cons, reduceCtorEq, false_or] at hf
    simp only [hmove]
    exact hf.mono fun y hy => Move.from Kin.refl hx hk hy
  · have hw := h.waits
    simp only [Multiset.mem_cons, reduceCtorEq, false_or, covered_cons, seen_cons] at hw
    simp only [hmove]
    exact hw.move hx (h.placed_uniq hx) he hcover
  · simp only [hmove]
    exact hio
  · simp only [hmove]
    rintro y (rfl | ⟨hy, -⟩) hq
    · rw [p.seat_pid]
      exact hqueue hq
    · simpa using h.queue y hy hq
  · simpa using h.pending
  · simp only [hmove]
    intro k hend
    obtain ⟨hold, hne⟩ := HasEnded.of_put hl hend
    exact (h.ended k hold).move hx hk.pid hk.fresh fun he => absurd he.symm (p.seat_pid ▸ hne)
  · simp only [hmove]
    exact fun t w ht => (h.owned t w (Multiset.mem_cons_of_mem ht)).move hx hk.pid hi
  · simp only [hmove]
    exact h.waiting.move hwait

/-- A process that may run comes back, and is to be queued. -/
theorem putRunnable {p : Process V} {A : Finset ℕ}
    (h : Inv s (.seat (p.hold .working A ∅ none) ::ₘ T)) (hr : p.status = .runnable) :
    Inv { s with processes := Function.update s.processes p.pid (some p) } (.enq p.pid ::ₘ T) := by
  have hseat := p.seat_runnable hr
  have henq := h.add_enq p.pid
  rw [Multiset.cons_swap] at henq
  have hx : Placed s.processes (.seat (p.hold .working A ∅ none) ::ₘ .enq p.pid ::ₘ T)
      (p.hold .working A ∅ none) := .inr (Multiset.mem_cons_self _ _)
  have hio := henq.io
  simp only [Multiset.mem_cons, reduceCtorEq, false_or, countP_takes_cons] at hio
  refine henq.put (by simp [Proc.isLive, hr])
    (by rw [hseat]; exact ⟨rfl, rfl, rfl, rfl, by simp [Process.hold]⟩)
    (by rw [hseat]; exact ⟨rfl, fun _ hc => .inl hc, rfl, rfl, Finset.empty_subset _⟩)
    (by rw [hseat]; exact .inr rfl) (by rw [hseat]; exact fun hs => by cases hs) ?_
    (fun _ => .inr (.inl (Multiset.mem_cons_self _ _))) (by rw [hseat]; exact fun hs => by cases hs)
  simp only [Multiset.mem_cons, reduceCtorEq, false_or, countP_takes_cons]
  exact hio.move_none hx (henq.placed_uniq hx)
    (by rw [hseat]; exact ⟨rfl, rfl, .inl rfl, by simp [Process.hold]⟩) rfl (by rw [hseat]; rfl)

/-- A process that waits for others comes back, where each wakeup it may have missed is owed. -/
theorem putWaiting {p : Process V} {A : Finset ℕ} {reason : BlockReason}
    (h : Inv s (.seat (p.hold .working A (regsOf reason) none) ::ₘ T))
    (hr : p.status = .blocked reason) (hio : ioOf reason = none) (hregs : regsOf reason ≠ ∅)
    (hcover : ∀ m c, (m, c) ∈ regsOf reason → Covered T m c p.seat) :
    Inv { s with processes := Function.update s.processes p.pid (some p) } T := by
  have hseat := p.seat_blocked hr
  have hx : Placed s.processes
      (.seat (p.hold .working A (regsOf reason) none) ::ₘ T)
      (p.hold .working A (regsOf reason) none) :=
    .inr (Multiset.mem_cons_self _ _)
  have hio' := h.io
  simp only [Multiset.mem_cons, reduceCtorEq, false_or, countP_takes_cons] at hio'
  refine h.put (by simp [Proc.isLive, hr])
    (by rw [hseat]; exact ⟨rfl, rfl, rfl, rfl, by simp [Process.hold]⟩)
    (by rw [hseat]; exact ⟨rfl, fun _ hc => .inl hc, rfl, rfl, Finset.empty_subset _⟩)
    (by rw [hseat]; exact .inr hio) (fun _ m c hm _ => hcover m c (by rwa [hseat] at hm)) ?_
    (by rw [hseat]; exact fun hs => by cases hs) (by rw [hseat]; exact fun _ => .inl hregs)
  exact hio'.move_none hx (h.placed_uniq hx)
    (by rw [hseat]; exact ⟨rfl, rfl, .inl hio, by simp [Process.hold]⟩) rfl
    (by rw [hseat]; exact hio)

/-- A process that waits for I/O comes back: from now on its token may be given to the backend. -/
theorem putIo {p : Process V} {t : ℕ}
    (h : Inv s (.seat (p.hold .working ∅ ∅ (some t)) ::ₘ T))
    (hr : p.status = .blocked (.io t)) :
    Inv { s with processes := Function.update s.processes p.pid (some p) } (.released t ::ₘ T) := by
  have hseat := p.seat_blocked hr
  have hx : Placed s.processes (.seat (p.hold .working ∅ ∅ (some t)) ::ₘ T)
      (p.hold .working ∅ ∅ (some t)) := .inr (Multiset.mem_cons_self _ _)
  have hio := h.io
  have hreg : s.ioWaiters t = some p.pid := (hio.working _ hx rfl t rfl).1
  simp only [Multiset.mem_cons, reduceCtorEq, false_or, countP_takes_cons] at hio
  have hl : p.isLive = true := by simp [Proc.isLive, hr]
  have hput := h.put hl
    (by rw [hseat]; exact ⟨rfl, rfl, rfl, rfl, by simp [Process.hold]⟩)
    (by rw [hseat]; exact ⟨rfl, fun _ hc => .inl hc, rfl, rfl, Finset.empty_subset _⟩)
    (by rw [hseat]; exact .inl rfl)
    (by rw [hseat]; exact fun _ m c hm => absurd hm (Finset.notMem_empty _))
    (hio.move hx (h.placed_uniq hx)
      (by rw [hseat]; exact ⟨rfl, rfl, .inl rfl, by simp [Process.hold]⟩) (by rw [hseat]; rfl)
      (fun _ t' ht' => .inl (by
        cases ht'
        exact hreg))
      (by rw [hseat]; exact fun hs => by cases hs)
      (fun _ _ _ hs => by cases hs))
    (by rw [hseat]; exact fun hs => by cases hs)
    (by rw [hseat]; exact fun _ => .inr fun he => by cases he)
  refine hput.add_released (.inr ⟨hio.seat_lt _ hx t rfl, fun y hy hs hyt => ?_⟩)
  have hplaced : Placed (Function.update s.processes p.pid (some p)) T p.seat :=
    placed_of_table (by simp) hl
  have hpid := hput.io.unique y hy p.seat hplaced t hyt (by rw [hseat]; rfl)
  rw [hput.placed_uniq hplaced y hy hpid, hseat] at hs
  cases hs

/-- A root that has ended stays in the table. -/
theorem putRoot {p : Process V} (h : Inv s (.seat x ::ₘ T)) (hpid : p.pid = x.pid)
    (hx' : x.stage = .recorded ∧ x.regs = ∅ ∧ x.targets = ∅) (hl : p.isLive = false)
    (hroot : p.parent = none) :
    Inv { s with processes := Function.update s.processes p.pid (some p) } (.seat x ::ₘ T) := by
  have hx : Token.seat x ∈ Token.seat x ::ₘ T := Multiset.mem_cons_self _ _
  have hnot : ¬ InTable s.processes p.pid := hpid ▸ h.places.not_inTable hx
  have htable : ∀ k, InTable (Function.update s.processes p.pid (some p)) k ↔
      InTable s.processes k := fun k => by
    by_cases hk : k = p.pid
    · subst hk
      simp only [hnot, iff_false]
      rintro ⟨q, hq, hql⟩
      simp only [Function.update_self, Option.some.injEq] at hq
      rw [← hq, hl] at hql
      cases hql
    · simp [InTable, hk]
  have hplaced : Placed (Function.update s.processes p.pid (some p)) (.seat x ::ₘ T) =
      Placed s.processes (.seat x ::ₘ T) := by
    funext y
    by_cases hy : y.pid = p.pid
    · have h1 : ¬ ∃ q, Function.update s.processes p.pid (some p) y.pid = some q ∧
          q.isLive = true ∧ q.seat = y := fun hq =>
        (htable y.pid).not.mpr (hy ▸ hnot) (hq.imp fun q hq => ⟨hq.1, hq.2.1⟩)
      have h2 : ¬ ∃ q, s.processes y.pid = some q ∧ q.isLive = true ∧ q.seat = y :=
        fun hq => hnot (hy ▸ hq.imp fun q hq => ⟨hq.1, hq.2.1⟩)
      simp only [Placed, h1, h2]
    · simp [Placed, hy]
  refine ⟨?_, ?_, ?_, ?_, ?_, h.pending, ?_, ?_, ?_⟩
  · refine ⟨fun k q hq => ?_, fun k hk => h.places.table k ((htable k).mp hk),
      fun k hk => h.places.hands k fun ht => hk ((htable k).mpr ht), h.places.hand,
      fun k q hq hql => ?_⟩
    · by_cases hk : k = p.pid
      · subst hk
        simp only [Function.update_self, Option.some.injEq] at hq
        exact hq ▸ rfl
      · simp only [Function.update_of_ne hk] at hq
        exact h.places.key k q hq
    · by_cases hk : k = p.pid
      · subst hk
        simp only [Function.update_self, Option.some.injEq] at hq
        exact hq ▸ hroot
      · simp only [Function.update_of_ne hk] at hq
        exact h.places.root k q hq hql
  · simpa only [hplaced] using h.family
  · simpa only [hplaced] using h.waits
  · simpa only [hplaced] using h.io
  · simpa only [hplaced] using h.queue
  · simp only [hplaced]
    rintro k ⟨q, hq, hql⟩
    by_cases hk : k = p.pid
    · have hplace : Placed s.processes (.seat x ::ₘ T) x := .inr hx
      rw [hk, hpid]
      refine ⟨h.family.pos x hplace, fun y hy => ⟨h.fresh_ne hplace hy, fun he => ?_⟩⟩
      rw [h.placed_uniq hplace y hy he]
      exact hx'
    · exact h.ended k ⟨q, by rwa [Function.update_of_ne hk] at hq, hql⟩
  · simpa only [hplaced] using h.owned
  · simpa only [hplaced] using h.waiting

/-! ## A process in the hands of a thread -/

/-- A process stays where it is, and its seat changes. -/
theorem swap (h : Inv s (.seat x ::ₘ T)) {y : Seat} (hk : Kin x y) (he : Entry x y)
    (hs : y.stage ≠ .queued ∧ y.stage ≠ .parked) (hrec : x.stage ≠ .recorded)
    (hi : y.io = x.io ∨ y.io = none)
    (hio : IoWaits (Move (Placed s.processes (.seat x ::ₘ T)) y) s.nextPid s.ioWaiters s.inFlight
      s.nextIoToken (fun t => Token.released t ∈ T) (fun t w => Token.taking t w ∈ T)
      (fun t => T.countP (Token.takes t)) (fun w => Token.dying w ∈ T)) :
    Inv s (.seat y ::ₘ T) := by
  have hx : Placed s.processes (.seat x ::ₘ T) x := .inr (Multiset.mem_cons_self _ _)
  have hmove := h.places.placed_swap hk.pid.symm
  refine ⟨h.places.swap hk.pid.symm hs, ?_, ?_, ?_, ?_, ?_, ?_, ?_, ?_⟩
  · have hf := h.family
    simp only [Multiset.mem_cons, reduceCtorEq, false_or] at hf
    simp only [Multiset.mem_cons, reduceCtorEq, false_or, hmove]
    exact hf.mono fun z hz => Move.from Kin.refl hx hk hz
  · have hw := h.waits
    simp only [Multiset.mem_cons, reduceCtorEq, false_or, covered_cons, seen_cons] at hw
    simp only [Multiset.mem_cons, reduceCtorEq, false_or, covered_cons, seen_cons, hmove]
    exact hw.move hx (h.placed_uniq hx) he fun hp => absurd hp hs.2
  · simp only [Multiset.mem_cons, reduceCtorEq, false_or, countP_takes_cons, hmove]
    exact hio
  · simp only [Multiset.mem_cons, reduceCtorEq, false_or, hmove]
    rintro z (rfl | ⟨hz, -⟩) hq
    · exact absurd hq hs.1
    · simpa using h.queue z hz hq
  · simpa using h.pending
  · simp only [hmove]
    exact fun k hend => (h.ended k hend).move hx hk.pid hk.fresh fun _ => hrec
  · simp only [Multiset.mem_cons, reduceCtorEq, false_or, hmove]
    exact fun t w ht => (h.owned t w (Multiset.mem_cons_of_mem ht)).move hx hk.pid hi
  · simp only [hmove]
    exact h.waiting.move fun hp => absurd hp hs.2

/-- A process that waits for nothing changes its stage and forgets what it found live. -/
theorem restage {p : Process V} {stage : Stage} {A : Finset ℕ}
    (h : Inv s (.seat (p.hold .working A ∅ none) ::ₘ T))
    (hs : stage = .working ∨ stage = .doomed) : Inv s (.seat (p.held stage) ::ₘ T) := by
  have hx : Placed s.processes (.seat (p.hold .working A ∅ none) ::ₘ T)
      (p.hold .working A ∅ none) := .inr (Multiset.mem_cons_self _ _)
  have hio := h.io
  simp only [Multiset.mem_cons, reduceCtorEq, false_or, countP_takes_cons] at hio
  refine h.swap ⟨rfl, rfl, rfl, rfl, ?_⟩ ⟨rfl, fun _ hc => .inl hc, rfl, rfl, Finset.empty_subset _⟩
    ?_ (by simp [Process.hold]) (.inr rfl)
    (hio.move_none hx (h.placed_uniq hx) ⟨rfl, rfl, .inl rfl, ?_⟩ rfl rfl)
  · rcases hs with rfl | rfl <;> simp [Process.hold]
  · rcases hs with rfl | rfl <;> simp [Process.hold]
  · simp [Process.hold]

/-- A thread finds a child live before it waits for it. -/
theorem target {p : Process V} {A : Finset ℕ} {c : ℕ}
    (h : Inv s (.seat (p.hold .working A ∅ none) ::ₘ T)) (hc : c ∈ p.children)
    (hlive : c ∈ s.live) : Inv s (.seat (p.hold .working (insert c A) ∅ none) ::ₘ T) := by
  have hx : Placed s.processes (.seat (p.hold .working A ∅ none) ::ₘ T)
      (p.hold .working A ∅ none) := .inr (Multiset.mem_cons_self _ _)
  have hmove := h.places.placed_swap (y := p.hold .working (insert c A) ∅ none) rfl
  have hio := h.io
  simp only [Multiset.mem_cons, reduceCtorEq, false_or, countP_takes_cons] at hio
  have hf := h.family
  simp only [Multiset.mem_cons, reduceCtorEq, false_or] at hf
  have hw := h.waits
  simp only [Multiset.mem_cons, reduceCtorEq, false_or, covered_cons, seen_cons] at hw
  have hfresh : ∀ y, Move (Placed s.processes (.seat (p.hold .working A ∅ none) ::ₘ T))
      (p.hold .working (insert c A) ∅ none) y → ∃ z,
      Placed s.processes (.seat (p.hold .working A ∅ none) ::ₘ T) z ∧ z.fresh = y.fresh := by
    rintro y (rfl | ⟨hy, -⟩)
    · exact ⟨_, hx, rfl⟩
    · exact ⟨y, hy, rfl⟩
  refine ⟨h.places.swap rfl (by simp [Process.hold]), ?_, ?_, ?_, ?_, by simpa using h.pending,
    ?_, ?_, ?_⟩
  · have hk : Kin (p.hold .working A ∅ none) (p.hold .working (insert c A) ∅ none) :=
      ⟨rfl, rfl, rfl, rfl, .inl⟩
    simp only [Multiset.mem_cons, reduceCtorEq, false_or, hmove]
    exact hf.mono fun z hz => Move.from Kin.refl hx hk hz
  · simp only [Multiset.mem_cons, reduceCtorEq, false_or, covered_cons, seen_cons, hmove]
    refine ⟨fun m d w => ?_, ?_, ?_, ?_, fun m d hd => (hw.gone m d hd).mono hfresh,
      fun m d w hd => (hw.stale_gone m d w hd).mono hfresh, ?_, ?_⟩
    · rw [hw.reg]
      constructor
      · rintro ⟨y, hy, hyw, hr⟩
        by_cases he : y.pid = p.pid
        · rw [h.placed_uniq hx y hy he] at hr
          exact absurd hr (Finset.notMem_empty _)
        · exact ⟨y, .inr ⟨hy, he⟩, hyw, hr⟩
      · rintro ⟨y, rfl | ⟨hy, -⟩, hyw, hr⟩
        · exact absurd hr (Finset.notMem_empty _)
        · exact ⟨y, hy, hyw, hr⟩
    · rintro y (rfl | ⟨hy, -⟩) m d hr
      · exact absurd hr (Finset.notMem_empty _)
      · exact hw.reg_kid y hy m d hr
    · rintro y (rfl | ⟨hy, -⟩) d hd
      · rcases Finset.mem_insert.mp hd with rfl | hd
        · exact hc
        · exact hw.target_kid _ hx d hd
      · exact hw.target_kid y hy d hd
    · rintro y (rfl | ⟨hy, -⟩) hs
      · cases hs
      · exact hw.cover y hy hs
    · rintro m d w hd y (rfl | ⟨hy, -⟩) hpid
      · have hold := hw.stale_off m d w hd _ hx hpid
        refine ⟨hold.1, fun hin => ?_⟩
        rcases Finset.mem_insert.mp hin with rfl | hin
        · exact (hw.stale_gone m d w hd).2.1 hlive
        · exact hold.2 hin
      · exact hw.stale_off m d w hd y hy hpid
    · intro w hw'
      refine ⟨(hw.born w hw').1, fun y hy => ?_⟩
      obtain ⟨z, hz, hfr⟩ := hfresh y hy
      rw [← hfr]
      exact (hw.born w hw').2 z hz
  · simp only [Multiset.mem_cons, reduceCtorEq, false_or, countP_takes_cons, hmove]
    exact hio.move_none hx (h.placed_uniq hx) ⟨rfl, rfl, .inl rfl, by simp [Process.hold]⟩ rfl rfl
  · simp only [Multiset.mem_cons, reduceCtorEq, false_or, hmove]
    rintro z (rfl | ⟨hz, -⟩) hq
    · cases hq
    · simpa using h.queue z hz hq
  · simp only [hmove]
    exact fun k hk => (h.ended k hk).move hx rfl rfl fun _ => by simp [Process.hold]
  · simp only [Multiset.mem_cons, reduceCtorEq, false_or, hmove]
    exact fun t' w ht => (h.owned t' w (Multiset.mem_cons_of_mem ht)).move hx rfl (.inl rfl)
  · simp only [hmove]
    exact h.waiting.move fun hs => by cases hs

/-- The entries of one process in the maps of waiters change. -/
theorem setRegs {p : Process V} {stage : Stage} {A : Finset ℕ} {R R' : Finset (WaitMap × ℕ)}
    {io : Option ℕ} {W : WaitMap → ℕ → List ℕ}
    (h : Inv s (.seat (p.hold stage A R io) ::ₘ T)) (hs : stage ≠ .recorded)
    (hkids : ∀ m c, (m, c) ∈ R' → c ∈ p.children)
    (hW : ∀ m c w, w ∈ W m c ↔ (if w = p.pid then (m, c) ∈ R' else w ∈ s.waiters m c))
    (htarget : ∀ m c, (m, c) ∈ R' → (m, c) ∈ R ∨ c ∈ A) :
    Inv { s with waiters := W } (.seat (p.hold stage A R' io) ::ₘ T) := by
  have hmem : Token.seat (p.hold stage A R io) ∈ Token.seat (p.hold stage A R io) ::ₘ T :=
    Multiset.mem_cons_self _ _
  have hx : Placed s.processes (.seat (p.hold stage A R io) ::ₘ T) (p.hold stage A R io) :=
    .inr hmem
  have hstage := h.places.hand _ hmem
  have hmove := h.places.placed_swap (y := p.hold stage A R' io) rfl
  have hio := h.io
  simp only [Multiset.mem_cons, reduceCtorEq, false_or, countP_takes_cons] at hio
  have hf := h.family
  simp only [Multiset.mem_cons, reduceCtorEq, false_or] at hf
  have hw := h.waits
  simp only [Multiset.mem_cons, reduceCtorEq, false_or, covered_cons, seen_cons] at hw
  have hfresh : ∀ y, Move (Placed s.processes (.seat (p.hold stage A R io) ::ₘ T))
      (p.hold stage A R' io) y → ∃ z,
      Placed s.processes (.seat (p.hold stage A R io) ::ₘ T) z ∧ z.fresh = y.fresh := by
    rintro y (rfl | ⟨hy, -⟩)
    · exact ⟨_, hx, rfl⟩
    · exact ⟨y, hy, rfl⟩
  refine ⟨h.places.swap rfl hstage, ?_, ?_, ?_, ?_, by simpa using h.pending, ?_, ?_, ?_⟩
  · have hk : Kin (p.hold stage A R io) (p.hold stage A R' io) := ⟨rfl, rfl, rfl, rfl, .inl⟩
    simp only [Multiset.mem_cons, reduceCtorEq, false_or, hmove]
    exact hf.mono fun z hz => Move.from Kin.refl hx hk hz
  · simp only [Multiset.mem_cons, reduceCtorEq, false_or, covered_cons, seen_cons, hmove]
    refine ⟨fun m d w => ?_, ?_, ?_, ?_, fun m d hd => (hw.gone m d hd).mono hfresh,
      fun m d w hd => (hw.stale_gone m d w hd).mono hfresh, ?_, ?_⟩
    · rw [hW]
      by_cases hwp : w = p.pid
      · rw [if_pos hwp]
        constructor
        · exact fun hr => ⟨_, .inl rfl, hwp.symm, hr⟩
        · rintro ⟨y, rfl | ⟨-, hne⟩, hyw, hr⟩
          · exact hr
          · exact absurd (hyw.trans hwp) hne
      · rw [if_neg hwp, hw.reg]
        constructor
        · rintro ⟨y, hy, hyw, hr⟩
          exact ⟨y, .inr ⟨hy, fun he => hwp (hyw.symm.trans he)⟩, hyw, hr⟩
        · rintro ⟨y, rfl | ⟨hy, -⟩, hyw, hr⟩
          · exact absurd hyw.symm hwp
          · exact ⟨y, hy, hyw, hr⟩
    · rintro y (rfl | ⟨hy, -⟩) m d hr
      · exact hkids m d hr
      · exact hw.reg_kid y hy m d hr
    · rintro y (rfl | ⟨hy, -⟩) d hd
      · exact hw.target_kid _ hx d hd
      · exact hw.target_kid y hy d hd
    · rintro y (rfl | ⟨hy, -⟩) hs
      · exact absurd hs hstage.2
      · exact hw.cover y hy hs
    · rintro m d w hd y (rfl | ⟨hy, -⟩) hpid
      · have hold := hw.stale_off m d w hd _ hx hpid
        refine ⟨fun hin => ?_, hold.2⟩
        rcases htarget m d hin with hin | hin
        · exact hold.1 hin
        · exact hold.2 hin
      · exact hw.stale_off m d w hd y hy hpid
    · intro w hw'
      refine ⟨(hw.born w hw').1, fun y hy => ?_⟩
      obtain ⟨z, hz, hfr⟩ := hfresh y hy
      rw [← hfr]
      exact (hw.born w hw').2 z hz
  · simp only [Multiset.mem_cons, reduceCtorEq, false_or, countP_takes_cons, hmove]
    exact hio.move hx (h.placed_uniq hx) ⟨rfl, rfl, .inl rfl, id⟩ rfl
      (fun hs => absurd hs hstage.2) (fun hs t ht => hio.working _ hx hs t ht)
      fun _ _ _ hs => absurd hs hstage.2
  · simp only [Multiset.mem_cons, reduceCtorEq, false_or, hmove]
    rintro z (rfl | ⟨hz, -⟩) hq
    · exact absurd hq hstage.1
    · simpa using h.queue z hz hq
  · simp only [hmove]
    exact fun k hk => (h.ended k hk).move hx rfl rfl fun _ => hs
  · simp only [Multiset.mem_cons, reduceCtorEq, false_or, hmove]
    exact fun t' w ht => (h.owned t' w (Multiset.mem_cons_of_mem ht)).move hx rfl (.inl rfl)
  · simp only [hmove]
    exact h.waiting.move fun hp => absurd hp hstage.2

/-- `waiters.entry(child).or_default().push(waiter)`. -/
theorem waitersPush {p : Process V} {A : Finset ℕ} {R : Finset (WaitMap × ℕ)} {m : WaitMap} {c : ℕ}
    (h : Inv s (.seat (p.hold .working A R none) ::ₘ T)) (hc : c ∈ A) :
    Inv { s with waiters := Function.update s.waiters m (addWaiter (s.waiters m) c p.pid) }
      (.seat (p.hold .working A (insert (m, c) R) none) ::ₘ T) := by
  have hx : Placed s.processes (.seat (p.hold .working A R none) ::ₘ T)
      (p.hold .working A R none) := .inr (Multiset.mem_cons_self _ _)
  have hin : ∀ m' c', p.pid ∈ s.waiters m' c' ↔ (m', c') ∈ R := fun m' c' => by
    rw [h.waits.reg]
    constructor
    · rintro ⟨y, hy, hyp, hr⟩
      rwa [h.placed_uniq hx y hy hyp] at hr
    · exact fun hr => ⟨_, hx, rfl, hr⟩
  refine h.setRegs (by simp) (fun m' c' hr => ?_) (fun m' c' w => ?_) fun m' c' hr => ?_
  · rcases Finset.mem_insert.mp hr with he | hr
    · cases he
      exact h.waits.target_kid _ hx c hc
    · exact h.waits.reg_kid _ hx m' c' hr
  · by_cases hw : w = p.pid
    · subst hw
      rw [if_pos rfl, Finset.mem_insert, ← hin]
      by_cases hm : m' = m
      · subst hm
        by_cases hc' : c' = c
        · subst hc'
          simp [addWaiter]
        · simp [addWaiter, hc']
      · simp [hm]
    · rw [if_neg hw]
      by_cases hm : m' = m
      · subst hm
        by_cases hc' : c' = c
        · subst hc'
          simp [addWaiter, hw]
        · simp [addWaiter, hc']
      · simp [hm]
  · rcases Finset.mem_insert.mp hr with he | hr
    · cases he
      exact .inr hc
    · exact .inl hr

/-- `remove_waiter`, by the thread that has the process. -/
theorem removeWaiter {p : Process V} {stage : Stage} {A : Finset ℕ} {R : Finset (WaitMap × ℕ)}
    {io : Option ℕ} {m : WaitMap} {c : ℕ} (h : Inv s (.seat (p.hold stage A R io) ::ₘ T))
    (hs : stage ≠ .recorded) :
    Inv { s with waiters := Function.update s.waiters m (Hiko.removeWaiter (s.waiters m) c p.pid) }
      (.seat (p.hold stage A (R.erase (m, c)) io) ::ₘ T) := by
  have hx : Placed s.processes (.seat (p.hold stage A R io) ::ₘ T) (p.hold stage A R io) :=
    .inr (Multiset.mem_cons_self _ _)
  have hin : ∀ m' c', p.pid ∈ s.waiters m' c' ↔ (m', c') ∈ R := fun m' c' => by
    rw [h.waits.reg]
    constructor
    · rintro ⟨y, hy, hyp, hr⟩
      rwa [h.placed_uniq hx y hy hyp] at hr
    · exact fun hr => ⟨_, hx, rfl, hr⟩
  refine h.setRegs hs (fun m' c' hr => h.waits.reg_kid _ hx m' c' (Finset.mem_of_mem_erase hr))
    (fun m' c' w => ?_) fun m' c' hr => .inl (Finset.mem_of_mem_erase hr)
  by_cases hw : w = p.pid
  · subst hw
    rw [if_pos rfl, Finset.mem_erase, ← hin]
    by_cases hm : m' = m
    · subst hm
      by_cases hc' : c' = c
      · subst hc'
        simp [Hiko.removeWaiter]
      · simp [Hiko.removeWaiter, hc']
    · simp [hm]
  · rw [if_neg hw]
    by_cases hm : m' = m
    · subst hm
      by_cases hc' : c' = c
      · subst hc'
        simp [Hiko.removeWaiter, hw]
      · simp [Hiko.removeWaiter, hc']
    · simp [hm]

/-- `remove_waiter`, where the process is not registered. -/
theorem removeWaiter_none (h : Inv s T) {m : WaitMap} {c w : ℕ} (hw : w ∉ s.waiters m c) :
    Inv { s with
      waiters := Function.update s.waiters m (Hiko.removeWaiter (s.waiters m) c w) } T := by
  have hsame : Function.update s.waiters m (Hiko.removeWaiter (s.waiters m) c w) = s.waiters := by
    have hfilter : (s.waiters m c).filter (· ≠ w) = s.waiters m c :=
      List.filter_eq_self.mpr fun v hv => by
        rw [decide_eq_true_eq]
        rintro rfl
        exact hw hv
    rw [Hiko.removeWaiter, hfilter, Function.update_eq_self, Function.update_eq_self]
  rw [hsame]
  exact h

/-- `waiters.remove(&child)`, where the child has no waiters. -/
theorem waitersRemove_none (h : Inv s T) {m : WaitMap} {c : ℕ} (hc : s.waiters m c = []) :
    Inv { s with
      waiters := Function.update s.waiters m (Function.update (s.waiters m) c []) } T := by
  have hsame : Function.update s.waiters m (Function.update (s.waiters m) c []) = s.waiters := by
    rw [← hc, Function.update_eq_self, Function.update_eq_self]
  rw [hsame]
  exact h

/-! ## Outcomes -/

/-- A parent takes the outcome of a child that has ended. -/
theorem consumeTombstone {p : Process V} {c : ℕ} (h : Inv s (.seat (p.held .working) ::ₘ T))
    (hc : c ∈ p.children) (hdead : c ∉ s.live) :
    Inv { s with tombstones := Function.update s.tombstones c none }
      (.seat ({ p with children := p.children.erase c }.held .working) ::ₘ T) := by
  have hx : Placed s.processes (.seat (p.held .working) ::ₘ T) (p.held .working) :=
    .inr (Multiset.mem_cons_self _ _)
  let p' : Process V := { p with children := p.children.erase c }
  have hmove := h.places.placed_swap (y := p'.held .working) rfl
  have hio := h.io
  simp only [Multiset.mem_cons, reduceCtorEq, false_or, countP_takes_cons] at hio
  have hf := h.family
  simp only [Multiset.mem_cons, reduceCtorEq, false_or] at hf
  have hw := h.waits
  simp only [Multiset.mem_cons, reduceCtorEq, false_or, covered_cons, seen_cons] at hw
  have hpid : ∀ y, Placed s.processes (.seat (p.held .working) ::ₘ T) y → y.pid ≠ c := by
    rintro y hy rfl
    exact hdead (h.places.live_of_placed hy)
  have hother : ∀ y, Placed s.processes (.seat (p.held .working) ::ₘ T) y → y.pid ≠ p.pid →
      c ∉ y.children := fun y hy hne hcy => hne (hf.disjoint y hy _ hx c hcy hc)
  -- each seat has lost no child but `c`
  have hold : ∀ y, Move (Placed s.processes (.seat (p.held .working) ::ₘ T)) (p'.held .working) y →
      ∃ z, Placed s.processes (.seat (p.held .working) ::ₘ T) z ∧ z.pid = y.pid ∧
        z.parent = y.parent ∧ z.fresh = y.fresh ∧ z.stage = y.stage ∧
        ∀ d, d ∈ y.children ↔ d ∈ z.children ∧ d ≠ c := by
    rintro y (rfl | ⟨hy, hne⟩)
    · exact ⟨_, hx, rfl, rfl, rfl, rfl, fun d => by
        rw [and_comm]
        exact Finset.mem_erase⟩
    · refine ⟨y, hy, rfl, rfl, rfl, rfl, fun d => ⟨fun hd => ⟨hd, ?_⟩, fun hd => hd.1⟩⟩
      rintro rfl
      exact hother y hy hne hd
  have htomb : ∀ d r, Function.update s.tombstones c none d = some r →
      d ≠ c ∧ s.tombstones d = some r := fun d r hr => by
    by_cases hd : d = c
    · simp [hd] at hr
    · exact ⟨hd, by rwa [Function.update_of_ne hd] at hr⟩
  refine ⟨h.places.swap rfl (by simp [Process.hold]), ?_, ?_, ?_, ?_, by simpa using h.pending,
    ?_, ?_, ?_⟩
  · simp only [Multiset.mem_cons, reduceCtorEq, false_or]
    rw [show Placed s.processes (.seat (Process.held _ .working) ::ₘ T) = _ from hmove]
    constructor
    case pos =>
      intro y hy
      obtain ⟨z, hz, e1, -⟩ := hold y hy
      exact e1 ▸ hf.pos z hz
    case child_lt =>
      intro y hy d hd
      obtain ⟨z, hz, e1, -, -, -, e5⟩ := hold y hy
      exact e1 ▸ hf.child_lt z hz d ((e5 d).mp hd).1
    case parent_of =>
      intro y hy w hw' hwy
      obtain ⟨z, hz, e1, -, -, -, e5⟩ := hold y hy
      obtain ⟨v, hv, f1, f2, -⟩ := hold w hw'
      rw [← f2, ← e1]
      refine hf.parent_of z hz v hv ?_
      rw [f1]
      exact ((e5 _).mp hwy).1
    case child_of =>
      intro y hy w hw' hwy
      obtain ⟨z, hz, e1, -, -, -, e5⟩ := hold y hy
      obtain ⟨v, hv, f1, f2, -⟩ := hold w hw'
      rw [e5, ← f1]
      refine ⟨hf.child_of z hz v hv ?_, hpid v hv⟩
      rw [f2, e1]
      exact hwy
    case disjoint =>
      intro y hy w hw' d hdy hdw
      obtain ⟨z, hz, e1, -, -, -, e5⟩ := hold y hy
      obtain ⟨v, hv, f1, -, -, -, f5⟩ := hold w hw'
      rw [← e1, ← f1]
      exact hf.disjoint z hz v hv d ((e5 d).mp hdy).1 ((f5 d).mp hdw).1
    case parent_lt =>
      intro y hy a ha
      obtain ⟨z, hz, -, e2, -⟩ := hold y hy
      exact hf.parent_lt z hz a (e2.trans ha)
    case fresh =>
      intro y hy d hd
      rcases hy with rfl | ⟨hy, hne⟩
      · cases hd
      · obtain ⟨h1, h2, h3⟩ := hf.fresh y hy d hd
        refine ⟨h1, h2, ?_⟩
        rw [Function.update_apply, h3]
        split <;> rfl
    case fresh_parent =>
      intro y hy d hd w hw'
      obtain ⟨z, hz, -, -, e3, -⟩ := hold y hy
      obtain ⟨v, hv, -, f2, -⟩ := hold w hw'
      rw [← f2]
      exact hf.fresh_parent z hz d (e3.trans hd) v hv
    case fresh_tomb =>
      intro y hy d hd d' r hr
      obtain ⟨z, hz, -, -, e3, -⟩ := hold y hy
      exact hf.fresh_tomb z hz d (e3.trans hd) d' r (htomb d' r hr).2
    case kids =>
      intro y hy d hd
      obtain ⟨z, hz, -, -, e3, -, e5⟩ := hold y hy
      obtain ⟨hdz, hdc⟩ := (e5 d).mp hd
      rw [Function.update_of_ne hdc, ← e3]
      exact hf.kids z hz d hdz
    case tomb_lt => exact fun d r hr => hf.tomb_lt d r (htomb d r hr).2
    case tomb_owner =>
      intro d r hr y hy hd
      obtain ⟨z, hz, e1, -, -, -, e5⟩ := hold y hy
      rw [← e1]
      exact hf.tomb_owner d r (htomb d r hr).2 z hz ((e5 d).mp hd).1
    case tomb_kid =>
      intro d r hr y hy hp
      obtain ⟨z, hz, e1, -, -, -, e5⟩ := hold y hy
      obtain ⟨hdc, hr'⟩ := htomb d r hr
      exact (e5 d).mpr ⟨hf.tomb_kid d r hr' z hz (hp.trans e1.symm), hdc⟩
    case tomb_parent => exact fun d r hr => hf.tomb_parent d r (htomb d r hr).2
    case recorded =>
      intro y hy hs w hw' hp
      obtain ⟨z, hz, e1, e2, -, e4, -⟩ := hold y hy
      obtain ⟨v, hv, f1, -⟩ := hold w hw'
      rw [← e1, Function.update_of_ne (hpid z hz)]
      refine hf.recorded z hz (e4.trans hs) v hv ?_
      rw [e2, f1]
      exact hp
    case reaped =>
      intro d hd
      refine ⟨(hf.reaped d hd).1, fun y hy hdy => ?_⟩
      obtain ⟨z, hz, -, -, -, -, e5⟩ := hold y hy
      exact (hf.reaped d hd).2 z hz ((e5 d).mp hdy).1
  · simp only [Multiset.mem_cons, reduceCtorEq, false_or, covered_cons, seen_cons]
    rw [show Placed s.processes (.seat (Process.held _ .working) ::ₘ T) = _ from hmove]
    exact hw.move hx (h.placed_uniq hx)
      ⟨rfl, fun _ _ => .inr ⟨Finset.notMem_empty _, fun _ => Finset.notMem_empty _⟩, rfl, rfl,
        Finset.Subset.refl _⟩ fun hs => by cases hs
  · simp only [Multiset.mem_cons, reduceCtorEq, false_or, countP_takes_cons]
    rw [show Placed s.processes (.seat (Process.held _ .working) ::ₘ T) = _ from hmove]
    exact hio.move_none hx (h.placed_uniq hx) ⟨rfl, rfl, .inl rfl, id⟩ rfl rfl
  · simp only [Multiset.mem_cons, reduceCtorEq, false_or]
    rw [show Placed s.processes (.seat (Process.held _ .working) ::ₘ T) = _ from hmove]
    rintro z (rfl | ⟨hz, -⟩) hq
    · cases hq
    · simpa using h.queue z hz hq
  · rw [show Placed s.processes (.seat (Process.held _ .working) ::ₘ T) = _ from hmove]
    exact fun k hk => (h.ended k hk).move hx rfl rfl fun _ => by simp [Process.hold]
  · simp only [Multiset.mem_cons, reduceCtorEq, false_or]
    rw [show Placed s.processes (.seat (Process.held _ .working) ::ₘ T) = _ from hmove]
    exact fun t' w ht => (h.owned t' w (Multiset.mem_cons_of_mem ht)).move hx rfl (.inl rfl)
  · rw [show Placed s.processes (.seat (Process.held _ .working) ::ₘ T) = _ from hmove]
    exact h.waiting.move fun hs => by cases hs

/-- The outcome of a child whose parent is gone is dropped. -/
theorem reapTombstone {c : ℕ} (h : Inv s (.reap c ::ₘ T)) :
    Inv { s with tombstones := Function.update s.tombstones c none } T := by
  have hf := h.family
  have hno := (hf.reaped c (.inl (Multiset.mem_cons_self _ _))).2
  simp only [Multiset.mem_cons, reduceCtorEq, false_or, placed_cons, Token.reap.injEq] at hf hno
  have htomb : ∀ d r, Function.update s.tombstones c none d = some r →
      d ≠ c ∧ s.tombstones d = some r := fun d r hr => by
    by_cases hd : d = c
    · simp [hd] at hr
    · exact ⟨hd, by rwa [Function.update_of_ne hd] at hr⟩
  refine ⟨by simpa using h.places, ?_, by simpa using h.waits, by simpa using h.io,
    by simpa using h.queue, by simpa using h.pending,
    by simpa using h.ended,
    by simpa using h.owned, by simpa using h.waiting⟩
  exact { hf with
    fresh := fun y hy d hd => by
      obtain ⟨h1, h2, h3⟩ := hf.fresh y hy d hd
      refine ⟨h1, h2, ?_⟩
      show Function.update s.tombstones c none d = none
      rw [Function.update_apply, h3]
      split <;> rfl
    fresh_tomb := fun y hy d hd d' r hr => hf.fresh_tomb y hy d hd d' r (htomb d' r hr).2
    kids := fun y hy d hd => by
      have hdc : d ≠ c := by
        rintro rfl
        exact hno y hy hd
      show d ∈ s.live ∨ y.fresh = some d ∨ (Function.update s.tombstones c none d).isSome = true
      rw [Function.update_of_ne hdc]
      exact hf.kids y hy d hd
    tomb_lt := fun d r hr => hf.tomb_lt d r (htomb d r hr).2
    tomb_owner := fun d r hr => hf.tomb_owner d r (htomb d r hr).2
    tomb_kid := fun d r hr => hf.tomb_kid d r (htomb d r hr).2
    tomb_parent := fun d r hr => by
      obtain ⟨hd, hr'⟩ := htomb d r hr
      rcases hf.tomb_parent d r hr' with hl | hre | (he | hre)
      · exact .inl hl
      · exact .inr (.inl hre)
      · exact absurd he hd
      · exact .inr (.inr hre)
    recorded := fun y hy hs x hx hp => by
      have hyc : y.pid ≠ c := by
        rintro rfl
        exact hno x hx (hf.child_of x hx y hy hp)
      show (Function.update s.tombstones c none y.pid).isSome = true
      rw [Function.update_of_ne hyc]
      exact hf.recorded y hy hs x hx hp
    reaped := fun d hd => hf.reaped d (hd.imp_left .inr) }

/-- A child that ends leaves its outcome. -/
theorem recordTombstone {p : Process V} {a : ℕ} {o : ChildOutcome}
    (h : Inv s (.seat (p.held .doomed) ::ₘ T)) (ha : p.parent = some a) :
    Inv { s with tombstones := Function.update s.tombstones p.pid (some ⟨a, o⟩) }
      (.seat (p.held .recorded) ::ₘ .recheck p.pid ::ₘ T) := by
  have hx : Placed s.processes (.seat (p.held .doomed) ::ₘ T) (p.held .doomed) :=
    .inr (Multiset.mem_cons_self _ _)
  have hlive : p.pid ∈ s.live := h.places.live_of_placed hx
  have hmove := h.places.placed_swap (y := p.held .recorded) rfl
  have hplaces := h.places.swap (y := p.held .recorded) rfl (by simp [Process.hold])
  have hf := h.family
  simp only [Multiset.mem_cons, reduceCtorEq, false_or] at hf
  have hw := h.waits
  simp only [Multiset.mem_cons, reduceCtorEq, false_or, covered_cons, seen_cons] at hw
  have hio := h.io
  simp only [Multiset.mem_cons, reduceCtorEq, false_or, countP_takes_cons] at hio
  have hk : ∀ y, Move (Placed s.processes (.seat (p.held .doomed) ::ₘ T)) (p.held .recorded) y →
      ∃ z, Placed s.processes (.seat (p.held .doomed) ::ₘ T) z ∧ z.pid = y.pid ∧
        z.parent = y.parent ∧ z.children = y.children ∧ z.fresh = y.fresh ∧
        (y.stage = .recorded → z.stage = .recorded ∨ y.pid = p.pid) := by
    rintro y (rfl | ⟨hy, -⟩)
    · exact ⟨_, hx, rfl, rfl, rfl, rfl, fun _ => .inr rfl⟩
    · exact ⟨y, hy, rfl, rfl, rfl, rfl, .inl⟩
  have htomb : ∀ d r, Function.update s.tombstones p.pid (some ⟨a, o⟩) d = some r →
      (d = p.pid ∧ r.parent = a) ∨ s.tombstones d = some r := fun d r hr => by
    by_cases hd : d = p.pid
    · subst hd
      simp only [Function.update_self, Option.some.injEq] at hr
      exact .inl ⟨rfl, hr ▸ rfl⟩
    · exact .inr (by rwa [Function.update_of_ne hd] at hr)
  have hsome : ∀ d, (s.tombstones d).isSome = true →
      (Function.update s.tombstones p.pid (some ⟨a, o⟩) d).isSome = true := fun d hd => by
    rw [Function.update_apply]
    split
    · rfl
    · exact hd
  rw [Multiset.cons_swap]
  refine ⟨by rwa [places_cons rfl], ?_, ?_, ?_, ?_, by simpa using h.pending, ?_, ?_, ?_⟩
  · simp only [Multiset.mem_cons, reduceCtorEq, false_or, placed_cons, hmove,
      Token.recheck.injEq]
    constructor
    case pos =>
      intro y hy
      obtain ⟨z, hz, e1, -⟩ := hk y hy
      exact e1 ▸ hf.pos z hz
    case child_lt =>
      intro y hy d hd
      obtain ⟨z, hz, e1, -, e3, -⟩ := hk y hy
      exact e1 ▸ hf.child_lt z hz d (e3 ▸ hd)
    case parent_of =>
      intro y hy w hw' hwy
      obtain ⟨z, hz, e1, -, e3, -⟩ := hk y hy
      obtain ⟨v, hv, f1, f2, -⟩ := hk w hw'
      rw [← f2, ← e1]
      exact hf.parent_of z hz v hv (by rwa [f1, e3])
    case child_of =>
      intro y hy w hw' hwy
      obtain ⟨z, hz, e1, -, e3, -⟩ := hk y hy
      obtain ⟨v, hv, f1, f2, -⟩ := hk w hw'
      rw [← f1, ← e3]
      exact hf.child_of z hz v hv (by rwa [f2, e1])
    case disjoint =>
      intro y hy w hw' d hdy hdw
      obtain ⟨z, hz, e1, -, e3, -⟩ := hk y hy
      obtain ⟨v, hv, f1, -, f3, -⟩ := hk w hw'
      rw [← e1, ← f1]
      exact hf.disjoint z hz v hv d (e3 ▸ hdy) (f3 ▸ hdw)
    case parent_lt =>
      intro y hy b hb
      obtain ⟨z, hz, -, e2, -⟩ := hk y hy
      exact hf.parent_lt z hz b (e2.trans hb)
    case fresh =>
      intro y hy d hd
      obtain ⟨z, hz, -, -, e3, e4, -⟩ := hk y hy
      obtain ⟨h1, h2, h3⟩ := hf.fresh z hz d (e4.trans hd)
      have hne : d ≠ p.pid := by
        rintro rfl
        exact h2 hlive
      rw [← e3, Function.update_of_ne hne]
      exact ⟨h1, h2, h3⟩
    case fresh_parent =>
      intro y hy d hd w hw'
      obtain ⟨z, hz, -, -, -, e4, -⟩ := hk y hy
      obtain ⟨v, hv, -, f2, -⟩ := hk w hw'
      rw [← f2]
      exact hf.fresh_parent z hz d (e4.trans hd) v hv
    case fresh_tomb =>
      intro y hy d hd d' r hr
      obtain ⟨z, hz, -, -, -, e4, -⟩ := hk y hy
      rcases htomb d' r hr with ⟨-, hra⟩ | hr
      · rintro rfl
        exact hf.fresh_parent z hz _ (e4.trans hd) _ hx (ha.trans (congrArg some hra.symm))
      · exact hf.fresh_tomb z hz d (e4.trans hd) d' r hr
    case kids =>
      intro y hy d hd
      obtain ⟨z, hz, -, -, e3, e4, -⟩ := hk y hy
      rw [← e4]
      rcases hf.kids z hz d (e3 ▸ hd) with h' | h' | h'
      · exact .inl h'
      · exact .inr (.inl h')
      · exact .inr (.inr (hsome d h'))
    case tomb_lt =>
      intro d r hr
      rcases htomb d r hr with ⟨rfl, hra⟩ | hr
      · exact ⟨hf.pos _ hx, hra ▸ hf.parent_lt _ hx a ha⟩
      · exact hf.tomb_lt d r hr
    case tomb_owner =>
      intro d r hr y hy hd
      obtain ⟨z, hz, e1, -, e3, -⟩ := hk y hy
      rw [← e1]
      rcases htomb d r hr with ⟨rfl, hra⟩ | hr
      · have := hf.parent_of z hz _ hx (e3 ▸ hd)
        rw [hra]
        exact Option.some.inj (ha.symm.trans this)
      · exact hf.tomb_owner d r hr z hz (e3 ▸ hd)
    case tomb_kid =>
      intro d r hr y hy hp
      obtain ⟨z, hz, e1, -, e3, -⟩ := hk y hy
      rw [← e3]
      rcases htomb d r hr with ⟨rfl, hra⟩ | hr
      · refine hf.child_of z hz _ hx ?_
        rw [e1, ← hp, hra]
        exact ha
      · exact hf.tomb_kid d r hr z hz (hp.trans e1.symm)
    case tomb_parent =>
      intro d r hr
      rcases htomb d r hr with ⟨rfl, -⟩ | hr
      · exact .inr (.inl (.inl rfl))
      · rcases hf.tomb_parent d r hr with h' | h' | h'
        · exact .inl h'
        · exact .inr (.inl (.inr h'))
        · exact .inr (.inr h')
    case recorded =>
      intro y hy hs w hw' hp
      obtain ⟨z, hz, e1, e2, -, -, e5⟩ := hk y hy
      obtain ⟨v, hv, f1, -⟩ := hk w hw'
      rcases e5 hs with hs' | hyp
      · refine hsome _ ?_
        rw [← e1]
        exact hf.recorded z hz hs' v hv (by rw [e2, f1]; exact hp)
      · rw [hyp, Function.update_self]
        rfl
    case reaped =>
      intro d hd
      refine ⟨(hf.reaped d hd).1, fun y hy => ?_⟩
      obtain ⟨z, hz, -, -, e3, -⟩ := hk y hy
      rw [← e3]
      exact (hf.reaped d hd).2 z hz
  · simp only [Multiset.mem_cons, reduceCtorEq, false_or, placed_cons, covered_cons,
      seen_cons, hmove]
    exact hw.move hx (h.placed_uniq hx)
      ⟨rfl, fun _ hc => .inl hc, rfl, rfl, Finset.Subset.refl _⟩ fun hs => by cases hs
  · simp only [Multiset.mem_cons, reduceCtorEq, false_or, placed_cons, countP_takes_cons, hmove]
    exact hio.move_none hx (h.placed_uniq hx) ⟨rfl, rfl, .inl rfl, fun _ => .inr rfl⟩ rfl rfl
  · simp only [Multiset.mem_cons, reduceCtorEq, false_or, placed_cons, hmove]
    rintro z (rfl | ⟨hz, -⟩) hq
    · cases hq
    · simpa using h.queue z hz hq
  · simp only [placed_cons, hmove]
    exact fun k hk => (h.ended k hk).move hx rfl rfl fun _ => by simp [Process.hold]
  · simp only [Multiset.mem_cons, reduceCtorEq, false_or, placed_cons, hmove]
    exact fun t' w ht => (h.owned t' w (Multiset.mem_cons_of_mem ht)).move hx rfl (.inl rfl)
  · simp only [placed_cons, hmove]
    exact h.waiting.move fun hs => by cases hs

/-- A root that ends has no parent to leave its outcome to. -/
theorem recordRoot {p : Process V} (h : Inv s (.seat (p.held .doomed) ::ₘ T))
    (ha : p.parent = none) : Inv s (.seat (p.held .recorded) ::ₘ T) := by
  have hx : Placed s.processes (.seat (p.held .doomed) ::ₘ T) (p.held .doomed) :=
    .inr (Multiset.mem_cons_self _ _)
  have hmove := h.places.placed_swap (y := p.held .recorded) rfl
  have hf := h.family
  simp only [Multiset.mem_cons, reduceCtorEq, false_or] at hf
  have hw := h.waits
  simp only [Multiset.mem_cons, reduceCtorEq, false_or, covered_cons, seen_cons] at hw
  have hio := h.io
  simp only [Multiset.mem_cons, reduceCtorEq, false_or, countP_takes_cons] at hio
  refine ⟨h.places.swap rfl (by simp [Process.hold]), ?_, ?_, ?_, ?_, by simpa using h.pending,
    ?_, ?_, ?_⟩
  · simp only [Multiset.mem_cons, reduceCtorEq, false_or, hmove]
    have hk : Kin (p.held .doomed) (p.held .recorded) := ⟨rfl, rfl, rfl, rfl, fun _ => .inr ha⟩
    exact hf.mono fun z hz => Move.from Kin.refl hx hk hz
  · simp only [Multiset.mem_cons, reduceCtorEq, false_or, covered_cons, seen_cons, hmove]
    exact hw.move hx (h.placed_uniq hx)
      ⟨rfl, fun _ hc => .inl hc, rfl, rfl, Finset.Subset.refl _⟩ fun hs => by cases hs
  · simp only [Multiset.mem_cons, reduceCtorEq, false_or, countP_takes_cons, hmove]
    exact hio.move_none hx (h.placed_uniq hx) ⟨rfl, rfl, .inl rfl, fun _ => .inr rfl⟩ rfl rfl
  · simp only [Multiset.mem_cons, reduceCtorEq, false_or, hmove]
    rintro z (rfl | ⟨hz, -⟩) hq
    · cases hq
    · simpa using h.queue z hz hq
  · simp only [hmove]
    exact fun k hk => (h.ended k hk).move hx rfl rfl fun _ => by simp [Process.hold]
  · simp only [Multiset.mem_cons, reduceCtorEq, false_or, hmove]
    exact fun t' w ht => (h.owned t' w (Multiset.mem_cons_of_mem ht)).move hx rfl (.inl rfl)
  · simp only [hmove]
    exact h.waiting.move fun hs => by cases hs

/-! ## Beginning and end -/

/-- The tokens for the outcomes of the children of a process that has ended. -/
def reaps (children : Finset ℕ) : Tokens := children.val.map Token.reap

theorem mem_reaps {t : Token} {C : Finset ℕ} : t ∈ reaps C ↔ ∃ c ∈ C, t = .reap c := by
  simp [reaps, eq_comm]

theorem countP_reaps {q : Token → Prop} [DecidablePred q] {C : Finset ℕ} (hq : ∀ c, ¬ q (.reap c)) :
    (reaps C).countP q = 0 :=
  Multiset.countP_eq_zero.mpr fun t ht => by
    obtain ⟨c, -, rfl⟩ := mem_reaps.mp ht
    exact hq c

@[simp] theorem seen_reaps {C : Finset ℕ} : Seen (reaps C + T) = Seen T := by
  funext w
  refine propext ⟨?_, fun hs => hs.imp fun t ht => ⟨Multiset.mem_add.mpr (.inr ht.1), ht.2⟩⟩
  rintro ⟨t, ht, hw⟩
  rcases Multiset.mem_add.mp ht with ht | ht
  · obtain ⟨c, -, rfl⟩ := mem_reaps.mp ht
    cases hw
  · exact ⟨t, ht, hw⟩

/-- A process stops being live: its waiters are to be woken, and its children have no parent. -/
theorem liveRemove {p : Process V} (h : Inv s (.seat (p.held .recorded) ::ₘ T)) :
    Inv { s with live := s.live.erase p.pid } (.wake .waiters p.pid none ::ₘ
      .wake .anyWaiters p.pid none ::ₘ .unpend p.pid ::ₘ (reaps p.children + T)) := by
  have hmem : Token.seat (p.held .recorded) ∈ Token.seat (p.held .recorded) ::ₘ T :=
    Multiset.mem_cons_self _ _
  have hx : Placed s.processes (.seat (p.held .recorded) ::ₘ T) (p.held .recorded) := .inr hmem
  have hlive : p.pid ∈ s.live := h.places.live_of_placed hx
  have hnot := h.places.not_inTable hmem
  have hQ : ∀ y, Placed s.processes (reaps p.children + T) y ↔
      Placed s.processes (.seat (p.held .recorded) ::ₘ T) y ∧ y.pid ≠ p.pid := fun y => by
    constructor
    · rintro (⟨q, hq, hql, rfl⟩ | hy)
      · refine ⟨.inl ⟨q, hq, hql, rfl⟩, fun he => hnot ?_⟩
        rw [Process.hold_pid, ← he]
        exact ⟨q, hq, hql⟩
      · rcases Multiset.mem_add.mp hy with hy | hy
        · obtain ⟨c, -, hc⟩ := mem_reaps.mp hy
          cases hc
        · exact ⟨.inr (Multiset.mem_cons_of_mem hy), h.places.seat_only hy⟩
    · rintro ⟨⟨q, hq, hql, rfl⟩ | hy, hne⟩
      · exact .inl ⟨q, hq, hql, rfl⟩
      · rcases Multiset.mem_cons.mp hy with hy | hy
        · cases hy
          exact absurd rfl hne
        · exact .inr (Multiset.mem_add.mpr (.inr hy))
  have hf := h.family
  simp only [Multiset.mem_cons, reduceCtorEq, false_or] at hf
  have hw := h.waits
  simp only [Multiset.mem_cons, reduceCtorEq, false_or, covered_cons, seen_cons] at hw
  have hio := h.io
  simp only [Multiset.mem_cons, reduceCtorEq, false_or, countP_takes_cons] at hio
  have hgone : Gone (Placed s.processes (reaps p.children + T)) (s.live.erase p.pid) s.nextPid
      p.pid := by
    refine ⟨hf.pos _ hx, by simp, fun y hy hfr => ?_⟩
    exact (hf.fresh y ((hQ y).mp hy).1 p.pid hfr).2.1 hlive
  refine ⟨?_, ?_, ?_, ?_, ?_, ?_, ?_, ?_, ?_⟩
  · simp only [places_cons]
    have hcount : ∀ k, (reaps p.children + T).countP (Token.seats k) =
        T.countP (Token.seats k) := fun k => by
      rw [Multiset.countP_add, countP_reaps fun c => by simp [Token.seats], Nat.zero_add]
    refine ⟨h.places.key, fun k hk => ?_, fun k hk => ?_, fun y hy => ?_, h.places.root⟩
    · have htable := h.places.table k hk
      rw [countP_seats_seat] at htable
      have hkp : k ≠ p.pid := by
        rintro rfl
        exact hnot hk
      rw [hcount]
      exact ⟨Finset.mem_erase.mpr ⟨hkp, htable.1⟩, by omega⟩
    · have hhands := h.places.hands k hk
      rw [countP_seats_seat, Process.hold_pid] at hhands
      rw [hcount]
      by_cases hkp : k = p.pid
      · subst hkp
        rw [if_pos rfl, if_pos hlive] at hhands
        rw [if_neg (by simp)]
        omega
      · rw [if_neg (Ne.symm hkp)] at hhands
        rw [← Nat.add_zero (T.countP _), hhands]
        simp [hkp]
    · rcases Multiset.mem_add.mp hy with hy | hy
      · obtain ⟨c, -, hc⟩ := mem_reaps.mp hy
        cases hc
      · exact h.places.hand y (Multiset.mem_cons_of_mem hy)
  · simp only [Multiset.mem_cons, reduceCtorEq, false_or, placed_cons, Multiset.mem_add, mem_reaps]
    have hkid : ∀ y, Placed s.processes (reaps p.children + T) y → ∀ c ∈ y.children,
        c ∉ p.children := fun y hy c hc hcp =>
      ((hQ y).mp hy).2 (hf.disjoint y ((hQ y).mp hy).1 _ hx c hc hcp)
    constructor
    case pos => exact fun y hy => hf.pos y ((hQ y).mp hy).1
    case child_lt => exact fun y hy => hf.child_lt y ((hQ y).mp hy).1
    case parent_of => exact fun y hy z hz => hf.parent_of y ((hQ y).mp hy).1 z ((hQ z).mp hz).1
    case child_of => exact fun y hy z hz => hf.child_of y ((hQ y).mp hy).1 z ((hQ z).mp hz).1
    case disjoint => exact fun y hy z hz => hf.disjoint y ((hQ y).mp hy).1 z ((hQ z).mp hz).1
    case parent_lt => exact fun y hy => hf.parent_lt y ((hQ y).mp hy).1
    case fresh =>
      intro y hy c hc
      obtain ⟨h1, h2, h3⟩ := hf.fresh y ((hQ y).mp hy).1 c hc
      exact ⟨h1, fun hin => h2 (Finset.mem_of_mem_erase hin), h3⟩
    case fresh_parent =>
      exact fun y hy c hc z hz => hf.fresh_parent y ((hQ y).mp hy).1 c hc z ((hQ z).mp hz).1
    case fresh_tomb => exact fun y hy => hf.fresh_tomb y ((hQ y).mp hy).1
    case kids =>
      intro y hy c hc
      have hy' := (hQ y).mp hy
      rcases hf.kids y hy'.1 c hc with hl | hl | hl
      · by_cases hcp : c = p.pid
        · subst hcp
          have hpar := hf.parent_of y hy'.1 _ hx hc
          exact .inr (.inr (hf.recorded _ hx rfl y hy'.1 hpar))
        · exact .inl (Finset.mem_erase.mpr ⟨hcp, hl⟩)
      · exact .inr (.inl hl)
      · exact .inr (.inr hl)
    case tomb_lt => exact hf.tomb_lt
    case tomb_owner => exact fun c r hr y hy => hf.tomb_owner c r hr y ((hQ y).mp hy).1
    case tomb_kid => exact fun c r hr y hy => hf.tomb_kid c r hr y ((hQ y).mp hy).1
    case tomb_parent =>
      intro c r hr
      rcases hf.tomb_parent c r hr with hl | hre | hre
      · by_cases hrp : r.parent = p.pid
        · exact .inr (.inr (.inl ⟨c, hf.tomb_kid c r hr _ hx hrp, rfl⟩))
        · exact .inl (Finset.mem_erase.mpr ⟨hrp, hl⟩)
      · exact .inr (.inl (.inr hre))
      · exact .inr (.inr (.inr hre))
    case recorded =>
      exact fun y hy hs z hz => hf.recorded y ((hQ y).mp hy).1 hs z ((hQ z).mp hz).1
    case reaped =>
      have hold : ∀ c, Token.reap c ∈ T ∨ Token.orphan c ∈ T → c < s.nextPid ∧
          ∀ y, Placed s.processes (reaps p.children + T) y → c ∉ y.children := fun c hre =>
        ⟨(hf.reaped c hre).1, fun y hy => (hf.reaped c hre).2 y ((hQ y).mp hy).1⟩
      rintro c ((⟨d, hd, he⟩ | hre) | (⟨d, -, he⟩ | hre))
      · cases he
        exact ⟨(hf.child_lt _ hx c hd).2, fun y hy hcy => hkid y hy c hcy hd⟩
      · exact hold c (.inl hre)
      · cases he
      · exact hold c (.inr hre)
  · simp only [Multiset.mem_cons, reduceCtorEq, false_or, placed_cons, Multiset.mem_add, mem_reaps,
      and_false, exists_false, seen_cons, seen_reaps]
    refine hw.transfer (fun y hy hr => (hQ y).mpr ⟨hy, fun he => hr ?_⟩)
      (fun y hy => .inl ((hQ y).mp hy).1) (fun c hc => ?_) (fun y hy hyQ hs m c hr hc => ?_) ?_
      fun w hw' => ⟨hw'.1, fun y hy => hw'.2 y ((hQ y).mp hy).1⟩
    · rw [h.placed_uniq hx y hy he]
      rfl
    · exact ⟨hc.1, fun hin => hc.2.1 (Finset.mem_of_mem_erase hin),
        fun y hy => hc.2.2 y ((hQ y).mp hy).1⟩
    · by_cases hcp : c = p.pid
      · subst hcp
        refine ⟨p.pid, hr, by simp, .inr (.inl ?_)⟩
        cases m <;> simp
      · have hc' : c ∉ s.live := fun hin => hc (Finset.mem_erase.mpr ⟨hcp, hin⟩)
        obtain ⟨d, hd, hdl, hcov⟩ := hw.cover y hy hs m c hr hc'
        refine ⟨d, hd, fun hin => hdl (Finset.mem_of_mem_erase hin), ?_⟩
        rcases hcov with ⟨cs, hcs, hin⟩ | hcov | ⟨l, hl, hin⟩
        · exact .inl ⟨cs, by simp [hcs], hin⟩
        · exact .inr (.inl (by simp [hcov]))
        · exact .inr (.inr ⟨l, by simp [hl], hin⟩)
    · rintro m c ⟨l, (he | he | hl)⟩
      · cases he
        exact .inr hgone
      · cases he
        exact .inr hgone
      · exact .inl ⟨l, hl⟩
  · simp only [Multiset.mem_cons, reduceCtorEq, false_or, placed_cons, Multiset.mem_add, mem_reaps,
      and_false, exists_false, countP_takes_cons]
    have htakes : ∀ t, (reaps p.children + T).countP (Token.takes t) = T.countP (Token.takes t) :=
      fun t => by
        rw [Multiset.countP_add, countP_reaps fun c => by simp [Token.takes], Nat.zero_add]
    simp only [htakes]
    refine hio.transfer (fun y hy ht => (hQ y).mpr ⟨hy, fun he => ht ?_⟩)
      (fun y hy => .inl ((hQ y).mp hy).1)
      fun w hd => ⟨hd.1, fun y hy => hd.2 y ((hQ y).mp hy).1⟩
    rw [h.placed_uniq hx y hy he]
    rfl
  · simp only [Multiset.mem_cons, reduceCtorEq, false_or, placed_cons, Multiset.mem_add, mem_reaps,
      and_false, exists_false]
    intro y hy hq
    simpa using h.queue y ((hQ y).mp hy).1 hq
  · intro pid hpid
    simp only [Multiset.mem_cons, reduceCtorEq, false_or, Multiset.mem_add, mem_reaps, and_false,
      exists_false, Token.unpend.injEq]
    by_cases hp : pid = p.pid
    · exact .inr (.inl hp)
    · rcases h.pending pid hpid with hl | hu
      · exact .inl (Finset.mem_erase.mpr ⟨hp, hl⟩)
      · exact .inr (.inr (by simpa using hu))
  · simp only [placed_cons]
    exact fun k hk => (h.ended k hk).mono fun y hy => ((hQ y).mp hy).1
  · simp only [Multiset.mem_cons, reduceCtorEq, false_or, placed_cons, Multiset.mem_add, mem_reaps,
      and_false, exists_false]
    exact fun t w ht => (h.owned t w (Multiset.mem_cons_of_mem ht)).mono
      fun y hy => ((hQ y).mp hy).1
  · simp only [placed_cons]
    exact h.waiting.mono fun y hy => ((hQ y).mp hy).1

/-- A pid for a new child. -/
theorem allocPid {p : Process V} (h : Inv s (.seat (p.held .working) ::ₘ T)) :
    Inv { s with nextPid := s.nextPid + 1 } (.seat (p.expecting s.nextPid) ::ₘ T) := by
  have hx : Placed s.processes (.seat (p.held .working) ::ₘ T) (p.held .working) :=
    .inr (Multiset.mem_cons_self _ _)
  have hmove := h.places.placed_swap (y := p.expecting s.nextPid) rfl
  have hf := h.family
  simp only [Multiset.mem_cons, reduceCtorEq, false_or] at hf
  have hw := h.waits
  simp only [Multiset.mem_cons, reduceCtorEq, false_or, covered_cons, seen_cons] at hw
  have hio := h.io
  simp only [Multiset.mem_cons, reduceCtorEq, false_or, countP_takes_cons] at hio
  have hnext : s.nextPid ∉ s.live := fun hin => by
    obtain ⟨y, hy, hpid⟩ := h.places.placed_of_live hin
    have := hf.pos y hy
    omega
  have htomb : ∀ c r, s.tombstones c = some r → c ≠ s.nextPid := fun c r hr he => by
    have := (hf.tomb_lt c r hr).1
    omega
  have hk : ∀ y, Move (Placed s.processes (.seat (p.held .working) ::ₘ T))
      (p.expecting s.nextPid) y → ∃ z, Placed s.processes (.seat (p.held .working) ::ₘ T) z ∧
        z.pid = y.pid ∧ z.parent = y.parent ∧ z.stage = y.stage ∧
        (∀ d, d ∈ y.children ↔ d ∈ z.children ∨ d = s.nextPid ∧ y.pid = p.pid) ∧
        ∀ d, y.fresh = some d → z.fresh = some d ∨ d = s.nextPid ∧ y.pid = p.pid := by
    rintro y (rfl | ⟨hy, hne⟩)
    · refine ⟨_, hx, rfl, rfl, rfl, fun d => ?_, fun d hd => .inr ⟨(Option.some.inj hd).symm, rfl⟩⟩
      simp only [Process.expecting, Finset.mem_insert, Process.hold, and_true]
      exact or_comm
    · exact ⟨y, hy, rfl, rfl, rfl, fun d => ⟨.inl, fun hd => hd.resolve_right fun he => hne he.2⟩,
        fun d hd => .inl hd⟩
  refine ⟨h.places.swap rfl (by simp [Process.expecting]), ?_, ?_, ?_, ?_,
    by simpa using h.pending, ?_, ?_, ?_⟩
  · simp only [Multiset.mem_cons, reduceCtorEq, false_or, hmove]
    constructor
    case pos =>
      intro y hy
      obtain ⟨z, hz, e1, -⟩ := hk y hy
      have := hf.pos z hz
      omega
    case child_lt =>
      intro y hy d hd
      obtain ⟨z, hz, e1, -, -, e4, -⟩ := hk y hy
      have hpos := hf.pos z hz
      rcases (e4 d).mp hd with hd | ⟨rfl, -⟩
      · have := hf.child_lt z hz d hd
        omega
      · omega
    case parent_of =>
      intro y hy w hw' hwy
      obtain ⟨z, hz, e1, -, -, e4, -⟩ := hk y hy
      obtain ⟨v, hv, f1, f2, -⟩ := hk w hw'
      rcases (e4 _).mp hwy with hd | ⟨hn, -⟩
      · rw [← f2, ← e1]
        exact hf.parent_of z hz v hv (by rwa [f1])
      · have := hf.pos v hv
        omega
    case child_of =>
      intro y hy w hw' hwy
      obtain ⟨z, hz, e1, -, -, e4, -⟩ := hk y hy
      obtain ⟨v, hv, f1, f2, -⟩ := hk w hw'
      refine (e4 _).mpr (.inl ?_)
      rw [← f1]
      exact hf.child_of z hz v hv (by rw [f2, e1]; exact hwy)
    case disjoint =>
      intro y hy w hw' d hdy hdw
      obtain ⟨z, hz, e1, -, -, e4, -⟩ := hk y hy
      obtain ⟨v, hv, f1, -, -, f4, -⟩ := hk w hw'
      rcases (e4 d).mp hdy with hd | ⟨rfl, hyp⟩
      · rcases (f4 d).mp hdw with hd' | ⟨rfl, -⟩
        · rw [← e1, ← f1]
          exact hf.disjoint z hz v hv d hd hd'
        · have := (hf.child_lt z hz _ hd).2
          omega
      · rcases (f4 _).mp hdw with hd' | ⟨-, hwp⟩
        · have := (hf.child_lt v hv _ hd').2
          omega
        · rw [hyp, hwp]
    case parent_lt =>
      intro y hy a ha
      obtain ⟨z, hz, -, e2, -⟩ := hk y hy
      have := hf.parent_lt z hz a (e2.trans ha)
      omega
    case fresh =>
      intro y hy d hd
      obtain ⟨z, hz, e1, -, -, e4, e5⟩ := hk y hy
      rcases e5 d hd with hd' | ⟨rfl, hyp⟩
      · obtain ⟨h1, h2, h3⟩ := hf.fresh z hz d hd'
        exact ⟨(e4 d).mpr (.inl h1), h2, h3⟩
      · refine ⟨(e4 _).mpr (.inr ⟨rfl, hyp⟩), hnext, ?_⟩
        by_contra hr
        obtain ⟨r, hr⟩ := Option.ne_none_iff_exists'.mp hr
        exact htomb _ r hr rfl
    case fresh_parent =>
      intro y hy d hd w hw'
      obtain ⟨z, hz, -, -, -, -, e5⟩ := hk y hy
      obtain ⟨v, hv, -, f2, -⟩ := hk w hw'
      rw [← f2]
      rcases e5 d hd with hd' | ⟨rfl, -⟩
      · exact hf.fresh_parent z hz d hd' v hv
      · intro he
        have := hf.parent_lt v hv _ he
        omega
    case fresh_tomb =>
      intro y hy d hd d' r hr
      obtain ⟨z, hz, -, -, -, -, e5⟩ := hk y hy
      rcases e5 d hd with hd' | ⟨rfl, -⟩
      · exact hf.fresh_tomb z hz d hd' d' r hr
      · have := (hf.tomb_lt d' r hr).2
        omega
    case kids =>
      intro y hy d hd
      rcases hy with rfl | ⟨hy, -⟩
      · rcases Finset.mem_insert.mp hd with rfl | hd
        · exact .inr (.inl rfl)
        · rcases hf.kids _ hx d hd with h' | h' | h'
          · exact .inl h'
          · cases h'
          · exact .inr (.inr h')
      · exact hf.kids y hy d hd
    case tomb_lt =>
      intro c r hr
      have := hf.tomb_lt c r hr
      omega
    case tomb_owner =>
      intro c r hr y hy hc
      obtain ⟨z, hz, e1, -, -, e4, -⟩ := hk y hy
      rw [← e1]
      refine hf.tomb_owner c r hr z hz (((e4 c).mp hc).resolve_right fun he => htomb c r hr he.1)
    case tomb_kid =>
      intro c r hr y hy hp
      obtain ⟨z, hz, e1, -, -, e4, -⟩ := hk y hy
      exact (e4 c).mpr (.inl (hf.tomb_kid c r hr z hz (hp.trans e1.symm)))
    case tomb_parent => exact hf.tomb_parent
    case recorded =>
      intro y hy hs w hw' hp
      obtain ⟨z, hz, e1, e2, e3, -⟩ := hk y hy
      obtain ⟨v, hv, f1, -⟩ := hk w hw'
      rw [← e1]
      exact hf.recorded z hz (e3.trans hs) v hv (by rw [e2, f1]; exact hp)
    case reaped =>
      intro c hc
      have hlt := (hf.reaped c hc).1
      refine ⟨by omega, fun y hy hcy => ?_⟩
      obtain ⟨z, hz, -, -, -, e4, -⟩ := hk y hy
      rcases (e4 c).mp hcy with hd | ⟨rfl, -⟩
      · exact (hf.reaped c hc).2 z hz hd
      · omega
  · simp only [Multiset.mem_cons, reduceCtorEq, false_or, covered_cons, seen_cons, hmove]
    refine hw.transfer (fun y hy hr => .inr ⟨hy, fun he => hr ?_⟩) ?_ (fun c hc => ?_)
      (fun y hy _ hs m c hr hc => hw.cover y hy hs m c hr hc) (fun m c hc => .inl hc)
      fun w hw' => ⟨Nat.lt_succ_of_lt hw'.1, fun y hy hd => ?_⟩
    · rw [h.placed_uniq hx y hy he]
      rfl
    · rintro y (rfl | ⟨hy, -⟩)
      · exact .inr ⟨rfl, rfl⟩
      · exact .inl hy
    · refine ⟨Nat.lt_succ_of_lt hc.1, hc.2.1, fun y hy hd => ?_⟩
      obtain ⟨z, hz, -, -, -, -, e5⟩ := hk y hy
      rcases e5 c hd with hd' | ⟨rfl, -⟩
      · exact hc.2.2 z hz hd'
      · exact absurd hc.1 (lt_irrefl _)
    · obtain ⟨z, hz, -, -, -, -, e5⟩ := hk y hy
      rcases e5 w hd with hd' | ⟨rfl, -⟩
      · exact hw'.2 z hz hd'
      · exact absurd hw'.1 (lt_irrefl _)
  · simp only [Multiset.mem_cons, reduceCtorEq, false_or, countP_takes_cons, hmove]
    refine hio.transfer (fun y hy ht => .inr ⟨hy, fun he => ht ?_⟩) ?_ fun w hd => ?_
    · rw [h.placed_uniq hx y hy he]
      rfl
    · rintro y (rfl | ⟨hy, -⟩)
      · exact .inr rfl
      · exact .inl hy
    · refine ⟨Nat.lt_succ_of_lt hd.1, fun y hy => ?_⟩
      obtain ⟨z, hz, e1, -, e3, -, e5⟩ := hk y hy
      refine ⟨fun hp => e3 ▸ (hd.2 z hz).1 (e1.trans hp), fun hfr => ?_⟩
      rcases e5 w hfr with hd' | ⟨rfl, -⟩
      · exact (hd.2 z hz).2 hd'
      · exact absurd hd.1 (lt_irrefl _)
  · simp only [Multiset.mem_cons, reduceCtorEq, false_or, hmove]
    rintro z (rfl | ⟨hz, -⟩) hq
    · cases hq
    · simpa using h.queue z hz hq
  · simp only [hmove]
    intro k hend
    refine ⟨Nat.lt_succ_of_lt (h.ended k hend).1, ?_⟩
    rintro y (rfl | ⟨hy, -⟩)
    · refine ⟨fun hfr => ?_, fun he => absurd (((h.ended k hend).2 _ hx).2 he).1 ?_⟩
      · cases hfr
        exact lt_irrefl _ (h.ended _ hend).1
      · simp [Process.hold]
    · exact (h.ended k hend).2 y hy
  · simp only [Multiset.mem_cons, reduceCtorEq, false_or, hmove]
    exact fun t' w ht => (h.owned t' w (Multiset.mem_cons_of_mem ht)).move hx rfl (.inl rfl)
  · simp only [hmove]
    exact h.waiting.move fun hs => by cases hs

/-- The new child becomes live, in the hands of the thread of its parent. -/
theorem liveInsert {p q : Process V} (h : Inv s (.seat (p.expecting q.pid) ::ₘ T))
    (hq : q.parent = some p.pid) (hq' : q.children = ∅) :
    Inv { s with live := insert q.pid s.live } (.seat (q.held .working) ::ₘ
      .seat ({ p with children := insert q.pid p.children }.held .working) ::ₘ T) := by
  have hx : Placed s.processes (.seat (p.expecting q.pid) ::ₘ T) (p.expecting q.pid) :=
    .inr (Multiset.mem_cons_self _ _)
  let p' : Process V := { p with children := insert q.pid p.children }
  have hmove := h.places.placed_swap (y := p'.held .working) rfl
  have hplaces := h.places.swap (y := p'.held .working) rfl (by simp [Process.hold])
  have hf := h.family
  simp only [Multiset.mem_cons, reduceCtorEq, false_or] at hf
  have hw := h.waits
  simp only [Multiset.mem_cons, reduceCtorEq, false_or, covered_cons, seen_cons] at hw
  have hio := h.io
  simp only [Multiset.mem_cons, reduceCtorEq, false_or, countP_takes_cons] at hio
  obtain ⟨hkid, hdead, htomb⟩ := hf.fresh _ hx q.pid rfl
  have hne : ∀ y, Placed s.processes (.seat (p.expecting q.pid) ::ₘ T) y → y.pid ≠ q.pid := by
    intro y hy he
    exact hdead (he ▸ h.places.live_of_placed hy)
  have hQ : ∀ y, Placed s.processes (.seat (q.held .working) ::ₘ .seat (p'.held .working) ::ₘ T) y ↔
      y = q.held .working ∨
        Move (Placed s.processes (.seat (p.expecting q.pid) ::ₘ T)) (p'.held .working) y :=
          fun y => by
    rw [← hmove]
    simp only [Placed, Multiset.mem_cons, Token.seat.injEq]
    exact or_left_comm
  have hk : ∀ y, Move (Placed s.processes (.seat (p.expecting q.pid) ::ₘ T)) (p'.held .working) y →
      ∃ z, Placed s.processes (.seat (p.expecting q.pid) ::ₘ T) z ∧ z.pid = y.pid ∧
        z.parent = y.parent ∧ z.children = y.children ∧ z.stage = y.stage ∧
        ∀ d, y.fresh = some d → z.fresh = some d ∧ d ≠ q.pid := by
    rintro y (rfl | ⟨hy, hyp⟩)
    · exact ⟨_, hx, rfl, rfl, rfl, rfl, fun d hd => by cases hd⟩
    · refine ⟨y, hy, rfl, rfl, rfl, rfl, fun d hd => ⟨hd, ?_⟩⟩
      rintro rfl
      exact hyp (hf.disjoint y hy (p.expecting q.pid) hx _ (hf.fresh y hy _ hd).1 hkid)
  refine ⟨?_, ?_, ?_, ?_, ?_, ?_, ?_, ?_, ?_⟩
  · refine ⟨h.places.key, fun k hk' => ?_, fun k hk' => ?_, fun y hy => ?_, h.places.root⟩
    · obtain ⟨hl, hc⟩ := hplaces.table k hk'
      have hkq : q.pid ≠ k := by
        rintro rfl
        exact hdead hl
      refine ⟨Finset.mem_insert_of_mem hl, ?_⟩
      rw [countP_seats_seat, hc, Process.hold_pid, if_neg hkq]
    · have hh := hplaces.hands k hk'
      rw [countP_seats_seat, hh, Process.hold_pid]
      by_cases hkq : k = q.pid
      · subst hkq
        simp [hdead]
      · simp [hkq, Ne.symm hkq]
    · rcases Multiset.mem_cons.mp hy with hy | hy
      · cases hy
        simp [Process.hold]
      · exact hplaces.hand y hy
  · simp only [Multiset.mem_cons, reduceCtorEq, false_or]
    rw [show Placed s.processes _ = _ from funext fun y => propext (hQ y)]
    constructor
    case pos =>
      rintro y (rfl | hy)
      · exact (hf.child_lt _ hx q.pid hkid).2
      · obtain ⟨z, hz, e1, -⟩ := hk y hy
        exact e1 ▸ hf.pos z hz
    case child_lt =>
      rintro y (rfl | hy) d hd
      · simp [Process.hold, hq'] at hd
      · obtain ⟨z, hz, e1, -, e3, -⟩ := hk y hy
        exact e1 ▸ hf.child_lt z hz d (e3 ▸ hd)
    case parent_of =>
      rintro y (rfl | hy) w hw' hwy
      · simp [Process.hold, hq'] at hwy
      · obtain ⟨z, hz, e1, -, e3, -⟩ := hk y hy
        rcases hw' with rfl | hw'
        · have := hf.disjoint z hz _ hx q.pid (by rw [e3]; exact hwy) hkid
          rw [← e1, this]
          exact hq
        · obtain ⟨v, hv, f1, f2, -⟩ := hk w hw'
          rw [← f2, ← e1]
          exact hf.parent_of z hz v hv (by rwa [f1, e3])
    case child_of =>
      rintro y (rfl | hy) w (rfl | hw') hwy
      · have hlt := (hf.child_lt _ hx q.pid hkid).1
        have : p.pid = q.pid := Option.some.inj (hq.symm.trans hwy)
        exact absurd this hlt.ne
      · obtain ⟨v, hv, f1, f2, -⟩ := hk w hw'
        exact absurd (f2.trans hwy) (hf.fresh_parent _ hx q.pid rfl v hv)
      · obtain ⟨z, hz, e1, -, e3, -⟩ := hk y hy
        have hpid : p.pid = y.pid := Option.some.inj (hq.symm.trans hwy)
        have := h.placed_uniq hx z hz (e1.trans hpid.symm)
        rw [← e3, this]
        exact hkid
      · obtain ⟨z, hz, e1, -, e3, -⟩ := hk y hy
        obtain ⟨v, hv, f1, f2, -⟩ := hk w hw'
        rw [← f1, ← e3]
        exact hf.child_of z hz v hv (by rw [f2, e1]; exact hwy)
    case disjoint =>
      rintro y (rfl | hy) w (rfl | hw') d hdy hdw
      · rfl
      · simp [Process.hold, hq'] at hdy
      · simp [Process.hold, hq'] at hdw
      · obtain ⟨z, hz, e1, -, e3, -⟩ := hk y hy
        obtain ⟨v, hv, f1, -, f3, -⟩ := hk w hw'
        rw [← e1, ← f1]
        exact hf.disjoint z hz v hv d (e3 ▸ hdy) (f3 ▸ hdw)
    case parent_lt =>
      rintro y (rfl | hy) a ha
      · have := Option.some.inj (hq.symm.trans ha)
        exact this ▸ hf.pos _ hx
      · obtain ⟨z, hz, -, e2, -⟩ := hk y hy
        exact hf.parent_lt z hz a (e2.trans ha)
    case fresh =>
      rintro y (rfl | hy) d hd
      · cases hd
      · obtain ⟨z, hz, -, -, e3, -, e5⟩ := hk y hy
        obtain ⟨hd', hdq⟩ := e5 d hd
        obtain ⟨h1, h2, h3⟩ := hf.fresh z hz d hd'
        refine ⟨e3 ▸ h1, fun hin => ?_, h3⟩
        rcases Finset.mem_insert.mp hin with he | hin
        · exact hdq he
        · exact h2 hin
    case fresh_parent =>
      rintro y (rfl | hy) d hd w hw'
      · cases hd
      · obtain ⟨z, hz, e1, -, -, -, e5⟩ := hk y hy
        obtain ⟨hd', hdq⟩ := e5 d hd
        rcases hw' with rfl | hw'
        · intro he
          have hpd : p.pid = d := Option.some.inj (hq.symm.trans he)
          exact (hf.fresh z hz d hd').2.1 (hpd ▸ h.places.live_of_placed hx)
        · obtain ⟨v, hv, -, f2, -⟩ := hk w hw'
          rw [← f2]
          exact hf.fresh_parent z hz d hd' v hv
    case fresh_tomb =>
      rintro y (rfl | hy) d hd
      · cases hd
      · obtain ⟨z, hz, -, -, -, -, e5⟩ := hk y hy
        exact hf.fresh_tomb z hz d (e5 d hd).1
    case kids =>
      rintro y (rfl | (rfl | ⟨hy, -⟩)) d hd
      · simp [Process.hold, hq'] at hd
      · rcases hf.kids _ hx d hd with h' | h' | h'
        · exact .inl (Finset.mem_insert_of_mem h')
        · cases h'
          exact .inl (Finset.mem_insert_self _ _)
        · exact .inr (.inr h')
      · rcases hf.kids y hy d hd with h' | h' | h'
        · exact .inl (Finset.mem_insert_of_mem h')
        · exact .inr (.inl h')
        · exact .inr (.inr h')
    case tomb_lt => exact hf.tomb_lt
    case tomb_owner =>
      rintro c r hr y (rfl | hy) hc
      · simp [Process.hold, hq'] at hc
      · obtain ⟨z, hz, e1, -, e3, -⟩ := hk y hy
        rw [← e1]
        exact hf.tomb_owner c r hr z hz (e3 ▸ hc)
    case tomb_kid =>
      rintro c r hr y (rfl | hy) hp
      · exact absurd hp (hf.fresh_tomb _ hx q.pid rfl c r hr)
      · obtain ⟨z, hz, e1, -, e3, -⟩ := hk y hy
        rw [← e3]
        exact hf.tomb_kid c r hr z hz (hp.trans e1.symm)
    case tomb_parent =>
      intro c r hr
      rcases hf.tomb_parent c r hr with h' | h'
      · exact .inl (Finset.mem_insert_of_mem h')
      · exact .inr h'
    case recorded =>
      rintro y (rfl | hy) hs w hw' hp
      · cases hs
      · obtain ⟨z, hz, e1, e2, -, e4, -⟩ := hk y hy
        rcases hw' with rfl | hw'
        · exact absurd (e2.trans hp) (hf.fresh_parent _ hx q.pid rfl z hz)
        · obtain ⟨v, hv, f1, -⟩ := hk w hw'
          rw [← e1]
          exact hf.recorded z hz (e4.trans hs) v hv (by rw [e2, f1]; exact hp)
    case reaped =>
      intro c hc
      refine ⟨(hf.reaped c hc).1, ?_⟩
      rintro y (rfl | hy)
      · simp [Process.hold, hq']
      · obtain ⟨z, hz, -, -, e3, -⟩ := hk y hy
        rw [← e3]
        exact (hf.reaped c hc).2 z hz
  · simp only [Multiset.mem_cons, reduceCtorEq, false_or, covered_cons, seen_cons]
    rw [show Placed s.processes _ = _ from funext fun y => propext (hQ y)]
    refine hw.transfer (fun y hy hr => .inr (.inr ⟨hy, fun he => hr ?_⟩)) ?_ (fun c hc => ?_)
      (fun y hy _ hs m c hr hc => ?_) (fun m c hc => .inl hc) fun w hw' => ⟨hw'.1, ?_⟩
    · rw [h.placed_uniq hx y hy he]
      rfl
    · rintro y (rfl | (rfl | ⟨hy, -⟩))
      · exact .inr ⟨rfl, rfl⟩
      · exact .inr ⟨rfl, rfl⟩
      · exact .inl hy
    · have hcq : c ≠ q.pid := fun he => hc.2.2 _ hx (congrArg some he.symm)
      refine ⟨hc.1, fun hin => hc.2.1 (Finset.mem_of_mem_insert_of_ne hin hcq), ?_⟩
      rintro y (rfl | hy) hd
      · cases hd
      · obtain ⟨z, hz, -, -, -, -, e5⟩ := hk y hy
        exact hc.2.2 z hz (e5 c hd).1
    · obtain ⟨d, hd, hdl, hcov⟩ :=
        hw.cover y hy hs m c hr fun hin => hc (Finset.mem_insert_of_mem hin)
      refine ⟨d, hd, fun hin => hdl (Finset.mem_of_mem_insert_of_ne hin ?_), hcov⟩
      rintro rfl
      have hdis := hf.disjoint y hy _ hx _ (hw.reg_kid y hy m _ hd) hkid
      rw [h.placed_uniq hx y hy hdis] at hs
      cases hs
    · rintro y (rfl | hy) hd
      · cases hd
      · obtain ⟨z, hz, -, -, -, -, e5⟩ := hk y hy
        exact hw'.2 z hz (e5 w hd).1
  · simp only [Multiset.mem_cons, reduceCtorEq, false_or, countP_takes_cons]
    rw [show Placed s.processes _ = _ from funext fun y => propext (hQ y)]
    refine hio.transfer (fun y hy ht => .inr (.inr ⟨hy, fun he => ht ?_⟩)) ?_ fun w hd => ?_
    · rw [h.placed_uniq hx y hy he]
      rfl
    · rintro y (rfl | (rfl | ⟨hy, -⟩))
      · exact .inr rfl
      · exact .inr rfl
      · exact .inl hy
    · refine ⟨hd.1, ?_⟩
      rintro y (rfl | hy)
      · refine ⟨fun he => absurd (congrArg some he) (hd.2 _ hx).2, by simp [Process.hold]⟩
      · obtain ⟨z, hz, e1, -, -, e4, e5⟩ := hk y hy
        exact ⟨fun he => e4 ▸ (hd.2 z hz).1 (e1.trans he), fun hfr => (hd.2 z hz).2 (e5 w hfr).1⟩
  · simp only [Multiset.mem_cons, reduceCtorEq, false_or]
    rw [show Placed s.processes _ = _ from funext fun y => propext (hQ y)]
    rintro z (rfl | (rfl | ⟨hz, -⟩)) hs
    · cases hs
    · cases hs
    · simpa using h.queue z hz hs
  · intro pid hpid
    rcases h.pending pid hpid with hl | hu
    · exact .inl (Finset.mem_insert_of_mem hl)
    · exact .inr (by simpa using hu)
  · rw [show Placed s.processes _ = _ from funext fun y => propext (hQ y)]
    intro k hend
    have hfr : q.pid ≠ k := fun he => ((h.ended k hend).2 _ hx).1 (congrArg some he)
    refine ⟨(h.ended k hend).1, ?_⟩
    rintro y (rfl | hy)
    · exact ⟨by simp [Process.hold], fun he => absurd he hfr⟩
    · obtain ⟨z, hz, e1, -, -, e4, e5⟩ := hk y hy
      refine ⟨fun hyf => ((h.ended k hend).2 z hz).1 (e5 k hyf).1, fun he => ?_⟩
      have hrec := ((h.ended k hend).2 z hz).2 (e1.trans he)
      rcases hy with rfl | ⟨hy, -⟩
      · rw [← hrec.1]
        exact absurd (e4.symm.trans hrec.1) (by simp [Process.hold])
      · exact ((h.ended k hend).2 y hy).2 he
  · simp only [Multiset.mem_cons, reduceCtorEq, false_or]
    rw [show Placed s.processes _ = _ from funext fun y => propext (hQ y)]
    intro t w ht
    have hown := h.owned t w (Multiset.mem_cons_of_mem ht)
    refine ⟨hown.1, ?_⟩
    rintro y (rfl | rfl | ⟨hy, -⟩) hyt
    · cases hyt
    · cases hyt
    · exact hown.2 y hy hyt
  · rw [show Placed s.processes _ = _ from funext fun y => propext (hQ y)]
    rintro y (rfl | rfl | ⟨hy, -⟩) hs
    · cases hs
    · cases hs
    · exact h.waiting y hy hs

/-! ## I/O tokens -/

/-- A token for a request. -/
theorem allocIoToken {p : Process V} (h : Inv s (.seat (p.held .working) ::ₘ T)) :
    Inv { s with nextIoToken := s.nextIoToken + 1 } (.seat (p.awaiting s.nextIoToken) ::ₘ T) := by
  have hx : Placed s.processes (.seat (p.held .working) ::ₘ T) (p.held .working) :=
    .inr (Multiset.mem_cons_self _ _)
  have hmove := h.places.placed_swap (y := p.awaiting s.nextIoToken) rfl
  have hf := h.family
  simp only [Multiset.mem_cons, reduceCtorEq, false_or] at hf
  have hw := h.waits
  simp only [Multiset.mem_cons, reduceCtorEq, false_or, covered_cons, seen_cons] at hw
  have hio := h.io
  simp only [Multiset.mem_cons, reduceCtorEq, false_or, countP_takes_cons] at hio
  refine ⟨h.places.swap rfl (by simp [Process.awaiting]), ?_, ?_, ?_, ?_, by simpa using h.pending,
    ?_, ?_, ?_⟩
  · have hk : Kin (p.held .working) (p.awaiting s.nextIoToken) := ⟨rfl, rfl, rfl, rfl, .inl⟩
    simp only [Multiset.mem_cons, reduceCtorEq, false_or, hmove]
    exact hf.mono fun z hz => Move.from Kin.refl hx hk hz
  · simp only [Multiset.mem_cons, reduceCtorEq, false_or, covered_cons, seen_cons, hmove]
    exact hw.move hx (h.placed_uniq hx)
      ⟨rfl, fun _ hc => .inl hc, rfl, rfl, Finset.Subset.refl _⟩ fun hs => by cases hs
  · simp only [Multiset.mem_cons, reduceCtorEq, false_or, countP_takes_cons, hmove]
    have hlt : ∀ t, t < s.nextIoToken → t < s.nextIoToken + 1 := fun t => Nat.lt_succ_of_lt
    have hnew : s.ioWaiters s.nextIoToken = none := by
      by_contra hne
      obtain ⟨w, hw'⟩ := Option.ne_none_iff_exists'.mp hne
      obtain ⟨y, hy, -, ht⟩ := hio.reg _ w hw'
      exact lt_irrefl _ (hio.seat_lt y hy _ ht)
    have hdying : ∀ w, Dying (Placed s.processes (.seat (p.held .working) ::ₘ T)) s.nextPid w →
        Dying (Move (Placed s.processes (.seat (p.held .working) ::ₘ T)) (p.awaiting s.nextIoToken))
          s.nextPid w := fun w hd => by
      refine ⟨hd.1, ?_⟩
      rintro y (rfl | ⟨hy, -⟩)
      · exact hd.2 (p.held .working) hx
      · exact hd.2 y hy
    refine ⟨?_, ?_, ?_, ?_, hio.taken, ?_, fun w hw' => ⟨hdying w (hio.dead w hw').1,
      (hio.dead w hw').2⟩, hio.one, fun t ht => hlt t (hio.flight_lt t ht),
      fun t ht => hlt t (hio.released_lt t ht), fun t w ht => hlt t (hio.taking_lt t w ht), ?_⟩
    · intro t w hw'
      obtain ⟨y, hy, hp, ht⟩ := hio.reg t w hw'
      refine ⟨y, .inr ⟨hy, fun he => ?_⟩, hp, ht⟩
      rw [h.placed_uniq hx y hy he] at ht
      cases ht
    · rintro y (rfl | ⟨hy, -⟩) hs t ht
      · cases hs
      · exact hio.parked y hy hs t ht
    · rintro y (rfl | ⟨hy, -⟩) hs t ht
      · cases ht
        exact ⟨hnew, fun h' => lt_irrefl _ (hio.flight_lt _ h'),
          fun h' => lt_irrefl _ (hio.released_lt _ h'),
          fun w h' => lt_irrefl _ (hio.taking_lt _ w h')⟩
      · exact hio.working y hy hs t ht
    · rintro y (rfl | ⟨hy, -⟩) z (rfl | ⟨hz, -⟩) t hyt hzt
      · rfl
      · cases hyt
        exact absurd (hio.seat_lt z hz _ hzt) (lt_irrefl _)
      · cases hzt
        exact absurd (hio.seat_lt y hy _ hyt) (lt_irrefl _)
      · exact hio.unique y hy z hz t hyt hzt
    · intro t w hw'
      rcases hio.taker t w hw' with ⟨y, hy, hp, hs, ht⟩ | hd
      · refine .inl ⟨y, .inr ⟨hy, fun he => ?_⟩, hp, hs, ht⟩
        rw [h.placed_uniq hx y hy he] at ht
        cases ht
      · refine .inr ⟨hdying w hd.1, ?_⟩
        rintro y (rfl | ⟨hy, -⟩) hp
        · rcases (hd.1.2 _ hx).1 hp with hs | hs <;> cases hs
        · exact hd.2 y hy hp
    · rintro y (rfl | ⟨hy, -⟩) t ht
      · cases ht
        exact Nat.lt_succ_self _
      · exact hlt t (hio.seat_lt y hy t ht)
  · simp only [Multiset.mem_cons, reduceCtorEq, false_or, hmove]
    rintro z (rfl | ⟨hz, -⟩) hq
    · cases hq
    · simpa using h.queue z hz hq
  · simp only [hmove]
    exact fun k hk => (h.ended k hk).move hx rfl rfl fun _ => by simp [Process.hold]
  · simp only [Multiset.mem_cons, reduceCtorEq, false_or, hmove]
    intro t w ht
    have hown := h.owned t w (Multiset.mem_cons_of_mem ht)
    refine ⟨Nat.lt_succ_of_lt hown.1, ?_⟩
    rintro y (rfl | ⟨hy, -⟩) hyt
    · cases hyt
      exact absurd hown.1 (lt_irrefl _)
    · exact hown.2 y hy hyt
  · simp only [hmove]
    exact h.waiting.move fun hs => by cases hs

/-- The registration of a token by the thread that has its process. -/
theorem ioWaitersInsert {p : Process V} {t : ℕ} (h : Inv s (.seat (p.awaiting t) ::ₘ T)) :
    Inv { s with ioWaiters := Function.update s.ioWaiters t (some p.pid) }
      (.seat (p.hold .working ∅ ∅ (some t)) ::ₘ T) := by
  have hx : Placed s.processes (.seat (p.awaiting t) ::ₘ T) (p.awaiting t) :=
    .inr (Multiset.mem_cons_self _ _)
  have hmove := h.places.placed_swap (y := p.hold .working ∅ ∅ (some t)) rfl
  have hf := h.family
  simp only [Multiset.mem_cons, reduceCtorEq, false_or] at hf
  have hw := h.waits
  simp only [Multiset.mem_cons, reduceCtorEq, false_or, covered_cons, seen_cons] at hw
  have hio := h.io
  simp only [Multiset.mem_cons, reduceCtorEq, false_or, countP_takes_cons] at hio
  obtain ⟨-, hflight, hreleased, htaking⟩ := hio.working _ hx rfl t rfl
  have hport : Port (p.awaiting t) (p.hold .working ∅ ∅ (some t)) := ⟨rfl, rfl, .inl rfl, id⟩
  have hne : ∀ y, Placed s.processes (.seat (p.awaiting t) ::ₘ T) y → y.pid ≠ p.pid →
      y.io ≠ some t := fun y hy hp ht => hp (hio.unique y hy _ hx t ht rfl)
  refine ⟨h.places.swap rfl (by simp [Process.hold]), ?_, ?_, ?_, ?_, by simpa using h.pending,
    ?_, ?_, ?_⟩
  · have hk : Kin (p.awaiting t) (p.hold .working ∅ ∅ (some t)) := ⟨rfl, rfl, rfl, rfl, .inl⟩
    simp only [Multiset.mem_cons, reduceCtorEq, false_or, hmove]
    exact hf.mono fun z hz => Move.from Kin.refl hx hk hz
  · simp only [Multiset.mem_cons, reduceCtorEq, false_or, covered_cons, seen_cons, hmove]
    exact hw.move hx (h.placed_uniq hx)
      ⟨rfl, fun _ hc => .inl hc, rfl, rfl, Finset.Subset.refl _⟩ fun hs => by cases hs
  · simp only [Multiset.mem_cons, reduceCtorEq, false_or, countP_takes_cons, hmove]
    refine ⟨?_, ?_, ?_, ?_, ?_, ?_, fun w hw' => ⟨(hio.dead w hw').1.mono fun y hy =>
      Move.from Port.refl hx hport hy, fun t' => ?_⟩, hio.one, hio.flight_lt, hio.released_lt,
      hio.taking_lt, ?_⟩
    · intro t' w hw'
      by_cases ht : t' = t
      · subst ht
        simp only [Function.update_self, Option.some.injEq] at hw'
        exact ⟨_, .inl rfl, hw', rfl⟩
      · rw [Function.update_of_ne ht] at hw'
        obtain ⟨y, hy, hp, hyt⟩ := hio.reg t' w hw'
        refine ⟨y, .inr ⟨hy, fun he => ht ?_⟩, hp, hyt⟩
        rw [h.placed_uniq hx y hy he] at hyt
        exact (Option.some.inj hyt).symm
    · rintro y (rfl | ⟨hy, hp⟩) hs t' ht'
      · cases hs
      · have ht : t' ≠ t := by
          rintro rfl
          exact hne y hy hp ht'
        rw [Function.update_of_ne ht]
        exact hio.parked y hy hs t' ht'
    · rintro y (rfl | ⟨hy, hp⟩) hs t' ht'
      · cases ht'
        exact ⟨Function.update_self _ _ _, hflight, hreleased, htaking⟩
      · have ht : t' ≠ t := by
          rintro rfl
          exact hne y hy hp ht'
        rw [Function.update_of_ne ht]
        exact hio.working y hy hs t' ht'
    · rintro y (rfl | ⟨hy, hp⟩) z (rfl | ⟨hz, hp'⟩) t' hyt hzt
      · rfl
      · cases hyt
        exact absurd hzt (hne z hz hp')
      · cases hzt
        exact absurd hyt (hne y hy hp)
      · exact hio.unique y hy z hz t' hyt hzt
    · intro t' w hw'
      have ht : t' ≠ t := by
        rintro rfl
        exact htaking w hw'
      rw [Function.update_of_ne ht]
      exact hio.taken t' w hw'
    · intro t' w hw'
      rcases hio.taker t' w hw' with ⟨y, hy, hp, hs, ht⟩ | hd
      · refine .inl ⟨y, .inr ⟨hy, fun he => ?_⟩, hp, hs, ht⟩
        rw [h.placed_uniq hx y hy he] at hs
        cases hs
      · exact .inr ⟨hd.1.mono fun y hy => Move.from Port.refl hx hport hy,
          hd.2.mono fun y hy => Move.from Port.refl hx hport hy⟩
    · by_cases ht : t' = t
      · subst ht
        rw [Function.update_self]
        intro he
        rcases ((hio.dead w hw').1.2 _ hx).1 (Option.some.inj he) with hs | hs <;> cases hs
      · rw [Function.update_of_ne ht]
        exact (hio.dead w hw').2 t'
    · rintro y (rfl | ⟨hy, -⟩) t' ht'
      · exact hio.seat_lt _ hx t' ht'
      · exact hio.seat_lt y hy t' ht'
  · simp only [Multiset.mem_cons, reduceCtorEq, false_or, hmove]
    rintro z (rfl | ⟨hz, -⟩) hq
    · cases hq
    · simpa using h.queue z hz hq
  · simp only [hmove]
    exact fun k hk => (h.ended k hk).move hx rfl rfl fun _ => by
      simp [Process.awaiting]
  · simp only [Multiset.mem_cons, reduceCtorEq, false_or, hmove]
    exact fun t' w ht => (h.owned t' w (Multiset.mem_cons_of_mem ht)).move hx rfl (.inl rfl)
  · simp only [hmove]
    exact h.waiting.move fun hs => by cases hs

/-- The registration of a process that is to be terminated is removed. -/
theorem ioWaitersClear {p : Process V} {R : Finset (WaitMap × ℕ)} {t : ℕ}
    (h : Inv s (.seat (p.hold .doomed ∅ R (some t)) ::ₘ T)) :
    Inv { s with ioWaiters := Function.update s.ioWaiters t none }
      (.seat (p.hold .doomed ∅ R none) ::ₘ T) := by
  have hx : Placed s.processes (.seat (p.hold .doomed ∅ R (some t)) ::ₘ T)
      (p.hold .doomed ∅ R (some t)) := .inr (Multiset.mem_cons_self _ _)
  have hmove := h.places.placed_swap (y := p.hold .doomed ∅ R none) rfl
  have hf := h.family
  simp only [Multiset.mem_cons, reduceCtorEq, false_or] at hf
  have hw := h.waits
  simp only [Multiset.mem_cons, reduceCtorEq, false_or, covered_cons, seen_cons] at hw
  have hio := h.io
  simp only [Multiset.mem_cons, reduceCtorEq, false_or, countP_takes_cons] at hio
  have hport : Port (p.hold .doomed ∅ R (some t)) (p.hold .doomed ∅ R none) :=
    ⟨rfl, rfl, .inr rfl, id⟩
  have hne : ∀ y, Placed s.processes (.seat (p.hold .doomed ∅ R (some t)) ::ₘ T) y →
      y.pid ≠ p.pid → y.io ≠ some t := fun y hy hp ht => hp (hio.unique y hy _ hx t ht rfl)
  have hnone : ∀ t', s.ioWaiters t' = none → Function.update s.ioWaiters t none t' = none :=
    fun t' ht' => by
      rw [Function.update_apply, ht']
      split <;> rfl
  refine ⟨h.places.swap rfl (by simp [Process.hold]), ?_, ?_, ?_, ?_, by simpa using h.pending,
    ?_, ?_, ?_⟩
  · have hk : Kin (p.hold .doomed ∅ R (some t)) (p.hold .doomed ∅ R none) :=
      ⟨rfl, rfl, rfl, rfl, .inl⟩
    simp only [Multiset.mem_cons, reduceCtorEq, false_or, hmove]
    exact hf.mono fun z hz => Move.from Kin.refl hx hk hz
  · simp only [Multiset.mem_cons, reduceCtorEq, false_or, covered_cons, seen_cons, hmove]
    exact hw.move hx (h.placed_uniq hx)
      ⟨rfl, fun _ hc => .inl hc, rfl, rfl, Finset.Subset.refl _⟩ fun hs => by cases hs
  · simp only [Multiset.mem_cons, reduceCtorEq, false_or, countP_takes_cons, hmove]
    refine ⟨?_, ?_, ?_, ?_, fun t' w hw' => hnone t' (hio.taken t' w hw'), ?_,
      fun w hw' => ⟨(hio.dead w hw').1.mono fun y hy => Move.from Port.refl hx hport hy,
        fun t' he => ?_⟩, hio.one, hio.flight_lt, hio.released_lt, hio.taking_lt, ?_⟩
    · intro t' w hw'
      have ht : t' ≠ t := by
        rintro rfl
        simp at hw'
      rw [Function.update_of_ne ht] at hw'
      obtain ⟨y, hy, hp, hyt⟩ := hio.reg t' w hw'
      refine ⟨y, .inr ⟨hy, fun he => ht ?_⟩, hp, hyt⟩
      rw [h.placed_uniq hx y hy he] at hyt
      exact (Option.some.inj hyt).symm
    · rintro y (rfl | ⟨hy, hp⟩) hs t' ht'
      · cases hs
      · have ht : t' ≠ t := by
          rintro rfl
          exact hne y hy hp ht'
        rw [Function.update_of_ne ht]
        exact hio.parked y hy hs t' ht'
    · rintro y (rfl | ⟨hy, hp⟩) hs t' ht'
      · cases hs
      · have ht : t' ≠ t := by
          rintro rfl
          exact hne y hy hp ht'
        rw [Function.update_of_ne ht]
        exact hio.working y hy hs t' ht'
    · rintro y (rfl | ⟨hy, -⟩) z (rfl | ⟨hz, -⟩) t' hyt hzt
      · rfl
      · cases hyt
      · cases hzt
      · exact hio.unique y hy z hz t' hyt hzt
    · intro t' w hw'
      rcases hio.taker t' w hw' with ⟨y, hy, hp, hs, ht⟩ | hd
      · refine .inl ⟨y, .inr ⟨hy, fun he => ?_⟩, hp, hs, ht⟩
        rw [h.placed_uniq hx y hy he] at hs
        cases hs
      · exact .inr ⟨hd.1.mono fun y hy => Move.from Port.refl hx hport hy,
          hd.2.mono fun y hy => Move.from Port.refl hx hport hy⟩
    · by_cases ht : t' = t
      · subst ht
        simp at he
      · rw [Function.update_of_ne ht] at he
        exact (hio.dead w hw').2 t' he
    · rintro y (rfl | ⟨hy, -⟩) t' ht'
      · cases ht'
      · exact hio.seat_lt y hy t' ht'
  · simp only [Multiset.mem_cons, reduceCtorEq, false_or, hmove]
    rintro z (rfl | ⟨hz, -⟩) hq
    · cases hq
    · simpa using h.queue z hz hq
  · simp only [hmove]
    exact fun k hk => (h.ended k hk).move hx rfl rfl fun _ => by simp [Process.hold]
  · simp only [Multiset.mem_cons, reduceCtorEq, false_or, hmove]
    exact fun t' w ht => (h.owned t' w (Multiset.mem_cons_of_mem ht)).move hx rfl (.inr rfl)
  · simp only [hmove]
    exact h.waiting.move fun hs => by cases hs

/-- The registration of a token that the backend may have is taken. -/
theorem ioWaitersTake {t w : ℕ} (h : Inv s (.released t ::ₘ T)) (hw : s.ioWaiters t = some w) :
    Inv { s with ioWaiters := Function.update s.ioWaiters t none }
      (.taking t w ::ₘ .released t ::ₘ T) := by
  have hio := h.io
  simp only [placed_cons, countP_takes_cons] at hio
  have hreleased : Token.released t ∈ Token.released t ::ₘ T := Multiset.mem_cons_self _ _
  have hno : ∀ v, Token.taking t v ∉ T := fun v hv => by
    have := hio.taken t v (Multiset.mem_cons_of_mem hv)
    rw [hw] at this
    cases this
  have hnone : ∀ t', s.ioWaiters t' = none → Function.update s.ioWaiters t none t' = none :=
    fun t' ht' => by
      rw [Function.update_apply, ht']
      split <;> rfl
  obtain ⟨x, hx, hxw, hxt⟩ := hio.reg t w hw
  have hplaces := h.places
  rw [places_cons rfl] at hplaces
  have huniq : ∀ y, Placed s.processes T y → y.pid = x.pid → y = x :=
    fun y hy hp => hplaces.uniq hy hx hp
  have hf := h.family
  simp only [placed_cons] at hf
  refine ⟨by simpa using h.places, by simpa using h.family, by simpa using h.waits, ?_,
    by simpa using h.queue, by simpa using h.pending,
    by simpa using h.ended,
    by simpa using h.owned, by simpa using h.waiting⟩
  simp only [placed_cons, Multiset.mem_cons, reduceCtorEq, false_or, countP_takes_taking,
    Token.taking.injEq, Token.released.injEq]
  simp only [Multiset.mem_cons, reduceCtorEq, false_or, Token.released.injEq] at hio
  refine ⟨?_, ?_, ?_, hio.unique, ?_, ?_, ?_, ?_, hio.flight_lt, hio.released_lt, ?_, hio.seat_lt⟩
  · intro t' v hv
    have ht : t' ≠ t := by
      rintro rfl
      simp at hv
    exact hio.reg t' v (by rwa [Function.update_of_ne ht] at hv)
  · intro y hy hs t' ht'
    by_cases ht : t' = t
    · subst ht
      have hpid := hio.unique y hy x hx t' ht' hxt
      exact .inr (.inl ⟨rfl, hpid.trans hxw⟩)
    · rw [Function.update_of_ne ht]
      rcases hio.parked y hy hs t' ht' with h' | h'
      · exact .inl h'
      · exact .inr (.inr h')
  · intro y hy hs t' ht'
    obtain ⟨h1, h2, h3, h4⟩ := hio.working y hy hs t' ht'
    have ht : t' ≠ t := fun he => h3 (.inl he)
    rw [Function.update_of_ne ht]
    refine ⟨h1, h2, h3, ?_⟩
    rintro v (⟨he, -⟩ | hv)
    · exact ht he
    · exact h4 v hv
  · rintro t' v (⟨rfl, rfl⟩ | hv)
    · exact Function.update_self _ _ _
    · exact hnone t' (hio.taken t' v hv)
  · rintro t' v (⟨rfl, rfl⟩ | hv)
    · by_cases hs : x.stage = .parked
      · exact .inl ⟨x, hx, hxw, hs, hxt⟩
      · have hstage : x.stage = .doomed ∨ x.stage = .recorded := by
          rcases hx' : x.stage with _ | _ | _ | _ | _
          · -- a process that is queued waits for nothing
            rcases hx with ⟨p, hp, hl, rfl⟩ | hmem
            · exfalso
              unfold Process.seat at hx' hxt
              split at hx'
              · cases hx'
              · simp_all [Process.hold]
            · exact absurd hx' (h.places.hand x (Multiset.mem_cons_of_mem hmem)).1
          · exact absurd hx' hs
          · exact absurd (.inl rfl) (hio.working x hx hx' t' hxt).2.2.1
          · exact .inl rfl
          · exact .inr rfl
        refine .inr ⟨⟨hxw ▸ hf.pos x hx, fun y hy => ⟨fun hp => ?_, fun hfr => ?_⟩⟩,
          fun y hy hp => ?_⟩
        · rw [huniq y hy (hp.trans hxw.symm)]
          exact hstage
        · have := (hf.fresh y hy v hfr).2.1
          exact this (hxw ▸ hplaces.live_of_placed hx)
        · rw [huniq y hy (hp.trans hxw.symm)]
          exact .inl hxt
    · exact hio.taker t' v hv
  · intro v hv
    refine ⟨(hio.dead v hv).1, fun t' he => ?_⟩
    by_cases ht : t' = t
    · subst ht
      simp at he
    · rw [Function.update_of_ne ht] at he
      exact (hio.dead v hv).2 t' he
  · intro t'
    by_cases ht : t' = t
    · subst ht
      have : T.countP (Token.takes t') = 0 := Multiset.countP_eq_zero.mpr fun u hu hut => by
        obtain ⟨v, rfl⟩ := hut
        exact hno v hu
      simp [this]
    · simpa [Ne.symm ht] using hio.one t'
  · rintro t' v (⟨rfl, -⟩ | hv)
    · exact hio.released_lt _ (.inl rfl)
    · exact hio.taking_lt t' v hv

/-- A process that is not parked for the token any more is being terminated, or is gone. -/
theorem taking_dying {t w : ℕ} (h : Inv s (.taking t w ::ₘ T))
    (hno : ∀ x, Placed s.processes T x → x.pid = w → x.stage = .parked → x.io ≠ some t) :
    Inv s (.dying w ::ₘ T) := by
  have hio := h.io
  simp only [placed_cons, Multiset.mem_cons, reduceCtorEq, false_or, Token.taking.injEq] at hio
  have hnone := hio.taken t w (.inl ⟨rfl, rfl⟩)
  refine ⟨by simpa using h.places, by simpa using h.family, by simpa using h.waits, ?_,
    by simpa using h.queue, by simpa using h.pending,
    by simpa using h.ended,
    by simpa using h.owned, by simpa using h.waiting⟩
  simp only [placed_cons, Multiset.mem_cons, reduceCtorEq, false_or, countP_takes_cons,
    Token.dying.injEq]
  refine { hio with
    parked := ?_, working := ?_, taken := ?_, taker := ?_, dead := ?_, one := ?_, taking_lt := ?_ }
  · intro y hy hs t' ht'
    rcases hio.parked y hy hs t' ht' with h' | ⟨rfl, hp⟩ | h'
    · exact .inl h'
    · exact absurd ht' (hno y hy hp hs)
    · exact .inr h'
  · intro y hy hs t' ht'
    obtain ⟨h1, h2, h3, h4⟩ := hio.working y hy hs t' ht'
    exact ⟨h1, h2, h3, fun v hv => h4 v (.inr hv)⟩
  · exact fun t' v hv => hio.taken t' v (.inr hv)
  · exact fun t' v hv => hio.taker t' v (.inr hv)
  · rintro v (rfl | hv)
    · rcases hio.taker t v (.inl ⟨rfl, rfl⟩) with ⟨y, hy, hp, hs, ht⟩ | hd
      · exact absurd ht (hno y hy hp hs)
      · refine ⟨hd.1, fun t' he => ?_⟩
        obtain ⟨y, hy, hp, ht'⟩ := hio.reg t' v he
        rcases hd.2 y hy hp with ht | ht
        · rw [ht'] at ht
          cases ht
          rw [hnone] at he
          cases he
        · rw [ht'] at ht
          cases ht
    · exact hio.dead v hv
  · intro t'
    exact (Multiset.countP_le_of_le _ (Multiset.le_cons_self T _)).trans (hio.one t')
  · exact fun t' v hv => hio.taking_lt t' v (.inr hv)

/-- The thread may remember to whom a token was given. -/
theorem add_owner {t : ℕ} (h : Inv s T) (hx : Placed s.processes T x) (ht : x.io = some t) :
    Inv s (.owner t x.pid ::ₘ T) where
  places := by simpa using h.places
  family := by simpa using h.family
  waits := by simpa using h.waits
  io := by simpa using h.io
  queue := by simpa using h.queue
  pending := by simpa using h.pending
  ended := by simpa using h.ended
  owned := by
    simp only [Multiset.mem_cons, placed_cons, Token.owner.injEq]
    rintro t' w (⟨rfl, rfl⟩ | hold)
    · exact ⟨h.io.seat_lt x hx t' ht, fun y hy hyt => h.io.unique y hy x hx t' hyt ht⟩
    · exact h.owned t' w hold
  waiting := by simpa using h.waiting

theorem drop_owner {t w : ℕ} (h : Inv s (.owner t w ::ₘ T)) : Inv s T where
  places := by simpa using h.places
  family := by simpa using h.family
  waits := by simpa using h.waits
  io := by simpa using h.io
  queue := by simpa using h.queue
  pending := by simpa using h.pending
  ended := by simpa using h.ended
  owned t w ht := by simpa using h.owned t w (Multiset.mem_cons_of_mem ht)
  waiting := by simpa using h.waiting

theorem drop_dying {w : ℕ} (h : Inv s (.dying w ::ₘ T)) : Inv s T := by
  have hio := h.io
  simp only [placed_cons, Multiset.mem_cons, reduceCtorEq, false_or, countP_takes_cons] at hio
  exact ⟨by simpa using h.places, by simpa using h.family, by simpa using h.waits,
    { hio with dead := fun v hv => hio.dead v (.inr hv) }, by simpa using h.queue,
    by simpa using h.pending, by simpa using h.ended,
    by simpa using h.owned, by simpa using h.waiting⟩

/-- What the backend knows changes: a token it is given was released, and it may forget others. -/
theorem setInFlight {F : Finset ℕ} (h : Inv s T)
    (hF : ∀ t ∈ F, t ∈ s.inFlight ∨ Token.released t ∈ T) : Inv { s with inFlight := F } T :=
  ⟨h.places, h.family, h.waits, h.io.release hF fun _ ht => .inr (.inl ht), h.queue,
    h.pending, h.ended,
    h.owned, h.waiting⟩

/-! ## The queue and the requests to cancel -/

theorem enqueue {pid : ℕ} (h : Inv s (.enq pid ::ₘ T)) :
    Inv { s with queue := s.queue ++ [pid] } T where
  places := by simpa using h.places
  family := by simpa using h.family
  waits := by simpa using h.waits
  io := by simpa using h.io
  queue := by
    intro x hx hs
    rcases h.queue x (by simpa using hx) hs with hq | hq | hq
    · exact .inl (List.mem_append_left _ hq)
    · rcases Multiset.mem_cons.mp hq with he | hq
      · refine .inl (List.mem_append_right _ ?_)
        rw [Token.enq.inj he]
        exact List.mem_singleton.mpr rfl
      · exact .inr (.inl hq)
    · exact .inr (.inr (by simpa using hq))
  pending := by simpa using h.pending
  ended := by simpa using h.ended
  owned := by simpa using h.owned
  waiting := by simpa using h.waiting

theorem dequeue {pid : ℕ} {rest : List ℕ} (h : Inv s T) (hq : s.queue = pid :: rest) :
    Inv { s with queue := rest } (.deq pid ::ₘ T) where
  places := by simpa using h.places
  family := by simpa using h.family
  waits := by simpa using h.waits
  io := by simpa using h.io
  queue := by
    intro x hx hs
    have hold := h.queue x (by simpa using hx) hs
    rw [hq, List.mem_cons] at hold
    simp only [Multiset.mem_cons, reduceCtorEq, false_or, Token.deq.injEq]
    tauto
  pending := by simpa using h.pending
  ended := by simpa using h.ended
  owned := by simpa using h.owned
  waiting := by simpa using h.waiting

/-- `remove`, of a process in the hands of a thread. -/
theorem schedulerRemove {x : Seat} (h : Inv s (.seat x ::ₘ T)) :
    Inv { s with queue := s.queue.filter (· ≠ x.pid) } (.seat x ::ₘ T) where
  places := h.places
  family := h.family
  waits := h.waits
  io := h.io
  queue := by
    intro y hy hs
    have hmem : Token.seat x ∈ Token.seat x ::ₘ T := Multiset.mem_cons_self _ _
    have hne : y.pid ≠ x.pid := fun he => by
      rw [h.placed_uniq (.inr hmem) y hy he] at hs
      exact (h.places.hand x hmem).1 hs
    rcases h.queue y hy hs with hq | hq
    · exact .inl (List.mem_filter.mpr ⟨hq, by simpa using hne⟩)
    · exact .inr hq
  pending := h.pending
  ended := h.ended
  owned := h.owned
  waiting := h.waiting

theorem pendingInsert (h : Inv s T) (pid : ℕ) :
    Inv { s with pendingCancels := insert pid s.pendingCancels } (.unpend pid ::ₘ T) where
  places := by simpa using h.places
  family := by simpa using h.family
  waits := by simpa using h.waits
  io := by simpa using h.io
  queue := by simpa using h.queue
  pending := by
    intro pid' hp
    rcases Finset.mem_insert.mp hp with rfl | hp
    · exact .inr (Multiset.mem_cons_self _ _)
    · rcases h.pending pid' hp with hl | hu
      · exact .inl hl
      · exact .inr (Multiset.mem_cons_of_mem hu)
  ended := by simpa using h.ended
  owned := by simpa using h.owned
  waiting := by simpa using h.waiting

theorem pendingRemove (h : Inv s T) (pid : ℕ) :
    Inv { s with pendingCancels := s.pendingCancels.erase pid } T :=
  ⟨h.places, h.family, h.waits, h.io, h.queue,
    fun pid' hp => h.pending pid' (Finset.mem_of_mem_erase hp), h.ended, h.owned, h.waiting⟩

/-- The thread that looks for a request that is left over removes it. -/
theorem pendingClear {pid : ℕ} (h : Inv s (.unpend pid ::ₘ T)) :
    Inv { s with pendingCancels := s.pendingCancels.erase pid } T where
  places := by simpa using h.places
  family := by simpa using h.family
  waits := by simpa using h.waits
  io := by simpa using h.io
  queue := by simpa using h.queue
  pending := by
    intro pid' hp
    obtain ⟨hne, hp⟩ := Finset.mem_erase.mp hp
    rcases h.pending pid' hp with hl | hu
    · exact .inl hl
    · exact .inr (by simpa [hne] using hu)
  ended := by simpa using h.ended
  owned := by simpa using h.owned
  waiting := by simpa using h.waiting

/-- A request to a process that is in the table leaves its seat as it is. -/
theorem request {p : Process V} (h : Inv s T) (hp : s.processes p.pid = some p) (vm : V) :
    Inv { s with processes := Function.update s.processes p.pid (some { p with vm := vm }) } T := by
  have hseat : ({ p with vm := vm } : Process V).seat = p.seat := rfl
  have hl : ({ p with vm := vm } : Process V).isLive = p.isLive := rfl
  have htable : ∀ k, InTable (Function.update s.processes p.pid (some { p with vm := vm })) k ↔
      InTable s.processes k := fun k => by
    by_cases hk : k = p.pid
    · subst hk
      simp [InTable, hp, hl]
    · simp [InTable, hk]
  have hplaced : Placed (Function.update s.processes p.pid (some { p with vm := vm })) T =
      Placed s.processes T := by
    funext y
    by_cases hy : y.pid = p.pid
    · simp [Placed, hy, hp, hl, hseat]
    · simp [Placed, hy]
  refine ⟨⟨fun k r hr => ?_, fun k hk => h.places.table k ((htable k).mp hk),
    fun k hk => h.places.hands k fun ht => hk ((htable k).mpr ht), h.places.hand,
    fun k r hr hrl => ?_⟩, ?_, ?_, ?_, ?_, h.pending, ?_, ?_, ?_⟩
  · by_cases hk : k = p.pid
    · subst hk
      simp only [Function.update_self, Option.some.injEq] at hr
      exact hr ▸ rfl
    · simp only [Function.update_of_ne hk] at hr
      exact h.places.key k r hr
  · by_cases hk : k = p.pid
    · subst hk
      simp only [Function.update_self, Option.some.injEq] at hr
      subst hr
      exact h.places.root p.pid p hp hrl
    · simp only [Function.update_of_ne hk] at hr
      exact h.places.root k r hr hrl
  · simpa only [hplaced] using h.family
  · simpa only [hplaced] using h.waits
  · simpa only [hplaced] using h.io
  · simpa only [hplaced] using h.queue
  · simp only [hplaced]
    rintro k ⟨r, hr, hrl⟩
    by_cases hk : k = p.pid
    · subst hk
      simp only [Function.update_self, Option.some.injEq] at hr
      subst hr
      exact h.ended p.pid ⟨p, hp, hrl⟩
    · exact h.ended k ⟨r, by rwa [Function.update_of_ne hk] at hr, hrl⟩
  · simpa only [hplaced] using h.owned
  · simpa only [hplaced] using h.waiting

end Inv

end Hiko.Threaded
