import Mathlib.Tactic

/-!
# Marking a graph with a worklist

Depth-first marking over nodes `0, …, n - 1`, as a tracing collector does it: a node is marked
when it is pushed, and the marks are an array that is indexed without a check, so that a node
outside it is a fault (`none`). The loop runs on fuel; `n` rounds are enough, because a round
takes one node off the worklist and only a newly marked node is put on it.

## Main definitions

* `Reaches succ roots i`: node `i` is reachable from the roots
* `markFrom succ n roots`: the marks after the worklist ran empty

## Main results

* `markFrom_reaches`: every reachable node is marked
* `markFrom_isSome`: no fault when the roots and all successors are nodes
-/

namespace Hiko.Lib

/-- Node `i` is reachable from `roots`. -/
inductive Reaches {α : Type} (succ : α → List α) (roots : List α) : α → Prop where
  | root {i : α} : i ∈ roots → Reaches succ roots i
  | step {i j : α} : Reaches succ roots i → j ∈ succ i → Reaches succ roots j

theorem Reaches.mono {α : Type} {succ : α → List α} {roots roots' : List α} {i : α}
    (h : Reaches succ roots i) (hr : ∀ r ∈ roots, Reaches succ roots' r) :
    Reaches succ roots' i := by
  induction h with
  | root hi => exact hr _ hi
  | step _ hj ih => exact .step ih hj

/-- Reachability only depends on the successors of the nodes it passes. -/
theorem Reaches.congr {α : Type} {succ succ' : α → List α} {roots : List α} {i : α}
    (h : Reaches succ roots i) (hs : ∀ j, Reaches succ roots j → succ' j = succ j) :
    Reaches succ' roots i := by
  induction h with
  | root hi => exact .root hi
  | step hi hj ih => exact .step ih (by rw [hs _ hi]; exact hj)

section Marks

variable (succ : ℕ → List ℕ)

/-- Mark a list of nodes; the newly marked ones go on the worklist. -/
def markAll : List ℕ → List Bool → List ℕ → Option (List Bool × List ℕ)
  | [], marks, work => some (marks, work)
  | r :: rs, marks, work =>
    match marks[r]? with
    | none => none
    | some true => markAll rs marks work
    | some false => markAll rs (marks.set r true) (r :: work)

/-- Pop nodes and mark their successors until the worklist is empty. -/
def trace : ℕ → List Bool → List ℕ → Option (List Bool)
  | _, marks, [] => some marks
  | 0, marks, _ :: _ => some marks
  | fuel + 1, marks, i :: work =>
    match markAll (succ i) marks work with
    | none => none
    | some (marks', work') => trace fuel marks' work'

/-- The marks of `n` nodes from `roots`. -/
def markFrom (n : ℕ) (roots : List ℕ) : Option (List Bool) :=
  match markAll roots (List.replicate n false) [] with
  | none => none
  | some (marks, work) => trace succ n marks work

end Marks

/-- Node `i` is marked. -/
def Marked (marks : List Bool) (i : ℕ) : Prop := marks[i]? = some true

/-- The rounds a marking state still has: its unmarked nodes and its worklist. -/
def rounds (marks : List Bool) (work : List ℕ) : ℕ := marks.count false + work.length

theorem Marked.set {marks : List Bool} {i r : ℕ} (h : Marked marks i) :
    Marked (marks.set r true) i := by
  unfold Marked at *
  rw [List.getElem?_set]
  split
  · next hr => subst hr; simp [(List.getElem?_eq_some_iff.mp h).1]
  · exact h

theorem marked_set_self {marks : List Bool} {r : ℕ} (h : r < marks.length) :
    Marked (marks.set r true) r := by
  simp [Marked, h]

theorem rounds_set {marks : List Bool} {work : List ℕ} {r : ℕ} (h : marks[r]? = some false) :
    rounds (marks.set r true) (r :: work) = rounds marks work := by
  obtain ⟨hr, hv⟩ := List.getElem?_eq_some_iff.mp h
  have hc := List.count_set (a := true) (b := false) hr
  have hpos : 0 < marks.count false := List.count_pos_iff.mpr (hv ▸ List.getElem_mem hr)
  simp only [hv, beq_self_eq_true, if_true] at hc
  simp only [rounds, hc, List.length_cons]
  simp
  omega

/-- What marking a list of nodes does: the old marks and worklist stay, the nodes are marked,
every new mark is on the worklist, and no round is lost. -/
theorem markAll_spec {rs : List ℕ} {marks marks' : List Bool} {work work' : List ℕ}
    (h : markAll rs marks work = some (marks', work')) :
    marks'.length = marks.length ∧ (∀ i, Marked marks i → Marked marks' i) ∧
      (∀ i ∈ rs, Marked marks' i) ∧ (∀ i ∈ work, i ∈ work') ∧
      (∀ i, Marked marks' i → Marked marks i ∨ i ∈ work') ∧
      rounds marks' work' = rounds marks work := by
  induction rs generalizing marks work with
  | nil =>
    obtain ⟨rfl, rfl⟩ : marks = marks' ∧ work = work' := by simpa [markAll] using h
    simp +contextual
  | cons r rs ih =>
    unfold markAll at h
    split at h
    · cases h
    · next hr =>
      obtain ⟨hlen, hmono, hrs, hwork, hnew, hrounds⟩ := ih h
      refine ⟨hlen, hmono, ?_, hwork, hnew, hrounds⟩
      intro i hi
      rcases List.mem_cons.mp hi with rfl | hi
      · exact hmono _ hr
      · exact hrs i hi
    · next hr =>
      have hlt := (List.getElem?_eq_some_iff.mp hr).1
      obtain ⟨hlen, hmono, hrs, hwork, hnew, hrounds⟩ := ih h
      refine ⟨by simpa using hlen, fun i hi => hmono i hi.set, ?_,
        fun i hi => hwork i (List.mem_cons_of_mem _ hi), ?_, by rw [hrounds, rounds_set hr]⟩
      · intro i hi
        rcases List.mem_cons.mp hi with rfl | hi
        · exact hmono _ (marked_set_self hlt)
        · exact hrs i hi
      · intro i hi
        rcases hnew i hi with hm | hm
        · by_cases hir : i = r
          · exact .inr (hwork i (by simp [hir]))
          · left
            unfold Marked at hm ⊢
            rwa [List.getElem?_set_ne (Ne.symm hir)] at hm
        · exact .inr hm

/-- A marked node is on the worklist or has all its successors marked. -/
def Frontier (succ : ℕ → List ℕ) (marks : List Bool) (work : List ℕ) : Prop :=
  ∀ i, Marked marks i → i ∈ work ∨ ∀ j ∈ succ i, Marked marks j

/-- The trace loop keeps the marks it has and, with enough fuel, closes them. -/
theorem trace_spec {succ : ℕ → List ℕ} {fuel : ℕ} {marks marks' : List Bool} {work : List ℕ}
    (h : trace succ fuel marks work = some marks') (hf : Frontier succ marks work)
    (hfuel : rounds marks work ≤ fuel) :
    marks'.length = marks.length ∧ (∀ i, Marked marks i → Marked marks' i) ∧
      ∀ i, Marked marks' i → ∀ j ∈ succ i, Marked marks' j := by
  induction fuel generalizing marks work with
  | zero =>
    -- no round left, so the worklist is empty
    have hw : work = [] := by
      rw [← List.length_eq_zero_iff]
      unfold rounds at hfuel
      omega
    subst hw
    obtain rfl : marks = marks' := by simpa [trace] using h
    exact ⟨rfl, fun _ hi => hi, fun i hi => by simpa using hf i hi⟩
  | succ fuel ih =>
    cases work with
    | nil =>
      obtain rfl : marks = marks' := by simpa [trace] using h
      exact ⟨rfl, fun _ hi => hi, fun i hi => by simpa using hf i hi⟩
    | cons n work =>
      unfold trace at h
      split at h
      · cases h
      · next m w hm =>
        obtain ⟨hlen, hmono, hsucc, hwork, hnew, hrounds⟩ := markAll_spec hm
        have hfront : Frontier succ m w := by
          intro i hi
          rcases hnew i hi with hold | hin
          · rcases hf i hold with hw | hd
            · rcases List.mem_cons.mp hw with rfl | hw
              · exact .inr hsucc
              · exact .inl (hwork i hw)
            · exact .inr fun j hj => hmono j (hd j hj)
          · exact .inl hin
        have hle : rounds m w ≤ fuel := by
          rw [hrounds]
          simp only [rounds, List.length_cons] at hfuel ⊢
          omega
        obtain ⟨hlen', hmono', hclosed⟩ := ih h hfront hle
        exact ⟨hlen'.trans hlen, fun i hi => hmono' i (hmono i hi), hclosed⟩

theorem not_marked_replicate (n i : ℕ) : ¬ Marked (List.replicate n false) i := by
  simp [Marked, List.getElem?_replicate]

/-- The marks are those of the nodes, and they hold the roots and are closed. -/
theorem markFrom_spec {succ : ℕ → List ℕ} {n : ℕ} {roots : List ℕ} {marks : List Bool}
    (h : markFrom succ n roots = some marks) :
    marks.length = n ∧ (∀ r ∈ roots, Marked marks r) ∧
      ∀ i, Marked marks i → ∀ j ∈ succ i, Marked marks j := by
  unfold markFrom at h
  split at h
  · cases h
  · next m w hm =>
    obtain ⟨hlen, -, hroots, -, hnew, hrounds⟩ := markAll_spec hm
    have hfront : Frontier succ m w := by
      intro i hi
      rcases hnew i hi with hold | hin
      · exact absurd hold (not_marked_replicate n i)
      · exact .inl hin
    have hle : rounds m w ≤ n := by rw [hrounds]; simp [rounds]
    obtain ⟨hlen', hmono, hclosed⟩ := trace_spec h hfront hle
    exact ⟨by simpa [hlen'] using hlen, fun r hr => hmono r (hroots r hr), hclosed⟩

/-- **Every reachable node is marked.** -/
theorem markFrom_reaches {succ : ℕ → List ℕ} {n : ℕ} {roots : List ℕ} {marks : List Bool}
    (h : markFrom succ n roots = some marks) {i : ℕ} (hi : Reaches succ roots i) :
    Marked marks i := by
  obtain ⟨-, hroots, hclosed⟩ := markFrom_spec h
  induction hi with
  | root hr => exact hroots _ hr
  | step _ hj ih => exact hclosed _ ih _ hj

theorem markAll_isSome {rs : List ℕ} {marks : List Bool} {work : List ℕ}
    (h : ∀ r ∈ rs, r < marks.length) (hw : ∀ i ∈ work, i < marks.length) :
    ∃ marks' work', markAll rs marks work = some (marks', work') ∧
      marks'.length = marks.length ∧ ∀ i ∈ work', i < marks.length := by
  induction rs generalizing marks work with
  | nil => exact ⟨marks, work, rfl, rfl, hw⟩
  | cons r rs ih =>
    simp only [List.mem_cons, forall_eq_or_imp] at h
    cases hr : marks[r]? with
    | none => exact absurd (List.getElem?_eq_none_iff.mp hr) (by omega)
    | some b =>
      cases b with
      | true => simpa [markAll, hr] using ih h.2 hw
      | false =>
        have hrs : ∀ x ∈ rs, x < (marks.set r true).length := by simpa using h.2
        have hwork : ∀ i ∈ r :: work, i < (marks.set r true).length := by simpa using ⟨h.1, hw⟩
        simpa [markAll, hr] using ih hrs hwork

theorem trace_isSome {succ : ℕ → List ℕ} {n fuel : ℕ} {marks : List Bool} {work : List ℕ}
    (hn : marks.length = n) (hs : ∀ i < n, ∀ j ∈ succ i, j < n) (hw : ∀ i ∈ work, i < n) :
    (trace succ fuel marks work).isSome := by
  induction fuel generalizing marks work with
  | zero => cases work <;> simp [trace]
  | succ fuel ih =>
    cases work with
    | nil => simp [trace]
    | cons i work =>
      simp only [List.mem_cons, forall_eq_or_imp] at hw
      have hsucc : ∀ j ∈ succ i, j < marks.length := by simpa [hn] using hs i hw.1
      have hwork : ∀ j ∈ work, j < marks.length := by simpa [hn] using hw.2
      obtain ⟨m, w, hm, hlen, hw'⟩ := markAll_isSome hsucc hwork
      simp only [trace, hm]
      exact ih (hlen.trans hn) (by simpa [hn] using hw')

/-- **Marking faults at no index** when the roots and the successors of nodes are nodes. -/
theorem markFrom_isSome {succ : ℕ → List ℕ} {n : ℕ} {roots : List ℕ}
    (hr : ∀ r ∈ roots, r < n) (hs : ∀ i < n, ∀ j ∈ succ i, j < n) :
    (markFrom succ n roots).isSome := by
  have hroots : ∀ r ∈ roots, r < (List.replicate n false).length := by simpa using hr
  have hnil : ∀ i ∈ ([] : List ℕ), i < (List.replicate n false).length := by simp
  obtain ⟨m, w, hm, hlen, hw⟩ := markAll_isSome hroots hnil
  simp only [markFrom, hm]
  simp only [List.length_replicate] at hlen hw
  exact trace_isSome hlen hs hw

end Hiko.Lib
