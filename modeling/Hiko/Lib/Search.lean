import Mathlib.Data.Finset.Card
import Mathlib.Logic.Relation
import Mathlib.Tactic

/-!
# Depth-first search with errors

A search visits nodes. At each node it meets events in their order: results, nodes to visit next,
and errors that end the search. A node is visited once for each key.

## Main definitions

* `Event`, `Found`: what is met at a node, what was found so far
* `search`: the search from a node, of a bounded depth
* `Visits`: a node is reached from another

## Main results

* `search_terminates`: with finitely many keys the search ends
* `search_sound`: every result is met at a node that is reached
* `search_complete`: without an error all that is met at the nodes that are reached is found
-/

namespace Hiko.Lib

/-- What a search meets at a node. -/
inductive Event (ν α ε : Type) where
  | emit (a : α)
  | visit (n : ν)
  | fail (e : ε)

/-- The keys of the nodes that were visited, and the results. -/
structure Found (κ α : Type) where
  visited : List κ
  out : List α

namespace Found

variable {κ α : Type}

/-- What was found stays. -/
structure Le (st st' : Found κ α) : Prop where
  visited : ∀ k ∈ st.visited, k ∈ st'.visited
  out : ∀ a ∈ st.out, a ∈ st'.out

theorem Le.refl (st : Found κ α) : st.Le st := ⟨fun _ h => h, fun _ h => h⟩

theorem Le.trans {st st' st'' : Found κ α} (h : st.Le st') (h' : st'.Le st'') : st.Le st'' :=
  ⟨fun k hk => h'.visited k (h.visited k hk), fun a ha => h'.out a (h.out a ha)⟩

theorem le_emit (st : Found κ α) (a : α) : st.Le ⟨st.visited, st.out ++ [a]⟩ :=
  ⟨fun _ hk => hk, fun _ ha => List.mem_append_left _ ha⟩

theorem le_visit (st : Found κ α) (k : κ) : st.Le ⟨k :: st.visited, st.out⟩ :=
  ⟨fun _ hk => List.mem_cons_of_mem _ hk, fun _ ha => ha⟩

end Found

section Search

variable {ν α ε κ : Type}

/-- Take events in order. At a node that is to be visited, `visit` goes on. -/
def takeEvents (visit : ν → Found κ α → Option (Except ε (Found κ α))) :
    List (Event ν α ε) → Found κ α → Option (Except ε (Found κ α))
  | [], st => some (.ok st)
  | .emit a :: events, st => takeEvents visit events ⟨st.visited, st.out ++ [a]⟩
  | .fail e :: _, _ => some (.error e)
  | .visit n :: events, st =>
    match visit n st with
    | some (.ok st') => takeEvents visit events st'
    | res => res

variable [DecidableEq κ] (events : ν → List (Event ν α ε)) (key : ν → κ)

/-- Visit a node, unless one with its key was visited. The depth is bounded. -/
def search : ℕ → ν → Found κ α → Option (Except ε (Found κ α))
  | 0, _, _ => none
  | depth + 1, n, st =>
    if key n ∈ st.visited then some (.ok st)
    else takeEvents (search depth) (events n) ⟨key n :: st.visited, st.out⟩

/-- A node is reached from another. -/
def Visits : ν → ν → Prop := Relation.ReflTransGen fun n m => .visit m ∈ events n

variable {events key} {depth : ℕ} {s n : ν} {st st' : Found κ α} {evs : List (Event ν α ε)}
  {visit visit' : ν → Found κ α → Option (Except ε (Found κ α))} {res : Except ε (Found κ α)}

omit [DecidableEq κ] in
theorem takeEvents_visit (h : takeEvents visit (.visit n :: evs) st = some (.ok st')) :
    ∃ mid, visit n st = some (.ok mid) ∧ takeEvents visit evs mid = some (.ok st') := by
  rw [takeEvents] at h
  split at h
  · next mid hmid => exact ⟨mid, hmid, h⟩
  · next hno => exact absurd h (hno st')

/-! ## What was found stays -/

omit [DecidableEq κ] in
theorem takeEvents_le
    (hvisit : ∀ n st st', visit n st = some (.ok st') → st.Le st')
    (h : takeEvents visit evs st = some (.ok st')) : st.Le st' := by
  induction evs generalizing st with
  | nil =>
    cases h
    exact .refl _
  | cons ev evs ih =>
    cases ev with
    | emit a => exact (st.le_emit a).trans (ih h)
    | visit n =>
      obtain ⟨mid, hmid, hrest⟩ := takeEvents_visit h
      exact (hvisit n st mid hmid).trans (ih hrest)
    | fail e => cases h

theorem search_le (h : search events key depth n st = some (.ok st')) : st.Le st' := by
  induction depth generalizing n st st' with
  | zero => cases h
  | succ depth ih =>
    rw [search] at h
    split at h
    · cases h
      exact .refl _
    · exact (st.le_visit (key n)).trans (takeEvents_le (fun _ _ _ => ih) h)

/-! ## The end of the search -/

/-- The keys that were not visited. -/
def unvisited (keys : Finset κ) (st : Found κ α) : Finset κ := keys.filter (· ∉ st.visited)

theorem unvisited_le {keys : Finset κ} (h : st.Le st') :
    (unvisited keys st').card ≤ (unvisited keys st).card := by
  refine Finset.card_le_card fun k hk => ?_
  obtain ⟨hmem, hnot⟩ := Finset.mem_filter.mp hk
  exact Finset.mem_filter.mpr ⟨hmem, fun hvisited => hnot (h.visited k hvisited)⟩

/-- A visit leaves fewer keys. -/
theorem unvisited_lt {keys : Finset κ} (hkey : key n ∈ keys) (hnew : key n ∉ st.visited)
    (out : List α) :
    (unvisited keys (⟨key n :: st.visited, out⟩ : Found κ α)).card < (unvisited keys st).card := by
  refine Finset.card_lt_card (Finset.ssubset_iff_of_subset (fun k hk => ?_) |>.mpr
    ⟨key n, Finset.mem_filter.mpr ⟨hkey, hnew⟩, fun hmem => ?_⟩)
  · obtain ⟨hmem, hnot⟩ := Finset.mem_filter.mp hk
    exact Finset.mem_filter.mpr ⟨hmem, fun hvisited => hnot (List.mem_cons_of_mem _ hvisited)⟩
  · exact (Finset.mem_filter.mp hmem).2 List.mem_cons_self

theorem takeEvents_terminates {keys : Finset κ} {bound : ℕ}
    (hle : ∀ n st st', visit n st = some (.ok st') → st.Le st')
    (hvisit : ∀ n st, .visit n ∈ evs → (unvisited keys st).card < bound →
      ∃ res, visit n st = some res)
    (hcard : (unvisited keys st).card < bound) : ∃ res, takeEvents visit evs st = some res := by
  induction evs generalizing st with
  | nil => exact ⟨_, rfl⟩
  | cons ev evs ih =>
    have hrest := fun n st hmem => hvisit n st (List.mem_cons_of_mem _ hmem)
    cases ev with
    | emit a => exact ih hrest hcard
    | fail e => exact ⟨_, rfl⟩
    | visit n =>
      obtain ⟨res, hres⟩ := hvisit n st List.mem_cons_self hcard
      rw [takeEvents, hres]
      cases res with
      | error e => exact ⟨_, rfl⟩
      | ok mid => exact ih hrest ((unvisited_le (hle n st mid hres)).trans_lt hcard)

/-- **With finitely many keys the search ends**, at a depth below the number of keys. -/
theorem search_terminates {keys : Finset κ} (hkeys : ∀ m, Visits events s m → key m ∈ keys)
    (hn : Visits events s n) (hcard : (unvisited keys st).card < depth) :
    ∃ res, search events key depth n st = some res := by
  -- each level of the search visits a new key
  induction depth generalizing n st with
  | zero => cases hcard
  | succ depth ih =>
    rw [search]
    split
    · exact ⟨_, rfl⟩
    · next hnew =>
      -- the key of this node is gone from those that were not visited
      refine takeEvents_terminates (fun _ _ _ => search_le)
        (fun m st' hmem hlt => ih (hn.tail hmem) hlt) ?_
      exact (unvisited_lt (hkeys n hn) hnew st.out).trans_le (Nat.le_of_lt_succ hcard)

omit [DecidableEq κ] in
theorem takeEvents_mono
    (hvisit : ∀ n st res, visit n st = some res → visit' n st = some res)
    (h : takeEvents visit evs st = some res) : takeEvents visit' evs st = some res := by
  induction evs generalizing st with
  | nil => exact h
  | cons ev evs ih =>
    cases ev with
    | emit a => exact ih h
    | fail e => exact h
    | visit n =>
      rw [takeEvents] at h ⊢
      cases hres : visit n st with
      | none =>
        rw [hres] at h
        cases h
      | some mid =>
        rw [hres] at h
        rw [hvisit n st mid hres]
        cases mid with
        | error e => exact h
        | ok mid => exact ih h

/-- A search that ends gives the same with a larger depth. -/
theorem search_mono {depth' : ℕ} (hle : depth ≤ depth')
    (h : search events key depth n st = some res) : search events key depth' n st = some res := by
  induction depth generalizing n st res depth' with
  | zero => cases h
  | succ depth ih =>
    obtain ⟨depth', rfl⟩ := Nat.exists_eq_add_of_lt hle
    rw [search] at h ⊢
    split
    · next hvisited => rwa [if_pos hvisited] at h
    · next hnew =>
      rw [if_neg hnew] at h
      -- both searches take the same events, with visits of a smaller depth
      exact takeEvents_mono (fun _ _ _ => ih (Nat.le_add_right _ _)) h

/-! ## The results -/

omit [DecidableEq κ] in
theorem takeEvents_sound {P : α → Prop}
    (hvisit : ∀ n st st', .visit n ∈ evs → visit n st = some (.ok st') →
      ∀ a ∈ st'.out, a ∈ st.out ∨ P a)
    (hemit : ∀ a, .emit a ∈ evs → P a)
    (h : takeEvents visit evs st = some (.ok st')) : ∀ a ∈ st'.out, a ∈ st.out ∨ P a := by
  induction evs generalizing st with
  | nil =>
    cases h
    exact fun a ha => .inl ha
  | cons ev evs ih =>
    have hrest := fun n st st' hmem => hvisit n st st' (List.mem_cons_of_mem _ hmem)
    have hemit' := fun a hmem => hemit a (List.mem_cons_of_mem _ hmem)
    cases ev with
    | fail e => cases h
    | emit b =>
      intro a ha
      obtain hmem | hP := ih hrest hemit' h a ha
      · -- a result that was there before, or the one of this event
        obtain hmem | hmem := List.mem_append.mp hmem
        · exact .inl hmem
        · rw [List.mem_singleton.mp hmem]
          exact .inr (hemit b List.mem_cons_self)
      · exact .inr hP
    | visit n =>
      obtain ⟨mid, hmid, h⟩ := takeEvents_visit h
      intro a ha
      obtain hmem | hP := ih hrest hemit' h a ha
      · exact hvisit n st mid List.mem_cons_self hmid a hmem
      · exact .inr hP

/-- **Every result is met at a node that is reached.** -/
theorem search_sound (hn : Visits events s n)
    (h : search events key depth n st = some (.ok st')) :
    ∀ a ∈ st'.out, a ∈ st.out ∨ ∃ m, Visits events s m ∧ .emit a ∈ events m := by
  induction depth generalizing n st st' with
  | zero => cases h
  | succ depth ih =>
    rw [search] at h
    split at h
    · cases h
      exact fun a ha => .inl ha
    · intro a ha
      exact takeEvents_sound (fun m _ _ hmem hm => ih (hn.tail hmem) hm)
        (fun a hmem => ⟨n, hn, hmem⟩) h a ha

/-! ## Completeness -/

/-- An event was handled: the result is there, the node was visited. -/
def Handled (key : ν → κ) (st : Found κ α) : Event ν α ε → Prop
  | .emit a => a ∈ st.out
  | .visit n => key n ∈ st.visited
  | .fail _ => False

omit [DecidableEq κ] in
theorem Handled.le {ev : Event ν α ε} (h : Handled key st ev) (hle : st.Le st') :
    Handled key st' ev := by
  cases ev with
  | emit a => exact hle.out a h
  | visit n => exact hle.visited _ h
  | fail e => exact h

/-- All that is met at some node of a key was handled. -/
def Done (events : ν → List (Event ν α ε)) (key : ν → κ) (s : ν) (st : Found κ α) (k : κ) : Prop :=
  ∃ n, Visits events s n ∧ key n = k ∧ ∀ ev ∈ events n, Handled key st ev

omit [DecidableEq κ] in
theorem Done.le {k : κ} (h : Done events key s st k) (hle : st.Le st') :
    Done events key s st' k := by
  obtain ⟨n, hn, hk, hall⟩ := h
  exact ⟨n, hn, hk, fun ev hev => (hall ev hev).le hle⟩

omit [DecidableEq κ] in
theorem takeEvents_done
    (hle : ∀ n st st', visit n st = some (.ok st') → st.Le st')
    (hvisit : ∀ n st st', .visit n ∈ evs → visit n st = some (.ok st') →
      key n ∈ st'.visited ∧ ∀ k ∈ st'.visited, k ∈ st.visited ∨ Done events key s st' k)
    (h : takeEvents visit evs st = some (.ok st')) :
    (∀ ev ∈ evs, Handled key st' ev) ∧
      ∀ k ∈ st'.visited, k ∈ st.visited ∨ Done events key s st' k := by
  induction evs generalizing st with
  | nil =>
    cases h
    exact ⟨fun ev hev => (List.not_mem_nil hev).elim, fun k hk => .inl hk⟩
  | cons ev evs ih =>
    have hrest := fun n st st' hmem => hvisit n st st' (List.mem_cons_of_mem _ hmem)
    cases ev with
    | fail e => cases h
    | emit a =>
      replace h : takeEvents visit evs ⟨st.visited, st.out ++ [a]⟩ = some (.ok st') := h
      obtain ⟨hall, hdone⟩ := ih hrest h
      have hstay := takeEvents_le hle h
      refine ⟨List.forall_mem_cons.mpr ⟨?_, hall⟩, hdone⟩
      exact hstay.out a (List.mem_append_right _ (List.mem_singleton_self a))
    | visit n =>
      obtain ⟨mid, hmid, h⟩ := takeEvents_visit h
      obtain ⟨hkey, hdoneMid⟩ := hvisit n st mid List.mem_cons_self hmid
      obtain ⟨hall, hdone⟩ := ih hrest h
      have hle' := takeEvents_le hle h
      refine ⟨List.forall_mem_cons.mpr ⟨hle'.visited _ hkey, hall⟩, fun k hk => ?_⟩
      obtain hmem | hd := hdone k hk
      · -- done at the visit, and what was found stays
        exact (hdoneMid k hmem).imp_right (·.le hle')
      · exact .inr hd

theorem search_done (hn : Visits events s n)
    (h : search events key depth n st = some (.ok st')) :
    key n ∈ st'.visited ∧ ∀ k ∈ st'.visited, k ∈ st.visited ∨ Done events key s st' k := by
  induction depth generalizing n st st' with
  | zero => cases h
  | succ depth ih =>
    rw [search] at h
    split at h
    · next hvisited =>
      cases h
      exact ⟨hvisited, fun k hk => .inl hk⟩
    · have hle := takeEvents_le (fun _ _ _ => search_le) h
      obtain ⟨hall, hdone⟩ := takeEvents_done (fun _ _ _ => search_le)
        (fun m _ _ hmem hm => ih (hn.tail hmem) hm) h
      refine ⟨hle.visited _ List.mem_cons_self, fun k hk => ?_⟩
      obtain hmem | hd := hdone k hk
      · -- the key of the node itself is done when its events are
        obtain rfl | hmem := List.mem_cons.mp hmem
        · exact .inr ⟨n, hn, rfl, hall⟩
        · exact .inl hmem
      · exact .inr hd

/-- **Without an error all that is met at the nodes that are reached is found.** Nodes that are
reached have keys of their own. -/
theorem search_complete
    (hinj : ∀ m m', Visits events s m → Visits events s m' → key m = key m' → m = m')
    (h : search events key depth s ⟨[], []⟩ = some (.ok st')) {m : ν} (hm : Visits events s m) :
    ∀ ev ∈ events m, Handled key st' ev := by
  obtain ⟨hkey, hdone⟩ := search_done (.refl : Visits events s s) h
  have hall : ∀ m, Visits events s m → key m ∈ st'.visited →
      ∀ ev ∈ events m, Handled key st' ev := by
    intro m hm hmem
    obtain hnil | ⟨n, hn, hsame, hevs⟩ := hdone _ hmem
    · cases hnil
    · rwa [← hinj n m hn hm hsame]
  refine hall m hm ?_
  -- each step from a node that is done goes to one that was visited
  induction hm with
  | refl => exact hkey
  | tail hm' hstep ih => exact hall _ hm' ih _ hstep

end Search

end Hiko.Lib
