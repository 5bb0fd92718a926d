import Hiko.Heap.MessageWalk

/-!
# The sizes of messages

What `check_message_size` measures of an object is the footprint of its message, which counts up to
the end of `usize`, and its depth. An object is measured if and only if it unfolds to a tree that may
be sent and whose message is within the limits.

## Main definitions

* `SendableValue.footprintUsize`: `footprint`, which counts up to the end of `usize`
* `MessageWalk.Passes`: the values that pass the check

## Main results

* `measure_exact`: what `Heap.measure` finds for a tree
* `passes_iff`: what is measured is a tree, with a message within the limits
* `serialize_cases`, `serialize_of_error`, `serialize_of_tree`: what `serialize` gives
-/

namespace Hiko

open Lib

/-! ## What is measured -/

/-- `saturating_add` from nothing up to `n`. -/
def capped (n : ℕ) : ℕ := min n (u64Size - 1)

/-- `footprint`, with `saturating_add` of `usize`. -/
def SendableValue.footprintUsize (m : SendableValue) : ℕ := capped m.footprint

/-- What the check measures of a message. -/
def sizeOf (m : SendableValue) : ℕ × ℕ := (m.footprintUsize, m.depth)

/-- A message within the limits, as the check counts. -/
def SendableValue.Fits (maxBytes : ℕ) (m : SendableValue) : Prop :=
  m.footprintUsize ≤ maxBytes ∧ m.depth ≤ maxMessageDepth

section Capped

theorem satAdd_capped (a b : ℕ) : satAdd (capped a) (capped b) = capped (a + b) := by
  simp only [satAdd, capped]
  omega

theorem capped_mono {a b : ℕ} (h : a ≤ b) : capped a ≤ capped b := by
  simp only [capped]
  omega

theorem foldl_capped : ∀ (ms : List SendableValue) (bytes : ℕ),
    (ms.map sizeOf).foldl (fun bytes c => satAdd bytes c.1) (capped bytes) =
      capped (bytes + SendableValue.footprints ms)
  | [], bytes => by simp [SendableValue.footprints]
  | m :: ms, bytes => by
    rw [List.map_cons, List.foldl_cons, sizeOf, SendableValue.footprintUsize, satAdd_capped,
      foldl_capped ms, SendableValue.footprints, add_assoc]

theorem foldl_nesting : ∀ (ms : List SendableValue) (depth : ℕ),
    (ms.map sizeOf).foldl (fun depth c => max depth (c.2 + 1)) depth =
      max depth (SendableValue.depths ms)
  | [], depth => by simp [SendableValue.depths]
  | m :: ms, depth => by
    rw [List.map_cons, List.foldl_cons, foldl_nesting ms, SendableValue.depths, sizeOf, max_assoc]

theorem measureNode_sizeOf {payload : ℕ} {ms : List SendableValue} :
    Heap.measureNode payload (ms.map sizeOf) =
      (capped (messageNodeBytes + payload + SendableValue.footprints ms),
        SendableValue.depths ms) := by
  have hpay : satAdd messageNodeBytes payload = capped (messageNodeBytes + payload) := rfl
  rw [Heap.measureNode, hpay, foldl_capped, foldl_nesting, Nat.zero_max]

end Capped

namespace MessageWalk

variable {h : Heap} {maxBytes k : ℕ} {v : Value}

theorem checkLimits_ok {size : ℕ × ℕ} (hb : size.1 ≤ maxBytes) (hd : size.2 ≤ maxMessageDepth) :
    checkLimits maxBytes size = .ok size := by
  rw [checkLimits, if_neg (Nat.not_lt.mpr hb), if_neg (Nat.not_lt.mpr hd)]

theorem checkLimits_error {size : ℕ × ℕ} (h : ¬ (size.1 ≤ maxBytes ∧ size.2 ≤ maxMessageDepth)) :
    ∃ e, checkLimits maxBytes size = .error e := by
  unfold checkLimits
  split
  · exact ⟨_, rfl⟩
  · next hb =>
    split
    · exact ⟨_, rfl⟩
    · next hd => exact absurd ⟨Nat.not_lt.mp hb, Nat.not_lt.mp hd⟩ h

/-- Several trees, measured: each as its message, or one of them is over a limit. -/
theorem walkRev_exact {walk : Value → Option (Except String (ℕ × ℕ))} {its : List ValueTree}
    {items : List Value} (hall : UnfoldsAll h its items)
    (hwalk : ∀ i ∈ its, ∀ v, Unfolds h i v → walk v = some (.ok (sizeOf i.toMessage)) ∨
      ¬ i.toMessage.Fits maxBytes ∧ ∃ e, walk v = some (.error e)) :
    walkRev walk items = some (.ok ((ValueTree.toMessages its).map sizeOf)) ∨
      (∃ i ∈ its, ¬ i.toMessage.Fits maxBytes) ∧ ∃ e, walkRev walk items = some (.error e) := by
  induction its generalizing items with
  | nil =>
    simp only [UnfoldsAll] at hall
    simp [hall, walkRev, ValueTree.toMessages]
  | cons i its ih =>
    simp only [UnfoldsAll] at hall
    obtain ⟨v, rest, rfl, hi, hits⟩ := hall
    rw [walkRev, ValueTree.toMessages, List.map_cons]
    obtain hrest | ⟨⟨j, hj, hnot⟩, e, he⟩ := ih hits fun j hj => hwalk j (.tail _ hj)
    · rw [hrest]
      obtain hv | ⟨hnot, e, he⟩ := hwalk i (.head _) v hi
      · exact .inl (by simp only [hv])
      · exact .inr ⟨⟨i, .head _, hnot⟩, e, by simp only [he]⟩
    · exact .inr ⟨⟨j, .tail _ hj, hnot⟩, e, by rw [he]⟩

/-- **The measure of a tree**: the footprint and the depth of its message, or an error where the
message is over a limit. A scalar has no limit. -/
theorem measure_exact : ∀ (fuel : ℕ) {t : ValueTree} {v : Value}, Unfolds h t v → t.Sendable →
    t.size < fuel →
    (v.ref? = none ∨ t.toMessage.Fits maxBytes) ∧
        h.measure maxBytes fuel v = some (.ok (sizeOf t.toMessage)) ∨
      ¬ t.toMessage.Fits maxBytes ∧ ∃ e, h.measure maxBytes fuel v = some (.error e) := by
  intro fuel
  induction fuel with
  | zero => exact fun _ _ hfuel => absurd hfuel (by omega)
  | succ fuel ih =>
    intro t v hun hs hfuel
    cases hv : v.ref? with
    | none =>
      obtain rfl := scalar_of_unfolds hun hv
      refine .inl ⟨.inl rfl, ?_⟩
      cases v with
      | heap r => cases hv
      | _ => rfl
    | some r =>
      obtain rfl := Value.ref?_eq_some.mp hv
      obtain ⟨items, its, container, hchildren, hall, hsmall, -, -, hbytes, hdepth⟩ :=
        node_spec hun hs (Nat.le_of_lt_succ hfuel)
      have hfinish : ∀ sizes, (measuring h maxBytes 0).finish r.idx sizes =
          checkLimits maxBytes (Heap.measureNode (h.payload r) sizes) := fun _ => rfl
      have hone : ∀ i ∈ its, ∀ w, Unfolds h i w →
          h.measure maxBytes fuel w = some (.ok (sizeOf i.toMessage)) ∨
            ¬ i.toMessage.Fits maxBytes ∧ ∃ e, h.measure maxBytes fuel w = some (.error e) :=
        fun i hi w hw => (ih hw (hsmall i hi).2 (by have := (hsmall i hi).1; omega)).imp
          (fun hok => hok.2) fun herr => herr
      rw [measure_heap 0, hchildren]
      obtain hok | ⟨⟨i, hi, hnot⟩, e, he⟩ := walkRev_exact hall hone
      · have hsize : Heap.measureNode (h.payload r) ((ValueTree.toMessages its).map sizeOf) =
            sizeOf t.toMessage := by
          rw [measureNode_sizeOf, sizeOf, SendableValue.footprintUsize, hbytes, hdepth]
        simp only [hok, hfinish, hsize]
        by_cases hfits : t.toMessage.Fits maxBytes
        · exact .inl ⟨.inr hfits, by rw [checkLimits_ok hfits.1 hfits.2]⟩
        · obtain ⟨e, he⟩ := checkLimits_error
            (show ¬ ((sizeOf t.toMessage).1 ≤ maxBytes ∧ (sizeOf t.toMessage).2 ≤ maxMessageDepth)
              from hfits)
          exact .inr ⟨hfits, e, by rw [he]⟩
      · -- a child over a limit takes its parent over it
        obtain ⟨hib, hid⟩ := footprint_mem hi
        refine .inr ⟨fun hfits => hnot ⟨?_, ?_⟩, e, by simp only [he]⟩
        · exact (capped_mono (by omega)).trans hfits.1
        · have := hfits.2
          omega

/-! ## What is measured is a tree -/

/-- The measure does not depend on how deep the recursion may go. -/
theorem measure_unique {k' : ℕ} {res res' : Except String (ℕ × ℕ)}
    (hk : h.measure maxBytes k v = some res) (hk' : h.measure maxBytes k' v = some res') :
    res = res' := by
  have heq := measure_mono (le_max_left k k') hk
  rw [measure_mono (le_max_right k k') hk'] at heq
  exact (Option.some.inj heq).symm

theorem isList_listTree : ∀ ts : List ValueTree, (listTree ts).IsList
  | [] => .nil
  | t :: ts => .cons t (isList_listTree ts)

theorem sendable_listTree : ∀ {ts : List ValueTree}, ValueTree.AllSendable ts →
    (listTree ts).Sendable
  | [], _ => by simp [listTree, ValueTree.Sendable, ValueTree.AllSendable, tagNil, tagCons]
  | t :: ts, hs => by
    rw [ValueTree.AllSendable] at hs
    rw [listTree, List.foldr_cons, ValueTree.Sendable]
    refine ⟨fun item rest _ heq => ?_, ?_⟩
    · obtain ⟨-, heq⟩ := List.cons.inj heq
      rw [← (List.cons.inj heq).1]
      exact isList_listTree ts
    · simp only [ValueTree.AllSendable]
      exact ⟨hs.1, sendable_listTree hs.2, trivial⟩

/-- A value that may be sent: it unfolds to a tree that may. -/
def HasTree (h : Heap) (v : Value) : Prop := ∃ t, Unfolds h t v ∧ t.Sendable

theorem hasTree_scalar (hv : v.ref? = none) : HasTree h v :=
  ⟨.scalar v, by rw [Unfolds]; exact ⟨rfl, hv⟩, by simp only [ValueTree.Sendable]⟩

theorem allTrees {vs : List Value} (hall : ∀ w ∈ vs, HasTree h w) :
    ∃ ts, UnfoldsAll h ts vs ∧ ValueTree.AllSendable ts := by
  induction vs with
  | nil => exact ⟨[], by simp only [UnfoldsAll], by simp only [ValueTree.AllSendable]⟩
  | cons w vs ih =>
    obtain ⟨⟨t, ht, hs⟩, hrest⟩ := List.forall_mem_cons.mp hall
    obtain ⟨ts, hts, hss⟩ := ih hrest
    refine ⟨t :: ts, ?_, ?_⟩
    · rw [UnfoldsAll]
      exact ⟨w, vs, rfl, ht, hts⟩
    · rw [ValueTree.AllSendable]
      exact ⟨hs, hss⟩

/-- An object whose children have trees has one. -/
theorem hasTree_of_children {r : GcRef} {vs : List Value}
    (hchildren : h.messageChildren k r = some (.ok vs)) (hall : ∀ w ∈ vs, HasTree h w) :
    HasTree h (.heap r) := by
  obtain ⟨ts, hts, hs⟩ := allTrees hall
  unfold Heap.messageChildren at hchildren
  cases hget : h.get r with
  | error e =>
    rw [hget] at hchildren
    cases hchildren
  | ok o =>
    rw [hget] at hchildren
    have ho := get_ok hget
    cases o with
    | string s => exact ⟨.string s, by simp only [Unfolds]; exact ⟨r, rfl, ho⟩,
        by simp only [ValueTree.Sendable]⟩
    | bytes bs => exact ⟨.bytes bs, by simp only [Unfolds]; exact ⟨r, rfl, ho⟩,
        by simp only [ValueTree.Sendable]⟩
    | tuple fields =>
      obtain rfl := Except.ok.inj (Option.some.inj hchildren)
      exact ⟨.tuple ts, by simp only [Unfolds]; exact ⟨r, fields, rfl, ho, hts⟩,
        by simpa only [ValueTree.Sendable] using hs⟩
    | closure protoIdx captures =>
      obtain rfl := Except.ok.inj (Option.some.inj hchildren)
      exact ⟨.closure protoIdx ts, by simp only [Unfolds]; exact ⟨r, captures, rfl, ho, hts⟩,
        by simpa only [ValueTree.Sendable] using hs⟩
    | data tag fields =>
      dsimp only at hchildren
      split at hchildren
      · exact ⟨listTree ts, unfolds_of_listItems k hchildren hts, sendable_listTree hs⟩
      · next hlist =>
        obtain rfl := Except.ok.inj (Option.some.inj hchildren)
        refine ⟨.data tag ts, by simp only [Unfolds]; exact ⟨r, fields, rfl, ho, hts⟩, ?_⟩
        rw [ValueTree.Sendable]
        refine ⟨fun item rest htag heq => ?_, hs⟩
        -- a cell of a list is a list
        refine absurd ?_ hlist
        have hlen := hts.length
        rw [heq] at hlen
        simp only [isList, Bool.decide_or, Bool.or_eq_true, decide_eq_true_eq]
        exact .inr ⟨htag, hlen⟩
    | rng state inc => cases hchildren
    | hostHandle kind id => cases hchildren

/-- A value that is measured has a tree. -/
theorem hasTree_of_measure {size : ℕ × ℕ} (hmeasure : h.measure maxBytes k v = some (.ok size)) :
    HasTree h v := by
  induction k generalizing v size with
  | zero => simp [Heap.measure] at hmeasure
  | succ k ih =>
    cases hv : v.ref? with
    | none => exact hasTree_scalar hv
    | some r =>
      obtain rfl := Value.ref?_eq_some.mp hv
      rw [measure_heap 0] at hmeasure
      split at hmeasure
      · cases hmeasure
      · cases hmeasure
      · next vs hvs =>
        split at hmeasure
        · cases hmeasure
        · cases hmeasure
        · next sizes hsizes =>
          refine hasTree_of_children hvs fun w hw => ?_
          obtain ⟨size', hsize'⟩ := walkRev_ok hsizes w hw
          exact ih hsize'

/-- A value that passes the check: it has a tree, whose message is within the limits. A scalar
always passes. -/
def Passes (h : Heap) (maxBytes : ℕ) (v : Value) : Prop :=
  ∃ t, Unfolds h t v ∧ t.Sendable ∧ (v.ref? = none ∨ t.toMessage.Fits maxBytes)

theorem passes_scalar (hv : v.ref? = none) : Passes h maxBytes v := by
  obtain ⟨t, hun, hs⟩ : HasTree h v := hasTree_scalar hv
  exact ⟨t, hun, hs, .inl hv⟩

/-- **What is measured passes**, and only that. -/
theorem passes_iff : Passes h maxBytes v ↔ ∃ k size, h.measure maxBytes k v = some (.ok size) := by
  constructor
  · rintro ⟨t, hun, hs, hfits⟩
    refine ⟨t.size + 1, sizeOf t.toMessage, ?_⟩
    obtain ⟨-, hok⟩ | ⟨hnot, e, he⟩ := measure_exact (t.size + 1) hun hs (Nat.lt_succ_self _)
    · exact hok
    · obtain hv | hfits := hfits
      · obtain rfl := scalar_of_unfolds hun hv
        cases v with
        | heap r => cases hv
        | _ => rfl
      · exact absurd hfits hnot
  · rintro ⟨k, size, hmeasure⟩
    obtain ⟨t, hun, hs⟩ := hasTree_of_measure hmeasure
    refine ⟨t, hun, hs, ?_⟩
    obtain ⟨hfits, -⟩ | ⟨-, e, he⟩ := measure_exact (t.size + 1) hun hs (Nat.lt_succ_self _)
    · exact hfits
    · cases measure_unique hmeasure he

/-! ## What the loops give -/

theorem checkMessageSize_scalar {depth fuel : ℕ} (hv : v.ref? = none) :
    checkMessageSize h maxBytes depth fuel v = some (.ok ()) := by
  rw [checkMessageSize, hv]

/-- The check of an object, by its loop. -/
theorem checkMessageSize_heap {depth fuel : ℕ} {r : GcRef} :
    checkMessageSize h maxBytes depth fuel (.heap r) =
      ((measuring h maxBytes depth).loop fuel (fun _ => none) (Measuring.Stack.fresh [r.idx])).map
        fun res => res.map fun _ => () := by
  have hstack : (Measuring.Stack.fresh [r.idx] : Measuring.Stack ℕ Value) = [(r.idx, none)] := rfl
  rw [checkMessageSize, hstack]
  simp only [Value.ref?]
  rcases (measuring h maxBytes depth).loop fuel (fun _ => none) [(r.idx, none)] with _ | _ | _ <;> rfl

theorem checkMessageSize_mono {depth fuel fuel' : ℕ} {res : Except String Unit}
    (hcheck : checkMessageSize h maxBytes depth fuel v = some res) (hfuel : fuel ≤ fuel') :
    checkMessageSize h maxBytes depth fuel' v = some res := by
  cases hv : v.ref? with
  | none => rwa [checkMessageSize_scalar hv] at hcheck ⊢
  | some r =>
    obtain rfl := Value.ref?_eq_some.mp hv
    rw [checkMessageSize_heap] at hcheck ⊢
    obtain ⟨loopRes, hloop, rfl⟩ := Option.map_eq_some_iff.mp hcheck
    rw [Measuring.loop_mono hloop hfuel]
    rfl

/-- The loop ends as its recursion does. -/
theorem checkMessageSize_of_gives {depth : ℕ} {r : GcRef} {res : Except String (ℕ × ℕ)}
    (hgives : (measuring h maxBytes depth).Gives r.idx res) :
    ∃ fuel, checkMessageSize h maxBytes depth fuel (.heap r) = some (res.map fun _ => ()) := by
  cases res with
  | error e =>
    obtain ⟨fuel, hloop⟩ := Measuring.loop_error hgives
    exact ⟨fuel, by rw [checkMessageSize_heap, hloop]; rfl⟩
  | ok size =>
    obtain ⟨fuel, measured, hloop, -⟩ := Measuring.loop_ok hgives
    exact ⟨fuel, by rw [checkMessageSize_heap, hloop]; rfl⟩

/-- The check of a value that is measured, at any depth that is enough. -/
theorem checkMessageSize_of_measure {depth : ℕ} {res : Except String (ℕ × ℕ)} (hk : k ≤ depth)
    (hmeasure : h.measure maxBytes k v = some res) :
    ∃ fuel, checkMessageSize h maxBytes depth fuel v = some (res.map fun _ => ()) := by
  cases hv : v.ref? with
  | none =>
    refine ⟨0, ?_⟩
    have hleaf : h.measure maxBytes 1 v = some (.ok (scalarMessageBytes v, 0)) := by
      cases v with
      | heap r => cases hv
      | _ => rfl
    rw [measure_unique hmeasure hleaf, checkMessageSize_scalar hv]
    rfl
  | some r =>
    obtain rfl := Value.ref?_eq_some.mp hv
    obtain ⟨j, rfl⟩ : ∃ j, k = j + 1 := by
      cases k with
      | zero => simp [Heap.measure] at hmeasure
      | succ j => exact ⟨j, rfl⟩
    exact checkMessageSize_of_gives
      ⟨j, (Measuring.value_succ_node rfl).symm.trans (value_of_measure hk hmeasure)⟩

/-- **The check ends only where the measuring does.** -/
theorem measure_of_checkMessageSize {depth fuel : ℕ} {res : Except String Unit}
    (hcheck : checkMessageSize h maxBytes depth fuel v = some res) :
    ∃ k size, h.measure maxBytes k v = some size ∧ res = size.map fun _ => () := by
  cases hv : v.ref? with
  | none =>
    refine ⟨1, .ok (scalarMessageBytes v, 0), ?_, ?_⟩
    · cases v with
      | heap r => cases hv
      | _ => rfl
    · rw [checkMessageSize_scalar hv] at hcheck
      exact (Option.some.inj hcheck).symm
  | some r =>
    obtain rfl := Value.ref?_eq_some.mp hv
    have hloop := hcheck
    rw [checkMessageSize_heap] at hloop
    obtain ⟨loopRes, hloop, -⟩ := Option.map_eq_some_iff.mp hloop
    obtain ⟨size, k, hk⟩ := Measuring.gives_of_loop Measuring.consistent_empty hloop
    refine ⟨depth + (k + 1), size, measure_of_value ((Measuring.value_succ_node rfl).trans hk), ?_⟩
    -- both loops end, so they end in the same way
    obtain ⟨fuel', hcheck'⟩ := checkMessageSize_of_gives ⟨k, hk⟩
    have heq := checkMessageSize_mono hcheck (le_max_left fuel fuel')
    rw [checkMessageSize_mono hcheck' (le_max_right fuel fuel')] at heq
    exact (Option.some.inj heq).symm

/-- What building a tree gives, at any depth that is enough. -/
theorem run_of_tree {t : ValueTree} {depth : ℕ} (hun : Unfolds h t v) (hs : t.Sendable)
    (hdepth : t.size < depth) :
    ∃ fuel, (building h depth).run fuel [.visit v] [] = some (.ok t.toMessage) :=
  Building.run_of_build (build_of_serializeValue hdepth (serializeValue_spec (t.size + 1) hun hs
    (Nat.lt_succ_self _)))

/-- **What `serialize` gives**: the error that the measuring finds, or the message of the tree of a
value that passes. -/
theorem serialize_cases {depth fuel : ℕ} {res : Except String SendableValue}
    (hser : serialize h maxBytes depth fuel v = some res) :
    (∃ k e, h.measure maxBytes k v = some (.error e) ∧ res = .error e) ∨
      ∃ t, Unfolds h t v ∧ t.Sendable ∧ (v.ref? = none ∨ t.toMessage.Fits maxBytes) ∧
        res = .ok t.toMessage := by
  unfold serialize at hser
  split at hser
  · cases hser
  · next e he =>
    obtain ⟨k, size, hsize, heq⟩ := measure_of_checkMessageSize he
    cases size with
    | error e' =>
      obtain rfl := Except.error.inj heq
      exact .inl ⟨k, e, hsize, (Option.some.inj hser).symm⟩
    | ok p => cases heq
  · next hok =>
    obtain ⟨k, size, hsize, heq⟩ := measure_of_checkMessageSize hok
    cases size with
    | error e' => cases heq
    | ok p =>
      obtain ⟨t, hun, hs, hfits⟩ := passes_iff.mpr ⟨k, p, hsize⟩
      refine .inr ⟨t, hun, hs, hfits, ?_⟩
      have hdepth : t.size < max depth (t.size + 1) := Nat.lt_of_lt_of_le (Nat.lt_succ_self _)
        (le_max_right _ _)
      obtain ⟨fuel', hrun'⟩ := run_of_tree hun hs hdepth
      have heq := Building.run_mono (fun _ _ => expand_mono (le_max_left depth (t.size + 1))) hser
        (le_max_left fuel fuel')
      rw [Building.run_mono (fun _ _ h => h) hrun' (le_max_right fuel fuel')] at heq
      exact (Option.some.inj heq).symm

theorem serialize_of_error {e : String} (hmeasure : h.measure maxBytes k v = some (.error e)) :
    ∃ depth fuel, serialize h maxBytes depth fuel v = some (.error e) := by
  obtain ⟨fuel, hcheck⟩ := checkMessageSize_of_measure le_rfl hmeasure
  refine ⟨k, fuel, ?_⟩
  rw [serialize, hcheck]
  rfl

theorem serialize_of_tree {t : ValueTree} (hun : Unfolds h t v) (hs : t.Sendable)
    (hfits : v.ref? = none ∨ t.toMessage.Fits maxBytes) :
    ∃ depth fuel, serialize h maxBytes depth fuel v = some (.ok t.toMessage) := by
  obtain ⟨k, size, hmeasure⟩ := passes_iff.mp ⟨t, hun, hs, hfits⟩
  obtain ⟨fuel, hcheck⟩ := checkMessageSize_of_measure (le_max_left k (t.size + 1)) hmeasure
  obtain ⟨fuel', hrun⟩ := run_of_tree hun hs
    (Nat.lt_of_lt_of_le (Nat.lt_succ_self _) (le_max_right k (t.size + 1)))
  refine ⟨max k (t.size + 1), max fuel fuel', ?_⟩
  rw [serialize, checkMessageSize_mono hcheck (le_max_left fuel fuel')]
  exact Building.run_mono (fun _ _ h => h) hrun (le_max_right fuel fuel')

end MessageWalk

end Hiko
