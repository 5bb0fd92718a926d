import Hiko.Heap.MessageCycles

/-!
# The size check of messages

`check_message_size` decides before anything is built whether a message stays within the limits. For
an object without cycles this is exact: it is accepted if nothing in it is refused, and if the
message that the building loop makes of it is within the limit of bytes, as `footprint` counts them,
and nested within the limit of depth. A scalar is accepted whatever the limit is.

## Main definitions

* `Acyclic`: a value that leads to no cycle
* `MessageWalk.Builds`: what the building loop makes of a value
* `MessageWalk.Allowed`, `MessageWalk.CheckExact`: what the check should accept, and that it does

## Main results

* `serializeValue_ends`: building a value without cycles ends
* `checkMessageSize_exact_iff`: where the check is exact
-/

namespace Hiko

open Lib Relation

/-- Object `i` refers to slot `j`. -/
def Heap.Refers (h : Heap) (i j : ℕ) : Prop := j ∈ h.succ i

/-- A value that leads to no cycle. -/
def Acyclic (h : Heap) (v : Value) : Prop :=
  ∀ r, v = .heap r → ¬ ∃ i, ReflTransGen h.Refers r.idx i ∧ TransGen h.Refers i i

namespace MessageWalk

variable {h : Heap} {maxBytes k : ℕ} {v : Value} {r : GcRef}

/-! ### Every path of a walk is a path of references -/

theorem refers_of_child {i : ℕ} {o : HeapObject} (ho : h.object? i = some o)
    (hr : .heap r ∈ o.children) : h.Refers i r.idx := by
  have hsucc : h.succ i = o.gcRefs.map (·.idx) := by rw [Heap.succ, ho]
  rw [Heap.Refers, hsucc]
  exact List.mem_map_of_mem (mem_refsOf.mpr hr)

theorem reaches_item {items : List Value} {c : GcRef}
    (hitems : h.listItems k (.heap r) = some (.ok items)) (hc : .heap c ∈ items) :
    TransGen h.Refers r.idx c.idx := by
  induction k generalizing r items with
  | zero => simp [Heap.listItems] at hitems
  | succ k ih =>
    by_cases hcell : ∃ fields, IsCell h r.idx fields
    · obtain ⟨fields, hcell⟩ := hcell
      obtain ⟨item, rest, hvals⟩ := List.length_eq_two.mp hcell.2
      have hrefers : ∀ d : GcRef, .heap d ∈ fields.vals → h.Refers r.idx d.idx :=
        fun d hd => refers_of_child hcell.1 hd
      rw [hcell.listItems hvals] at hitems
      obtain ⟨res, hrest, hres⟩ := Option.map_eq_some_iff.mp hitems
      cases res with
      | error e => cases hres
      | ok items' =>
        obtain rfl := Except.ok.inj hres
        rcases List.mem_cons.mp hc with rfl | hc
        · exact .single (hrefers c (by rw [hvals]; exact .head _))
        · cases hv : rest.ref? with
          | none =>
            cases k with
            | zero => simp [Heap.listItems] at hrest
            | succ k =>
              cases rest with
              | heap d => cases hv
              | _ => cases hrest
          | some d =>
            obtain rfl := Value.ref?_eq_some.mp hv
            exact .head (hrefers d (by rw [hvals]; exact .tail _ (.head _))) (ih hrest hc)
    · obtain ⟨res, hres, hnil⟩ := listItems_of_not_cell (not_exists.mp hcell)
      rw [hnil items (listItems_unique hres hitems)] at hc
      cases hc

theorem reaches_child {vs : List Value} {c : GcRef}
    (hchildren : h.messageChildren k r = some (.ok vs)) (hc : .heap c ∈ vs) :
    TransGen h.Refers r.idx c.idx := by
  unfold Heap.messageChildren at hchildren
  cases hget : h.get r with
  | error e =>
    rw [hget] at hchildren
    cases hchildren
  | ok o =>
    rw [hget] at hchildren
    have hrefers : .heap c ∈ o.children → TransGen h.Refers r.idx c.idx :=
      fun hin => .single (refers_of_child (get_ok hget) hin)
    cases o with
    | string s | bytes bs =>
      obtain rfl := Except.ok.inj (Option.some.inj hchildren)
      cases hc
    | tuple fields | closure protoIdx captures =>
      obtain rfl := Except.ok.inj (Option.some.inj hchildren)
      exact hrefers hc
    | data tag fields =>
      dsimp only at hchildren
      split at hchildren
      · exact reaches_item hchildren hc
      · obtain rfl := Except.ok.inj (Option.some.inj hchildren)
        exact hrefers hc
    | rng state inc | hostHandle kind id => cases hchildren

theorem refers_of_meets {i j : ℕ} (hmeets : Meets h maxBytes i j) : TransGen h.Refers i j := by
  cases hmeets with
  | child pre post hchildren hpost => exact reaches_child hchildren (by simp)
  | cell item hcell hvals hnext =>
    refine .single (refers_of_child hcell.1 ?_)
    change _ ∈ Fields.vals _
    rw [hvals]
    exact .tail _ (.head _)

/-- The check of a value without cycles comes to none. -/
theorem not_meetsCycle (hacyc : Acyclic h v) : ¬ MeetsCycle h maxBytes v := by
  rintro ⟨r, i, rfl, hreach, hcycle⟩
  refine hacyc r rfl ⟨i, ?_, ?_⟩
  · exact hreach.lift' id fun _ _ hm => (refers_of_meets hm).to_reflTransGen
  · exact hcycle.lift' id fun _ _ hm => refers_of_meets hm

/-! ### Building ends -/

/-- What the building loop expands has the children that are measured. -/
theorem messageChildren_of_expand {expanded} (hexpand : (building h k).expand (.heap r) =
      some (.ok expanded)) :
    h.messageChildren k r = some (.ok (expanded.elim (fun _ => []) Prod.snd)) := by
  unfold Heap.messageChildren
  simp only [building] at hexpand
  cases hget : h.get r with
  | error e =>
    rw [hget] at hexpand
    cases hexpand
  | ok o =>
    rw [hget] at hexpand
    cases o with
    | data tag fields =>
      dsimp only at hexpand ⊢
      split at hexpand
      · next hlist =>
        rw [if_pos hlist]
        split at hexpand
        · cases hexpand
        · cases hexpand
        · next items hitems =>
          obtain rfl := Except.ok.inj (Option.some.inj hexpand)
          exact hitems
      · next hlist =>
        rw [if_neg hlist]
        obtain rfl := Except.ok.inj (Option.some.inj hexpand)
        rfl
    | rng state inc | hostHandle kind id => cases hexpand
    | _ =>
      obtain rfl := Except.ok.inj (Option.some.inj hexpand)
      rfl

theorem serializeValue_mono {k' : ℕ} {res : Except String SendableValue} (hk : k ≤ k')
    (hser : h.serializeValue k v = some res) : h.serializeValue k' v = some res := by
  induction k generalizing k' v res with
  | zero => simp [Heap.serializeValue] at hser
  | succ k ih =>
    obtain ⟨m, rfl⟩ : ∃ m, k' = m + 1 := ⟨k' - 1, by omega⟩
    have hm : k ≤ m := Nat.le_of_succ_le_succ hk
    cases v with
    | heap r =>
      rw [serializeValue_heap] at hser ⊢
      cases hexpand : (building h k).expand (.heap r) with
      | none =>
        rw [hexpand] at hser
        cases hser
      | some expanded =>
        rw [hexpand] at hser
        rw [expand_mono hm hexpand]
        rcases expanded with e | m | ⟨container, items⟩
        · exact hser
        · exact hser
        · dsimp only at hser ⊢
          cases hwalk : walkLeft (h.serializeValue k) items with
          | none =>
            rw [hwalk] at hser
            cases hser
          | some walked =>
            rw [hwalk] at hser
            rw [walkLeft_mono (fun _ _ => ih hm) hwalk]
            exact hser
    | _ => exact hser

theorem expand_of_messageChildren {res : Except String (List Value)}
    (hchildren : h.messageChildren k r = some res) :
    ∃ expanded, (building h k).expand (.heap r) = some expanded := by
  unfold Heap.messageChildren at hchildren
  simp only [building]
  cases hget : h.get r with
  | error e => exact ⟨_, rfl⟩
  | ok o =>
    rw [hget] at hchildren
    cases o with
    | data tag fields =>
      dsimp only at hchildren ⊢
      split at hchildren
      · next hlist =>
        rw [if_pos hlist, hchildren]
        cases res with
        | error e => exact ⟨_, rfl⟩
        | ok items => exact ⟨_, rfl⟩
      · next hlist =>
        rw [if_neg hlist]
        exact ⟨_, rfl⟩
    | _ => exact ⟨_, rfl⟩

theorem walkLeft_serializeValue_ends {vs : List Value}
    (hall : ∀ w ∈ vs, ∃ k res, h.serializeValue k w = some res) :
    ∃ k res, walkLeft (h.serializeValue k) vs = some res := by
  induction vs with
  | nil => exact ⟨0, _, rfl⟩
  | cons w vs ih =>
    obtain ⟨⟨k, res, hw⟩, hrest⟩ := List.forall_mem_cons.mp hall
    obtain ⟨k', res', hvs⟩ := ih hrest
    refine ⟨max k k', ?_⟩
    rw [walkLeft, serializeValue_mono (le_max_left k k') hw,
      walkLeft_mono (fun _ _ => serializeValue_mono (le_max_right k k')) hvs]
    rcases res with e | m
    · exact ⟨_, rfl⟩
    · rcases res' with e | ms
      · exact ⟨_, rfl⟩
      · exact ⟨_, rfl⟩

theorem serializeValue_scalar (hv : v.ref? = none) :
    h.serializeValue 1 v = some (.ok (serializeScalar v)) := by
  cases v with
  | heap r => cases hv
  | _ => rfl

/-- Building ends for an object from which every path of references ends. -/
theorem serializeValue_ends_of_acc {i : ℕ} (hacc : Acc (fun j i => TransGen h.Refers i j) i)
    (hi : r.idx = i) : ∃ k res, h.serializeValue k (.heap r) = some res := by
  -- the induction is on paths of references, since an item of a list is several references away
  induction hacc generalizing r with
  | intro i hacc ih =>
    have hends : Ends h 0 i :=
      Subrelation.accessible (fun hm => refers_of_meets hm) (Acc.intro i hacc)
    obtain ⟨k, res, hchildren⟩ := messageChildren_ends hends hi
    obtain ⟨expanded, hexpand⟩ := expand_of_messageChildren hchildren
    rcases expanded with e | m | ⟨container, items⟩
    · exact ⟨k + 1, .error e, by rw [serializeValue_heap, hexpand]⟩
    · exact ⟨k + 1, .ok m, by rw [serializeValue_heap, hexpand]⟩
    · have hitems := messageChildren_of_expand hexpand
      have hall : ∀ w ∈ items, ∃ k res, h.serializeValue k w = some res := by
        intro w hw
        cases hv : w.ref? with
        | none => exact ⟨1, _, serializeValue_scalar hv⟩
        | some c =>
          obtain rfl := Value.ref?_eq_some.mp hv
          subst hi
          exact ih c.idx (reaches_child hitems hw) rfl
      obtain ⟨k', walked, hwalk⟩ := walkLeft_serializeValue_ends hall
      have hwalk' := walkLeft_mono (fun _ _ => serializeValue_mono (le_max_right k k')) hwalk
      refine ⟨max k k' + 1, ?_⟩
      rw [serializeValue_heap, expand_mono (le_max_left k k') hexpand]
      simp only [hwalk']
      rcases walked with e | ms
      · exact ⟨_, rfl⟩
      · exact ⟨_, rfl⟩

/-- Only objects that are there refer to others. -/
theorem finite_refers : {i | ∃ j, h.Refers i j}.Finite := by
  refine (Set.finite_lt_nat h.objects.length).subset ?_
  rintro i ⟨j, hij⟩
  by_contra hnot
  have hnone : h.object? i = none := by
    rw [Heap.object?, List.getElem?_eq_none (Nat.not_lt.mp hnot)]
    rfl
  rw [Heap.Refers, Heap.succ, hnone] at hij
  cases hij

/-- **Building a value without cycles ends.** -/
theorem serializeValue_ends (hacyc : Acyclic h v) : ∃ k res, h.serializeValue k v = some res := by
  cases hv : v.ref? with
  | none => exact ⟨1, _, serializeValue_scalar hv⟩
  | some r =>
    obtain rfl := Value.ref?_eq_some.mp hv
    have hacc : Acc (fun j i => h.Refers i j) r.idx :=
      (acc_iff_no_cycle finite_refers).mpr (hacyc r rfl)
    refine serializeValue_ends_of_acc ?_ rfl
    have htrans := hacc.transGen
    refine Subrelation.accessible (fun {j i} hij => ?_) htrans
    exact transGen_swap.mp hij

/-! ### What is built -/

/-- The building loop makes a message of a value. -/
def Builds (h : Heap) (v : Value) (m : SendableValue) : Prop :=
  ∃ depth fuel, (building h depth).run fuel [.visit v] [] = some (.ok m)

/-- A value that is built has a tree. -/
theorem hasTree_of_serializeValue {m : SendableValue}
    (hser : h.serializeValue k v = some (.ok m)) : HasTree h v := by
  induction k generalizing v m with
  | zero => simp [Heap.serializeValue] at hser
  | succ k ih =>
    cases hv : v.ref? with
    | none => exact hasTree_scalar hv
    | some r =>
      obtain rfl := Value.ref?_eq_some.mp hv
      rw [serializeValue_heap] at hser
      split at hser
      · cases hser
      · cases hser
      · next hexpand =>
        refine hasTree_of_children (messageChildren_of_expand hexpand) fun w hw => ?_
        cases hw
      · next container items hexpand =>
        refine hasTree_of_children (messageChildren_of_expand hexpand) fun w hw => ?_
        split at hser
        · cases hser
        · cases hser
        · next ms hms =>
          obtain ⟨m', hm'⟩ := walkLeft_ok hms w hw
          exact ih hm'

/-- What is built of a value without cycles is the message of its tree. -/
theorem builds_iff (hacyc : Acyclic h v) {m : SendableValue} :
    Builds h v m ↔ ∃ t, Unfolds h t v ∧ t.Sendable ∧ m = t.toMessage := by
  constructor
  · rintro ⟨depth, fuel, hrun⟩
    obtain ⟨k, res, hser⟩ := serializeValue_ends hacyc
    -- the loop with deeper walks over lists ends as the recursion does
    obtain ⟨fuel', hrun'⟩ :=
      Building.run_of_build (build_of_serializeValue (le_max_left k depth) hser)
    have heq := Building.run_mono (fun _ _ => expand_mono (le_max_right k depth)) hrun
      (le_max_left fuel fuel')
    rw [Building.run_mono (fun _ _ h => h) hrun' (le_max_right fuel fuel')] at heq
    obtain rfl := Option.some.inj heq
    obtain ⟨t, hun, hs⟩ := hasTree_of_serializeValue hser
    refine ⟨t, hun, hs, ?_⟩
    -- its message is the one that was built, whatever the depth of the walks
    have htree := serializeValue_spec (t.size + 1) hun hs (Nat.lt_succ_self _)
    have hsame := serializeValue_mono (le_max_left k (t.size + 1)) hser
    rw [serializeValue_mono (le_max_right k (t.size + 1)) htree] at hsame
    exact (Except.ok.inj (Option.some.inj hsame)).symm
  · rintro ⟨t, hun, hs, rfl⟩
    obtain ⟨fuel, hrun⟩ := run_of_tree hun hs (Nat.lt_succ_self _)
    exact ⟨_, fuel, hrun⟩

/-- An object that is never sent. -/
def Refused (h : Heap) (i : ℕ) : Prop :=
  (∃ state inc, h.object? i = some (.rng state inc)) ∨
    ∃ kind id, h.object? i = some (.hostHandle kind id)

/-- What the check should accept: no object of the value is refused, and the message that is built
of it is within the limits. -/
def Allowed (h : Heap) (maxBytes : ℕ) (v : Value) : Prop :=
  (∀ r, v = .heap r → ∀ i, ReflTransGen h.Refers r.idx i → ¬ Refused h i) ∧
    ∃ m, Builds h v m ∧ m.footprintUsize ≤ maxBytes ∧ m.depth ≤ maxMessageDepth

/-- The check ends, and accepts what it should. -/
def CheckExact (h : Heap) (maxBytes : ℕ) (v : Value) : Prop :=
  (∃ depth fuel, checkMessageSize h maxBytes depth fuel v = some (.ok ())) ∧
      Allowed h maxBytes v ∨
    (∃ depth fuel e, checkMessageSize h maxBytes depth fuel v = some (.error e)) ∧
      ¬ Allowed h maxBytes v

theorem unfolds_mem {ts : List ValueTree} {vs : List Value} (hall : UnfoldsAll h ts vs) {w : Value}
    (hw : w ∈ vs) : ∃ u, Unfolds h u w := by
  induction ts generalizing vs with
  | nil =>
    rw [UnfoldsAll] at hall
    rw [hall] at hw
    cases hw
  | cons t ts ih =>
    rw [UnfoldsAll] at hall
    obtain ⟨v, rest, rfl, ht, hts⟩ := hall
    rcases List.mem_cons.mp hw with rfl | hw
    · exact ⟨t, ht⟩
    · exact ih hts hw

/-- The object of a tree is not refused, and what it holds has trees. -/
theorem unfolds_object {t : ValueTree} (hun : Unfolds h t (.heap r)) :
    ∃ o, h.object? r.idx = some o ∧ ¬ Refused h r.idx ∧ ∀ w ∈ o.children, ∃ u, Unfolds h u w := by
  have hnot : ∀ {o}, h.object? r.idx = some o → (∀ state inc, o ≠ .rng state inc) →
      (∀ kind id, o ≠ .hostHandle kind id) → ¬ Refused h r.idx := by
    rintro o ho hrng hhandle (⟨state, inc, hr⟩ | ⟨kind, id, hr⟩)
    · exact hrng state inc (Option.some.inj (ho.symm.trans hr))
    · exact hhandle kind id (Option.some.inj (ho.symm.trans hr))
  cases t with
  | scalar w =>
    rw [Unfolds] at hun
    obtain ⟨rfl, hv⟩ := hun
    cases hv
  | string s | bytes bs =>
    rw [Unfolds] at hun
    obtain ⟨r', hr, ho⟩ := hun
    cases hr
    exact ⟨_, ho, hnot ho (by simp) (by simp), fun w hw => by cases hw⟩
  | tuple ts | data tag ts | closure protoIdx ts =>
    rw [Unfolds] at hun
    obtain ⟨r', fields, hr, ho, hall⟩ := hun
    cases hr
    exact ⟨_, ho, hnot ho (by simp) (by simp), fun w hw => unfolds_mem hall hw⟩

/-- Nothing in a tree is refused. -/
theorem not_refused {t : ValueTree} (hun : Unfolds h t (.heap r)) {i : ℕ}
    (hreach : ReflTransGen h.Refers r.idx i) : ¬ Refused h i := by
  -- each object on the way has a tree of its own
  have htree : ∃ (c : GcRef) (u : ValueTree), c.idx = i ∧ Unfolds h u (.heap c) := by
    induction hreach with
    | refl => exact ⟨r, t, rfl, hun⟩
    | tail _ hij ih =>
      obtain ⟨c, u, rfl, hu⟩ := ih
      obtain ⟨o, ho, -, hchildren⟩ := unfolds_object hu
      rw [Heap.Refers, Heap.succ, ho] at hij
      obtain ⟨d, hd, rfl⟩ := List.mem_map.mp hij
      obtain ⟨u', hu'⟩ := hchildren _ (mem_refsOf.mp hd)
      exact ⟨d, u', rfl, hu'⟩
  obtain ⟨c, u, rfl, hu⟩ := htree
  obtain ⟨o, -, hnot, -⟩ := unfolds_object hu
  exact hnot

/-- An object that should be accepted is one that passes. -/
theorem allowed_heap_iff (hacyc : Acyclic h (.heap r)) :
    Allowed h maxBytes (.heap r) ↔ Passes h maxBytes (.heap r) := by
  constructor
  · rintro ⟨-, m, hbuilds, hfits⟩
    obtain ⟨t, hun, hs, rfl⟩ := (builds_iff hacyc).mp hbuilds
    exact ⟨t, hun, hs, .inr hfits⟩
  · rintro ⟨t, hun, hs, hv | hfits⟩
    · cases hv
    · refine ⟨?_, t.toMessage, (builds_iff hacyc).mpr ⟨t, hun, hs, rfl⟩, hfits⟩
      rintro _ ⟨⟩ i hi
      exact not_refused hun hi

/-- A scalar should be accepted where its size is within the limit. -/
theorem allowed_scalar_iff (hv : v.ref? = none) :
    Allowed h maxBytes v ↔ scalarMessageBytes v ≤ maxBytes := by
  have hacyc : Acyclic h v := by
    rintro r rfl
    cases hv
  have hsize : sizeOf (serializeScalar v) = (scalarMessageBytes v, 0) := by
    cases v with
    | heap r => cases hv
    | _ => rfl
  constructor
  · rintro ⟨-, m, hbuilds, hbytes, -⟩
    obtain ⟨t, hun, -, rfl⟩ := (builds_iff hacyc).mp hbuilds
    obtain rfl := scalar_of_unfolds hun hv
    exact (congrArg Prod.fst hsize).ge.trans hbytes
  · intro hbytes
    refine ⟨fun r hr => ?_, serializeScalar v, (builds_iff hacyc).mpr ⟨.scalar v, ?_, ?_, ?_⟩,
      (congrArg Prod.fst hsize).le.trans hbytes, (congrArg Prod.snd hsize).le.trans (Nat.zero_le _)⟩
    · rw [hr] at hv
      cases hv
    · rw [Unfolds]
      exact ⟨rfl, hv⟩
    · simp only [ValueTree.Sendable]
    · rw [ValueTree.toMessage]

/-- **Where the size check is exact** for values without cycles: for every object, and for a scalar
where the limit is not below its own size. -/
theorem checkMessageSize_exact_iff (hacyc : Acyclic h v) :
    CheckExact h maxBytes v ↔ v.ref? ≠ none ∨ scalarMessageBytes v ≤ maxBytes := by
  cases hv : v.ref? with
  | none =>
    -- a scalar is accepted before anything is measured
    have haccept : ∃ depth fuel, checkMessageSize h maxBytes depth fuel v = some (.ok ()) :=
      ⟨0, 0, checkMessageSize_scalar hv⟩
    constructor
    · rintro (⟨-, hallowed⟩ | ⟨⟨depth, fuel, e, he⟩, -⟩)
      · exact .inr ((allowed_scalar_iff hv).mp hallowed)
      · rw [checkMessageSize_scalar hv] at he
        cases he
    · rintro (hne | hbytes)
      · exact absurd rfl hne
      · exact .inl ⟨haccept, (allowed_scalar_iff hv).mpr hbytes⟩
  | some r =>
    obtain rfl := Value.ref?_eq_some.mp hv
    -- without cycles measuring ends, and its result is that of the tree that would be built
    refine iff_of_true ?_ (.inl (by simp))
    have hends : ¬ MeetsCycle h maxBytes (.heap r) := not_meetsCycle hacyc
    obtain ⟨k, res, hmeasure⟩ := measure_ends_iff.mpr hends
    obtain ⟨fuel, hcheck⟩ := checkMessageSize_of_measure le_rfl hmeasure
    cases res with
    | ok size =>
      refine .inl ⟨⟨k, fuel, hcheck⟩, ?_⟩
      exact (allowed_heap_iff hacyc).mpr (passes_iff.mpr ⟨k, size, hmeasure⟩)
    | error e =>
      refine .inr ⟨⟨k, fuel, e, hcheck⟩, fun hallowed => ?_⟩
      obtain ⟨k', size, hsize⟩ := passes_iff.mp ((allowed_heap_iff hacyc).mp hallowed)
      cases measure_unique hmeasure hsize

/-- A heap whose objects refer to earlier slots has no cycles. -/
theorem acyclic_of_lt (hlt : ∀ i j, h.Refers i j → j < i) : Acyclic h v := by
  rintro r - ⟨i, -, hcycle⟩
  have htrans : ∀ i j, TransGen h.Refers i j → j < i := by
    intro i j hij
    induction hij with
    | single hij => exact hlt _ _ hij
    | tail _ hij ih => exact (hlt _ _ hij).trans ih
  exact absurd (htrans i i hcycle) (lt_irrefl i)

/-- The check of a pair of a list and an empty list. -/
theorem checkMessageSize_exact_iff_pair : CheckExact pairHeap 100 (.heap ⟨4, 4⟩) := by
  refine (checkMessageSize_exact_iff (acyclic_of_lt fun i j hij => ?_)).mpr (.inl nofun)
  have hall : ∀ i < 5, ∀ j ∈ pairHeap.succ i, j < i := by decide +kernel
  by_cases hi : i < 5
  · exact hall i hi j hij
  · have hnone : pairHeap.object? i = none := by
      rw [Heap.object?, List.getElem?_eq_none (Nat.not_lt.mp hi)]
      rfl
    rw [Heap.Refers, Heap.succ, hnone] at hij
    cases hij

/-- With a limit of 0 bytes a number is accepted, and sent in 48 bytes. -/
theorem scalar_over_limit :
    serialize Heap.new 0 1 2 (.int 7) = some (.ok (.int 7)) ∧
      (SendableValue.int 7).footprintUsize = 48 ∧
      Acyclic Heap.new (.int 7) ∧ ¬ CheckExact Heap.new 0 (.int 7) := by
  have hacyc : Acyclic Heap.new (.int 7) := by
    rintro r ⟨⟩
  refine ⟨rfl, rfl, hacyc, ?_⟩
  rintro (⟨-, hallowed⟩ | ⟨⟨depth, fuel, e, he⟩, -⟩)
  · have hbytes := (allowed_scalar_iff (v := .int 7) rfl).mp hallowed
    exact absurd hbytes (by decide)
  · cases he

end MessageWalk

end Hiko
