import Hiko.Heap.MessageSize

/-!
# Messages and cycles

`check_message_size` remembers the objects that it has measured, but not those that it is measuring:
an object that leads back to itself is put on the stack again and again. The captures of recursive
local functions are such cycles. `serialize` comes to an end if and only if the check meets no cycle
before it finds an object to refuse.

## Main definitions

* `MessageWalk.Meets`, `MessageWalk.MeetsCycle`: where the check comes to, and that it is a cycle

## Main results

* `measure_ends_iff`: the measuring ends unless it comes to a cycle
* `serialize_isSome_iff`: `serialize` ends where the measuring does
-/

namespace Hiko

open Lib Relation

namespace MessageWalk

/-- A cell of a list. -/
def IsCell (h : Heap) (i : ℕ) (fields : Fields) : Prop :=
  h.object? i = some (.data tagCons fields) ∧ fields.vals.length = 2

/-- The objects that `check_message_size` comes to from an object: a child, if all children after it
pass, since the last child is measured first; and from a cell of a list, the next cell. -/
inductive Meets (h : Heap) (maxBytes : ℕ) : ℕ → ℕ → Prop where
  | child {i k : ℕ} {r : GcRef} (pre post : List Value)
      (children : h.messageChildren k (slotRef i) = some (.ok (pre ++ .heap r :: post)))
      (passes : ∀ w ∈ post, Passes h maxBytes w) : Meets h maxBytes i r.idx
  | cell {i : ℕ} {r : GcRef} {fields rest : Fields} (item : Value) (cell : IsCell h i fields)
      (vals : fields.vals = [item, .heap r]) (next : IsCell h r.idx rest) : Meets h maxBytes i r.idx

variable {h : Heap} {maxBytes k : ℕ} {v : Value} {r : GcRef}

/-! ### Reading a list -/

theorem listItems_unique {k' : ℕ} {res res' : Except String (List Value)}
    (hk : h.listItems k v = some res) (hk' : h.listItems k' v = some res') : res = res' := by
  have heq := listItems_mono (le_max_left k k') hk
  rw [listItems_mono (le_max_right k k') hk'] at heq
  exact (Option.some.inj heq).symm

theorem messageChildren_unique {k' : ℕ} {res res' : Except String (List Value)}
    (hk : h.messageChildren k r = some res) (hk' : h.messageChildren k' r = some res') :
    res = res' := by
  have heq := messageChildren_mono (le_max_left k k') hk
  rw [messageChildren_mono (le_max_right k k') hk'] at heq
  exact (Option.some.inj heq).symm

theorem IsCell.isList {fields : Fields} (hcell : IsCell h r.idx fields) :
    isList tagCons fields = true := by
  simp only [Hiko.isList, Bool.decide_or, Bool.or_eq_true, decide_eq_true_eq]
  exact .inr ⟨trivial, hcell.2⟩

theorem IsCell.messageChildren {fields : Fields} (hcell : IsCell h r.idx fields) :
    h.messageChildren k r = h.listItems k (.heap r) := by
  rw [Heap.messageChildren, get_of_object hcell.1]
  simp only [hcell.isList, if_true]

/-- A cell reads the rest of its list. -/
theorem IsCell.listItems {fields : Fields} {item rest : Value} (hcell : IsCell h r.idx fields)
    (hvals : fields.vals = [item, rest]) :
    h.listItems (k + 1) (.heap r) = (h.listItems k rest).map (·.map (item :: ·)) := by
  rw [Heap.listItems, get_of_object hcell.1]
  simp only [hvals, if_true]
  rcases h.listItems k rest with _ | _ | _ <;> rfl

/-- What is not a cell has no items. -/
theorem listItems_of_not_cell (hnot : ∀ fields, ¬ IsCell h r.idx fields) :
    ∃ res, h.listItems 1 (.heap r) = some res ∧ ∀ items, res = .ok items → items = [] := by
  have hmalformed : ∀ e items, (Except.error e : Except String (List Value)) = .ok items →
      items = [] := fun _ _ h => by cases h
  rw [Heap.listItems]
  cases hget : h.get r with
  | error e => exact ⟨_, rfl, hmalformed e⟩
  | ok o =>
    cases o with
    | data tag fields =>
      dsimp only
      split
      · split
        · exact ⟨_, rfl, fun items h => (Except.ok.inj h).symm⟩
        · exact ⟨_, rfl, hmalformed _⟩
      · next item rest hvals =>
        have htag : tag ≠ tagCons := by
          rintro rfl
          exact hnot fields ⟨get_ok hget, by rw [hvals]; rfl⟩
        rw [if_neg htag]
        exact ⟨_, rfl, hmalformed _⟩
      · exact ⟨_, rfl, hmalformed _⟩
    | _ => exact ⟨_, rfl, hmalformed _⟩

theorem messageChildren_of_not_cell (hnot : ∀ fields, ¬ IsCell h r.idx fields) :
    ∃ res, h.messageChildren 1 r = some res := by
  rw [Heap.messageChildren]
  cases hget : h.get r with
  | error e => exact ⟨_, rfl⟩
  | ok o =>
    cases o with
    | data tag fields =>
      dsimp only
      split
      · obtain ⟨res, hres, -⟩ := listItems_of_not_cell hnot
        exact ⟨res, hres⟩
      · exact ⟨_, rfl⟩
    | _ => exact ⟨_, rfl⟩

/-! ### The measuring ends where every path does -/

/-- An object from which every path ends. -/
abbrev Ends (h : Heap) (maxBytes i : ℕ) : Prop := Acc (fun j i => Meets h maxBytes i j) i

/-- The cells of a list end. -/
theorem messageChildren_ends {i : ℕ} (hends : Ends h maxBytes i) (hi : r.idx = i) :
    ∃ k res, h.messageChildren k r = some res := by
  induction hends generalizing r with
  | intro i _ ih =>
    subst hi
    by_cases hcell : ∃ fields, IsCell h r.idx fields
    · obtain ⟨fields, hcell⟩ := hcell
      obtain ⟨item, rest, hvals⟩ := List.length_eq_two.mp hcell.2
      obtain ⟨k, res, hrest⟩ : ∃ k res, h.listItems k rest = some res := by
        cases hv : rest.ref? with
        | none =>
          refine ⟨1, .error "malformed list during serialization", ?_⟩
          cases rest with
          | heap c => cases hv
          | _ => rfl
        | some c =>
          obtain rfl := Value.ref?_eq_some.mp hv
          by_cases hnext : ∃ fields, IsCell h c.idx fields
          · obtain ⟨fields', hnext⟩ := hnext
            obtain ⟨k, res, hres⟩ := ih c.idx (.cell item hcell hvals hnext) rfl
            exact ⟨k, res, hnext.messageChildren.symm.trans hres⟩
          · obtain ⟨res, hres, -⟩ := listItems_of_not_cell (not_exists.mp hnext)
            exact ⟨1, res, hres⟩
      refine ⟨k + 1, res.map (item :: ·), ?_⟩
      rw [hcell.messageChildren, hcell.listItems hvals, hrest]
      rfl
    · obtain ⟨res, hres⟩ := messageChildren_of_not_cell (not_exists.mp hcell)
      exact ⟨1, res, hres⟩

/-- The children of an object are measured from the last one, until one of them is refused. -/
theorem walkRev_measure_ends {vs : List Value}
    (hchild : ∀ pre c post, vs = pre ++ .heap c :: post → (∀ w ∈ post, Passes h maxBytes w) →
      ∃ k res, h.measure maxBytes k (.heap c) = some res) :
    ∃ k res, walkRev (h.measure maxBytes k) vs = some res := by
  induction vs with
  | nil => exact ⟨0, _, rfl⟩
  | cons v vs ih =>
    obtain ⟨k, res, hvs⟩ := ih fun pre c post heq =>
      hchild (v :: pre) c post (by rw [heq, List.cons_append])
    cases res with
    | error e => exact ⟨k, .error e, by rw [walkRev, hvs]⟩
    | ok sizes =>
      have hpass : ∀ w ∈ vs, Passes h maxBytes w := fun w hw => by
        obtain ⟨size, hsize⟩ := walkRev_ok hvs w hw
        exact passes_iff.mpr ⟨k, size, hsize⟩
      obtain ⟨k', res, hv⟩ : ∃ k res, h.measure maxBytes k v = some res := by
        cases hv : v.ref? with
        | none =>
          obtain ⟨k, size, hsize⟩ := passes_iff.mp (passes_scalar hv)
          exact ⟨k, .ok size, hsize⟩
        | some c =>
          obtain rfl := Value.ref?_eq_some.mp hv
          exact hchild [] c vs rfl hpass
      refine ⟨max k k', ?_⟩
      rw [walkRev, walkRev_mono (fun _ _ => measure_mono (le_max_left k k')) hvs,
        measure_mono (le_max_right k k') hv]
      cases res with
      | error e => exact ⟨_, rfl⟩
      | ok size => exact ⟨_, rfl⟩

/-- Where every path ends, the measuring ends. -/
theorem measure_ends {i : ℕ} (hends : Ends h maxBytes i) (hi : r.idx = i) :
    ∃ k res, h.measure maxBytes k (.heap r) = some res := by
  induction hends generalizing r with
  | intro i hacc ih =>
    obtain ⟨k, res, hchildren⟩ := messageChildren_ends (Acc.intro i hacc) hi
    cases res with
    | error e => exact ⟨k + 1, .error e, by rw [measure_heap 0, hchildren]⟩
    | ok vs =>
      have hchild : ∀ pre c post, vs = pre ++ .heap c :: post →
          (∀ w ∈ post, Passes h maxBytes w) →
            ∃ k res, h.measure maxBytes k (.heap c) = some res := by
        rintro pre c post rfl hpost
        refine ih c.idx ?_ rfl
        subst hi
        exact .child pre post (messageChildren_slotRef.trans hchildren) hpost
      obtain ⟨k', res, hwalk⟩ := walkRev_measure_ends hchild
      have hchildren' := messageChildren_mono (le_max_left k k') hchildren
      have hwalk' := walkRev_mono (fun _ _ => measure_mono (le_max_right k k')) hwalk
      refine ⟨max k k' + 1, ?_⟩
      rw [measure_heap 0, hchildren']
      simp only [hwalk']
      cases res with
      | error e => exact ⟨_, rfl⟩
      | ok sizes => exact ⟨_, rfl⟩

/-! ### And only there -/

/-- A cell of a list that is read ends, if what the check comes to from its items ends. -/
theorem ends_of_listItems {res : Except String (List Value)} {fields : Fields}
    (hcell : IsCell h r.idx fields) (hitems : h.listItems k (.heap r) = some res)
    (hchild : ∀ pre c post, res = .ok (pre ++ .heap c :: post) →
      (∀ w ∈ post, Passes h maxBytes w) → Ends h maxBytes c.idx) : Ends h maxBytes r.idx := by
  induction k generalizing r res fields with
  | zero => simp [Heap.listItems] at hitems
  | succ k ih =>
    refine ⟨r.idx, fun j hj => ?_⟩
    obtain ⟨item, rest, hvals⟩ := List.length_eq_two.mp hcell.2
    have hread := hitems
    rw [hcell.listItems hvals] at hread
    obtain ⟨res', hrest, rfl⟩ := Option.map_eq_some_iff.mp hread
    generalize hi : r.idx = i at hj
    cases hj with
    | child pre post hchildren hpost =>
      subst hi
      rw [messageChildren_slotRef, hcell.messageChildren] at hchildren
      exact hchild pre _ post (listItems_unique hitems hchildren) hpost
    | @cell c fields' rest' item' hcell' hvals' hnext =>
      subst hi
      obtain rfl : fields = fields' := by
        have heq := hcell.1.symm.trans hcell'.1
        simpa using heq
      obtain ⟨rfl, rfl⟩ : item = item' ∧ rest = .heap c := by
        rw [hvals] at hvals'
        simpa using hvals'
      refine ih hnext hrest fun pre d post heq hpost => ?_
      refine hchild (item :: pre) d post ?_ hpost
      rw [heq]
      rfl

/-- The measuring ends only where every path does. -/
theorem ends_of_measure {res : Except String (ℕ × ℕ)}
    (hmeasure : h.measure maxBytes k (.heap r) = some res) : Ends h maxBytes r.idx := by
  induction k generalizing r res with
  | zero => simp [Heap.measure] at hmeasure
  | succ k ih =>
    obtain ⟨children, hchildren⟩ : ∃ children, h.messageChildren k r = some children := by
      rw [measure_heap 0] at hmeasure
      split at hmeasure
      · cases hmeasure
      · next e he => exact ⟨_, he⟩
      · next vs hvs => exact ⟨_, hvs⟩
    have hchild : ∀ pre c post, children = .ok (pre ++ .heap c :: post) →
        (∀ w ∈ post, Passes h maxBytes w) → Ends h maxBytes c.idx := by
      rintro pre c post rfl hpost
      rw [measure_heap 0, hchildren] at hmeasure
      obtain ⟨walked, hwalked⟩ : ∃ walked,
          walkRev (h.measure maxBytes k) (pre ++ .heap c :: post) = some walked := by
        dsimp only at hmeasure
        split at hmeasure
        · cases hmeasure
        · next e he => exact ⟨_, he⟩
        · next sizes hsizes => exact ⟨_, hsizes⟩
      obtain ⟨walked', hwalked'⟩ := walkRev_suffix hwalked
      obtain ⟨e, he, -⟩ | ⟨sizes, -, ⟨e, he, -⟩ | ⟨size, hsize, -⟩⟩ := walkRev_cons_cases hwalked'
      · -- what passes is not refused
        obtain ⟨w, hw, hrefused⟩ := walkRev_error he
        obtain ⟨k', size, hsize⟩ := passes_iff.mp (hpost w hw)
        cases measure_unique hsize hrefused
      · exact ih he
      · exact ih hsize
    -- a cell leads to the next cell as well, which is no child of it
    by_cases hcell : ∃ fields, IsCell h r.idx fields
    · obtain ⟨fields, hcell⟩ := hcell
      exact ends_of_listItems hcell (hcell.messageChildren.symm.trans hchildren) hchild
    · refine ⟨r.idx, fun j hj => ?_⟩
      generalize hi : r.idx = i at hj
      cases hj with
      | child pre post hchildren' hpost =>
        subst hi
        rw [messageChildren_slotRef] at hchildren'
        exact hchild pre _ post (messageChildren_unique hchildren hchildren') hpost
      | @cell c fields' rest' item' hcell' hvals' hnext =>
        subst hi
        exact absurd ⟨fields', hcell'⟩ hcell

/-- Only slots that hold an object lead anywhere. -/
theorem finite_meets : {i | ∃ j, Meets h maxBytes i j}.Finite := by
  have hsub : {i | ∃ j, Meets h maxBytes i j} ⊆ {i | i < h.objects.length} := by
    have hlt : ∀ i o, h.object? i = some o → i < h.objects.length := by
      intro i o ho
      by_contra hnot
      rw [Heap.object?, List.getElem?_eq_none (Nat.not_lt.mp hnot)] at ho
      cases ho
    rintro i ⟨j, hij⟩
    cases hij with
    | child pre post hchildren hpost =>
      unfold Heap.messageChildren at hchildren
      cases hget : h.get (slotRef i) with
      | error e =>
        rw [hget] at hchildren
        cases hchildren
      | ok o => exact hlt i o (get_ok hget)
    | cell item hcell hvals hnext => exact hlt i _ hcell.1
  exact (Set.finite_lt_nat _).subset hsub

/-- The check of a value comes to a cycle. -/
def MeetsCycle (h : Heap) (maxBytes : ℕ) (v : Value) : Prop :=
  ∃ r i, v = .heap r ∧ ReflTransGen (Meets h maxBytes) r.idx i ∧ TransGen (Meets h maxBytes) i i

/-- **The measuring ends unless it comes to a cycle.** -/
theorem measure_ends_iff :
    (∃ k res, h.measure maxBytes k v = some res) ↔ ¬ MeetsCycle h maxBytes v := by
  cases hv : v.ref? with
  | none => -- a scalar has no references
    obtain ⟨k, size, hsize⟩ := passes_iff.mp (passes_scalar (h := h) (v := v) hv)
    refine iff_of_true ⟨k, _, hsize⟩ ?_
    rintro ⟨r, i, rfl, -⟩
    cases hv
  | some r =>
    obtain rfl := Value.ref?_eq_some.mp hv
    have hends : (∃ k res, h.measure maxBytes k (.heap r) = some res) ↔ Ends h maxBytes r.idx :=
      ⟨fun ⟨_, _, hm⟩ => ends_of_measure hm, fun he => measure_ends he rfl⟩
    refine hends.trans ((acc_iff_no_cycle finite_meets).trans (not_congr ?_))
    constructor
    · rintro ⟨i, hi⟩
      exact ⟨r, i, rfl, hi⟩
    · rintro ⟨r', i, heq, hi⟩
      cases heq
      exact ⟨i, hi⟩

/-- `serialize` ends where its check does. -/
theorem serialize_isSome_iff :
    (∃ depth fuel res, serialize h maxBytes depth fuel v = some res) ↔
      ∃ k res, h.measure maxBytes k v = some res := by
  constructor
  · rintro ⟨depth, fuel, res, hser⟩
    obtain ⟨k, e, he, -⟩ | ⟨t, hun, hs, hfits, -⟩ := serialize_cases hser
    · exact ⟨k, _, he⟩
    · obtain ⟨k, size, hsize⟩ := passes_iff.mp ⟨t, hun, hs, hfits⟩
      exact ⟨k, _, hsize⟩
  · rintro ⟨k, res, hmeasure⟩
    cases res with
    | error e => -- nothing is built
      obtain ⟨depth, fuel, hser⟩ := serialize_of_error hmeasure
      exact ⟨depth, fuel, _, hser⟩
    | ok size =>
      obtain ⟨t, hun, hs, hfits⟩ := passes_iff.mpr ⟨k, size, hmeasure⟩
      obtain ⟨depth, fuel, hser⟩ := serialize_of_tree hun hs hfits
      exact ⟨depth, fuel, _, hser⟩

end MessageWalk

end Hiko
