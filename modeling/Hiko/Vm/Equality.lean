import Hiko.Heap.MessageCheck
import Hiko.Vm.Run

/-!
# Structural equality

`values_equal` compares two values with a worklist of pairs. A value without cycles unfolds to a
tree, however its parts are shared, and the comparison decides whether two trees are the same.
Closures, generators and handles are leaves that are told apart by their slots.

## Main definitions

* `EqualityTree`, `Denotes`: the values that are compared, unfolded
* `Comparable`: a value without cycles, NaN floats, builtins and bytes
* `runValuesEqual`: `values_equal`, with the rounds of its loop counted

## Main results

* `denotes_unique`: a value unfolds to one tree
* `Comparable.denotes`: a comparable value unfolds to a tree
* `valuesEqual_exact`: `values_equal` ends, and decides whether the trees are the same
-/

namespace Hiko

open Lib Relation

variable {W : Type}

/-! ## Floats -/

/-- The bits of an `f64` that is no number. -/
def isNan (bits : UInt64) : Bool := 0x7FF0000000000000 < (bits &&& 0x7FFFFFFFFFFFFFFF)

/-- The bits of the same number, which has one zero. -/
def numberBits (bits : UInt64) : UInt64 := if bits = 0x8000000000000000 then 0 else bits

/-- `==` of `f64`. -/
def f64Eq (x y : UInt64) : Bool := !isNan x && !isNan y && numberBits x == numberBits y

/-- The floats of the host are compared with `==`. -/
def Host.ComparesFloats (host : Host W) : Prop := ∀ x y, host.eqFloat x y = f64Eq x y

/-! ## The function -/

/-- The loop of `values_equal`. The top of the worklist is its head, and nothing is returned if the
rounds are not enough. -/
def equalLoop (host : Host W) (h : Heap) : ℕ → List (Value × Value) → Option Bool
  | _, [] => some true
  | 0, _ :: _ => none
  | rounds + 1, (left, right) :: work =>
    match pairEqual host h left right with
    | none => some false
    | some pairs => equalLoop host h rounds (pairs.reverse ++ work)

/-- `values_equal`, with the rounds of its loop counted. -/
def runValuesEqual (host : Host W) (h : Heap) (rounds : ℕ) : Value → Value → Option Bool
  | .heap ra, .heap rb =>
    if ra.idx = rb.idx then some true
    else
      match h.object? ra.idx, h.object? rb.idx with
      | some (.string sa), some (.string sb) => some (sa = sb)
      | _, _ => equalLoop host h rounds [(.heap ra, .heap rb)]
  | a, b => some (scalarsEqual host a b)

/-! ## Trees -/

/-- A compared value, unfolded. -/
inductive EqualityTree where
  | scalar (v : Value)
  | string (s : String)
  | tuple (fields : List EqualityTree)
  | data (tag : ℕ) (fields : List EqualityTree)
  | slot (idx : ℕ)

/-- A scalar with the bits of its number. -/
def Value.number : Value → Value
  | .float bits => .float (numberBits bits)
  | v => v

/-- The scalars that are compared: no builtin, and no float that is no number. -/
def PlainScalar : Value → Prop
  | .float bits => isNan bits = false
  | .builtin _ | .heap _ => False
  | _ => True

/-- The contents of a slot that are told apart by the slot. -/
def ComparedBySlot : Option HeapObject → Prop
  | some (.closure _ _) | some (.hostHandle _ _) | some (.rng _ _) | none => True
  | _ => False

mutual

/-- A value of a heap unfolds to a tree. -/
def Denotes (h : Heap) : EqualityTree → Value → Prop
  | .scalar w, v => PlainScalar v ∧ w = v.number
  | .string s, v => ∃ r, v = .heap r ∧ h.object? r.idx = some (.string s)
  | .tuple ts, v => ∃ r fields, v = .heap r ∧ h.object? r.idx = some (.tuple fields) ∧
      DenotesAll h ts fields.vals
  | .data tag ts, v => ∃ r fields, v = .heap r ∧ h.object? r.idx = some (.data tag fields) ∧
      DenotesAll h ts fields.vals
  | .slot idx, v => ∃ r, v = .heap r ∧ r.idx = idx ∧ ComparedBySlot (h.object? idx)

/-- Several values unfold to as many trees. -/
def DenotesAll (h : Heap) : List EqualityTree → List Value → Prop
  | [], vs => vs = []
  | t :: ts, vs => ∃ v rest, vs = v :: rest ∧ Denotes h t v ∧ DenotesAll h ts rest

end

mutual

/-- The values in a tree. -/
def EqualityTree.size : EqualityTree → ℕ
  | .tuple ts | .data _ ts => EqualityTree.sizes ts + 1
  | _ => 1

/-- The values in several trees. -/
def EqualityTree.sizes : List EqualityTree → ℕ
  | [] => 0
  | t :: ts => t.size + EqualityTree.sizes ts

end

/-- A part of a value: the value, or a part of a field of its tuple or data. -/
inductive PartOf (h : Heap) : Value → Value → Prop
  | self (v : Value) : PartOf h v v
  | tuple {r : GcRef} {fields : Fields} {v w : Value}
      (ho : h.object? r.idx = some (.tuple fields)) (hv : v ∈ fields.vals) (hw : PartOf h v w) :
      PartOf h (.heap r) w
  | data {r : GcRef} {tag : ℕ} {fields : Fields} {v w : Value}
      (ho : h.object? r.idx = some (.data tag fields)) (hv : v ∈ fields.vals)
      (hw : PartOf h v w) : PartOf h (.heap r) w

/-- The parts that are compared: no builtin, no float that is no number, and no bytes. -/
def PlainPart (h : Heap) : Value → Prop
  | .heap r => ∀ bytes, h.object? r.idx ≠ some (.bytes bytes)
  | v => PlainScalar v

/-- A value without cycles, of parts that are compared. -/
structure Comparable (h : Heap) (v : Value) : Prop where
  acyclic : Acyclic h v
  plain : ∀ w, PartOf h v w → PlainPart h w

/-! ## One tree for each value -/

section Trees

variable {h : Heap}

theorem denotesAll_iff {ts : List EqualityTree} {vs : List Value} :
    DenotesAll h ts vs ↔ List.Forall₂ (Denotes h) ts vs := by
  induction ts generalizing vs with
  | nil => rw [DenotesAll, List.forall₂_nil_left_iff]
  | cons t ts ih =>
    rw [DenotesAll, List.forall₂_cons_left_iff]
    constructor
    · rintro ⟨v, rest, rfl, hv, hrest⟩
      exact ⟨v, rest, hv, ih.mp hrest, rfl⟩
    · rintro ⟨v, rest, hv, hrest, rfl⟩
      exact ⟨v, rest, rfl, hv, ih.mpr hrest⟩

theorem Denotes.scalar {t : EqualityTree} {v : Value} (hd : Denotes h t v) (hv : v.ref? = none) :
    t = .scalar v.number ∧ PlainScalar v := by
  cases t with
  | scalar w =>
    rw [Denotes] at hd
    exact ⟨congrArg EqualityTree.scalar hd.2, hd.1⟩
  | string s | tuple ts | data tag ts | slot idx =>
    rw [Denotes] at hd
    obtain ⟨r, hr⟩ : ∃ r, v = .heap r := by
      first
        | exact ⟨_, hd.choose_spec.1⟩
        | exact ⟨_, hd.choose_spec.choose_spec.1⟩
    rw [hr] at hv
    cases hv

/-- What the tree of a reference is, by its object. -/
theorem Denotes.heap {t : EqualityTree} {r : GcRef} (hd : Denotes h t (.heap r)) :
    (∃ s, h.object? r.idx = some (.string s) ∧ t = .string s) ∨
      (∃ fields ts, h.object? r.idx = some (.tuple fields) ∧ t = .tuple ts ∧
        DenotesAll h ts fields.vals) ∨
      (∃ tag fields ts, h.object? r.idx = some (.data tag fields) ∧ t = .data tag ts ∧
        DenotesAll h ts fields.vals) ∨
      ComparedBySlot (h.object? r.idx) ∧ t = .slot r.idx := by
  cases t with
  | scalar w =>
    rw [Denotes] at hd
    exact hd.1.elim
  | string s =>
    rw [Denotes] at hd
    obtain ⟨r', hr, ho⟩ := hd
    cases hr
    exact .inl ⟨s, ho, rfl⟩
  | tuple ts =>
    rw [Denotes] at hd
    obtain ⟨r', fields, hr, ho, hall⟩ := hd
    cases hr
    exact .inr (.inl ⟨fields, ts, ho, rfl, hall⟩)
  | data tag ts =>
    rw [Denotes] at hd
    obtain ⟨r', fields, hr, ho, hall⟩ := hd
    cases hr
    exact .inr (.inr (.inl ⟨tag, fields, ts, ho, rfl, hall⟩))
  | slot idx =>
    rw [Denotes] at hd
    obtain ⟨r', hr, rfl, ho⟩ := hd
    cases hr
    exact .inr (.inr (.inr ⟨ho, rfl⟩))

/-- Only the slot of a reference counts. -/
theorem Denotes.of_idx {t : EqualityTree} {r r' : GcRef} (hd : Denotes h t (.heap r))
    (hidx : r.idx = r'.idx) : Denotes h t (.heap r') := by
  obtain ⟨s, ho, rfl⟩ | ⟨fields, ts, ho, rfl, hall⟩ | ⟨tag, fields, ts, ho, rfl, hall⟩ |
    ⟨ho, rfl⟩ := hd.heap <;> rw [hidx] at ho <;> rw [Denotes]
  · exact ⟨r', rfl, ho⟩
  · exact ⟨r', fields, rfl, ho, hall⟩
  · exact ⟨r', fields, rfl, ho, hall⟩
  · exact ⟨r', rfl, hidx.symm, hidx ▸ ho⟩

mutual

/-- **A value unfolds to one tree.** -/
theorem denotes_unique : ∀ (t t' : EqualityTree) (v : Value), Denotes h t v → Denotes h t' v →
    t = t'
  | .scalar w, t', v, ht, ht' => by
    rw [Denotes] at ht
    cases v with
    | heap r => exact ht.1.elim
    | _ => rw [(ht'.scalar rfl).1, ht.2]
  | .string s, t', v, ht, ht' => by
    rw [Denotes] at ht
    obtain ⟨r, rfl, ho⟩ := ht
    obtain ⟨s', ho', rfl⟩ | ⟨fields, ts, ho', -⟩ | ⟨tag, fields, ts, ho', -⟩ | ⟨ho', -⟩ :=
      ht'.heap <;> rw [ho] at ho' <;> cases ho'
    rfl
  | .tuple ts, t', v, ht, ht' => by
    rw [Denotes] at ht
    obtain ⟨r, fields, rfl, ho, hall⟩ := ht
    obtain ⟨s', ho', rfl⟩ | ⟨fields', ts', ho', rfl, hall'⟩ | ⟨tag, fields', ts', ho', -⟩ |
      ⟨ho', -⟩ := ht'.heap <;> rw [ho] at ho' <;> cases ho'
    rw [denotesAll_unique ts ts' fields.vals hall hall']
  | .data tag ts, t', v, ht, ht' => by
    rw [Denotes] at ht
    obtain ⟨r, fields, rfl, ho, hall⟩ := ht
    obtain ⟨s', ho', rfl⟩ | ⟨fields', ts', ho', -⟩ | ⟨tag', fields', ts', ho', rfl, hall'⟩ |
      ⟨ho', -⟩ := ht'.heap <;> rw [ho] at ho' <;> cases ho'
    rw [denotesAll_unique ts ts' fields.vals hall hall']
  | .slot idx, t', v, ht, ht' => by
    rw [Denotes] at ht
    obtain ⟨r, rfl, rfl, ho⟩ := ht
    obtain ⟨s', ho', rfl⟩ | ⟨fields', ts', ho', -⟩ | ⟨tag', fields', ts', ho', -⟩ |
      ⟨-, rfl⟩ := ht'.heap
    · rw [ho'] at ho
      exact ho.elim
    · rw [ho'] at ho
      exact ho.elim
    · rw [ho'] at ho
      exact ho.elim
    · rfl

theorem denotesAll_unique : ∀ (ts ts' : List EqualityTree) (vs : List Value),
    DenotesAll h ts vs → DenotesAll h ts' vs → ts = ts'
  | [], ts', vs, hts, hts' => by
    rw [DenotesAll] at hts
    subst hts
    cases ts' with
    | nil => rfl
    | cons t' ts' =>
      rw [DenotesAll] at hts'
      obtain ⟨v, rest, hcons, -⟩ := hts'
      cases hcons
  | t :: ts, ts', vs, hts, hts' => by
    rw [DenotesAll] at hts
    obtain ⟨v, rest, rfl, ht, hrest⟩ := hts
    cases ts' with
    | nil =>
      rw [DenotesAll] at hts'
      cases hts'
    | cons t' ts' =>
      rw [DenotesAll] at hts'
      obtain ⟨v', rest', hcons, ht', hrest'⟩ := hts'
      cases hcons
      rw [denotes_unique t t' v ht ht', denotesAll_unique ts ts' rest hrest hrest']

end

theorem PlainPart.denotes {v : Value} (hv : v.ref? = none) (hp : PlainPart h v) :
    Denotes h (.scalar v.number) v := by
  rw [Denotes]
  cases v with
  | heap r => cases hv
  | _ => exact ⟨hp, rfl⟩

/-- **A comparable value unfolds to a tree.** -/
theorem Comparable.denotes {v : Value} (hv : Comparable h v) : ∃ t, Denotes h t v := by
  cases href : v.ref? with
  | none => exact ⟨_, (hv.plain v (.self v)).denotes href⟩
  | some r =>
    obtain rfl := Value.ref?_eq_some.mp href
    have hacc : Acc (fun j i => h.Refers i j) r.idx :=
      (acc_iff_no_cycle MessageWalk.finite_refers).mpr (hv.acyclic r rfl)
    have hplain := hv.plain
    clear hv href
    -- the induction is on paths of references, which are finite without cycles
    generalize hi : r.idx = i at hacc
    induction hacc generalizing r with
    | intro i _ ih =>
      subst hi
      have hall : ∀ vs : List Value, (∀ w ∈ vs, ∀ u, PartOf h w u → PartOf h (.heap r) u) →
          (∀ c : GcRef, .heap c ∈ vs → h.Refers r.idx c.idx) →
          ∃ ts, DenotesAll h ts vs := by
        intro vs hparts hrefers
        have hone : ∀ w ∈ vs, ∃ t, Denotes h t w := by
          intro w hw
          cases hc : w.ref? with
          | none => exact ⟨_, (hplain w (hparts w hw w (.self w))).denotes hc⟩
          | some c =>
            obtain rfl := Value.ref?_eq_some.mp hc
            exact ih c.idx (hrefers c hw) c (fun u hu => hplain u (hparts _ hw u hu)) rfl
        clear hparts hrefers
        induction vs with
        | nil => exact ⟨[], by rw [DenotesAll]⟩
        | cons w vs ihvs =>
          obtain ⟨⟨t, ht⟩, hrest⟩ := List.forall_mem_cons.mp hone
          obtain ⟨ts, hts⟩ := ihvs hrest
          exact ⟨t :: ts, by rw [DenotesAll]; exact ⟨w, vs, rfl, ht, hts⟩⟩
      cases ho : h.object? r.idx with
      | none => exact ⟨.slot r.idx, by rw [Denotes]; exact ⟨r, rfl, rfl, by rw [ho]; trivial⟩⟩
      | some o =>
        cases o with
        | string s => exact ⟨.string s, by rw [Denotes]; exact ⟨r, rfl, ho⟩⟩
        | tuple fields =>
          obtain ⟨ts, hts⟩ := hall fields.vals (fun w hw u hu => .tuple ho hw hu)
            fun c hc => MessageWalk.refers_of_child ho hc
          exact ⟨.tuple ts, by rw [Denotes]; exact ⟨r, fields, rfl, ho, hts⟩⟩
        | data tag fields =>
          obtain ⟨ts, hts⟩ := hall fields.vals (fun w hw u hu => .data ho hw hu)
            fun c hc => MessageWalk.refers_of_child ho hc
          exact ⟨.data tag ts, by rw [Denotes]; exact ⟨r, fields, rfl, ho, hts⟩⟩
        | bytes bytes => exact absurd ho (hplain _ (.self _) bytes)
        | closure protoIdx captures | hostHandle kind id | rng state inc =>
          exact ⟨.slot r.idx, by rw [Denotes]; exact ⟨r, rfl, rfl, by rw [ho]; trivial⟩⟩

end Trees

/-! ## The worklist -/

section Loop

variable {host : Host W} {h : Heap}

theorem decide_scalars {α : Type} [DecidableEq α] {c : α → Value}
    (hc : ∀ x y, c x = c y → x = y) (x y : α) : decide (x = y) = true ↔ c x = c y :=
  decide_eq_true_iff.trans ⟨congrArg c, hc x y⟩

theorem scalarsEqual_iff (hfloat : host.ComparesFloats) {a b : Value} (ha : PlainScalar a)
    (hb : PlainScalar b) : scalarsEqual host a b = true ↔ a.number = b.number := by
  have hfloats : ∀ x y, isNan x = false → isNan y = false →
      (host.eqFloat x y = true ↔ numberBits x = numberBits y) := by
    intro x y hx hy
    rw [hfloat, f64Eq, hx, hy]
    simp
  -- two floats are compared by their numbers, values of other kinds by what they hold
  cases a with
  | float x =>
    cases b with
    | float y => exact (hfloats x y ha hb).trans ⟨congrArg Value.float, Value.float.inj⟩
    | _ => exact iff_of_false Bool.false_ne_true fun h => by cases h
  | int x =>
    cases b with
    | int y => exact decide_scalars (fun _ _ => Value.int.inj) x y
    | _ => exact iff_of_false Bool.false_ne_true fun h => by cases h
  | word x =>
    cases b with
    | word y => exact decide_scalars (fun _ _ => Value.word.inj) x y
    | _ => exact iff_of_false Bool.false_ne_true fun h => by cases h
  | pid x =>
    cases b with
    | pid y => exact decide_scalars (fun _ _ => Value.pid.inj) x y
    | _ => exact iff_of_false Bool.false_ne_true fun h => by cases h
  | bool x =>
    cases b with
    | bool y => exact decide_scalars (fun _ _ => Value.bool.inj) x y
    | _ => exact iff_of_false Bool.false_ne_true fun h => by cases h
  | char x =>
    cases b with
    | char y => exact decide_scalars (fun _ _ => Value.char.inj) x y
    | _ => exact iff_of_false Bool.false_ne_true fun h => by cases h
  | unit =>
    cases b with
    | unit => exact iff_of_true rfl rfl
    | _ => exact iff_of_false Bool.false_ne_true fun h => by cases h
  | builtin f => exact False.elim ha
  | heap r => exact False.elim ha

/-- The pairs of a worklist unfold to pairs of trees. -/
def Pairs (h : Heap) : List (EqualityTree × EqualityTree) → List (Value × Value) → Prop :=
  List.Forall₂ fun ts vs => Denotes h ts.1 vs.1 ∧ Denotes h ts.2 vs.2

/-- The trees of each pair are the same. -/
def AllSame (ps : List (EqualityTree × EqualityTree)) : Prop := ∀ p ∈ ps, p.1 = p.2

/-- The values on the left of a worklist. -/
def leftSize (ps : List (EqualityTree × EqualityTree)) : ℕ := (ps.map (·.1.size)).sum

theorem pairs_zip {ts us : List EqualityTree} {vs ws : List Value}
    (hts : DenotesAll h ts vs) (hus : DenotesAll h us ws) : Pairs h (ts.zip us) (vs.zip ws) := by
  rw [denotesAll_iff] at hts hus
  induction hts generalizing us ws with
  | nil => exact .nil
  | cons ht _ ih =>
    cases hus with
    | nil => exact .nil
    | cons hu hus => exact .cons ⟨ht, hu⟩ (ih hus)

theorem allSame_zip {ts us : List EqualityTree} (hlen : ts.length = us.length) :
    AllSame (ts.zip us) ↔ ts = us := by
  induction ts generalizing us with
  | nil =>
    cases us with
    | nil => exact ⟨fun _ => rfl, fun _ p hp => by cases hp⟩
    | cons u us => cases hlen
  | cons t ts ih =>
    cases us with
    | nil => cases hlen
    | cons u us =>
      rw [List.zip_cons_cons, AllSame, List.forall_mem_cons, List.cons.injEq]
      exact and_congr_right fun _ => ih (Nat.succ.inj hlen)

theorem leftSize_zip (ts us : List EqualityTree) :
    leftSize (ts.zip us) ≤ EqualityTree.sizes ts := by
  induction ts generalizing us with
  | nil => exact Nat.zero_le _
  | cons t ts ih =>
    cases us with
    | nil => exact Nat.zero_le _
    | cons u us =>
      have hrest := ih us
      rw [EqualityTree.sizes]
      simp only [leftSize, List.zip_cons_cons, List.map_cons, List.sum_cons] at hrest ⊢
      omega

theorem DenotesAll.length {ts : List EqualityTree} {vs : List Value} (hts : DenotesAll h ts vs) :
    ts.length = vs.length := (denotesAll_iff.mp hts).length_eq

/-- The fields of two objects. -/
theorem fields_cases {ts us : List EqualityTree} {vs ws : List Value}
    (hts : DenotesAll h ts vs) (hus : DenotesAll h us ws) :
    vs.length = ws.length ∧ (AllSame (ts.zip us) ↔ ts = us) ∨ vs.length ≠ ws.length ∧ ts ≠ us := by
  by_cases hlen : vs.length = ws.length
  · exact .inl ⟨hlen, allSame_zip (by rw [hts.length, hus.length, hlen])⟩
  · refine .inr ⟨hlen, ?_⟩
    rintro rfl
    exact hlen (hts.length.symm.trans hus.length)

/-- The comparison of two references to different slots. -/
theorem pairEqual_heap {r r' : GcRef} (hidx : r.idx ≠ r'.idx) :
    pairEqual host h (.heap r) (.heap r') =
      match h.object? r.idx, h.object? r'.idx with
      | some oa, some ob => objectsEqual oa ob
      | _, _ => none := if_neg hidx

theorem objectsEqual_left {o : Option HeapObject} (ho : ComparedBySlot o) (o' : Option HeapObject) :
    (match o, o' with
      | some oa, some ob => objectsEqual oa ob
      | _, _ => none) = none := by
  cases o with
  | none => rfl
  | some oa =>
    cases o' with
    | none => rfl
    | some ob => cases oa <;> first | exact ho.elim | rfl

theorem objectsEqual_right {o : Option HeapObject} (ho : ComparedBySlot o)
    (o' : Option HeapObject) :
    (match o', o with
      | some oa, some ob => objectsEqual oa ob
      | _, _ => none) = none := by
  cases o' with
  | none => rfl
  | some oa =>
    cases o with
    | none => rfl
    | some ob => cases ob <;> first | exact ho.elim | cases oa <;> rfl

theorem size_pos (t : EqualityTree) : 0 < t.size := by
  cases t <;> simp [EqualityTree.size]

/-- **One round**: the trees differ, or they are the same where those of the new pairs are. -/
theorem pairEqual_spec (hfloat : host.ComparesFloats) {t u : EqualityTree} {a b : Value}
    (ht : Denotes h t a) (hu : Denotes h u b) :
    pairEqual host h a b = none ∧ t ≠ u ∨
      ∃ pairs ps, pairEqual host h a b = some pairs ∧ Pairs h ps pairs ∧
        (AllSame ps ↔ t = u) ∧ leftSize ps < t.size := by
  have hnone : ∀ p ∈ ([] : List (EqualityTree × EqualityTree)), p.1 = p.2 := fun p hp => by cases hp
  cases ha : a.ref? with
  | none =>
    obtain ⟨rfl, hplain⟩ := ht.scalar ha
    cases hb : b.ref? with
    | none =>
      obtain ⟨rfl, hplain'⟩ := hu.scalar hb
      have hpair : pairEqual host h a b = if scalarsEqual host a b then some [] else none := by
        cases a <;> cases b <;> first | rfl | cases ha
      have hiff := scalarsEqual_iff hfloat hplain hplain'
      by_cases hs : scalarsEqual host a b = true
      · refine .inr ⟨[], [], by rw [hpair, if_pos hs], .nil, ⟨fun _ => ?_, fun _ => hnone⟩,
          size_pos _⟩
        rw [hiff.mp hs]
      · refine .inl ⟨by rw [hpair, if_neg hs], fun heq => hs (hiff.mpr ?_)⟩
        exact EqualityTree.scalar.inj heq
    | some r =>
      obtain rfl := Value.ref?_eq_some.mp hb
      refine .inl ⟨?_, ?_⟩
      · cases a <;> first | rfl | cases ha
      · obtain ⟨s, -, rfl⟩ | ⟨fields, ts, -, rfl, -⟩ | ⟨tag, fields, ts, -, rfl, -⟩ | ⟨-, rfl⟩ :=
          hu.heap <;> exact fun heq => by cases heq
  | some r =>
    obtain rfl := Value.ref?_eq_some.mp ha
    cases hb : b.ref? with
    | none =>
      obtain ⟨rfl, -⟩ := hu.scalar hb
      refine .inl ⟨?_, ?_⟩
      · cases b <;> first | rfl | cases hb
      · obtain ⟨s, -, rfl⟩ | ⟨fields, ts, -, rfl, -⟩ | ⟨tag, fields, ts, -, rfl, -⟩ | ⟨-, rfl⟩ :=
          ht.heap <;> exact fun heq => by cases heq
    | some r' =>
      obtain rfl := Value.ref?_eq_some.mp hb
      by_cases hidx : r.idx = r'.idx
      · -- one slot has one tree
        refine .inr ⟨[], [], if_pos hidx, .nil, ⟨fun _ => ?_, fun _ => hnone⟩, size_pos _⟩
        exact denotes_unique t u _ (ht.of_idx hidx) hu
      · rw [pairEqual_heap hidx]
        obtain ⟨s, ho, rfl⟩ | ⟨fields, ts, ho, rfl, hts⟩ | ⟨tag, fields, ts, ho, rfl, hts⟩ |
          ⟨ho, rfl⟩ := ht.heap
        · obtain ⟨s', ho', rfl⟩ | ⟨fields', us, ho', rfl, -⟩ | ⟨tag', fields', us, ho', rfl, -⟩ |
            ⟨ho', rfl⟩ := hu.heap
          · rw [ho, ho']
            by_cases hs : s = s'
            · subst hs
              exact .inr ⟨[], [], if_pos rfl, .nil, ⟨fun _ => rfl, fun _ => hnone⟩, size_pos _⟩
            · exact .inl ⟨if_neg hs, fun heq => hs (EqualityTree.string.inj heq)⟩
          · exact .inl ⟨by rw [ho, ho']; rfl, fun heq => by cases heq⟩
          · exact .inl ⟨by rw [ho, ho']; rfl, fun heq => by cases heq⟩
          · exact .inl ⟨objectsEqual_right ho' _, fun heq => by cases heq⟩
        · obtain ⟨s', ho', rfl⟩ | ⟨fields', us, ho', rfl, hus⟩ | ⟨tag', fields', us, ho', rfl, -⟩ |
            ⟨ho', rfl⟩ := hu.heap
          · exact .inl ⟨by rw [ho, ho']; rfl, fun heq => by cases heq⟩
          · rw [ho, ho']
            obtain ⟨hlen, hsame⟩ | ⟨hlen, hne⟩ := fields_cases hts hus
            · refine .inr ⟨_, ts.zip us, if_pos hlen, pairs_zip hts hus, ?_,
                Nat.lt_succ_of_le (leftSize_zip ts us)⟩
              rw [hsame, EqualityTree.tuple.injEq]
            · exact .inl ⟨if_neg hlen, fun heq => hne (EqualityTree.tuple.inj heq)⟩
          · exact .inl ⟨by rw [ho, ho']; rfl, fun heq => by cases heq⟩
          · exact .inl ⟨objectsEqual_right ho' _, fun heq => by cases heq⟩
        · obtain ⟨s', ho', rfl⟩ | ⟨fields', us, ho', rfl, -⟩ |
            ⟨tag', fields', us, ho', rfl, hus⟩ | ⟨ho', rfl⟩ := hu.heap
          · exact .inl ⟨by rw [ho, ho']; rfl, fun heq => by cases heq⟩
          · exact .inl ⟨by rw [ho, ho']; rfl, fun heq => by cases heq⟩
          · rw [ho, ho']
            by_cases htag : tag = tag'
            · obtain ⟨hlen, hsame⟩ | ⟨hlen, hne⟩ := fields_cases hts hus
              · refine .inr ⟨_, ts.zip us, if_pos ⟨htag, hlen⟩, pairs_zip hts hus, ?_,
                  Nat.lt_succ_of_le (leftSize_zip ts us)⟩
                rw [hsame, EqualityTree.data.injEq]
                exact (and_iff_right htag).symm
              · exact .inl ⟨if_neg fun hc => hlen hc.2,
                  fun heq => hne (EqualityTree.data.inj heq).2⟩
            · exact .inl ⟨if_neg fun hc => htag hc.1,
                fun heq => htag (EqualityTree.data.inj heq).1⟩
          · exact .inl ⟨objectsEqual_right ho' _, fun heq => by cases heq⟩
        · refine .inl ⟨objectsEqual_left ho _, ?_⟩
          obtain ⟨s', -, rfl⟩ | ⟨fields', us, -, rfl, -⟩ | ⟨tag', fields', us, -, rfl, -⟩ |
            ⟨-, rfl⟩ := hu.heap
          · exact fun heq => by cases heq
          · exact fun heq => by cases heq
          · exact fun heq => by cases heq
          · exact fun heq => hidx (EqualityTree.slot.inj heq)

/-- **The loop ends**, and decides whether the trees of all pairs are the same. -/
theorem equalLoop_spec (hfloat : host.ComparesFloats) {rounds : ℕ}
    {ps : List (EqualityTree × EqualityTree)} {work : List (Value × Value)} (hps : Pairs h ps work)
    (hrounds : leftSize ps ≤ rounds) :
    ∃ res, equalLoop host h rounds work = some res ∧ (res = true ↔ AllSame ps) := by
  induction rounds generalizing ps work with
  | zero =>
    cases hps with
    | nil => exact ⟨true, rfl, (fun _ p hp => by cases hp), fun _ => rfl⟩
    | @cons p w ps work hp hps =>
      have hpos := size_pos p.1
      simp only [leftSize, List.map_cons, List.sum_cons] at hrounds
      omega
  | succ rounds ih =>
    cases hps with
    | nil => exact ⟨true, rfl, (fun _ p hp => by cases hp), fun _ => rfl⟩
    | @cons p w ps work hp hps =>
      rw [equalLoop]
      obtain ⟨hpair, hne⟩ | ⟨pairs, new, hpair, hnew, hsame, hsize⟩ :=
        pairEqual_spec hfloat hp.1 hp.2
      · simp only [hpair]
        exact ⟨false, rfl, (fun heq => by cases heq), fun hall => absurd (hall p (.head _)) hne⟩
      · simp only [hpair]
        have hwork : Pairs h (new.reverse ++ ps) (pairs.reverse ++ work) :=
          List.rel_append (List.rel_reverse hnew) hps
        have hleft : leftSize (new.reverse ++ ps) ≤ rounds := by
          simp only [leftSize, List.map_append, List.map_reverse, List.sum_append,
            List.sum_reverse, List.map_cons, List.sum_cons] at hrounds hsize ⊢
          omega
        obtain ⟨res, hres, hiff⟩ := ih hwork hleft
        refine ⟨res, hres, hiff.trans ?_⟩
        have happend : AllSame (new.reverse ++ ps) ↔ AllSame new ∧ AllSame ps := by
          simp only [AllSame, List.mem_append, List.mem_reverse, or_imp, forall_and]
        rw [happend, hsame, AllSame, AllSame, List.forall_mem_cons]

theorem equalLoop_mono {rounds rounds' : ℕ} {work : List (Value × Value)} {res : Bool}
    (hle : rounds ≤ rounds') (hres : equalLoop host h rounds work = some res) :
    equalLoop host h rounds' work = some res := by
  induction rounds generalizing rounds' work with
  | zero =>
    cases work with
    | nil => cases rounds' <;> exact hres
    | cons w work => cases hres
  | succ rounds ih =>
    obtain ⟨m, rfl⟩ : ∃ m, rounds' = m + 1 := ⟨rounds' - 1, by omega⟩
    cases work with
    | nil => exact hres
    | cons w work =>
      rw [equalLoop] at hres ⊢
      cases hpair : pairEqual host h w.1 w.2 with
      | none =>
        rw [hpair] at hres
        exact hres
      | some pairs =>
        rw [hpair] at hres
        exact ih (Nat.le_of_succ_le_succ hle) hres

/-- `values_equal` does what its loop does: a scalar, one slot and two strings take one round. -/
theorem runValuesEqual_eq (rounds : ℕ) (a b : Value) :
    runValuesEqual host h (rounds + 1) a b = equalLoop host h (rounds + 1) [(a, b)] := by
  have hscalar : ∀ res : Bool, pairEqual host h a b = (if res then some [] else none) →
      some res = equalLoop host h (rounds + 1) [(a, b)] := by
    intro res hpair
    rw [equalLoop, hpair]
    cases res
    · rfl
    · simp only [if_true, List.reverse_nil, List.nil_append]
      cases rounds <;> rfl
  unfold runValuesEqual
  split
  · next ra rb =>
    by_cases hidx : ra.idx = rb.idx
    · rw [if_pos hidx]
      exact hscalar true (if_pos hidx)
    · rw [if_neg hidx]
      split
      · next sa sb ha hb =>
        refine hscalar _ ?_
        rw [pairEqual_heap hidx, ha, hb]
        change (if sa = sb then some [] else none) = _
        by_cases hs : sa = sb <;> simp [hs]
      · rfl
  · next hheap =>
    refine hscalar _ ?_
    cases a with
    | heap ra =>
      cases b with
      | heap rb => exact absurd rfl (hheap ra rb rfl)
      | _ => rfl
    | _ => cases b <;> rfl

/-- **`values_equal` ends**, and decides whether the trees are the same. -/
theorem runValuesEqual_spec (hfloat : host.ComparesFloats) {t u : EqualityTree} {a b : Value}
    (ht : Denotes h t a) (hu : Denotes h u b) {rounds : ℕ} (hrounds : t.size ≤ rounds) :
    ∃ res, runValuesEqual host h rounds a b = some res ∧ (res = true ↔ t = u) := by
  obtain ⟨k, rfl⟩ : ∃ k, rounds = k + 1 := ⟨rounds - 1, by have := size_pos t; omega⟩
  have hps : Pairs h [(t, u)] [(a, b)] := .cons ⟨ht, hu⟩ .nil
  obtain ⟨res, hres, hiff⟩ := equalLoop_spec hfloat hps (by simpa [leftSize] using hrounds)
  refine ⟨res, (runValuesEqual_eq k a b).trans hres, hiff.trans ?_⟩
  simp [AllSame]

theorem runValuesEqual_mono {rounds rounds' : ℕ} {a b : Value} {res : Bool}
    (hle : rounds ≤ rounds') (hres : runValuesEqual host h rounds a b = some res) :
    runValuesEqual host h rounds' a b = some res := by
  unfold runValuesEqual at hres ⊢
  split at hres
  · next ra rb =>
    by_cases hidx : ra.idx = rb.idx
    · rw [if_pos hidx] at hres ⊢
      exact hres
    · rw [if_neg hidx] at hres ⊢
      split at hres
      · exact hres
      · exact equalLoop_mono hle hres
  · exact hres

/-- `values_equal` says that two values are equal. -/
def SaysEqual (host : Host W) (h : Heap) (a b : Value) : Prop :=
  ∃ rounds, runValuesEqual host h rounds a b = some true

theorem saysEqual_iff (hfloat : host.ComparesFloats) {t u : EqualityTree} {a b : Value}
    (ht : Denotes h t a) (hu : Denotes h u b) : SaysEqual host h a b ↔ t = u := by
  obtain ⟨res, hres, hiff⟩ := runValuesEqual_spec hfloat ht hu le_rfl
  refine ⟨?_, fun heq => ⟨_, by rw [hres, hiff.mpr heq]⟩⟩
  rintro ⟨rounds, hrun⟩
  have hmax := runValuesEqual_mono (le_max_left rounds t.size) hrun
  rw [runValuesEqual_mono (le_max_right rounds t.size) hres] at hmax
  exact hiff.mp (Option.some.inj hmax)

end Loop

/-! ## The rounds that are enough -/

section Rounds

variable {h : Heap}

mutual

/-- The tuples and data within each other. -/
def EqualityTree.depth : EqualityTree → ℕ
  | .tuple ts | .data _ ts => EqualityTree.depths ts + 1
  | _ => 0

/-- The same for several trees. -/
def EqualityTree.depths : List EqualityTree → ℕ
  | [] => 0
  | t :: ts => max t.depth (EqualityTree.depths ts)

end

theorem depth_le_depths {t : EqualityTree} {ts : List EqualityTree} (ht : t ∈ ts) :
    t.depth ≤ EqualityTree.depths ts := by
  induction ts with
  | nil => cases ht
  | cons u ts ih =>
    rw [EqualityTree.depths]
    rcases List.mem_cons.mp ht with rfl | ht
    · exact le_max_left _ _
    · exact (ih ht).trans (le_max_right _ _)

theorem exists_depths {ts : List EqualityTree} (hpos : 0 < EqualityTree.depths ts) :
    ∃ t ∈ ts, t.depth = EqualityTree.depths ts := by
  induction ts with
  | nil => cases hpos
  | cons u ts ih =>
    rw [EqualityTree.depths] at hpos ⊢
    rcases le_total u.depth (EqualityTree.depths ts) with hle | hle
    · rw [max_eq_right hle] at hpos ⊢
      obtain ⟨t, ht, hdepth⟩ := ih hpos
      exact ⟨t, .tail _ ht, hdepth⟩
    · exact ⟨u, .head _, (max_eq_left hle).symm⟩

theorem DenotesAll.mem {ts : List EqualityTree} {vs : List Value} (hts : DenotesAll h ts vs)
    {t : EqualityTree} (ht : t ∈ ts) : ∃ v ∈ vs, Denotes h t v := by
  rw [denotesAll_iff] at hts
  induction hts with
  | nil => cases ht
  | cons hv _ ih =>
    rcases List.mem_cons.mp ht with rfl | ht
    · exact ⟨_, .head _, hv⟩
    · obtain ⟨v, hv', hd⟩ := ih ht
      exact ⟨v, .tail _ hv', hd⟩

/-- The containers of a tree, with their fields. -/
theorem Denotes.fields {t : EqualityTree} {v : Value} (hd : Denotes h t v) (hpos : 0 < t.depth) :
    ∃ r o ts, v = .heap r ∧ h.object? r.idx = some o ∧ DenotesAll h ts o.children ∧
      t.depth = EqualityTree.depths ts + 1 ∧ t.size = EqualityTree.sizes ts + 1 := by
  cases t with
  | scalar w | string s | slot idx => simp [EqualityTree.depth] at hpos
  | tuple ts =>
    rw [Denotes] at hd
    obtain ⟨r, fields, rfl, ho, hall⟩ := hd
    exact ⟨r, _, ts, rfl, ho, hall, rfl, rfl⟩
  | data tag ts =>
    rw [Denotes] at hd
    obtain ⟨r, fields, rfl, ho, hall⟩ := hd
    exact ⟨r, _, ts, rfl, ho, hall, rfl, rfl⟩

/-- A tree has containers of every depth up to its own. -/
theorem exists_part {t : EqualityTree} {v : Value} (hd : Denotes h t v) {k : ℕ} (hpos : 0 < k)
    (hk : k ≤ t.depth) : ∃ u w, Denotes h u w ∧ u.depth = k := by
  induction hn : t.depth generalizing t v with
  | zero => omega
  | succ n ih =>
    by_cases heq : k = t.depth
    · exact ⟨t, v, hd, heq.symm⟩
    · obtain ⟨r, o, ts, rfl, ho, hall, hdepth, -⟩ := hd.fields (by omega)
      have hpos : 0 < EqualityTree.depths ts := by omega
      obtain ⟨u, hu, hdu⟩ := exists_depths hpos
      obtain ⟨w, -, hw⟩ := hall.mem hu
      exact ih hw (by omega) (by omega)

theorem lt_of_object {i : ℕ} {o : HeapObject} (ho : h.object? i = some o) :
    i < h.objects.length := by
  by_contra hge
  rw [Heap.object?, List.getElem?_eq_none (Nat.not_lt.mp hge)] at ho
  cases ho

/-- **A tree is at most as deep as the heap has slots**, since each depth takes a slot. -/
theorem depth_le_slots {t : EqualityTree} {v : Value} (hd : Denotes h t v) :
    t.depth ≤ h.objects.length := by
  have hslot : ∀ k, ∃ i, 0 < k → k ≤ t.depth → i < h.objects.length ∧
      ∃ u r, Denotes h u (.heap r) ∧ r.idx = i ∧ u.depth = k := by
    intro k
    by_cases hk : 0 < k ∧ k ≤ t.depth
    · obtain ⟨u, w, hu, hdepth⟩ := exists_part hd hk.1 hk.2
      obtain ⟨r, o, ts, rfl, ho, -⟩ := hu.fields (by omega)
      exact ⟨r.idx, fun _ _ => ⟨lt_of_object ho, u, r, hu, rfl, hdepth⟩⟩
    · exact ⟨0, fun h1 h2 => absurd ⟨h1, h2⟩ hk⟩
  choose f hf using hslot
  have hcard : (Finset.Icc 1 t.depth).card ≤ (Finset.range h.objects.length).card := by
    refine Finset.card_le_card_of_injOn f ?_ ?_
    · intro k hk
      obtain ⟨h1, h2⟩ := Finset.mem_Icc.mp (Finset.mem_coe.mp hk)
      exact Finset.mem_coe.mpr (Finset.mem_range.mpr (hf k h1 h2).1)
    · intro k hk l hl heq
      obtain ⟨h1, h2⟩ := Finset.mem_Icc.mp (Finset.mem_coe.mp hk)
      obtain ⟨h3, h4⟩ := Finset.mem_Icc.mp (Finset.mem_coe.mp hl)
      obtain ⟨-, u, r, hu, hr, rfl⟩ := hf k h1 h2
      obtain ⟨-, u', r', hu', hr', rfl⟩ := hf l h3 h4
      -- one slot has one tree, and so one depth
      rw [denotes_unique u u' _ (hu.of_idx (hr.trans (heq.trans hr'.symm))) hu']
  simpa using hcard

theorem le_foldl_max {α : Type} (f : α → ℕ) (l : List α) (m : ℕ) :
    m ≤ l.foldl (fun m x => max m (f x)) m ∧ ∀ x ∈ l, f x ≤ l.foldl (fun m x => max m (f x)) m := by
  induction l generalizing m with
  | nil => exact ⟨le_rfl, fun x hx => by cases hx⟩
  | cons y l ih =>
    obtain ⟨hm, hl⟩ := ih (max m (f y))
    refine ⟨(le_max_left _ _).trans hm, List.forall_mem_cons.mpr ⟨?_, hl⟩⟩
    exact (le_max_right _ _).trans hm

theorem children_le_maxFields {i : ℕ} {o : HeapObject} (ho : h.object? i = some o) :
    o.children.length ≤ h.maxFields := by
  have hmem : some o ∈ h.objects := by
    rw [Heap.object?, Option.join_eq_some_iff] at ho
    exact List.mem_of_getElem? ho
  exact (le_foldl_max (fun o : Option HeapObject => (o.map (·.children.length)).getD 0) h.objects
    0).2 _ hmem

theorem sizes_le {ts : List EqualityTree} {b : ℕ} (hts : ∀ t ∈ ts, t.size ≤ b) :
    EqualityTree.sizes ts ≤ ts.length * b := by
  induction ts with
  | nil => exact Nat.zero_le _
  | cons t ts ih =>
    obtain ⟨ht, hrest⟩ := List.forall_mem_cons.mp hts
    rw [EqualityTree.sizes, List.length_cons, Nat.succ_mul]
    have := ih hrest
    omega

/-- A tree of some depth has at most as many values as if every container had the most fields. -/
theorem size_le_pow {t : EqualityTree} {v : Value} (hd : Denotes h t v) :
    t.size ≤ (h.maxFields + 2) ^ t.depth := by
  induction hn : t.depth using Nat.strong_induction_on generalizing t v with
  | h n ih =>
    rcases Nat.eq_zero_or_pos t.depth with hzero | hpos
    · cases t with
      | scalar w | string s | slot idx => exact Nat.one_le_pow _ _ (by omega)
      | tuple ts | data tag ts => simp [EqualityTree.depth] at hzero
    · obtain ⟨r, o, ts, rfl, ho, hall, hdepth, hsize⟩ := hd.fields hpos
      obtain ⟨m, rfl⟩ : ∃ m, n = m + 1 := ⟨n - 1, by omega⟩
      have hfield : ∀ u ∈ ts, u.size ≤ (h.maxFields + 2) ^ m := by
        intro u hu
        obtain ⟨w, -, hw⟩ := hall.mem hu
        have hle := depth_le_depths hu
        exact (ih u.depth (by omega) hw rfl).trans (Nat.pow_le_pow_right (by omega) (by omega))
      have hlen : ts.length ≤ h.maxFields := hall.length.le.trans (children_le_maxFields ho)
      have hone : 1 ≤ (h.maxFields + 2) ^ m := Nat.one_le_pow _ _ (by omega)
      calc t.size = EqualityTree.sizes ts + 1 := hsize
        _ ≤ ts.length * (h.maxFields + 2) ^ m + 1 := Nat.succ_le_succ (sizes_le hfield)
        _ ≤ h.maxFields * (h.maxFields + 2) ^ m + (h.maxFields + 2) ^ m := by gcongr
        _ ≤ (h.maxFields + 2) ^ (m + 1) := by rw [pow_succ]; nlinarith

theorem size_le_equalFuel {t : EqualityTree} {v : Value} (hd : Denotes h t v) :
    t.size ≤ h.equalFuel :=
  (size_le_pow hd).trans
    (Nat.pow_le_pow_right (by omega) ((depth_le_slots hd).trans (Nat.le_succ _)))

theorem valuesEqualLoop_eq (host : Host W) (rounds : ℕ) (work : List (Value × Value)) :
    valuesEqualLoop host h rounds work = (equalLoop host h rounds work).getD false := by
  induction rounds generalizing work with
  | zero => cases work <;> rfl
  | succ rounds ih =>
    cases work with
    | nil => rfl
    | cons w work =>
      rw [valuesEqualLoop, equalLoop]
      cases pairEqual host h w.1 w.2 with
      | none => rfl
      | some pairs => exact ih _

/-- **The rounds of the machine are enough.** -/
theorem valuesEqual_iff {host : Host W} (hfloat : host.ComparesFloats) {t u : EqualityTree}
    {a b : Value} (ht : Denotes h t a) (hu : Denotes h u b) :
    valuesEqual host h a b = true ↔ t = u := by
  have hps : Pairs h [(t, u)] [(a, b)] := .cons ⟨ht, hu⟩ .nil
  obtain ⟨res, hres, hiff⟩ := equalLoop_spec hfloat hps
    (by simpa [leftSize] using size_le_equalFuel ht)
  rw [valuesEqual, valuesEqualLoop_eq, hres, Option.getD_some, hiff]
  simp [AllSame]

end Rounds

/-- **`values_equal` decides structural equality** of comparable values, and so it is symmetric and
transitive. -/
theorem valuesEqual_exact {host : Host W} (hfloat : host.ComparesFloats) (h : Heap) :
    (∀ a b, Comparable h a → Comparable h b → ∃ t u, Denotes h t a ∧ Denotes h u b ∧
      ∃ rounds res, runValuesEqual host h rounds a b = some res ∧ (res = true ↔ t = u)) ∧
    (∀ a b, Comparable h a → Comparable h b → SaysEqual host h a b → SaysEqual host h b a) ∧
    ∀ a b c, Comparable h a → Comparable h b → Comparable h c → SaysEqual host h a b →
      SaysEqual host h b c → SaysEqual host h a c := by
  refine ⟨fun a b ha hb => ?_, fun a b ha hb hab => ?_, fun a b c ha hb hc hab hbc => ?_⟩
  · obtain ⟨t, ht⟩ := ha.denotes
    obtain ⟨u, hu⟩ := hb.denotes
    exact ⟨t, u, ht, hu, t.size, runValuesEqual_spec hfloat ht hu le_rfl⟩
  · obtain ⟨t, ht⟩ := ha.denotes
    obtain ⟨u, hu⟩ := hb.denotes
    exact (saysEqual_iff hfloat hu ht).mpr ((saysEqual_iff hfloat ht hu).mp hab).symm
  · obtain ⟨t, ht⟩ := ha.denotes
    obtain ⟨u, hu⟩ := hb.denotes
    obtain ⟨w, hw⟩ := hc.denotes
    exact (saysEqual_iff hfloat ht hw).mpr
      (((saysEqual_iff hfloat ht hu).mp hab).trans ((saysEqual_iff hfloat hu hw).mp hbc))

/-- A host whose floats are compared with `==`. -/
def equalityHost : Host Unit := { printHost with eqFloat := f64Eq }

/-- A heap with two pairs of `1` and a string, a value that holds the first pair twice, and one that
holds both. -/
def sharedHeap : Heap :=
  { Heap.new with
    objects := [some (.string "a"), some (.tuple (.fromSlice [.int 1, .heap ⟨0, 0⟩])),
      some (.data 1 (.fromSlice [.heap ⟨1, 1⟩, .heap ⟨1, 1⟩])),
      some (.string "a"), some (.tuple (.fromSlice [.int 1, .heap ⟨3, 3⟩])),
      some (.data 1 (.fromSlice [.heap ⟨1, 1⟩, .heap ⟨4, 4⟩]))] }

/-- What holds of a value and of every field of a tuple or of data holds of its parts. -/
theorem PartOf.induct {h : Heap} {P : Value → Prop} {v w : Value} (hw : PartOf h v w)
    (htuple : ∀ i fields, h.object? i = some (.tuple fields) → ∀ u ∈ fields.vals, P u)
    (hdata : ∀ i tag fields, h.object? i = some (.data tag fields) → ∀ u ∈ fields.vals, P u)
    (hv : P v) : P w := by
  induction hw with
  | self => exact hv
  | tuple ho hmem _ ih => exact ih (htuple _ _ ho _ hmem)
  | data ho hmem _ ih => exact ih (hdata _ _ _ ho _ hmem)

theorem sharedHeap_comparable (r : GcRef) : Comparable sharedHeap (.heap r) := by
  have hobject : ∀ i o, sharedHeap.object? i = some o → o ∈ sharedHeap.objects.filterMap id := by
    intro i o ho
    rw [Heap.object?, Option.join_eq_some_iff] at ho
    exact List.mem_filterMap.mpr ⟨some o, List.mem_of_getElem? ho, rfl⟩
  have hbytes : ∀ r' : GcRef, PlainPart sharedHeap (.heap r') := by
    intro r' bytes ho
    have hmem := hobject _ _ ho
    revert hmem
    simp [sharedHeap]
  constructor
  · refine MessageWalk.acyclic_of_lt fun i j hij => ?_
    have hall : ∀ i < 6, ∀ j ∈ sharedHeap.succ i, j < i := by decide +kernel
    by_cases hi : i < 6
    · exact hall i hi j hij
    · have hnone : sharedHeap.object? i = none := by
        rw [Heap.object?, List.getElem?_eq_none (Nat.not_lt.mp hi)]
        rfl
      rw [Heap.Refers, Heap.succ, hnone] at hij
      cases hij
  · -- every field is a number or a reference
    have hfield : ∀ o ∈ sharedHeap.objects.filterMap id, ∀ u ∈ o.children,
        PlainPart sharedHeap u := by
      intro o ho u hu
      have hcase : u = .int 1 ∨ ∃ r, u = .heap r := by
        simp only [sharedHeap, Fields.fromSlice, List.filterMap_cons, List.filterMap_nil, id,
          List.mem_cons, List.not_mem_nil, or_false] at ho
        rcases ho with rfl | rfl | rfl | rfl | rfl | rfl <;>
          simp only [HeapObject.children, List.mem_cons, List.not_mem_nil, or_false] at hu
        · exact hu.imp_right fun hu => ⟨_, hu⟩
        · exact .inr (hu.elim (fun hu => ⟨_, hu⟩) fun hu => ⟨_, hu⟩)
        · exact hu.imp_right fun hu => ⟨_, hu⟩
        · exact .inr (hu.elim (fun hu => ⟨_, hu⟩) fun hu => ⟨_, hu⟩)
      rcases hcase with rfl | ⟨r', rfl⟩
      · trivial
      · exact hbytes r'
    intro w hw
    exact hw.induct (fun i fields ho u hu => hfield _ (hobject _ _ ho) u hu)
      (fun i tag fields ho u hu => hfield _ (hobject _ _ ho) u hu) (hbytes r)

/-- Of two equal values one holds a pair twice, the other two pairs. -/
theorem valuesEqual_exact_shared :
    ∃ t u, Denotes sharedHeap t (.heap ⟨2, 2⟩) ∧ Denotes sharedHeap u (.heap ⟨5, 5⟩) ∧
      ∃ rounds res, runValuesEqual equalityHost sharedHeap rounds (.heap ⟨2, 2⟩) (.heap ⟨5, 5⟩) =
        some res ∧ (res = true ↔ t = u) :=
  (@valuesEqual_exact Unit equalityHost (fun _ _ => rfl) sharedHeap).1 _ _
    (sharedHeap_comparable _) (sharedHeap_comparable _)

/-- A heap with two closures of one function, without captures. -/
def closureHeap : Heap :=
  { Heap.new with objects := [some (.closure 0 []), some (.closure 0 [])] }

/-- Two closures of one function unfold to the same tree, and are not equal. A builtin is not equal to
itself. -/
theorem closures_differ : Unfolds closureHeap (.closure 0 []) (.heap ⟨0, 0⟩) ∧
    Unfolds closureHeap (.closure 0 []) (.heap ⟨1, 0⟩) ∧
    runValuesEqual equalityHost closureHeap 1 (.heap ⟨0, 0⟩) (.heap ⟨1, 0⟩) = some false ∧
    runValuesEqual equalityHost closureHeap 1 (.builtin 0) (.builtin 0) = some false := by
  refine ⟨?_, ?_, rfl, rfl⟩
  · rw [Unfolds]
    exact ⟨⟨0, 0⟩, [], rfl, rfl, by rw [UnfoldsAll]⟩
  · rw [Unfolds]
    exact ⟨⟨1, 0⟩, [], rfl, rfl, by rw [UnfoldsAll]⟩

end Hiko
