import Hiko.Heap.Serialize
import Hiko.Heap.Safety

/-!
# Messages arrive as they were sent

A value without cycles unfolds to a tree. Serializing it gives the message of the tree, in which
every list is flat, and rebuilding a message in a heap with enough room gives a value that unfolds to
the tree of the message. The tree of the message of a tree is the tree itself, so what arrives cannot
be told from what was sent.

## Main definitions

* `ValueTree`, `Unfolds`: the values without cycles, unfolded
* `ValueTree.toMessage`, `SendableValue.tree`: from trees to messages and back
* `ValueTree.Sendable`: the trees that may be sent
* `Store.Fits`: a heap with enough room

## Main results

* `unfolds_unique`: a value unfolds to one tree
* `toMessage_tree`: nothing is lost in a message
* `serializeValue_spec`, `measure_spec`: what `serialize` gives and what it measures
* `deserialize_spec`: what arrives
* `message_round_trip`: both together
-/

namespace Hiko

/-- A value unfolded: scalars, and the objects without references. -/
inductive ValueTree where
  | scalar (v : Value)
  | string (s : String)
  | bytes (bytes : List UInt8)
  | tuple (fields : List ValueTree)
  | data (tag : ℕ) (fields : List ValueTree)
  | closure (protoIdx : ℕ) (captures : List ValueTree)

mutual

/-- A value of a heap unfolds to a tree. -/
def Unfolds (h : Heap) : ValueTree → Value → Prop
  | .scalar w, v => v = w ∧ w.ref? = none
  | .string s, v => ∃ r, v = .heap r ∧ h.object? r.idx = some (.string s)
  | .bytes bs, v => ∃ r, v = .heap r ∧ h.object? r.idx = some (.bytes bs)
  | .tuple ts, v => ∃ r fields, v = .heap r ∧ h.object? r.idx = some (.tuple fields) ∧
      UnfoldsAll h ts fields.vals
  | .data tag ts, v => ∃ r fields, v = .heap r ∧ h.object? r.idx = some (.data tag fields) ∧
      UnfoldsAll h ts fields.vals
  | .closure protoIdx ts, v => ∃ r captures, v = .heap r ∧
      h.object? r.idx = some (.closure protoIdx captures) ∧ UnfoldsAll h ts captures

/-- Several values unfold to as many trees. -/
def UnfoldsAll (h : Heap) : List ValueTree → List Value → Prop
  | [], vs => vs = []
  | t :: ts, vs => ∃ v rest, vs = v :: rest ∧ Unfolds h t v ∧ UnfoldsAll h ts rest

end

/-- The trees of lists. -/
inductive ValueTree.IsList : ValueTree → Prop
  | nil : IsList (.data tagNil [])
  | cons (item : ValueTree) {rest : ValueTree} (h : IsList rest) : IsList (.data tagCons [item, rest])

mutual

/-- The trees that may be sent: where there is a cell of a list, there is a list. -/
def ValueTree.Sendable : ValueTree → Prop
  | .tuple ts => ValueTree.AllSendable ts
  | .data tag ts => (∀ item rest, tag = tagCons → ts = [item, rest] → rest.IsList) ∧
      ValueTree.AllSendable ts
  | .closure _ ts => ValueTree.AllSendable ts
  | _ => True

/-- Several trees that may be sent. -/
def ValueTree.AllSendable : List ValueTree → Prop
  | [] => True
  | t :: ts => t.Sendable ∧ ValueTree.AllSendable ts

end

/-- The message of data: a list is flat. -/
def packData : ℕ → List SendableValue → SendableValue
  | 0, [] => .list []
  | 1, [item, .list items] => .list (item :: items)
  | tag, fields => .data tag fields

mutual

/-- The message of a tree. -/
def ValueTree.toMessage : ValueTree → SendableValue
  | .scalar v => serializeScalar v
  | .string s => .string s
  | .bytes bs => .bytes bs
  | .tuple ts => .tuple (ValueTree.toMessages ts)
  | .data tag ts => packData tag (ValueTree.toMessages ts)
  | .closure protoIdx ts => .closure protoIdx (ValueTree.toMessages ts)

/-- The messages of several trees. -/
def ValueTree.toMessages : List ValueTree → List SendableValue
  | [] => []
  | t :: ts => t.toMessage :: ValueTree.toMessages ts

end

/-- The tree of a list. -/
def listTree (items : List ValueTree) : ValueTree :=
  items.foldr (fun item rest => .data tagCons [item, rest]) (.data tagNil [])

mutual

/-- The tree of a message. -/
def SendableValue.tree : SendableValue → ValueTree
  | .int n => .scalar (.int n)
  | .word w => .scalar (.word w)
  | .pid n => .scalar (.pid n)
  | .float bits => .scalar (.float bits)
  | .bool b => .scalar (.bool b)
  | .char c => .scalar (.char c)
  | .unit => .scalar .unit
  | .builtin id => .scalar (.builtin id)
  | .string s => .string s
  | .bytes bs => .bytes bs
  | .tuple ms => .tuple (SendableValue.trees ms)
  | .list ms => listTree (SendableValue.trees ms)
  | .data tag ms => .data tag (SendableValue.trees ms)
  | .closure protoIdx ms => .closure protoIdx (SendableValue.trees ms)

/-- The trees of several messages. -/
def SendableValue.trees : List SendableValue → List ValueTree
  | [] => []
  | m :: ms => m.tree :: SendableValue.trees ms

end

mutual

/-- The nodes of a tree. -/
def ValueTree.size : ValueTree → ℕ
  | .tuple ts => 1 + ValueTree.sizes ts
  | .data _ ts => 1 + ValueTree.sizes ts
  | .closure _ ts => 1 + ValueTree.sizes ts
  | _ => 1

/-- The nodes of several trees. -/
def ValueTree.sizes : List ValueTree → ℕ
  | [] => 0
  | t :: ts => t.size + ValueTree.sizes ts

end

/-! ## Trees and messages -/

section Messages

theorem packData_tree (tag : ℕ) (ms : List SendableValue) :
    (packData tag ms).tree = .data tag (SendableValue.trees ms) := by
  unfold packData
  split
  · simp [SendableValue.tree, SendableValue.trees, listTree, tagNil]
  · simp [SendableValue.tree, SendableValue.trees, listTree, tagCons]
  · simp [SendableValue.tree]

theorem serializeScalar_tree {v : Value} (h : v.ref? = none) :
    (serializeScalar v).tree = .scalar v := by
  cases v with
  | heap r => cases h
  | _ => simp [serializeScalar, SendableValue.tree]

mutual

/-- Nothing is lost in the message of a tree. -/
theorem toMessage_tree {h : Heap} : ∀ (t : ValueTree) (v : Value), Unfolds h t v → t.toMessage.tree = t
  | .scalar w, v, hun => by
    simp only [Unfolds] at hun
    rw [ValueTree.toMessage, serializeScalar_tree hun.2]
  | .string s, _, _ => by simp [ValueTree.toMessage, SendableValue.tree]
  | .bytes bs, _, _ => by simp [ValueTree.toMessage, SendableValue.tree]
  | .tuple ts, v, hun => by
    simp only [Unfolds] at hun
    obtain ⟨r, fields, -, -, hall⟩ := hun
    rw [ValueTree.toMessage, SendableValue.tree, toMessages_trees ts _ hall]
  | .data tag ts, v, hun => by
    simp only [Unfolds] at hun
    obtain ⟨r, fields, -, -, hall⟩ := hun
    rw [ValueTree.toMessage, packData_tree, toMessages_trees ts _ hall]
  | .closure protoIdx ts, v, hun => by
    simp only [Unfolds] at hun
    obtain ⟨r, captures, -, -, hall⟩ := hun
    rw [ValueTree.toMessage, SendableValue.tree, toMessages_trees ts _ hall]

theorem toMessages_trees {h : Heap} : ∀ (ts : List ValueTree) (vs : List Value), UnfoldsAll h ts vs →
    SendableValue.trees (ValueTree.toMessages ts) = ts
  | [], _, _ => by simp [ValueTree.toMessages, SendableValue.trees]
  | t :: ts, vs, hun => by
    simp only [UnfoldsAll] at hun
    obtain ⟨v, rest, -, ht, hts⟩ := hun
    rw [ValueTree.toMessages, SendableValue.trees, toMessage_tree t v ht, toMessages_trees ts rest hts]

end

end Messages

/-! ## Unfolding -/

section Unfold

variable {h h' : Heap}

/-- `h'` holds the objects of `h`. -/
def Heap.Extends (h h' : Heap) : Prop := ∀ i o, h.object? i = some o → h'.object? i = some o

theorem Heap.Extends.refl (h : Heap) : h.Extends h := fun _ _ ho => ho

theorem Heap.Extends.trans {h'' : Heap} (he : h.Extends h') (he' : h'.Extends h'') :
    h.Extends h'' := fun i o ho => he' i o (he i o ho)

mutual

/-- A heap with more objects unfolds what it did. -/
theorem Unfolds.extends (he : h.Extends h') : ∀ (t : ValueTree) (v : Value), Unfolds h t v →
    Unfolds h' t v
  | .scalar w, v, hun => by simpa only [Unfolds] using hun
  | .string s, v, hun => by
    simp only [Unfolds] at hun ⊢
    obtain ⟨r, hv, ho⟩ := hun
    exact ⟨r, hv, he _ _ ho⟩
  | .bytes bs, v, hun => by
    simp only [Unfolds] at hun ⊢
    obtain ⟨r, hv, ho⟩ := hun
    exact ⟨r, hv, he _ _ ho⟩
  | .tuple ts, v, hun => by
    simp only [Unfolds] at hun ⊢
    obtain ⟨r, fields, hv, ho, hall⟩ := hun
    exact ⟨r, fields, hv, he _ _ ho, UnfoldsAll.extends he ts _ hall⟩
  | .data tag ts, v, hun => by
    simp only [Unfolds] at hun ⊢
    obtain ⟨r, fields, hv, ho, hall⟩ := hun
    exact ⟨r, fields, hv, he _ _ ho, UnfoldsAll.extends he ts _ hall⟩
  | .closure protoIdx ts, v, hun => by
    simp only [Unfolds] at hun ⊢
    obtain ⟨r, captures, hv, ho, hall⟩ := hun
    exact ⟨r, captures, hv, he _ _ ho, UnfoldsAll.extends he ts _ hall⟩

theorem UnfoldsAll.extends (he : h.Extends h') : ∀ (ts : List ValueTree) (vs : List Value),
    UnfoldsAll h ts vs → UnfoldsAll h' ts vs
  | [], vs, hun => by simpa only [UnfoldsAll] using hun
  | t :: ts, vs, hun => by
    simp only [UnfoldsAll] at hun ⊢
    obtain ⟨v, rest, hvs, ht, hts⟩ := hun
    exact ⟨v, rest, hvs, Unfolds.extends he t v ht, UnfoldsAll.extends he ts rest hts⟩

end

theorem ref?_heap (r : GcRef) : (Value.heap r).ref? = some r := rfl

theorem not_unfolds_scalar_heap (w : Value) (r : GcRef) : ¬ Unfolds h (.scalar w) (.heap r) := by
  simp only [Unfolds]
  rintro ⟨rfl, hnone⟩
  cases hnone

mutual

/-- A value unfolds to one tree. -/
theorem unfolds_unique : ∀ (t t' : ValueTree) (v : Value), Unfolds h t v → Unfolds h t' v → t = t'
  | .scalar w, t', v, hun, hun' => by
    simp only [Unfolds] at hun
    obtain ⟨rfl, href⟩ := hun
    cases t' with
    | scalar w' =>
      simp only [Unfolds] at hun'
      rw [hun'.1]
    | _ =>
      simp only [Unfolds] at hun'
      obtain ⟨r, hun'⟩ := hun'
      simp_all [ref?_heap]
  | .string s, t', v, hun, hun' => by
    simp only [Unfolds] at hun
    obtain ⟨r, rfl, ho⟩ := hun
    cases t' with
    | scalar w => exact absurd hun' (not_unfolds_scalar_heap w r)
    | _ =>
      simp only [Unfolds] at hun'
      simp_all
  | .bytes bs, t', v, hun, hun' => by
    simp only [Unfolds] at hun
    obtain ⟨r, rfl, ho⟩ := hun
    cases t' with
    | scalar w => exact absurd hun' (not_unfolds_scalar_heap w r)
    | _ =>
      simp only [Unfolds] at hun'
      simp_all
  | .tuple ts, t', v, hun, hun' => by
    simp only [Unfolds] at hun
    obtain ⟨r, fields, rfl, ho, hall⟩ := hun
    cases t' with
    | tuple ts' =>
      simp only [Unfolds] at hun'
      obtain ⟨r', fields', hr, ho', hall'⟩ := hun'
      cases hr
      rw [ho] at ho'
      cases ho'
      rw [unfoldsAll_unique ts ts' _ hall hall']
    | scalar w => exact absurd hun' (not_unfolds_scalar_heap w r)
    | _ =>
      simp only [Unfolds] at hun'
      simp_all
  | .data tag ts, t', v, hun, hun' => by
    simp only [Unfolds] at hun
    obtain ⟨r, fields, rfl, ho, hall⟩ := hun
    cases t' with
    | data tag' ts' =>
      simp only [Unfolds] at hun'
      obtain ⟨r', fields', hr, ho', hall'⟩ := hun'
      cases hr
      rw [ho] at ho'
      cases ho'
      rw [unfoldsAll_unique ts ts' _ hall hall']
    | scalar w => exact absurd hun' (not_unfolds_scalar_heap w r)
    | _ =>
      simp only [Unfolds] at hun'
      simp_all
  | .closure protoIdx ts, t', v, hun, hun' => by
    simp only [Unfolds] at hun
    obtain ⟨r, captures, rfl, ho, hall⟩ := hun
    cases t' with
    | closure protoIdx' ts' =>
      simp only [Unfolds] at hun'
      obtain ⟨r', captures', hr, ho', hall'⟩ := hun'
      cases hr
      rw [ho] at ho'
      cases ho'
      rw [unfoldsAll_unique ts ts' _ hall hall']
    | scalar w => exact absurd hun' (not_unfolds_scalar_heap w r)
    | _ =>
      simp only [Unfolds] at hun'
      simp_all

theorem unfoldsAll_unique : ∀ (ts ts' : List ValueTree) (vs : List Value), UnfoldsAll h ts vs →
    UnfoldsAll h ts' vs → ts = ts'
  | [], ts', vs, hun, hun' => by
    simp only [UnfoldsAll] at hun
    subst hun
    cases ts' with
    | nil => rfl
    | cons t' ts' => simp [UnfoldsAll] at hun'
  | t :: ts, ts', vs, hun, hun' => by
    simp only [UnfoldsAll] at hun
    obtain ⟨v, rest, rfl, ht, hts⟩ := hun
    cases ts' with
    | nil => simp [UnfoldsAll] at hun'
    | cons t' ts' =>
      simp only [UnfoldsAll, List.cons.injEq] at hun'
      obtain ⟨v', rest', ⟨rfl, rfl⟩, ht', hts'⟩ := hun'
      rw [unfolds_unique t t' v ht ht', unfoldsAll_unique ts ts' rest hts hts']

end

theorem UnfoldsAll.length : ∀ {ts : List ValueTree} {vs : List Value}, UnfoldsAll h ts vs →
    vs.length = ts.length
  | [], vs, hun => by
    simp only [UnfoldsAll] at hun
    simp [hun]
  | t :: ts, vs, hun => by
    simp only [UnfoldsAll] at hun
    obtain ⟨v, rest, rfl, -, hts⟩ := hun
    simp [hts.length]

end Unfold

/-! ## Serializing -/

section Serialize

variable {h : Heap}

theorem get_of_object {r : GcRef} {o : HeapObject} (ho : h.object? r.idx = some o) :
    h.get r = .ok o := by
  simp [Heap.get, ho]

theorem size_mem {t : ValueTree} {ts : List ValueTree} (hin : t ∈ ts) : t.size ≤ ValueTree.sizes ts := by
  induction ts with
  | nil => cases hin
  | cons u us ih =>
    rw [ValueTree.sizes]
    rcases List.mem_cons.mp hin with rfl | hin
    · omega
    · have := ih hin
      omega

theorem sendable_mem {t : ValueTree} {ts : List ValueTree} (hs : ValueTree.AllSendable ts) (hin : t ∈ ts) :
    t.Sendable := by
  induction ts with
  | nil => cases hin
  | cons u us ih =>
    simp only [ValueTree.AllSendable] at hs
    rcases List.mem_cons.mp hin with rfl | hin
    · exact hs.1
    · exact ih hs.2 hin

/-- The items of a list that is sent: they unfold, they may be sent, and they are smaller. -/
theorem listItems_spec {t : ValueTree} (hl : t.IsList) : ∀ {v : Value} {fuel : ℕ}, Unfolds h t v →
    t.size ≤ fuel → ∃ items its, h.listItems fuel v = some (.ok items) ∧ UnfoldsAll h its items ∧
      t.toMessage = .list (ValueTree.toMessages its) ∧
      ∀ i ∈ its, i.size < t.size ∧ (t.Sendable → i.Sendable) := by
  induction hl with
  | nil =>
    intro v fuel hun hfuel
    simp only [Unfolds] at hun
    obtain ⟨r, fields, rfl, ho, hall⟩ := hun
    simp only [UnfoldsAll] at hall
    obtain ⟨k, rfl⟩ : ∃ k, fuel = k + 1 := ⟨fuel - 1, by simp [ValueTree.size] at hfuel; omega⟩
    refine ⟨[], [], ?_, by simp [UnfoldsAll], ?_, by simp⟩
    · simp [Heap.listItems, get_of_object ho, hall]
    · simp [ValueTree.toMessage, ValueTree.toMessages, packData, tagNil]
  | @cons item rest hl ih =>
    intro v fuel hun hfuel
    simp only [Unfolds, UnfoldsAll] at hun
    obtain ⟨r, fields, rfl, ho, x, vs, hvals, hx, y, vs', rfl, hy, rfl⟩ := hun
    simp only [ValueTree.size, ValueTree.sizes] at hfuel
    obtain ⟨k, rfl⟩ : ∃ k, fuel = k + 1 := ⟨fuel - 1, by omega⟩
    have hrest : rest.size ≤ k := by omega
    obtain ⟨items, its, hitems, hall, hmsg, hsmall⟩ := ih hy hrest
    refine ⟨x :: items, item :: its, ?_, ?_, ?_, ?_⟩
    · simp [Heap.listItems, get_of_object ho, hvals, hitems]
    · simp only [UnfoldsAll]
      exact ⟨x, items, rfl, hx, hall⟩
    · simp [ValueTree.toMessage, ValueTree.toMessages, hmsg, packData, tagCons]
    · intro i hi
      simp only [ValueTree.size, ValueTree.sizes, ValueTree.Sendable, ValueTree.AllSendable]
      rcases List.mem_cons.mp hi with rfl | hi
      · exact ⟨by omega, fun hs => hs.2.1⟩
      · obtain ⟨hlt, hsend⟩ := hsmall i hi
        exact ⟨by omega, fun hs => hsend hs.2.2.1⟩

/-- One object of a value that is sent: its children as the walks visit them, and its message. -/
theorem node_spec {t : ValueTree} {r : GcRef} {fuel : ℕ} (hun : Unfolds h t (.heap r))
    (hs : t.Sendable) (hfuel : t.size ≤ fuel) :
    ∃ items its container, h.messageChildren fuel r = some (.ok items) ∧
      UnfoldsAll h its items ∧ (∀ i ∈ its, i.size < t.size ∧ i.Sendable) ∧
      h.serializeValue (fuel + 1) (.heap r) =
        Heap.buildMessage container (walkAll (h.serializeValue fuel) items) ∧
      t.toMessage = container (ValueTree.toMessages its) ∧
      t.toMessage.footprint =
        messageNodeBytes + h.payload r + SendableValue.footprints (ValueTree.toMessages its) ∧
      t.toMessage.depth = SendableValue.depths (ValueTree.toMessages its) := by
  cases t with
  | scalar w =>
    simp only [Unfolds] at hun
    obtain ⟨rfl, href⟩ := hun
    cases href
  | string s =>
    simp only [Unfolds] at hun
    obtain ⟨r', hr, ho⟩ := hun
    cases hr
    refine ⟨[], [], fun _ => .string s, ?_, by simp [UnfoldsAll], by simp, ?_, ?_, ?_, ?_⟩
    · simp [Heap.messageChildren, get_of_object ho]
    · simp [Heap.serializeValue, get_of_object ho, walkAll, Heap.buildMessage]
    · simp [ValueTree.toMessage]
    · simp [ValueTree.toMessage, ValueTree.toMessages, SendableValue.footprint, SendableValue.footprints,
        SendableValue.ownBytes, Heap.payload, get_of_object ho]
    · simp [ValueTree.toMessage, ValueTree.toMessages, SendableValue.depth, SendableValue.depths]
  | bytes bs =>
    simp only [Unfolds] at hun
    obtain ⟨r', hr, ho⟩ := hun
    cases hr
    refine ⟨[], [], fun _ => .bytes bs, ?_, by simp [UnfoldsAll], by simp, ?_, ?_, ?_, ?_⟩
    · simp [Heap.messageChildren, get_of_object ho]
    · simp [Heap.serializeValue, get_of_object ho, walkAll, Heap.buildMessage]
    · simp [ValueTree.toMessage]
    · simp [ValueTree.toMessage, ValueTree.toMessages, SendableValue.footprint, SendableValue.footprints,
        SendableValue.ownBytes, Heap.payload, get_of_object ho]
    · simp [ValueTree.toMessage, ValueTree.toMessages, SendableValue.depth, SendableValue.depths]
  | tuple ts =>
    simp only [Unfolds] at hun
    obtain ⟨r', fields, hr, ho, hall⟩ := hun
    cases hr
    simp only [ValueTree.Sendable] at hs
    refine ⟨fields.vals, ts, .tuple, ?_, hall, fun i hi => ⟨?_, sendable_mem hs hi⟩, ?_, ?_, ?_, ?_⟩
    · simp [Heap.messageChildren, get_of_object ho]
    · have := size_mem hi
      simp only [ValueTree.size]
      omega
    · simp [Heap.serializeValue, get_of_object ho]
    · simp [ValueTree.toMessage]
    · simp [ValueTree.toMessage, SendableValue.footprint, Heap.payload, get_of_object ho]
    · simp [ValueTree.toMessage, SendableValue.depth]
  | closure protoIdx ts =>
    simp only [Unfolds] at hun
    obtain ⟨r', captures, hr, ho, hall⟩ := hun
    cases hr
    simp only [ValueTree.Sendable] at hs
    refine ⟨captures, ts, .closure protoIdx, ?_, hall, fun i hi => ⟨?_, sendable_mem hs hi⟩, ?_,
      ?_, ?_, ?_⟩
    · simp [Heap.messageChildren, get_of_object ho]
    · have := size_mem hi
      simp only [ValueTree.size]
      omega
    · simp [Heap.serializeValue, get_of_object ho]
    · simp [ValueTree.toMessage]
    · simp [ValueTree.toMessage, SendableValue.footprint, Heap.payload, get_of_object ho]
    · simp [ValueTree.toMessage, SendableValue.depth]
  | data tag ts =>
    have hun' := hun
    simp only [Unfolds] at hun
    obtain ⟨r', fields, hr, ho, hall⟩ := hun
    cases hr
    have hlen := hall.length
    by_cases hlist : isList tag fields = true
    · -- a list is one node, whose children are its items
      have hl : (ValueTree.data tag ts).IsList := by
        simp only [isList, Bool.decide_or, Bool.or_eq_true, decide_eq_true_eq] at hlist
        rcases hlist with ⟨rfl, hvals⟩ | ⟨rfl, hvals⟩
        · rw [hvals, List.length_nil] at hlen
          rw [List.eq_nil_of_length_eq_zero hlen.symm]
          exact .nil
        · rw [hvals] at hlen
          obtain ⟨item, rest, rfl⟩ := List.length_eq_two.mp hlen.symm
          simp only [ValueTree.Sendable] at hs
          exact .cons item (hs.1 item rest trivial rfl)
      obtain ⟨items, its, hitems, hunits, hmsg, hsmall⟩ := listItems_spec hl hun' hfuel
      refine ⟨items, its, .list, ?_, hunits, fun i hi => ⟨(hsmall i hi).1, (hsmall i hi).2 hs⟩, ?_,
        hmsg, ?_, ?_⟩
      · simp [Heap.messageChildren, get_of_object ho, hlist, hitems]
      · simp [Heap.serializeValue, get_of_object ho, hlist, hitems]
      · simp [hmsg, SendableValue.footprint, Heap.payload, get_of_object ho]
      · simp [hmsg, SendableValue.depth]
    · -- other data keeps its fields
      simp only [ValueTree.Sendable] at hs
      have hmsg : (ValueTree.data tag ts).toMessage = .data tag (ValueTree.toMessages ts) := by
        rw [ValueTree.toMessage]
        simp only [isList, Bool.decide_or, Bool.or_eq_true, decide_eq_true_eq, not_or,
          not_and] at hlist
        match tag, ts, hlen, hlist with
        | 0, [], hlen, hlist => exact absurd (List.eq_nil_of_length_eq_zero hlen) (hlist.1 rfl)
        | 1, [a, b], hlen, hlist => exact absurd hlen (hlist.2 rfl)
        | 0, _ :: _, _, _ => simp [ValueTree.toMessages, packData]
        | 1, [], _, _ => simp [ValueTree.toMessages, packData]
        | 1, [_], _, _ => simp [ValueTree.toMessages, packData]
        | 1, _ :: _ :: _ :: _, _, _ => simp [ValueTree.toMessages, packData]
        | _ + 2, _, _, _ => simp [packData]
      refine ⟨fields.vals, ts, .data tag, ?_, hall, fun i hi => ⟨?_, sendable_mem hs.2 hi⟩, ?_,
        hmsg, ?_, ?_⟩
      · simp [Heap.messageChildren, get_of_object ho, hlist]
      · have := size_mem hi
        simp only [ValueTree.size]
        omega
      · simp [Heap.serializeValue, get_of_object ho, hlist]
      · simp [hmsg, SendableValue.footprint, Heap.payload, get_of_object ho]
      · simp [hmsg, SendableValue.depth]

theorem walkAll_spec {walk : Value → Option (Except String SendableValue)} :
    ∀ {its : List ValueTree} {items : List Value}, UnfoldsAll h its items →
    (∀ i ∈ its, ∀ v, Unfolds h i v → walk v = some (.ok i.toMessage)) →
    walkAll walk items = some (.ok (ValueTree.toMessages its))
  | [], items, hall, _ => by
    simp only [UnfoldsAll] at hall
    simp [hall, walkAll, ValueTree.toMessages]
  | i :: its, items, hall, hwalk => by
    simp only [UnfoldsAll] at hall
    obtain ⟨v, rest, rfl, hi, hits⟩ := hall
    have hrest := walkAll_spec hits fun j hj => hwalk j (.tail _ hj)
    simp [walkAll, ValueTree.toMessages, hwalk i (.head _) v hi, hrest]

theorem scalar_of_unfolds {t : ValueTree} {v : Value} (hun : Unfolds h t v) (hv : v.ref? = none) :
    t = .scalar v := by
  cases t with
  | scalar w =>
    simp only [Unfolds] at hun
    rw [hun.1]
  | _ =>
    simp only [Unfolds] at hun
    obtain ⟨r, hun⟩ := hun
    simp_all [ref?_heap]

/-- The walk of `serialize` gives the message of the tree. -/
theorem serializeValue_spec : ∀ (fuel : ℕ) {t : ValueTree} {v : Value}, Unfolds h t v → t.Sendable →
    t.size < fuel → h.serializeValue fuel v = some (.ok t.toMessage) := by
  intro fuel
  induction fuel with
  | zero => exact fun _ _ hfuel => absurd hfuel (by omega)
  | succ fuel ih =>
    intro t v hun hs hfuel
    cases hv : v.ref? with
    | none =>
      obtain rfl := scalar_of_unfolds hun hv
      cases v with
      | heap r => cases hv
      | _ => simp [Heap.serializeValue, ValueTree.toMessage]
    | some r =>
      obtain rfl := Value.ref?_eq_some.mp hv
      obtain ⟨items, its, container, -, hall, hsmall, hser, hmsg, -⟩ :=
        node_spec hun hs (Nat.le_of_lt_succ hfuel)
      rw [hser, walkAll_spec hall fun i hi w hw => ih hw (hsmall i hi).2 ?_, hmsg]
      · rfl
      · have := (hsmall i hi).1
        omega

/-! ### The limits -/

/-- What `measure` finds about a message. -/
def measured (m : SendableValue) : ℕ × ℕ := (m.footprint, m.depth)

theorem foldl_satAdd : ∀ (ms : List SendableValue) (bytes : ℕ),
    bytes + SendableValue.footprints ms < u64Size →
    (ms.map measured).foldl (fun bytes c => satAdd bytes c.1) bytes =
      bytes + SendableValue.footprints ms
  | [], bytes, _ => by simp [SendableValue.footprints]
  | m :: ms, bytes, hlt => by
    rw [SendableValue.footprints] at hlt ⊢
    have hadd : satAdd bytes m.footprint = bytes + m.footprint := by
      rw [satAdd]
      omega
    rw [List.map_cons, List.foldl_cons, measured, hadd, foldl_satAdd ms _ (by omega), add_assoc]

theorem foldl_depth : ∀ (ms : List SendableValue) (depth : ℕ),
    (ms.map measured).foldl (fun depth c => max depth (c.2 + 1)) depth =
      max depth (SendableValue.depths ms)
  | [], depth => by simp [SendableValue.depths]
  | m :: ms, depth => by
    rw [List.map_cons, List.foldl_cons, foldl_depth ms, SendableValue.depths, measured, max_assoc]

theorem footprint_mem {i : ValueTree} {its : List ValueTree} (hi : i ∈ its) :
    i.toMessage.footprint ≤ SendableValue.footprints (ValueTree.toMessages its) ∧
      i.toMessage.depth + 1 ≤ SendableValue.depths (ValueTree.toMessages its) := by
  induction its with
  | nil => cases hi
  | cons j its ih =>
    rw [ValueTree.toMessages, SendableValue.footprints, SendableValue.depths]
    rcases List.mem_cons.mp hi with rfl | hi
    · exact ⟨by omega, le_max_left _ _⟩
    · obtain ⟨hbytes, hdepth⟩ := ih hi
      exact ⟨by omega, hdepth.trans (le_max_right _ _)⟩

theorem walkAllRev_spec {walk : Value → Option (Except String (ℕ × ℕ))} :
    ∀ {its : List ValueTree} {items : List Value}, UnfoldsAll h its items →
    (∀ i ∈ its, ∀ v, Unfolds h i v → walk v = some (.ok (measured i.toMessage))) →
    walkAllRev walk items = some (.ok ((ValueTree.toMessages its).map measured))
  | [], items, hall, _ => by
    simp only [UnfoldsAll] at hall
    simp [hall, walkAllRev, ValueTree.toMessages]
  | i :: its, items, hall, hwalk => by
    simp only [UnfoldsAll] at hall
    obtain ⟨v, rest, rfl, hi, hits⟩ := hall
    have hrest := walkAllRev_spec hits fun j hj => hwalk j (.tail _ hj)
    simp [walkAllRev, ValueTree.toMessages, hwalk i (.head _) v hi, hrest]

/-- A message within the limits is measured as it is. -/
theorem measure_spec {maxBytes : ℕ} (hmax : maxBytes < u64Size) : ∀ (fuel : ℕ) {t : ValueTree}
    {v : Value}, Unfolds h t v → t.Sendable → t.size < fuel → t.toMessage.Within maxBytes →
    h.measure maxBytes fuel v = some (.ok (measured t.toMessage)) := by
  intro fuel
  induction fuel with
  | zero => exact fun _ _ hfuel => absurd hfuel (by omega)
  | succ fuel ih =>
    intro t v hun hs hfuel hwithin
    cases hv : v.ref? with
    | none =>
      obtain rfl := scalar_of_unfolds hun hv
      cases v with
      | heap r => cases hv
      | _ => simp [Heap.measure, ValueTree.toMessage, serializeScalar, measured, SendableValue.footprint,
          SendableValue.depth, SendableValue.ownBytes, scalarMessageBytes]
    | some r =>
      obtain rfl := Value.ref?_eq_some.mp hv
      obtain ⟨items, its, container, hchildren, hall, hsmall, -, -, hbytes, hdepth⟩ :=
        node_spec hun hs (Nat.le_of_lt_succ hfuel)
      obtain ⟨hlimit, hnesting⟩ := hwithin
      have hwalk : walkAllRev (h.measure maxBytes fuel) items =
          some (.ok ((ValueTree.toMessages its).map measured)) := by
        apply walkAllRev_spec hall
        intro i hi w hw
        obtain ⟨hib, hid⟩ := footprint_mem hi
        have hlt := (hsmall i hi).1
        exact ih hw (hsmall i hi).2 (by omega) ⟨by omega, by omega⟩
      have hnode : Heap.measureNode (h.payload r) ((ValueTree.toMessages its).map measured) =
          measured t.toMessage := by
        have hpay : satAdd messageNodeBytes (h.payload r) = messageNodeBytes + h.payload r := by
          rw [satAdd]
          omega
        rw [Heap.measureNode, hpay, foldl_satAdd _ _ (by omega), foldl_depth, measured, hbytes,
          hdepth, Nat.zero_max]
      rw [Heap.measure, hchildren]
      simp only [hwalk, hnode]
      rw [if_neg (show ¬ maxBytes < (measured t.toMessage).1 from Nat.not_lt.mpr hlimit),
        if_neg (show ¬ maxMessageDepth < (measured t.toMessage).2 from Nat.not_lt.mpr hnesting)]

/-- `serialize` gives the message of the tree of a value, within the limits. -/
theorem serialize_spec {maxBytes fuel : ℕ} {t : ValueTree} {v : Value} (hmax : maxBytes < u64Size)
    (hun : Unfolds h t v) (hs : t.Sendable) (hfuel : t.size < fuel)
    (hwithin : t.toMessage.Within maxBytes) :
    h.serialize maxBytes fuel v = some (.ok t.toMessage) := by
  rw [Heap.serialize, Heap.checkMessageSize, measure_spec hmax fuel hun hs hfuel hwithin]
  exact serializeValue_spec fuel hun hs hfuel

end Serialize

/-! ## Deserializing -/

/-- The free slots of a heap are free, and listed once. -/
def Heap.FreeOk (h : Heap) : Prop :=
  (∀ i ∈ h.freeList, i < h.objects.length ∧ h.object? i = none) ∧ h.freeList.Nodup

/-- A store has room for some more objects and bytes. -/
structure Store.Fits (s : Store) (objects bytes : ℕ) : Prop where
  count : ∀ limit, s.heap.maxObjects = some limit → s.heap.live + objects ≤ limit
  memory : ∀ b, s.budgets.memory = some b → b.used + bytes < u64Size ∧ b.used + bytes ≤ b.limit
  slots : s.heap.objects.length + objects ≤ u32Size

/-- The bytes of a tuple or of data with `n` fields. -/
def containerBytes (n : ℕ) : ℕ :=
  heapObjectSize + HeapObject.spilledValueBytes ⟨[], max Fields.inlineCapacity n⟩

namespace SendableValue

mutual

/-- The objects a message takes in a heap. -/
def objects : SendableValue → ℕ
  | .string _ | .bytes _ => 1
  | .tuple ms => objectsOf ms + 1
  | .list ms => objectsOf ms + (ms.length + 1)
  | .data _ ms => objectsOf ms + 1
  | .closure _ ms => objectsOf ms + 1
  | _ => 0

/-- The objects several messages take. -/
def objectsOf : List SendableValue → ℕ
  | [] => 0
  | m :: ms => objects m + objectsOf ms

end

mutual

/-- The bytes a message takes in a heap. -/
def heapBytes : SendableValue → ℕ
  | .string s => (HeapObject.string s).estimatedBytes
  | .bytes bs => (HeapObject.bytes bs).estimatedBytes
  | .tuple ms => heapBytesOf ms + containerBytes ms.length
  | .list ms => heapBytesOf ms + (ms.length + 1) * heapObjectSize
  | .data _ ms => heapBytesOf ms + containerBytes ms.length
  | .closure _ ms => heapBytesOf ms + heapObjectSize
  | _ => 0

/-- The bytes several messages take. -/
def heapBytesOf : List SendableValue → ℕ
  | [] => 0
  | m :: ms => heapBytes m + heapBytesOf ms

end

end SendableValue

section Deserialize

variable {s : Store}

/-- The heaps of running processes list their free slots once. -/
theorem HeapOk.freeOk {n : ℕ} {h : Heap} (hok : HeapOk n h) (hsmall : h.Small) : h.FreeOk :=
  ⟨fun i hi => ⟨hok.freeRange i hi, hok.free hsmall i hi⟩, hok.nodup hsmall⟩

/-- The slot that an object is put into was empty. -/
theorem Heap.FreeOk.place {h : Heap} (hfree : h.FreeOk) (obj : HeapObject) :
    (h.place obj).2.FreeOk ∧ h.Extends (h.place obj).2 := by
  obtain ⟨hempty, hnodup⟩ := hfree
  unfold Heap.place
  split
  · next idx rest hf =>
    rw [hf] at hempty hnodup
    rw [List.nodup_cons] at hnodup
    obtain ⟨hlt, hnone⟩ := hempty idx (.head _)
    have hobject : ∀ i, ((h.objects.set idx (some obj))[i]?).join =
        if idx = i then some obj else h.object? i := fun i => getElem?_set_join hlt
    refine ⟨⟨fun i hi => ?_, hnodup.2⟩, fun i o ho => ?_⟩
    · obtain ⟨hi', hnone'⟩ := hempty i (.tail _ hi)
      have hne : idx ≠ i := by
        rintro rfl
        exact hnodup.1 hi
      refine ⟨by simpa using hi', ?_⟩
      rw [Heap.object?, hobject, if_neg hne]
      exact hnone'
    · have hne : idx ≠ i := by
        rintro rfl
        rw [hnone] at ho
        cases ho
      rw [Heap.object?, hobject, if_neg hne]
      exact ho
  · next hf =>
    refine ⟨⟨fun i hi => ?_, hnodup⟩, fun i o ho => ?_⟩
    · obtain ⟨hlt, hnone⟩ := hempty i hi
      refine ⟨by simpa using Nat.lt_succ_of_lt hlt, ?_⟩
      rw [Heap.object?] at hnone ⊢
      simpa only [List.getElem?_append_left hlt] using hnone
    · have hlt : i < h.objects.length := by
        by_contra hge
        rw [Heap.object?, List.getElem?_eq_none (Nat.not_lt.mp hge)] at ho
        cases ho
      rw [Heap.object?] at ho ⊢
      simpa only [List.getElem?_append_left hlt] using ho

/-- The slot of a new object, while the indices fit. -/
theorem Heap.FreeOk.object_place {h : Heap} (hfree : h.FreeOk) (obj : HeapObject)
    (hsmall : (h.place obj).2.Small) : (h.place obj).2.object? (h.place obj).1.idx = some obj := by
  unfold Heap.place at hsmall ⊢
  split
  · next idx rest hf =>
    have hlt : idx < h.objects.length := (hfree.1 idx (by simp [hf])).1
    rw [Heap.object?]
    simp [hlt]
  · next hf =>
    rw [hf] at hsmall
    have hlt : h.objects.length < u32Size := by simpa [Heap.Small] using hsmall
    rw [Heap.object?]
    simp [Nat.mod_eq_of_lt hlt]

/-- A new object takes at most one slot more. -/
theorem live_place_le (h : Heap) (obj : HeapObject) :
    (h.place obj).2.live ≤ h.live + 1 ∧
      (h.place obj).2.objects.length ≤ h.objects.length + 1 := by
  unfold Heap.place Heap.live
  split
  · next idx rest hf =>
    simp only [hf, List.length_cons, List.length_set]
    omega
  · next hf =>
    simp only [Heap.recordBirth, hf, List.length_append, List.length_singleton, List.length_nil]
    omega

theorem Heap.FreeOk.alloc (hfree : s.heap.FreeOk) (obj : HeapObject) :
    (s.alloc obj).2.heap.FreeOk ∧ s.heap.Extends (s.alloc obj).2.heap := by
  rcases Store.alloc_cases s obj with ⟨e, heq⟩ | ⟨b, -, -, heq⟩
  · rw [heq]
    exact ⟨hfree, .refl _⟩
  · rw [heq]
    exact hfree.place obj

/-- An allocation with room: the new object is there, and so are the others. -/
theorem alloc_fits {obj : HeapObject} {k j : ℕ} (hfree : s.heap.FreeOk)
    (hfits : s.Fits (k + 1) (obj.estimatedBytes + j)) :
    ∃ r s', s.allocValue obj = (.ok (.heap r), s') ∧ s'.heap.FreeOk ∧ s'.Fits k j ∧
      s.heap.Extends s'.heap ∧ s'.heap.object? r.idx = some obj := by
  have hobjects : s.checkObjects = .ok () := by
    unfold Store.checkObjects
    split
    · next limit hlimit =>
      have := hfits.count limit hlimit
      rw [if_neg (by omega)]
    · rfl
  obtain ⟨budgets, hcharge, hmemory⟩ : ∃ budgets, s.chargeMemory obj.estimatedBytes = .ok budgets ∧
      ∀ b, budgets.memory = some b → b.used + j < u64Size ∧ b.used + j ≤ b.limit := by
    unfold Store.chargeMemory
    split
    · next hnone => exact ⟨s.budgets, rfl, by simp [hnone]⟩
    · next b hb =>
      obtain ⟨hlt, hle⟩ := hfits.memory b hb
      refine ⟨{ s.budgets with memory := some { b with used := b.used + obj.estimatedBytes } }, ?_, ?_⟩
      · rw [SharedBudget.tryCharge, if_pos ⟨by omega, by omega⟩]
      · rintro _ ⟨⟩
        dsimp only
        omega
  obtain ⟨hlive, hlength⟩ := live_place_le s.heap obj
  have hslots := hfits.slots
  obtain ⟨hfree', hextends⟩ := hfree.place obj
  have hobject := hfree.object_place obj (by rw [Heap.Small]; omega)
  simp only [Store.allocValue, Store.alloc, hobjects, hcharge]
  refine ⟨(s.heap.place obj).1, _, rfl, hfree', ⟨fun limit hlimit => ?_, hmemory, ?_⟩, hextends,
    hobject⟩
  · have hmax : s.heap.maxObjects = some limit := by
      rw [← hlimit]
      unfold Heap.place
      split <;> rfl
    have hcount := hfits.count limit hmax
    change (s.heap.place obj).2.live + k ≤ limit
    omega
  · change (s.heap.place obj).2.objects.length + k ≤ u32Size
    omega

/-- A result has arrived: it unfolds to a tree, and there is room left. -/
def ArrivesAs {ε : Type} (s : Store) (r : Except ε Value × Store) (k j : ℕ) (t : ValueTree) : Prop :=
  ∃ v s', r = (.ok v, s') ∧ s'.heap.FreeOk ∧ s'.Fits k j ∧ s.heap.Extends s'.heap ∧
    Unfolds s'.heap t v

theorem arrivesAs_alloc (obj : HeapObject) {k j : ℕ} {t : ValueTree} (hfree : s.heap.FreeOk)
    (hfits : s.Fits (k + 1) (obj.estimatedBytes + j))
    (ht : ∀ h r, s.heap.Extends h → h.object? r.idx = some obj → Unfolds h t (.heap r)) :
    ArrivesAs s (s.allocValue obj) k j t := by
  obtain ⟨r, s', halloc, hfree', hfits', hext, hobj⟩ := alloc_fits hfree hfits
  exact ⟨.heap r, s', halloc, hfree', hfits', hext, ht _ r hext hobj⟩

/-- The cells of a list, from its last item. -/
theorem arrivesAs_buildList {tail : Value} {t : ValueTree} : ∀ {ts : List ValueTree} {vs : List Value}
    {k j : ℕ}, s.heap.FreeOk → s.Fits (vs.length + k) (vs.length * heapObjectSize + j) →
    UnfoldsAll s.heap ts vs → Unfolds s.heap t tail →
    ArrivesAs s (Store.buildList vs tail s) k j
      (ts.foldr (fun item rest => .data tagCons [item, rest]) t)
  | [], vs, k, j, hfree, hfits, hvs, htail => by
    simp only [UnfoldsAll] at hvs
    subst hvs
    exact ⟨tail, s, rfl, hfree, by simpa using hfits, .refl _, htail⟩
  | item :: ts, vs, k, j, hfree, hfits, hvs, htail => by
    simp only [UnfoldsAll] at hvs
    obtain ⟨v, vs, rfl, hv, hvs⟩ := hvs
    have hfits' : s.Fits (vs.length + (k + 1)) (vs.length * heapObjectSize + (heapObjectSize + j)) := by
      simp only [List.length_cons] at hfits
      rwa [show vs.length + 1 + k = vs.length + (k + 1) by omega,
        show (vs.length + 1) * heapObjectSize + j =
          vs.length * heapObjectSize + (heapObjectSize + j) by rw [Nat.add_mul]; omega] at hfits
    obtain ⟨rest, s₁, hbuild, hfree₁, hfits₁, hext₁, hrest⟩ :=
      arrivesAs_buildList hfree hfits' hvs htail
    have hcell := arrivesAs_alloc (.data tagCons (Fields.fromSlice [v, rest])) (k := k) (j := j)
      (t := .data tagCons [item, ts.foldr (fun item rest => .data tagCons [item, rest]) t])
      hfree₁ hfits₁ (by
        intro h r hext hobj
        simp only [Unfolds, UnfoldsAll]
        exact ⟨r, _, rfl, hobj, v, [rest], rfl, hv.extends (hext₁.trans hext) _ _, rest, [], rfl,
          hrest.extends hext _ _, rfl⟩)
    obtain ⟨w, s₂, halloc, hfree₂, hfits₂, hext₂, hw⟩ := hcell
    refine ⟨w, s₂, ?_, hfree₂, hfits₂, hext₁.trans hext₂, hw⟩
    simp only [Store.buildList, hbuild, halloc]

/-- Several results have arrived. -/
def AllArriveAs {ε : Type} (s : Store) (r : Except ε (List Value) × Store) (k j : ℕ)
    (ts : List ValueTree) : Prop :=
  ∃ vs s', r = (.ok vs, s') ∧ s'.heap.FreeOk ∧ s'.Fits k j ∧ s.heap.Extends s'.heap ∧
    UnfoldsAll s'.heap ts vs

/-- A container after its fields. -/
theorem arrivesAs_container {msg : SendableValue} {r : Except HeapLimitExceeded (List Value) × Store}
    {k j objects bytes : ℕ} {ts : List ValueTree} {t : ValueTree}
    (h : AllArriveAs s r (objects + k) (bytes + j) ts)
    (hbuild : ∀ vs s', s'.heap.FreeOk → s'.Fits (objects + k) (bytes + j) →
      UnfoldsAll s'.heap ts vs → ArrivesAs s' (Store.buildContainer msg vs s') k j t) :
    ArrivesAs s (Store.finishContainer msg r) k j t := by
  obtain ⟨vs, s₁, rfl, hfree, hfits, hext, hvs⟩ := h
  obtain ⟨v, s₂, heq, hfree', hfits', hext', hv⟩ := hbuild vs s₁ hfree hfits hvs
  exact ⟨v, s₂, heq, hfree', hfits', hext.trans hext', hv⟩

theorem trees_length : ∀ ms : List SendableValue, (SendableValue.trees ms).length = ms.length
  | [] => by simp [SendableValue.trees]
  | m :: ms => by simp [SendableValue.trees, trees_length ms]

mutual

/-- A message arrives in a heap with room as its tree. -/
theorem deserialize_spec : ∀ (m : SendableValue) (s : Store) (k j : ℕ), s.heap.FreeOk →
    s.Fits (m.objects + k) (m.heapBytes + j) → ArrivesAs s (Store.deserialize m s) k j m.tree
  | .tuple ms, s, k, j, hfree, hfits => by
    simp only [SendableValue.objects, SendableValue.heapBytes, add_assoc] at hfits
    rw [Store.deserialize, SendableValue.tree]
    apply arrivesAs_container (deserializeAll_spec ms s _ _ hfree hfits)
    intro vs s' hfree' hfits' hvs
    apply arrivesAs_alloc _ hfree'
    · have hlen := hvs.length
      rw [trees_length] at hlen
      rw [add_comm k 1]
      simpa [HeapObject.estimatedBytes, HeapObject.spilledValueBytes, Fields.spilled,
        Fields.fromSlice, containerBytes, hlen] using hfits'
    · intro h r hext hobj
      simp only [Unfolds]
      exact ⟨r, _, rfl, hobj, hvs.extends hext _ _⟩
  | .data tag ms, s, k, j, hfree, hfits => by
    simp only [SendableValue.objects, SendableValue.heapBytes, add_assoc] at hfits
    rw [Store.deserialize, SendableValue.tree]
    apply arrivesAs_container (deserializeAll_spec ms s _ _ hfree hfits)
    intro vs s' hfree' hfits' hvs
    apply arrivesAs_alloc _ hfree'
    · have hlen := hvs.length
      rw [trees_length] at hlen
      rw [add_comm k 1]
      simpa [HeapObject.estimatedBytes, HeapObject.spilledValueBytes, Fields.spilled,
        Fields.fromSlice, containerBytes, hlen] using hfits'
    · intro h r hext hobj
      simp only [Unfolds]
      exact ⟨r, _, rfl, hobj, hvs.extends hext _ _⟩
  | .closure protoIdx ms, s, k, j, hfree, hfits => by
    simp only [SendableValue.objects, SendableValue.heapBytes, add_assoc] at hfits
    rw [Store.deserialize, SendableValue.tree]
    apply arrivesAs_container (deserializeAll_spec ms s _ _ hfree hfits)
    intro vs s' hfree' hfits' hvs
    apply arrivesAs_alloc _ hfree'
    · rw [add_comm k 1]
      exact hfits'
    · intro h r hext hobj
      simp only [Unfolds]
      exact ⟨r, _, rfl, hobj, hvs.extends hext _ _⟩
  | .list ms, s, k, j, hfree, hfits => by
    simp only [SendableValue.objects, SendableValue.heapBytes, add_assoc] at hfits
    rw [Store.deserialize, SendableValue.tree, listTree]
    have hall := deserializeAll_spec ms s _ _ hfree hfits
    rw [← add_assoc] at hall
    apply arrivesAs_container hall
    intro vs s' hfree' hfits' hvs
    have hlen := hvs.length
    rw [trees_length] at hlen
    -- the empty list at the end, then the cells
    have hnil := arrivesAs_alloc (.data tagNil (Fields.fromSlice [])) (k := ms.length + k)
      (j := ms.length * heapObjectSize + j) (t := .data tagNil []) hfree' (by
        have hbytes : (HeapObject.data tagNil (Fields.fromSlice [])).estimatedBytes =
            heapObjectSize := rfl
        rw [hbytes]
        rwa [show ms.length + k + 1 = ms.length + 1 + k by omega,
          show heapObjectSize + (ms.length * heapObjectSize + j) =
            (ms.length + 1) * heapObjectSize + j by rw [Nat.add_mul]; omega]) (by
        intro h r hext hobj
        simp only [Unfolds, UnfoldsAll]
        exact ⟨r, _, rfl, hobj, rfl⟩)
    obtain ⟨nil, s₁, halloc, hfree₁, hfits₁, hext₁, hnil⟩ := hnil
    rw [← hlen] at hfits₁
    obtain ⟨v, s₂, hlist, hfree₂, hfits₂, hext₂, hv⟩ :=
      arrivesAs_buildList hfree₁ hfits₁ (hvs.extends hext₁ _ _) hnil
    refine ⟨v, s₂, ?_, hfree₂, hfits₂, hext₁.trans hext₂, hv⟩
    simp only [Store.buildContainer, halloc, hlist]
  | .string str, s, k, j, hfree, hfits => by
    simp only [SendableValue.objects, SendableValue.heapBytes] at hfits
    rw [add_comm 1 k] at hfits
    rw [SendableValue.tree]
    apply arrivesAs_alloc _ hfree hfits
    intro h r hext hobj
    simp only [Unfolds]
    exact ⟨r, rfl, hobj⟩
  | .bytes bs, s, k, j, hfree, hfits => by
    simp only [SendableValue.objects, SendableValue.heapBytes] at hfits
    rw [add_comm 1 k] at hfits
    rw [SendableValue.tree]
    apply arrivesAs_alloc _ hfree hfits
    intro h r hext hobj
    simp only [Unfolds]
    exact ⟨r, rfl, hobj⟩
  | .int n, s, k, j, hfree, hfits => ⟨.int n, s, rfl, hfree, by
      simpa [SendableValue.objects, SendableValue.heapBytes] using hfits, .refl _, by
      simp [SendableValue.tree, Unfolds, Value.ref?]⟩
  | .word n, s, k, j, hfree, hfits => ⟨.word n, s, rfl, hfree, by
      simpa [SendableValue.objects, SendableValue.heapBytes] using hfits, .refl _, by
      simp [SendableValue.tree, Unfolds, Value.ref?]⟩
  | .pid n, s, k, j, hfree, hfits => ⟨.pid n, s, rfl, hfree, by
      simpa [SendableValue.objects, SendableValue.heapBytes] using hfits, .refl _, by
      simp [SendableValue.tree, Unfolds, Value.ref?]⟩
  | .float n, s, k, j, hfree, hfits => ⟨.float n, s, rfl, hfree, by
      simpa [SendableValue.objects, SendableValue.heapBytes] using hfits, .refl _, by
      simp [SendableValue.tree, Unfolds, Value.ref?]⟩
  | .bool n, s, k, j, hfree, hfits => ⟨.bool n, s, rfl, hfree, by
      simpa [SendableValue.objects, SendableValue.heapBytes] using hfits, .refl _, by
      simp [SendableValue.tree, Unfolds, Value.ref?]⟩
  | .char n, s, k, j, hfree, hfits => ⟨.char n, s, rfl, hfree, by
      simpa [SendableValue.objects, SendableValue.heapBytes] using hfits, .refl _, by
      simp [SendableValue.tree, Unfolds, Value.ref?]⟩
  | .unit, s, k, j, hfree, hfits => ⟨.unit, s, rfl, hfree, by
      simpa [SendableValue.objects, SendableValue.heapBytes] using hfits, .refl _, by
      simp [SendableValue.tree, Unfolds, Value.ref?]⟩
  | .builtin n, s, k, j, hfree, hfits => ⟨.builtin n, s, rfl, hfree, by
      simpa [SendableValue.objects, SendableValue.heapBytes] using hfits, .refl _, by
      simp [SendableValue.tree, Unfolds, Value.ref?]⟩

theorem deserializeAll_spec : ∀ (ms : List SendableValue) (s : Store) (k j : ℕ), s.heap.FreeOk →
    s.Fits (SendableValue.objectsOf ms + k) (SendableValue.heapBytesOf ms + j) →
    AllArriveAs s (Store.deserializeAll ms s) k j (SendableValue.trees ms)
  | [], s, k, j, hfree, hfits => by
    refine ⟨[], s, by simp [Store.deserializeAll], hfree, ?_, .refl _, by
      simp [SendableValue.trees, UnfoldsAll]⟩
    simpa [SendableValue.objectsOf, SendableValue.heapBytesOf] using hfits
  | m :: ms, s, k, j, hfree, hfits => by
    simp only [SendableValue.objectsOf, SendableValue.heapBytesOf, add_assoc] at hfits
    obtain ⟨v, s₁, hfirst, hfree₁, hfits₁, hext₁, hv⟩ := deserialize_spec m s _ _ hfree hfits
    obtain ⟨vs, s₂, hrest, hfree₂, hfits₂, hext₂, hvs⟩ := deserializeAll_spec ms s₁ k j hfree₁ hfits₁
    refine ⟨v :: vs, s₂, ?_, hfree₂, hfits₂, hext₁.trans hext₂, ?_⟩
    · simp only [Store.deserializeAll, hfirst, hrest]
    · simp only [SendableValue.trees, UnfoldsAll]
      exact ⟨v, vs, rfl, hv.extends hext₂ _ _, hvs⟩

end

end Deserialize

/-! ## The round trip -/

/-- A value without cycles that may be sent, within the limits of the message, arrives in any heap
with enough room as a value with the same tree, whose message is again the same. -/
theorem message_round_trip {h : Heap} {t : ValueTree} {v : Value} {maxBytes : ℕ}
    (hun : Unfolds h t v) (hs : t.Sendable) (hmax : maxBytes < u64Size)
    (hwithin : t.toMessage.Within maxBytes) :
    (∀ fuel, t.size < fuel → h.serialize maxBytes fuel v = some (.ok t.toMessage)) ∧
      ∀ s : Store, s.heap.FreeOk → s.Fits t.toMessage.objects t.toMessage.heapBytes →
        ∃ v' s', Store.deserialize t.toMessage s = (.ok v', s') ∧ Unfolds s'.heap t v' ∧
          (∀ t', Unfolds s'.heap t' v' → t' = t) ∧
          ∀ maxBytes' fuel, maxBytes' < u64Size → t.toMessage.Within maxBytes' → t.size < fuel →
            s'.heap.serialize maxBytes' fuel v' = some (.ok t.toMessage) := by
  refine ⟨fun fuel hfuel => serialize_spec hmax hun hs hfuel hwithin, ?_⟩
  intro s hfree hfits
  obtain ⟨v', s', hdes, -, -, -, hun'⟩ :=
    deserialize_spec t.toMessage s 0 0 hfree (by simpa using hfits)
  rw [toMessage_tree t v hun] at hun'
  refine ⟨v', s', hdes, hun', fun t' ht' => unfolds_unique t' t v' ht' hun', ?_⟩
  intro maxBytes' fuel hmax' hwithin' hfuel
  exact serialize_spec hmax' hun' hs hfuel hwithin'

/-- A heap with the pair of the list `["hi"]` and a constructor with the tag of the empty list. -/
def pairHeap : Heap :=
  { Heap.new with
    objects := [some (.data tagNil (Fields.fromSlice [])), some (.string "hi"),
      some (.data tagCons (Fields.fromSlice [.heap ⟨1, 1⟩, .heap ⟨0, 0⟩])),
      some (.data 0 (Fields.fromSlice [])),
      some (.tuple (Fields.fromSlice [.heap ⟨2, 2⟩, .heap ⟨3, 3⟩]))] }

/-- The tree of the pair. -/
def pairTree : ValueTree := .tuple [.data tagCons [.string "hi", .data tagNil []], .data 0 []]

/-- The pair is sent as the pair of two lists, and arrives in a new heap as it was. -/
theorem message_round_trip_pair :
    let m : SendableValue := .tuple [.list [.string "hi"], .list []]
    pairHeap.serialize 4096 10 (.heap ⟨4, 4⟩) = some (.ok m) ∧
      ∃ v' s', Store.deserialize m ⟨Heap.new, ⟨none, none, []⟩⟩ = (.ok v', s') ∧
        Unfolds s'.heap pairTree v' ∧ s'.heap.serialize 4096 10 v' = some (.ok m) := by
  have hun : Unfolds pairHeap pairTree (.heap ⟨4, 4⟩) := by
    simp [pairTree, Unfolds, UnfoldsAll, pairHeap, Heap.object?, Fields.fromSlice]
  have hsend : pairTree.Sendable := by
    simp only [pairTree, ValueTree.Sendable, ValueTree.AllSendable]
    refine ⟨⟨?_, trivial, ⟨by simp, trivial⟩, trivial⟩, ⟨by simp, trivial⟩, trivial⟩
    rintro item rest - ⟨⟩
    exact .nil
  have hmsg : pairTree.toMessage = .tuple [.list [.string "hi"], .list []] := by
    simp [pairTree, ValueTree.toMessage, ValueTree.toMessages, packData, tagCons, tagNil]
  have hsize : pairTree.size < 10 := by decide
  have hwithin : pairTree.toMessage.Within 4096 := by
    rw [hmsg]
    constructor <;> decide
  obtain ⟨hser, hdes⟩ := message_round_trip hun hsend (by decide) hwithin
  obtain ⟨v', s', hdes', hun', -, hser'⟩ := hdes ⟨Heap.new, ⟨none, none, []⟩⟩
    ⟨by simp [Heap.new], by simp [Heap.new]⟩
    ⟨by simp [Heap.new], by simp, by rw [hmsg]; decide⟩
  refine ⟨hmsg ▸ hser 10 hsize, v', s', hmsg ▸ hdes', hun', ?_⟩
  exact hmsg ▸ hser' 4096 10 (by decide) hwithin hsize

end Hiko
