import Hiko.Heap.Built
import Hiko.Heap.RoundTrip

/-!
# Copies of values

Serializing a value only looks at the objects it reaches, so heaps that share these give the same
message. A message that comes out is the value, unfolded, and a message that arrives unfolds to its
tree, however much room there is. So what was sent and what arrives are copies of one tree.

## Main definitions

* `Heap.Shares`: heaps with a common part
* `Value.Into`: the values that refer only into a part of the heap

## Main results

* `Heap.Shares.serialize`, `Heap.Shares.unfolds`: serializing and unfolding see only the common part
* `unfolds_of_serialize`: a message that comes out
* `lands_deserialize`: a message that arrives
-/

namespace Hiko

open Lib

/-- The slots of `S` hold the same objects in both heaps, and these refer only into `S`. -/
def Heap.Shares (h h' : Heap) (S : Set ℕ) : Prop :=
  ∀ i ∈ S, ∃ o, h.object? i = some o ∧ h'.object? i = some o ∧ ∀ r ∈ o.gcRefs, r.idx ∈ S

/-- A value that refers only into `S`. -/
def Value.Into (S : Set ℕ) (v : Value) : Prop := ∀ r, v = .heap r → r.idx ∈ S

section Walks

variable {α : Type} {walk walk' : Value → Option (Except String α)} {vs : List Value}

theorem walkAll_congr (h : ∀ v ∈ vs, walk v = walk' v) : walkAll walk vs = walkAll walk' vs := by
  induction vs with
  | nil => rfl
  | cons v vs ih =>
    simp only [walkAll, h v List.mem_cons_self, ih fun w hw => h w (List.mem_cons_of_mem _ hw)]

theorem walkAllRev_congr (h : ∀ v ∈ vs, walk v = walk' v) :
    walkAllRev walk vs = walkAllRev walk' vs := by
  induction vs with
  | nil => rfl
  | cons v vs ih =>
    simp only [walkAllRev, h v List.mem_cons_self, ih fun w hw => h w (List.mem_cons_of_mem _ hw)]

/-- A walk that succeeds has walked each value. -/
theorem walkAll_ok : ∀ {vs : List Value} {as : List α}, walkAll walk vs = some (.ok as) →
    List.Forall₂ (fun v a => walk v = some (.ok a)) vs as
  | [], as, h => by
    obtain rfl : [] = as := by simpa [walkAll] using h
    exact .nil
  | v :: vs, as, h => by
    rw [walkAll] at h
    split at h
    · cases h
    · cases h
    · next a ha =>
      split at h
      · cases h
      · cases h
      · next rest hrest =>
        obtain rfl : a :: rest = as := by simpa using h
        exact .cons ha (walkAll_ok hrest)

end Walks

/-! ## Common parts -/

section Shares

variable {h h' : Heap} {S : Set ℕ} {v : Value}

theorem Heap.Shares.object (hS : h.Shares h' S) {i : ℕ} (hi : i ∈ S) :
    h'.object? i = h.object? i := by
  obtain ⟨o, ho, ho', -⟩ := hS i hi
  rw [ho, ho']

theorem Heap.Shares.get (hS : h.Shares h' S) {r : GcRef} (hr : r.idx ∈ S) : h'.get r = h.get r := by
  rw [Heap.get, Heap.get, hS.object hr]

theorem Heap.Shares.into (hS : h.Shares h' S) {i : ℕ} (hi : i ∈ S) {o : HeapObject}
    (ho : h.object? i = some o) {w : Value} (hw : w ∈ o.children) : w.Into S := by
  obtain ⟨o', ho', -, hrefs⟩ := hS i hi
  obtain rfl := Option.some.inj (ho.symm.trans ho')
  rintro r rfl
  exact hrefs r (mem_refsOf.mpr hw)

theorem get_ok {r : GcRef} {o : HeapObject} (hget : h.get r = .ok o) :
    h.object? r.idx = some o := by
  unfold Heap.get at hget
  split at hget
  · next o' ho =>
    obtain rfl := Except.ok.inj hget
    exact ho
  · cases hget

/-- The items of a list are read in the common part. -/
theorem Heap.Shares.listItems (hS : h.Shares h' S) : ∀ (fuel : ℕ) {v : Value}, v.Into S →
    h'.listItems fuel v = h.listItems fuel v ∧
      ∀ items, h.listItems fuel v = some (.ok items) → ∀ i ∈ items, i.Into S
  | 0, v, _ => ⟨by simp [Heap.listItems], by simp [Heap.listItems]⟩
  | fuel + 1, v, hv => by
    cases v with
    | heap r =>
      have hr : r.idx ∈ S := hv r rfl
      simp only [Heap.listItems, hS.get hr]
      cases hget : h.get r with
      | error e => exact ⟨rfl, by simp⟩
      | ok o =>
        cases o with
        | data tag fields =>
          have hinto : ∀ w ∈ fields.vals, w.Into S := fun w hw => hS.into hr (get_ok hget) hw
          dsimp only
          split
          · refine ⟨rfl, fun items => ?_⟩
            split
            · rintro ⟨⟩
              simp
            · simp
          · next item rest hvals =>
            rw [hvals] at hinto
            obtain ⟨heq, hitems⟩ := Heap.Shares.listItems hS fuel (hinto rest (by simp))
            rw [heq]
            refine ⟨rfl, fun items => ?_⟩
            split
            · split
              · simp
              · simp
              · next its hits =>
                rintro ⟨⟩
                exact List.forall_mem_cons.mpr ⟨hinto item (by simp), hitems its hits⟩
            · simp
          · exact ⟨rfl, by simp⟩
        | _ => exact ⟨rfl, by simp⟩
    | _ => exact ⟨rfl, by simp [Heap.listItems]⟩

theorem Heap.Shares.messageChildren (hS : h.Shares h' S) (fuel : ℕ) {r : GcRef} (hr : r.idx ∈ S) :
    h'.messageChildren fuel r = h.messageChildren fuel r ∧
      ∀ vs, h.messageChildren fuel r = some (.ok vs) → ∀ w ∈ vs, w.Into S := by
  have hlist := hS.listItems fuel (v := .heap r) (by rintro _ ⟨⟩; exact hr)
  simp only [Heap.messageChildren, hS.get hr]
  cases hget : h.get r with
  | error e => exact ⟨rfl, by simp⟩
  | ok o =>
    have hinto : ∀ w ∈ o.children, w.Into S := fun w hw => hS.into hr (get_ok hget) hw
    cases o with
    | data tag fields =>
      dsimp only
      split
      · exact hlist
      · refine ⟨rfl, ?_⟩
        rintro _ ⟨⟩
        exact hinto
    | tuple fields | closure protoIdx captures =>
      refine ⟨rfl, ?_⟩
      rintro _ ⟨⟩
      exact hinto
    | _ => exact ⟨rfl, by simp⟩

theorem Heap.Shares.measure (hS : h.Shares h' S) (maxBytes : ℕ) : ∀ (fuel : ℕ) {v : Value},
    v.Into S → h'.measure maxBytes fuel v = h.measure maxBytes fuel v
  | 0, v, _ => by simp [Heap.measure]
  | fuel + 1, v, hv => by
    cases v with
    | heap r =>
      have hr : r.idx ∈ S := hv r rfl
      obtain ⟨heq, hchildren⟩ := hS.messageChildren fuel hr
      have hpayload : h'.payload r = h.payload r := by rw [Heap.payload, Heap.payload, hS.get hr]
      simp only [Heap.measure, heq, hpayload]
      cases hc : h.messageChildren fuel r with
      | none => rfl
      | some res =>
        cases res with
        | error e => rfl
        | ok vs =>
          simp only [walkAllRev_congr fun w hw =>
            Heap.Shares.measure hS maxBytes fuel (hchildren vs hc w hw)]
    | _ => rfl

theorem Heap.Shares.serializeValue (hS : h.Shares h' S) : ∀ (fuel : ℕ) {v : Value},
    v.Into S → h'.serializeValue fuel v = h.serializeValue fuel v
  | 0, v, _ => by simp [Heap.serializeValue]
  | fuel + 1, v, hv => by
    cases v with
    | heap r =>
      have hr : r.idx ∈ S := hv r rfl
      obtain ⟨heq, hitems⟩ := hS.listItems fuel hv
      have hwalk : ∀ vs, (∀ w ∈ vs, w.Into S) → walkAll (h'.serializeValue fuel) vs =
          walkAll (h.serializeValue fuel) vs := fun vs hvs =>
        walkAll_congr fun w hw => Heap.Shares.serializeValue hS fuel (hvs w hw)
      simp only [Heap.serializeValue, hS.get hr]
      cases hget : h.get r with
      | error e => rfl
      | ok o =>
        have hinto : ∀ w ∈ o.children, w.Into S := fun w hw => hS.into hr (get_ok hget) hw
        cases o with
        | data tag fields =>
          dsimp only
          split
          · rw [heq]
            split
            · rfl
            · rfl
            · next items hits => rw [hwalk items (hitems items hits)]
          · rw [hwalk fields.vals hinto]
        | tuple fields =>
          dsimp only
          rw [hwalk fields.vals hinto]
        | closure protoIdx captures =>
          dsimp only
          rw [hwalk captures hinto]
        | _ => rfl
    | _ => rfl

/-- **Serializing sees only the common part.** -/
theorem Heap.Shares.serialize (hS : h.Shares h' S) (hv : v.Into S) (maxBytes fuel : ℕ) :
    h'.serialize maxBytes fuel v = h.serialize maxBytes fuel v := by
  simp only [Heap.serialize, Heap.checkMessageSize, hS.measure maxBytes fuel hv,
    hS.serializeValue fuel hv]

mutual

/-- A value unfolds in the common part. -/
theorem Heap.Shares.unfolds (hS : h.Shares h' S) : ∀ (t : ValueTree) (v : Value), v.Into S →
    Unfolds h t v → Unfolds h' t v
  | .scalar w, v, _, hun => by simpa only [Unfolds] using hun
  | .string s, v, hv, hun => by
    simp only [Unfolds] at hun ⊢
    obtain ⟨r, rfl, ho⟩ := hun
    exact ⟨r, rfl, (hS.object (hv r rfl)).trans ho⟩
  | .bytes bs, v, hv, hun => by
    simp only [Unfolds] at hun ⊢
    obtain ⟨r, rfl, ho⟩ := hun
    exact ⟨r, rfl, (hS.object (hv r rfl)).trans ho⟩
  | .tuple ts, v, hv, hun => by
    simp only [Unfolds] at hun ⊢
    obtain ⟨r, fields, rfl, ho, hall⟩ := hun
    exact ⟨r, fields, rfl, (hS.object (hv r rfl)).trans ho,
      Heap.Shares.unfoldsAll hS ts _ (fun w hw => hS.into (hv r rfl) ho hw) hall⟩
  | .data tag ts, v, hv, hun => by
    simp only [Unfolds] at hun ⊢
    obtain ⟨r, fields, rfl, ho, hall⟩ := hun
    exact ⟨r, fields, rfl, (hS.object (hv r rfl)).trans ho,
      Heap.Shares.unfoldsAll hS ts _ (fun w hw => hS.into (hv r rfl) ho hw) hall⟩
  | .closure protoIdx ts, v, hv, hun => by
    simp only [Unfolds] at hun ⊢
    obtain ⟨r, captures, rfl, ho, hall⟩ := hun
    exact ⟨r, captures, rfl, (hS.object (hv r rfl)).trans ho,
      Heap.Shares.unfoldsAll hS ts _ (fun w hw => hS.into (hv r rfl) ho hw) hall⟩

theorem Heap.Shares.unfoldsAll (hS : h.Shares h' S) : ∀ (ts : List ValueTree) (vs : List Value),
    (∀ v ∈ vs, v.Into S) → UnfoldsAll h ts vs → UnfoldsAll h' ts vs
  | [], vs, _, hun => by simpa only [UnfoldsAll] using hun
  | t :: ts, vs, hvs, hun => by
    simp only [UnfoldsAll] at hun ⊢
    obtain ⟨v, rest, rfl, ht, hts⟩ := hun
    exact ⟨v, rest, rfl, Heap.Shares.unfolds hS t v (hvs v List.mem_cons_self) ht,
      Heap.Shares.unfoldsAll hS ts rest (fun w hw => hvs w (List.mem_cons_of_mem _ hw)) hts⟩

end

end Shares

/-! ## Messages that come out -/

section Sent

variable {h : Heap} {n : ℕ} {v : Value}

theorem unfoldsAll_of_forall₂ {ms : List SendableValue} {vs : List Value}
    (hall : List.Forall₂ (fun v m => Unfolds h (SendableValue.tree m) v) vs ms) :
    UnfoldsAll h (SendableValue.trees ms) vs := by
  induction hall with
  | nil => simp [SendableValue.trees, UnfoldsAll]
  | cons hv _ ih =>
    rw [SendableValue.trees, UnfoldsAll]
    exact ⟨_, _, rfl, hv, ih⟩

/-- A list whose items unfold. -/
theorem unfolds_of_listItems : ∀ (fuel : ℕ) {v : Value} {items : List Value}
    {ts : List ValueTree}, h.listItems fuel v = some (.ok items) → UnfoldsAll h ts items →
    Unfolds h (listTree ts) v
  | 0, v, items, ts, hits, _ => by simp [Heap.listItems] at hits
  | fuel + 1, v, items, ts, hits, hun => by
    cases v with
    | heap r =>
      rw [Heap.listItems] at hits
      split at hits
      · cases hits
      · next tag fields hget =>
        split at hits
        · next hvals =>
          split at hits
          · next htag =>
            obtain rfl : [] = items := by simpa using hits
            cases ts with
            | nil =>
              simp only [listTree, List.foldr_nil, Unfolds, UnfoldsAll]
              exact ⟨r, fields, rfl, htag ▸ get_ok hget, hvals⟩
            | cons t ts => simp [UnfoldsAll] at hun
          · cases hits
        · next item rest hvals =>
          split at hits
          · next htag =>
            split at hits
            · cases hits
            · cases hits
            · next its hrest =>
              obtain rfl : item :: its = items := by simpa using hits
              cases ts with
              | nil => simp [UnfoldsAll] at hun
              | cons t ts =>
                simp only [UnfoldsAll] at hun
                obtain ⟨w, ws, heq, ht, hts⟩ := hun
                obtain ⟨rfl, rfl⟩ := List.cons.inj heq
                have htail : Unfolds h (listTree ts) rest := unfolds_of_listItems fuel hrest hts
                change Unfolds h (.data tagCons [t, listTree ts]) (.heap r)
                simp only [Unfolds, UnfoldsAll]
                exact ⟨r, fields, rfl, htag ▸ get_ok hget, item, [rest], hvals, ht, rest, [], rfl,
                  htail, rfl⟩
          · cases hits
        · cases hits
      · cases hits
    | _ => simp [Heap.listItems] at hits

theorem buildMessage_ok {container : List SendableValue → SendableValue}
    {r : Option (Except String (List SendableValue))} {m : SendableValue}
    (hbuild : Heap.buildMessage container r = some (.ok m)) :
    ∃ ms, r = some (.ok ms) ∧ m = container ms := by
  unfold Heap.buildMessage at hbuild
  split at hbuild
  · cases hbuild
  · cases hbuild
  · next ms => exact ⟨ms, rfl, by simpa using hbuild.symm⟩

/-- What the walk gives is the value, unfolded. -/
theorem unfolds_of_serializeValue : ∀ (fuel : ℕ) {v : Value} {m : SendableValue},
    h.serializeValue fuel v = some (.ok m) → Unfolds h m.tree v
  | 0, v, m, hser => by simp [Heap.serializeValue] at hser
  | fuel + 1, v, m, hser => by
    have hwalk : ∀ {vs : List Value} {ms : List SendableValue},
        walkAll (h.serializeValue fuel) vs = some (.ok ms) →
        UnfoldsAll h (SendableValue.trees ms) vs := fun hall =>
      unfoldsAll_of_forall₂ ((walkAll_ok hall).imp fun _ _ => unfolds_of_serializeValue fuel)
    cases v with
    | heap r =>
      rw [Heap.serializeValue] at hser
      split at hser
      · cases hser
      · next s hget =>
        obtain rfl : .string s = m := by simpa using hser
        simp only [SendableValue.tree, Unfolds]
        exact ⟨r, rfl, get_ok hget⟩
      · next bs hget =>
        obtain rfl : .bytes bs = m := by simpa using hser
        simp only [SendableValue.tree, Unfolds]
        exact ⟨r, rfl, get_ok hget⟩
      · next tag fields hget =>
        split at hser
        · split at hser
          · cases hser
          · cases hser
          · next items hits =>
            obtain ⟨ms, hms, rfl⟩ := buildMessage_ok hser
            rw [SendableValue.tree]
            exact unfolds_of_listItems fuel hits (hwalk hms)
        · obtain ⟨ms, hms, rfl⟩ := buildMessage_ok hser
          simp only [SendableValue.tree, Unfolds]
          exact ⟨r, fields, rfl, get_ok hget, hwalk hms⟩
      · next fields hget =>
        obtain ⟨ms, hms, rfl⟩ := buildMessage_ok hser
        simp only [SendableValue.tree, Unfolds]
        exact ⟨r, fields, rfl, get_ok hget, hwalk hms⟩
      · next protoIdx captures hget =>
        obtain ⟨ms, hms, rfl⟩ := buildMessage_ok hser
        simp only [SendableValue.tree, Unfolds]
        exact ⟨r, captures, rfl, get_ok hget, hwalk hms⟩
      · cases hser
      · cases hser
    | _ =>
      rw [Heap.serializeValue] at hser
      · obtain rfl := Except.ok.inj (Option.some.inj hser)
        rw [serializeScalar_tree rfl, Unfolds]
        exact ⟨rfl, rfl⟩
      · intro r hr
        cases hr

/-- **A message that comes out is the value, unfolded.** -/
theorem unfolds_of_serialize {maxBytes fuel : ℕ} {m : SendableValue}
    (hser : h.serialize maxBytes fuel v = some (.ok m)) : Unfolds h m.tree v := by
  unfold Heap.serialize at hser
  split at hser
  · cases hser
  · cases hser
  · exact unfolds_of_serializeValue fuel hser

end Sent

/-! ## Messages that arrive -/

section Arriving

variable {h : Heap} {n : ℕ} {v : Value} {s : Store} {t : ValueTree}

/-- The items of a list that unfolds. -/
theorem unfolds_listTree : ∀ {ts : List ValueTree} {v : Value}, HeapOk n h → ValueOk n h v →
    Unfolds h (listTree ts) v → ∃ vs, UnfoldsAll h ts vs ∧ ∀ w ∈ vs, ValueOk n h w
  | [], v, _, _, _ => ⟨[], by simp [UnfoldsAll], by simp⟩
  | t :: ts, v, hok, hv, hun => by
    change Unfolds h (.data tagCons [t, listTree ts]) v at hun
    simp only [Unfolds, UnfoldsAll] at hun
    obtain ⟨r, fields, rfl, ho, item, _, hvals, ht, rest, _, rfl, hrest, rfl⟩ := hun
    have hchild : ∀ w ∈ fields.vals, ValueOk n h w := hok.children _ _ ho
    rw [hvals] at hchild
    obtain ⟨vs, hvs, hall⟩ := unfolds_listTree hok (hchild rest (by simp)) hrest
    refine ⟨item :: vs, ?_, List.forall_mem_cons.mpr ⟨hchild item (by simp), hall⟩⟩
    rw [UnfoldsAll]
    exact ⟨item, vs, rfl, ht, hvs⟩

mutual

/-- The message of a safe value names builtins that are there. -/
theorem ok_of_unfolds : ∀ (m : SendableValue) {v : Value}, HeapOk n h → ValueOk n h v →
    Unfolds h m.tree v → m.Ok n
  | .builtin id, v, _, hv, hun => by
    simp only [SendableValue.tree, Unfolds] at hun
    rw [SendableValue.Ok]
    exact hv.builtin id hun.1
  | .tuple ms, v, hok, hv, hun => by
    simp only [SendableValue.tree, Unfolds] at hun
    obtain ⟨r, fields, rfl, ho, hall⟩ := hun
    rw [SendableValue.Ok]
    exact allOk_of_unfolds ms hok (hok.children _ _ ho) hall
  | .data tag ms, v, hok, hv, hun => by
    simp only [SendableValue.tree, Unfolds] at hun
    obtain ⟨r, fields, rfl, ho, hall⟩ := hun
    rw [SendableValue.Ok]
    exact allOk_of_unfolds ms hok (hok.children _ _ ho) hall
  | .closure protoIdx ms, v, hok, hv, hun => by
    simp only [SendableValue.tree, Unfolds] at hun
    obtain ⟨r, captures, rfl, ho, hall⟩ := hun
    rw [SendableValue.Ok]
    exact allOk_of_unfolds ms hok (hok.children _ _ ho) hall
  | .list ms, v, hok, hv, hun => by
    rw [SendableValue.tree] at hun
    obtain ⟨vs, hall, hvs⟩ := unfolds_listTree hok hv hun
    rw [SendableValue.Ok]
    exact allOk_of_unfolds ms hok hvs hall
  | .int _, _, _, _, _ | .word _, _, _, _, _ | .pid _, _, _, _, _ | .float _, _, _, _, _
  | .bool _, _, _, _, _ | .char _, _, _, _, _ | .unit, _, _, _, _ | .string _, _, _, _, _
  | .bytes _, _, _, _, _ => by simp [SendableValue.Ok]

theorem allOk_of_unfolds : ∀ (ms : List SendableValue) {vs : List Value}, HeapOk n h →
    (∀ v ∈ vs, ValueOk n h v) → UnfoldsAll h (SendableValue.trees ms) vs →
    SendableValue.AllOk n ms
  | [], vs, _, _, _ => by simp [SendableValue.AllOk]
  | m :: ms, vs, hok, hvs, hun => by
    simp only [SendableValue.trees, UnfoldsAll] at hun
    obtain ⟨v, rest, rfl, hv, hrest⟩ := hun
    rw [SendableValue.AllOk]
    exact ⟨ok_of_unfolds m hok (hvs v List.mem_cons_self) hv,
      allOk_of_unfolds ms hok (fun w hw => hvs w (List.mem_cons_of_mem _ hw)) hrest⟩

end

/-- What an operation leaves extends the heap, and a result unfolds to a tree. -/
def Lands {α : Type} (unfolds : Heap → α → Prop) (s : Store)
    (r : Except HeapLimitExceeded α × Store) : Prop :=
  r.2.heap.Small → s.heap.Extends r.2.heap ∧ ∀ a, r.1 = .ok a → unfolds r.2.heap a

theorem lands_alloc (hok : HeapOk n s.heap) (obj : HeapObject)
    (ht : ∀ h r, s.heap.Extends h → h.object? r.idx = some obj → Unfolds h t (.heap r)) :
    Lands (fun h v => Unfolds h t v) s (s.allocValue obj) := by
  intro hsmall
  unfold Store.allocValue at hsmall ⊢
  split at hsmall
  · next r s' halloc =>
    obtain ⟨hempty, hobj, hother⟩ := Store.alloc_object hok halloc hsmall
    have hext : s.heap.Extends s'.heap := by
      intro i o ho
      rw [hother i ?_]
      · exact ho
      · rintro rfl
        rw [hempty] at ho
        cases ho
    refine ⟨hext, ?_⟩
    rintro _ ⟨⟩
    exact ht s'.heap r hext hobj
  · next e s' halloc =>
    obtain rfl := Store.alloc_error halloc
    exact ⟨.refl _, nofun⟩

theorem Lands.error {α : Type} {unfolds : Heap → α → Prop} {s' : Store} (e : HeapLimitExceeded)
    (hext : s'.heap.Small → s.heap.Extends s'.heap) : Lands unfolds s (.error e, s') :=
  fun hsmall => ⟨hext hsmall, nofun⟩

/-- An operation after another one. -/
theorem Lands.after {α : Type} {unfolds : Heap → α → Prop} {s' : Store}
    {r : Except HeapLimitExceeded α × Store} (hkeeps : s'.heap.Keeps r.2.heap)
    (hext : s'.heap.Small → s.heap.Extends s'.heap)
    (h : s'.heap.Small → Lands unfolds s' r) : Lands unfolds s r := fun hsmall =>
  ⟨(hext (hkeeps.small hsmall)).trans (h (hkeeps.small hsmall) hsmall).1,
    (h (hkeeps.small hsmall) hsmall).2⟩

theorem lands_buildList {tail : Value} : ∀ {ts : List ValueTree} {vs : List Value},
    HeapOk n s.heap → (∀ v ∈ vs, ValueOk n s.heap v) → ValueOk n s.heap tail →
    UnfoldsAll s.heap ts vs → Unfolds s.heap t tail →
    Lands (fun h v => Unfolds h (ts.foldr (fun item rest => .data tagCons [item, rest]) t) v) s
      (Store.buildList vs tail s)
  | [], vs, hok, _, _, hvs, htail => by
    simp only [UnfoldsAll] at hvs
    subst hvs
    refine fun _ => ⟨.refl _, ?_⟩
    rintro _ ⟨⟩
    exact htail
  | item :: ts, vs, hok, hsafe, hts, hvs, htail => by
    simp only [UnfoldsAll] at hvs
    obtain ⟨v, vs, rfl, hv, hvs⟩ := hvs
    have hsafe' : ∀ w ∈ vs, ValueOk n s.heap w := fun w hw => hsafe w (List.mem_cons_of_mem _ hw)
    have hrest := lands_buildList hok hsafe' hts hvs htail
    have harr := arrives_buildList hok hsafe' hts
    have hall : Arrives n s (fun v => [v]) (Store.buildList (v :: vs) tail s) :=
      arrives_buildList hok hsafe hts
    rw [Store.buildList] at hall ⊢
    split
    · next e s' heq =>
      rw [heq] at hrest
      exact .error e fun hsmall => (hrest hsmall).1
    · next rest s' heq =>
      rw [heq] at hrest harr
      simp only [heq] at hall
      have hkeeps : s'.heap.Keeps
          (s'.allocValue (.data tagCons (Fields.fromSlice [v, rest]))).2.heap := by
        refine (arrives_allocValue harr.2.1 ?_).1
        simp only [HeapObject.children, Fields.fromSlice, List.mem_cons, List.not_mem_nil, or_false,
          forall_eq_or_imp, forall_eq]
        exact ⟨(hsafe v List.mem_cons_self).keeps harr.1, harr.2.2 rest rfl rest List.mem_cons_self⟩
      refine .after hkeeps (fun hsmall => (hrest hsmall).1) fun hsmall => ?_
      refine lands_alloc harr.2.1 _ fun h r hext hobj => ?_
      simp only [List.foldr_cons, Unfolds, UnfoldsAll]
      exact ⟨r, _, rfl, hobj, v, [rest], rfl, hv.extends ((hrest hsmall).1.trans hext) _ _, rest,
        [], rfl, ((hrest hsmall).2 rest rfl).extends hext _ _, rfl⟩

/-- A container after its fields. -/
theorem Lands.container {msg : SendableValue} {ts : List ValueTree}
    {r : Except HeapLimitExceeded (List Value) × Store}
    (h : Lands (fun h vs => UnfoldsAll h ts vs) s r) (harr : Arrives n s (fun vs => vs) r)
    (hbuild : ∀ vs s', HeapOk n s'.heap → (∀ v ∈ vs, ValueOk n s'.heap v) →
      UnfoldsAll s'.heap ts vs →
      Lands (fun h v => Unfolds h t v) s' (Store.buildContainer msg vs s')) :
    Lands (fun h v => Unfolds h t v) s (Store.finishContainer msg r) := by
  obtain ⟨res, s'⟩ := r
  cases res with
  | error e => exact .error e fun hsmall => (h hsmall).1
  | ok vs =>
    refine .after (arrives_buildContainer harr.2.1 (harr.2.2 vs rfl)).1 (fun hsmall => (h hsmall).1)
      fun hsmall => hbuild vs s' harr.2.1 (harr.2.2 vs rfl) ((h hsmall).2 vs rfl)

mutual

/-- **A message that arrives unfolds to its tree.** -/
theorem lands_deserialize : ∀ (m : SendableValue) (s : Store), HeapOk n s.heap → m.Ok n →
    Lands (fun h v => Unfolds h m.tree v) s (Store.deserialize m s)
  | .tuple ms, s, hok, hm => by
    rw [SendableValue.Ok] at hm
    rw [Store.deserialize, SendableValue.tree]
    apply Lands.container (landsAll_deserialize ms s hok hm) (arrives_deserializeAll ms s hok hm)
    intro vs s' hok' _ hvs
    apply lands_alloc hok'
    intro h r hext hobj
    rw [Unfolds]
    exact ⟨r, _, rfl, hobj, hvs.extends hext _ _⟩
  | .data tag ms, s, hok, hm => by
    rw [SendableValue.Ok] at hm
    rw [Store.deserialize, SendableValue.tree]
    apply Lands.container (landsAll_deserialize ms s hok hm) (arrives_deserializeAll ms s hok hm)
    intro vs s' hok' _ hvs
    apply lands_alloc hok'
    intro h r hext hobj
    rw [Unfolds]
    exact ⟨r, _, rfl, hobj, hvs.extends hext _ _⟩
  | .closure protoIdx ms, s, hok, hm => by
    rw [SendableValue.Ok] at hm
    rw [Store.deserialize, SendableValue.tree]
    apply Lands.container (landsAll_deserialize ms s hok hm) (arrives_deserializeAll ms s hok hm)
    intro vs s' hok' _ hvs
    apply lands_alloc hok'
    intro h r hext hobj
    rw [Unfolds]
    exact ⟨r, _, rfl, hobj, hvs.extends hext _ _⟩
  | .list ms, s, hok, hm => by
    rw [SendableValue.Ok] at hm
    rw [Store.deserialize, SendableValue.tree]
    apply Lands.container (landsAll_deserialize ms s hok hm) (arrives_deserializeAll ms s hok hm)
    intro vs s' hok' hsafe hvs
    have hnil : Lands (fun h v => Unfolds h (.data tagNil []) v) s'
        (s'.allocValue (.data tagNil (Fields.fromSlice []))) := by
      refine lands_alloc hok' _ fun h r _ hobj => ?_
      rw [Unfolds]
      exact ⟨r, _, rfl, hobj, by rw [UnfoldsAll]; rfl⟩
    have harr : Arrives n s' (fun v => [v]) (s'.allocValue (.data tagNil (Fields.fromSlice []))) :=
      arrives_allocValue hok' (by simp [HeapObject.children, Fields.fromSlice])
    unfold Store.buildContainer
    dsimp only
    split
    · next e s'' heq =>
      rw [heq] at hnil
      exact .error e fun hsmall => (hnil hsmall).1
    · next nil s'' heq =>
      rw [heq] at hnil harr
      have hsafe' : ∀ v ∈ vs, ValueOk n s''.heap v := fun v hv => (hsafe v hv).keeps harr.1
      have htail : ValueOk n s''.heap nil := harr.2.2 nil rfl nil List.mem_cons_self
      refine .after (arrives_buildList harr.2.1 hsafe' htail).1 (fun hsmall => (hnil hsmall).1)
        fun hsmall => ?_
      exact lands_buildList harr.2.1 hsafe' htail (hvs.extends (hnil hsmall).1 _ _)
        ((hnil hsmall).2 nil rfl)
  | .string str, s, hok, _ => by
    rw [SendableValue.tree]
    change Lands _ s (s.allocValue _)
    refine lands_alloc hok _ fun h r _ hobj => ?_
    rw [Unfolds]
    exact ⟨r, rfl, hobj⟩
  | .bytes bs, s, hok, _ => by
    rw [SendableValue.tree]
    change Lands _ s (s.allocValue _)
    refine lands_alloc hok _ fun h r _ hobj => ?_
    rw [Unfolds]
    exact ⟨r, rfl, hobj⟩
  | .int _, s, _, _ | .word _, s, _, _ | .pid _, s, _, _ | .float _, s, _, _ | .bool _, s, _, _
  | .char _, s, _, _ | .unit, s, _, _ | .builtin _, s, _, _ => by
    refine fun _ => ⟨.refl _, ?_⟩
    rintro _ ⟨⟩
    rw [SendableValue.tree, Unfolds]
    exact ⟨rfl, rfl⟩

theorem landsAll_deserialize : ∀ (ms : List SendableValue) (s : Store), HeapOk n s.heap →
    SendableValue.AllOk n ms →
    Lands (fun h vs => UnfoldsAll h (SendableValue.trees ms) vs) s (Store.deserializeAll ms s)
  | [], s, _, _ => by
    refine fun _ => ⟨.refl _, ?_⟩
    rintro _ ⟨⟩
    simp [SendableValue.trees, UnfoldsAll]
  | m :: ms, s, hok, hm => by
    rw [SendableValue.AllOk] at hm
    have hfirst := lands_deserialize m s hok hm.1
    have harr := arrives_deserialize m s hok hm.1
    rw [Store.deserializeAll]
    split
    · next e s' heq =>
      rw [heq] at hfirst
      exact .error e fun hsmall => (hfirst hsmall).1
    · next v s' heq =>
      rw [heq] at hfirst harr
      have hrest := landsAll_deserialize ms s' harr.2.1 hm.2
      have harr' := arrives_deserializeAll ms s' harr.2.1 hm.2
      split
      · next e s'' heq' =>
        rw [heq'] at hrest harr'
        exact .error e fun hsmall =>
          (hfirst (harr'.1.small hsmall)).1.trans (hrest hsmall).1
      · next vs s'' heq' =>
        rw [heq'] at hrest harr'
        intro hsmall
        have hext := (hrest hsmall).1
        refine ⟨(hfirst (harr'.1.small hsmall)).1.trans hext, ?_⟩
        rintro _ ⟨⟩
        rw [SendableValue.trees, UnfoldsAll]
        exact ⟨v, vs, rfl, ((hfirst (harr'.1.small hsmall)).2 v rfl).extends hext _ _,
          (hrest hsmall).2 vs rfl⟩

end

end Arriving

end Hiko
