import Hiko.Heap.RoundTrip

/-!
# The bodies of HTTP responses

`http_json` and `http_msgpack` give a parsed document as a value. A blocking call builds the value
in the heap with `json_to_hiko`; in the threaded runtime a worker makes a message of the document
with `json_value_to_sendable`, and the message is rebuilt in the heap when it arrives. The document
is a value of `serde_json`, whose numbers are known by their readings.

## Main definitions

* `Json`: a parsed document
* `Store.jsonToHiko`: the body of a blocking call
* `jsonValueToSendable`, `Store.asyncBody`: the body in the threaded runtime
* `Json.form`: a document in the form of the `Json` datatype

## Main results

* `jsonToHiko_spec`: a blocking call gives the form of the datatype
* `jsonValueToSendable_tree_ne`: no message has that form
* `not_sameBody`: the two bodies differ for every document
-/

namespace Hiko

/-- A number: what `as_i64` and `as_f64` give, and its text. -/
structure JsonNumber where
  asI64 : Option Int64
  asF64 : Option UInt64
  text : String

/-- `serde_json::Value`. -/
inductive Json where
  | null
  | bool (b : Bool)
  | number (n : JsonNumber)
  | string (s : String)
  | array (items : List Json)
  | object (entries : List (String × Json))

/-- `TAG_JNULL`. -/
def tagJNull : ℕ := 0

/-- `TAG_JBOOL`. -/
def tagJBool : ℕ := 1

/-- `TAG_JINT`. -/
def tagJInt : ℕ := 2

/-- `TAG_JFLOAT`. -/
def tagJFloat : ℕ := 3

/-- `TAG_JSTR`. -/
def tagJStr : ℕ := 4

/-- `TAG_JARRAY`. -/
def tagJArray : ℕ := 5

/-- `TAG_JOBJECT`. -/
def tagJObject : ℕ := 6

/-! ## The threaded runtime -/

mutual

/-- `json_value_to_sendable`. -/
def jsonValueToSendable : Json → Except String SendableValue
  | .null => .ok .unit
  | .bool b => .ok (.bool b)
  | .number n =>
    match n.asI64 with
    | some i => .ok (.int i)
    | none =>
      match n.asF64 with
      | some f => .ok (.float f)
      | none => .error ("json number not representable as f64: " ++ n.text)
  | .string s => .ok (.string s)
  | .array items =>
    match jsonItemsToSendable items with
    | .error e => .error e
    | .ok ms => .ok (.list ms)
  | .object entries =>
    match jsonEntriesToSendable entries with
    | .error e => .error e
    | .ok ms => .ok (.list ms)

/-- The items of an array. -/
def jsonItemsToSendable : List Json → Except String (List SendableValue)
  | [] => .ok []
  | j :: js =>
    match jsonValueToSendable j with
    | .error e => .error e
    | .ok m =>
      match jsonItemsToSendable js with
      | .error e => .error e
      | .ok ms => .ok (m :: ms)

/-- The entries of an object. -/
def jsonEntriesToSendable : List (String × Json) → Except String (List SendableValue)
  | [] => .ok []
  | (k, j) :: rest =>
    match jsonValueToSendable j with
    | .error e => .error e
    | .ok m =>
      match jsonEntriesToSendable rest with
      | .error e => .error e
      | .ok ms => .ok (.tuple [.string k, m] :: ms)

end

namespace Store

/-- An error of the heap as a text. -/
def reportLimit {α : Type} : Except HeapLimitExceeded α × Store → Except String α × Store
  | (.error e, s) => (.error e.message, s)
  | (.ok a, s) => (.ok a, s)

/-- The body in the threaded runtime, when it has arrived. -/
def asyncBody (doc : Json) (s : Store) : Except String Value × Store :=
  match jsonValueToSendable doc with
  | .error e => (.error e, s)
  | .ok m => reportLimit (s.deserialize m)

/-! ## Blocking calls -/

/-- `heap_alloc` of builtins. -/
def heapAlloc (s : Store) (obj : HeapObject) : Except String Value × Store :=
  reportLimit (s.allocValue obj)

/-- `alloc_list`: the empty list, then the cells from the last element. -/
def allocList (s : Store) (elems : List Value) : Except String Value × Store :=
  match s.heapAlloc (.data tagNil (Fields.fromSlice [])) with
  | (.error e, s') => (.error e, s')
  | (.ok nil, s') => reportLimit (buildList elems nil s')

/-- `ensure_can_allocate_bytes`. -/
def ensureCanAllocateBytes (s : Store) (attempted : ℕ) : Except HeapLimitExceeded Unit :=
  match s.budgets.memory with
  | none => .ok ()
  | some b =>
    if b.limit < satAdd b.used attempted then .error (.bytes b.used b.limit attempted) else .ok ()

/-- `check_value_vec_capacity`. -/
def checkValueVecCapacity (s : Store) (context : String) (len : ℕ) : Except String Unit :=
  if u64Size ≤ len * valueSize then .error (context ++ ": value vector size overflow")
  else
    match s.ensureCanAllocateBytes (len * valueSize) with
    | .error e => .error (context ++ ": " ++ e.message)
    | .ok () => .ok ()

/-- A constructor of `Json` around its argument. -/
def wrapData (tag : ℕ) : Except String Value × Store → Except String Value × Store
  | (.error e, s) => (.error e, s)
  | (.ok v, s) => s.heapAlloc (.data tag (Fields.fromSlice [v]))

/-- The list of some values, once they are there. -/
def listOf : Except String (List Value) × Store → Except String Value × Store
  | (.error e, s) => (.error e, s)
  | (.ok vs, s) => s.allocList vs

mutual

/-- `json_to_hiko`. -/
def jsonToHiko : Json → Store → Except String Value × Store
  | .null, s => s.heapAlloc (.data tagJNull (Fields.fromSlice []))
  | .bool b, s => s.heapAlloc (.data tagJBool (Fields.fromSlice [.bool b]))
  | .number n, s =>
    match n.asI64 with
    | some i => s.heapAlloc (.data tagJInt (Fields.fromSlice [.int i]))
    | none =>
      match n.asF64 with
      | some f => s.heapAlloc (.data tagJFloat (Fields.fromSlice [.float f]))
      | none => s.heapAlloc (.data tagJNull (Fields.fromSlice []))
  | .string str, s => wrapData tagJStr (s.heapAlloc (.string str))
  | .array items, s =>
    match s.checkValueVecCapacity "json_parse" items.length with
    | .error e => (.error e, s)
    | .ok () => wrapData tagJArray (listOf (jsonItems items s))
  | .object entries, s =>
    match s.checkValueVecCapacity "json_parse" entries.length with
    | .error e => (.error e, s)
    | .ok () => wrapData tagJObject (listOf (jsonEntries entries s))

/-- The items of an array, from left to right. -/
def jsonItems : List Json → Store → Except String (List Value) × Store
  | [], s => (.ok [], s)
  | j :: js, s =>
    match jsonToHiko j s with
    | (.error e, s₁) => (.error e, s₁)
    | (.ok v, s₁) =>
      match jsonItems js s₁ with
      | (.error e, s₂) => (.error e, s₂)
      | (.ok vs, s₂) => (.ok (v :: vs), s₂)

/-- The entries of an object, from left to right: the key, the value, and their pair. -/
def jsonEntries : List (String × Json) → Store → Except String (List Value) × Store
  | [], s => (.ok [], s)
  | (k, j) :: rest, s =>
    match s.heapAlloc (.string k) with
    | (.error e, s₁) => (.error e, s₁)
    | (.ok key, s₁) =>
      match jsonToHiko j s₁ with
      | (.error e, s₂) => (.error e, s₂)
      | (.ok val, s₂) =>
        match s₂.heapAlloc (.tuple (Fields.fromSlice [key, val])) with
        | (.error e, s₃) => (.error e, s₃)
        | (.ok pair, s₃) =>
          match jsonEntries rest s₃ with
          | (.error e, s₄) => (.error e, s₄)
          | (.ok pairs, s₄) => (.ok (pair :: pairs), s₄)

end

end Store

/-! ## The form of the datatype -/

mutual

/-- A document in the form of the `Json` datatype, as a message of what the heap then holds. A
number that is neither an integer nor a float is `JNull`. -/
def Json.form : Json → SendableValue
  | .null => .data tagJNull []
  | .bool b => .data tagJBool [.bool b]
  | .number n =>
    match n.asI64, n.asF64 with
    | some i, _ => .data tagJInt [.int i]
    | none, some f => .data tagJFloat [.float f]
    | none, none => .data tagJNull []
  | .string s => .data tagJStr [.string s]
  | .array items => .data tagJArray [.list (Json.forms items)]
  | .object entries => .data tagJObject [.list (Json.entryForms entries)]

/-- The forms of several documents. -/
def Json.forms : List Json → List SendableValue
  | [] => []
  | j :: js => j.form :: Json.forms js

/-- The forms of entries: pairs of a key and a document. -/
def Json.entryForms : List (String × Json) → List SendableValue
  | [] => []
  | (k, j) :: rest => .tuple [.string k, j.form] :: Json.entryForms rest

end

theorem forms_length : ∀ js : List Json, (Json.forms js).length = js.length
  | [] => by simp [Json.forms]
  | j :: js => by simp [Json.forms, forms_length js]

theorem entryForms_length : ∀ es : List (String × Json), (Json.entryForms es).length = es.length
  | [] => by simp [Json.entryForms]
  | (k, j) :: es => by simp [Json.entryForms, entryForms_length es]

/-! ### A blocking call gives this form -/

section Blocking

variable {s : Store} {k j : ℕ} {t : ValueTree}

theorem ArrivesAs.report {r : Except HeapLimitExceeded Value × Store} (h : ArrivesAs s r k j t) :
    ArrivesAs s (Store.reportLimit r) k j t := by
  obtain ⟨v, s', rfl, hrest⟩ := h
  exact ⟨v, s', rfl, hrest⟩

/-- A constructor with at most two arguments. -/
theorem arrivesAs_heapAlloc_data (tag : ℕ) (vs : List Value) (ts : List ValueTree)
    (hfree : s.heap.FreeOk) (hfits : s.Fits (1 + k) (heapObjectSize + j))
    (hlen : vs.length ≤ 2) (hvs : UnfoldsAll s.heap ts vs) :
    ArrivesAs s (s.heapAlloc (.data tag (Fields.fromSlice vs))) k j (.data tag ts) := by
  apply ArrivesAs.report
  apply arrivesAs_alloc _ hfree
  · rw [add_comm k 1]
    have hbytes : (HeapObject.data tag (Fields.fromSlice vs)).estimatedBytes = heapObjectSize := by
      simp [HeapObject.estimatedBytes, HeapObject.spilledValueBytes, Fields.spilled,
        Fields.fromSlice, Fields.inlineCapacity, hlen]
    rwa [hbytes]
  · intro h r hext hobj
    simp only [Unfolds]
    exact ⟨r, _, rfl, hobj, hvs.extends hext _ _⟩

/-- A pair. -/
theorem arrivesAs_heapAlloc_pair {v v' : Value} {t t' : ValueTree} (hfree : s.heap.FreeOk)
    (hfits : s.Fits (1 + k) (heapObjectSize + j)) (hv : Unfolds s.heap t v)
    (hv' : Unfolds s.heap t' v') :
    ArrivesAs s (s.heapAlloc (.tuple (Fields.fromSlice [v, v']))) k j (.tuple [t, t']) := by
  apply ArrivesAs.report
  apply arrivesAs_alloc _ hfree
  · rw [add_comm k 1]
    exact hfits
  · intro h r hext hobj
    simp only [Unfolds, UnfoldsAll]
    exact ⟨r, _, rfl, hobj, v, [v'], rfl, hv.extends hext _ _, v', [], rfl,
      hv'.extends hext _ _, rfl⟩

theorem arrivesAs_heapAlloc_string {str : String} (hfree : s.heap.FreeOk)
    (hfits : s.Fits (1 + k) ((HeapObject.string str).estimatedBytes + j)) :
    ArrivesAs s (s.heapAlloc (.string str)) k j (.string str) := by
  apply ArrivesAs.report
  apply arrivesAs_alloc _ hfree
  · rwa [add_comm k 1]
  · intro h r hext hobj
    simp only [Unfolds]
    exact ⟨r, rfl, hobj⟩

theorem arrivesAs_wrapData {r : Except String Value × Store} {tag : ℕ}
    (h : ArrivesAs s r (1 + k) (heapObjectSize + j) t) :
    ArrivesAs s (Store.wrapData tag r) k j (.data tag [t]) := by
  obtain ⟨v, s₁, rfl, hfree, hfits, hext, hv⟩ := h
  obtain ⟨w, s₂, heq, hfree', hfits', hext', hw⟩ :=
    arrivesAs_heapAlloc_data tag [v] [t] hfree hfits (by simp)
      (by simpa [UnfoldsAll] using hv)
  exact ⟨w, s₂, heq, hfree', hfits', hext.trans hext', hw⟩

/-- The list of some values: the empty list, then the cells. -/
theorem arrivesAs_listOf {r : Except String (List Value) × Store} {ts : List ValueTree} {n : ℕ}
    (hn : ts.length = n)
    (h : AllArriveAs s r (n + 1 + k) ((n + 1) * heapObjectSize + j) ts) :
    ArrivesAs s (Store.listOf r) k j (listTree ts) := by
  obtain ⟨vs, s₁, rfl, hfree, hfits, hext, hvs⟩ := h
  have hlen : vs.length = n := hvs.length.trans hn
  have hnil := arrivesAs_heapAlloc_data (s := s₁) (k := n + k) (j := n * heapObjectSize + j)
    tagNil [] [] hfree (by
      rwa [show 1 + (n + k) = n + 1 + k by omega,
        show heapObjectSize + (n * heapObjectSize + j) = (n + 1) * heapObjectSize + j by
          rw [Nat.add_mul]; omega]) (by simp) (by simp [UnfoldsAll])
  obtain ⟨nil, s₂, halloc, hfree₂, hfits₂, hext₂, hnil⟩ := hnil
  rw [← hlen] at hfits₂
  obtain ⟨v, s₃, hlist, hfree₃, hfits₃, hext₃, hv⟩ :=
    (arrivesAs_buildList hfree₂ hfits₂ (hvs.extends hext₂ _ _) hnil).report
  refine ⟨v, s₃, ?_, hfree₃, hfits₃, hext.trans (hext₂.trans hext₃), hv⟩
  simp only [Store.listOf, Store.allocList, halloc, hlist]

/-- A vector of as many values as there is room for objects. -/
theorem checkValueVecCapacity_of_fits {context : String} {n objects bytes : ℕ}
    (hbytes : n * heapObjectSize ≤ bytes) (hobjects : n ≤ objects) (hfits : s.Fits objects bytes) :
    s.checkValueVecCapacity context n = .ok () := by
  have hslots := hfits.slots
  have hvalue : n * valueSize ≤ n * heapObjectSize := Nat.mul_le_mul_left n (by decide)
  have hsmall : n * valueSize < u64Size := by
    have hu : u32Size * valueSize < u64Size := by decide
    have : n * valueSize ≤ u32Size * valueSize := Nat.mul_le_mul_right _ (by omega)
    omega
  rw [Store.checkValueVecCapacity, if_neg (by omega), Store.ensureCanAllocateBytes]
  cases hb : s.budgets.memory with
  | none => rfl
  | some b =>
    obtain ⟨hlt, hle⟩ := hfits.memory b hb
    have : ¬ b.limit < satAdd b.used (n * valueSize) := by
      simp only [satAdd]
      omega
    simp [this]

theorem containerBytes_of_le {n : ℕ} (hn : n ≤ 2) : containerBytes n = heapObjectSize := by
  simp [containerBytes, HeapObject.spilledValueBytes, Fields.spilled, Fields.inlineCapacity, hn]

/-- The room that a constructor around a list takes. -/
theorem fits_listForm {tag n : ℕ} {ms : List SendableValue} (hn : ms.length = n)
    (hfits : s.Fits ((SendableValue.data tag [.list ms]).objects + k)
      ((SendableValue.data tag [.list ms]).heapBytes + j)) :
    s.Fits (SendableValue.objectsOf ms + (n + 1 + (1 + k)))
      (SendableValue.heapBytesOf ms + ((n + 1) * heapObjectSize + (heapObjectSize + j))) := by
  simp only [SendableValue.objects, SendableValue.objectsOf, SendableValue.heapBytes,
    SendableValue.heapBytesOf, List.length_singleton, containerBytes_of_le (by omega : 1 ≤ 2), hn,
    add_zero, add_assoc] at hfits
  simpa only [add_assoc] using hfits

/-- A constructor around a scalar. -/
theorem arrivesAs_scalarForm {tag : ℕ} {m : SendableValue} {v : Value} (hfree : s.heap.FreeOk)
    (hfits : s.Fits ((SendableValue.data tag [m]).objects + k)
      ((SendableValue.data tag [m]).heapBytes + j))
    (hm : m.tree = .scalar v) (hv : v.ref? = none) (hobjects : m.objects = 0)
    (hbytes : m.heapBytes = 0) :
    ArrivesAs s (s.heapAlloc (.data tag (Fields.fromSlice [v]))) k j
      (SendableValue.data tag [m]).tree := by
  rw [SendableValue.tree, SendableValue.trees, SendableValue.trees, hm]
  simp only [SendableValue.objects, SendableValue.heapBytes, SendableValue.objectsOf,
    SendableValue.heapBytesOf, List.length_singleton, containerBytes_of_le (by omega : 1 ≤ 2),
    hobjects, hbytes, zero_add] at hfits
  exact arrivesAs_heapAlloc_data _ _ _ hfree hfits (by simp) (by simp [UnfoldsAll, Unfolds, hv])

mutual

/-- A blocking call gives the form of the datatype. -/
theorem jsonToHiko_spec : ∀ (doc : Json) (s : Store) (k j : ℕ), s.heap.FreeOk →
    s.Fits (doc.form.objects + k) (doc.form.heapBytes + j) →
    ArrivesAs s (Store.jsonToHiko doc s) k j doc.form.tree
  | .null, s, k, j, hfree, hfits => by
    rw [Json.form] at hfits ⊢
    rw [Store.jsonToHiko, SendableValue.tree, SendableValue.trees]
    simp only [SendableValue.objects, SendableValue.heapBytes, SendableValue.objectsOf,
      SendableValue.heapBytesOf, List.length_nil, containerBytes_of_le (Nat.zero_le 2),
      zero_add] at hfits
    exact arrivesAs_heapAlloc_data _ _ _ hfree hfits (by simp) (by simp [UnfoldsAll])
  | .bool b, s, k, j, hfree, hfits => by
    rw [Json.form] at hfits ⊢
    rw [Store.jsonToHiko]
    exact arrivesAs_scalarForm hfree hfits (by simp [SendableValue.tree]) rfl rfl rfl
  | .number n, s, k, j, hfree, hfits => by
    rw [Json.form] at hfits ⊢
    rw [Store.jsonToHiko]
    cases hi : n.asI64 with
    | some i =>
      simp only [hi] at hfits ⊢
      exact arrivesAs_scalarForm hfree hfits (by simp [SendableValue.tree]) rfl rfl rfl
    | none =>
      cases hf : n.asF64 with
      | some f =>
        simp only [hi, hf] at hfits ⊢
        exact arrivesAs_scalarForm hfree hfits (by simp [SendableValue.tree]) rfl rfl rfl
      | none =>
        simp only [hi, hf] at hfits ⊢
        rw [SendableValue.tree, SendableValue.trees]
        simp only [SendableValue.objects, SendableValue.heapBytes, SendableValue.objectsOf,
          SendableValue.heapBytesOf, List.length_nil, containerBytes_of_le (Nat.zero_le 2),
          zero_add] at hfits
        exact arrivesAs_heapAlloc_data _ _ _ hfree hfits (by simp) (by simp [UnfoldsAll])
  | .string str, s, k, j, hfree, hfits => by
    rw [Json.form] at hfits ⊢
    rw [Store.jsonToHiko]
    simp only [SendableValue.tree, SendableValue.trees]
    simp only [SendableValue.objects, SendableValue.heapBytes, SendableValue.objectsOf,
      SendableValue.heapBytesOf, List.length_singleton, containerBytes_of_le (by omega : 1 ≤ 2),
      add_zero, add_assoc] at hfits
    exact arrivesAs_wrapData (arrivesAs_heapAlloc_string hfree hfits)
  | .array items, s, k, j, hfree, hfits => by
    rw [Json.form] at hfits ⊢
    have hroom := fits_listForm (forms_length items) hfits
    rw [Store.jsonToHiko, checkValueVecCapacity_of_fits (Nat.le_trans ?_ (Nat.le_add_left _ _))
      ?_ hroom]
    · simp only [SendableValue.tree, SendableValue.trees]
      apply arrivesAs_wrapData
      apply arrivesAs_listOf (n := items.length) (by rw [trees_length, forms_length])
      exact jsonItems_spec items s _ _ hfree hroom
    · rw [Nat.add_mul]
      omega
    · omega
  | .object entries, s, k, j, hfree, hfits => by
    rw [Json.form] at hfits ⊢
    have hroom := fits_listForm (entryForms_length entries) hfits
    rw [Store.jsonToHiko, checkValueVecCapacity_of_fits (Nat.le_trans ?_ (Nat.le_add_left _ _))
      ?_ hroom]
    · simp only [SendableValue.tree, SendableValue.trees]
      apply arrivesAs_wrapData
      apply arrivesAs_listOf (n := entries.length) (by rw [trees_length, entryForms_length])
      exact jsonEntries_spec entries s _ _ hfree hroom
    · rw [Nat.add_mul]
      omega
    · omega

theorem jsonItems_spec : ∀ (js : List Json) (s : Store) (k j : ℕ), s.heap.FreeOk →
    s.Fits (SendableValue.objectsOf (Json.forms js) + k)
      (SendableValue.heapBytesOf (Json.forms js) + j) →
    AllArriveAs s (Store.jsonItems js s) k j (SendableValue.trees (Json.forms js))
  | [], s, k, j, hfree, hfits => by
    refine ⟨[], s, by simp [Store.jsonItems], hfree, ?_, .refl _, by
      simp [Json.forms, SendableValue.trees, UnfoldsAll]⟩
    simpa [Json.forms, SendableValue.objectsOf, SendableValue.heapBytesOf] using hfits
  | doc :: js, s, k, j, hfree, hfits => by
    simp only [Json.forms, SendableValue.objectsOf, SendableValue.heapBytesOf, add_assoc] at hfits
    obtain ⟨v, s₁, hfirst, hfree₁, hfits₁, hext₁, hv⟩ := jsonToHiko_spec doc s _ _ hfree hfits
    obtain ⟨vs, s₂, hrest, hfree₂, hfits₂, hext₂, hvs⟩ := jsonItems_spec js s₁ k j hfree₁ hfits₁
    refine ⟨v :: vs, s₂, ?_, hfree₂, hfits₂, hext₁.trans hext₂, ?_⟩
    · simp only [Store.jsonItems, hfirst, hrest]
    · simp only [Json.forms, SendableValue.trees, UnfoldsAll]
      exact ⟨v, vs, rfl, hv.extends hext₂ _ _, hvs⟩

theorem jsonEntries_spec : ∀ (es : List (String × Json)) (s : Store) (k j : ℕ), s.heap.FreeOk →
    s.Fits (SendableValue.objectsOf (Json.entryForms es) + k)
      (SendableValue.heapBytesOf (Json.entryForms es) + j) →
    AllArriveAs s (Store.jsonEntries es s) k j (SendableValue.trees (Json.entryForms es))
  | [], s, k, j, hfree, hfits => by
    refine ⟨[], s, by simp [Store.jsonEntries], hfree, ?_, .refl _, by
      simp [Json.entryForms, SendableValue.trees, UnfoldsAll]⟩
    simpa [Json.entryForms, SendableValue.objectsOf, SendableValue.heapBytesOf] using hfits
  | (key, doc) :: es, s, k, j, hfree, hfits => by
    simp only [Json.entryForms, SendableValue.objectsOf, SendableValue.heapBytesOf,
      SendableValue.objects, SendableValue.heapBytes, List.length_cons, List.length_nil, zero_add,
      containerBytes_of_le (Nat.le_refl 2), add_zero, Nat.reduceAdd, add_assoc] at hfits
    obtain ⟨v₁, s₁, hkey, hfree₁, hfits₁, hext₁, hv₁⟩ := arrivesAs_heapAlloc_string hfree hfits
    obtain ⟨v₂, s₂, hval, hfree₂, hfits₂, hext₂, hv₂⟩ := jsonToHiko_spec doc s₁ _ _ hfree₁ hfits₁
    obtain ⟨v₃, s₃, hpair, hfree₃, hfits₃, hext₃, hv₃⟩ :=
      arrivesAs_heapAlloc_pair hfree₂ hfits₂ (hv₁.extends hext₂ _ _) hv₂
    obtain ⟨vs, s₄, hrest, hfree₄, hfits₄, hext₄, hvs⟩ := jsonEntries_spec es s₃ k j hfree₃ hfits₃
    refine ⟨v₃ :: vs, s₄, ?_, hfree₄, hfits₄,
      hext₁.trans (hext₂.trans (hext₃.trans hext₄)), ?_⟩
    · simp only [Store.jsonEntries, hkey, hval, hpair, hrest]
    · simp only [Json.entryForms, SendableValue.trees, SendableValue.tree, UnfoldsAll]
      exact ⟨v₃, vs, rfl, hv₃.extends hext₄ _ _, hvs⟩

end

end Blocking

/-! ## The two bodies -/

/-- Both calls give values that unfold to one tree, or both fail. -/
def SameBody : Except String Value × Store → Except String Value × Store → Prop
  | (.ok v, s), (.ok v', s') => ∃ t, Unfolds s.heap t v ∧ Unfolds s'.heap t v'
  | (.error _, _), (.error _, _) => True
  | _, _ => False

/-- The heap has room for what either call builds. -/
structure EnoughHeap (doc : Json) (s : Store) : Prop where
  free : s.heap.FreeOk
  blocking : s.Fits doc.form.objects doc.form.heapBytes
  async : ∀ m, jsonValueToSendable doc = .ok m → s.Fits m.objects m.heapBytes

theorem listTree_ne_data {ts : List ValueTree} {tag : ℕ} {t : ValueTree} :
    listTree ts ≠ .data tag [t] := by
  cases ts <;> simp [listTree]

/-- No message of a document has the form of the datatype: it has no constructor of its own. -/
theorem jsonValueToSendable_tree_ne {doc : Json} {m : SendableValue}
    (h : jsonValueToSendable doc = .ok m) : m.tree ≠ doc.form.tree := by
  cases doc with
  | null | bool | string =>
    rw [jsonValueToSendable] at h
    cases h
    simp [Json.form, SendableValue.tree]
  | number n =>
    rw [jsonValueToSendable] at h
    cases hi : n.asI64 with
    | some i =>
      simp only [hi] at h
      cases h
      simp [Json.form, hi, SendableValue.tree]
    | none =>
      cases hf : n.asF64 with
      | some f =>
        simp only [hi, hf] at h
        cases h
        simp [Json.form, hi, hf, SendableValue.tree]
      | none =>
        simp only [hi, hf] at h
        cases h
  | array items =>
    rw [jsonValueToSendable] at h
    split at h
    · cases h
    · cases h
      simp only [Json.form, SendableValue.tree, SendableValue.trees]
      exact listTree_ne_data
  | object entries =>
    rw [jsonValueToSendable] at h
    split at h
    · cases h
    · cases h
      simp only [Json.form, SendableValue.tree, SendableValue.trees]
      exact listTree_ne_data

/-- What the two calls give differs for every document: where the threaded runtime gives a value,
it is not in the form of the datatype, and where it fails, the blocking call does not. -/
theorem not_sameBody {doc : Json} {s s' : Store} (h : EnoughHeap doc s) (h' : EnoughHeap doc s') :
    ¬ SameBody (s.asyncBody doc) (s'.jsonToHiko doc) := by
  obtain ⟨w, s₂, hblocking, -, -, -, hw⟩ :=
    jsonToHiko_spec doc s' 0 0 h'.free (by simpa using h'.blocking)
  rw [hblocking, Store.asyncBody]
  cases hm : jsonValueToSendable doc with
  | error e => exact id
  | ok m =>
    obtain ⟨v, s₁, hasync, -, -, -, hv⟩ :=
      (deserialize_spec m s 0 0 h.free (by simpa using h.async m hm)).report
    simp only [hasync]
    -- each value has one tree, and the trees differ
    rintro ⟨t, ht, ht'⟩
    apply jsonValueToSendable_tree_ne hm
    rw [← unfolds_unique t _ v ht hv, unfolds_unique t _ w ht' hw]

/-- A store without limits and without objects. -/
def freshStore : Store := ⟨Heap.new, ⟨none, none, []⟩⟩

theorem freshStore_enoughHeap_null : EnoughHeap .null freshStore where
  free := ⟨by simp [freshStore, Heap.new], by simp [freshStore, Heap.new]⟩
  blocking := ⟨by simp [freshStore, Heap.new], by simp [freshStore], by decide⟩
  async := by
    rintro m ⟨⟩
    exact ⟨by simp [freshStore, Heap.new], by simp [freshStore], by decide⟩

/-- `{"a": [null, true]}`. -/
def nestedDoc : Json := .object [("a", .array [.null, .bool true])]

theorem freshStore_enoughHeap_nested : EnoughHeap nestedDoc freshStore where
  free := ⟨by simp [freshStore, Heap.new], by simp [freshStore, Heap.new]⟩
  blocking := ⟨by simp [freshStore, Heap.new], by simp [freshStore], by decide +kernel⟩
  async := by
    intro m hm
    obtain rfl := Except.ok.inj hm
    exact ⟨by simp [freshStore, Heap.new], by simp [freshStore], by decide +kernel⟩

/-- The bodies of a nested document. -/
theorem not_sameBody_nested :
    EnoughHeap nestedDoc freshStore ∧
      ¬ SameBody (freshStore.asyncBody nestedDoc) (freshStore.jsonToHiko nestedDoc) :=
  ⟨freshStore_enoughHeap_nested,
    not_sameBody freshStore_enoughHeap_nested freshStore_enoughHeap_nested⟩

/-- The document `null` is the unit value in the threaded runtime, and `JNull` for a blocking
call. -/
theorem bodies_of_null :
    ¬ ∀ doc s, EnoughHeap doc s → SameBody (s.asyncBody doc) (s.jsonToHiko doc) := by
  intro hall
  have hsame := hall .null freshStore freshStore_enoughHeap_null
  have hasync : freshStore.asyncBody .null = (.ok .unit, freshStore) := rfl
  rw [hasync] at hsame
  obtain ⟨t, ht, ht'⟩ := hsame
  rw [scalar_of_unfolds ht rfl] at ht'
  exact not_unfolds_scalar_heap _ _ ht'

end Hiko
