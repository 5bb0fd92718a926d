import Mathlib
import Hiko.Builtins.JsonText

/-!
# The JSON text round trip

What `json_to_string` writes is standard JSON, and `json_parse` gives the value back, with the
entries of its objects in key order, exactly if it is not nested too deep for the reader and its
floats are read back as floats.

## Main results

* `jsonToString_text`: what is written is the text of the value's syntax
* `toSyntax_valid`: that text is standard JSON
* `jsonRoundTrip_iff`: when the value comes back
* `jsonRoundTrip_depth`: a value of 128 nested arrays does not
-/

namespace Hiko

open Lib

/-! ## Strings -/

theorem escapeChar_char (c : Char) : (escapeChar c).char = c := by
  unfold escapeChar
  repeat' split
  all_goals try rfl
  next hlt =>
    have hnat : c.toNat < 32 := hlt
    have hcode : c.toNat / 16 % 16 * 16 + c.toNat % 16 = c.toNat := by omega
    simp only [JsonChar.char, Fin.ofNat, hcode]
    exact Char.ofNat_toNat c

theorem escapeChar_valid (c : Char) : (escapeChar c).Valid := by
  unfold escapeChar
  iterate 7
    split
    · next h =>
      subst h
      exact (show (_, _) ∈ JsonChar.letters by decide)
  split
  · exact trivial
  · next hquote hback _ _ _ _ _ hle => exact ⟨not_lt.mp hle, hquote, hback⟩

/-- **An escaped string denotes the string.** -/
theorem unquoted_escape (s : String) : JsonSyntax.unquoted (s.toList.map escapeChar) = s := by
  have hchars : (s.toList.map escapeChar).map (·.char) = s.toList := by
    rw [List.map_map]
    exact List.map_id'' escapeChar_char s.toList
  rw [JsonSyntax.unquoted, hchars, String.ofList_toList]

/-! ## What is written -/

section Written

variable {host : JsonHost} {s : Store} {h : Heap} {fuel : ℕ}

/-- A list of the heap is collected. -/
theorem collectList_ok {ts : List ValueTree} {v : Value} {res : Except String (List Value)}
    (hv : Unfolds h (listTree ts) v) (hc : h.collectList fuel v = some res) :
    ∃ vs, res = .ok vs ∧ UnfoldsAll h ts vs := by
  induction ts generalizing v fuel res with
  | nil =>
    rw [listTree, List.foldr_nil, Unfolds] at hv
    obtain ⟨r, fields, rfl, ho, hall⟩ := hv
    rw [UnfoldsAll] at hall
    rw [Heap.collectList, get_of_object ho] at hc
    simp only [hall] at hc
    cases hc
    exact ⟨[], rfl, by rw [UnfoldsAll]⟩
  | cons t ts ih =>
    rw [listTree, List.foldr_cons, Unfolds] at hv
    obtain ⟨r, fields, rfl, ho, hall⟩ := hv
    rw [UnfoldsAll] at hall
    obtain ⟨item, tail, hvals, hitem, htail⟩ := hall
    rw [UnfoldsAll] at htail
    obtain ⟨rest, empty, rfl, hrest, hnil⟩ := htail
    rw [UnfoldsAll] at hnil
    subst hnil
    rw [Heap.collectList, get_of_object ho] at hc
    simp only [hvals, if_true] at hc
    cases fuel with
    | zero => cases hc
    | succ fuel =>
      obtain ⟨res', hres', rfl⟩ := Option.map_eq_some_iff.mp hc
      obtain ⟨vs, rfl, hvs⟩ := ih hrest hres'
      exact ⟨item :: vs, rfl, by rw [UnfoldsAll]; exact ⟨item, vs, rfl, hitem, hvs⟩⟩

theorem checkJsonOutput_ok {context output text : String}
    (hout : s.checkJsonOutput context output = .ok text) : text = output := by
  unfold Store.checkJsonOutput at hout
  split at hout
  · cases hout
  · exact (Except.ok.inj hout).symm

theorem jsonJoin_ok {opening closing text : String} {res : Option (Except String (List String))}
    (hjoin : jsonJoin s opening closing res = some (.ok text)) :
    ∃ texts, res = some (.ok texts) ∧ text = opening ++ ",".intercalate texts ++ closing := by
  unfold jsonJoin at hjoin
  split at hjoin
  · cases hjoin
  · cases hjoin
  · next texts => exact ⟨texts, rfl, checkJsonOutput_ok (Option.some.inj hjoin)⟩

/-- The items of an array or object, and the texts that are written for them. -/
theorem jsonContainer_ok {ts : List ValueTree} {tag levels : ℕ} {v : Value} {text : String}
    (htag : tag = tagJArray ∨ tag = tagJObject)
    (hv : Unfolds s.heap (.data tag [listTree ts]) v)
    (hw : jsonStringAtDepth host s fuel levels v = some (.ok text)) :
    ∃ left vs texts, levels = left + 1 ∧ UnfoldsAll s.heap ts vs ∧
      (tag = tagJArray → walkLeft (jsonStringAtDepth host s fuel left) vs = some (.ok texts) ∧
        text = "[" ++ ",".intercalate texts ++ "]") ∧
      (tag = tagJObject →
        walkLeft (jsonEntry s (jsonStringAtDepth host s fuel left)) vs = some (.ok texts) ∧
          text = "\x7b" ++ ",".intercalate texts ++ "\x7d") := by
  rw [Unfolds] at hv
  obtain ⟨r, fields, rfl, ho, hall⟩ := hv
  rw [UnfoldsAll] at hall
  obtain ⟨list, empty, hvals, hlist, hnil⟩ := hall
  rw [UnfoldsAll] at hnil
  subst hnil
  rw [jsonStringAtDepth.eq_def] at hw
  simp only [get_of_object ho, if_pos htag, hvals, List.head?_cons, Option.getD_some] at hw
  cases levels with
  | zero => cases hw -- no level is left for a container
  | succ left =>
    dsimp only at hw
    split at hw
    · cases hw
    · cases hw
    · next vs hvs =>
      obtain ⟨vs', hok, hall⟩ := collectList_ok hlist hvs
      obtain rfl := Except.ok.inj hok
      split at hw
      · cases hw
      · split at hw
        · next harray =>
          obtain ⟨texts, htexts, rfl⟩ := jsonJoin_ok hw
          refine ⟨left, vs, texts, rfl, hall, fun _ => ⟨htexts, rfl⟩, fun hobject => ?_⟩
          rw [harray] at hobject
          cases hobject
        · next harray =>
          obtain ⟨texts, htexts, rfl⟩ := jsonJoin_ok hw
          exact ⟨left, vs, texts, rfl, hall, fun h => absurd h harray, fun _ => ⟨htexts, rfl⟩⟩

/-- A value without nested ones. -/
theorem jsonScalar_ok {tag levels : ℕ} {ts : List ValueTree} {v : Value} {text : String}
    (htag : ¬ (tag = tagJArray ∨ tag = tagJObject)) (hv : Unfolds s.heap (.data tag ts) v)
    (hw : jsonStringAtDepth host s fuel levels v = some (.ok text)) :
    ∃ fields, UnfoldsAll s.heap ts fields.vals ∧ jsonScalar host s tag fields = .ok text := by
  rw [Unfolds] at hv
  obtain ⟨r, fields, rfl, ho, hall⟩ := hv
  rw [jsonStringAtDepth.eq_def] at hw
  simp only [get_of_object ho, if_neg htag] at hw
  exact ⟨fields, hall, Option.some.inj hw⟩

theorem vals_scalar {w : Value} {vs : List Value} (hall : UnfoldsAll h [.scalar w] vs) :
    vs = [w] := by
  rw [UnfoldsAll] at hall
  obtain ⟨v, rest, rfl, hv, hrest⟩ := hall
  rw [Unfolds] at hv
  rw [UnfoldsAll] at hrest
  rw [hv.1, hrest]

/-- An entry of an object: the key, and what is written for the value. -/
theorem jsonEntry_ok {write : Value → Option (Except String String)} {key text : String}
    {t : ValueTree} {v : Value} (hv : Unfolds s.heap (.tuple [.string key, t]) v)
    (hw : jsonEntry s write v = some (.ok text)) :
    ∃ val valText, Unfolds s.heap t val ∧ write val = some (.ok valText) ∧
      text = jsonEscape key ++ ":" ++ valText := by
  rw [Unfolds] at hv
  obtain ⟨r, fields, rfl, ho, hall⟩ := hv
  rw [UnfoldsAll] at hall
  obtain ⟨k, tail, hvals, hkey, htail⟩ := hall
  rw [UnfoldsAll] at htail
  obtain ⟨val, rest, rfl, hval, hrest⟩ := htail
  rw [UnfoldsAll] at hrest
  subst hrest
  rw [Unfolds] at hkey
  obtain ⟨r', rfl, ho'⟩ := hkey
  simp only [jsonEntry, get_of_object ho, hvals, jsonKey, get_of_object ho'] at hw
  obtain ⟨res, hres, hmap⟩ := Option.map_eq_some_iff.mp hw
  cases res with
  | error e => cases hmap
  | ok valText => exact ⟨val, valText, hval, hres, (Except.ok.inj hmap).symm⟩

mutual

/-- **What is written is the text of the value's syntax.** -/
theorem jsonStringAtDepth_text : ∀ (j : JsonValue) (levels : ℕ) (v : Value) (text : String),
    Unfolds s.heap j.tree v → jsonStringAtDepth host s fuel levels v = some (.ok text) →
    text = (j.toSyntax host.displayF64).text
  | .null, levels, v, text, hv, hw => by
    rw [JsonValue.tree] at hv
    obtain ⟨fields, -, hs⟩ := jsonScalar_ok (by decide) hv hw
    exact checkJsonOutput_ok hs
  | .bool b, levels, v, text, hv, hw => by
    rw [JsonValue.tree] at hv
    obtain ⟨fields, hall, hs⟩ := jsonScalar_ok (by decide) hv hw
    rw [jsonScalar, if_neg (by decide), if_pos rfl, vals_scalar hall] at hs
    rw [JsonValue.toSyntax, JsonSyntax.text]
    exact checkJsonOutput_ok hs
  | .int n, levels, v, text, hv, hw => by
    rw [JsonValue.tree] at hv
    obtain ⟨fields, hall, hs⟩ := jsonScalar_ok (by decide) hv hw
    rw [jsonScalar, if_neg (by decide), if_neg (by decide), if_pos rfl, vals_scalar hall] at hs
    rw [JsonValue.toSyntax, JsonSyntax.text]
    exact checkJsonOutput_ok hs
  | .float bits, levels, v, text, hv, hw => by
    rw [JsonValue.tree] at hv
    obtain ⟨fields, hall, hs⟩ := jsonScalar_ok (by decide) hv hw
    rw [jsonScalar, if_neg (by decide), if_neg (by decide), if_neg (by decide), if_pos rfl,
      vals_scalar hall] at hs
    rw [JsonValue.toSyntax, JsonSyntax.text]
    exact checkJsonOutput_ok hs
  | .str str, levels, v, text, hv, hw => by
    rw [JsonValue.tree] at hv
    obtain ⟨fields, hall, hs⟩ := jsonScalar_ok (by decide) hv hw
    rw [UnfoldsAll] at hall
    obtain ⟨v', rest, hvals, hstr, -⟩ := hall
    rw [Unfolds] at hstr
    obtain ⟨r, rfl, ho⟩ := hstr
    rw [jsonScalar, if_neg (by decide), if_neg (by decide), if_neg (by decide), if_neg (by decide),
      if_pos rfl, hvals] at hs
    simp only [List.head?_cons, get_of_object ho] at hs
    rw [JsonValue.toSyntax, JsonSyntax.text]
    exact checkJsonOutput_ok hs
  | .array items, levels, v, text, hv, hw => by
    rw [JsonValue.tree] at hv
    obtain ⟨left, vs, texts, -, hall, harray, -⟩ := jsonContainer_ok (.inl rfl) hv hw
    obtain ⟨htexts, rfl⟩ := harray rfl
    rw [jsonItems_texts items left vs texts hall htexts, JsonValue.toSyntax, JsonSyntax.text]
  | .object entries, levels, v, text, hv, hw => by
    rw [JsonValue.tree] at hv
    obtain ⟨left, vs, texts, -, hall, -, hobject⟩ := jsonContainer_ok (.inr rfl) hv hw
    obtain ⟨htexts, rfl⟩ := hobject rfl
    rw [jsonEntries_texts entries left vs texts hall htexts, JsonValue.toSyntax, JsonSyntax.text]

theorem jsonItems_texts : ∀ (js : List JsonValue) (left : ℕ) (vs : List Value)
    (texts : List String), UnfoldsAll s.heap (JsonValue.trees js) vs →
    walkLeft (jsonStringAtDepth host s fuel left) vs = some (.ok texts) →
    texts = JsonSyntax.texts (JsonValue.syntaxes host.displayF64 js)
  | [], left, vs, texts, hall, hw => by
    rw [JsonValue.trees, UnfoldsAll] at hall
    subst hall
    cases hw
    rw [JsonValue.syntaxes, JsonSyntax.texts]
  | j :: js, left, vs, texts, hall, hw => by
    rw [JsonValue.trees, UnfoldsAll] at hall
    obtain ⟨v, rest, rfl, hv, hrest⟩ := hall
    obtain ⟨e, -, he⟩ | ⟨t, ht, ⟨e, -, he⟩ | ⟨ts, hts, heq⟩⟩ := walkLeft_cons_cases hw
    · cases he
    · cases he
    · obtain rfl := Except.ok.inj heq
      rw [jsonStringAtDepth_text j left v t hv ht, jsonItems_texts js left rest ts hrest hts,
        JsonValue.syntaxes, JsonSyntax.texts]

theorem jsonEntries_texts : ∀ (es : List (String × JsonValue)) (left : ℕ) (vs : List Value)
    (texts : List String), UnfoldsAll s.heap (JsonValue.entryTrees es) vs →
    walkLeft (jsonEntry s (jsonStringAtDepth host s fuel left)) vs = some (.ok texts) →
    texts = JsonSyntax.entryTexts (JsonValue.entrySyntaxes host.displayF64 es)
  | [], left, vs, texts, hall, hw => by
    rw [JsonValue.entryTrees, UnfoldsAll] at hall
    subst hall
    cases hw
    rw [JsonValue.entrySyntaxes, JsonSyntax.entryTexts]
  | (key, j) :: es, left, vs, texts, hall, hw => by
    rw [JsonValue.entryTrees, UnfoldsAll] at hall
    obtain ⟨v, rest, rfl, hv, hrest⟩ := hall
    obtain ⟨e, -, he⟩ | ⟨t, ht, ⟨e, -, he⟩ | ⟨ts, hts, heq⟩⟩ := walkLeft_cons_cases hw
    · cases he
    · cases he
    · obtain rfl := Except.ok.inj heq
      obtain ⟨val, valText, hval, hval', rfl⟩ := jsonEntry_ok hv ht
      rw [jsonStringAtDepth_text j left val valText hval hval',
        jsonEntries_texts es left rest ts hrest hts, JsonValue.entrySyntaxes, JsonSyntax.entryTexts]
      rfl

end

end Written

theorem charge_store {s s' : HostStore} {builtin : String} {work : ℕ}
    (h : s.charge builtin work = .ok s') : s'.store = s.store := by
  unfold HostStore.charge at h
  split at h
  · next t ht =>
    obtain rfl := Except.ok.inj h
    unfold HostStore.chargeHostWork at ht
    split at ht
    · cases ht
      rfl
    · split at ht
      · cases ht
        rfl
      · cases ht
  · cases h

theorem heapAlloc_ok {s s' : Store} {obj : HeapObject} {w : Value} (hfree : s.heap.FreeOk)
    (h : s.heapAlloc obj = (.ok w, s')) (hsmall : s'.heap.Small) :
    s'.heap.FreeOk ∧ ∃ r, w = .heap r ∧ s'.heap.object? r.idx = some obj := by
  rcases Store.alloc_cases s obj with ⟨e, heq⟩ | ⟨budgets, -, -, heq⟩
  · simp [Store.heapAlloc, Store.allocValue, heq, Store.reportLimit] at h
  · simp only [Store.heapAlloc, Store.allocValue, heq, Store.reportLimit, Prod.mk.injEq,
      Except.ok.injEq] at h
    obtain ⟨rfl, rfl⟩ := h
    exact ⟨(hfree.place obj).1, _, rfl, hfree.object_place obj hsmall⟩

/-- **What `json_to_string` gives.** -/
theorem jsonToString_text {host : JsonHost} {fuel : ℕ} {j : JsonValue} {v w : Value}
    {s s' : HostStore} (hfree : s.store.heap.FreeOk) (hv : Unfolds s.store.heap j.tree v)
    (hw : jsonToString host fuel v s = some (.ok w, s')) (hsmall : s'.store.heap.Small) :
    s'.store.heap.FreeOk ∧ ∃ r, w = .heap r ∧
      s'.store.heap.object? r.idx = some (.string (j.toSyntax host.displayF64).text) := by
  unfold jsonToString at hw
  split at hw
  · cases hw
  · next s₁ hs₁ =>
    split at hw
    · cases hw
    · cases hw
    · next result hresult =>
      rw [charge_store hs₁] at hresult
      obtain rfl := jsonStringAtDepth_text j _ v result hv hresult
      split at hw
      · cases hw
      · next s₂ hs₂ =>
        obtain ⟨hres, rfl⟩ := Prod.mk.inj (Option.some.inj hw)
        have hstore : s₂.store = s.store := (charge_store hs₂).trans (charge_store hs₁)
        rw [← hstore] at hfree
        exact heapAlloc_ok hfree (Prod.ext hres rfl) hsmall

/-! ## Standard JSON -/

mutual

/-- **What is written is standard JSON.** -/
theorem toSyntax_valid {host : JsonHost}
    (hdisplay : host.DisplaysFloats) :
    ∀ j : JsonValue, j.AllFloats FiniteBits → (j.toSyntax host.displayF64).Valid
  | .null, _ | .bool _, _ => by
    rw [JsonValue.toSyntax]
    exact trivial
  | .int n, _ => isNumberText_int n.toInt
  | .float bits, hf => hdisplay bits hf
  | .str s, _ => by
    rw [JsonValue.toSyntax, JsonSyntax.Valid]
    intro c hc
    obtain ⟨c', -, rfl⟩ := List.mem_map.mp hc
    exact escapeChar_valid c'
  | .array items, hf => syntaxes_valid hdisplay items hf
  | .object entries, hf => entrySyntaxes_valid hdisplay entries hf

theorem syntaxes_valid {host : JsonHost}
    (hdisplay : host.DisplaysFloats) :
    ∀ js : List JsonValue, JsonValue.EveryFloat FiniteBits js →
      JsonSyntax.AllValid (JsonValue.syntaxes host.displayF64 js)
  | [], _ => trivial
  | j :: js, hf => ⟨toSyntax_valid hdisplay j hf.1, syntaxes_valid hdisplay js hf.2⟩

theorem entrySyntaxes_valid {host : JsonHost}
    (hdisplay : host.DisplaysFloats) :
    ∀ es : List (String × JsonValue), JsonValue.EntryFloats FiniteBits es →
      JsonSyntax.EntriesValid (JsonValue.entrySyntaxes host.displayF64 es)
  | [], _ => trivial
  | (key, j) :: es, hf => by
    refine ⟨fun c hc => ?_, toSyntax_valid hdisplay j hf.1, entrySyntaxes_valid hdisplay es hf.2⟩
    obtain ⟨c', -, rfl⟩ := List.mem_map.mp hc
    exact escapeChar_valid c'

end

mutual

/-- The text is nested as deep as the value. -/
theorem toSyntax_depth (host : JsonHost) : ∀ j : JsonValue,
    (j.toSyntax host.displayF64).depth = j.depth
  | .null | .bool _ | .int _ | .float _ | .str _ => rfl
  | .array items => congrArg (· + 1) (syntaxes_depth host items)
  | .object entries => congrArg (· + 1) (entrySyntaxes_depth host entries)

theorem syntaxes_depth (host : JsonHost) : ∀ js : List JsonValue,
    JsonSyntax.depths (JsonValue.syntaxes host.displayF64 js) = JsonValue.depths js
  | [] => rfl
  | j :: js => congrArg₂ max (toSyntax_depth host j) (syntaxes_depth host js)

theorem entrySyntaxes_depth (host : JsonHost) : ∀ es : List (String × JsonValue),
    JsonSyntax.entryDepths (JsonValue.entrySyntaxes host.displayF64 es) = JsonValue.entryDepths es
  | [] => rfl
  | (_, j) :: es => congrArg₂ max (toSyntax_depth host j) (entrySyntaxes_depth host es)

end

/-! ## What is read back -/

mutual

/-- The value of the datatype that a document is. -/
def Json.asValue : Json → JsonValue
  | .null => .null
  | .bool b => .bool b
  | .number n =>
    match n.asI64, n.asF64 with
    | some i, _ => .int i
    | none, some f => .float f
    | none, none => .null
  | .string s => .str s
  | .array items => .array (Json.asValues items)
  | .object entries => .object (Json.asEntries entries)

/-- The values of several documents. -/
def Json.asValues : List Json → List JsonValue
  | [] => []
  | doc :: docs => doc.asValue :: Json.asValues docs

/-- The values of entries. -/
def Json.asEntries : List (String × Json) → List (String × JsonValue)
  | [] => []
  | (key, doc) :: entries => (key, doc.asValue) :: Json.asEntries entries

end

theorem asEntries_eq (es : List (String × Json)) :
    Json.asEntries es = es.map fun e => (e.1, e.2.asValue) := by
  induction es with
  | nil => rfl
  | cons e es ih => rw [Json.asEntries, ih, List.map_cons]

mutual

/-- The form of a document is the tree of its value. -/
theorem form_tree : ∀ doc : Json, doc.form.tree = doc.asValue.tree
  | .null | .bool _ | .string _ => by
    simp [Json.form, Json.asValue, JsonValue.tree, SendableValue.tree, SendableValue.trees]
  | .number n => by
    cases hi : n.asI64 <;> cases hf : n.asF64 <;>
      simp [Json.form, Json.asValue, hi, hf, JsonValue.tree, SendableValue.tree,
        SendableValue.trees]
  | .array items => by
    simp [Json.form, Json.asValue, JsonValue.tree, SendableValue.tree, SendableValue.trees,
      forms_trees items]
  | .object entries => by
    simp [Json.form, Json.asValue, JsonValue.tree, SendableValue.tree, SendableValue.trees,
      entryForms_trees entries]

theorem forms_trees : ∀ docs : List Json,
    SendableValue.trees (Json.forms docs) = JsonValue.trees (Json.asValues docs)
  | [] => by simp [Json.forms, Json.asValues, JsonValue.trees, SendableValue.trees]
  | doc :: docs => by
    simp [Json.forms, Json.asValues, JsonValue.trees, SendableValue.trees, form_tree doc,
      forms_trees docs]

theorem entryForms_trees : ∀ es : List (String × Json),
    SendableValue.trees (Json.entryForms es) = JsonValue.entryTrees (Json.asEntries es)
  | [] => by simp [Json.entryForms, Json.asEntries, JsonValue.entryTrees, SendableValue.trees]
  | (key, doc) :: es => by
    simp [Json.entryForms, Json.asEntries, JsonValue.entryTrees, SendableValue.trees,
      SendableValue.tree, form_tree doc, entryForms_trees es]

end

theorem listTree_inj {ts ts' : List ValueTree} (h : listTree ts = listTree ts') : ts = ts' := by
  induction ts generalizing ts' with
  | nil =>
    cases ts' with
    | nil => rfl
    | cons t' ts' => simp [listTree, tagNil, tagCons] at h
  | cons t ts ih =>
    cases ts' with
    | nil => simp [listTree, tagNil, tagCons] at h
    | cons t' ts' =>
      simp only [listTree, List.foldr_cons, ValueTree.data.injEq, List.cons.injEq, true_and,
        and_true] at h
      rw [h.1, ih h.2]

mutual

/-- Values with the same tree are the same. -/
theorem tree_inj : ∀ a b : JsonValue, a.tree = b.tree → a = b
  | .null, b, h | .bool _, b, h | .int _, b, h | .float _, b, h | .str _, b, h => by
    cases b <;> simp_all [JsonValue.tree, tagJNull, tagJBool, tagJInt, tagJFloat, tagJStr,
      tagJArray, tagJObject]
  | .array items, b, h => by
    cases b with
    | array items' =>
      simp only [JsonValue.tree, ValueTree.data.injEq, List.cons.injEq, true_and, and_true] at h
      rw [trees_inj items items' (listTree_inj h)]
    | _ => simp [JsonValue.tree, tagJNull, tagJBool, tagJInt, tagJFloat, tagJStr, tagJArray,
        tagJObject] at h
  | .object entries, b, h => by
    cases b with
    | object entries' =>
      simp only [JsonValue.tree, ValueTree.data.injEq, List.cons.injEq, true_and, and_true] at h
      rw [entryTrees_inj entries entries' (listTree_inj h)]
    | _ => simp [JsonValue.tree, tagJNull, tagJBool, tagJInt, tagJFloat, tagJStr, tagJArray,
        tagJObject] at h

theorem trees_inj : ∀ as bs : List JsonValue, JsonValue.trees as = JsonValue.trees bs → as = bs
  | [], bs, h => by cases bs <;> simp_all [JsonValue.trees]
  | a :: as, bs, h => by
    cases bs with
    | nil => simp [JsonValue.trees] at h
    | cons b bs =>
      simp only [JsonValue.trees, List.cons.injEq] at h
      rw [tree_inj a b h.1, trees_inj as bs h.2]

theorem entryTrees_inj : ∀ as bs : List (String × JsonValue),
    JsonValue.entryTrees as = JsonValue.entryTrees bs → as = bs
  | [], bs, h => by cases bs <;> simp_all [JsonValue.entryTrees]
  | (key, a) :: as, bs, h => by
    cases bs with
    | nil => simp [JsonValue.entryTrees] at h
    | cons b bs =>
      simp only [JsonValue.entryTrees, List.cons.injEq, ValueTree.tuple.injEq,
        ValueTree.string.injEq, and_true] at h
      rw [tree_inj a b.2 h.1.2, entryTrees_inj as bs h.2, h.1.1]

end

theorem sortedEntries_eq (es : List (String × JsonValue)) :
    JsonValue.sortedEntries es = es.map fun e => (e.1, e.2.sorted) := by
  induction es with
  | nil => rfl
  | cons e es ih => rw [JsonValue.sortedEntries, ih, List.map_cons]

/-- The value of a document that is an object. -/
theorem asValue_object (es : List (String × Json)) :
    (Json.object (inKeyOrder es)).asValue = .object (inKeyOrder (Json.asEntries es)) := by
  rw [Json.asValue, asEntries_eq, asEntries_eq, inKeyOrder_map]

section ReadBack

variable {host : JsonHost}

/-- The value of a number's text. -/
theorem number_asValue {n : JsonNumber} {bits : UInt64} :
    (Json.number n).asValue = .float bits ↔ n.asI64 = none ∧ n.asF64 = some bits := by
  cases hi : n.asI64 <;> cases hf : n.asF64 <;> simp [Json.asValue, hi, hf]

/-- The text of an integer is read as this integer. -/
theorem int_read (hnumbers : host.ReadsIntegers) (i : Int64) :
    ∃ n, host.readNumber (toString i.toInt) = some n ∧ (Json.number n).asValue = .int i := by
  obtain ⟨n, hn, hi⟩ := (hnumbers (toString i.toInt) i).mpr rfl
  refine ⟨n, hn, ?_⟩
  cases hf : n.asF64 <;> simp [Json.asValue, hi, hf]

/-- **A float is kept exactly if its text is read as this float.** -/
theorem keepsFloat_iff (hnumbers : host.ReadsIntegers) {bits : UInt64} :
    host.KeepsFloat bits ↔ ∃ n, host.readNumber (host.displayF64 bits) = some n ∧
      (Json.number n).asValue = .float bits := by
  constructor
  · rintro ⟨hnot, n, hn, hf⟩
    refine ⟨n, hn, number_asValue.mpr ⟨?_, hf⟩⟩
    cases hi : n.asI64 with
    | none => rfl
    | some i => exact absurd ((hnumbers _ i).mp ⟨n, hn, hi⟩) (hnot i)
  · rintro ⟨n, hn, hvalue⟩
    obtain ⟨hi, hf⟩ := number_asValue.mp hvalue
    refine ⟨fun i heq => ?_, n, hn, hf⟩
    obtain ⟨n', hn', hi'⟩ := (hnumbers _ i).mpr heq
    obtain rfl := Option.some.inj (hn.symm.trans hn')
    cases hi.symm.trans hi'

mutual

/-- A value whose floats are kept is read back, with its entries in key order. -/
theorem documentOf_sorted (hnumbers : host.ReadsIntegers) : ∀ j : JsonValue,
    j.AllFloats host.KeepsFloat →
      ∃ doc, documentOf host.readNumber (j.toSyntax host.displayF64) = some doc ∧
        doc.asValue = j.sorted
  | .null, _ => ⟨.null, rfl, rfl⟩
  | .bool b, _ => ⟨.bool b, rfl, rfl⟩
  | .int i, _ => by
    obtain ⟨n, hn, hvalue⟩ := int_read hnumbers i
    exact ⟨.number n, by rw [JsonValue.toSyntax, documentOf, hn]; rfl, hvalue⟩
  | .float bits, hf => by
    obtain ⟨n, hn, hvalue⟩ := (keepsFloat_iff hnumbers).mp hf
    exact ⟨.number n, by rw [JsonValue.toSyntax, documentOf, hn]; rfl, hvalue⟩
  | .str s, _ => by
    refine ⟨.string s, ?_, rfl⟩
    rw [JsonValue.toSyntax, documentOf, unquoted_escape]
  | .array items, hf => by
    obtain ⟨docs, hdocs, hvalues⟩ := documentsOf_sorted hnumbers items hf
    refine ⟨.array docs, ?_, ?_⟩
    · rw [JsonValue.toSyntax, documentOf, hdocs]
      rfl
    · rw [Json.asValue, hvalues, JsonValue.sorted]
  | .object entries, hf => by
    obtain ⟨es, hes, hvalues⟩ := entriesOf_sorted hnumbers entries hf
    refine ⟨.object (inKeyOrder es), ?_, ?_⟩
    · rw [JsonValue.toSyntax, documentOf, hes]
      rfl
    · rw [asValue_object, hvalues, JsonValue.sorted]

theorem documentsOf_sorted (hnumbers : host.ReadsIntegers) : ∀ js : List JsonValue,
    JsonValue.EveryFloat host.KeepsFloat js →
      ∃ docs, documentsOf host.readNumber (JsonValue.syntaxes host.displayF64 js) = some docs ∧
        Json.asValues docs = JsonValue.sortedAll js
  | [], _ => ⟨[], rfl, rfl⟩
  | j :: js, hf => by
    obtain ⟨doc, hdoc, hvalue⟩ := documentOf_sorted hnumbers j hf.1
    obtain ⟨docs, hdocs, hvalues⟩ := documentsOf_sorted hnumbers js hf.2
    refine ⟨doc :: docs, ?_, ?_⟩
    · rw [JsonValue.syntaxes, documentsOf, hdoc, hdocs]
      rfl
    · rw [Json.asValues, hvalue, hvalues, JsonValue.sortedAll]

theorem entriesOf_sorted (hnumbers : host.ReadsIntegers) : ∀ es : List (String × JsonValue),
    JsonValue.EntryFloats host.KeepsFloat es →
      ∃ docs, entriesOf host.readNumber (JsonValue.entrySyntaxes host.displayF64 es) = some docs ∧
        Json.asEntries docs = JsonValue.sortedEntries es
  | [], _ => ⟨[], rfl, rfl⟩
  | (key, j) :: es, hf => by
    obtain ⟨doc, hdoc, hvalue⟩ := documentOf_sorted hnumbers j hf.1
    obtain ⟨docs, hdocs, hvalues⟩ := entriesOf_sorted hnumbers es hf.2
    refine ⟨(key, doc) :: docs, ?_, ?_⟩
    · rw [JsonValue.entrySyntaxes, entriesOf, hdoc, hdocs, unquoted_escape]
      rfl
    · rw [Json.asEntries, hvalue, hvalues, JsonValue.sortedEntries]

end

/-- The keys that are read are those of the value. -/
theorem entriesOf_keys {es : List (String × JsonValue)} {docs : List (String × Json)}
    (h : entriesOf host.readNumber (JsonValue.entrySyntaxes host.displayF64 es) = some docs) :
    docs.map (·.1) = es.map (·.1) := by
  induction es generalizing docs with
  | nil =>
    cases h
    rfl
  | cons e es ih =>
    obtain ⟨key, j⟩ := e
    rw [JsonValue.entrySyntaxes, entriesOf, unquoted_escape] at h
    obtain ⟨doc, -, hrest⟩ := Option.bind_eq_some_iff.mp h
    obtain ⟨docs', hdocs', rfl⟩ := Option.map_eq_some_iff.mp hrest
    rw [List.map_cons, List.map_cons, ih hdocs']

mutual

/-- The floats of a value that is read back are kept. -/
theorem floats_of_documentOf (hnumbers : host.ReadsIntegers) : ∀ (j : JsonValue) (doc : Json),
    j.DistinctKeys → documentOf host.readNumber (j.toSyntax host.displayF64) = some doc →
      doc.asValue = j.sorted → j.AllFloats host.KeepsFloat
  | .null, _, _, _, _ | .bool _, _, _, _, _ | .int _, _, _, _, _ | .str _, _, _, _, _ => trivial
  | .float bits, doc, _, hdoc, hvalue => by
    obtain ⟨n, hn, rfl⟩ := Option.map_eq_some_iff.mp hdoc
    exact (keepsFloat_iff hnumbers).mpr ⟨n, hn, hvalue⟩
  | .array items, doc, hkeys, hdoc, hvalue => by
    obtain ⟨docs, hdocs, rfl⟩ := Option.map_eq_some_iff.mp hdoc
    rw [Json.asValue, JsonValue.sorted, JsonValue.array.injEq] at hvalue
    exact floats_of_documentsOf hnumbers items docs hkeys hdocs hvalue
  | .object entries, doc, hkeys, hdoc, hvalue => by
    obtain ⟨es, hes, rfl⟩ := Option.map_eq_some_iff.mp hdoc
    rw [asValue_object, JsonValue.sorted, JsonValue.object.injEq] at hvalue
    -- the keys are distinct, so equal maps in key order come from equal entries, in their old order
    have hsorted : (JsonValue.sortedEntries entries).map (·.1) = entries.map (·.1) := by
      rw [sortedEntries_eq, List.map_map]
      rfl
    have hread : (Json.asEntries es).map (·.1) = es.map (·.1) := by
      rw [asEntries_eq, List.map_map]
      rfl
    refine floats_of_entriesOf hnumbers entries es hkeys.2 hes (inKeyOrder_inj ?_ ?_ hvalue)
    · rw [hsorted]
      exact hkeys.1
    · rw [hread, hsorted, entriesOf_keys hes]

theorem floats_of_documentsOf (hnumbers : host.ReadsIntegers) :
    ∀ (js : List JsonValue) (docs : List Json), JsonValue.EveryDistinct js →
      documentsOf host.readNumber (JsonValue.syntaxes host.displayF64 js) = some docs →
      Json.asValues docs = JsonValue.sortedAll js → JsonValue.EveryFloat host.KeepsFloat js
  | [], _, _, _, _ => trivial
  | j :: js, docs, hkeys, hdocs, hvalues => by
    rw [JsonValue.syntaxes, documentsOf] at hdocs
    obtain ⟨doc, hdoc, hrest⟩ := Option.bind_eq_some_iff.mp hdocs
    obtain ⟨docs', hdocs', rfl⟩ := Option.map_eq_some_iff.mp hrest
    rw [Json.asValues, JsonValue.sortedAll, List.cons.injEq] at hvalues
    exact ⟨floats_of_documentOf hnumbers j doc hkeys.1 hdoc hvalues.1,
      floats_of_documentsOf hnumbers js docs' hkeys.2 hdocs' hvalues.2⟩

theorem floats_of_entriesOf (hnumbers : host.ReadsIntegers) :
    ∀ (es : List (String × JsonValue)) (docs : List (String × Json)),
      JsonValue.EntriesDistinct es →
      entriesOf host.readNumber (JsonValue.entrySyntaxes host.displayF64 es) = some docs →
      Json.asEntries docs = JsonValue.sortedEntries es → JsonValue.EntryFloats host.KeepsFloat es
  | [], _, _, _, _ => trivial
  | (key, j) :: es, docs, hkeys, hdocs, hvalues => by
    rw [JsonValue.entrySyntaxes, entriesOf] at hdocs
    obtain ⟨doc, hdoc, hrest⟩ := Option.bind_eq_some_iff.mp hdocs
    obtain ⟨docs', hdocs', rfl⟩ := Option.map_eq_some_iff.mp hrest
    rw [Json.asEntries, JsonValue.sortedEntries, List.cons.injEq, Prod.mk.injEq] at hvalues
    exact ⟨floats_of_documentOf hnumbers j doc hkeys.1 hdoc hvalues.1.2,
      floats_of_entriesOf hnumbers es docs' hkeys.2 hdocs' hvalues.2⟩

end

end ReadBack

/-! ## The round trip -/

/-- The limits leave `json_parse` the work and the memory for the text of a value: the charge for
the text, and a heap with room for the document. -/
structure ParseRoom (host : JsonHost) (j : JsonValue) (s : HostStore) : Prop where
  small : s.store.heap.Small
  work : ∃ s', s.charge "json_parse" (hostWork jsonParseHostWork jsonParsePerKibHostWork
    (j.toSyntax host.displayF64).text.utf8ByteSize) = .ok s'
  memory : ∀ doc, documentOf host.readNumber (j.toSyntax host.displayF64) = some doc →
    s.store.Fits doc.form.objects doc.form.heapBytes

/-- `json_parse` gives the value back, with the entries of its objects in key order. -/
def ComesBack (host : JsonHost) (j : JsonValue) (w : Value) (s : HostStore) : Prop :=
  ∃ v s', jsonParse host w s = (.ok v, s') ∧ Unfolds s'.store.heap j.sorted.tree v

/-- What `json_parse` does with a string, when it may work. -/
theorem jsonParse_text {host : JsonHost} {s : HostStore} {r : GcRef} {text : String}
    (ho : s.store.heap.object? r.idx = some (.string text))
    (hwork : ∃ s', s.charge "json_parse" (hostWork jsonParseHostWork jsonParsePerKibHostWork
      text.utf8ByteSize) = .ok s') :
    ∃ s₁, s₁.store = s.store ∧ jsonParse host (.heap r) s =
      match host.fromStr text with
      | .error e => (.error ("json_parse: " ++ e), s₁)
      | .ok doc =>
        ((s₁.store.jsonToHiko doc).1, { s₁ with store := (s₁.store.jsonToHiko doc).2 }) := by
  obtain ⟨s₁, hs₁⟩ := hwork
  refine ⟨s₁, charge_store hs₁, ?_⟩
  cases hdoc : host.fromStr text with
  | error e => simp only [jsonParse, get_of_object ho, hs₁, hdoc]
  | ok doc => simp only [jsonParse, get_of_object ho, hs₁, hdoc]

/-- What is read of a document that the text denotes. -/
theorem jsonToHiko_arrives {host : JsonHost} {j : JsonValue} {s s₁ : HostStore} {doc : Json}
    (hfree : s.store.heap.FreeOk) (hroom : ParseRoom host j s) (hstore : s₁.store = s.store)
    (hdoc : documentOf host.readNumber (j.toSyntax host.displayF64) = some doc) :
    ∃ v t, s₁.store.jsonToHiko doc = (.ok v, t) ∧ Unfolds t.heap doc.asValue.tree v := by
  obtain ⟨v, t, heq, -, -, -, hun⟩ :=
    jsonToHiko_spec doc s₁.store 0 0 (hstore ▸ hfree) (hstore ▸ hroom.memory doc hdoc)
  exact ⟨v, t, heq, form_tree doc ▸ hun⟩

/-- A value that comes back is not nested too deep, and its floats are kept: the text was not
rejected, and a value has one tree. -/
theorem ComesBack.kept {host : JsonHost} {j : JsonValue} {fuel : ℕ} {v w : Value} {s s' : HostStore}
    (hdisplay : host.DisplaysFloats) (hnumbers : host.ReadsIntegers)
    (hreads : host.Reads (j.toSyntax host.displayF64)) (hkeys : j.DistinctKeys)
    (hfinite : j.AllFloats FiniteBits) (hfree : s.store.heap.FreeOk)
    (hv : Unfolds s.store.heap j.tree v) (hwrite : jsonToString host fuel v s = some (.ok w, s'))
    (hroom : ParseRoom host j s') (hback : ComesBack host j w s') :
    j.depth ≤ readDepth ∧ j.AllFloats host.KeepsFloat := by
  obtain ⟨v', t', hok, hun⟩ := hback
  obtain ⟨hfree', r, rfl, ho⟩ := jsonToString_text hfree hv hwrite hroom.small
  obtain ⟨s₁, hstore, hparse⟩ := jsonParse_text ho hroom.work
  have hvalid := toSyntax_valid hdisplay j hfinite
  have hnot : ¬ (readDepth < (j.toSyntax host.displayF64).depth ∨
      documentOf host.readNumber (j.toSyntax host.displayF64) = none) := by
    intro hcase
    obtain ⟨e, he⟩ := hreads.rejects hvalid hcase
    rw [hparse, he] at hok
    cases (Prod.mk.inj hok).1
  rw [not_or, not_lt] at hnot
  obtain ⟨doc, hdoc⟩ := Option.ne_none_iff_exists'.mp hnot.2
  obtain ⟨v'', t, heq, hun'⟩ := jsonToHiko_arrives hfree' hroom hstore hdoc
  rw [hparse, hreads.accepts hvalid hnot.1 doc hdoc] at hok
  simp only [heq, Prod.mk.injEq, Except.ok.injEq] at hok
  obtain ⟨rfl, rfl⟩ := hok
  have hvalue := tree_inj _ _ (unfolds_unique _ _ _ hun' hun)
  exact ⟨toSyntax_depth host j ▸ hnot.1, floats_of_documentOf hnumbers j doc hkeys hdoc hvalue⟩

/-- **A value comes back exactly if it is nested at most as deep as the reader reads and its
floats are kept.** -/
theorem jsonRoundTrip_iff (host : JsonHost) (hdisplay : host.DisplaysFloats)
    (hnumbers : host.ReadsIntegers) (j : JsonValue)
    (hreads : host.Reads (j.toSyntax host.displayF64))
    (hkeys : j.DistinctKeys) (hfinite : j.AllFloats FiniteBits) (fuel : ℕ) (v w : Value)
    (s s' : HostStore) (hfree : s.store.heap.FreeOk) (hv : Unfolds s.store.heap j.tree v)
    (hwrite : jsonToString host fuel v s = some (.ok w, s')) (hroom : ParseRoom host j s') :
    ComesBack host j w s' ↔ j.depth ≤ readDepth ∧ j.AllFloats host.KeepsFloat := by
  constructor
  · intro hback
    exact hback.kept hdisplay hnumbers hreads hkeys hfinite hfree hv hwrite hroom
  · -- the text is read, since it is standard JSON and not too deep, and denotes the value
    rintro ⟨hdepth, hfloats⟩
    obtain ⟨hfree', r, rfl, ho⟩ := jsonToString_text hfree hv hwrite hroom.small
    obtain ⟨s₁, hstore, hparse⟩ := jsonParse_text ho hroom.work
    obtain ⟨doc, hdoc, hvalue⟩ := documentOf_sorted hnumbers j hfloats
    obtain ⟨v', t, heq, hun⟩ := jsonToHiko_arrives hfree' hroom hstore hdoc
    refine ⟨v', { s₁ with store := t }, ?_, hvalue ▸ hun⟩
    rw [hparse, hreads.accepts (toSyntax_valid hdisplay j hfinite)
      ((toSyntax_depth host j).symm ▸ hdepth) doc hdoc]
    simp only [heq]

/-! ## A host -/

/-- The numbers of the texts that are integers of `i64`. -/
def readInteger (text : String) : Option JsonNumber :=
  match text.toInt? with
  | some i =>
    if toString i = text ∧ -2 ^ 63 ≤ i ∧ i < 2 ^ 63 then some ⟨some (Int64.ofInt i), none, text⟩
    else none
  | none => none

/-- The bits of 1.0. -/
def oneBits : UInt64 := 0x3FF0000000000000

/-- The text of the floats 0.0 and 1.0. -/
def displayZeroOne (bits : UInt64) : String := if bits = oneBits then "1" else "0"

/-- A host that reads the text of one value, with no floats but 0.0 and 1.0. -/
def hostFor (j : JsonValue) : JsonHost where
  displayF64 := displayZeroOne
  readNumber := readInteger
  fromStr := fun text =>
    if text = (j.toSyntax displayZeroOne).text ∧ j.depth ≤ readDepth then
      match documentOf readInteger (j.toSyntax displayZeroOne) with
      | some doc => .ok doc
      | none => .error "number out of range"
    else .error "recursion limit exceeded"

theorem hostFor_integers (j : JsonValue) : (hostFor j).ReadsIntegers := by
  intro text i
  change (∃ n, readInteger text = some n ∧ n.asI64 = some i) ↔ _
  constructor
  · rintro ⟨n, hn, hi⟩
    unfold readInteger at hn
    split at hn
    · next k hk =>
      split at hn
      · next hrange =>
        cases hn
        obtain rfl := Option.some.inj hi
        rw [Int64.toInt_ofInt_of_le hrange.2.1 hrange.2.2, hrange.1]
      · cases hn
    · cases hn
  · rintro rfl
    have hread : (toString i.toInt).toInt? = some i.toInt := Int.toInt?_repr i.toInt
    refine ⟨⟨some i, none, toString i.toInt⟩, ?_, rfl⟩
    rw [readInteger, hread]
    dsimp only
    rw [if_pos ⟨rfl, i.le_toInt, i.toInt_lt⟩, Int64.ofInt_toInt]

theorem hostFor_displays (j : JsonValue) : (hostFor j).DisplaysFloats := by
  intro bits _
  change IsNumberText (displayZeroOne bits)
  unfold displayZeroOne
  split
  · exact isNumberText_int 1
  · exact isNumberText_int 0

/-- What the host reads. -/
theorem hostFor_fromStr (j : JsonValue) (text : String) : (hostFor j).fromStr text =
    if text = (j.toSyntax displayZeroOne).text ∧ j.depth ≤ readDepth then
      match documentOf readInteger (j.toSyntax displayZeroOne) with
      | some doc => .ok doc
      | none => .error "number out of range"
    else .error "recursion limit exceeded" := rfl

theorem hostFor_reads (j : JsonValue) :
    (hostFor j).Reads (j.toSyntax (hostFor j).displayF64) where
  accepts := by
    intro _ hdepth doc hdoc
    rw [toSyntax_depth] at hdepth
    rw [hostFor_fromStr, if_pos ⟨rfl, hdepth⟩]
    simp only [show documentOf readInteger (j.toSyntax displayZeroOne) = some doc from hdoc]
  rejects := by
    rintro _ (hdepth | hnone)
    · rw [toSyntax_depth] at hdepth
      refine ⟨"recursion limit exceeded", ?_⟩
      rw [hostFor_fromStr, if_neg fun h => absurd h.2 (not_le.mpr hdepth)]
    · rw [hostFor_fromStr]
      split
      · refine ⟨"number out of range", ?_⟩
        simp only [show documentOf readInteger (j.toSyntax displayZeroOne) = none from hnone]
      · exact ⟨_, rfl⟩

/-! ## A value that comes back, and one that does not -/

/-- A heap without limits that holds some objects. -/
def heapWith (objects : List HeapObject) : HostStore :=
  ⟨⟨{ Heap.new with objects := objects.map some, objectBytes := objects.map (·.estimatedBytes) },
    .unlimited⟩, none, 0⟩

/-- The objects of a list with one item, in a constructor: these take the slots from `slot` on. -/
def boxed (tag slot : ℕ) (item : Value) : List HeapObject :=
  [.data tagNil (Fields.fromSlice []),
    .data tagCons (Fields.fromSlice [item, .heap ⟨slot, 0⟩]),
    .data tag (Fields.fromSlice [.heap ⟨slot + 1, 0⟩])]

/-- `[[…[null]…]]`, with so many brackets. -/
def nestedArrays : ℕ → JsonValue
  | 0 => .null
  | n + 1 => .array [nestedArrays n]

/-- The objects of nested arrays, the outermost last. -/
def nestedObjects : ℕ → List HeapObject
  | 0 => [.data tagJNull (Fields.fromSlice [])]
  | n + 1 => nestedObjects n ++ boxed tagJArray (3 * n + 1) (.heap ⟨3 * n, 0⟩)

theorem length_nestedObjects (n : ℕ) : (nestedObjects n).length = 3 * n + 1 := by
  induction n with
  | zero => rfl
  | succ n ih =>
    rw [nestedObjects, List.length_append, ih]
    rfl

/-- The objects of a list with one item hold the constructor around it. -/
theorem unfolds_boxed {h : Heap} {tag slot : ℕ} {item : Value} {t : ValueTree}
    (hobjects : ∀ i o, (boxed tag slot item)[i]? = some o → h.object? (slot + i) = some o)
    (hitem : Unfolds h t item) :
    Unfolds h (.data tag [listTree [t]]) (.heap ⟨slot + 2, 0⟩) := by
  have hnil : Unfolds h (listTree []) (.heap ⟨slot, 0⟩) := by
    rw [listTree, List.foldr_nil, Unfolds]
    exact ⟨_, _, rfl, hobjects 0 _ rfl, by rw [UnfoldsAll]; rfl⟩
  have hlist : Unfolds h (listTree [t]) (.heap ⟨slot + 1, 0⟩) := by
    rw [listTree, List.foldr_cons, Unfolds]
    refine ⟨_, _, rfl, hobjects 1 _ rfl, ?_⟩
    simp only [UnfoldsAll, Fields.fromSlice]
    exact ⟨item, [.heap ⟨slot, 0⟩], rfl, hitem, _, [], rfl, hnil, rfl⟩
  rw [Unfolds]
  refine ⟨_, _, rfl, hobjects 2 _ rfl, ?_⟩
  simp only [UnfoldsAll, Fields.fromSlice]
  exact ⟨_, [], rfl, hlist, rfl⟩

/-- A heap with the objects of nested arrays has those of the inner ones, and the list around. -/
theorem objects_nested {h : Heap} {n : ℕ}
    (hobjects : ∀ i o, (nestedObjects (n + 1))[i]? = some o → h.object? i = some o) :
    (∀ i o, (nestedObjects n)[i]? = some o → h.object? i = some o) ∧
      ∀ i o, (boxed tagJArray (3 * n + 1) (.heap ⟨3 * n, 0⟩))[i]? = some o →
        h.object? (3 * n + 1 + i) = some o := by
  constructor
  · intro i o ho
    refine hobjects i o ?_
    rw [nestedObjects, List.getElem?_append_left (List.getElem?_eq_some_iff.mp ho).1]
    exact ho
  · intro i o ho
    refine hobjects _ o ?_
    rw [nestedObjects, List.getElem?_append_right (by rw [length_nestedObjects]; omega),
      length_nestedObjects, Nat.add_sub_cancel_left]
    exact ho

/-- The last object is the outermost array. -/
theorem unfolds_nested {h : Heap} (n : ℕ)
    (hobjects : ∀ i o, (nestedObjects n)[i]? = some o → h.object? i = some o) :
    Unfolds h (nestedArrays n).tree (.heap ⟨3 * n, 0⟩) := by
  induction n with
  | zero =>
    rw [nestedArrays, JsonValue.tree, Unfolds]
    exact ⟨⟨0, 0⟩, _, rfl, hobjects 0 _ rfl, by rw [UnfoldsAll]; rfl⟩
  | succ n ih =>
    obtain ⟨hinner, houter⟩ := objects_nested hobjects
    rw [nestedArrays, JsonValue.tree, JsonValue.trees, JsonValue.trees]
    exact unfolds_boxed houter (ih hinner)

/-- Without a memory limit every text is written. -/
theorem checkJsonOutput_unlimited {s : Store} (hmemory : s.budgets.memory = none)
    (context output : String) : s.checkJsonOutput context output = .ok output := by
  simp only [Store.checkJsonOutput, Store.checkHostBytes, Store.ensureCanAllocateBytes, hmemory]

/-- **Nested arrays are written, if the writer has a level for each.** -/
theorem jsonStringAtDepth_nested (host : JsonHost) {s : Store} (hmemory : s.budgets.memory = none)
    (n levels : ℕ) (hlevels : n ≤ levels)
    (hobjects : ∀ i o, (nestedObjects n)[i]? = some o → s.heap.object? i = some o) :
    ∃ text, jsonStringAtDepth host s 1 levels (.heap ⟨3 * n, 0⟩) = some (.ok text) := by
  induction n generalizing levels with
  | zero =>
    refine ⟨"null", ?_⟩
    have hget : s.heap.get ⟨0, 0⟩ = .ok (.data tagJNull (Fields.fromSlice [])) := by
      rw [Heap.get, hobjects 0 _ rfl]
    rw [jsonStringAtDepth.eq_def]
    simp only [Nat.mul_zero, hget, jsonScalar, checkJsonOutput_unlimited hmemory]
    rfl
  | succ n ih =>
    obtain ⟨hinner, houter⟩ := objects_nested hobjects
    obtain ⟨left, rfl⟩ : ∃ left, levels = left + 1 := ⟨levels - 1, by omega⟩
    obtain ⟨text, htext⟩ := ih left (by omega) hinner
    have hnil : s.heap.get ⟨3 * n + 1, 0⟩ = .ok (.data tagNil (Fields.fromSlice [])) := by
      rw [Heap.get, houter 0 _ rfl]
    have hcons : s.heap.get ⟨3 * n + 2, 0⟩ =
        .ok (.data tagCons (Fields.fromSlice [.heap ⟨3 * n, 0⟩, .heap ⟨3 * n + 1, 0⟩])) := by
      rw [Heap.get, houter 1 _ rfl]
    have harray : s.heap.get ⟨3 * (n + 1), 0⟩ =
        .ok (.data tagJArray (Fields.fromSlice [.heap ⟨3 * n + 2, 0⟩])) := by
      have hlast : s.heap.object? (3 * (n + 1)) = _ := houter 2 _ rfl
      rw [Heap.get, hlast]
    have hlist : s.heap.collectList 1 (.heap ⟨3 * n + 2, 0⟩) = some (.ok [.heap ⟨3 * n, 0⟩]) := by
      simp only [Heap.collectList, hcons, hnil, Fields.fromSlice]
      rfl
    have hroom : s.checkStringVecCapacity "json_to_string" 1 = .ok () := by
      simp only [Store.checkStringVecCapacity, Store.checkHostBytes, Store.ensureCanAllocateBytes,
        hmemory]
      rfl
    refine ⟨"[" ++ ",".intercalate [text] ++ "]", ?_⟩
    rw [jsonStringAtDepth.eq_def]
    simp only [harray, Fields.fromSlice, List.head?_cons, Option.getD_some, hlist, List.length_cons,
      List.length_nil, hroom, walkLeft, htext, jsonJoin, checkJsonOutput_unlimited hmemory,
      true_or, if_true]

/-- The heap with the objects of nested arrays. -/
def nestedStore (n : ℕ) : HostStore := heapWith (nestedObjects n)

theorem nestedStore_objects (n : ℕ) : ∀ i o, (nestedObjects n)[i]? = some o →
    (nestedStore n).store.heap.object? i = some o := by
  intro i o ho
  change (((nestedObjects n).map some)[i]?).join = some o
  rw [List.getElem?_map, ho]
  rfl

theorem nestedStore_unfolds (n : ℕ) :
    Unfolds (nestedStore n).store.heap (nestedArrays n).tree (.heap ⟨3 * n, 0⟩) :=
  unfolds_nested n (nestedStore_objects n)

theorem nestedStore_free (n : ℕ) : (nestedStore n).store.heap.FreeOk :=
  ⟨fun i hi => (by cases hi), List.nodup_nil⟩

/-- Nested arrays have no objects and no floats. -/
theorem nested_plain (n : ℕ) :
    (nestedArrays n).DistinctKeys ∧ ∀ P, (nestedArrays n).AllFloats P := by
  induction n with
  | zero => exact ⟨trivial, fun _ => trivial⟩
  | succ n ih => exact ⟨⟨ih.1, trivial⟩, fun P => ⟨ih.2 P, trivial⟩⟩

theorem depth_nested (n : ℕ) : (nestedArrays n).depth = n := by
  induction n with
  | zero => rfl
  | succ n ih =>
    rw [nestedArrays, JsonValue.depth, JsonValue.depths, JsonValue.depths, ih, Nat.max_zero]

/-- The document of nested arrays takes as many objects as the value. -/
theorem nested_document (n : ℕ) : ∃ doc,
    documentOf readInteger ((nestedArrays n).toSyntax displayZeroOne) = some doc ∧
      doc.form.objects = 3 * n + 1 := by
  induction n with
  | zero => exact ⟨.null, rfl, rfl⟩
  | succ n ih =>
    obtain ⟨doc, hdoc, hobjects⟩ := ih
    refine ⟨.array [doc], ?_, ?_⟩
    · rw [nestedArrays, JsonValue.toSyntax, JsonValue.syntaxes, JsonValue.syntaxes, documentOf,
        documentsOf, hdoc]
      rfl
    · simp only [Json.form, Json.forms, SendableValue.objects, SendableValue.objectsOf, hobjects,
        List.length_cons, List.length_nil]
      omega

/-- Nested arrays are written where nothing is limited, and the document is small enough to be read. -/
theorem nestedStore_written (n : ℕ) (hn : n ≤ maxJsonDepth) : ∃ w s',
    jsonToString (hostFor (nestedArrays n)) 1 (.heap ⟨3 * n, 0⟩) (nestedStore n) =
        some (.ok w, s') ∧
      ParseRoom (hostFor (nestedArrays n)) (nestedArrays n) s' := by
  have hmemory : (nestedStore n).store.budgets.memory = none := rfl
  obtain ⟨text, htext⟩ := jsonStringAtDepth_nested (hostFor (nestedArrays n)) hmemory n maxJsonDepth
    hn (nestedStore_objects n)
  have hcharge : ∀ (work : ℕ) (s : HostStore), s.hostWork = none → s.charge "json_to_string" work =
      .ok { s with hostWorkUsed := satAdd s.hostWorkUsed work } := by
    intro work s hs
    simp only [HostStore.charge, HostStore.chargeHostWork, hs]
  unfold jsonToString
  rw [hcharge _ _ rfl]
  simp only [htext]
  rw [hcharge _ _ rfl]
  refine ⟨_, _, rfl, ?_⟩
  -- no slot is free, so the text takes a new one
  have hlength : ((nestedObjects n).map some ++ [some (HeapObject.string text)]).length =
      3 * n + 2 := by
    rw [List.length_append, List.length_map, length_nestedObjects]
    rfl
  have hsmall : 3 * n + 2 + (3 * n + 1) ≤ u32Size := by
    have : maxJsonDepth = 128 := rfl
    have : u32Size = 2 ^ 32 := rfl
    omega
  refine ⟨?_, ⟨_, rfl⟩, fun doc hdoc => ?_⟩
  · exact hlength.trans_le (by omega)
  · obtain ⟨doc', hdoc', hobjects⟩ := nested_document n
    obtain rfl := Option.some.inj (hdoc'.symm.trans hdoc)
    refine ⟨fun limit hlimit => (by cases hlimit), fun b hb => (by cases hb), ?_⟩
    rw [hobjects]
    change ((nestedObjects n).map some ++ [some (HeapObject.string text)]).length + _ ≤ _
    rw [hlength]
    exact hsmall

/-- The deepest value that comes back. -/
theorem jsonRoundTrip_deepest : ∃ w s',
    jsonToString (hostFor (nestedArrays 127)) 1 (.heap ⟨381, 0⟩) (nestedStore 127) =
        some (.ok w, s') ∧
      (ComesBack (hostFor (nestedArrays 127)) (nestedArrays 127) w s' ↔
        (nestedArrays 127).depth ≤ readDepth ∧
          (nestedArrays 127).AllFloats (hostFor (nestedArrays 127)).KeepsFloat) := by
  obtain ⟨w, s', hwrite, hroom⟩ := nestedStore_written 127 (by decide)
  exact ⟨w, s', hwrite, jsonRoundTrip_iff (hostFor (nestedArrays 127)) (hostFor_displays _)
    (hostFor_integers _) (nestedArrays 127) (hostFor_reads _) (nested_plain 127).1
    ((nested_plain 127).2 _) 1 _ w _ s' (nestedStore_free 127) (nestedStore_unfolds 127) hwrite
    hroom⟩

/-- A value is written on a host that keeps to its documentation, and may be read. -/
structure Written (host : JsonHost) (j : JsonValue) (v w : Value) (s s' : HostStore) : Prop where
  displays : host.DisplaysFloats
  integers : host.ReadsIntegers
  reads : host.Reads (j.toSyntax host.displayF64)
  keys : j.DistinctKeys
  finite : j.AllFloats FiniteBits
  free : s.store.heap.FreeOk
  unfolds : Unfolds s.store.heap j.tree v
  written : jsonToString host 1 v s = some (.ok w, s')
  room : ParseRoom host j s'

theorem Written.kept {host : JsonHost} {j : JsonValue} {v w : Value} {s s' : HostStore}
    (h : Written host j v w s s') (hback : ComesBack host j w s') :
    j.depth ≤ readDepth ∧ j.AllFloats host.KeepsFloat :=
  hback.kept h.displays h.integers h.reads h.keys h.finite h.free h.unfolds h.written h.room

/-- A heap with the value 1.0. -/
def floatStore : HostStore := heapWith [.data tagJFloat (Fields.fromSlice [.float oneBits])]

theorem floatStore_written : ∃ w s',
    Written (hostFor (.float oneBits)) (.float oneBits) (.heap ⟨0, 0⟩) w floatStore s' := by
  refine ⟨_, _, hostFor_displays _, hostFor_integers _, hostFor_reads _, trivial, ?_, ?_, ?_, rfl,
    ?_⟩
  · exact (by decide : oneBits.toNat / 2 ^ 52 % 2048 ≠ 2047)
  · exact ⟨fun i hi => (by cases hi), List.nodup_nil⟩
  · rw [JsonValue.tree, Unfolds]
    refine ⟨⟨0, 0⟩, _, rfl, rfl, ?_⟩
    simp only [UnfoldsAll, Unfolds, Fields.fromSlice]
    exact ⟨_, [], rfl, ⟨rfl, rfl⟩, rfl⟩
  · refine ⟨(by decide : 2 ≤ u32Size), ⟨_, rfl⟩, fun doc hdoc => ?_⟩
    obtain ⟨n, hn, rfl⟩ := Option.map_eq_some_iff.mp hdoc
    refine ⟨fun limit hlimit => (by cases hlimit), fun b hb => (by cases hb), ?_⟩
    have hone : (Json.number n).form.objects = 1 := by
      rw [Json.form]
      split <;> rfl
    rw [hone]
    exact (by decide : 2 + 1 ≤ u32Size)

/-- **A value of 128 nested arrays is written but not read**, and 1.0 is read as an integer. -/
theorem jsonRoundTrip_depth :
    (∃ w s', Written (hostFor (nestedArrays 128)) (nestedArrays 128) (.heap ⟨384, 0⟩) w
        (nestedStore 128) s' ∧ ¬ ComesBack (hostFor (nestedArrays 128)) (nestedArrays 128) w s') ∧
      ∃ w s', Written (hostFor (.float oneBits)) (.float oneBits) (.heap ⟨0, 0⟩) w floatStore s' ∧
        ¬ ComesBack (hostFor (.float oneBits)) (.float oneBits) w s' := by
  constructor
  · obtain ⟨w, s', hwrite, hroom⟩ := nestedStore_written 128 (by decide)
    have hwritten : Written (hostFor (nestedArrays 128)) (nestedArrays 128) (.heap ⟨384, 0⟩) w
        (nestedStore 128) s' :=
      ⟨hostFor_displays _, hostFor_integers _, hostFor_reads _, (nested_plain 128).1,
        (nested_plain 128).2 _, nestedStore_free 128, nestedStore_unfolds 128, hwrite, hroom⟩
    refine ⟨w, s', hwritten, fun hback => ?_⟩
    have hdepth := (hwritten.kept hback).1
    rw [depth_nested] at hdepth
    exact absurd hdepth (by decide)
  · obtain ⟨w, s', hwritten⟩ := floatStore_written
    refine ⟨w, s', hwritten, fun hback => ?_⟩
    -- its text is that of an integer
    obtain ⟨hnot, -⟩ := (hwritten.kept hback).2
    exact hnot 1 rfl

end Hiko
