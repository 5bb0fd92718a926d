import Hiko.Builtins.JsonValue
import Hiko.Lib.JsonSyntax
import Hiko.Lib.WorkStack

/-!
# Writing and reading JSON texts

`json_to_string` writes a value of the `Json` datatype as a text, and `json_parse` reads a text with
`serde_json` and builds its value. The host's part are the text of a float and the reader.

## Main definitions

* `JsonHost`: the text of floats, and what `serde_json` reads
* `HostStore`: a heap with its budget of host work
* `jsonStringAtDepth`, `jsonToString`, `jsonParse`: the builtins
* `JsonValue`: the values of the datatype, with their form in the heap and their syntax

* `documentOf`, `JsonHost.Reads`: what the reader makes of a standard JSON text
-/

namespace Hiko

open Lib

/-- What the builtins use of the host: `to_string` of a float, the numbers that `serde_json` makes
of their texts, and `serde_json::from_str`. -/
structure JsonHost where
  displayF64 : UInt64 → String
  readNumber : String → Option JsonNumber
  fromStr : String → Except String Json

/-! ## Host work -/

/-- A heap with the budget of host work of its tree. -/
structure HostStore where
  store : Store
  hostWork : Option SharedBudget
  hostWorkUsed : ℕ

/-- `charge_host_work`. -/
def HostStore.chargeHostWork (s : HostStore) (work : ℕ) : Except String HostStore :=
  match s.hostWork with
  | none => .ok { s with hostWorkUsed := satAdd s.hostWorkUsed work }
  | some b =>
    match b.tryCharge work with
    | .ok b' => .ok { s with hostWork := some b', hostWorkUsed := satAdd s.hostWorkUsed work }
    | .error used => .error ("host work budget exceeded: used " ++ toString used ++ " limit " ++
        toString b.limit)

/-- `charge`. -/
def HostStore.charge (s : HostStore) (builtin : String) (work : ℕ) : Except String HostStore :=
  match s.chargeHostWork work with
  | .ok s' => .ok s'
  | .error e => .error (builtin ++ ": " ++ e)

/-- `host_work`. -/
def hostWork (base perKib bytes : ℕ) : ℕ :=
  satAdd base ((min (bytes * perKib) (u64Size - 1) + 1023) / 1024)

/-- `JSON_PARSE_HOST_WORK`. -/
def jsonParseHostWork : ℕ := 45

/-- `JSON_PARSE_PER_KIB_HOST_WORK`. -/
def jsonParsePerKibHostWork : ℕ := 2180

/-- `JSON_SERIALIZE_HOST_WORK`. -/
def jsonSerializeHostWork : ℕ := 55

/-- `JSON_SERIALIZE_PER_KIB_HOST_WORK`. -/
def jsonSerializePerKibHostWork : ℕ := 2410

/-! ## Writing -/

/-- `collect_list`. What is no list cell ends the list. -/
def Heap.collectList (h : Heap) : ℕ → Value → Option (Except String (List Value))
  | fuel, .heap r =>
    match h.get r with
    | .error e => some (.error e)
    | .ok (.data tag fields) =>
      match fields.vals with
      | [item, rest] =>
        if tag = tagCons then
          match fuel with
          | 0 => none
          | fuel + 1 => (h.collectList fuel rest).map (·.map (item :: ·))
        else some (.ok [])
      | _ => some (.ok [])
    | .ok _ => some (.ok [])
  | _, _ => some (.ok [])

/-- `check_host_bytes`. -/
def Store.checkHostBytes (s : Store) (context : String) (bytes : ℕ) : Except String Unit :=
  match s.ensureCanAllocateBytes bytes with
  | .error e => .error (context ++ ": " ++ e.message)
  | .ok () => .ok ()

/-- `size_of::<String>()`. -/
def stringSize : ℕ := 24

/-- `check_string_vec_capacity`. -/
def Store.checkStringVecCapacity (s : Store) (context : String) (len : ℕ) : Except String Unit :=
  if u64Size ≤ len * stringSize then .error (context ++ ": string vector size overflow")
  else s.checkHostBytes context (len * stringSize)

/-- `check_json_output`. -/
def Store.checkJsonOutput (s : Store) (context output : String) : Except String String :=
  match s.checkHostBytes context (satAdd heapObjectSize output.utf8ByteSize) with
  | .error e => .error e
  | .ok () => .ok output

/-- What `json_escape` writes for a character. -/
def escapeChar (c : Char) : JsonChar :=
  if c = '"' then .short '"' c
  else if c = '\\' then .short '\\' c
  else if c = '\n' then .short 'n' c
  else if c = '\r' then .short 'r' c
  else if c = '\t' then .short 't' c
  else if c = '\x08' then .short 'b' c
  else if c = '\x0c' then .short 'f' c
  else if c < ' ' then .unicode (Fin.ofNat 16 (c.toNat / 16)) (Fin.ofNat 16 c.toNat)
  else .raw c

/-- `json_escape`. -/
def jsonEscape (s : String) : String := JsonSyntax.quoted (s.toList.map escapeChar)

/-- `MAX_JSON_DEPTH`. -/
def maxJsonDepth : ℕ := 128

section Write

variable (host : JsonHost) (s : Store)

/-- A value without nested ones. -/
def jsonScalar (tag : ℕ) (fields : Fields) : Except String String :=
  if tag = tagJNull then s.checkJsonOutput "json_to_string" "null"
  else if tag = tagJBool then
    match fields.vals.head? with
    | some (.bool b) => s.checkJsonOutput "json_to_string" (toString b)
    | _ => .error "json_to_string: malformed JBool"
  else if tag = tagJInt then
    match fields.vals.head? with
    | some (.int n) => s.checkJsonOutput "json_to_string" (toString n.toInt)
    | _ => .error "json_to_string: malformed JInt"
  else if tag = tagJFloat then
    match fields.vals.head? with
    | some (.float f) => s.checkJsonOutput "json_to_string" (host.displayF64 f)
    | _ => .error "json_to_string: malformed JFloat"
  else if tag = tagJStr then
    match fields.vals.head? with
    | some (.heap r) =>
      match s.heap.get r with
      | .error e => .error e
      | .ok (.string str) => s.checkJsonOutput "json_to_string" (jsonEscape str)
      | .ok _ => .error "json_to_string: malformed JStr"
    | _ => .error "json_to_string: malformed JStr"
  else .error ("json_to_string: unknown tag " ++ toString tag)

/-- The key of an object's entry. -/
def jsonKey : Value → Except String String
  | .heap r =>
    match s.heap.get r with
    | .error e => .error e
    | .ok (.string str) => .ok (jsonEscape str)
    | .ok _ => .error "json_to_string: bad key"
  | _ => .error "json_to_string: bad key"

/-- An entry of an object, with the text of its value. -/
def jsonEntry (write : Value → Option (Except String String)) :
    Value → Option (Except String String)
  | .heap r =>
    match s.heap.get r with
    | .error e => some (.error e)
    | .ok (.tuple fields) =>
      match fields.vals with
      | [key, val] =>
        match jsonKey s key with
        | .error e => some (.error e)
        | .ok keyText => (write val).map (·.map fun valText => keyText ++ ":" ++ valText)
      | _ => some (.error "json_to_string: bad object entry")
    | .ok _ => some (.error "json_to_string: bad object entry")
  | _ => some (.error "json_to_string: bad object entry")

/-- The text around the texts of items, if there is memory for it. -/
def jsonJoin (opening closing : String) : Option (Except String (List String)) →
    Option (Except String String)
  | none => none
  | some (.error e) => some (.error e)
  | some (.ok texts) =>
    some (s.checkJsonOutput "json_to_string" (opening ++ ",".intercalate texts ++ closing))

/-- `json_string_at_depth`, by the levels that are left below `MAX_JSON_DEPTH`. `fuel` bounds the
walk along a list. -/
def jsonStringAtDepth (fuel : ℕ) : ℕ → Value → Option (Except String String)
  | levels, .heap r =>
    match s.heap.get r with
    | .error e => some (.error e)
    | .ok (.data tag fields) =>
      if tag = tagJArray ∨ tag = tagJObject then
        match levels with
        | 0 =>
          some (.error ("json_to_string: nesting exceeds " ++ toString maxJsonDepth ++ " levels"))
        | levels + 1 =>
          match s.heap.collectList fuel (fields.vals.head?.getD .unit) with
          | none => none
          | some (.error e) => some (.error e)
          | some (.ok elems) =>
            match s.checkStringVecCapacity "json_to_string" elems.length with
            | .error e => some (.error e)
            | .ok () =>
              if tag = tagJArray then
                jsonJoin s "[" "]" (walkLeft (jsonStringAtDepth fuel levels) elems)
              else
                jsonJoin s "\x7b" "\x7d"
                  (walkLeft (jsonEntry s (jsonStringAtDepth fuel levels)) elems)
      else some (jsonScalar host s tag fields)
    | .ok _ => some (.error "json_to_string: expected json value")
  | _, _ => some (.error "json_to_string: expected json value")

end Write

/-- `json_to_string`. What was charged stays charged after an error. -/
def jsonToString (host : JsonHost) (fuel : ℕ) (val : Value) (s : HostStore) :
    Option (Except String Value × HostStore) :=
  match s.charge "json_to_string" jsonSerializeHostWork with
  | .error e => some (.error e, s)
  | .ok s₁ =>
    match jsonStringAtDepth host s₁.store fuel maxJsonDepth val with
    | none => none
    | some (.error e) => some (.error e, s₁)
    | some (.ok result) =>
      match s₁.charge "json_to_string"
        (hostWork 0 jsonSerializePerKibHostWork result.utf8ByteSize) with
      | .error e => some (.error e, s₁)
      | .ok s₂ =>
        match s₂.store.heapAlloc (.string result) with
        | (res, store) => some (res, { s₂ with store := store })

/-! ## Reading -/

/-- `json_parse`. -/
def jsonParse (host : JsonHost) (val : Value) (s : HostStore) : Except String Value × HostStore :=
  match val with
  | .heap r =>
    match s.store.heap.get r with
    | .error e => (.error e, s)
    | .ok (.string text) =>
      match s.charge "json_parse"
        (hostWork jsonParseHostWork jsonParsePerKibHostWork text.utf8ByteSize) with
      | .error e => (.error e, s)
      | .ok s₁ =>
        match host.fromStr text with
        | .error e => (.error ("json_parse: " ++ e), s₁)
        | .ok doc =>
          match s₁.store.jsonToHiko doc with
          | (res, store) => (res, { s₁ with store := store })
    | .ok _ => (.error "json_parse: expected String", s)
  | _ => (.error "json_parse: expected String", s)

/-! ## The values of the datatype -/

/-- A value of the `Json` datatype. -/
inductive JsonValue where
  | null
  | bool (b : Bool)
  | int (n : Int64)
  | float (bits : UInt64)
  | str (s : String)
  | array (items : List JsonValue)
  | object (entries : List (String × JsonValue))

namespace JsonValue

mutual

/-- The tree that a value is in the heap. -/
def tree : JsonValue → ValueTree
  | null => .data tagJNull []
  | bool b => .data tagJBool [.scalar (.bool b)]
  | int n => .data tagJInt [.scalar (.int n)]
  | float bits => .data tagJFloat [.scalar (.float bits)]
  | str s => .data tagJStr [.string s]
  | array items => .data tagJArray [listTree (trees items)]
  | object entries => .data tagJObject [listTree (entryTrees entries)]

/-- The trees of several values. -/
def trees : List JsonValue → List ValueTree
  | [] => []
  | v :: vs => tree v :: trees vs

/-- The trees of entries. -/
def entryTrees : List (String × JsonValue) → List ValueTree
  | [] => []
  | (key, v) :: entries => .tuple [.string key, tree v] :: entryTrees entries

end

mutual

/-- The syntax of the text that is written for a value. -/
def toSyntax (displayF64 : UInt64 → String) : JsonValue → JsonSyntax
  | null => .null
  | bool b => .bool b
  | int n => .number (toString n.toInt)
  | float bits => .number (displayF64 bits)
  | str s => .string (s.toList.map escapeChar)
  | array items => .array (syntaxes displayF64 items)
  | object entries => .object (entrySyntaxes displayF64 entries)

/-- The syntax of several values. -/
def syntaxes (displayF64 : UInt64 → String) : List JsonValue → List JsonSyntax
  | [] => []
  | v :: vs => toSyntax displayF64 v :: syntaxes displayF64 vs

/-- The syntax of entries. -/
def entrySyntaxes (displayF64 : UInt64 → String) :
    List (String × JsonValue) → List (List JsonChar × JsonSyntax)
  | [] => []
  | (key, v) :: entries =>
    (key.toList.map escapeChar, toSyntax displayF64 v) :: entrySyntaxes displayF64 entries

end

mutual

/-- How deep arrays and objects are nested. -/
def depth : JsonValue → ℕ
  | array items => depths items + 1
  | object entries => entryDepths entries + 1
  | _ => 0

/-- The deepest of several values. -/
def depths : List JsonValue → ℕ
  | [] => 0
  | v :: vs => max (depth v) (depths vs)

/-- The deepest of some entries. -/
def entryDepths : List (String × JsonValue) → ℕ
  | [] => 0
  | (_, v) :: entries => max (depth v) (entryDepths entries)

end

mutual

/-- A property of all floats in a value. -/
def AllFloats (P : UInt64 → Prop) : JsonValue → Prop
  | float bits => P bits
  | array items => EveryFloat P items
  | object entries => EntryFloats P entries
  | _ => True

/-- The same for several values. -/
def EveryFloat (P : UInt64 → Prop) : List JsonValue → Prop
  | [] => True
  | v :: vs => AllFloats P v ∧ EveryFloat P vs

/-- The same for entries. -/
def EntryFloats (P : UInt64 → Prop) : List (String × JsonValue) → Prop
  | [] => True
  | (_, v) :: entries => AllFloats P v ∧ EntryFloats P entries

end

mutual

/-- The keys of each object are distinct. -/
def DistinctKeys : JsonValue → Prop
  | array items => EveryDistinct items
  | object entries => (entries.map (·.1)).Nodup ∧ EntriesDistinct entries
  | _ => True

/-- The same for several values. -/
def EveryDistinct : List JsonValue → Prop
  | [] => True
  | v :: vs => DistinctKeys v ∧ EveryDistinct vs

/-- The same for entries. -/
def EntriesDistinct : List (String × JsonValue) → Prop
  | [] => True
  | (_, v) :: entries => DistinctKeys v ∧ EntriesDistinct entries

end

mutual

/-- The value with the entries of its objects in key order. -/
def sorted : JsonValue → JsonValue
  | array items => array (sortedAll items)
  | object entries => object (inKeyOrder (sortedEntries entries))
  | v => v

/-- The same for several values. -/
def sortedAll : List JsonValue → List JsonValue
  | [] => []
  | v :: vs => sorted v :: sortedAll vs

/-- The same for the values of entries. -/
def sortedEntries : List (String × JsonValue) → List (String × JsonValue)
  | [] => []
  | (key, v) :: entries => (key, sorted v) :: sortedEntries entries

end

end JsonValue

/-! ## What the reader makes of a text -/

mutual

/-- What a syntax tree denotes for `serde_json`: strings are unescaped, the entries of an object are
in key order. Without a number for some text there is nothing. -/
def documentOf (readNumber : String → Option JsonNumber) : JsonSyntax → Option Json
  | .null => some .null
  | .bool b => some (.bool b)
  | .number text => (readNumber text).map .number
  | .string chars => some (.string (JsonSyntax.unquoted chars))
  | .array items => (documentsOf readNumber items).map .array
  | .object entries => (entriesOf readNumber entries).map fun es => .object (inKeyOrder es)

/-- The same for several trees. -/
def documentsOf (readNumber : String → Option JsonNumber) : List JsonSyntax → Option (List Json)
  | [] => some []
  | x :: xs => (documentOf readNumber x).bind fun doc => (documentsOf readNumber xs).map (doc :: ·)

/-- The same for entries. -/
def entriesOf (readNumber : String → Option JsonNumber) :
    List (List JsonChar × JsonSyntax) → Option (List (String × Json))
  | [] => some []
  | (key, x) :: entries => (documentOf readNumber x).bind fun doc =>
      (entriesOf readNumber entries).map ((JsonSyntax.unquoted key, doc) :: ·)

end

/-- The nesting that `serde_json` reads. -/
def readDepth : ℕ := 127

/-- `serde_json` reads a standard JSON text with this syntax as documented: what it denotes up to
some nesting, an error otherwise. -/
structure JsonHost.Reads (host : JsonHost) (x : JsonSyntax) : Prop where
  accepts : x.Valid → x.depth ≤ readDepth → ∀ doc, documentOf host.readNumber x = some doc →
    host.fromStr x.text = .ok doc
  rejects : x.Valid → readDepth < x.depth ∨ documentOf host.readNumber x = none →
    ∃ e, host.fromStr x.text = .error e

/-- The texts of the values of `i64` are read as these, and no other text is. -/
def JsonHost.ReadsIntegers (host : JsonHost) : Prop :=
  ∀ (text : String) (i : Int64),
    (∃ n, host.readNumber text = some n ∧ n.asI64 = some i) ↔ text = toString i.toInt

/-- The exponent of a float is not the largest one: it is no infinity and no NaN. -/
def FiniteBits (bits : UInt64) : Prop := bits.toNat / 2 ^ 52 % 2048 ≠ 2047

/-- `to_string` of a finite float has digits and at most a point. -/
def JsonHost.DisplaysFloats (host : JsonHost) : Prop :=
  ∀ bits, FiniteBits bits → IsNumberText (host.displayF64 bits)

/-- A float is not written as an integer of `i64`, and its text is read as the same float. -/
def JsonHost.KeepsFloat (host : JsonHost) (bits : UInt64) : Prop :=
  (∀ i : Int64, host.displayF64 bits ≠ toString i.toInt) ∧
    ∃ n, host.readNumber (host.displayF64 bits) = some n ∧ n.asF64 = some bits

end Hiko
