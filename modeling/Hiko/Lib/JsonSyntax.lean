import Mathlib.Tactic
import Mathlib.Data.String.Basic

/-!
# JSON texts

The syntax trees of compact JSON texts, with their texts and what their strings denote, and maps
with their entries in key order.

## Main definitions

* `JsonChar`, `JsonSyntax`: characters of strings and syntax trees
* `JsonSyntax.text`, `JsonSyntax.depth`, `JsonSyntax.Valid`: the text of a tree, its nesting, and
  what makes the text standard JSON
* `inKeyOrder`: a map as its entries, in key order

## Main results

* `isNumberText_int`: an integer is a number of JSON
* `inKeyOrder_perm`: distinct keys keep all entries
-/

namespace Hiko.Lib

/-! ## Characters -/

/-- A character of a string: as it is, escaped by a letter, or by a code below 256. -/
inductive JsonChar where
  | raw (c : Char)
  | short (letter c : Char)
  | unicode (high low : Fin 16)
deriving DecidableEq

namespace JsonChar

/-- A hexadecimal digit. -/
def hexDigit (n : Fin 16) : Char := n.val.digitChar

/-- The text of a character. -/
def text : JsonChar → String
  | raw c => String.singleton c
  | short letter _ => "\\" ++ String.singleton letter
  | unicode high low =>
    "\\u00" ++ String.singleton (hexDigit high) ++ String.singleton (hexDigit low)

/-- What a character denotes. -/
def char : JsonChar → Char
  | raw c => c
  | short _ c => c
  | unicode high low => Char.ofNat (high.val * 16 + low.val)

/-- The letters after a backslash, with what they denote. -/
def letters : List (Char × Char) :=
  [('"', '"'), ('\\', '\\'), ('/', '/'), ('b', '\x08'), ('f', '\x0c'), ('n', '\n'), ('r', '\r'),
    ('t', '\t')]

/-- A raw character is no quote, no backslash and no control character; an escape is a known one. -/
def Valid : JsonChar → Prop
  | raw c => ' ' ≤ c ∧ c ≠ '"' ∧ c ≠ '\\'
  | short letter c => (letter, c) ∈ letters
  | unicode _ _ => True

end JsonChar

/-! ## Numbers -/

/-- The text of a number without an exponent: digits without a leading zero, and digits after a
point. -/
def IsNumberText (text : String) : Prop :=
  ∃ (negative : Bool) (whole fraction : List Char),
    text = String.ofList ((if negative then ['-'] else []) ++ whole ++
      (if fraction = [] then [] else '.' :: fraction)) ∧
    whole ≠ [] ∧ (whole.head? = some '0' → whole = ['0']) ∧
    (∀ c ∈ whole, c.isDigit) ∧ ∀ c ∈ fraction, c.isDigit

/-- The digits of a positive number do not start with a zero. -/
theorem head?_toDigits (n : ℕ) (h : (Nat.toDigits 10 n).head? = some '0') : n = 0 := by
  induction n using Nat.strongRecOn with
  | ind n ih =>
    by_cases hn : n < 10
    · rw [Nat.toDigits_of_lt_base hn] at h
      interval_cases n <;> simp_all [Nat.digitChar]
    · rw [Nat.toDigits_of_base_le (by omega) (Nat.not_lt.mp hn), List.head?_append_of_ne_nil] at h
      · have := ih (n / 10) (by omega) h
        omega
      · exact Nat.toDigits_ne_nil

/-- **An integer is a number of JSON.** -/
theorem isNumberText_int (i : ℤ) : IsNumberText (toString i) := by
  have hnat : ∀ n : ℕ, (Nat.toDigits 10 n).head? = some '0' → Nat.toDigits 10 n = ['0'] := by
    intro n h
    rw [head?_toDigits n h]
    rfl
  have hdigits : ∀ n : ℕ, ∀ c ∈ Nat.toDigits 10 n, c.isDigit := fun n c hc =>
    Nat.isDigit_of_mem_toDigits (by decide) (by decide) hc
  cases i with
  | ofNat n =>
    refine ⟨false, Nat.toDigits 10 n, [], ?_, Nat.toDigits_ne_nil, hnat n, hdigits n, by simp⟩
    simp [toString, Int.repr, Nat.repr]
  | negSucc n =>
    refine ⟨true, Nat.toDigits 10 (n + 1), [], ?_, Nat.toDigits_ne_nil, hnat _, hdigits _, by simp⟩
    simp [toString, Int.repr, Nat.repr]

/-! ## Syntax trees -/

/-- A syntax tree of JSON. -/
inductive JsonSyntax where
  | null
  | bool (b : Bool)
  | number (text : String)
  | string (chars : List JsonChar)
  | array (items : List JsonSyntax)
  | object (entries : List (List JsonChar × JsonSyntax))

namespace JsonSyntax

/-- The text of a string. -/
def quoted (chars : List JsonChar) : String := "\"" ++ String.join (chars.map (·.text)) ++ "\""

/-- What a string denotes. -/
def unquoted (chars : List JsonChar) : String := String.ofList (chars.map (·.char))

mutual

/-- The text of a tree. -/
def text : JsonSyntax → String
  | null => "null"
  | bool b => toString b
  | number t => t
  | string chars => quoted chars
  | array items => "[" ++ ",".intercalate (texts items) ++ "]"
  | object entries => "\x7b" ++ ",".intercalate (entryTexts entries) ++ "\x7d"

/-- The texts of several trees. -/
def texts : List JsonSyntax → List String
  | [] => []
  | x :: xs => text x :: texts xs

/-- The texts of entries. -/
def entryTexts : List (List JsonChar × JsonSyntax) → List String
  | [] => []
  | (key, x) :: entries => (quoted key ++ ":" ++ text x) :: entryTexts entries

end

mutual

/-- How deep arrays and objects are nested. -/
def depth : JsonSyntax → ℕ
  | array items => depths items + 1
  | object entries => entryDepths entries + 1
  | _ => 0

/-- The deepest of several trees. -/
def depths : List JsonSyntax → ℕ
  | [] => 0
  | x :: xs => max (depth x) (depths xs)

/-- The deepest of some entries. -/
def entryDepths : List (List JsonChar × JsonSyntax) → ℕ
  | [] => 0
  | (_, x) :: entries => max (depth x) (entryDepths entries)

end

mutual

/-- The text of a tree is standard JSON. -/
def Valid : JsonSyntax → Prop
  | number t => IsNumberText t
  | string chars => ∀ c ∈ chars, c.Valid
  | array items => AllValid items
  | object entries => EntriesValid entries
  | _ => True

/-- The same for several trees. -/
def AllValid : List JsonSyntax → Prop
  | [] => True
  | x :: xs => Valid x ∧ AllValid xs

/-- The same for entries. -/
def EntriesValid : List (List JsonChar × JsonSyntax) → Prop
  | [] => True
  | (key, x) :: entries => (∀ c ∈ key, c.Valid) ∧ Valid x ∧ EntriesValid entries

end

end JsonSyntax

/-! ## Maps in key order -/

section Order

variable {α β : Type}

/-- Put an entry into a map whose entries are in key order. -/
def insertEntry (e : String × α) : List (String × α) → List (String × α)
  | [] => [e]
  | e' :: entries =>
    if e.1 < e'.1 then e :: e' :: entries
    else if e.1 = e'.1 then e :: entries
    else e' :: insertEntry e entries

/-- The map that has the entries put in from the first one on. -/
def inKeyOrder (entries : List (String × α)) : List (String × α) :=
  entries.foldl (fun m e => insertEntry e m) []

theorem insertEntry_map (f : α → β) (e : String × α) (m : List (String × α)) :
    insertEntry (e.1, f e.2) (m.map fun e => (e.1, f e.2)) =
      (insertEntry e m).map fun e => (e.1, f e.2) := by
  induction m with
  | nil => rfl
  | cons e' m ih =>
    simp only [List.map_cons, insertEntry]
    split
    · rfl
    · split
      · rfl
      · rw [ih, List.map_cons]

/-- The order does not depend on the values. -/
theorem inKeyOrder_map (f : α → β) (entries : List (String × α)) :
    inKeyOrder (entries.map fun e => (e.1, f e.2)) =
      (inKeyOrder entries).map fun e => (e.1, f e.2) := by
  have hfold : ∀ m : List (String × α),
      (entries.map fun e => (e.1, f e.2)).foldl (fun m e => insertEntry e m)
        (m.map fun e => (e.1, f e.2)) =
      (entries.foldl (fun m e => insertEntry e m) m).map fun e => (e.1, f e.2) := by
    induction entries with
    | nil => exact fun m => rfl
    | cons e entries ih =>
      intro m
      rw [List.map_cons, List.foldl_cons, List.foldl_cons, insertEntry_map]
      exact ih _
  exact hfold []

theorem insertEntry_perm {e : String × α} {m : List (String × α)} (h : ∀ e' ∈ m, e'.1 ≠ e.1) :
    (insertEntry e m).Perm (e :: m) := by
  induction m with
  | nil => exact .refl _
  | cons e' m ih =>
    obtain ⟨hne, hrest⟩ := List.forall_mem_cons.mp h
    rw [insertEntry]
    split
    · exact .refl _
    · rw [if_neg hne.symm]
      exact ((ih hrest).cons e').trans (.swap e e' m)

/-- **Distinct keys keep all entries.** -/
theorem inKeyOrder_perm {entries : List (String × α)} (h : (entries.map (·.1)).Nodup) :
    (inKeyOrder entries).Perm entries := by
  have hfold : ∀ m : List (String × α), ((m ++ entries).map (·.1)).Nodup →
      (entries.foldl (fun m e => insertEntry e m) m).Perm (m ++ entries) := by
    clear h
    induction entries with
    | nil => exact fun m _ => by rw [List.append_nil]; exact .refl _
    | cons e entries ih =>
      intro m hm
      have hmid : (m ++ e :: entries).Perm ((e :: m) ++ entries) := List.perm_middle
      have hfresh : ∀ e' ∈ m, e'.1 ≠ e.1 := by
        intro e' he' heq
        have hnodup := (hmid.map (·.1)).nodup_iff.mp hm
        rw [List.cons_append, List.map_cons, List.nodup_cons] at hnodup
        exact hnodup.1 (List.mem_map.mpr ⟨e', List.mem_append_left _ he', heq⟩)
      have hins := insertEntry_perm hfresh
      rw [List.foldl_cons]
      refine (ih _ ?_).trans ((hins.append_right entries).trans hmid.symm)
      exact (((hins.append_right entries).trans hmid.symm).map (·.1)).nodup_iff.mpr hm
  exact hfold [] (by simpa using h)

/-- **With the same distinct keys, maps with the same entries in order come from the same
entries.** -/
theorem inKeyOrder_inj {entries entries' : List (String × α)} (h : (entries.map (·.1)).Nodup)
    (hkeys : entries'.map (·.1) = entries.map (·.1))
    (heq : inKeyOrder entries' = inKeyOrder entries) : entries' = entries := by
  have hperm : entries'.Perm entries :=
    (inKeyOrder_perm (hkeys ▸ h)).symm.trans (heq ▸ inKeyOrder_perm h)
  clear heq
  induction entries generalizing entries' with
  | nil => exact hperm.eq_nil
  | cons e entries ih =>
    cases entries' with
    | nil => exact absurd hperm.symm.eq_nil (by simp)
    | cons e' entries' =>
      rw [List.map_cons, List.nodup_cons] at h
      rw [List.map_cons, List.map_cons, List.cons.injEq] at hkeys
      obtain rfl : e' = e := by
        rcases List.mem_cons.mp (hperm.subset List.mem_cons_self) with he | he
        · exact he
        · exact absurd (List.mem_map_of_mem he) (hkeys.1 ▸ h.1)
      rw [ih h.2 hkeys.2 (List.perm_cons _ |>.mp hperm)]

end Order

end Hiko.Lib
