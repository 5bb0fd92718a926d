import Hiko.Syntax.LexNumbers

/-!
# Scanning tokens of every kind

Names, operators and the branches of the lexer: whatever branch is taken where a token starts, the
text of the token takes the same branch when it stands alone.

## Main definitions

* `isFixed`: the tokens that are neither literals with a value nor the end

## Main results

* `scans_tyvar`, `scans_ident`, `scans_operator`: names and operators
* `scans_kind`: every token
-/

namespace Hiko

/-- The tokens whose text denotes no value, and not the end. -/
def isFixed : Token → Bool
  | .stringLit _ | .charLit _ | .intLit _ | .wordLit _ | .eof => false
  | _ => true

theorem isFixed_spec {kind : Token} (h : isFixed kind) (text : List UInt8) :
    LiteralOk text kind ∧ kind ≠ .eof := by
  cases kind <;>
    first
    | exact (Bool.false_ne_true h).elim
    | exact ⟨trivial, fun he => by cases he⟩

/-! ## Names -/

section Names

variable {rest : List UInt8} {b q : UInt8}

theorem isIdentStart_char (h : isIdentStart b) : isIdentChar b := by
  simp only [isIdentStart, isIdentChar, Bool.or_eq_true, decide_eq_true_eq] at h ⊢
  exact h.imp_left .inl

/-- ASCII bytes that give a fixed token are the text of it. -/
theorem tokenText_ascii {scan : Lexer → List UInt8 → Except LexStop (Token × List UInt8)}
    {text : List UInt8} {kind : Token} (hne : text ≠ []) (hascii : ∀ b ∈ text, b < 128)
    (hkind : isFixed kind) (halone : ∀ lx, scan lx text = .ok (kind, [])) :
    TokenText scan text kind where
  utf8 := utf8_ascii hascii
  last := ascii_last hne hascii
  alone := halone
  literal := (isFixed_spec hkind text).1
  notEof := (isFixed_spec hkind text).2

/-- The run of a name: it is ASCII, and it is taken whole when it stands alone. -/
theorem run_name (hb : isIdentStart b) (hutf8 : Utf8 (b :: rest)) :
    ∃ name after, b :: rest = name ++ after ∧ (b :: rest).dropWhile isIdentChar = after ∧
      name.dropWhile isIdentChar = [] ∧ 1 ≤ name.length ∧ (∀ c ∈ name, c < 128) ∧ Utf8 after := by
  obtain ⟨hsplit, hall⟩ := run_split isIdentChar (b :: rest)
  refine ⟨_, _, hsplit, rfl, run_end hall, ?_, fun c hc => isIdentChar_ascii (hall c hc),
    hutf8.dropWhile fun c => isIdentChar_ascii⟩
  rw [List.takeWhile_cons_of_pos (isIdentStart_char hb)]
  simp

theorem scans_tyvar (hq : q < 128) (hb : isIdentStart b) (hutf8 : Utf8 (q :: b :: rest)) :
    Scans (fun _ => lexTyvar) 2 (q :: b :: rest) := by
  intro lx
  obtain ⟨name, after, hsplit, hdrop, halone, hlen, hname, hafter⟩ := run_name hb (hutf8.tail hq)
  have hascii : ∀ b ∈ q :: name, b < 128 := List.forall_mem_cons.mpr ⟨hq, hname⟩
  obtain ⟨s, -, hslice⟩ := slice_text (utf8_ascii hascii)
  have hwhole := hslice after hafter
  rw [List.cons_append, ← hsplit] at hwhole
  simp only [lexTyvar, List.drop_succ_cons, List.drop_zero, hdrop, hwhole]
  refine ⟨by simp, fun kind rest' h => ?_⟩
  cases h
  refine ⟨q :: name, congrArg _ hsplit, Nat.succ_le_succ hlen,
    tokenText_ascii (by simp) hascii rfl fun lx' => ?_⟩
  have htext := hslice [] .nil
  rw [List.append_nil] at htext
  simp only [lexTyvar, List.drop_succ_cons, List.drop_zero, halone, htext]

theorem identKind_fixed (text : String) : isFixed (identKind text) := by
  unfold identKind
  split
  · rfl
  · split
    · next kw hkw =>
      obtain ⟨l, l', heq, -⟩ := List.lookup_eq_some_iff.mp hkw
      have hall : ∀ e ∈ keywords, isFixed e.2 := by decide
      exact hall (text, kw) (by simp [heq])
    · split <;> rfl

theorem scans_ident (hb : isIdentStart b) (hutf8 : Utf8 (b :: rest)) :
    Scans (fun _ => lexIdent) 1 (b :: rest) := by
  intro lx
  obtain ⟨name, after, hsplit, hdrop, halone, hlen, hascii, hafter⟩ := run_name hb hutf8
  obtain ⟨s, -, hslice⟩ := slice_text (utf8_ascii hascii)
  have hwhole := hslice after hafter
  rw [← hsplit] at hwhole
  simp only [lexIdent, hdrop, hwhole]
  refine ⟨by simp, fun kind rest' h => ?_⟩
  cases h
  refine ⟨name, hsplit, hlen, tokenText_ascii (List.length_pos_iff.mp hlen) hascii
    (identKind_fixed s) fun lx' => ?_⟩
  have htext := hslice [] .nil
  rw [List.append_nil] at htext
  simp only [lexIdent, halone, htext]

end Names

/-! ## Operators -/

section Operators

variable {rest : List UInt8} {b : UInt8}

/-- Operators are ASCII, and they denote no value. -/
theorem operators_spec {pairs : List (UInt8 × Token)} {single : Token}
    (h : operators.lookup b = some (pairs, single)) :
    b < 128 ∧ isFixed single ∧ ∀ c kind, pairs.lookup c = some kind → c < 128 ∧ isFixed kind := by
  obtain ⟨l, l', heq, -⟩ := List.lookup_eq_some_iff.mp h
  have hall : ∀ o ∈ operators,
      o.1 < 128 ∧ isFixed o.2.2 ∧ ∀ p ∈ o.2.1, p.1 < 128 ∧ isFixed p.2 := by decide
  obtain ⟨hb, hsingle, hpairs⟩ := hall (b, pairs, single) (by simp [heq])
  refine ⟨hb, hsingle, fun c kind hc => ?_⟩
  obtain ⟨m, m', hm, -⟩ := List.lookup_eq_some_iff.mp hc
  have hmem : (c, kind) ∈ pairs := by simp [hm]
  exact hpairs (c, kind) hmem

theorem scans_operator : Scans lexOperator 1 (b :: rest) := by
  intro lx
  unfold lexOperator
  simp only [List.head?_cons, Option.bind_some, List.drop_succ_cons, List.drop_zero]
  cases hop : operators.lookup b with
  | none =>
    -- the character in the error is read without a slice that can panic
    exact ⟨by simp, fun kind rest' h => by cases h⟩
  | some op =>
    obtain ⟨pairs, single⟩ := op
    obtain ⟨hb, hsingle, hpairs⟩ := operators_spec hop
    dsimp only
    cases hpair : rest.head?.bind fun c => pairs.lookup c with
    | none =>
      refine ⟨by simp, fun kind rest' h => ?_⟩
      cases h
      refine ⟨[b], rfl, le_rfl, tokenText_ascii (by simp) (by simpa using hb) hsingle fun lx' => ?_⟩
      simp only [List.head?_cons, Option.bind_some, hop, List.drop_succ_cons,
        List.drop_zero, List.head?_nil, Option.bind_none]
    | some kind =>
      refine ⟨by simp, fun kind' rest' h => ?_⟩
      cases h
      obtain ⟨c, hc, hlookup⟩ := Option.bind_eq_some_iff.mp hpair
      obtain ⟨tail, rfl⟩ := List.head?_eq_some_iff.mp hc
      obtain ⟨hcAscii, hkind⟩ := hpairs c kind hlookup
      refine ⟨[b, c], rfl, by simp, tokenText_ascii (by simp) (by simp [hb, hcAscii]) hkind
        fun lx' => ?_⟩
      simp only [List.head?_cons, Option.bind_some, hop, List.drop_succ_cons,
        List.drop_zero, hlookup]

end Operators

/-! ## Branches -/

section Kinds

variable {lx : Lexer} {parseF64 : String → Option UInt64} {rest tail text : List UInt8}
  {b : UInt8} {least : ℕ}

theorem lexKind_cons :
    lexKind lx parseF64 (b :: rest) =
      if b = byte '"' then lexString lx (b :: rest)
      else if b = byte '#' ∧ rest.head? = some (byte '"') then lexChar lx (b :: rest)
      else if isDigit b then lexNumber lx parseF64 (b :: rest)
      else if b = byte '\'' ∧ rest.head?.any isIdentStart then lexTyvar (b :: rest)
      else if isIdentStart b then lexIdent (b :: rest)
      else lexOperator lx (b :: rest) := rfl

theorem text_cons (h : b :: rest = text ++ tail) (hlen : 1 ≤ text.length) :
    ∃ text', text = b :: text' ∧ rest = text' ++ tail := by
  cases text with
  | nil => simp at hlen
  | cons d text =>
    obtain ⟨rfl, hrest⟩ := List.cons.inj h
    exact ⟨text, rfl, hrest⟩

/-- A branch that is taken on the text of its token as well scans the token. -/
theorem Scans.branch {scan : Lexer → List UInt8 → Except LexStop (Token × List UInt8)}
    {start : List UInt8} (hscan : Scans scan least start) (hpos : 1 ≤ least)
    (hstart : ∀ lx, lexKind lx parseF64 start = scan lx start)
    (htext : ∀ lx text rest, start = text ++ rest → least ≤ text.length →
      lexKind lx parseF64 text = scan lx text) :
    Scans (fun lx => lexKind lx parseF64) 1 start := by
  intro lx
  obtain ⟨hpanic, hok⟩ := hscan lx
  dsimp only
  rw [hstart lx]
  refine ⟨hpanic, fun kind rest h => ?_⟩
  obtain ⟨text, heq, hlen, htoken⟩ := hok kind rest h
  refine ⟨text, heq, hpos.trans hlen, htoken.utf8, htoken.last, fun lx' => ?_, htoken.literal,
    htoken.notEof⟩
  exact (htext lx' text rest heq hlen).trans (htoken.alone lx')

/-- **Every branch of the lexer** takes the text of a token. -/
theorem scans_kind (hutf8 : Utf8 (b :: rest)) :
    Scans (fun lx => lexKind lx parseF64) 1 (b :: rest) := by
  by_cases hstring : b = byte '"'
  · refine (hstring ▸ scans_string (hutf8.tail (by rw [hstring]; decide)) :
      Scans lexString 1 (b :: rest)).branch le_rfl (fun lx => ?_) fun lx text tail heq hlen => ?_
    · rw [lexKind_cons, if_pos hstring]
    · obtain ⟨text, rfl, -⟩ := text_cons heq hlen
      rw [lexKind_cons, if_pos hstring]
  by_cases hchar : b = byte '#' ∧ rest.head? = some (byte '"')
  · obtain ⟨rfl, hquote⟩ := hchar
    obtain ⟨rest, rfl⟩ := List.head?_eq_some_iff.mp hquote
    have hrest : Utf8 rest := (hutf8.tail (by decide)).tail (by decide)
    refine (scans_char hrest).branch (Nat.le_succ 1) (fun lx => ?_) fun lx text tail heq hlen => ?_
    · rw [lexKind_cons, if_neg hstring, if_pos ⟨rfl, hquote⟩]
    · -- the text has both bytes
      obtain ⟨text, rfl, heq'⟩ := text_cons heq (Nat.le_of_succ_le hlen)
      obtain ⟨text, rfl, -⟩ := text_cons heq' (by simpa using hlen)
      rw [lexKind_cons, if_neg hstring, if_pos ⟨rfl, rfl⟩]
  -- a shorter text has no second byte
  have hshort : ∀ text tail : List UInt8, rest = text ++ tail →
      ¬ (b = byte '#' ∧ text.head? = some (byte '"')) := by
    rintro text tail rfl ⟨hb, hquote⟩
    obtain ⟨text, rfl⟩ := List.head?_eq_some_iff.mp hquote
    exact hchar ⟨hb, rfl⟩
  by_cases hdigit : isDigit b
  · refine (scans_number parseF64 hdigit hutf8).branch le_rfl (fun lx => ?_)
      fun lx text tail heq hlen => ?_
    · rw [lexKind_cons, if_neg hstring, if_neg hchar, if_pos hdigit]
    · obtain ⟨text, rfl, heq'⟩ := text_cons heq hlen
      rw [lexKind_cons, if_neg hstring, if_neg (hshort text tail heq'), if_pos hdigit]
  by_cases htyvar : b = byte '\'' ∧ rest.head?.any isIdentStart
  · obtain ⟨rfl, hname⟩ := htyvar
    obtain ⟨d, rest, rfl, hd⟩ : ∃ d ds, rest = d :: ds ∧ isIdentStart d := by
      cases rest with
      | nil => simp at hname
      | cons d ds => exact ⟨d, ds, rfl, by simpa using hname⟩
    refine (scans_tyvar (by decide) hd hutf8).branch (Nat.le_succ 1) (fun lx => ?_)
      fun lx text tail heq hlen => ?_
    · rw [lexKind_cons, if_neg hstring, if_neg hchar, if_neg hdigit, if_pos ⟨rfl, hname⟩]
    · obtain ⟨text, rfl, heq'⟩ := text_cons heq (Nat.le_of_succ_le hlen)
      have hnot := hshort text tail heq'
      obtain ⟨text, rfl, -⟩ := text_cons heq' (by simpa using hlen)
      rw [lexKind_cons, if_neg hstring, if_neg hnot, if_neg hdigit, if_pos ⟨rfl, by simpa using hd⟩]
  have hshort' : ∀ text tail : List UInt8, rest = text ++ tail →
      ¬ (b = byte '\'' ∧ text.head?.any isIdentStart) := by
    rintro text tail rfl ⟨hb, hname⟩
    cases text with
    | nil => simp at hname
    | cons d text => exact htyvar ⟨hb, by simpa using hname⟩
  by_cases hident : isIdentStart b
  · refine (scans_ident hident hutf8).branch le_rfl (fun lx => ?_) fun lx text tail heq hlen => ?_
    · rw [lexKind_cons, if_neg hstring, if_neg hchar, if_neg hdigit, if_neg htyvar, if_pos hident]
    · obtain ⟨text, rfl, heq'⟩ := text_cons heq hlen
      rw [lexKind_cons, if_neg hstring, if_neg (hshort text tail heq'), if_neg hdigit,
        if_neg (hshort' text tail heq'), if_pos hident]
  · refine scans_operator.branch le_rfl (fun lx => ?_) fun lx text tail heq hlen => ?_
    · rw [lexKind_cons, if_neg hstring, if_neg hchar, if_neg hdigit, if_neg htyvar, if_neg hident]
    · obtain ⟨text, rfl, heq'⟩ := text_cons heq hlen
      rw [lexKind_cons, if_neg hstring, if_neg (hshort text tail heq'), if_neg hdigit,
        if_neg (hshort' text tail heq'), if_neg hident]

end Kinds

end Hiko
