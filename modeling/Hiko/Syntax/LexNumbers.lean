import Hiko.Syntax.LexStrings

/-!
# Scanning numbers

The scanner of word, integer and float literals takes the text of a token.

## Main results

* `lexWord_spec`: the word literals
* `fraction_spec`, `exponent_spec`: the parts of a float
* `scans_number`: the scanner
-/

namespace Hiko

section Runs

variable {p : UInt8 → Bool} {text rest : List UInt8}

/-- Bytes of a kind, and what is left after them. -/
theorem run_split (p : UInt8 → Bool) (text : List UInt8) :
    text = text.takeWhile p ++ text.dropWhile p ∧ ∀ b ∈ text.takeWhile p, p b :=
  ⟨List.takeWhile_append_dropWhile.symm, fun _ hb => List.mem_takeWhile_imp hb⟩

/-- A run of bytes of a kind ends where the text ends. -/
theorem run_end (h : ∀ b ∈ text, p b) : text.dropWhile p = [] :=
  List.dropWhile_eq_nil_iff.mpr h

theorem dropWhile_stop (h : ∀ b ∈ rest.head?, ¬ p b) : rest.dropWhile p = rest := by
  cases rest with
  | nil => rfl
  | cons b rest => exact List.dropWhile_cons_of_neg (h b rfl)

/-- A run is taken again as long as what follows starts with another byte. -/
theorem run_again (htext : ∀ b ∈ text, p b) (h : ∀ b ∈ rest.head?, ¬ p b) :
    (text ++ rest).dropWhile p = rest := by
  rw [List.dropWhile_append_of_pos htext, dropWhile_stop h]

end Runs

/-! ## Words -/

section Words

variable {lx : Lexer} {start digits rest : List UInt8} {p : UInt8 → Bool}

theorem toU64?_some {value : ℕ} {w : UInt64} (h : toU64? value = some w) : w.toNat = value := by
  unfold toU64? at h
  split at h
  · next hlt =>
    obtain rfl := Option.some.inj h
    rw [UInt64.toNat_ofNat', Nat.mod_eq_of_lt hlt]
  · cases h

/-- **The digits of a word literal** are taken, and it has the value that they denote. -/
theorem wordToken_spec (lx : Lexer) (start : List UInt8) (missing overflow : String)
    (value : List UInt8 → ℕ) (hp : ∀ b, p b → b < 128) (hutf8 : Utf8 digits) :
    wordToken lx start digits (digits.dropWhile p) missing overflow value ≠ .error .panic ∧
      ∀ kind rest, wordToken lx start digits (digits.dropWhile p) missing overflow value =
          .ok (kind, rest) →
        ∃ ds w, digits = ds ++ rest ∧ ds ≠ [] ∧ (∀ b ∈ ds, p b) ∧ kind = .wordLit w ∧
          w.toNat = value ds ∧ ∀ lx' start',
            wordToken lx' start' ds (ds.dropWhile p) missing overflow value = .ok (kind, []) := by
  obtain ⟨hsplit, hall⟩ := run_split p digits
  have hrest := hutf8.dropWhile hp
  generalize digits.takeWhile p = ds at hsplit hall
  generalize digits.dropWhile p = rest at hsplit hrest ⊢
  subst hsplit
  -- the digits are ASCII, so slicing them off gives their text
  have hds : Utf8 ds := utf8_ascii fun b hb => hp b (hall b hb)
  obtain ⟨s, -, hslice⟩ := slice_text hds
  unfold wordToken
  rw [hslice rest hrest, taken_append]
  split
  · exact err_takes _ _ _
  · next hlen =>
    dsimp only
    cases hvalue : toU64? (value ds) with
    | none => exact err_takes _ _ _
    | some w =>
      refine ⟨by simp, fun kind rest' h => ?_⟩
      cases h
      have hne : ds ≠ [] := by
        rintro rfl
        exact hlen rfl
      refine ⟨ds, w, rfl, hne, hall, rfl, toU64?_some hvalue, fun lx' start' => ?_⟩
      have halone := hslice [] .nil
      have htaken := taken_append ds []
      rw [List.append_nil] at halone htaken
      have hpos := List.length_pos_iff.mpr hne
      rw [run_end hall, List.length_nil, if_neg (by omega), halone, htaken, hvalue]

/-- A digit is no `x`. -/
theorem isDigit_ne {b : UInt8} (h : isDigit b) : b ≠ byte 'x' ∧ b ≠ byte 'X' := by
  constructor
  all_goals
    rintro rfl
    exact absurd h (by decide)

theorem literalOk_decimal {w : UInt64} (hne : digits ≠ []) (hall : ∀ b ∈ digits, isDigit b)
    (hvalue : w.toNat = decimalValue digits) :
    LiteralOk (byte '0' :: byte 'w' :: digits) (.wordLit w) :=
  .inl ⟨digits, rfl, hne, hall, hvalue⟩

theorem literalOk_hex {w : UInt64} {x : UInt8} (hx : x = byte 'x' ∨ x = byte 'X')
    (hne : digits ≠ []) (hall : ∀ b ∈ digits, isHexDigit b) (hvalue : w.toNat = hexValue digits) :
    LiteralOk (byte '0' :: byte 'w' :: x :: digits) (.wordLit w) :=
  .inr ⟨x, digits, hx, rfl, hne, hall, hvalue⟩

/-- **Word literals** are decimal or hexadecimal. -/
theorem lexWord_spec (lx : Lexer) (start : List UInt8) (hutf8 : Utf8 rest) :
    lexWord lx start rest ≠ .error .panic ∧ ∀ kind rest',
      lexWord lx start rest = .ok (kind, rest') →
        ∃ text w, rest = text ++ rest' ∧ text ≠ [] ∧ (∀ b ∈ text, b < 128) ∧ kind = .wordLit w ∧
          LiteralOk (byte '0' :: byte 'w' :: text) (.wordLit w) ∧
            ∀ lx' start', lexWord lx' start' text = .ok (kind, []) := by
  by_cases hx : rest.head? = some (byte 'x') ∨ rest.head? = some (byte 'X')
  · obtain ⟨x, digits, rfl, hx'⟩ : ∃ x digits, rest = x :: digits ∧
        (x = byte 'x' ∨ x = byte 'X') := by
      cases rest with
      | nil => simp at hx
      | cons x digits => exact ⟨x, digits, rfl, by simpa using hx⟩
    have hascii : x < 128 := by
      obtain rfl | rfl := hx' <;> decide
    have hdigits : Utf8 digits := hutf8.tail hascii
    obtain ⟨hpanic, hok⟩ := wordToken_spec lx start "expected hex digits after 0wx"
      "word literal overflow: 0wx" hexValue (p := isHexDigit) (fun b => isHexDigit_ascii) hdigits
    rw [lexWord, if_pos hx, List.tail_cons]
    refine ⟨hpanic, fun kind rest' h => ?_⟩
    obtain ⟨ds, w, rfl, hne, hall, rfl, hvalue, halone⟩ := hok kind rest' h
    refine ⟨x :: ds, w, rfl, by simp, ?_, rfl, literalOk_hex hx' hne hall hvalue,
      fun lx' start' => ?_⟩
    · exact List.forall_mem_cons.mpr ⟨hascii, fun b hb => isHexDigit_ascii (hall b hb)⟩
    · rw [lexWord, if_pos (by simpa using hx'), List.tail_cons]
      exact halone lx' start'
  · obtain ⟨hpanic, hok⟩ := wordToken_spec lx start "expected digits after 0w"
      "word literal overflow: 0w" decimalValue (p := isDigit) (fun b => isDigit_ascii) hutf8
    rw [lexWord, if_neg hx]
    refine ⟨hpanic, fun kind rest' h => ?_⟩
    obtain ⟨ds, w, rfl, hne, hall, rfl, hvalue, halone⟩ := hok kind rest' h
    refine ⟨ds, w, rfl, hne, fun b hb => isDigit_ascii (hall b hb), rfl,
      literalOk_decimal hne hall hvalue, fun lx' start' => ?_⟩
    rw [lexWord, if_neg, halone lx' start']
    -- digits do not start with an `x`
    cases ds with
    | nil => exact absurd rfl hne
    | cons d ds =>
      have hd := isDigit_ne (hall d List.mem_cons_self)
      simpa using hd

end Words

/-! ## Integers and floats -/

section Numbers

variable {lx : Lexer} {start text rest : List UInt8} {parseF64 : String → Option UInt64}
  {isFloat : Bool} {b : UInt8}

/-- The bytes that an exponent starts with. -/
def isExponent (b : UInt8) : Bool := b = byte 'e' || b = byte 'E'

theorem isExponent_spec (h : isExponent b) : b < 128 ∧ ¬ isDigit b ∧ b ≠ byte '.' := by
  simp only [isExponent, Bool.or_eq_true, decide_eq_true_eq] at h
  obtain rfl | rfl := h <;> decide

/-- **A fraction** is taken, whether or not an exponent follows. -/
theorem fraction_spec (hutf8 : Utf8 rest) :
    ∃ frac, rest = frac ++ (fraction rest).2 ∧ Utf8 (fraction rest).2 ∧ (∀ b ∈ frac, b < 128) ∧
      (∀ b ∈ frac.head?, b = byte '.') ∧ ((fraction rest).1 = false → frac = []) ∧
        ∀ tail, (∀ b ∈ tail.head?, isExponent b) →
          fraction (frac ++ tail) = ((fraction rest).1, tail) := by
  have hnone : ∀ tail : List UInt8, (∀ b ∈ tail.head?, isExponent b) →
      fraction tail = (false, tail) := by
    intro tail htail
    rcases tail with - | ⟨b, - | ⟨d, ds⟩⟩
    · rfl
    · rfl
    · have hdot := (isExponent_spec (htail b rfl)).2.2
      simp [fraction, hdot]
  by_cases hdot : ∃ d ds, rest = byte '.' :: d :: ds ∧ isDigit d
  · obtain ⟨d, ds, rfl, hd⟩ := hdot
    have hfrac : fraction (byte '.' :: d :: ds) = (true, (d :: ds).dropWhile isDigit) := by
      simp [fraction, hd]
    obtain ⟨hsplit, hall⟩ := run_split isDigit (d :: ds)
    have hdigits : Utf8 (d :: ds) := hutf8.tail (by decide)
    have hafter := hdigits.dropWhile fun b => isDigit_ascii
    rw [hfrac]
    dsimp only
    have hne : (d :: ds).takeWhile isDigit = d :: ds.takeWhile isDigit := by
      rw [List.takeWhile_cons_of_pos hd]
    refine ⟨byte '.' :: (d :: ds).takeWhile isDigit, congrArg _ hsplit, hafter, ?_, by simp,
      by simp, fun tail htail => ?_⟩
    · exact List.forall_mem_cons.mpr ⟨by decide, fun b hb => isDigit_ascii (hall b hb)⟩
    · have hagain := run_again hall fun b hb => (isExponent_spec (htail b hb)).2.1
      rw [hne] at hagain ⊢
      rw [List.cons_append, List.cons_append, fraction, if_pos (by simp [hd])]
      exact congrArg _ hagain
  · have hfrac : fraction rest = (false, rest) := by
      rcases rest with - | ⟨b, - | ⟨d, ds⟩⟩
      · rfl
      · rfl
      · rw [fraction, if_neg]
        intro hb
        simp only [Bool.and_eq_true, decide_eq_true_eq] at hb
        exact hdot ⟨d, ds, by rw [hb.1], hb.2⟩
    rw [hfrac]
    exact ⟨[], rfl, hutf8, by simp, by simp, by simp, hnone⟩

/-- **An exponent** is taken. -/
theorem exponent_spec (lx : Lexer) (start : List UInt8) (isFloat : Bool) (hutf8 : Utf8 rest) :
    exponent lx start isFloat rest ≠ .error .panic ∧ ∀ isFloat' rest',
      exponent lx start isFloat rest = .ok (isFloat', rest') →
        ∃ exp, rest = exp ++ rest' ∧ Utf8 rest' ∧ (∀ b ∈ exp, b < 128) ∧
          (∀ b ∈ exp.head?, isExponent b) ∧ (isFloat' = false → isFloat = false ∧ exp = []) ∧
            ∀ lx' start', exponent lx' start' isFloat exp = .ok (isFloat', []) := by
  by_cases he : rest.head? = some (byte 'e') ∨ rest.head? = some (byte 'E')
  · obtain ⟨e, tail, rfl, hexp⟩ : ∃ e tail, rest = e :: tail ∧ isExponent e := by
      cases rest with
      | nil => simp at he
      | cons e tail => exact ⟨e, tail, rfl, by simpa [isExponent] using he⟩
    -- the sign is taken with the exponent
    obtain ⟨sign, digits, rfl, hsign, hascii, hagain⟩ : ∃ sign digits, tail = sign ++ digits ∧
        skipSign tail = digits ∧ (∀ b ∈ sign, b < 128) ∧
          ∀ d ds, isDigit d → skipSign (sign ++ d :: ds) = d :: ds := by
      by_cases hs : tail.head? = some (byte '+') ∨ tail.head? = some (byte '-')
      · cases tail with
        | nil => simp at hs
        | cons b digits =>
          have hb : b = byte '+' ∨ b = byte '-' := by simpa using hs
          refine ⟨[b], digits, rfl, by rw [skipSign, if_pos hs]; rfl, ?_, fun d ds _ => ?_⟩
          · refine List.forall_mem_singleton.mpr ?_
            obtain rfl | rfl := hb <;> decide
          · rw [skipSign, if_pos (by simpa using hb)]
            rfl
      · refine ⟨[], tail, rfl, by rw [skipSign, if_neg hs], by simp, fun d ds hd => ?_⟩
        rw [skipSign, List.nil_append, if_neg]
        rintro (h | h)
        all_goals
          obtain rfl := Option.some.inj h
          exact absurd hd (by decide)
    have hwhole : Utf8 ((e :: sign) ++ digits) := hutf8
    have heAscii := (isExponent_spec hexp).1
    have hsigned : ∀ b ∈ e :: sign, b < 128 := List.forall_mem_cons.mpr ⟨heAscii, hascii⟩
    have hdigits : Utf8 digits := hwhole.rest_of_last (ascii_last (by simp) hsigned)
    rw [exponent, if_pos he, List.tail_cons, hsign]
    cases digits with
    | nil => exact err_takes _ _ _
    | cons d ds =>
      dsimp only
      split
      · next hd =>
        refine ⟨by simp, fun isFloat' rest' h => ?_⟩
        cases h
        obtain ⟨hsplit, hall⟩ := run_split isDigit ds
        refine ⟨e :: (sign ++ d :: ds.takeWhile isDigit), ?_, ?_, ?_, ?_, by simp,
          fun lx' start' => ?_⟩
        · rw [List.cons_append, List.append_assoc, List.cons_append, ← hsplit]
        · have hds : Utf8 ds := hdigits.tail (isDigit_ascii hd)
          exact hds.dropWhile fun b => isDigit_ascii
        · intro b hb
          obtain hb | hb := List.mem_append.mp (List.cons_append ▸ hb : b ∈ (e :: sign) ++ _)
          · exact hsigned b hb
          · obtain rfl | hb := List.mem_cons.mp hb
            · exact isDigit_ascii hd
            · exact isDigit_ascii (hall b hb)
        · simpa using hexp
        · have he' : e = byte 'e' ∨ e = byte 'E' := by simpa [isExponent] using hexp
          rw [exponent, if_pos (by simpa using he'), List.tail_cons, hagain d _ hd]
          dsimp only
          rw [if_pos hd, run_end hall]
      · exact err_takes _ _ _
  · rw [exponent, if_neg he]
    refine ⟨by simp, fun isFloat' rest' h => ?_⟩
    cases h
    exact ⟨[], rfl, hutf8, by simp, by simp, fun h => ⟨h, rfl⟩,
      fun lx' start' => by simp [exponent]⟩

theorem toI64?_some {value : ℕ} {n : Int64} (h : toI64? value = some n) : n.toInt = value := by
  unfold toI64? at h
  split at h
  · next hlt =>
    obtain rfl := Option.some.inj h
    exact Int64.toInt_ofNat_of_lt (by simpa using hlt)
  · cases h

/-- **The text of a number** gives its token. -/
theorem numberToken_spec (lx : Lexer) (parseF64 : String → Option UInt64) (isFloat : Bool)
    (htext : Utf8 text) (hrest : Utf8 rest) :
    numberToken lx parseF64 (text ++ rest) isFloat rest ≠ .error .panic ∧ ∀ kind rest',
      numberToken lx parseF64 (text ++ rest) isFloat rest = .ok (kind, rest') →
        rest' = rest ∧ (∀ lx', numberToken lx' parseF64 text isFloat [] = .ok (kind, [])) ∧
          ((∃ bits, kind = .floatLit bits) ∨
            isFloat = false ∧ ∃ n, kind = .intLit n ∧ n.toInt = decimalValue text) := by
  obtain ⟨s, -, hslice⟩ := slice_text htext
  have halone := hslice [] .nil
  have htaken := taken_append text []
  rw [List.append_nil] at halone htaken
  unfold numberToken
  rw [hslice rest hrest, halone, taken_append, htaken]
  dsimp only
  split
  · cases hparse : parseF64 s with
    | none => exact err_takes _ _ _
    | some bits =>
      dsimp only
      split
      · exact err_takes _ _ _
      · refine ⟨by simp, fun kind rest' h => ?_⟩
        cases h
        exact ⟨rfl, fun lx' => rfl, .inl ⟨bits, rfl⟩⟩
  · next hfloat =>
    cases hvalue : toI64? (decimalValue text) with
    | none => exact err_takes _ _ _
    | some n =>
      refine ⟨by simp, fun kind rest' h => ?_⟩
      cases h
      exact ⟨rfl, fun lx' => rfl, .inr ⟨by simpa using hfloat, n, rfl, toI64?_some hvalue⟩⟩

theorem take_two {a d : UInt8} (h : text.take 2 = [a, d]) : (text ++ rest).take 2 = [a, d] := by
  rcases text with - | ⟨a', - | ⟨d', text⟩⟩
  · simp at h
  · simp at h
  · simpa using h

theorem head?_append_all {q : UInt8 → Prop} {tail : List UInt8} (htext : ∀ b ∈ text.head?, q b)
    (htail : ∀ b ∈ tail.head?, q b) : ∀ b ∈ (text ++ tail).head?, q b := by
  cases text with
  | nil => exact htail
  | cons b text => exact htext

/-- **Numbers** are taken. -/
theorem scans_number (parseF64 : String → Option UInt64) (hd : isDigit b)
    (hutf8 : Utf8 (b :: rest)) :
    Scans (fun lx => lexNumber lx parseF64) 1 (b :: rest) := by
  intro lx
  dsimp only
  by_cases hword : (b :: rest).take 2 = [byte '0', byte 'w']
  · obtain ⟨tail, rfl, rfl⟩ : ∃ tail, b = byte '0' ∧ rest = byte 'w' :: tail := by
      cases rest with
      | nil => simp at hword
      | cons c tail =>
        obtain ⟨rfl, rfl⟩ : b = byte '0' ∧ c = byte 'w' := by simpa using hword
        exact ⟨tail, rfl, rfl⟩
    have htail : Utf8 tail := (hutf8.tail (by decide)).tail (by decide)
    obtain ⟨hpanic, hok⟩ := lexWord_spec lx (byte '0' :: byte 'w' :: tail) htail
    rw [lexNumber, if_pos hword]
    refine ⟨hpanic, fun kind rest' h => ?_⟩
    obtain ⟨text, w, rfl, hne, hascii, rfl, hliteral, halone⟩ := hok kind rest' h
    have hall : ∀ b ∈ byte '0' :: byte 'w' :: text, b < 128 :=
      List.forall_mem_cons.mpr ⟨by decide, List.forall_mem_cons.mpr ⟨by decide, hascii⟩⟩
    refine ⟨byte '0' :: byte 'w' :: text, rfl, by simp, utf8_ascii hall, ascii_last (by simp) hall,
      fun lx' => ?_, hliteral, by simp⟩
    have htake : (byte '0' :: byte 'w' :: text).take 2 = [byte '0', byte 'w'] := rfl
    rw [lexNumber, if_pos htake]
    exact halone lx' _
  · rw [lexNumber, if_neg hword]
    have hfirst : (b :: rest).takeWhile isDigit ≠ [] := by
      rw [List.takeWhile_cons_of_pos hd]
      simp
    obtain ⟨hsplit, hall⟩ := run_split isDigit (b :: rest)
    have hafter := hutf8.dropWhile fun b => isDigit_ascii
    generalize (b :: rest).takeWhile isDigit = digits at hsplit hall hfirst
    generalize (b :: rest).dropWhile isDigit = tail at hsplit hafter ⊢
    obtain ⟨frac, hfrac, hutf8', hfracAscii, hdot, hnoFrac, hfracAgain⟩ := fraction_spec hafter
    generalize hf : fraction tail = res at hfrac hutf8' hnoFrac hfracAgain ⊢
    obtain ⟨isFloat, tail'⟩ := res
    dsimp only at hfrac hutf8' hnoFrac hfracAgain ⊢
    obtain ⟨hpanic, hok⟩ := exponent_spec lx (b :: rest) isFloat hutf8'
    cases he : exponent lx (b :: rest) isFloat tail' with
    | error e => exact error_takes hpanic he
    | ok res =>
      obtain ⟨isFloat', rest'⟩ := res
      obtain ⟨exp, rfl, hrest', hexpAscii, hexp, hnoExp, hexpAgain⟩ := hok isFloat' rest' he
      dsimp only
      -- the text is the digits, the fraction and the exponent
      have hwhole : b :: rest = (digits ++ (frac ++ exp)) ++ rest' := by
        rw [hsplit, hfrac]
        simp only [List.append_assoc]
      have hascii : ∀ b ∈ digits ++ (frac ++ exp), b < 128 := by
        intro d hdigit
        simp only [List.mem_append] at hdigit
        obtain h | h | h := hdigit
        · exact isDigit_ascii (hall d h)
        · exact hfracAscii d h
        · exact hexpAscii d h
      obtain ⟨hpanic', hok'⟩ := numberToken_spec lx parseF64 isFloat' (utf8_ascii hascii) hrest'
      rw [hwhole]
      refine ⟨hpanic', fun kind rest'' h => ?_⟩
      obtain ⟨rfl, halone, hkind⟩ := hok' kind rest'' h
      -- alone, the digits end where they ended in the source
      have hstop : ∀ d ∈ (frac ++ exp).head?, ¬ isDigit d := by
        refine head?_append_all (fun d hd' => ?_) fun d hd' => (isExponent_spec (hexp d hd')).2.1
        rw [hdot d hd']
        decide
      refine ⟨digits ++ (frac ++ exp), rfl, ?_, utf8_ascii hascii,
        ascii_last (by simp [hfirst]) hascii, fun lx' => ?_, ?_, ?_⟩
      · rw [List.length_append]
        have hpos := List.length_pos_iff.mpr hfirst
        omega
      · rw [lexNumber, if_neg (fun h => hword (by rw [hwhole]; exact take_two h)),
          run_again hall hstop, hfracAgain exp hexp]
        dsimp only
        rw [hexpAgain lx']
        exact halone lx'
      · obtain ⟨bits, rfl⟩ | ⟨hint, n, rfl, hvalue⟩ := hkind
        · trivial
        · -- an integer has neither a fraction nor an exponent
          obtain ⟨hint', rfl⟩ := hnoExp hint
          obtain rfl := hnoFrac hint'
          simp only [List.append_nil] at hvalue ⊢
          exact ⟨hfirst, hall, hvalue⟩
      · obtain ⟨bits, rfl⟩ | ⟨-, n, rfl, -⟩ := hkind <;> simp

end Numbers

end Hiko
