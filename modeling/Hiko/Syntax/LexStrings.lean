import Hiko.Syntax.LexScan

/-!
# Scanning strings and characters

The scanners of string and character literals take the text of a token.

## Main results

* `stringLoop_spec`: the loop of a string
* `scans_string`, `scans_char`: the scanners
-/

namespace Hiko

/-- The first byte of a character is that of an ASCII character only if it is this character. -/
theorem head_ne {c x : Char} {b : UInt8} {bs : List UInt8} (h : String.utf8EncodeChar c = b :: bs)
    (hx : x.toNat < 128) (hne : c ≠ x) : b ≠ byte x := by
  rintro rfl
  have hbyte : (byte x).toNat = x.toNat := by
    rw [byte, UInt8.toNat_ofNat']
    omega
  have hlt : byte x < 128 := by
    rw [UInt8.lt_iff_toNat_lt, hbyte]
    exact hx
  exact hne (Char.toNat_inj.mp ((encodeChar_ascii h hlt).2.trans hbyte))

theorem encodeChar_ne_nil (c : Char) : ∃ b bs, String.utf8EncodeChar c = b :: bs := by
  obtain ⟨-, hc⟩ | ⟨-, ⟨b, bs, hc, -⟩, -⟩ := encodeChar_cases c
  · exact ⟨_, _, hc⟩
  · exact ⟨b, bs, hc⟩

/-- ASCII bytes end with one. -/
theorem ascii_last {text : List UInt8} (hne : text ≠ []) (h : ∀ b ∈ text, b < 128) :
    ∃ init b, text = init ++ [b] ∧ b < 128 := by
  obtain rfl | ⟨init, b, rfl⟩ := text.eq_nil_or_concat
  · exact absurd rfl hne
  · exact ⟨init, b, by simp, h b (by simp)⟩

/-! ## Strings -/

section Strings

variable {lx : Lexer} {start rest esc : List UInt8} {value : List Char} {c : Char}

theorem stringLoop_nil :
    stringLoop lx start value [] = .error (lx.err "unterminated string literal" start []) := by
  rw [stringLoop]

theorem stringLoop_quote :
    stringLoop lx start value (byte '"' :: rest) =
      .ok (.stringLit (String.ofList value), rest) := by
  rw [stringLoop]
  simp

theorem stringLoop_escape (h : Escape esc c) :
    stringLoop lx start value (esc ++ rest) = stringLoop lx start (value ++ [c]) rest := by
  have hparse := h.parse lx start rest
  obtain ⟨t, rfl⟩ : ∃ t, esc = byte '\\' :: t := by
    cases h <;> exact ⟨_, rfl⟩
  rw [List.cons_append] at hparse ⊢
  rw [stringLoop, if_neg (by decide), if_pos rfl]
  split
  · next e he => cases he.symm.trans hparse
  · next c' rest' he =>
    obtain ⟨rfl, rfl⟩ := Prod.mk.inj (Except.ok.inj (he.symm.trans hparse))
    rfl

theorem stringLoop_badEscape {e : LexStop}
    (h : parseEscape lx start (byte '\\' :: rest) = .error e) :
    stringLoop lx start value (byte '\\' :: rest) = .error e := by
  rw [stringLoop, if_neg (by decide), if_pos rfl]
  split
  · next e' he => rw [Except.error.inj (he.symm.trans h)]
  · next c rest' he => cases he.symm.trans h

theorem stringLoop_char (hq : c ≠ '"') (hb : c ≠ '\\') (hrest : Utf8 rest) :
    stringLoop lx start value (String.utf8EncodeChar c ++ rest) =
      stringLoop lx start (value ++ [c]) rest := by
  have hnext := nextChar_append lx start c hrest
  obtain ⟨b, bs, hc⟩ := encodeChar_ne_nil c
  rw [hc, List.cons_append] at hnext ⊢
  rw [stringLoop, if_neg (head_ne hc (by decide) hq), if_neg (head_ne hc (by decide) hb)]
  split
  · next e he => cases he.symm.trans hnext
  · next c' rest' he =>
    obtain ⟨rfl, rfl⟩ := Prod.mk.inj (Except.ok.inj (he.symm.trans hnext))
    rfl

/-- **The loop of a string** takes the text of its characters and the quote. -/
theorem stringLoop_spec (lx : Lexer) (start : List UInt8) (value : List Char) (hutf8 : Utf8 rest) :
    stringLoop lx start value rest ≠ .error .panic ∧ ∀ kind rest',
      stringLoop lx start value rest = .ok (kind, rest') →
        ∃ body chars, rest = body ++ byte '"' :: rest' ∧ Utf8 body ∧ StringText body chars ∧
          kind = .stringLit (String.ofList (value ++ chars)) ∧
            ∀ lx' start', stringLoop lx' start' value (body ++ [byte '"']) = .ok (kind, []) := by
  -- an escape takes several characters, so the induction is on the length of what is left
  induction hn : rest.length using Nat.strong_induction_on generalizing rest value with
  | h n ih =>
    subst hn
    obtain ⟨cs, rfl⟩ := hutf8
    cases cs with
    | nil =>
      rw [encode_nil, stringLoop_nil]
      exact err_takes _ _ _
    | cons c cs =>
      -- the closing quote, an escape, or any other character
      by_cases hq : c = '"'
      · subst hq
        have hquote : encode ('"' :: cs) = byte '"' :: encode cs := by
          rw [encode_cons, show String.utf8EncodeChar '"' = [byte '"'] by decide]
          rfl
        rw [hquote, stringLoop_quote]
        refine ⟨by simp, fun kind rest' h => ?_⟩
        cases h
        refine ⟨[], [], rfl, .nil, .nil, by rw [List.append_nil], fun lx' start' => ?_⟩
        exact stringLoop_quote
      · by_cases hb : c = '\\'
        · subst hb
          have hslash : encode ('\\' :: cs) = byte '\\' :: encode cs := by
            rw [encode_cons, show String.utf8EncodeChar '\\' = [byte '\\'] by decide]
            rfl
          obtain ⟨hpanic, hok⟩ := parseEscape_spec lx start (encode cs)
          rw [hslash]
          cases hparse : parseEscape lx start (byte '\\' :: encode cs) with
          | error e =>
            rw [stringLoop_badEscape hparse]
            exact error_takes hpanic hparse
          | ok res =>
            obtain ⟨c', mid⟩ := res
            obtain ⟨esc, hesc, heq⟩ := hok c' mid hparse
            have hne : esc ≠ [] := by
              rintro rfl
              cases hesc
            have hmid : Utf8 mid := by
              have hwhole : Utf8 (esc ++ mid) := ⟨_, heq.symm.trans hslash.symm⟩
              exact hwhole.rest_of_last (ascii_last hne hesc.ascii)
            rw [heq, stringLoop_escape hesc]
            have hlt : mid.length < (encode ('\\' :: cs)).length := by
              rw [hslash, heq, List.length_append]
              exact Nat.lt_add_of_pos_left (List.length_pos_iff.mpr hne)
            obtain ⟨hpanic', hok'⟩ := @ih _ hlt mid (value ++ [c']) hmid rfl
            refine ⟨hpanic', fun kind rest' h => ?_⟩
            obtain ⟨body, chars, rfl, hbody, htext, rfl, halone⟩ := hok' kind rest' h
            refine ⟨esc ++ body, c' :: chars, (List.append_assoc ..).symm,
              (utf8_ascii hesc.ascii).append hbody, .escape hesc htext, by simp,
              fun lx' start' => ?_⟩
            rw [List.append_assoc, stringLoop_escape hesc]
            exact halone lx' start'
        · rw [encode_cons, stringLoop_char hq hb ⟨cs, rfl⟩]
          have hlt : (encode cs).length < (encode (c :: cs)).length := by
            rw [encode_cons, List.length_append, String.length_utf8EncodeChar]
            exact Nat.lt_add_of_pos_left c.utf8Size_pos
          obtain ⟨hpanic', hok'⟩ := @ih _ hlt (encode cs) (value ++ [c]) ⟨cs, rfl⟩ rfl
          refine ⟨hpanic', fun kind rest' h => ?_⟩
          obtain ⟨body, chars, heq, hbody, htext, rfl, halone⟩ := hok' kind rest' h
          refine ⟨String.utf8EncodeChar c ++ body, c :: chars, by rw [heq, List.append_assoc],
            (utf8_char c).append hbody, .char hq hb htext, by simp, fun lx' start' => ?_⟩
          have hquote : Utf8 [byte '"'] := utf8_byte (by decide)
          rw [List.append_assoc, stringLoop_char hq hb (hbody.append hquote)]
          exact halone lx' start'

theorem scans_string (hutf8 : Utf8 rest) : Scans lexString 1 (byte '"' :: rest) := by
  intro lx
  obtain ⟨hpanic, hok⟩ := stringLoop_spec lx (byte '"' :: rest) [] hutf8
  refine ⟨hpanic, fun kind rest' h => ?_⟩
  obtain ⟨body, chars, rfl, hbody, htext, rfl, halone⟩ := hok kind rest' h
  have hquote : Utf8 [byte '"'] := utf8_byte (by decide)
  refine ⟨byte '"' :: (body ++ [byte '"']), by simp, by simp, ?_, ⟨byte '"' :: body, byte '"', rfl,
    by decide⟩, fun lx' => halone lx' _, ?_, by simp⟩
  · exact hquote.append (hbody.append hquote)
  · exact ⟨body, rfl, by simpa using htext⟩

/-! ## Characters -/

theorem lexChar_escape (h : Escape esc c) :
    lexChar lx (byte '#' :: byte '"' :: (esc ++ byte '"' :: rest)) = .ok (.charLit c, rest) := by
  have hparse := h.parse lx (byte '#' :: byte '"' :: (esc ++ byte '"' :: rest)) (byte '"' :: rest)
  obtain ⟨t, rfl⟩ : ∃ t, esc = byte '\\' :: t := by
    cases h <;> exact ⟨_, rfl⟩
  rw [List.cons_append] at hparse ⊢
  simp only [lexChar, List.drop_succ_cons, List.drop_zero, if_pos, hparse]

theorem lexChar_char (hb : c ≠ '\\') (hrest : Utf8 rest) :
    lexChar lx (byte '#' :: byte '"' :: (String.utf8EncodeChar c ++ byte '"' :: rest)) =
      .ok (.charLit c, rest) := by
  have hone : Utf8 [byte '"'] := utf8_byte (by decide)
  have hquote : Utf8 (byte '"' :: rest) := hone.append hrest
  have hnext := nextChar_append lx
    (byte '#' :: byte '"' :: (String.utf8EncodeChar c ++ byte '"' :: rest)) c hquote
  obtain ⟨b, bs, hc⟩ := encodeChar_ne_nil c
  rw [hc, List.cons_append] at hnext ⊢
  simp only [lexChar, List.drop_succ_cons, List.drop_zero, if_neg (head_ne hc (by decide) hb),
    hnext, if_pos]

theorem tokenText_char {body : List UInt8} (hbody : Utf8 body)
    (hcases : Escape body c ∨ c ≠ '\\' ∧ body = String.utf8EncodeChar c) :
    TokenText lexChar (byte '#' :: byte '"' :: (body ++ [byte '"'])) (.charLit c) where
  utf8 := by
    have hquote : Utf8 [byte '"'] := utf8_byte (by decide)
    have hhash : Utf8 [byte '#'] := utf8_byte (by decide)
    exact hhash.append (hquote.append (hbody.append hquote))
  last := ⟨byte '#' :: byte '"' :: body, byte '"', rfl, by decide⟩
  alone lx := by
    obtain hesc | ⟨hne, rfl⟩ := hcases
    · exact lexChar_escape hesc
    · exact lexChar_char hne .nil
  literal := ⟨body, rfl, hcases⟩
  notEof := by simp

/-- After the character there is the closing quote. -/
theorem lexChar_closed (lx : Lexer) (b : UInt8) (bs : List UInt8) {mid : List UInt8}
    (h : (if b = byte '\\' then parseEscape lx (byte '#' :: byte '"' :: b :: bs) (b :: bs)
      else nextChar lx (byte '#' :: byte '"' :: b :: bs) (b :: bs)) = .ok (c, mid)) :
    lexChar lx (byte '#' :: byte '"' :: b :: bs) ≠ .error .panic ∧ ∀ kind rest,
      lexChar lx (byte '#' :: byte '"' :: b :: bs) = .ok (kind, rest) →
        kind = .charLit c ∧ mid = byte '"' :: rest := by
  simp only [lexChar, List.drop_succ_cons, List.drop_zero, h]
  cases mid with
  | nil => exact err_takes _ _ _
  | cons q mid =>
    dsimp only
    split
    · next hq =>
      refine ⟨by simp, fun kind rest heq => ?_⟩
      cases heq
      exact ⟨rfl, by rw [hq]⟩
    · exact err_takes _ _ _

theorem lexChar_error (lx : Lexer) (b : UInt8) (bs : List UInt8) {e : LexStop}
    (h : (if b = byte '\\' then parseEscape lx (byte '#' :: byte '"' :: b :: bs) (b :: bs)
      else nextChar lx (byte '#' :: byte '"' :: b :: bs) (b :: bs)) = .error e) :
    lexChar lx (byte '#' :: byte '"' :: b :: bs) = .error e := by
  simp only [lexChar, List.drop_succ_cons, List.drop_zero, h]

theorem scans_char (hutf8 : Utf8 rest) : Scans lexChar 2 (byte '#' :: byte '"' :: rest) := by
  intro lx
  obtain ⟨cs, rfl⟩ := hutf8
  cases cs with
  | nil =>
    refine ⟨by simp [lexChar, Lexer.err], fun kind rest' h => ?_⟩
    simp [lexChar, Lexer.err] at h
  | cons c cs =>
    by_cases hb : c = '\\'
    · subst hb
      have hslash : encode ('\\' :: cs) = byte '\\' :: encode cs := by
        rw [encode_cons, show String.utf8EncodeChar '\\' = [byte '\\'] by decide]
        rfl
      rw [hslash]
      obtain ⟨hpanic, hok⟩ := parseEscape_spec lx
        (byte '#' :: byte '"' :: byte '\\' :: encode cs) (encode cs)
      cases hparse : parseEscape lx (byte '#' :: byte '"' :: byte '\\' :: encode cs)
          (byte '\\' :: encode cs) with
      | error e =>
        have herror := lexChar_error lx (byte '\\') (encode cs)
          (by rw [if_pos rfl]; exact hparse)
        rw [herror]
        exact error_takes hpanic hparse
      | ok res =>
        obtain ⟨c', mid⟩ := res
        obtain ⟨esc, hesc, heq⟩ := hok c' mid hparse
        obtain ⟨hpanic', hclosed⟩ := lexChar_closed lx (byte '\\') (encode cs)
          (by rw [if_pos rfl]; exact hparse)
        refine ⟨hpanic', fun kind rest' h => ?_⟩
        obtain ⟨rfl, rfl⟩ := hclosed kind rest' h
        refine ⟨byte '#' :: byte '"' :: (esc ++ [byte '"']), by simp [heq], by simp, ?_⟩
        exact tokenText_char (utf8_ascii hesc.ascii) (.inl hesc)
    · have hcs : Utf8 (encode cs) := ⟨cs, rfl⟩
      have hnext := nextChar_append lx (byte '#' :: byte '"' :: encode (c :: cs)) c hcs
      obtain ⟨b, bs, hc⟩ := encodeChar_ne_nil c
      -- the first byte of another character is no backslash
      rw [encode_cons, hc, List.cons_append] at hnext ⊢
      obtain ⟨hpanic, hclosed⟩ := lexChar_closed lx b (bs ++ encode cs)
        (by rw [if_neg (head_ne hc (by decide) hb)]; exact hnext)
      refine ⟨hpanic, fun kind rest' h => ?_⟩
      obtain ⟨rfl, hrest⟩ := hclosed kind rest' h
      refine ⟨byte '#' :: byte '"' :: (String.utf8EncodeChar c ++ [byte '"']), by simp [hc, hrest],
        by simp, ?_⟩
      exact tokenText_char (utf8_char c) (.inr ⟨hb, rfl⟩)

end Strings

end Hiko
