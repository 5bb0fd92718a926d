import Hiko.Syntax.Lexer

/-!
# Texts of the lexer

A text is the encoding of characters. What starts after an ASCII byte of a text is a text, and
slices between such places never panic.

## Main definitions

* `encode`, `Utf8`: the bytes of characters, bytes that are a text

## Main results

* `Utf8.after`: what follows an ASCII byte is a text
* `slice_text`, `nextChar_encode`: slices give the text and its characters
-/

namespace Hiko

/-- The bytes of characters. -/
def encode (cs : List Char) : List UInt8 := cs.flatMap String.utf8EncodeChar

/-- Bytes that are a text. -/
def Utf8 (bytes : List UInt8) : Prop := ∃ cs, bytes = encode cs

section Encode

variable {c : Char} {cs : List Char} {b : UInt8} {text rest init : List UInt8}

@[simp] theorem encode_nil : encode [] = [] := rfl

@[simp] theorem encode_cons (c : Char) (cs : List Char) :
    encode (c :: cs) = String.utf8EncodeChar c ++ encode cs := List.flatMap_cons

@[simp] theorem encode_append (cs cs' : List Char) : encode (cs ++ cs') = encode cs ++ encode cs' :=
  List.flatMap_append

/-- A character is one ASCII byte, or bytes that are none. -/
theorem encodeChar_cases (c : Char) :
    (c.toNat < 128 ∧ String.utf8EncodeChar c = [UInt8.ofNat c.toNat]) ∨
      128 ≤ c.toNat ∧ (∃ b bs, String.utf8EncodeChar c = b :: bs ∧ 192 ≤ b) ∧
        ∀ b ∈ String.utf8EncodeChar c, 128 ≤ b := by
  have hval : c.toNat = c.val.toNat := rfl
  unfold String.utf8EncodeChar
  dsimp only
  split
  · exact .inl ⟨by omega, rfl⟩
  · refine .inr ⟨by omega, ?_⟩
    split
    · refine ⟨⟨_, _, rfl, ?_⟩, fun b hb => ?_⟩
      · rw [UInt8.le_iff_toNat_le, UInt8.toNat_ofNat]
        simp
        omega
      · simp only [List.mem_cons, List.not_mem_nil, or_false] at hb
        rcases hb with rfl | rfl <;> rw [UInt8.le_iff_toNat_le, UInt8.toNat_ofNat] <;> simp <;>
          omega
    · split
      · refine ⟨⟨_, _, rfl, ?_⟩, fun b hb => ?_⟩
        · rw [UInt8.le_iff_toNat_le, UInt8.toNat_ofNat]
          simp
          omega
        · simp only [List.mem_cons, List.not_mem_nil, or_false] at hb
          rcases hb with rfl | rfl | rfl <;> rw [UInt8.le_iff_toNat_le, UInt8.toNat_ofNat] <;>
            simp <;> omega
      · refine ⟨⟨_, _, rfl, ?_⟩, fun b hb => ?_⟩
        · rw [UInt8.le_iff_toNat_le, UInt8.toNat_ofNat]
          simp
          omega
        · simp only [List.mem_cons, List.not_mem_nil, or_false] at hb
          rcases hb with rfl | rfl | rfl | rfl <;> rw [UInt8.le_iff_toNat_le, UInt8.toNat_ofNat] <;>
            simp <;> omega

/-- An ASCII byte at the start of a character is the character. -/
theorem encodeChar_ascii {bs : List UInt8} (h : String.utf8EncodeChar c = b :: bs) (hb : b < 128) :
    bs = [] ∧ c.toNat = b.toNat := by
  obtain ⟨hlt, hc⟩ | ⟨-, -, hall⟩ := encodeChar_cases c
  · rw [hc] at h
    obtain ⟨rfl, rfl⟩ := List.cons.inj h
    refine ⟨rfl, ?_⟩
    rw [UInt8.toNat_ofNat']
    omega
  · exact absurd hb (UInt8.not_lt.mpr (hall b (h ▸ List.mem_cons_self)))

theorem Utf8.nil : Utf8 [] := ⟨[], rfl⟩

theorem Utf8.append (h : Utf8 text) (h' : Utf8 rest) : Utf8 (text ++ rest) := by
  obtain ⟨cs, rfl⟩ := h
  obtain ⟨cs', rfl⟩ := h'
  exact ⟨cs ++ cs', (encode_append cs cs').symm⟩

theorem utf8_char (c : Char) : Utf8 (String.utf8EncodeChar c) := ⟨[c], by simp⟩

/-- Bytes are characters as long as they are ASCII. -/
theorem utf8_ascii (h : ∀ b ∈ text, b < 128) : Utf8 text := by
  induction text with
  | nil => exact .nil
  | cons b text ih =>
    obtain ⟨hb, hrest⟩ := List.forall_mem_cons.mp h
    have hchar : String.utf8EncodeChar (Char.ofNat b.toNat) = [b] := by
      have hlt : b.toNat < 128 := UInt8.lt_iff_toNat_lt.mp hb
      have hvalid : b.toNat.isValidChar := .inl (by omega)
      have hnat : (Char.ofNat b.toNat).toNat = b.toNat := by
        rw [Char.ofNat, dif_pos hvalid]
        rfl
      obtain ⟨-, hone⟩ | ⟨hge, -⟩ := encodeChar_cases (Char.ofNat b.toNat)
      · rw [hone, hnat, UInt8.ofNat_toNat]
      · omega
    have hone := utf8_char (Char.ofNat b.toNat)
    rw [hchar] at hone
    exact hone.append (ih hrest)

theorem utf8_byte (hb : b < 128) : Utf8 [b] := utf8_ascii (List.forall_mem_singleton.mpr hb)

/-- **What follows an ASCII byte of a text is a text.** -/
theorem Utf8.after (h : Utf8 (init ++ b :: rest)) (hb : b < 128) : Utf8 rest := by
  obtain ⟨cs, hcs⟩ := h
  induction cs generalizing init with
  | nil => exact absurd hcs (by simp)
  | cons c cs ih =>
    rw [encode_cons] at hcs
    obtain ⟨mid, hchar, hmid⟩ | ⟨mid, -, hmid⟩ := List.append_eq_append_iff.mp hcs
    · cases mid with
      | nil =>
        have hrest : [] ++ b :: rest = encode cs := hmid
        exact ih hrest
      | cons b' mid =>
        -- the byte is in the character, so it is the character
        obtain ⟨rfl, rfl⟩ := List.cons.inj hmid
        obtain ⟨-, hone⟩ | ⟨-, -, hall⟩ := encodeChar_cases c
        · rw [hchar] at hone
          obtain ⟨rfl, -, rfl⟩ : init = [] ∧ b = UInt8.ofNat c.toNat ∧ mid = [] := by
            cases init with
            | nil => simpa using hone
            | cons d init => simp at hone
          exact ⟨cs, rfl⟩
        · exact absurd hb (UInt8.not_lt.mpr (hall b (by simp [hchar])))
    · exact ih hmid.symm

theorem Utf8.tail (h : Utf8 (b :: rest)) (hb : b < 128) : Utf8 rest := by
  have hwhole : Utf8 ([] ++ b :: rest) := h
  exact hwhole.after hb

theorem Utf8.rest_of_last (h : Utf8 (text ++ rest))
    (hlast : ∃ init b, text = init ++ [b] ∧ b < 128) : Utf8 rest := by
  obtain ⟨init, b, rfl, hb⟩ := hlast
  rw [List.append_assoc, List.singleton_append] at h
  exact h.after hb

/-- Bytes of a kind that is ASCII end where a text starts. -/
theorem Utf8.dropWhile {p : UInt8 → Bool} (hp : ∀ b, p b → b < 128) (h : Utf8 text) :
    Utf8 (text.dropWhile p) := by
  induction text with
  | nil => exact h
  | cons b text ih =>
    by_cases hb : p b
    · rw [List.dropWhile_cons_of_pos hb]
      exact ih (h.tail (hp b hb))
    · rwa [List.dropWhile_cons_of_neg hb]

/-! ## Slices -/

theorem isBoundary_of_utf8 (h : Utf8 rest) : isBoundary rest := by
  obtain ⟨cs, rfl⟩ := h
  cases cs with
  | nil => rfl
  | cons c cs =>
    rw [encode_cons]
    obtain ⟨hlt, hc⟩ | ⟨-, ⟨b, bs, hc, hb⟩, -⟩ := encodeChar_cases c
    · rw [hc]
      simp only [List.singleton_append, isBoundary, Bool.or_eq_true, decide_eq_true_eq]
      refine .inl ?_
      rw [UInt8.lt_iff_toNat_lt, UInt8.toNat_ofNat]
      simp
      omega
    · rw [hc, List.cons_append, isBoundary]
      simp [hb]

theorem fromUTF8_encode (cs : List Char) :
    String.fromUTF8? (encode cs).toByteArray = some (String.ofList cs) := by
  have hvalid : (encode cs).toByteArray.IsValidUTF8 := ⟨cs, rfl⟩
  rw [String.fromUTF8?, dif_pos hvalid]
  exact congrArg some (String.toByteArray_inj.mp String.toByteArray_ofList.symm)

theorem bytes_ofList (cs : List Char) : (String.ofList cs).toUTF8.data.toList = encode cs := by
  rw [String.toUTF8_eq_toByteArray, String.toByteArray_ofList]
  exact List.toList_data_toByteArray

/-- The bytes of a string are a text. -/
theorem utf8_string (s : String) : Utf8 s.toUTF8.data.toList := by
  obtain ⟨cs, rfl⟩ := s.exists_eq_ofList
  exact ⟨cs, bytes_ofList cs⟩

@[simp] theorem taken_append (text rest : List UInt8) : taken (text ++ rest) rest = text := by
  simp [taken]

theorem slice_encode (cs : List Char) (hrest : Utf8 rest) :
    slice (encode cs ++ rest) rest = some (String.ofList cs) := by
  have hwhole : Utf8 (encode cs ++ rest) := Utf8.append ⟨cs, rfl⟩ hrest
  rw [slice, if_pos (by simp [isBoundary_of_utf8 hwhole, isBoundary_of_utf8 hrest]), taken_append,
    fromUTF8_encode]

/-- **A slice between texts is the text**, whatever follows. -/
theorem slice_text (h : Utf8 text) :
    ∃ s : String, s.toUTF8.data.toList = text ∧
      ∀ rest, Utf8 rest → slice (text ++ rest) rest = some s := by
  obtain ⟨cs, rfl⟩ := h
  exact ⟨String.ofList cs, bytes_ofList cs, fun rest hrest => slice_encode cs hrest⟩

/-- **A slice to the end gives the next character.** -/
theorem nextChar_append (lx : Lexer) (start : List UInt8) (c : Char) (h : Utf8 rest) :
    nextChar lx start (String.utf8EncodeChar c ++ rest) = .ok (c, rest) := by
  obtain ⟨cs, rfl⟩ := h
  have hboundary : isBoundary (String.utf8EncodeChar c ++ encode cs) :=
    isBoundary_of_utf8 ⟨c :: cs, (encode_cons c cs).symm⟩
  have hslice : sliceFrom (String.utf8EncodeChar c ++ encode cs) =
      some (String.ofList (c :: cs)) := by
    have htaken := taken_append (String.utf8EncodeChar c ++ encode cs) []
    rw [List.append_nil] at htaken
    rw [sliceFrom, slice, hboundary, htaken, ← encode_cons]
    exact fromUTF8_encode (c :: cs)
  rw [nextChar, hslice]
  simp only [String.toList_ofList]
  rw [← String.length_utf8EncodeChar, List.drop_left]

end Encode

end Hiko
