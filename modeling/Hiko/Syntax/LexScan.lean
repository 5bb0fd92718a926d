import Hiko.Syntax.LexText
import Mathlib.Data.List.DropRight
import Mathlib.Data.List.TakeWhile

/-!
# Scanning tokens

What the lexer skips between tokens, and what it takes for each kind of token: the text of a token
gives the same token when it stands alone, and its literal is the one that the text denotes.

## Main definitions

* `Trivia`, `Nest`: whitespace and complete comments
* `StringText`, `LiteralOk`: what the text of a literal denotes
* `TokenText`: the text of a token

## Main results

* `skipTrivia_ok`: what is skipped
* `scans_string`, `scans_number`, and so on: what is taken
-/

namespace Hiko

/-! ## Whitespace and comments -/

/-- A comment ends here. -/
def closesComment (rest : List UInt8) : Bool := rest.take 2 = [byte '*', byte ')']

/-- The text after the start of a comment, up to the end of as many comments. -/
inductive Nest : ℕ → List UInt8 → Prop
  | done : Nest 0 []
  | opened {depth : ℕ} {rest : List UInt8} : Nest (depth + 2) rest →
      Nest (depth + 1) (byte '(' :: byte '*' :: rest)
  | closed {depth : ℕ} {rest : List UInt8} : Nest depth rest →
      Nest (depth + 1) (byte '*' :: byte ')' :: rest)
  | other {depth : ℕ} {b : UInt8} {rest : List UInt8} : opensComment (b :: rest) = false →
      closesComment (b :: rest) = false → Nest (depth + 1) rest → Nest (depth + 1) (b :: rest)

/-- Whitespace and complete comments. -/
inductive Trivia : List UInt8 → Prop
  | nil : Trivia []
  | space {b : UInt8} {rest : List UInt8} : isWhitespace b → Trivia rest → Trivia (b :: rest)
  | comment {body rest : List UInt8} : Nest 1 body → Trivia rest →
      Trivia (byte '(' :: byte '*' :: (body ++ rest))

section Comments

variable {lx : Lexer} {depth : ℕ} {rest rest' start text : List UInt8}

theorem commentLoop_zero (rest : List UInt8) : commentLoop 0 rest = (0, rest) := by
  rcases rest with - | ⟨b, - | ⟨c, rest⟩⟩ <;> simp [commentLoop]

/-- A comment that is closed ends with an ASCII byte. -/
theorem commentLoop_last (hpos : 0 < depth) (h : commentLoop depth rest = (0, rest')) :
    ∃ init b, rest = init ++ b :: rest' ∧ b < 128 := by
  induction depth, rest using commentLoop.induct with
  | case1 depth =>
    cases h
    omega
  | case2 b => omega
  | case3 depth b hne =>
    rw [commentLoop, if_neg hne] at h
    cases h
    omega
  | case4 b c rest => omega
  | case5 depth b c rest hne hopen ih =>
    rw [commentLoop, if_neg hne, if_pos hopen] at h
    obtain ⟨rfl, rfl⟩ := hopen
    -- the depth may become zero again after 2 ^ 32 comments
    by_cases hwrap : (depth + 1) % 2 ^ 32 = 0
    · rw [hwrap, commentLoop_zero] at h
      obtain rfl := (Prod.mk.inj h).2
      exact ⟨[byte '('], byte '*', rfl, by decide⟩
    · obtain ⟨init, d, rfl, hd⟩ := ih (Nat.pos_of_ne_zero hwrap) h
      exact ⟨byte '(' :: byte '*' :: init, d, rfl, hd⟩
  | case6 depth b c rest hne hopen hclose ih =>
    rw [commentLoop, if_neg hne, if_neg hopen, if_pos hclose] at h
    obtain ⟨rfl, rfl⟩ := hclose
    by_cases hlast : depth - 1 = 0
    · rw [hlast, commentLoop_zero] at h
      obtain rfl := (Prod.mk.inj h).2
      exact ⟨[byte '*'], byte ')', rfl, by decide⟩
    · obtain ⟨init, d, rfl, hd⟩ := ih (Nat.pos_of_ne_zero hlast) h
      exact ⟨byte '*' :: byte ')' :: init, d, rfl, hd⟩
  | case7 depth b c rest hne hopen hclose ih =>
    rw [commentLoop, if_neg hne, if_neg hopen, if_neg hclose] at h
    obtain ⟨init, d, heq, hd⟩ := ih hpos h
    exact ⟨b :: init, d, by rw [heq]; rfl, hd⟩

/-- **Comments are closed as often as they are opened**, in a text of less than 2 ^ 32 bytes. -/
theorem commentLoop_nest (hpos : 0 < depth) (hlen : depth + rest.length < 2 ^ 32)
    (h : commentLoop depth rest = (0, rest')) : ∃ text, rest = text ++ rest' ∧ Nest depth text := by
  induction depth, rest using commentLoop.induct with
  | case1 depth =>
    cases h
    omega
  | case2 b => omega
  | case3 depth b hne =>
    rw [commentLoop, if_neg hne] at h
    cases h
    omega
  | case4 b c rest => omega
  | case5 depth b c rest hne hopen ih =>
    rw [commentLoop, if_neg hne, if_pos hopen] at h
    obtain ⟨rfl, rfl⟩ := hopen
    obtain ⟨depth, rfl⟩ := Nat.exists_eq_succ_of_ne_zero hne
    simp only [List.length_cons] at hlen
    have hmod : (depth + 1 + 1) % 2 ^ 32 = depth + 2 := Nat.mod_eq_of_lt (by omega)
    rw [Nat.succ_eq_add_one, hmod] at h ih
    obtain ⟨text, rfl, hnest⟩ := ih (by omega) (by omega) h
    exact ⟨byte '(' :: byte '*' :: text, rfl, .opened hnest⟩
  | case6 depth b c rest hne hopen hclose ih =>
    rw [commentLoop, if_neg hne, if_neg hopen, if_pos hclose] at h
    obtain ⟨rfl, rfl⟩ := hclose
    obtain ⟨depth, rfl⟩ := Nat.exists_eq_succ_of_ne_zero hne
    simp only [List.length_cons] at hlen
    rw [Nat.succ_eq_add_one, Nat.add_sub_cancel] at h ih
    cases depth with
    | zero =>
      rw [commentLoop_zero] at h
      obtain rfl := (Prod.mk.inj h).2
      exact ⟨[byte '*', byte ')'], rfl, .closed .done⟩
    | succ depth =>
      obtain ⟨text, rfl, hnest⟩ := ih (by omega) (by omega) h
      exact ⟨byte '*' :: byte ')' :: text, rfl, .closed hnest⟩
  | case7 depth b c rest hne hopen hclose ih =>
    rw [commentLoop, if_neg hne, if_neg hopen, if_neg hclose] at h
    obtain ⟨depth, rfl⟩ := Nat.exists_eq_succ_of_ne_zero hne
    simp only [List.length_cons] at hlen ih
    obtain ⟨text, heq, hnest⟩ := ih hpos (by omega) h
    -- the second byte is in the comment as well
    obtain ⟨text, rfl⟩ : ∃ t, text = c :: t := by
      cases text with
      | nil => cases hnest
      | cons d text =>
        obtain ⟨rfl, -⟩ := List.cons.inj heq
        exact ⟨text, rfl⟩
    refine ⟨b :: c :: text, by rw [heq]; rfl, .other ?_ ?_ hnest⟩
    · simpa [opensComment] using hopen
    · simpa [closesComment] using hclose

end Comments

section Skip

variable {lx : Lexer} {rest start text : List UInt8} {b : UInt8}

/-- A token starts here, or the text ends: there is neither whitespace nor a comment. -/
def StartsToken (start : List UInt8) : Prop :=
  start.dropWhile isWhitespace = start ∧ opensComment start = false

theorem isWhitespace_ascii (h : isWhitespace b) : b < 128 := by
  simp only [isWhitespace, Bool.or_eq_true, decide_eq_true_eq] at h
  rcases h with (((rfl | rfl) | rfl) | rfl) | rfl <;> decide

theorem skipComment_noPanic : skipComment lx start ≠ .error .panic := by
  intro h
  unfold skipComment at h
  split at h
  split at h
  · cases h
  · cases h

theorem skipComment_ok (hopen : opensComment start) (h : skipComment lx start = .ok rest) :
    ∃ comment, start = comment ++ rest ∧ (∃ init b, comment = init ++ [b] ∧ b < 128) ∧
      (start.length < 2 ^ 32 →
        ∃ body, comment = byte '(' :: byte '*' :: body ∧ Nest 1 body) := by
  obtain ⟨tail, rfl⟩ : ∃ tail, start = byte '(' :: byte '*' :: tail := by
    rcases start with - | ⟨b, - | ⟨c, tail⟩⟩
    · simp [opensComment] at hopen
    · simp [opensComment] at hopen
    · obtain ⟨rfl, rfl⟩ : b = byte '(' ∧ c = byte '*' := by simpa [opensComment] using hopen
      exact ⟨tail, rfl⟩
  have hloop : commentLoop 1 tail = (0, rest) := by
    unfold skipComment at h
    split at h
    next depth rest' heq =>
      split at h
      · cases h
      · next hdepth =>
        obtain rfl := Except.ok.inj h
        obtain rfl : depth = 0 := by omega
        exact heq
  obtain ⟨init, b, rfl, hb⟩ := commentLoop_last Nat.one_pos hloop
  refine ⟨byte '(' :: byte '*' :: (init ++ [b]), by simp,
    ⟨byte '(' :: byte '*' :: init, b, rfl, hb⟩, fun hlen => ?_⟩
  simp only [List.length_cons] at hlen
  obtain ⟨body, heq, hnest⟩ := commentLoop_nest Nat.one_pos (by omega) hloop
  refine ⟨body, ?_, hnest⟩
  have hbody : init ++ [b] = body := List.append_cancel_right (by simpa using heq)
  rw [hbody]

theorem trivia_spaces {spaces : List UInt8} (h : ∀ b ∈ spaces, isWhitespace b)
    (hrest : Trivia rest) : Trivia (spaces ++ rest) := by
  induction spaces with
  | nil => exact hrest
  | cons b spaces ih =>
    obtain ⟨hb, hspaces⟩ := List.forall_mem_cons.mp h
    exact .space hb (ih hspaces)

/-- **What is skipped between tokens** is whitespace and complete comments. -/
theorem skipTrivia_ok (h : skipTrivia lx rest = .ok start) (hutf8 : Utf8 rest) :
    Utf8 start ∧ StartsToken start ∧
      ∃ text, rest = text ++ start ∧ (rest.length < 2 ^ 32 → Trivia text) := by
  induction rest using skipTrivia.induct lx with
  | case1 rest hopen e he =>
    rw [skipTrivia, dif_pos hopen] at h
    split at h
    · cases h
    · next mid hmid => cases he.symm.trans hmid
  | case2 rest hopen mid hmid ih =>
    -- whitespace, a comment, and what is skipped after it
    rw [skipTrivia, dif_pos hopen] at h
    split at h
    · cases h
    · next mid' hmid' =>
      obtain rfl := Except.ok.inj (hmid.symm.trans hmid')
      obtain ⟨comment, hcomment, hlast, hnest⟩ := skipComment_ok hopen hmid
      have hdrop := hutf8.dropWhile fun b => isWhitespace_ascii
      rw [hcomment] at hdrop
      obtain ⟨hstart, hstarts, text, rfl, htrivia⟩ := ih h (hdrop.rest_of_last hlast)
      have hrest : rest = rest.takeWhile isWhitespace ++ (comment ++ (text ++ start)) := by
        rw [← hcomment, List.takeWhile_append_dropWhile]
      refine ⟨hstart, hstarts, rest.takeWhile isWhitespace ++ (comment ++ text), ?_, fun hlen => ?_⟩
      · rw [List.append_assoc, List.append_assoc]
        exact hrest
      · have hlength := congrArg List.length hrest
        simp only [List.length_append] at hlength
        obtain ⟨body, rfl, hbody⟩ := hnest (by
          rw [hcomment]
          simp only [List.length_append]
          omega)
        refine trivia_spaces (fun b hb => List.mem_takeWhile_imp hb) ?_
        exact .comment hbody (htrivia (by simp only [List.length_append]; omega))
  | case3 rest hopen =>
    rw [skipTrivia, dif_neg hopen] at h
    obtain rfl := Except.ok.inj h
    refine ⟨hutf8.dropWhile fun b => isWhitespace_ascii,
      ⟨List.dropWhile_idempotent .., by simpa using hopen⟩, rest.takeWhile isWhitespace,
      List.takeWhile_append_dropWhile.symm, fun _ => ?_⟩
    rw [← List.append_nil (rest.takeWhile isWhitespace)]
    exact trivia_spaces (fun b hb => List.mem_takeWhile_imp hb) .nil

theorem skipTrivia_noPanic : skipTrivia lx rest ≠ .error .panic := by
  intro h
  induction rest using skipTrivia.induct lx with
  | case1 rest hopen e he =>
    rw [skipTrivia, dif_pos hopen] at h
    split at h
    · next e' he' =>
      cases h
      exact skipComment_noPanic he'
    · next mid hmid => cases he.symm.trans hmid
  | case2 rest hopen mid hmid ih =>
    rw [skipTrivia, dif_pos hopen] at h
    split at h
    · next e he => cases he.symm.trans hmid
    · next mid' hmid' =>
      obtain rfl := Except.ok.inj (hmid.symm.trans hmid')
      exact ih h
  | case3 rest hopen =>
    rw [skipTrivia, dif_neg hopen] at h
    cases h

/-- Nothing is skipped where a token starts. -/
theorem StartsToken.skip (h : StartsToken text) : skipTrivia lx text = .ok text := by
  rw [skipTrivia, h.1, dif_neg (by simp [h.2])]

theorem StartsToken.of_append (h : StartsToken (text ++ rest)) : StartsToken text := by
  obtain ⟨hspace, hcomment⟩ := h
  cases text with
  | nil => exact ⟨rfl, rfl⟩
  | cons b text =>
    rw [List.cons_append] at hspace hcomment
    have hb : ¬ isWhitespace b := by
      intro hb
      rw [List.dropWhile_cons_of_pos hb] at hspace
      have hle := (List.dropWhile_sublist (l := text ++ rest) isWhitespace).length_le
      rw [hspace, List.length_cons] at hle
      omega
    refine ⟨List.dropWhile_cons_of_neg hb, ?_⟩
    cases text with
    | nil => simp [opensComment]
    | cons c text => simpa [opensComment] using hcomment

end Skip

/-! ## Literals -/

/-- The text of an escape, and its character. -/
inductive Escape : List UInt8 → Char → Prop
  | simple {b : UInt8} {c : Char} : escapes.lookup b = some c → Escape [byte '\\', b] c
  | hex {hi lo h l : UInt8} : hexDigit hi = some h → hexDigit lo = some l →
      Escape [byte '\\', byte 'x', hi, lo] (Char.ofNat (h.toNat * 16 + l.toNat))

/-- The text between the quotes of a string, and its characters. -/
inductive StringText : List UInt8 → List Char → Prop
  | nil : StringText [] []
  | char {c : Char} {text : List UInt8} {cs : List Char} : c ≠ '"' → c ≠ '\\' →
      StringText text cs → StringText (String.utf8EncodeChar c ++ text) (c :: cs)
  | escape {esc text : List UInt8} {c : Char} {cs : List Char} : Escape esc c →
      StringText text cs → StringText (esc ++ text) (c :: cs)

/-- The value of a literal is the one that its text denotes. -/
def LiteralOk (text : List UInt8) : Token → Prop
  | .stringLit s => ∃ body, text = byte '"' :: (body ++ [byte '"']) ∧ StringText body s.toList
  | .charLit c => ∃ body, text = byte '#' :: byte '"' :: (body ++ [byte '"']) ∧
      (Escape body c ∨ c ≠ '\\' ∧ body = String.utf8EncodeChar c)
  | .intLit n => text ≠ [] ∧ (∀ b ∈ text, isDigit b) ∧ n.toInt = decimalValue text
  | .wordLit w =>
    (∃ digits, text = byte '0' :: byte 'w' :: digits ∧ digits ≠ [] ∧ (∀ b ∈ digits, isDigit b) ∧
      w.toNat = decimalValue digits) ∨
    ∃ x digits, (x = byte 'x' ∨ x = byte 'X') ∧ text = byte '0' :: byte 'w' :: x :: digits ∧
      digits ≠ [] ∧ (∀ b ∈ digits, isHexDigit b) ∧ w.toNat = hexValue digits
  | _ => True

/-- The text of a token: it is a text that ends with an ASCII byte, and it gives the token when it
stands alone. -/
structure TokenText (scan : Lexer → List UInt8 → Except LexStop (Token × List UInt8))
    (text : List UInt8) (kind : Token) : Prop where
  utf8 : Utf8 text
  last : ∃ init b, text = init ++ [b] ∧ b < 128
  alone : ∀ lx, scan lx text = .ok (kind, [])
  literal : LiteralOk text kind
  notEof : kind ≠ .eof

/-- A scanner does not panic, and it takes the text of a token, of a least length. -/
def Scans (scan : Lexer → List UInt8 → Except LexStop (Token × List UInt8)) (least : ℕ)
    (start : List UInt8) : Prop :=
  ∀ lx, scan lx start ≠ .error .panic ∧ ∀ kind rest, scan lx start = .ok (kind, rest) →
    ∃ text, start = text ++ rest ∧ least ≤ text.length ∧ TokenText scan text kind

/-- An error that is passed on is a panic only if it was one. -/
theorem error_noPanic {α β : Type} {x : Except LexStop α} {e : LexStop} (hx : x ≠ .error .panic)
    (h : x = .error e) : (.error e : Except LexStop β) ≠ .error .panic := by
  intro he
  exact hx (h.trans (congrArg _ (Except.error.inj he)))

/-- An error takes nothing. -/
theorem error_takes {α β : Type} {x : Except LexStop α} {e : LexStop} {Q : β → List UInt8 → Prop}
    (hx : x ≠ .error .panic) (h : x = .error e) :
    (.error e : Except LexStop (β × List UInt8)) ≠ .error .panic ∧
      ∀ a rest, (.error e : Except LexStop (β × List UInt8)) = .ok (a, rest) → Q a rest :=
  ⟨error_noPanic hx h, fun a rest hok => by cases hok⟩

theorem err_takes {β : Type} {lx : Lexer} {Q : β → List UInt8 → Prop} (message : String)
    (start rest : List UInt8) :
    (.error (lx.err message start rest) : Except LexStop (β × List UInt8)) ≠ .error .panic ∧
      ∀ a rest', (.error (lx.err message start rest) : Except LexStop (β × List UInt8)) =
        .ok (a, rest') → Q a rest' :=
  ⟨by simp [Lexer.err], fun a rest' hok => by cases hok⟩

section Escapes

variable {lx : Lexer} {start rest text body : List UInt8} {b d : UInt8} {c : Char}

theorem isDigit_ascii (h : isDigit b) : b < 128 := by
  simp only [isDigit, Bool.and_eq_true, decide_eq_true_eq] at h
  exact UInt8.lt_of_le_of_lt h.2 (by decide)

theorem isUppercase_ascii (h : isUppercase b) : b < 128 := by
  simp only [isUppercase, Bool.and_eq_true, decide_eq_true_eq] at h
  exact UInt8.lt_of_le_of_lt h.2 (by decide)

theorem isAlphabetic_ascii (h : isAlphabetic b) : b < 128 := by
  simp only [isAlphabetic, Bool.or_eq_true, Bool.and_eq_true, decide_eq_true_eq] at h
  obtain h | h := h
  · exact UInt8.lt_of_le_of_lt h.2 (by decide)
  · exact isUppercase_ascii h

theorem isIdentChar_ascii (h : isIdentChar b) : b < 128 := by
  simp only [isIdentChar, Bool.or_eq_true, decide_eq_true_eq] at h
  obtain (h | h) | rfl := h
  · exact isAlphabetic_ascii h
  · exact isDigit_ascii h
  · decide

/-- A hexadecimal digit is ASCII and below 16. -/
theorem hexDigit_some (h : hexDigit b = some d) : b < 128 ∧ d.toNat < 16 := by
  unfold hexDigit at h
  have h0 : (byte '0').toNat = 48 := by decide
  have h9 : (byte '9').toNat = 57 := by decide
  have ha : (byte 'a').toNat = 97 := by decide
  have hf : (byte 'f').toNat = 102 := by decide
  have hA : (byte 'A').toNat = 65 := by decide
  have hF : (byte 'F').toNat = 70 := by decide
  have h10 : (10 : UInt8).toNat = 10 := by decide
  have h128 : (128 : UInt8).toNat = 128 := by decide
  have hb := b.toNat_lt
  split at h
  · next hdigit =>
    refine ⟨isDigit_ascii hdigit, ?_⟩
    obtain rfl := Option.some.inj h
    simp only [isDigit, Bool.and_eq_true, decide_eq_true_eq, UInt8.le_iff_toNat_le] at hdigit
    rw [UInt8.toNat_sub_of_le _ _ (UInt8.le_iff_toNat_le.mpr hdigit.1)]
    omega
  · split at h
    · next hlower =>
      obtain rfl := Option.some.inj h
      simp only [Bool.and_eq_true, decide_eq_true_eq] at hlower
      have hsub := UInt8.toNat_sub_of_le _ _ hlower.1
      rw [UInt8.le_iff_toNat_le, UInt8.le_iff_toNat_le] at hlower
      rw [UInt8.lt_iff_toNat_lt, UInt8.toNat_add, hsub]
      omega
    · split at h
      · next hupper =>
        obtain rfl := Option.some.inj h
        simp only [Bool.and_eq_true, decide_eq_true_eq] at hupper
        have hsub := UInt8.toNat_sub_of_le _ _ hupper.1
        rw [UInt8.le_iff_toNat_le, UInt8.le_iff_toNat_le] at hupper
        rw [UInt8.lt_iff_toNat_lt, UInt8.toNat_add, hsub]
        omega
      · cases h

theorem isHexDigit_ascii (h : isHexDigit b) : b < 128 := by
  obtain ⟨d, hd⟩ := Option.isSome_iff_exists.mp h
  exact (hexDigit_some hd).1

theorem escapes_ascii (h : escapes.lookup b = some c) : b < 128 := by
  obtain ⟨l, l', heq, -⟩ := List.lookup_eq_some_iff.mp h
  have hall : ∀ e ∈ escapes, e.1 < 128 := by decide
  exact hall (b, c) (by simp [heq])

/-- Escapes are ASCII. -/
theorem Escape.ascii (h : Escape text c) : ∀ b ∈ text, b < 128 := by
  cases h with
  | simple hb =>
    intro b' hb'
    simp only [List.mem_cons, List.not_mem_nil, or_false] at hb'
    obtain rfl | rfl := hb'
    · decide
    · exact escapes_ascii hb
  | hex hh hl =>
    intro b' hb'
    simp only [List.mem_cons, List.not_mem_nil, or_false] at hb'
    obtain rfl | rfl | rfl | rfl := hb'
    · decide
    · decide
    · exact (hexDigit_some hh).1
    · exact (hexDigit_some hl).1

theorem toNat_hex {h l : UInt8} (hh : h.toNat < 16) (hl : l.toNat < 16) :
    (h * 16 + l).toNat = h.toNat * 16 + l.toNat := by
  have h16 : (16 : UInt8).toNat = 16 := by decide
  rw [UInt8.toNat_add, UInt8.toNat_mul, h16]
  omega

/-- **What `parse_escape` takes** is the text of an escape. -/
theorem parseEscape_spec (lx : Lexer) (start rest : List UInt8) :
    parseEscape lx start (byte '\\' :: rest) ≠ .error .panic ∧
      ∀ c rest', parseEscape lx start (byte '\\' :: rest) = .ok (c, rest') →
        ∃ esc, Escape esc c ∧ byte '\\' :: rest = esc ++ rest' := by
  unfold parseEscape
  rw [List.drop_one, List.tail_cons]
  cases rest with
  | nil => exact err_takes _ _ _
  | cons b bs =>
    dsimp only
    split
    · next c hc =>
      refine ⟨by simp, fun c' rest' h => ?_⟩
      cases h
      exact ⟨_, .simple hc, rfl⟩
    · split
      · next hx =>
        subst hx
        split
        · next hi lo bs' =>
          split
          · next h l hh hl =>
            refine ⟨by simp, fun c' rest' heq => ?_⟩
            cases heq
            rw [toNat_hex (hexDigit_some hh).2 (hexDigit_some hl).2]
            exact ⟨_, .hex hh hl, rfl⟩
          · exact err_takes _ _ _
        · exact err_takes _ _ _
      · exact ⟨by simp, fun c rest' h => by cases h⟩

/-- The text of an escape is taken. -/
theorem Escape.parse (h : Escape text c) (lx : Lexer) (start rest : List UInt8) :
    parseEscape lx start (text ++ rest) = .ok (c, rest) := by
  cases h with
  | simple hb => simp [parseEscape, hb]
  | hex hh hl =>
    have hx : escapes.lookup (byte 'x') = none := by decide
    simp only [parseEscape, List.cons_append, List.nil_append, List.drop_succ_cons, List.drop_zero,
      hx, if_pos, hh, hl, toNat_hex (hexDigit_some hh).2 (hexDigit_some hl).2]

end Escapes

end Hiko
