import Hiko.Syntax.LexTokens

/-!
# The lexer partitions the source

The tokens of a source stand one after the other, with whitespace and complete comments between
them, each is the one that its own text gives, and no slice is off a character boundary. Spans have
32 bits: the tokens of a source stand where their spans say exactly when it has less than 2 ^ 32
bytes.

## Main definitions

* `TokenAt`: a token stands where its span says
* `Partition`: the tokens of a text from a position on

## Main results

* `tokenLoop_settles`: lexing ends
* `tokenLoop_partition`: the tokens of a source partition it
* `tokenize_partition`: the same for `tokenize`, and when it holds
-/

namespace Hiko

/-- The bytes between two positions of a text. -/
def between (bytes : List UInt8) (i j : ℕ) : List UInt8 := (bytes.drop i).take (j - i)

/-- The token at the end of a text. -/
def eofToken (fileId stop : ℕ) : SpannedToken := ⟨.eof, ⟨fileId, stop, stop⟩⟩

/-- A token of a text stands where its span says: on character boundaries, its text gives the token
alone, and its literal is the one that the text denotes. -/
structure TokenAt (parseF64 : String → Option UInt64) (fileId : ℕ) (bytes : List UInt8)
    (tok : SpannedToken) : Prop where
  file : tok.span.fileId = fileId
  ascending : tok.span.start < tok.span.stop
  inside : tok.span.stop ≤ bytes.length
  startBoundary : isBoundary (bytes.drop tok.span.start)
  stopBoundary : isBoundary (bytes.drop tok.span.stop)
  alone : ∃ s : String, s.toUTF8.data.toList = between bytes tok.span.start tok.span.stop ∧
    ∀ rounds, tok.span.stop - tok.span.start < rounds → tokenize parseF64 fileId rounds s =
      some (.ok [⟨tok.kind, ⟨fileId, 0, tok.span.stop - tok.span.start⟩⟩,
        eofToken fileId (tok.span.stop - tok.span.start)])
  literal : LiteralOk (between bytes tok.span.start tok.span.stop) tok.kind

/-- The tokens of a text from a position on: they are ascending and disjoint, between them there are
whitespace and complete comments, and the end is the last one. -/
inductive Partition (parseF64 : String → Option UInt64) (fileId : ℕ) (bytes : List UInt8) :
    ℕ → List SpannedToken → Prop
  | eof {pos : ℕ} : pos ≤ bytes.length → Trivia (between bytes pos bytes.length) →
      Partition parseF64 fileId bytes pos [eofToken fileId bytes.length]
  | token {pos : ℕ} {tok : SpannedToken} {tokens : List SpannedToken} : pos ≤ tok.span.start →
      Trivia (between bytes pos tok.span.start) → TokenAt parseF64 fileId bytes tok →
      tok.kind ≠ .eof → Partition parseF64 fileId bytes tok.span.stop tokens →
      Partition parseF64 fileId bytes pos (tok :: tokens)

section Steps

variable {lx : Lexer} {parseF64 : String → Option UInt64} {rest rest' text : List UInt8}
  {tok : SpannedToken} {kind : Token}

/-- **The next token** comes after whitespace and comments, or the text ends there. -/
theorem nextToken_ok (hutf8 : Utf8 rest) (h : nextToken lx parseF64 rest = .ok (tok, rest')) :
    ∃ gap start, rest = gap ++ start ∧ (rest.length < 2 ^ 32 → Trivia gap) ∧ Utf8 start ∧
      (start = [] ∧ rest' = [] ∧ tok = lx.makeToken .eof [] [] ∨
        ∃ text kind, start = text ++ rest' ∧ Utf8 rest' ∧ 1 ≤ text.length ∧ StartsToken text ∧
          TokenText (fun lx => lexKind lx parseF64) text kind ∧
            tok = lx.makeToken kind start rest') := by
  unfold nextToken at h
  cases hskip : skipTrivia lx rest with
  | error e =>
    rw [hskip] at h
    cases h
  | ok start =>
    rw [hskip] at h
    dsimp only at h
    obtain ⟨hstart, hstarts, gap, rfl, htrivia⟩ := skipTrivia_ok hskip hutf8
    refine ⟨gap, start, rfl, htrivia, hstart, ?_⟩
    cases start with
    | nil =>
      rw [if_pos rfl] at h
      cases h
      exact .inl ⟨rfl, rfl, rfl⟩
    | cons b start =>
      -- a byte is left: one of the branches takes a token
      rw [if_neg (List.cons_ne_nil _ _)] at h
      cases hkind : lexKind lx parseF64 (b :: start) with
      | error e =>
        rw [hkind] at h
        cases h
      | ok res =>
        obtain ⟨kind, rest''⟩ := res
        rw [hkind] at h
        cases h
        obtain ⟨text, heq, hlen, htoken⟩ := (scans_kind hstart lx).2 kind rest' hkind
        rw [heq] at hstart hstarts
        exact .inr ⟨text, kind, heq, hstart.rest_of_last htoken.last, hlen, hstarts.of_append,
          htoken, rfl⟩

theorem nextToken_noPanic (hutf8 : Utf8 rest) : nextToken lx parseF64 rest ≠ .error .panic := by
  unfold nextToken
  cases hskip : skipTrivia lx rest with
  | error e =>
    exact error_noPanic skipTrivia_noPanic hskip
  | ok start =>
    obtain ⟨hstart, -, -⟩ := skipTrivia_ok hskip hutf8
    cases start with
    | nil => simp
    | cons b start =>
      dsimp only
      rw [if_neg (List.cons_ne_nil _ _)]
      cases hkind : lexKind lx parseF64 (b :: start) with
      | error e =>
        exact error_noPanic (scans_kind hstart lx).1 hkind
      | ok res => simp

theorem nextToken_nil : nextToken lx parseF64 [] = .ok (lx.makeToken .eof [] [], []) := by
  have hstarts : StartsToken [] := ⟨rfl, rfl⟩
  rw [nextToken, hstarts.skip]
  rfl

/-- **The text of a token gives it alone.** -/
theorem tokenLoop_alone (hlen : 1 ≤ text.length) (hstarts : StartsToken text)
    (htoken : TokenText (fun lx => lexKind lx parseF64) text kind) {rounds : ℕ}
    (hrounds : text.length < rounds) :
    tokenLoop lx parseF64 rounds text =
      some (.ok [lx.makeToken kind text [], lx.makeToken .eof [] []]) := by
  obtain ⟨n, rfl⟩ : ∃ n, rounds = n + 2 := ⟨rounds - 2, by omega⟩
  have hfirst : nextToken lx parseF64 text = .ok (lx.makeToken kind text [], []) := by
    have halone : lexKind lx parseF64 text = .ok (kind, []) := htoken.alone lx
    rw [nextToken, hstarts.skip]
    dsimp only
    rw [if_neg (List.length_pos_iff.mp hlen), halone]
  have hkind : (lx.makeToken kind text []).kind ≠ .eof := htoken.notEof
  have heof : (lx.makeToken .eof [] []).kind = .eof := rfl
  rw [tokenLoop, hfirst]
  dsimp only
  rw [if_neg hkind, tokenLoop, nextToken_nil]
  dsimp only
  rw [if_pos heof]
  rfl

end Steps

section Runs

variable {lx : Lexer} {parseF64 : String → Option UInt64} {rest done : List UInt8}

/-- **Lexing ends**, after as many rounds as there are bytes, and it never panics. -/
theorem tokenLoop_settles (lx : Lexer) (parseF64 : String → Option UInt64) (hutf8 : Utf8 rest) :
    ∃ res, (∀ rounds, rest.length < rounds → tokenLoop lx parseF64 rounds rest = some res) ∧
      res ≠ .error .panic := by
  induction hn : rest.length using Nat.strong_induction_on generalizing rest with
  | h n ih =>
    subst hn
    cases hnext : nextToken lx parseF64 rest with
    | error e =>
      refine ⟨.error e, fun rounds hrounds => ?_, error_noPanic (nextToken_noPanic hutf8) hnext⟩
      obtain ⟨rounds, rfl⟩ := Nat.exists_eq_succ_of_ne_zero (Nat.ne_zero_of_lt hrounds)
      rw [tokenLoop, hnext]
    | ok res =>
      obtain ⟨tok, rest'⟩ := res
      by_cases hkind : tok.kind = .eof
      · refine ⟨.ok [tok], fun rounds hrounds => ?_, by simp⟩
        obtain ⟨rounds, rfl⟩ := Nat.exists_eq_succ_of_ne_zero (Nat.ne_zero_of_lt hrounds)
        rw [tokenLoop, hnext]
        exact if_pos hkind
      · obtain ⟨gap, start, rfl, -, -, ⟨rfl, rfl, rfl⟩ |
          ⟨text, kind, rfl, hrest', hlen, -, -, -⟩⟩ := nextToken_ok hutf8 hnext
        · exact absurd rfl hkind
        · -- a token takes a byte at least
          have hlt : rest'.length < (gap ++ (text ++ rest')).length := by
            simp only [List.length_append]
            omega
          obtain ⟨res, hres, hpanic⟩ := ih _ hlt hrest' rfl
          refine ⟨res.map (tok :: ·), fun rounds hrounds => ?_, ?_⟩
          · obtain ⟨rounds, rfl⟩ := Nat.exists_eq_succ_of_ne_zero (Nat.ne_zero_of_lt hrounds)
            rw [tokenLoop, hnext]
            dsimp only
            rw [if_neg hkind, hres rounds (by omega)]
            rfl
          · cases res with
            | error e => exact fun h => hpanic (congrArg _ (Except.error.inj h))
            | ok tokens => simp [Except.map]

theorem between_append (done text rest : List UInt8) :
    between (done ++ (text ++ rest)) done.length (done.length + text.length) = text := by
  simp [between]

theorem Lexer.pos_append (hbytes : lx.bytes = done ++ rest) : lx.pos rest = done.length := by
  simp [Lexer.pos, hbytes]

/-- Spans are not cut in a text of less than 2 ^ 32 bytes. -/
theorem Lexer.span_fits {start stop : ℕ} (hle : start ≤ stop) (h : stop < 2 ^ 32) :
    lx.span start stop = ⟨lx.fileId, start, stop⟩ := by
  rw [Lexer.span, Nat.mod_eq_of_lt (hle.trans_lt h), Nat.mod_eq_of_lt h]

/-- **A token stands where its span says.** -/
theorem tokenAt_text {text : List UInt8} {kind : Token} (hbytes : lx.bytes = done ++ (text ++ rest))
    (hutf8 : Utf8 (text ++ rest)) (hrest : Utf8 rest) (hsize : lx.bytes.length < 2 ^ 32)
    (hlen : 1 ≤ text.length) (hstarts : StartsToken text)
    (htoken : TokenText (fun lx => lexKind lx parseF64) text kind) :
    TokenAt parseF64 lx.fileId lx.bytes
      ⟨kind, ⟨lx.fileId, done.length, done.length + text.length⟩⟩ := by
  have hlength := congrArg List.length hbytes
  simp only [List.length_append] at hlength
  have hbetween : between lx.bytes done.length (done.length + text.length) = text := by
    rw [hbytes, between_append]
  have hstop : lx.bytes.drop (done.length + text.length) = rest := by
    rw [hbytes, ← List.append_assoc, ← List.length_append, List.drop_left]
  refine ⟨rfl, Nat.lt_add_of_pos_right hlen, by dsimp only; omega, ?_, ?_, ?_, ?_⟩
  · rw [hbytes, List.drop_left]
    exact isBoundary_of_utf8 hutf8
  · rw [hstop]
    exact isBoundary_of_utf8 hrest
  · obtain ⟨s, hs, -⟩ := slice_text htoken.utf8
    refine ⟨s, hs.trans hbetween.symm, fun rounds hrounds => ?_⟩
    dsimp only at hrounds ⊢
    rw [Nat.add_sub_cancel_left] at hrounds ⊢
    -- alone, the text starts at position 0 and nothing follows it
    have hstart : Lexer.pos ⟨text, lx.fileId⟩ text = 0 := by simp [Lexer.pos]
    have hend : Lexer.pos ⟨text, lx.fileId⟩ [] = text.length := by simp [Lexer.pos]
    rw [tokenize, tokenizeBytes, hs, tokenLoop_alone hlen hstarts htoken hrounds, Lexer.makeToken,
      Lexer.makeToken, hstart, hend, Lexer.span_fits (Nat.zero_le _) (by omega),
      Lexer.span_fits le_rfl (by omega)]
    rfl
  · dsimp only
    rw [hbetween]
    exact htoken.literal

/-- **The tokens of a source partition it**, from any position between tokens. -/
theorem tokenLoop_partition (hbytes : lx.bytes = done ++ rest) (hutf8 : Utf8 rest)
    (hsize : lx.bytes.length < 2 ^ 32) {rounds : ℕ} {tokens : List SpannedToken}
    (h : tokenLoop lx parseF64 rounds rest = some (.ok tokens)) :
    Partition parseF64 lx.fileId lx.bytes done.length tokens := by
  induction rounds generalizing done rest tokens with
  | zero => cases h
  | succ rounds ih =>
    rw [tokenLoop] at h
    cases hnext : nextToken lx parseF64 rest with
    | error e =>
      rw [hnext] at h
      cases h
    | ok res =>
      obtain ⟨tok, rest'⟩ := res
      rw [hnext] at h
      dsimp only at h
      have hlength := congrArg List.length hbytes
      obtain ⟨gap, start, rfl, hgap, hstart, ⟨rfl, rfl, rfl⟩ |
        ⟨text, kind, rfl, hrest', hlen, hstarts, htoken, rfl⟩⟩ := nextToken_ok hutf8 hnext
      · simp only [List.length_append] at hlength hgap
        have heof : (lx.makeToken .eof [] []).kind = .eof := rfl
        rw [if_pos heof] at h
        obtain rfl := Except.ok.inj (Option.some.inj h)
        -- only the end is left: the gap goes up to it
        have hend : lx.pos [] = lx.bytes.length := Lexer.pos_append (by simp)
        rw [Lexer.makeToken, hend, Lexer.span_fits le_rfl hsize]
        refine .eof (by omega) ?_
        have hbetween : between lx.bytes done.length lx.bytes.length = gap := by
          have happend := between_append done gap []
          rwa [← hbytes, ← List.length_append, show (done ++ gap).length = lx.bytes.length by
            rw [hbytes, List.append_nil]] at happend
        rw [hbetween]
        exact hgap (by omega)
      · simp only [List.length_append] at hlength hgap
        have hne : (lx.makeToken kind (text ++ rest') rest').kind ≠ .eof := htoken.notEof
        rw [if_neg hne] at h
        obtain ⟨res, hres, hmap⟩ := Option.map_eq_some_iff.mp h
        cases res with
        | error e => cases hmap
        | ok tokens' =>
          obtain rfl := Except.ok.inj hmap
          -- the token starts after the gap, and the others after its text
          have hdone : lx.bytes = (done ++ gap) ++ (text ++ rest') := by
            rw [hbytes, List.append_assoc]
          have hdone' : lx.bytes = (done ++ gap ++ text) ++ rest' := by
            rw [hdone, List.append_assoc (done ++ gap)]
          have hstop : (done ++ gap ++ text).length = (done ++ gap).length + text.length :=
            List.length_append
          have htok : lx.makeToken kind (text ++ rest') rest' =
              ⟨kind, ⟨lx.fileId, (done ++ gap).length, (done ++ gap).length + text.length⟩⟩ := by
            rw [Lexer.makeToken, Lexer.pos_append hdone, Lexer.pos_append hdone',
              hstop, Lexer.span_fits (Nat.le_add_right _ _)]
            rw [List.length_append]
            omega
          rw [htok]
          refine .token ?_ ?_ (tokenAt_text hdone hstart hrest' hsize hlen hstarts htoken)
            htoken.notEof ?_
          · dsimp only
            rw [List.length_append]
            omega
          · dsimp only
            rw [hbytes, List.length_append, between_append]
            exact hgap (by omega)
          · have hpart := ih hdone' hrest' hres
            rwa [hstop] at hpart

theorem tokenLoop_last {rounds : ℕ} {tokens : List SpannedToken} (hutf8 : Utf8 rest)
    (h : tokenLoop lx parseF64 rounds rest = some (.ok tokens)) :
    tokens.getLast? = some (lx.makeToken .eof [] []) := by
  induction rounds generalizing rest tokens with
  | zero => cases h
  | succ rounds ih =>
    rw [tokenLoop] at h
    cases hnext : nextToken lx parseF64 rest with
    | error e =>
      rw [hnext] at h
      cases h
    | ok res =>
      obtain ⟨tok, rest'⟩ := res
      rw [hnext] at h
      dsimp only at h
      obtain ⟨gap, start, rfl, -, -, ⟨rfl, rfl, rfl⟩ |
        ⟨text, kind, rfl, hrest', -, -, htoken, rfl⟩⟩ := nextToken_ok hutf8 hnext
      · have heof : (lx.makeToken .eof [] []).kind = .eof := rfl
        rw [if_pos heof] at h
        obtain rfl := Except.ok.inj (Option.some.inj h)
        rfl
      · have hne : (lx.makeToken kind (text ++ rest') rest').kind ≠ .eof := htoken.notEof
        rw [if_neg hne] at h
        obtain ⟨res, hres, hmap⟩ := Option.map_eq_some_iff.mp h
        cases res with
        | error e => cases hmap
        | ok tokens' =>
          obtain rfl := Except.ok.inj hmap
          rw [List.getLast?_cons, ih hrest' hres]
          rfl

/-- Tokens one after the other are disjoint. -/
theorem Partition.disjoint {fileId pos : ℕ} {bytes : List UInt8} {tok tok' : SpannedToken}
    {tokens : List SpannedToken} (h : Partition parseF64 fileId bytes pos (tok :: tok' :: tokens)) :
    tok.span.stop ≤ tok'.span.start := by
  cases h with
  | token _ _ htok _ hrest =>
    cases hrest with
    | eof hle _ => exact hle
    | token hle _ _ _ _ => exact hle

theorem Partition.last {fileId pos : ℕ} {bytes : List UInt8} {tokens : List SpannedToken}
    (h : Partition parseF64 fileId bytes pos tokens) :
    tokens.getLast? = some (eofToken fileId bytes.length) := by
  induction h with
  | eof => rfl
  | token _ _ _ _ _ ih =>
    rw [List.getLast?_cons, ih]
    rfl

end Runs

/-! ## Long sources -/

/-- Two names with many spaces between them. -/
def farApart (n : ℕ) : String := String.ofList ('a' :: (List.replicate n ' ' ++ ['b']))

theorem encode_spaces (n : ℕ) : encode (List.replicate n ' ') = List.replicate n (byte ' ') := by
  induction n with
  | zero => rfl
  | succ n ih =>
    have hspace : String.utf8EncodeChar ' ' = [byte ' '] := by decide
    rw [List.replicate_succ, encode_cons, ih, hspace]
    rfl

theorem bytes_farApart (n : ℕ) : (farApart n).toUTF8.data.toList =
    byte 'a' :: (List.replicate n (byte ' ') ++ [byte 'b']) := by
  have ha : String.utf8EncodeChar 'a' = [byte 'a'] := by decide
  have hb : encode ['b'] = [byte 'b'] := by decide
  rw [farApart, bytes_ofList, encode_cons, encode_append, encode_spaces, ha, hb]
  rfl

section Letters

variable {spaces tail : List UInt8} {c : Char}

/-- The letters that the tokens of a long source are made of. -/
def isLetter (c : Char) : Bool := c = 'a' || c = 'b'

theorem isLetter_spec (h : isLetter c) :
    String.utf8EncodeChar c = [byte c] ∧ isIdentStart (byte c) ∧ ¬ isWhitespace (byte c) ∧
      byte c ≠ byte '"' ∧ byte c ≠ byte '#' ∧ ¬ isDigit (byte c) ∧ byte c ≠ byte '\'' ∧
        byte c ≠ byte '(' := by
  simp only [isLetter, Bool.or_eq_true, decide_eq_true_eq] at h
  obtain rfl | rfl := h <;> decide

/-- After spaces, a letter alone is a name. -/
theorem nextToken_letter (lx : Lexer) (parseF64 : String → Option UInt64) (c : Char)
    (hc : isLetter c) (hspaces : ∀ b ∈ spaces, isWhitespace b)
    (hstop : ∀ b ∈ tail.head?, ¬ isIdentChar b) (htail : Utf8 tail) :
    nextToken lx parseF64 (spaces ++ byte c :: tail) =
      .ok (lx.makeToken (identKind (String.ofList [c])) (byte c :: tail) tail, tail) := by
  obtain ⟨hutf8, hident, hspace, hquote, hhash, hdigit, htick, hparen⟩ := isLetter_spec hc
  have hskip : skipTrivia lx (spaces ++ byte c :: tail) = .ok (byte c :: tail) := by
    rw [skipTrivia, List.dropWhile_append_of_pos hspaces, List.dropWhile_cons_of_neg hspace,
      dif_neg]
    cases tail <;> simp [opensComment, hparen]
  have hrun : (byte c :: tail).dropWhile isIdentChar = tail := by
    have hone : ∀ b ∈ [byte c], isIdentChar b := by
      simpa using isIdentStart_char hident
    exact run_again hone hstop
  have hslice : slice (byte c :: tail) tail = some (String.ofList [c]) := by
    have hencode : encode [c] = [byte c] := by
      rw [encode_cons, hutf8]
      rfl
    have htext := slice_encode [c] htail
    rwa [hencode] at htext
  have hkind : lexKind lx parseF64 (byte c :: tail) =
      .ok (identKind (String.ofList [c]), tail) := by
    rw [lexKind_cons, if_neg hquote, if_neg fun h => hhash h.1, if_neg hdigit,
      if_neg fun h => htick h.1, if_pos hident]
    simp only [lexIdent, hrun, hslice]
  rw [nextToken, hskip]
  dsimp only
  rw [if_neg (List.cons_ne_nil _ _), hkind]

/-- **The tokens of two names** with spaces between them. -/
theorem tokenize_farApart (parseF64 : String → Option UInt64) (fileId n : ℕ) :
    tokenize parseF64 fileId 3 (farApart (n + 1)) =
      some (.ok [⟨.ident "a", ⟨fileId, 0, 1⟩⟩,
        ⟨.ident "b", ⟨fileId, (n + 2) % 2 ^ 32, (n + 3) % 2 ^ 32⟩⟩,
        ⟨.eof, ⟨fileId, (n + 3) % 2 ^ 32, (n + 3) % 2 ^ 32⟩⟩]) := by
  rw [tokenize, tokenizeBytes, bytes_farApart]
  generalize hspaces : List.replicate (n + 1) (byte ' ') = spaces
  have hlen : spaces.length = n + 1 := by rw [← hspaces, List.length_replicate]
  have hall : ∀ b ∈ spaces, isWhitespace b := by
    intro b hb
    rw [← hspaces] at hb
    obtain rfl := List.eq_of_mem_replicate hb
    decide
  have hb : Utf8 [byte 'b'] := utf8_byte (by decide)
  have htail : Utf8 (spaces ++ [byte 'b']) :=
    (utf8_ascii fun b hb => isWhitespace_ascii (hall b hb)).append hb
  have hstop : ∀ b ∈ (spaces ++ [byte 'b']).head?, ¬ isIdentChar b := by
    rw [← hspaces, List.replicate_succ, List.cons_append, List.head?_cons]
    intro b hb
    obtain rfl := Option.some.inj (Option.mem_def.mp hb)
    decide
  obtain ⟨lx, hlx⟩ : ∃ lx : Lexer, lx = ⟨byte 'a' :: (spaces ++ [byte 'b']), fileId⟩ := ⟨_, rfl⟩
  have hbytes : lx.bytes = byte 'a' :: (spaces ++ [byte 'b']) := by rw [hlx]
  have hfirst : nextToken lx parseF64 (byte 'a' :: (spaces ++ [byte 'b'])) =
      .ok (⟨.ident "a", lx.span 0 1⟩, spaces ++ [byte 'b']) := by
    have hkind : identKind (String.ofList ['a']) = .ident "a" := by decide
    have hnone : ∀ b ∈ ([] : List UInt8), isWhitespace b := by simp
    have hnext := nextToken_letter lx parseF64 'a' rfl hnone hstop htail
    have hstart : lx.pos (byte 'a' :: (spaces ++ [byte 'b'])) = 0 := by simp [Lexer.pos, hbytes]
    have hend : lx.pos (spaces ++ [byte 'b']) = 1 := by simp [Lexer.pos, hbytes]
    rwa [List.nil_append, Lexer.makeToken, hkind, hstart, hend] at hnext
  have hsecond : nextToken lx parseF64 (spaces ++ [byte 'b']) =
      .ok (⟨.ident "b", lx.span (n + 2) (n + 3)⟩, []) := by
    have hkind : identKind (String.ofList ['b']) = .ident "b" := by decide
    have hnone : ∀ b ∈ ([] : List UInt8).head?, ¬ isIdentChar b := by simp
    have hnext := nextToken_letter lx parseF64 'b' rfl hall hnone .nil
    have hstart : lx.pos [byte 'b'] = n + 2 := by
      simp [Lexer.pos, hbytes, hlen]
    have hend : lx.pos [] = n + 3 := by
      simp [Lexer.pos, hbytes, hlen]
    rwa [Lexer.makeToken, hkind, hstart, hend] at hnext
  have hthird : nextToken lx parseF64 [] = .ok (⟨.eof, lx.span (n + 3) (n + 3)⟩, []) := by
    have hend : lx.pos [] = n + 3 := by
      simp [Lexer.pos, hbytes, hlen]
    rw [nextToken_nil, Lexer.makeToken, hend]
  rw [← hlx]
  simp only [tokenLoop, hfirst, hsecond, hthird, reduceCtorEq, if_false, if_true, Option.map_some,
    Except.map]
  subst hlx
  rfl

end Letters

/-- **The lexer partitions the source.** Lexing ends with tokens or an error, and it never slices
the text off a character boundary; the tokens partition the source exactly when their spans hold its
positions. -/
theorem tokenize_partition (parseF64 : String → Option UInt64) (fileId : ℕ) (source : String) :
    ∃ res, (∀ rounds, source.toUTF8.data.toList.length < rounds →
        tokenize parseF64 fileId rounds source = some res) ∧ res ≠ .error .panic ∧
      ∀ tokens, res = .ok tokens →
        (Partition parseF64 fileId source.toUTF8.data.toList 0 tokens ↔
          source.toUTF8.data.toList.length < 2 ^ 32) := by
  have hutf8 := utf8_string source
  obtain ⟨res, hres, hpanic⟩ := tokenLoop_settles ⟨source.toUTF8.data.toList, fileId⟩ parseF64
    hutf8
  refine ⟨res, hres, hpanic, ?_⟩
  rintro tokens rfl
  have hloop := hres _ (Nat.lt_succ_self _)
  constructor
  · intro hpart
    -- the end stands at a position of 32 bits
    have hlast := (tokenLoop_last hutf8 hloop).symm.trans hpart.last
    have hspan := congrArg (fun tok : SpannedToken => tok.span.start) (Option.some.inj hlast)
    have hmod : source.toUTF8.data.toList.length % 2 ^ 32 = source.toUTF8.data.toList.length :=
      hspan
    rw [← hmod]
    exact Nat.mod_lt _ (by decide)
  · intro hsize
    have hbytes : source.toUTF8.data.toList = [] ++ source.toUTF8.data.toList := rfl
    exact tokenLoop_partition hbytes hutf8 hsize hloop

/-- A source of more than 2 ^ 32 bytes whose two names have the same span. -/
theorem farApart_overlap :
    tokenize (fun _ => none) 0 3 (farApart (2 ^ 32 - 1)) =
        some (.ok [⟨.ident "a", ⟨0, 0, 1⟩⟩, ⟨.ident "b", ⟨0, 0, 1⟩⟩, ⟨.eof, ⟨0, 1, 1⟩⟩]) ∧
      ¬ Partition (fun _ => none) 0 (farApart (2 ^ 32 - 1)).toUTF8.data.toList 0
        [⟨.ident "a", ⟨0, 0, 1⟩⟩, ⟨.ident "b", ⟨0, 0, 1⟩⟩, ⟨.eof, ⟨0, 1, 1⟩⟩] := by
  have htokens := tokenize_farApart (fun _ => none) 0 (2 ^ 32 - 2)
  have hsize : 2 ^ 32 - 2 + 1 = 2 ^ 32 - 1 := by decide
  rw [hsize] at htokens
  exact ⟨htokens, fun h => absurd h.disjoint (by decide)⟩

end Hiko
