import Hiko.Syntax.Surface
import Mathlib.Data.Nat.Digits.Defs

/-!
# The lexer

The lexer reads the bytes of a source text from left to right. A position is given by the bytes that
are left there; slicing the text off a character boundary is a panic.

## Main definitions

* `Lexer`, `LexError`, `SpannedToken`: the lexer without its position, and what it returns
* `skipTrivia`: `skip_whitespace_and_comments`
* `lexString`, `lexChar`, `lexNumber`, `lexTyvar`, `lexIdent`, `lexOperator`: one kind of token each
* `nextToken`, `tokenize`: the next token, all tokens
-/

namespace Hiko

/-! ## Bytes -/

/-- The byte of an ASCII character. -/
def byte (c : Char) : UInt8 := UInt8.ofNat c.toNat

/-- `is_ascii_whitespace`. -/
def isWhitespace (b : UInt8) : Bool :=
  b = byte ' ' || b = byte '\t' || b = byte '\n' || b = 12 || b = byte '\r'

/-- `is_ascii_digit`. -/
def isDigit (b : UInt8) : Bool := byte '0' ≤ b && b ≤ byte '9'

/-- `is_ascii_uppercase`. -/
def isUppercase (b : UInt8) : Bool := byte 'A' ≤ b && b ≤ byte 'Z'

/-- `is_ascii_alphabetic`. -/
def isAlphabetic (b : UInt8) : Bool := byte 'a' ≤ b && b ≤ byte 'z' || isUppercase b

/-- The bytes that identifiers start with. -/
def isIdentStart (b : UInt8) : Bool := isAlphabetic b || b = byte '_'

/-- The bytes that `consume_ident_chars` takes. -/
def isIdentChar (b : UInt8) : Bool := isAlphabetic b || isDigit b || b = byte '_'

/-- `hex_digit`. -/
def hexDigit (b : UInt8) : Option UInt8 :=
  if isDigit b then some (b - byte '0')
  else if byte 'a' ≤ b && b ≤ byte 'f' then some (b - byte 'a' + 10)
  else if byte 'A' ≤ b && b ≤ byte 'F' then some (b - byte 'A' + 10)
  else none

/-- Hexadecimal digits. -/
def isHexDigit (b : UInt8) : Bool := (hexDigit b).isSome

/-- The number that decimal digits denote. -/
def decimalValue (digits : List UInt8) : ℕ :=
  Nat.ofDigits 10 (digits.reverse.map fun b => b.toNat - 48)

/-- The number that hexadecimal digits denote. -/
def hexValue (digits : List UInt8) : ℕ :=
  Nat.ofDigits 16 (digits.reverse.map fun b => ((hexDigit b).getD 0).toNat)

/-- A number that is parsed as `u64`. -/
def toU64? (value : ℕ) : Option UInt64 :=
  if value < 2 ^ 64 then some (UInt64.ofNat value) else none

/-- A number that is parsed as `i64`. -/
def toI64? (value : ℕ) : Option Int64 :=
  if value < 2 ^ 63 then some (Int64.ofNat value) else none

/-- `f64::is_infinite`. -/
def isInfinite (bits : UInt64) : Bool := bits &&& 0x7FFFFFFFFFFFFFFF = 0x7FF0000000000000

/-! ## Slices -/

/-- `is_char_boundary`: a position at a byte that does not continue a character, or at the end. -/
def isBoundary : List UInt8 → Bool
  | [] => true
  | b :: _ => b < 128 || 192 ≤ b

/-- The bytes between two positions. -/
def taken (start rest : List UInt8) : List UInt8 := start.take (start.length - rest.length)

/-- The text between two positions. There is none, but a panic, off a character boundary. -/
def slice (start rest : List UInt8) : Option String :=
  if isBoundary start && isBoundary rest then String.fromUTF8? (taken start rest).toByteArray
  else none

/-- The text from a position to the end. -/
def sliceFrom (rest : List UInt8) : Option String := slice rest []

/-- `char_at`. -/
def charAt (rest : List UInt8) : Char :=
  match sliceFrom rest with
  | some text => text.toList.headD '\uFFFD'
  | none => '\uFFFD'

/-! ## Results -/

/-- `LexError`. -/
structure LexError where
  message : String
  span : Span
  deriving DecidableEq

/-- How lexing ends early. -/
inductive LexStop where
  | error (e : LexError)
  | panic
  deriving DecidableEq

/-- `token::Token`: a kind of token and its span. -/
structure SpannedToken where
  kind : Token
  span : Span
  deriving DecidableEq

/-- `Lexer`, without its position. -/
structure Lexer where
  bytes : List UInt8
  fileId : ℕ

namespace Lexer

variable (lx : Lexer)

/-- The position of the bytes that are left. -/
def pos (rest : List UInt8) : ℕ := lx.bytes.length - rest.length

/-- `span`. Positions are cut to 32 bits. -/
def span (start stop : ℕ) : Span := ⟨lx.fileId, start % 2 ^ 32, stop % 2 ^ 32⟩

/-- `err`. -/
def err (message : String) (start rest : List UInt8) : LexStop :=
  .error ⟨message, lx.span (lx.pos start) (lx.pos rest)⟩

/-- `make_token`. -/
def makeToken (kind : Token) (start rest : List UInt8) : SpannedToken :=
  ⟨kind, lx.span (lx.pos start) (lx.pos rest)⟩

end Lexer

/-! ## Whitespace and comments -/

/-- The loop of `skip_comment`. The depth has 32 bits. -/
def commentLoop : ℕ → List UInt8 → ℕ × List UInt8
  | depth, [] => (depth, [])
  | depth, [b] => if depth = 0 then (depth, [b]) else (depth, [])
  | depth, b :: c :: rest =>
    if depth = 0 then (depth, b :: c :: rest)
    -- the increment wraps in a release build
    else if b = byte '(' ∧ c = byte '*' then commentLoop ((depth + 1) % 2 ^ 32) rest
    else if b = byte '*' ∧ c = byte ')' then commentLoop (depth - 1) rest
    else commentLoop depth (c :: rest)

theorem length_commentLoop (depth : ℕ) (rest : List UInt8) :
    (commentLoop depth rest).2.length ≤ rest.length := by
  induction depth, rest using commentLoop.induct with
  | case1 depth => simp [commentLoop]
  | case2 b => simp [commentLoop]
  | case3 depth b h => simp [commentLoop, h]
  | case4 b c rest => simp [commentLoop]
  | case5 depth b c rest h hopen ih =>
    rw [commentLoop, if_neg h, if_pos hopen]
    exact ih.trans (by simp only [List.length_cons]; omega)
  | case6 depth b c rest h hopen hclose ih =>
    rw [commentLoop, if_neg h, if_neg hopen, if_pos hclose]
    exact ih.trans (by simp only [List.length_cons]; omega)
  | case7 depth b c rest h hopen hclose ih =>
    rw [commentLoop, if_neg h, if_neg hopen, if_neg hclose]
    exact ih.trans (by simp)

/-- A comment starts here. -/
def opensComment (rest : List UInt8) : Bool := rest.take 2 = [byte '(', byte '*']

section Scan

variable (lx : Lexer)

/-- `skip_comment`. -/
def skipComment (start : List UInt8) : Except LexStop (List UInt8) :=
  match commentLoop 1 (start.drop 2) with
  | (depth, rest) =>
    if depth > 0 then .error (lx.err "unterminated comment" start rest) else .ok rest

theorem length_skipComment {start rest : List UInt8} (h : skipComment lx start = .ok rest) :
    rest.length ≤ start.length - 2 := by
  unfold skipComment at h
  split at h
  next depth rest' hloop =>
    split at h
    · cases h
    · obtain rfl := Except.ok.inj h
      have hle := length_commentLoop 1 (start.drop 2)
      rwa [hloop, List.length_drop] at hle

/-- `skip_whitespace_and_comments`. -/
def skipTrivia (rest : List UInt8) : Except LexStop (List UInt8) :=
  if _ho : opensComment (rest.dropWhile isWhitespace) then
    match _h : skipComment lx (rest.dropWhile isWhitespace) with
    | .error e => .error e
    | .ok rest' => skipTrivia rest'
  else .ok (rest.dropWhile isWhitespace)
termination_by rest.length
decreasing_by
  have hle := length_skipComment lx _h
  have hdrop := (List.dropWhile_sublist (l := rest) isWhitespace).length_le
  have hopen : 2 ≤ (rest.dropWhile isWhitespace).length := by
    have htake : (rest.dropWhile isWhitespace).take 2 = [byte '(', byte '*'] := by
      simpa [opensComment] using _ho
    have hlen := congrArg List.length htake
    rw [List.length_take] at hlen
    simp at hlen
    omega
  omega

/-! ## Strings and characters -/

/-- The escapes of one character. -/
def escapes : List (UInt8 × Char) :=
  [(byte 'n', '\n'), (byte 't', '\t'), (byte 'r', '\r'), (byte '0', '\x00'), (byte '\\', '\\'),
    (byte '"', '"')]

/-- `parse_escape`, at the backslash. -/
def parseEscape (start rest : List UInt8) : Except LexStop (Char × List UInt8) :=
  match rest.drop 1 with
  | [] => .error (lx.err "unterminated escape sequence" start [])
  | b :: bs =>
    match escapes.lookup b with
    | some c => .ok (c, bs)
    | none =>
      if b = byte 'x' then
        match bs with
        | hi :: lo :: bs' =>
          match hexDigit hi, hexDigit lo with
          | some h, some l => .ok (Char.ofNat (h * 16 + l).toNat, bs')
          | _, _ => .error (lx.err "invalid hex digit in \\x escape" start (b :: bs))
        | _ => .error (lx.err "incomplete \\x escape" start (b :: bs))
      else
        -- the span of the error goes over the whole character
        let other := charAt (b :: bs)
        .error (.error ⟨"unknown escape sequence: \\" ++ String.singleton other,
          lx.span (lx.pos (b :: bs) - 1) (lx.pos (b :: bs) + other.utf8Size)⟩)

/-- The next character of the text, as a slice from here gives it. -/
def nextChar (start rest : List UInt8) : Except LexStop (Char × List UInt8) :=
  match sliceFrom rest with
  | none => .error .panic
  | some text =>
    match text.toList with
    | [] => .error (lx.err "empty character literal" start rest)
    | c :: _ => .ok (c, rest.drop c.utf8Size)

theorem length_parseEscape {start rest rest' : List UInt8} {c : Char}
    (h : parseEscape lx start rest = .ok (c, rest')) : rest'.length < rest.length := by
  have hlen : (rest.drop 1).length = rest.length - 1 := List.length_drop
  unfold parseEscape at h
  split at h
  · cases h
  · next b bs hdrop =>
    rw [hdrop, List.length_cons] at hlen
    split at h
    · cases h
      omega
    · split at h
      · split at h
        · split at h
          · cases h
            simp only [List.length_cons] at hlen
            omega
          · cases h
        · cases h
      · cases h

theorem length_nextChar {start rest rest' : List UInt8} {c : Char} (hne : rest ≠ [])
    (h : nextChar lx start rest = .ok (c, rest')) : rest'.length < rest.length := by
  unfold nextChar at h
  split at h
  · cases h
  · split at h
    · cases h
    · cases h
      have hsize := c.utf8Size_pos
      have hpos := List.length_pos_iff.mpr hne
      rw [List.length_drop]
      omega

/-- The loop of `lex_string`. -/
def stringLoop (start : List UInt8) (value : List Char) (rest : List UInt8) :
    Except LexStop (Token × List UInt8) :=
  match _hr : rest with
  | [] => .error (lx.err "unterminated string literal" start [])
  | b :: bs =>
    if b = byte '"' then .ok (.stringLit (String.ofList value), bs)
    else if b = byte '\\' then
      match _h : parseEscape lx start (b :: bs) with
      | .error e => .error e
      | .ok (c, rest') => stringLoop start (value ++ [c]) rest'
    else
      match _h : nextChar lx start (b :: bs) with
      | .error e => .error e
      | .ok (c, rest') => stringLoop start (value ++ [c]) rest'
termination_by rest.length
decreasing_by
  · exact length_parseEscape lx _h
  · exact length_nextChar lx (List.cons_ne_nil _ _) _h

/-- `lex_string`. -/
def lexString (start : List UInt8) : Except LexStop (Token × List UInt8) :=
  stringLoop lx start [] (start.drop 1)

/-- `lex_char`. -/
def lexChar (start : List UInt8) : Except LexStop (Token × List UInt8) :=
  match start.drop 2 with
  | [] => .error (lx.err "unterminated character literal" start [])
  | b :: bs =>
    match if b = byte '\\' then parseEscape lx start (b :: bs) else nextChar lx start (b :: bs) with
    | .error e => .error e
    | .ok (c, rest) =>
      match rest with
      | [] => .error (lx.err "unterminated character literal, expected closing \"" start [])
      | q :: rest' =>
        if q = byte '"' then .ok (.charLit c, rest')
        else .error (lx.err "unterminated character literal, expected closing \"" start rest)

/-! ## Numbers -/

/-- The end of a word literal, with its digits. -/
def wordToken (start digits rest : List UInt8) (missing overflow : String)
    (value : List UInt8 → ℕ) : Except LexStop (Token × List UInt8) :=
  if rest.length = digits.length then .error (lx.err missing start rest)
  else
    match slice digits rest with
    | none => .error .panic
    | some text =>
      match toU64? (value (taken digits rest)) with
      | none => .error (lx.err (overflow ++ text) start rest)
      | some w => .ok (.wordLit w, rest)

/-- The word literals of `lex_number`, after `0w`. -/
def lexWord (start rest : List UInt8) : Except LexStop (Token × List UInt8) :=
  if rest.head? = some (byte 'x') ∨ rest.head? = some (byte 'X') then
    wordToken lx start rest.tail (rest.tail.dropWhile isHexDigit) "expected hex digits after 0wx"
      "word literal overflow: 0wx" hexValue
  else
    wordToken lx start rest (rest.dropWhile isDigit) "expected digits after 0w"
      "word literal overflow: 0w" decimalValue

/-- A decimal point with digits. -/
def fraction (rest : List UInt8) : Bool × List UInt8 :=
  match rest with
  | b :: d :: ds =>
    if b = byte '.' && isDigit d then (true, (d :: ds).dropWhile isDigit) else (false, rest)
  | _ => (false, rest)

/-- The sign of an exponent. -/
def skipSign (rest : List UInt8) : List UInt8 :=
  if rest.head? = some (byte '+') ∨ rest.head? = some (byte '-') then rest.tail else rest

/-- An exponent. -/
def exponent (start : List UInt8) (isFloat : Bool) (rest : List UInt8) :
    Except LexStop (Bool × List UInt8) :=
  if rest.head? = some (byte 'e') ∨ rest.head? = some (byte 'E') then
    match skipSign rest.tail with
    | [] => .error (lx.err "expected digits after exponent" start [])
    | d :: ds =>
      if isDigit d then .ok (true, ds.dropWhile isDigit)
      else .error (lx.err "expected digits after exponent" start (d :: ds))
  else .ok (isFloat, rest)

variable (parseF64 : String → Option UInt64)

/-- The token of a number. -/
def numberToken (start : List UInt8) (isFloat : Bool) (rest : List UInt8) :
    Except LexStop (Token × List UInt8) :=
  match slice start rest with
  | none => .error .panic
  | some text =>
    if isFloat then
      match parseF64 text with
      | none => .error (lx.err ("invalid float literal: " ++ text) start rest)
      | some bits =>
        if isInfinite bits then
          .error (lx.err ("float literal out of range: " ++ text) start rest)
        else .ok (.floatLit bits, rest)
    else
      match toI64? (decimalValue (taken start rest)) with
      | none => .error (lx.err ("invalid integer literal: " ++ text) start rest)
      | some n => .ok (.intLit n, rest)

/-- `lex_number`. -/
def lexNumber (start : List UInt8) : Except LexStop (Token × List UInt8) :=
  if start.take 2 = [byte '0', byte 'w'] then lexWord lx start (start.drop 2)
  else
    match fraction (start.dropWhile isDigit) with
    | (isFloat, rest) =>
      match exponent lx start isFloat rest with
      | .error e => .error e
      | .ok (isFloat, rest) => numberToken lx parseF64 start isFloat rest

/-! ## Names and operators -/

/-- The keywords. -/
def keywords : List (String × Token) :=
  [("val", .valKw), ("fun", .funKw), ("fn", .fnKw), ("let", .letKw), ("in", .inKw), ("end", .endKw),
    ("if", .ifKw), ("then", .thenKw), ("else", .elseKw), ("case", .caseKw), ("of", .ofKw),
    ("datatype", .datatypeKw), ("type", .typeKw), ("local", .localKw), ("and", .andKw),
    ("rec", .recKw), ("import", .importKw), ("use", .useKw), ("signature", .signatureKw),
    ("sig", .sigKw), ("structure", .structureKw), ("struct", .structKw), ("true", .trueKw),
    ("false", .falseKw), ("not", .notKw), ("andalso", .andalsoKw), ("orelse", .orelseKw),
    ("mod", .modKw), ("as", .asKw), ("effect", .effectKw), ("handle", .handleKw),
    ("with", .withKw), ("perform", .performKw), ("resume", .resumeKw), ("return", .returnKw)]

/-- `TokenKind::keyword_from_str`. -/
def keywordFromStr (s : String) : Option Token := keywords.lookup s

/-- `lex_tyvar`. -/
def lexTyvar (start : List UInt8) : Except LexStop (Token × List UInt8) :=
  let rest := (start.drop 1).dropWhile isIdentChar
  match slice start rest with
  | none => .error .panic
  | some name => .ok (.tyVar name, rest)

/-- The token of a name. -/
def identKind (text : String) : Token :=
  if text = "_" then .underscore
  else
    match keywordFromStr text with
    | some kw => kw
    | none =>
      if isUppercase (text.toUTF8.data.toList.headD 0) then .upperIdent text else .ident text

/-- `lex_ident`. -/
def lexIdent (start : List UInt8) : Except LexStop (Token × List UInt8) :=
  let rest := start.dropWhile isIdentChar
  match slice start rest with
  | none => .error .panic
  | some text => .ok (identKind text, rest)

/-- The operators: a first byte, the second bytes it may have, and the operator without one. -/
def operators : List (UInt8 × List (UInt8 × Token) × Token) :=
  [(byte '(', [], .lParen), (byte ')', [], .rParen), (byte '[', [], .lBracket),
    (byte ']', [], .rBracket), (byte ',', [], .comma), (byte '.', [], .dot),
    (byte ';', [], .semicolon), (byte '~', [], .tilde), (byte '#', [], .hash),
    (byte '^', [], .caret), (byte '|', [(byte '>', .pipeGt)], .bar),
    (byte ':', [(byte ':', .colonColon), (byte '>', .colonGt)], .colon),
    (byte '=', [(byte '>', .arrow)], .eq), (byte '-', [(byte '>', .thinArrow)], .minus),
    (byte '+', [], .plus), (byte '*', [], .star), (byte '/', [], .slash),
    (byte '<', [(byte '>', .ne), (byte '=', .le)], .lt), (byte '>', [(byte '=', .ge)], .gt)]

/-- `lex_operator_or_delimiter`. -/
def lexOperator (start : List UInt8) : Except LexStop (Token × List UInt8) :=
  match start.head?.bind fun b => operators.lookup b with
  | none =>
    let c := charAt start
    .error (.error ⟨"unexpected character: '" ++ String.singleton c ++ "'",
      lx.span (lx.pos start) (lx.pos start + c.utf8Size)⟩)
  | some (pairs, single) =>
    match (start.drop 1).head?.bind fun b => pairs.lookup b with
    | some kind => .ok (kind, start.drop 2)
    | none => .ok (single, start.drop 1)

/-! ## Tokens -/

/-- The branches of `next_token`, at the first byte of a token. -/
def lexKind (start : List UInt8) : Except LexStop (Token × List UInt8) :=
  let ch := start.headD 0
  let next := (start.drop 1).head?
  if ch = byte '"' then lexString lx start
  else if ch = byte '#' ∧ next = some (byte '"') then lexChar lx start
  else if isDigit ch then lexNumber lx parseF64 start
  else if ch = byte '\'' ∧ next.any isIdentStart then lexTyvar start
  else if isIdentStart ch then lexIdent start
  else lexOperator lx start

/-- `next_token`. -/
def nextToken (rest : List UInt8) : Except LexStop (SpannedToken × List UInt8) :=
  match skipTrivia lx rest with
  | .error e => .error e
  | .ok start =>
    if start = [] then .ok (lx.makeToken .eof [] [], [])
    else
      match lexKind lx parseF64 start with
      | .error e => .error e
      | .ok (kind, rest') => .ok (lx.makeToken kind start rest', rest')

/-- The loop of `tokenize`, with a number of rounds. -/
def tokenLoop : ℕ → List UInt8 → Option (Except LexStop (List SpannedToken))
  | 0, _ => none
  | rounds + 1, rest =>
    match nextToken lx parseF64 rest with
    | .error e => some (.error e)
    | .ok (tok, rest') =>
      if tok.kind = .eof then some (.ok [tok])
      else (tokenLoop rounds rest').map (·.map (tok :: ·))

end Scan

/-- `tokenize` on the bytes of a source. -/
def tokenizeBytes (parseF64 : String → Option UInt64) (fileId rounds : ℕ) (bytes : List UInt8) :
    Option (Except LexStop (List SpannedToken)) :=
  tokenLoop ⟨bytes, fileId⟩ parseF64 rounds bytes

/-- `tokenize`. -/
def tokenize (parseF64 : String → Option UInt64) (fileId rounds : ℕ) (source : String) :
    Option (Except LexStop (List SpannedToken)) :=
  tokenizeBytes parseF64 fileId rounds source.toUTF8.data.toList

end Hiko
