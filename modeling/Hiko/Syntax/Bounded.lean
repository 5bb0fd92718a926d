import Hiko.Syntax.Parser

/-!
# Bounds on the parser

What a step of the parser keeps: the level, a bound on the depth of trees, and what is known of the
current token. Steps are put together by the rules here, loops and chains among them.

## Main definitions

* `NoBareOperand`: no `perform` or `resume` stands where the operand of one is parsed
* `Inv`, `Limited`: between two steps, and a step that keeps to the stack and to the depth of trees

## Main results

* `Limited.bind`, `Limited.loop`: steps in turn, and rounds of a loop
* `bounded_nested`: one level deeper
* `bounded_rightChain`: a right-associative chain
-/

namespace Hiko

open Lib Lib.Exec

/-! ## Tokens -/

/-- The expressions whose operands are atoms. -/
def Token.isPrefix : Token → Bool
  | .performKw | .resumeKw => true
  | _ => false

/-- The tokens that an expression can end with. -/
def Token.endsOperand : Token → Bool
  | .intLit _ | .floatLit _ | .wordLit _ | .stringLit _ | .charLit _ | .trueKw | .falseKw
  | .ident _ | .upperIdent _ | .tyVar _ | .rParen | .rBracket | .endKw => true
  | _ => false

/-- Neither `perform` nor `resume`. -/
def IsPlain (t : Token) : Prop := t.isPrefix = false

@[simp] theorem endsOperand_taken (t : Token) : t.taken.endsOperand = t.endsOperand := by
  cases t <;> rfl

theorem taken_eq_resumeKw (t : Token) : t.taken = .resumeKw ↔ t = .resumeKw := by
  cases t <;> simp [Token.taken]

theorem taken_eq_performKw (t : Token) : t.taken = .performKw ↔ t = .performKw := by
  cases t <;> simp [Token.taken]

theorem plain_of_endsOperand {t : Token} (h : t.endsOperand) : IsPlain t := by
  cases t <;> first | rfl | cases h

/-- No operand of `perform` or `resume` starts with one of them: none follows the constructor of a
`perform`, or a `resume`, which is not the last token, and where there is a `resume`, none follows a
token that its first operand can end with. -/
structure NoBareOperand (ts : List Token) : Prop where
  perform : ∀ name u, [.performKw, .upperIdent name, u] <:+: ts → IsPlain u
  first : ∀ u, [.resumeKw, u] <:+: ts → IsPlain u
  second : .resumeKw ∈ ts → ∀ t u, [t, u] <:+: ts → t.endsOperand → IsPlain u
  last : ¬ [.resumeKw] <:+ ts

/-- Whether there is a `resume` among the tokens of a parse. -/
class HasResume where
  occurs : Prop

section Tokens

variable [HasResume] {t u : Token} {ts : List Token}

/-- A token that may start the second operand of a `resume` that there is. -/
def NotPrefix (t : Token) : Prop := HasResume.occurs → IsPlain t

/-- What is known of the token after a token. -/
def After (t u : Token) : Prop := (t = .resumeKw → IsPlain u) ∧ (t.endsOperand → NotPrefix u)

/-- What is known of the tokens after a token. -/
structure Precedes (t : Token) (ts : List Token) : Prop where
  resume : t = .resumeKw → HasResume.occurs ∧ ts ≠ []
  next : ∀ u, ts.head? = some u → After t u
  perform : t = .performKw → ∀ name u rest, ts = .upperIdent name :: u :: rest → IsPlain u

/-- What is known of the tokens that are left. -/
def OperandsPlain : List Token → Prop
  | [] => True
  | t :: ts => Precedes t ts ∧ OperandsPlain ts

theorem After.plain (h : After t u) (ht : t.endsOperand) : NotPrefix u := h.2 ht

theorem operandsPlain (h : NoBareOperand ts) (hoccurs : HasResume.occurs ↔ .resumeKw ∈ ts) :
    OperandsPlain ts := by
  have hleft : ∀ us, us <:+ ts → OperandsPlain us := by
    intro us
    induction us with
    | nil => exact fun _ => trivial
    | cons t us ih =>
      intro hsuffix
      have hpre : ∀ vs, vs <+: t :: us → vs <:+: ts := fun vs hvs =>
        hvs.isInfix.trans hsuffix.isInfix
      refine ⟨⟨?_, fun u hu => ⟨?_, ?_⟩, ?_⟩, ih ((List.suffix_cons t us).trans hsuffix)⟩
      · rintro rfl
        refine ⟨hoccurs.mpr (hsuffix.subset (.head _)), ?_⟩
        rintro rfl
        exact h.last hsuffix
      · rintro rfl
        obtain ⟨rest, rfl⟩ := List.head?_eq_some_iff.mp hu
        exact h.first u (hpre _ ⟨rest, rfl⟩)
      · intro ht hocc
        obtain ⟨rest, rfl⟩ := List.head?_eq_some_iff.mp hu
        exact h.second (hoccurs.mp hocc) t u (hpre _ ⟨rest, rfl⟩) ht
      · rintro rfl name u rest rfl
        exact h.perform name u (hpre _ ⟨rest, rfl⟩)
  exact hleft ts List.suffix_rfl

theorem operandsPlain_taken (h : OperandsPlain (t :: ts)) : OperandsPlain (t.taken :: ts) := by
  obtain ⟨⟨hresume, hnext, hperform⟩, hrest⟩ := h
  refine ⟨⟨fun ht => hresume ((taken_eq_resumeKw t).mp ht), fun u hu => ⟨fun ht => ?_, ?_⟩,
    fun ht => hperform ((taken_eq_performKw t).mp ht)⟩, hrest⟩
  · exact (hnext u hu).1 ((taken_eq_resumeKw t).mp ht)
  · rw [endsOperand_taken]
    exact (hnext u hu).2

end Tokens

/-! ## Bounds -/

/-- The frames that a call needs: so many for each level that is left, and those of its level. -/
def frames (d rank : ℕ) : ℕ := 30 * (maxNestingDepth - d) + rank

/-- The depth of the trees of a call. -/
def limit (d height : ℕ) : ℕ := 2000 * (maxNestingDepth - d) + height

/-- The depth of all trees. -/
def treeLimit : ℕ := 2000 * maxNestingDepth + 2000

/-- Between two steps. -/
structure Inv [HasResume] (d : ℕ) (k : Token → Prop) (s : ParserState) : Prop where
  depth : s.depth = d
  le : d ≤ maxNestingDepth
  tokens : OperandsPlain (s.cur :: s.next)
  built : s.deepest ≤ treeLimit
  cur : k s.cur

/-- A step that keeps the invariant, on any stack. -/
def Limited [HasResume] {α : Type} (d : ℕ) (k : Token → Prop) (p : Parse α) (k' : Token → Prop)
    (R : α → Prop) : Prop :=
  ∀ s, Inv d k s → wp p (fun a s' => Inv d k' s' ∧ R a) (fun _ s' => s'.deepest ≤ treeLimit)
    (fun _ => False) s

section Rules

variable [HasResume] {α β : Type} {d : ℕ} {k k' k'' : Token → Prop} {R R' : α → Prop} {T : β → Prop}
  {t kind : Token}

theorem Inv.mono {s : ParserState} (h : Inv d k s) (hk : ∀ t, k t → k' t) : Inv d k' s :=
  ⟨h.depth, h.le, h.tokens, h.built, hk _ h.cur⟩

namespace Limited

theorem mono {p : Parse α} (h : Limited d k p k' R) (hk : ∀ t, k' t → k'' t)
    (hR : ∀ a, R a → R' a) : Limited d k p k'' R' := fun s hs =>
  wp_mono (h s hs) (fun a _ ha => ⟨ha.1.mono hk, hR a ha.2⟩) (fun _ _ h => h) fun _ h => h

theorem of_imp {p : Parse α} (h : Limited d k p k' R) (hk : ∀ t, k'' t → k t) :
    Limited d k'' p k' R :=
  fun s hs => h s (hs.mono hk)

theorem pure {a : α} (hk : ∀ t, k t → k' t) (ha : R a) : Limited d k (Pure.pure a) k' R :=
  fun _ hs => ⟨hs.mono hk, ha⟩

theorem bind {p : Parse α} {f : α → Parse β} (hp : Limited d k p k' R)
    (hf : ∀ a, R a → Limited d k' (f a) k'' T) : Limited d k (p >>= f) k'' T := by
  intro s hs
  rw [wp_bind]
  exact wp_mono (hp s hs) (fun a s' ha => hf a ha.2 s' ha.1) (fun _ _ h => h) fun _ h => h

/-- The current token is read. -/
theorem peek_bind {f : Token → Parse β} (hf : ∀ t, k t → Limited d (· = t) (f t) k' T) :
    Limited d k (peek >>= f) k' T :=
  fun s hs => hf s.cur hs.cur s ⟨hs.depth, hs.le, hs.tokens, hs.built, rfl⟩

/-- A loop keeps what each round keeps. -/
theorem loop {body : α → Parse (α ⊕ β)} (hbody : ∀ a, R a → Limited d k (body a) k (Sum.elim R T))
    (n : ℕ) : ∀ a, R a → Limited d k (loopFor body n a) k T := by
  induction n with
  | zero => exact fun a _ s hs => hs.built
  | succ n ih =>
    intro a ha
    refine bind (hbody a ha) fun r hr => ?_
    cases r with
    | inl a' => exact ih a' hr
    | inr b => exact pure (fun _ h => h) hr

/-- A loop of which only the last round leaves `k'`. -/
theorem loop_ends {body : α → Parse (α ⊕ β)}
    (hbody : ∀ a, R a → ∀ s, Inv d k s → wp (body a) (fun r s' =>
      (∀ a', r = .inl a' → Inv d k s' ∧ R a') ∧ ∀ b, r = .inr b → Inv d k' s' ∧ T b)
      (fun _ s' => s'.deepest ≤ treeLimit) (fun _ => False) s) (n : ℕ) :
    ∀ a, R a → Limited d k (loopFor body n a) k' T := by
  induction n with
  | zero => exact fun a _ s hs => hs.built
  | succ n ih =>
    intro a ha s hs
    rw [loopFor, wp_bind]
    refine wp_mono (hbody a ha s hs) (fun r s' h => ?_) (fun _ _ h => h) fun _ h => h
    cases r with
    | inl a' => exact ih a' (h.1 a' rfl).2 s' (h.1 a' rfl).1
    | inr b => exact h.2 b rfl

end Limited

theorem bounded_err (message : String) : Limited d k (err message : Parse α) k' R :=
  fun _ hs => hs.built

theorem bounded_advance : Limited d (· = t) advance (After t) fun _ => True := by
  intro s hs
  obtain ⟨hdepth, hle, htokens, hbuilt, rfl⟩ := hs
  unfold advance
  rw [wp_modify]
  cases hnext : s.next with
  | nil =>
    rw [hnext] at htokens
    refine ⟨⟨hdepth, hle, by rw [hnext]; exact htokens, hbuilt, fun h => ?_, fun h _ => ?_⟩,
      trivial⟩
    -- the last token stays the current one
    · exact absurd rfl (htokens.1.resume h).2
    · exact plain_of_endsOperand h
  | cons u ts =>
    rw [hnext] at htokens
    exact ⟨⟨hdepth, hle, htokens.2, hbuilt, htokens.1.next u rfl⟩, trivial⟩

theorem eat_wp {s : ParserState} (hs : Inv d k s) :
    wp (eat kind) (fun b s' => (b = true → Inv d (After kind) s') ∧ (b = false → Inv d k s'))
      (fun _ s' => s'.deepest ≤ treeLimit) (fun _ => False) s := by
  unfold eat
  rw [wp_bind]
  change wp (if s.cur = kind then _ else _) _ _ _ s
  rw [wp_ite]
  refine ⟨fun heq => ?_, fun _ => ⟨nofun, fun _ => hs⟩⟩
  have hadvance : Limited d (· = kind) advance (After kind) fun _ => True := bounded_advance
  rw [wp_bind]
  exact wp_mono (hadvance s ⟨hs.depth, hs.le, hs.tokens, hs.built, heq⟩)
    (fun _ s' h => ⟨fun _ => h.1, nofun⟩) (fun _ _ h => h) fun _ h => h

theorem bounded_eat {p q : Parse α} (hp : Limited d (After kind) p k' R)
    (hq : Limited d k q k' R) :
    Limited d k (eat kind >>= fun b => if b = true then p else q) k' R := by
  intro s hs
  rw [wp_bind]
  refine wp_mono (eat_wp hs) (fun b s' h => ?_) (fun _ _ h => h) fun _ h => h
  cases b with
  | true => exact hp s' (h.1 rfl)
  | false => exact hq s' (h.2 rfl)

theorem bounded_eat_discard {p : Parse α} (hp : Limited d (fun _ => True) p k' R) :
    Limited d k (eat kind >>= fun _ => p) k' R := by
  have h : Limited d k (eat kind >>= fun b => if b = true then p else p) k' R :=
    bounded_eat (hp.of_imp fun _ _ => trivial) (hp.of_imp fun _ _ => trivial)
  simpa only [ite_self] using h

theorem bounded_expect (desc : String) :
    Limited d k (expect kind desc) (After kind) fun _ => True :=
  bounded_eat (.pure (fun _ h => h) trivial) (bounded_err _)

/-- Steps that only read the state, or change other parts of it. -/
theorem bounded_of_frame {p : Parse α} (h : ∀ s, ∃ a s', p s = .ok a s' ∧ R a ∧ s'.cur = s.cur ∧
    s'.next = s.next ∧ s'.depth = s.depth ∧ s'.deepest = s.deepest) : Limited d k p k R := by
  intro s hs
  obtain ⟨a, s', heq, ha, hcur, hnext, hdepth, hdeepest⟩ := h s
  unfold wp
  rw [heq]
  exact ⟨⟨hdepth.trans hs.depth, hs.le, by rw [hcur, hnext]; exact hs.tokens,
    hdeepest ▸ hs.built, hcur ▸ hs.cur⟩, ha⟩

theorem bounded_setClosed (closed : Bool) : Limited d k (setClosed closed) k fun _ => True :=
  bounded_of_frame fun s => ⟨(), { s with closed }, rfl, trivial, rfl, rfl, rfl, rfl⟩

theorem bounded_isClosed : Limited d k isClosed k fun _ => True :=
  bounded_of_frame fun s => ⟨s.closed, s, rfl, trivial, rfl, rfl, rfl, rfl⟩

theorem bounded_canStartAppArg : Limited d k canStartAppArg k fun _ => True :=
  bounded_of_frame fun s => ⟨s.cur.canStartAppArg, s, rfl, trivial, rfl, rfl, rfl, rfl⟩

theorem bounded_canStartAtomPat : Limited d k canStartAtomPat k fun _ => True :=
  bounded_of_frame fun s => ⟨s.cur.canStartAtomPat, s, rfl, trivial, rfl, rfl, rfl, rfl⟩

theorem bounded_canStartQualifiedPath : Limited d k canStartQualifiedPath k fun _ => True :=
  bounded_of_frame fun s => ⟨_, s, rfl, trivial, rfl, rfl, rfl, rfl⟩

theorem bounded_canStartAs : Limited d k canStartAs k fun _ => True :=
  bounded_of_frame fun s => ⟨_, s, rfl, trivial, rfl, rfl, rfl, rfl⟩

theorem bounded_atToken (sep : Token) : Limited d k (atToken sep) k fun _ => True :=
  bounded_of_frame fun s => ⟨_, s, rfl, trivial, rfl, rfl, rfl, rfl⟩

theorem bounded_atOpen (sep : Token) : Limited d k (atOpen sep) k fun _ => True :=
  bounded_of_frame fun s => ⟨_, s, rfl, trivial, rfl, rfl, rfl, rfl⟩

theorem bounded_beginChain (leftAssoc : Bool) :
    Limited d k (beginChain leftAssoc) k fun c => c.links = 0 :=
  bounded_of_frame fun s => ⟨_, { s with peak := s.depth }, rfl, rfl, rfl, rfl, rfl, rfl⟩

theorem bounded_endOperand (c : Chain) :
    Limited d k (endOperand c) k fun c' => c'.links = c.links :=
  bounded_of_frame fun s => ⟨_, { s with peak := s.depth }, rfl, rfl, rfl, rfl, rfl, rfl⟩

theorem bounded_chainLink (c : Chain) :
    Limited d k (chainLink c) k fun c' => c'.links = c.links + 1 ∧ c'.links < maxNestingDepth := by
  unfold chainLink
  dsimp only
  split
  · exact bounded_err _
  · next h => exact .pure (fun _ h => h) ⟨rfl, not_le.mp h⟩

theorem bounded_endChain (c : Chain) : Limited d k (endChain c) k fun _ => True := by
  intro s hs
  unfold endChain
  rw [wp_bind, wp_get]
  dsimp only
  rw [wp_ite]
  exact ⟨fun _ => hs.built, fun _ => ⟨⟨hs.depth, hs.le, hs.tokens, hs.built, hs.cur⟩, trivial⟩⟩

/-- A tree is built within the limit. -/
theorem bounded_build [HasDepth α] {a : α} (ha : HasDepth.depthOf a ≤ treeLimit) (hR : R a) :
    Limited d k (build a) k R :=
  fun _ hs => ⟨⟨hs.depth, hs.le, hs.tokens, max_le hs.built ha, hs.cur⟩, hR⟩

/-- **One level deeper**, if there is one. -/
theorem bounded_nested {p : Parse α} (hp : d < maxNestingDepth → Limited (d + 1) k p k' R) :
    Limited d k (nested p) k' R := by
  intro s hs
  unfold nested
  rw [wp_bind, wp_get, wp_ite]
  refine ⟨fun _ => hs.built, fun h => ?_⟩
  rw [hs.depth, not_le] at h
  rw [wp_bind, wp_set, wp_bind]
  refine wp_mono (hp h _ ⟨congrArg (· + 1) hs.depth, h, hs.tokens, hs.built, hs.cur⟩)
    (fun a s' ha => ?_) (fun _ _ h => h) fun _ h => h
  refine ⟨⟨?_, hs.le, ha.1.tokens, ha.1.built, ha.1.cur⟩, ha.2⟩
  change s'.depth - 1 = d
  rw [ha.1.depth, Nat.add_sub_cancel]

/-! ## Names and literals -/

theorem bounded_taken {p : Parse α}
    (hp : Limited d (· = t.taken) p k' R) :
    Limited d (· = t) ((modify fun s => { s with cur := t.taken }) >>= fun _ => p) k' R := by
  intro s hs
  obtain ⟨hdepth, hle, htokens, hbuilt, rfl⟩ := hs
  rw [wp_bind, wp_modify]
  exact hp _ ⟨hdepth, hle, operandsPlain_taken htokens, hbuilt, rfl⟩

theorem bounded_takeSymbol_after : Limited d (· = t) takeSymbol (After t.taken) fun _ => True := by
  unfold takeSymbol
  refine .peek_bind fun u hu => ?_
  subst hu
  exact bounded_taken (.bind bounded_advance fun _ _ => .pure (fun _ h => h) trivial)

/-- A name is taken. -/
theorem bounded_takeSymbol (ht : t.endsOperand) :
    Limited d (· = t) takeSymbol NotPrefix fun _ => True :=
  bounded_takeSymbol_after.mono (fun _ h => h.plain ((endsOperand_taken t).trans ht)) fun _ h => h

theorem bounded_takeSymbol_any : Limited d k takeSymbol (fun _ => True) fun _ => True := by
  intro s hs
  have h : Limited d (· = s.cur) takeSymbol (After s.cur.taken) fun _ => True :=
    bounded_takeSymbol_after
  exact h.mono (fun _ _ => trivial) (fun _ h => h) s ⟨hs.depth, hs.le, hs.tokens, hs.built, rfl⟩

theorem bounded_expectName {name : Token → Bool} (message : String)
    (hname : ∀ t, name t = true → t.endsOperand = true) :
    Limited d k (expectName name message) NotPrefix fun _ => True := by
  unfold expectName
  refine .peek_bind fun t _ => ?_
  split
  · next h => exact bounded_takeSymbol (hname t h)
  · exact bounded_err _

theorem bounded_advance_any : Limited d k advance (fun _ => True) fun _ => True := by
  intro s hs
  have h : Limited d (· = s.cur) advance (After s.cur) fun _ => True := bounded_advance
  exact h.mono (fun _ _ => trivial) (fun _ h => h) s ⟨hs.depth, hs.le, hs.tokens, hs.built, rfl⟩

/-- A name is taken, and what is known of the token after it. -/
theorem bounded_takeSymbol_next {f : Symbol → Parse α} {s : ParserState} (hs : Inv d k s)
    (hend : s.cur.endsOperand) (hnext : ∀ u rest, s.next = u :: rest → IsPlain u)
    (hf : ∀ name, Limited d IsPlain (f name) k' R) :
    wp (takeSymbol >>= f) (fun a s' => Inv d k' s' ∧ R a) (fun _ s' => s'.deepest ≤ treeLimit)
      (fun _ => False) s := by
  rw [wp_bind]
  have hplain : wp takeSymbol (fun _ s' => IsPlain s'.cur) (fun _ _ => True) (fun _ => True) s := by
    unfold takeSymbol advance
    rw [wp_bind, peek, wp_bind, wp_get, wp_pure, wp_bind, wp_modify, wp_bind, wp_modify]
    cases hrest : s.next with
    | nil => exact plain_of_endsOperand ((endsOperand_taken s.cur).trans hend)
    | cons u rest => exact hnext u rest hrest
  have hinv : wp takeSymbol (fun _ s' => Inv d (fun _ => True) s' ∧ True)
      (fun _ s' => s'.deepest ≤ treeLimit) (fun _ => False) s := bounded_takeSymbol_any s hs
  refine wp_mono (wp_and hinv hplain) (fun name s' h => ?_) (fun _ _ h => h.1) fun _ h => h.1
  obtain ⟨⟨hinv, -⟩, hplain⟩ := h
  exact hf name s' ⟨hinv.depth, hinv.le, hinv.tokens, hinv.built, hplain⟩

/-- After `perform` and a constructor. -/
theorem bounded_performHead {f : Symbol → Parse α}
    (hf : ∀ name, Limited d IsPlain (f name) k' R) :
    Limited d (· = .performKw) (advance >>= fun _ => expectUpperIdent >>= f) k' R := by
  intro s hs
  obtain ⟨hdepth, hle, htokens, hbuilt, hcur⟩ := hs
  rw [wp_bind]
  unfold advance
  rw [wp_modify]
  unfold expectUpperIdent expectName
  cases hnext : s.next with
  | nil =>
    -- `perform` is the last token, and no constructor
    rw [wp_bind, wp_bind, peek, wp_bind, wp_get, wp_pure, wp_ite]
    refine ⟨fun h => ?_, fun _ => hbuilt⟩
    rw [hcur] at h
    cases h
  | cons u ts =>
    rw [hnext] at htokens
    have hinv : Inv d (fun _ => True) { s with cur := u, next := ts } :=
      ⟨hdepth, hle, htokens.2, hbuilt, trivial⟩
    rw [wp_bind, wp_bind, peek, wp_bind, wp_get, wp_pure, wp_ite]
    refine ⟨fun h => ?_, fun _ => hbuilt⟩
    rw [← wp_bind]
    cases u with
    | upperIdent name =>
      exact bounded_takeSymbol_next hinv rfl
        (fun v rest hrest => htokens.1.perform hcur name v rest (congrArg _ hrest)) hf
    | _ => cases h

theorem bounded_takeLiteral {l : Literal} (h : t.literal = some l) :
    Limited d (· = t) (takeLiteral l) NotPrefix fun _ => True := by
  have hend : t.endsOperand = true := by
    cases t <;> first | rfl | cases h
  have hadvance : Limited d (· = t) advance NotPrefix fun _ => True :=
    bounded_advance.mono (fun _ h => h.plain hend) fun _ h => h
  have hstring : Limited d (· = t) takeStringLit NotPrefix fun _ => True := by
    have hplain : ∀ u, After t.taken u → NotPrefix u :=
      fun _ h => h.plain ((endsOperand_taken t).trans hend)
    unfold takeStringLit
    refine .peek_bind fun u hu => ?_
    subst hu
    refine bounded_taken (.bind bounded_advance fun _ _ => ?_)
    split
    · exact .pure hplain trivial
    · exact .pure hplain trivial
  unfold takeLiteral
  split
  · exact .bind hstring fun _ _ => .pure (fun _ h => h) trivial
  · exact .bind hadvance fun _ _ => .pure (fun _ h => h) trivial

/-! ## Loops -/

theorem bounded_separated (call : Calls) {sep : Token} {elem : Parse α} {elems : List α}
    (helem : Limited d (After sep) elem k R) (helems : ∀ e ∈ elems, R e) :
    Limited d k (parseSeparated call sep elem elems) k fun es => ∀ e ∈ es, R e := by
  unfold parseSeparated
  refine .loop (fun es hes => bounded_eat ?_ (.pure (fun _ h => h) hes)) _ elems helems
  refine .bind helem fun e he => .pure (fun _ h => h) ?_
  exact List.forall_mem_append.mpr ⟨hes, List.forall_mem_singleton.mpr he⟩

section RightChains

variable [HasDepth α] {node : α → α → α} {n : ℕ}

theorem bounded_buildRight
    (hnode : ∀ a b, HasDepth.depthOf (node a b) ≤
      1 + max (HasDepth.depthOf a) (HasDepth.depthOf b)) : ∀ (rest : List α) (a : α) (m : ℕ),
    HasDepth.depthOf a ≤ m → n ≤ m → (∀ e ∈ rest, HasDepth.depthOf e ≤ n) →
    m + rest.length ≤ treeLimit →
    Limited d k (buildRight node rest a) k fun b => HasDepth.depthOf b ≤ m + rest.length := by
  intro rest
  induction rest with
  | nil => exact fun a m ha _ _ _ => .pure (fun _ h => h) ha
  | cons e rest ih =>
    intro a m ha hnm hrest hm
    obtain ⟨he, hrest⟩ := List.forall_mem_cons.mp hrest
    rw [List.length_cons] at hm ⊢
    have hdepth := hnode e a
    have hmax : max (HasDepth.depthOf e) (HasDepth.depthOf a) ≤ m := max_le (he.trans hnm) ha
    have hstep : HasDepth.depthOf (node e a) ≤ m + 1 := by omega
    refine .bind (bounded_build (R := fun b => HasDepth.depthOf b ≤ m + 1) (by omega) hstep)
      fun b hb => ?_
    refine (ih b (m + 1) hb (by omega) hrest (by omega)).mono (fun _ h => h) fun c hc => ?_
    omega

/-- **A right-associative chain** adds a level for each link. -/
theorem bounded_rightChain (call : Calls) {more : Parse Bool} {operand : Parse α}
    (hnode : ∀ a b, HasDepth.depthOf (node a b) ≤
      1 + max (HasDepth.depthOf a) (HasDepth.depthOf b))
    (hmore : Limited d k' more k' fun _ => True)
    (hoperand : ∀ k, Limited d k operand k' fun a => HasDepth.depthOf a ≤ n)
    (hn : n + 255 ≤ treeLimit) :
    Limited d k (rightChain call more operand node) k' fun a => HasDepth.depthOf a ≤ n + 255 := by
  have hround : ∀ p : Chain × α × List α, (p.1.links = p.2.2.length ∧ p.2.2.length ≤ 255 ∧
      HasDepth.depthOf p.2.1 ≤ n ∧ ∀ e ∈ p.2.2, HasDepth.depthOf e ≤ n) →
      Limited d k' (chainOperands more operand p) k' (Sum.elim
        (fun p => p.1.links = p.2.2.length ∧ p.2.2.length ≤ 255 ∧ HasDepth.depthOf p.2.1 ≤ n ∧
          ∀ e ∈ p.2.2, HasDepth.depthOf e ≤ n)
        fun p => p.1.links = p.2.2.length ∧ p.2.2.length ≤ 255 ∧ HasDepth.depthOf p.2.1 ≤ n ∧
          ∀ e ∈ p.2.2, HasDepth.depthOf e ≤ n) := by
    rintro ⟨chain, last, elems⟩ hp
    unfold chainOperands
    refine .bind hmore fun b _ => ?_
    split
    · refine .bind (bounded_chainLink chain) fun chain' hlink => ?_
      refine .bind bounded_advance_any fun _ _ => ?_
      refine .bind (hoperand _) fun elem helem => ?_
      refine .bind (bounded_endOperand chain') fun chain'' hend => .pure (fun _ h => h) ?_
      obtain ⟨hlinks, hlt⟩ := hlink
      obtain ⟨hlen, -, hlast, helems⟩ := hp
      have hlt' : chain'.links < 256 := hlt
      refine ⟨?_, ?_, helem, List.forall_mem_cons.mpr ⟨hlast, helems⟩⟩
      · change chain''.links = (last :: elems).length
        rw [hend, hlinks, hlen, List.length_cons]
      · have hlen' : chain.links = elems.length := hlen
        change (last :: elems).length ≤ 255
        rw [List.length_cons]
        omega
    · exact .pure (fun _ h => h) hp
  unfold rightChain
  refine .bind (bounded_beginChain false) fun chain hlinks => ?_
  refine .bind (hoperand _) fun first hfirst => ?_
  refine .bind (bounded_endOperand chain) fun chain' hlinks' => ?_
  refine .bind (.loop hround _ (chain', first, []) ⟨hlinks'.trans hlinks, by simp, hfirst, by simp⟩)
    fun p hp => ?_
  obtain ⟨chain'', last, elems⟩ := p
  obtain ⟨-, hlen, hlast, helems⟩ := hp
  refine .bind (bounded_endChain chain'') fun _ _ => ?_
  have hlen' : elems.length ≤ 255 := hlen
  refine (bounded_buildRight hnode elems last n hlast le_rfl helems (by omega)).mono
    (fun _ h => h) fun a ha => ?_
  omega

end RightChains

end Rules

/-! ## Depths of several trees -/

section Depths

variable {α : Type} {n : ℕ}

theorem depths_le_iff {depth : α → ℕ} {depths : List α → ℕ} (hnil : depths [] = 0)
    (hcons : ∀ a as, depths (a :: as) = max (depth a) (depths as)) {as : List α} :
    depths as ≤ n ↔ ∀ a ∈ as, depth a ≤ n := by
  induction as with
  | nil => simp [hnil]
  | cons a as ih => rw [hcons, max_le_iff, ih, List.forall_mem_cons]

theorem typeDepths_le {tys : List TypeExpr} :
    TypeExpr.depths tys ≤ n ↔ ∀ ty ∈ tys, ty.depth ≤ n := depths_le_iff rfl fun _ _ => rfl

theorem patDepths_le {pats : List Pat} : Pat.depths pats ≤ n ↔ ∀ pat ∈ pats, pat.depth ≤ n :=
  depths_le_iff rfl fun _ _ => rfl

theorem conDepths_le {cons : List ConDecl} :
    conDepths cons ≤ n ↔ ∀ con ∈ cons, payloadDepth con.payload ≤ n :=
  depths_le_iff rfl fun _ _ => rfl

theorem specDepths_le {specs : List (Symbol × List Symbol × Option TypeExpr)} :
    specDepths specs ≤ n ↔ ∀ spec ∈ specs, payloadDepth spec.2.2 ≤ n :=
  depths_le_iff rfl fun _ _ => rfl

theorem exprDepths_le {es : List SurfaceExpr} : exprDepths es ≤ n ↔ ∀ e ∈ es, e.depth ≤ n :=
  depths_le_iff rfl fun _ _ => rfl

theorem declDepths_le {ds : List SurfaceDecl} : declDepths ds ≤ n ↔ ∀ d ∈ ds, d.depth ≤ n :=
  depths_le_iff rfl fun _ _ => rfl

theorem armDepths_le {arms : List SurfaceArm} : armDepths arms ≤ n ↔ ∀ a ∈ arms, a.depth ≤ n :=
  depths_le_iff rfl fun _ _ => rfl

theorem handlerDepths_le {hs : List SurfaceHandler} :
    handlerDepths hs ≤ n ↔ ∀ h ∈ hs, h.depth ≤ n :=
  depths_le_iff rfl fun _ _ => rfl

theorem bindingDepths_le {bs : List SurfaceBinding} :
    bindingDepths bs ≤ n ↔ ∀ b ∈ bs, b.depth ≤ n :=
  depths_le_iff rfl fun _ _ => rfl

theorem clauseDepths_le {cs : List SurfaceClause} :
    clauseDepths cs ≤ n ↔ ∀ c ∈ cs, c.depth ≤ n :=
  depths_le_iff rfl fun _ _ => rfl

end Depths

end Hiko
