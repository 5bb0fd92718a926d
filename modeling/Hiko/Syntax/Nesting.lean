import Hiko.Syntax.Bounded

/-!
# The parser's recursion

Every way from a function of the parser back to itself goes through `nested`, except for the
operands of `perform` and `resume`, which are parsed as atoms: `perform E perform E ...` opens calls
without a limit. Where no operand of the two starts with one of them, a stack of fixed size is enough
for every input, and the trees have a fixed depth.

## Main definitions

* `ExprFn.rank`, `ExprFn.height`: the frames and the levels that a function takes on one level
* `Spec`: what the functions need and build
* `performs`: nested `perform`

## Main results

* `spec_run`: the functions on a stack of enough frames
* `parser_bounded`: a stack of fixed size is enough
* `parser_unbounded`: none is, for every input
-/

namespace Hiko

open Lib Lib.Exec

/-! ## What the functions need -/

/-- The frames that a function takes on one level. -/
def ExprFn.rank : ExprFn → ℕ
  | .expr => 1
  | .exprInner => 26
  | .pipe => 25
  | .orelse => 23
  | .andalso => 21
  | .comp => 19
  | .cons => 18
  | .add => 16
  | .mul => 14
  | .leftChain operand _ => operand.rank + 1
  | .rightChain operand _ _ => operand.rank + 1
  | .unary => 12
  | .app => 11
  | .appArg => 10
  | .atom => 9
  | .openEnded parse => parse.rank + 1
  | .perform | .resume => 8
  | .letIn => 6
  | .handle | .ite | .case | .fn => 2

/-- The levels of the trees that a function builds on one level of nesting. -/
def ExprFn.height : ExprFn → ℕ
  | .expr => 0
  | .exprInner => 1792
  | .pipe => 1791
  | .orelse => 1536
  | .andalso => 1281
  | .comp => 1026
  | .cons => 1025
  | .add => 770
  | .mul => 515
  | .leftChain operand _ => operand.height + 255
  | .rightChain operand _ _ => operand.height + 255
  | .unary | .app => 260
  | .appArg => 5
  | .atom | .perform | .resume => 4
  | .openEnded parse => parse.height
  | .letIn => 3
  | .handle | .ite | .case | .fn => 1

/-- The functions that may be called at any token, with the operators that they build. -/
def ExprFn.Usable : ExprFn → Prop
  | .perform | .resume => False
  | .leftChain operand _ => operand.Usable
  | .rightChain operand _ node =>
    operand.Usable ∧ ∀ lhs rhs, (node lhs rhs).depth ≤ 1 + max lhs.depth rhs.depth
  | .openEnded parse => parse.Usable
  | _ => True

def PatFn.rank : PatFn → ℕ
  | .pat => 1
  | .innerDispatch => 6
  | .asPat => 5
  | .consPat => 4
  | .appPat => 3
  | .atomPat => 2

def PatFn.height : PatFn → ℕ
  | .pat => 0
  | .innerDispatch => 513
  | .asPat => 512
  | .consPat => 257
  | .appPat => 2
  | .atomPat => 1

def TypeFn.rank : TypeFn → ℕ
  | .typeExpr => 1
  | .arrowType => 5
  | .tupleType => 4
  | .appType => 3
  | .atomType => 2

def TypeFn.height : TypeFn → ℕ
  | .typeExpr => 0
  | .arrowType => 512
  | .tupleType => 257
  | .appType => 256
  | .atomType => 1

def DeclFn.rank : DeclFn → ℕ
  | .localIn | .structureDecl => 6
  | .decl => 5
  | .funs => 4
  | .signatureDecl => 3
  | .val | .datatype | .typeAlias | .effect => 2
  | .useDecl | .importDecl => 1

def DeclFn.height : DeclFn → ℕ
  | .localIn | .structureDecl => 3
  | .decl | .funs => 2
  | _ => 1

/-- **The functions on a stack of `s` frames**: with enough of them, no call overflows, and its tree
has the depth of its level. An atom that is no operand of `perform` or `resume` needs fewer. -/
structure Spec [HasResume] (call : Calls) (s : ℕ) : Prop where
  expr : ∀ f d k, f.Usable → f.height ≤ 2000 → frames d f.rank ≤ s →
    Limited d k (call.expr f) NotPrefix fun e => e.depth ≤ limit d f.height
  plainAtom : ∀ d, frames d 7 ≤ s →
    Limited d IsPlain (call.expr .atom) NotPrefix fun e => e.depth ≤ limit d 3
  perform : ∀ d, frames d 8 ≤ s →
    Limited d (· = .performKw) (call.expr .perform) NotPrefix fun e => e.depth ≤ limit d 4
  resume : ∀ d, frames d 8 ≤ s →
    Limited d (· = .resumeKw) (call.expr .resume) NotPrefix fun e => e.depth ≤ limit d 4
  pat : ∀ f d k, frames d f.rank ≤ s →
    Limited d k (call.pat f) (fun _ => True) fun pat => pat.depth ≤ limit d f.height
  type : ∀ f d k, frames d f.rank ≤ s →
    Limited d k (call.type f) NotPrefix fun ty => ty.depth ≤ limit d f.height
  decl : ∀ f d k, frames d f.rank ≤ s →
    Limited d k (call.decl f) (fun _ => True) fun decl => decl.depth ≤ limit d f.height
  funBinding : ∀ d k, frames d 3 ≤ s →
    Limited d k call.funBinding (fun _ => True) fun b => b.depth ≤ limit d 1
  signatureSpec : ∀ d k, frames d 2 ≤ s →
    Limited d k call.signatureSpec (fun _ => True) fun spec => payloadDepth spec.2.2 ≤ limit d 0
  tyvarParams : ∀ d k, frames d 1 ≤ s →
    Limited d k call.tyvarParams (fun _ => True) fun _ => True
  qualifiedSymbol : ∀ d k, frames d 1 ≤ s →
    Limited d k call.qualifiedSymbol NotPrefix fun _ => True

section Numbers

variable {d r r' s n m : ℕ}

theorem frames_lt (h : frames d r ≤ s + 1) (hr : r' < r) : frames d r' ≤ s := by
  unfold frames at *
  omega

theorem frames_succ (hd : d < maxNestingDepth) (h : frames d r ≤ s + 1) (hr : r' < 30 + r) :
    frames (d + 1) r' ≤ s := by
  unfold frames at *
  omega

theorem limit_mono (h : n ≤ m) : limit d n ≤ limit d m := Nat.add_le_add_left h _

theorem limit_succ (hd : d < maxNestingDepth) (h : n ≤ 2000 + m) :
    limit (d + 1) n ≤ limit d m := by
  unfold limit
  omega

theorem limit_add : limit d n + m = limit d (n + m) := Nat.add_assoc ..

theorem limit_le (h : n ≤ 2000) : limit d n ≤ treeLimit := by
  unfold limit treeLimit
  omega

theorem one_le_limit (h : 1 ≤ n) : 1 ≤ limit d n := h.trans (Nat.le_add_left _ _)

theorem add_le_limit {a : ℕ} (h : a ≤ limit d n) : 1 + a ≤ limit d (n + 1) := by
  rw [← limit_add]
  omega

theorem ExprFn.rank_pos (f : ExprFn) : 0 < f.rank := by
  cases f <;> simp [ExprFn.rank]

theorem frames_pos {r : ℕ} (hr : 0 < r) : ¬ frames d r ≤ 0 := by
  unfold frames
  omega

end Numbers

theorem endsOperand_of_isTyVar (t : Token) (ht : t.isTyVar = true) : t.endsOperand = true := by
  cases t <;> first | rfl | cases ht

theorem endsOperand_of_isIdent (t : Token) (ht : t.isIdent = true) : t.endsOperand = true := by
  cases t <;> first | rfl | cases ht

theorem endsOperand_of_isUpperIdent (t : Token) (ht : t.isUpperIdent = true) :
    t.endsOperand = true := by
  cases t <;> first | rfl | cases ht

theorem endsOperand_of_isName (t : Token) (ht : (t.isIdent || t.isUpperIdent) = true) :
    t.endsOperand = true := by
  cases t <;> first | rfl | cases ht

theorem typeArgs_depths {ty : TypeExpr} {n : ℕ} (h : ty.depth ≤ n) :
    TypeExpr.depths (typeArgs ty) ≤ n := by
  cases ty with
  | tuple elems =>
    have h' : 1 + TypeExpr.depths elems ≤ n := h
    exact (Nat.le_add_left _ _).trans h'
  | _ => exact typeDepths_le.mpr (List.forall_mem_singleton.mpr h)

section Bodies

variable [HasResume] {call : Calls} {s d : ℕ} {k : Token → Prop}

/-- A tree of the depth of its level. -/
theorem bounded_node {α : Type} [HasDepth α] {a : α} {n : ℕ} (hn : n ≤ 2000)
    (ha : HasDepth.depthOf a ≤ limit d n) :
    Limited d k (build a) k fun a => HasDepth.depthOf a ≤ limit d n :=
  bounded_build (ha.trans (limit_le hn)) ha

/-! ## Leaves -/

theorem parseQualifiedSymbol_bounded : Limited d k (parseQualifiedSymbol call) NotPrefix
    fun _ => True := by
  have hname : ∀ {t : Token}, (t.isUpperIdent || t.isIdent) = true → t.endsOperand = true := by
    intro t ht
    cases t <;> first | rfl | cases ht
  have hround : ∀ parts : List Symbol, True → Limited d NotPrefix (do
      if ← eat .dot then
        let t ← peek
        if t.isUpperIdent || t.isIdent then
          let part ← takeSymbol
          pure (Sum.inl (part :: parts))
        else err "expected name after '.'"
      else pure (Sum.inr parts) : Parse (List Symbol ⊕ List Symbol)) NotPrefix
      (Sum.elim (fun _ => True) fun _ => True) := by
    intro parts _
    refine bounded_eat ?_ (.pure (fun _ h => h) trivial)
    refine .peek_bind fun t _ => ?_
    split
    · next ht =>
      exact .bind (bounded_takeSymbol (hname ht)) fun _ _ => .pure (fun _ h => h) trivial
    · exact bounded_err _
  unfold parseQualifiedSymbol
  refine .peek_bind fun t _ => ?_
  split
  · next ht =>
    refine .bind (bounded_takeSymbol (hname (by rw [ht, Bool.true_or]))) fun first _ => ?_
    exact .bind (.loop hround _ [first] trivial) fun _ _ => .pure (fun _ h => h) trivial
  · exact bounded_err _

theorem parseTyvarParams_bounded : Limited d k (parseTyvarParams call) (fun _ => True)
    fun _ => True := by
  have htyvar : ∀ k, Limited d k expectTyvar (fun _ => True) fun _ => True := fun k =>
    (bounded_expectName _ endsOperand_of_isTyVar).mono (fun _ _ => trivial) fun _ h => h
  unfold parseTyvarParams
  refine .peek_bind fun t _ => ?_
  split
  · exact .bind bounded_takeSymbol_any fun _ _ => .pure (fun _ h => h) trivial
  · refine bounded_eat ?_ (.pure (fun _ _ => trivial) trivial)
    refine .bind (htyvar _) fun first _ => ?_
    refine .bind (bounded_separated call (htyvar _) fun _ _ => trivial) fun vars _ => ?_
    refine .bind (bounded_expect _) fun _ _ => .pure (fun _ _ => trivial) trivial

/-! ## Types -/

theorem parseTypeExpr_bounded (h : Spec call s) (hs : frames d 1 ≤ s + 1) :
    Limited d k (parseTypeExpr call) NotPrefix fun ty => ty.depth ≤ limit d 0 :=
  bounded_nested fun hd =>
    (h.type .arrowType (d + 1) k (frames_succ hd hs (by decide))).mono (fun _ h => h)
      fun _ hty => hty.trans (limit_succ hd (by decide))

theorem parseArrowType_bounded (h : Spec call s) (hs : frames d 5 ≤ s + 1) :
    Limited d k (parseArrowType call) NotPrefix fun ty => ty.depth ≤ limit d 512 := by
  have htuple : ∀ k, Limited d k (call.type .tupleType) NotPrefix
      fun ty => ty.depth ≤ limit d 257 :=
    fun k => h.type .tupleType d k (frames_lt hs (by decide))
  exact bounded_rightChain call (fun _ _ => le_rfl) (bounded_atToken _) htuple
    (limit_le (n := 512) (by decide))

theorem parseTupleType_bounded (h : Spec call s) (hs : frames d 4 ≤ s + 1) :
    Limited d k (parseTupleType call) NotPrefix fun ty => ty.depth ≤ limit d 257 := by
  have happ : ∀ k, Limited d k (call.type .appType) NotPrefix fun ty => ty.depth ≤ limit d 256 :=
    fun k => h.type .appType d k (frames_lt hs (by decide))
  unfold parseTupleType
  refine .bind (happ k) fun first hfirst => .peek_bind fun t ht => ?_
  split
  · refine .bind ((bounded_separated call (happ _)
      (List.forall_mem_singleton.mpr hfirst)).of_imp fun _ h => h ▸ ht) fun elems helems => ?_
    exact bounded_node (by decide) (add_le_limit (typeDepths_le.mpr helems))
  · exact .pure (fun _ h => h ▸ ht) (hfirst.trans (limit_mono (by decide)))

theorem parseAppType_bounded (h : Spec call s) (hs : frames d 3 ≤ s + 1) :
    Limited d k (parseAppType call) NotPrefix fun ty => ty.depth ≤ limit d 256 := by
  have hround : ∀ p : Chain × TypeExpr, p.1.links ≤ 255 ∧ p.2.depth ≤ limit d (1 + p.1.links) →
      Limited d NotPrefix (appTypeLink call p) NotPrefix (Sum.elim
        (fun p => p.1.links ≤ 255 ∧ p.2.depth ≤ limit d (1 + p.1.links))
        fun p => p.1.links ≤ 255 ∧ p.2.depth ≤ limit d (1 + p.1.links)) := by
    rintro ⟨chain, ty⟩ hp
    unfold appTypeLink
    refine .peek_bind fun t _ => ?_
    split
    · next ht =>
      refine .bind (bounded_chainLink chain) fun chain' hlink => ?_
      obtain ⟨hlinks, hlt⟩ := hlink
      have hlt' : chain'.links ≤ 255 := Nat.le_of_lt_succ hlt
      have happ : ∀ name, HasDepth.depthOf (TypeExpr.app name (typeArgs ty)) ≤
          limit d (1 + chain'.links) := by
        intro name
        rw [hlinks]
        exact add_le_limit (typeArgs_depths hp.2)
      refine .bind bounded_canStartQualifiedPath fun b _ => ?_
      split
      · refine .bind (h.qualifiedSymbol d _ (frames_lt hs (by decide))) fun q _ => ?_
        refine .bind (bounded_node (by omega) (happ q.1)) fun ty' hty' => ?_
        exact .pure (fun _ h => h) ⟨hlt', hty'⟩
      · refine .bind (bounded_takeSymbol (endsOperand_of_isName t ht)) fun name _ => ?_
        refine .bind (bounded_node (by omega) (happ name)) fun ty' hty' => ?_
        exact .pure (fun _ h => h) ⟨hlt', hty'⟩
    · next ht hplain => exact .pure (fun _ h => h ▸ ‹NotPrefix t›) hp
  unfold parseAppType
  refine .bind (bounded_beginChain true) fun chain hlinks => ?_
  refine .bind (h.type .atomType d _ (frames_lt hs (by decide))) fun ty hty => ?_
  refine .bind (bounded_endOperand chain) fun chain' hlinks' => ?_
  have hzero : chain'.links = 0 := hlinks'.trans hlinks
  refine .bind (.loop hround _ (chain', ty) ⟨by rw [hzero]; decide, by rw [hzero]; exact hty⟩)
    fun p hp => ?_
  obtain ⟨chain'', ty'⟩ := p
  refine .bind (bounded_endChain chain'') fun _ _ => ?_
  have hty' : ty'.depth ≤ limit d 256 := hp.2.trans (limit_mono (by have := hp.1; omega))
  cases ty' with
  | tuple elems => exact bounded_err _
  | _ => exact .pure (fun _ h => h) hty'

end Bodies

section Patterns

variable [HasResume] {call : Calls} {s d : ℕ} {k : Token → Prop}

/-- Anything in parentheses, or several things with commas between them. -/
theorem bounded_parens {α : Type} [HasDepth α] {elem : Parse α} {k' : Token → Prop} {n : ℕ}
    {one : α → α} {several : List α → α} (hn : n + 1 ≤ 2000)
    (helem : ∀ k, Limited d k elem k' fun a => HasDepth.depthOf a ≤ limit d n)
    (hone : ∀ a, HasDepth.depthOf a ≤ limit d n → HasDepth.depthOf (one a) ≤ limit d (n + 1))
    (hseveral : ∀ as : List α, (∀ a ∈ as, HasDepth.depthOf a ≤ limit d n) →
      HasDepth.depthOf (several as) ≤ limit d (n + 1)) :
    Limited d k (do
      let first ← elem
      if ← eat .comma then
        let second ← elem
        let elems ← parseSeparated call .comma elem [first, second]
        expect .rParen ")"
        build (several elems)
      else
        expect .rParen ")"
        build (one first)) NotPrefix fun a => HasDepth.depthOf a ≤ limit d (n + 1) := by
  have hclose : ∀ {k} {a : α}, HasDepth.depthOf a ≤ limit d (n + 1) →
      Limited d k (do
        expect .rParen ")"
        build a) NotPrefix fun a => HasDepth.depthOf a ≤ limit d (n + 1) :=
    fun ha => .bind (bounded_expect _) fun _ _ =>
      (bounded_node hn ha).mono (fun _ h => h.plain rfl) fun _ h => h
  refine .bind (helem _) fun first hfirst => bounded_eat ?_ (hclose (hone first hfirst))
  refine .bind (helem _) fun second hsecond => ?_
  refine .bind (bounded_separated call (helem _) ?_) fun elems helems =>
    hclose (hseveral elems helems)
  exact List.forall_mem_cons.mpr ⟨hfirst, List.forall_mem_singleton.mpr hsecond⟩

theorem parseAtomType_bounded (h : Spec call s) (hs : frames d 2 ≤ s + 1) :
    Limited d k (parseAtomType call) NotPrefix fun ty => ty.depth ≤ limit d 1 := by
  have hleaf : ∀ {k : Token → Prop} {ty : TypeExpr}, ty.depth = 1 →
      Limited d k (build ty) k fun ty => ty.depth ≤ limit d 1 :=
    fun hty => bounded_node (by decide) (hty.trans_le (one_le_limit le_rfl))
  unfold parseAtomType
  refine .peek_bind fun t _ => ?_
  split
  · next ht =>
    exact .bind (bounded_takeSymbol (endsOperand_of_isTyVar t ht)) fun name _ => hleaf rfl
  · refine .bind bounded_canStartQualifiedPath fun b _ => ?_
    split
    · exact .bind (h.qualifiedSymbol d _ (frames_lt hs (by decide))) fun q _ => hleaf rfl
    · split
      · next ht =>
        exact .bind (bounded_takeSymbol (endsOperand_of_isName t ht)) fun name _ => hleaf rfl
      · split
        · refine .bind bounded_advance_any fun _ _ => ?_
          exact bounded_parens (by decide)
            (fun k => h.type .typeExpr d k (frames_lt hs (by decide)))
            (fun a ha => add_le_limit ha) fun as has => add_le_limit (typeDepths_le.mpr has)
        · exact bounded_err _

/-! ## Patterns -/

theorem parsePat_bounded (h : Spec call s) (hs : frames d 1 ≤ s + 1) :
    Limited d k (parsePat call) (fun _ => True) fun pat => pat.depth ≤ limit d 0 :=
  bounded_nested fun hd =>
    (h.pat .innerDispatch (d + 1) k (frames_succ hd hs (by decide))).mono (fun _ h => h)
      fun _ hpat => hpat.trans (limit_succ hd (by decide))

theorem parsePatInnerDispatch_bounded (h : Spec call s) (hs : frames d 6 ≤ s + 1) :
    Limited d k (parsePatInnerDispatch call) (fun _ => True)
      fun pat => pat.depth ≤ limit d 513 := by
  unfold parsePatInnerDispatch
  refine .bind (h.pat .asPat d k (frames_lt hs (by decide))) fun pat hpat => bounded_eat ?_ ?_
  · refine .bind (h.type .typeExpr d _ (frames_lt hs (by decide))) fun ty hty => ?_
    have hann : (Pat.ann pat ty).depth ≤ limit d 513 :=
      add_le_limit (max_le hpat (hty.trans (limit_mono (by decide))))
    exact (bounded_node (by decide) hann).mono (fun _ _ => trivial) fun _ h => h
  · exact .pure (fun _ h => h) (hpat.trans (limit_mono (by decide)))

theorem buildAs_bounded : ∀ (names : List Symbol) {pat : Pat} {n : ℕ},
    n + names.length ≤ 2000 → pat.depth ≤ limit d n →
    Limited d k (buildAs names pat) k fun pat => pat.depth ≤ limit d (n + names.length) := by
  intro names
  induction names with
  | nil => exact fun _ hpat => .pure (fun _ h => h) hpat
  | cons name names ih =>
    intro pat n hn hpat
    rw [List.length_cons] at hn ⊢
    have hstep : HasDepth.depthOf (Pat.as name pat) ≤ limit d (n + 1) := add_le_limit hpat
    refine .bind (bounded_node (by omega) hstep) fun pat' hpat' => ?_
    refine (ih (by omega) hpat').mono (fun _ h => h) fun _ h => h.trans (limit_mono (by omega))

theorem parseAsPat_bounded (h : Spec call s) (hs : frames d 5 ≤ s + 1) :
    Limited d k (parseAsPat call) (fun _ => True) fun pat => pat.depth ≤ limit d 512 := by
  have hround : ∀ p : Chain × List Symbol, p.1.links = p.2.length ∧ p.2.length ≤ 255 →
      Limited d (fun _ => True) (asPatLink p) (fun _ => True) (Sum.elim
        (fun p => p.1.links = p.2.length ∧ p.2.length ≤ 255)
        fun p => p.1.links = p.2.length ∧ p.2.length ≤ 255) := by
    rintro ⟨chain, names⟩ hp
    unfold asPatLink
    refine .bind bounded_canStartAs fun b _ => ?_
    split
    · refine .bind (bounded_chainLink chain) fun chain' hlink => ?_
      obtain ⟨hlinks, hlt⟩ := hlink
      refine .bind bounded_takeSymbol_any fun name _ => ?_
      refine .bind bounded_advance_any fun _ _ => .pure (fun _ h => h) ?_
      have hlen : chain'.links = names.length + 1 := by rw [hlinks]; exact congrArg (· + 1) hp.1
      have hlt' : chain'.links ≤ 255 := Nat.le_of_lt_succ hlt
      refine ⟨hlen, ?_⟩
      change names.length + 1 ≤ 255
      rwa [← hlen]
    · exact .pure (fun _ h => h) hp
  unfold parseAsPat
  refine .bind (bounded_beginChain false) fun chain hlinks => ?_
  refine .bind ((Limited.loop hround _ (chain, []) ⟨hlinks, Nat.zero_le _⟩).of_imp
    fun _ _ => trivial) fun p hp => ?_
  obtain ⟨chain', names⟩ := p
  refine .bind (h.pat .consPat d _ (frames_lt hs (by decide))) fun pat hpat => ?_
  refine .bind (bounded_endOperand chain') fun chain'' _ => ?_
  refine .bind (bounded_endChain chain'') fun _ _ => ?_
  have hlen : names.length ≤ 255 := hp.2
  exact (buildAs_bounded names (n := 257) (by omega) hpat).mono (fun _ h => h)
    fun _ h => h.trans (limit_mono (by omega))

theorem parseConsPat_bounded (h : Spec call s) (hs : frames d 4 ≤ s + 1) :
    Limited d k (parseConsPat call) (fun _ => True) fun pat => pat.depth ≤ limit d 257 := by
  have happ : ∀ k, Limited d k (call.pat .appPat) (fun _ => True)
      fun pat => pat.depth ≤ limit d 2 :=
    fun k => h.pat .appPat d k (frames_lt hs (by decide))
  exact bounded_rightChain call (fun _ _ => le_rfl) (bounded_atToken _) happ
    (limit_le (n := 257) (by decide))

theorem conPat_bounded (name : Symbol)
    (hatom : ∀ k, Limited d k (call.pat .atomPat) (fun _ => True)
      fun pat => pat.depth ≤ limit d 1) :
    Limited d k (conPat call name) (fun _ => True) fun pat => pat.depth ≤ limit d 2 := by
  unfold conPat
  refine .bind bounded_canStartAtomPat fun b _ => ?_
  split
  · exact .bind (hatom _) fun payload hpayload => bounded_node (by decide) (add_le_limit hpayload)
  · have hcon : (Pat.con name).depth ≤ limit d 2 := one_le_limit (by decide)
    exact (bounded_node (by decide) hcon).mono (fun _ _ => trivial) fun _ h => h

theorem parseAppPat_bounded (h : Spec call s) (hs : frames d 3 ≤ s + 1) :
    Limited d k (parseAppPat call) (fun _ => True) fun pat => pat.depth ≤ limit d 2 := by
  have hatom : ∀ k, Limited d k (call.pat .atomPat) (fun _ => True)
      fun pat => pat.depth ≤ limit d 1 :=
    fun k => h.pat .atomPat d k (frames_lt hs (by decide))
  unfold parseAppPat
  refine .bind bounded_canStartQualifiedPath fun b _ => ?_
  split
  · refine .bind (h.qualifiedSymbol d _ (frames_lt hs (by decide))) fun q _ => ?_
    obtain ⟨name, isConstructor⟩ := q
    dsimp only
    split
    · exact conPat_bounded name hatom
    · exact bounded_err _
  · refine .peek_bind fun t _ => ?_
    split
    · exact .bind bounded_takeSymbol_any fun name _ => conPat_bounded name hatom
    · exact (hatom _).mono (fun _ h => h) fun _ h => h.trans (limit_mono (by decide))

theorem parseListPat_bounded
    (hpat : ∀ k, Limited d k (call.pat .pat) (fun _ => True) fun pat => pat.depth ≤ limit d 0) :
    Limited d k (parseListPat call) (fun _ => True) fun pat => pat.depth ≤ limit d 1 := by
  have hround : ∀ p : Chain × Pat × List Pat,
      p.2.1.depth ≤ limit d 0 ∧ (∀ e ∈ p.2.2, e.depth ≤ limit d 0) →
      Limited d (fun _ => True) (chainOperands (atToken .comma) (call.pat .pat) p)
        (fun _ => True) (Sum.elim
          (fun p => p.2.1.depth ≤ limit d 0 ∧ ∀ e ∈ p.2.2, e.depth ≤ limit d 0)
          fun p => p.2.1.depth ≤ limit d 0 ∧ ∀ e ∈ p.2.2, e.depth ≤ limit d 0) := by
    rintro ⟨chain, last, elems⟩ hp
    unfold chainOperands
    refine .bind (bounded_atToken _) fun b _ => ?_
    split
    · refine .bind (bounded_chainLink chain) fun chain' _ => ?_
      refine .bind bounded_advance_any fun _ _ => ?_
      refine .bind (hpat _) fun elem helem => ?_
      refine .bind (bounded_endOperand chain') fun chain'' _ => .pure (fun _ h => h) ?_
      exact ⟨helem, List.forall_mem_cons.mpr hp⟩
    · exact .pure (fun _ h => h) hp
  have hempty : (Pat.list []).depth ≤ limit d 1 := one_le_limit le_rfl
  unfold parseListPat
  refine bounded_eat ((bounded_node (by decide) hempty).mono (fun _ _ => trivial) fun _ h => h) ?_
  refine .bind (bounded_beginChain false) fun chain _ => ?_
  refine .bind (hpat _) fun first hfirst => ?_
  refine .bind (bounded_endOperand chain) fun chain' _ => ?_
  refine .bind (.loop hround _ (chain', first, []) ⟨hfirst, by simp⟩) fun p hp => ?_
  obtain ⟨chain'', last, elems⟩ := p
  refine .bind (bounded_endChain chain'') fun _ _ => ?_
  refine .bind (bounded_expect _) fun _ _ => ?_
  have hlist : (Pat.list (last :: elems).reverse).depth ≤ limit d 1 := by
    have hall : ∀ pat ∈ last :: elems, pat.depth ≤ limit d 0 :=
      List.forall_mem_cons.mpr ⟨hp.1, hp.2⟩
    exact add_le_limit (patDepths_le.mpr fun pat hpat => hall pat (List.mem_reverse.mp hpat))
  exact (bounded_node (by decide) hlist).mono (fun _ _ => trivial) fun _ h => h

theorem parseAtomPat_bounded (h : Spec call s) (hs : frames d 2 ≤ s + 1) :
    Limited d k (parseAtomPat call) (fun _ => True) fun pat => pat.depth ≤ limit d 1 := by
  have hpat : ∀ k, Limited d k (call.pat .pat) (fun _ => True) fun pat => pat.depth ≤ limit d 0 :=
    fun k => h.pat .pat d k (frames_lt hs (by decide))
  have hleaf : ∀ {k : Token → Prop} {pat : Pat}, pat.depth = 1 →
      Limited d k (build pat) (fun _ => True) fun pat => pat.depth ≤ limit d 1 :=
    fun hty => (bounded_node (by decide) (hty.trans_le (one_le_limit le_rfl))).mono
      (fun _ _ => trivial) fun _ h => h
  have hparen : ∀ {k}, Limited d k (parseParenPat call) (fun _ => True)
      fun pat => pat.depth ≤ limit d 1 := by
    unfold parseParenPat
    refine bounded_eat (hleaf rfl) ?_
    exact (bounded_parens (by decide) hpat (fun a ha => add_le_limit ha)
      fun as has => add_le_limit (patDepths_le.mpr has)).mono (fun _ _ => trivial) fun _ h => h
  have hneg : ∀ {k}, Limited d k parseNegPat (fun _ => True)
      fun pat => pat.depth ≤ limit d 1 := by
    unfold parseNegPat
    refine .peek_bind fun t _ => ?_
    split
    · exact .bind bounded_advance_any fun _ _ => hleaf rfl
    · exact .bind bounded_advance_any fun _ _ => hleaf rfl
    · exact bounded_err _
  unfold parseAtomPat
  refine .bind bounded_canStartQualifiedPath fun b _ => ?_
  split
  · refine .bind (h.qualifiedSymbol d _ (frames_lt hs (by decide))) fun q _ => ?_
    obtain ⟨name, isConstructor⟩ := q
    dsimp only
    split
    · exact hleaf rfl
    · exact bounded_err _
  · refine .peek_bind fun t _ => ?_
    split
    · next l hl => exact .bind (bounded_takeLiteral hl) fun _ _ => hleaf rfl
    · split
      · exact .bind bounded_advance_any fun _ _ => hleaf rfl
      · exact .bind bounded_takeSymbol_any fun _ _ => hleaf rfl
      · exact .bind bounded_takeSymbol_any fun _ _ => hleaf rfl
      · exact .bind bounded_advance_any fun _ _ => hneg
      · exact .bind bounded_advance_any fun _ _ => hparen
      · exact .bind bounded_advance_any fun _ _ => parseListPat_bounded hpat
      · exact bounded_err _

end Patterns

/-! ## Expressions -/

/-- A prefix operator adds a level. -/
theorem unary_depth {t : Token} {wrap : SurfaceExpr → SurfaceExpr} (h : t.unary = some wrap)
    (e : SurfaceExpr) : (wrap e).depth = 1 + e.depth := by
  cases t <;> first | cases h; rfl | cases h

section Expressions

variable [HasResume] {call : Calls} {s d : ℕ} {k : Token → Prop}

theorem Spec.callExpr (h : Spec call s) (hs : frames d 2 ≤ s + 1) (k : Token → Prop) :
    Limited d k (call.expr .expr) NotPrefix fun e => e.depth ≤ limit d 0 :=
  h.expr .expr d k trivial (by decide) (frames_lt hs (by decide))

theorem Spec.callPat (h : Spec call s) (hs : frames d 2 ≤ s + 1) (k : Token → Prop) :
    Limited d k (call.pat .pat) (fun _ => True) fun pat => pat.depth ≤ limit d 0 :=
  h.pat .pat d k (frames_lt hs (by decide))

theorem Spec.callType (h : Spec call s) (hs : frames d 2 ≤ s + 1) (k : Token → Prop) :
    Limited d k (call.type .typeExpr) NotPrefix fun ty => ty.depth ≤ limit d 0 :=
  h.type .typeExpr d k (frames_lt hs (by decide))

theorem parseExpr_bounded (h : Spec call s) (hs : frames d 1 ≤ s + 1) :
    Limited d k (parseExpr call) NotPrefix fun e => e.depth ≤ limit d 0 := by
  have hinner : Limited d k (nested (call.expr .exprInner)) NotPrefix
      fun e => e.depth ≤ limit d 0 :=
    bounded_nested fun hd =>
      (h.expr .exprInner (d + 1) k trivial (by decide) (frames_succ hd hs (by decide))).mono
        (fun _ h => h) fun _ he => he.trans (limit_succ hd (by decide))
  exact .bind hinner fun e he => .bind (bounded_setClosed false) fun _ _ => .pure (fun _ h => h) he

theorem parseExprInner_bounded (h : Spec call s) (hs : frames d 26 ≤ s + 1) :
    Limited d k (parseExprInner call) NotPrefix fun e => e.depth ≤ limit d 1792 := by
  unfold parseExprInner
  refine .bind (h.expr .pipe d k trivial (by decide) (frames_lt hs (by decide)))
    fun e he => bounded_eat ?_ ?_
  · refine .bind (h.type .typeExpr d _ (frames_lt hs (by decide))) fun ty hty => ?_
    exact bounded_node (by decide) (add_le_limit (max_le he (hty.trans (limit_mono (by decide)))))
  · exact .pure (fun _ h => h) (he.trans (limit_mono (by decide)))

theorem parseComp_bounded (h : Spec call s) (hs : frames d 19 ≤ s + 1) :
    Limited d k (parseComp call) NotPrefix fun e => e.depth ≤ limit d 1026 := by
  have hcons : ∀ k, Limited d k (call.expr .cons) NotPrefix fun e => e.depth ≤ limit d 1025 :=
    fun k => h.expr .cons d k trivial (by decide) (frames_lt hs (by decide))
  unfold parseComp
  refine .bind (hcons k) fun lhs hlhs => .peek_bind fun t ht => ?_
  refine .bind bounded_isClosed fun closed _ => ?_
  have hdone : Limited d (· = t) (pure lhs) NotPrefix fun e => e.depth ≤ limit d 1026 :=
    .pure (fun _ h => h ▸ ht) (hlhs.trans (limit_mono (by decide)))
  split
  · split
    · exact hdone
    · refine .bind bounded_advance_any fun _ _ => .bind (hcons _) fun rhs hrhs => ?_
      exact bounded_node (by decide) (add_le_limit (max_le hlhs hrhs))
  · exact hdone

/-- **A left-associative chain** adds a level for each link. -/
theorem parseLeftChain_bounded {operand : ExprFn} {op : Token → Option BinOp} {n : ℕ}
    (hn : n + 255 ≤ 2000)
    (hoperand : ∀ k, Limited d k (call.expr operand) NotPrefix fun e => e.depth ≤ limit d n) :
    Limited d k (parseLeftChain call operand op) NotPrefix
      fun e => e.depth ≤ limit d (n + 255) := by
  have hround : ∀ p : Chain × SurfaceExpr,
      p.1.links ≤ 255 ∧ p.2.depth ≤ limit d (n + p.1.links) →
      Limited d NotPrefix (leftChainLink call operand op p) NotPrefix (Sum.elim
        (fun p => p.1.links ≤ 255 ∧ p.2.depth ≤ limit d (n + p.1.links))
        fun p => p.1.links ≤ 255 ∧ p.2.depth ≤ limit d (n + p.1.links)) := by
    rintro ⟨chain, lhs⟩ hp
    unfold leftChainLink
    refine .peek_bind fun t ht => .bind bounded_isClosed fun closed _ => ?_
    split
    · split
      · exact .pure (fun _ h => h ▸ ht) hp
      · refine .bind (bounded_chainLink chain) fun chain' hlink => ?_
        obtain ⟨hlinks, hlt⟩ := hlink
        have hlt' : chain'.links ≤ 255 := Nat.le_of_lt_succ hlt
        refine .bind bounded_advance_any fun _ _ => .bind (hoperand _) fun rhs hrhs => ?_
        refine .bind (bounded_endOperand chain') fun chain'' hlinks' => ?_
        have hlhs : lhs.depth ≤ limit d (n + chain.links) := hp.2
        have hmax : max lhs.depth rhs.depth ≤ limit d (n + chain.links) :=
          max_le hlhs (hrhs.trans (limit_mono (Nat.le_add_right _ _)))
        have hnode : ∀ o, HasDepth.depthOf (SurfaceExpr.binOp o lhs rhs) ≤
            limit d (n + chain''.links) := by
          intro o
          rw [hlinks', hlinks]
          exact add_le_limit hmax
        refine .bind (bounded_node (by omega) (hnode _)) fun lhs' hlhs' => .pure (fun _ h => h) ?_
        exact ⟨hlinks'.trans_le hlt', hlhs'⟩
    · exact .pure (fun _ h => h ▸ ht) hp
  unfold parseLeftChain
  refine .bind (bounded_beginChain true) fun chain hlinks => ?_
  refine .bind (hoperand _) fun lhs hlhs => ?_
  refine .bind (bounded_endOperand chain) fun chain' hlinks' => ?_
  have hzero : chain'.links = 0 := hlinks'.trans hlinks
  refine .bind (.loop hround _ (chain', lhs) ⟨by rw [hzero]; decide, by rw [hzero]; exact hlhs⟩)
    fun p hp => ?_
  obtain ⟨chain'', lhs'⟩ := p
  refine .bind (bounded_endChain chain'') fun _ _ => .pure (fun _ h => h) ?_
  exact hp.2.trans (limit_mono (Nat.add_le_add_left hp.1 n))

theorem parseRightChain_bounded {operand : ExprFn} {sep : Token} {n : ℕ}
    {node : SurfaceExpr → SurfaceExpr → SurfaceExpr} (hn : n + 255 ≤ 2000)
    (hnode : ∀ lhs rhs, (node lhs rhs).depth ≤ 1 + max lhs.depth rhs.depth)
    (hoperand : ∀ k, Limited d k (call.expr operand) NotPrefix fun e => e.depth ≤ limit d n) :
    Limited d k (parseRightChain call operand sep node) NotPrefix
      fun e => e.depth ≤ limit d (n + 255) := by
  have hlimit : limit d n + 255 ≤ treeLimit := by
    rw [limit_add]
    exact limit_le hn
  refine (bounded_rightChain call hnode (bounded_atOpen _) hoperand hlimit).mono (fun _ h => h)
    fun e he => ?_
  rw [← limit_add]
  exact he

theorem parseUnary_bounded (h : Spec call s) (hs : frames d 12 ≤ s + 1) :
    Limited d k (parseUnary call) NotPrefix fun e => e.depth ≤ limit d 260 := by
  unfold parseUnary
  refine .peek_bind fun t _ => ?_
  split
  · next wrap hwrap =>
    refine .bind bounded_advance_any fun _ _ => ?_
    have hnested : Limited d (fun _ => True) (nested (call.expr .unary)) NotPrefix
        fun e => e.depth ≤ limit d 0 :=
      bounded_nested fun hd =>
        (h.expr .unary (d + 1) _ trivial (by decide) (frames_succ hd hs (by decide))).mono
          (fun _ h => h) fun _ he => he.trans (limit_succ hd (by decide))
    refine .bind hnested fun e he => bounded_node (by decide) ?_
    change (wrap e).depth ≤ _
    rw [unary_depth hwrap]
    exact (add_le_limit he).trans (limit_mono (by decide))
  · exact h.expr .app d _ trivial (by decide) (frames_lt hs (by decide))

theorem parseApp_bounded (h : Spec call s) (hs : frames d 11 ≤ s + 1) :
    Limited d k (parseApp call) NotPrefix fun e => e.depth ≤ limit d 260 := by
  have harg : ∀ k, Limited d k (call.expr .appArg) NotPrefix fun e => e.depth ≤ limit d 5 :=
    fun k => h.expr .appArg d k trivial (by decide) (frames_lt hs (by decide))
  have hround : ∀ p : Chain × SurfaceExpr,
      p.1.links ≤ 255 ∧ p.2.depth ≤ limit d (5 + p.1.links) →
      Limited d NotPrefix (appLink call p) NotPrefix (Sum.elim
        (fun p => p.1.links ≤ 255 ∧ p.2.depth ≤ limit d (5 + p.1.links))
        fun p => p.1.links ≤ 255 ∧ p.2.depth ≤ limit d (5 + p.1.links)) := by
    rintro ⟨chain, lhs⟩ hp
    unfold appLink
    refine .bind bounded_isClosed fun closed _ => .bind bounded_canStartAppArg fun more _ => ?_
    split
    · refine .bind (bounded_chainLink chain) fun chain' hlink => ?_
      obtain ⟨hlinks, hlt⟩ := hlink
      have hlt' : chain'.links ≤ 255 := Nat.le_of_lt_succ hlt
      refine .bind (harg _) fun arg harg => ?_
      refine .bind (bounded_endOperand chain') fun chain'' hlinks' => ?_
      have hlhs : lhs.depth ≤ limit d (5 + chain.links) := hp.2
      have hmax : max lhs.depth arg.depth ≤ limit d (5 + chain.links) :=
        max_le hlhs (harg.trans (limit_mono (Nat.le_add_right _ _)))
      have hnode : HasDepth.depthOf (SurfaceExpr.app lhs arg) ≤ limit d (5 + chain''.links) := by
        rw [hlinks', hlinks]
        exact add_le_limit hmax
      refine .bind (bounded_node (by omega) hnode) fun lhs' hlhs' => .pure (fun _ h => h) ?_
      exact ⟨hlinks'.trans_le hlt', hlhs'⟩
    · exact .pure (fun _ h => h) hp
  unfold parseApp
  refine .bind (bounded_beginChain true) fun chain hlinks => ?_
  refine .bind (h.expr .atom d _ trivial (by decide) (frames_lt hs (by decide))) fun lhs hlhs => ?_
  refine .bind (bounded_endOperand chain) fun chain' hlinks' => ?_
  have hzero : chain'.links = 0 := hlinks'.trans hlinks
  have hlhs' : lhs.depth ≤ limit d (5 + 0) := hlhs.trans (limit_mono (by decide))
  refine .bind (.loop hround _ (chain', lhs) ⟨by rw [hzero]; decide, by rw [hzero]; exact hlhs'⟩)
    fun p hp => ?_
  obtain ⟨chain'', lhs''⟩ := p
  refine .bind (bounded_endChain chain'') fun _ _ => .pure (fun _ h => h) ?_
  exact hp.2.trans (limit_mono (Nat.add_le_add_left hp.1 5))

theorem parseAppArg_bounded (h : Spec call s) (hs : frames d 10 ≤ s + 1) :
    Limited d k (parseAppArg call) NotPrefix fun e => e.depth ≤ limit d 5 := by
  have hatom : ∀ k, Limited d k (call.expr .atom) NotPrefix fun e => e.depth ≤ limit d 4 :=
    fun k => h.expr .atom d k trivial (by decide) (frames_lt hs (by decide))
  unfold parseAppArg
  refine .peek_bind fun t _ => ?_
  split
  · next wrap hwrap =>
    refine .bind bounded_advance_any fun _ _ => .bind (hatom _) fun e he => ?_
    refine bounded_node (by decide) ?_
    change (wrap e).depth ≤ _
    rw [unary_depth hwrap]
    exact add_le_limit he
  · exact (hatom _).mono (fun _ h => h) fun _ he => he.trans (limit_mono (by decide))

end Expressions

section Atoms

variable [HasResume] {call : Calls} {s d : ℕ} {k : Token → Prop}

theorem parseAtomExpr_bounded (h : Spec call s) (hs : frames d 7 ≤ s + 1) {n : ℕ} (hn : 3 ≤ n)
    (hn' : n ≤ 2000)
    (hperform : k .performKw → Limited d (· = .performKw) (call.expr .perform) NotPrefix
      fun e => e.depth ≤ limit d n)
    (hresume : k .resumeKw → Limited d (· = .resumeKw) (call.expr .resume) NotPrefix
      fun e => e.depth ≤ limit d n) :
    Limited d k (parseAtomExpr call) NotPrefix fun e => e.depth ≤ limit d n := by
  have hexpr : ∀ k, Limited d k (call.expr .expr) NotPrefix fun e => e.depth ≤ limit d 0 :=
    fun k => h.expr .expr d k trivial (by decide) (frames_lt hs (by decide))
  have hleaf : ∀ {k : Token → Prop} {e : SurfaceExpr}, e.depth = 1 →
      Limited d k (build e) k fun e => e.depth ≤ limit d n :=
    fun he => bounded_node hn' (he.trans_le (one_le_limit (by omega)))
  have hupper : ∀ {s}, Limited d (· = .upperIdent s) (parseUpperExpr call) NotPrefix
      fun e => e.depth ≤ limit d n := by
    intro s
    unfold parseUpperExpr
    refine .bind bounded_canStartQualifiedPath fun b _ => ?_
    split
    · refine .bind (h.qualifiedSymbol d _ (frames_lt hs (by decide))) fun q _ => ?_
      obtain ⟨name, isConstructor⟩ := q
      dsimp only
      split
      · exact hleaf rfl
      · exact hleaf rfl
    · exact .bind (bounded_takeSymbol rfl) fun name _ => hleaf rfl
  have hclosed : ∀ {k : Token → Prop} {close : Token} {desc : String} {e : SurfaceExpr},
      close.endsOperand = true → e.depth ≤ limit d n → Limited d k (do
        expect close desc
        build e) NotPrefix fun e => e.depth ≤ limit d n :=
    fun hclose he => .bind (bounded_expect _) fun _ _ =>
      (bounded_node hn' he).mono (fun _ h => h.plain hclose) fun _ h => h
  have hparen : ∀ {k}, Limited d k (parseParenExpr call) NotPrefix
      fun e => e.depth ≤ limit d n := by
    unfold parseParenExpr
    refine bounded_eat ((hleaf rfl).mono (fun _ h => h.plain rfl) fun _ h => h) ?_
    exact (bounded_parens (by decide) hexpr (fun a ha => add_le_limit ha)
      fun as has => add_le_limit (exprDepths_le.mpr has)).mono (fun _ h => h)
        fun _ h => h.trans (limit_mono (by omega))
  have hlist : ∀ {k}, Limited d k (parseListExpr call) NotPrefix
      fun e => e.depth ≤ limit d n := by
    unfold parseListExpr
    refine bounded_eat ((hleaf rfl).mono (fun _ h => h.plain rfl) fun _ h => h) ?_
    refine .bind (hexpr _) fun first hfirst => ?_
    refine .bind (bounded_separated call (hexpr _) (List.forall_mem_singleton.mpr hfirst))
      fun elems helems => ?_
    exact hclosed rfl ((add_le_limit (exprDepths_le.mpr helems)).trans (limit_mono (by omega)))
  have hopen : ∀ {k : Token → Prop} {f : ExprFn}, f.Usable → f.height ≤ n → f.rank < 7 →
      Limited d k (call.expr f) NotPrefix fun e => e.depth ≤ limit d n :=
    fun hf hheight hrank => (h.expr _ d _ hf (hheight.trans hn') (frames_lt hs hrank)).mono
      (fun _ h => h) fun _ he => he.trans (limit_mono hheight)
  unfold parseAtomExpr
  refine .peek_bind fun t ht => ?_
  split
  · next l hl => exact .bind (bounded_takeLiteral hl) fun _ _ => hleaf rfl
  · split
    · exact .bind (bounded_takeSymbol rfl) fun name _ => hleaf rfl
    · exact hupper
    · exact .bind bounded_advance_any fun _ _ => hparen
    · exact .bind bounded_advance_any fun _ _ => hlist
    · exact hopen trivial (by change 1 ≤ n; omega) (by decide)
    · exact hopen trivial hn (by decide)
    · exact hopen trivial (by change 1 ≤ n; omega) (by decide)
    · exact hopen trivial (by change 1 ≤ n; omega) (by decide)
    · exact hopen trivial (by change 1 ≤ n; omega) (by decide)
    -- the two whose operands are atoms
    · exact hperform ht
    · exact hresume ht
    · exact bounded_err _

/-- **The operand of `perform`** is an atom on the same level. -/
theorem parsePerformExpr_bounded (h : Spec call s) (hs : frames d 8 ≤ s + 1) :
    Limited d (· = .performKw) (parsePerformExpr call) NotPrefix
      fun e => e.depth ≤ limit d 4 := by
  unfold parsePerformExpr
  refine bounded_performHead fun name => ?_
  refine .bind (h.plainAtom d (frames_lt hs (by decide))) fun arg harg => ?_
  exact bounded_node (by decide) (add_le_limit harg)

/-- **The operands of `resume`** are atoms on the same level. -/
theorem parseResumeExpr_bounded (h : Spec call s) (hs : frames d 8 ≤ s + 1) :
    Limited d (· = .resumeKw) (parseResumeExpr call) NotPrefix fun e => e.depth ≤ limit d 4 := by
  have hatom := h.plainAtom d (frames_lt hs (by decide))
  intro st hst
  -- the first operand ends with a token that the second one may follow
  have hoccurs : HasResume.occurs := (hst.tokens.1.resume hst.cur).1
  have hplain : ∀ t, NotPrefix t → IsPlain t := fun _ ht => ht hoccurs
  have hfirst : Limited d (· = .resumeKw) advance IsPlain fun _ => True :=
    bounded_advance.mono (fun _ h => h.1 rfl) fun _ h => h
  refine Limited.bind hfirst (fun _ _ => ?_) st hst
  refine .bind hatom fun cont hcont => .bind (hatom.of_imp hplain) fun arg harg => ?_
  exact bounded_node (by decide) (add_le_limit (max_le hcont harg))

theorem parseOpenEnded_bounded {parse : ExprFn} {n : ℕ}
    (hparse : Limited d k (call.expr parse) NotPrefix fun e => e.depth ≤ limit d n) :
    Limited d k (parseOpenEnded call parse) NotPrefix fun e => e.depth ≤ limit d n :=
  .bind hparse fun _ he => .bind (bounded_setClosed true) fun _ _ => .pure (fun _ h => h) he

theorem endsOperand_or_underscore : Limited d k expectIdentOrWildcard (fun _ => True)
    fun _ => True := by
  unfold expectIdentOrWildcard
  refine .peek_bind fun t _ => ?_
  split
  · exact bounded_takeSymbol_any
  · split
    · exact .bind bounded_advance_any fun _ _ => .pure (fun _ h => h) trivial
    · exact bounded_err _

theorem parseHandleExpr_bounded (h : Spec call s) (hs : frames d 2 ≤ s + 1) :
    Limited d k (parseHandleExpr call) NotPrefix fun e => e.depth ≤ limit d 1 := by
  have hexpr := h.callExpr hs
  have hround : ∀ handlers : List SurfaceHandler, (∀ a ∈ handlers, a.depth ≤ limit d 0) →
      Limited d NotPrefix (handlerLink call handlers) NotPrefix (Sum.elim
        (fun handlers => ∀ a ∈ handlers, a.depth ≤ limit d 0)
        fun handlers => ∀ a ∈ handlers, a.depth ≤ limit d 0) := by
    intro handlers hall
    unfold handlerLink
    refine bounded_eat ?_ (.pure (fun _ h => h) hall)
    refine .bind (bounded_expectName _ endsOperand_of_isUpperIdent) fun effectName _ => ?_
    refine .bind endsOperand_or_underscore fun payloadVar _ => ?_
    refine .bind endsOperand_or_underscore fun contVar _ => ?_
    refine .bind (bounded_expect _) fun _ _ => .bind (hexpr _) fun body hbody => ?_
    refine .pure (fun _ h => h) (List.forall_mem_append.mpr ⟨hall, ?_⟩)
    exact List.forall_mem_singleton.mpr hbody
  unfold parseHandleExpr
  refine .bind bounded_advance_any fun _ _ => .bind (hexpr _) fun body hbody => ?_
  refine .bind (bounded_expect _) fun _ _ => .bind (bounded_expect _) fun _ _ => ?_
  refine .bind endsOperand_or_underscore fun returnVar _ => ?_
  refine .bind (bounded_expect _) fun _ _ => .bind (hexpr _) fun returnBody hreturn => ?_
  refine .bind (.loop hround _ [] (by simp)) fun handlers hall => ?_
  exact bounded_node (by decide)
    (add_le_limit (max_le hbody (max_le hreturn (handlerDepths_le.mpr hall))))

theorem parseIfExpr_bounded (h : Spec call s) (hs : frames d 2 ≤ s + 1) :
    Limited d k (parseIfExpr call) NotPrefix fun e => e.depth ≤ limit d 1 := by
  have hexpr := h.callExpr hs
  unfold parseIfExpr
  refine .bind bounded_advance_any fun _ _ => .bind (hexpr _) fun cond hcond => ?_
  refine .bind (bounded_expect _) fun _ _ => .bind (hexpr _) fun thenBr hthen => ?_
  refine .bind (bounded_expect _) fun _ _ => .bind (hexpr _) fun elseBr helse => ?_
  exact bounded_node (by decide) (add_le_limit (max_le hcond (max_le hthen helse)))

theorem parseDecls_bounded {stop : Token} (h : Spec call s) (hs : frames d 6 ≤ s + 1) :
    Limited d k (parseDecls call stop) (fun _ => True)
      fun decls => ∀ decl ∈ decls, decl.depth ≤ limit d 2 := by
  have hdecl : ∀ k, Limited d k (call.decl .decl) (fun _ => True)
      fun decl => decl.depth ≤ limit d 2 :=
    fun k => h.decl .decl d k (frames_lt hs (by decide))
  unfold parseDecls
  have hnone : ∀ decl ∈ ([] : List SurfaceDecl), decl.depth ≤ limit d 2 := by simp
  refine (Limited.loop (R := fun decls => ∀ decl ∈ decls, decl.depth ≤ limit d 2)
    (fun decls hdecls => ?_) _ [] hnone).of_imp fun _ _ => trivial
  refine .peek_bind fun t _ => ?_
  split
  · exact .pure (fun _ _ => trivial) hdecls
  · refine .bind (hdecl _) fun decl hd => .pure (fun _ h => h) ?_
    exact List.forall_mem_append.mpr ⟨hdecls, List.forall_mem_singleton.mpr hd⟩

theorem parseLetExpr_bounded (h : Spec call s) (hs : frames d 6 ≤ s + 1) :
    Limited d k (parseLetExpr call) NotPrefix fun e => e.depth ≤ limit d 3 := by
  unfold parseLetExpr
  refine .bind bounded_advance_any fun _ _ => ?_
  refine .bind (parseDecls_bounded h hs) fun decls hdecls => ?_
  refine .bind (bounded_expect _) fun _ _ => ?_
  refine .bind (h.expr .expr d _ trivial (by decide) (frames_lt hs (by decide)))
    fun body hbody => ?_
  refine .bind (bounded_expect _) fun _ _ => ?_
  have hlet : (SurfaceExpr.letIn decls body).depth ≤ limit d 3 :=
    add_le_limit (max_le (declDepths_le.mpr hdecls) (hbody.trans (limit_mono (by decide))))
  exact (bounded_node (by decide) hlet).mono (fun _ h => h.plain rfl) fun _ h => h

theorem parseCaseExpr_bounded (h : Spec call s) (hs : frames d 2 ≤ s + 1) :
    Limited d k (parseCaseExpr call) NotPrefix fun e => e.depth ≤ limit d 1 := by
  have hexpr := h.callExpr hs
  -- only the last round ends with an expression: the others end with `|`
  have hround : ∀ arms : List SurfaceArm, (∀ a ∈ arms, a.depth ≤ limit d 0) → ∀ s,
      Inv d (fun _ => True) s → wp (branchLink call arms) (fun r s' =>
        (∀ arms', r = .inl arms' → Inv d (fun _ => True) s' ∧ ∀ a ∈ arms', a.depth ≤ limit d 0) ∧
        ∀ arms', r = .inr arms' → Inv d NotPrefix s' ∧ ∀ a ∈ arms', a.depth ≤ limit d 0)
        (fun _ s' => s'.deepest ≤ treeLimit) (fun _ => False) s := by
    intro arms hall s hinv
    unfold branchLink
    rw [wp_bind]
    refine wp_mono (h.callPat hs _ s hinv) (fun pat s₁ h₁ => ?_) (fun _ _ h => h) fun _ h => h
    rw [wp_bind]
    refine wp_mono (bounded_expect _ s₁ h₁.1) (fun _ s₂ h₂ => ?_) (fun _ _ h => h) fun _ h => h
    rw [wp_bind]
    refine wp_mono (hexpr _ s₂ h₂.1) (fun body s₃ h₃ => ?_) (fun _ _ h => h) fun _ h => h
    have hall' : ∀ a ∈ arms ++ [SurfaceArm.mk pat body], a.depth ≤ limit d 0 :=
      List.forall_mem_append.mpr ⟨hall, List.forall_mem_singleton.mpr (max_le h₁.2 h₃.2)⟩
    rw [wp_bind]
    refine wp_mono (eat_wp h₃.1) (fun b s₄ h₄ => ?_) (fun _ _ h => h) fun _ h => h
    cases b with
    | true =>
      refine ⟨fun arms' heq => ?_, fun arms' heq => (by cases heq)⟩
      cases heq
      exact ⟨(h₄.1 rfl).mono fun _ _ => trivial, hall'⟩
    | false =>
      refine ⟨fun arms' heq => (by cases heq), fun arms' heq => ?_⟩
      cases heq
      exact ⟨h₄.2 rfl, hall'⟩
  unfold parseCaseExpr
  refine .bind bounded_advance_any fun _ _ => .bind (hexpr _) fun scrutinee hscrutinee => ?_
  refine .bind (bounded_expect _) fun _ _ => bounded_eat_discard ?_
  refine .bind (.loop_ends hround _ [] (by simp)) fun arms hall => ?_
  exact bounded_node (by decide) (add_le_limit (max_le hscrutinee (armDepths_le.mpr hall)))

theorem parseFnExpr_bounded (h : Spec call s) (hs : frames d 2 ≤ s + 1) :
    Limited d k (parseFnExpr call) NotPrefix fun e => e.depth ≤ limit d 1 := by
  unfold parseFnExpr
  refine .bind bounded_advance_any fun _ _ => .bind (h.callPat hs _) fun pat hpat => ?_
  refine .bind (bounded_expect _) fun _ _ => .bind (h.callExpr hs _) fun body hbody => ?_
  exact bounded_node (by decide) (add_le_limit (max_le hpat hbody))

end Atoms

/-! ## Declarations -/

section Declarations

variable [HasResume] {call : Calls} {s d : ℕ} {k : Token → Prop}

theorem parseDecl_bounded (h : Spec call s) (hs : frames d 5 ≤ s + 1) :
    Limited d k (parseDecl call) (fun _ => True) fun decl => decl.depth ≤ limit d 2 := by
  have hcall : ∀ {f : DeclFn} {k : Token → Prop}, f.rank < 5 → f.height ≤ 2 →
      Limited d k (call.decl f) (fun _ => True) fun decl => decl.depth ≤ limit d 2 :=
    fun hrank hheight => (h.decl _ d _ (frames_lt hs hrank)).mono (fun _ h => h)
      fun _ hd => hd.trans (limit_mono hheight)
  have hlocal : ∀ {k : Token → Prop}, Limited d k (nested (call.decl .localIn)) (fun _ => True)
      fun decl => decl.depth ≤ limit d 2 :=
    bounded_nested fun hd =>
      (h.decl .localIn (d + 1) _ (frames_succ hd hs (by decide))).mono (fun _ h => h)
        fun _ h => h.trans (limit_succ hd (by decide))
  unfold parseDecl
  refine .peek_bind fun t _ => ?_
  split
  · exact hcall (by decide) (by decide)
  · exact hcall (by decide) (by decide)
  · exact hcall (by decide) (by decide)
  · exact hcall (by decide) (by decide)
  · exact hlocal
  · exact hcall (by decide) (by decide)
  · exact hcall (by decide) (by decide)
  · exact bounded_err _
  · exact bounded_err _
  · exact hcall (by decide) (by decide)
  · exact bounded_err _

/-- A declaration is built. -/
theorem bounded_declNode {decl : SurfaceDecl} {n : ℕ} (hn : n ≤ 2000)
    (hdecl : decl.depth ≤ limit d n) :
    Limited d k (build decl) (fun _ => True) fun decl => decl.depth ≤ limit d n :=
  (bounded_node hn hdecl).mono (fun _ _ => trivial) fun _ h => h

theorem expectIdent_bounded : Limited d k expectIdent (fun _ => True) fun _ => True :=
  (bounded_expectName _ endsOperand_of_isIdent).mono (fun _ _ => trivial) fun _ h => h

theorem expectUpperIdent_bounded : Limited d k expectUpperIdent (fun _ => True)
    fun _ => True :=
  (bounded_expectName _ endsOperand_of_isUpperIdent).mono (fun _ _ => trivial) fun _ h => h

theorem expectAnyName_bounded : Limited d k expectAnyName (fun _ => True) fun _ => True :=
  (bounded_expectName _ endsOperand_of_isName).mono (fun _ _ => trivial) fun _ h => h

theorem expect_bounded {kind : Token} (desc : String) :
    Limited d k (expect kind desc) (fun _ => True) fun _ => True :=
  (bounded_expect desc).mono (fun _ _ => trivial) fun _ h => h

theorem parseValDecl_bounded (h : Spec call s) (hs : frames d 2 ≤ s + 1) :
    Limited d k (parseValDecl call) (fun _ => True) fun decl => decl.depth ≤ limit d 1 := by
  unfold parseValDecl
  refine .bind bounded_advance_any fun _ _ => bounded_eat ?_ ?_
  · refine .bind expectIdent_bounded fun name _ => .bind (expect_bounded _) fun _ _ => ?_
    refine .peek_bind fun t _ => ?_
    split
    · exact .bind (h.callExpr hs _) fun body hbody =>
        bounded_declNode (by decide) (add_le_limit hbody)
    · exact bounded_err _
  · refine .bind (h.callPat hs _) fun pat hpat => .bind (expect_bounded _) fun _ _ => ?_
    exact .bind (h.callExpr hs _) fun body hbody =>
      bounded_declNode (by decide) (add_le_limit (max_le hpat hbody))

theorem parseFunDecl_bounded (h : Spec call s) (hs : frames d 4 ≤ s + 1) :
    Limited d k (parseFunDecl call) (fun _ => True) fun decl => decl.depth ≤ limit d 2 := by
  have hbinding : ∀ k, Limited d k call.funBinding (fun _ => True) fun b => b.depth ≤ limit d 1 :=
    fun k => h.funBinding d k (frames_lt hs (by decide))
  unfold parseFunDecl
  refine .bind bounded_advance_any fun _ _ => .bind (hbinding _) fun first hfirst => ?_
  refine .bind (bounded_separated call (hbinding _) (List.forall_mem_singleton.mpr hfirst))
    fun bindings hbindings => ?_
  exact bounded_declNode (by decide) (add_le_limit (bindingDepths_le.mpr hbindings))

theorem parseParams_bounded
    (hatom : ∀ k, Limited d k (call.pat .atomPat) (fun _ => True)
      fun pat => pat.depth ≤ limit d 1) :
    Limited d k (parseParams call) (fun _ => True)
      fun pats => ∀ pat ∈ pats, pat.depth ≤ limit d 1 := by
  have hnone : ∀ pat ∈ ([] : List Pat), pat.depth ≤ limit d 1 := by simp
  unfold parseParams
  refine (Limited.loop (R := fun pats => ∀ pat ∈ pats, pat.depth ≤ limit d 1)
    (fun pats hpats => ?_) _ [] hnone).of_imp fun _ _ => trivial
  refine .bind bounded_canStartAtomPat fun b _ => ?_
  split
  · refine .bind (hatom _) fun pat hpat => .pure (fun _ h => h) ?_
    exact List.forall_mem_append.mpr ⟨hpats, List.forall_mem_singleton.mpr hpat⟩
  · exact .pure (fun _ h => h) hpats

theorem parseFunBinding_bounded (h : Spec call s) (hs : frames d 3 ≤ s + 1) :
    Limited d k (parseFunBinding call) (fun _ => True) fun b => b.depth ≤ limit d 1 := by
  have hatom : ∀ k, Limited d k (call.pat .atomPat) (fun _ => True)
      fun pat => pat.depth ≤ limit d 1 :=
    fun k => h.pat .atomPat d k (frames_lt hs (by decide))
  have hexpr : ∀ k, Limited d k (call.expr .expr) NotPrefix fun e => e.depth ≤ limit d 0 :=
    fun k => h.expr .expr d k trivial (by decide) (frames_lt hs (by decide))
  have hround : ∀ name, ∀ clauses : List SurfaceClause, (∀ c ∈ clauses, c.depth ≤ limit d 1) →
      Limited d (fun _ => True) (clauseLink call name clauses) (fun _ => True) (Sum.elim
        (fun clauses => ∀ c ∈ clauses, c.depth ≤ limit d 1)
        fun clauses => ∀ c ∈ clauses, c.depth ≤ limit d 1) := by
    intro name clauses hall
    unfold clauseLink
    refine .bind (parseParams_bounded hatom) fun pats hpats => ?_
    split
    · exact bounded_err _
    · split
      · exact bounded_err _
      · refine .bind (bounded_expect _) fun _ _ => .bind (hexpr _) fun body hbody => ?_
        have hclause : (SurfaceClause.mk pats body).depth ≤ limit d 1 :=
          max_le (patDepths_le.mpr hpats) (hbody.trans (limit_mono (by decide)))
        have hall' : ∀ c ∈ clauses ++ [SurfaceClause.mk pats body], c.depth ≤ limit d 1 :=
          List.forall_mem_append.mpr ⟨hall, List.forall_mem_singleton.mpr hclause⟩
        refine bounded_eat ?_ (.pure (fun _ _ => trivial) hall')
        refine .bind expectIdent_bounded fun nextName _ => ?_
        split
        · exact .pure (fun _ h => h) hall'
        · exact bounded_err _
  unfold parseFunBinding
  refine .bind expectIdent_bounded fun name _ => ?_
  refine .bind (.loop (hround name) _ [] (by simp)) fun clauses hall => .pure (fun _ h => h) ?_
  exact clauseDepths_le.mpr hall

theorem parsePayload_bounded
    (htype : ∀ k, Limited d k (call.type .typeExpr) NotPrefix fun ty => ty.depth ≤ limit d 0) :
    Limited d k (parsePayload call) (fun _ => True)
      fun payload => payloadDepth payload ≤ limit d 0 := by
  unfold parsePayload
  refine bounded_eat ?_ (.pure (fun _ _ => trivial) (Nat.zero_le _))
  exact .bind (htype _) fun ty hty => .pure (fun _ _ => trivial) hty

theorem parseDatatypeDecl_bounded (h : Spec call s) (hs : frames d 2 ≤ s + 1) :
    Limited d k (parseDatatypeDecl call) (fun _ => True) fun decl => decl.depth ≤ limit d 1 := by
  have hround : ∀ cons : List ConDecl, (∀ con ∈ cons, payloadDepth con.payload ≤ limit d 0) →
      Limited d (fun _ => True) (conLink call cons) (fun _ => True) (Sum.elim
        (fun cons => ∀ con ∈ cons, payloadDepth con.payload ≤ limit d 0)
        fun cons => ∀ con ∈ cons, payloadDepth con.payload ≤ limit d 0) := by
    intro cons hall
    unfold conLink
    refine .bind expectUpperIdent_bounded fun name _ => ?_
    refine .bind (parsePayload_bounded (h.callType hs)) fun payload hpayload => ?_
    have hall' : ∀ con ∈ cons ++ [ConDecl.mk name payload],
        payloadDepth con.payload ≤ limit d 0 :=
      List.forall_mem_append.mpr ⟨hall, List.forall_mem_singleton.mpr hpayload⟩
    exact bounded_eat (.pure (fun _ _ => trivial) hall') (.pure (fun _ h => h) hall')
  unfold parseDatatypeDecl
  refine .bind bounded_advance_any fun _ _ => ?_
  refine .bind (h.tyvarParams d _ (frames_lt hs (by decide))) fun tyvars _ => ?_
  refine .bind expectAnyName_bounded fun name _ => .bind (expect_bounded _) fun _ _ => ?_
  refine bounded_eat_discard (.bind (.loop hround _ [] (by simp)) fun cons hall => ?_)
  exact bounded_declNode (by decide) (add_le_limit (conDepths_le.mpr hall))

theorem parseTypeAliasDecl_bounded (h : Spec call s) (hs : frames d 2 ≤ s + 1) :
    Limited d k (parseTypeAliasDecl call) (fun _ => True) fun decl => decl.depth ≤ limit d 1 := by
  unfold parseTypeAliasDecl
  refine .bind bounded_advance_any fun _ _ => ?_
  refine .bind (h.tyvarParams d _ (frames_lt hs (by decide))) fun tyvars _ => ?_
  refine .bind expectAnyName_bounded fun name _ => .bind (expect_bounded _) fun _ _ => ?_
  exact .bind (h.callType hs _) fun ty hty => bounded_declNode (by decide) (add_le_limit hty)

theorem parseLocalDecl_bounded (h : Spec call s) (hs : frames d 6 ≤ s + 1) :
    Limited d k (parseLocalDecl call) (fun _ => True) fun decl => decl.depth ≤ limit d 3 := by
  unfold parseLocalDecl
  refine .bind bounded_advance_any fun _ _ => ?_
  refine .bind (parseDecls_bounded h hs) fun locals hlocals => ?_
  refine .bind (expect_bounded _) fun _ _ => ?_
  refine .bind (parseDecls_bounded h hs) fun body hbody => .bind (expect_bounded _) fun _ _ => ?_
  exact bounded_declNode (by decide)
    (add_le_limit (max_le (declDepths_le.mpr hlocals) (declDepths_le.mpr hbody)))

theorem parseUseDecl_bounded :
    Limited d k parseUseDecl (fun _ => True) fun decl => decl.depth ≤ limit d 1 := by
  have hstring : ∀ {t}, Limited d (· = .stringLit t) takeStringLit (fun _ => True)
      fun _ => True := by
    intro t
    unfold takeStringLit
    refine .peek_bind fun u hu => ?_
    subst hu
    exact bounded_taken (.bind bounded_advance_any fun _ _ => .pure (fun _ h => h) trivial)
  unfold parseUseDecl
  refine .bind bounded_advance_any fun _ _ => .peek_bind fun t _ => ?_
  split
  · refine .bind hstring fun path _ => ?_
    split
    · exact bounded_declNode (by decide) (one_le_limit le_rfl)
    · exact bounded_err _
  · exact bounded_err _

theorem parseImportDecl_bounded :
    Limited d k (parseImportDecl call) (fun _ => True) fun decl => decl.depth ≤ limit d 1 := by
  have hpackage : Limited d (fun _ => True) expectImportPackageName (fun _ => True)
      fun _ => True := by
    refine (bounded_expectName _ fun t ht => ?_).mono (fun _ _ => trivial) fun _ h => h
    cases t <;> first | rfl | cases ht
  have hexposed : ∀ k, Limited d k expectExposedImportName (fun _ => True) fun _ => True :=
    fun k => (bounded_expectName _ endsOperand_of_isName).mono (fun _ _ => trivial) fun _ h => h
  unfold parseImportDecl
  refine .bind bounded_advance_any fun _ _ => .bind hpackage fun package _ => ?_
  refine .bind (expect_bounded _) fun _ _ => .bind expectUpperIdent_bounded fun modName _ => ?_
  refine .peek_bind fun t _ => ?_
  split
  · exact bounded_err _
  · split
    · refine .bind bounded_advance_any fun _ _ => .peek_bind fun t _ => ?_
      split
      · exact bounded_err _
      · refine .bind (hexposed _) fun first _ => ?_
        refine .bind (bounded_separated call (hexposed _) fun _ _ => trivial) fun names _ => ?_
        exact .bind (expect_bounded _) fun _ _ =>
          bounded_declNode (by decide) (one_le_limit le_rfl)
    · exact bounded_declNode (by decide) (one_le_limit le_rfl)

theorem parseSignatureSpec_bounded (h : Spec call s) (hs : frames d 2 ≤ s + 1) :
    Limited d k (parseSignatureSpec call) (fun _ => True)
      fun spec => payloadDepth spec.2.2 ≤ limit d 0 := by
  unfold parseSignatureSpec
  refine .peek_bind fun t _ => ?_
  split
  · refine .bind bounded_advance_any fun _ _ => ?_
    refine .bind (h.tyvarParams d _ (frames_lt hs (by decide))) fun tyvars _ => ?_
    exact .bind expectAnyName_bounded fun name _ => .pure (fun _ h => h) (Nat.zero_le _)
  · refine .bind bounded_advance_any fun _ _ => .bind expectIdent_bounded fun name _ => ?_
    refine .bind (expect_bounded _) fun _ _ => .bind (h.callType hs _) fun ty hty => ?_
    exact .pure (fun _ _ => trivial) hty
  · exact bounded_err _

theorem parseSignatureDecl_bounded (h : Spec call s) (hs : frames d 3 ≤ s + 1) :
    Limited d k (parseSignatureDecl call) (fun _ => True) fun decl => decl.depth ≤ limit d 1 := by
  have hround : ∀ specs : List (Symbol × List Symbol × Option TypeExpr),
      (∀ spec ∈ specs, payloadDepth spec.2.2 ≤ limit d 0) →
      Limited d (fun _ => True) (specLink call specs) (fun _ => True) (Sum.elim
        (fun specs => ∀ spec ∈ specs, payloadDepth spec.2.2 ≤ limit d 0)
        fun specs => ∀ spec ∈ specs, payloadDepth spec.2.2 ≤ limit d 0) := by
    intro specs hall
    unfold specLink
    refine .peek_bind fun t _ => ?_
    split
    · exact .pure (fun _ _ => trivial) hall
    · refine .bind (h.signatureSpec d _ (frames_lt hs (by decide))) fun spec hspec => ?_
      exact .pure (fun _ h => h)
        (List.forall_mem_append.mpr ⟨hall, List.forall_mem_singleton.mpr hspec⟩)
  unfold parseSignatureDecl
  refine .bind bounded_advance_any fun _ _ => .bind expectUpperIdent_bounded fun name _ => ?_
  refine .bind (expect_bounded _) fun _ _ => .bind (expect_bounded _) fun _ _ => ?_
  refine .bind (.loop hround _ [] (by simp)) fun specs hall => ?_
  refine .bind (expect_bounded _) fun _ _ => ?_
  exact bounded_declNode (by decide) (add_le_limit (specDepths_le.mpr hall))

theorem parseStructureDecl_bounded (h : Spec call s) (hs : frames d 6 ≤ s + 1) :
    Limited d k (parseStructureDecl call) (fun _ => True) fun decl => decl.depth ≤ limit d 3 := by
  have hascription : Limited d (fun _ => True) parseAscription (fun _ => True)
      fun _ => True := by
    unfold parseAscription
    refine bounded_eat ?_ (bounded_eat ?_ (.pure (fun _ h => h) trivial))
    · exact .bind expectUpperIdent_bounded fun sig _ => .pure (fun _ h => h) trivial
    · exact .bind expectUpperIdent_bounded fun sig _ => .pure (fun _ h => h) trivial
  unfold parseStructureDecl
  refine .bind bounded_advance_any fun _ _ => .bind expectUpperIdent_bounded fun name _ => ?_
  refine .bind hascription fun q _ => ?_
  obtain ⟨sig, sealing⟩ := q
  refine .bind (expect_bounded _) fun _ _ => .bind (expect_bounded _) fun _ _ => ?_
  refine .bind (parseDecls_bounded h hs) fun decls hdecls => .bind (expect_bounded _) fun _ _ => ?_
  exact bounded_declNode (by decide) (add_le_limit (declDepths_le.mpr hdecls))

theorem parseEffectDecl_bounded (h : Spec call s) (hs : frames d 2 ≤ s + 1) :
    Limited d k (parseEffectDecl call) (fun _ => True) fun decl => decl.depth ≤ limit d 1 := by
  unfold parseEffectDecl
  refine .bind bounded_advance_any fun _ _ => .bind expectUpperIdent_bounded fun name _ => ?_
  refine .bind (parsePayload_bounded (h.callType hs)) fun payload hpayload => ?_
  exact bounded_declNode (by decide) (add_le_limit hpayload)

end Declarations

/-! ## Runs -/

section Run

variable [HasResume] {call : Calls} {s d : ℕ} {k : Token → Prop}

theorem exprBody_bounded (h : Spec call s) (f : ExprFn) (hf : f.Usable)
    (hheight : f.height ≤ 2000) (hs : frames d f.rank ≤ s + 1) :
    Limited d k (exprBody call f) NotPrefix fun e => e.depth ≤ limit d f.height := by
  cases f with
  | expr => exact parseExpr_bounded h hs
  | exprInner => exact parseExprInner_bounded h hs
  | pipe => exact h.expr (.leftChain .orelse _) d k trivial (by decide) (frames_lt hs (by decide))
  | orelse =>
    exact h.expr (.rightChain .andalso _ _) d k ⟨trivial, fun _ _ => le_rfl⟩ (by decide)
      (frames_lt hs (by decide))
  | andalso =>
    exact h.expr (.rightChain .comp _ _) d k ⟨trivial, fun _ _ => le_rfl⟩ (by decide)
      (frames_lt hs (by decide))
  | comp => exact parseComp_bounded h hs
  | cons =>
    exact h.expr (.rightChain .add _ _) d k ⟨trivial, fun _ _ => le_rfl⟩ (by decide)
      (frames_lt hs (by decide))
  | add => exact h.expr (.leftChain .mul _) d k trivial (by decide) (frames_lt hs (by decide))
  | mul => exact h.expr (.leftChain .unary _) d k trivial (by decide) (frames_lt hs (by decide))
  | leftChain operand op =>
    have hoperand : operand.height ≤ 2000 := (Nat.le_add_right _ _).trans hheight
    exact parseLeftChain_bounded hheight fun k =>
      h.expr operand d k hf hoperand (frames_lt hs (Nat.lt_succ_self _))
  | rightChain operand sep node =>
    have hoperand : operand.height ≤ 2000 := (Nat.le_add_right _ _).trans hheight
    exact parseRightChain_bounded hheight hf.2 fun k =>
      h.expr operand d k hf.1 hoperand (frames_lt hs (Nat.lt_succ_self _))
  | unary => exact parseUnary_bounded h hs
  | app => exact parseApp_bounded h hs
  | appArg => exact parseAppArg_bounded h hs
  | atom =>
    have hatom : frames d 7 ≤ s := frames_lt hs (by decide)
    refine parseAtomExpr_bounded h (hatom.trans (Nat.le_succ s)) (by decide) (by decide)
      (fun _ => h.perform d (frames_lt hs (by decide)))
      fun _ => h.resume d (frames_lt hs (by decide))
  | openEnded parse =>
    exact parseOpenEnded_bounded (h.expr parse d k hf hheight (frames_lt hs (Nat.lt_succ_self _)))
  | handle => exact parseHandleExpr_bounded h hs
  | perform => exact hf.elim
  | resume => exact hf.elim
  | ite => exact parseIfExpr_bounded h hs
  | letIn => exact parseLetExpr_bounded h hs
  | case => exact parseCaseExpr_bounded h hs
  | fn => exact parseFnExpr_bounded h hs

theorem patBody_bounded (h : Spec call s) (f : PatFn) (hs : frames d f.rank ≤ s + 1) :
    Limited d k (patBody call f) (fun _ => True) fun pat => pat.depth ≤ limit d f.height := by
  cases f with
  | pat => exact parsePat_bounded h hs
  | innerDispatch => exact parsePatInnerDispatch_bounded h hs
  | asPat => exact parseAsPat_bounded h hs
  | consPat => exact parseConsPat_bounded h hs
  | appPat => exact parseAppPat_bounded h hs
  | atomPat => exact parseAtomPat_bounded h hs

theorem typeBody_bounded (h : Spec call s) (f : TypeFn) (hs : frames d f.rank ≤ s + 1) :
    Limited d k (typeBody call f) NotPrefix fun ty => ty.depth ≤ limit d f.height := by
  cases f with
  | typeExpr => exact parseTypeExpr_bounded h hs
  | arrowType => exact parseArrowType_bounded h hs
  | tupleType => exact parseTupleType_bounded h hs
  | appType => exact parseAppType_bounded h hs
  | atomType => exact parseAtomType_bounded h hs

theorem declBody_bounded (h : Spec call s) (f : DeclFn) (hs : frames d f.rank ≤ s + 1) :
    Limited d k (declBody call f) (fun _ => True) fun decl => decl.depth ≤ limit d f.height := by
  cases f with
  | decl => exact parseDecl_bounded h hs
  | val => exact parseValDecl_bounded h hs
  | funs => exact parseFunDecl_bounded h hs
  | datatype => exact parseDatatypeDecl_bounded h hs
  | typeAlias => exact parseTypeAliasDecl_bounded h hs
  | localIn => exact parseLocalDecl_bounded h hs
  | useDecl => exact parseUseDecl_bounded
  | importDecl => exact parseImportDecl_bounded
  | signatureDecl => exact parseSignatureDecl_bounded h hs
  | structureDecl => exact parseStructureDecl_bounded h hs
  | effect => exact parseEffectDecl_bounded h hs

/-- **The functions on a stack.** -/
theorem spec_run (rounds : ℕ) : ∀ s, Spec (Calls.run rounds s) s := by
  intro s
  -- on the frames: a function calls others with one frame fewer
  induction s with
  | zero =>
    refine ⟨fun f d k _ _ hs => absurd hs (frames_pos f.rank_pos),
      fun d hs => absurd hs (frames_pos (by decide)),
      fun d hs => absurd hs (frames_pos (by decide)),
      fun d hs => absurd hs (frames_pos (by decide)),
      fun f d k hs => absurd hs (frames_pos (by cases f <;> decide)),
      fun f d k hs => absurd hs (frames_pos (by cases f <;> decide)),
      fun f d k hs => absurd hs (frames_pos (by cases f <;> decide)),
      fun d k hs => absurd hs (frames_pos (by decide)),
      fun d k hs => absurd hs (frames_pos (by decide)),
      fun d k hs => absurd hs (frames_pos (by decide)),
      fun d k hs => absurd hs (frames_pos (by decide))⟩
  | succ s ih =>
    exact {
      expr := fun f d k hf hheight hs => exprBody_bounded ih f hf hheight hs
      -- at a token that is neither `perform` nor `resume`, the two are not called
      plainAtom := fun d hs => parseAtomExpr_bounded ih hs le_rfl (by decide)
        (fun h => absurd h nofun) fun h => absurd h nofun
      perform := fun d hs => parsePerformExpr_bounded ih hs
      resume := fun d hs => parseResumeExpr_bounded ih hs
      pat := fun f d k hs => patBody_bounded ih f hs
      type := fun f d k hs => typeBody_bounded ih f hs
      decl := fun f d k hs => declBody_bounded ih f hs
      funBinding := fun d k hs => parseFunBinding_bounded ih hs
      signatureSpec := fun d k hs => parseSignatureSpec_bounded ih hs
      tyvarParams := fun d k hs => parseTyvarParams_bounded
      qualifiedSymbol := fun d k hs => parseQualifiedSymbol_bounded }

/-- The frames that are enough. -/
def stackLimit : ℕ := 30 * maxNestingDepth + 6

theorem parseProgram_bounded (h : Spec call s) (hs : stackLimit ≤ s) :
    Limited 0 k (parseProgram call) (fun _ => True)
      fun decls => ∀ decl ∈ decls, decl.depth ≤ limit 0 3 := by
  have hdecl : ∀ {f : DeclFn} {k : Token → Prop}, f.rank ≤ 6 → f.height ≤ 3 →
      Limited 0 k (call.decl f) (fun _ => True) fun decl => decl.depth ≤ limit 0 3 := by
    intro f k hrank hheight
    have hframes : frames 0 f.rank ≤ s := by
      refine le_trans ?_ hs
      unfold frames stackLimit
      omega
    exact (h.decl f 0 k hframes).mono (fun _ h => h) fun _ hd => hd.trans (limit_mono hheight)
  have hnone : ∀ decl ∈ ([] : List SurfaceDecl), decl.depth ≤ limit 0 3 := by simp
  unfold parseProgram
  refine (Limited.loop (R := fun decls => ∀ decl ∈ decls, decl.depth ≤ limit 0 3)
    (fun decls hdecls => ?_) _ [] hnone).of_imp fun _ _ => trivial
  have hmore : ∀ {decl : SurfaceDecl}, decl.depth ≤ limit 0 3 →
      ∀ decl' ∈ decls ++ [decl], decl'.depth ≤ limit 0 3 :=
    fun hd => List.forall_mem_append.mpr ⟨hdecls, List.forall_mem_singleton.mpr hd⟩
  refine .peek_bind fun t _ => ?_
  split
  · exact .pure (fun _ _ => trivial) hdecls
  · exact .bind (hdecl (by decide) (by decide)) fun _ hd => .pure (fun _ h => h) (hmore hd)
  · exact .bind (hdecl (by decide) (by decide)) fun _ hd => .pure (fun _ h => h) (hmore hd)
  · exact .bind (hdecl (by decide) (by decide)) fun _ hd => .pure (fun _ h => h) (hmore hd)

end Run

/-- **The parser's recursion is bounded** where no operand of `perform` and `resume` starts with one
of them: at every moment of every parse, the open calls fit on a stack of fixed size, and every tree
built so far has a fixed depth. -/
theorem parser_bounded (rounds frames : ℕ) (cur : Token) (next : List Token)
    (htokens : NoBareOperand (cur :: next)) (hframes : stackLimit ≤ frames) :
    (∀ x, parseProgram (Calls.run rounds frames) (newParser cur next) ≠ .fault x) ∧
      (∀ decls s, parseProgram (Calls.run rounds frames) (newParser cur next) = .ok decls s →
        s.deepest ≤ treeLimit) ∧
      ∀ e s, parseProgram (Calls.run rounds frames) (newParser cur next) = .error e s →
        s.deepest ≤ treeLimit := by
  let _ : HasResume := ⟨.resumeKw ∈ cur :: next⟩
  have hinv : Inv 0 (fun _ => True) (newParser cur next) :=
    ⟨rfl, Nat.zero_le _, operandsPlain htokens Iff.rfl, Nat.zero_le _, trivial⟩
  have h := parseProgram_bounded (spec_run rounds frames) hframes _ hinv
  generalize parseProgram (Calls.run rounds frames) = p at h
  unfold wp at h
  refine ⟨fun x heq => ?_, fun decls s heq => ?_, fun e s heq => ?_⟩
  · rw [heq] at h
    exact h
  · rw [heq] at h
    exact h.1.built
  · rw [heq] at h
    exact h

/-- A `perform` that does not start an operand, after an expression. -/
theorem parser_bounded_perform :
    let next : List Token := [.ident "x", .eq, .performKw, .upperIdent "E", .intLit 1, .performKw,
      .upperIdent "E", .intLit 2, .eof]
    let parsed := parseProgram (Calls.run 3 stackLimit) (newParser .valKw next)
    (∀ x, parsed ≠ .fault x) ∧ (∀ decls s, parsed = .ok decls s → s.deepest ≤ treeLimit) ∧
      ∀ e s, parsed = .error e s → s.deepest ≤ treeLimit := by
  intro next parsed
  refine parser_bounded 3 stackLimit .valKw next ⟨?_, ?_, ?_, ?_⟩ le_rfl
  · intro name u h
    simp [next, List.infix_cons_iff, List.cons_prefix_cons] at h
    obtain ⟨-, rfl⟩ | ⟨-, rfl⟩ := h
    · rfl
    · rfl
  · intro u h
    simp [next, List.infix_cons_iff, List.cons_prefix_cons] at h
  · intro h
    simp [next] at h
  · decide

/-! ## The operands of `perform` -/

section Unbounded

variable {α β : Type} {p : Parse α} {s : ParserState} {rounds frames n : ℕ}

/-- The stack overflows. -/
def Overflows (p : Parse α) (s : ParserState) : Prop :=
  wp p (fun _ _ => False) (fun _ _ => False) (fun _ => True) s

theorem Overflows.bind {f : α → Parse β} (h : Overflows p s) : Overflows (p >>= f) s := by
  unfold Overflows
  rw [wp_bind]
  exact wp_mono h (fun _ _ h => h.elim) (fun _ _ h => h) fun _ h => h

theorem overflows_step {f : α → Parse β} {a : α} {t : ParserState} (hp : p s = .ok a t)
    (h : Overflows (f a) t) : Overflows (p >>= f) s := by
  unfold Overflows
  rw [wp_bind]
  unfold wp
  rw [hp]
  exact h

theorem overflows_of_eq (q : Parse α) (s' : ParserState) (hp : p s = q s') (h : Overflows q s') :
    Overflows p s := by
  unfold Overflows wp at *
  rw [hp]
  exact h

theorem Overflows.eq_fault (h : Overflows p s) : p s = .fault () := by
  unfold Overflows wp at h
  cases hp : p s with
  | ok a t =>
    rw [hp] at h
    exact h.elim
  | error e t =>
    rw [hp] at h
    exact h.elim
  | fault x => rfl

/-- `perform E perform E ... 1`. -/
def performs : ℕ → List Token
  | 0 => [.intLit 1, .eof]
  | n + 1 => .performKw :: .upperIdent "E" :: performs n

/-- The parser is at the first of so many `perform` and one. -/
structure AtPerforms (n : ℕ) (s : ParserState) : Prop where
  cur : s.cur = .performKw
  next : s.next = .upperIdent "E" :: performs n

/-- Each operand takes two frames. -/
theorem atom_overflows (rounds frames : ℕ) : ∀ (n : ℕ) (s : ParserState), frames ≤ n →
    AtPerforms n s → Overflows ((Calls.run rounds frames).expr .atom) s := by
  -- `parse_atom_expr` calls `parse_perform_expr`, which calls it
  induction frames using Nat.twoStepInduction with
  | zero => exact fun _ _ _ _ => trivial
  | one =>
    rintro n ⟨cur, next, depth, peak, closed, deepest⟩ _ hs
    obtain rfl : cur = _ := hs.cur
    trivial
  | more frames ih =>
    rintro n ⟨cur, next, depth, peak, closed, deepest⟩ hn hs
    obtain ⟨n, rfl⟩ := Nat.exists_eq_add_of_le' (show 1 ≤ n by omega)
    obtain rfl : cur = _ := hs.cur
    obtain rfl : next = _ := hs.next
    have hatom : Overflows ((Calls.run rounds frames).expr .atom)
        ⟨.performKw, .upperIdent "E" :: performs n, depth, peak, closed, deepest⟩ :=
      ih n _ (by omega) ⟨rfl, rfl⟩
    refine overflows_of_eq (parsePerformExpr (Calls.run rounds frames))
      ⟨.performKw, .upperIdent "E" :: performs (n + 1), depth, peak, closed, deepest⟩ rfl ?_
    exact overflows_step rfl (overflows_step rfl (Overflows.bind hatom))

/-- A function overflows wherever the parser is at so many `perform`. -/
def OverflowsAt (rounds frames n : ℕ) (f : ExprFn) : Prop :=
  ∀ s, AtPerforms n s → s.depth < maxNestingDepth → Overflows ((Calls.run rounds frames).expr f) s

variable {f : ExprFn} {op : Token → Option BinOp} {sep : Token}
  {node : SurfaceExpr → SurfaceExpr → SurfaceExpr}

theorem OverflowsAt.app (h : OverflowsAt rounds frames n .atom) :
    OverflowsAt rounds (frames + 1) n .app := fun s hs hd =>
  overflows_step rfl (Overflows.bind (h { s with peak := s.depth } ⟨hs.cur, hs.next⟩ hd))

theorem OverflowsAt.unary (h : OverflowsAt rounds frames n .app) :
    OverflowsAt rounds (frames + 1) n .unary := by
  rintro ⟨cur, next, depth, peak, closed, deepest⟩ hs hd
  obtain rfl : cur = _ := hs.cur
  exact overflows_of_eq ((Calls.run rounds frames).expr .app) _ rfl (h _ hs hd)

theorem OverflowsAt.leftChain (h : OverflowsAt rounds frames n f) :
    OverflowsAt rounds (frames + 1) n (.leftChain f op) := fun s hs hd =>
  overflows_step rfl (Overflows.bind (h { s with peak := s.depth } ⟨hs.cur, hs.next⟩ hd))

theorem OverflowsAt.rightChain (h : OverflowsAt rounds frames n f) :
    OverflowsAt rounds (frames + 1) n (.rightChain f sep node) := fun s hs hd =>
  overflows_step rfl (Overflows.bind (h { s with peak := s.depth } ⟨hs.cur, hs.next⟩ hd))

theorem OverflowsAt.comp (h : OverflowsAt rounds frames n .cons) :
    OverflowsAt rounds (frames + 1) n .comp := fun s hs hd => (h s hs hd).bind

theorem OverflowsAt.exprInner (h : OverflowsAt rounds frames n .pipe) :
    OverflowsAt rounds (frames + 1) n .exprInner := fun s hs hd => (h s hs hd).bind

theorem OverflowsAt.expr (h : OverflowsAt rounds frames n .exprInner) {s : ParserState}
    (hs : AtPerforms n s) (hd : s.depth + 1 < maxNestingDepth) :
    Overflows ((Calls.run rounds (frames + 1)).expr .expr) s := by
  have hnested : Overflows (nested ((Calls.run rounds frames).expr .exprInner)) s := by
    have hlevel : ¬ maxNestingDepth ≤ s.depth := by omega
    have hinner : Overflows ((Calls.run rounds frames).expr .exprInner)
        { s with depth := s.depth + 1, peak := max s.peak (s.depth + 1) } :=
      h { s with depth := s.depth + 1, peak := max s.peak (s.depth + 1) } ⟨hs.cur, hs.next⟩ hd
    unfold nested Overflows
    rw [wp_bind, wp_get, wp_ite]
    refine ⟨fun h => absurd h hlevel, fun _ => ?_⟩
    rw [wp_bind, wp_set]
    exact hinner.bind
  exact hnested.bind

/-- From an expression down to its first atom. -/
theorem expr_overflows (rounds : ℕ) (h : frames ≤ n) {s : ParserState} (hs : AtPerforms n s)
    (hd : s.depth + 1 < maxNestingDepth) :
    Overflows ((Calls.run rounds (frames + 17)).expr .expr) s := by
  have hatom : OverflowsAt rounds frames n .atom := fun s hs _ =>
    atom_overflows rounds frames n s h hs
  have hmul : OverflowsAt rounds (frames + 4) n .mul := fun s => hatom.app.unary.leftChain s
  have hadd : OverflowsAt rounds (frames + 6) n .add := fun s => hmul.leftChain s
  have hcons : OverflowsAt rounds (frames + 8) n .cons := fun s => hadd.rightChain s
  have handalso : OverflowsAt rounds (frames + 11) n .andalso := fun s => hcons.comp.rightChain s
  have horelse : OverflowsAt rounds (frames + 13) n .orelse := fun s => handalso.rightChain s
  have hpipe : OverflowsAt rounds (frames + 15) n .pipe := fun s => horelse.leftChain s
  exact hpipe.exprInner.expr hs hd

end Unbounded

section FunPath

variable {call : Calls} {frames n : ℕ}

/-- `= perform E perform E ... 1` after the parameter of a function. -/
def afterParam (n : ℕ) : List Token := .performKw :: .upperIdent "E" :: performs n

theorem run_rounds (rounds frames : ℕ) : (Calls.run rounds frames).rounds = rounds := by
  cases frames <;> rfl

theorem run_atomPat (rounds frames : ℕ) :
    (Calls.run rounds (frames + 1)).pat .atomPat = parseAtomPat (Calls.run rounds frames) := rfl

theorem parseParams_x (frames : ℕ) (ts : List Token) :
    parseParams (Calls.run 2 (frames + 1)) ⟨.ident "x", .eq :: ts, 0, 0, false, 0⟩ =
      .ok [.var "x"] ⟨.eq, ts, 0, 0, false, 1⟩ := by
  unfold parseParams
  rw [run_atomPat, run_rounds]
  rfl

theorem parseFunBinding_overflows (hrounds : call.rounds = 2)
    (hparams : parseParams call ⟨.ident "x", .eq :: afterParam n, 0, 0, false, 0⟩ =
      .ok [.var "x"] ⟨.eq, afterParam n, 0, 0, false, 1⟩)
    (hexpr : Overflows (call.expr .expr)
      ⟨.performKw, .upperIdent "E" :: performs n, 0, 0, false, 1⟩) :
    Overflows (parseFunBinding call)
      ⟨.ident "f", .ident "x" :: .eq :: afterParam n, 0, 0, false, 0⟩ := by
  have hclause : Overflows (clauseLink call "f" [])
      ⟨.ident "x", .eq :: afterParam n, 0, 0, false, 0⟩ := by
    unfold clauseLink
    refine overflows_step hparams ?_
    exact overflows_step (t := ⟨.performKw, .upperIdent "E" :: performs n, 0, 0, false, 1⟩) rfl
      hexpr.bind
  unfold parseFunBinding
  rw [hrounds]
  exact overflows_step (t := ⟨.ident "x", .eq :: afterParam n, 0, 0, false, 0⟩) rfl
    (Overflows.bind hclause.bind)

theorem parseFunDecl_overflows (hbinding : Overflows call.funBinding
      ⟨.ident "f", .ident "x" :: .eq :: afterParam n, 0, 0, false, 0⟩) :
    Overflows (parseFunDecl call)
      ⟨.funKw, .ident "f" :: .ident "x" :: .eq :: afterParam n, 0, 0, false, 0⟩ :=
  overflows_step rfl hbinding.bind

theorem parseDecl_overflows {ts : List Token} (hfuns : Overflows (call.decl .funs)
      ⟨.funKw, ts, 0, 0, false, 0⟩) :
    Overflows (parseDecl call) ⟨.funKw, ts, 0, 0, false, 0⟩ :=
  overflows_step rfl hfuns

theorem parseProgram_overflows {ts : List Token} (hrounds : call.rounds = 2)
    (hdecl : Overflows (call.decl .decl) ⟨.funKw, ts, 0, 0, false, 0⟩) :
    Overflows (parseProgram call) ⟨.funKw, ts, 0, 0, false, 0⟩ := by
  unfold parseProgram
  rw [hrounds]
  exact Overflows.bind (overflows_step rfl hdecl.bind)

/-- **No stack is enough for every input**: `fun f x = perform E perform E ... 1`. -/
theorem parser_unbounded : ¬ ∃ limit, ∀ rounds frames cur next, limit ≤ frames →
    parseProgram (Calls.run rounds frames) (newParser cur next) ≠ .fault () := by
  rintro ⟨limit, hlimit⟩
  refine hlimit 2 (limit + 20) .funKw (.ident "f" :: .ident "x" :: .eq :: afterParam limit)
    (Nat.le_add_right _ _) (Overflows.eq_fault ?_)
  have hexpr : Overflows ((Calls.run 2 (limit + 17)).expr .expr)
      ⟨.performKw, .upperIdent "E" :: performs limit, 0, 0, false, 1⟩ :=
    expr_overflows 2 le_rfl ⟨rfl, rfl⟩ (by change 0 + 1 < 256; decide)
  have hbinding : Overflows (Calls.run 2 (limit + 18)).funBinding
      ⟨.ident "f", .ident "x" :: .eq :: afterParam limit, 0, 0, false, 0⟩ :=
    parseFunBinding_overflows (run_rounds 2 _) (parseParams_x (limit + 16) _) hexpr
  have hfuns : Overflows ((Calls.run 2 (limit + 19)).decl .funs)
      ⟨.funKw, .ident "f" :: .ident "x" :: .eq :: afterParam limit, 0, 0, false, 0⟩ :=
    parseFunDecl_overflows hbinding
  have hdecl : Overflows ((Calls.run 2 (limit + 20)).decl .decl)
      ⟨.funKw, .ident "f" :: .ident "x" :: .eq :: afterParam limit, 0, 0, false, 0⟩ :=
    parseDecl_overflows hfuns
  exact parseProgram_overflows (run_rounds 2 _) hdecl

end FunPath

end Hiko
