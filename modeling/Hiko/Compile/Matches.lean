import Mathlib.Tactic
import Hiko.Compile.Scopes

/-!
# The code of a match

What the code of `compile_multi_case_branches` does when it runs. The instructions of a match read
values and do not change them, so values are trees here. A configuration is the code that is left,
with the stack of the function; the top of the stack comes first, as the last local does in the
list of locals.

## Main definitions

* `Val`, `Instr.exec`, `LeadsTo`: values, and how the instructions of a match run
* `Pat.matches`, `Pat.bindings`: what a pattern means
* `Pat.Fits`: values of the type of a pattern
* `Pat.pushes`: what the code of a pattern pushes

## Main results

* `compilePatternTest_spec`: the tests of a pattern succeed where it matches
* `patchTests_leads`: a failed test leads behind the branch, with its temporaries dropped
* `compilePatternBind_spec`: the variables of a pattern are bound
* `compileMultiCaseBranches_spec`: the first branch that matches is run
-/

namespace Hiko

open Lib Exec

/-! ## Values -/

/-- A value, as a tree. `other` stands for closures, handles and other values that are compared by
identity. -/
inductive Val where
  | int (n : Int64)
  | float (bits : UInt64)
  | word (w : UInt64)
  | string (s : String)
  | char (c : Char)
  | bool (b : Bool)
  | unit
  | tuple (fields : List Val)
  | data (tag : ℕ) (fields : List Val)
  | other (id : ℕ)

/-- The value of a constant. -/
def Constant.val : Constant → Val
  | .int n => .int n
  | .float bits => .float bits
  | .word w => .word w
  | .string s => .string s
  | .char c => .char c

/-- `data_tag`. -/
def Val.dataTag : Val → Option ℕ
  | .data tag _ => some tag
  | _ => none

/-- `field_of`. -/
def Val.field : Val → ℕ → Option Val
  | .tuple fields, i => fields[i]?
  | .data _ fields, i => fields[i]?
  | _, _ => none

mutual

/-- `values_equal`. -/
def Val.equal (eqFloat : UInt64 → UInt64 → Bool) : Val → Val → Bool
  | .int a, .int b => a = b
  | .float a, .float b => eqFloat a b
  | .word a, .word b => a = b
  | .string a, .string b => a = b
  | .char a, .char b => a = b
  | .bool a, .bool b => a = b
  | .unit, .unit => true
  | .tuple as, .tuple bs => equalFields eqFloat as bs
  | .data s as, .data t bs => s = t && equalFields eqFloat as bs
  | .other a, .other b => a = b
  | _, _ => false

/-- `values_equal`, of the fields of two objects. -/
def equalFields (eqFloat : UInt64 → UInt64 → Bool) : List Val → List Val → Bool
  | [], [] => true
  | a :: as, b :: bs => a.equal eqFloat b && equalFields eqFloat as bs
  | _, _ => false

end

/-! ## Running the code of a match -/

section Machine

variable (eqFloat : UInt64 → UInt64 → Bool)

/-- The value in a slot. -/
def slotVal (st : List Val) (slot : ℕ) : Option Val := st.reverse[slot]?

/-- The value in a slot is pushed. -/
def execGetLocal (slot : ℕ) (st : List Val) : Option (ℕ × List Val) :=
  (slotVal st slot).map fun v => (0, v :: st)

/-- A field of the value in a slot is pushed. -/
def execGetLocalField (slot i : ℕ) (st : List Val) : Option (ℕ × List Val) :=
  ((slotVal st slot).bind (·.field i)).map fun v => (0, v :: st)

/-- The value on top is replaced by its field. -/
def execGetField (i : ℕ) : List Val → Option (ℕ × List Val)
  | v :: st => (v.field i).map fun w => (0, w :: st)
  | [] => none

/-- One instruction of a match: the number of instructions that are skipped, and the stack. -/
def Instr.exec : Instr → List Val → Option (ℕ × List Val)
  | .op .getLocal0, st => execGetLocal 0 st
  | .op .getLocal1, st => execGetLocal 1 st
  | .op .getLocal2, st => execGetLocal 2 st
  | .op .getLocal3, st => execGetLocal 3 st
  | .op1 .getLocal slot, st => execGetLocal slot st
  | .op1 .getLocalField0 slot, st => execGetLocalField slot 0 st
  | .op1 .getLocalField1 slot, st => execGetLocalField slot 1 st
  | .op .getField0, st => execGetField 0 st
  | .op .getField1, st => execGetField 1 st
  | .op1 .getField i, st => execGetField i st
  | .const k, st => some (0, k.val :: st)
  | .op .not, .bool b :: st => some (0, .bool (!b) :: st)
  | .op .pop, _ :: st => some (0, st)
  | .jump .jump off, st => some (off, st)
  | .jump .jumpIfFalse off, .bool b :: st => some (if b then 0 else off, st)
  | .jump .jumpIfNotEq off, b :: a :: st => some (if a.equal eqFloat b then 0 else off, st)
  | .tagJump slot tag off, st =>
    ((slotVal st slot).bind Val.dataTag).map fun t => (if t = tag then 0 else off, st)
  | .endScope base n, v :: st =>
    if base < st.length ∧ n ≤ st.length then
      some (0, (st.reverse.set base v).reverse.drop (n - 1))
    else none
  | _, _ => none

/-- One step: the code that is left, and the stack. -/
def stepCode : Code × List Val → Option (Code × List Val)
  | ([], _) => none
  | (i :: code, st) => (i.exec eqFloat st).map fun r => (code.drop r.1, r.2)

/-- Runs of the code of a match. -/
def LeadsTo : Code × List Val → Code × List Val → Prop :=
  Relation.ReflTransGen fun a b => stepCode eqFloat a = some b

variable {eqFloat} {i : Instr} {code : Code} {st st' : List Val}

theorem LeadsTo.step {b : Code × List Val} {n : ℕ} (h : i.exec eqFloat st = some (n, st'))
    (hrest : LeadsTo eqFloat (code.drop n, st') b) : LeadsTo eqFloat (i :: code, st) b :=
  Relation.ReflTransGen.head (by simp [stepCode, h]) hrest

theorem LeadsTo.trans {a b b' : Code × List Val} (h : LeadsTo eqFloat a b)
    (h' : LeadsTo eqFloat b b') : LeadsTo eqFloat a b' := Relation.ReflTransGen.trans h h'

/-- A jump over a piece of code. -/
theorem LeadsTo.skip {a k : Code} {b : Code × List Val} {n : ℕ}
    (h : i.exec eqFloat st = some (n, st')) (hn : n = a.length)
    (hrest : LeadsTo eqFloat (k, st') b) : LeadsTo eqFloat (i :: (a ++ k), st) b := by
  apply LeadsTo.step h
  rwa [hn, List.drop_left]

/-- A straight piece of code. -/
def RunsTo (eqFloat : UInt64 → UInt64 → Bool) (code : Code) (st st' : List Val) : Prop :=
  ∀ k, LeadsTo eqFloat (code ++ k, st) (k, st')

theorem RunsTo.nil : RunsTo eqFloat [] st st := fun _ => .refl

theorem RunsTo.cons (h : i.exec eqFloat st = some (0, st')) {st'' : List Val}
    (hrest : RunsTo eqFloat code st' st'') : RunsTo eqFloat (i :: code) st st'' :=
  fun k => LeadsTo.step h (hrest k)

theorem RunsTo.append {code' : Code} {st'' : List Val} (h : RunsTo eqFloat code st st')
    (h' : RunsTo eqFloat code' st' st'') : RunsTo eqFloat (code ++ code') st st'' := by
  intro k
  rw [List.append_assoc]
  exact (h (code' ++ k)).trans (h' k)

theorem runsTo_pops (vs st : List Val) :
    RunsTo eqFloat (List.replicate vs.length (.op .pop)) (vs ++ st) st := by
  induction vs with
  | nil => exact .nil
  | cons v vs ih => exact .cons rfl ih

end Machine

/-! ## Slots -/

theorem slotVal_cons_of_lt {v : Val} {st : List Val} {slot : ℕ} (h : slot < st.length) :
    slotVal (v :: st) slot = slotVal st slot := by
  rw [slotVal, List.reverse_cons, List.getElem?_append_left (by simpa using h), slotVal]

theorem slotVal_length (v : Val) (st : List Val) : slotVal (v :: st) st.length = some v := by
  simp [slotVal]

theorem lt_of_slotVal {st : List Val} {slot : ℕ} {v : Val} (h : slotVal st slot = some v) :
    slot < st.length := by
  simpa using (List.getElem?_eq_some_iff.mp h).1

/-- A slot keeps its value under what is pushed. -/
theorem slotVal_append {st : List Val} {slot : ℕ} {v : Val} (vs : List Val)
    (h : slotVal st slot = some v) : slotVal (vs ++ st) slot = some v := by
  induction vs with
  | nil => exact h
  | cons w vs ih =>
    rw [List.cons_append, slotVal_cons_of_lt (lt_of_slotVal ih)]
    exact ih

theorem exec_getLocalInstr {eqFloat : UInt64 → UInt64 → Bool} {st : List Val} {slot : ℕ} {v : Val}
    (h : slotVal st slot = some v) :
    (getLocalInstr slot).exec eqFloat st = some (0, v :: st) := by
  unfold getLocalInstr
  split <;> simp only [Instr.exec, execGetLocal, h, Option.map_some]

/-! ## Patterns -/

section Patterns

variable (eqFloat : UInt64 → UInt64 → Bool) (tags : Symbol → Option ℕ)

mutual

/-- Whether a pattern matches a value. -/
def Pat.matches : Pat → Val → Bool
  | .wildcard, _ => true
  | .var _, _ => true
  | .lit .unit, _ => true
  | .lit (.bool b), .bool b' => b = b'
  | .lit (.int n), v => v.equal eqFloat (.int n)
  | .lit (.float bits), v => v.equal eqFloat (.float bits)
  | .lit (.word w), v => v.equal eqFloat (.word w)
  | .lit (.string s), v => v.equal eqFloat (.string s)
  | .lit (.char c), v => v.equal eqFloat (.char c)
  | .con sym, .data tag _ => tags sym = some tag
  | .conApp sym payload, .data tag [w] => tags sym = some tag && payload.matches w
  | .tuple pats, .tuple vs => patsMatch pats vs
  | .cons hd tl, .data tag [x, xs] => tag = 1 && hd.matches x && tl.matches xs
  | .list [], .data tag _ => tag = 0
  | .as _ pat, v => pat.matches v
  | .paren pat, v => pat.matches v
  | .ann pat _, v => pat.matches v
  | _, _ => false

/-- Whether patterns match values, one each. -/
def patsMatch : List Pat → List Val → Bool
  | [], [] => true
  | pat :: pats, v :: vs => pat.matches v && patsMatch pats vs
  | _, _ => false

end

mutual

/-- The variables of a pattern, each with the part of the value at its position. -/
def Pat.bindings : Pat → Val → List (Symbol × Val)
  | .var sym, v => [(sym, v)]
  | .conApp _ payload, .data _ [w] => payload.bindings w
  | .tuple pats, .tuple vs => patsBindings pats vs
  | .cons hd tl, .data _ [x, xs] => hd.bindings x ++ tl.bindings xs
  | .as sym pat, v => (sym, v) :: pat.bindings v
  | .paren pat, v => pat.bindings v
  | .ann pat _, v => pat.bindings v
  | _, _ => []

/-- The variables of patterns, each with its part of the values. -/
def patsBindings : List Pat → List Val → List (Symbol × Val)
  | pat :: pats, v :: vs => pat.bindings v ++ patsBindings pats vs
  | _, _ => []

end

mutual

/-- What the code of a pattern pushes, in order: variables, and fields under the name `_tmp`. -/
def Pat.pushes : Pat → Val → List (Symbol × Val)
  | .var sym, v => [(sym, v)]
  | .conApp _ payload, .data _ [w] => ("_tmp", w) :: payload.pushes w
  | .tuple pats, .tuple vs => patsPushes pats vs
  | .cons hd tl, .data _ [x, xs] =>
    ("_tmp", x) :: hd.pushes x ++ ("_tmp", xs) :: tl.pushes xs
  | .as sym pat, v => (sym, v) :: pat.pushes v
  | .paren pat, v => pat.pushes v
  | .ann pat _, v => pat.pushes v
  | _, _ => []

/-- What the code of the fields of a tuple pushes. -/
def patsPushes : List Pat → List Val → List (Symbol × Val)
  | pat :: pats, v :: vs => ("_tmp", v) :: pat.pushes v ++ patsPushes pats vs
  | _, _ => []

end

mutual

/-- The value has the form that the type of the pattern gives it, as far as the pattern looks: the
constructors are declared, one with a payload has one field, a list is `nil` or a `cons`. -/
def Pat.Fits : Pat → Val → Prop
  | .wildcard, _ => True
  | .var _, _ => True
  | .lit (.bool _), v => ∃ b, v = .bool b
  | .lit _, _ => True
  | .con sym, v => (tags sym).isSome = true ∧ ∃ tag fields, v = .data tag fields
  | .conApp sym payload, v => (tags sym).isSome = true ∧ ∃ tag fields, v = .data tag fields ∧
      (tags sym = some tag → ∃ w, fields = [w] ∧ payload.Fits w)
  | .tuple pats, v => ∃ vs, v = .tuple vs ∧ patsFit pats vs
  | .cons hd tl, v => v = .data 0 [] ∨ ∃ x xs, v = .data 1 [x, xs] ∧ hd.Fits x ∧ tl.Fits xs
  | .list _, v => ∃ tag fields, v = .data tag fields
  | .as _ pat, v => pat.Fits v
  | .paren pat, v => pat.Fits v
  | .ann pat _, v => pat.Fits v

/-- The values have the forms that the types of the patterns give them. -/
def patsFit : List Pat → List Val → Prop
  | [], [] => True
  | pat :: pats, v :: vs => pat.Fits v ∧ patsFit pats vs
  | _, _ => False

end

variable {eqFloat tags}

theorem Pat.isTrivial_matches {pat : Pat} (h : pat.isTrivial = true) (v : Val) :
    pat.matches eqFloat tags v = true := by
  induction pat using Pat.isTrivial.induct with
  | case1 => simp [Pat.matches]
  | case2 => simp [Pat.matches]
  | case3 => simp [Pat.matches]
  | case4 p ih =>
    rw [Pat.matches]
    exact ih (by simpa [Pat.isTrivial] using h)
  | case5 p ty ih =>
    rw [Pat.matches]
    exact ih (by simpa [Pat.isTrivial] using h)
  | case6 p h₁ h₂ h₃ h₄ h₅ =>
    rw [Pat.isTrivial] at h
    · cases h
    all_goals assumption

end Patterns

/-! ## Tests -/

section Tests

variable {eqFloat : UInt64 → UInt64 → Bool} {st st' st'' : List Val} {tests tests' : List Test}
  {n : ℕ} {r : Option ℕ}

/-- Runs of tests: to their end, or to a failure with the number of locals there. -/
inductive TestsRun (eqFloat : UInt64 → UInt64 → Bool) :
    List Test → List Val → Option ℕ → List Val → Prop
  | nil (st : List Val) : TestsRun eqFloat [] st none st
  | instr {i : Instr} {tests : List Test} {st st' st'' : List Val} {r : Option ℕ}
      (h : i.exec eqFloat st = some (0, st')) (hrest : TestsRun eqFloat tests st' r st'') :
      TestsRun eqFloat (.instr i :: tests) st r st''
  | pass {jump : ℕ → Instr} {n : ℕ} {tests : List Test} {st st' st'' : List Val} {r : Option ℕ}
      (h : ∀ off, (jump off).exec eqFloat st = some (0, st'))
      (hrest : TestsRun eqFloat tests st' r st'') :
      TestsRun eqFloat (.fail jump n :: tests) st r st''
  | fail {jump : ℕ → Instr} {n : ℕ} {tests : List Test} {st st' : List Val}
      (h : ∀ off, (jump off).exec eqFloat st = some (off, st')) :
      TestsRun eqFloat (.fail jump n :: tests) st (some n) st'

theorem TestsRun.append (h : TestsRun eqFloat tests st none st')
    (h' : TestsRun eqFloat tests' st' r st'') : TestsRun eqFloat (tests ++ tests') st r st'' := by
  generalize hr : (none : Option ℕ) = r₀ at h
  induction h with
  | nil => exact h'
  | instr h _ ih => exact .instr h (ih h' hr)
  | pass h _ ih => exact .pass h (ih h' hr)
  | fail => cases hr

theorem TestsRun.append_fail (h : TestsRun eqFloat tests st (some n) st') (tests' : List Test) :
    TestsRun eqFloat (tests ++ tests') st (some n) st' := by
  generalize hr : some n = r₀ at h ⊢
  induction h with
  | nil => cases hr
  | instr h _ ih => exact .instr h (ih hr)
  | pass h _ ih => exact .pass h (ih hr)
  | fail h => exact .fail h

/-- Tests of a pattern or of several: they end with the stack as it was, or fail with temporaries
on it. -/
def Tested (eqFloat : UInt64 → UInt64 → Bool) (tests : List Test) (ok : Bool) (st : List Val) :
    Prop :=
  if ok then TestsRun eqFloat tests st none st
  else ∃ temps, TestsRun eqFloat tests st (some (temps ++ st).length) (temps ++ st)

theorem Tested.nil (st : List Val) : Tested eqFloat [] true st :=
  TestsRun.nil st

/-- What follows a failed test is not run. -/
theorem Tested.append_false (h : Tested eqFloat tests false st) (tests' : List Test) :
    Tested eqFloat (tests ++ tests') false st := by
  obtain ⟨temps, h⟩ := h
  exact ⟨temps, h.append_fail tests'⟩

/-- One test after another. -/
theorem Tested.append {ok ok' : Bool} (h : Tested eqFloat tests ok st)
    (h' : ok = true → Tested eqFloat tests' ok' st) :
    Tested eqFloat (tests ++ tests') (ok && ok') st := by
  cases ok with
  | false => exact h.append_false tests'
  | true =>
    cases ok' with
    | false =>
      obtain ⟨temps, h'⟩ := h' rfl
      exact ⟨temps, TestsRun.append h h'⟩
    | true => exact TestsRun.append h (h' rfl)

/-- Tests of a field, which is pushed before and dropped after. -/
theorem Tested.field {code : Code} {ok : Bool} {w : Val}
    (hcode : ∀ {tests r st''}, TestsRun eqFloat tests (w :: st) r st'' →
      TestsRun eqFloat (code.map .instr ++ tests) st r st'')
    (h : Tested eqFloat tests ok (w :: st)) :
    Tested eqFloat (code.map .instr ++ tests ++ [.instr (.op .pop)]) ok st := by
  cases ok with
  | false =>
    obtain ⟨temps, h⟩ := h
    refine ⟨temps ++ [w], ?_⟩
    rw [List.append_assoc temps, List.singleton_append]
    exact (hcode h).append_fail _
  | true =>
    exact TestsRun.append (hcode h) (.instr rfl (.nil st))

end Tests

/-! ## The tests of a pattern -/

/-- The code generator is where it was: the locals, the depth and the constructors. -/
structure SameLocals (c c' : Compiler) : Prop where
  locals : c'.ctx.locals = c.ctx.locals
  depth : c'.ctx.scopeDepth = c.ctx.scopeDepth
  tags : c'.constructorTags = c.constructorTags
  outer : c'.outerLocals = c.outerLocals

theorem SameLocals.refl (c : Compiler) : SameLocals c c := ⟨rfl, rfl, rfl, rfl⟩

theorem SameLocals.trans {c c' c'' : Compiler} (h : SameLocals c c') (h' : SameLocals c' c'') :
    SameLocals c c'' :=
  ⟨h'.locals.trans h.locals, h'.depth.trans h.depth, h'.tags.trans h.tags, h'.outer.trans h.outer⟩

section PatternTest

variable {eqFloat : UInt64 → UInt64 → Bool} {tags : Symbol → Option ℕ} {c : Compiler}
  {slot idx : ℕ} {pat : Pat}

/-- A field that is pushed is the next local. -/
theorem emitFieldExtract_spec (eqFloat : UInt64 → UInt64 → Bool) :
    Gives (emitFieldExtract slot idx) c fun r c' =>
      r.2 = c.ctx.locals.length ∧
      c'.ctx.locals = ⟨"_tmp", c.ctx.scopeDepth, false⟩ :: c.ctx.locals ∧
      c'.ctx.scopeDepth = c.ctx.scopeDepth ∧ c'.constructorTags = c.constructorTags ∧
      c'.outerLocals = c.outerLocals ∧ ∀ {st v w}, slotVal st slot = some v → v.field idx = some w →
        RunsTo eqFloat r.1 st (w :: st) ∧
        ∀ {tests r' st''}, TestsRun eqFloat tests (w :: st) r' st'' →
          TestsRun eqFloat (r.1.map .instr ++ tests) st r' st'' := by
  have hone : ∀ {i : Instr} {st w}, i.exec eqFloat st = some (0, w :: st) →
      RunsTo eqFloat [i] st (w :: st) ∧
      ∀ {tests r' st''}, TestsRun eqFloat tests (w :: st) r' st'' →
        TestsRun eqFloat ([i].map .instr ++ tests) st r' st'' :=
    fun hi => ⟨.cons hi .nil, fun h => .instr hi h⟩
  have htwo : ∀ {i : Instr} {st v w}, slotVal st slot = some v →
      i.exec eqFloat (v :: st) = some (0, w :: st) →
      RunsTo eqFloat [getLocalInstr slot, i] st (w :: st) ∧
      ∀ {tests r' st''}, TestsRun eqFloat tests (w :: st) r' st'' →
        TestsRun eqFloat ([getLocalInstr slot, i].map .instr ++ tests) st r' st'' :=
    fun hslot hi => ⟨.cons (exec_getLocalInstr hslot) (.cons hi .nil),
      fun h => .instr (exec_getLocalInstr hslot) (.instr hi h)⟩
  rw [emitFieldExtract, gives_bind]
  unfold emitLocalField
  split
  · refine ⟨rfl, rfl, rfl, rfl, rfl, fun hslot hfield => hone ?_⟩
    simp [Instr.exec, execGetLocalField, hslot, hfield]
  · refine ⟨rfl, rfl, rfl, rfl, rfl, fun hslot hfield => hone ?_⟩
    simp [Instr.exec, execGetLocalField, hslot, hfield]
  · rw [gives_bind]
    unfold emitGetField
    split
    · exact absurd rfl ‹_›
    · exact absurd rfl ‹_›
    · rw [gives_bind]
      unfold checkedU8
      split
      · refine ⟨rfl, rfl, rfl, rfl, rfl, fun hslot hfield => htwo hslot ?_⟩
        simp [Instr.exec, execGetField, hfield]
      · trivial

/-- The constructors of `tags` are known. -/
def KnowsTags (tags : Symbol → Option ℕ) (c : Compiler) : Prop :=
  ∀ sym, (tags sym).isSome = true → c.constructorTags sym = tags sym

/-- The stack holds what the compiler's locals say. -/
structure Aligned (tags : Symbol → Option ℕ) (c : Compiler) (st : List Val) : Prop where
  length : st.length = c.ctx.locals.length
  tags : KnowsTags tags c

theorem SameLocals.aligned {c' : Compiler} {st : List Val} (h : SameLocals c c')
    (ha : Aligned tags c st) : Aligned tags c' st :=
  ⟨by rw [h.locals, ha.length], fun sym hsym => by rw [h.tags, ha.tags sym hsym]⟩

/-- The tests that a generator gives for a slot leave the locals as they were, and they find out
whether the pattern matches the value there. -/
def TestsPat (eqFloat : UInt64 → UInt64 → Bool) (tags : Symbol → Option ℕ) (pat : Pat) (slot : ℕ)
    (g : Gen (List Test)) : Prop :=
  ∀ c, Gives g c fun tests c' => SameLocals c c' ∧ ∀ st v, Aligned tags c st →
    slotVal st slot = some v → pat.Fits tags v →
      Tested eqFloat tests (pat.matches eqFloat tags v) st

/-- A field is pushed for its test and dropped behind it. -/
theorem emitFieldExtractTest_spec {test : ℕ → Gen (List Test)}
    (h : ∀ slot, TestsPat eqFloat tags pat slot (test slot)) :
    Gives (emitFieldExtractTest slot idx pat test) c fun tests c' =>
      SameLocals c c' ∧ ∀ st v w, Aligned tags c st → slotVal st slot = some v →
        v.field idx = some w → pat.Fits tags w →
        Tested eqFloat tests (pat.matches eqFloat tags w) st := by
  unfold emitFieldExtractTest
  split
  · next htrivial =>
    refine ⟨.refl c, fun st v w _ _ _ _ => ?_⟩
    rw [Pat.isTrivial_matches htrivial]
    exact .nil st
  · refine (emitFieldExtract_spec eqFloat).bind
      fun r c₁ ⟨hslot, hlocals, hdepth, htags, houter, hrun⟩ => ?_
    refine (h r.2 c₁).bind fun tests c₂ ⟨hsame, htests⟩ => ?_
    refine ⟨⟨?_, hsame.depth.trans hdepth, hsame.tags.trans htags, hsame.outer.trans houter⟩,
      fun st v w ha hv hfield hfits => ?_⟩
    · simp [hsame.locals, hlocals]
    · apply Tested.field (hrun hv hfield).2
      refine htests (w :: st) w ⟨?_, fun sym hsym => by rw [htags, ha.tags sym hsym]⟩ ?_ hfits
      · rw [hlocals, List.length_cons, List.length_cons, ha.length]
      · rw [hslot, ← ha.length]
        exact slotVal_length w st

/-- A jump that is taken where the test fails. -/
theorem testsRun_jump {jump : ℕ → Instr} {st st' : List Val} {ok : Bool}
    (h : ∀ off, (jump off).exec eqFloat st' = some (if ok then 0 else off, st)) :
    if ok then TestsRun eqFloat [.fail jump st.length] st' none st
    else TestsRun eqFloat [.fail jump st.length] st' (some st.length) st := by
  cases ok with
  | false => exact .fail fun off => h off
  | true => exact .pass (fun off => h off) (.nil st)

theorem Tested.jump {jump : ℕ → Instr} {st : List Val} {ok : Bool}
    (h : ∀ off, (jump off).exec eqFloat st = some (if ok then 0 else off, st)) :
    Tested eqFloat [.fail jump st.length] ok st := by
  have hrun := testsRun_jump h
  cases ok with
  | false => exact ⟨[], hrun⟩
  | true => exact hrun

/-- Instructions before a test. -/
theorem Tested.after {i : Instr} {tests : List Test} {st st' : List Val} {ok : Bool}
    (hi : i.exec eqFloat st = some (0, st'))
    (h : if ok then TestsRun eqFloat tests st' none st
      else TestsRun eqFloat tests st' (some st.length) st) :
    Tested eqFloat (.instr i :: tests) ok st := by
  cases ok with
  | false => exact ⟨[], .instr hi h⟩
  | true => exact TestsRun.instr hi h

theorem emitTagCheck_spec (eqFloat : UInt64 → UInt64 → Bool) (tags : Symbol → Option ℕ) (tag : ℕ) :
    Gives (emitTagCheck slot tag) c fun tests c' => SameLocals c c' ∧
      ∀ st t fields, Aligned tags c st → slotVal st slot = some (.data t fields) →
        Tested eqFloat tests (t = tag) st := by
  refine ⟨.refl c, fun st t fields ha hslot => ?_⟩
  rw [← ha.length]
  apply Tested.jump
  intro off
  simp only [Instr.exec, hslot, Option.bind_some, Val.dataTag, Option.map_some, decide_eq_true_eq]

theorem emitScalarCheck_spec (eqFloat : UInt64 → UInt64 → Bool) (tags : Symbol → Option ℕ)
    (value : Constant) :
    Gives (emitScalarCheck slot value) c fun tests c' => SameLocals c c' ∧
      ∀ st v, Aligned tags c st → slotVal st slot = some v →
        Tested eqFloat tests (v.equal eqFloat value.val) st := by
  refine ⟨.refl c, fun st v ha hslot => ?_⟩
  rw [← ha.length]
  have hjump : if v.equal eqFloat value.val then
        TestsRun eqFloat [.fail (.jump .jumpIfNotEq) st.length] (value.val :: v :: st) none st
      else TestsRun eqFloat [.fail (.jump .jumpIfNotEq) st.length] (value.val :: v :: st)
        (some st.length) st :=
    testsRun_jump fun off => rfl
  apply Tested.after (exec_getLocalInstr hslot)
  split
  · next hok =>
    rw [if_pos hok] at hjump
    exact .instr rfl hjump
  · next hok =>
    rw [if_neg hok] at hjump
    exact .instr rfl hjump

theorem boolTest_spec (b : Bool) :
    TestsPat eqFloat tags (.lit (.bool b)) slot (compilePatternTest slot (.lit (.bool b))) := by
  intro c
  rw [compilePatternTest]
  refine ⟨.refl c, fun st v ha hslot hfits => ?_⟩
  obtain ⟨b', rfl⟩ := hfits
  change Tested eqFloat (.instr (getLocalInstr slot) :: ((if b then [] else [.instr (.op .not)]) ++
    [.fail (.jump .jumpIfFalse) c.ctx.locals.length])) (b = b') st
  rw [← ha.length]
  apply Tested.after (exec_getLocalInstr hslot)
  -- a negation for `false`
  cases b <;> cases b'
  · exact .instr rfl (.pass (fun off => rfl) (.nil st))
  · exact .instr rfl (.fail fun off => rfl)
  · exact .fail fun off => rfl
  · exact .pass (fun off => rfl) (.nil st)

end PatternTest

section PatternTests

variable {eqFloat : UInt64 → UInt64 → Bool} {tags : Symbol → Option ℕ}

theorem testsPat_trivial {pat : Pat} {slot : ℕ} (h : ∀ v, pat.matches eqFloat tags v = true) :
    TestsPat eqFloat tags pat slot (pure []) := by
  intro c
  refine ⟨.refl c, fun st v _ _ _ => ?_⟩
  rw [h v]
  exact .nil st

theorem testsPat_scalar {pat : Pat} {slot : ℕ} (value : Constant)
    (h : ∀ v, pat.matches eqFloat tags v = v.equal eqFloat value.val) :
    TestsPat eqFloat tags pat slot (emitScalarCheck slot value) := by
  intro c
  refine (emitScalarCheck_spec eqFloat tags value).mono
    fun tests c' hc' => ⟨hc'.1, fun st v ha hslot _ => ?_⟩
  rw [h v]
  exact hc'.2 st v ha hslot

/-- The tests of the fields of a tuple, from field `idx` on. -/
def TestsFields (eqFloat : UInt64 → UInt64 → Bool) (tags : Symbol → Option ℕ) (pats : List Pat)
    (slot idx : ℕ) (g : Gen (List Test)) : Prop :=
  ∀ c, Gives g c fun tests c' => SameLocals c c' ∧ ∀ st v vs, Aligned tags c st →
    slotVal st slot = some v → (∀ i w, vs[i]? = some w → v.field (idx + i) = some w) →
    patsFit tags pats vs → Tested eqFloat tests (patsMatch eqFloat tags pats vs) st

variable (eqFloat tags)

mutual

/-- The tests of a pattern find out whether it matches. -/
theorem compilePatternTest_spec : ∀ (pat : Pat) (slot : ℕ),
    TestsPat eqFloat tags pat slot (compilePatternTest slot pat)
  | .wildcard, slot => testsPat_trivial fun v => by simp [Pat.matches]
  | .var sym, slot => testsPat_trivial fun v => by simp [Pat.matches]
  | .lit .unit, slot => testsPat_trivial fun v => by simp [Pat.matches]
  | .lit (.bool b), slot => boolTest_spec b
  | .lit (.int n), slot => testsPat_scalar (.int n) fun v => by simp [Pat.matches, Constant.val]
  | .lit (.float n), slot =>
    testsPat_scalar (.float n) fun v => by simp [Pat.matches, Constant.val]
  | .lit (.word n), slot => testsPat_scalar (.word n) fun v => by simp [Pat.matches, Constant.val]
  | .lit (.string n), slot =>
    testsPat_scalar (.string n) fun v => by simp [Pat.matches, Constant.val]
  | .lit (.char n), slot => testsPat_scalar (.char n) fun v => by simp [Pat.matches, Constant.val]
  | .con sym, slot => by
    intro c
    rw [compilePatternTest, gives_bind, gives_get, gives_bind]
    apply gives_orThrow
    intro tag htag
    refine (emitTagCheck_spec eqFloat tags tag).mono
      fun tests c' hc' => ⟨hc'.1, fun st v ha hslot hfits => ?_⟩
    obtain ⟨hknown, t, fields, rfl⟩ := hfits
    have htest := hc'.2 st t fields ha hslot
    rw [ha.tags sym hknown] at htag
    simpa [Pat.matches, htag, eq_comm] using htest
  | .conApp sym payload, slot => by
    intro c
    rw [compilePatternTest, gives_bind, gives_get, gives_bind]
    apply gives_orThrow
    intro tag htag
    refine (emitTagCheck_spec eqFloat tags tag).bind fun check c₁ hcheck => ?_
    refine (emitFieldExtractTest_spec fun s => compilePatternTest_spec payload s).bind
      fun field c₂ hfield => ?_
    refine ⟨hcheck.1.trans hfield.1, fun st v ha hslot hfits => ?_⟩
    obtain ⟨hknown, t, fields, rfl, hpayload⟩ := hfits
    have htest := hcheck.2 st t fields ha hslot
    rw [ha.tags sym hknown] at htag
    by_cases heq : t = tag
    · -- the payload is tested where the constructor is the right one
      subst heq
      obtain ⟨w, rfl, hw⟩ := hpayload htag
      have hw := hfield.2 st _ w (hcheck.1.aligned ha) hslot rfl hw
      simpa [Pat.matches, htag] using htest.append fun _ => hw
    · have hno : (Pat.conApp sym payload).matches eqFloat tags (.data t fields) = false := by
        cases fields with
        | nil => simp [Pat.matches]
        | cons w fields =>
          cases fields with
          | nil => simp [Pat.matches, htag, Ne.symm heq]
          | cons _ _ => simp [Pat.matches]
      rw [hno]
      rw [decide_eq_false heq] at htest
      exact htest.append_false field
  | .tuple pats, slot => by
    intro c
    rw [compilePatternTest]
    refine (compileFieldTests_spec pats slot 0 c).mono
      fun tests c' hc' => ⟨hc'.1, fun st v ha hslot hfits => ?_⟩
    obtain ⟨vs, rfl, hfits⟩ := hfits
    rw [Pat.matches]
    exact hc'.2 st _ vs ha hslot (fun i w hw => by simpa [Val.field] using hw) hfits
  | .cons hd tl, slot => by
    intro c
    rw [compilePatternTest]
    refine (emitTagCheck_spec eqFloat tags 1).bind fun check c₁ hcheck => ?_
    refine (emitFieldExtractTest_spec fun s => compilePatternTest_spec hd s).bind
      fun hdTests c₂ hhd => ?_
    refine (emitFieldExtractTest_spec fun s => compilePatternTest_spec tl s).bind
      fun tlTests c₃ htl => ?_
    refine ⟨hcheck.1.trans (hhd.1.trans htl.1), fun st v ha hslot hfits => ?_⟩
    rcases hfits with rfl | ⟨x, xs, rfl, hx, hxs⟩
    · have htest := hcheck.2 st 0 [] ha hslot
      rw [Pat.matches, List.append_assoc]
      · exact htest.append_false _
      all_goals simp
    · have htest := hcheck.2 st 1 [x, xs] ha hslot
      have hhdTest := hhd.2 st _ x (hcheck.1.aligned ha) hslot rfl hx
      have htlTest := htl.2 st _ xs (hhd.1.aligned (hcheck.1.aligned ha)) hslot rfl hxs
      rw [Pat.matches]
      exact (htest.append fun _ => hhdTest).append fun _ => htlTest
  | .list [], slot => by
    intro c
    rw [compilePatternTest]
    refine (emitTagCheck_spec eqFloat tags 0).mono
      fun tests c' hc' => ⟨hc'.1, fun st v ha hslot hfits => ?_⟩
    obtain ⟨t, fields, rfl⟩ := hfits
    rw [Pat.matches]
    exact hc'.2 st t fields ha hslot
  | .list (_ :: _), slot => fun c => trivial
  | .as _ pat, slot => by
    intro c
    rw [compilePatternTest]
    refine (compilePatternTest_spec pat slot c).mono
      fun tests c' hc' => ⟨hc'.1, fun st v ha hslot hfits => ?_⟩
    rw [Pat.matches]
    exact hc'.2 st v ha hslot hfits
  | .paren pat, slot => by
    intro c
    rw [compilePatternTest]
    refine (compilePatternTest_spec pat slot c).mono
      fun tests c' hc' => ⟨hc'.1, fun st v ha hslot hfits => ?_⟩
    rw [Pat.matches]
    exact hc'.2 st v ha hslot hfits
  | .ann pat _, slot => by
    intro c
    rw [compilePatternTest]
    refine (compilePatternTest_spec pat slot c).mono
      fun tests c' hc' => ⟨hc'.1, fun st v ha hslot hfits => ?_⟩
    rw [Pat.matches]
    exact hc'.2 st v ha hslot hfits

theorem compileFieldTests_spec : ∀ (pats : List Pat) (slot idx : ℕ),
    TestsFields eqFloat tags pats slot idx (compileFieldTests slot idx pats)
  | [], slot, idx => by
    intro c
    rw [compileFieldTests]
    refine ⟨.refl c, fun st v vs _ _ _ hfits => ?_⟩
    cases vs with
    | nil => simpa [patsMatch] using Tested.nil st
    | cons w vs => exact hfits.elim
  | pat :: pats, slot, idx => by
    intro c
    rw [compileFieldTests]
    refine (emitFieldExtractTest_spec fun s => compilePatternTest_spec pat s).bind
      fun test c₁ htest => ?_
    refine (compileFieldTests_spec pats slot (idx + 1) c₁).bind fun rest c₂ hrest => ?_
    refine ⟨htest.1.trans hrest.1, fun st v vs ha hslot hfield hfits => ?_⟩
    cases vs with
    | nil => exact hfits.elim
    | cons w vs =>
      rw [patsMatch]
      refine (htest.2 st v w ha hslot (hfield 0 w rfl) hfits.1).append fun _ => ?_
      refine hrest.2 st v vs (htest.1.aligned ha) hslot (fun i x hx => ?_) hfits.2
      rw [Nat.add_right_comm]
      exact hfield (i + 1) x hx

end

end PatternTests

/-! ## Failed tests -/

section Patched

variable {eqFloat : UInt64 → UInt64 → Bool} {localsBefore : ℕ} {cleanup rest : Code}

theorem patchTests_length (localsBefore skip total : ℕ) (tests : List Test) :
    (patchTests localsBefore skip total tests).length = tests.length := by
  induction tests with
  | nil => rfl
  | cons test tests ih => cases test <;> simp [patchTests, ih]

/-- The cleanups of later jumps come last. -/
theorem trampolines_suffix (n : ℕ) (ns : List ℕ) :
    trampolines localsBefore ns <:+ trampolines localsBefore (n :: ns) := by
  rw [trampolines]
  split
  · exact List.suffix_refl _
  · exact (List.suffix_cons _ _).trans (List.suffix_append _ _)

/-- A cleanup drops the temporaries and leads behind all of them. -/
theorem trampolines_reaches {n : ℕ} {ns : List ℕ} {temps st : List Val}
    (hn : n - localsBefore ≠ 0) (htemps : temps.length = n - localsBefore) :
    LeadsTo eqFloat (trampolines localsBefore (n :: ns) ++ rest, temps ++ st) (rest, st) := by
  rw [trampolines, if_neg hn, List.append_assoc, ← htemps]
  apply (runsTo_pops temps st _).trans
  exact LeadsTo.skip rfl rfl .refl

/-- Patched tests: they lead to the code of the branch, or, where one fails, behind the branch, with
the temporaries of the test dropped. -/
theorem patchTests_leads {tests : List Test} {st st' : List Val} {r : Option ℕ}
    (taken rest : Code) (h : TestsRun eqFloat tests st r st') :
    trampolines localsBefore (failLocals tests) <:+ cleanup →
    match r with
    | none => LeadsTo eqFloat (patchTests localsBefore taken.length cleanup.length tests ++
        (taken ++ (cleanup ++ rest)), st) (taken ++ (cleanup ++ rest), st')
    | some n => ∀ temps st₀, st' = temps ++ st₀ → temps.length = n - localsBefore →
        LeadsTo eqFloat (patchTests localsBefore taken.length cleanup.length tests ++
          (taken ++ (cleanup ++ rest)), st) (rest, st₀) := by
  induction h with
  | nil => exact fun _ => .refl
  | @instr i tests st st' st'' r hi _ ih =>
    intro hcleanup
    have ih := ih hcleanup
    cases r with
    | none => exact LeadsTo.step hi ih
    | some n => exact fun temps st₀ hst hn => LeadsTo.step hi (ih temps st₀ hst hn)
  | @pass jump n tests st st' st'' r hjump _ ih =>
    intro hcleanup
    have ih := ih ((trampolines_suffix n _).trans hcleanup)
    cases r with
    | none => exact LeadsTo.step (hjump _) ih
    | some n => exact fun temps st₀ hst hn => LeadsTo.step (hjump _) (ih temps st₀ hst hn)
  | @fail jump n tests st st' hjump =>
    intro hcleanup temps st₀ hst hn
    subst hst
    rw [failLocals] at hcleanup
    have hlen := patchTests_length localsBefore taken.length cleanup.length tests
    by_cases hzero : n - localsBefore = 0
    · -- no temporaries: the jump leads behind the cleanups
      obtain rfl : temps = [] := List.length_eq_zero_iff.mp (hn.trans hzero)
      have hcode : patchTests localsBefore taken.length cleanup.length tests ++
          (taken ++ (cleanup ++ rest)) =
          (patchTests localsBefore taken.length cleanup.length tests ++ (taken ++ cleanup)) ++
            rest := by simp
      rw [patchTests, List.cons_append, hcode]
      refine LeadsTo.skip (hjump _) ?_ .refl
      simp only [hzero, if_true, List.length_append, hlen]
      omega
    · obtain ⟨before, hbefore⟩ := hcleanup
      have hcode : patchTests localsBefore taken.length cleanup.length tests ++
          (taken ++ (cleanup ++ rest)) =
          (patchTests localsBefore taken.length cleanup.length tests ++ (taken ++ before)) ++
            (trampolines localsBefore (n :: failLocals tests) ++ rest) := by
        rw [← hbefore]
        simp
      have hbeforeLen : cleanup.length =
          before.length + (trampolines localsBefore (n :: failLocals tests)).length := by
        rw [← hbefore, List.length_append]
      rw [patchTests, List.cons_append, hcode]
      refine LeadsTo.skip (hjump _) ?_ (trampolines_reaches hzero hn)
      simp only [hzero, if_false, List.length_append, hlen]
      omega

end Patched

/-! ## Bindings -/

mutual

/-- The names of the locals that the code of a pattern adds. -/
def Pat.pushNames : Pat → List Symbol
  | .var sym => [sym]
  | .conApp _ payload => "_tmp" :: payload.pushNames
  | .tuple pats => patsPushNames pats
  | .cons hd tl => "_tmp" :: hd.pushNames ++ "_tmp" :: tl.pushNames
  | .as sym pat => sym :: pat.pushNames
  | .paren pat => pat.pushNames
  | .ann pat _ => pat.pushNames
  | _ => []

/-- The names of the locals that the code of the fields of a tuple adds. -/
def patsPushNames : List Pat → List Symbol
  | [] => []
  | pat :: pats => "_tmp" :: pat.pushNames ++ patsPushNames pats

end

/-- Locals of the scope of `c` on top of those of `c`. -/
def scopeLocalsOf (c : Compiler) (names : List Symbol) : List Local :=
  (names.map fun name => ⟨name, c.ctx.scopeDepth, false⟩).reverse ++ c.ctx.locals

/-- Generation has added locals of these names to the scope. -/
structure AddsLocals (c c' : Compiler) (names : List Symbol) : Prop where
  locals : c'.ctx.locals = scopeLocalsOf c names
  depth : c'.ctx.scopeDepth = c.ctx.scopeDepth
  tags : c'.constructorTags = c.constructorTags
  outer : c'.outerLocals = c.outerLocals

/-- The values of what has been pushed, the last one first. -/
def pushedVals (pushes : List (Symbol × Val)) : List Val := (pushes.map (·.2)).reverse

section Binds

variable {eqFloat : UInt64 → UInt64 → Bool} {tags : Symbol → Option ℕ} {c c' c'' : Compiler}
  {names names' : List Symbol}

theorem AddsLocals.refl (c : Compiler) : AddsLocals c c [] := ⟨rfl, rfl, rfl, rfl⟩

theorem AddsLocals.trans (h : AddsLocals c c' names) (h' : AddsLocals c' c'' names') :
    AddsLocals c c'' (names ++ names') := by
  refine ⟨?_, h'.depth.trans h.depth, h'.tags.trans h.tags, h'.outer.trans h.outer⟩
  rw [h'.locals, scopeLocalsOf, scopeLocalsOf, h.locals, h.depth, scopeLocalsOf]
  simp

theorem AddsLocals.length (h : AddsLocals c c' names) :
    c'.ctx.locals.length = names.length + c.ctx.locals.length := by
  simp [h.locals, scopeLocalsOf]

theorem addLocal_adds (name : Symbol) :
    Gives (addLocal name) c fun slot c' =>
      slot = c.ctx.locals.length ∧ AddsLocals c c' [name] :=
  ⟨rfl, rfl, rfl, rfl, rfl⟩

/-- What a pattern that matches says of the value. -/
theorem Pat.matches_conApp {sym : Symbol} {payload : Pat} {v : Val}
    (h : (Pat.conApp sym payload).matches eqFloat tags v = true) :
    ∃ tag w, v = .data tag [w] ∧ payload.matches eqFloat tags w = true := by
  cases v with
  | data tag fields =>
    cases fields with
    | nil => simp [Pat.matches] at h
    | cons w fields =>
      cases fields with
      | nil =>
        rw [Pat.matches, Bool.and_eq_true] at h
        exact ⟨tag, w, rfl, h.2⟩
      | cons _ _ => simp [Pat.matches] at h
  | _ => simp [Pat.matches] at h

theorem Pat.matches_tuple {pats : List Pat} {v : Val}
    (h : (Pat.tuple pats).matches eqFloat tags v = true) :
    ∃ vs, v = .tuple vs ∧ patsMatch eqFloat tags pats vs = true := by
  cases v with
  | tuple vs =>
    rw [Pat.matches] at h
    exact ⟨vs, rfl, h⟩
  | _ => simp [Pat.matches] at h

theorem Pat.matches_cons {hd tl : Pat} {v : Val}
    (h : (Pat.cons hd tl).matches eqFloat tags v = true) :
    ∃ x xs, v = .data 1 [x, xs] ∧ hd.matches eqFloat tags x = true ∧
      tl.matches eqFloat tags xs = true := by
  cases v with
  | data tag fields =>
    cases fields with
    | nil => simp [Pat.matches] at h
    | cons x fields =>
      cases fields with
      | nil => simp [Pat.matches] at h
      | cons xs fields =>
        cases fields with
        | nil =>
          rw [Pat.matches] at h
          simp only [Bool.and_eq_true, decide_eq_true_eq] at h
          obtain ⟨⟨rfl, hx⟩, hxs⟩ := h
          exact ⟨x, xs, rfl, hx, hxs⟩
        | cons _ _ => simp [Pat.matches] at h
  | _ => simp [Pat.matches] at h

theorem patsMatch_cons {pat : Pat} {pats : List Pat} {vs : List Val}
    (h : patsMatch eqFloat tags (pat :: pats) vs = true) :
    ∃ w ws, vs = w :: ws ∧ pat.matches eqFloat tags w = true ∧
      patsMatch eqFloat tags pats ws = true := by
  cases vs with
  | nil => simp [patsMatch] at h
  | cons w ws =>
    rw [patsMatch, Bool.and_eq_true] at h
    exact ⟨w, ws, rfl, h⟩

end Binds

section Binding

variable (eqFloat : UInt64 → UInt64 → Bool) (tags : Symbol → Option ℕ)

mutual

/-- The values that are pushed have the names of the locals. -/
theorem pushes_names : ∀ (pat : Pat) (v : Val), pat.matches eqFloat tags v = true →
    (pat.pushes v).map (·.1) = pat.pushNames
  | .wildcard, v, _ => by simp [Pat.pushes, Pat.pushNames]
  | .var sym, v, _ => by simp [Pat.pushes, Pat.pushNames]
  | .lit l, v, _ => by simp [Pat.pushes, Pat.pushNames]
  | .con sym, v, _ => by simp [Pat.pushes, Pat.pushNames]
  | .conApp sym payload, v, h => by
    obtain ⟨tag, w, rfl, hw⟩ := Pat.matches_conApp h
    simp [Pat.pushes, Pat.pushNames, pushes_names payload w hw]
  | .tuple pats, v, h => by
    obtain ⟨vs, rfl, hvs⟩ := Pat.matches_tuple h
    simp [Pat.pushes, Pat.pushNames, patsPushes_names pats vs hvs]
  | .cons hd tl, v, h => by
    obtain ⟨x, xs, rfl, hx, hxs⟩ := Pat.matches_cons h
    simp [Pat.pushes, Pat.pushNames, pushes_names hd x hx, pushes_names tl xs hxs]
  | .list pats, v, _ => by simp [Pat.pushes, Pat.pushNames]
  | .as sym pat, v, h => by
    rw [Pat.matches] at h
    simp [Pat.pushes, Pat.pushNames, pushes_names pat v h]
  | .paren pat, v, h => by
    rw [Pat.matches] at h
    simp [Pat.pushes, Pat.pushNames, pushes_names pat v h]
  | .ann pat _, v, h => by
    rw [Pat.matches] at h
    simp [Pat.pushes, Pat.pushNames, pushes_names pat v h]

theorem patsPushes_names : ∀ (pats : List Pat) (vs : List Val),
    patsMatch eqFloat tags pats vs = true → (patsPushes pats vs).map (·.1) = patsPushNames pats
  | [], vs, _ => by simp [patsPushes, patsPushNames]
  | pat :: pats, vs, h => by
    obtain ⟨w, ws, rfl, hw, hws⟩ := patsMatch_cons h
    simp [patsPushes, patsPushNames, pushes_names pat w hw, patsPushes_names pats ws hws]

end

/-- What the bind code of a pattern does, in the slot of a value that matches. -/
def BindsPat (pat : Pat) (slot : ℕ) (g : Gen Code) : Prop :=
  ∀ c, Gives g c fun code c' => AddsLocals c c' pat.pushNames ∧
    ∀ st v, st.length = c.ctx.locals.length → slotVal st slot = some v →
      pat.matches eqFloat tags v = true →
      RunsTo eqFloat code st (pushedVals (pat.pushes v) ++ st)

/-- What the bind code of the fields of a tuple does, from field `idx` on. -/
def BindsFields (pats : List Pat) (slot idx : ℕ) (g : Gen Code) : Prop :=
  ∀ c, Gives g c fun code c' => AddsLocals c c' (patsPushNames pats) ∧
    ∀ st v vs, st.length = c.ctx.locals.length → slotVal st slot = some v →
      (∀ i w, vs[i]? = some w → v.field (idx + i) = some w) →
      patsMatch eqFloat tags pats vs = true →
      RunsTo eqFloat code st (pushedVals (patsPushes pats vs) ++ st)

variable {eqFloat tags}

theorem bindsPat_nil {pat : Pat} {slot : ℕ} (hnames : pat.pushNames = [])
    (hpushes : ∀ v, pat.pushes v = []) : BindsPat eqFloat tags pat slot (pure []) := by
  intro c
  rw [gives_pure, hnames]
  refine ⟨.refl c, fun st v _ _ _ => ?_⟩
  rw [hpushes]
  exact .nil

/-- A field is pushed, and its pattern is bound. -/
theorem fieldBind_spec {pat : Pat} {bind : ℕ → Gen Code} (slot idx : ℕ)
    (hbind : ∀ s, BindsPat eqFloat tags pat s (bind s)) (c : Compiler) :
    Gives (do
      let (code, field) ← emitFieldExtract slot idx
      let rest ← bind field
      pure (code ++ rest)) c fun code c' =>
      AddsLocals c c' ("_tmp" :: pat.pushNames) ∧
      ∀ st v w, st.length = c.ctx.locals.length → slotVal st slot = some v →
        v.field idx = some w → pat.matches eqFloat tags w = true →
        RunsTo eqFloat code st (pushedVals (("_tmp", w) :: pat.pushes w) ++ st) := by
  refine (emitFieldExtract_spec eqFloat).bind
    fun r c₁ ⟨hslot, hlocals, hdepth, htags, houter, hrun⟩ => ?_
  refine (hbind r.2 c₁).bind fun rest c₂ hrest => ?_
  have hadds : AddsLocals c c₁ ["_tmp"] := ⟨by simp [hlocals, scopeLocalsOf], hdepth, htags, houter⟩
  refine ⟨hadds.trans hrest.1, fun st v w hlen hv hfield hw => ?_⟩
  have hbound := hrest.2 (w :: st) w (by simp [hlocals, hlen])
    (by rw [hslot, ← hlen]; exact slotVal_length w st) hw
  simpa [pushedVals] using (hrun hv hfield).1.append hbound

variable (eqFloat tags)

mutual

/-- The bind code of a pattern pushes its variables and fields. -/
theorem compilePatternBind_spec : ∀ (pat : Pat) (slot : ℕ),
    BindsPat eqFloat tags pat slot (compilePatternBind slot pat)
  | .wildcard, slot => bindsPat_nil rfl fun v => by simp [Pat.pushes]
  | .lit l, slot => bindsPat_nil rfl fun v => by simp [Pat.pushes]
  | .con sym, slot => bindsPat_nil rfl fun v => by simp [Pat.pushes]
  | .list pats, slot => bindsPat_nil rfl fun v => by simp [Pat.pushes]
  | .var sym, slot => by
    intro c
    rw [compilePatternBind]
    refine (addLocal_adds sym).bind fun s c₁ hadds => ?_
    refine ⟨by simpa [Pat.pushNames] using hadds.2, fun st v _ hslot _ => ?_⟩
    rw [Pat.pushes]
    exact .cons (exec_getLocalInstr hslot) .nil
  | .as sym pat, slot => by
    intro c
    rw [compilePatternBind]
    refine (addLocal_adds sym).bind fun s c₁ hadds => ?_
    refine (compilePatternBind_spec pat slot c₁).bind fun rest c₂ hrest => ?_
    refine ⟨hadds.2.trans hrest.1, fun st v hlen hslot hmatch => ?_⟩
    rw [Pat.matches] at hmatch
    have hbound := hrest.2 (v :: st) v (by simp [hadds.2.length, hlen, Nat.add_comm])
      (slotVal_append [v] hslot) hmatch
    rw [Pat.pushes]
    refine .cons (exec_getLocalInstr hslot) ?_
    simpa [pushedVals] using hbound
  | .paren pat, slot => by
    intro c
    rw [compilePatternBind]
    refine (compilePatternBind_spec pat slot c).mono fun code c' hc' => ⟨hc'.1, ?_⟩
    intro st v hlen hslot hmatch
    rw [Pat.matches] at hmatch
    rw [Pat.pushes]
    exact hc'.2 st v hlen hslot hmatch
  | .ann pat _, slot => by
    intro c
    rw [compilePatternBind]
    refine (compilePatternBind_spec pat slot c).mono fun code c' hc' => ⟨hc'.1, ?_⟩
    intro st v hlen hslot hmatch
    rw [Pat.matches] at hmatch
    rw [Pat.pushes]
    exact hc'.2 st v hlen hslot hmatch
  | .conApp sym payload, slot => by
    intro c
    rw [compilePatternBind]
    refine (fieldBind_spec slot 0 (compilePatternBind_spec payload) c).mono
      fun code c' hc' => ⟨hc'.1, fun st v hlen hslot hmatch => ?_⟩
    obtain ⟨tag, w, rfl, hw⟩ := Pat.matches_conApp hmatch
    rw [Pat.pushes]
    exact hc'.2 st _ w hlen hslot rfl hw
  | .tuple pats, slot => by
    intro c
    rw [compilePatternBind]
    refine (compileFieldBinds_spec pats slot 0 c).mono
      fun code c' hc' => ⟨hc'.1, fun st v hlen hslot hmatch => ?_⟩
    obtain ⟨vs, rfl, hvs⟩ := Pat.matches_tuple hmatch
    rw [Pat.pushes]
    exact hc'.2 st _ vs hlen hslot (fun i w hw => by simpa [Val.field] using hw) hvs
  | .cons hd tl, slot => by
    intro c
    rw [compilePatternBind, gives_bind]
    refine (gives_bind.mp (fieldBind_spec slot 0 (compilePatternBind_spec hd) c)).mono
      fun r c₁ h₁ => ?_
    rw [gives_bind]
    refine (gives_bind.mp h₁).mono fun hdBinds c₂ hhd => ?_
    rw [gives_bind]
    refine (gives_bind.mp (fieldBind_spec slot 1 (compilePatternBind_spec tl) c₂)).mono
      fun r' c₃ h₃ => ?_
    rw [gives_bind]
    refine (gives_bind.mp h₃).mono fun tlBinds c₄ htl => ?_
    refine ⟨hhd.1.trans htl.1, fun st v hlen hslot hmatch => ?_⟩
    obtain ⟨x, xs, rfl, hx, hxs⟩ := Pat.matches_cons hmatch
    have hhdRun := hhd.2 st _ x hlen hslot rfl hx
    have htlRun := htl.2 (pushedVals (("_tmp", x) :: hd.pushes x) ++ st) _ xs (by
      rw [hhd.1.length, List.length_append, hlen, ← pushes_names eqFloat tags hd x hx]
      simp [pushedVals]) (slotVal_append _ hslot) rfl hxs
    simpa [Pat.pushes, pushedVals] using hhdRun.append htlRun

theorem compileFieldBinds_spec : ∀ (pats : List Pat) (slot idx : ℕ),
    BindsFields eqFloat tags pats slot idx (compileFieldBinds slot idx pats)
  | [], slot, idx => by
    intro c
    refine ⟨.refl c, fun st v vs _ _ _ _ => ?_⟩
    rw [patsPushes]
    · exact .nil
    · simp
  | pat :: pats, slot, idx => by
    intro c
    rw [compileFieldBinds, gives_bind]
    refine (gives_bind.mp (fieldBind_spec slot idx (compilePatternBind_spec pat) c)).mono
      fun r c₁ h₁ => ?_
    rw [gives_bind]
    refine (gives_bind.mp h₁).mono fun binds c₂ hfirst => ?_
    refine (compileFieldBinds_spec pats slot (idx + 1) c₂).bind fun rest c₃ hrest => ?_
    refine ⟨hfirst.1.trans hrest.1, fun st v vs hlen hslot hfield hmatch => ?_⟩
    obtain ⟨w, ws, rfl, hw, hws⟩ := patsMatch_cons hmatch
    have hrun := hfirst.2 st v w hlen hslot (hfield 0 w rfl) hw
    have hrestRun := hrest.2 (pushedVals (("_tmp", w) :: pat.pushes w) ++ st) v ws (by
      rw [hfirst.1.length, List.length_append, hlen, ← pushes_names eqFloat tags pat w hw]
      simp [pushedVals]) (slotVal_append _ hslot) (fun i x hx => by
        rw [Nat.add_right_comm]
        exact hfield (i + 1) x hx) hws
    simpa [patsPushes, pushedVals] using hrun.append hrestRun

end

end Binding

/-! ## Branches -/

section Parts

variable (eqFloat : UInt64 → UInt64 → Bool) (tags : Symbol → Option ℕ)

/-- Whether patterns match the values in their slots. -/
def partsMatch (st : List Val) : List (ℕ × Pat) → Bool
  | [] => true
  | (slot, pat) :: parts =>
    (slotVal st slot).any (pat.matches eqFloat tags) && partsMatch st parts

/-- The slots of the patterns hold values of their types. -/
def PartsFit (st : List Val) (parts : List (ℕ × Pat)) : Prop :=
  ∀ part ∈ parts, ∃ v, slotVal st part.1 = some v ∧ part.2.Fits tags v

/-- The variables of the patterns, each with the part of a value at its position. -/
def partsBindings (st : List Val) : List (ℕ × Pat) → List (Symbol × Val)
  | [] => []
  | (slot, pat) :: parts => (slotVal st slot).elim [] pat.bindings ++ partsBindings st parts

/-- What the code of the patterns pushes. -/
def partsPushes (st : List Val) : List (ℕ × Pat) → List (Symbol × Val)
  | [] => []
  | (slot, pat) :: parts => (slotVal st slot).elim [] pat.pushes ++ partsPushes st parts

/-- The names of the locals that the code of the patterns adds. -/
def partsPushNames : List (ℕ × Pat) → List Symbol
  | [] => []
  | (_, pat) :: parts => pat.pushNames ++ partsPushNames parts

variable {eqFloat tags} {c : Compiler} {st : List Val}

theorem partsMatch_cons {slot : ℕ} {pat : Pat} {parts : List (ℕ × Pat)}
    (h : partsMatch eqFloat tags st ((slot, pat) :: parts) = true) :
    ∃ v, slotVal st slot = some v ∧ pat.matches eqFloat tags v = true ∧
      partsMatch eqFloat tags st parts = true := by
  rw [partsMatch, Bool.and_eq_true, Option.any_eq_true] at h
  obtain ⟨⟨v, hv, hmatch⟩, hrest⟩ := h
  exact ⟨v, hv, hmatch, hrest⟩

theorem partsPushes_names {parts : List (ℕ × Pat)}
    (h : partsMatch eqFloat tags st parts = true) :
    (partsPushes st parts).map (·.1) = partsPushNames parts := by
  induction parts with
  | nil => rfl
  | cons part parts ih =>
    obtain ⟨slot, pat⟩ := part
    obtain ⟨v, hv, hmatch, hrest⟩ := partsMatch_cons h
    rw [partsPushes, partsPushNames, hv, List.map_append, ih hrest]
    exact congrArg (· ++ _) (pushes_names eqFloat tags pat v hmatch)

variable (eqFloat tags)

theorem compilePatternTests_spec (parts : List (ℕ × Pat)) (c : Compiler) :
    Gives (compilePatternTests parts) c fun tests c' => SameLocals c c' ∧
      ∀ st, Aligned tags c st → PartsFit tags st parts →
        Tested eqFloat tests (partsMatch eqFloat tags st parts) st := by
  induction parts generalizing c with
  | nil => exact ⟨.refl c, fun st _ _ => .nil st⟩
  | cons part parts ih =>
    obtain ⟨slot, pat⟩ := part
    rw [compilePatternTests]
    refine (compilePatternTest_spec eqFloat tags pat slot c).bind fun test c₁ htest => ?_
    refine (ih c₁).bind fun tests c₂ htests => ?_
    refine ⟨htest.1.trans htests.1, fun st ha hfits => ?_⟩
    obtain ⟨v, hv, hfit⟩ := hfits _ (.head _)
    rw [partsMatch, hv]
    exact (htest.2 st v ha hv hfit).append fun _ =>
      htests.2 st (htest.1.aligned ha) fun part hpart => hfits part (.tail _ hpart)

theorem compilePatternBinds_spec (parts : List (ℕ × Pat)) (c : Compiler) :
    Gives (compilePatternBinds parts) c fun code c' => AddsLocals c c' (partsPushNames parts) ∧
      ∀ st vs, (vs ++ st).length = c.ctx.locals.length → partsMatch eqFloat tags st parts = true →
        RunsTo eqFloat code (vs ++ st) (pushedVals (partsPushes st parts) ++ (vs ++ st)) := by
  induction parts generalizing c with
  | nil => exact ⟨.refl c, fun st vs _ _ => .nil⟩
  | cons part parts ih =>
    obtain ⟨slot, pat⟩ := part
    rw [compilePatternBinds]
    refine (compilePatternBind_spec eqFloat tags pat slot c).bind fun bind c₁ hbind => ?_
    refine (ih c₁).bind fun binds c₂ hbinds => ?_
    refine ⟨hbind.1.trans hbinds.1, fun st vs hlen hmatch => ?_⟩
    obtain ⟨v, hv, hpat, hrest⟩ := partsMatch_cons hmatch
    have hrun := hbind.2 (vs ++ st) v hlen (slotVal_append vs hv) hpat
    have hrestRun := hbinds.2 st (pushedVals (pat.pushes v) ++ vs) (by
      rw [hbind.1.length, ← pushes_names eqFloat tags pat v hpat, List.append_assoc,
        List.length_append, hlen]
      simp [pushedVals]) hrest
    rw [List.append_assoc] at hrestRun
    simpa [partsPushes, hv, pushedVals] using hrun.append hrestRun

end Parts

section EndScope

variable {eqFloat : UInt64 → UInt64 → Bool} {c : Compiler}

theorem stepCode_nil (st : List Val) : stepCode eqFloat ([], st) = none := rfl

/-- Code that has been run to its end has been run in one way. -/
theorem reaches_nil_unique {a : Code × List Val} {st st' : List Val}
    (h : LeadsTo eqFloat a ([], st)) (h' : LeadsTo eqFloat a ([], st')) : st = st' := by
  induction h using Relation.ReflTransGen.head_induction_on with
  | refl =>
    rcases Relation.ReflTransGen.cases_head h' with heq | ⟨b, hb, -⟩
    · exact (Prod.ext_iff.mp heq).2
    · simp [stepCode_nil] at hb
  | @head a b hab _ ih =>
    rcases Relation.ReflTransGen.cases_head h' with heq | ⟨b', hb', hrest⟩
    · rw [heq, stepCode_nil] at hab
      cases hab
    · rw [hab, Option.some.injEq] at hb'
      exact ih (hb' ▸ hrest)

/-- `end_scope_keep_result` runs: the value on top replaces `n` others. -/
theorem runsTo_endScope {st : List Val} {n : ℕ} (hn : n ≤ st.length) (v : Val) :
    RunsTo eqFloat (if 0 < n then [.endScope (st.length - n) n] else []) (v :: st)
      (v :: st.drop n) := by
  split
  · next hpos =>
    refine .cons ?_ .nil
    rw [Instr.exec, if_pos ⟨by omega, hn⟩]
    have hlt : n - 1 < st.length := by omega
    have hset : (st.reverse.set (st.length - n) v).reverse = st.set (n - 1) v := by
      apply List.ext_getElem (by simp)
      intro i h₁ h₂
      simp only [List.length_reverse, List.length_set] at h₁ h₂
      rw [List.getElem_reverse, List.getElem_set, List.getElem_set]
      simp only [List.length_set, List.length_reverse, List.getElem_reverse]
      by_cases hi : n - 1 = i
      · rw [if_pos hi, if_pos (by omega)]
      · rw [if_neg hi, if_neg (by omega)]
        congr 1
        omega
    rw [hset, List.drop_eq_getElem_cons (by simpa using hlt), List.getElem_set_self,
      Nat.sub_add_cancel hpos, List.drop_set_of_lt (by omega)]
  · next hpos =>
    have hzero : n = 0 := by omega
    subst hzero
    exact .nil

end EndScope

/-! ## The first branch that matches -/

section Case

variable (eqFloat : UInt64 → UInt64 → Bool) (tags : Symbol → Option ℕ)

/-- Generation does not declare the constructors of `tags` again. -/
def KeepsTags {α : Type} (g : Gen α) : Prop :=
  ∀ c, KnowsTags tags c → Gives g c fun _ c' => KnowsTags tags c'

/-- From a body's value on top of a stack that holds what the compiler's locals say, `c₂`, the case
ends with the value on the stack that it began with. -/
def EndsWell (c₂ : Compiler) (tail : Code) (st : List Val) : Prop :=
  ∀ ws v k, (ws ++ st).length = c₂.ctx.locals.length →
    LeadsTo eqFloat (tail ++ k, v :: (ws ++ st)) (k, v :: st)

/-- Above the locals of `c` there are only those of the scope of a branch. -/
def LeavesScope (c c₂ : Compiler) : Prop :=
  ∃ inner, c₂.ctx.locals = inner ++ c.ctx.locals ∧
    ∀ l ∈ inner, l.depth = c.ctx.scopeDepth + 1

/-- The code of the case leads to the code of a body, under which the patterns have pushed what they
bind; it ends well where the body leaves only locals of the branch. -/
def RunsBranch (c : Compiler) (code : Code) (st : List Val) (parts : List (ℕ × Pat))
    (body : Gen Code) : Prop :=
  ∃ c₁ c₂ bodyCode tail, body c₁ = .ok bodyCode c₂ ∧
    c₁.ctx.locals = ((partsPushNames parts).map fun name =>
      ⟨name, c.ctx.scopeDepth + 1, false⟩).reverse ++ c.ctx.locals ∧
    (∀ k, LeadsTo eqFloat (code ++ k, st)
      (bodyCode ++ (tail ++ k), pushedVals (partsPushes st parts) ++ st)) ∧
    (EndsWell eqFloat c₂ tail st ↔ LeavesScope c c₂)

/-- The code of the case runs the first branch that matches, or panics. -/
def CaseRuns (c : Compiler) (code : Code) (st : List Val)
    (branches : List (List (ℕ × Pat) × Gen Code)) : Prop :=
  match branches.find? fun b => partsMatch eqFloat tags st b.1 with
  | none => ∀ k, LeadsTo eqFloat (code ++ k, st) (.panic "non-exhaustive match" :: k, st)
  | some (parts, body) => RunsBranch eqFloat c code st parts body

variable {eqFloat tags}

/-- Only the depth and the locals of the state before a branch matter. -/
theorem RunsBranch.congr {c c' : Compiler} {code code' : Code} {st : List Val}
    {parts : List (ℕ × Pat)} {body : Gen Code} (h : RunsBranch eqFloat c code st parts body)
    (hlocals : c'.ctx.locals = c.ctx.locals) (hdepth : c'.ctx.scopeDepth = c.ctx.scopeDepth)
    (hcode : ∀ k, LeadsTo eqFloat (code' ++ k, st) (code ++ k, st)) :
    RunsBranch eqFloat c' code' st parts body := by
  obtain ⟨c₁, c₂, bodyCode, tail, heq, hc₁, henter, hend⟩ := h
  refine ⟨c₁, c₂, bodyCode, tail, heq, ?_, fun k => (hcode k).trans (henter k), ?_⟩
  · rw [hc₁, hlocals, hdepth]
  · rw [hend, LeavesScope, LeavesScope, hlocals, hdepth]

theorem CaseRuns.congr {c c' : Compiler} {code code' : Code} {st : List Val}
    {branches : List (List (ℕ × Pat) × Gen Code)} (h : CaseRuns eqFloat tags c code st branches)
    (hlocals : c'.ctx.locals = c.ctx.locals) (hdepth : c'.ctx.scopeDepth = c.ctx.scopeDepth)
    (hcode : ∀ k, LeadsTo eqFloat (code' ++ k, st) (code ++ k, st)) :
    CaseRuns eqFloat tags c' code' st branches := by
  unfold CaseRuns at h ⊢
  split
  · next hnone =>
    rw [hnone] at h
    exact fun k => (hcode k).trans (h k)
  · next parts body hsome =>
    rw [hsome] at h
    exact h.congr hlocals hdepth hcode

/-- The locals above a scope: those of depth `d + 1` at the top, and all. -/
theorem takeWhile_depth_length (d : ℕ) (inner base : List Local)
    (hinner : ∀ l ∈ inner, d < l.depth)
    (hbase : base.dropWhile (d < ·.depth) = base) :
    ((inner ++ base).takeWhile (·.depth = d + 1)).length ≤ inner.length ∧
      (((inner ++ base).takeWhile (·.depth = d + 1)).length = inner.length ↔
        ∀ l ∈ inner, l.depth = d + 1) := by
  induction inner with
  | nil =>
    have hnil : base.takeWhile (·.depth = d + 1) = [] := by
      cases base with
      | nil => rfl
      | cons l ls =>
        rw [List.dropWhile_cons] at hbase
        split at hbase
        · have := congrArg List.length hbase
          have hle := (List.dropWhile_suffix (l := ls) (d < ·.depth)).length_le
          simp only [List.length_cons] at this
          omega
        · next hl =>
          rw [List.takeWhile_cons_of_neg]
          simp only [decide_eq_true_eq] at hl ⊢
          omega
    simp [hnil]
  | cons l inner ih =>
    obtain ⟨hle, hiff⟩ := ih fun x hx => hinner x (.tail _ hx)
    by_cases hl : l.depth = d + 1
    · rw [List.cons_append, List.takeWhile_cons_of_pos (by simpa using hl)]
      simp only [List.length_cons, List.mem_cons, forall_eq_or_imp, Nat.add_right_cancel_iff, hiff,
        hl, true_and, and_true]
      omega
    · rw [List.cons_append, List.takeWhile_cons_of_neg (by simpa using hl)]
      simp [hl]

/-- How a branch ends: the scope is closed, and the code of later branches is jumped over. -/
theorem endsWell_iff {c c₂ : Compiler} {st : List Val} {inner : List Local} {skipped : Code}
    (hlen : st.length = c.ctx.locals.length) (hc₂ : c₂.ctx.locals = inner ++ c.ctx.locals)
    (hdepth : c₂.ctx.scopeDepth = c.ctx.scopeDepth + 1)
    (hinner : ∀ l ∈ inner, c.ctx.scopeDepth < l.depth)
    (htop : c.settled c.ctx.scopeDepth = c.ctx.locals) :
    EndsWell eqFloat c₂
      ((if 0 < c₂.ctx.scopeLocals.length then
          [.endScope (c₂.ctx.locals.length - c₂.ctx.scopeLocals.length) c₂.ctx.scopeLocals.length]
        else []) ++ .jump .jump skipped.length :: skipped) st ↔ LeavesScope c c₂ := by
  obtain ⟨hle, hall⟩ := takeWhile_depth_length c.ctx.scopeDepth inner c.ctx.locals hinner htop
  have hn : c₂.ctx.scopeLocals.length =
      ((inner ++ c.ctx.locals).takeWhile (·.depth = c.ctx.scopeDepth + 1)).length := by
    rw [FuncCtx.scopeLocals, hc₂, hdepth]
  generalize c₂.ctx.scopeLocals.length = n at hn ⊢
  rw [← hn] at hle hall
  have hrun : ∀ ws v k, (ws ++ st).length = c₂.ctx.locals.length →
      LeadsTo eqFloat (((if 0 < n then [.endScope (c₂.ctx.locals.length - n) n] else []) ++
        .jump .jump skipped.length :: skipped) ++ k, v :: (ws ++ st))
        (k, v :: (ws ++ st).drop n) := by
    intro ws v k hws
    rw [List.append_assoc, List.cons_append, ← hws]
    refine (runsTo_endScope ?_ v _).trans (LeadsTo.skip rfl rfl .refl)
    rw [hws, hc₂, List.length_append]
    omega
  have hleaves : LeavesScope c c₂ ↔ n = inner.length := by
    rw [hall]
    constructor
    · rintro ⟨inner', heq, hinner'⟩
      rw [hc₂, List.append_cancel_right_eq] at heq
      exact heq ▸ hinner'
    · exact fun h => ⟨inner, hc₂, h⟩
  rw [hleaves]
  constructor
  · -- a body's stack with as many values as the compiler has locals
    intro hends
    have hws : (List.replicate inner.length Val.unit ++ st).length = c₂.ctx.locals.length := by
      rw [hc₂, List.length_append, List.length_append, List.length_replicate, hlen]
    have heq := reaches_nil_unique (hrun _ .unit [] hws) (hends _ .unit [] hws)
    have hlength := congrArg List.length heq
    simp only [List.length_cons, List.length_drop, List.length_append, List.length_replicate]
      at hlength
    omega
  · intro hall ws v k hws
    have hwsLen : ws.length = n := by
      rw [hc₂, List.length_append, List.length_append, hlen] at hws
      omega
    have hdone := hrun ws v k hws
    rw [← hwsLen] at hdone ⊢
    rwa [List.drop_left] at hdone

/-- **The first branch that matches is run**, and a panic where none does. The locals of the compiler
are those before. -/
theorem compileMultiCaseBranches_spec (eqFloat : UInt64 → UInt64 → Bool)
    (tags : Symbol → Option ℕ) (branches : List (List (ℕ × Pat) × Gen Code)) (c : Compiler)
    (htop : c.settled c.ctx.scopeDepth = c.ctx.locals) (hc : KnowsTags tags c)
    (hbodies : ∀ b ∈ branches, Keeps b.2 ∧ KeepsTags tags b.2) :
    Gives (compileMultiCaseBranches branches) c fun code c' => c'.ctx.locals = c.ctx.locals ∧
      ∀ st, st.length = c.ctx.locals.length → (∀ b ∈ branches, PartsFit tags st b.1) →
        CaseRuns eqFloat tags c code st branches := by
  induction branches generalizing c with
  | nil => exact ⟨rfl, fun st _ _ k => .refl⟩
  | cons branch branches ih =>
    obtain ⟨parts, body⟩ := branch
    obtain ⟨hkeeps, htags⟩ := hbodies _ (.head _)
    rw [compileMultiCaseBranches, gives_bind, gives_get, gives_bind]
    -- the scope of the branch
    have hbegin : Gives beginScope c fun _ c' => c'.ctx.locals = c.ctx.locals ∧
        c'.ctx.scopeDepth = c.ctx.scopeDepth + 1 ∧ c'.constructorTags = c.constructorTags :=
      ⟨rfl, rfl, rfl⟩
    refine hbegin.mono fun _ c₀ hstep => ?_
    obtain ⟨hlocals₀, hdepth₀, htags₀⟩ := hstep
    refine (compilePatternTests_spec eqFloat tags parts c₀).bind fun tests c₁ htests => ?_
    refine (compilePatternBinds_spec eqFloat tags parts c₁).bind fun binds c₂ hbinds => ?_
    have htags₂ : KnowsTags tags c₂ := fun sym hsym => by
      rw [hbinds.1.tags, htests.1.tags, htags₀, hc sym hsym]
    refine ((hkeeps _ c₂ rfl).and (htags c₂ htags₂)).eq.bind fun code c₃ hbody => ?_
    obtain ⟨hbody, ⟨hdepth₃, hkept⟩, htags₃⟩ := hbody
    have hdepth₂ : c₂.ctx.scopeDepth = c.ctx.scopeDepth + 1 :=
      hbinds.1.depth.trans (htests.1.depth.trans hdepth₀)
    have hlocals₂ : c₂.ctx.locals = ((partsPushNames parts).map fun name =>
        ⟨name, c.ctx.scopeDepth + 1, false⟩).reverse ++ c.ctx.locals := by
      rw [hbinds.1.locals, scopeLocalsOf, htests.1.locals, htests.1.depth, hdepth₀, hlocals₀]
    -- the body keeps the locals from before the case
    have hsettled : c₃.settled c.ctx.scopeDepth = c.ctx.locals := by
      rw [hkept.locals _ (by omega), Compiler.settled, hlocals₂, List.dropWhile_append_of_pos]
      · exact htop
      · intro l hl
        obtain ⟨name, -, rfl⟩ := List.mem_map.mp (List.mem_reverse.mp hl)
        simp
    have hlocals₃ : c₃.ctx.locals =
        c₃.ctx.locals.takeWhile (c.ctx.scopeDepth < ·.depth) ++ c.ctx.locals := by
      rw [← hsettled, Compiler.settled, List.takeWhile_append_dropWhile]
    generalize hinner : c₃.ctx.locals.takeWhile (c.ctx.scopeDepth < ·.depth) = inner at hlocals₃
    have hdeeper : ∀ l ∈ inner, c.ctx.scopeDepth < l.depth := by
      intro l hl
      rw [← hinner] at hl
      simpa using List.all_eq_true.mp List.all_takeWhile l hl
    obtain ⟨hle, -⟩ := takeWhile_depth_length c.ctx.scopeDepth inner c.ctx.locals hdeeper htop
    have hn : c₃.ctx.scopeLocals.length ≤ inner.length := by
      rw [FuncCtx.scopeLocals, hdepth₃, hdepth₂, hlocals₃]
      exact hle
    -- the scope ends, and the state of the case is restored
    have hend : Gives endScopeKeepResult c₃ fun close c₄ =>
        close = (if 0 < c₃.ctx.scopeLocals.length then
          [.endScope (c₃.ctx.locals.length - c₃.ctx.scopeLocals.length) c₃.ctx.scopeLocals.length]
          else []) ∧ c₄.ctx.locals = c₃.ctx.locals.drop c₃.ctx.scopeLocals.length ∧
        c₄.constructorTags = c₃.constructorTags := ⟨rfl, rfl, rfl⟩
    refine hend.bind fun close c₄ hstep => ?_
    obtain ⟨hclose, hlocals₄, htags₄⟩ := hstep
    have htruncate : Gives (truncateLocals c.ctx.locals.length) c₄ fun _ c₅ =>
        c₅.ctx.locals = c.ctx.locals ∧ c₅.constructorTags = c₄.constructorTags := by
      refine ⟨?_, rfl⟩
      change c₄.ctx.locals.drop _ = _
      rw [hlocals₄, hlocals₃, List.drop_append_of_le_length hn]
      simp
    refine htruncate.bind fun _ c₅ hstep => ?_
    obtain ⟨hlocals₅, htags₅⟩ := hstep
    rw [gives_bind, gives_modifyCtx]
    refine (ih _ ?_ ?_ fun b hb => hbodies b (.tail _ hb)).bind fun rest c₆ hrest => ?_
    · rw [Compiler.settled]
      dsimp only
      rw [hlocals₅]
      exact htop
    · intro sym hsym
      rw [htags₅, htags₄, htags₃ sym hsym]
    refine ⟨hrest.1.trans hlocals₅, fun st hlen hfits => ?_⟩
    have ha₀ : Aligned tags c₀ st :=
      ⟨by rw [hlocals₀, hlen], fun sym hsym => by rw [htags₀, hc sym hsym]⟩
    have htested := htests.2 st ha₀ (hfits _ (.head _))
    have hrestRuns := hrest.2 st (by rw [hlen, ← hlocals₅]) fun b hb => hfits b (.tail _ hb)
    generalize hcleanup : trampolines c.ctx.locals.length (failLocals tests) = cleanup
    generalize htaken : binds ++ code ++ close ++
      [Instr.jump .jump (cleanup.length + rest.length)] = taken
    have hsuffix : trampolines c.ctx.locals.length (failLocals tests) <:+ cleanup :=
      hcleanup ▸ List.suffix_refl _
    cases hm : partsMatch eqFloat tags st parts with
    | true =>
      rw [hm] at htested
      have henter := fun k => patchTests_leads taken (rest ++ k) htested hsuffix
      rw [CaseRuns, List.find?_cons_of_pos (by exact hm)]
      refine ⟨c₂, c₃, code, close ++ .jump .jump (cleanup ++ rest).length :: (cleanup ++ rest),
        hbody, hlocals₂, fun k => ?_, ?_⟩
      · have hbound := hbinds.2 st [] (by rw [htests.1.locals, ← ha₀.length]; rfl) hm
          (code ++ ((close ++ .jump .jump (cleanup ++ rest).length :: (cleanup ++ rest)) ++ k))
        refine LeadsTo.trans ?_ hbound
        rw [← htaken] at henter
        simpa [← htaken] using henter k
      · rw [hclose]
        exact endsWell_iff hlen hlocals₃ (hdepth₃.trans hdepth₂) hdeeper htop
    | false =>
      rw [hm] at htested
      obtain ⟨temps, htested⟩ := htested
      rw [CaseRuns, List.find?_cons_of_neg (by simp [hm])]
      refine hrestRuns.congr hlocals₅.symm rfl fun k => ?_
      have hfail := patchTests_leads taken (rest ++ k) htested hsuffix temps st rfl
        (by rw [List.length_append, hlen, Nat.add_sub_cancel])
      simpa using hfail

end Case

end Hiko
