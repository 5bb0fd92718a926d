import Hiko.Syntax.Ast

/-!
# Exhaustiveness checking

The usefulness algorithm over matrices of simplified patterns. The constructors of a nested column
are found from the first constructor pattern in it, by a search through the datatypes.

## Main definitions

* `PatCon`, `SPat`, `TypeInfo`: constructors, simplified patterns, and the constructors of a type
* `simplifyPat`: the simplified pattern of a pattern
* `specializeMatrix`, `defaultMatrix`, `inferTypeInfoFromColumn`: the matrices of the recursion
* `isUseful`, `checkMatch`: the algorithm
-/

namespace Hiko

/-- `Constructor`. -/
inductive PatCon where
  | adt (name : String) (tag : ℕ)
  | boolTrue
  | boolFalse
  | unit
  | nil
  | cons
  | tuple (arity : ℕ)
  | intLit (n : Int64)
  | floatBits (bits : UInt64)
  | wordLit (w : UInt64)
  | stringLit (s : String)
  | charLit (c : Char)
  deriving DecidableEq

/-- `SPat`. -/
inductive SPat where
  | wild
  | con (c : PatCon) (subs : List SPat)

/-- `TypeInfo`. -/
structure TypeInfo where
  constructors : List (PatCon × ℕ)
  isFinite : Bool
  deriving DecidableEq

namespace TypeInfo

/-- `bool_type`. -/
def boolType : TypeInfo := ⟨[(.boolTrue, 0), (.boolFalse, 0)], true⟩

/-- `unit_type`. -/
def unitType : TypeInfo := ⟨[(.unit, 0)], true⟩

/-- `list_type`. -/
def listType : TypeInfo := ⟨[(.nil, 0), (.cons, 2)], true⟩

/-- `tuple_type`. -/
def tupleType (arity : ℕ) : TypeInfo := ⟨[(.tuple arity, arity)], true⟩

/-- `adt_type`: the tags are positions, as `u16`. -/
def adtType (constructors : List (String × ℕ)) : TypeInfo :=
  ⟨constructors.zipIdx.map fun e => (.adt e.1.1 (e.2 % 65536), e.1.2), true⟩

/-- `infinite`. -/
def infinite : TypeInfo := ⟨[], false⟩

end TypeInfo

/-- The constructor of a literal pattern. -/
def litCon : Literal → PatCon
  | .int n => .intLit n
  | .float bits => .floatBits bits
  | .word w => .wordLit w
  | .string s => .stringLit s
  | .char c => .charLit c
  | .bool true => .boolTrue
  | .bool false => .boolFalse
  | .unit => .unit

/-- What the checker knows about constructors: `con_tags` and `con_aliases`. -/
structure ConNames where
  tags : String → Option ℕ
  aliases : String → Option String

/-- The constructor a name stands for: an alias is the constructor it names. -/
def ConNames.adtCon (names : ConNames) (sym : String) : PatCon :=
  let canonical := (names.aliases sym).getD sym
  .adt canonical ((names.tags canonical).getD 0)

/-- The pattern of a list, from those of its items. -/
def listSPat : List SPat → SPat
  | [] => .con .nil []
  | p :: ps => .con .cons [p, listSPat ps]

mutual

/-- `simplify_pat`. -/
def simplifyPat (names : ConNames) : Pat → SPat
  | .wildcard => .wild
  | .var _ => .wild
  | .lit l => .con (litCon l) []
  | .con sym => .con (names.adtCon sym) []
  | .conApp sym payload => .con (names.adtCon sym) [simplifyPat names payload]
  | .tuple pats => .con (.tuple pats.length) (simplifyPats names pats)
  | .cons hd tl => .con .cons [simplifyPat names hd, simplifyPat names tl]
  | .list pats => listSPat (simplifyPats names pats)
  | .as _ pat => simplifyPat names pat
  | .paren pat => simplifyPat names pat
  | .ann pat _ => simplifyPat names pat

/-- The simplified patterns of a list of patterns. -/
def simplifyPats (names : ConNames) : List Pat → List SPat
  | [] => []
  | pat :: pats => simplifyPat names pat :: simplifyPats names pats

end

/-- `PatternMatrix`. -/
abbrev PatternMatrix := List (List SPat)

/-- `DtMap`: type names and their constructors, in the order of a hash map. -/
abbrev DtMap := List (String × List (String × ℕ))

/-- `collect_head_constructors`. -/
def headConstructors (matrix : PatternMatrix) : List PatCon :=
  matrix.filterMap fun row =>
    match row with
    | .con c _ :: _ => some c
    | _ => none

/-- A row of `specialize_matrix`. -/
def specializeRow (c : PatCon) (arity : ℕ) : List SPat → Option (List SPat)
  | .con rc subs :: rest => if rc = c then some (subs ++ rest) else none
  | .wild :: rest => some (List.replicate arity .wild ++ rest)
  | [] => none

/-- `specialize_matrix`. -/
def specializeMatrix (matrix : PatternMatrix) (c : PatCon) (arity : ℕ) : PatternMatrix :=
  matrix.filterMap (specializeRow c arity)

/-- A row of `default_matrix`. -/
def defaultRow : List SPat → Option (List SPat)
  | .wild :: rest => some rest
  | _ => none

/-- `default_matrix`. -/
def defaultMatrix (matrix : PatternMatrix) : PatternMatrix := matrix.filterMap defaultRow

/-- The constructor pattern of a row in a column, with the number of its components. -/
def conAt (col : ℕ) (row : List SPat) : Option (PatCon × ℕ) :=
  match row[col]? with
  | some (.con c subs) => some (c, subs.length)
  | _ => none

/-- The fallback of `infer_type_info_from_column`: the datatype constructors of a column. -/
def adtConstructors (matrix : PatternMatrix) (col : ℕ) : List (PatCon × ℕ) :=
  matrix.foldl (fun found row =>
    match conAt col row with
    | some (.adt name tag, arity) =>
      if found.any (·.1 = .adt name tag) then found else found ++ [(.adt name tag, arity)]
    | _ => found) []

/-- `infer_type_info_from_column`. -/
def inferTypeInfoFromColumn (matrix : PatternMatrix) (col : ℕ) (dt : DtMap) : TypeInfo :=
  match matrix.findSome? (conAt col) with
  | none => .infinite
  | some (.boolTrue, _) | some (.boolFalse, _) => .boolType
  | some (.unit, _) => .unitType
  | some (.nil, _) | some (.cons, _) => .listType
  | some (.tuple n, _) => .tupleType n
  | some (.adt name _, _) =>
    match dt.find? fun e => e.2.any (·.1 = name) with
    | some e => .adtType e.2
    | none => ⟨adtConstructors matrix col, true⟩
  | some _ => .infinite

mutual

/-- The constructor patterns in a pattern. -/
def SPat.conCount : SPat → ℕ
  | .wild => 0
  | .con _ subs => 1 + rowCons subs

/-- The constructor patterns in a row. -/
def rowCons : List SPat → ℕ
  | [] => 0
  | p :: ps => p.conCount + rowCons ps

end

/-- The constructor patterns in a matrix. -/
def matrixCons (matrix : PatternMatrix) : ℕ := (matrix.map rowCons).sum

theorem rowCons_append (ps qs : List SPat) : rowCons (ps ++ qs) = rowCons ps + rowCons qs := by
  induction ps with
  | nil => simp [rowCons]
  | cons p ps ih => simp [rowCons, ih, add_assoc]

theorem rowCons_replicate_wild (n : ℕ) : rowCons (List.replicate n .wild) = 0 := by
  induction n with
  | zero => simp [rowCons]
  | succ n ih => simp [List.replicate_succ, rowCons, SPat.conCount, ih]

theorem rowCons_specializeRow_le {c : PatCon} {n : ℕ} {row row' : List SPat}
    (h : specializeRow c n row = some row') : rowCons row' ≤ rowCons row := by
  match row, h with
  | .wild :: rest, h =>
    cases h
    simp [rowCons_append, rowCons_replicate_wild, rowCons, SPat.conCount]
  | .con rc subs :: rest, h =>
    simp only [specializeRow] at h
    split at h
    · cases h
      simp [rowCons_append, rowCons, SPat.conCount]
    · cases h

theorem rowCons_defaultRow_le {row row' : List SPat} (h : defaultRow row = some row') :
    rowCons row' ≤ rowCons row := by
  match row, h with
  | .wild :: rest, h =>
    cases h
    simp [rowCons, SPat.conCount]

/-- A matrix whose rows shrink. -/
theorem matrixCons_filterMap_le {f : List SPat → Option (List SPat)}
    (hf : ∀ row row', f row = some row' → rowCons row' ≤ rowCons row) (matrix : PatternMatrix) :
    matrixCons (matrix.filterMap f) ≤ matrixCons matrix := by
  induction matrix with
  | nil => simp [matrixCons]
  | cons row rest ih =>
    simp only [matrixCons, List.map_cons, List.sum_cons] at ih ⊢
    cases hrow : f row with
    | none =>
      rw [List.filterMap_cons_none hrow]
      omega
    | some row' =>
      rw [List.filterMap_cons_some hrow, List.map_cons, List.sum_cons]
      have := hf row row' hrow
      omega

theorem matrixCons_specializeMatrix_le (c : PatCon) (n : ℕ) (matrix : PatternMatrix) :
    matrixCons (specializeMatrix matrix c n) ≤ matrixCons matrix :=
  matrixCons_filterMap_le (fun _ _ => rowCons_specializeRow_le) matrix

theorem matrixCons_defaultMatrix_le (matrix : PatternMatrix) :
    matrixCons (defaultMatrix matrix) ≤ matrixCons matrix :=
  matrixCons_filterMap_le (fun _ _ => rowCons_defaultRow_le) matrix

/-- A constructor that heads a row is gone after its specialization. -/
theorem matrixCons_specializeMatrix_lt {matrix : PatternMatrix} {c : PatCon} (n : ℕ)
    (h : c ∈ headConstructors matrix) : matrixCons (specializeMatrix matrix c n) <
      matrixCons matrix := by
  induction matrix with
  | nil => simp [headConstructors] at h
  | cons row rest ih =>
    have hle := matrixCons_specializeMatrix_le c n rest
    simp only [specializeMatrix, matrixCons, List.map_cons, List.sum_cons] at ih hle ⊢
    match row, h with
    | .con rc subs :: more, h =>
      by_cases hrc : rc = c
      · have hrow : specializeRow c n (.con rc subs :: more) = some (subs ++ more) := by
          simp [specializeRow, hrc]
        rw [List.filterMap_cons_some hrow, List.map_cons, List.sum_cons, rowCons_append]
        simp only [rowCons, SPat.conCount]
        omega
      · have hrow : specializeRow c n (.con rc subs :: more) = none := by
          simp [specializeRow, hrc]
        have hin : c ∈ headConstructors rest := by
          simp only [headConstructors, List.filterMap_cons, List.mem_cons] at h
          rcases h with h | h
          · exact absurd h.symm hrc
          · exact h
        rw [List.filterMap_cons_none hrow]
        have := ih hin
        omega
    | .wild :: more, h =>
      have hin : c ∈ headConstructors rest := by simpa [headConstructors] using h
      have hrow : specializeRow c n (.wild :: more) = some (List.replicate n .wild ++ more) := rfl
      rw [List.filterMap_cons_some hrow, List.map_cons, List.sum_cons, rowCons_append,
        rowCons_replicate_wild]
      have := ih hin
      simp only [rowCons, SPat.conCount]
      omega
    | [], h =>
      have hin : c ∈ headConstructors rest := by simpa [headConstructors] using h
      have hrow : specializeRow c n [] = none := rfl
      rw [List.filterMap_cons_none hrow]
      have := ih hin
      simp only [rowCons]
      omega

/-- The types of the components of a specialized head. -/
def columnInfos (matrix : PatternMatrix) (arity : ℕ) (dt : DtMap) : List TypeInfo :=
  (List.range arity).map fun i => inferTypeInfoFromColumn matrix i dt

/-- `is_useful`, with `is_useful_specialized` written out for the head of the query. -/
def isUseful (matrix : PatternMatrix) (q : List SPat) (infos : List TypeInfo) (dt : DtMap) : Bool :=
  match q with
  | [] => matrix.isEmpty
  | .con c subs :: rest =>
    let sMatrix := specializeMatrix matrix c subs.length
    isUseful sMatrix (subs ++ rest) (columnInfos sMatrix subs.length dt ++ infos.tail) dt
  | .wild :: rest =>
    let ti := infos.headD .infinite
    if h : ti.isFinite = true ∧ ∀ e ∈ ti.constructors, e.1 ∈ headConstructors matrix then
      ti.constructors.attach.any fun e =>
        let sMatrix := specializeMatrix matrix e.1.1 e.1.2
        isUseful sMatrix (List.replicate e.1.2 .wild ++ rest)
          (columnInfos sMatrix e.1.2 dt ++ infos.tail) dt
    else
      -- a constructor is missing from the column, or the domain is infinite
      isUseful (defaultMatrix matrix) rest infos.tail dt
termination_by (matrixCons matrix + rowCons q, q.length)
decreasing_by
  · have := matrixCons_specializeMatrix_le c subs.length matrix
    apply Prod.Lex.left
    simp only [rowCons_append, rowCons, SPat.conCount]
    omega
  · have := matrixCons_specializeMatrix_lt e.1.2 (h.2 e.1 e.2)
    apply Prod.Lex.left
    simp only [rowCons_append, rowCons_replicate_wild, rowCons, SPat.conCount]
    omega
  · have := matrixCons_defaultMatrix_le matrix
    rcases Nat.lt_or_ge (matrixCons (defaultMatrix matrix) + rowCons rest)
      (matrixCons matrix + rowCons (SPat.wild :: rest)) with hlt | hge
    · exact Prod.Lex.left _ _ hlt
    · have heq : matrixCons (defaultMatrix matrix) + rowCons rest =
          matrixCons matrix + rowCons (SPat.wild :: rest) := by
        simp only [rowCons, SPat.conCount] at hge ⊢
        omega
      rw [heq]
      exact Prod.Lex.right _ (by simp)

/-- `CheckResult`. -/
structure CheckResult where
  exhaustive : Bool
  redundantClauses : List ℕ
  deriving DecidableEq

/-- `check_match`. -/
def checkMatch (names : ConNames) (dt : DtMap) (patterns : List Pat) (info : TypeInfo) :
    CheckResult :=
  let matrix : PatternMatrix := patterns.map fun p => [simplifyPat names p]
  { exhaustive := !isUseful matrix [.wild] [info] dt
    redundantClauses := (List.range matrix.length).filter fun i =>
      !isUseful (matrix.take i) (matrix.getD i []) [info] dt }

end Hiko
