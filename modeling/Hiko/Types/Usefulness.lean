import Hiko.Types.Exhaustive

/-!
# Useful patterns

A pattern vector is useful after the rows of a matrix if some values of the columns' types match it
and none of the rows. Values are known here by their head constructors only: a type gives the
component types of each of its constructors, and a value splits into its constructor and its
components. The information the algorithm has about a column is right, or it is that of an infinite
domain, and then some value avoids the constructors of the column.

## Main definitions

* `Constructed`: types whose values have head constructors
* `Constructed.Matches`, `Constructed.Typed`: the values and the types of a pattern
* `Constructed.Knows`, `Constructed.Avoids`: what the algorithm knows about a column

## Main results

* `isUseful_of_matches`: a vector that some values match, and no row does, is found useful
* `exists_matches_of_isUseful`: a vector that is found useful has such values
-/

namespace Hiko

/-- Types whose values have head constructors. -/
structure Constructed (τ V : Type) where
  /-- The component types of a constructor of a type. -/
  args : τ → PatCon → Option (List τ)
  /-- The head constructor and the components of a value. -/
  split : V → Option (PatCon × List V)
  /-- The values of a type. -/
  HasTy : V → τ → Prop
  args_of_split : ∀ {v t c vs}, HasTy v t → split v = some (c, vs) →
    ∃ ts, args t c = some ts ∧ List.Forall₂ HasTy vs ts
  exists_split : ∀ {t c ts vs}, args t c = some ts → List.Forall₂ HasTy vs ts →
    ∃ v, HasTy v t ∧ split v = some (c, vs)

namespace Constructed

variable {τ V : Type} (S : Constructed τ V)

mutual

/-- A value matches a pattern. -/
def Matches : SPat → V → Prop
  | .wild, _ => True
  | .con c subs, v => ∃ vs, S.split v = some (c, vs) ∧ MatchesAll subs vs

/-- Values match patterns one by one. -/
def MatchesAll : List SPat → List V → Prop
  | [], vs => vs = []
  | p :: ps, vs => ∃ v rest, vs = v :: rest ∧ Matches p v ∧ MatchesAll ps rest

end

mutual

/-- A pattern of a type, with constructors among those of `ok`. -/
def Typed (ok : PatCon → Prop) : SPat → τ → Prop
  | .wild, _ => True
  | .con c subs, t => ok c ∧ ∃ ts, S.args t c = some ts ∧ AllTyped ok subs ts

/-- Patterns of types one by one. -/
def AllTyped (ok : PatCon → Prop) : List SPat → List τ → Prop
  | [], ts => ts = []
  | p :: ps, ts => ∃ t rest, ts = t :: rest ∧ Typed ok p t ∧ AllTyped ok ps rest

end

/-- The information is that of the type: its constructors are all of them, and all values have
one. -/
structure Knows (info : TypeInfo) (t : τ) : Prop where
  constructors : ∀ c n, (c, n) ∈ info.constructors ↔ ∃ ts, S.args t c = some ts ∧ ts.length = n
  split : ∀ v, S.HasTy v t → (S.split v).isSome = true

/-- The head of a value is not among the constructors of a column. -/
def Avoids (matrix : PatternMatrix) (i : ℕ) (v : V) : Prop :=
  ∀ row ∈ matrix, ∀ c subs, row[i]? = some (.con c subs) → ∀ vs, S.split v ≠ some (c, vs)

/-- The constructors of a column are those of a type, and of `ok`. -/
def ColumnTyped (ok : PatCon → Prop) (matrix : PatternMatrix) (i : ℕ) (t : τ) : Prop :=
  ∀ row ∈ matrix, ∀ c subs, row[i]? = some (.con c subs) →
    ok c ∧ ∃ ts, S.args t c = some ts ∧ ts.length = subs.length

section Vectors

variable {S} {ok : PatCon → Prop} {p : SPat} {ps qs : List SPat} {v : V} {vs ws : List V} {t : τ}
  {ts us : List τ}

@[simp] theorem matches_wild : S.Matches .wild v := by simp [Matches]

@[simp] theorem typed_wild : S.Typed ok .wild t := by simp [Typed]

@[simp] theorem matchesAll_cons :
    S.MatchesAll (p :: ps) (v :: vs) ↔ S.Matches p v ∧ S.MatchesAll ps vs := by
  rw [MatchesAll]
  constructor
  · rintro ⟨v', rest, h, hp, hps⟩
    cases h
    exact ⟨hp, hps⟩
  · exact fun h => ⟨v, vs, rfl, h⟩

@[simp] theorem matchesAll_nil : S.MatchesAll [] vs ↔ vs = [] := by rw [MatchesAll]

@[simp] theorem allTyped_cons :
    S.AllTyped ok (p :: ps) (t :: ts) ↔ S.Typed ok p t ∧ S.AllTyped ok ps ts := by
  rw [AllTyped]
  constructor
  · rintro ⟨t', rest, h, hp, hps⟩
    cases h
    exact ⟨hp, hps⟩
  · exact fun h => ⟨t, ts, rfl, h⟩

@[simp] theorem allTyped_nil : S.AllTyped ok [] ts ↔ ts = [] := by rw [AllTyped]

theorem AllTyped.length (h : S.AllTyped ok ps ts) : ps.length = ts.length := by
  induction ps generalizing ts with
  | nil => simp_all
  | cons p ps ih =>
    rw [AllTyped] at h
    obtain ⟨t, rest, rfl, -, hps⟩ := h
    simp [ih hps]

theorem MatchesAll.length (h : S.MatchesAll ps vs) : ps.length = vs.length := by
  induction ps generalizing vs with
  | nil => simp_all
  | cons p ps ih =>
    rw [MatchesAll] at h
    obtain ⟨v, rest, rfl, -, hps⟩ := h
    simp [ih hps]

theorem AllTyped.append (h : S.AllTyped ok ps ts) (h' : S.AllTyped ok qs us) :
    S.AllTyped ok (ps ++ qs) (ts ++ us) := by
  induction ps generalizing ts with
  | nil => simp_all
  | cons p ps ih =>
    rw [AllTyped] at h
    obtain ⟨t, rest, rfl, hp, hps⟩ := h
    simp [hp, ih hps]

theorem matchesAll_append (h : ps.length = vs.length) :
    S.MatchesAll (ps ++ qs) (vs ++ ws) ↔ S.MatchesAll ps vs ∧ S.MatchesAll qs ws := by
  induction ps generalizing vs with
  | nil =>
    obtain rfl := List.eq_nil_of_length_eq_zero h.symm
    simp
  | cons p ps ih =>
    cases vs with
    | nil => simp at h
    | cons v vs => simp [ih (Nat.succ.inj h), and_assoc]

theorem matchesAll_replicate_wild : S.MatchesAll (List.replicate vs.length .wild) vs := by
  induction vs with
  | nil => simp
  | cons v vs ih => simp [List.replicate_succ, ih]

theorem allTyped_replicate_wild : S.AllTyped ok (List.replicate ts.length .wild) ts := by
  induction ts with
  | nil => simp
  | cons t ts ih => simp [List.replicate_succ, ih]

theorem matches_con_of_split {c c' : PatCon} {subs : List SPat} (h : S.split v = some (c, vs)) :
    S.Matches (.con c' subs) v ↔ c' = c ∧ S.MatchesAll subs vs := by
  simp only [Matches, h, Option.some.injEq, Prod.mk.injEq]
  constructor
  · rintro ⟨ws, ⟨rfl, rfl⟩, hm⟩
    exact ⟨rfl, hm⟩
  · rintro ⟨rfl, hm⟩
    exact ⟨vs, ⟨rfl, rfl⟩, hm⟩

end Vectors

section Matrices

variable {S} {ok : PatCon → Prop} {matrix : PatternMatrix} {row row' : List SPat} {c : PatCon}
  {v : V} {vs ws : List V} {t : τ} {ts us : List τ}

/-- A row matches a value with head `c` as its specialization matches the components. -/
theorem matchesAll_specializeRow (hrow : S.AllTyped ok row (t :: ts))
    (hargs : S.args t c = some us) (hsplit : S.split v = some (c, ws))
    (hlen : ws.length = us.length) :
    S.MatchesAll row (v :: vs) ↔
      ∃ row', specializeRow c us.length row = some row' ∧ S.MatchesAll row' (ws ++ vs) := by
  rw [← hlen]
  match row, hrow with
  | .wild :: rest, hrow =>
    simp only [specializeRow, Option.some.injEq, exists_eq_left', matchesAll_cons, matches_wild,
      true_and, matchesAll_append (List.length_replicate), matchesAll_replicate_wild]
  | .con rc subs :: rest, hrow =>
    simp only [matchesAll_cons, matches_con_of_split hsplit, specializeRow]
    by_cases hrc : rc = c
    · subst hrc
      simp only [allTyped_cons, Typed, hargs, Option.some.injEq] at hrow
      obtain ⟨⟨-, us', rfl, hsubs⟩, -⟩ := hrow
      simp [matchesAll_append (hsubs.length.trans hlen.symm)]
    · simp [hrc]

/-- The specialization of a typed row. -/
theorem AllTyped.specializeRow (hrow : S.AllTyped ok row (t :: ts)) (hargs : S.args t c = some us)
    (h : specializeRow c us.length row = some row') : S.AllTyped ok row' (us ++ ts) := by
  match row, hrow with
  | .wild :: rest, hrow =>
    cases h
    simp only [allTyped_cons, typed_wild, true_and] at hrow
    exact allTyped_replicate_wild.append hrow
  | .con rc subs :: rest, hrow =>
    simp only [Hiko.specializeRow] at h
    split at h
    · next hrc =>
      subst hrc
      cases h
      simp only [allTyped_cons, Typed, hargs, Option.some.injEq] at hrow
      obtain ⟨⟨-, us', rfl, hsubs⟩, hrest⟩ := hrow
      exact hsubs.append hrest
    · cases h

/-- A row whose head is no constructor of the value is matched through its rest. -/
theorem matchesAll_defaultRow (h : S.MatchesAll row (v :: vs))
    (hhead : ∀ c subs, row[0]? = some (.con c subs) → ∀ ws, S.split v ≠ some (c, ws)) :
    ∃ row', defaultRow row = some row' ∧ S.MatchesAll row' vs := by
  match row, h with
  | .wild :: rest, h =>
    rw [matchesAll_cons] at h
    exact ⟨rest, rfl, h.2⟩
  | .con c subs :: rest, h =>
    simp only [matchesAll_cons, Matches] at h
    obtain ⟨⟨ws, hsplit, -⟩, -⟩ := h
    exact absurd hsplit (hhead c subs rfl ws)

theorem defaultRow_eq_some : defaultRow row = some row' ↔ row = .wild :: row' := by
  match row with
  | [] => simp [defaultRow]
  | .wild :: rest => simp [defaultRow]
  | .con c subs :: rest => simp [defaultRow]

theorem mem_specializeMatrix {n : ℕ} :
    row' ∈ specializeMatrix matrix c n ↔ ∃ row ∈ matrix, specializeRow c n row = some row' := by
  simp [specializeMatrix]

theorem mem_defaultMatrix : row' ∈ defaultMatrix matrix ↔ (.wild :: row') ∈ matrix := by
  simp [defaultMatrix, defaultRow_eq_some]

theorem mem_headConstructors :
    c ∈ headConstructors matrix ↔ ∃ row ∈ matrix, ∃ subs, row[0]? = some (.con c subs) := by
  simp only [headConstructors, List.mem_filterMap]
  apply exists_congr
  intro row
  apply and_congr_right
  intro _
  cases row with
  | nil => simp
  | cons p rest => cases p <;> simp

/-- A column of a typed matrix. -/
theorem columnTyped_of_allTyped (h : ∀ row ∈ matrix, S.AllTyped ok row ts) {i : ℕ}
    (hi : ts[i]? = some t) : S.ColumnTyped ok matrix i t := by
  intro row hmem c subs hc
  have hrow := h row hmem
  clear h hmem
  induction row generalizing ts i with
  | nil => simp at hc
  | cons p ps ih =>
    rw [AllTyped] at hrow
    obtain ⟨u, rest, rfl, hp, hps⟩ := hrow
    cases i with
    | zero =>
      simp only [List.getElem?_cons_zero, Option.some.injEq] at hc hi
      subst hc hi
      rw [Typed] at hp
      obtain ⟨hok, us, hargs, hsubs⟩ := hp
      exact ⟨hok, us, hargs, hsubs.length.symm⟩
    | succ i => exact ih (by simpa using hi) (by simpa using hc) hps

/-- A later column after a specialization. -/
theorem Avoids.specializeMatrix {i : ℕ} (hrows : ∀ row ∈ matrix, S.AllTyped ok row (t :: ts))
    (hargs : S.args t c = some us) (h : S.Avoids matrix (i + 1) v) :
    S.Avoids (specializeMatrix matrix c us.length) (us.length + i) v := by
  intro row' hrow' c' subs' hc'
  obtain ⟨row, hrow, hspec⟩ := mem_specializeMatrix.mp hrow'
  apply h row hrow c' subs'
  have htyped := hrows row hrow
  clear hrow hrow' hrows h
  match row, htyped, hspec with
  | .wild :: rest, _, hspec =>
    cases hspec
    simpa [List.getElem?_append_right] using hc'
  | .con rc subs :: rest, htyped, hspec =>
    by_cases hrc : rc = c
    · subst hrc
      simp only [Hiko.specializeRow, if_true, Option.some.injEq] at hspec
      simp only [allTyped_cons, Typed, hargs, Option.some.injEq] at htyped
      obtain ⟨⟨-, us', rfl, hsubs⟩, -⟩ := htyped
      rw [← hspec, ← hsubs.length] at hc'
      simpa [List.getElem?_append_right] using hc'
    · simp [Hiko.specializeRow, hrc] at hspec

theorem Avoids.defaultMatrix {i : ℕ} (h : S.Avoids matrix (i + 1) v) :
    S.Avoids (defaultMatrix matrix) i v := by
  intro row' hrow' c' subs' hc'
  exact h _ (mem_defaultMatrix.mp hrow') c' subs' (by simpa using hc')

end Matrices

/-! ## The algorithm -/

/-- What is inferred from a column of constructors of a type is right where it is finite. -/
def InfersWell (ok : PatCon → Prop) (dt : DtMap) : Prop :=
  ∀ matrix i t, S.ColumnTyped ok matrix i t →
    (inferTypeInfoFromColumn matrix i dt).isFinite = true →
      S.Knows (inferTypeInfoFromColumn matrix i dt) t

/-- Where it is infinite, some value of the type avoids the column. -/
def LeavesValue (ok : PatCon → Prop) (dt : DtMap) (P : τ → Prop) : Prop :=
  ∀ matrix i t, P t → S.ColumnTyped ok matrix i t →
    (inferTypeInfoFromColumn matrix i dt).isFinite = false → ∃ v, S.HasTy v t ∧ S.Avoids matrix i v

/-- The finite information of the columns is right. -/
def KnowsAll (infos : List TypeInfo) (ts : List τ) : Prop :=
  ∀ (i : ℕ) info t, infos[i]? = some info → ts[i]? = some t → info.isFinite = true →
    S.Knows info t

/-- The columns with infinite information are avoided by some value. -/
def AvoidsAll (matrix : PatternMatrix) (infos : List TypeInfo) (ts : List τ) : Prop :=
  ∀ (i : ℕ) info t, infos[i]? = some info → ts[i]? = some t → info.isFinite = false →
    ∃ v, S.HasTy v t ∧ S.Avoids matrix i v

section Useful

variable {S} {ok : PatCon → Prop} {dt : DtMap} {P : τ → Prop} {matrix : PatternMatrix} {c : PatCon}
  {infos : List TypeInfo} {t : τ} {ts us : List τ}

theorem columnInfos_length (matrix : PatternMatrix) (n : ℕ) :
    (columnInfos matrix n dt).length = n := by
  simp [columnInfos]

/-- The information after a specialization: inferred for the components, as before for the other
columns. -/
theorem getElem?_specialized {i : ℕ} {info : TypeInfo} {u : τ}
    (hi : (columnInfos matrix us.length dt ++ infos.tail)[i]? = some info)
    (hu : (us ++ ts)[i]? = some u) :
    (i < us.length ∧ info = inferTypeInfoFromColumn matrix i dt) ∨
      ∃ j, i = us.length + j ∧ infos[j + 1]? = some info ∧ (t :: ts)[j + 1]? = some u := by
  rcases Nat.lt_or_ge i us.length with hlt | hge
  · left
    rw [List.getElem?_append_left (by rwa [columnInfos_length])] at hi
    simp only [columnInfos, List.getElem?_map, List.getElem?_range hlt, Option.map_some,
      Option.some.injEq] at hi
    exact ⟨hlt, hi.symm⟩
  · right
    obtain ⟨j, rfl⟩ := Nat.exists_eq_add_of_le hge
    rw [List.getElem?_append_right (by rw [columnInfos_length]; omega), columnInfos_length] at hi
    rw [List.getElem?_append_right (by omega)] at hu
    refine ⟨j, rfl, ?_, ?_⟩
    · simpa using hi
    · simpa using hu

theorem typed_specializeMatrix (hrows : ∀ row ∈ matrix, S.AllTyped ok row (t :: ts))
    (hargs : S.args t c = some us) :
    ∀ row ∈ specializeMatrix matrix c us.length, S.AllTyped ok row (us ++ ts) := by
  intro row' hrow'
  obtain ⟨row, hrow, hspec⟩ := mem_specializeMatrix.mp hrow'
  exact (hrows row hrow).specializeRow hargs hspec

theorem typed_defaultMatrix (hrows : ∀ row ∈ matrix, S.AllTyped ok row (t :: ts)) :
    ∀ row ∈ defaultMatrix matrix, S.AllTyped ok row ts := by
  intro row hrow
  have := hrows _ (mem_defaultMatrix.mp hrow)
  rw [allTyped_cons] at this
  exact this.2

theorem KnowsAll.specialize (hinfer : S.InfersWell ok dt)
    (hrows : ∀ row ∈ matrix, S.AllTyped ok row (t :: ts)) (hargs : S.args t c = some us)
    (h : S.KnowsAll infos (t :: ts)) :
    S.KnowsAll (columnInfos (specializeMatrix matrix c us.length) us.length dt ++ infos.tail)
      (us ++ ts) := by
  intro i info u hi hu hfin
  rcases getElem?_specialized (t := t) hi hu with ⟨-, rfl⟩ | ⟨j, rfl, hj, hj'⟩
  · exact hinfer _ _ _ (columnTyped_of_allTyped (typed_specializeMatrix hrows hargs) hu) hfin
  · exact h _ _ _ hj hj' hfin

theorem KnowsAll.tail (h : S.KnowsAll infos (t :: ts)) : S.KnowsAll infos.tail ts := by
  intro i info u hi hu
  exact h (i + 1) info u (by simpa using hi) (by simpa using hu)

theorem AvoidsAll.specialize (hleave : S.LeavesValue ok dt P) (hP : ∀ u ∈ us, P u)
    (hrows : ∀ row ∈ matrix, S.AllTyped ok row (t :: ts)) (hargs : S.args t c = some us)
    (h : S.AvoidsAll matrix infos (t :: ts)) :
    S.AvoidsAll (specializeMatrix matrix c us.length)
      (columnInfos (specializeMatrix matrix c us.length) us.length dt ++ infos.tail)
      (us ++ ts) := by
  intro i info u hi hu hinf
  rcases getElem?_specialized (t := t) hi hu with ⟨hlt, rfl⟩ | ⟨j, rfl, hj, hj'⟩
  · rw [List.getElem?_append_left hlt] at hu
    apply hleave _ _ _ (hP u (List.mem_of_getElem? hu)) _ hinf
    apply columnTyped_of_allTyped (typed_specializeMatrix hrows hargs)
    rw [List.getElem?_append_left hlt, hu]
  · obtain ⟨v, hv, havoid⟩ := h _ _ _ hj hj' hinf
    exact ⟨v, hv, havoid.specializeMatrix hrows hargs⟩

theorem AvoidsAll.defaultMatrix (h : S.AvoidsAll matrix infos (t :: ts)) :
    S.AvoidsAll (defaultMatrix matrix) infos.tail ts := by
  intro i info u hi hu hinf
  obtain ⟨v, hv, havoid⟩ := h (i + 1) info u (by simpa using hi) (by simpa using hu) hinf
  exact ⟨v, hv, havoid.defaultMatrix⟩

/-- A vector that some values match, and no row does, is found useful. -/
theorem isUseful_of_matches (hinfer : S.InfersWell ok dt) (matrix : PatternMatrix) (q : List SPat)
    (infos : List TypeInfo) : ∀ (ts : List τ) (vs : List V),
    (∀ row ∈ matrix, S.AllTyped ok row ts) → S.AllTyped ok q ts → S.KnowsAll infos ts →
    List.Forall₂ S.HasTy vs ts → S.MatchesAll q vs → (∀ row ∈ matrix, ¬ S.MatchesAll row vs) →
    isUseful matrix q infos dt = true := by
  induction matrix, q, infos using isUseful.induct dt with
  | case1 matrix infos =>
    intro ts vs hrows hq _ _ hvs hnone
    rw [matchesAll_nil] at hvs
    rw [allTyped_nil] at hq
    subst hvs hq
    -- rows without columns match
    cases matrix with
    | nil => rw [isUseful, List.isEmpty_nil]
    | cons row rest =>
      have hlen := (hrows row (.head _)).length
      obtain rfl := List.eq_nil_of_length_eq_zero hlen
      exact absurd (matchesAll_nil.mpr rfl) (hnone [] (.head _))
  | case2 matrix infos c subs rest sMatrix ih =>
    intro ts vs hrows hq hknows hvs hmatch hnone
    rw [AllTyped] at hq
    obtain ⟨t, ts, rfl, hhead, hrest⟩ := hq
    rw [Typed] at hhead
    obtain ⟨-, us, hargs, hsubs⟩ := hhead
    cases hvs with
    | @cons v _ vs _ hv hvs =>
      rw [matchesAll_cons, Matches] at hmatch
      obtain ⟨⟨ws, hsplit, hws⟩, hmatch⟩ := hmatch
      obtain ⟨us', hargs', hwty⟩ := S.args_of_split hv hsplit
      obtain rfl := Option.some.inj (hargs.symm.trans hargs')
      have hlen := hsubs.length
      rw [isUseful]
      simp only [sMatrix, hlen] at ih ⊢
      apply ih (us ++ ts) (ws ++ vs) (typed_specializeMatrix hrows hargs) (hsubs.append hrest)
        (hknows.specialize hinfer hrows hargs) (List.rel_append hwty hvs)
      · exact (matchesAll_append (hws.length)).mpr ⟨hws, hmatch⟩
      · intro row' hrow' hm
        obtain ⟨row, hrow, hspec⟩ := mem_specializeMatrix.mp hrow'
        apply hnone row hrow
        rw [matchesAll_specializeRow (hrows row hrow) hargs hsplit hwty.length_eq]
        exact ⟨row', hspec, hm⟩
  | case3 matrix infos rest ti hall ih =>
    intro ts vs hrows hq hknows hvs hmatch hnone
    rw [AllTyped] at hq
    obtain ⟨t, ts, rfl, -, hrest⟩ := hq
    cases hvs with
    | @cons v _ vs _ hv hvs =>
      rw [matchesAll_cons] at hmatch
      obtain ⟨info, hinfo⟩ : ∃ info, infos[0]? = some info := by
        cases infos with
        | nil => cases hall.1
        | cons info more => exact ⟨info, rfl⟩
      have hti : ti = info := by simp [ti, List.headD_eq_head?_getD, List.head?_eq_getElem?, hinfo]
      have hinf := hknows 0 info t hinfo rfl (hti ▸ hall.1)
      -- the constructor of the value is one of the column's
      obtain ⟨⟨c, ws⟩, hsplit⟩ := Option.isSome_iff_exists.mp (hinf.split v hv)
      obtain ⟨us, hargs, hwty⟩ := S.args_of_split hv hsplit
      have hmem : (c, us.length) ∈ ti.constructors := by
        rw [hti]
        exact (hinf.constructors c us.length).mpr ⟨us, hargs, rfl⟩
      rw [isUseful, dif_pos hall, List.any_eq_true]
      refine ⟨⟨(c, us.length), hmem⟩, List.mem_attach _ _, ?_⟩
      apply ih ⟨(c, us.length), hmem⟩ (us ++ ts) (ws ++ vs) (typed_specializeMatrix hrows hargs)
        (allTyped_replicate_wild.append hrest) (hknows.specialize hinfer hrows hargs)
        (List.rel_append hwty hvs)
      · dsimp only
        rw [matchesAll_append (by rw [List.length_replicate, hwty.length_eq]), ← hwty.length_eq]
        exact ⟨matchesAll_replicate_wild, hmatch.2⟩
      · intro row' hrow' hm
        obtain ⟨row, hrow, hspec⟩ := mem_specializeMatrix.mp hrow'
        apply hnone row hrow
        rw [matchesAll_specializeRow (hrows row hrow) hargs hsplit hwty.length_eq]
        exact ⟨row', hspec, hm⟩
  | case4 matrix infos rest ti hnot ih =>
    intro ts vs hrows hq hknows hvs hmatch hnone
    rw [AllTyped] at hq
    obtain ⟨t, ts, rfl, -, hrest⟩ := hq
    cases hvs with
    | @cons v _ vs _ hv hvs =>
      rw [matchesAll_cons] at hmatch
      rw [isUseful, dif_neg hnot]
      apply ih ts vs (typed_defaultMatrix hrows) hrest hknows.tail hvs hmatch.2
      intro row hrow hm
      apply hnone _ (mem_defaultMatrix.mp hrow)
      rw [matchesAll_cons]
      exact ⟨matches_wild, hm⟩

/-- A value with head `c`, from its components. -/
theorem exists_matches_of_specialized {q rest : List SPat} (subs : List SPat)
    (hrows : ∀ row ∈ matrix, S.AllTyped ok row (t :: ts)) (hargs : S.args t c = some us)
    (hsubs : subs.length = us.length)
    (hq : ∀ v ws, S.split v = some (c, ws) → S.MatchesAll subs ws → ∀ vs, S.MatchesAll rest vs →
      S.MatchesAll q (v :: vs))
    (h : ∃ vs, List.Forall₂ S.HasTy vs (us ++ ts) ∧ S.MatchesAll (subs ++ rest) vs ∧
      ∀ row ∈ specializeMatrix matrix c us.length, ¬ S.MatchesAll row vs) :
    ∃ vs, List.Forall₂ S.HasTy vs (t :: ts) ∧ S.MatchesAll q vs ∧
      ∀ row ∈ matrix, ¬ S.MatchesAll row vs := by
  obtain ⟨all, hall, hmatch, hnone⟩ := h
  obtain ⟨ws, vs, hws, hvs, rfl⟩ : ∃ ws vs, List.Forall₂ S.HasTy ws us ∧
      List.Forall₂ S.HasTy vs ts ∧ all = ws ++ vs := by
    refine ⟨all.take us.length, all.drop us.length, ?_, ?_, (List.take_append_drop _ _).symm⟩
    · simpa using List.forall₂_take us.length hall
    · simpa using List.forall₂_drop us.length hall
  rw [matchesAll_append (hsubs.trans hws.length_eq.symm)] at hmatch
  obtain ⟨v, hv, hsplit⟩ := S.exists_split hargs hws
  refine ⟨v :: vs, .cons hv hvs, hq v ws hsplit hmatch.1 vs hmatch.2, ?_⟩
  intro row hrow hm
  rw [matchesAll_specializeRow (hrows row hrow) hargs hsplit hws.length_eq] at hm
  obtain ⟨row', hspec, hm⟩ := hm
  exact hnone row' (mem_specializeMatrix.mpr ⟨row, hrow, hspec⟩) hm

theorem exists_forall₂_hasTy (hinh : ∀ t, P t → ∃ v, S.HasTy v t) :
    ∀ {us : List τ}, (∀ u ∈ us, P u) → ∃ ws, List.Forall₂ S.HasTy ws us
  | [], _ => ⟨[], .nil⟩
  | u :: us, h => by
    obtain ⟨v, hv⟩ := hinh u (h u (.head _))
    obtain ⟨ws, hws⟩ := exists_forall₂_hasTy hinh fun u' hu' => h u' (.tail _ hu')
    exact ⟨v :: ws, .cons hv hws⟩

/-- A column that does not cover its type leaves a value: of a missing constructor, or of an
infinite domain. -/
theorem exists_avoids (hinh : ∀ t, P t → ∃ v, S.HasTy v t)
    (hclosed : ∀ t c us, P t → S.args t c = some us → ∀ u ∈ us, P u) (ht : P t)
    (hlen : infos.length = (t :: ts).length) (hknows : S.KnowsAll infos (t :: ts))
    (havoids : S.AvoidsAll matrix infos (t :: ts))
    (hnot : ¬ ((infos.headD .infinite).isFinite = true ∧
      ∀ e ∈ (infos.headD .infinite).constructors, e.1 ∈ headConstructors matrix)) :
    ∃ v, S.HasTy v t ∧ S.Avoids matrix 0 v := by
  cases infos with
  | nil => simp at hlen
  | cons info more =>
    rw [List.headD_cons] at hnot
    cases hfin : info.isFinite with
    | false => exact havoids 0 info t rfl rfl hfin
    | true =>
      obtain ⟨⟨c, n⟩, hmem, hmissing⟩ : ∃ e ∈ info.constructors, e.1 ∉ headConstructors matrix := by
        by_contra hcon
        apply hnot
        refine ⟨hfin, fun e he => ?_⟩
        by_contra hne
        exact hcon ⟨e, he, hne⟩
      have hinfo := hknows 0 info t rfl rfl hfin
      obtain ⟨us, hargs, -⟩ := (hinfo.constructors c n).mp hmem
      obtain ⟨ws, hws⟩ := exists_forall₂_hasTy hinh (hclosed t c us ht hargs)
      obtain ⟨v, hv, hsplit⟩ := S.exists_split hargs hws
      refine ⟨v, hv, ?_⟩
      intro row hrow c' subs hc' vs hsplit'
      rw [hsplit] at hsplit'
      cases hsplit'
      exact hmissing (mem_headConstructors.mpr ⟨row, hrow, subs, hc'⟩)

/-- A vector that is found useful is matched by values that no row matches. -/
theorem exists_matches_of_isUseful (hinfer : S.InfersWell ok dt) (hleave : S.LeavesValue ok dt P)
    (hinh : ∀ t, P t → ∃ v, S.HasTy v t)
    (hclosed : ∀ t c us, P t → S.args t c = some us → ∀ u ∈ us, P u) (matrix : PatternMatrix)
    (q : List SPat) (infos : List TypeInfo) : ∀ ts : List τ,
    (∀ row ∈ matrix, S.AllTyped ok row ts) → S.AllTyped ok q ts → infos.length = ts.length →
    S.KnowsAll infos ts → S.AvoidsAll matrix infos ts → (∀ t ∈ ts, P t) →
    isUseful matrix q infos dt = true →
    ∃ vs, List.Forall₂ S.HasTy vs ts ∧ S.MatchesAll q vs ∧
      ∀ row ∈ matrix, ¬ S.MatchesAll row vs := by
  induction matrix, q, infos using isUseful.induct dt with
  | case1 matrix infos =>
    intro ts hrows hq _ _ _ _ huse
    rw [allTyped_nil] at hq
    subst hq
    rw [isUseful, List.isEmpty_iff] at huse
    subst huse
    exact ⟨[], .nil, matchesAll_nil.mpr rfl, by simp⟩
  | case2 matrix infos c subs rest sMatrix ih =>
    intro ts hrows hq hlen hknows havoids hP huse
    rw [AllTyped] at hq
    obtain ⟨t, ts, rfl, hhead, hrest⟩ := hq
    rw [Typed] at hhead
    obtain ⟨-, us, hargs, hsubs⟩ := hhead
    have hn := hsubs.length
    have hPus := hclosed t c us (hP t (.head _)) hargs
    rw [isUseful] at huse
    simp only [sMatrix, hn] at ih huse
    apply exists_matches_of_specialized subs hrows hargs hn
    · intro v ws hsplit hws vs hvs
      rw [matchesAll_cons, matches_con_of_split hsplit]
      exact ⟨⟨rfl, hws⟩, hvs⟩
    · apply ih (us ++ ts) (typed_specializeMatrix hrows hargs) (hsubs.append hrest) _
        (hknows.specialize hinfer hrows hargs) (havoids.specialize hleave hPus hrows hargs) _ huse
      · simp only [List.length_append, columnInfos_length, List.length_tail, hlen,
          List.length_cons]
        omega
      · intro u hu
        rcases List.mem_append.mp hu with hu | hu
        · exact hPus u hu
        · exact hP u (.tail _ hu)
  | case3 matrix infos rest ti hall ih =>
    intro ts hrows hq hlen hknows havoids hP huse
    rw [AllTyped] at hq
    obtain ⟨t, ts, rfl, -, hrest⟩ := hq
    rw [isUseful, dif_pos hall, List.any_eq_true] at huse
    obtain ⟨⟨⟨c, n⟩, hmem⟩, -, huse⟩ := huse
    obtain ⟨info, hinfo⟩ : ∃ info, infos[0]? = some info := by
      cases infos with
      | nil => cases hall.1
      | cons info more => exact ⟨info, rfl⟩
    have hti : ti = info := by simp [ti, List.headD_eq_head?_getD, List.head?_eq_getElem?, hinfo]
    have hinf := hknows 0 info t hinfo rfl (hti ▸ hall.1)
    obtain ⟨us, hargs, rfl⟩ := (hinf.constructors c n).mp (hti ▸ hmem)
    have hPus := hclosed t c us (hP t (.head _)) hargs
    apply exists_matches_of_specialized (List.replicate us.length .wild) hrows hargs
      List.length_replicate
    · intro v ws _ _ vs hvs
      rw [matchesAll_cons]
      exact ⟨matches_wild, hvs⟩
    · apply ih ⟨(c, us.length), hmem⟩ (us ++ ts) (typed_specializeMatrix hrows hargs)
        (allTyped_replicate_wild.append hrest) _ (hknows.specialize hinfer hrows hargs)
        (havoids.specialize hleave hPus hrows hargs) _ huse
      · simp only [List.length_append, columnInfos_length, List.length_tail, hlen,
          List.length_cons]
        omega
      · intro u hu
        rcases List.mem_append.mp hu with hu | hu
        · exact hPus u hu
        · exact hP u (.tail _ hu)
  | case4 matrix infos rest ti hnot ih =>
    intro ts hrows hq hlen hknows havoids hP huse
    rw [AllTyped] at hq
    obtain ⟨t, ts, rfl, -, hrest⟩ := hq
    rw [isUseful, dif_neg hnot] at huse
    obtain ⟨vs, hvs, hmatch, hnone⟩ := ih ts (typed_defaultMatrix hrows) hrest
      (by simp [hlen]) hknows.tail havoids.defaultMatrix (fun u hu => hP u (.tail _ hu)) huse
    obtain ⟨v, hv, havoid⟩ :=
      exists_avoids hinh hclosed (hP t (.head _)) hlen hknows havoids hnot
    refine ⟨v :: vs, .cons hv hvs, matchesAll_cons.mpr ⟨matches_wild, hmatch⟩, ?_⟩
    intro row hrow hm
    obtain ⟨row', hdef, hm⟩ := matchesAll_defaultRow hm (havoid row hrow)
    apply hnone row' _ hm
    rw [mem_defaultMatrix, ← defaultRow_eq_some.mp hdef]
    exact hrow

end Useful

end Constructed

end Hiko
