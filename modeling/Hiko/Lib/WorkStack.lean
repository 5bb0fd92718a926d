import Mathlib.Tactic

/-!
# Walks over a graph with an explicit work stack

Two walks that a program writes with a work stack where the recursion could be too deep: measuring
the nodes of a graph, each of them once, with a table of what is measured; and building a tree from
a node, where a node that is shared is built again. Each is compared with the recursion it stands
for. A loop runs on fuel, and gives nothing when it runs out; a recursion runs on a depth.

Both recursions end where the graph has no cycle.

## Main definitions

* `Measuring`, `Measuring.loop`, `Measuring.node`: the measuring walk, and its recursion
* `Building`, `Building.run`, `Building.build`: the building walk, and its recursion

## Main results

* `acc_iff_no_cycle`: the nodes from which every path ends
* `Measuring.loop_ok`, `loop_error`, `gives_of_loop`: the loop ends as the recursion does, and only
  where the recursion does
* `Building.run_of_build`: so does the building loop
-/

namespace Hiko.Lib

/-! ## Cycles -/

section Cycles

open Relation

variable {α : Type} {R : α → α → Prop} {a : α}

/-- What is accessible is on no cycle. -/
theorem not_transGen_of_acc (h : Acc (fun b a => R a b) a) : ¬ TransGen R a a := by
  induction h with
  | intro a _ ih =>
    intro hcycle
    obtain ⟨b, hab, hba⟩ := TransGen.head'_iff.mp hcycle
    exact ih b hab (TransGen.tail' hba hab)

theorem acc_of_reflTransGen {b : α} (h : Acc (fun b a => R a b) a) (hab : ReflTransGen R a b) :
    Acc (fun b a => R a b) b := by
  induction hab with
  | refl => exact h
  | tail _ hbc ih => exact ih.inv hbc

/-- Where finitely many nodes lead anywhere, a node is accessible if it leads to no cycle. -/
theorem acc_iff_no_cycle (hfin : {a | ∃ b, R a b}.Finite) :
    Acc (fun b a => R a b) a ↔ ¬ ∃ b, ReflTransGen R a b ∧ TransGen R b b := by
  constructor
  · rintro hacc ⟨b, hab, hcycle⟩
    exact not_transGen_of_acc (acc_of_reflTransGen hacc hab) hcycle
  · -- on the nodes that lead anywhere: a node that is on no cycle is not reached from the next one
    let reached : α → Set α := fun a => {b | ReflTransGen R a b ∧ ∃ c, R b c}
    have hreached : ∀ a, (reached a).Finite := fun a => hfin.subset fun b hb => hb.2
    intro hcycle
    induction hn : (reached a).ncard using Nat.strong_induction_on generalizing a with
    | h n ih =>
      refine ⟨a, fun b hab => ih _ ?_ ?_ rfl⟩
      · rw [← hn]
        refine Set.ncard_lt_ncard ⟨fun c hc => ⟨.head hab hc.1, hc.2⟩, fun hsub => ?_⟩ (hreached a)
        have hba : ReflTransGen R b a := (hsub ⟨.refl, b, hab⟩).1
        exact hcycle ⟨a, .refl, TransGen.head' hab hba⟩
      · rintro ⟨c, hbc, hc⟩
        exact hcycle ⟨c, .head hab hbc, hc⟩

end Cycles

/-! ## Walks over lists -/

/-- The results of a walk over several values, from right to left. -/
def walkRev {γ β ε : Type} (walk : γ → Option (Except ε β)) : List γ → Option (Except ε (List β))
  | [] => some (.ok [])
  | c :: cs =>
    match walkRev walk cs with
    | none => none
    | some (.error e) => some (.error e)
    | some (.ok bs) =>
      match walk c with
      | none => none
      | some (.error e) => some (.error e)
      | some (.ok b) => some (.ok (b :: bs))

/-- The same from left to right. -/
def walkLeft {γ β ε : Type} (walk : γ → Option (Except ε β)) : List γ → Option (Except ε (List β))
  | [] => some (.ok [])
  | c :: cs =>
    match walk c with
    | none => none
    | some (.error e) => some (.error e)
    | some (.ok b) =>
      match walkLeft walk cs with
      | none => none
      | some (.error e) => some (.error e)
      | some (.ok bs) => some (.ok (b :: bs))

section Walks

variable {γ β ε : Type} {walk walk' : γ → Option (Except ε β)} {c : γ} {cs : List γ}

/-- A walk over a list is decided by its tail, and then by its head. -/
theorem walkRev_cons_cases {r : Except ε (List β)} (h : walkRev walk (c :: cs) = some r) :
    (∃ e, walkRev walk cs = some (.error e) ∧ r = .error e) ∨
      ∃ bs, walkRev walk cs = some (.ok bs) ∧
        ((∃ e, walk c = some (.error e) ∧ r = .error e) ∨
          ∃ b, walk c = some (.ok b) ∧ r = .ok (b :: bs)) := by
  rw [walkRev] at h
  split at h
  · cases h
  · next e he => exact .inl ⟨e, he, (Option.some.inj h).symm⟩
  · next bs hbs =>
    refine .inr ⟨bs, hbs, ?_⟩
    split at h
    · cases h
    · next e he => exact .inl ⟨e, he, (Option.some.inj h).symm⟩
    · next b hb => exact .inr ⟨b, hb, (Option.some.inj h).symm⟩

theorem walkLeft_cons_cases {r : Except ε (List β)} (h : walkLeft walk (c :: cs) = some r) :
    (∃ e, walk c = some (.error e) ∧ r = .error e) ∨
      ∃ b, walk c = some (.ok b) ∧
        ((∃ e, walkLeft walk cs = some (.error e) ∧ r = .error e) ∨
          ∃ bs, walkLeft walk cs = some (.ok bs) ∧ r = .ok (b :: bs)) := by
  rw [walkLeft] at h
  split at h
  · cases h
  · next e he => exact .inl ⟨e, he, (Option.some.inj h).symm⟩
  · next b hb =>
    refine .inr ⟨b, hb, ?_⟩
    split at h
    · cases h
    · next e he => exact .inl ⟨e, he, (Option.some.inj h).symm⟩
    · next bs hbs => exact .inr ⟨bs, hbs, (Option.some.inj h).symm⟩

/-- A walk that gives something has given something for the values at the end. -/
theorem walkRev_suffix {pre : List γ} {r : Except ε (List β)}
    (h : walkRev walk (pre ++ cs) = some r) : ∃ r', walkRev walk cs = some r' := by
  induction pre generalizing r with
  | nil => exact ⟨r, h⟩
  | cons c pre ih =>
    obtain ⟨e, he, -⟩ | ⟨bs, hbs, -⟩ := walkRev_cons_cases h
    · exact ih he
    · exact ih hbs

/-- The error of a walk is the error of one of the values. -/
theorem walkRev_error {e : ε} (h : walkRev walk cs = some (.error e)) :
    ∃ c ∈ cs, walk c = some (.error e) := by
  induction cs with
  | nil => cases h
  | cons c cs ih =>
    obtain ⟨e', he, h⟩ | ⟨bs, -, ⟨e', he, h⟩ | ⟨b, -, h⟩⟩ := walkRev_cons_cases h
    · cases h
      obtain ⟨d, hd, hwalk⟩ := ih he
      exact ⟨d, .tail _ hd, hwalk⟩
    · cases h
      exact ⟨c, .head _, he⟩
    · cases h

/-- A walk that succeeds has succeeded at each value. -/
theorem walkRev_ok {bs : List β} (h : walkRev walk cs = some (.ok bs)) :
    ∀ c ∈ cs, ∃ b, walk c = some (.ok b) := by
  induction cs generalizing bs with
  | nil => exact fun c hc => by cases hc
  | cons c cs ih =>
    obtain ⟨e, -, h⟩ | ⟨bs', hbs, ⟨e, -, h⟩ | ⟨b, hb, -⟩⟩ := walkRev_cons_cases h
    · cases h
    · cases h
    · exact List.forall_mem_cons.mpr ⟨⟨b, hb⟩, ih hbs⟩

/-- A walk gives as many results as there are values. -/
theorem walkLeft_length {bs : List β} (h : walkLeft walk cs = some (.ok bs)) :
    bs.length = cs.length := by
  induction cs generalizing bs with
  | nil =>
    obtain rfl : [] = bs := Except.ok.inj (Option.some.inj h)
    rfl
  | cons c cs ih =>
    obtain ⟨e, -, h⟩ | ⟨b, -, ⟨e, -, h⟩ | ⟨bs', hbs, h⟩⟩ := walkLeft_cons_cases h
    · cases h
    · cases h
    · obtain rfl := Except.ok.inj h
      rw [List.length_cons, List.length_cons, ih hbs]

/-- A walk that knows more gives the same. -/
theorem walkRev_mono (hmono : ∀ c r, walk c = some r → walk' c = some r) :
    ∀ {cs : List γ} {r : Except ε (List β)}, walkRev walk cs = some r →
      walkRev walk' cs = some r := by
  intro cs
  induction cs with
  | nil => exact fun h => h
  | cons c cs ih =>
    intro r h
    obtain ⟨e, he, rfl⟩ | ⟨bs, hbs, ⟨e, he, rfl⟩ | ⟨b, hb, rfl⟩⟩ := walkRev_cons_cases h
    · rw [walkRev, ih he]
    · rw [walkRev, ih hbs]
      simp only [hmono _ _ he]
    · rw [walkRev, ih hbs]
      simp only [hmono _ _ hb]

theorem walkLeft_ok {bs : List β} (h : walkLeft walk cs = some (.ok bs)) :
    ∀ c ∈ cs, ∃ b, walk c = some (.ok b) := by
  induction cs generalizing bs with
  | nil => exact fun c hc => by cases hc
  | cons c cs ih =>
    obtain ⟨e, -, h⟩ | ⟨b, hb, ⟨e, -, h⟩ | ⟨bs', hbs, -⟩⟩ := walkLeft_cons_cases h
    · cases h
    · cases h
    · exact List.forall_mem_cons.mpr ⟨⟨b, hb⟩, ih hbs⟩

theorem walkLeft_mono (hmono : ∀ c r, walk c = some r → walk' c = some r) :
    ∀ {cs : List γ} {r : Except ε (List β)},
      walkLeft walk cs = some r → walkLeft walk' cs = some r := by
  intro cs
  induction cs with
  | nil => exact fun h => h
  | cons c cs ih =>
    intro r h
    obtain ⟨e, he, rfl⟩ | ⟨b, hb, ⟨e, he, rfl⟩ | ⟨bs, hbs, rfl⟩⟩ := walkLeft_cons_cases h
    · rw [walkLeft, hmono _ _ he]
    · rw [walkLeft, hmono _ _ hb]
      simp only [ih he]
    · rw [walkLeft, hmono _ _ hb]
      simp only [ih hbs]

end Walks

/-! ## Measuring -/

/-- A graph to measure. A value has a node, or is a leaf; a node has children, unless it may not be
measured; and its measure comes from theirs. -/
structure Measuring (α γ β ε : Type) where
  node? : γ → Option α
  leaf : γ → β
  children : α → Option (Except ε (List γ))
  finish : α → List β → Except ε β

namespace Measuring

variable {α γ β ε : Type} (G : Measuring α γ β ε)

/-! ### The recursion -/

/-- The measure of a value, at a depth. -/
def value : ℕ → γ → Option (Except ε β)
  | 0, _ => none
  | k + 1, c =>
    match G.node? c with
    | none => some (.ok (G.leaf c))
    | some a =>
      match G.children a with
      | none => none
      | some (.error e) => some (.error e)
      | some (.ok cs) =>
        match walkRev (value k) cs with
        | none => none
        | some (.error e) => some (.error e)
        | some (.ok bs) => some (G.finish a bs)

/-- The measure of a node, at a depth. -/
def node (k : ℕ) (a : α) : Option (Except ε β) :=
  match G.children a with
  | none => none
  | some (.error e) => some (.error e)
  | some (.ok cs) =>
    match walkRev (G.value k) cs with
    | none => none
    | some (.error e) => some (.error e)
    | some (.ok bs) => some (G.finish a bs)

/-- What the recursion gives for a node, if it is deep enough. -/
def Gives (a : α) (r : Except ε β) : Prop := ∃ k, G.node k a = some r

/-! ### The loop -/

/-- The measure of a value whose node is measured. -/
def known (measured : α → Option β) (c : γ) : Option β :=
  match G.node? c with
  | none => some (G.leaf c)
  | some a => measured a

/-- The measures of several such values. -/
def knownAll (measured : α → Option β) : List γ → Option (List β)
  | [] => some []
  | c :: cs =>
    match G.known measured c, knownAll measured cs with
    | some b, some bs => some (b :: bs)
    | _, _ => none

/-- The nodes of some values that are not measured, as the stack takes them: the last on top. -/
def unmeasured (measured : α → Option β) : List γ → List α
  | [] => []
  | c :: cs =>
    match G.node? c with
    | none => unmeasured measured cs
    | some a =>
      if (measured a).isSome then unmeasured measured cs else unmeasured measured cs ++ [a]

/-- Nodes on the stack, with their children once these are pushed. -/
abbrev Stack (α γ : Type) : Type := List (α × Option (List γ))

/-- Nodes that are to be measured. -/
def Stack.fresh (nodes : List α) : Stack α γ := nodes.map fun a => (a, none)

variable [DecidableEq α]

/-- Measure what is on the stack. A child that is not measured when its parent is finished is a
fault, and gives nothing as well. -/
def loop : ℕ → (α → Option β) → Stack α γ → Option (Except ε (α → Option β))
  | 0, _, _ => none
  | _ + 1, measured, [] => some (.ok measured)
  | n + 1, measured, (a, pushed) :: stack =>
    if (measured a).isSome then loop n measured stack
    else
      match pushed with
      | none =>
        match G.children a with
        | none => none
        | some (.error e) => some (.error e)
        | some (.ok cs) =>
          loop n measured (Stack.fresh (G.unmeasured measured cs) ++ (a, some cs) :: stack)
      | some cs =>
        match G.knownAll measured cs with
        | none => none
        | some bs =>
          match G.finish a bs with
          | .error e => some (.error e)
          | .ok b => loop n (Function.update measured a (some b)) stack

/-! ### The loop follows the recursion -/

variable {G} {k k' : ℕ} {a : α} {c : γ} {measured measured' : α → Option β} {stack : Stack α γ}

omit [DecidableEq α] in
theorem value_succ_leaf (hc : G.node? c = none) : G.value (k + 1) c = some (.ok (G.leaf c)) := by
  rw [value, hc]

omit [DecidableEq α] in
theorem value_succ_node (hc : G.node? c = some a) : G.value (k + 1) c = G.node k a := by
  rw [value, hc]
  rfl

omit [DecidableEq α] in
/-- What a node gives: an error of its own, one of its children, or its measure. -/
theorem node_cases {r : Except ε β} (h : G.node k a = some r) :
    (∃ e, G.children a = some (.error e) ∧ r = .error e) ∨
      ∃ cs, G.children a = some (.ok cs) ∧
        ((∃ e, walkRev (G.value k) cs = some (.error e) ∧ r = .error e) ∨
          ∃ bs, walkRev (G.value k) cs = some (.ok bs) ∧ r = G.finish a bs) := by
  unfold node at h
  split at h
  · cases h
  · next e he => exact .inl ⟨e, he, (Option.some.inj h).symm⟩
  · next cs hcs =>
    refine .inr ⟨cs, hcs, ?_⟩
    split at h
    · cases h
    · next e he => exact .inl ⟨e, he, (Option.some.inj h).symm⟩
    · next bs hbs => exact .inr ⟨bs, hbs, (Option.some.inj h).symm⟩

omit [DecidableEq α] in
theorem node_of_walk {cs : List γ} {bs : List β} (hcs : G.children a = some (.ok cs))
    (hbs : walkRev (G.value k) cs = some (.ok bs)) : G.node k a = some (G.finish a bs) := by
  simp only [node, hcs, hbs]

omit [DecidableEq α] in
/-- A deeper recursion gives the same. -/
theorem value_succ {r : Except ε β} (h : G.value k c = some r) : G.value (k + 1) c = some r := by
  induction k generalizing c r with
  | zero => cases h
  | succ k ih =>
    cases hc : G.node? c with
    | none => rwa [value_succ_leaf hc] at h ⊢
    | some a =>
      rw [value_succ_node hc] at h ⊢
      obtain ⟨e, he, rfl⟩ | ⟨cs, hcs, ⟨e, he, rfl⟩ | ⟨bs, hbs, rfl⟩⟩ := node_cases h
      · simp only [node, he]
      · simp only [node, hcs, walkRev_mono (fun _ _ => ih) he]
      · exact node_of_walk hcs (walkRev_mono (fun _ _ => ih) hbs)

omit [DecidableEq α] in
theorem value_mono {r : Except ε β} (h : G.value k c = some r) (hk : k ≤ k') :
    G.value k' c = some r := by
  induction hk with
  | refl => exact h
  | step _ ih => exact value_succ ih

omit [DecidableEq α] in
theorem node_mono {r : Except ε β} (h : G.node k a = some r) (hk : k ≤ k') :
    G.node k' a = some r := by
  obtain ⟨e, he, rfl⟩ | ⟨cs, hcs, ⟨e, he, rfl⟩ | ⟨bs, hbs, rfl⟩⟩ := node_cases h
  · simp only [node, he]
  · simp only [node, hcs, walkRev_mono (fun _ _ h => value_mono h hk) he]
  · exact node_of_walk hcs (walkRev_mono (fun _ _ h => value_mono h hk) hbs)

omit [DecidableEq α] in
/-- The recursion gives one result. -/
theorem Gives.unique {r r' : Except ε β} (h : G.Gives a r) (h' : G.Gives a r') : r = r' := by
  obtain ⟨k, hk⟩ := h
  obtain ⟨k', hk'⟩ := h'
  have hmax := node_mono hk (le_max_left k k')
  rw [node_mono hk' (le_max_right k k')] at hmax
  exact (Option.some.inj hmax).symm

/-- Every entry of a table is what the recursion gives. -/
def Consistent (G : Measuring α γ β ε) (measured : α → Option β) : Prop :=
  ∀ a b, measured a = some b → G.Gives a (.ok b)

/-- A table with the entries of another one. -/
def Grows (measured measured' : α → Option β) : Prop :=
  ∀ a b, measured a = some b → measured' a = some b

omit [DecidableEq α] in
theorem Grows.trans {measured'' : α → Option β} (h : Grows measured measured')
    (h' : Grows measured' measured'') : Grows measured measured'' :=
  fun a b hb => h' a b (h a b hb)

omit [DecidableEq α] in
theorem knownAll_cons {b : β} {bs : List β} {cs : List γ} (hb : G.known measured c = some b)
    (hbs : G.knownAll measured cs = some bs) :
    G.knownAll measured (c :: cs) = some (b :: bs) := by
  simp only [knownAll, hb, hbs]

omit [DecidableEq α] in
theorem knownAll_grows (hgrows : Grows measured measured') :
    ∀ {cs : List γ} {bs : List β}, G.knownAll measured cs = some bs →
      G.knownAll measured' cs = some bs := by
  intro cs
  induction cs with
  | nil => exact fun h => h
  | cons c cs ih =>
    intro bs h
    rw [knownAll] at h
    split at h
    · next b bs' hb hbs =>
      rw [← Option.some.inj h]
      refine knownAll_cons ?_ (ih hbs)
      unfold known at hb ⊢
      split at hb
      · exact hb
      · exact hgrows _ _ hb
    · cases h

theorem Consistent.update {b : β} (hcons : Consistent G measured) (hb : G.Gives a (.ok b)) :
    Consistent G (Function.update measured a (some b)) := by
  intro a' b' h
  by_cases haa : a' = a
  · subst haa
    rw [Function.update_self] at h
    rwa [← Option.some.inj h]
  · rw [Function.update_of_ne haa] at h
    exact hcons a' b' h

theorem grows_update {b : β} (ha : measured a = none) :
    Grows measured (Function.update measured a (some b)) := by
  intro a' b' h
  have haa : a' ≠ a := by
    rintro rfl
    rw [ha] at h
    cases h
  rwa [Function.update_of_ne haa]

/-- What the loop makes of the top of its stack, in some rounds. -/
def Follows {δ : Type} (G : Measuring α γ β ε) (measured : α → Option β) (top stack : Stack α γ)
    (done : δ → (α → Option β) → Prop) : Except ε δ → Prop
  | .error e => ∃ s, ∀ j, G.loop (s + j) measured (top ++ stack) = some (.error e)
  | .ok d => ∃ s measured', Grows measured measured' ∧ Consistent G measured' ∧ done d measured' ∧
      ∀ j, G.loop (s + j) measured (top ++ stack) = G.loop j measured' stack

theorem loop_skip {n : ℕ} {b : β} {pushed : Option (List γ)} (hb : measured a = some b) :
    G.loop (n + 1) measured ((a, pushed) :: stack) = G.loop n measured stack := by
  have ha : (measured a).isSome = true := by rw [hb]; rfl
  cases pushed with
  | none => rw [loop, if_pos ha]
  | some cs => rw [loop, if_pos ha]

theorem loop_push {n : ℕ} {cs : List γ} (ha : measured a = none)
    (hcs : G.children a = some (.ok cs)) :
    G.loop (n + 1) measured ((a, none) :: stack) =
      G.loop n measured (Stack.fresh (G.unmeasured measured cs) ++ (a, some cs) :: stack) := by
  rw [loop, if_neg (by rw [ha]; exact Bool.false_ne_true)]
  simp only [hcs]

theorem loop_finish {n : ℕ} {cs : List γ} {bs : List β} (ha : measured a = none)
    (hbs : G.knownAll measured cs = some bs) :
    G.loop (n + 1) measured ((a, some cs) :: stack) =
      match G.finish a bs with
      | .error e => some (.error e)
      | .ok b => G.loop n (Function.update measured a (some b)) stack := by
  conv_lhs => rw [loop, if_neg (by rw [ha]; exact Bool.false_ne_true)]
  simp only [hbs]

section Follows

variable {δ : Type} {done : δ → (α → Option β) → Prop} {top below : Stack α γ} {r : Except ε δ}

theorem Follows.none {d : δ} (hcons : Consistent G measured) (hdone : done d measured) :
    Follows G measured [] stack done (.ok d) :=
  ⟨0, measured, fun _ _ h => h, hcons, hdone, fun j => by rw [Nat.zero_add]; rfl⟩

/-- An error on the way is the end. -/
theorem Follows.append_error {ω : Type} {done' : ω → (α → Option β) → Prop} {e : ε}
    (h : Follows G measured top (below ++ stack) done' (.error e)) :
    Follows G measured (top ++ below) stack done (.error e) := by
  obtain ⟨s, hs⟩ := h
  refine ⟨s, fun j => ?_⟩
  rw [List.append_assoc, hs]

/-- What is on the stack is done from its top. -/
theorem Follows.append {ω : Type} {done' : ω → (α → Option β) → Prop} {d : ω}
    (h : Follows G measured top (below ++ stack) done' (.ok d))
    (hnext : ∀ measured', Grows measured measured' → Consistent G measured' → done' d measured' →
      Follows G measured' below stack done r) :
    Follows G measured (top ++ below) stack done r := by
  obtain ⟨s, measured', hgrows, hcons, hdone, hloop⟩ := h
  have hrest := hnext measured' hgrows hcons hdone
  cases r with
  | error e =>
    obtain ⟨s', hs'⟩ := hrest
    refine ⟨s + s', fun j => ?_⟩
    rw [List.append_assoc, add_assoc, hloop, hs']
  | ok d' =>
    obtain ⟨s', measured'', hgrows', hcons', hdone', hloop'⟩ := hrest
    refine ⟨s + s', measured'', hgrows.trans hgrows', hcons', hdone', fun j => ?_⟩
    rw [List.append_assoc, add_assoc, hloop, hloop']

/-- One round more. -/
theorem Follows.round {top' : Stack α γ}
    (hround : ∀ n, G.loop (n + 1) measured (top ++ stack) = G.loop n measured (top' ++ stack))
    (h : Follows G measured top' stack done r) : Follows G measured top stack done r := by
  cases r with
  | error e =>
    obtain ⟨s, hs⟩ := h
    refine ⟨s + 1, fun j => ?_⟩
    rw [add_right_comm, hround, hs]
  | ok d =>
    obtain ⟨s, measured', hgrows, hcons, hdone, hloop⟩ := h
    refine ⟨s + 1, measured', hgrows, hcons, hdone, fun j => ?_⟩
    rw [add_right_comm, hround, hloop]

end Follows

omit [DecidableEq α] in
theorem unmeasured_cons (cs : List γ) :
    G.unmeasured measured (c :: cs) = G.unmeasured measured cs ++ G.unmeasured measured [c] := by
  simp only [unmeasured]
  split
  · exact (List.append_nil _).symm
  · split
    · exact (List.append_nil _).symm
    · rfl

/-- Values at a depth are measured as the recursion does it: a value whose node was not measured
when it was pushed is on the stack. -/
def ValuesFollow (G : Measuring α γ β ε) (k : ℕ) : Prop :=
  ∀ c r measured₀ measured (stack : Stack α γ), G.value k c = some r → Consistent G measured₀ →
    Grows measured₀ measured → Consistent G measured →
      Follows G measured (Stack.fresh (G.unmeasured measured₀ [c])) stack
        (fun b m => G.known m c = some b) r

/-- The children of a node, from the last one. -/
theorem follows_children (hvalues : ValuesFollow G k) {measured₀ : α → Option β}
    (hcons₀ : Consistent G measured₀) {cs : List γ} {r : Except ε (List β)}
    (hwalk : walkRev (G.value k) cs = some r) (hgrows : Grows measured₀ measured)
    (hcons : Consistent G measured) :
    Follows G measured (Stack.fresh (G.unmeasured measured₀ cs)) stack
      (fun bs m => G.knownAll m cs = some bs) r := by
  induction cs generalizing r measured stack with
  | nil =>
    obtain rfl := Option.some.inj hwalk
    exact .none hcons rfl
  | cons c cs ih =>
    have htop : (Stack.fresh (G.unmeasured measured₀ (c :: cs)) : Stack α γ) =
        Stack.fresh (G.unmeasured measured₀ cs) ++ Stack.fresh (G.unmeasured measured₀ [c]) := by
      rw [unmeasured_cons, Stack.fresh, List.map_append]
      rfl
    rw [htop]
    -- the loop takes the last child first, and an error there ends it
    obtain ⟨e, he, rfl⟩ | ⟨bs, hbs, hfirst⟩ := walkRev_cons_cases hwalk
    · exact (ih he hgrows hcons).append_error
    · refine (ih hbs hgrows hcons).append fun m hm hmcons hknown => ?_
      obtain ⟨e, he, rfl⟩ | ⟨b, hb, rfl⟩ := hfirst
      · exact hvalues c _ measured₀ m stack he hcons₀ (hgrows.trans hm) hmcons
      · obtain ⟨s, m', hm', hmcons', hc, hloop⟩ :=
          hvalues c _ measured₀ m stack hb hcons₀ (hgrows.trans hm) hmcons
        exact ⟨s, m', hm', hmcons', knownAll_cons hc (knownAll_grows hm' hknown), hloop⟩

/-- A node on the stack. -/
theorem follows_node (hvalues : ValuesFollow G k) {r : Except ε β} (hr : G.node k a = some r)
    (hcons : Consistent G measured) :
    Follows G measured (Stack.fresh [a]) stack (fun b m => m a = some b) r := by
  have hgives : G.Gives a r := ⟨k, hr⟩
  -- a node may be measured by the time the loop comes to it
  have hmeasured : ∀ {m : α → Option β} {b : β} {pushed : Option (List γ)}, Consistent G m →
      m a = some b → Follows G m [(a, pushed)] stack (fun b m => m a = some b) r := by
    intro m b pushed hmcons hb
    obtain rfl := hgives.unique (hmcons a b hb)
    exact .round (fun n => loop_skip hb) (.none hmcons hb)
  cases ha : measured a with
  | some b => exact hmeasured hcons ha
  | none =>
    obtain ⟨e, he, rfl⟩ | ⟨cs, hcs, hwalk⟩ := node_cases hr
    · refine ⟨1, fun j => ?_⟩
      rw [add_comm, Stack.fresh, List.map_singleton, List.singleton_append, loop,
        if_neg (by rw [ha]; exact Bool.false_ne_true)]
      simp only [he]
    · have hround : ∀ n, G.loop (n + 1) measured (Stack.fresh [a] ++ stack) = G.loop n measured
          ((Stack.fresh (G.unmeasured measured cs) ++ [(a, some cs)]) ++ stack) := by
        intro n
        rw [List.append_assoc]
        exact loop_push ha hcs
      refine .round hround ?_
      obtain ⟨e, he, rfl⟩ | ⟨bs, hbs, rfl⟩ := hwalk
      · exact (follows_children hvalues hcons he (fun _ _ h => h) hcons).append_error
      · refine (follows_children hvalues hcons hbs (fun _ _ h => h) hcons).append ?_
        intro m _ hmcons hknown
        -- the children are measured now, and the node comes up again
        cases hma : m a with
        | some b => exact hmeasured hmcons hma
        | none =>
          cases hfin : G.finish a bs with
          | error e =>
            refine ⟨1, fun j => ?_⟩
            rw [add_comm, List.singleton_append, loop_finish hma hknown, hfin]
          | ok b =>
            rw [hfin] at hgives
            refine ⟨1, Function.update m a (some b), grows_update hma, hmcons.update hgives,
              Function.update_self _ _ _, fun j => ?_⟩
            rw [add_comm, List.singleton_append, loop_finish hma hknown, hfin]

theorem valuesFollow (k : ℕ) : ValuesFollow G k := by
  induction k with
  | zero => exact fun _ _ _ _ _ h => by cases h
  | succ k ih =>
    intro c r measured₀ measured stack hr hcons₀ hgrows hcons
    cases hc : G.node? c with
    | none =>
      rw [value_succ_leaf hc] at hr
      obtain rfl := Option.some.inj hr
      simp only [unmeasured, hc]
      exact .none hcons (by simp only [known, hc])
    | some a =>
      rw [value_succ_node hc] at hr
      simp only [unmeasured, known, hc]
      split
      · next ha =>
        obtain ⟨b, hb⟩ := Option.isSome_iff_exists.mp ha
        obtain rfl := Gives.unique ⟨k, hr⟩ (hcons₀ a b hb)
        exact .none hcons (hgrows a b hb)
      · exact follows_node ih hr hcons

/-! ### The loop and the recursion end together -/

omit [DecidableEq α] in
theorem consistent_empty : Consistent G (fun _ => none) := fun _ _ h => by cases h

/-- Where the recursion gives a measure, the loop ends and has it in its table. -/
theorem loop_ok {b : β} (h : G.Gives a (.ok b)) :
    ∃ n measured, G.loop n (fun _ => none) (Stack.fresh [a]) = some (.ok measured) ∧
      measured a = some b := by
  obtain ⟨k, hk⟩ := h
  obtain ⟨s, measured, -, -, hb, hloop⟩ : Follows G (fun _ => none) (Stack.fresh [a]) []
      (fun b m => m a = some b) (.ok b) := follows_node (valuesFollow k) hk consistent_empty
  refine ⟨s + 1, measured, ?_, hb⟩
  have h1 := hloop 1
  rw [List.append_nil] at h1
  rw [h1, loop]

/-- Where the recursion finds an error, the loop ends with it. -/
theorem loop_error {e : ε} (h : G.Gives a (.error e)) :
    ∃ n, G.loop n (fun _ => none) (Stack.fresh [a]) = some (.error e) := by
  obtain ⟨k, hk⟩ := h
  obtain ⟨s, hs⟩ : Follows G (fun _ => none) (Stack.fresh [a]) []
      (fun b m => m a = some b) (.error e) := follows_node (valuesFollow k) hk consistent_empty
  refine ⟨s, ?_⟩
  have h0 := hs 0
  rwa [List.append_nil] at h0

/-- More rounds change nothing. -/
theorem loop_succ {n : ℕ} {r : Except ε (α → Option β)} (h : G.loop n measured stack = some r) :
    G.loop (n + 1) measured stack = some r := by
  induction n generalizing measured stack with
  | zero => cases h
  | succ n ih =>
    cases stack with
    | nil =>
      rw [loop] at h ⊢
      exact h
    | cons top stack =>
      obtain ⟨a, pushed⟩ := top
      cases ha : measured a with
      | some b =>
        rw [loop_skip ha] at h ⊢
        exact ih h
      | none =>
        have hnot : ¬ (measured a).isSome = true := by rw [ha]; exact Bool.false_ne_true
        cases pushed with
        | none =>
          rw [loop, if_neg hnot] at h ⊢
          cases hcs : G.children a with
          | none =>
            rw [hcs] at h
            cases h
          | some res =>
            rw [hcs] at h
            cases res with
            | error e => exact h
            | ok cs => exact ih h
        | some cs =>
          rw [loop, if_neg hnot] at h ⊢
          cases hbs : G.knownAll measured cs with
          | none =>
            rw [hbs] at h
            cases h
          | some bs =>
            rw [hbs] at h
            dsimp only at h ⊢
            cases hfin : G.finish a bs with
            | error e =>
              rw [hfin] at h
              exact h
            | ok b =>
              rw [hfin] at h
              exact ih h

theorem loop_mono {n n' : ℕ} {r : Except ε (α → Option β)} (h : G.loop n measured stack = some r)
    (hn : n ≤ n') : G.loop n' measured stack = some r := by
  induction hn with
  | refl => exact h
  | step _ ih => exact loop_succ ih

omit [DecidableEq α] in
/-- Values with a common depth. -/
theorem walkRev_value_cons {cs : List γ} {bs : List β} {r : Except ε β}
    (hbs : walkRev (G.value k) cs = some (.ok bs)) (hc : G.value k' c = some r) :
    ∃ k r, walkRev (G.value k) (c :: cs) = some r := by
  have hbs' : walkRev (G.value (max k k')) cs = some (.ok bs) :=
    walkRev_mono (fun _ _ h => value_mono h (le_max_left k k')) hbs
  have hc' : G.value (max k k') c = some r := value_mono hc (le_max_right k k')
  refine ⟨max k k', ?_⟩
  rw [walkRev]
  simp only [hbs', hc']
  cases r with
  | error e => exact ⟨_, rfl⟩
  | ok b => exact ⟨_, rfl⟩

/-- If the loop ends with children on its stack, then the recursion ends on them. -/
theorem walk_of_loop {n : ℕ}
    (hnode : ∀ n' ≤ n, ∀ (a : α) measured (stack : Stack α γ) r, Consistent G measured →
      G.loop n' measured ((a, none) :: stack) = some r → ∃ r', G.Gives a r')
    {cs : List γ} {r : Except ε (α → Option β)} (hcons : Consistent G measured)
    (h : G.loop n measured (Stack.fresh (G.unmeasured measured cs) ++ stack) = some r) :
    ∃ k r', walkRev (G.value k) cs = some r' := by
  induction cs generalizing stack with
  | nil => exact ⟨0, _, rfl⟩
  | cons c cs ih =>
    rw [unmeasured_cons, Stack.fresh, List.map_append, List.append_assoc] at h
    obtain ⟨k, r', hwalk⟩ := ih h
    cases r' with
    | error e => exact ⟨k, .error e, by rw [walkRev, hwalk]⟩
    | ok bs =>
      obtain ⟨s, m, hgrows, hmcons, -, hloop⟩ :=
        follows_children (valuesFollow k) hcons hwalk (fun _ _ h => h) hcons
      -- the loop had the rounds that it needs to come to the head
      obtain ⟨j, rfl⟩ : ∃ j, n = s + j := by
        refine Nat.exists_eq_add_of_le (Nat.le_of_not_lt fun hlt => ?_)
        have hs := loop_mono h hlt.le
        rw [← Nat.add_zero s] at hs
        erw [hloop 0] at hs
        cases hs
      erw [hloop j] at h
      cases hc : G.node? c with
      | none => exact walkRev_value_cons hwalk (value_succ_leaf (k := 0) hc)
      | some a =>
        simp only [unmeasured, hc] at h
        split at h
        · next ha =>
          obtain ⟨b, hb⟩ := Option.isSome_iff_exists.mp ha
          obtain ⟨k', hk'⟩ := hcons a b hb
          exact walkRev_value_cons hwalk ((value_succ_node hc).trans hk')
        · obtain ⟨r', k', hk'⟩ := hnode j (Nat.le_add_left j s) a m stack r hmcons h
          exact walkRev_value_cons hwalk ((value_succ_node hc).trans hk')

/-- **The loop ends only where the recursion does.** -/
theorem gives_of_loop {n : ℕ} {r : Except ε (α → Option β)} (hcons : Consistent G measured)
    (h : G.loop n measured ((a, none) :: stack) = some r) : ∃ r', G.Gives a r' := by
  -- the induction is on the rounds: the children of the node take fewer of them
  induction n using Nat.strong_induction_on generalizing a measured stack r with
  | h n ih =>
    cases n with
    | zero => cases h
    | succ n =>
      cases ha : measured a with
      | some b => exact ⟨_, hcons a b ha⟩
      | none =>
        rw [loop, if_neg (by rw [ha]; exact Bool.false_ne_true)] at h
        split at h
        · cases h
        · next e he => exact ⟨.error e, 0, by simp only [node, he]⟩
        · next cs hcs =>
          obtain ⟨k, r', hwalk⟩ := walk_of_loop
            (fun n' hn' a m stack r hm hr => ih n' (Nat.lt_succ_of_le hn') hm hr) hcons h
          cases r' with
          | error e => exact ⟨.error e, k, by simp only [node, hcs, hwalk]⟩
          | ok bs => exact ⟨_, k, node_of_walk hcs hwalk⟩

end Measuring

/-! ## Building -/

/-- A graph of values to build from: a value is an error, a leaf, or a container of others. -/
structure Building (γ δ ε : Type) where
  expand : γ → Option (Except ε (δ ⊕ (List δ → δ) × List γ))

namespace Building

variable {γ δ ε : Type} (B : Building γ δ ε)

/-- What is built from a value, at a depth. -/
def build : ℕ → γ → Option (Except ε δ)
  | 0, _ => none
  | k + 1, c =>
    match B.expand c with
    | none => none
    | some (.error e) => some (.error e)
    | some (.ok (.inl d)) => some (.ok d)
    | some (.ok (.inr (container, cs))) =>
      match walkLeft (build k) cs with
      | none => none
      | some (.error e) => some (.error e)
      | some (.ok ds) => some (.ok (container ds))

/-- A task: to visit a value, or to build a container of what was built last. -/
inductive Task (γ δ : Type) where
  | visit (c : γ)
  | build (container : List δ → δ) (count : ℕ)

/-- Do the tasks. `out` has what is built, the last in front; a task that takes more of it than is
there is a fault, and so is an end without a result. -/
def run : ℕ → List (Task γ δ) → List δ → Option (Except ε δ)
  | 0, _, _ => none
  | _ + 1, [], [] => none
  | _ + 1, [], d :: _ => some (.ok d)
  | n + 1, .build container count :: tasks, out =>
    if out.length < count then none
    else run n tasks (container (out.take count).reverse :: out.drop count)
  | n + 1, .visit c :: tasks, out =>
    match B.expand c with
    | none => none
    | some (.error e) => some (.error e)
    | some (.ok (.inl d)) => run n tasks (d :: out)
    | some (.ok (.inr (container, cs))) =>
      run n (cs.map .visit ++ .build container cs.length :: tasks) out

variable {B} {k : ℕ} {c : γ} {tasks : List (Task γ δ)} {out : List δ}

/-- What the run makes of the first tasks, in some rounds. -/
def Follows (B : Building γ δ ε) (top tasks : List (Task γ δ)) (out : List δ) :
    Except ε (List δ) → Prop
  | .error e => ∃ s, ∀ j, B.run (s + j) (top ++ tasks) out = some (.error e)
  | .ok ds => ∃ s, ∀ j, B.run (s + j) (top ++ tasks) out = B.run j tasks (ds.reverse ++ out)

theorem follows_all (tasks : List (Task γ δ)) (out : List δ)
    (hvalue : ∀ c r tasks out, B.build k c = some r →
      Follows B [.visit c] tasks out (r.map fun d => [d]))
    {cs : List γ} {r : Except ε (List δ)} (hwalk : walkLeft (B.build k) cs = some r) :
    Follows B (cs.map .visit) tasks out r := by
  induction cs generalizing r out with
  | nil =>
    obtain rfl := Option.some.inj hwalk
    exact ⟨0, fun j => by rw [Nat.zero_add]; rfl⟩
  | cons c cs ih =>
    obtain ⟨e, he, rfl⟩ | ⟨d, hd, hrest⟩ := walkLeft_cons_cases hwalk
    · exact hvalue c _ (cs.map .visit ++ tasks) out he
    · obtain ⟨s, hs⟩ := hvalue c _ (cs.map .visit ++ tasks) out hd
      obtain ⟨e, he, rfl⟩ | ⟨ds, hds, rfl⟩ := hrest
      · obtain ⟨s', hs'⟩ := ih (d :: out) he
        refine ⟨s + s', fun j => ?_⟩
        rw [add_assoc]
        exact (hs (s' + j)).trans (hs' j)
      · obtain ⟨s', hs'⟩ := ih (d :: out) hds
        refine ⟨s + s', fun j => ?_⟩
        rw [add_assoc, List.reverse_cons, List.append_assoc]
        exact (hs (s' + j)).trans (hs' j)

/-- The run follows the recursion. -/
theorem follows_build (tasks : List (Task γ δ)) (out : List δ) {r : Except ε δ}
    (h : B.build k c = some r) :
    Follows B [.visit c] tasks out (r.map fun d => [d]) := by
  induction k generalizing c r tasks out with
  | zero => cases h
  | succ k ih =>
    rw [build] at h
    split at h
    · cases h
    · next e he =>
      obtain rfl := Option.some.inj h
      refine ⟨1, fun j => ?_⟩
      rw [add_comm, List.singleton_append, run]
      simp only [he]
    · next d hd =>
      obtain rfl := Option.some.inj h
      refine ⟨1, fun j => ?_⟩
      rw [add_comm, List.singleton_append, run]
      simp only [hd]
      rfl
    · next container cs hcs =>
      have hround : ∀ n, B.run (n + 1) ([.visit c] ++ tasks) out =
          B.run n (cs.map .visit ++ .build container cs.length :: tasks) out := by
        intro n
        rw [List.singleton_append, run]
        simp only [hcs]
      split at h
      · cases h
      · next e he =>
        obtain rfl := Option.some.inj h
        obtain ⟨s, hs⟩ := follows_all (.build container cs.length :: tasks) out
          (fun c r tasks out => ih tasks out) he
        refine ⟨s + 1, fun j => ?_⟩
        rw [add_right_comm, hround, hs]
      · next ds hds =>
        obtain rfl := Option.some.inj h
        obtain ⟨s, hs⟩ := follows_all (.build container cs.length :: tasks) out
          (fun c r tasks out => ih tasks out) hds
        have hlen : ds.reverse.length = cs.length := by
          rw [List.length_reverse, walkLeft_length hds]
        refine ⟨s + 1 + 1, fun j => ?_⟩
        rw [show s + 1 + 1 + j = s + (j + 1) + 1 by omega, hround, hs, run,
          if_neg (by rw [List.length_append]; omega), List.take_left' hlen, List.drop_left' hlen,
          List.reverse_reverse]
        rfl

/-- A run that comes to an end comes to it with more rounds too, and with values that are expanded
further. -/
theorem run_mono {B' : Building γ δ ε} (hexpand : ∀ c r, B.expand c = some r → B'.expand c = some r)
    {n n' : ℕ} {r : Except ε δ} (h : B.run n tasks out = some r) (hn : n ≤ n') :
    B'.run n' tasks out = some r := by
  induction n generalizing n' tasks out with
  | zero => cases h
  | succ n ih =>
    obtain ⟨m, rfl⟩ : ∃ m, n' = m + 1 := ⟨n' - 1, by omega⟩
    have hm : n ≤ m := Nat.le_of_succ_le_succ hn
    cases tasks with
    | nil =>
      cases out with
      | nil => cases h
      | cons d out => exact h
    | cons task tasks =>
      cases task with
      | build container count =>
        rw [run] at h ⊢
        split at h
        · cases h
        · next hcount =>
          rw [if_neg hcount]
          exact ih h hm
      | visit c =>
        rw [run] at h ⊢
        cases hc : B.expand c with
        | none =>
          rw [hc] at h
          cases h
        | some res =>
          rw [hc] at h
          rw [hexpand c res hc]
          rcases res with e | d | ⟨container, cs⟩
          · exact h
          · exact ih h hm
          · exact ih h hm

/-- **The run ends as the recursion does**, with what it builds or with its error. -/
theorem run_of_build {r : Except ε δ} (h : B.build k c = some r) :
    ∃ n, B.run n [.visit c] [] = some r := by
  have hs := follows_build [] [] h
  cases r with
  | error e =>
    obtain ⟨s, hs⟩ := hs
    refine ⟨s, ?_⟩
    have h0 := hs 0
    rwa [List.append_nil] at h0
  | ok d =>
    obtain ⟨s, hs⟩ := hs
    refine ⟨s + 1, ?_⟩
    rw [← List.append_nil [Task.visit c], hs 1]
    rfl

end Building

end Hiko.Lib
