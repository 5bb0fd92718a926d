import Mathlib.Tactic

/-!
# Budgets shared by a process tree

A limit and the amount of it a process tree has used. Every update is one atomic
read-modify-write of the counter, so an update is a function from the counter's value to its
next value. Amounts are `u64`.

## Main definitions

* `SharedBudget.tryCharge`, `reserveUpTo`, `refund`: the updates
* `Budgets`: the memory and host-resource budgets the heaps of a tree share

## Main results

* `SharedBudget.tryCharge_ok`, `reserveUpTo_used`, `refund_used`: what an update does to the
  counter
-/

namespace Hiko

/-- The values of a `u64` are below this. -/
def u64Size : ℕ := 2 ^ 64

/-- `SharedBudget`: one limit and the amount of it the tree has used. -/
structure SharedBudget where
  limit : ℕ
  used : ℕ
  deriving DecidableEq

namespace SharedBudget

/-- `SharedBudget::new`. -/
def new (limit : ℕ) : SharedBudget := ⟨limit, 0⟩

/-- `remaining`. -/
def remaining (b : SharedBudget) : ℕ := b.limit - b.used

/-- `try_charge`: charge exactly `amount`, or nothing and report the amount used. -/
def tryCharge (b : SharedBudget) (amount : ℕ) : Except ℕ SharedBudget :=
  if b.used + amount < u64Size ∧ b.used + amount ≤ b.limit then
    .ok { b with used := b.used + amount }
  else .error b.used

/-- `reserve_up_to`: charge as much of `amount` as is left, and return it. -/
def reserveUpTo (b : SharedBudget) (amount : ℕ) : ℕ × SharedBudget :=
  let reserved := min amount b.remaining
  (reserved, if 0 < reserved then { b with used := b.used + reserved } else b)

/-- `refund`: return an amount charged earlier. -/
def refund (b : SharedBudget) (amount : ℕ) : SharedBudget :=
  if amount = 0 then b else { b with used := b.used - amount }

theorem tryCharge_ok {b b' : SharedBudget} {amount : ℕ} (h : b.tryCharge amount = .ok b') :
    b' = { b with used := b.used + amount } ∧ b.used + amount < u64Size ∧
      b.used + amount ≤ b.limit := by
  unfold tryCharge at h
  split at h
  · next hc => exact ⟨(Except.ok.inj h).symm, hc⟩
  · cases h

@[simp] theorem refund_limit (b : SharedBudget) (amount : ℕ) :
    (b.refund amount).limit = b.limit := by
  unfold refund
  split <;> rfl

@[simp] theorem refund_used (b : SharedBudget) (amount : ℕ) :
    (b.refund amount).used = b.used - amount := by
  unfold refund
  split
  · next h => simp [h]
  · rfl

@[simp] theorem reserveUpTo_limit (b : SharedBudget) (amount : ℕ) :
    (b.reserveUpTo amount).2.limit = b.limit := by
  unfold reserveUpTo
  dsimp only
  split <;> rfl

@[simp] theorem reserveUpTo_used (b : SharedBudget) (amount : ℕ) :
    (b.reserveUpTo amount).2.used = b.used + (b.reserveUpTo amount).1 := by
  unfold reserveUpTo
  dsimp only
  split
  · rfl
  · next h => omega

end SharedBudget

/-- The budgets of the heaps of a process tree, where they are limited: tracked memory, live
host resources, and live host resources by kind name. -/
structure Budgets where
  memory : Option SharedBudget
  hostResource : Option SharedBudget
  hostResourceKind : List (String × SharedBudget)
  deriving DecidableEq

namespace Budgets

/-- No limits. -/
def unlimited : Budgets := ⟨none, none, []⟩

/-- `host_resource_kind_budget`, by kind name. -/
def kindBudget (b : Budgets) (name : String) : Option SharedBudget :=
  b.hostResourceKind.lookup name

/-- Apply an update to the budget of a kind name. -/
def updateKind (b : Budgets) (name : String) (f : SharedBudget → SharedBudget) : Budgets :=
  { b with hostResourceKind := b.hostResourceKind.map fun e =>
      if e.1 = name then (e.1, f e.2) else e }

@[simp] theorem updateKind_memory (b : Budgets) (name : String) (f : SharedBudget → SharedBudget) :
    (b.updateKind name f).memory = b.memory := rfl

@[simp] theorem updateKind_hostResource (b : Budgets) (name : String)
    (f : SharedBudget → SharedBudget) : (b.updateKind name f).hostResource = b.hostResource := rfl

end Budgets

end Hiko
