import Mathlib.Tactic

/-!
# File trees with symbolic links

A tree of directories, files and symbolic links, and the walk along a path: `.` stays, `..` goes up,
a name goes down, and a link is replaced by its target. A location is a list of names, the innermost
first.

## Main definitions

* `Segment`, `Node`, `FileTree`: the pieces of a path, the entries of a tree, the tree
* `FileTree.walk`: where a path leads, and what is left of it there
* `FileTree.place`: the same, without the dots in what is left
* `FileTree.Real`: a location that names no link

## Main results

* `place_names`: dots do not change where a path leads
* `walk_append`: a path is walked part after part
* `walk_real`, `walk_route`: a walk ends at a real location, and the names on the way to a real
  location lead there
-/

namespace Hiko.Lib

/-- A piece of a path between two slashes. -/
inductive Segment (ν : Type) where
  | here
  | up
  | name (n : ν)
deriving DecidableEq

/-- An entry of a file tree. The target of a link starts at the root or at the link's directory. -/
inductive Node (ν : Type) where
  | dir
  | file
  | link (fromRoot : Bool) (target : List (Segment ν))
deriving DecidableEq

/-- A file tree: the entry at each location. -/
structure FileTree (ν : Type) where
  node : List ν → Option (Node ν)
  root : node [] = some .dir

namespace FileTree

variable {ν : Type} (tree : FileTree ν)

/-- There is a directory. -/
def isDir (loc : List ν) : Bool :=
  match tree.node loc with
  | some .dir => true
  | _ => false

/-- Walk along segments from a location, up to the first link: `onLink` goes on from there. The walk
stops at a name that is not there and at what is no directory. -/
def scan (onLink : List ν → List (Segment ν) → Option (List ν × List (Segment ν))) :
    List ν → List (Segment ν) → Option (List ν × List (Segment ν))
  | loc, [] => some (loc, [])
  | loc, seg :: segs =>
    if tree.isDir loc then
      match seg with
      | .here => scan onLink loc segs
      | .up => scan onLink loc.tail segs
      | .name n =>
        match tree.node (n :: loc) with
        | none => some (loc, seg :: segs)
        | some (.link fromRoot target) => onLink (if fromRoot then [] else loc) (target ++ segs)
        | some _ => scan onLink (n :: loc) segs
    else some (loc, seg :: segs)

/-- Walk along segments, through at most so many links. -/
def walk : ℕ → List ν → List (Segment ν) → Option (List ν × List (Segment ν))
  | 0 => tree.scan fun _ _ => none
  | links + 1 => tree.scan (walk links)

/-- The segments that go somewhere. -/
def moves (segs : List (Segment ν)) : List (Segment ν) :=
  segs.filter fun
    | .here => false
    | _ => true

/-- The location that a path leads to, and what is missing below it. -/
def place (links : ℕ) (loc : List ν) (segs : List (Segment ν)) :
    Option (List ν × List (Segment ν)) :=
  (tree.walk links loc segs).map fun p => (p.1, moves p.2)

/-- A location without links on its way, that is no link. -/
def Real : List ν → Prop
  | [] => True
  | n :: loc => Real loc ∧ tree.isDir loc ∧
    (tree.node (n :: loc) = some .dir ∨ tree.node (n :: loc) = some .file)

/-- The names on the way from the root to a location. -/
def route (loc : List ν) : List (Segment ν) := loc.reverse.map .name

/-! ## One segment -/

section Scan

variable {tree : FileTree ν} {links : ℕ} {loc : List ν} {segs : List (Segment ν)}
  {onLink onLink' : List ν → List (Segment ν) → Option (List ν × List (Segment ν))}
  {res : List ν × List (Segment ν)}

/-- A walk is a scan that walks on at a link. -/
def next (tree : FileTree ν) : ℕ → List ν → List (Segment ν) → Option (List ν × List (Segment ν))
  | 0 => fun _ _ => none
  | links + 1 => tree.walk links

theorem walk_eq (links : ℕ) : tree.walk links = tree.scan (tree.next links) := by
  cases links <;> rfl

@[simp] theorem scan_nil : tree.scan onLink loc [] = some (loc, []) := rfl

theorem scan_stop {seg : Segment ν} (hdir : ¬ tree.isDir loc) :
    tree.scan onLink loc (seg :: segs) = some (loc, seg :: segs) := by
  cases seg <;> rw [scan.eq_def] <;> exact if_neg hdir

theorem scan_here (hdir : tree.isDir loc) :
    tree.scan onLink loc (.here :: segs) = tree.scan onLink loc segs := by
  rw [scan, if_pos hdir]

theorem scan_up (hdir : tree.isDir loc) :
    tree.scan onLink loc (.up :: segs) = tree.scan onLink loc.tail segs := by
  rw [scan, if_pos hdir]

theorem scan_missing {n : ν} (hdir : tree.isDir loc) (hnode : tree.node (n :: loc) = none) :
    tree.scan onLink loc (.name n :: segs) = some (loc, .name n :: segs) := by
  rw [scan, if_pos hdir]
  simp only [hnode]

theorem scan_link {n : ν} {fromRoot : Bool} {target : List (Segment ν)}
    (hdir : tree.isDir loc) (hnode : tree.node (n :: loc) = some (.link fromRoot target)) :
    tree.scan onLink loc (.name n :: segs) =
      onLink (if fromRoot then [] else loc) (target ++ segs) := by
  rw [scan, if_pos hdir]
  simp only [hnode]

theorem scan_name {n : ν} (hdir : tree.isDir loc)
    (hnode : tree.node (n :: loc) = some .dir ∨ tree.node (n :: loc) = some .file) :
    tree.scan onLink loc (.name n :: segs) = tree.scan onLink (n :: loc) segs := by
  rw [scan, if_pos hdir]
  rcases hnode with hnode | hnode <;> simp only [hnode]

/-- What a directory has under a name: nothing, a link, or a directory or file. -/
theorem node_cases (tree : FileTree ν) (loc : List ν) : tree.node loc = none ∨
    (∃ fromRoot target, tree.node loc = some (.link fromRoot target)) ∨
      (tree.node loc = some .dir ∨ tree.node loc = some .file) := by
  cases h : tree.node loc with
  | none => exact .inl rfl
  | some nd =>
    cases nd with
    | dir => exact .inr (.inr (.inl rfl))
    | file => exact .inr (.inr (.inr rfl))
    | link fromRoot target => exact .inr (.inl ⟨fromRoot, target, rfl⟩)

/-- A scan with more links gives what it gave. -/
theorem scan_mono (hlink : ∀ loc segs res, onLink loc segs = some res → onLink' loc segs = some res)
    (h : tree.scan onLink loc segs = some res) : tree.scan onLink' loc segs = some res := by
  induction segs generalizing loc with
  | nil => exact h
  | cons seg segs ih =>
    by_cases hdir : tree.isDir loc
    · cases seg with
      | here =>
        rw [scan_here hdir] at h ⊢
        exact ih h
      | up =>
        rw [scan_up hdir] at h ⊢
        exact ih h
      | name n =>
        obtain hnone | ⟨fromRoot, target, hnode⟩ | hnode := tree.node_cases (n :: loc)
        · rw [scan_missing hdir hnone] at h ⊢
          exact h
        · rw [scan_link hdir hnode] at h ⊢
          exact hlink _ _ _ h
        · rw [scan_name hdir hnode] at h ⊢
          exact ih h
    · rw [scan_stop hdir] at h ⊢
      exact h

/-- What is no directory is where the walk stops. -/
theorem scan_not_dir (hdir : ¬ tree.isDir loc) : tree.scan onLink loc segs = some (loc, segs) := by
  cases segs with
  | nil => rfl
  | cons seg segs => exact scan_stop hdir

/-- A path in two parts, the first of which is there. -/
theorem scan_append {first rest : List (Segment ν)} {loc' : List ν}
    (hlink : ∀ loc segs, onLink loc segs = some (loc', []) → onLink loc (segs ++ rest) = some res →
      tree.scan onLink loc' rest = some res)
    (hfirst : tree.scan onLink loc first = some (loc', []))
    (h : tree.scan onLink loc (first ++ rest) = some res) :
    tree.scan onLink loc' rest = some res := by
  induction first generalizing loc with
  | nil =>
    cases hfirst
    exact h
  | cons seg segs ih =>
    rw [List.cons_append] at h
    by_cases hdir : tree.isDir loc
    · cases seg with
      | here =>
        rw [scan_here hdir] at hfirst h
        exact ih hfirst h
      | up =>
        rw [scan_up hdir] at hfirst h
        exact ih hfirst h
      | name n =>
        obtain hnone | ⟨fromRoot, target, hnode⟩ | hnode := tree.node_cases (n :: loc)
        · rw [scan_missing hdir hnone] at hfirst
          cases hfirst
        · -- the target of a link goes before the rest of its part
          rw [scan_link hdir hnode] at hfirst h
          rw [← List.append_assoc] at h
          exact hlink _ _ hfirst h
        · rw [scan_name hdir hnode] at hfirst h
          exact ih hfirst h
    · rw [scan_stop hdir] at hfirst
      cases hfirst

/-- A scan from a real location ends at one. -/
theorem scan_real
    (hlink : ∀ loc segs res, tree.Real loc → onLink loc segs = some res → tree.Real res.1)
    (hreal : tree.Real loc) (h : tree.scan onLink loc segs = some res) : tree.Real res.1 := by
  induction segs generalizing loc with
  | nil =>
    cases h
    exact hreal
  | cons seg segs ih =>
    by_cases hdir : tree.isDir loc
    · cases seg with
      | here =>
        rw [scan_here hdir] at h
        exact ih hreal h
      | up =>
        rw [scan_up hdir] at h
        -- the root is its own parent
        refine ih ?_ h
        cases loc with
        | nil => exact hreal
        | cons n loc => exact hreal.1
      | name n =>
        obtain hnone | ⟨fromRoot, target, hnode⟩ | hnode := tree.node_cases (n :: loc)
        · rw [scan_missing hdir hnone] at h
          cases h
          exact hreal
        · -- a link is walked from the root or from where it is, and both are real
          rw [scan_link hdir hnode] at h
          refine hlink _ _ _ ?_ h
          split
          · exact trivial
          · exact hreal
        · rw [scan_name hdir hnode] at h
          exact ih (show tree.Real (n :: loc) from ⟨hreal, hdir, hnode⟩) h
    · rw [scan_stop hdir] at h
      cases h
      exact hreal

/-- The way to a real location leads there. -/
theorem scan_route (hreal : tree.Real loc) :
    tree.scan onLink [] (route loc ++ segs) = tree.scan onLink loc segs := by
  induction loc generalizing segs with
  | nil => rfl
  | cons n loc ih =>
    obtain ⟨hreal, hdir, hnode⟩ := hreal
    rw [route, List.reverse_cons, List.map_append, List.append_assoc]
    exact (ih hreal).trans (scan_name hdir hnode)

end Scan

/-! ## Dots -/

section Dots

variable {tree : FileTree ν} {loc : List ν} {segs : List (Segment ν)}
  {onLink : List ν → List (Segment ν) → Option (List ν × List (Segment ν))}

@[simp] theorem moves_nil : moves ([] : List (Segment ν)) = [] := rfl

@[simp] theorem moves_here : moves (.here :: segs) = moves segs := rfl

@[simp] theorem moves_up : moves (.up :: segs) = .up :: moves segs := rfl

@[simp] theorem moves_name (n : ν) : moves (.name n :: segs) = .name n :: moves segs := rfl

@[simp] theorem moves_append (segs' : List (Segment ν)) :
    moves (segs ++ segs') = moves segs ++ moves segs' := List.filter_append ..

@[simp] theorem moves_moves : moves (moves segs) = moves segs := by
  rw [moves, moves, List.filter_filter]
  simp

@[simp] theorem moves_names (names : List ν) :
    moves (names.map Segment.name) = names.map .name := by
  induction names with
  | nil => rfl
  | cons n names ih => rw [List.map_cons, moves_name, ih]

/-- A result without the dots of what is left. -/
def settle (res : List ν × List (Segment ν)) : List ν × List (Segment ν) := (res.1, moves res.2)

theorem place_eq (links : ℕ) :
    tree.place links loc segs = (tree.walk links loc segs).map settle := rfl

/-- Dots do not change where a scan leads. -/
theorem scan_moves
    (hlink : ∀ loc segs, (onLink loc segs).map settle = (onLink loc (moves segs)).map settle) :
    (tree.scan onLink loc segs).map settle = (tree.scan onLink loc (moves segs)).map settle := by
  induction segs generalizing loc with
  | nil => rfl
  | cons seg segs ih =>
    by_cases hdir : tree.isDir loc
    · cases seg with
      | here =>
        rw [scan_here hdir, moves_here]
        exact ih
      | up =>
        rw [moves_up, scan_up hdir, scan_up hdir]
        exact ih
      | name n =>
        rw [moves_name]
        obtain hnone | ⟨fromRoot, target, hnode⟩ | hnode := tree.node_cases (n :: loc)
        · rw [scan_missing hdir hnone, scan_missing hdir hnone]
          simp [settle]
        · -- the target may have dots of its own, so both sides lose them
          rw [scan_link hdir hnode, scan_link hdir hnode, hlink, hlink _ (target ++ moves segs)]
          simp
        · rw [scan_name hdir hnode, scan_name hdir hnode]
          exact ih
    · rw [scan_not_dir hdir, scan_not_dir hdir]
      simp [settle]

end Dots

/-! ## The walk -/

section Walk

variable {tree : FileTree ν} {links : ℕ} {loc loc' : List ν} {segs first rest : List (Segment ν)}
  {res : List ν × List (Segment ν)}

/-- **Dots do not change where a path leads.** -/
theorem place_moves : tree.place links loc segs = tree.place links loc (moves segs) := by
  rw [place_eq, place_eq, walk_eq]
  refine scan_moves fun loc segs => ?_
  induction links generalizing loc segs with
  | zero => rfl
  | succ links ih =>
    rw [next, walk_eq]
    exact scan_moves ih

/-- Two paths with the same moves lead to the same place. -/
theorem place_congr {segs' : List (Segment ν)} (h : moves segs = moves segs') :
    tree.place links loc segs = tree.place links loc segs' := by
  rw [place_moves, h, ← place_moves]

theorem walk_mono (h : tree.walk links loc segs = some res) :
    tree.walk (links + 1) loc segs = some res := by
  induction links generalizing loc segs res with
  | zero => exact scan_mono (fun _ _ _ hnone => by cases hnone) h
  | succ links ih => exact scan_mono (fun _ _ _ hlink => ih hlink) h

/-- **A path is walked part after part.** -/
theorem walk_append (hfirst : tree.walk links loc first = some (loc', []))
    (h : tree.walk links loc (first ++ rest) = some res) :
    tree.walk links loc' rest = some res := by
  -- a link that is followed leaves one link less for the rest; with one more the result is the same
  induction links generalizing loc first with
  | zero => exact scan_append (fun _ _ hnone => by cases hnone) hfirst h
  | succ links ih => exact scan_append (fun _ _ hf hr => walk_mono (ih hf hr)) hfirst h

/-- **A walk ends at a real location.** -/
theorem walk_real (hreal : tree.Real loc) (h : tree.walk links loc segs = some res) :
    tree.Real res.1 := by
  induction links generalizing loc segs res with
  | zero => exact scan_real (fun _ _ _ _ hnone => by cases hnone) hreal h
  | succ links ih => exact scan_real (fun _ _ _ hr hlink => ih hr hlink) hreal h

/-- The way to a real location leads there. -/
theorem walk_route (hreal : tree.Real loc) :
    tree.walk links [] (route loc ++ segs) = tree.walk links loc segs := by
  rw [walk_eq]
  exact scan_route hreal

end Walk

end FileTree

end Hiko.Lib
