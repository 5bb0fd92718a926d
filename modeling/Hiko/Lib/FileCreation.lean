import Hiko.Lib.FileTree

/-!
# Creating files

Where opening a path leads when the directories and the file that are missing are created.
Directories are created as plain directories under the names of the path, never through a link; the
file is created through a link if that is the last name of the path.

## Main definitions

* `FileTree.create`: the location of the file that is opened or created

## Main results

* `walk_split`, `create_prefix`: a path with a first part that is there
* `create_missing`, `create_dots`: what is created below a name that is missing, and before dots
* `create_mono`: with more links a file that was created is created at the same location
-/

namespace Hiko.Lib.FileTree

variable {ν : Type}

/-- Walk along segments and create what is missing, up to the first link: `onLink` goes on from its
target. The names that were created below the location are `new`, the innermost first. -/
def createScan (tree : FileTree ν)
    (onLink : List ν → List (Segment ν) → List (Segment ν) → Option (List ν)) :
    List ν → List ν → List (Segment ν) → Option (List ν)
  | new, loc, [] => some (new ++ loc)
  | m :: new, loc, seg :: segs =>
    match seg with
    | .here => createScan tree onLink (m :: new) loc segs
    | .up => createScan tree onLink new loc segs
    | .name n => createScan tree onLink (n :: m :: new) loc segs
  | [], loc, seg :: segs =>
    if tree.isDir loc then
      match seg with
      | .here => createScan tree onLink [] loc segs
      | .up => createScan tree onLink [] loc.tail segs
      | .name n =>
        match tree.node (n :: loc) with
        | none => createScan tree onLink [n] loc segs
        | some (.link fromRoot target) => onLink (if fromRoot then [] else loc) target segs
        | some _ => createScan tree onLink [] (n :: loc) segs
    else none

/-- The location of the file that is opened or created, through at most so many links. The target of
a link has to be there, but for the file itself. -/
def create (tree : FileTree ν) : ℕ → List ν → List (Segment ν) → Option (List ν)
  | 0 => tree.createScan (fun _ _ _ => none) []
  | links + 1 => tree.createScan (fun base target segs =>
      match tree.walk links base target with
      | some (loc, []) => if segs.isEmpty then some loc else create tree links base (target ++ segs)
      | some (loc, [.name n]) => if segs.isEmpty && tree.isDir loc then some (n :: loc) else none
      | _ => none) []

section Create

variable {tree : FileTree ν} {links : ℕ} {loc loc' : List ν} {n : ν}
  {segs first rest : List (Segment ν)} {res : List ν × List (Segment ν)} {file : List ν}

/-! ## A first part that is there -/

theorem scan_split {onLink : List ν → List (Segment ν) → Option (List ν × List (Segment ν))}
    (hlink : ∀ loc segs, onLink loc (segs ++ rest) = some (loc', []) →
      ∃ mid, onLink loc segs = some (mid, []))
    (h : tree.scan onLink loc (first ++ rest) = some (loc', [])) :
    ∃ mid, tree.scan onLink loc first = some (mid, []) := by
  induction first generalizing loc with
  | nil => exact ⟨loc, rfl⟩
  | cons seg segs ih =>
    rw [List.cons_append] at h
    by_cases hdir : tree.isDir loc
    · cases seg with
      | here =>
        rw [scan_here hdir] at h ⊢
        exact ih h
      | up =>
        rw [scan_up hdir] at h ⊢
        exact ih h
      | name n =>
        obtain hnone | ⟨fromRoot, target, hnode⟩ | hnode := tree.node_cases (n :: loc)
        · rw [scan_missing hdir hnone] at h
          cases h
        · rw [scan_link hdir hnode, ← List.append_assoc] at h
          rw [scan_link hdir hnode]
          exact hlink _ _ h
        · rw [scan_name hdir hnode] at h ⊢
          exact ih h
    · rw [scan_stop hdir] at h
      cases h

/-- The first part of a path that is there is there. -/
theorem walk_split (h : tree.walk links loc (first ++ rest) = some (loc', [])) :
    ∃ mid, tree.walk links loc first = some (mid, []) := by
  induction links generalizing loc first with
  | zero => exact scan_split (fun _ _ hnone => by cases hnone) h
  | succ links ih => exact scan_split (fun _ _ hl => ih hl) h

/-- What `create` does at a link. -/
def createLink (tree : FileTree ν) : ℕ → List ν → List (Segment ν) → List (Segment ν) →
    Option (List ν)
  | 0, _, _, _ => none
  | links + 1, base, target, segs =>
    match tree.walk links base target with
    | some (loc, []) =>
      if segs.isEmpty then some loc else tree.create links base (target ++ segs)
    | some (loc, [.name n]) => if segs.isEmpty && tree.isDir loc then some (n :: loc) else none
    | _ => none

theorem create_eq (links : ℕ) : tree.create links = tree.createScan (tree.createLink links) [] := by
  cases links <;> rfl

theorem create_nil : tree.create links loc [] = some loc := by
  rw [create_eq, createScan, List.nil_append]

theorem create_here (hdir : tree.isDir loc) :
    tree.create links loc (.here :: segs) = tree.create links loc segs := by
  rw [create_eq, createScan, if_pos hdir]

theorem create_up (hdir : tree.isDir loc) :
    tree.create links loc (.up :: segs) = tree.create links loc.tail segs := by
  rw [create_eq, createScan, if_pos hdir]

theorem create_link {fromRoot : Bool} {target : List (Segment ν)} (hdir : tree.isDir loc)
    (hnode : tree.node (n :: loc) = some (.link fromRoot target)) :
    tree.create links loc (.name n :: segs) =
      tree.createLink links (if fromRoot then [] else loc) target segs := by
  rw [create_eq, createScan, if_pos hdir]
  simp only [hnode]

theorem create_name (hdir : tree.isDir loc)
    (hnode : tree.node (n :: loc) = some .dir ∨ tree.node (n :: loc) = some .file) :
    tree.create links loc (.name n :: segs) = tree.create links (n :: loc) segs := by
  rw [create_eq, createScan, if_pos hdir]
  rcases hnode with hnode | hnode <;> simp only [hnode]

/-- What is no directory has nothing below it. -/
theorem create_stop {seg : Segment ν} (hdir : ¬ tree.isDir loc) :
    tree.create links loc (seg :: segs) = none := by
  cases seg <;> rw [create_eq, createScan, if_neg hdir]

/-- The way to a real location leads there. -/
theorem create_route (hreal : tree.Real loc) :
    tree.create links [] (route loc ++ segs) = tree.create links loc segs := by
  induction loc generalizing segs with
  | nil => rfl
  | cons n loc ih =>
    obtain ⟨hreal, hdir, hnode⟩ := hreal
    rw [route, List.reverse_cons, List.map_append, List.append_assoc]
    exact (ih hreal).trans (create_name hdir hnode)

theorem createScan_prefix
    (hlink : ∀ base target segs, tree.next links base (target ++ segs) = some (loc', []) →
      ∃ links' ≤ links, ∀ rest,
        tree.next links base (target ++ segs ++ rest) = tree.walk links' loc' rest ∧
          tree.createLink links base target (segs ++ rest) = tree.create links' loc' rest)
    (h : tree.walk links loc first = some (loc', [])) :
    ∃ links' ≤ links, ∀ rest, tree.walk links loc (first ++ rest) = tree.walk links' loc' rest ∧
      tree.create links loc (first ++ rest) = tree.create links' loc' rest := by
  rw [walk_eq] at h
  induction first generalizing loc with
  | nil =>
    cases h
    exact ⟨links, le_rfl, fun rest => ⟨rfl, rfl⟩⟩
  | cons seg segs ih =>
    by_cases hdir : tree.isDir loc
    · cases seg with
      | here =>
        rw [scan_here hdir] at h
        obtain ⟨links', hle, hrest⟩ := ih h
        refine ⟨links', hle, fun rest => ?_⟩
        rw [List.cons_append, create_here hdir, walk_eq, scan_here hdir, ← walk_eq]
        exact hrest rest
      | up =>
        rw [scan_up hdir] at h
        obtain ⟨links', hle, hrest⟩ := ih h
        refine ⟨links', hle, fun rest => ?_⟩
        rw [List.cons_append, create_up hdir, walk_eq, scan_up hdir, ← walk_eq]
        exact hrest rest
      | name n =>
        obtain hnone | ⟨fromRoot, target, hnode⟩ | hnode := tree.node_cases (n :: loc)
        · rw [scan_missing hdir hnone] at h
          cases h
        · rw [scan_link hdir hnode] at h
          obtain ⟨links', hle, hrest⟩ := hlink _ _ _ h
          refine ⟨links', hle, fun rest => ?_⟩
          rw [List.cons_append, create_link hdir hnode, walk_eq, scan_link hdir hnode,
            ← List.append_assoc]
          exact hrest rest
        · rw [scan_name hdir hnode] at h
          obtain ⟨links', hle, hrest⟩ := ih h
          refine ⟨links', hle, fun rest => ?_⟩
          rw [List.cons_append, create_name hdir hnode, walk_eq, scan_name hdir hnode, ← walk_eq]
          exact hrest rest
    · rw [scan_stop hdir] at h
      cases h

/-- **A first part that is there** leaves some of the links for the rest of the path. -/
theorem create_prefix (h : tree.walk links loc first = some (loc', [])) :
    ∃ links' ≤ links, ∀ rest, tree.walk links loc (first ++ rest) = tree.walk links' loc' rest ∧
      tree.create links loc (first ++ rest) = tree.create links' loc' rest := by
  induction links generalizing loc first with
  | zero => exact createScan_prefix (fun _ _ _ hnone => by cases hnone) h
  | succ links ih =>
    refine createScan_prefix (fun base target segs hwalk => ?_) h
    obtain ⟨links', hle, hrest⟩ := ih hwalk
    refine ⟨links', hle.trans links.le_succ, fun rest => ⟨(hrest rest).1, ?_⟩⟩
    obtain ⟨mid, hmid⟩ := walk_split hwalk
    rw [createLink, hmid]
    dsimp only
    split
    · next hempty =>
      -- the link is the last name: its target is the place
      obtain ⟨rfl, rfl⟩ : segs = [] ∧ rest = [] := by simpa using hempty
      rw [List.append_nil] at hwalk
      cases hwalk.symm.trans hmid
      exact create_nil.symm
    · rw [← List.append_assoc]
      exact (hrest rest).2

/-! ## More links -/

theorem createScan_mono
    {onLink onLink' : List ν → List (Segment ν) → List (Segment ν) → Option (List ν)}
    {new : List ν}
    (hlink : ∀ base target segs, onLink base target segs = some file →
      onLink' base target segs = some file)
    (h : tree.createScan onLink new loc segs = some file) :
    tree.createScan onLink' new loc segs = some file := by
  induction segs generalizing new loc with
  | nil => exact h
  | cons seg segs ih =>
    cases new with
    | cons m new => cases seg <;> exact ih h
    | nil =>
      by_cases hdir : tree.isDir loc
      · cases seg with
        | here | up =>
          rw [createScan, if_pos hdir] at h ⊢
          exact ih h
        | name n =>
          rw [createScan, if_pos hdir] at h ⊢
          obtain hnone | ⟨fromRoot, target, hnode⟩ | hnode := tree.node_cases (n :: loc)
          · simp only [hnone] at h ⊢
            exact ih h
          · simp only [hnode] at h ⊢
            exact hlink _ _ _ h
          · rcases hnode with hnode | hnode <;> simp only [hnode] at h ⊢ <;> exact ih h
      · cases seg <;>
        · rw [createScan, if_neg hdir] at h
          cases h

theorem create_succ (h : tree.create links loc segs = some file) :
    tree.create (links + 1) loc segs = some file := by
  induction links generalizing loc segs with
  | zero =>
    rw [create_eq] at h ⊢
    exact createScan_mono (fun _ _ _ hnone => by cases hnone) h
  | succ links ih =>
    rw [create_eq] at h ⊢
    refine createScan_mono (fun base target segs hl => ?_) h
    rw [createLink] at hl ⊢
    -- the target leads to the same place with a link more
    cases hwalk : tree.walk links base target with
    | none =>
      rw [hwalk] at hl
      cases hl
    | some res =>
      rw [hwalk] at hl
      rw [walk_mono hwalk]
      obtain ⟨mid, left⟩ := res
      cases left with
      | nil =>
        dsimp only at hl ⊢
        split
        · next hempty => rwa [if_pos hempty] at hl
        · next hempty =>
          rw [if_neg hempty] at hl
          exact ih hl
      | cons seg left => cases seg <;> cases left <;> exact hl

/-- With more links a file that is created is created at the same location. -/
theorem create_mono {links' : ℕ} (hle : links ≤ links')
    (h : tree.create links loc segs = some file) : tree.create links' loc segs = some file := by
  induction hle with
  | refl => exact h
  | step _ ih => exact create_succ ih

/-! ## Missing names -/

/-- Below what was created a path without `..` leads down. -/
theorem createScan_new
    {onLink : List ν → List (Segment ν) → List (Segment ν) → Option (List ν)} {new : List ν}
    (hups : .up ∉ segs) (h : tree.createScan onLink (n :: new) loc segs = some file) :
    n :: (new ++ loc) <:+ file := by
  induction segs generalizing n new with
  | nil =>
    cases h
    exact List.suffix_rfl
  | cons seg segs ih =>
    have hrest : .up ∉ segs := fun hmem => hups (List.mem_cons_of_mem _ hmem)
    cases seg with
    | here => exact ih hrest h
    | up => exact absurd (List.mem_cons_self ..) hups
    | name m => exact (List.suffix_cons m _).trans (ih hrest h)

/-- **Below a name that is missing** a path without `..` leads down. -/
theorem create_missing (hnode : tree.node (n :: loc) = none) (hups : .up ∉ segs)
    (h : tree.create links loc (.name n :: segs) = some file) : n :: loc <:+ file := by
  rw [create_eq, createScan] at h
  split at h
  · simp only [hnode] at h
    exact createScan_new hups h
  · cases h

/-! ## Dots at the end -/

/-- Dots stay at a directory. -/
theorem walk_heres_append (hdir : tree.isDir loc) (heres : ∀ seg ∈ first, seg = .here) :
    tree.walk links loc (first ++ rest) = tree.walk links loc rest := by
  rw [walk_eq]
  induction first with
  | nil => rfl
  | cons seg segs ih =>
    obtain ⟨rfl, hrest⟩ := List.forall_mem_cons.mp heres
    rw [List.cons_append, scan_here hdir]
    exact ih hrest

theorem walk_heres (hdir : tree.isDir loc) (heres : ∀ seg ∈ segs, seg = .here) :
    tree.walk links loc segs = some (loc, []) := by
  calc tree.walk links loc segs
      = tree.walk links loc (segs ++ []) := by rw [List.append_nil]
    _ = tree.walk links loc [] := walk_heres_append hdir heres
    _ = some (loc, []) := by rw [walk_eq, scan_nil]

theorem create_heres (hdir : tree.isDir loc) (heres : ∀ seg ∈ first, seg = .here) :
    tree.create links loc (first ++ rest) = tree.create links loc rest := by
  induction first with
  | nil => rfl
  | cons seg segs ih =>
    obtain ⟨rfl, hrest⟩ := List.forall_mem_cons.mp heres
    rw [List.cons_append, create_here hdir]
    exact ih hrest

/-- Something is created below directories only. -/
theorem isDir_of_create (hne : segs ≠ []) (h : tree.create links loc segs = some file) :
    tree.isDir loc := by
  obtain ⟨seg, segs, rfl⟩ := List.exists_cons_of_ne_nil hne
  by_contra hdir
  rw [create_stop hdir] at h
  cases h

/-- **A name with dots behind it** is missing, or leads to what is there. -/
theorem create_dots (heres : ∀ seg ∈ segs, seg = .here) (hne : segs ≠ [])
    (h : tree.create links loc (.name n :: segs) = some file) :
    tree.node (n :: loc) = none ∨ tree.walk links loc (.name n :: segs) = some (file, []) := by
  have hdir := isDir_of_create (List.cons_ne_nil _ _) h
  have hlast : ∀ {links : ℕ} {loc : List ν}, tree.create links loc segs = some file →
      tree.walk links loc segs = some (file, []) := by
    intro links loc hcreate
    have hd := isDir_of_create hne hcreate
    have hfile : some file = some loc := by
      calc some file
          = tree.create links loc (segs ++ []) := by rw [List.append_nil, hcreate]
        _ = tree.create links loc [] := create_heres hd heres
        _ = some loc := create_nil
    rw [walk_heres hd heres, Option.some.inj hfile]
  obtain hnone | ⟨fromRoot, target, hnode⟩ | hnode := tree.node_cases (n :: loc)
  · exact .inl hnone
  · refine .inr ?_
    rw [create_link hdir hnode] at h
    rw [walk_eq, scan_link hdir hnode]
    cases links with
    | zero => cases h
    | succ links =>
      rw [createLink] at h
      -- dots follow the link, so that its target has to be there
      split at h
      · next mid hmid =>
        rw [if_neg (by simpa using hne)] at h
        obtain ⟨links', hle, hrest⟩ := create_prefix hmid
        rw [(hrest segs).2] at h
        exact (hrest segs).1.trans (hlast h)
      · rw [if_neg (by simp [hne])] at h
        cases h
      · cases h
  · refine .inr ?_
    rw [create_name hdir hnode] at h
    rw [walk_eq, scan_name hdir hnode, ← walk_eq]
    exact hlast h

end Create

end Hiko.Lib.FileTree
