import Hiko.Fs.Path

/-!
# Paths of the file builtins

A file builtin may use some folders. `cap_candidates_for` turns the path it is given into a path
relative to each folder that the path can be below, and the access goes through the directory
handle of that folder. A path is relative to a folder because it starts with it, or because its
canonical path does.

## Main definitions

* `capRelativePathFor`, `capCandidatesFor`: the functions of the heap
* `rebuildCapDirs`: the folders that are open

## Main results

* `capCandidatesFor_confined`: candidates have plain relative paths that lead where the path given
  leads, and no existing path in a folder is left without one
-/

namespace Hiko

open Lib Lib.FileTree

/-! ## The functions -/

/-- `open_cap_dir`: the canonical path of a folder. -/
def openCapDir (fs : FileSystem) (path : String) : Option Path :=
  match fs.resolve (.new path) with
  | some loc => if fs.tree.isDir loc then some (.ofLocation loc) else none
  | none => none

/-- `FILESYSTEM_BUILTIN_NAMES`. -/
def filesystemBuiltinNames : List String :=
  ["read_file", "read_file_bytes", "write_file", "file_exists", "list_dir", "remove_file",
    "create_dir", "is_dir", "is_file", "glob", "walk_dir"]

/-- `rebuild_cap_dirs`: the folders of each builtin, from the root or the folders of a policy. -/
def rebuildCapDirs (fs : FileSystem) (root : String)
    (builtinFolders : List (String × List String)) : List (String × List Path) :=
  if builtinFolders.isEmpty then
    if root = "" then []
    else
      match openCapDir fs root with
      | some dir => filesystemBuiltinNames.map fun builtin => (builtin, [dir])
      | none => []
  else builtinFolders.map fun e => (e.1, e.2.filterMap (openCapDir fs))

/-- The loop of `validate_cap_relative_path`. -/
def checkComponents : List PathComponent → Except String Unit
  | [] => .ok ()
  | .normal _ :: cs => checkComponents cs
  | .curDir :: cs => checkComponents cs
  | .parentDir :: _ => .error "path contains parent-directory component outside allowed root"
  | .rootDir :: _ => .error "absolute paths are not allowed for filesystem capabilities"

/-- `validate_cap_relative_path`. -/
def validateCapRelativePath (path : Path) : Except String Unit :=
  if path.isEmpty then .ok ()
  else if path.absolute then
    .error "absolute paths are not allowed for filesystem capabilities"
  else checkComponents path.components

/-- The piece of a normal component. -/
def normalName? : PathComponent → Option (Segment OsName)
  | .normal n => some (.name n)
  | _ => none

/-- `normalize_cap_relative_path`. -/
def normalizeCapRelativePath (path : Path) : Path :=
  let normalized := path.components.filterMap normalName?
  if normalized.isEmpty then ⟨false, [.here]⟩ else ⟨false, normalized⟩

/-- `cap_relative_path_for_absolute_fast`. -/
def capRelativePathForAbsoluteFast (root path : Path) : Option Path :=
  match path.stripPrefix root with
  | none => none
  | some relative =>
    match validateCapRelativePath relative with
    | .error _ => none
    | .ok () => some (normalizeCapRelativePath relative)

/-- The loop of `canonicalize_with_missing_tail`. The names of `tail` were taken from the end of the
path, the last one first. -/
def missingTailLoop (fs : FileSystem) (tail : List OsName) (cursor : Path) : Except String Path :=
  if fs.pathExists cursor then
    match fs.canonicalize cursor with
    | .error e => .error e
    | .ok resolved => .ok (tail.foldl Path.push resolved)
  else
    match cursor.fileName with
    | none => .error "no existing ancestor for path"
    | some name =>
      match _h : cursor.parent with
      | none => .error "no existing ancestor for path"
      | some parent => missingTailLoop fs (name :: tail) parent
termination_by cursor.parts.length
decreasing_by exact Path.parent_lt _h

/-- `canonicalize_with_missing_tail`. -/
def canonicalizeWithMissingTail (fs : FileSystem) (path : Path) : Except String Path :=
  if fs.pathExists path then fs.canonicalize path else missingTailLoop fs [] path

/-- `cap_relative_path_for`. -/
def capRelativePathFor (fs : FileSystem) (root : Path) (path : String) :
    Except String (Option Path) :=
  if (Path.new path).absolute then
    match capRelativePathForAbsoluteFast root (.new path) with
    | some relative => .ok (some relative)
    | none =>
      match canonicalizeWithMissingTail fs (.new path) with
      | .error e => .error ("cannot resolve path '" ++ path ++ "': " ++ e)
      | .ok resolved =>
        match resolved.stripPrefix root with
        | none => .ok none
        | some relative =>
          match validateCapRelativePath relative with
          | .error e => .error e
          | .ok () => .ok (some (normalizeCapRelativePath relative))
  else
    match validateCapRelativePath (.new path) with
    | .error e => .error e
    | .ok () => .ok (some (normalizeCapRelativePath (.new path)))

/-- `CapFsCandidate`, without the handle of the directory. -/
structure CapFsCandidate where
  root : Path
  relativePath : Path
deriving DecidableEq

/-- The candidates for some folders. The first error ends the search. -/
def capCandidates (fs : FileSystem) (path : String) :
    List Path → Except String (List CapFsCandidate)
  | [] => .ok []
  | root :: dirs =>
    match capRelativePathFor fs root path with
    | .error e => .error e
    | .ok relative? =>
      match capCandidates fs path dirs with
      | .error e => .error e
      | .ok candidates =>
        match relative? with
        | some relative => .ok (⟨root, relative⟩ :: candidates)
        | none => .ok candidates

/-- `cap_candidates_for`, with the open folders of each builtin. -/
def capCandidatesFor (fs : FileSystem) (builtinDirs : List (String × List Path))
    (builtin path : String) : Except String (List CapFsCandidate) :=
  match builtinDirs.lookup builtin with
  | none => .error ("builtin '" ++ builtin ++ "' has no filesystem permission")
  | some dirs =>
    if dirs.isEmpty then .error ("builtin '" ++ builtin ++ "' has no allowed folders")
    else
      match capCandidates fs path dirs with
      | .error e => .error e
      | .ok candidates =>
        if candidates.isEmpty then
          .error ("path '" ++ path ++ "' is outside allowed root/folders")
        else .ok candidates

/-! ## Relative paths -/

/-- A relative path of names, or a single dot. -/
def Path.Plain (p : Path) : Prop :=
  p.absolute = false ∧
    (p.components = [.curDir] ∨
      p.components ≠ [] ∧ ∀ c ∈ p.components, ∃ n, c = .normal n)

/-- The plain path of some names. -/
def plainPath (names : List OsName) : Path :=
  if names = [] then ⟨false, [.here]⟩ else ⟨false, names.map .name⟩

theorem plainPath_plain (names : List OsName) : (plainPath names).Plain := by
  cases names with
  | nil => exact ⟨rfl, .inl rfl⟩
  | cons n names =>
    have hcomponents : (plainPath (n :: names)).components = (n :: names).map .normal := by
      rw [plainPath, if_neg (List.cons_ne_nil n names), Path.components]
      simp only [Path.filterMap_names]
      rfl
    refine ⟨rfl, .inr ⟨by rw [hcomponents]; simp, fun c hc => ?_⟩⟩
    rw [hcomponents] at hc
    obtain ⟨m, -, rfl⟩ := List.mem_map.mp hc
    exact ⟨m, rfl⟩

theorem moves_plainPath (names : List OsName) :
    moves (plainPath names).parts = names.map .name := by
  unfold plainPath
  split
  · next hnil =>
    rw [hnil]
    rfl
  · exact moves_names names

theorem of_checkComponents {cs : List PathComponent} (h : checkComponents cs = .ok ()) :
    ∀ c ∈ cs, c = .curDir ∨ ∃ n, c = .normal n := by
  induction cs with
  | nil => exact fun c hc => by cases hc
  | cons c cs ih =>
    cases c with
    | rootDir | parentDir => cases h
    | curDir => exact List.forall_mem_cons.mpr ⟨.inl rfl, ih h⟩
    | normal n => exact List.forall_mem_cons.mpr ⟨.inr ⟨n, rfl⟩, ih h⟩

/-- The components of pieces are not the root, and no dots. -/
theorem mem_component {parts : List (Segment OsName)} {c : PathComponent}
    (hc : c ∈ parts.filterMap Path.component?) : c = .parentDir ∨ ∃ n, c = .normal n := by
  obtain ⟨seg, -, hseg⟩ := List.mem_filterMap.mp hc
  cases seg with
  | here => cases hseg
  | up => exact .inl (Option.some.inj hseg).symm
  | name n => exact .inr ⟨n, (Option.some.inj hseg).symm⟩

theorem names_of_normal {cs : List PathComponent} (h : ∀ c ∈ cs, ∃ n, c = .normal n) :
    ∃ names : List OsName, cs = names.map .normal := by
  induction cs with
  | nil => exact ⟨[], rfl⟩
  | cons c cs ih =>
    obtain ⟨⟨n, rfl⟩, hcs⟩ := List.forall_mem_cons.mp h
    obtain ⟨names, rfl⟩ := ih hcs
    exact ⟨n :: names, rfl⟩

@[simp] theorem filterMap_normalName (names : List OsName) :
    (names.map PathComponent.normal).filterMap normalName? = names.map .name := by
  induction names with
  | nil => rfl
  | cons n names ih => simpa [normalName?] using ih

/-- **A relative path that is validated consists of names**, and normalizing leaves these. -/
theorem validate_ok {p : Path} (habs : p.absolute = false)
    (h : validateCapRelativePath p = .ok ()) :
    ∃ names : List OsName, p.parts.filterMap Path.component? = names.map .normal ∧
      normalizeCapRelativePath p = plainPath names := by
  have hall : ∀ c ∈ p.components, c = .curDir ∨ ∃ n, c = .normal n := by
    unfold validateCapRelativePath at h
    split at h
    · next hempty =>
      have hnil : p.parts = [] := by simpa [Path.isEmpty, habs] using hempty
      intro c hc
      simp [Path.components, habs, hnil] at hc
    · rw [if_neg (by simp [habs])] at h
      exact of_checkComponents h
  obtain ⟨names, hnames⟩ : ∃ names : List OsName,
      p.parts.filterMap Path.component? = names.map .normal := by
    refine names_of_normal fun c hc => ?_
    obtain rfl | hn := hall c (List.mem_append_right _ hc)
    · obtain hup | ⟨n, hn⟩ := mem_component hc
      · cases hup
      · cases hn
    · exact hn
  refine ⟨names, hnames, ?_⟩
  have hnormal : p.components.filterMap normalName? = names.map .name := by
    have hdots : (if p.absolute then [PathComponent.rootDir] else
        if p.parts.head? = some .here then [PathComponent.curDir] else []).filterMap normalName? =
          [] := by
      split
      · rfl
      · split <;> rfl
    rw [Path.components, hnames, List.filterMap_append, hdots, List.nil_append,
      filterMap_normalName]
  unfold normalizeCapRelativePath plainPath
  rw [hnormal]
  cases names <;> rfl

/-! ## Prefixes -/

/-- What is left of an absolute path after a canonical prefix. -/
theorem stripPrefix_ok {p relative : Path} {loc : List OsName} (habs : p.absolute = true)
    (h : p.stripPrefix (.ofLocation loc) = some relative) : relative.absolute = false ∧
      p.parts.filterMap Path.component? =
        loc.reverse.map .normal ++ relative.parts.filterMap Path.component? := by
  unfold Path.stripPrefix at h
  split at h
  · next hprefix =>
    -- `rest` are the components after the prefix; none of them is the root or a dot, so that they
    -- make a relative path with the same names
    obtain ⟨rest, hrest⟩ := hprefix
    rw [← hrest, List.drop_left] at h
    rw [Path.components_ofLocation, Path.components_absolute habs, List.cons_append,
      List.cons.injEq] at hrest
    have hmem : ∀ c ∈ rest, c = .parentDir ∨ ∃ n, c = .normal n := fun c hc =>
      mem_component (hrest.2 ▸ List.mem_append_right _ hc)
    have hcomponents : ∀ cs : List PathComponent, (∀ c ∈ cs, c = .parentDir ∨ ∃ n, c = .normal n) →
        (cs.filterMap Path.segment?).filterMap Path.component? = cs := by
      intro cs hcs
      induction cs with
      | nil => rfl
      | cons c cs ih =>
        obtain ⟨hc, hrest⟩ := List.forall_mem_cons.mp hcs
        obtain rfl | ⟨n, rfl⟩ := hc <;> simp [Path.segment?, Path.component?, ih hrest]
    cases h
    refine ⟨?_, ?_⟩
    · cases rest with
      | nil => rfl
      | cons c rest =>
        obtain rfl | ⟨n, rfl⟩ := (List.forall_mem_cons.mp hmem).1 <;> rfl
    · rw [← hrest.2, Path.ofComponents, hcomponents rest hmem]
  · cases h

/-- **A path below a canonical one**, with the relative path that the builtins use. -/
theorem strip_validate {p relative : Path} {loc : List OsName} (habs : p.absolute = true)
    (h : p.stripPrefix (.ofLocation loc) = some relative)
    (hvalid : validateCapRelativePath relative = .ok ()) :
    ∃ names : List OsName, normalizeCapRelativePath relative = plainPath names ∧
      moves p.parts = route loc ++ names.map .name := by
  obtain ⟨hrel, hparts⟩ := stripPrefix_ok habs h
  obtain ⟨names, hnames, hnormal⟩ := validate_ok hrel hvalid
  refine ⟨names, hnormal, ?_⟩
  rw [hnames, ← List.map_append] at hparts
  rw [Path.moves_of_components hparts, List.map_append]
  rfl

/-! ## Missing tails -/

section Tail

variable {fs : FileSystem} {p resolved : Path}

theorem foldl_push (p : Path) (tail : List OsName) :
    tail.foldl Path.push p = ⟨p.absolute, p.parts ++ tail.map .name⟩ := by
  induction tail generalizing p with
  | nil => simp
  | cons n tail ih =>
    rw [List.foldl_cons, ih]
    simp [Path.push]

theorem missingTailLoop_parent {tail : List OsName} {cursor parent : Path} {name : OsName}
    (hexists : ¬ fs.pathExists cursor) (hname : cursor.fileName = some name)
    (hparent : cursor.parent = some parent) :
    missingTailLoop fs tail cursor = missingTailLoop fs (name :: tail) parent := by
  rw [missingTailLoop, if_neg hexists, hname]
  dsimp only
  split
  · next hnone => cases hparent.symm.trans hnone
  · next parent' hp => rw [Option.some.inj (hparent.symm.trans hp)]

/-- The resolved path of the loop leads where the path and its tail lead. -/
theorem missingTailLoop_ok (tail : List OsName) (cursor : Path) (habs : cursor.absolute = true)
    (h : missingTailLoop fs tail cursor = .ok resolved) :
    ∃ (loc names : List OsName), fs.tree.Real loc ∧
      resolved = ⟨true, route loc ++ names.map .name⟩ ∧
      ∀ place, fs.tree.place fs.maxLinks [] (cursor.parts ++ tail.map .name) = some place →
        fs.tree.place fs.maxLinks loc (names.map .name) = some place := by
  -- the induction is on the parents of the path; what leads to the same place is the path with the
  -- tail that was cut off so far
  induction tail, cursor using missingTailLoop.induct fs with
  | case1 tail cursor hexists e he =>
    rw [missingTailLoop, if_pos hexists, he] at h
    cases h
  | case2 tail cursor hexists canonical hc =>
    -- the cursor exists: its canonical path is real, and the tail goes on from there
    rw [missingTailLoop, if_pos hexists, hc] at h
    obtain ⟨loc, hloc, hreal, rfl⟩ := FileSystem.canonicalize_ok hc
    refine ⟨loc, tail, hreal, ?_, fun place hplace => ?_⟩
    · rw [← Except.ok.inj h, foldl_push]
      rfl
    · obtain ⟨res, hwalk, hsettle⟩ := Option.map_eq_some_iff.mp hplace
      have hfirst := FileSystem.resolve_walk hloc
      rw [FileSystem.start, if_pos habs] at hfirst
      exact Option.map_eq_some_iff.mpr ⟨res, walk_append hfirst hwalk, hsettle⟩
  | case3 tail cursor hexists hname =>
    rw [missingTailLoop, if_neg hexists, hname] at h
    cases h
  | case4 tail cursor hexists name hname hparent =>
    rw [missingTailLoop, if_neg hexists, hname] at h
    dsimp only at h
    split at h
    · cases h
    · next parent hp => cases hparent.symm.trans hp
  | case5 tail cursor hexists name hname parent hparent ih =>
    -- one name more is cut off
    rw [missingTailLoop_parent hexists hname hparent] at h
    obtain ⟨hparentAbs, hmoves⟩ := Path.moves_parent habs hname hparent
    obtain ⟨loc, names, hreal, hresolved, hsame⟩ := ih hparentAbs h
    refine ⟨loc, names, hreal, hresolved, fun place hplace => hsame place ?_⟩
    rw [← hplace]
    exact place_congr (by simp [hmoves])

/-- **The resolved path leads where the path leads**, and starts at a real location. -/
theorem canonicalizeWithMissingTail_ok (habs : p.absolute = true)
    (h : canonicalizeWithMissingTail fs p = .ok resolved) :
    ∃ (loc names : List OsName), fs.tree.Real loc ∧
      resolved = ⟨true, route loc ++ names.map .name⟩ ∧
      ∀ place, fs.place p = some place →
        fs.tree.place fs.maxLinks loc (names.map .name) = some place := by
  have hloop : missingTailLoop fs [] p = .ok resolved := by
    unfold canonicalizeWithMissingTail at h
    split at h
    · next hexists =>
      rw [missingTailLoop, if_pos hexists, h]
      rfl
    · exact h
  obtain ⟨loc, names, hreal, hresolved, hsame⟩ := missingTailLoop_ok [] p habs hloop
  refine ⟨loc, names, hreal, hresolved, fun place hplace => hsame place ?_⟩
  rw [FileSystem.place, FileSystem.start, if_pos habs] at hplace
  simpa using hplace

end Tail

/-! ## One folder -/

section Folder

variable {fs : FileSystem} {loc : List OsName} {path : String}

/-- A relative path below a folder leads where its names lead. -/
theorem place_join {parts : List (Segment OsName)} {names : List OsName}
    (h : moves parts = route loc ++ names.map .name) :
    fs.place ((Path.ofLocation loc).join (plainPath names)) =
      fs.tree.place fs.maxLinks [] parts := by
  have habs : (plainPath names).absolute = false := (plainPath_plain names).1
  rw [Path.join, if_neg (by simp [habs])]
  refine place_congr ?_
  rw [h, Path.ofLocation, moves_append, moves_plainPath, route, moves_names]

/-- **The relative path for a folder is plain and leads where the path leads.** -/
theorem capRelativePathFor_ok {relative : Path}
    (h : capRelativePathFor fs (.ofLocation loc) path = .ok (some relative)) :
    relative.Plain ∧ ∀ place, fs.place ((Path.ofLocation loc).join (.new path)) = some place →
      fs.place ((Path.ofLocation loc).join relative) = some place := by
  unfold capRelativePathFor at h
  split at h
  · next habs =>
    rw [Path.join, if_pos habs, FileSystem.place, FileSystem.start, if_pos habs]
    split at h
    · next fast hfast =>
      -- the path starts with the folder as it is written
      obtain rfl := Option.some.inj (Except.ok.inj h)
      unfold capRelativePathForAbsoluteFast at hfast
      split at hfast
      · cases hfast
      · next hstrip =>
        split at hfast
        · cases hfast
        · next hvalid =>
          obtain ⟨names, hnormal, hmoves⟩ := strip_validate habs hstrip hvalid
          obtain rfl := Option.some.inj hfast
          rw [hnormal]
          refine ⟨plainPath_plain names, fun place hplace => ?_⟩
          rw [place_join hmoves]
          exact hplace
    · split at h
      · cases h
      · next resolved hresolved =>
        -- its canonical path does; that is real as far as it exists, so walking it from the root
        -- leads where walking the path leads
        obtain ⟨loc', tail, hreal, rfl, hsame⟩ := canonicalizeWithMissingTail_ok habs hresolved
        split at h
        · cases h
        · next hstrip =>
          split at h
          · cases h
          · next hvalid =>
            obtain ⟨names, hnormal, hmoves⟩ := strip_validate rfl hstrip hvalid
            obtain rfl := Option.some.inj (Except.ok.inj h)
            rw [hnormal]
            refine ⟨plainPath_plain names, fun place hplace => ?_⟩
            rw [FileSystem.place, FileSystem.start, if_pos habs] at hsame
            rw [place_join hmoves, Lib.FileTree.place, walk_route hreal]
            exact hsame place hplace
  · next hrel =>
    -- a relative path is below every folder
    split at h
    · cases h
    · next hvalid =>
      have habs : (Path.new path).absolute = false := by simpa using hrel
      obtain ⟨names, hnames, hnormal⟩ := validate_ok habs hvalid
      obtain rfl := Option.some.inj (Except.ok.inj h)
      rw [hnormal]
      refine ⟨plainPath_plain names, fun place hplace => ?_⟩
      have hjoin : (Path.ofLocation loc).join (.new path) =
          ⟨true, route loc ++ (Path.new path).parts⟩ := if_neg hrel
      rw [← hplace, hjoin]
      have hmoves : moves (route loc ++ (Path.new path).parts) = route loc ++ names.map .name := by
        rw [moves_append, Path.moves_of_components hnames, route, moves_names]
      exact place_join hmoves

theorem checkComponents_names (names : List OsName) :
    checkComponents (names.map .normal) = .ok () := by
  induction names with
  | nil => rfl
  | cons n names ih => exact ih

theorem ofComponents_names (names : List OsName) :
    Path.ofComponents (names.map .normal) = ⟨false, names.map .name⟩ := by
  have hparts : (names.map PathComponent.normal).filterMap Path.segment? = names.map .name := by
    induction names with
    | nil => rfl
    | cons n names ih => simpa [Path.segment?] using ih
  rw [Path.ofComponents, hparts]
  cases names <;> rfl

theorem validate_names (names : List OsName) :
    validateCapRelativePath (.ofComponents (names.map .normal)) = .ok () := by
  rw [ofComponents_names, validateCapRelativePath]
  split
  · rfl
  · have hcomponents : Path.components ⟨false, names.map .name⟩ = names.map .normal := by
      rw [Path.components, Path.filterMap_names]
      cases names <;> rfl
    rw [if_neg (by simp), hcomponents]
    exact checkComponents_names names

/-- **A canonical path below a folder is relative to it.** -/
theorem strip_canonical {inner : List OsName}
    (h : (Path.ofLocation inner).startsWith (.ofLocation loc)) :
    ∃ relative, (Path.ofLocation inner).stripPrefix (.ofLocation loc) = some relative ∧
      validateCapRelativePath relative = .ok () := by
  obtain ⟨rest, hrest⟩ := h
  obtain ⟨names, rfl⟩ : ∃ names : List OsName, rest = names.map .normal := by
    rw [Path.components_ofLocation, Path.components_ofLocation, List.cons_append,
      List.cons.injEq] at hrest
    obtain ⟨l, names, -, -, hnames⟩ := List.map_eq_append_iff.mp hrest.2.symm
    exact ⟨names, hnames.symm⟩
  refine ⟨.ofComponents (names.map .normal), ?_, validate_names names⟩
  rw [Path.stripPrefix, ← hrest, if_pos (List.prefix_append _ _), List.drop_left]

/-- **An existing path gets no error**, and a relative path where its canonical path is below. -/
theorem capRelativePathFor_existing {inner : List OsName} (habs : (Path.new path).absolute)
    (hcanonical : fs.canonicalize (.new path) = .ok (.ofLocation inner)) (loc : List OsName) :
    ∃ relative?, capRelativePathFor fs (.ofLocation loc) path = .ok relative? ∧
      ((Path.ofLocation inner).startsWith (.ofLocation loc) → relative?.isSome) := by
  have hexists : fs.pathExists (.new path) := by
    obtain ⟨loc', hloc', -, -⟩ := FileSystem.canonicalize_ok hcanonical
    rw [FileSystem.pathExists, hloc']
    rfl
  rw [capRelativePathFor, if_pos habs]
  split
  · exact ⟨_, rfl, fun _ => rfl⟩
  · rw [canonicalizeWithMissingTail, if_pos hexists, hcanonical]
    dsimp only
    by_cases hstarts : (Path.ofLocation inner).startsWith (.ofLocation loc)
    · obtain ⟨relative, hstrip, hvalid⟩ := strip_canonical hstarts
      rw [hstrip]
      simp only [hvalid]
      exact ⟨_, rfl, fun _ => rfl⟩
    · have hnone : (Path.ofLocation inner).stripPrefix (.ofLocation loc) = none := if_neg hstarts
      rw [hnone]
      exact ⟨none, rfl, fun h => absurd h hstarts⟩

end Folder

/-! ## All folders -/

section Folders

variable {fs : FileSystem} {path : String} {dirs : List Path}

theorem mem_capCandidates {candidates : List CapFsCandidate}
    (h : capCandidates fs path dirs = .ok candidates) :
    ∀ c ∈ candidates, c.root ∈ dirs ∧
      capRelativePathFor fs c.root path = .ok (some c.relativePath) := by
  induction dirs generalizing candidates with
  | nil =>
    cases h
    exact fun c hc => by cases hc
  | cons root dirs ih =>
    rw [capCandidates] at h
    split at h
    · cases h
    · next relative? hrel =>
      split at h
      · cases h
      · next rest hrest =>
        have hmem : ∀ c ∈ rest, c.root ∈ root :: dirs ∧
            capRelativePathFor fs c.root path = .ok (some c.relativePath) := fun c hc =>
          ⟨List.mem_cons_of_mem _ (ih hrest c hc).1, (ih hrest c hc).2⟩
        split at h
        · cases h
          exact List.forall_mem_cons.mpr ⟨⟨List.mem_cons_self, hrel⟩, hmem⟩
        · cases h
          exact hmem

/-- Without errors every folder with a relative path has its candidate. -/
theorem capCandidates_complete
    (h : ∀ root ∈ dirs, ∃ relative?, capRelativePathFor fs root path = .ok relative?) :
    ∃ candidates, capCandidates fs path dirs = .ok candidates ∧ ∀ root ∈ dirs, ∀ relative,
      capRelativePathFor fs root path = .ok (some relative) → ⟨root, relative⟩ ∈ candidates := by
  induction dirs with
  | nil => exact ⟨[], rfl, fun root hroot => by cases hroot⟩
  | cons root dirs ih =>
    obtain ⟨⟨relative?, hrel⟩, hdirs⟩ := List.forall_mem_cons.mp h
    obtain ⟨rest, hrest, hall⟩ := ih hdirs
    rw [capCandidates, hrel]
    simp only [hrest]
    cases relative? with
    | none =>
      refine ⟨rest, rfl, List.forall_mem_cons.mpr ⟨fun relative hsome => ?_, hall⟩⟩
      cases hrel.symm.trans hsome
    | some relative =>
      refine ⟨_, rfl, List.forall_mem_cons.mpr ⟨fun relative' hsome => ?_,
        fun root' hroot' relative' hsome =>
          List.mem_cons_of_mem _ (hall root' hroot' relative' hsome)⟩⟩
      cases hrel.symm.trans hsome
      exact List.mem_cons_self

theorem openCapDir_ok {folder : String} {dir : Path} (h : openCapDir fs folder = some dir) :
    ∃ loc, dir = .ofLocation loc := by
  unfold openCapDir at h
  split at h
  · next loc hloc =>
    split at h
    · exact ⟨loc, (Option.some.inj h).symm⟩
    · cases h
  · cases h

/-- The open folders are canonical. -/
theorem rebuildCapDirs_canonical {root builtin : String}
    {builtinFolders : List (String × List String)}
    (h : (rebuildCapDirs fs root builtinFolders).lookup builtin = some dirs) :
    ∀ dir ∈ dirs, ∃ loc, dir = .ofLocation loc := by
  obtain ⟨l, l', heq, -⟩ := List.lookup_eq_some_iff.mp h
  have hmem : (builtin, dirs) ∈ rebuildCapDirs fs root builtinFolders := by simp [heq]
  unfold rebuildCapDirs at hmem
  split at hmem
  · -- without folders of its own each builtin has the root, if there is one
    split at hmem
    · cases hmem
    · split at hmem
      · next dir hdir =>
        obtain ⟨name, -, hname⟩ := List.mem_map.mp hmem
        obtain ⟨-, rfl⟩ := Prod.mk.inj hname
        intro dir' hdir'
        obtain rfl := List.mem_singleton.mp hdir'
        exact openCapDir_ok hdir
      · cases hmem
  · obtain ⟨e, -, he⟩ := List.mem_map.mp hmem
    obtain ⟨-, rfl⟩ := Prod.mk.inj he
    intro dir hdir
    obtain ⟨folder, -, hfolder⟩ := List.mem_filterMap.mp hdir
    exact openCapDir_ok hfolder

end Folders

/-- What the candidates for a path are. A candidate has a plain relative path, and it leads where
the path given leads from its folder, missing names included; a path that exists in one of the
folders has a candidate for it. -/
structure Confined (fs : FileSystem) (builtinDirs : List (String × List Path)) (dirs : List Path)
    (builtin path : String) : Prop where
  leads : ∀ candidates, capCandidatesFor fs builtinDirs builtin path = .ok candidates →
    ∀ c ∈ candidates, c.root ∈ dirs ∧ c.relativePath.Plain ∧
      ∀ place, fs.place (c.root.join (.new path)) = some place →
        fs.place (c.root.join c.relativePath) = some place
  found : ∀ canonical, (Path.new path).absolute → fs.canonicalize (.new path) = .ok canonical →
    ∀ dir ∈ dirs, canonical.startsWith dir →
      ∃ candidates, capCandidatesFor fs builtinDirs builtin path = .ok candidates ∧
        ∃ c ∈ candidates, c.root = dir

/-- **File access is confined to the allowed folders.** -/
theorem capCandidatesFor_confined (fs : FileSystem) (root : String)
    (builtinFolders : List (String × List String)) (builtin path : String) (dirs : List Path)
    (hdirs : (rebuildCapDirs fs root builtinFolders).lookup builtin = some dirs) :
    Confined fs (rebuildCapDirs fs root builtinFolders) dirs builtin path := by
  have hcanonical := rebuildCapDirs_canonical hdirs
  constructor
  · intro candidates h
    simp only [capCandidatesFor, hdirs] at h
    split at h
    · cases h
    · split at h
      · cases h
      · next found hfound =>
        split at h
        · cases h
        · obtain rfl := Except.ok.inj h
          intro c hc
          obtain ⟨hmem, hrel⟩ := mem_capCandidates hfound c hc
          obtain ⟨loc, hloc⟩ := hcanonical c.root hmem
          rw [hloc] at hrel ⊢
          obtain ⟨hplain, hplace⟩ := capRelativePathFor_ok hrel
          exact ⟨hloc ▸ hmem, hplain, hplace⟩
  · intro canonical habs hok dir hdir hstarts
    obtain ⟨inner, -, -, rfl⟩ := FileSystem.canonicalize_ok hok
    have hevery : ∀ dir' ∈ dirs, ∃ relative?, capRelativePathFor fs dir' path = .ok relative? := by
      intro dir' hdir'
      obtain ⟨loc, rfl⟩ := hcanonical dir' hdir'
      obtain ⟨relative?, hrel, -⟩ := capRelativePathFor_existing habs hok loc
      exact ⟨relative?, hrel⟩
    obtain ⟨candidates, hcandidates, hall⟩ := capCandidates_complete hevery
    obtain ⟨loc, rfl⟩ := hcanonical dir hdir
    obtain ⟨relative?, hrel, hsome⟩ := capRelativePathFor_existing habs hok loc
    obtain ⟨relative, rfl⟩ := Option.isSome_iff_exists.mp (hsome hstarts)
    have hmem := hall _ hdir relative hrel
    simp only [capCandidatesFor, hdirs]
    rw [if_neg (by simpa using List.ne_nil_of_mem hdir)]
    simp only [hcandidates]
    rw [if_neg (by simpa using List.ne_nil_of_mem hmem)]
    exact ⟨candidates, rfl, _, hmem, rfl⟩

/-- The directory `/r` with a file `a`, and a link `/l` to it. -/
def linkedFs : FileSystem where
  tree :=
    { node := fun loc =>
        match (loc.map (·.bytes) : List (List UInt8)) with
        | [] | [[114]] => some .dir
        | [[97], [114]] => some .file
        | [[108]] => some (.link true [.name ⟨[114], by decide⟩])
        | _ => none
      root := rfl }
  cwd := []
  cwd_real := trivial
  maxLinks := 40

theorem capCandidatesFor_confined_link :
    Confined linkedFs (rebuildCapDirs linkedFs "" [("read_file", ["/l"])])
      [.ofLocation [⟨[114], by decide⟩]] "read_file" "/l/a" :=
  capCandidatesFor_confined linkedFs "" [("read_file", ["/l"])] "read_file" "/l/a"
    [.ofLocation [⟨[114], by decide⟩]] (by decide +kernel)

-- a path through the link to a file that is not there
example : capCandidatesFor linkedFs (rebuildCapDirs linkedFs "" [("write_file", ["/r"])])
    "write_file" "/l/./b/" = .ok [⟨.new "/r", .new "b"⟩] := by
  decide +kernel

end Hiko
