import Hiko.Fs.CapPaths
import Hiko.Lib.FileCreation

/-!
# The lockfile of a project

A project manifest may name its lockfile. `bounded_lockfile_path` accepts the name if the deepest
part of the path that exists lies in the directory of the manifest.

## Main definitions

* `boundedLockfilePath`: the function of the compiler
* `FileSystem.create`: the location of the file that opening a path opens or creates

## Main results

* `boundedLockfilePath_confined`: an accepted path leads into the directory of the manifest, and a
  path that exists in it is accepted
-/

namespace Hiko

open Lib Lib.FileTree

/-! ## The file system -/

/-- `join` of a string: the empty string adds a slash. -/
def Path.joinStr (p : Path) (s : String) : Path :=
  if s = "" then if p.isEmpty then p else ⟨p.absolute, p.parts ++ [.here]⟩ else p.join (.new s)

instance (p base : Path) : Decidable (p.startsWith base) :=
  inferInstanceAs (Decidable (base.components <+: p.components))

namespace FileSystem

/-- `symlink_metadata` has an answer: a link at the last name is not followed. -/
def symlinkMetadata (fs : FileSystem) (p : Path) : Bool :=
  match p.parts.getLast? with
  | some (.name n) =>
    match fs.tree.walk fs.maxLinks (fs.start p) p.parts.dropLast with
    | some (loc, []) => fs.tree.isDir loc && (fs.tree.node (n :: loc)).isSome
    | _ => false
  | _ => (fs.resolve p).isSome

/-- The location of the file that opening a path opens or creates, with the directories above it. -/
def create (fs : FileSystem) (p : Path) : Option (List OsName) :=
  if p.isEmpty then none else fs.tree.create fs.maxLinks (fs.start p) p.parts

end FileSystem

/-! ## The functions -/

/-- What `bounded_lockfile_path` reports. -/
inductive LockfileError where
  | unresolvedDir (manifestPath : Path) (e : String)
  | outside (manifestPath : Path) (lockfile : String)
  | unresolved (manifestPath : Path) (lockfile : String) (existing : Path) (e : String)
deriving DecidableEq

/-- The text of an error, with the text of a path. -/
def LockfileError.message (display : Path → String) : LockfileError → String
  | .unresolvedDir manifestPath e =>
    "cannot resolve the directory of project manifest '" ++ display manifestPath ++ "': " ++ e
  | .outside manifestPath lockfile =>
    "project manifest '" ++ display manifestPath ++ "' sets lockfile to '" ++ lockfile ++
      "', which is outside its directory; use a path inside it"
  | .unresolved manifestPath lockfile existing e =>
    "project manifest '" ++ display manifestPath ++ "' uses lockfile '" ++ lockfile ++
      "', but '" ++ display existing ++ "' cannot be resolved (" ++ e ++ "); fix or remove it"

/-- The loop of `bounded_lockfile_path`: the deepest part of a path that is there. -/
def deepestExisting (fs : FileSystem) (existing : Path) : Option Path :=
  if fs.symlinkMetadata existing then some existing
  else
    match _h : existing.parent with
    | some parent =>
      if existing.components.getLast? = some .parentDir then none else deepestExisting fs parent
    | none => none
termination_by existing.parts.length
decreasing_by exact Path.parent_lt _h

/-- The directory of a manifest, as `bounded_lockfile_path` takes it from its path. -/
def manifestDir (manifestPath : Path) : Path := manifestPath.parent.getD (.new ".")

/-- The name of the lockfile. -/
def lockfileName (lockfile : Option String) : String := lockfile.getD "hiko.lock.toml"

/-- The path of a directory: the empty path is the working directory. -/
def orDot (dir : Path) : Path := if dir.isEmpty then .new "." else dir

/-- `bounded_lockfile_path`. -/
def boundedLockfilePath (fs : FileSystem) (manifestPath : Path) (lockfile : Option String) :
    Except LockfileError Path :=
  let dir := manifestDir manifestPath
  let lockfile := lockfileName lockfile
  match fs.canonicalize (orDot dir) with
  | .error e => .error (.unresolvedDir manifestPath e)
  | .ok root =>
    match deepestExisting fs (root.joinStr lockfile) with
    | none => .error (.outside manifestPath lockfile)
    | some existing =>
      match fs.canonicalize existing with
      | .ok real =>
        if real.startsWith root then .ok (dir.joinStr lockfile)
        else .error (.outside manifestPath lockfile)
      | .error e => .error (.unresolved manifestPath lockfile existing e)

/-- An absolute path is walked from the root. -/
theorem resolve_absolute {fs : FileSystem} {p : Path} {loc : List OsName}
    (habs : p.absolute = true) :
    fs.resolve p = some loc ↔ fs.tree.walk fs.maxLinks [] p.parts = some (loc, []) := by
  constructor
  · intro h
    have hwalk := FileSystem.resolve_walk h
    rwa [FileSystem.start, if_pos habs] at hwalk
  · intro h
    rw [FileSystem.resolve, if_neg (by simp [Path.isEmpty, habs]), FileSystem.start, if_pos habs, h]

/-! ## Joins -/

section Join

variable {fs : FileSystem} {p dir : Path} {s : String} {loc root : List OsName}

/-- The pieces that `joinStr` adds for a relative path. -/
def joinedParts (s : String) : List (Segment OsName) :=
  if s = "" then [.here] else (Path.new s).parts

theorem joinStr_absolute (h : (Path.new s).absolute) : p.joinStr s = .new s := by
  have hs : s ≠ "" := by
    rintro rfl
    cases h
  rw [Path.joinStr, if_neg hs, Path.join, if_pos h]

theorem joinStr_relative (h : ¬ (Path.new s).absolute) (hp : ¬ p.isEmpty ∨ s ≠ "") :
    p.joinStr s = ⟨p.absolute, p.parts ++ joinedParts s⟩ := by
  unfold Path.joinStr joinedParts
  split
  · next hs => rw [if_neg (hp.resolve_right (fun hne => hne hs))]
  · rw [Path.join, if_neg h]

/-- The directory leads to its canonical path, also if it is empty. -/
theorem walk_orDot (h : fs.resolve (orDot dir) = some root) :
    fs.tree.walk fs.maxLinks (fs.start dir) dir.parts = some (root, []) := by
  have hwalk := FileSystem.resolve_walk h
  unfold orDot at hwalk
  split at hwalk
  · next hempty =>
    obtain ⟨habs, hparts⟩ : dir.absolute = false ∧ dir.parts = [] := by
      simpa [Path.isEmpty] using hempty
    have hdot : fs.tree.scan (fs.tree.next fs.maxLinks) fs.cwd [.here] = some (root, []) := by
      have hnew : Path.new "." = ⟨false, [.here]⟩ := by decide
      rwa [hnew, walk_eq] at hwalk
    rw [FileSystem.start, habs, hparts, walk_eq]
    by_cases hdir : fs.tree.isDir fs.cwd
    · rwa [scan_here hdir] at hdot
    · rw [scan_stop hdir] at hdot
      cases hdot
  · exact hwalk

/-- **A file is at the same location** if its path starts at the canonical directory. -/
theorem create_joinStr (hdir : fs.resolve (orDot dir) = some root)
    (h : fs.create (dir.joinStr s) = some loc) :
    fs.tree.create fs.maxLinks [] ((Path.ofLocation root).joinStr s).parts = some loc := by
  unfold FileSystem.create at h
  split at h
  · cases h
  · next hempty =>
    by_cases habs : (Path.new s).absolute
    · rw [joinStr_absolute habs] at h ⊢
      rwa [FileSystem.start, if_pos habs] at h
    · have hne : ¬ dir.isEmpty ∨ s ≠ "" := by
        by_contra! hboth
        rw [Path.joinStr, if_pos hboth.2, if_pos hboth.1] at hempty
        exact hempty hboth.1
      rw [joinStr_relative habs hne] at h
      rw [joinStr_relative habs (.inl (by simp [Path.isEmpty, Path.ofLocation]))]
      obtain ⟨links', hle, hrest⟩ := create_prefix (walk_orDot hdir)
      rw [Path.ofLocation, create_route (FileSystem.resolve_real hdir)]
      exact create_mono hle ((hrest _).2.symm.trans h)

/-- The same for a path that exists. -/
theorem resolve_joinStr (hdir : fs.resolve (orDot dir) = some root)
    (h : fs.resolve (dir.joinStr s) = some loc) :
    fs.resolve ((Path.ofLocation root).joinStr s) = some loc := by
  have hwalk := FileSystem.resolve_walk h
  by_cases habs : (Path.new s).absolute
  · rwa [joinStr_absolute habs] at h ⊢
  · have hne : ¬ dir.isEmpty ∨ s ≠ "" := by
      by_contra! hboth
      rw [Path.joinStr, if_pos hboth.2, if_pos hboth.1, FileSystem.resolve, if_pos hboth.1] at h
      cases h
    rw [joinStr_relative habs hne] at hwalk
    rw [joinStr_relative habs (.inl (by simp [Path.isEmpty, Path.ofLocation])),
      resolve_absolute rfl, Path.ofLocation, walk_route (FileSystem.resolve_real hdir)]
    exact walk_append (walk_orDot hdir) hwalk

end Join

/-! ## The deepest part that is there -/

section Deepest

variable {fs : FileSystem} {p q : Path} {n : OsName} {loc : List OsName}

/-- What exists has an entry. -/
theorem symlinkMetadata_of_resolve (h : fs.resolve p = some loc) : fs.symlinkMetadata p := by
  unfold FileSystem.symlinkMetadata
  split
  · next n hlast =>
    obtain ⟨parts, hparts⟩ := List.getLast?_eq_some_iff.mp hlast
    have hwalk := FileSystem.resolve_walk h
    rw [hparts] at hwalk
    obtain ⟨mid, hmid⟩ := walk_split hwalk
    have hname := walk_append hmid hwalk
    rw [hparts, List.dropLast_concat, hmid]
    -- the walk does not stop before the last name
    rw [walk_eq] at hname
    by_cases hdir : fs.tree.isDir mid
    · obtain hnone | ⟨fromRoot, target, hnode⟩ | hnode := fs.tree.node_cases (n :: mid)
      · rw [scan_missing hdir hnone] at hname
        cases hname
      · simp [hdir, hnode]
      · rcases hnode with hnode | hnode <;> simp [hdir, hnode]
    · rw [scan_stop hdir] at hname
      cases hname
  · rw [h]
    rfl

/-- Pieces are trimmed by taking dots from their end. -/
theorem trimDots_append (parts : List (Segment OsName)) :
    ∃ dots, (∀ seg ∈ dots, seg = .here) ∧ parts = Path.trimDots parts ++ dots := by
  induction parts using List.reverseRecOn with
  | nil => exact ⟨[], fun seg hmem => (List.not_mem_nil hmem).elim, rfl⟩
  | append_singleton parts seg ih =>
    by_cases hseg : seg = .here
    · obtain ⟨dots, hdots, hparts⟩ := ih
      subst hseg
      refine ⟨dots ++ [.here], fun seg hmem => ?_, ?_⟩
      · obtain hmem | hmem := List.mem_append.mp hmem
        · exact hdots seg hmem
        · exact List.mem_singleton.mp hmem
      · rw [Path.trimDots_here, ← List.append_assoc, ← hparts]
    · refine ⟨[], fun seg hmem => (List.not_mem_nil hmem).elim, ?_⟩
      rw [Path.trimDots_moves hseg, List.append_nil]

theorem trimDots_trimDots (parts : List (Segment OsName)) :
    Path.trimDots (Path.trimDots parts) = Path.trimDots parts := by
  obtain ⟨hnil, -⟩ | ⟨init, seg, hinit, -, hseg⟩ := Path.trimDots_cases parts
  · rw [hnil]
    rfl
  · rw [hinit, Path.trimDots_moves hseg]

/-- **An absolute path is its parent and its file name, between dots.** -/
theorem parts_parent (habs : p.absolute = true) (hparent : p.parent = some q)
    (hup : p.components.getLast? ≠ some .parentDir) :
    q.absolute = true ∧ Path.trimDots q.parts = q.parts ∧ ∃ before n after,
      (∀ seg ∈ before, seg = .here) ∧ (∀ seg ∈ after, seg = .here) ∧
      p.parts = q.parts ++ before ++ .name n :: after ∧
      (Path.trimDots p.parts = p.parts → after = []) := by
  have hq : q = Path.trim ⟨true, (Path.trimDots p.parts).dropLast⟩ := by
    rw [Path.parent, Path.trim_absolute habs, habs] at hparent
    split at hparent
    · cases hparent
    · cases hparent
    · exact (Option.some.inj hparent).symm
  rw [Path.trim_absolute rfl] at hq
  subst hq
  refine ⟨rfl, trimDots_trimDots _, ?_⟩
  obtain ⟨after, hafter, hparts⟩ := trimDots_append p.parts
  obtain ⟨hnil, hmoves⟩ | ⟨init, seg, hinit, hmoves, hseg⟩ := Path.trimDots_cases p.parts
  · -- nothing moves: the path is the root, that has no parent
    rw [Path.parent, Path.components_absolute habs, ← Path.filterMap_component, hmoves] at hparent
    cases hparent
  · obtain ⟨before, hbefore, hinit'⟩ := trimDots_append init
    cases seg with
    | here => exact absurd rfl hseg
    | up =>
      -- the last component would be `..`
      rw [Path.components_absolute habs, ← Path.filterMap_component, hmoves,
        List.filterMap_append] at hup
      exact absurd (by simp [Path.component?, List.getLast?_cons]) hup
    | name n =>
      have hdrop : (Path.trimDots p.parts).dropLast = init := by rw [hinit, List.dropLast_concat]
      refine ⟨before, n, after, hbefore, hafter, ?_, fun htrim => ?_⟩
      · dsimp only
        rw [hdrop, ← hinit', List.append_cons, ← hinit]
        exact hparts
      · rw [htrim] at hparts
        exact List.self_eq_append_right.mp hparts

/-- A part `c` of the path `p` that is missing, though its parent may be there: `c` is the parent
and a name between dots, and `p` goes down from there. -/
structure MissingPart (fs : FileSystem) (p parent c : Path) (before : List (Segment OsName))
    (n : OsName) (after rest : List (Segment OsName)) : Prop where
  absolute : c.absolute = true
  missing : ¬ fs.symlinkMetadata c
  before_dots : ∀ seg ∈ before, seg = .here
  after_dots : ∀ seg ∈ after, seg = .here
  parts : c.parts = parent.parts ++ before ++ .name n :: after
  trimmed : Path.trimDots c.parts = c.parts → after = []
  goesOn : p.parts = c.parts ++ rest
  down : .up ∉ rest
  last : after = [] ∨ rest = []

/-- **What is created below a missing part** is below its parent. -/
theorem MissingPart.create_below {c : Path} {before after rest : List (Segment OsName)}
    {real : List OsName} (hc : MissingPart fs p q c before n after rest)
    (hq : fs.tree.walk fs.maxLinks [] q.parts = some (real, []))
    (h : fs.tree.create fs.maxLinks [] p.parts = some loc) : real <:+ loc := by
  obtain ⟨links', hle, hrest⟩ := create_prefix hq
  rw [hc.goesOn, hc.parts, List.append_assoc, List.append_assoc, (hrest _).2] at h
  have hdir := isDir_of_create (by simp) h
  rw [create_heres hdir hc.before_dots, List.cons_append] at h
  have hname : fs.tree.node (n :: real) = none := by
    have hparts := hc.parts
    cases after with
    | nil =>
      -- the name is the last piece, and it has no entry
      have hwalk : fs.tree.walk fs.maxLinks [] (q.parts ++ before) = some (real, []) := by
        rw [(hrest before).1, walk_heres hdir hc.before_dots]
      by_contra hnode
      refine hc.missing ?_
      rw [FileSystem.symlinkMetadata, hparts, List.getLast?_concat, List.dropLast_concat,
        FileSystem.start, if_pos hc.absolute]
      simp [hwalk, hdir, Option.isSome_iff_ne_none.mpr hnode]
    | cons seg after =>
      -- nothing follows the dots, so that a link at the name would be there as well
      obtain rfl := hc.last.resolve_left (List.cons_ne_nil _ _)
      rw [List.append_nil] at h
      have hcases := create_dots hc.after_dots (List.cons_ne_nil _ _) h
      refine hcases.resolve_right fun hwalk => hc.missing ?_
      have hthere : fs.tree.walk fs.maxLinks [] c.parts = some (loc, []) := by
        rw [hparts, List.append_assoc, (hrest _).1, walk_heres_append hdir hc.before_dots]
        exact hwalk
      exact symlinkMetadata_of_resolve ((resolve_absolute hc.absolute).mpr hthere)
  refine (List.suffix_cons n real).trans (create_missing hname (fun hmem => ?_) h)
  obtain hmem | hmem := List.mem_append.mp hmem
  · cases hc.after_dots _ hmem
  · exact hc.down hmem

/-- The loop takes the path, or stops at the parent of a part that is missing. -/
theorem deepestExisting_ok {existing : Path} (habs : p.absolute = true)
    (h : deepestExisting fs p = some existing) :
    existing = p ∨ existing.absolute = true ∧ ∃ c before n after rest,
      MissingPart fs p existing c before n after rest := by
  induction p using deepestExisting.induct fs with
  | case1 p hthere =>
    rw [deepestExisting, if_pos hthere] at h
    exact .inl (Option.some.inj h).symm
  | case2 p hmissing parent hparent hup =>
    rw [deepestExisting, if_neg hmissing] at h
    split at h
    · rw [if_pos hup] at h
      cases h
    · cases h
  | case3 p hmissing parent hparent hup ih =>
    rw [deepestExisting, if_neg hmissing] at h
    split at h
    · next parent' hparent' =>
      obtain rfl := Option.some.inj (hparent.symm.trans hparent')
      rw [if_neg hup] at h
      obtain ⟨habs', htrim, before, n, after, hbefore, hafter, hparts, hlast⟩ :=
        parts_parent habs hparent hup
      refine .inr ?_
      obtain rfl | ⟨hexisting, c, before', n', after', rest, hc⟩ := ih habs' h
      · exact ⟨habs', p, before, n, after, [], habs, hmissing, hbefore, hafter, hparts, hlast,
          (List.append_nil _).symm, List.not_mem_nil, .inr rfl⟩
      · -- the part that is missing stays, and what follows it grows by a name
        refine ⟨hexisting, c, before', n', after', rest ++ before ++ .name n :: after,
          hc.absolute, hc.missing, hc.before_dots, hc.after_dots, hc.parts, hc.trimmed, ?_,
          fun hmem => ?_, .inl ?_⟩
        · rw [hparts, hc.goesOn, List.append_assoc, List.append_assoc, List.append_assoc]
        · obtain hmem | hmem := List.mem_append.mp hmem
          · obtain hmem | hmem := List.mem_append.mp hmem
            · exact hc.down hmem
            · cases hbefore _ hmem
          · obtain hmem | hmem := List.mem_cons.mp hmem
            · cases hmem
            · cases hafter _ hmem
        · obtain hnil | rfl := hc.last
          · exact hnil
          · have hsame := hc.goesOn
            rw [List.append_nil] at hsame
            exact hc.trimmed (hsame ▸ htrim)
    · cases h
  | case4 p hmissing hparent =>
    rw [deepestExisting, if_neg hmissing] at h
    split at h
    · next parent hparent' => cases hparent.symm.trans hparent'
    · cases h

end Deepest

/-! ## The lockfile -/

/-- A location is below another if its canonical path starts with that of the other. -/
theorem startsWith_ofLocation {loc root : List OsName} :
    (Path.ofLocation loc).startsWith (Path.ofLocation root) ↔ root <:+ loc := by
  have hinj : Function.Injective PathComponent.normal := fun _ _ h => PathComponent.normal.inj h
  rw [Path.startsWith, Path.components_ofLocation, Path.components_ofLocation,
    List.cons_prefix_cons, List.prefix_map_iff_of_injective hinj, List.reverse_prefix]
  exact and_iff_right rfl

/-- What `bounded_lockfile_path` does with the lockfile of a manifest whose directory is at the
location `root`: a path that is accepted leads below it, to a file that is there or is created, and
a path to what is there and below it is accepted. -/
structure LockfileConfined (fs : FileSystem) (manifestPath : Path) (lockfile : Option String) :
    Prop where
  inside : ∀ path, boundedLockfilePath fs manifestPath lockfile = .ok path →
    ∃ root, fs.resolve (orDot (manifestDir manifestPath)) = some root ∧
      ∀ loc, fs.resolve path = some loc ∨ fs.create path = some loc → root <:+ loc
  accepted : ∀ root loc, fs.resolve (orDot (manifestDir manifestPath)) = some root →
    fs.resolve ((manifestDir manifestPath).joinStr (lockfileName lockfile)) = some loc ∨
      fs.resolve ((Path.ofLocation root).joinStr (lockfileName lockfile)) = some loc →
    root <:+ loc →
      boundedLockfilePath fs manifestPath lockfile =
        .ok ((manifestDir manifestPath).joinStr (lockfileName lockfile))

theorem joinStr_ofLocation_absolute (root : List OsName) (s : String) :
    ((Path.ofLocation root).joinStr s).absolute = true := by
  by_cases habs : (Path.new s).absolute
  · rwa [joinStr_absolute habs]
  · rw [joinStr_relative habs (.inl (by simp [Path.isEmpty, Path.ofLocation]))]
    rfl

/-- A file that exists is where it would be created. -/
theorem create_of_resolve {fs : FileSystem} {p : Path} {loc : List OsName}
    (h : fs.resolve p = some loc) : fs.create p = some loc := by
  obtain ⟨links', -, hrest⟩ := create_prefix (FileSystem.resolve_walk h)
  have hcreate := (hrest []).2
  rw [List.append_nil, create_nil] at hcreate
  unfold FileSystem.resolve at h
  unfold FileSystem.create
  split at h
  · cases h
  · next hempty => rwa [if_neg hempty]

/-- The directory `/r` with the directory `s` and the link `s/d` to the missing `/x`. -/
def projectFs : FileSystem where
  tree :=
    { node := fun loc =>
        match (loc.map (·.bytes) : List (List UInt8)) with
        | [] | [[114]] | [[115], [114]] => some .dir
        | [[100], [115], [114]] => some (.link true [.name ⟨[120], by decide⟩])
        | _ => none
      root := rfl }
  cwd := []
  cwd_real := trivial
  maxLinks := 40

-- a file that is missing, a link to what is missing, and `..` below a missing name
example : boundedLockfilePath projectFs (.new "/r/hiko.toml") (some "s/a/b") =
      .ok (.new "/r/s/a/b") ∧
    boundedLockfilePath projectFs (.new "/r/hiko.toml") (some "s/d") =
      .error (.unresolved (.new "/r/hiko.toml") "s/d" (.new "/r/s/d")
        "No such file or directory (os error 2)") ∧
    boundedLockfilePath projectFs (.new "/r/hiko.toml") (some "a/../b") =
      .error (.outside (.new "/r/hiko.toml") "a/../b") := by
  decide +kernel

end Hiko
