import Hiko.Lib.FileTree

/-!
# Paths and the file system

What the code uses of `std::path` and `std::fs` on Unix: paths are bytes between slashes, and the
file system is a tree with symbolic links in which the process has a working directory.

## Main definitions

* `OsName`, `Path`, `PathComponent`: names, paths and their components
* `Path.new`, `Path.components`, `Path.fileName`, `Path.parent`, `Path.stripPrefix`, `Path.join`
* `FileSystem`, `FileSystem.pathExists`, `FileSystem.canonicalize`: what the operating system
  answers
* `FileSystem.place`: the location a path leads to, with what is missing of it

## Main results

* `canonicalize_ok`: a canonical path names a real location
* `moves_parent`: the parent of a path and its file name make up the path
-/

namespace Hiko

open Lib Lib.FileTree

/-- A file name: bytes without a slash, other than `.` and `..`. -/
structure OsName where
  bytes : List UInt8
  valid : bytes ≠ [] ∧ bytes ≠ [46] ∧ bytes ≠ [46, 46] ∧ 47 ∉ bytes
deriving DecidableEq

/-- A path: whether it starts with a slash, and its pieces after that. The empty path has none. -/
structure Path where
  absolute : Bool
  parts : List (Segment OsName)
deriving DecidableEq

/-- `std::path::Component`, without the prefixes of Windows. -/
inductive PathComponent where
  | rootDir
  | curDir
  | parentDir
  | normal (n : OsName)
deriving DecidableEq

/-- The piece of a path that some bytes are. -/
def segmentOf (bytes : List UInt8) : Segment OsName :=
  if h : bytes ≠ [] ∧ bytes ≠ [46] ∧ bytes ≠ [46, 46] ∧ 47 ∉ bytes then .name ⟨bytes, h⟩
  else if bytes = [46, 46] then .up
  else .here

namespace Path

/-- A path of bytes. -/
def ofBytes (bytes : List UInt8) : Path :=
  if bytes = [] then ⟨false, []⟩
  else if bytes.head? = some 47 then ⟨true, (bytes.tail.splitOn 47).map segmentOf⟩
  else ⟨false, (bytes.splitOn 47).map segmentOf⟩

/-- `Path::new`. -/
def new (path : String) : Path := ofBytes path.toUTF8.data.toList

/-- `as_os_str().is_empty()`. -/
def isEmpty (p : Path) : Bool := !p.absolute && p.parts.isEmpty

/-- The component of a piece. -/
def component? : Segment OsName → Option PathComponent
  | .here => none
  | .up => some .parentDir
  | .name n => some (.normal n)

/-- `components`: a dot counts at the start of a relative path only. -/
def components (p : Path) : List PathComponent :=
  (if p.absolute then [.rootDir] else if p.parts.head? = some .here then [.curDir] else []) ++
    p.parts.filterMap component?

/-- The pieces of a component. -/
def segment? : PathComponent → Option (Segment OsName)
  | .rootDir => none
  | .curDir => some .here
  | .parentDir => some .up
  | .normal n => some (.name n)

/-- The path of some components. -/
def ofComponents (cs : List PathComponent) : Path :=
  ⟨cs.head? = some .rootDir, cs.filterMap segment?⟩

/-- `file_name`. -/
def fileName (p : Path) : Option OsName :=
  match p.components.getLast? with
  | some (.normal n) => some n
  | _ => none

/-- Pieces without the dots and slashes at the end. -/
def trimDots (parts : List (Segment OsName)) : List (Segment OsName) :=
  (parts.reverse.dropWhile (· = .here)).reverse

/-- The same for a path: a dot at the start of a relative path stays. -/
def trim (p : Path) : Path :=
  match p with
  | ⟨false, .here :: parts⟩ => ⟨false, .here :: trimDots parts⟩
  | ⟨absolute, parts⟩ => ⟨absolute, trimDots parts⟩

/-- `parent`. -/
def parent (p : Path) : Option Path :=
  match p.components.getLast? with
  | none | some .rootDir => none
  | _ => some (trim ⟨p.absolute, p.trim.parts.dropLast⟩)

/-- `strip_prefix`. -/
def stripPrefix (p base : Path) : Option Path :=
  if base.components <+: p.components then
    some (ofComponents (p.components.drop base.components.length))
  else none

/-- `starts_with`. -/
def startsWith (p base : Path) : Prop := base.components <+: p.components

/-- `push` of a file name. -/
def push (p : Path) (n : OsName) : Path := ⟨p.absolute, p.parts ++ [.name n]⟩

/-- `join`. -/
def join (p q : Path) : Path := if q.absolute then q else ⟨p.absolute, p.parts ++ q.parts⟩

/-- The canonical path of a location. -/
def ofLocation (loc : List OsName) : Path := ⟨true, route loc⟩

end Path

/-- A file system, with the working directory of the process and the number of links that the
operating system follows. -/
structure FileSystem where
  tree : Lib.FileTree OsName
  cwd : List OsName
  cwd_real : tree.Real cwd
  maxLinks : ℕ

namespace FileSystem

variable (fs : FileSystem)

/-- Where a path starts. -/
def start (p : Path) : List OsName := if p.absolute then [] else fs.cwd

/-- The location of a path, if it exists. The empty path does not. -/
def resolve (p : Path) : Option (List OsName) :=
  if p.isEmpty then none
  else
    match fs.tree.walk fs.maxLinks (fs.start p) p.parts with
    | some (loc, []) => some loc
    | _ => none

/-- `Path::exists`. -/
def pathExists (p : Path) : Bool := (fs.resolve p).isSome

/-- `std::fs::canonicalize`. -/
def canonicalize (p : Path) : Except String Path :=
  match fs.resolve p with
  | some loc => .ok (.ofLocation loc)
  | none => .error "No such file or directory (os error 2)"

/-- The location that a path leads to, and what is missing below it. There is none after too many
links. -/
def place (p : Path) : Option (List OsName × List (Segment OsName)) :=
  fs.tree.place fs.maxLinks (fs.start p) p.parts

end FileSystem

/-! ## Components -/

namespace Path

theorem filterMap_component (parts : List (Segment OsName)) :
    (moves parts).filterMap component? = parts.filterMap component? := by
  induction parts with
  | nil => rfl
  | cons seg parts ih =>
    cases seg with
    | here => exact ih
    | up | name n => simp [component?, ih]

/-- The pieces that move are known by their components. -/
theorem moves_of_components {parts : List (Segment OsName)} {names : List OsName}
    (h : parts.filterMap component? = names.map .normal) : moves parts = names.map .name := by
  induction parts generalizing names with
  | nil =>
    cases names with
    | nil => rfl
    | cons n names => cases h
  | cons seg parts ih =>
    cases seg with
    | here => exact ih h
    | up =>
      cases names with
      | nil => cases h
      | cons n names => cases h
    | name n =>
      cases names with
      | nil => cases h
      | cons n' names =>
        obtain ⟨hn, hrest⟩ := List.cons.inj h
        obtain rfl := PathComponent.normal.inj hn
        rw [moves_name, ih hrest, List.map_cons]

@[simp] theorem filterMap_names (names : List OsName) :
    (names.map Segment.name).filterMap component? = names.map .normal := by
  induction names with
  | nil => rfl
  | cons n names ih => simpa [component?] using ih

theorem components_absolute {p : Path} (h : p.absolute = true) :
    p.components = .rootDir :: p.parts.filterMap component? := by
  rw [components, if_pos h]
  rfl

theorem components_ofLocation (loc : List OsName) :
    (ofLocation loc).components = .rootDir :: loc.reverse.map .normal := by
  rw [components_absolute rfl, ofLocation, route, filterMap_names]

/-! ## Parents -/

@[simp] theorem trimDots_nil : trimDots [] = [] := rfl

@[simp] theorem trimDots_here (parts : List (Segment OsName)) :
    trimDots (parts ++ [.here]) = trimDots parts := by
  simp [trimDots]

theorem trimDots_moves {parts : List (Segment OsName)} {seg : Segment OsName} (h : seg ≠ .here) :
    trimDots (parts ++ [seg]) = parts ++ [seg] := by
  simp [trimDots, h]

/-- Trimmed pieces end with one that moves. -/
theorem trimDots_cases (parts : List (Segment OsName)) :
    (trimDots parts = [] ∧ moves parts = []) ∨
      ∃ init seg, trimDots parts = init ++ [seg] ∧ moves parts = moves init ++ moves [seg] ∧
        seg ≠ .here := by
  induction parts using List.reverseRecOn with
  | nil => exact .inl ⟨rfl, rfl⟩
  | append_singleton parts seg ih =>
    by_cases hseg : seg = .here
    · subst hseg
      simpa using ih
    · exact .inr ⟨parts, seg, trimDots_moves hseg, moves_append _, hseg⟩

theorem moves_trimDots (parts : List (Segment OsName)) : moves (trimDots parts) = moves parts := by
  induction parts using List.reverseRecOn with
  | nil => rfl
  | append_singleton parts seg ih =>
    by_cases hseg : seg = .here
    · subst hseg
      simpa using ih
    · rw [trimDots_moves hseg]

theorem length_trimDots (parts : List (Segment OsName)) :
    (trimDots parts).length ≤ parts.length := by
  rw [trimDots, List.length_reverse, ← parts.length_reverse]
  exact (List.dropWhile_sublist _).length_le

theorem trim_absolute {p : Path} (h : p.absolute = true) : p.trim = ⟨true, trimDots p.parts⟩ := by
  obtain ⟨absolute, parts⟩ := p
  obtain rfl : absolute = true := h
  rfl

/-- **An absolute path is its parent and its file name.** -/
theorem moves_parent {p q : Path} {n : OsName} (habs : p.absolute = true)
    (hname : p.fileName = some n) (hparent : p.parent = some q) :
    q.absolute = true ∧ moves p.parts = moves q.parts ++ [.name n] := by
  have hlast : p.components.getLast? = some (.normal n) := by
    rw [fileName] at hname
    split at hname
    · next m hm =>
      cases hname
      exact hm
    · cases hname
  rw [parent, hlast, trim_absolute habs, habs] at hparent
  obtain rfl := Option.some.inj hparent
  rw [trim_absolute rfl]
  refine ⟨rfl, ?_⟩
  rw [moves_trimDots]
  rw [components_absolute habs] at hlast
  rw [← filterMap_component] at hlast
  obtain ⟨-, hnone⟩ | ⟨init, seg, hinit, hmoves, hseg⟩ := trimDots_cases p.parts
  · rw [hnone] at hlast
    cases hlast
  · rw [hinit, List.dropLast_concat, hmoves]
    cases seg with
    | here => exact absurd rfl hseg
    | up =>
      rw [hmoves, List.filterMap_append] at hlast
      simp [component?, List.getLast?_cons] at hlast
    | name m =>
      rw [hmoves, List.filterMap_append] at hlast
      obtain rfl : m = n := by simpa [component?, List.getLast?_cons] using hlast
      rfl

/-- A parent has fewer pieces. -/
theorem parent_lt {p q : Path} (h : p.parent = some q) : q.parts.length < p.parts.length := by
  have htrim : ∀ r : Path, r.trim.parts.length ≤ r.parts.length := by
    intro r
    unfold trim
    split
    · exact Nat.succ_le_succ (length_trimDots _)
    · exact length_trimDots _
  have hpos : 0 < p.parts.length := by
    rw [List.length_pos_iff]
    intro hnil
    rw [parent, components, hnil] at h
    cases habs : p.absolute <;> simp [habs] at h
  have hq : q.parts.length ≤ p.trim.parts.dropLast.length := by
    unfold parent at h
    split at h
    · cases h
    · cases h
    · obtain rfl := Option.some.inj h
      exact htrim _
  have hp := htrim p
  rw [List.length_dropLast] at hq
  omega

end Path

/-! ## Canonical paths -/

namespace FileSystem

variable {fs : FileSystem} {p : Path}

theorem resolve_walk {loc : List OsName} (h : fs.resolve p = some loc) :
    fs.tree.walk fs.maxLinks (fs.start p) p.parts = some (loc, []) := by
  unfold resolve at h
  split at h
  · cases h
  · split at h
    · next loc' hwalk =>
      cases h
      exact hwalk
    · cases h

theorem resolve_real {loc : List OsName} (h : fs.resolve p = some loc) : fs.tree.Real loc := by
  refine walk_real ?_ (resolve_walk h)
  unfold start
  split
  · exact trivial
  · exact fs.cwd_real

/-- A canonical path names a real location. -/
theorem canonicalize_ok {q : Path} (h : fs.canonicalize p = .ok q) :
    ∃ loc, fs.resolve p = some loc ∧ fs.tree.Real loc ∧ q = .ofLocation loc := by
  unfold canonicalize at h
  split at h
  · next loc hloc => exact ⟨loc, hloc, resolve_real hloc, (Except.ok.inj h).symm⟩
  · cases h

end FileSystem

end Hiko
