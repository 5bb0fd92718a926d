import Hiko.Fs.Lockfile
import Hiko.Lib.Search

/-!
# Walking directories

`walk_dir` lists the files below a directory and `glob` the paths that match a pattern. Under a
file policy both read directories through the handle of their folder and follow the links in them;
directories that were visited end the recursion.

## Main definitions

* `FiniteFileSystem`, `CapDirs`: a finite tree with readable names, directory handles of a folder
* `capEntry`, `capSearch`: what both do with an entry of a directory, and with a directory
* `walkDir`, `glob`: the builtins under a file policy
-/

namespace Hiko

open Lib Lib.FileTree

/-! ## The file system -/

/-- The bytes of a piece of a path. -/
def segmentBytes : Segment OsName → List UInt8
  | .here => [46]
  | .up => [46, 46]
  | .name n => n.bytes

/-- The bytes of a path. -/
def Path.bytes (p : Path) : List UInt8 :=
  (if p.absolute then [47] else []) ++ [47].intercalate (p.parts.map segmentBytes)

/-- `to_string_lossy`, with what it makes of bytes that are not UTF-8. -/
def Path.toStringLossy (replace : List UInt8 → String) (p : Path) : String :=
  (String.fromUTF8? p.bytes.toByteArray).getD (replace p.bytes)

/-- A file system with finitely many entries, that have names in UTF-8. -/
structure FiniteFileSystem extends FileSystem where
  locations : List (List OsName)
  mem_locations : ∀ loc, tree.node loc ≠ none → loc ∈ locations
  utf8 : ∀ n loc, tree.node (n :: loc) ≠ none → n.bytes.toByteArray.IsValidUTF8

/-- `std::fs::FileType`. -/
inductive FileType where
  | dir
  | file
  | symlink
deriving DecidableEq

/-- The type of an entry. -/
def fileTypeOf : Node OsName → FileType
  | .dir => .dir
  | .file => .file
  | .link _ _ => .symlink

namespace FileSystem

/-- `Path::is_dir`. -/
def isDir (fs : FileSystem) (p : Path) : Bool :=
  match fs.resolve p with
  | some loc => fs.tree.isDir loc
  | none => false

/-- `Path::is_file`. -/
def isFile (fs : FileSystem) (p : Path) : Bool :=
  match fs.resolve p with
  | some loc => fs.tree.node loc = some .file
  | none => false

end FileSystem

/-- The handles of folders. A handle opens a directory by a relative path and refuses one that leads
out of its folder. -/
structure CapDirs (fs : FileSystem) where
  openDir : Path → Path → Except String (List OsName)
  confined : ∀ root dir loc, openDir (.ofLocation root) dir = .ok loc →
    root <:+ loc ∧ fs.resolve ((Path.ofLocation root).join dir) = some loc

/-- The name of a location in a directory. -/
def nameIn (dir : List OsName) : List OsName → Option OsName
  | n :: loc => if loc = dir then some n else none
  | [] => none

/-- The names in a directory, in the order of their bytes. -/
def FiniteFileSystem.entryNames (fs : FiniteFileSystem) (dir : List OsName) : List OsName :=
  (((fs.locations.filter fun loc => (fs.tree.node loc).isSome).filterMap
    (nameIn dir)).dedup).insertionSort fun a b => a.bytes ≤ b.bytes

/-- `read_dir` of a handle: the names in a directory and their types, sorted. -/
def readDir (fs : FiniteFileSystem) (cap : CapDirs fs.toFileSystem) (root dir : Path) :
    Except String (List (OsName × FileType)) :=
  match cap.openDir root dir with
  | .error e => .error e
  | .ok loc =>
    if fs.tree.isDir loc then
      .ok ((fs.entryNames loc).filterMap fun n =>
        (fs.tree.node (n :: loc)).map fun nd => (n, fileTypeOf nd))
    else .error "Not a directory (os error 20)"

/-! ## The functions -/

section Functions

variable {α : Type} (fs : FiniteFileSystem) (cap : CapDirs fs.toFileSystem) (text : Path → α)

/-- What `walk_cap` and `collect_cap_paths` do with an entry of a directory. The second lists
directories as well. -/
def capEntry (fn : String) (all : Bool) (root dir : Path) (entry : OsName × FileType) :
    List (Event Path α String) :=
  let child := dir.push entry.1
  match entry.2 with
  | .symlink =>
    match fs.canonicalize (root.join child) with
    | .error e => [.fail (fn ++ ": " ++ e)]
    | .ok target =>
      match target.stripPrefix root with
      | none => [.fail (fn ++ ": path contains symlink outside allowed root")]
      | some relativeTarget =>
        -- `glob` lists the target whatever it is, `walk_dir` only a file
        (if all then [.emit (text target)] else []) ++
        if fs.isDir target then
          [.visit (if relativeTarget.isEmpty then .new "." else relativeTarget)]
        else if !all && fs.isFile target then [.emit (text target)]
        else []
  | fileType =>
    -- a child of the folder itself is listed without the dot
    let displayChild := (child.stripPrefix (.new ".")).getD child
    (if all || fileType = .file then [.emit (text (root.join displayChild))] else []) ++
      if fileType = .dir then [.visit child] else []

/-- The body of `walk_cap` and `collect_cap_paths` for a directory that was not visited. -/
def capEvents (fn : String) (all : Bool) (root dir : Path) : List (Event Path α String) :=
  match readDir fs cap root dir with
  | .error e => [.fail (fn ++ ": " ++ e)]
  | .ok entries => entries.flatMap (capEntry fs text fn all root dir)

/-- The recursion of `walk_cap` and `collect_cap_paths`. Paths with the same components are equal,
also in the set of the directories that were visited. -/
def capSearch (fn : String) (all : Bool) (root : Path) (depth : ℕ) (dir : Path) :
    Option (Except String (List α)) :=
  (search (capEvents fs cap text fn all root) Path.components depth dir ⟨[], []⟩).map
    (·.map (·.out))

variable (replace : List UInt8 → String)

/-- `walk_cap`. -/
def walkCap (root : Path) (depth : ℕ) (dir : Path) : Option (Except String (List String)) :=
  capSearch fs cap (Path.toStringLossy replace) "walk_dir" false root depth dir

/-- `collect_cap_paths`. -/
def collectCapPaths (root : Path) (depth : ℕ) (dir : Path) : Option (Except String (List Path)) :=
  capSearch fs cap id "glob" true root depth dir

/-- `seen.insert`, with what is done with a text that is new. The texts seen are those listed. -/
def insertNew (texts : List String) (new : String) : List String :=
  if new ∈ texts then texts else texts ++ [new]

/-- The loop of `walk_dir` over the candidates. -/
def walkCandidates (depth : ℕ) :
    List CapFsCandidate → List String → Option (Except String (List String))
  | [], files => some (.ok files)
  | c :: candidates, files =>
    match walkCap fs cap replace c.root depth c.relativePath with
    | some (.ok candidateFiles) =>
      walkCandidates depth candidates (candidateFiles.foldl insertNew files)
    | res => res

/-- What the heap answers when a text is charged for and put there after others, and when the list
of them is. -/
structure HeapAnswers where
  text : List String → String → Except String Unit
  list : List String → Except String Unit

/-- The loop that puts texts into the heap. -/
def putTexts (heap : HeapAnswers) : List String → List String → Except String Unit
  | _, [] => .ok ()
  | before, f :: files =>
    match heap.text before f with
    | .error e => .error e
    | .ok () => putTexts heap (before ++ [f]) files

/-- The list that a builtin returns. -/
def allocList (heap : HeapAnswers) (texts : List String) : Except String (List String) :=
  match heap.list texts with
  | .error e => .error e
  | .ok () => .ok texts

/-- `walk_dir` under a file policy. -/
def walkDir (heap : HeapAnswers) (builtinDirs : List (String × List Path)) (depth : ℕ)
    (dir : String) : Option (Except String (List String)) :=
  match capCandidatesFor fs.toFileSystem builtinDirs "walk_dir" dir with
  | .error e => some (.error ("walk_dir: " ++ e))
  | .ok candidates =>
    match walkCandidates fs cap replace depth candidates [] with
    | some (.ok files) =>
      match putTexts heap [] files with
      | .error e => some (.error e)
      | .ok () => some (allocList heap files)
    | res => res

/-- `glob::Pattern`: what a text denotes, and the paths that it matches. -/
structure Patterns where
  Pattern : Type
  new : String → Except String Pattern
  matchesPath : Pattern → Path → Bool

variable (patterns : Patterns)

/-- The loop of `glob` over the paths of a candidate. -/
def globPaths (heap : HeapAnswers) (pattern : patterns.Pattern) :
    List Path → List String → Except String (List String)
  | [], paths => .ok paths
  | path :: rest, paths =>
    if patterns.matchesPath pattern path then
      let new := path.toStringLossy replace
      -- a text that is listed is not charged for again
      if new ∈ paths then globPaths heap pattern rest paths
      else
        match heap.text paths new with
        | .error e => .error e
        | .ok () => globPaths heap pattern rest (paths ++ [new])
    else globPaths heap pattern rest paths

/-- The text of the pattern for a candidate. -/
def patternText (pattern : String) (root : Path) : String :=
  if (Path.new pattern).absolute then pattern
  else (root.joinStr pattern).toStringLossy replace

/-- The loop of `glob` over the candidates. -/
def globCandidates (heap : HeapAnswers) (pattern : String) (depth : ℕ) :
    List CapFsCandidate → List String → Option (Except String (List String))
  | [], paths => some (.ok paths)
  | c :: candidates, paths =>
    match patterns.new (patternText replace pattern c.root) with
    | .error e => some (.error ("glob: " ++ e))
    | .ok pat =>
      match collectCapPaths fs cap c.root depth c.relativePath with
      | none => none
      | some (.error e) => some (.error e)
      | some (.ok allPaths) =>
        match globPaths replace patterns heap pat allPaths paths with
        | .error e => some (.error e)
        | .ok paths => globCandidates heap pattern depth candidates paths

/-- The checks of `glob` on a pattern. -/
def checkPattern (pattern : String) (candidates : List CapFsCandidate) : Except String Unit :=
  if (Path.new pattern).absolute ∧
      ¬ candidates.any fun c => (Path.new pattern).startsWith c.root then
    .error ("glob: path '" ++ pattern ++ "' is outside allowed root/folders")
  else .ok ()

/-- `glob` under a file policy. -/
def glob (heap : HeapAnswers) (builtinDirs : List (String × List Path)) (depth : ℕ)
    (pattern : String) : Option (Except String (List String)) :=
  -- absolute patterns are checked against the candidates, below
  match if (Path.new pattern).absolute then .ok () else validateCapRelativePath (.new pattern) with
  | .error e => some (.error ("glob: " ++ e))
  | .ok () =>
    match capCandidatesFor fs.toFileSystem builtinDirs "glob" "." with
    | .error e => some (.error ("glob: " ++ e))
    | .ok candidates =>
      match checkPattern pattern candidates with
      | .error e => some (.error e)
      | .ok () =>
        match globCandidates fs cap replace patterns heap pattern depth candidates [] with
        | some (.ok paths) => some (allocList heap paths)
        | res => res

end Functions

/-- Handles that look at where a path leads before they open it. -/
def checkedDirs (fs : FileSystem) : CapDirs fs where
  openDir root dir :=
    match fs.resolve (root.join dir) with
    | some loc =>
      if (Path.ofLocation loc).startsWith root then .ok loc
      else .error "a path led outside of the filesystem"
    | none => .error "No such file or directory (os error 2)"
  confined root dir loc h := by
    split at h
    · next loc' hloc' =>
      split at h
      · next hstarts =>
        obtain rfl := Except.ok.inj h
        exact ⟨startsWith_ofLocation.mp hstarts, hloc'⟩
      · cases h
    · cases h

end Hiko
