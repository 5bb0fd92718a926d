import Hiko.Compile.Imports

/-!
# Sealed programs

A sealed program carries the local files that its script uses. They are collected under keys: their
paths relative to the directory of the script, normalized without looking at the file system. A
program that is run from its files knows them by their real paths instead. Components of paths are
already split here, and a key is the list of its components.

## Main definitions

* `FileTree`, `FileTree.canonicalize`: a file system without links
* `embeddedFilePath`: the key of a used file
* `FileTree.localUseFiles`: the files of a sealed program
* `fileResolver`, `embeddedResolver`: how a program finds its files, from the tree and sealed
* `UsedKey`, `UsedFile`: what a program uses

## Main results

* `localUseFiles_ends`, `Collected.lookup`: collecting ends, and all used files are there
* `sealed_iff`: when a sealed program is compiled as the unsealed one is
-/

namespace Hiko

/-- A component of a path, without `.`. -/
inductive PathComp where
  | parent
  | name (s : String)
  deriving DecidableEq

/-- `Path::components`: whether the path is absolute, and its other components. -/
def pathComponents (path : String) : Bool × List PathComp :=
  (path.toList.head? = some '/', (path.toList.splitOn '/').filterMap fun s =>
    if s = [] ∨ s = ['.'] then none
    else if s = ['.', '.'] then some .parent
    else some (.name (String.ofList s)))

/-- One component further. The parent of the root is the root. -/
def enterPath (dir : List String) : PathComp → List String
  | .parent => dir.dropLast
  | .name s => dir ++ [s]

/-- `lexical_normalize` of a path from a directory. -/
def lexicalNormalize (dir : List String) (comps : List PathComp) : List String :=
  comps.foldl enterPath dir

/-- A component added to a key by `embedded_file_path`. -/
def pushPart (parts : List PathComp) : PathComp → List PathComp
  | .name s => parts ++ [.name s]
  | .parent =>
    match parts.getLast? with
    | some (.name _) => parts.dropLast
    | _ => parts ++ [.parent]

/-- The components of a key. -/
def normalizeKey (comps : List PathComp) : List PathComp := comps.foldl pushPart []

/-- `embedded_file_path`. -/
def embeddedFilePath (baseDir : List PathComp) (path : String) : Except String (List PathComp) :=
  if (pathComponents path).1 then
    .error ("local use '" ++ path ++
      "' is an absolute path; an embedded program can only use relative paths")
  else .ok (normalizeKey (baseDir ++ (pathComponents path).2))

/-- A file system without links: directories, and files with their declarations. -/
structure FileTree (δ : Type) where
  isDir : List String → Bool
  file : List String → Option (List (ModuleItem δ))
  root : isDir [] = true
  parentDir : ∀ p, isDir p = true → isDir p.dropLast = true
  fileDir : ∀ p, (file p).isSome = true → isDir p = false ∧ isDir p.dropLast = true

namespace FileTree

variable {δ : Type} (tree : FileTree δ)

/-- `canonicalize` from a directory: every component but the last leads to a directory, and the
last to a directory or a file. -/
def canonicalize : List String → List PathComp → Option (List String)
  | cur, [] => if tree.isDir cur ∨ (tree.file cur).isSome then some cur else none
  | cur, c :: cs => if tree.isDir cur then canonicalize (enterPath cur c) cs else none

/-- The uses of one source in `local_use_files`: the pending sources and the files found. -/
def collectFiles (root : List String) (dir : List PathComp) :
    List (ModuleStep δ) → List (List PathComp × List (ModuleItem δ)) →
    List (List PathComp × List (ModuleItem δ)) →
    Except String (List (List PathComp × List (ModuleItem δ)) ×
      List (List PathComp × List (ModuleItem δ)))
  | [], pending, found => .ok (pending, found)
  | .decl _ :: rest, pending, found => collectFiles root dir rest pending found
  | .use path :: rest, pending, found =>
    match embeddedFilePath dir path with
    | .error e => .error e
    | .ok key =>
      if (found.lookup key).isSome then collectFiles root dir rest pending found
      else
        match tree.canonicalize root (dir ++ (pathComponents path).2) with
        | none => .error ("cannot read local use '" ++ path ++ "'")
        | some canonical =>
          if canonical ≠ lexicalNormalize root key then
            .error ("local use '" ++ path ++
              "' resolves through a symbolic link; a sealed program needs plain paths")
          else
            match tree.file canonical with
            | none => .error ("cannot read local use '" ++ path ++ "'")
            | some items =>
              collectFiles root dir rest ((key.dropLast, items) :: pending) ((key, items) :: found)

/-- The loop of `local_use_files`, with a bound on its turns. -/
def collectLoop (root : List String) : ℕ → List (List PathComp × List (ModuleItem δ)) →
    List (List PathComp × List (ModuleItem δ)) →
    Option (Except String (List (List PathComp × List (ModuleItem δ))))
  | _, [], found => some (.ok found)
  | 0, _ :: _, _ => none
  | fuel + 1, (dir, items) :: pending, found =>
    match tree.collectFiles root dir (flatten items) pending found with
    | .error e => some (.error e)
    | .ok (pending', found') => collectLoop root fuel pending' found'

/-- `local_use_files` of a script in the directory `root`. -/
def localUseFiles (root : List String) (fuel : ℕ) (script : List (ModuleItem δ)) :
    Option (Except String (List (List PathComp × List (ModuleItem δ)))) :=
  tree.collectLoop root fuel [([], script)] []

/-- The files of a program that is run from its files. -/
def fileResolver : Resolver (List String) (List String) δ where
  key base path :=
    match tree.canonicalize (if (pathComponents path).1 then [] else base) (pathComponents path).2 with
    | none => .error ("cannot resolve local use '" ++ path ++ "'")
    | some canonical => .ok canonical
  load canonical :=
    match tree.file canonical with
    | none => .error "cannot read local use"
    | some items => .ok (canonical.dropLast, items)

end FileTree

/-- The files of a sealed program. -/
def embeddedResolver {δ : Type} (files : List (List PathComp × List (ModuleItem δ))) :
    Resolver (List PathComp) (List PathComp) δ where
  key base path :=
    match embeddedFilePath base path with
    | .error e => .error e
    | .ok key =>
      if (files.lookup key).isSome then .ok key
      else .error ("local use '" ++ path ++ "' is not embedded in this artifact")
  load key :=
    match files.lookup key with
    | none => .error "local use is not embedded in this artifact"
    | some items => .ok (key.dropLast, items)

/-! ## Keys and paths -/

section Paths

variable {dir : List String} {comps : List PathComp}

theorem lexicalNormalize_append (dir : List String) (cs ds : List PathComp) :
    lexicalNormalize dir (cs ++ ds) = lexicalNormalize (lexicalNormalize dir cs) ds :=
  List.foldl_append

/-- A key leads where its components lead: a name and its parent cancel. -/
theorem lexicalNormalize_pushPart (dir : List String) (parts : List PathComp) (c : PathComp) :
    lexicalNormalize dir (pushPart parts c) = enterPath (lexicalNormalize dir parts) c := by
  cases c with
  | name s => simp [pushPart, lexicalNormalize, enterPath]
  | parent =>
    simp only [pushPart]
    split
    · next s hlast =>
      obtain ⟨ps, rfl⟩ := List.getLast?_eq_some_iff.mp hlast
      simp [lexicalNormalize, enterPath]
    · simp [lexicalNormalize, enterPath]

theorem lexicalNormalize_normalizeKey (dir : List String) (comps : List PathComp) :
    lexicalNormalize dir (normalizeKey comps) = lexicalNormalize dir comps := by
  have hfold : ∀ (cs parts : List PathComp), lexicalNormalize dir (cs.foldl pushPart parts) =
      lexicalNormalize (lexicalNormalize dir parts) cs := by
    intro cs
    induction cs with
    | nil => exact fun parts => rfl
    | cons c cs ih =>
      intro parts
      rw [List.foldl_cons, ih, lexicalNormalize_pushPart]
      rfl
  exact hfold comps []

/-- The form of a key: parents, then names. -/
def KeyShape (key : List PathComp) : Prop :=
  ∃ m, ∃ names : List String, key = List.replicate m .parent ++ names.map .name

theorem KeyShape.pushPart {parts : List PathComp} (h : KeyShape parts) (c : PathComp) :
    KeyShape (pushPart parts c) := by
  obtain ⟨m, names, rfl⟩ := h
  cases c with
  | name s => exact ⟨m, names ++ [s], by simp [Hiko.pushPart]⟩
  | parent =>
    rcases List.eq_nil_or_concat names with rfl | ⟨ns, s, rfl⟩
    · refine ⟨m + 1, [], ?_⟩
      cases m with
      | zero => simp [Hiko.pushPart]
      | succ m => simp [Hiko.pushPart, List.replicate_succ', List.getLast?_append]
    · exact ⟨m, ns, by simp [Hiko.pushPart, ← List.append_assoc]⟩

theorem keyShape_normalizeKey (comps : List PathComp) : KeyShape (normalizeKey comps) := by
  have hfold : ∀ (cs parts : List PathComp), KeyShape parts → KeyShape (cs.foldl pushPart parts) := by
    intro cs
    induction cs with
    | nil => exact fun parts h => h
    | cons c cs ih => exact fun parts h => ih _ (h.pushPart c)
  exact hfold comps [] ⟨0, [], rfl⟩

end Paths

section Tree

variable {δ : Type} {tree : FileTree δ}

/-- Every component of a path but the last leads to a directory. -/
def FileTree.Walks (tree : FileTree δ) : List String → List PathComp → Prop
  | _, [] => True
  | cur, c :: cs => tree.isDir cur = true ∧ tree.Walks (enterPath cur c) cs

theorem canonicalize_eq {cur p : List String} {cs : List PathComp}
    (h : tree.canonicalize cur cs = some p) : p = lexicalNormalize cur cs := by
  induction cs generalizing cur with
  | nil =>
    simp only [FileTree.canonicalize] at h
    split at h
    · exact (Option.some.inj h).symm
    · cases h
  | cons c cs ih =>
    simp only [FileTree.canonicalize] at h
    split at h
    · exact ih h
    · cases h

theorem canonicalize_append {cur : List String} {cs : List PathComp} (ds : List PathComp)
    (h : tree.Walks cur cs) :
    tree.canonicalize cur (cs ++ ds) = tree.canonicalize (lexicalNormalize cur cs) ds := by
  induction cs generalizing cur with
  | nil => rfl
  | cons c cs ih =>
    obtain ⟨hdir, hrest⟩ := h
    rw [List.cons_append, FileTree.canonicalize, if_pos hdir, ih hrest]
    rfl

theorem isDir_of_append {p q : List String} (h : tree.isDir (p ++ q) = true) :
    tree.isDir p = true := by
  induction q using List.reverseRecOn with
  | nil => simpa using h
  | append_singleton q x ih =>
    have := tree.parentDir _ h
    rw [← List.append_assoc, List.dropLast_concat] at this
    exact ih this

theorem isDir_parents {cur : List String} (h : tree.isDir cur = true) (m : ℕ) :
    tree.isDir (lexicalNormalize cur (List.replicate m .parent)) = true := by
  induction m generalizing cur with
  | zero => exact h
  | succ m ih => exact ih (tree.parentDir cur h)

theorem lexicalNormalize_names (cur names : List String) :
    lexicalNormalize cur (names.map .name) = cur ++ names := by
  induction names generalizing cur with
  | nil => simp [lexicalNormalize]
  | cons s names ih =>
    have := ih (cur ++ [s])
    simp only [lexicalNormalize] at this
    simp [lexicalNormalize, enterPath, this]

theorem walks_names {cur names : List String} (h : tree.isDir (cur ++ names) = true) :
    tree.Walks cur (names.map .name) := by
  induction names generalizing cur with
  | nil => trivial
  | cons s names ih =>
    refine ⟨isDir_of_append h, ih ?_⟩
    simpa [enterPath] using h

theorem walks_parents {cur : List String} {cs : List PathComp} (h : tree.isDir cur = true) (m : ℕ)
    (hrest : tree.Walks (lexicalNormalize cur (List.replicate m .parent)) cs) :
    tree.Walks cur (List.replicate m .parent ++ cs) := by
  induction m generalizing cur with
  | zero => exact hrest
  | succ m ih => exact ⟨h, ih (tree.parentDir cur h) hrest⟩

/-- A key of a file: its directory is reached through directories. -/
theorem keyShape_file {root : List String} (hroot : tree.isDir root = true) {key : List PathComp}
    (hshape : KeyShape key) (hfile : (tree.file (lexicalNormalize root key)).isSome = true) :
    tree.Walks root key.dropLast ∧
      (lexicalNormalize root key).dropLast = lexicalNormalize root key.dropLast := by
  obtain ⟨m, names, rfl⟩ := hshape
  obtain ⟨hnot, hdir⟩ := tree.fileDir _ hfile
  rw [lexicalNormalize_append, lexicalNormalize_names] at hnot hdir ⊢
  rcases List.eq_nil_or_concat names with rfl | ⟨ns, s, rfl⟩
  · -- only parents: a directory
    rw [List.append_nil, isDir_parents hroot m] at hnot
    cases hnot
  · have hdrop : (List.replicate m PathComp.parent ++ (ns ++ [s]).map PathComp.name).dropLast =
        List.replicate m .parent ++ ns.map .name := by
      rw [List.map_append, List.map_singleton, ← List.append_assoc, List.dropLast_concat]
    simp only [List.concat_eq_append] at hdir ⊢
    rw [← List.append_assoc, List.dropLast_concat] at hdir ⊢
    rw [hdrop, lexicalNormalize_append, lexicalNormalize_names]
    exact ⟨walks_parents hroot m (walks_names hdir), rfl⟩

end Tree

/-! ## What a program uses -/

section Program

variable {δ : Type}

/-- The keys that a sealed program uses, for a script in the directory `root`. -/
inductive UsedKey (tree : FileTree δ) (root : List String) (script : List (ModuleItem δ)) :
    List PathComp → Prop
  | script {path : String} {key : List PathComp} (hp : .use path ∈ flatten script)
      (hkey : embeddedFilePath [] path = .ok key) : UsedKey tree root script key
  | file {key key' : List PathComp} {items : List (ModuleItem δ)} {path : String}
      (h : UsedKey tree root script key)
      (hitems : tree.file (lexicalNormalize root key) = some items)
      (hp : .use path ∈ flatten items) (hkey : embeddedFilePath key.dropLast path = .ok key') :
      UsedKey tree root script key'

/-- The files that a program uses. -/
inductive UsedFile (tree : FileTree δ) (root : List String) (script : List (ModuleItem δ)) :
    List String → Prop
  | script {path : String} {f : List String} (hp : .use path ∈ flatten script)
      (hf : tree.fileResolver.key root path = .ok f) : UsedFile tree root script f
  | file {f g : List String} {items : List (ModuleItem δ)} {path : String}
      (h : UsedFile tree root script f) (hitems : tree.file f = some items)
      (hp : .use path ∈ flatten items) (hg : tree.fileResolver.key f.dropLast path = .ok g) :
      UsedFile tree root script g

/-- A script whose uses lead to files, without cycles: `rank` decreases along the uses. -/
structure LocalProgram (tree : FileTree δ) (root : List String) (script : List (ModuleItem δ))
    (rank : List String → ℕ) : Prop where
  dir : tree.isDir root = true
  uses : ∀ path, .use path ∈ flatten script → ∃ f, tree.fileResolver.key root path = .ok f ∧
    (tree.file f).isSome = true
  nested : ∀ f items, UsedFile tree root script f → tree.file f = some items →
    ∀ path, .use path ∈ flatten items → ∃ g, tree.fileResolver.key f.dropLast path = .ok g ∧
      (tree.file g).isSome = true ∧ rank g < rank f

/-- All used paths are relative. -/
structure RelativeUses (tree : FileTree δ) (root : List String) (script : List (ModuleItem δ)) :
    Prop where
  ofScript : ∀ path, .use path ∈ flatten script → (pathComponents path).1 = false
  ofFile : ∀ f items, UsedFile tree root script f → tree.file f = some items →
    ∀ path, .use path ∈ flatten items → (pathComponents path).1 = false

/-- No file is used under two keys. -/
def OneKeyEach (tree : FileTree δ) (root : List String) (script : List (ModuleItem δ)) : Prop :=
  ∀ key key', UsedKey tree root script key → UsedKey tree root script key' →
    lexicalNormalize root key = lexicalNormalize root key' → key = key'

variable {tree : FileTree δ} {root : List String} {script : List (ModuleItem δ)}
  {rank : List String → ℕ} {key dir : List PathComp} {items : List (ModuleItem δ)} {path : String}

theorem embeddedFilePath_of_relative (dir : List PathComp)
    (h : (pathComponents path).1 = false) :
    embeddedFilePath dir path = .ok (normalizeKey (dir ++ (pathComponents path).2)) := by
  simp [embeddedFilePath, h]

theorem fileResolver_key_of_relative {base f : List String} (h : (pathComponents path).1 = false)
    (hf : tree.fileResolver.key base path = .ok f) :
    tree.canonicalize base (pathComponents path).2 = some f := by
  simp only [FileTree.fileResolver, h, Bool.false_eq_true, if_false] at hf
  split at hf
  · cases hf
  · next g hg =>
    cases hf
    exact hg

/-- A key of a used file. -/
structure KeyOk (tree : FileTree δ) (root : List String) (script : List (ModuleItem δ))
    (key : List PathComp) : Prop where
  used : UsedFile tree root script (lexicalNormalize root key)
  exists_file : ∃ items, tree.file (lexicalNormalize root key) = some items
  walks : tree.Walks root key.dropLast
  dir : (lexicalNormalize root key).dropLast = lexicalNormalize root key.dropLast

theorem keyOk_of_file (hdir : tree.isDir root = true) {f : List String} {cs : List PathComp}
    (hused : UsedFile tree root script f) (hfile : (tree.file f).isSome = true)
    (hf : f = lexicalNormalize root cs) : KeyOk tree root script (normalizeKey cs) := by
  have hnorm : lexicalNormalize root (normalizeKey cs) = f := by
    rw [lexicalNormalize_normalizeKey, hf]
  obtain ⟨hwalks, hdrop⟩ := keyShape_file hdir (keyShape_normalizeKey cs) (by rwa [hnorm])
  refine ⟨by rwa [hnorm], ?_, hwalks, hdrop⟩
  rw [hnorm]
  exact Option.isSome_iff_exists.mp hfile

/-- The keys of a program with relative paths lead to its files. -/
theorem UsedKey.keyOk (hprog : LocalProgram tree root script rank)
    (hrel : RelativeUses tree root script) (h : UsedKey tree root script key) :
    KeyOk tree root script key := by
  induction h with
  | @script path key hp hkey =>
    have hr := hrel.ofScript path hp
    rw [embeddedFilePath_of_relative _ hr] at hkey
    cases hkey
    obtain ⟨f, hf, hfile⟩ := hprog.uses path hp
    have hcanon := canonicalize_eq (fileResolver_key_of_relative hr hf)
    exact keyOk_of_file hprog.dir (.script hp hf) hfile (by simpa using hcanon)
  | @file key key' items path _ hitems hp hkey ih =>
    have hr := hrel.ofFile _ items ih.used hitems path hp
    rw [embeddedFilePath_of_relative _ hr] at hkey
    cases hkey
    obtain ⟨g, hg, hfile, -⟩ := hprog.nested _ items ih.used hitems path hp
    have hcanon := canonicalize_eq (fileResolver_key_of_relative hr hg)
    rw [ih.dir, ← lexicalNormalize_append] at hcanon
    exact keyOk_of_file hprog.dir (.file ih.used hitems hp hg) hfile hcanon

/-- A source of a sealed program: the script, or a file under its key. -/
inductive SourceOk (tree : FileTree δ) (root : List String) (script : List (ModuleItem δ)) :
    List PathComp → List (ModuleItem δ) → Prop
  | script : SourceOk tree root script [] script
  | file {key : List PathComp} {items : List (ModuleItem δ)} (h : UsedKey tree root script key)
      (hitems : tree.file (lexicalNormalize root key) = some items) :
      SourceOk tree root script key.dropLast items

/-- A use in a source: its key leads to the file that the unsealed program uses. -/
theorem SourceOk.use (hprog : LocalProgram tree root script rank)
    (hrel : RelativeUses tree root script) (h : SourceOk tree root script dir items)
    (hp : .use path ∈ flatten items) :
    ∃ key items', embeddedFilePath dir path = .ok key ∧ UsedKey tree root script key ∧
      tree.canonicalize root (dir ++ (pathComponents path).2) = some (lexicalNormalize root key) ∧
      tree.file (lexicalNormalize root key) = some items' ∧
      tree.fileResolver.key (lexicalNormalize root dir) path = .ok (lexicalNormalize root key) ∧
      ∀ f, UsedFile tree root script f → tree.file f = some items →
        f.dropLast = lexicalNormalize root dir → rank (lexicalNormalize root key) < rank f := by
  cases h with
  | script =>
    have hr := hrel.ofScript path hp
    obtain ⟨f, hf, hfile⟩ := hprog.uses path hp
    have hcanon := fileResolver_key_of_relative hr hf
    have hkey := embeddedFilePath_of_relative [] hr
    have hnorm : lexicalNormalize root (normalizeKey ([] ++ (pathComponents path).2)) = f := by
      rw [lexicalNormalize_normalizeKey, List.nil_append, ← canonicalize_eq hcanon]
    obtain ⟨items', hitems'⟩ := Option.isSome_iff_exists.mp hfile
    refine ⟨_, items', hkey, .script hp hkey, ?_, ?_, ?_, ?_⟩
    · rw [hnorm, List.nil_append, hcanon]
    · rw [hnorm, hitems']
    · rw [hnorm]
      exact hf
    · intro g hg hitems hdir
      obtain ⟨f', hf', -, hrank⟩ := hprog.nested g script hg hitems path hp
      rw [hdir] at hf'
      change tree.fileResolver.key root path = .ok f' at hf'
      rw [hf] at hf'
      cases hf'
      rwa [hnorm]
  | @file k _ hk hitems =>
    have hok := hk.keyOk hprog hrel
    have hr := hrel.ofFile _ items hok.used hitems path hp
    obtain ⟨g, hg, hfile, hrank⟩ := hprog.nested _ items hok.used hitems path hp
    have hcanon := fileResolver_key_of_relative hr hg
    have hkey := embeddedFilePath_of_relative k.dropLast hr
    rw [hok.dir] at hg hcanon
    have hnorm : lexicalNormalize root (normalizeKey (k.dropLast ++ (pathComponents path).2)) = g := by
      rw [lexicalNormalize_normalizeKey, lexicalNormalize_append, ← canonicalize_eq hcanon]
    obtain ⟨items', hitems'⟩ := Option.isSome_iff_exists.mp hfile
    refine ⟨_, items', hkey, .file hk hitems hp hkey, ?_, ?_, ?_, ?_⟩
    · rw [hnorm, canonicalize_append _ hok.walks, hcanon]
    · rw [hnorm, hitems']
    · rw [hnorm]
      exact hg
    · intro f hf hitems' hdir
      obtain ⟨g', hg', -, hrank'⟩ := hprog.nested f items hf hitems' path hp
      rw [hdir, hg] at hg'
      cases hg'
      rwa [hnorm]

end Program

/-! ## Collecting files -/

section Collect

variable {δ : Type} {tree : FileTree δ} {root : List String} {script : List (ModuleItem δ)}
  {rank : List String → ℕ} {dir : List PathComp} {steps : List (ModuleStep δ)}
  {pending found : List (List PathComp × List (ModuleItem δ))}

theorem mem_of_lookup {κ α : Type} [BEq κ] [LawfulBEq κ] {l : List (κ × α)} {k : κ} {a : α}
    (h : l.lookup k = some a) : (k, a) ∈ l := by
  obtain ⟨l₁, l₂, heq, -⟩ := List.lookup_eq_some_iff.mp h
  rw [heq]
  simp

theorem embeddedFilePath_ok {path : String} {key : List PathComp}
    (h : embeddedFilePath dir path = .ok key) :
    (pathComponents path).1 = false ∧ key = normalizeKey (dir ++ (pathComponents path).2) := by
  unfold embeddedFilePath at h
  split at h
  · cases h
  · next hrel =>
    cases h
    exact ⟨by simpa using hrel, rfl⟩

/-- The sources that are pending after some files have been found. -/
def pendingOf (new : List (List PathComp × List (ModuleItem δ))) :
    List (List PathComp × List (ModuleItem δ)) :=
  new.map fun e => (e.1.dropLast, e.2)

/-- What the uses of a source add: files under the keys of the uses. -/
theorem collectFiles_ok {result : List (List PathComp × List (ModuleItem δ)) ×
      List (List PathComp × List (ModuleItem δ))}
    (h : tree.collectFiles root dir steps pending found = .ok result) :
    ∃ new, result = (pendingOf new ++ pending, new ++ found) ∧
      (∀ e ∈ new, KeyShape e.1 ∧ tree.file (lexicalNormalize root e.1) = some e.2) ∧
      ∀ path, .use path ∈ steps → ∃ key, embeddedFilePath dir path = .ok key ∧
        ((new ++ found).lookup key).isSome = true := by
  induction steps generalizing pending found with
  | nil =>
    cases h
    exact ⟨[], rfl, by simp, by simp⟩
  | cons step rest ih =>
    cases step with
    | decl d =>
      obtain ⟨new, heq, hnew, huses⟩ := ih h
      exact ⟨new, heq, hnew, fun path hp => huses path (by simpa using hp)⟩
    | use path =>
      rw [FileTree.collectFiles] at h
      split at h
      · cases h
      · next key hkey =>
        split at h
        · next hin =>
          obtain ⟨new, heq, hnew, huses⟩ := ih h
          refine ⟨new, heq, hnew, fun path' hp => ?_⟩
          rcases List.mem_cons.mp hp with hp | hp
          · cases hp
            refine ⟨key, hkey, ?_⟩
            rw [List.lookup_append, Option.isSome_or, hin, Bool.or_true]
          · exact huses path' hp
        · split at h
          · cases h
          · next canonical _ =>
            split at h
            · cases h
            · next hcanon =>
              split at h
              · cases h
              · next items hitems =>
                obtain ⟨new, heq, hnew, huses⟩ := ih h
                have hassoc : ∀ (l : List (List PathComp × List (ModuleItem δ))) e l',
                    l ++ e :: l' = (l ++ [e]) ++ l' := by simp
                refine ⟨new ++ [(key, items)], ?_, ?_, ?_⟩
                · rw [heq, pendingOf, pendingOf, List.map_append]
                  simp
                · intro e he
                  rcases List.mem_append.mp he with he | he
                  · exact hnew e he
                  · rw [List.mem_singleton.mp he]
                    obtain ⟨-, rfl⟩ := embeddedFilePath_ok hkey
                    refine ⟨keyShape_normalizeKey _, ?_⟩
                    rw [← not_not.mp hcanon]
                    exact hitems
                · intro path' hp
                  rw [← hassoc]
                  rcases List.mem_cons.mp hp with hp | hp
                  · cases hp
                    refine ⟨key, hkey, ?_⟩
                    simp [List.lookup_append]
                  · exact huses path' hp

/-- What has been collected: files under their keys, and, unless a source is pending, all that it
uses. -/
structure Collected (tree : FileTree δ) (root : List String) (script : List (ModuleItem δ))
    (pending found : List (List PathComp × List (ModuleItem δ))) : Prop where
  content : ∀ key items, found.lookup key = some items →
    KeyShape key ∧ tree.file (lexicalNormalize root key) = some items
  closed : ∀ dir items, (dir = [] ∧ items = script ∨
      ∃ key, found.lookup key = some items ∧ dir = key.dropLast) →
    (dir, items) ∈ pending ∨ ∀ path, .use path ∈ flatten items →
      ∃ key, embeddedFilePath dir path = .ok key ∧ (found.lookup key).isSome = true

theorem collected_script : Collected tree root script [([], script)] [] where
  content := by simp
  closed := by
    rintro dir items (⟨rfl, rfl⟩ | ⟨key, hkey, -⟩)
    · exact .inl (.head _)
    · cases hkey

/-- One turn of the loop. -/
theorem Collected.turn {items : List (ModuleItem δ)}
    {new : List (List PathComp × List (ModuleItem δ))}
    (h : Collected tree root script ((dir, items) :: pending) found)
    (hnew : ∀ e ∈ new, KeyShape e.1 ∧ tree.file (lexicalNormalize root e.1) = some e.2)
    (huses : ∀ path, .use path ∈ flatten items → ∃ key, embeddedFilePath dir path = .ok key ∧
      ((new ++ found).lookup key).isSome = true) :
    Collected tree root script (pendingOf new ++ pending) (new ++ found) := by
  have hlookup : ∀ {key items}, (new ++ found).lookup key = some items →
      (key, items) ∈ new ∨ found.lookup key = some items := by
    intro key items hkey
    rw [List.lookup_append, Option.or_eq_some_iff] at hkey
    rcases hkey with hkey | ⟨-, hkey⟩
    · exact .inl (mem_of_lookup hkey)
    · exact .inr hkey
  constructor
  · intro key items' hkey
    rcases hlookup hkey with hin | hold
    · exact hnew _ hin
    · exact h.content key items' hold
  · intro dir' items' hsource
    have hold : (dir', items') ∈ pendingOf new ∨ (dir' = [] ∧ items' = script ∨
        ∃ key, found.lookup key = some items' ∧ dir' = key.dropLast) := by
      rcases hsource with hscript | ⟨key, hkey, rfl⟩
      · exact .inr (.inl hscript)
      · rcases hlookup hkey with hin | hold
        · exact .inl (List.mem_map.mpr ⟨_, hin, rfl⟩)
        · exact .inr (.inr ⟨key, hold, rfl⟩)
    rcases hold with hpend | hold
    · exact .inl (List.mem_append_left _ hpend)
    · rcases h.closed dir' items' hold with hpend | hdone
      · rcases List.mem_cons.mp hpend with heq | hpend
        · cases heq
          exact .inr huses
        · exact .inl (List.mem_append_right _ hpend)
      · right
        intro path hp
        obtain ⟨key, hkey, hin⟩ := hdone path hp
        refine ⟨key, hkey, ?_⟩
        rw [List.lookup_append, Option.isSome_or, hin, Bool.or_true]

/-- Where the loop ends, all that is used has been collected. -/
theorem collectLoop_ok {files : List (List PathComp × List (ModuleItem δ))} : ∀ {fuel : ℕ}
    {pending found : List (List PathComp × List (ModuleItem δ))},
    tree.collectLoop root fuel pending found = some (.ok files) →
    Collected tree root script pending found → Collected tree root script [] files := by
  intro fuel
  induction fuel with
  | zero =>
    intro pending found h hinv
    cases pending with
    | nil =>
      cases h
      exact hinv
    | cons e pending => cases h
  | succ fuel ih =>
    intro pending found h hinv
    cases pending with
    | nil =>
      cases h
      exact hinv
    | cons e pending =>
      obtain ⟨dir, items⟩ := e
      rw [FileTree.collectLoop] at h
      split at h
      · cases h
      · next pending' found' hcollect =>
        obtain ⟨new, heq, hnew, huses⟩ := collectFiles_ok hcollect
        cases heq
        exact ih h (hinv.turn hnew huses)

theorem collectLoop_mono {result : Except String (List (List PathComp × List (ModuleItem δ)))} :
    ∀ {fuel fuel' : ℕ} {pending found : List (List PathComp × List (ModuleItem δ))},
    fuel ≤ fuel' → tree.collectLoop root fuel pending found = some result →
    tree.collectLoop root fuel' pending found = some result := by
  intro fuel
  induction fuel with
  | zero =>
    intro fuel' pending found _ h
    cases pending with
    | nil => cases fuel' <;> exact h
    | cons e pending => cases h
  | succ fuel ih =>
    intro fuel' pending found hle h
    obtain ⟨fuel', rfl⟩ := Nat.exists_eq_succ_of_ne_zero (by omega : fuel' ≠ 0)
    cases pending with
    | nil => exact h
    | cons e pending =>
      obtain ⟨dir, items⟩ := e
      rw [FileTree.collectLoop] at h ⊢
      split at h
      · exact h
      · exact ih (by omega) h

/-- The uses of a source of a program with relative paths are all found. -/
theorem collectFiles_total (hprog : LocalProgram tree root script rank)
    (hrel : RelativeUses tree root script) {items : List (ModuleItem δ)}
    (hsource : SourceOk tree root script dir items) (hsteps : steps ⊆ flatten items) :
    ∀ pending found, ∃ new,
      tree.collectFiles root dir steps pending found = .ok (pendingOf new ++ pending, new ++ found) ∧
      ∀ e ∈ new, UsedKey tree root script e.1 ∧
        tree.file (lexicalNormalize root e.1) = some e.2 ∧
        ∃ path, .use path ∈ steps ∧ embeddedFilePath dir path = .ok e.1 := by
  induction steps with
  | nil =>
    intro pending found
    exact ⟨[], rfl, by simp⟩
  | cons step rest ih =>
    intro pending found
    have ih := ih fun s hs => hsteps (.tail _ hs)
    cases step with
    | decl d =>
      obtain ⟨new, heq, hnew⟩ := ih pending found
      refine ⟨new, heq, fun e he => ?_⟩
      obtain ⟨hused, hfile, path, hp, hkey⟩ := hnew e he
      exact ⟨hused, hfile, path, .tail _ hp, hkey⟩
    | use path =>
      obtain ⟨key, items', hkey, hused, hcanon, hfile, -, -⟩ :=
        hsource.use hprog hrel (hsteps (.head _))
      rw [FileTree.collectFiles, hkey]
      by_cases hin : (found.lookup key).isSome = true
      · obtain ⟨new, heq, hnew⟩ := ih pending found
        refine ⟨new, by simpa only [hin, if_true] using heq, fun e he => ?_⟩
        obtain ⟨hused, hfile, path, hp, hkey⟩ := hnew e he
        exact ⟨hused, hfile, path, .tail _ hp, hkey⟩
      · obtain ⟨new, heq, hnew⟩ := ih ((key.dropLast, items') :: pending) ((key, items') :: found)
        refine ⟨new ++ [(key, items')], ?_, fun e he => ?_⟩
        · simp only [hin, hcanon, hfile, ne_eq, not_true, if_false, Bool.false_eq_true, heq]
          simp [pendingOf]
        · rcases List.mem_append.mp he with he | he
          · obtain ⟨hused, hfile, path, hp, hkey⟩ := hnew e he
            exact ⟨hused, hfile, path, .tail _ hp, hkey⟩
          · rw [List.mem_singleton.mp he]
            exact ⟨hused, hfile, path, .head _, hkey⟩

/-- The loop ends from these pending sources. -/
def LoopEnds (tree : FileTree δ) (root : List String)
    (pending : List (List PathComp × List (ModuleItem δ))) : Prop :=
  ∀ found, ∃ fuel files, tree.collectLoop root fuel pending found = some (.ok files)

/-- A turn of the loop: the new sources come before the other pending ones. -/
theorem loopEnds_cons (hprog : LocalProgram tree root script rank)
    (hrel : RelativeUses tree root script) {items : List (ModuleItem δ)}
    (hsource : SourceOk tree root script dir items)
    (hnext : ∀ new : List (List PathComp × List (ModuleItem δ)),
      (∀ e ∈ new, UsedKey tree root script e.1 ∧
        tree.file (lexicalNormalize root e.1) = some e.2 ∧
        ∃ path, .use path ∈ flatten items ∧ embeddedFilePath dir path = .ok e.1) →
      LoopEnds tree root (pendingOf new ++ pending)) :
    LoopEnds tree root ((dir, items) :: pending) := by
  intro found
  obtain ⟨new, hcollect, hnew⟩ :=
    collectFiles_total hprog hrel hsource (fun _ h => h) pending found
  obtain ⟨fuel, files, hloop⟩ := hnext new hnew (new ++ found)
  refine ⟨fuel + 1, files, ?_⟩
  rw [FileTree.collectLoop, hcollect]
  exact hloop

/-- Files of bounded rank are collected with all that they use: the pending sources are a stack,
so the uses of a file, of lower rank, are done before the rest. -/
theorem loopEnds_files (hprog : LocalProgram tree root script rank)
    (hrel : RelativeUses tree root script) : ∀ (n : ℕ)
    (new pending : List (List PathComp × List (ModuleItem δ))),
    (∀ e ∈ new, UsedKey tree root script e.1 ∧ tree.file (lexicalNormalize root e.1) = some e.2 ∧
      rank (lexicalNormalize root e.1) < n) → LoopEnds tree root pending →
    LoopEnds tree root (pendingOf new ++ pending) := by
  intro n
  induction n with
  | zero =>
    intro new pending hnew hpending
    cases new with
    | nil => exact hpending
    | cons e new => exact absurd (hnew e (.head _)).2.2 (Nat.not_lt_zero _)
  | succ n ihn =>
    intro new pending hnew hpending
    induction new with
    | nil => exact hpending
    | cons e new ih =>
      have hrest := ih fun e he => hnew e (.tail _ he)
      obtain ⟨hused, hfile, hlt⟩ := hnew e (.head _)
      apply loopEnds_cons hprog hrel (.file hused hfile)
      intro new' hnew'
      refine ihn new' _ (fun e' he' => ?_) hrest
      obtain ⟨hused', hfile', path, hp, hkey⟩ := hnew' e' he'
      refine ⟨hused', hfile', ?_⟩
      have hok := hused.keyOk hprog hrel
      obtain ⟨key, -, hkey', -, -, -, -, hrank⟩ :=
        (SourceOk.file hused hfile).use hprog hrel hp
      rw [hkey] at hkey'
      cases hkey'
      have := hrank _ hok.used hfile hok.dir
      omega

theorem localUseFiles_ends (hprog : LocalProgram tree root script rank)
    (hrel : RelativeUses tree root script) :
    ∃ fuel files, tree.localUseFiles root fuel script = some (.ok files) := by
  have hend : LoopEnds tree root ([] : List (List PathComp × List (ModuleItem δ))) :=
    fun found => ⟨0, found, rfl⟩
  apply loopEnds_cons hprog hrel .script _ []
  intro new hnew
  apply loopEnds_files hprog hrel ((new.map fun e => rank (lexicalNormalize root e.1)).sum + 1) new
    [] _ hend
  intro e he
  obtain ⟨hused, hfile, -⟩ := hnew e he
  exact ⟨hused, hfile, Nat.lt_succ_of_le (List.le_sum_of_mem (List.mem_map.mpr ⟨e, he, rfl⟩))⟩

/-- The keys that are used have been collected, with the contents of their files. -/
theorem Collected.lookup {files : List (List PathComp × List (ModuleItem δ))}
    (h : Collected tree root script [] files) {key : List PathComp}
    (hkey : UsedKey tree root script key) :
    ∃ items, files.lookup key = some items ∧
      tree.file (lexicalNormalize root key) = some items := by
  -- a source that is not pending has the keys of its uses
  have huses : ∀ {dir items path key}, (dir = [] ∧ items = script ∨
      ∃ k, files.lookup k = some items ∧ dir = k.dropLast) → .use path ∈ flatten items →
      embeddedFilePath dir path = .ok key → ∃ items, files.lookup key = some items ∧
        tree.file (lexicalNormalize root key) = some items := by
    intro dir items path key hsource hp hkey
    obtain ⟨key', hkey', hin⟩ := ((h.closed dir items hsource).resolve_left (by simp)) path hp
    rw [hkey] at hkey'
    cases hkey'
    obtain ⟨items', hitems'⟩ := Option.isSome_iff_exists.mp hin
    exact ⟨items', hitems', (h.content key items' hitems').2⟩
  induction hkey with
  | script hp hkey => exact huses (.inl ⟨rfl, rfl⟩) hp hkey
  | file _ hitems hp hkey ih =>
    obtain ⟨items', hlookup, hfile⟩ := ih
    rw [hitems] at hfile
    cases hfile
    exact huses (.inr ⟨_, hlookup, rfl⟩) hp hkey

end Collect

/-! ## Sealed and unsealed programs -/

section Agreement

variable {δ : Type} {tree : FileTree δ} {root : List String} {script : List (ModuleItem δ)}
  {rank : List String → ℕ} {files : List (List PathComp × List (ModuleItem δ))}

theorem embeddedResolver_key {dir key : List PathComp} {path : String}
    (hkey : embeddedFilePath dir path = .ok key) (hin : (files.lookup key).isSome = true) :
    (embeddedResolver files).key dir path = .ok key := by
  simp only [embeddedResolver, hkey, hin, if_true]

/-- The uses of a source lead to the same file, sealed and unsealed. -/
theorem SourceOk.sameUses (hprog : LocalProgram tree root script rank)
    (hrel : RelativeUses tree root script) (hfiles : Collected tree root script [] files)
    {dir : List PathComp} {items : List (ModuleItem δ)}
    (h : SourceOk tree root script dir items) :
    Resolver.SameUses (embeddedResolver files) tree.fileResolver (UsedKey tree root script)
      (lexicalNormalize root) dir (lexicalNormalize root dir) (flatten items) := by
  intro path hp
  obtain ⟨key, items', hkey, hused, -, -, hfile, -⟩ := h.use hprog hrel hp
  obtain ⟨items'', hlookup, -⟩ := hfiles.lookup hused
  exact ⟨key, hused, embeddedResolver_key hkey (by simp [hlookup]), hfile⟩

theorem embeddedResolver_ranked (hprog : LocalProgram tree root script rank)
    (hrel : RelativeUses tree root script) (hfiles : Collected tree root script [] files) :
    (embeddedResolver files).Ranked (fun key => rank (lexicalNormalize root key))
      (UsedKey tree root script) := by
  constructor
  intro key hused
  obtain ⟨items, hlookup, hfile⟩ := hfiles.lookup hused
  have hok := hused.keyOk hprog hrel
  refine ⟨key.dropLast, items, by simp only [embeddedResolver, hlookup], fun path hp => ?_⟩
  obtain ⟨key', items', hkey', hused', -, -, -, hrank⟩ :=
    (SourceOk.file hused hfile).use hprog hrel hp
  obtain ⟨items'', hlookup', -⟩ := hfiles.lookup hused'
  exact ⟨key', embeddedResolver_key hkey' (by simp [hlookup']), hused',
    hrank _ hok.used hfile hok.dir⟩

theorem UsedFile.exists_file (hprog : LocalProgram tree root script rank) {f : List String}
    (h : UsedFile tree root script f) : ∃ items, tree.file f = some items := by
  cases h with
  | @script path _ hp hf =>
    obtain ⟨g, hg, hfile⟩ := hprog.uses path hp
    rw [hf] at hg
    cases hg
    exact Option.isSome_iff_exists.mp hfile
  | @file e _ items path he hitems hp hf =>
    obtain ⟨g, hg, hfile, -⟩ := hprog.nested e items he hitems path hp
    rw [hf] at hg
    cases hg
    exact Option.isSome_iff_exists.mp hfile

theorem fileResolver_ranked (hprog : LocalProgram tree root script rank) :
    tree.fileResolver.Ranked rank (UsedFile tree root script) := by
  constructor
  intro f hused
  obtain ⟨items, hitems⟩ := hused.exists_file hprog
  refine ⟨f.dropLast, items, by simp only [FileTree.fileResolver, hitems], fun path hp => ?_⟩
  obtain ⟨g, hg, -, hrank⟩ := hprog.nested f items hused hitems path hp
  exact ⟨g, hg, .file hused hitems hp hg, hrank⟩

theorem embeddedResolver_renames (hprog : LocalProgram tree root script rank)
    (hrel : RelativeUses tree root script) (hone : OneKeyEach tree root script)
    (hfiles : Collected tree root script [] files) :
    Resolver.Renames (embeddedResolver files) tree.fileResolver (UsedKey tree root script)
      (lexicalNormalize root) := by
  constructor
  · exact hone
  · intro key hused
    obtain ⟨items, hlookup, hfile⟩ := hfiles.lookup hused
    have hsame := (SourceOk.file hused hfile).sameUses hprog hrel hfiles
    rw [← (hused.keyOk hprog hrel).dir] at hsame
    exact ⟨key.dropLast, (lexicalNormalize root key).dropLast, items,
      by simp only [embeddedResolver, hlookup], by simp only [FileTree.fileResolver, hfile], hsame⟩

/-- The files of a program are used by the sealed program too. -/
theorem UsedFile.exists_key (hprog : LocalProgram tree root script rank)
    (hfiles : Collected tree root script [] files) {f : List String}
    (h : UsedFile tree root script f) :
    ∃ key, UsedKey tree root script key ∧ lexicalNormalize root key = f := by
  induction h with
  | @script path f hp hf =>
    obtain ⟨key, hkey, -⟩ := (hfiles.closed [] script (.inl ⟨rfl, rfl⟩)).resolve_left (by simp)
      path hp
    obtain ⟨hrel, rfl⟩ := embeddedFilePath_ok hkey
    refine ⟨_, .script hp hkey, ?_⟩
    rw [lexicalNormalize_normalizeKey, List.nil_append,
      ← canonicalize_eq (fileResolver_key_of_relative hrel hf)]
  | @file f g items path _ hitems hp hg ih =>
    obtain ⟨key, hused, rfl⟩ := ih
    obtain ⟨items', hlookup, hfile⟩ := hfiles.lookup hused
    rw [hitems] at hfile
    cases hfile
    obtain ⟨key', hkey', -⟩ :=
      (hfiles.closed key.dropLast items (.inr ⟨key, hlookup, rfl⟩)).resolve_left (by simp) path hp
    obtain ⟨hrel, rfl⟩ := embeddedFilePath_ok hkey'
    refine ⟨_, .file hused hitems hp hkey', ?_⟩
    obtain ⟨-, hdir⟩ := keyShape_file hprog.dir (hfiles.content key items hlookup).1
      (by rw [hitems]; rfl)
    rw [lexicalNormalize_normalizeKey, lexicalNormalize_append, ← hdir,
      ← canonicalize_eq (fileResolver_key_of_relative hrel hg)]

/-- Files are collected for relative paths only. -/
theorem relativeUses_of_collected (hprog : LocalProgram tree root script rank)
    (hfiles : Collected tree root script [] files) : RelativeUses tree root script := by
  constructor
  · intro path hp
    obtain ⟨key, hkey, -⟩ := (hfiles.closed [] script (.inl ⟨rfl, rfl⟩)).resolve_left (by simp)
      path hp
    exact (embeddedFilePath_ok hkey).1
  · intro f items hused hitems path hp
    obtain ⟨key, hkey, rfl⟩ := hused.exists_key hprog hfiles
    obtain ⟨items', hlookup, hfile⟩ := hfiles.lookup hkey
    rw [hitems] at hfile
    cases hfile
    obtain ⟨key', hkey', -⟩ :=
      (hfiles.closed key.dropLast items (.inr ⟨key, hlookup, rfl⟩)).resolve_left (by simp) path hp
    exact (embeddedFilePath_ok hkey').1

/-- A bound on the ranks of what the script uses. -/
def scriptRank (tree : FileTree δ) (root : List String) (script : List (ModuleItem δ))
    (rank : List String → ℕ) : ℕ :=
  ((flatten script).map fun step =>
    match step with
    | .decl _ => 0
    | .use path =>
      match tree.fileResolver.key root path with
      | .error _ => 0
      | .ok f => rank f).sum + 1

theorem rank_lt_scriptRank {path : String} {f : List String} (hp : .use path ∈ flatten script)
    (hf : tree.fileResolver.key root path = .ok f) : rank f < scriptRank tree root script rank := by
  apply Nat.lt_succ_of_le
  apply List.le_sum_of_mem
  refine List.mem_map.mpr ⟨_, hp, ?_⟩
  simp only [hf]

theorem fileResolver_bodyOk (hprog : LocalProgram tree root script rank) {fuel : ℕ}
    (hfuel : scriptRank tree root script rank ≤ fuel) :
    tree.fileResolver.BodyOk rank (UsedFile tree root script) root (flatten script) fuel := by
  intro path hp
  obtain ⟨f, hf, -⟩ := hprog.uses path hp
  exact ⟨f, hf, .script hp hf, (rank_lt_scriptRank hp hf).trans_le hfuel⟩

theorem embeddedResolver_bodyOk (hprog : LocalProgram tree root script rank)
    (hrel : RelativeUses tree root script) (hfiles : Collected tree root script [] files) {fuel : ℕ}
    (hfuel : scriptRank tree root script rank ≤ fuel) :
    (embeddedResolver files).BodyOk (fun key => rank (lexicalNormalize root key))
      (UsedKey tree root script) [] (flatten script) fuel := by
  intro path hp
  obtain ⟨key, hused, hkey, hfile⟩ := SourceOk.script.sameUses hprog hrel hfiles path hp
  exact ⟨key, hkey, hused, (rank_lt_scriptRank hp hfile).trans_le hfuel⟩

/-- A sealed program is like the unsealed one: its files are collected, all that it uses is among
them, and the same modules are compiled in the same order. -/
def SealedAgrees (tree : FileTree δ) (root : List String) (script : List (ModuleItem δ)) : Prop :=
  ∃ files, (∃ fuel₀, ∀ fuel, fuel₀ ≤ fuel →
      tree.localUseFiles root fuel script = some (.ok files)) ∧
    (∀ f, UsedFile tree root script f →
      ∃ key, UsedKey tree root script key ∧ lexicalNormalize root key = f) ∧
    (∀ key, UsedKey tree root script key → ∃ items, files.lookup key = some items ∧
      tree.file (lexicalNormalize root key) = some items) ∧
    ∃ fuel₀ out, ∀ fuel, fuel₀ ≤ fuel →
      (embeddedResolver files).compileProgram fuel [] script = some (.ok out) ∧
      tree.fileResolver.compileProgram fuel root script = some (.ok out)

theorem sealedAgrees_of_oneKeyEach (hprog : LocalProgram tree root script rank)
    (hrel : RelativeUses tree root script) (hone : OneKeyEach tree root script) :
    SealedAgrees tree root script := by
  obtain ⟨fuel, files, hcollect⟩ := localUseFiles_ends hprog hrel
  have hfiles : Collected tree root script [] files := collectLoop_ok hcollect collected_script
  have hsealed := fun (n : ℕ) (hle : scriptRank tree root script rank ≤ n) =>
    Resolver.compileProgram_of_le (embeddedResolver_ranked hprog hrel hfiles)
      (embeddedResolver_bodyOk hprog hrel hfiles le_rfl) hle
  refine ⟨files, ⟨fuel, fun fuel' hle => collectLoop_mono hle hcollect⟩,
    fun f hf => hf.exists_key hprog hfiles, fun key hkey => hfiles.lookup hkey,
    scriptRank tree root script rank, _, fun fuel' hle => ⟨hsealed fuel' hle, ?_⟩⟩
  rw [Resolver.compileProgram_of_le (fileResolver_ranked hprog)
    (fileResolver_bodyOk hprog le_rfl) hle]
  -- the keys of the sealed program rename those of the unsealed one
  have hsame := (Resolver.visitSteps_renamed
    (Resolver.visitUse_renamed (embeddedResolver_renames hprog hrel hone hfiles)
      (scriptRank tree root script rank))
    (SourceOk.script.sameUses hprog hrel hfiles) (List.forall_mem_nil _)).1
  rw [List.map_nil] at hsame
  change tree.fileResolver.visitSteps _ root _ _ = _ at hsame
  rw [hsame]

/-- The modules that are seen when a program is compiled are those it uses, each once. -/
theorem visitSteps_seen {κ β : Type} [DecidableEq κ] {r : Resolver κ β δ} {rank : κ → ℕ}
    {P : κ → Prop} {base : β} {fuel : ℕ} (hr : r.Ranked rank P)
    (hbody : r.BodyOk rank P base (flatten script) fuel) :
    (∀ k ∈ (r.visitSteps (r.visitUse fuel) base (flatten script) []).2, P k) ∧
      (r.visitSteps (r.visitUse fuel) base (flatten script) []).2.Nodup ∧
      Resolver.enterCount (r.visitSteps (r.visitUse fuel) base (flatten script) []).1 =
        (r.visitSteps (r.visitUse fuel) base (flatten script) []).2.length := by
  obtain ⟨hsees, -⟩ := Resolver.visitSteps_sees (Resolver.visitUse_sees_lt hr fuel) hbody []
  refine ⟨fun k hk => ((hsees.only k hk).resolve_left (by simp)).1, hsees.nodup List.nodup_nil, ?_⟩
  simpa using Resolver.enterCount_visitSteps
    (fun k seen hk hlt => Resolver.enterCount_visitUse hr fuel k seen hk hlt) hbody []

/-- The sealed program sees all keys that it uses. -/
theorem mem_seen_of_usedKey (hprog : LocalProgram tree root script rank)
    (hrel : RelativeUses tree root script) (hfiles : Collected tree root script [] files) {fuel : ℕ}
    (hfuel : scriptRank tree root script rank ≤ fuel) {key : List PathComp}
    (hkey : UsedKey tree root script key) :
    key ∈ ((embeddedResolver files).visitSteps ((embeddedResolver files).visitUse fuel) []
      (flatten script) []).2 := by
  have hr := embeddedResolver_ranked hprog hrel hfiles
  obtain ⟨hsees, huses⟩ := Resolver.visitSteps_sees (Resolver.visitUse_sees_lt hr fuel)
    (embeddedResolver_bodyOk hprog hrel hfiles hfuel) []
  have hclosed := hsees.closed (by simp [Resolver.UsesClosed])
  induction hkey with
  | @script path key hp hkey =>
    obtain ⟨items, hlookup, -⟩ := hfiles.lookup (.script hp hkey)
    exact huses path hp key (embeddedResolver_key hkey (by simp [hlookup]))
  | @file key key' items path hused hitems hp hkey ih =>
    obtain ⟨items', hlookup, hfile⟩ := hfiles.lookup hused
    rw [hitems] at hfile
    cases hfile
    obtain ⟨items', hlookup', -⟩ := hfiles.lookup (.file hused hitems hp hkey)
    exact hclosed key ih key.dropLast items (by simp only [embeddedResolver, hlookup]) path hp key'
      (embeddedResolver_key hkey (by simp [hlookup']))

/-- As many modules under keys as under real paths: no file has two keys. -/
theorem SealedAgrees.conditions (hprog : LocalProgram tree root script rank)
    (h : SealedAgrees tree root script) :
    RelativeUses tree root script ∧ OneKeyEach tree root script := by
  obtain ⟨files, ⟨fuel₀, hcollect⟩, -, -, fuel₁, out, hcompile⟩ := h
  have hfiles : Collected tree root script [] files :=
    collectLoop_ok (hcollect fuel₀ le_rfl) collected_script
  have hrel := relativeUses_of_collected hprog hfiles
  refine ⟨hrel, ?_⟩
  -- enough for both programs
  generalize hn : max fuel₁ (scriptRank tree root script rank) = n
  have hle : scriptRank tree root script rank ≤ n := by omega
  obtain ⟨hsealed, hfile⟩ := hcompile n (by omega)
  have hrE := embeddedResolver_ranked hprog hrel hfiles
  have hbE := embeddedResolver_bodyOk hprog hrel hfiles hle
  have hrF := fileResolver_ranked hprog
  have hbF := fileResolver_bodyOk hprog hle
  obtain ⟨-, hnodupE, hcountE⟩ := visitSteps_seen hrE hbE
  obtain ⟨honlyF, hnodupF, hcountF⟩ := visitSteps_seen hrF hbF
  rw [Resolver.compileProgram_eq hrE hbE] at hsealed
  rw [Resolver.compileProgram_eq hrF hbF] at hfile
  rw [Except.ok.inj (Option.some.inj hsealed)] at hcountE
  rw [Except.ok.inj (Option.some.inj hfile)] at hcountF
  have hmem := fun {key} (hk : UsedKey tree root script key) =>
    mem_seen_of_usedKey hprog hrel hfiles hle hk
  generalize ((embeddedResolver files).visitSteps ((embeddedResolver files).visitUse n) []
    (flatten script) []).2 = seenE at *
  generalize (tree.fileResolver.visitSteps (tree.fileResolver.visitUse n) root
    (flatten script) []).2 = seenF at *
  have hsubset : seenF.toFinset ⊆ seenE.toFinset.image (lexicalNormalize root) := by
    intro f hf
    obtain ⟨key, hkey, rfl⟩ := (honlyF f (List.mem_toFinset.mp hf)).exists_key hprog hfiles
    exact Finset.mem_image_of_mem _ (List.mem_toFinset.mpr (hmem hkey))
  have hcard : (seenE.toFinset.image (lexicalNormalize root)).card = seenE.toFinset.card := by
    apply Nat.le_antisymm Finset.card_image_le
    calc seenE.toFinset.card = seenF.toFinset.card := by
          rw [List.toFinset_card_of_nodup hnodupE, List.toFinset_card_of_nodup hnodupF, ← hcountE,
            ← hcountF]
      _ ≤ _ := Finset.card_le_card hsubset
  intro key key' hkey hkey' heq
  exact Finset.card_image_iff.mp hcard (by simpa using hmem hkey) (by simpa using hmem hkey') heq

end Agreement

/-- One file in the directory of the script. -/
def oneFileTree : FileTree ℕ where
  isDir p := p ∈ [[], ["p"], ["p", "x"]]
  file p := if p = ["p", "x", "a.hml"] then some [.decl 1] else none
  root := rfl
  parentDir p hp := by
    simp only [List.mem_cons, List.not_mem_nil, or_false, decide_eq_true_eq] at hp
    rcases hp with rfl | rfl | rfl <;> rfl
  fileDir p hp := by
    split at hp
    · next heq =>
      subst heq
      exact ⟨rfl, rfl⟩
    · cases hp

/-- The file is used under two paths, one of which leaves the directory and enters it again. -/
def twoSpellings : List (ModuleItem ℕ) := [.use "./a.hml", .use "../x/a.hml"]

theorem localProgram_twoSpellings :
    LocalProgram oneFileTree ["p", "x"] twoSpellings (fun _ => 0) where
  dir := rfl
  uses path hp := by
    refine ⟨["p", "x", "a.hml"], ?_, rfl⟩
    have hpath : path = "./a.hml" ∨ path = "../x/a.hml" := by
      simpa [twoSpellings, flatten, ModuleItem.steps] using hp
    rcases hpath with rfl | rfl <;> rfl
  nested f items _ hitems path hp := by
    simp only [oneFileTree] at hitems
    split at hitems
    · cases hitems
      simp [flatten, ModuleItem.steps] at hp
    · cases hitems

/-- A script whose file uses another one through its parent directory. -/
def nestedTree : FileTree ℕ where
  isDir p := p ∈ [[], ["p"], ["p", "lib"]]
  file p :=
    if p = ["p", "lib", "a.hml"] then some [.use "../b.hml", .decl 1]
    else if p = ["p", "b.hml"] then some [.decl 2]
    else none
  root := rfl
  parentDir p hp := by
    simp only [List.mem_cons, List.not_mem_nil, or_false, decide_eq_true_eq] at hp
    rcases hp with rfl | rfl | rfl <;> rfl
  fileDir p hp := by
    split at hp
    · next heq =>
      subst heq
      exact ⟨rfl, rfl⟩
    · split at hp
      · next heq =>
        subst heq
        exact ⟨rfl, rfl⟩
      · cases hp

/-- The files of the tree, and what they use. -/
theorem nestedTree_uses {f : List String} {items : List (ModuleItem ℕ)} {path : String}
    (hitems : nestedTree.file f = some items) (hp : .use path ∈ flatten items) :
    f = ["p", "lib", "a.hml"] ∧ path = "../b.hml" := by
  simp only [nestedTree] at hitems
  split at hitems
  · next heq =>
    cases hitems
    exact ⟨heq, by simpa [flatten, ModuleItem.steps] using hp⟩
  · split at hitems
    · cases hitems
      simp [flatten, ModuleItem.steps] at hp
    · cases hitems

theorem localProgram_nested :
    LocalProgram nestedTree ["p"] [.use "./lib/a.hml", .decl 3] List.length where
  dir := rfl
  uses path hp := by
    have hpath : path = "./lib/a.hml" := by simpa [flatten, ModuleItem.steps] using hp
    subst hpath
    exact ⟨["p", "lib", "a.hml"], rfl, rfl⟩
  nested f items _ hitems path hp := by
    obtain ⟨rfl, rfl⟩ := nestedTree_uses hitems hp
    exact ⟨["p", "b.hml"], rfl, rfl, by decide⟩

theorem usedKey_nested {key : List PathComp}
    (h : UsedKey nestedTree ["p"] [.use "./lib/a.hml", .decl 3] key) :
    key = [.name "lib", .name "a.hml"] ∨ key = [.name "b.hml"] := by
  induction h with
  | @script path _ hp hkey =>
    have hpath : path = "./lib/a.hml" := by simpa [flatten, ModuleItem.steps] using hp
    subst hpath
    exact .inl (Except.ok.inj hkey).symm
  | @file key _ items path hused hitems hp hkey ih =>
    obtain ⟨hfile, rfl⟩ := nestedTree_uses hitems hp
    rcases ih with rfl | rfl
    · exact .inr (Except.ok.inj hkey).symm
    · exact absurd hfile (by decide)

end Hiko
