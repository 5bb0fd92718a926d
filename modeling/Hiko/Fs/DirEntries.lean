import Hiko.Fs.DirWalk

/-!
# The entries of a directory

What `walk_dir` and `glob` do with the entries of a directory that they visit, and where the paths
that they visit and list lead.

## Main definitions

* `ReachedFile`, `BadLink`: what can be reached from a directory in the tree
* `DirForm`: the paths of the directories that are visited
* `Listed`: a path of names that leads into the folder

## Main results

* `resolve_text`: the text of a path of names names the same
* `capEntry_plain`, `capEntry_symlink`: the events of an entry
* `DirForm.visit`, `capEvents_emit`, `capEvents_complete`: the events of a directory
-/

namespace Hiko

open Lib Lib.FileTree

/-! ## Texts -/

/-- An absolute path of names. -/
def Path.Names (p : Path) : Prop :=
  p.absolute = true ∧ ∃ names : List OsName, p.parts = names.map .name

section Texts

variable {fs : FiniteFileSystem} {p : Path} {loc : List OsName}

theorem segmentOf_bytes (n : OsName) : segmentOf n.bytes = .name n := by
  rw [segmentOf, dif_pos n.valid]

theorem bytes_names (names : List OsName) : (⟨true, names.map .name⟩ : Path).bytes =
    47 :: [47].intercalate (names.map (·.bytes)) := by
  rw [Path.bytes, if_pos rfl, List.map_map]
  rfl

/-- A path of names is read back from its bytes, with a slash of its own if it has no names. -/
theorem ofBytes_names (names : List OsName) :
    Path.ofBytes (47 :: [47].intercalate (names.map (·.bytes))) =
      ⟨true, if names = [] then [.here] else names.map .name⟩ := by
  have hcons : (47 :: [47].intercalate (names.map (·.bytes)) : List UInt8) ≠ [] :=
    List.cons_ne_nil _ _
  rw [Path.ofBytes, if_neg hcons, if_pos List.head?_cons, List.tail_cons]
  split
  · next hnil =>
    subst hnil
    decide
  · next hne =>
    have hslash : ∀ bytes ∈ names.map (·.bytes), (47 : UInt8) ∉ bytes := by
      intro bytes hbytes
      obtain ⟨n, -, rfl⟩ := List.mem_map.mp hbytes
      exact n.valid.2.2.2
    rw [List.splitOn_intercalate 47 hslash (by simpa using hne), List.map_map]
    congr 1
    exact List.map_congr_left fun n _ => segmentOf_bytes n

theorem utf8_intercalate {names : List OsName}
    (h : ∀ n ∈ names, n.bytes.toByteArray.IsValidUTF8) :
    ([47].intercalate (names.map (·.bytes)) : List UInt8).toByteArray.IsValidUTF8 := by
  have hslash : ([47] : List UInt8).toByteArray.IsValidUTF8 := by decide
  induction names with
  | nil => exact ByteArray.isValidUTF8_empty
  | cons n names ih =>
    obtain ⟨hn, hnames⟩ := List.forall_mem_cons.mp h
    cases names with
    | nil => simpa using hn
    | cons m names =>
      rw [List.map_cons, List.map_cons, List.intercalate_cons_cons, List.toByteArray_append,
        List.toByteArray_append]
      exact (hn.append hslash).append (ih hnames)

/-- The names of a path that exists have an entry. -/
theorem name_of_walk {links : ℕ} {loc' : List OsName} {segs : List (Segment OsName)} {n : OsName}
    {tree : Lib.FileTree OsName} (h : tree.walk links loc segs = some (loc', []))
    (hn : .name n ∈ segs) : ∃ dir, tree.node (n :: dir) ≠ none := by
  obtain ⟨first, rest, rfl⟩ := List.append_of_mem hn
  obtain ⟨mid, hmid⟩ := walk_split h
  have hname := walk_append hmid h
  refine ⟨mid, fun hnone => ?_⟩
  -- the walk would stop there
  rw [walk_eq] at hname
  by_cases hdir : tree.isDir mid
  · rw [scan_missing hdir hnone] at hname
    cases hname
  · rw [scan_stop hdir] at hname
    cases hname

/-- **The text of a path of names names the same.** -/
theorem resolve_text (replace : List UInt8 → String) (hp : p.Names)
    (h : fs.resolve p = some loc) : fs.resolve (.new (p.toStringLossy replace)) = some loc := by
  obtain ⟨absolute, parts⟩ := p
  obtain ⟨rfl, names, rfl⟩ : absolute = true ∧ ∃ names : List OsName, parts = names.map .name := hp
  have hwalk := (resolve_absolute rfl).mp h
  -- the names stand in the tree, where all names are texts
  have hutf8 : (⟨true, names.map .name⟩ : Path).bytes.toByteArray.IsValidUTF8 := by
    rw [bytes_names, ← List.singleton_append, List.toByteArray_append]
    refine ByteArray.IsValidUTF8.append (by decide) (utf8_intercalate fun n hn => ?_)
    obtain ⟨dir, hdir⟩ := name_of_walk hwalk (List.mem_map_of_mem hn)
    exact fs.utf8 n dir hdir
  have hnew : Path.new ((⟨true, names.map .name⟩ : Path).toStringLossy replace) =
      ⟨true, if names = [] then [.here] else names.map .name⟩ := by
    rw [Path.toStringLossy, String.fromUTF8?, dif_pos hutf8, Option.getD_some, Path.new,
      ← ofBytes_names, ← bytes_names]
    exact congrArg Path.ofBytes List.toList_data_toByteArray
  rw [hnew]
  split
  · next hnil =>
    -- the root
    subst hnil
    have hdir : fs.tree.isDir [] := by rw [Lib.FileTree.isDir, fs.tree.root]
    rw [resolve_absolute rfl] at h ⊢
    rw [walk_eq] at h ⊢
    exact (scan_here hdir).trans h
  · exact h

end Texts

/-! ## What can be reached -/

/-- The link `n` in a directory leads to a location. -/
def LinkLeads (tree : Lib.FileTree OsName) (loc : List OsName) (n : OsName) (loc' : List OsName) :
    Prop :=
  (∃ fromRoot target, tree.node (n :: loc) = some (.link fromRoot target)) ∧
    ∃ links, tree.walk links loc [.name n] = some (loc', [])

/-- A directory is reached from another through directories and links. -/
inductive ReachedDir (tree : Lib.FileTree OsName) (start : List OsName) : List OsName → Prop
  | start : ReachedDir tree start start
  | child {loc : List OsName} {n : OsName} : ReachedDir tree start loc →
      tree.node (n :: loc) = some .dir → ReachedDir tree start (n :: loc)
  | link {loc loc' : List OsName} {n : OsName} : ReachedDir tree start loc →
      LinkLeads tree loc n loc' → tree.isDir loc' → ReachedDir tree start loc'

/-- A file is reached: it is in a directory that is reached, or a link there leads to it. -/
def ReachedFile (tree : Lib.FileTree OsName) (start file : List OsName) : Prop :=
  tree.node file = some .file ∧ ∃ loc n, ReachedDir tree start loc ∧
    (file = n :: loc ∨ LinkLeads tree loc n file)

/-- A link is reached that dangles or leaves the folder. -/
def BadLink (tree : Lib.FileTree OsName) (root start : List OsName) : Prop :=
  ∃ loc n fromRoot target, ReachedDir tree start loc ∧
    tree.node (n :: loc) = some (.link fromRoot target) ∧
      ∀ loc', LinkLeads tree loc n loc' → ¬ root <:+ loc'

section Steps

variable {fs : FiniteFileSystem} {cap : CapDirs fs.toFileSystem} {root loc loc' : List OsName}
  {n : OsName} {dir child : Path}

theorem walk_le {tree : Lib.FileTree OsName} {links links' : ℕ} {segs : List (Segment OsName)}
    {res : List OsName × List (Segment OsName)} (hle : links ≤ links')
    (h : tree.walk links loc segs = some res) : tree.walk links' loc segs = some res := by
  induction hle with
  | refl => exact h
  | step _ ih => exact walk_mono ih

/-- A link leads to one location. -/
theorem LinkLeads.unique {tree : Lib.FileTree OsName} {loc'' : List OsName}
    (h : LinkLeads tree loc n loc') (h' : LinkLeads tree loc n loc'') : loc' = loc'' := by
  obtain ⟨-, links, hwalk⟩ := h
  obtain ⟨-, links', hwalk'⟩ := h'
  -- both walks end with enough links for either
  have hsame := (walk_le (le_max_left links links') hwalk).symm.trans
    (walk_le (le_max_right links links') hwalk')
  exact (Prod.mk.inj (Option.some.inj hsame)).1

theorem suffix_real {tree : Lib.FileTree OsName} (h : tree.Real loc) (hsuffix : root <:+ loc) :
    tree.Real root := by
  induction loc with
  | nil => rwa [List.suffix_nil.mp hsuffix]
  | cons n loc ih =>
    obtain rfl | hsuffix := List.suffix_cons_iff.mp hsuffix
    · exact h
    · exact ih h.1 hsuffix

/-- A location with a path without links has an entry. -/
theorem real_node {tree : Lib.FileTree OsName} (h : tree.Real loc) : tree.node loc ≠ none := by
  cases loc with
  | nil =>
    rw [tree.root]
    exact Option.some_ne_none _
  | cons n loc =>
    obtain ⟨-, -, hnode | hnode⟩ := h <;>
    · rw [hnode]
      exact Option.some_ne_none _

theorem resolve_ofLocation (h : fs.tree.Real loc) : fs.resolve (.ofLocation loc) = some loc := by
  have hroute : fs.tree.walk fs.maxLinks [] (route loc ++ []) = fs.tree.walk fs.maxLinks loc [] :=
    walk_route h
  rw [List.append_nil] at hroute
  rw [resolve_absolute rfl, Path.ofLocation, hroute, walk_eq]
  rfl

/-- A path below a folder, given by pieces. -/
def below (root : List OsName) (parts : List (Segment OsName)) : Path := ⟨true, route root ++ parts⟩

theorem join_below (parts : List (Segment OsName)) :
    (Path.ofLocation root).join ⟨false, parts⟩ = below root parts := rfl

/-- **A name in a directory**, by the path of the directory. -/
theorem resolve_child {parts : List (Segment OsName)}
    (h : fs.resolve (below root parts) = some loc) :
    (∀ loc', fs.resolve (below root (parts ++ [.name n])) = some loc' →
      fs.tree.walk fs.maxLinks loc [.name n] = some (loc', [])) ∧
    (fs.tree.isDir loc →
      fs.tree.node (n :: loc) = some .dir ∨ fs.tree.node (n :: loc) = some .file →
      fs.resolve (below root (parts ++ [.name n])) = some (n :: loc)) := by
  have hwalk := (resolve_absolute rfl).mp h
  obtain ⟨links', hle, hrest⟩ := create_prefix hwalk
  have happend : (below root (parts ++ [.name n])).parts = (below root parts).parts ++ [.name n] :=
    (List.append_assoc ..).symm
  refine ⟨fun loc' hloc' => ?_, fun hdir hnode => ?_⟩
  · rw [resolve_absolute rfl, happend] at hloc'
    exact walk_append hwalk hloc'
  · rw [resolve_absolute rfl, happend, (hrest _).1, walk_eq, scan_name hdir hnode]
    rfl

/-- A dot after the folder may be left out. -/
theorem resolve_here {parts : List (Segment OsName)} (hreal : fs.tree.Real root)
    (h : fs.resolve (below root (.here :: parts)) = some loc) :
    fs.resolve (below root parts) = some loc := by
  rw [resolve_absolute rfl, below, walk_route hreal, walk_eq] at h ⊢
  by_cases hdir : fs.tree.isDir root
  · rwa [scan_here hdir] at h
  · rw [scan_stop hdir] at h
    cases h

/-- A path that starts with that of a folder is a path of names below it. -/
theorem stripPrefix_ofLocation {relative : Path}
    (h : (Path.ofLocation loc).stripPrefix (.ofLocation root) = some relative) :
    ∃ names : List OsName, relative = ⟨false, names.map .name⟩ ∧ loc = names.reverse ++ root := by
  unfold Path.stripPrefix at h
  split at h
  · next hprefix =>
    obtain ⟨names, hnames⟩ := startsWith_ofLocation.mp hprefix
    refine ⟨names.reverse, ?_, by rw [List.reverse_reverse, hnames]⟩
    -- the path of a location is a path of names, so the rest is one as well
    have hcomponents : (Path.ofLocation loc).components =
        (Path.ofLocation root).components ++ names.reverse.map .normal := by
      rw [← hnames, Path.components_ofLocation, Path.components_ofLocation, List.reverse_append,
        List.map_append]
      rfl
    rw [hcomponents, List.drop_left, ofComponents_names] at h
    exact (Option.some.inj h).symm
  · cases h

theorem mem_entryNames : n ∈ fs.entryNames loc ↔ fs.tree.node (n :: loc) ≠ none := by
  rw [FiniteFileSystem.entryNames, List.mem_insertionSort, List.mem_dedup, List.mem_filterMap]
  constructor
  · rintro ⟨location, hmem, hname⟩
    have hsome := (List.mem_filter.mp hmem).2
    cases location with
    | nil => cases hname
    | cons m parent =>
      rw [nameIn] at hname
      split at hname
      · next hparent =>
        obtain rfl := Option.some.inj hname
        rw [← hparent]
        exact Option.isSome_iff_ne_none.mp hsome
      · cases hname
  · intro hnode
    refine ⟨n :: loc, List.mem_filter.mpr ⟨fs.mem_locations _ hnode, ?_⟩, if_pos rfl⟩
    exact Option.isSome_iff_ne_none.mpr hnode

/-- **The entries of a directory** that a handle opens. -/
theorem readDir_ok {entries : List (OsName × FileType)}
    (h : readDir fs cap (.ofLocation root) dir = .ok entries) :
    ∃ loc, root <:+ loc ∧ fs.resolve ((Path.ofLocation root).join dir) = some loc ∧
      fs.tree.isDir loc ∧ ∀ n fileType, (n, fileType) ∈ entries ↔
        ∃ nd, fs.tree.node (n :: loc) = some nd ∧ fileType = fileTypeOf nd := by
  unfold readDir at h
  split at h
  · cases h
  · next loc hopen =>
    obtain ⟨hsuffix, hresolve⟩ := cap.confined root dir loc hopen
    split at h
    · next hdir =>
      obtain rfl := Except.ok.inj h
      refine ⟨loc, hsuffix, hresolve, hdir, fun n fileType => ?_⟩
      rw [List.mem_filterMap]
      constructor
      · rintro ⟨m, -, hm⟩
        obtain ⟨nd, hnd, heq⟩ := Option.map_eq_some_iff.mp hm
        obtain ⟨rfl, rfl⟩ := Prod.mk.inj heq
        exact ⟨nd, hnd, rfl⟩
      · rintro ⟨nd, hnd, rfl⟩
        refine ⟨n, mem_entryNames.mpr ?_, by rw [hnd]; rfl⟩
        rw [hnd]
        exact Option.some_ne_none _
    · cases h

end Steps

/-! ## Paths of directories -/

/-- A relative path of names, that may start with a dot. -/
def dirPath (dotted : Bool) (names : List OsName) : Path :=
  ⟨false, (if dotted then [.here] else []) ++ names.map .name⟩

section DirPath

variable {fs : FiniteFileSystem} {root loc : List OsName} {names : List OsName} {n : OsName}
  {dotted : Bool}

theorem dirPath_push : (dirPath dotted names).push n = dirPath dotted (names ++ [n]) := by
  rw [dirPath, dirPath, Path.push, List.map_append, ← List.append_assoc]
  rfl

theorem dirPath_components : (dirPath dotted names).components =
    (if dotted then [.curDir] else []) ++ names.map .normal := by
  have hnames : (dirPath dotted names).parts.filterMap Path.component? = names.map .normal := by
    cases dotted <;> exact Path.filterMap_names names
  rw [Path.components, hnames]
  cases dotted with
  | true => rfl
  | false => cases names <;> rfl

theorem dirPath_inj {dotted' : Bool} {names' : List OsName}
    (h : (dirPath dotted names).components = (dirPath dotted' names').components) :
    dirPath dotted names = dirPath dotted' names' := by
  have hinj : Function.Injective PathComponent.normal := fun _ _ h => PathComponent.normal.inj h
  rw [dirPath_components, dirPath_components] at h
  -- a dot is no name, so both paths have one or neither has
  cases dotted <;> cases dotted'
  · obtain rfl := hinj.list_map h
    rfl
  · cases names with
    | nil => cases h
    | cons n names => cases h
  · cases names' with
    | nil => cases h
    | cons n names' => cases h
  · obtain rfl := hinj.list_map (List.cons.inj h).2
    rfl

/-- The path that is listed for a name has no dot. -/
theorem displayChild_dirPath :
    (((dirPath dotted names).push n).stripPrefix (.new ".")).getD ((dirPath dotted names).push n) =
      ⟨false, (names ++ [n]).map .name⟩ := by
  have hdot : (Path.new ".").components = [.curDir] := by decide
  rw [dirPath_push, Path.stripPrefix, hdot, dirPath_components]
  cases dotted with
  | true =>
    rw [if_pos rfl, if_pos (List.prefix_append _ _), List.drop_left, ofComponents_names]
    rfl
  | false =>
    rw [if_neg Bool.false_ne_true, if_neg]
    · rfl
    · -- a path of names does not start with a dot
      intro hdotted
      rw [List.nil_append] at hdotted
      have hmem := List.IsPrefix.subset hdotted (List.mem_singleton_self _)
      obtain ⟨n', -, hn'⟩ := List.mem_map.mp hmem
      cases hn'

/-- The directory leads to the same place without the dot. -/
theorem resolve_dirPath (hreal : fs.tree.Real root)
    (h : fs.resolve ((Path.ofLocation root).join (dirPath dotted names)) = some loc) :
    fs.resolve (below root (names.map .name)) = some loc := by
  cases dotted with
  | true => exact resolve_here hreal h
  | false => exact h

/-- The path that is visited for the target of a link. -/
def targetPath (names : List OsName) : Path :=
  if (⟨false, names.map .name⟩ : Path).isEmpty then .new "." else ⟨false, names.map .name⟩

theorem targetPath_eq (names : List OsName) : targetPath names = dirPath names.isEmpty names := by
  cases names with
  | nil => decide
  | cons n names => rfl

/-- The target is visited where it is. -/
theorem resolve_targetPath (hreal : fs.tree.Real (names.reverse ++ root))
    (hdir : fs.tree.isDir (names.reverse ++ root)) :
    fs.resolve ((Path.ofLocation root).join (targetPath names)) = some (names.reverse ++ root) := by
  cases names with
  | nil =>
    -- the folder itself is visited as a dot
    rw [List.reverse_nil, List.nil_append] at hreal hdir ⊢
    rw [targetPath_eq, List.isEmpty_nil, dirPath, join_below, resolve_absolute rfl, below,
      walk_route hreal, walk_eq]
    exact scan_here hdir
  | cons n names =>
    have hlocation : below root ((n :: names).map .name) =
        .ofLocation ((n :: names).reverse ++ root) := by
      rw [below, Path.ofLocation, route, route, List.reverse_append, List.reverse_reverse,
        List.map_append]
    rw [targetPath_eq, List.isEmpty_cons]
    exact (congrArg fs.resolve hlocation).trans (resolve_ofLocation hreal)

end DirPath

/-! ## Entries -/

section Entries

variable {α : Type} {fs : FiniteFileSystem} {cap : CapDirs fs.toFileSystem} {text : Path → α}
  {fn : String} {all dotted : Bool} {root loc names : List OsName} {n : OsName}

/-- The events of a directory or a file. -/
theorem capEntry_plain {fileType : FileType} (h : fileType ≠ .symlink) :
    capEntry fs text fn all (.ofLocation root) (dirPath dotted names) (n, fileType) =
      (if all || fileType = .file then [.emit (text (below root ((names ++ [n]).map .name)))]
        else []) ++
      if fileType = .dir then [.visit (dirPath dotted (names ++ [n]))] else [] := by
  cases fileType with
  | symlink => exact absurd rfl h
  | dir | file =>
    simp only [capEntry]
    rw [displayChild_dirPath, dirPath_push]
    rfl

/-- **The events of a link**: an error, or those of its target. -/
theorem capEntry_symlink {fromRoot : Bool} {target : List (Segment OsName)}
    (hloc : fs.resolve ((Path.ofLocation root).join (dirPath dotted names)) = some loc)
    (hnode : fs.tree.node (n :: loc) = some (.link fromRoot target)) :
    (∃ e, capEntry fs text fn all (.ofLocation root) (dirPath dotted names) (n, .symlink) =
        [.fail e]) ∨
      ∃ tail, fs.tree.Real (tail.reverse ++ root) ∧
        LinkLeads fs.tree loc n (tail.reverse ++ root) ∧
        capEntry fs text fn all (.ofLocation root) (dirPath dotted names) (n, .symlink) =
          (if all then [.emit (text (.ofLocation (tail.reverse ++ root)))] else []) ++
          if fs.tree.isDir (tail.reverse ++ root) then [.visit (targetPath tail)]
          else if !all && fs.tree.node (tail.reverse ++ root) = some .file then
            [.emit (text (.ofLocation (tail.reverse ++ root)))]
          else [] := by
  simp only [capEntry]
  split
  · exact .inl ⟨_, rfl⟩
  · next canonical hcanonical =>
    obtain ⟨t, ht, hreal, rfl⟩ := FileSystem.canonicalize_ok hcanonical
    have hleads : LinkLeads fs.tree loc n t := by
      refine ⟨⟨fromRoot, target, hnode⟩, fs.maxLinks, (resolve_child hloc).1 t ?_⟩
      rwa [dirPath_push, dirPath, List.map_append, ← List.append_assoc] at ht
    split
    · exact .inl ⟨_, rfl⟩
    · next relative hstrip =>
      obtain ⟨tail, rfl, rfl⟩ := stripPrefix_ofLocation hstrip
      refine .inr ⟨tail, hreal, hleads, ?_⟩
      have hresolve := resolve_ofLocation hreal
      simp only [FileSystem.isDir, FileSystem.isFile, hresolve, targetPath]

end Entries

/-! ## The directories that are visited -/

/-- A directory that is visited: some of the names of its path are those below the start, the others
lead down in the tree. -/
def DirForm (fs : FiniteFileSystem) (root names₀ : List OsName) (dir : Path) : Prop :=
  ∃ dotted base ext loc₀, (base = names₀ ∨ base = []) ∧ dir = dirPath dotted (base ++ ext) ∧
    ext.reverse ++ loc₀ ∈ fs.locations ∧
    ∀ loc, fs.resolve ((Path.ofLocation root).join dir) = some loc → loc = ext.reverse ++ loc₀

section Visited

variable {α : Type} {fs : FiniteFileSystem} {cap : CapDirs fs.toFileSystem} {text : Path → α}
  {fn : String} {all dotted : Bool} {root loc names₀ : List OsName} {n : OsName} {dir m : Path}

theorem DirForm.start (dotted : Bool) : DirForm fs root names₀ (dirPath dotted names₀) := by
  cases h : fs.resolve ((Path.ofLocation root).join (dirPath dotted names₀)) with
  | none =>
    -- a path that leads nowhere is of the form with any location
    refine ⟨dotted, names₀, [], [], .inl rfl, by rw [List.append_nil], ?_, fun loc hloc => ?_⟩
    · refine fs.mem_locations _ ?_
      rw [List.reverse_nil, List.nil_append, fs.tree.root]
      exact Option.some_ne_none _
    · rw [h] at hloc
      cases hloc
  | some loc =>
    refine ⟨dotted, names₀, [], loc, .inl rfl, by rw [List.append_nil], ?_, fun loc' hloc' => ?_⟩
    · exact fs.mem_locations _ (real_node (FileSystem.resolve_real h))
    · exact (Option.some.inj (h.symm.trans hloc')).symm

theorem DirForm.child (h : DirForm fs root names₀ dir)
    (hloc : fs.resolve ((Path.ofLocation root).join dir) = some loc) (hdir : fs.tree.isDir loc)
    (hnode : fs.tree.node (n :: loc) = some .dir) : DirForm fs root names₀ (dir.push n) := by
  obtain ⟨dotted, base, ext, loc₀, hbase, rfl, hmem, hsame⟩ := h
  obtain rfl := hsame loc hloc
  have hpush : fs.resolve ((Path.ofLocation root).join ((dirPath dotted (base ++ ext)).push n)) =
      some (n :: (ext.reverse ++ loc₀)) := (resolve_child hloc).2 hdir (.inl hnode)
  refine ⟨dotted, base, ext ++ [n], loc₀, hbase, ?_, ?_, fun loc' hloc' => ?_⟩
  · rw [dirPath_push, List.append_assoc]
  · rw [List.reverse_append, List.reverse_singleton]
    refine fs.mem_locations _ ?_
    rw [List.singleton_append, List.cons_append, hnode]
    exact Option.some_ne_none _
  · rw [List.reverse_append, List.reverse_singleton]
    exact (Option.some.inj (hpush.symm.trans hloc')).symm

theorem DirForm.target {tail : List OsName} (hreal : fs.tree.Real (tail.reverse ++ root))
    (hdir : fs.tree.isDir (tail.reverse ++ root)) : DirForm fs root names₀ (targetPath tail) := by
  refine ⟨tail.isEmpty, [], tail, root, .inr rfl, targetPath_eq tail, ?_, fun loc hloc => ?_⟩
  · exact fs.mem_locations _ (real_node hreal)
  · exact (Option.some.inj ((resolve_targetPath hreal hdir).symm.trans hloc)).symm

/-- **The events of a directory**: an error, or those of its entries. -/
theorem mem_capEvents {ev : Event Path α String} (hform : DirForm fs root names₀ dir)
    (h : ev ∈ capEvents fs cap text fn all (.ofLocation root) dir) :
    (∃ e, ev = .fail e) ∨ ∃ loc, root <:+ loc ∧
      fs.resolve ((Path.ofLocation root).join dir) = some loc ∧ fs.tree.isDir loc ∧
      ∃ dotted names n nd, dir = dirPath dotted names ∧ fs.tree.node (n :: loc) = some nd ∧
        ev ∈ capEntry fs text fn all (.ofLocation root) dir (n, fileTypeOf nd) := by
  unfold capEvents at h
  split at h
  · exact .inl ⟨_, List.mem_singleton.mp h⟩
  · next entries hentries =>
    obtain ⟨loc, hsuffix, hloc, hdir, hmem⟩ := readDir_ok hentries
    obtain ⟨⟨n, fileType⟩, hentry, hev⟩ := List.mem_flatMap.mp h
    obtain ⟨nd, hnd, rfl⟩ := (hmem n fileType).mp hentry
    obtain ⟨dotted, base, ext, -, -, hpath, -⟩ := hform
    exact .inr ⟨loc, hsuffix, hloc, hdir, dotted, base ++ ext, n, nd, hpath, hnd, hev⟩

/-- A directory that is visited next is of the same form. -/
theorem DirForm.visit (hform : DirForm fs root names₀ dir)
    (h : .visit m ∈ capEvents fs cap text fn all (.ofLocation root) dir) :
    DirForm fs root names₀ m := by
  obtain ⟨e, he⟩ | ⟨loc, -, hloc, hdir, dotted, names, n, nd, rfl, hnd, hev⟩ :=
    mem_capEvents hform h
  · cases he
  · cases nd with
    | dir =>
      rw [fileTypeOf, capEntry_plain (by decide), if_pos rfl] at hev
      obtain hmem | hmem := List.mem_append.mp hev
      · split at hmem
        · cases List.mem_singleton.mp hmem
        · cases hmem
      · -- a directory is visited by one more name
        obtain rfl := Event.visit.inj (List.mem_singleton.mp hmem)
        rw [← dirPath_push]
        exact hform.child hloc hdir hnd
    | file =>
      rw [fileTypeOf, capEntry_plain (by decide)] at hev
      simp at hev
    | link fromRoot target =>
      obtain ⟨e, he⟩ | ⟨tail, hreal, -, heq⟩ := capEntry_symlink hloc hnd
      · rw [fileTypeOf, he] at hev
        cases List.mem_singleton.mp hev
      · rw [fileTypeOf, heq] at hev
        obtain hmem | hmem := List.mem_append.mp hev
        · split at hmem
          · cases List.mem_singleton.mp hmem
          · cases hmem
        · split at hmem
          · next htarget =>
            -- the target of a link is visited by its own path in the folder
            obtain rfl := Event.visit.inj (List.mem_singleton.mp hmem)
            exact .target hreal htarget
          · split at hmem
            · cases List.mem_singleton.mp hmem
            · cases hmem

/-- A path that is listed consists of names and leads to a place in the folder. -/
def Listed (fs : FileSystem) (root : List OsName) (p : Path) : Prop :=
  p.Names ∧ ∃ loc, fs.resolve p = some loc ∧ root <:+ loc

theorem listed_ofLocation (hreal : fs.tree.Real loc) (hsuffix : root <:+ loc) :
    Listed fs.toFileSystem root (.ofLocation loc) :=
  ⟨⟨rfl, loc.reverse, rfl⟩, loc, resolve_ofLocation hreal, hsuffix⟩

/-- **What is listed for an entry** leads to it. -/
theorem resolve_entry {names : List OsName} (hsuffix : root <:+ loc)
    (hloc : fs.resolve ((Path.ofLocation root).join (dirPath dotted names)) = some loc)
    (hdir : fs.tree.isDir loc)
    (hnode : fs.tree.node (n :: loc) = some .dir ∨ fs.tree.node (n :: loc) = some .file) :
    fs.resolve (below root ((names ++ [n]).map .name)) = some (n :: loc) := by
  have hreal := suffix_real (FileSystem.resolve_real hloc) hsuffix
  rw [List.map_append]
  exact (resolve_child (resolve_dirPath hreal hloc)).2 hdir hnode

theorem listed_entry {names : List OsName} (hsuffix : root <:+ loc)
    (hloc : fs.resolve ((Path.ofLocation root).join (dirPath dotted names)) = some loc)
    (hdir : fs.tree.isDir loc)
    (hnode : fs.tree.node (n :: loc) = some .dir ∨ fs.tree.node (n :: loc) = some .file) :
    Listed fs.toFileSystem root (below root ((names ++ [n]).map .name)) := by
  refine ⟨⟨rfl, root.reverse ++ (names ++ [n]), ?_⟩, n :: loc,
    resolve_entry hsuffix hloc hdir hnode, hsuffix.trans (List.suffix_cons n loc)⟩
  rw [below, route, ← List.map_append]

/-- Paths that are listed are in the folder. -/
theorem capEvents_emit {a : α} (hform : DirForm fs root names₀ dir)
    (h : .emit a ∈ capEvents fs cap text fn all (.ofLocation root) dir) :
    ∃ p, a = text p ∧ Listed fs.toFileSystem root p := by
  obtain ⟨e, he⟩ | ⟨loc, hsuffix, hloc, hdir, dotted, names, n, nd, rfl, hnd, hev⟩ :=
    mem_capEvents hform h
  · cases he
  · cases nd with
    | dir | file =>
      rw [fileTypeOf, capEntry_plain (by decide)] at hev
      obtain hmem | hmem := List.mem_append.mp hev
      · split at hmem
        · exact ⟨_, Event.emit.inj (List.mem_singleton.mp hmem),
            listed_entry hsuffix hloc hdir (by simp [hnd])⟩
        · cases hmem
      · split at hmem
        · cases List.mem_singleton.mp hmem
        · cases hmem
    | link fromRoot target =>
      obtain ⟨e, he⟩ | ⟨tail, hreal, -, heq⟩ := capEntry_symlink hloc hnd
      · rw [fileTypeOf, he] at hev
        cases List.mem_singleton.mp hev
      · rw [fileTypeOf, heq] at hev
        refine ⟨_, ?_, listed_ofLocation hreal (List.suffix_append _ _)⟩
        obtain hmem | hmem := List.mem_append.mp hev
        · split at hmem
          · exact Event.emit.inj (List.mem_singleton.mp hmem)
          · cases hmem
        · split at hmem
          · cases List.mem_singleton.mp hmem
          · split at hmem
            · exact Event.emit.inj (List.mem_singleton.mp hmem)
            · cases hmem

/-- **Without an error every entry has its events.** -/
theorem capEvents_complete
    (hok : ∀ e, .fail e ∉ capEvents fs cap text fn all (.ofLocation root) dir) :
    ∃ loc, root <:+ loc ∧ fs.resolve ((Path.ofLocation root).join dir) = some loc ∧
      fs.tree.isDir loc ∧ ∀ n nd, fs.tree.node (n :: loc) = some nd →
        ∀ ev ∈ capEntry fs text fn all (.ofLocation root) dir (n, fileTypeOf nd),
          ev ∈ capEvents fs cap text fn all (.ofLocation root) dir := by
  cases hread : readDir fs cap (.ofLocation root) dir with
  | error e =>
    refine absurd ?_ (hok (fn ++ ": " ++ e))
    rw [capEvents, hread]
    exact List.mem_singleton_self _
  | ok entries =>
    obtain ⟨loc, hsuffix, hloc, hdir, hmem⟩ := readDir_ok hread
    refine ⟨loc, hsuffix, hloc, hdir, fun n nd hnd ev hev => ?_⟩
    rw [capEvents, hread]
    exact List.mem_flatMap.mpr ⟨_, (hmem n _).mpr ⟨nd, hnd, rfl⟩, hev⟩

/-- **A link in a directory without an error** leads into the folder. -/
theorem capEvents_link {fromRoot : Bool} {target : List (Segment OsName)}
    (hform : DirForm fs root names₀ dir)
    (hok : ∀ e, .fail e ∉ capEvents fs cap text fn all (.ofLocation root) dir)
    (hloc : fs.resolve ((Path.ofLocation root).join dir) = some loc)
    (hnode : fs.tree.node (n :: loc) = some (.link fromRoot target)) :
    ∃ tail, fs.tree.Real (tail.reverse ++ root) ∧
      LinkLeads fs.tree loc n (tail.reverse ++ root) ∧
      (fs.tree.isDir (tail.reverse ++ root) → .visit (targetPath tail) ∈
        capEvents fs cap text fn all (.ofLocation root) dir) ∧
      (fs.tree.node (tail.reverse ++ root) = some .file →
        .emit (text (.ofLocation (tail.reverse ++ root))) ∈
          capEvents fs cap text fn all (.ofLocation root) dir) := by
  obtain ⟨loc', -, hloc', -, hevents⟩ := capEvents_complete hok
  obtain rfl := Option.some.inj (hloc.symm.trans hloc')
  have hentry := hevents n _ hnode
  obtain ⟨dotted, base, ext, -, -, rfl, -⟩ := hform
  obtain ⟨e, he⟩ | ⟨tail, hreal, hleads, heq⟩ := capEntry_symlink hloc hnode
  · rw [fileTypeOf, he] at hentry
    exact absurd (hentry _ (List.mem_singleton_self _)) (hok e)
  · rw [fileTypeOf, heq] at hentry
    refine ⟨tail, hreal, hleads, fun hdir => ?_, fun hfile => ?_⟩
    · refine hentry _ (List.mem_append_right _ ?_)
      rw [if_pos hdir]
      exact List.mem_singleton_self _
    · refine hentry _ ?_
      -- `glob` lists it before it looks at the type, `walk_dir` after
      have hdir : ¬ fs.tree.isDir (tail.reverse ++ root) := by simp [Lib.FileTree.isDir, hfile]
      rw [if_neg hdir]
      cases all <;> simp [hfile]

end Visited

end Hiko
