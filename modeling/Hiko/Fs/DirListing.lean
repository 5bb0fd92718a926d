import Hiko.Fs.DirEntries

/-!
# Listings of directories

`walk_dir` and `glob` end; what they list is inside the folders, without duplicates and complete,
and a bad link is an error.

## Main definitions

* `dirKeys`: the keys of the directories that can be visited
* `WalkDirOk`, `GlobOk`: what the builtins answer

## Main results

* `capSearch_terminates`, `capSearch_listed`, `capSearch_complete`, `capSearch_badLink`: the search
  of one candidate
* `walkDir_glob_confined`: both builtins
-/

namespace Hiko

open Lib Lib.FileTree

/-! ## The search -/

section Run

variable {α : Type} {fs : FiniteFileSystem} {cap : CapDirs fs.toFileSystem} {text : Path → α}
  {fn : String} {all dotted : Bool} {root loc names₀ start : List OsName} {n : OsName}
  {dir : Path} {depth : ℕ} {out : List α}

theorem dirForm_of_visits
    (h : Visits (capEvents fs cap text fn all (.ofLocation root)) (dirPath dotted names₀) dir) :
    DirForm fs root names₀ dir := by
  induction h with
  | refl => exact .start dotted
  | tail _ hvisit ih => exact ih.visit hvisit

/-- The keys of the directories that can be visited. -/
def dirKeys (fs : FiniteFileSystem) (names₀ : List OsName) : Finset (List PathComponent) :=
  ([true, false].flatMap fun dotted => [names₀, []].flatMap fun base =>
    (fs.locations.flatMap List.inits).map fun ext =>
      (dirPath dotted (base ++ ext.reverse)).components).toFinset

theorem DirForm.mem_dirKeys (h : DirForm fs root names₀ dir) :
    dir.components ∈ dirKeys fs names₀ := by
  obtain ⟨dotted, base, ext, loc₀, hbase, rfl, hmem, -⟩ := h
  refine List.mem_toFinset.mpr (List.mem_flatMap.mpr ⟨dotted, by cases dotted <;> decide,
    List.mem_flatMap.mpr ⟨base, by simpa using hbase, List.mem_map.mpr ⟨ext.reverse, ?_, ?_⟩⟩⟩)
  · exact List.mem_flatMap.mpr ⟨_, hmem, (List.mem_inits _ _).mpr (List.prefix_append _ _)⟩
  · rw [List.reverse_reverse]

/-- **The walk ends.** -/
theorem capSearch_terminates (fs : FiniteFileSystem) (cap : CapDirs fs.toFileSystem)
    (text : Path → α) (fn : String) (all dotted : Bool) (root names₀ : List OsName) :
    ∃ depth₀ res, ∀ depth, depth₀ ≤ depth →
      capSearch fs cap text fn all (.ofLocation root) depth (dirPath dotted names₀) = some res := by
  obtain ⟨res, hres⟩ : ∃ res, search (capEvents fs cap text fn all (.ofLocation root))
      Path.components ((dirKeys fs names₀).card + 1) (dirPath dotted names₀) ⟨[], []⟩ =
        some res := by
    have hkeys : ∀ m, Visits (capEvents fs cap text fn all (.ofLocation root))
        (dirPath dotted names₀) m → m.components ∈ dirKeys fs names₀ :=
      fun m hm => (dirForm_of_visits hm).mem_dirKeys
    -- only these keys are visited, so their number is depth enough
    refine search_terminates hkeys .refl ?_
    exact Nat.lt_succ_of_le (Finset.card_le_card (Finset.filter_subset _ _))
  refine ⟨(dirKeys fs names₀).card + 1, res.map (·.out), fun depth hle => ?_⟩
  rw [capSearch, search_mono hle hres]
  rfl

theorem capSearch_ok
    (h : capSearch fs cap text fn all (.ofLocation root) depth dir = some (.ok out)) :
    ∃ visited, search (capEvents fs cap text fn all (.ofLocation root)) Path.components depth dir
      ⟨[], []⟩ = some (.ok ⟨visited, out⟩) := by
  obtain ⟨res, hres, hmap⟩ := Option.map_eq_some_iff.mp h
  cases res with
  | error e => cases hmap
  | ok st =>
    obtain rfl := Except.ok.inj hmap
    exact ⟨st.visited, hres⟩

/-- **What is listed is in the folder.** -/
theorem capSearch_listed
    (h : capSearch fs cap text fn all (.ofLocation root) depth (dirPath dotted names₀) =
      some (.ok out)) : ∀ a ∈ out, ∃ p, a = text p ∧ Listed fs.toFileSystem root p := by
  obtain ⟨visited, hsearch⟩ := capSearch_ok h
  intro a ha
  obtain hnil | ⟨m, hm, hemit⟩ := search_sound .refl hsearch a ha
  · cases hnil
  · exact capEvents_emit (dirForm_of_visits hm) hemit

/-- Without an error every directory that is met is handled. -/
theorem capSearch_handled
    (h : capSearch fs cap text fn all (.ofLocation root) depth (dirPath dotted names₀) =
      some (.ok out))
    (hdir : Visits (capEvents fs cap text fn all (.ofLocation root)) (dirPath dotted names₀) dir) :
    (∀ a, .emit a ∈ capEvents fs cap text fn all (.ofLocation root) dir → a ∈ out) ∧
      ∀ e, .fail e ∉ capEvents fs cap text fn all (.ofLocation root) dir := by
  obtain ⟨visited, hsearch⟩ := capSearch_ok h
  have hall := search_complete (fun m m' hm hm' hkey => ?_) hsearch hdir
  · exact ⟨fun a ha => hall _ ha, fun e he => hall _ he⟩
  · -- directories with the same components have the same path
    obtain ⟨dotted₁, base₁, ext₁, -, -, rfl, -⟩ := dirForm_of_visits hm
    obtain ⟨dotted₂, base₂, ext₂, -, -, rfl, -⟩ := dirForm_of_visits hm'
    exact dirPath_inj hkey

/-- **A directory that is reached in the tree is reached by the search.** -/
theorem capSearch_visits
    (h : capSearch fs cap text fn all (.ofLocation root) depth (dirPath dotted names₀) =
      some (.ok out))
    (hstart : fs.resolve ((Path.ofLocation root).join (dirPath dotted names₀)) = some start)
    (hloc : ReachedDir fs.tree start loc) :
    ∃ dir, Visits (capEvents fs cap text fn all (.ofLocation root)) (dirPath dotted names₀) dir ∧
      fs.resolve ((Path.ofLocation root).join dir) = some loc := by
  induction hloc with
  | start => exact ⟨_, .refl, hstart⟩
  | @child loc n hreached hnode ih =>
    obtain ⟨dir, hdir, hresolve⟩ := ih
    have hform := dirForm_of_visits hdir
    obtain ⟨loc', hsuffix, hloc', hisDir, hevents⟩ :=
      capEvents_complete (capSearch_handled h hdir).2
    obtain rfl := Option.some.inj (hresolve.symm.trans hloc')
    obtain ⟨dotted', base, ext, -, -, rfl, -⟩ := hform
    -- the entry of the directory is an event, and it visits the child
    refine ⟨_, hdir.tail (hevents n _ hnode (.visit (dirPath dotted' (base ++ ext ++ [n]))) ?_), ?_⟩
    · rw [fileTypeOf, capEntry_plain (by decide), if_pos rfl]
      exact List.mem_append_right _ (List.mem_singleton_self _)
    · rw [← dirPath_push]
      exact (resolve_child hresolve).2 hisDir (.inl hnode)
  | @link loc loc' n hreached hleads hisDir ih =>
    obtain ⟨dir, hdir, hresolve⟩ := ih
    obtain ⟨fromRoot, target, hnode⟩ := hleads.1
    obtain ⟨tail, hreal, hleads', hvisit, -⟩ :=
      capEvents_link (dirForm_of_visits hdir) (capSearch_handled h hdir).2 hresolve hnode
    -- the link leads to one place, the one that is visited
    obtain rfl := hleads.unique hleads'
    exact ⟨_, hdir.tail (hvisit hisDir), resolve_targetPath hreal hisDir⟩

/-- **Every file that is reached is listed.** -/
theorem capSearch_complete {file : List OsName}
    (h : capSearch fs cap text fn all (.ofLocation root) depth (dirPath dotted names₀) =
      some (.ok out))
    (hstart : fs.resolve ((Path.ofLocation root).join (dirPath dotted names₀)) = some start)
    (hfile : ReachedFile fs.tree start file) :
    ∃ p, text p ∈ out ∧ p.Names ∧ fs.resolve p = some file := by
  obtain ⟨hnode, loc, n, hreached, hcases⟩ := hfile
  obtain ⟨dir, hdir, hresolve⟩ := capSearch_visits h hstart hreached
  obtain ⟨hout, hok⟩ := capSearch_handled h hdir
  have hform := dirForm_of_visits hdir
  obtain rfl | hleads := hcases
  · obtain ⟨loc', hsuffix, hloc', hisDir, hevents⟩ := capEvents_complete hok
    obtain rfl := Option.some.inj (hresolve.symm.trans hloc')
    obtain ⟨dotted', base, ext, -, -, rfl, -⟩ := hform
    have hlisted := listed_entry hsuffix hresolve hisDir (.inr hnode)
    refine ⟨_, hout _ (hevents n _ hnode _ ?_), hlisted.1,
      resolve_entry hsuffix hresolve hisDir (.inr hnode)⟩
    rw [fileTypeOf, capEntry_plain (by decide), if_pos (by simp)]
    exact List.mem_append_left _ (List.mem_singleton_self _)
  · obtain ⟨fromRoot, target, hlink⟩ := hleads.1
    obtain ⟨tail, hreal, hleads', -, hemit⟩ := capEvents_link hform hok hresolve hlink
    obtain rfl := hleads.unique hleads'
    exact ⟨_, hout _ (hemit hnode), ⟨rfl, _, rfl⟩, resolve_ofLocation hreal⟩

/-- **A bad link is an error.** -/
theorem capSearch_badLink
    (h : capSearch fs cap text fn all (.ofLocation root) depth (dirPath dotted names₀) =
      some (.ok out))
    (hstart : fs.resolve ((Path.ofLocation root).join (dirPath dotted names₀)) = some start) :
    ¬ BadLink fs.tree root start := by
  rintro ⟨loc, n, fromRoot, target, hreached, hnode, hbad⟩
  obtain ⟨dir, hdir, hresolve⟩ := capSearch_visits h hstart hreached
  obtain ⟨tail, -, hleads, -, -⟩ :=
    capEvents_link (dirForm_of_visits hdir) (capSearch_handled h hdir).2 hresolve hnode
  exact hbad _ hleads (List.suffix_append _ _)

end Run

/-! ## The candidates -/

/-- A candidate for a folder, with a path of names. -/
def CandidateForm (dirs : List Path) (c : CapFsCandidate) : Prop :=
  c.root ∈ dirs ∧ ∃ root dotted names, c = ⟨.ofLocation root, dirPath dotted names⟩

theorem filterMap_normalName_names (cs : List PathComponent) :
    ∃ names : List OsName, cs.filterMap normalName? = names.map .name := by
  induction cs with
  | nil => exact ⟨[], rfl⟩
  | cons c cs ih =>
    obtain ⟨names, hnames⟩ := ih
    cases c with
    | normal n => exact ⟨n :: names, by simp [normalName?, hnames]⟩
    | rootDir | curDir | parentDir => exact ⟨names, hnames⟩

theorem normalize_dirPath (p : Path) :
    ∃ dotted names, normalizeCapRelativePath p = dirPath dotted names := by
  obtain ⟨names, hnames⟩ := filterMap_normalName_names p.components
  refine ⟨names.isEmpty, names, ?_⟩
  rw [normalizeCapRelativePath, hnames]
  cases names <;> rfl

/-- The relative path of a candidate was normalized. -/
theorem relative_dirPath {fs : FileSystem} {root relative : Path} {path : String}
    (h : capRelativePathFor fs root path = .ok (some relative)) :
    ∃ dotted names, relative = dirPath dotted names := by
  obtain ⟨q, rfl⟩ : ∃ q, relative = normalizeCapRelativePath q := by
    unfold capRelativePathFor at h
    split at h
    · split at h
      · next fast hfast =>
        obtain rfl := Option.some.inj (Except.ok.inj h)
        unfold capRelativePathForAbsoluteFast at hfast
        split at hfast
        · cases hfast
        · split at hfast
          · cases hfast
          · exact ⟨_, (Option.some.inj hfast).symm⟩
      · split at h
        · cases h
        · split at h
          · cases h
          · split at h
            · cases h
            · exact ⟨_, (Option.some.inj (Except.ok.inj h)).symm⟩
    · split at h
      · cases h
      · exact ⟨_, (Option.some.inj (Except.ok.inj h)).symm⟩
  exact normalize_dirPath q

theorem candidateForm_of_ok {fs : FileSystem} {root builtin path : String}
    {builtinFolders : List (String × List String)} {candidates : List CapFsCandidate}
    (h : capCandidatesFor fs (rebuildCapDirs fs root builtinFolders) builtin path =
      .ok candidates) :
    ∃ dirs, (rebuildCapDirs fs root builtinFolders).lookup builtin = some dirs ∧
      ∀ c ∈ candidates, CandidateForm dirs c := by
  unfold capCandidatesFor at h
  split at h
  · cases h
  · next dirs hdirs =>
    refine ⟨dirs, hdirs, ?_⟩
    split at h
    · cases h
    · split at h
      · cases h
      · next found hfound =>
        split at h
        · cases h
        · obtain rfl := Except.ok.inj h
          intro c hc
          obtain ⟨hmem, hrelative⟩ := mem_capCandidates hfound c hc
          obtain ⟨loc, hloc⟩ := rebuildCapDirs_canonical hdirs c.root hmem
          obtain ⟨dotted, names, hnames⟩ := relative_dirPath hrelative
          refine ⟨hmem, loc, dotted, names, ?_⟩
          rw [← hloc, ← hnames]

/-! ## walk_dir -/

theorem mem_insertNew {texts : List String} {new f : String} :
    f ∈ insertNew texts new ↔ f ∈ texts ∨ f = new := by
  unfold insertNew
  split
  · next hmem => exact ⟨.inl, fun h => h.elim id fun heq => heq ▸ hmem⟩
  · rw [List.mem_append, List.mem_singleton]

theorem mem_foldl_insertNew {texts new : List String} {f : String} :
    f ∈ new.foldl insertNew texts ↔ f ∈ texts ∨ f ∈ new := by
  induction new generalizing texts with
  | nil => simp
  | cons t new ih => rw [List.foldl_cons, ih, mem_insertNew, List.mem_cons, or_assoc]

theorem nodup_foldl_insertNew {texts : List String} (new : List String) (h : texts.Nodup) :
    (new.foldl insertNew texts).Nodup := by
  induction new generalizing texts with
  | nil => exact h
  | cons t new ih =>
    rw [List.foldl_cons]
    refine ih ?_
    unfold insertNew
    split
    · exact h
    · next hnew => exact h.append (List.nodup_singleton t) (by simpa using hnew)

section WalkDir

variable {fs : FiniteFileSystem} {cap : CapDirs fs.toFileSystem} {replace : List UInt8 → String}
  {dirs : List Path} {candidates : List CapFsCandidate} {files files' : List String} {depth : ℕ}

theorem walkCandidates_terminates (hform : ∀ c ∈ candidates, CandidateForm dirs c) :
    ∃ depth₀ res, ∀ depth, depth₀ ≤ depth →
      walkCandidates fs cap replace depth candidates files = some res := by
  induction candidates generalizing files with
  | nil => exact ⟨0, .ok files, fun _ _ => rfl⟩
  | cons c candidates ih =>
    obtain ⟨⟨-, root, dotted, names, rfl⟩, hrest⟩ := List.forall_mem_cons.mp hform
    obtain ⟨depth₁, res, hres⟩ := capSearch_terminates fs cap (Path.toStringLossy replace)
      "walk_dir" false dotted root names
    cases res with
    | error e =>
      refine ⟨depth₁, .error e, fun depth hle => ?_⟩
      simp only [walkCandidates, walkCap, hres depth hle]
    | ok out =>
      obtain ⟨depth₂, res, hres'⟩ := @ih (out.foldl insertNew files) hrest
      refine ⟨max depth₁ depth₂, res, fun depth hle => ?_⟩
      simp only [walkCandidates, walkCap, hres depth ((le_max_left _ _).trans hle)]
      exact hres' depth ((le_max_right _ _).trans hle)

/-- **The loop over the candidates** lists what each of them does. -/
theorem walkCandidates_ok
    (h : walkCandidates fs cap replace depth candidates files = some (.ok files')) :
    (files.Nodup → files'.Nodup) ∧ (∀ f ∈ files, f ∈ files') ∧
      (∀ f ∈ files', f ∈ files ∨ ∃ c ∈ candidates, ∃ out,
        walkCap fs cap replace c.root depth c.relativePath = some (.ok out) ∧ f ∈ out) ∧
      ∀ c ∈ candidates, ∃ out,
        walkCap fs cap replace c.root depth c.relativePath = some (.ok out) ∧
          ∀ f ∈ out, f ∈ files' := by
  induction candidates generalizing files with
  | nil =>
    cases h
    exact ⟨id, fun _ hf => hf, fun _ hf => .inl hf, fun c hc => (List.not_mem_nil hc).elim⟩
  | cons c candidates ih =>
    rw [walkCandidates] at h
    split at h
    · next out hout =>
      obtain ⟨hnodup, hstay, hfrom, hall⟩ := ih h
      refine ⟨fun hn => hnodup (nodup_foldl_insertNew out hn),
        fun f hf => hstay f (mem_foldl_insertNew.mpr (.inl hf)), fun f hf => ?_,
        List.forall_mem_cons.mpr ⟨⟨out, hout, fun f hf =>
          hstay f (mem_foldl_insertNew.mpr (.inr hf))⟩, hall⟩⟩
      obtain hmem | ⟨c', hc', out', hout', hf'⟩ := hfrom f hf
      · obtain hmem | hmem := mem_foldl_insertNew.mp hmem
        · exact .inl hmem
        · exact .inr ⟨c, List.mem_cons_self, out, hout, hmem⟩
      · exact .inr ⟨c', List.mem_cons_of_mem _ hc', out', hout', hf'⟩
    · next hno => exact absurd h (hno files')

/-! ## glob -/

variable {patterns : Patterns} {heap : HeapAnswers} {pattern : String} {paths paths' : List String}

/-- The texts of the paths that match are listed once. -/
theorem globPaths_ok {pat : patterns.Pattern} {allPaths : List Path}
    (h : globPaths replace patterns heap pat allPaths paths = .ok paths') :
    (paths.Nodup → paths'.Nodup) ∧ ∀ f, f ∈ paths' ↔ f ∈ paths ∨
      ∃ p ∈ allPaths, patterns.matchesPath pat p ∧ f = p.toStringLossy replace := by
  induction allPaths generalizing paths with
  | nil =>
    cases h
    exact ⟨id, fun f => by simp⟩
  | cons p allPaths ih =>
    -- a path that does not match, or that was seen, changes nothing
    rw [globPaths] at h
    split at h
    · next hmatch =>
      dsimp only at h
      split at h
      · next hseen =>
        obtain ⟨hnodup, hmem⟩ := ih h
        refine ⟨hnodup, fun f => (hmem f).trans ⟨fun hf => ?_, fun hf => ?_⟩⟩
        · exact hf.imp_right fun ⟨q, hq, hrest⟩ => ⟨q, List.mem_cons_of_mem _ hq, hrest⟩
        · obtain hf | ⟨q, hq, hqmatch, rfl⟩ := hf
          · exact .inl hf
          · obtain rfl | hq := List.mem_cons.mp hq
            · exact .inl hseen
            · exact .inr ⟨q, hq, hqmatch, rfl⟩
      · next hnew =>
        split at h
        · cases h
        · obtain ⟨hnodup, hmem⟩ := ih h
          refine ⟨fun hn => hnodup (hn.append (List.nodup_singleton _) (by simpa using hnew)),
            fun f => (hmem f).trans ⟨fun hf => ?_, fun hf => ?_⟩⟩
          · obtain hf | ⟨q, hq, hrest⟩ := hf
            · obtain hf | hf := List.mem_append.mp hf
              · exact .inl hf
              · exact .inr ⟨p, List.mem_cons_self, hmatch, List.mem_singleton.mp hf⟩
            · exact .inr ⟨q, List.mem_cons_of_mem _ hq, hrest⟩
          · obtain hf | ⟨q, hq, hqmatch, rfl⟩ := hf
            · exact .inl (List.mem_append_left _ hf)
            · obtain rfl | hq := List.mem_cons.mp hq
              · exact .inl (List.mem_append_right _ (List.mem_singleton_self _))
              · exact .inr ⟨q, hq, hqmatch, rfl⟩
    · next hno =>
      obtain ⟨hnodup, hmem⟩ := ih h
      refine ⟨hnodup, fun f => (hmem f).trans ⟨fun hf => ?_, fun hf => ?_⟩⟩
      · exact hf.imp_right fun ⟨q, hq, hrest⟩ => ⟨q, List.mem_cons_of_mem _ hq, hrest⟩
      · obtain hf | ⟨q, hq, hqmatch, rfl⟩ := hf
        · exact .inl hf
        · obtain rfl | hq := List.mem_cons.mp hq
          · exact absurd hqmatch hno
          · exact .inr ⟨q, hq, hqmatch, rfl⟩

theorem globCandidates_terminates (hform : ∀ c ∈ candidates, CandidateForm dirs c) :
    ∃ depth₀ res, ∀ depth, depth₀ ≤ depth →
      globCandidates fs cap replace patterns heap pattern depth candidates paths = some res := by
  induction candidates generalizing paths with
  | nil => exact ⟨0, .ok paths, fun _ _ => rfl⟩
  | cons c candidates ih =>
    obtain ⟨⟨-, root, dotted, names, rfl⟩, hrest⟩ := List.forall_mem_cons.mp hform
    cases hpat : patterns.new (patternText replace pattern (.ofLocation root)) with
    | error e =>
      refine ⟨0, .error ("glob: " ++ e), fun depth _ => ?_⟩
      simp only [globCandidates, hpat]
    | ok pat =>
      obtain ⟨depth₁, res, hres⟩ := capSearch_terminates fs cap id "glob" true dotted root names
      cases res with
      | error e =>
        refine ⟨depth₁, .error e, fun depth hle => ?_⟩
        simp only [globCandidates, hpat, collectCapPaths, hres depth hle]
      | ok out =>
        cases hglob : globPaths replace patterns heap pat out paths with
        | error e =>
          refine ⟨depth₁, .error e, fun depth hle => ?_⟩
          simp only [globCandidates, hpat, collectCapPaths, hres depth hle, hglob]
        | ok mid =>
          obtain ⟨depth₂, res, hres'⟩ := @ih mid hrest
          refine ⟨max depth₁ depth₂, res, fun depth hle => ?_⟩
          simp only [globCandidates, hpat, collectCapPaths,
            hres depth ((le_max_left _ _).trans hle), hglob]
          exact hres' depth ((le_max_right _ _).trans hle)

/-- **The loop over the candidates** offers the paths of each of them to its pattern. -/
theorem globCandidates_ok
    (h : globCandidates fs cap replace patterns heap pattern depth candidates paths =
      some (.ok paths')) :
    (paths.Nodup → paths'.Nodup) ∧ (∀ f ∈ paths, f ∈ paths') ∧
      (∀ f ∈ paths', f ∈ paths ∨ ∃ c ∈ candidates, ∃ out,
        collectCapPaths fs cap c.root depth c.relativePath = some (.ok out) ∧
          ∃ p ∈ out, f = p.toStringLossy replace) ∧
      ∀ c ∈ candidates, ∃ pat out,
        patterns.new (patternText replace pattern c.root) = .ok pat ∧
          collectCapPaths fs cap c.root depth c.relativePath = some (.ok out) ∧
            ∀ p ∈ out, patterns.matchesPath pat p → p.toStringLossy replace ∈ paths' := by
  induction candidates generalizing paths with
  | nil =>
    cases h
    exact ⟨id, fun _ hf => hf, fun _ hf => .inl hf, fun c hc => (List.not_mem_nil hc).elim⟩
  | cons c candidates ih =>
    rw [globCandidates] at h
    split at h
    · cases h
    · next pat hpat =>
      split at h
      · cases h
      · cases h
      · next out hout =>
        split at h
        · cases h
        · next mid hmid =>
          obtain ⟨hnodup, hmem⟩ := globPaths_ok hmid
          obtain ⟨hnodup', hstay, hfrom, hall⟩ := ih h
          refine ⟨fun hn => hnodup' (hnodup hn), fun f hf => hstay f ((hmem f).mpr (.inl hf)),
            fun f hf => ?_, List.forall_mem_cons.mpr ⟨⟨pat, out, hpat, hout, fun p hp hmatch =>
              hstay _ ((hmem _).mpr (.inr ⟨p, hp, hmatch, rfl⟩))⟩, hall⟩⟩
          obtain hf | ⟨c', hc', out', hout', hf'⟩ := hfrom f hf
          · obtain hf | ⟨p, hp, -, rfl⟩ := (hmem f).mp hf
            · exact .inl hf
            · exact .inr ⟨c, List.mem_cons_self, out, hout, p, hp, rfl⟩
          · exact .inr ⟨c', List.mem_cons_of_mem _ hc', out', hout', hf'⟩

end WalkDir

/-! ## The builtins -/

/-- What the candidates of a builtin promise of the texts that are listed: each names something in a
folder, none is there twice, and a bad link that a candidate reaches is an error. -/
structure ListingOk (fs : FiniteFileSystem) (builtinDirs : List (String × List Path))
    (builtin path : String) (res : Except String (List String)) : Prop where
  inside : ∀ texts, res = .ok texts → ∀ f ∈ texts, ∃ dirs root loc,
    builtinDirs.lookup builtin = some dirs ∧ Path.ofLocation root ∈ dirs ∧
      fs.resolve (.new f) = some loc ∧ root <:+ loc
  nodup : ∀ texts, res = .ok texts → texts.Nodup
  badLink : ∀ candidates,
    capCandidatesFor fs.toFileSystem builtinDirs builtin path = .ok candidates →
      ∀ c ∈ candidates, ∀ root start, c.root = .ofLocation root →
        fs.resolve (c.root.join c.relativePath) = some start → BadLink fs.tree root start →
          ∃ e, res = .error e

/-- What `walk_dir` answers: every file that a candidate reaches is listed. -/
structure WalkDirOk (fs : FiniteFileSystem) (builtinDirs : List (String × List Path))
    (dir : String) (res : Except String (List String)) : Prop
    extends ListingOk fs builtinDirs "walk_dir" dir res where
  complete : ∀ files, res = .ok files → ∀ candidates,
    capCandidatesFor fs.toFileSystem builtinDirs "walk_dir" dir = .ok candidates →
      ∀ c ∈ candidates, ∀ start, fs.resolve (c.root.join c.relativePath) = some start →
        ∀ file, ReachedFile fs.tree start file → ∃ f ∈ files, fs.resolve (.new f) = some file

/-- What `glob` answers: every file that a candidate reaches is offered to the pattern. -/
structure GlobOk (fs : FiniteFileSystem) (cap : CapDirs fs.toFileSystem)
    (replace : List UInt8 → String) (patterns : Patterns)
    (builtinDirs : List (String × List Path)) (pattern : String)
    (res : Except String (List String)) : Prop
    extends ListingOk fs builtinDirs "glob" "." res where
  offered : ∀ paths, res = .ok paths → ∀ candidates,
    capCandidatesFor fs.toFileSystem builtinDirs "glob" "." = .ok candidates →
      ∀ c ∈ candidates, ∃ pat depth out,
        patterns.new (patternText replace pattern c.root) = .ok pat ∧
          collectCapPaths fs cap c.root depth c.relativePath = some (.ok out) ∧
            (∀ p ∈ out, patterns.matchesPath pat p → p.toStringLossy replace ∈ paths) ∧
              ∀ start, fs.resolve (c.root.join c.relativePath) = some start →
                ∀ file, ReachedFile fs.tree start file → ∃ p ∈ out, fs.resolve p = some file

section Builtins

variable {fs : FiniteFileSystem} {cap : CapDirs fs.toFileSystem} {replace : List UInt8 → String}
  {root builtin path : String} {builtinFolders : List (String × List String)}
  {candidates : List CapFsCandidate} {texts : List String} {depth : ℕ}
  {res : Except String (List String)}

/-- An error promises nothing. -/
theorem listingOk_error {builtinDirs : List (String × List Path)} (e : String) :
    ListingOk fs builtinDirs builtin path (.error e) where
  inside texts h := by cases h
  nodup texts h := by cases h
  badLink _ _ _ _ _ _ _ _ _ := ⟨e, rfl⟩

theorem ofLocation_injective : Function.Injective Path.ofLocation := by
  intro loc loc' h
  have hnames : Function.Injective (Segment.name : OsName → Segment OsName) :=
    fun _ _ h => Segment.name.inj h
  exact List.reverse_injective (hnames.list_map (Path.mk.inj h).2)

variable (replace) in
/-- Texts that the candidates list are as promised, whatever becomes of them. -/
theorem listingOk_of_listed {dirs : List Path}
    (hdirs : (rebuildCapDirs fs.toFileSystem root builtinFolders).lookup builtin = some dirs)
    (hcandidates : capCandidatesFor fs.toFileSystem (rebuildCapDirs fs.toFileSystem root
      builtinFolders) builtin path = .ok candidates)
    (hnodup : texts.Nodup)
    (hlisted : ∀ f ∈ texts, ∃ loc p, Path.ofLocation loc ∈ dirs ∧ f = p.toStringLossy replace ∧
      Listed fs.toFileSystem loc p)
    (hlinks : ∀ c ∈ candidates, ∀ loc start, c.root = .ofLocation loc →
      fs.resolve (c.root.join c.relativePath) = some start → ¬ BadLink fs.tree loc start)
    (hres : ∀ texts', res = .ok texts' → texts' = texts) :
    ListingOk fs (rebuildCapDirs fs.toFileSystem root builtinFolders) builtin path res where
  inside texts' htexts f hf := by
    rw [hres texts' htexts] at hf
    obtain ⟨loc, p, hroot, rfl, hnames, place, hplace, hsuffix⟩ := hlisted f hf
    exact ⟨dirs, loc, place, hdirs, hroot, resolve_text replace hnames hplace, hsuffix⟩
  nodup texts' htexts := by
    rw [hres texts' htexts]
    exact hnodup
  badLink candidates' hcandidates' c hc loc start hroot hstart hbad := by
    obtain rfl := Except.ok.inj (hcandidates.symm.trans hcandidates')
    exact absurd hbad (hlinks c hc loc start hroot hstart)

/-- **What `walk_dir` lists** is as promised. -/
theorem walkDirOk_of_walk
    (hcandidates : capCandidatesFor fs.toFileSystem (rebuildCapDirs fs.toFileSystem root
      builtinFolders) "walk_dir" path = .ok candidates)
    (h : walkCandidates fs cap replace depth candidates [] = some (.ok texts))
    (hres : ∀ texts', res = .ok texts' → texts' = texts) :
    WalkDirOk fs (rebuildCapDirs fs.toFileSystem root builtinFolders) path res := by
  obtain ⟨dirs, hdirs, hform⟩ := candidateForm_of_ok hcandidates
  obtain ⟨hnodup, -, hfrom, hall⟩ := walkCandidates_ok h
  refine ⟨listingOk_of_listed replace hdirs hcandidates (hnodup List.nodup_nil)
    (fun f hf => ?_) (fun c hc loc start hroot hstart => ?_) hres, ?_⟩
  · obtain hnil | ⟨c, hc, out, hout, hmem⟩ := hfrom f hf
    · cases hnil
    · obtain ⟨hroot, loc, dotted, names, rfl⟩ := hform c hc
      obtain ⟨p, hp, hlisted⟩ := capSearch_listed hout f hmem
      exact ⟨loc, p, hroot, hp, hlisted⟩
  · obtain ⟨out, hout, -⟩ := hall c hc
    obtain ⟨-, loc', dotted, names, rfl⟩ := hform c hc
    obtain rfl := ofLocation_injective hroot
    exact capSearch_badLink hout hstart
  · intro files hfiles candidates' hcandidates' c hc start hstart file hfile
    obtain rfl := Except.ok.inj (hcandidates.symm.trans hcandidates')
    obtain ⟨out, hout, hmem⟩ := hall c hc
    obtain ⟨-, loc, dotted, names, rfl⟩ := hform c hc
    obtain ⟨p, hp, hnames, hplace⟩ := capSearch_complete hout hstart hfile
    rw [hres files hfiles]
    exact ⟨_, hmem _ hp, resolve_text replace hnames hplace⟩

/-- **What `glob` lists** is as promised. -/
theorem globOk_of_walk {patterns : Patterns} {heap : HeapAnswers} {pattern : String}
    (hcandidates : capCandidatesFor fs.toFileSystem (rebuildCapDirs fs.toFileSystem root
      builtinFolders) "glob" "." = .ok candidates)
    (h : globCandidates fs cap replace patterns heap pattern depth candidates [] =
      some (.ok texts))
    (hres : ∀ texts', res = .ok texts' → texts' = texts) :
    GlobOk fs cap replace patterns (rebuildCapDirs fs.toFileSystem root builtinFolders) pattern
      res := by
  obtain ⟨dirs, hdirs, hform⟩ := candidateForm_of_ok hcandidates
  obtain ⟨hnodup, -, hfrom, hall⟩ := globCandidates_ok h
  refine ⟨listingOk_of_listed replace hdirs hcandidates (hnodup List.nodup_nil)
    (fun f hf => ?_) (fun c hc loc start hroot hstart => ?_) hres, ?_⟩
  · obtain hnil | ⟨c, hc, out, hout, p, hp, hf⟩ := hfrom f hf
    · cases hnil
    · obtain ⟨hroot, loc, dotted, names, rfl⟩ := hform c hc
      obtain ⟨q, rfl, hlisted⟩ := capSearch_listed hout p hp
      exact ⟨loc, p, hroot, hf, hlisted⟩
  · obtain ⟨pat, out, -, hout, -⟩ := hall c hc
    obtain ⟨-, loc', dotted, names, rfl⟩ := hform c hc
    obtain rfl := ofLocation_injective hroot
    exact capSearch_badLink hout hstart
  · intro paths hpaths candidates' hcandidates' c hc
    obtain rfl := Except.ok.inj (hcandidates.symm.trans hcandidates')
    obtain ⟨pat, out, hpat, hout, hmatches⟩ := hall c hc
    obtain ⟨-, loc, dotted, names, rfl⟩ := hform c hc
    rw [hres paths hpaths]
    refine ⟨pat, depth, out, hpat, hout, hmatches, fun start hstart file hfile => ?_⟩
    obtain ⟨p, hp, -, hplace⟩ := capSearch_complete hout hstart hfile
    exact ⟨p, hp, hplace⟩

theorem allocList_ok {heap : HeapAnswers} {texts' : List String}
    (h : allocList heap texts = .ok texts') : texts' = texts := by
  unfold allocList at h
  split at h
  · cases h
  · exact (Except.ok.inj h).symm

/-- `walk_dir` ends, and answers as promised. -/
theorem walkDir_ok (fs : FiniteFileSystem) (cap : CapDirs fs.toFileSystem)
    (replace : List UInt8 → String) (heap : HeapAnswers) (root : String)
    (builtinFolders : List (String × List String)) (dir : String) :
    ∃ depth₀ res, (∀ depth, depth₀ ≤ depth →
        walkDir fs cap replace heap (rebuildCapDirs fs.toFileSystem root builtinFolders) depth dir =
          some res) ∧
      WalkDirOk fs (rebuildCapDirs fs.toFileSystem root builtinFolders) dir res := by
  cases hcandidates : capCandidatesFor fs.toFileSystem
      (rebuildCapDirs fs.toFileSystem root builtinFolders) "walk_dir" dir with
  | error e =>
    refine ⟨0, .error ("walk_dir: " ++ e), fun depth _ => ?_, listingOk_error _, ?_⟩
    · rw [walkDir, hcandidates]
    · intro files h
      cases h
  | ok candidates =>
    obtain ⟨dirs, -, hform⟩ := candidateForm_of_ok hcandidates
    obtain ⟨depth₀, walked, hwalked⟩ : ∃ depth₀ walked, ∀ depth, depth₀ ≤ depth →
        walkCandidates fs cap replace depth candidates [] = some walked :=
      walkCandidates_terminates hform
    cases walked with
    | error e =>
      refine ⟨depth₀, .error e, fun depth hle => ?_, listingOk_error _, ?_⟩
      · simp only [walkDir, hcandidates, hwalked depth hle]
      · intro files h
        cases h
    | ok files =>
      have hwalk := hwalked depth₀ le_rfl
      cases hput : putTexts heap [] files with
      | error e =>
        refine ⟨depth₀, .error e, fun depth hle => ?_, walkDirOk_of_walk hcandidates hwalk ?_⟩
        · simp only [walkDir, hcandidates, hwalked depth hle, hput]
        · intro files' h
          cases h
      | ok _ =>
        refine ⟨depth₀, allocList heap files, fun depth hle => ?_,
          walkDirOk_of_walk hcandidates hwalk fun _ => allocList_ok⟩
        simp only [walkDir, hcandidates, hwalked depth hle, hput]

/-- `glob` ends, and answers as promised. -/
theorem glob_ok (fs : FiniteFileSystem) (cap : CapDirs fs.toFileSystem)
    (replace : List UInt8 → String) (patterns : Patterns) (heap : HeapAnswers) (root : String)
    (builtinFolders : List (String × List String)) (pattern : String) :
    ∃ depth₀ res, (∀ depth, depth₀ ≤ depth →
        glob fs cap replace patterns heap (rebuildCapDirs fs.toFileSystem root builtinFolders)
          depth pattern = some res) ∧
      GlobOk fs cap replace patterns (rebuildCapDirs fs.toFileSystem root builtinFolders) pattern
        res := by
  have herror : ∀ e, GlobOk fs cap replace patterns
      (rebuildCapDirs fs.toFileSystem root builtinFolders) pattern (.error e) := by
    refine fun e => ⟨listingOk_error e, fun paths h => ?_⟩
    cases h
  cases hpattern : if (Path.new pattern).absolute then Except.ok ()
      else validateCapRelativePath (.new pattern) with
  | error e =>
    refine ⟨0, .error ("glob: " ++ e), fun depth _ => ?_, herror _⟩
    simp only [glob, hpattern]
  | ok _ =>
    cases hcandidates : capCandidatesFor fs.toFileSystem
        (rebuildCapDirs fs.toFileSystem root builtinFolders) "glob" "." with
    | error e =>
      refine ⟨0, .error ("glob: " ++ e), fun depth _ => ?_, herror _⟩
      simp only [glob, hpattern, hcandidates]
    | ok candidates =>
      cases hcheck : checkPattern pattern candidates with
      | error e =>
        refine ⟨0, .error e, fun depth _ => ?_, herror _⟩
        simp only [glob, hpattern, hcandidates, hcheck]
      | ok _ =>
        obtain ⟨dirs, -, hform⟩ := candidateForm_of_ok hcandidates
        obtain ⟨depth₀, walked, hwalked⟩ : ∃ depth₀ walked, ∀ depth, depth₀ ≤ depth →
            globCandidates fs cap replace patterns heap pattern depth candidates [] = some walked :=
          globCandidates_terminates hform
        cases walked with
        | error e =>
          refine ⟨depth₀, .error e, fun depth hle => ?_, herror _⟩
          simp only [glob, hpattern, hcandidates, hcheck, hwalked depth hle]
        | ok paths =>
          refine ⟨depth₀, allocList heap paths, fun depth hle => ?_,
            globOk_of_walk hcandidates (hwalked depth₀ le_rfl) fun _ => allocList_ok⟩
          simp only [glob, hpattern, hcandidates, hcheck, hwalked depth hle]

/-- **`walk_dir` and `glob` end and stay inside the folders.** -/
theorem walkDir_glob_confined (fs : FiniteFileSystem) (cap : CapDirs fs.toFileSystem)
    (replace : List UInt8 → String) (patterns : Patterns) (heap : HeapAnswers) (root : String)
    (builtinFolders : List (String × List String)) :
    (∀ dir, ∃ depth₀ res, (∀ depth, depth₀ ≤ depth →
        walkDir fs cap replace heap (rebuildCapDirs fs.toFileSystem root builtinFolders) depth dir =
          some res) ∧
      WalkDirOk fs (rebuildCapDirs fs.toFileSystem root builtinFolders) dir res) ∧
    ∀ pattern, ∃ depth₀ res, (∀ depth, depth₀ ≤ depth →
        glob fs cap replace patterns heap (rebuildCapDirs fs.toFileSystem root builtinFolders)
          depth pattern = some res) ∧
      GlobOk fs cap replace patterns (rebuildCapDirs fs.toFileSystem root builtinFolders) pattern
        res :=
  ⟨walkDir_ok fs cap replace heap root builtinFolders,
    glob_ok fs cap replace patterns heap root builtinFolders⟩

end Builtins

/-- A name of one byte. -/
def OsName.single (b : UInt8) (h : b ≠ 46 ∧ b ≠ 47) : OsName :=
  ⟨[b], by simp [h.1, h.2.symm]⟩

/-- The directory `/r` with a file `a`, the link `l` to `/r` and the link `s` to the file. -/
def loopFs : FiniteFileSystem where
  tree :=
    { node := fun loc =>
        match (loc.map (·.bytes) : List (List UInt8)) with
        | [] | [[114]] => some .dir
        | [[97], [114]] => some .file
        | [[108], [114]] => some (.link true [.name (.single 114 (by decide))])
        | [[115], [114]] => some (.link false [.name (.single 97 (by decide))])
        | _ => none
      root := rfl }
  cwd := []
  cwd_real := trivial
  maxLinks := 40
  locations := [[], [.single 114 (by decide)], [.single 97 (by decide), .single 114 (by decide)],
    [.single 108 (by decide), .single 114 (by decide)],
    [.single 115 (by decide), .single 114 (by decide)]]
  mem_locations loc h := by
    have hinj : Function.Injective (OsName.bytes) := by
      rintro ⟨bytes, valid⟩ ⟨bytes', valid'⟩ hbytes
      obtain rfl : bytes = bytes' := hbytes
      rfl
    have hloc : ∀ l : List OsName, loc.map (·.bytes) = l.map (·.bytes) → loc = l :=
      fun l hl => hinj.list_map hl
    dsimp only at h
    split at h
    · next heq => simp [hloc [] heq]
    · next heq => simp [hloc [.single 114 (by decide)] heq]
    · next heq => simp [hloc [.single 97 (by decide), .single 114 (by decide)] heq]
    · next heq => simp [hloc [.single 108 (by decide), .single 114 (by decide)] heq]
    · next heq => simp [hloc [.single 115 (by decide), .single 114 (by decide)] heq]
    · exact absurd rfl h
  utf8 n loc h := by
    have hvalid : ∀ bytes : List UInt8, bytes.toByteArray.IsValidUTF8 → n.bytes = bytes →
        n.bytes.toByteArray.IsValidUTF8 := fun bytes hbytes heq => heq ▸ hbytes
    dsimp only at h
    split at h
    · next heq => cases heq
    · next heq => exact hvalid [114] (by decide) (List.cons.inj heq).1
    · next heq => exact hvalid [97] (by decide) (List.cons.inj heq).1
    · next heq => exact hvalid [108] (by decide) (List.cons.inj heq).1
    · next heq => exact hvalid [115] (by decide) (List.cons.inj heq).1
    · exact absurd rfl h

-- the link to the directory itself ends, and the file is listed once
example : walkDir loopFs (checkedDirs _) (fun _ => "") ⟨fun _ _ => .ok (), fun _ => .ok ()⟩
    (rebuildCapDirs loopFs.toFileSystem "" [("walk_dir", ["/r"])]) 5 "/r" =
      some (.ok ["/r/a"]) := by
  decide +kernel

end Hiko
