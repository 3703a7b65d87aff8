import Mathlib.Data.List.Induction
import ProjectTracker.Proofs.Manifest.Walking
import ProjectTracker.Proofs.Path.Normalizing

/-!
What is read from a manifest. The roots are the files that it names and that exist, and then the files below the
directories that it names, each root where it comes first; what is not there is warned of entry by entry; and there
is an error just if there are no roots. The files below a directory are made normal once more, so that the roots are
the files that were found, and exist, as long as these are stored under normal paths.
-/

namespace ProjectTracker.Manifest

/-! ### What a manifest says -/

section

variable (fs : FileSystem) (n : Normalizer) (manifest : Spelling)

/-- A path that is written in a manifest. -/
def entryPath (entry : String) : Path :=
  n.resolveIn (manifest.path.parent?.getD Path.root) (Spelling.parse entry).path

/-- The files below a directory that a listing takes in, each as `spell` writes it. -/
def Listing.filesBelow (l : Listing) (spell : Path → Path) (dir : Path) : List Path :=
  ((walkFiles fs dir).map fun file => spell file.path).filter fun p =>
    p ≠ n.normalize manifest.path && hasExtension l.extensions p

/-- The roots that a listing stands for, each where it comes first. -/
def Listing.roots (l : Listing) (spell : Path → Path) : List Path :=
  ((l.files.map (entryPath n manifest)).filter (fun p => fs.isFile (.ofPath p)) ++
    ((l.directories.map (entryPath n manifest)).filter fun p => fs.isDirectory (.ofPath p)).flatMap
      (l.filesBelow fs n manifest spell)).eraseDups

/-- What a listing names in vain. -/
def Listing.missing (l : Listing) : List Problem :=
  ((l.files.map (entryPath n manifest)).filter fun p => !fs.isFile (.ofPath p)).map .missingFile ++
    ((l.directories.map (entryPath n manifest)).filter fun p => !fs.isDirectory (.ofPath p)).map
      .missingDirectory

/-- The entries of the manifest at a path. -/
def entriesAt? : Option (List (String × Toml.Value)) :=
  (fs.read manifest).toOption.bind entries?

/-- The roots that the manifest at a path stands for. It has to be readable and to have the form of a manifest. -/
def roots (spell : Path → Path) : List Path :=
  match (entriesAt? fs manifest).bind Listing.ofEntries? with
  | none => []
  | some l => l.roots fs n manifest spell

/-- All that is warned of in the manifest at a path. -/
def warnings : List Problem :=
  match entriesAt? fs manifest with
  | none => []
  | some entries =>
    ((entries.map (·.1)).filter fun key => key ∉ knownKeys).map .unknownKey ++
      ((Listing.ofEntries? entries).map (·.missing fs n manifest)).getD []

end

/-! ### Adding roots -/

theorem eraseDups_concat (xs : List Path) (p : Path) :
    (xs ++ [p]).eraseDups = if p ∈ xs then xs.eraseDups else xs.eraseDups ++ [p] := by
  rw [List.eraseDups_append]
  split
  · rename_i hmem
    simp [List.removeAll, hmem]
  · rename_i hmem
    simp [List.removeAll, hmem, List.eraseDups_cons]

theorem nodup_eraseDups (xs : List Path) : xs.eraseDups.Nodup := by
  induction xs using List.reverseRecOn with
  | nil => exact .nil
  | append_singleton xs p ih =>
      rw [eraseDups_concat]
      split
      · exact ih
      · rename_i hnew
        refine List.nodup_append.mpr ⟨ih, List.pairwise_singleton .., fun q hq r hr => ?_⟩
        rintro rfl
        exact hnew (List.mem_singleton.mp hr ▸ List.mem_eraseDups.mp hq)

section

variable {fs : FileSystem} {n : Normalizer} {manifest : Spelling} {o : Outcome} {known : List Path}

/-- An outcome that holds the roots of some paths so far. -/
theorem roots_addRoot (h : o.roots = known.eraseDups) (p : Path) :
    (o.addRoot p).roots = (known ++ [p]).eraseDups := by
  unfold Outcome.addRoot
  rw [eraseDups_concat, h]
  by_cases hmem : p ∈ known
  · rw [if_pos (List.mem_eraseDups.mpr hmem), if_pos hmem, h]
  · rw [if_neg fun hold => hmem (List.mem_eraseDups.mp hold), if_neg hmem]

theorem problems_addRoot (o : Outcome) (p : Path) : (o.addRoot p).problems = o.problems := by
  unfold Outcome.addRoot
  split <;> rfl

theorem roots_foldl_addRoot (h : o.roots = known.eraseDups) (ps : List Path) :
    (ps.foldl Outcome.addRoot o).roots = (known ++ ps).eraseDups := by
  induction ps generalizing o known with
  | nil => simpa using h
  | cons p ps ih =>
      rw [List.foldl_cons, ih (roots_addRoot h p), List.append_assoc, List.singleton_append]

theorem problems_foldl_addRoot (o : Outcome) (ps : List Path) :
    (ps.foldl Outcome.addRoot o).problems = o.problems := by
  induction ps generalizing o with
  | nil => rfl
  | cons p ps ih => rw [List.foldl_cons, ih, problems_addRoot]

/-- An outcome after entries of one kind: those that are there gave roots, and the others problems. -/
theorem foldl_entries (there : Path → Bool) (found : Path → List Path) (problem : Path → Problem)
    {add : Outcome → String → Outcome}
    (hadd : ∀ o entry, add o entry =
      if there (entryPath n manifest entry) then (found (entryPath n manifest entry)).foldl Outcome.addRoot o
      else o.report (problem (entryPath n manifest entry)))
    (h : o.roots = known.eraseDups) (entries : List String) :
    (entries.foldl add o).roots =
        (known ++ ((entries.map (entryPath n manifest)).filter there).flatMap found).eraseDups ∧
      (entries.foldl add o).problems =
        o.problems ++ ((entries.map (entryPath n manifest)).filter (!there ·)).map problem := by
  induction entries generalizing o known with
  | nil => simpa using h
  | cons entry entries ih =>
      rw [List.foldl_cons, hadd, List.map_cons]
      cases hthere : there (entryPath n manifest entry) with
      | true =>
          obtain ⟨hroots, hproblems⟩ := ih (roots_foldl_addRoot h (found (entryPath n manifest entry)))
          rw [if_pos rfl, hroots, hproblems, problems_foldl_addRoot]
          simp [hthere]
      | false =>
          have hreport : (o.report (problem (entryPath n manifest entry))).roots = known.eraseDups := h
          obtain ⟨hroots, hproblems⟩ := ih hreport
          rw [if_neg Bool.false_ne_true, hroots, hproblems]
          simp [hthere, Outcome.report]

/-- The outcome of a listing: its files and then its directories add to the roots, and only at the end there may be an
error. -/
theorem outcome_eq (fs : FileSystem) (n : Normalizer) (manifest : Spelling) (l : Listing) (o : Outcome)
    (h : o.roots = []) :
    let after := l.outcome fs n manifest.path o
    after.roots = l.roots fs n manifest n.normalize ∧
      after.problems = o.problems ++ l.missing fs n manifest ++ if after.definesProject then [] else [.noFiles] := by
  have hnone : o.roots = ([] : List Path).eraseDups := h
  obtain ⟨hfiles, hmissing⟩ := foldl_entries (fun p => fs.isFile (.ofPath p)) (fun p => [p]) .missingFile
    (fun _ _ => rfl : ∀ o entry, addFile fs n (manifest.path.parent?.getD Path.root) o entry =
      if fs.isFile (.ofPath (entryPath n manifest entry)) then _ else _) hnone l.files
  obtain ⟨hroots, hproblems⟩ := foldl_entries (fun p => fs.isDirectory (.ofPath p))
    (l.filesBelow fs n manifest n.normalize) .missingDirectory
    (fun _ _ => rfl : ∀ o entry, addDirectory fs n manifest.path l.extensions
      (manifest.path.parent?.getD Path.root) o entry =
        if fs.isDirectory (.ofPath (entryPath n manifest entry)) then _ else _) hfiles l.directories
  rw [hmissing] at hproblems
  simp only [List.nil_append, List.flatMap_singleton'] at hroots
  have hroots' : _ = l.roots fs n manifest n.normalize := hroots
  unfold Listing.outcome
  dsimp only
  generalize l.directories.foldl _ _ = added at hroots' hproblems
  cases hempty : added.roots.isEmpty with
  | true =>
      rw [if_pos rfl]
      refine ⟨hroots', ?_⟩
      simp [Outcome.definesProject, Outcome.report, hempty, hproblems, Listing.missing]
  | false =>
      rw [if_neg Bool.false_ne_true]
      refine ⟨hroots', ?_⟩
      simp [Outcome.definesProject, hempty, hproblems, Listing.missing]

theorem filter_map_of_not_isError {α : Type} {problem : α → Problem} (h : ∀ a, (problem a).isError = false)
    (xs : List α) : (xs.map problem).filter (!·.isError) = xs.map problem := by
  rw [List.filter_eq_self]
  intro p hp
  obtain ⟨a, -, rfl⟩ := List.mem_map.mp hp
  rw [h, Bool.not_false]

theorem filter_missing (l : Listing) :
    (l.missing fs n manifest).filter (!·.isError) = l.missing fs n manifest := by
  unfold Listing.missing
  rw [List.filter_append, filter_map_of_not_isError fun _ => rfl, filter_map_of_not_isError fun _ => rfl]

theorem exists_errors_of_roots_eq_nil {found : List Problem} (hroots : o.roots = []) (error : Problem)
    (herror : error.isError) (hproblems : o.problems = found ++ [error]) :
    ∃ errors, (∀ e ∈ errors, e.isError) ∧ (errors = [] ↔ o.definesProject) ∧ o.problems = found ++ errors := by
  refine ⟨[error], ?_, ?_, hproblems⟩
  · rintro e he
    rwa [List.mem_singleton.mp he]
  · simp [Outcome.definesProject, hroots]

/-- There are the warnings, and then errors in case there are no roots. -/
theorem exists_errors_read (fs : FileSystem) (n : Normalizer) (manifest : Spelling) :
    let o := read fs n manifest
    o.roots = roots fs n manifest n.normalize ∧
      ∃ errors, (∀ e ∈ errors, e.isError) ∧ (errors = [] ↔ o.definesProject) ∧
        o.problems = warnings fs n manifest ++ errors := by
  unfold read roots warnings entriesAt?
  cases hread : fs.read manifest with
  | error error => exact ⟨rfl, exists_errors_of_roots_eq_nil rfl (.unreadable error) rfl rfl⟩
  | ok text =>
      rw [Except.toOption, Option.bind_some]
      dsimp only
      cases hentries : entries? text with
      | none => exact ⟨rfl, exists_errors_of_roots_eq_nil rfl .malformed rfl rfl⟩
      | some entries =>
          rw [Option.bind_some]
          dsimp only
          cases hlisting : Listing.ofEntries? entries with
          | none =>
              refine ⟨rfl, exists_errors_of_roots_eq_nil rfl .invalid rfl ?_⟩
              simp [Outcome.report]
          | some l =>
              obtain ⟨hroots, hproblems⟩ := outcome_eq fs n manifest l
                { problems := ((entries.map (·.1)).filter fun key => key ∉ knownKeys).map .unknownKey } rfl
              refine ⟨hroots, _, ?_, ?_, hproblems⟩
              · simp [Problem.isError]
              · simp

theorem filter_warnings (fs : FileSystem) (n : Normalizer) (manifest : Spelling) :
    (warnings fs n manifest).filter (!·.isError) = warnings fs n manifest := by
  unfold warnings
  cases entriesAt? fs manifest with
  | none => rfl
  | some entries =>
      dsimp only
      rw [List.filter_append, filter_map_of_not_isError fun _ => rfl]
      cases Listing.ofEntries? entries with
      | none => rfl
      | some l => rw [Option.map_some, Option.getD_some, filter_missing]

/-! ### Roots that exist -/

theorem normalize_of_mem_walkFiles {files : MemoryFiles} (hstorage : fs.storage = .memory files)
    (hnormal : ∀ p ∈ files.keys, n.normalize p = p) {dir : Path} {file : Spelling} (h : file ∈ walkFiles fs dir) :
    n.normalize file.path = file.path :=
  hnormal _ ((FileSystem.isFile_of_memory hstorage file).mp (isFile_of_mem_walk h))

theorem filesBelow_normalize {files : MemoryFiles} (hstorage : fs.storage = .memory files)
    (hnormal : ∀ p ∈ files.keys, n.normalize p = p) (l : Listing) :
    l.filesBelow fs n manifest n.normalize = l.filesBelow fs n manifest id := by
  funext dir
  unfold Listing.filesBelow
  rw [List.map_congr_left fun file hfile => normalize_of_mem_walkFiles hstorage hnormal hfile]
  rfl

/-- The roots are files, however these are found. -/
theorem isFile_of_mem_roots {files : MemoryFiles} (hstorage : fs.storage = .memory files) (l : Listing) {root : Path}
    (h : root ∈ l.roots fs n manifest id) : fs.isFile (.ofPath root) := by
  rcases List.mem_append.mp (List.mem_eraseDups.mp h) with hfile | hbelow
  · exact (List.mem_filter.mp hfile).2
  · obtain ⟨dir, -, hbelow⟩ := List.mem_flatMap.mp hbelow
    obtain ⟨file, hfile, rfl⟩ := List.mem_map.mp (List.mem_filter.mp hbelow).1
    have hkey := (FileSystem.isFile_of_memory hstorage file).mp (isFile_of_mem_walk hfile)
    exact (FileSystem.isFile_of_memory hstorage _).mpr hkey

/-- Reading a manifest accounts for all that it names: each entry gives its roots, once, or a warning, and there is an
error just if there are no roots. Files in memory that are stored under normal paths are the roots themselves. -/
theorem read_accounts (fs : FileSystem) (n : Normalizer) (manifest : Spelling) :
    let o := read fs n manifest
    o.roots.Nodup ∧
      o.problems.filter (!·.isError) = warnings fs n manifest ∧
      (o.hasErrors ↔ ¬ o.definesProject) ∧
      o.roots = roots fs n manifest n.normalize ∧
      ∀ files, fs.storage = .memory files →
        ((∀ p ∈ files.keys, n.normalize p = p) →
          o.roots = roots fs n manifest id ∧ ∀ root ∈ o.roots, fs.isFile (.ofPath root)) ∧
        ((∀ p ∈ files.keys, p.Written) → ∀ dir q, (∃ file ∈ walkFiles fs dir, file.path = q) ↔
          q ∈ files.keys ∧ q.Below dir ∧ ¬ files.isDirectory q) := by
  obtain ⟨hroots, errors, herrors, hdefines, hproblems⟩ := exists_errors_read fs n manifest
  have hnoErrors : errors.filter (!·.isError) = [] := by
    rw [List.filter_eq_nil_iff]
    intro e he
    simp [herrors e he]
  refine ⟨?_, ?_, ?_, hroots, fun files hstorage => ⟨fun hnormal => ?_, fun hwritten dir q => ?_⟩⟩
  · rw [hroots]
    unfold roots
    split
    · exact .nil
    · exact nodup_eraseDups _
  · rw [hproblems, List.filter_append, filter_warnings, hnoErrors, List.append_nil]
  · have hwarnings : (warnings fs n manifest).any (·.isError) = false := by
      rw [List.any_eq_false]
      intro problem hproblem
      simpa using List.filter_eq_self.mp (filter_warnings fs n manifest) problem hproblem
    rw [← hdefines, Outcome.hasErrors, hproblems, List.any_append, hwarnings, Bool.false_or, List.any_eq_true]
    exact ⟨fun ⟨e, he, _⟩ => List.ne_nil_of_mem he, fun hne =>
      ⟨errors.head hne, List.head_mem hne, herrors _ (List.head_mem hne)⟩⟩
  · have hsame : roots fs n manifest n.normalize = roots fs n manifest id := by
      unfold roots Listing.roots
      simp only [filesBelow_normalize hstorage hnormal]
    rw [hroots, hsame]
    refine ⟨rfl, fun root hroot => ?_⟩
    unfold roots at hroot
    split at hroot
    · exact absurd hroot List.not_mem_nil
    · exact isFile_of_mem_roots hstorage _ hroot
  · exact exists_mem_walkFiles_iff hstorage hwritten dir

/-- With a relative base directory the files below a directory are looked for in one place and named in another, where
there may be nothing. -/
example :
    let manifest := Spelling.parse "w/project.toml"
    let file := Spelling.parse "w/w/src/a.txt"
    let fs := FileSystem.ofFiles [(manifest.path, "include = [\"src\"]".toList), (file.path, [])]
    (read fs ⟨⟨[.name "w"]⟩, true⟩ manifest).roots = [(Spelling.parse "w/w/w/src/a.txt").path] := by
  decide +kernel

end

end ProjectTracker.Manifest
