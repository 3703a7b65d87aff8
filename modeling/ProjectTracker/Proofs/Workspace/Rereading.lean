import ProjectTracker.Proofs.Workspace.Quiescence
import ProjectTracker.Proofs.Workspace.Renewal
/-!
Manifests that are read again. What a manifest lists goes by the files alone, and not by who watches them. So as long
as the configured projects are what the files make of their manifests, reading all of these again gives no document
to another project.
-/

namespace ProjectTracker

/-! ### What a manifest depends on -/

namespace Manifest

variable (fs : FileSystem) (watches : WatchTable) (n : Normalizer)

theorem run_watches (fuel : Nat) (w : Walk) :
    Walk.run { fs with watches } fuel w = Walk.run fs fuel w := by
  induction fuel generalizing w with
  | zero => rfl
  | succ fuel ih =>
      have hstep : w.step { fs with watches } = w.step fs := rfl
      rw [Walk.run, Walk.run, hstep, ih]

theorem addDirectory_watches (manifest : Path) (extensions : List String) (dir : Path) :
    addDirectory { fs with watches } n manifest extensions dir =
      addDirectory fs n manifest extensions dir := by
  have hfiles : walkFiles { fs with watches } = walkFiles fs :=
    funext fun _ => congrArg Walk.files (run_watches fs watches _ _)
  funext o directory
  unfold addDirectory
  rw [hfiles]
  rfl

/-- Watches are no matter to a manifest. -/
theorem read_watches (manifest : Spelling) :
    read { fs with watches } n manifest = read fs n manifest := by
  have houtcome (l : Listing) (o : Outcome) :
      l.outcome { fs with watches } n manifest.path o = l.outcome fs n manifest.path o := by
    unfold Listing.outcome
    simp only [addDirectory_watches]
    rfl
  unfold read
  simp only [houtcome]
  rfl

end Manifest

theorem Disk.isFile_of_read {disk : Disk} {s : Spelling} {text : Text} (h : disk.read s = .ok text) :
    disk.isFile s := by
  unfold Disk.read at h
  unfold Disk.isFile
  cases hfound : disk.find s with
  | error error => simp [hfound, bind, Except.bind] at h
  | ok found =>
      obtain ⟨place, entry⟩ := found
      cases entry with
      | file text? => rfl
      | directory => simp [hfound, bind, Except.bind, throw, throwThe, MonadExceptOf.throw] at h

theorem MemoryFiles.isFile_of_read {files : MemoryFiles} {p : Path} {text : Text}
    (h : files.read p = .ok text) : files.isFile p := by
  unfold MemoryFiles.read at h
  unfold MemoryFiles.isFile Table.contains
  cases hfound : files.get? p with
  | none => simp [hfound] at h
  | some text => rfl

/-- What can be read is a file. -/
theorem FileSystem.isFile_of_read {fs : FileSystem} {s : Spelling} {text : Text}
    (h : fs.read s = .ok text) : fs.isFile s := by
  unfold FileSystem.read at h
  unfold FileSystem.isFile
  split at h
  · simp at h
  · cases hstorage : fs.storage with
    | memory files => exact MemoryFiles.isFile_of_read (by simpa [hstorage] using h)
    | disk disk => exact Disk.isFile_of_read (by simpa [hstorage] using h)

theorem Manifest.Outcome.definesProject_of_mem {o : Outcome} {p : Path} (h : p ∈ o.roots) :
    o.definesProject := by
  unfold definesProject
  cases hroots : o.roots with
  | nil => simp [hroots] at h
  | cons _ _ => rfl

/-- A manifest that defines a project can be read. -/
theorem Manifest.read_of_definesProject {fs : FileSystem} {n : Normalizer} {s : Spelling}
    (h : (Manifest.read fs n s).definesProject) : ∃ text, fs.read s = .ok text := by
  unfold Manifest.read at h
  split at h
  · simp [Outcome.definesProject] at h
  · rename_i text htext
    exact ⟨text, htext⟩

/-- A registry in which projects came, and nothing else is another one. -/
structure Registry.Grown (r r' : Registry) : Prop where
  openFiles : r'.openFiles = r.openFiles
  isOpen : r'.isOpen = r.isOpen
  owner? : r'.owner? = r.owner?
  lastProject : r.lastProject ≤ r'.lastProject
  charter? : ∀ id ≤ r.lastProject, r'.charter? id = r.charter? id

namespace Registry.Grown

variable {r r' r'' : Registry}

theorem refl (r : Registry) : Grown r r :=
  ⟨rfl, rfl, rfl, Nat.le_refl _, fun _ _ => rfl⟩

theorem trans (h : Grown r r') (h' : Grown r' r'') : Grown r r'' where
  openFiles := h'.openFiles.trans h.openFiles
  isOpen := h'.isOpen.trans h.isOpen
  owner? := h'.owner?.trans h.owner?
  lastProject := Nat.le_trans h.lastProject h'.lastProject
  charter? id hid := (h'.charter? id (Nat.le_trans hid h.lastProject)).trans (h.charter? id hid)

theorem enroll (r : Registry) (kind : ProjectKind) (roots : List Path) : Grown r (r.enroll kind roots) where
  openFiles := rfl
  isOpen := rfl
  owner? := rfl
  lastProject := Nat.le_succ _
  charter? _ hid := if_neg fun heq => Nat.not_succ_le_self _ (heq ▸ hid)

end Registry.Grown

namespace Workspace

variable {w w' : Workspace} {state : Workspace × List Path} {n : Normalizer} {id : ProjectId} {project : Project}
  {outcome : Manifest.Outcome} {roots : List Path}

theorem Frame.read_manifest (h : Frame w w') (manifest : Path) :
    Manifest.read w'.fs w'.normalizer (.ofPath manifest) =
      Manifest.read w.fs w.normalizer (.ofPath manifest) := by
  have hfs : w'.fs = { w.fs with watches := w'.fs.watches } := by
    show w'.fs = ⟨w.fs.storage, w.fs.denied, w'.fs.watches⟩
    rw [← h.storage, ← h.denied]
  have hnormalizer : w'.normalizer = w.normalizer := congrArg Scanner.normalizer h.scanner
  rw [hfs, hnormalizer, Manifest.read_watches]

/-- Configured projects have just those of the files that their manifests list now that can be read. -/
def Abreast (w : Workspace) : Prop :=
  ∀ id c manifest, w.registry.charter? id = some c → c.kind = .configured manifest →
    let outcome := Manifest.read w.fs w.normalizer (.ofPath manifest)
    outcome.definesProject ∧ ∀ root, root ∈ c.roots ↔ root ∈ outcome.roots ∧ (w.texts root).isSome

theorem Abreast.of_registry (h : w.Abreast) (hquiet : Quiet w w') (hregistry : w'.registry = w.registry) :
    w'.Abreast := by
  intro id c manifest hc hkind
  rw [hregistry] at hc
  rw [hquiet.read_manifest, hquiet.texts]
  exact h id c manifest hc hkind

/-- Roots that cannot be read are not gained. -/
theorem foldl_gainRoot_unreadable (h : ∀ root ∈ roots, state.1.texts root = none) :
    roots.foldl (gainRoot id) state = state := by
  induction roots with
  | nil => rfl
  | cons root roots ih =>
      have hunread : ¬(state.1.isTracked root ∨ (state.1.fs.text? root).isSome) := by
        rw [← isSome_texts_iff, h root (by simp)]
        simp
      obtain ⟨huntracked, hmissing⟩ := not_or.mp hunread
      have hload : state.1.load root = state.1 := by
        unfold load
        rw [if_neg huntracked, Option.not_isSome_iff_eq_none.mp hmissing]
      have hsame : gainRoot id state root = state := by
        unfold gainRoot
        dsimp only
        rw [hload, if_neg huntracked]
      rw [List.foldl_cons, hsame]
      exact ih fun q hq => h q (by simp [hq])

/-- A project that has all that an outcome lists keeps it. -/
theorem registry_applyManifest (hproject : w.projects.get? id = some project)
    (hroots : ∀ root, root ∈ project.roots ↔ root ∈ outcome.roots ∧ (w.texts root).isSome) :
    (w.applyManifest id outcome).registry = w.registry := by
  by_cases hdefines : outcome.definesProject
  · have hgone : (project.roots.filter fun root => root ∉ outcome.roots) = [] := by
      refine List.filter_eq_nil_iff.mpr fun root hroot => ?_
      simp [((hroots root).mp hroot).1]
    have hnew : (outcome.roots.filter fun root => root ∉ project.roots).foldl (gainRoot id) (w, []) =
        (w, []) := by
      refine foldl_gainRoot_unreadable fun root hroot => ?_
      obtain ⟨hlisted, hnot⟩ := List.mem_filter.mp hroot
      by_contra hread
      exact of_decide_eq_true hnot ((hroots root).mpr ⟨hlisted, Option.isSome_iff_ne_none.mpr hread⟩)
    rw [applyManifest_eq_reattach hproject hdefines]
    unfold renew
    dsimp only
    rw [hgone, List.foldl_nil, hnew]
    exact registry_renewed w id outcome.settings
  · unfold applyManifest
    rw [hproject]
    simp [hdefines]

theorem updateConfigured_abreast (h : w.Abreast) (id : ProjectId) (trigger? : Option Path) :
    (w.updateConfigured id trigger?).registry = w.registry ∧ (w.updateConfigured id trigger?).Abreast := by
  have hsame : (w.updateConfigured id trigger?).registry = w.registry := by
    unfold updateConfigured
    split
    · rfl
    · rename_i manifest hmanifest
      obtain ⟨project, hproject, hown⟩ := Option.bind_eq_some_iff.mp hmanifest
      have hkind : project.kind = .configured manifest := by
        unfold Project.manifest? at hown
        cases hkind : project.kind with
        | inferred => simp [hkind] at hown
        | configured _ => simpa [hkind] using hown
      obtain ⟨hdefines, hroots⟩ := h id project.charter manifest (by simp [registry, hproject]) hkind
      obtain ⟨text, htext⟩ := Manifest.read_of_definesProject hdefines
      have hread := calm_readManifest w manifest trigger?
      have hregistry := registry_readManifest w manifest trigger?
      have hprojects : (w.readManifest manifest trigger?).1.projects = w.projects := by
        unfold readManifest
        dsimp only
        split <;> rfl
      rw [if_pos (FileSystem.isFile_of_read htext)]
      dsimp only
      rw [registry_applyManifest (hprojects ▸ hproject) (by rw [hread.texts]; exact hroots), hregistry]
  exact ⟨hsame, h.of_registry (shifts_updateConfigured w id trigger?).quiet hsame⟩

/-- The new project of a manifest has just those of the listed files that can be read. -/
theorem createConfigured_abreast (h : w.Abreast) (manifest : Path) :
    let after := w.createConfigured manifest (Manifest.read w.fs w.normalizer (.ofPath manifest))
    w.registry.Grown after.registry ∧ after.Abreast := by
  intro after
  have hquiet := (shifts_createConfigured w manifest
    (Manifest.read w.fs w.normalizer (.ofPath manifest))).quiet
  by_cases hdefines : (Manifest.read w.fs w.normalizer (.ofPath manifest)).definesProject
  · rcases createConfigured_cases w manifest (Manifest.read w.fs w.normalizer (.ofPath manifest)) with
      hsame | ⟨roots, henrolled⟩
    · exact ⟨hsame ▸ .refl _, h.of_registry hquiet hsame⟩
    · refine ⟨henrolled ▸ .enroll .., fun id c m hc hkind => ?_⟩
      rw [hquiet.read_manifest, hquiet.texts]
      have henters := hc
      rw [henrolled] at henters
      simp only [Registry.enroll] at henters
      split at henters
      · rename_i hid
        obtain ⟨project, hproject, -, hfollows⟩ := follows_createConfigured w manifest hdefines
        obtain rfl : m = manifest := by
          obtain rfl := Option.some.inj henters
          exact (ProjectKind.configured.inj hkind).symm
        obtain ⟨project', hproject', rfl⟩ := Option.map_eq_some_iff.mp hc
        obtain rfl : project = project' := Option.some.inj (hproject.symm.trans (hid ▸ hproject'))
        refine ⟨hdefines, fun root => ?_⟩
        rw [isSome_texts_iff]
        exact hfollows.roots root
      · exact h id c m henters hkind
  · have hsame : after = w := if_neg hdefines
    rw [hsame]
    exact ⟨.refl _, h⟩

theorem consultManifest_abreast (h : w.Abreast) (p : Path) :
    w.registry.Grown (w.consultManifest p).registry ∧ (w.consultManifest p).Abreast := by
  unfold consultManifest
  split
  · exact ⟨.refl _, h⟩
  · rename_i manifest _
    split
    · rename_i id _
      obtain ⟨hsame, hafter⟩ := updateConfigured_abreast h id (some p)
      exact ⟨hsame ▸ .refl _, hafter⟩
    · have hread := calm_readManifest w manifest (some p)
      have hregistry := registry_readManifest w manifest (some p)
      have hcreated := createConfigured_abreast (h.of_registry hread.toQuiet hregistry) manifest
      rw [hread.read_manifest, hregistry] at hcreated
      exact hcreated

/-- Where the projects are abreast of their manifests all that reading these again does before settling is to make
projects for others. -/
theorem reload_abreast (htended : Tended n w) (h : w.Abreast) :
    ∃ reloaded, w.reload = reloaded.settle ∧ Tended n reloaded ∧ w.registry.Grown reloaded.registry := by
  obtain ⟨reloaded, ⟨htended', -, hgrown⟩, heq⟩ := reload_keeps
    (fun v => Tended n v ∧ v.Abreast ∧ w.registry.Grown v.registry)
    (fun v id ⟨htended, h, hgrown⟩ => by
      obtain ⟨hsame, hafter⟩ := updateConfigured_abreast h id none
      exact ⟨tended_updateConfigured htended id none, hafter, hsame ▸ hgrown⟩)
    (fun v p ⟨htended, h, hgrown⟩ => by
      obtain ⟨hgrown', hafter⟩ := consultManifest_abreast h p
      exact ⟨tended_consultManifest htended p, hafter, hgrown.trans hgrown'⟩) ⟨htended, h, .refl _⟩
  exact ⟨reloaded, heq, htended', hgrown⟩

end Workspace

end ProjectTracker
