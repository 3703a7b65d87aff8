import ProjectTracker.Proofs.Workspace.Dealings
import ProjectTracker.Proofs.Workspace.Ownership
import ProjectTracker.Proofs.Workspace.SeatedRuns
/-!
The live projects are listed by kind, each once, and no manifest has two of them. The inferred ones belong to
their roots one to one, unless a step of the run robbed a project.
-/

namespace ProjectTracker

open Registry

/-- No two projects have one manifest. -/
def Outlook.Distinct (o : Outlook) : Prop :=
  ∀ i j post post', o.post? i = some post → o.post? j = some post' → post.kind = post'.kind →
    post.kind ≠ .inferred → i = j

namespace Workspace

variable {t : Terms} {strict : Prop} {unsaid : Path → Prop} {w w' : Workspace} {manifest : Path}
  {id : ProjectId} {ops : List Operation}

/-! ### Manifests -/

/-- The project of a manifest is found if there is one. -/
theorem kind_ne_of_projectOfManifest? (hw : w.Enlisted) (h : w.projectOfManifest? manifest = none)
    {post : Post} (hpost : w.outlook.post? id = some post) : post.kind ≠ .configured manifest := by
  intro hkind
  obtain ⟨project, hproject, rfl⟩ := Option.map_eq_some_iff.mp hpost
  have hkind' : project.kind = .configured manifest := hkind
  have hlisted : id ∈ w.configured := (hw.orderly.configured id).mpr
    ⟨project.holding, by simp [holding?, hproject], by simp [Project.holding, hkind']⟩
  have hnone := List.find?_eq_none.mp h id hlisted
  simp [projectHas, hproject, Project.manifest?, hkind'] at hnone

/-- Manifests that have a project get no other one. -/
theorem distinct_proceeds (h : Proceeds strict unsaid w w') (hw : w.Enlisted)
    (hdistinct : w.outlook.Distinct) : w'.outlook.Distinct := by
  have hsame {o o' : Outlook} (hpost : o'.post? = o.post?) (h : o.Distinct) : o'.Distinct := by
    unfold Outlook.Distinct
    rw [hpost]
    exact h
  refine h.keepsListed (fun w => w.outlook.Distinct) (fun w w' hbeside hw => ?_)
    (fun w p text _ hw => ?_) (fun w p hw => ?_) (fun w p hw => ?_) (fun w id hw => ?_)
    (fun w root hlisted hw => ?_) (fun w manifest roots settings hlisted hnone hw => ?_) hw hdistinct
  · exact hsame (congrArg Outlook.post? hbeside.outlook) hw
  · exact hsame (by rw [outlook_track]; rfl) hw
  · exact hsame (by rw [outlook_unwatch, Outlook.post?_unwatch]) hw
  · exact hsame (post?_forget w p) hw
  · intro i j post post' hi hj
    rw [outlook_removeProject, Outlook.post?_strike] at hi hj
    split at hi
    · simp at hi
    · split at hj
      · simp at hj
      · exact hw i j post post' hi hj
  · intro i j post post' hi hj hkind hconfigured
    rw [outlook_enterInferred, Outlook.post?_enrollInferred] at hi hj
    split at hi
    · obtain rfl := Option.some.inj hi
      exact absurd rfl hconfigured
    · split at hj
      · obtain rfl := Option.some.inj hj
        exact absurd hkind hconfigured
      · exact hw i j post post' hi hj hkind hconfigured
  · intro i j post post' hi hj hkind hconfigured
    obtain ⟨watches, hpost⟩ := w.outlook.post?_enrollConfigured (w.lastProject + 1) manifest
    rw [outlook_enterConfigured, hpost] at hi hj
    split at hi
    · split at hj
      · rename_i hi' hj'
        exact hi'.trans hj'.symm
      · obtain rfl := Option.some.inj hi
        exact absurd hkind.symm (kind_ne_of_projectOfManifest? hlisted hnone hj)
    · split at hj
      · obtain rfl := Option.some.inj hj
        exact absurd hkind (kind_ne_of_projectOfManifest? hlisted hnone hi)
      · exact hw i j post post' hi hj hkind hconfigured

/-! ### The lists -/

/-- The lists have the live projects by kind, each once, and no manifest has two projects. -/
structure Catalogued (w : Workspace) : Prop where
  inferred : ∀ id, id ∈ w.inferred ↔
    ∃ project, w.projects.get? id = some project ∧ project.kind = .inferred
  configured : ∀ id, id ∈ w.configured ↔
    ∃ project manifest, w.projects.get? id = some project ∧ project.kind = .configured manifest
  inferred_nodup : w.inferred.Nodup
  configured_nodup : w.configured.Nodup
  disjoint : w.inferred.Disjoint w.configured
  manifests : ∀ id id' project project' manifest, w.projects.get? id = some project →
    w.projects.get? id' = some project' → project.kind = .configured manifest →
    project'.kind = .configured manifest → id = id'

theorem Enlisted.catalogued (h : w.Enlisted) (hdistinct : w.outlook.Distinct) : w.Catalogued := by
  have hiff (id : ProjectId) (property : ProjectKind → Prop) :
      (∃ held, w.roster.holding? id = some held ∧ property held.kind) ↔
        ∃ project, w.projects.get? id = some project ∧ property project.kind := by
    show (∃ held, (w.projects.get? id).map Project.holding = some held ∧ _) ↔ _
    cases w.projects.get? id with
    | none => simp
    | some project => simp [Project.holding]
  have hinferred (id : ProjectId) : id ∈ w.inferred ↔
      ∃ project, w.projects.get? id = some project ∧ project.kind = .inferred :=
    (h.orderly.inferred id).trans (hiff id (· = .inferred))
  have hconfigured (id : ProjectId) : id ∈ w.configured ↔
      ∃ project, w.projects.get? id = some project ∧ project.kind ≠ .inferred :=
    (h.orderly.configured id).trans (hiff id (· ≠ .inferred))
  refine ⟨hinferred, fun id => ?_, h.orderly.inferred_nodup, h.orderly.configured_nodup,
    fun id hi hc => ?_, fun id id' project project' manifest hproject hproject' hkind hkind' => ?_⟩
  · rw [hconfigured]
    refine exists_congr fun project => ?_
    cases project.kind <;> simp
  · obtain ⟨project, hproject, hkind⟩ := (hinferred id).mp hi
    obtain ⟨project', hproject', hkind'⟩ := (hconfigured id).mp hc
    obtain rfl : project = project' := Option.some.inj (hproject.symm.trans hproject')
    exact hkind' hkind
  · have hpost {id : ProjectId} {project : Project} (hproject : w.projects.get? id = some project) :
        w.outlook.post? id = some project.post := by simp [outlook, hproject]
    refine hdistinct id id' _ _ (hpost hproject) (hpost hproject') (hkind.trans hkind'.symm) ?_
    simp [Project.post, hkind]

/-- The roots of inferred projects and these projects belong to each other one to one. -/
structure Paired (w : Workspace) : Prop where
  nodup : w.openFiles.roots.Nodup
  bijective : Set.BijOn w.owner? { p | p ∈ w.openFiles.roots } (some '' { id | id ∈ w.inferred })
  sole : ∀ id project, w.projects.get? id = some project → project.kind = .inferred →
    ∃ p ∈ w.openFiles.roots, project.roots = [p] ∧ w.owner? p = some id

theorem paired_of_seated (hlisted : w.Catalogued) (hsound : Sound t w.registry [] [] [])
    (h : Seated w.registry none []) : w.Paired := by
  have hsole (id : ProjectId) (project : Project) (hproject : w.projects.get? id = some project)
      (hkind : project.kind = .inferred) :
      ∃ p ∈ w.openFiles.roots, project.roots = [p] ∧ w.owner? p = some id := by
    have hcharter : w.registry.charter? id = some project.charter := by simp [registry, hproject]
    obtain ⟨p, hroots, howner⟩ := h.inferred id project.charter hcharter hkind (by simp)
    exact ⟨p, h.mem_roots_of_own hsound ⟨id, howner, _, hcharter, hkind, hroots⟩, hroots, howner⟩
  refine ⟨hsound.roots_nodup, ⟨fun p hp => ?_, fun p hp q hq heq => ?_, ?_⟩, hsole⟩
  · obtain ⟨id, howner, c, hc, hkind, -⟩ := h.own p hp
    obtain ⟨project, hproject, rfl⟩ := Option.map_eq_some_iff.mp hc
    exact ⟨id, (hlisted.inferred id).mpr ⟨project, hproject, hkind⟩, howner.symm⟩
  · exact (h.own p hp).eq_of_owner (h.own q hq) heq
  · rintro _ ⟨id, hid, rfl⟩
    obtain ⟨project, hproject, hkind⟩ := (hlisted.inferred id).mp hid
    obtain ⟨p, hp, -, howner⟩ := hsole id project hproject hkind
    exact ⟨p, hp, howner⟩

/-! ### Runs -/

theorem catalogued_run (settings : Settings) (scanner : Scanner) (fs : FileSystem)
    (ops : List Operation) : (({ settings, scanner, fs } : Workspace).run ops).Catalogued := by
  have hempty : ({ settings, scanner, fs } : Workspace).outlook.Distinct :=
    fun i j post post' hi => absurd hi (by simp [outlook])
  have hkept : (({ settings, scanner, fs } : Workspace).run ops).Enlisted ∧
      (({ settings, scanner, fs } : Workspace).run ops).outlook.Distinct :=
    run_keeps (fun w => w.outlook.Distinct)
      (fun w w' hw h hdistinct => distinct_proceeds h hw hdistinct)
      (fun w w' hbeside h => hbeside.outlook ▸ h) enlisted_empty hempty fun _ _ _ h => h
  exact hkept.1.catalogued hkept.2

/-- The lists have the live projects by kind in every run. Where no step robs a project, which none does with
an absolute base directory, the roots of inferred projects belong to these one to one. -/
theorem paired_run (settings : Settings) (scanner : Scanner) (fs : FileSystem) (ops : List Operation) :
    let start : Workspace := { settings, scanner, fs }
    (start.run ops).Catalogued ∧ (start.Avoids ops Robs → (start.run ops).Paired) ∧
      (scanner.normalizer.base.isAbsolute → (start.run ops).Paired) := by
  intro start
  have hcatalogued : (start.run ops).Catalogued := catalogued_run settings scanner fs ops
  have hpaired (hrobs : start.Avoids ops Robs) : (start.run ops).Paired :=
    paired_of_seated hcatalogued (sound_of_avoids_robs hrobs) (seated_of_avoids_robs hrobs)
  exact ⟨hcatalogued, hpaired, fun hbase => hpaired (avoids_robs_of_isAbsolute hbase)⟩

/-- Below the base directory there is one of the same name, and a file refers to the one of its name there. -/
def nested : Workspace :=
  let path (names : List String) : Path := ⟨names.map .name⟩
  let letters (first last : Char) : Pattern := .set ⟨[.range first last], false⟩
  { settings := {}
    scanner := ⟨.seq (letters '@' '@') (.group 1 (.star true (letters '.' 'z'))), ⟨path ["w"], true⟩⟩
    fs := FileSystem.ofFiles
      [(path ["w", "a"], "@../w/a".toList), (path ["w", "w", "a"], []), (path ["w", "b"], [])] }

/-- What is asked for has the same project as the document that it is given to, or none. -/
def agreeing : List Operation :=
  let path (names : List String) : Path := ⟨names.map .name⟩
  [.openFile (path ["a"]) none, .openFile (path ["w", "a"]) none, .openFile (path ["b"]) none,
    .adoptProjectFor (path ["a"]), .adoptProjectFor (path ["b"])]

theorem paired_run_agreeing :
    let path (names : List String) : Path := ⟨names.map .name⟩
    let w := nested.run agreeing
    nested.Avoids agreeing Robs ∧ (w.adoptProjectFor (path ["a"])).2 = some 1 ∧ w.Paired ∧
      w.openFiles.roots = [path ["w", "a"], path ["w", "b"]] ∧ w.inferred = [1, 2] := by
  have hrobs : nested.Avoids agreeing Robs := by decide +kernel
  exact ⟨hrobs, by decide +kernel, (paired_run {} nested.scanner nested.fs agreeing).2.1 hrobs, by decide +kernel,
    by decide +kernel⟩

/-- With a relative base directory a root may be given the project of another one, and leave its own one
without a root that belongs to it. -/
example :
    let path (names : List String) : Path := ⟨names.map .name⟩
    let start : Workspace :=
      { settings := {}
        scanner := ⟨.empty, ⟨path ["w"], true⟩⟩
        fs := FileSystem.ofFiles [(path ["w", "a"], []), (path ["w", "w", "a"], [])] }
    let w := start.run [.openFile (path ["a"]) none, .openFile (path ["w", "a"]) none,
      .adoptProjectFor (path ["a"])]
    w.openFiles.roots.map w.owner? = [some 2, some 2] ∧ w.inferred = [1, 2] := by
  decide +kernel

end Workspace

end ProjectTracker
