import ProjectTracker.Proofs.Workspace.Catalogue
/-!
As long as nobody else has to do with the watches of the file system, those that are live are the ones that the
documents, projects and directories of the workspace have, and none is released that is not live. A directory
counts the inferred projects whose roots lie below it, unless a step of the run robbed one of its root.
-/

namespace ProjectTracker

open Outlook Registry

theorem Path.nodup_ancestors (p : Path) : p.ancestors.Nodup := by
  refine List.Nodup.map_on (fun m hm n hn heq => ?_) (List.nodup_reverse.mpr List.nodup_range)
  have hlength := congrArg (·.components.length) heq
  simp only [List.mem_reverse, List.mem_range] at hm hn
  simp only [List.length_take] at hlength
  omega

namespace Workspace

variable {t : Terms} {strict : Prop} {unsaid : Path → Prop} {w w' : Workspace} {p dir : Path}
  {id : WatchId} {target : WatchTarget} {purpose : WatchPurpose} {ops : List Operation}

/-! ### Nobody else has watches -/

/-- Somebody else has to do with the watches of the file system. -/
def Meddles (w : Workspace) : Operation → Prop
  | .replaceFiles fs => fs.watches ≠ w.fs.watches
  | _ => False

instance (w : Workspace) : (op : Operation) → Decidable (w.Meddles op)
  | .replaceFiles fs => inferInstanceAs (Decidable (fs.watches ≠ w.fs.watches))
  | .openFile .. | .closeFile .. | .changeFile .. | .changeRange .. | .snapshot .. | .getText ..
  | .getTextRange .. | .positionAt .. | .offsetAt .. | .projectFor .. | .adoptProjectFor .. | .takeEvents
  | .fileChanged .. | .advance .. | .flush | .reload | .settle => inferInstanceAs (Decidable False)

/-- What the steps keep of a workspace that has its watches for itself, runs keep. -/
theorem run_keeps_apart (property : Workspace → Prop)
    (hproceeds : ∀ w w', w.Enlisted → Proceeds False (fun _ => True) w w' → property w → property w')
    (hbeside : ∀ w w', Beside w w' → property w → property w') (hw : w.Enlisted) (h : property w)
    (hops : w.Avoids ops Meddles) : (w.run ops).Enlisted ∧ property (w.run ops) := by
  refine run_keeps property hproceeds hbeside hw h fun done fs hdone hproperty => ?_
  have hwatches : fs.watches = (w.run done).fs.watches :=
    not_not.mp (hops done (.replaceFiles fs) hdone)
  refine hbeside (w.run done) _ (.of_eq ?_ rfl rfl rfl rfl fun _ h => .inl h) hproperty
  ext : 1
  case watches => exact hwatches
  all_goals rfl

/-! ### Watches and their holders -/

theorem balanced_proceeds (h : Proceeds strict unsaid w w') (hw : w.Enlisted)
    (hbalanced : Balanced w.outlook [] []) : Balanced w'.outlook [] [] := by
  refine h.keepsListed (fun w => Balanced w.outlook [] []) (fun w w' hbeside hw => ?_)
    (fun w p text hp hw => ?_) (fun w p hw => ?_) (fun w p hw => ?_) (fun w id hw => ?_)
    (fun w root hlisted hw => ?_) (fun w manifest roots settings hlisted _ hw => ?_) hw hbalanced
  · exact hbeside.outlook ▸ hw
  · rw [outlook_track]
    refine hw.track (Option.not_isSome_iff_eq_none.mp ?_)
    rw [isSome_document?]
    exact Bool.eq_false_iff.mp hp
  · rw [outlook_unwatch]
    exact hw.unwatch p
  · rw [outlook_forget]
    exact (hw.unwatch p).forget (w.outlook.document?_unwatch p)
  · rw [outlook_removeProject]
    exact hw.strike id
  · rw [outlook_enterInferred]
    exact hw.enrollInferred hlisted.fresh root.nodup_ancestors
  · rw [outlook_enterConfigured]
    exact hw.enrollConfigured hlisted.fresh manifest

/-- Somebody has a watch of a target for a purpose: a document of its file, a configured project of its manifest
and of what lies around it, or a directory of what lies in it. -/
def Backs (w : Workspace) (id : WatchId) (target : WatchTarget) : WatchPurpose → Prop
  | .document p =>
    target = .file (.ofPath p) ∧ ∃ d, w.documents.get? p = some d ∧ d.watch? = some id
  | .manifest i => ∃ project manifest, w.projects.get? i = some project ∧
    project.kind = .configured manifest ∧ target = .file (.ofPath manifest) ∧
      project.watches[0]? = some id
  | .sourceTree i => ∃ project manifest dir, w.projects.get? i = some project ∧
    project.kind = .configured manifest ∧ manifest.parent? = some dir ∧
      target = .directory (.ofPath dir) true ∧ project.watches[1]? = some id
  | .lookout dir => target = .directory (.ofPath dir) false ∧
    (w.lookouts.get? dir).map (·.watch) = some id

/-- What a project has watches for stands in the order of its watches. -/
theorem mem_zip_targets {i : ProjectId} {kind : ProjectKind} {watches : List WatchId} :
    (id, target, purpose) ∈ watches.zip (kind.targets i) ↔ ∃ manifest, kind = .configured manifest ∧
      ((target = .file (.ofPath manifest) ∧ purpose = .manifest i ∧ watches[0]? = some id) ∨
        ∃ dir, manifest.parent? = some dir ∧ target = .directory (.ofPath dir) true ∧
          purpose = .sourceTree i ∧ watches[1]? = some id) := by
  cases kind with
  | inferred => simp [ProjectKind.targets]
  | configured manifest =>
      cases hdir : manifest.parent? with
      | none =>
          rcases watches with - | ⟨first, rest⟩
          · simp [ProjectKind.targets, hdir]
          · simp [ProjectKind.targets, hdir]
            grind
      | some dir =>
          rcases watches with - | ⟨first, - | ⟨second, rest⟩⟩
          · simp [ProjectKind.targets, hdir]
          · simp [ProjectKind.targets, hdir]
            grind
          · simp [ProjectKind.targets, hdir]
            grind

theorem holds_iff_backs : w.outlook.Holds id target purpose ↔ w.Backs id target purpose := by
  have hproject {i : ProjectId} (hpurpose : purpose = .manifest i ∨ purpose = .sourceTree i) :
      w.outlook.Holds id target purpose ↔ ∃ project, w.projects.get? i = some project ∧
        (id, target, purpose) ∈ project.watches.zip (project.kind.targets i) := by
    rw [holds_project hpurpose]
    show (∃ post, (w.projects.get? i).map Project.post = some post ∧ _) ↔ _
    cases w.projects.get? i with
    | none => simp
    | some project => simp [Project.post]
  cases purpose with
  | document p =>
      rw [holds_document]
      show (w.documents.get? p).map (·.watch?) = some (some id) ∧ _ ↔ _
      simp [Backs, and_comm]
  | manifest i =>
      rw [hproject (.inl rfl)]
      simp [Backs, mem_zip_targets]
  | sourceTree i =>
      rw [hproject (.inr rfl)]
      simp only [Backs, mem_zip_targets]
      grind
  | lookout dir =>
      rw [holds_lookout]
      simp [Backs, outlook]
      grind

/-- Every live watch is the one that somebody has for its purpose, and the other way round. Directories count
the projects that wait in them, and nothing was released that was not live. -/
structure WatchesAccounted (w : Workspace) : Prop where
  keys : ∀ id, (∃ target, w.fs.watches.get? id = some target) ↔
    ∃ purpose, w.purposes.get? id = some purpose
  backed : ∀ id target purpose,
    w.fs.watches.get? id = some target ∧ w.purposes.get? id = some purpose ↔ w.Backs id target purpose
  /-- A configured project has all its watches. -/
  configured : ∀ i project manifest, w.projects.get? i = some project →
    project.kind = .configured manifest →
      (∃ id, w.Backs id (.file (.ofPath manifest)) (.manifest i)) ∧
      ∀ dir, manifest.parent? = some dir → ∃ id, w.Backs id (.directory (.ofPath dir) true) (.sourceTree i)
  users : ∀ dir, ((w.lookouts.get? dir).map (·.users)).getD 0 =
    { i | ∃ project, w.projects.get? i = some project ∧ dir ∈ project.lookouts }.ncard
  used : ∀ dir lookout, w.lookouts.get? dir = some lookout → 0 < lookout.users
  misreleases : w.fs.watches.misreleases = 0

theorem waiters_outlook (w : Workspace) (dir : Path) : w.outlook.waiters dir =
    { i | ∃ project, w.projects.get? i = some project ∧ dir ∈ project.lookouts } := by
  ext i
  show (∃ post, (w.projects.get? i).map Project.post = some post ∧ _) ↔ _
  simp [Project.post]

theorem watchesAccounted_of_balanced (h : Balanced w.outlook [] []) : w.WatchesAccounted where
  keys id := by
    have hsome : (w.fs.watches.get? id).isSome = (w.purposes.get? id).isSome := h.keys id
    rw [← Option.isSome_iff_exists, ← Option.isSome_iff_exists, hsome]
  backed id target purpose := by
    rw [← holds_iff_backs]
    exact (h.live id target purpose).trans (or_iff_left List.not_mem_nil)
  configured i project manifest hproject hkind := by
    have hlength := (h.posts i project.post (by simp [outlook, hproject])).1
    have hkind' : project.post.kind = .configured manifest := hkind
    rw [hkind'] at hlength
    change project.watches.length = _ at hlength
    refine ⟨⟨project.watches.get ⟨0, ?_⟩, project, manifest, hproject, hkind, rfl, ?_⟩, fun dir hdir =>
      ⟨project.watches.get ⟨1, ?_⟩, project, manifest, dir, hproject, hkind, hdir, rfl, ?_⟩⟩
    all_goals simp [ProjectKind.targets, *]
  users dir := by
    rw [← waiters_outlook]
    exact h.users dir
  used := h.used
  misreleases := h.misreleases

/-! ### Where projects wait -/

/-- Inferred projects wait above the roots that they were made for, the other ones nowhere. -/
def WaitsAbove (w : Workspace) : Prop :=
  ∀ i c post, w.registry.charter? i = some c → w.outlook.post? i = some post →
    (c.kind = .inferred → ∃ root, c.roots ⊆ [root] ∧ post.lookouts = root.ancestors) ∧
      (c.kind ≠ .inferred → post.lookouts = [])

theorem waitsAbove_beside (hw : w.WaitsAbove) (h : Beside w w') : w'.WaitsAbove := by
  intro i c' post hc' hpost
  obtain ⟨project', hproject', rfl⟩ := Option.map_eq_some_iff.mp hc'
  have hpost' : project'.post = post := by simpa [outlook, hproject'] using hpost
  rw [h.outlook] at hpost
  obtain ⟨project, hproject, rfl⟩ := Option.map_eq_some_iff.mp hpost
  have hkind : project'.kind = project.kind := congrArg Post.kind hpost'
  obtain ⟨hinferred, hconfigured⟩ :=
    hw i project.charter project.post (by simp [registry, hproject]) hpost
  refine ⟨fun hkind' => ?_, fun hkind' => hconfigured fun heq => hkind' (hkind.trans heq)⟩
  obtain ⟨root, hroots, hlookouts⟩ := hinferred (hkind.symm.trans hkind')
  obtain ⟨former, hformer, hsub⟩ := h.roots i project' hproject' hkind'
  obtain rfl : project = former := Option.some.inj (hproject.symm.trans hformer)
  exact ⟨root, fun p hp => hroots (hsub hp), hlookouts⟩

theorem waitsAbove_enroll {kind : ProjectKind} {roots : List Path} {post : Post} (hw : w.WaitsAbove)
    (hregistry : w'.registry = w.registry.enroll kind roots)
    (hpost : ∀ i, w'.outlook.post? i =
      if i = w.registry.lastProject + 1 then some post else w.outlook.post? i)
    (hnew : (kind = .inferred → ∃ root, roots ⊆ [root] ∧ post.lookouts = root.ancestors) ∧
      (kind ≠ .inferred → post.lookouts = [])) : w'.WaitsAbove := by
  intro i c post' hc hpost'
  rw [hregistry] at hc
  rw [hpost] at hpost'
  simp only [Registry.enroll] at hc
  by_cases hi : i = w.registry.lastProject + 1
  · rw [if_pos hi] at hc hpost'
    obtain rfl := Option.some.inj hc
    obtain rfl := Option.some.inj hpost'
    exact hnew
  · rw [if_neg hi] at hc hpost'
    exact hw i c post' hc hpost'

theorem waitsAbove_proceeds (h : Proceeds strict unsaid w w') (hw : w.Enlisted)
    (hwaits : w.WaitsAbove) : w'.WaitsAbove := by
  have hsame {w w' : Workspace} (hw : w.WaitsAbove)
      (hcharter : w'.registry.charter? = w.registry.charter?)
      (hpost : w'.outlook.post? = w.outlook.post?) : w'.WaitsAbove := by
    unfold WaitsAbove
    rw [hcharter, hpost]
    exact hw
  refine h.keepsListed WaitsAbove (fun w w' hbeside hw => ?_)
    (fun w p text hp hw => ?_) (fun w p hw => ?_) (fun w p hw => ?_) (fun w id hw i c post hc hpost => ?_)
    (fun w root _ hw => ?_) (fun w manifest roots settings _ _ hw => ?_) hw hwaits
  · exact waitsAbove_beside hw hbeside
  · exact hsame hw (congrArg Registry.charter? (registry_track hp text)) (by rw [outlook_track]; rfl)
  · exact hsame hw (congrArg Registry.charter? (registry_unwatch w p))
      (by rw [outlook_unwatch, post?_unwatch])
  · refine hsame hw ?_ (post?_forget w p)
    show (fun id => ((w.forget p).projects.get? id).map Project.charter) = _
    rw [projects_forget]
    rfl
  · rw [(removeProject_eq w id).1] at hc
    obtain ⟨hne, hc⟩ := charter?_strike_eq_some.mp hc
    rw [outlook_removeProject, post?_strike, if_neg hne] at hpost
    exact hw i c post hc hpost
  · have hpost (i : ProjectId) : (w.enterInferred root).outlook.post? i =
        if i = w.registry.lastProject + 1 then some ⟨.inferred, [], root.ancestors⟩
        else w.outlook.post? i := by
      rw [outlook_enterInferred, post?_enrollInferred]
      rfl
    exact waitsAbove_enroll hw (registry_enterInferred w root) hpost
      ⟨fun _ => ⟨root, fun _ h => h, rfl⟩, fun hkind => absurd rfl hkind⟩
  · obtain ⟨watches, hposts⟩ := w.outlook.post?_enrollConfigured (w.lastProject + 1) manifest
    have hpost (i : ProjectId) : (w.enterConfigured manifest roots settings).outlook.post? i =
        if i = w.registry.lastProject + 1 then some ⟨.configured manifest, watches, []⟩
        else w.outlook.post? i := by
      rw [outlook_enterConfigured, hposts]
      rfl
    exact waitsAbove_enroll hw (registry_enterConfigured w manifest roots settings) hpost
      ⟨fun hkind => by simp at hkind, fun _ => rfl⟩

/-- Directories count the live inferred projects with a root below them. -/
def CountsRoots (w : Workspace) : Prop :=
  ∀ dir, ((w.lookouts.get? dir).map (·.users)).getD 0 =
    { i | ∃ project p, w.projects.get? i = some project ∧ project.kind = .inferred ∧
      project.roots = [p] ∧ dir ∈ p.ancestors }.ncard

theorem countsRoots_of_seated (hbalanced : Balanced w.outlook [] []) (hwaits : w.WaitsAbove)
    (h : Seated w.registry none []) : w.CountsRoots := by
  intro dir
  refine (hbalanced.users dir).trans ?_
  rw [List.count_nil, Nat.add_zero, waiters_outlook]
  congr 1
  ext i
  constructor
  · rintro ⟨project, hproject, hdir⟩
    have hcharter : w.registry.charter? i = some project.charter := by simp [registry, hproject]
    obtain ⟨hinferred, hconfigured⟩ :=
      hwaits i project.charter project.post hcharter (by simp [outlook, hproject])
    by_cases hkind : project.kind = .inferred
    · obtain ⟨p, hroots, -⟩ := h.inferred i project.charter hcharter hkind (by simp)
      obtain ⟨root, hsub, hlookouts⟩ := hinferred hkind
      obtain rfl : p = root := List.mem_singleton.mp (hsub (hroots ▸ List.mem_singleton_self p))
      exact ⟨project, p, hproject, hkind, hroots, hlookouts ▸ hdir⟩
    · have hnowhere : project.lookouts = [] := hconfigured hkind
      simp [hnowhere] at hdir
  · rintro ⟨project, p, hproject, hkind, hroots, hdir⟩
    have hcharter : w.registry.charter? i = some project.charter := by simp [registry, hproject]
    obtain ⟨root, hsub, hlookouts⟩ :=
      (hwaits i project.charter project.post hcharter (by simp [outlook, hproject])).1 hkind
    have hsub' : project.roots ⊆ [root] := hsub
    obtain rfl : p = root := List.mem_singleton.mp (hsub' (hroots ▸ List.mem_singleton_self p))
    have hlookouts' : project.lookouts = p.ancestors := hlookouts
    exact ⟨project, hproject, hlookouts' ▸ hdir⟩

/-! ### Runs -/

theorem balanced_empty {settings : Settings} {scanner : Scanner} {fs : FileSystem}
    (hfs : fs.watches = {}) : Balanced ({ settings, scanner, fs } : Workspace).outlook [] [] := by
  have hwatches : ({ settings, scanner, fs } : Workspace).outlook.watches = {} := hfs
  have hpurposes : ({ settings, scanner, fs } : Workspace).outlook.purposes = ∅ := rfl
  have hlookouts : ({ settings, scanner, fs } : Workspace).outlook.lookouts = ∅ := rfl
  have hdocument (p : Path) : ({ settings, scanner, fs } : Workspace).outlook.document? p = none := rfl
  have hpost (i : ProjectId) : ({ settings, scanner, fs } : Workspace).outlook.post? i = none := rfl
  generalize ({ settings, scanner, fs } : Workspace).outlook = o at *
  have hlive (id : WatchId) : o.watches.get? id = none := by
    rw [hwatches]
    rfl
  have hmisreleases : o.watches.misreleases = 0 := by rw [hwatches]
  clear hwatches
  have hunheld (id : WatchId) (target : WatchTarget) (purpose : WatchPurpose) :
      ¬o.Holds id target purpose := by
    rintro (h | ⟨h, -⟩ | h)
    · simp [hdocument] at h
    · simp [hpost] at h
    · simp [hlookouts] at h
  constructor <;> simp [*, Outlook.users, Outlook.waiters]

theorem balanced_run (settings : Settings) {scanner : Scanner} {fs : FileSystem}
    (hfs : fs.watches = {}) (hops : ({ settings, scanner, fs } : Workspace).Avoids ops Meddles) :
    Balanced (({ settings, scanner, fs } : Workspace).run ops).outlook [] [] :=
  (run_keeps_apart (fun w => Balanced w.outlook [] []) (fun _ _ hw h => balanced_proceeds h hw)
    (fun _ _ hbeside h => hbeside.outlook ▸ h) enlisted_empty (balanced_empty hfs) hops).2

theorem waitsAbove_run (settings : Settings) {scanner : Scanner} {fs : FileSystem}
    (hops : ({ settings, scanner, fs } : Workspace).Avoids ops Meddles) :
    (({ settings, scanner, fs } : Workspace).run ops).WaitsAbove := by
  have hempty : ({ settings, scanner, fs } : Workspace).WaitsAbove := fun i c post hc =>
    absurd hc (by simp [registry])
  exact (run_keeps_apart WaitsAbove (fun _ _ hw h => waitsAbove_proceeds h hw)
    (fun _ _ hbeside h => waitsAbove_beside h hbeside) enlisted_empty hempty hops).2

/-- Watches are accounted for in every run over a file system whose watches are left to the workspace. Where
no step robs a project, which none does with an absolute base directory, directories count the inferred
projects with a root below them. -/
theorem watchesAccounted_run (settings : Settings) (scanner : Scanner) (fs : FileSystem)
    (ops : List Operation) :
    let start : Workspace := { settings, scanner, fs }
    (fs.watches = {} → start.Avoids ops Meddles → (start.run ops).WatchesAccounted) ∧
    (fs.watches = {} → start.Avoids ops Meddles → start.Avoids ops Robs → (start.run ops).CountsRoots) ∧
    (scanner.normalizer.base.isAbsolute → start.Avoids ops Robs) := by
  intro start
  refine ⟨fun hfs hops => watchesAccounted_of_balanced (balanced_run settings hfs hops),
    fun hfs hops hrobs => ?_, avoids_robs_of_isAbsolute⟩
  exact countsRoots_of_seated (balanced_run settings hfs hops) (waitsAbove_run settings hops)
    (seated_of_avoids_robs hrobs)

/-- The file of a root goes while it is open, and a referenced file is closed. -/
def vanishing : List Operation :=
  let path (names : List String) : Path := ⟨names.map .name⟩
  agreeing ++ [.replaceFiles ((nested.run agreeing).fs.remove (.ofPath (path ["w", "b"]))),
    .fileChanged (path ["b"]) .deleted, .closeFile (path ["w", "a"])]

theorem watchesAccounted_run_vanishing :
    let path (names : List String) : Path := ⟨names.map .name⟩
    let w := nested.run vanishing
    (nested.fs.watches = {} ∧ nested.Avoids vanishing Meddles ∧ nested.Avoids vanishing Robs) ∧
      w.WatchesAccounted ∧ w.CountsRoots ∧
      (w.lookouts.get? (path ["w"])).map (·.users) = some 2 ∧
      w.fs.watches.targets.values.map (·.path.path) = [path ["w", "a"], path ["w"], path ["w", "w", "a"]] := by
  have hfs : nested.fs.watches = {} := by decide +kernel
  have hops : nested.Avoids vanishing Meddles := by decide +kernel
  have hrobs : nested.Avoids vanishing Robs := by decide +kernel
  obtain ⟨haccounted, hcounts, -⟩ := watchesAccounted_run {} nested.scanner nested.fs vanishing
  exact ⟨⟨hfs, hops, hrobs⟩, haccounted hfs hops, hcounts hfs hops hrobs, by decide +kernel, by decide +kernel⟩

/-- A project whose root was given to another one loses that root with its file, and waits on for nobody. -/
example :
    let path (names : List String) : Path := ⟨names.map .name⟩
    let start : Workspace :=
      { settings := {}
        scanner := ⟨.empty, ⟨path ["w"], true⟩⟩
        fs := FileSystem.ofFiles [(path ["w", "a"], []), (path ["w", "w", "a"], [])] }
    let w := start.run [.openFile (path ["a"]) none, .openFile (path ["w", "a"]) none,
      .adoptProjectFor (path ["a"]), .closeFile (path ["a"]), .closeFile (path ["w", "a"]),
      .fileChanged (path ["a"]) .deleted]
    (w.lookouts.get? (path ["w"])).map (·.users) = some 1 ∧ w.projects.values.map (·.roots) = [[]] := by
  decide +kernel

end Workspace

end ProjectTracker
