import ProjectTracker.Proofs.Workspace.Enduring
import ProjectTracker.Proofs.Workspace.Grounding
import ProjectTracker.Proofs.Workspace.Pervading
/-!
A project that is made what its manifest defines now is what a new project of the manifest would be. It gives up roots
and takes others over one by one; the documents that lose their place by that are attached again, and none of it
changes the project any more.
-/

namespace ProjectTracker

/-- Only those roots matter that can be read. -/
theorem Scanner.Reaches.of_roots {s : Scanner} {S : Sources} {roots roots' : List Path} {p : Path}
    (h : ∀ q ∈ roots, (S.text? q).isSome → q ∈ roots') (hp : s.Reaches S roots p) :
    s.Reaches S roots' p := by
  induction hp with
  | root hp hread => exact .root (h _ hp hread) hread
  | link _ hp hread ih => exact ih.link hp hread

namespace Registry

variable {t : Terms} {r : Registry} {loose guests : List Path} {root : Path} {id i : ProjectId}
  {property : ProjectKind → List Path → Prop} {listed listed' : Path → Prop}

/-- A live configured project has just the roots that are listed. -/
abbrev HasRoots (r : Registry) (id : ProjectId) (listed : Path → Prop) : Prop :=
  r.Has id fun kind roots => kind ≠ .inferred ∧ ∀ q, q ∈ roots ↔ listed q

theorem HasRoots.congr (h : r.HasRoots id listed) (hlisted : ∀ q, listed q ↔ listed' q) :
    r.HasRoots id listed' :=
  h.imp fun _ _ hroots => ⟨hroots.1, fun q => (hroots.2 q).trans (hlisted q)⟩

theorem HasRoots.modifyRoots (h : r.HasRoots id listed) (change : Path → Prop → Prop)
    {f : List Path → List Path} (hf : ∀ roots q, q ∈ f roots ↔ change q (q ∈ roots)) :
    (r.modifyRoots id f).HasRoots id fun q => change q (listed q) := by
  obtain ⟨c, hc, hkind, hroots⟩ := h
  refine ⟨{ c with roots := f c.roots }, by simp [Registry.modifyRoots, hc], hkind, fun q => ?_⟩
  rw [hf, hroots]

/-- A configured project stays as a root goes from an inferred one to another. -/
theorem Has.takeOver (h : r.Has id property) (hsound : Sound t r loose [] guests) (ht : t.live)
    (hkind : ∀ kind roots, property kind roots → kind ≠ .inferred) (i : ProjectId) (root : Path) :
    (r.takeOver i root).1.Has id property := by
  have hlifted : (r.modifyOpenFiles (·.removeRoot root)).Has id property := h
  have hevicted := hlifted.evict (hsound.rootOwner?_ne ht (h.imp hkind) root)
  have hshrunk : (((r.modifyOpenFiles (·.removeRoot root)).evict
      (r.rootOwner? root)).1.modifyOpenFiles
        fun o => (o.removeReferenced root).removeConfiguredRoot root).Has id property := hevicted
  exact hshrunk.setOwner root (some i)

end Registry

namespace Workspace

open Registry

variable {t : Terms} {w w' w'' : Workspace} {state : Workspace × List Path} {guests : List Path}
  {p root : Path} {first id : ProjectId} {project : Project} {outcome : Manifest.Outcome}
  {listed : Path → Prop}

/-! ### Roots that come and go -/

theorem hasRoots_dropRoot (h : state.1.registry.HasRoots id listed) (root : Path) :
    (dropRoot id state root).1.registry.HasRoots id fun q => listed q ∧ q ≠ root := by
  have hdropped : (state.1.modifyProject id (·.removeRoot root)).registry.HasRoots id
      fun q => listed q ∧ q ≠ root := by
    rw [registry_removeRoot]
    exact h.modifyRoots (fun q listed => listed ∧ q ≠ root) fun roots q => by
      rw [List.mem_filter, decide_eq_true_iff]
  unfold dropRoot
  dsimp only
  split
  · rw [registry_setOwner (.inr rfl)]
    have hunlisted : ((state.1.modifyProject id (·.removeRoot root)).registry.modifyOpenFiles
        (·.removeConfiguredRoot root)).HasRoots id fun q => listed q ∧ q ≠ root := hdropped
    exact hunlisted.setOwner root none
  · exact hdropped

theorem hasRoots_foldl_dropRoot (h : state.1.registry.HasRoots id listed) (roots : List Path) :
    (roots.foldl (dropRoot id) state).1.registry.HasRoots id fun q => listed q ∧ q ∉ roots := by
  induction roots generalizing state listed with
  | nil => exact h.congr fun q => by simp
  | cons root roots ih =>
      refine (ih (hasRoots_dropRoot h root)).congr fun q => ?_
      rw [List.mem_cons, not_or, and_assoc]

/-- A root is gained if it can be read. -/
theorem hasRoots_gainRoot (ht : t.live) (hsound : Updating t guests id state)
    (h : state.1.registry.HasRoots id listed) (root : Path) :
    (gainRoot id state root).1.registry.HasRoots id
      fun q => listed q ∨ q = root ∧ (state.1.texts root).isSome := by
  have htexts : (state.1.load root).isTracked root ↔ (state.1.texts root).isSome := by
    refine ⟨fun htracked => ?_, isTracked_load⟩
    rw [← (calm_load state.1 root).texts]
    exact isSome_texts htracked
  unfold gainRoot
  dsimp only
  split
  · rename_i htracked
    have hread := htexts.mp htracked
    have hadded : ((state.1.load root).modifyProject id (·.addRoot root)).registry.HasRoots id
        fun q => listed q ∨ q = root ∧ (state.1.texts root).isSome := by
      rw [registry_addRoot, registry_load]
      have hgained := h.modifyRoots (fun q listed => q = root ∨ listed) fun _ _ => mem_addTo
      exact hgained.congr fun q => by rw [or_comm, and_iff_left hread]
    split
    · rename_i hopen
      have hsound' : Sound t ((state.1.load root).modifyProject id (·.addRoot root)).registry
          (state.2 ++ []) [] guests := by
        rw [registry_addRoot, registry_load]
        exact hsound.sound.modifyRoots ..
      rw [(takeOver_eq id state.2 hopen).1]
      exact hadded.takeOver hsound' ht (fun _ _ hproperty => hproperty.1) id root
    · exact hadded
  · rename_i huntracked
    rw [registry_load]
    exact h.congr fun q => (or_iff_left fun hq => huntracked (htexts.mpr hq.2)).symm

theorem hasRoots_foldl_gainRoot (ht : t.live) (hsound : Updating t guests id state)
    (h : state.1.registry.HasRoots id listed) (roots : List Path) :
    (roots.foldl (gainRoot id) state).1.registry.HasRoots id
      fun q => listed q ∨ q ∈ roots ∧ (state.1.texts q).isSome := by
  induction roots generalizing state listed guests with
  | nil => exact h.congr fun q => by simp
  | cons root roots ih =>
      have htexts : (gainRoot id state root).1.texts = state.1.texts :=
        (shifts_gainRoot id state root).quiet.texts
      refine (ih (gainRoot_sound hsound root) (hasRoots_gainRoot ht hsound h root)).congr fun q => ?_
      rw [htexts, List.mem_cons]
      constructor
      · rintro ((hlisted | ⟨rfl, hread⟩) | ⟨hq, hread⟩)
        · exact .inl hlisted
        · exact .inr ⟨.inl rfl, hread⟩
        · exact .inr ⟨.inr hq, hread⟩
      · rintro (hlisted | ⟨rfl | hq, hread⟩)
        · exact .inl (.inl hlisted)
        · exact .inl (.inr ⟨rfl, hread⟩)
        · exact .inr ⟨hq, hread⟩

/-! ### Settings -/

theorem projects_foldl {α : Type} {step : Workspace → α → Workspace}
    (h : ∀ w x, (step w x).projects = w.projects) (xs : List α) (w : Workspace) :
    (xs.foldl step w).projects = w.projects := by
  induction xs generalizing w with
  | nil => rfl
  | cons x xs ih => exact (ih _).trans (h w x)

theorem projects_load (w : Workspace) (p : Path) : (w.load p).projects = w.projects := by
  unfold load
  split
  · rfl
  · split <;> rfl

theorem get?_refreshProject (h : w.projects.get? id = some project) :
    (w.refreshProject id).projects.get? id =
      some (project.refresh (w.scanner.fileSet w.sources project.roots)) := by
  unfold refreshProject
  rw [h]
  dsimp only
  have hfold (w : Workspace) (p : Path) : (w.fold p).projects = w.projects := rfl
  rw [projects_foldl projects_load, projects_foldl hfold]
  simp [modifyProject, Table.get?_modify, h]

/-- Projects that live on have the settings that they had. -/
structure KeepsSettings (w w' : Workspace) : Prop where
  le : w.lastProject ≤ w'.lastProject
  settings : ∀ id project', id ≤ w.lastProject → w'.projects.get? id = some project' →
    ∃ project, w.projects.get? id = some project ∧ project'.settings = project.settings

namespace KeepsSettings

theorem of_projects (hlast : w'.lastProject = w.lastProject) (hprojects : w'.projects = w.projects) :
    KeepsSettings w w' :=
  ⟨Nat.le_of_eq hlast.symm, fun _ project _ hproject => ⟨project, hprojects ▸ hproject, rfl⟩⟩

theorem refl (w : Workspace) : KeepsSettings w w :=
  .of_projects rfl rfl

theorem trans (h : KeepsSettings w w') (h' : KeepsSettings w' w'') : KeepsSettings w w'' := by
  refine ⟨Nat.le_trans h.le h'.le, fun id project hid hproject => ?_⟩
  obtain ⟨project', hproject', hsettings⟩ := h'.settings id project (Nat.le_trans hid h.le) hproject
  obtain ⟨former, hformer, hsettings'⟩ := h.settings id project' hid hproject'
  exact ⟨former, hformer, hsettings.trans hsettings'⟩

theorem modifyProject (w : Workspace) (i : ProjectId) {f : Project → Project}
    (hf : ∀ project, (f project).settings = project.settings) : KeepsSettings w (w.modifyProject i f) := by
  refine ⟨Nat.le_refl _, fun id project _ hproject => ?_⟩
  have hget : (w.projects.modify i f).get? id = some project := hproject
  rw [Table.get?_modify] at hget
  split at hget
  · obtain ⟨former, hformer, rfl⟩ := Option.map_eq_some_iff.mp hget
    exact ⟨former, hformer, hf former⟩
  · exact ⟨project, hget, rfl⟩

theorem setOwner (w : Workspace) (p : Path) (owner? : Option ProjectId) :
    KeepsSettings w (w.setOwner p owner?) := by
  have hcountOut (w : Workspace) (id : ProjectId) : KeepsSettings w (w.countOut id) :=
    (modifyProject w id (f := Project.removeOpen) fun _ => rfl).trans (.of_projects rfl rfl)
  have hcountIn (w : Workspace) (id : ProjectId) : KeepsSettings w (w.countIn id) :=
    modifyProject w id (f := Project.addOpen) fun _ => rfl
  unfold Workspace.setOwner
  split
  · exact .refl w
  · rename_i d hd
    split
    · exact .refl w
    · have hcounted : KeepsSettings w (if d.isOpen then
          let w := d.owner?.elim w w.countOut
          owner?.elim w w.countIn
        else w) := by
        split
        · have hout : KeepsSettings w (d.owner?.elim w w.countOut) := by
            cases d.owner? with
            | none => exact .refl w
            | some id => exact hcountOut w id
          refine hout.trans ?_
          cases owner? with
          | none => exact .refl _
          | some id => exact hcountIn _ id
        · exact .refl w
      exact hcounted.trans (.of_projects rfl rfl)

theorem foldl {α : Type} {step : Workspace → α → Workspace} (h : ∀ w x, KeepsSettings w (step w x))
    (xs : List α) (w : Workspace) : KeepsSettings w (xs.foldl step w) := by
  induction xs generalizing w with
  | nil => exact .refl w
  | cons x xs ih => exact (h w x).trans (ih _)

theorem refreshProject (w : Workspace) (id : ProjectId) : KeepsSettings w (w.refreshProject id) := by
  have hload (w : Workspace) (p : Path) : KeepsSettings w (w.load p) :=
    .of_projects (congrArg Registry.lastProject (registry_load w p)) (projects_load w p)
  unfold Workspace.refreshProject
  split
  · exact .refl w
  · rename_i project _
    dsimp only
    generalize w.scanner.fileSet w.sources project.roots = files
    have hmodified : KeepsSettings w (w.modifyProject id (·.refresh files)) :=
      modifyProject w id fun _ => rfl
    have hfold (w : Workspace) (p : Path) : KeepsSettings w (w.fold p) := .of_projects rfl rfl
    exact (hmodified.trans (foldl hfold files _)).trans (foldl hload files _)

theorem removeProject (w : Workspace) (id : ProjectId) : KeepsSettings w (w.removeProject id).1 := by
  have hrelease (w : Workspace) (id : WatchId) : KeepsSettings w (w.releaseWatch id) :=
    .of_projects rfl rfl
  have hleave (w : Workspace) (dir : Path) : KeepsSettings w (w.leaveLookout dir) := by
    unfold leaveLookout
    split
    · exact .refl w
    · split <;> exact .of_projects rfl rfl
  have hdetach (w : Workspace) (p : Path) : KeepsSettings w (w.detach p) :=
    (KeepsSettings.of_projects rfl rfl : KeepsSettings w (w.modifyOpenFiles (·.remove p))).trans
      (setOwner ..)
  unfold Workspace.removeProject
  split
  · exact .refl w
  · rename_i project _
    dsimp only
    have hreleased := (foldl hrelease project.watches w).trans (foldl hleave project.lookouts _)
    generalize List.foldl leaveLookout (List.foldl releaseWatch w _) _ = released at hreleased ⊢
    have hgone : KeepsSettings released (({ released with
        projects := released.projects.erase id
        inferred := released.inferred.filter (· ≠ id)
        configured := released.configured.filter (· ≠ id) } : Workspace).cancel (.project id)) := by
      refine ⟨Nat.le_refl _, fun i project _ hproject => ⟨project, ?_, rfl⟩⟩
      have hget : (released.projects.erase id).get? i = some project := hproject
      rw [Table.get?_erase] at hget
      split at hget
      · simp at hget
      · exact hget
    exact ((hreleased.trans hgone).trans (foldl hdetach _ _)).trans (.of_projects rfl rfl)

theorem createInferred (w : Workspace) (root : Path) : KeepsSettings w (w.createInferred root).1 := by
  have hjoin (w : Workspace) (dir : Path) : KeepsSettings w (w.joinLookout dir) := by
    unfold joinLookout
    split <;> exact .of_projects rfl rfl
  have henter (w : Workspace) (project : Project) : KeepsSettings w (w.enter project) := by
    refine ⟨Nat.le_succ _, fun i project' hi hproject => ⟨project', ?_, rfl⟩⟩
    have hget : (w.projects.insert (w.lastProject + 1) project).get? i = some project' := hproject
    have hne : w.lastProject + 1 ≠ i := fun heq => Nat.not_succ_le_self _ (heq ▸ hi)
    rwa [Table.get?_insert, if_neg hne] at hget
  rw [createInferred_enter]
  exact ((foldl hjoin root.ancestors w).trans (henter ..)).trans (refreshProject ..)

end KeepsSettings

theorem assigns_keepsSettings : Assigns KeepsSettings where
  refl := .refl
  trans := .trans
  emit _ _ := .of_projects rfl rfl
  modifyOpenFiles _ _ := .of_projects rfl rfl
  setOwner := .setOwner
  refreshProject := .refreshProject
  removeProject := .removeProject
  createInferred := .createInferred

/-! ### Renewing a project -/

theorem isSome_texts_iff : (w.texts p).isSome ↔ w.isTracked p ∨ (w.fs.text? p).isSome := by
  rw [isTracked_eq, texts_eq]
  cases w.documents.get? p <;> simp

/-- A project is what an outcome defines: its roots are the listed files that could be read, and its files are those
that its roots lead to. -/
structure Follows (w after : Workspace) (outcome : Manifest.Outcome) (project : Project) : Prop where
  isStale : project.isStale = false
  settings : project.settings = outcome.settings
  roots : ∀ root, root ∈ project.roots ↔
    root ∈ outcome.roots ∧ (w.isTracked root ∨ (w.fs.text? root).isSome)
  files : project.files = after.scanner.fileSet after.sources project.roots

section

variable (hsound : Sound t w.registry [] [] []) (hproject : w.projects.get? id = some project)
  (hkind : project.kind ≠ .inferred)

include hsound hproject hkind

theorem updating_start : Updating t [] id (w, []) := by
  have hconfigured : w.registry.IsConfigured id := ⟨project.charter, by simp [registry, hproject], hkind⟩
  exact ⟨hsound, hsound.live_le id hconfigured.isLive, fun _ => hconfigured⟩

theorem renew_sound (outcome : Manifest.Outcome) :
    let renewed := w.renew id project outcome
    Sound t renewed.1.registry (renewed.2 ++ []) [] [] := by
  have hdropped := foldl_dropRoot_sound (updating_start hsound hproject hkind)
    (project.roots.filter fun root => root ∉ outcome.roots)
  have hgained := foldl_gainRoot_sound hdropped (outcome.roots.filter fun root => root ∉ project.roots)
  unfold renew
  dsimp only
  rw [registry_renewed]
  exact hgained.sound

theorem renew_seated (ht : t.live) (h : Seated w.registry none []) (outcome : Manifest.Outcome) :
    Seated (w.renew id project outcome).1.registry none [] := by
  have hstart := updating_start hsound hproject hkind
  have hdropped := foldl_dropRoot_sound hstart
    (project.roots.filter fun root => root ∉ outcome.roots)
  unfold renew
  dsimp only
  rw [registry_renewed]
  exact foldl_gainRoot_seated ht hdropped (foldl_dropRoot_seated ht hstart h _) _

/-- Giving up roots and taking over others leaves the listed ones that can be read. -/
theorem hasRoots_exchanged (ht : t.live) (hgrounded : Grounded True w) (outcome : Manifest.Outcome) :
    ((outcome.roots.filter fun root => root ∉ project.roots).foldl (gainRoot id)
      ((project.roots.filter fun root => root ∉ outcome.roots).foldl (dropRoot id)
        (w, []))).1.registry.HasRoots id fun root => root ∈ outcome.roots ∧ (w.texts root).isSome := by
  have hstart : (w, ([] : List Path)).1.registry.HasRoots id (· ∈ project.roots) :=
    ⟨project.charter, by simp [registry, hproject], hkind, fun _ => .rfl⟩
  have hdropped := hasRoots_foldl_dropRoot hstart (project.roots.filter fun root => root ∉ outcome.roots)
  have hupdating := foldl_dropRoot_sound (updating_start hsound hproject hkind)
    (project.roots.filter fun root => root ∉ outcome.roots)
  have htexts := (shifts_foldl_pair (shifts_dropRoot id)
    (project.roots.filter fun root => root ∉ outcome.roots) (w, [])).quiet.texts
  refine (hasRoots_foldl_gainRoot ht hupdating hdropped _).congr fun root => ?_
  have hold : root ∈ project.roots → (w.texts root).isSome := fun hroot =>
    isSome_texts (hgrounded.roots id project.holding (by simp [holding?, hproject]) root hroot)
  rw [htexts]
  simp only [List.mem_filter, decide_eq_true_eq]
  tauto

theorem follows_renew (ht : t.live) (hgrounded : Grounded True w) (outcome : Manifest.Outcome) :
    let renewed := (w.renew id project outcome).1
    ∃ project', renewed.projects.get? id = some project' ∧ project'.kind ≠ .inferred ∧
      Follows w renewed outcome project' := by
  have hexchanged := hasRoots_exchanged hsound hproject hkind ht hgrounded outcome
  have hexchanging := (shifts_foldl_pair (shifts_dropRoot id)
    (project.roots.filter fun root => root ∉ outcome.roots) (w, [])).trans
      (shifts_foldl_pair (shifts_gainRoot id) (outcome.roots.filter fun root => root ∉ project.roots) _)
  unfold renew
  dsimp only
  generalize List.foldl (gainRoot id) _ _ = exchanged at hexchanged hexchanging ⊢
  obtain ⟨c, hc, hkind', hroots⟩ := hexchanged
  obtain ⟨held, hget, rfl⟩ := Option.map_eq_some_iff.mp hc
  generalize hmodified : (exchanged.1.modifyProject id fun project =>
    { project with settings := outcome.settings, isStale := true }) = modified
  have hget' : modified.projects.get? id =
      some { held with settings := outcome.settings, isStale := true } := by
    subst hmodified
    simp [modifyProject, Table.get?_modify, hget]
  have hmodifying : Shifts w modified := by
    subst hmodified
    exact hexchanging.trans (.amend fun project _ => ⟨rfl, rfl, .inr ⟨rfl, fun p hp => .inl hp⟩⟩)
  have htracked : ∀ q ∈ held.roots, modified.isTracked q :=
    (hgrounded.shifts hmodifying).roots id _ (by rw [holding?, hget']; rfl)
  refine ⟨_, get?_refreshProject hget', hkind', rfl, rfl, fun root => ?_, ?_⟩
  · rw [← isSome_texts_iff]
    exact hroots root
  · exact (fileSet_of_quiet (refreshProject_contents modified id).1 htracked).symm

end

theorem isTracked_foldl_load {ps : List Path} (hp : p ∈ ps) (h : (w.texts p).isSome) :
    (ps.foldl load w).isTracked p := by
  induction ps generalizing w with
  | nil => simp at hp
  | cons q ps ih =>
      rw [List.foldl_cons]
      rcases List.mem_cons.mp hp with rfl | hp
      · exact (Calm.foldl calm_load ps _).tracked p (isTracked_load h)
      · refine ih hp ?_
        rw [(calm_load w q).texts]
        exact h

/-- A new project of a manifest is what the manifest defines. -/
theorem follows_createConfigured (w : Workspace) (manifest : Path) (hdefines : outcome.definesProject) :
    let created := w.createConfigured manifest outcome
    ∃ project, created.projects.get? (w.lastProject + 1) = some project ∧
      project.kind = .configured manifest ∧ Follows w created outcome project := by
  have hloaded : Calm w (outcome.roots.foldl load w) := .foldl calm_load _ w
  have hread (q : Path) (hq : q ∈ outcome.roots) :
      (outcome.roots.foldl load w).isTracked q ↔ (w.texts q).isSome := by
    refine ⟨fun htracked => ?_, isTracked_foldl_load hq⟩
    rw [← hloaded.texts]
    exact isSome_texts htracked
  intro created
  have hcreated : created = _ := createConfigured_enter w manifest hdefines
  generalize outcome.roots.foldl load w = loaded at hloaded hread hcreated
  have hlast : loaded.lastProject = w.lastProject := congrArg Roster.lastProject hloaded.roster
  obtain ⟨project, hproject, hkind, hroots, hsettings⟩ : ∃ project,
      (loaded.enterConfigured manifest (outcome.roots.filter loaded.isTracked)
        outcome.settings).projects.get? (w.lastProject + 1) = some project ∧
      project.kind = .configured manifest ∧ project.roots = outcome.roots.filter loaded.isTracked ∧
        project.settings = outcome.settings := by
    rw [← hlast]
    unfold enterConfigured
    cases manifest.parent? <;> exact ⟨_, (Table.get?_insert ..).trans (if_pos rfl), rfl, rfl, rfl⟩
  have htracked : ∀ q ∈ project.roots, (loaded.enterConfigured manifest
      (outcome.roots.filter loaded.isTracked) outcome.settings).isTracked q := fun q hq => by
    rw [hroots] at hq
    unfold enterConfigured
    cases manifest.parent? <;> exact (List.mem_filter.mp hq).2
  generalize loaded.enterConfigured manifest _ _ = entered at hproject htracked hcreated
  rw [hcreated]
  refine ⟨_, get?_refreshProject hproject, hkind, rfl, hsettings, fun root => ?_, ?_⟩
  · rw [← isSome_texts_iff]
    show root ∈ project.roots ↔ _
    rw [hroots, List.mem_filter]
    exact and_congr_right (hread root)
  · exact (fileSet_of_quiet (refreshProject_contents entered _).1 htracked).symm

/-! ### Documents that lose their place -/

theorem owner?_dropRoot_of_none (h : state.1.owner? p = none) (root : Path) :
    (dropRoot id state root).1.owner? p = none := by
  unfold dropRoot
  dsimp only
  split
  · rw [← registry_owner?, registry_setOwner (.inr rfl), setOwner_owner?]
    split
    · rfl
    · exact h
  · exact h

theorem owner?_foldl_dropRoot_of_none (h : state.1.owner? p = none) (roots : List Path) :
    (roots.foldl (dropRoot id) state).1.owner? p = none := by
  induction roots generalizing state with
  | nil => exact h
  | cons root roots ih => exact ih (owner?_dropRoot_of_none h root)

/-- A document that belongs to the project as one of its roots loses it with the root. -/
theorem owner?_foldl_dropRoot {roots : List Path} (hp : p ∈ roots) (howner : state.1.owner? p = some id)
    (hlisted : p ∈ state.1.openFiles.configuredRoots) :
    (roots.foldl (dropRoot id) state).1.owner? p = none := by
  induction roots generalizing state with
  | nil => simp at hp
  | cons root roots ih =>
      rw [List.foldl_cons]
      by_cases hroot : root = p
      · subst hroot
        refine owner?_foldl_dropRoot_of_none ?_ roots
        unfold dropRoot
        dsimp only
        rw [if_pos ⟨howner, hlisted⟩, ← registry_owner?, registry_setOwner (.inr rfl), setOwner_owner?,
          if_pos rfl]
      · have hkept : (dropRoot id state root).1.owner? p = some id ∧
            p ∈ (dropRoot id state root).1.openFiles.configuredRoots := by
          unfold dropRoot
          dsimp only
          split
          · rw [← registry_owner?, ← registry_openFiles, registry_setOwner (.inr rfl), setOwner_owner?,
              if_neg (Ne.symm hroot)]
            exact ⟨howner, (List.mem_erase_of_ne (Ne.symm hroot)).mpr hlisted⟩
          · exact ⟨howner, hlisted⟩
        exact ih ((List.mem_cons.mp hp).resolve_left (Ne.symm hroot)) hkept.1 hkept.2

/-- Only the roots that are gained come to the project. -/
theorem owner?_foldl_gainRoot {roots : List Path} (hp : p ∉ roots) (h : state.1.owner? p = none) :
    (roots.foldl (gainRoot id) state).1.owner? p = none := by
  induction roots generalizing state with
  | nil => exact h
  | cons root roots ih =>
      refine ih (fun hmem => hp (List.mem_cons_of_mem root hmem)) ?_
      have hroot : p ≠ root := fun heq => hp (by simp [heq])
      rcases gainRoot_cases id state root with ⟨-, -, hregistry | hregistry⟩ | ⟨-, hregistry, -⟩
      · rw [← registry_owner?, hregistry]
        exact h
      · rw [← registry_owner?, hregistry]
        exact h
      · rw [← registry_owner?, hregistry]
        show (if p = root then some id else _) = none
        rw [if_neg hroot]
        show (Registry.evict _ _).1.owner? p = none
        rw [owner?_evict]
        split
        · rfl
        · exact h

theorem owner?_renew (howner : w.owner? p = some id) (hlisted : p ∈ w.openFiles.configuredRoots)
    (hroot : p ∈ project.roots) (hgone : p ∉ outcome.roots) :
    (w.renew id project outcome).1.owner? p = none := by
  have hmem : p ∈ project.roots.filter fun root => root ∉ outcome.roots :=
    List.mem_filter.mpr ⟨hroot, decide_eq_true hgone⟩
  have hnew : p ∉ outcome.roots.filter fun root => root ∉ project.roots := fun hmem =>
    hgone (List.mem_filter.mp hmem).1
  have hdropped : ((project.roots.filter fun root => root ∉ outcome.roots).foldl (dropRoot id)
      (w, [])).1.owner? p = none :=
    owner?_foldl_dropRoot hmem howner hlisted
  unfold renew
  dsimp only
  rw [← registry_owner?, registry_renewed]
  exact owner?_foldl_gainRoot hnew hdropped

/-! ### Runs -/

theorem applyManifest_eq_reattach (hproject : w.projects.get? id = some project)
    (hdefines : outcome.definesProject) : w.applyManifest id outcome =
      (w.renew id project outcome).1.reattach (w.renew id project outcome).2 := by
  unfold applyManifest
  rw [hproject]
  exact if_pos hdefines

/-- The files of a project are all that the listed files lead to. -/
theorem Follows.mem_files {after : Workspace} (h : Follows w after outcome project) (hquiet : Quiet w after)
    (htracked : ∀ q ∈ project.roots, after.isTracked q) :
    p ∈ project.files ↔ w.scanner.Reaches w.sources outcome.roots p := by
  have htexts : after.sources.text? = w.sources.text? := hquiet.texts
  rw [h.files, Scanner.mem_fileSet_iff (covers_sources after) fun q hq => .inl (htracked q hq),
    hquiet.scanner]
  constructor
  · intro hp
    exact (hp.congr htexts.symm).of_roots fun q hq _ => ((h.roots q).mp hq).1
  · intro hp
    exact (hp.of_roots fun q hq hread => (h.roots q).mpr ⟨hq, isSome_texts_iff.mp hread⟩).congr htexts

section

variable {n : Normalizer} (h : Tended n w) (hproject : w.projects.get? id = some project)
  (hkind : project.kind ≠ .inferred) (hdefines : outcome.definesProject)

include h hproject hkind hdefines

/-- What attaching documents keeps is still so once a project follows its manifest. -/
theorem applyManifest_endures {property : Workspace → Prop} (hendures : Endures (.owning n) [] property)
    (hrenewed : property (w.renew id project outcome).1) : property (w.applyManifest id outcome) := by
  have hsound := renew_sound h.sound hproject hkind outcome
  have hseated := renew_seated h.sound hproject hkind trivial h.seated outcome
  have hplanted : Planted 0 [] (w.renew id project outcome).1.registry := hseated.planted 0 hsound
  rw [applyManifest_eq_reattach hproject hdefines]
  exact reattach_endures hendures hplanted (h.steady.enlisted.shifts (shifts_renew ..)) hsound hrenewed

theorem follows_applyManifest (hgrounded : Grounded True w) :
    let after := w.applyManifest id outcome
    ∃ project, after.projects.get? id = some project ∧ Follows w after outcome project := by
  obtain ⟨renewed, hget, hkind', hfollows⟩ := follows_renew h.sound hproject hkind trivial hgrounded outcome
  have hendures : Endures (.owning n) [] (·.Holds id (· = renewed.holding)) :=
    endures_holds trivial [] id (fun _ hheld => hheld ▸ hkind') fun held files hheld hstale => by
      subst hheld
      exact absurd (hfollows.isStale.symm.trans hstale) (by simp)
  obtain ⟨held, hheld, rfl⟩ := applyManifest_endures h hproject hkind hdefines hendures
    ⟨renewed.holding, by simp [holding?, hget], rfl⟩
  obtain ⟨after, hafter, hsame⟩ := Option.map_eq_some_iff.mp hheld
  have hreattached := shifts_reattach (w.renew id project outcome).1 (w.renew id project outcome).2
  have hlive : (w.renew id project outcome).1.registry.IsLive id := by simp [IsLive, registry, hget]
  have hkept := assigns_keepsSettings.reattach (w.renew id project outcome).1
    (w.renew id project outcome).2
  rw [← applyManifest_eq_reattach hproject hdefines] at hreattached hkept
  obtain ⟨former, hformer, hsettings⟩ := hkept.settings id after
    ((renew_sound h.sound hproject hkind outcome).live_le id hlive) hafter
  obtain rfl : renewed = former := Option.some.inj (hget.symm.trans hformer)
  have hroots : after.roots = renewed.roots := congrArg Holding.roots hsame
  have hfiles : after.files = renewed.files := congrArg Holding.files hsame
  have htracked : ∀ q ∈ renewed.roots, (w.renew id project outcome).1.isTracked q :=
    (hgrounded.shifts (shifts_renew ..)).roots id renewed.holding (by simp [holding?, hget])
  refine ⟨after, hafter, (congrArg Holding.isStale hsame).trans hfollows.isStale,
    hsettings.trans hfollows.settings, hroots ▸ hfollows.roots, ?_⟩
  rw [hroots, hfiles, fileSet_of_quiet hreattached.quiet htracked]
  exact hfollows.files

/-- A document whose project gives it up as a root is in a live project again. -/
theorem contains_applyManifest (howner : w.owner? p = some id)
    (hlisted : p ∈ w.openFiles.configuredRoots) (hroot : p ∈ project.roots) (hgone : p ∉ outcome.roots) :
    let after := w.applyManifest id outcome
    ∃ i holder, after.owner? p = some i ∧ after.projects.get? i = some holder ∧ holder.contains p := by
  intro after
  have hconfigured : w.registry.IsConfigured id := ⟨project.charter, by simp [registry, hproject], hkind⟩
  have hsound : Sound (.owning n) after.registry [] [] [] :=
    applyManifest_sound h.sound outcome fun _ _ => hconfigured
  have hid : w.NotInferred id :=
    notInferred_of_mem_configured h.steady.enlisted
      (h.sound.configured trivial id project.charter (by simp [registry, hproject]) hkind)
  have hproceeds : Proceeds False (fun _ => True) w after :=
    leads_applyManifest hid outcome ⟨h.steady.enlisted, False.elim⟩
  have hopen : after.isOpen p := by
    rw [hproceeds.isOpen]
    exact h.sound.owned_open p (by simp [howner])
  have hhomed : after.Homed p := applyManifest_endures h hproject hkind hdefines
    (endures_homed trivial [] p) (.inl (owner?_renew howner hlisted hroot hgone))
  rcases hhomed with hnone | ⟨-, i, held, hi, hheld, hcontains⟩
  · rcases hsound.unowned p hopen hnone with hp | hp | hp <;> cases hp
  · obtain ⟨holder, hholder, rfl⟩ := Option.map_eq_some_iff.mp hheld
    exact ⟨i, holder, hi, hholder, Project.contains_iff.mpr hcontains⟩

end

/-- Where no step of a run robs a project, a configured project that is given an outcome becomes what a new project
with that outcome would be, and its former roots come to other projects. With an absolute base directory no step
does. -/
theorem renewal_run (settings : Settings) (scanner : Scanner) (fs : FileSystem) (ops : List Operation) :
    let start : Workspace := { settings, scanner, fs }
    let w := start.run ops
    (start.Avoids ops Robs → ∀ id former outcome, w.projects.get? id = some former →
      former.kind ≠ .inferred → outcome.definesProject →
        let after := w.applyManifest id outcome
        (∃ project, after.projects.get? id = some project ∧ Follows w after outcome project ∧
          ∀ manifest, let afresh := w.createConfigured manifest outcome
            ∃ created, afresh.projects.get? (w.lastProject + 1) = some created ∧
              Follows w afresh outcome created ∧ ∀ p, p ∈ project.files ↔ p ∈ created.files) ∧
        ∀ p ∈ w.openFiles.configuredRoots, w.owner? p = some id → p ∈ former.roots →
          p ∉ outcome.roots → ∃ i holder, after.owner? p = some i ∧
            after.projects.get? i = some holder ∧ holder.contains p) ∧
      (scanner.normalizer.base.isAbsolute → start.Avoids ops Robs) := by
  intro start w
  refine ⟨fun hrobs id former outcome hformer hkind hdefines => ?_, avoids_robs_of_isAbsolute⟩
  have htended : Tended scanner.normalizer w := tended_run settings hrobs
  have hgrounded : Grounded True w := grounded_run settings scanner fs ops
  intro after
  refine ⟨?_, fun p hlisted howner hroot hgone =>
    contains_applyManifest htended hformer hkind hdefines howner hlisted hroot hgone⟩
  obtain ⟨project, hproject, hfollows⟩ :=
    follows_applyManifest htended hformer hkind hdefines hgrounded
  refine ⟨project, hproject, hfollows, fun manifest => ?_⟩
  obtain ⟨created, hcreated, -, hfollows'⟩ := follows_createConfigured w manifest hdefines
  have hsteps := shifts_applyManifest w id outcome
  have hsteps' := shifts_createConfigured w manifest outcome
  refine ⟨created, hcreated, hfollows', fun p => ?_⟩
  rw [hfollows.mem_files hsteps.quiet ((hgrounded.shifts hsteps).roots id project.holding (by
      simp [holding?, hproject])),
    hfollows'.mem_files hsteps'.quiet ((hgrounded.shifts hsteps').roots (w.lastProject + 1) created.holding (by
      simp [holding?, hcreated]))]

/-- A manifest lists one of two files. -/
def listing : Workspace :=
  let path (names : List String) : Path := ⟨names.map .name⟩
  { settings := {}
    scanner := ⟨.empty, ⟨path ["w"], true⟩⟩
    fs := FileSystem.ofFiles
      [(path ["w", "a"], []), (path ["w", "w", "a"], []), (path ["w", "w", "project.toml"], []),
        (path ["w", "w", "w", "project.toml"], "files = ['../../a']".toList)] }

/-- Both files are opened, and the one that is listed is asked for. -/
def consulting : List Operation :=
  let path (names : List String) : Path := ⟨names.map .name⟩
  [.openFile (path ["a"]) none, .openFile (path ["w", "a"]) none, .adoptProjectFor (path ["w", "a"])]

/-- The project comes to list the other file in the place of its own, and one that is missing. -/
theorem renewal_run_consulting :
    let path (names : List String) : Path := ⟨names.map .name⟩
    let w := listing.run consulting
    let outcome : Manifest.Outcome := { roots := [path ["w", "a"], path ["w", "b"]] }
    let after := w.applyManifest 2 outcome
    listing.Avoids consulting Robs ∧ w.openFiles.configuredRoots = [path ["w", "w", "a"]] ∧
      (∃ project, after.projects.get? 2 = some project ∧ Follows w after outcome project) ∧
      (∃ i holder, after.owner? (path ["w", "w", "a"]) = some i ∧ after.projects.get? i = some holder ∧
        holder.contains (path ["w", "w", "a"])) ∧
      (after.projects.get? 2).map (·.roots) = some [path ["w", "a"]] ∧ after.inferred = [3] := by
  intro path w outcome after
  have hrobs : listing.Avoids consulting Robs := by decide +kernel
  have hlive : (w.projects.get? 2).any fun former =>
      former.kind ≠ .inferred ∧ path ["w", "w", "a"] ∈ former.roots := by decide +kernel
  obtain ⟨former, hformer, hlive⟩ := Option.any_eq_true .. |>.mp hlive
  obtain ⟨hkind, hroot⟩ := of_decide_eq_true hlive
  obtain ⟨⟨project, hproject, hfollows, -⟩, hreattached⟩ :=
    (renewal_run {} listing.scanner listing.fs consulting).1 hrobs 2 former outcome hformer hkind (by decide)
  exact ⟨hrobs, by decide +kernel, ⟨project, hproject, hfollows⟩,
    hreattached (path ["w", "w", "a"]) (by decide +kernel) (by decide +kernel) hroot (by decide +kernel),
    by decide +kernel, by decide +kernel⟩

/-- With a relative base directory the root that a project takes over can belong to it already, and then the project
goes in the place of an inferred one. -/
example :
    let path (names : List String) : Path := ⟨names.map .name⟩
    let start : Workspace :=
      { settings := {}
        scanner := ⟨.empty, ⟨path ["w"], true⟩⟩
        fs := FileSystem.ofFiles
          [(path ["w", "a"], []), (path ["w", "w", "a"], []), (path ["w", "w", "project.toml"], []),
            (path ["w", "w", "w", "project.toml"], "files = ['../../a']".toList)] }
    let w := start.run
      [.openFile (path ["a"]) none, .openFile (path ["w", "a"]) none, .adoptProjectFor (path ["a"])]
    let outcome : Manifest.Outcome := { roots := [path ["w", "w", "a"], path ["w", "a"]] }
    w.configured = [2] ∧ 2 ∉ (w.applyManifest 2 outcome).projects.keys := by
  decide +kernel

end Workspace

end ProjectTracker
