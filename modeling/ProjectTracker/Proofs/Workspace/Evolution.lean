import ProjectTracker.Proofs.Workspace.Operations
import ProjectTracker.Proofs.Workspace.Upkeep
/-!
The functions that give documents to projects and that follow manifests are made of steps that keep
the lists of projects right and the files of projects current.
-/

namespace ProjectTracker.Workspace

variable {w : Workspace} {p : Path} {id : ProjectId}

theorem shifts_emit (w : Workspace) (e : Event) : Shifts w (w.emit e) :=
  .calm (calm_emit w e)

theorem shifts_modifyOpenFiles (w : Workspace) (f : OpenFiles → OpenFiles) :
    Shifts w (w.modifyOpenFiles f) :=
  .calm (calm_modifyOpenFiles w f)

theorem shifts_setOwner (w : Workspace) (p : Path) (owner? : Option ProjectId) :
    Shifts w (w.setOwner p owner?) :=
  .calm (calm_setOwner w p owner?)

theorem shifts_refresh (w : Workspace) : Shifts w w.refresh :=
  Shifts.foldl .refreshProject _ w

/-- Steps that also gather paths. -/
theorem shifts_foldl_pair {step : Workspace × List Path → Path → Workspace × List Path}
    (h : ∀ state p, Shifts state.1 (step state p).1) (ps : List Path)
    (state : Workspace × List Path) : Shifts state.1 (ps.foldl step state).1 := by
  induction ps generalizing state with
  | nil => exact .refl _
  | cons p ps ih => exact (h state p).trans (ih _)

/-! ### Attaching -/

theorem shifts_evict (w : Workspace) (former? : Option ProjectId) :
    Shifts w (w.evict former?).1 := by
  cases former? with
  | none => exact .refl w
  | some id => exact .removeProject w id

theorem shifts_absorb (id : ProjectId) (state : Workspace × List Path) (root : Path) :
    Shifts state.1 (absorb id state root).1 :=
  (((shifts_modifyOpenFiles ..).trans (shifts_evict ..)).trans (shifts_setOwner ..)).trans
    ((shifts_modifyOpenFiles ..).trans (shifts_emit ..))

theorem shifts_join? {joined : Workspace} (h : w.join? p = some joined) : Shifts w joined := by
  unfold join? at h
  split at h
  · obtain rfl := Option.some.inj h
    exact (shifts_setOwner ..).trans (shifts_modifyOpenFiles ..)
  · split at h
    · obtain rfl := Option.some.inj h
      exact (shifts_setOwner ..).trans (shifts_modifyOpenFiles ..)
    · simp at h

theorem shifts_foundProject (h : w.isTracked p) (absorbs : Bool) :
    Shifts w (w.foundProject p absorbs).1 := by
  have hgiven := (Shifts.creates (createInferred_creates h)).trans
    (shifts_setOwner _ p (some (w.createInferred p).2))
  unfold foundProject
  dsimp only
  exact hgiven.trans ((shifts_foldl_pair (shifts_absorb _) _ (_, [])).trans
    (shifts_modifyOpenFiles ..))

theorem shifts_reattachBy {attach : Workspace → Path → Workspace}
    (hattach : ∀ w p, w.isTracked p → Shifts w (attach w p)) (w : Workspace) (p : Path) :
    Shifts w (reattachBy attach w p) := by
  unfold reattachBy
  split
  · exact .refl w
  · rename_i hskip
    have htracked : w.isTracked p := by
      apply isTracked_of_isOpen
      simp only [Bool.or_eq_true, not_or, Bool.not_eq_true', Bool.not_eq_false] at hskip
      exact hskip.1
    exact ((shifts_modifyOpenFiles w (·.remove p)).trans (hattach _ p htracked)).trans
      (shifts_emit ..)

theorem isTracked_refresh (h : w.isTracked p) : w.refresh.isTracked p :=
  (shifts_refresh w).quiet.tracked p h

theorem shifts_attachWithin (depth : Nat) (h : w.isTracked p) :
    Shifts w (attachWithin depth w p) := by
  induction depth generalizing w p with
  | zero =>
      unfold attachWithin
      dsimp only
      refine (shifts_refresh w).trans ?_
      cases hjoined : w.refresh.join? p with
      | some joined => exact shifts_join? hjoined
      | none => exact shifts_foundProject (isTracked_refresh h) false
  | succ depth ih =>
      unfold attachWithin
      dsimp only
      refine (shifts_refresh w).trans ?_
      cases hjoined : w.refresh.join? p with
      | some joined => exact shifts_join? hjoined
      | none =>
          exact (shifts_foundProject (isTracked_refresh h) true).trans
            (Shifts.foldl (shifts_reattachBy fun _ _ => ih) _ _)

theorem shifts_attach (h : w.isTracked p) : Shifts w (w.attach p) :=
  shifts_attachWithin _ h

theorem shifts_reattach (w : Workspace) (ps : List Path) : Shifts w (w.reattach ps) :=
  Shifts.foldl (shifts_reattachBy fun _ _ => shifts_attach) ps w

theorem shifts_dissolve (w : Workspace) (id : ProjectId) : Shifts w (w.dissolve id) :=
  (Shifts.removeProject w id).trans (shifts_reattach ..)

/-! ### Settling -/

theorem shifts_prune (w : Workspace) : Shifts w w.prune :=
  Shifts.foldl shifts_dissolve _ w

theorem evolves_sweep (w : Workspace) (h : w.projects.keys.Nodup) : Evolves w w.sweep := by
  have hfree : ∀ p ∈ w.documents.paths.filter fun p =>
      !w.isOpen p && !w.projects.values.any (·.contains p),
      ∀ id held, w.holding? id = some held → ¬held.Contains p := by
    intro p hp id held hheld hcontains
    have hp' := (List.mem_filter.mp hp).2
    obtain ⟨project, hproject, rfl⟩ := Option.map_eq_some_iff.mp hheld
    have hany : w.projects.values.any (·.contains p) :=
      List.any_eq_true.mpr ⟨project, (Table.mem_values_iff h).mpr ⟨id, hproject⟩,
        Project.contains_iff.mpr hcontains⟩
    simp [hany] at hp'
  unfold sweep
  dsimp only
  generalize w.documents.paths.filter _ = orphans at hfree ⊢
  clear h
  induction orphans generalizing w with
  | nil => exact .shifts (.refl w)
  | cons p orphans ih =>
      -- the projects stay the same, so that the other orphans are still in none
      have hroster := (forget_contents w p).2.1
      refine (Evolves.forget (hfree p (by simp))).trans (ih (w := w.forget p) ?_)
      intro q hq id held hheld
      refine hfree q (by simp [hq]) id held ?_
      rw [← roster_holding?, ← hroster]
      exact hheld

theorem shifts_detachUnless (property : Path → Project → Bool)
    (removal : OpenFiles → Path → OpenFiles) (state : Workspace × List Path) (p : Path) :
    Shifts state.1 (detachUnless property removal state p).1 := by
  unfold detachUnless
  dsimp only
  split
  · exact .refl _
  · exact (shifts_modifyOpenFiles ..).trans (shifts_setOwner ..)

theorem shifts_demote (state : Workspace × List Path) (root : Path) :
    Shifts state.1 (demote state root).1 := by
  unfold demote
  dsimp only
  split
  · exact .refl _
  · split
    · exact .refl _
    · exact ((shifts_modifyOpenFiles ..).trans (shifts_evict ..)).trans
        (((shifts_modifyOpenFiles ..).trans (shifts_setOwner ..)).trans (shifts_emit ..))

theorem shifts_detaching (w : Workspace) :
    let configured := w.openFiles.configuredRoots.foldl
      (detachUnless (fun p project => project.isRoot p) .removeConfiguredRoot) (w, [])
    let referenced := configured.1.openFiles.referenced.foldl
      (detachUnless (fun p project => project.contains p) .removeReferenced) configured
    Shifts w referenced.1 :=
  (shifts_foldl_pair (shifts_detachUnless _ _) _ (w, [])).trans
    (shifts_foldl_pair (shifts_detachUnless _ _) _ _)

/-- Gives the open documents to the projects that should have them. Those that are left without one are listed. -/
def regroup (w : Workspace) : Workspace × List Path :=
  let configured := w.openFiles.configuredRoots.foldl
    (detachUnless (fun p project => project.isRoot p) .removeConfiguredRoot) (w, [])
  let referenced := configured.1.openFiles.referenced.foldl
    (detachUnless (fun p project => project.contains p) .removeReferenced) configured
  referenced.1.openFiles.roots.foldl demote referenced

theorem shifts_regroup (w : Workspace) : Shifts w w.regroup.1 :=
  (shifts_detaching w).trans (shifts_foldl_pair shifts_demote _ _)

theorem settle_eq (w : Workspace) :
    w.settle = (w.refresh.regroup.1.reattach w.refresh.regroup.2).prune.sweep := rfl

theorem shifts_settling (w : Workspace) :
    Shifts w (w.refresh.regroup.1.reattach w.refresh.regroup.2).prune :=
  ((shifts_refresh w).trans (shifts_regroup _)).trans ((shifts_reattach ..).trans (shifts_prune _))

theorem evolves_settle (h : w.Enlisted) : Evolves w w.settle :=
  (Evolves.shifts (shifts_settling w)).trans (evolves_sweep _ (h.shifts (shifts_settling w)).distinct)

/-! ### Manifests -/

theorem shifts_createConfigured (w : Workspace) (manifest : Path) (outcome : Manifest.Outcome) :
    Shifts w (w.createConfigured manifest outcome) := by
  rcases createConfigured_creates w manifest outcome with hsame | ⟨roots, hcreates⟩
  · rw [hsame]
    exact .refl w
  · exact .creates hcreates

theorem amends_removeRoot (w : Workspace) (root : Path) (project : Project) :
    w.Amends (·.removeRoot root) project := by
  unfold Amends Project.removeRoot
  dsimp only
  split
  · exact ⟨rfl, rfl, .inr ⟨rfl, fun p hp => .inl (List.mem_filter.mp hp).1⟩⟩
  · exact ⟨rfl, rfl, .inl rfl⟩

theorem amends_addRoot {root : Path} (h : w.isTracked root) (project : Project) :
    w.Amends (·.addRoot root) project := by
  unfold Amends Project.addRoot
  dsimp only
  split
  · exact ⟨rfl, rfl, .inl rfl⟩
  · refine ⟨rfl, rfl, .inr ⟨rfl, fun p hp => ?_⟩⟩
    refine (List.mem_append.mp hp).imp_right fun hp => ?_
    rw [List.mem_singleton.mp hp]
    exact h

theorem shifts_dropRoot (id : ProjectId) (state : Workspace × List Path) (root : Path) :
    Shifts state.1 (dropRoot id state root).1 := by
  have hamended : Shifts state.1 (state.1.modifyProject id (·.removeRoot root)) :=
    .amend fun project _ => amends_removeRoot state.1 root project
  unfold dropRoot
  dsimp only
  split
  · exact hamended.trans ((shifts_modifyOpenFiles ..).trans (shifts_setOwner ..))
  · exact hamended

theorem shifts_takeOver (id : ProjectId) (state : Workspace × List Path) (root : Path) :
    Shifts state.1 (takeOver id state root).1 :=
  ((shifts_modifyOpenFiles ..).trans (shifts_evict ..)).trans
    (((shifts_modifyOpenFiles ..).trans (shifts_setOwner ..)).trans
      ((shifts_modifyOpenFiles ..).trans (shifts_emit ..)))

theorem shifts_gainRoot (id : ProjectId) (state : Workspace × List Path) (root : Path) :
    Shifts state.1 (gainRoot id state root).1 := by
  have hloaded : Shifts state.1 (state.1.load root) := .calm (calm_load ..)
  unfold gainRoot
  dsimp only
  split
  · rename_i htracked
    have hamended : Shifts (state.1.load root)
        ((state.1.load root).modifyProject id (·.addRoot root)) :=
      .amend fun project _ => amends_addRoot htracked project
    split
    · exact (hloaded.trans hamended).trans (shifts_takeOver id (_, state.2) root)
    · exact hloaded.trans hamended
  · exact hloaded

/-- Makes a project what its manifest defines. The documents that are left without a project are listed. -/
def renew (w : Workspace) (id : ProjectId) (project : Project) (outcome : Manifest.Outcome) :
    Workspace × List Path :=
  let dropped := (project.roots.filter fun root => root ∉ outcome.roots).foldl (dropRoot id) (w, [])
  let gained := (outcome.roots.filter fun root => root ∉ project.roots).foldl (gainRoot id) dropped
  ((gained.1.modifyProject id fun project =>
    { project with settings := outcome.settings, isStale := true }).refreshProject id, gained.2)

theorem shifts_renew (w : Workspace) (id : ProjectId) (project : Project) (outcome : Manifest.Outcome) :
    Shifts w (w.renew id project outcome).1 := by
  have hdropped := shifts_foldl_pair (shifts_dropRoot id)
    (project.roots.filter fun root => root ∉ outcome.roots) (w, [])
  unfold renew
  dsimp only
  generalize List.foldl (dropRoot id) (w, []) _ = dropped at hdropped ⊢
  have hgained := shifts_foldl_pair (shifts_gainRoot id)
    (outcome.roots.filter fun root => root ∉ project.roots) dropped
  generalize List.foldl (gainRoot id) dropped _ = gained at hgained ⊢
  have hamended : Shifts gained.1 (gained.1.modifyProject id fun project =>
      { project with settings := outcome.settings, isStale := true }) :=
    .amend fun project _ => ⟨rfl, rfl, .inr ⟨rfl, fun p hp => .inl hp⟩⟩
  exact ((hdropped.trans hgained).trans hamended).trans (.refreshProject ..)

theorem applyManifest_cases (w : Workspace) (id : ProjectId) (outcome : Manifest.Outcome) :
    w.applyManifest id outcome = w ∨ ∃ project, w.projects.get? id = some project ∧
      outcome.definesProject ∧ w.applyManifest id outcome =
        (w.renew id project outcome).1.reattach (w.renew id project outcome).2 := by
  unfold applyManifest
  split
  · exact .inl rfl
  · rename_i project hproject
    split
    · rename_i hdefines
      exact .inr ⟨project, hproject, hdefines, rfl⟩
    · exact .inl rfl

theorem shifts_applyManifest (w : Workspace) (id : ProjectId) (outcome : Manifest.Outcome) :
    Shifts w (w.applyManifest id outcome) := by
  rcases applyManifest_cases w id outcome with hsame | ⟨project, -, -, hrenewed⟩
  · rw [hsame]
    exact .refl w
  · rw [hrenewed]
    exact (shifts_renew ..).trans (shifts_reattach ..)

theorem shifts_readManifest (w : Workspace) (manifest : Path) (trigger? : Option Path) :
    Shifts w (w.readManifest manifest trigger?).1 :=
  .calm (calm_readManifest ..)

theorem shifts_updateConfigured (w : Workspace) (id : ProjectId) (trigger? : Option Path) :
    Shifts w (w.updateConfigured id trigger?) := by
  unfold updateConfigured
  split
  · exact .refl w
  · split
    · exact (shifts_readManifest ..).trans (shifts_applyManifest ..)
    · exact shifts_dissolve w id

theorem shifts_consultManifest (w : Workspace) (p : Path) : Shifts w (w.consultManifest p) := by
  unfold consultManifest
  split
  · exact .refl w
  · split
    · exact shifts_updateConfigured ..
    · exact (shifts_readManifest ..).trans (shifts_createConfigured ..)

theorem evolves_reload (h : w.Enlisted) : Evolves w w.reload := by
  obtain ⟨reloaded, hreloaded, heq⟩ := reload_keeps (Shifts w)
    (fun w id h => h.trans (shifts_updateConfigured w id none))
    (fun w p h => h.trans (shifts_consultManifest w p)) (.refl w)
  rw [heq]
  exact (Evolves.shifts hreloaded).trans (evolves_settle (h.shifts hreloaded))

theorem evolves_rereadManifest (h : w.Enlisted) (id : ProjectId) :
    Evolves w (w.rereadManifest id) := by
  rcases rereadManifest_cases w id with hsame | hupdated | ⟨manifest, -, hread | happlied⟩
  · rw [hsame]
    exact .shifts (.refl w)
  · have hupdates := shifts_updateConfigured w id none
    rw [hupdated]
    exact (Evolves.shifts hupdates).trans (evolves_settle (h.shifts hupdates))
  · rw [hread]
    exact .shifts (shifts_readManifest ..)
  · have happlies := (shifts_readManifest w manifest none).trans
      (shifts_applyManifest _ id (w.readManifest manifest none).2)
    rw [happlied]
    exact (Evolves.shifts happlies).trans (evolves_settle (h.shifts happlies))

theorem evolves_discoverManifest (h : w.Enlisted) (manifest : Path) :
    Evolves w (w.discoverManifest manifest) := by
  rcases discoverManifest_cases w manifest with hsame | hread | ⟨-, hcreated⟩
  · rw [hsame]
    exact .shifts (.refl w)
  · rw [hread]
    exact .shifts (shifts_readManifest ..)
  · have hcreates := (shifts_readManifest w manifest none).trans
      (shifts_createConfigured _ manifest (w.readManifest manifest none).2)
    rw [hcreated]
    exact (Evolves.shifts hcreates).trans (evolves_reload (h.shifts hcreates))

end ProjectTracker.Workspace
