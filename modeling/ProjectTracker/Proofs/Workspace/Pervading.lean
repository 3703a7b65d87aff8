import ProjectTracker.Proofs.Workspace.Manifests
/-!
All that gives documents to projects is made of a few steps. A relation between workspaces that holds across
each of them, and from which longer ways can be put together, holds across all of it. With a few more steps
this goes for all that follows manifests as well, and so for every task that waits.
-/

namespace ProjectTracker.Workspace

/-- A relation between workspaces that holds across the steps by which documents are given to projects. -/
structure Assigns (relation : Workspace → Workspace → Prop) : Prop where
  refl : ∀ w, relation w w
  trans : ∀ {w w' w''}, relation w w' → relation w' w'' → relation w w''
  emit : ∀ w e, relation w (w.emit e)
  modifyOpenFiles : ∀ w f, relation w (w.modifyOpenFiles f)
  setOwner : ∀ w p owner?, relation w (w.setOwner p owner?)
  refreshProject : ∀ w id, relation w (w.refreshProject id)
  removeProject : ∀ w id, relation w (w.removeProject id).1
  createInferred : ∀ w root, relation w (w.createInferred root).1

namespace Assigns

variable {relation : Workspace → Workspace → Prop} (h : Assigns relation)

include h

theorem foldl {α : Type} {step : Workspace → α → Workspace} (hstep : ∀ w x, relation w (step w x))
    (xs : List α) (w : Workspace) : relation w (xs.foldl step w) := by
  induction xs generalizing w with
  | nil => exact h.refl w
  | cons x xs ih => exact h.trans (hstep w x) (ih _)

/-- Steps that also gather paths. -/
theorem foldl_pair {step : Workspace × List Path → Path → Workspace × List Path}
    (hstep : ∀ state p, relation state.1 (step state p).1) (ps : List Path)
    (state : Workspace × List Path) : relation state.1 (ps.foldl step state).1 := by
  induction ps generalizing state with
  | nil => exact h.refl _
  | cons p ps ih => exact h.trans (hstep state p) (ih _)

theorem refresh (w : Workspace) : relation w w.refresh :=
  h.foldl h.refreshProject _ w

theorem evict (w : Workspace) (former? : Option ProjectId) : relation w (w.evict former?).1 := by
  cases former? with
  | none => exact h.refl w
  | some id => exact h.removeProject w id

/-! ### Attaching -/

theorem absorb (id : ProjectId) (state : Workspace × List Path) (root : Path) :
    relation state.1 (absorb id state root).1 := by
  have hevicted := h.trans (h.modifyOpenFiles state.1 (·.removeRoot root))
    (h.evict _ (state.1.owner? root))
  exact h.trans (h.trans hevicted (h.setOwner ..)) (h.trans (h.modifyOpenFiles ..) (h.emit ..))

theorem join? {w joined : Workspace} {p : Path} (hjoined : w.join? p = some joined) :
    relation w joined := by
  have hplaced (id : ProjectId) (f : OpenFiles → OpenFiles) :
      relation w ((w.setOwner p (some id)).modifyOpenFiles f) :=
    h.trans (h.setOwner ..) (h.modifyOpenFiles ..)
  unfold Workspace.join? at hjoined
  split at hjoined
  · obtain rfl := Option.some.inj hjoined
    exact hplaced ..
  · split at hjoined
    · obtain rfl := Option.some.inj hjoined
      exact hplaced ..
    · simp at hjoined

theorem foundProject (w : Workspace) (p : Path) (absorbs : Bool) :
    relation w (w.foundProject p absorbs).1 := by
  have hcreated := h.trans (h.createInferred w p) (h.setOwner _ p (some (w.createInferred p).2))
  unfold Workspace.foundProject
  dsimp only
  exact h.trans hcreated
    (h.trans (h.foldl_pair (h.absorb _) _ (_, [])) (h.modifyOpenFiles ..))

theorem reattachBy {attach : Workspace → Path → Workspace}
    (hattach : ∀ w p, relation w (attach w p)) (w : Workspace) (p : Path) :
    relation w (reattachBy attach w p) := by
  unfold Workspace.reattachBy
  split
  · exact h.refl w
  · exact h.trans (h.trans (h.modifyOpenFiles ..) (hattach ..)) (h.emit ..)

theorem attachWithin (depth : Nat) (w : Workspace) (p : Path) :
    relation w (attachWithin depth w p) := by
  induction depth generalizing w p with
  | zero =>
      unfold Workspace.attachWithin
      dsimp only
      refine h.trans (h.refresh w) ?_
      cases hjoined : w.refresh.join? p with
      | some joined => exact h.join? hjoined
      | none => exact h.foundProject ..
  | succ depth ih =>
      unfold Workspace.attachWithin
      dsimp only
      refine h.trans (h.refresh w) ?_
      cases hjoined : w.refresh.join? p with
      | some joined => exact h.join? hjoined
      | none => exact h.trans (h.foundProject ..) (h.foldl (h.reattachBy ih) _ _)

theorem attach (w : Workspace) (p : Path) : relation w (w.attach p) :=
  h.attachWithin ..

theorem reattach (w : Workspace) (ps : List Path) : relation w (w.reattach ps) :=
  h.foldl (h.reattachBy h.attach) ps w

theorem dissolve (w : Workspace) (id : ProjectId) : relation w (w.dissolve id) :=
  h.trans (h.removeProject w id) (h.reattach ..)

/-! ### Settling -/

theorem prune (w : Workspace) : relation w w.prune :=
  h.foldl h.dissolve _ w

theorem detachUnless (property : Path → Project → Bool) (removal : OpenFiles → Path → OpenFiles)
    (state : Workspace × List Path) (p : Path) :
    relation state.1 (detachUnless property removal state p).1 := by
  unfold Workspace.detachUnless
  dsimp only
  split
  · exact h.refl _
  · exact h.trans (h.modifyOpenFiles ..) (h.setOwner ..)

theorem assign (w : Workspace) (p : Path) (id : ProjectId) : relation w (w.assign p id) :=
  h.trans (h.modifyOpenFiles ..) (h.setOwner ..)

theorem demote (state : Workspace × List Path) (root : Path) :
    relation state.1 (demote state root).1 := by
  unfold Workspace.demote
  dsimp only
  split
  · exact h.refl _
  · split
    · exact h.refl _
    · exact h.trans (h.trans (h.modifyOpenFiles ..) (h.evict ..))
        (h.trans (h.assign ..) (h.emit ..))

/-- Settling gives all documents their places, and then sweeps out what nobody needs. -/
theorem settle_cases (w : Workspace) : ∃ settled, relation w settled ∧ w.settle = settled.sweep := by
  have hdetached := h.foldl_pair
    (h.detachUnless (fun p project => project.isRoot p) .removeConfiguredRoot)
    w.refresh.openFiles.configuredRoots (w.refresh, [])
  unfold Workspace.settle
  dsimp only at hdetached ⊢
  generalize List.foldl (Workspace.detachUnless _ _) (w.refresh, []) _ = configured at hdetached ⊢
  have hreferenced := h.foldl_pair
    (h.detachUnless (fun p project => project.contains p) .removeReferenced)
    configured.1.openFiles.referenced configured
  generalize List.foldl (Workspace.detachUnless _ _) configured _ = referenced at hreferenced ⊢
  have hdemoted := h.foldl_pair h.demote referenced.1.openFiles.roots referenced
  refine ⟨_, ?_, rfl⟩
  exact h.trans (h.trans (h.refresh w) (h.trans hdetached hreferenced))
    (h.trans hdemoted (h.trans (h.reattach ..) (h.prune _)))

end Assigns

/-- A relation that holds across sweeping out documents, too. -/
structure Pervades (relation : Workspace → Workspace → Prop) : Prop extends Assigns relation where
  sweep : ∀ w, relation w w.sweep

theorem Pervades.settle {relation : Workspace → Workspace → Prop} (h : Pervades relation)
    (w : Workspace) : relation w w.settle := by
  obtain ⟨settled, hsettled, heq⟩ := h.settle_cases w
  rw [heq]
  exact h.trans hsettled (h.sweep settled)

/-- A relation that holds across the steps by which manifests are followed, too. -/
structure Governs (relation : Workspace → Workspace → Prop) : Prop extends Pervades relation where
  fold : ∀ w p, relation w (w.fold p)
  load : ∀ w p, relation w (w.load p)
  modifyProject : ∀ w id f, relation w (w.modifyProject id f)
  createConfigured : ∀ w manifest outcome, relation w (w.createConfigured manifest outcome)

namespace Governs

variable {relation : Workspace → Workspace → Prop} (h : Governs relation)

include h

theorem readManifest (w : Workspace) (manifest : Path) (trigger? : Option Path) :
    relation w (w.readManifest manifest trigger?).1 := by
  unfold Workspace.readManifest
  dsimp only
  split
  · exact h.refl w
  · exact h.emit ..

theorem dropRoot (id : ProjectId) (state : Workspace × List Path) (root : Path) :
    relation state.1 (dropRoot id state root).1 := by
  have hdropped : relation state.1 (state.1.modifyProject id (·.removeRoot root)) :=
    h.modifyProject ..
  unfold Workspace.dropRoot
  dsimp only
  split
  · exact h.trans hdropped (h.trans (h.modifyOpenFiles ..) (h.setOwner ..))
  · exact hdropped

theorem takeOver (id : ProjectId) (state : Workspace × List Path) (root : Path) :
    relation state.1 (takeOver id state root).1 :=
  h.trans (h.trans (h.modifyOpenFiles ..) (h.evict ..))
    (h.trans (h.trans (h.modifyOpenFiles ..) (h.setOwner ..))
      (h.trans (h.modifyOpenFiles ..) (h.emit ..)))

theorem gainRoot (id : ProjectId) (state : Workspace × List Path) (root : Path) :
    relation state.1 (gainRoot id state root).1 := by
  have hloaded : relation state.1 (state.1.load root) := h.load ..
  unfold Workspace.gainRoot
  dsimp only
  split
  · have hgained := h.trans hloaded (h.modifyProject _ id (·.addRoot root))
    split
    · exact h.trans hgained (h.takeOver id (_, state.2) root)
    · exact hgained
  · exact hloaded

theorem applyManifest (w : Workspace) (id : ProjectId) (outcome : Manifest.Outcome) :
    relation w (w.applyManifest id outcome) := by
  unfold Workspace.applyManifest
  split
  · exact h.refl w
  · rename_i project _
    split
    · dsimp only
      have hdropped := h.foldl_pair (h.dropRoot id)
        (project.roots.filter fun root => root ∉ outcome.roots) (w, [])
      generalize List.foldl (Workspace.dropRoot id) (w, []) _ = dropped at hdropped ⊢
      have hgained := h.trans hdropped (h.foldl_pair (h.gainRoot id)
        (outcome.roots.filter fun root => root ∉ project.roots) dropped)
      generalize List.foldl (Workspace.gainRoot id) dropped _ = gained at hgained ⊢
      exact h.trans (h.trans hgained (h.modifyProject ..))
        (h.trans (h.refreshProject ..) (h.reattach ..))
    · exact h.refl w

theorem updateConfigured (w : Workspace) (id : ProjectId) (trigger? : Option Path) :
    relation w (w.updateConfigured id trigger?) := by
  unfold Workspace.updateConfigured
  split
  · exact h.refl w
  · split
    · exact h.trans (h.readManifest ..) (h.applyManifest ..)
    · exact h.dissolve w id

theorem consultManifest (w : Workspace) (p : Path) : relation w (w.consultManifest p) := by
  unfold Workspace.consultManifest
  split
  · exact h.refl w
  · split
    · exact h.updateConfigured ..
    · exact h.trans (h.readManifest ..) (h.createConfigured ..)

theorem reload (w : Workspace) : relation w w.reload := by
  obtain ⟨reloaded, hreloaded, heq⟩ := reload_keeps (relation w)
    (fun w id hw => h.trans hw (h.updateConfigured w id none))
    (fun w p hw => h.trans hw (h.consultManifest w p)) (h.refl w)
  rw [heq]
  exact h.trans hreloaded (h.settle _)

theorem rereadManifest (w : Workspace) (id : ProjectId) : relation w (w.rereadManifest id) := by
  rcases rereadManifest_cases w id with hsame | hupdated | ⟨manifest, -, hread | happlied⟩
  · rw [hsame]
    exact h.refl w
  · rw [hupdated]
    exact h.trans (h.updateConfigured ..) (h.settle _)
  · rw [hread]
    exact h.readManifest ..
  · rw [happlied]
    exact h.trans (h.trans (h.readManifest ..) (h.applyManifest ..)) (h.settle _)

theorem discoverManifest (w : Workspace) (manifest : Path) :
    relation w (w.discoverManifest manifest) := by
  rcases discoverManifest_cases w manifest with hsame | hread | ⟨-, hcreated⟩
  · rw [hsame]
    exact h.refl w
  · rw [hread]
    exact h.readManifest ..
  · rw [hcreated]
    exact h.trans (h.trans (h.readManifest ..) (h.createConfigured ..)) (h.reload _)

theorem runTask (w : Workspace) (task : Task) : relation w (w.runTask task) := by
  cases task with
  | fold p => exact h.fold w p
  | settle change =>
      unfold Workspace.runTask
      dsimp only
      split
      · exact h.settle w
      · exact h.refl w
  | reread id => exact h.rereadManifest w id

end Governs

end ProjectTracker.Workspace
