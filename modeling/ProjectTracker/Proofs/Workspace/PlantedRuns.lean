import ProjectTracker.Proofs.Workspace.Quiescence
import ProjectTracker.Proofs.Workspace.Turnover
/-!
All that is asked of a workspace leaves the roots of inferred projects in order, even a document that is given to
the project of another one. So there is nothing left to settle after settling, in whatever state and
whatever becomes of the files.
-/

namespace ProjectTracker

namespace Registry

variable {r : Registry} {guests : List Path} {p root : Path} {first id : ProjectId}

namespace Planted

/-- A root that is taken over leaves its own project, which goes. -/
theorem takeOver (h : Planted first guests r) (hopen : r.isOpen root) (hle : id ≤ r.lastProject) :
    Planted first guests (r.takeOver id root).1 := by
  have hevicted : Planted first guests
      ((r.modifyOpenFiles (·.removeRoot root)).evict (r.rootOwner? root)).1 := by
    unfold rootOwner?
    split
    · exact h.unseat (.inl ‹_›)
    · exact h.relist List.erase_sublist
  have hgone : root ∉
      ((r.modifyOpenFiles (·.removeRoot root)).evict (r.rootOwner? root)).1.openFiles.roots :=
    fun hmem => h.nodup.not_mem_erase (mem_roots_evict.mp hmem).1
  have hgiven := hevicted.setOwner (p := root) (some id) (fun hmem => absurd hmem hgone)
    (fun _ => by rwa [isOpen_evict]) fun i hi => by
      rw [lastProject_evict]
      exact Option.some.inj hi ▸ hle
  exact hgiven.relist (.refl _)

/-- A document that is closed leaves its list and its project. -/
theorem shut (h : Planted first [] r) (p : Path) :
    Planted first [] (((r.modifyOpenFiles (·.removeFirst p)).setOwner p none).setOpen p false) := by
  have hgone := OpenFiles.not_mem_roots_removeFirst (p := p) h.nodup
  have hunlisted : Planted first [] (r.modifyOpenFiles (·.removeFirst p)) :=
    h.relist (OpenFiles.below_removeFirst r.openFiles p).roots
  have hunowned := hunlisted.setOwner (p := p) none (fun hmem => absurd hmem hgone)
    (absurd rfl) fun i hi => by simp at hi
  exact hunowned.closing hgone (by simp)

/-- If it was a root then one inferred project may go. -/
theorem infers_shut (h : Planted first [] r) (hroot : p ∈ r.openFiles.roots) :
    (((r.modifyOpenFiles (·.removeFirst p)).setOwner p none).setOpen p false).Infers
      ((r.openFiles.removeFirst p).roots.length + 1) := by
  have hfewer : (r.openFiles.removeFirst p).roots.length + 1 = r.openFiles.roots.length := by
    have hpos := List.length_pos_of_mem hroot
    unfold OpenFiles.removeFirst
    rw [if_pos hroot]
    show (r.openFiles.roots.erase p).length + 1 = _
    rw [List.length_erase_of_mem hroot]
    omega
  have hinfers : (r.modifyOpenFiles (·.removeFirst p)).Infers r.openFiles.roots.length := h.infers
  rw [hfewer]
  exact hinfers.setOwner p none

end Planted

end Registry

namespace Workspace

open Registry

variable {w w' received : Workspace} {guests : List Path} {p root : Path} {first id : ProjectId}
  {state : Workspace × List Path}

/-! ### Manifests -/

/-- The root of an inferred project is none of a project that is not inferred. -/
theorem dropRoot_planted (h : Planted first guests state.1.registry)
    (hid : ¬state.1.registry.IsInferred id) (root : Path) :
    Planted first guests (dropRoot id state root).1.registry := by
  obtain ⟨w, detached⟩ := state
  have hother {p : Path} (howner : w.owner? p = some id) : ¬w.registry.Own p := fun hown =>
    hid ((hown.of_owner howner).imp fun _ _ hhas => hhas.1)
  have hdropped : Planted first guests (w.modifyProject id (·.removeRoot root)).registry := by
    rw [registry_removeRoot]
    exact h.modifyRoots fun p _ howner hown => absurd hown (hother howner)
  unfold dropRoot
  dsimp only
  split
  · rename_i hlisted
    rw [registry_setOwner (.inr rfl)]
    have hunlisted : Planted first guests ((w.modifyProject id (·.removeRoot root)).modifyOpenFiles
        (·.removeConfiguredRoot root)).registry := hdropped.relist (.refl _)
    refine hunlisted.setOwner none (fun hroot => ⟨rfl, ?_⟩) (absurd rfl) fun i hi => by simp at hi
    -- a guest among the roots would own its project, which would be an inferred one
    exact ((h.own root hroot).resolve_left (hother hlisted.1)).1
  · exact hdropped

theorem gainRoot_planted (h : Planted first guests state.1.registry)
    (hid : state.1.NotInferred id) (root : Path) :
    Planted first guests (gainRoot id state root).1.registry := by
  have hadded : Planted first guests (state.1.registry.modifyRoots id (addTo root)) := by
    refine h.modifyRoots fun p _ howner hown => absurd ?_ hid.not_isInferred
    exact (hown.of_owner howner).imp fun _ _ hhas => hhas.1
  rcases gainRoot_cases id state root with ⟨-, -, hregistry | hregistry⟩ | ⟨hopen, hregistry, -⟩
  · rwa [hregistry]
  · rwa [hregistry]
  · rw [hregistry]
    exact hadded.takeOver hopen hid.1

/-- A project that is not inferred loses or gains roots. -/
theorem foldl_roots_planted (step : Workspace × List Path → Path → Workspace × List Path)
    (state : Workspace × List Path)
    (hproceeds : ∀ (state : Workspace × List Path) root, state.1.NotInferred id →
      Proceeds False (fun _ => True) state.1 (step state root).1)
    (hstep : ∀ (state : Workspace × List Path) root, Planted first guests state.1.registry →
      state.1.NotInferred id → Planted first guests (step state root).1.registry)
    (h : Planted first guests state.1.registry) (hid : state.1.NotInferred id)
    (roots : List Path) : Planted first guests (roots.foldl step state).1.registry ∧
      (roots.foldl step state).1.NotInferred id := by
  induction roots generalizing state with
  | nil => exact ⟨h, hid⟩
  | cons root roots ih =>
      exact ih _ (hstep state root h hid) (hid.proceeds (hproceeds state root hid))

theorem renew_planted (h : Planted first guests w.registry) (hid : w.NotInferred id) (project : Project)
    (outcome : Manifest.Outcome) : Planted first guests (w.renew id project outcome).1.registry := by
  have hdropped := foldl_roots_planted (dropRoot id) (w, [])
    (fun state root _ => proceeds_dropRoot id state root)
    (fun state root h hid => dropRoot_planted h hid.not_isInferred root) h hid
    (project.roots.filter fun root => root ∉ outcome.roots)
  unfold renew
  dsimp only
  generalize List.foldl (dropRoot id) (w, []) _ = dropped at hdropped ⊢
  obtain ⟨hgained, -⟩ := foldl_roots_planted (gainRoot id) dropped
    (fun state root hid => proceeds_gainRoot hid root)
    (fun state root h hid => gainRoot_planted h hid root) hdropped.1 hdropped.2
    (outcome.roots.filter fun root => root ∉ project.roots)
  generalize List.foldl (gainRoot id) dropped _ = gained at hgained ⊢
  rwa [registry_renewed]

theorem applyManifest_planted (h : Planted first guests w.registry) (hid : w.NotInferred id)
    (outcome : Manifest.Outcome) : Planted first guests (w.applyManifest id outcome).registry := by
  rcases applyManifest_cases w id outcome with hsame | ⟨project, -, -, hrenewed⟩
  · rwa [hsame]
  · rw [hrenewed]
    exact reattach_planted (renew_planted h hid project outcome) _

theorem updateConfigured_planted (hw : w.Enlisted) (h : Planted first guests w.registry)
    (id : ProjectId) (trigger? : Option Path) :
    Planted first guests (w.updateConfigured id trigger?).registry := by
  unfold updateConfigured
  split
  · exact h
  · rename_i manifest hmanifest
    have hid := notInferred_of_manifestOf? hw hmanifest
    split
    · have hread : Proceeds False (fun _ => True) w (w.readManifest manifest trigger?).1 :=
        proceeds_readManifest ..
      rw [← registry_readManifest w manifest trigger?] at h
      exact applyManifest_planted h (hid.proceeds hread) _
    · exact dissolve_planted h hid.not_isInferred

theorem createConfigured_planted (h : Planted first guests w.registry) (manifest : Path)
    (outcome : Manifest.Outcome) :
    Planted first guests (w.createConfigured manifest outcome).registry := by
  rcases createConfigured_cases w manifest outcome with heq | ⟨roots, heq⟩
  · rwa [heq]
  · rw [heq]
    exact h.enroll (.configured manifest) roots

theorem consultManifest_planted (hw : w.Enlisted) (h : Planted first guests w.registry) (p : Path) :
    Planted first guests (w.consultManifest p).registry := by
  unfold consultManifest
  split
  · exact h
  · rename_i manifest _
    split
    · exact updateConfigured_planted hw h _ _
    · rw [← registry_readManifest w manifest (some p)] at h
      exact createConfigured_planted h manifest _

/-! ### Operations -/

/-- The lists of projects are right, and the roots of inferred projects are in order. -/
structure Regular (w : Workspace) : Prop where
  enlisted : w.Enlisted
  planted : Planted (w.lastProject + 1) [] w.registry

theorem regular_of_planted (hw : w.Enlisted) (h : Planted first guests w.registry) : w.Regular :=
  ⟨hw, h.restart⟩

theorem Regular.of_registry (h : w.Regular) (hw' : w'.Enlisted)
    (hregistry : w'.registry = w.registry) : w'.Regular :=
  regular_of_planted hw' (hregistry ▸ h.planted)

theorem regular_settle (h : w.Regular) : w.settle.Regular :=
  regular_of_planted (h.enlisted.leads (leads_settle w)) (settle_planted h.planted h.enlisted)

theorem regular_updateConfigured (h : w.Regular) (id : ProjectId) (trigger? : Option Path) :
    (w.updateConfigured id trigger?).Regular :=
  regular_of_planted (h.enlisted.leads (leads_updateConfigured w id trigger?))
    (updateConfigured_planted h.enlisted h.planted id trigger?)

theorem regular_readManifest (h : w.Regular) (manifest : Path) (trigger? : Option Path) :
    (w.readManifest manifest trigger?).1.Regular :=
  have hread : Proceeds False (fun _ => True) w (w.readManifest manifest trigger?).1 :=
    proceeds_readManifest ..
  h.of_registry (h.enlisted.proceeds hread) (registry_readManifest ..)

theorem regular_reload (h : w.Regular) : w.reload.Regular := by
  obtain ⟨reloaded, hreloaded, heq⟩ := reload_keeps Regular
    (fun _ id h => regular_updateConfigured h id none)
    (fun v p h => regular_of_planted (h.enlisted.leads (leads_consultManifest v p))
      (consultManifest_planted h.enlisted h.planted p)) h
  rw [heq]
  exact regular_settle hreloaded

theorem regular_rereadManifest (h : w.Regular) (id : ProjectId) : (w.rereadManifest id).Regular := by
  rcases rereadManifest_cases w id with hsame | hupdated | ⟨manifest, hmanifest, hread | happlied⟩
  · rwa [hsame]
  · rw [hupdated]
    exact regular_settle (regular_updateConfigured h id none)
  · rw [hread]
    exact regular_readManifest h manifest none
  · have hread : Proceeds False (fun _ => True) w (w.readManifest manifest none).1 :=
      proceeds_readManifest ..
    have hid := (notInferred_of_manifestOf? h.enlisted hmanifest).proceeds hread
    have hregular := regular_readManifest h manifest none
    rw [happlied]
    exact regular_settle (regular_of_planted
      (hregular.enlisted.leads (leads_applyManifest hid _))
      (applyManifest_planted hregular.planted hid _))

theorem regular_discoverManifest (h : w.Regular) (manifest : Path) :
    (w.discoverManifest manifest).Regular := by
  rcases discoverManifest_cases w manifest with hsame | hread | ⟨hnone, hcreated⟩
  · rwa [hsame]
  · rw [hread]
    exact regular_readManifest h manifest none
  · have hfound : Proceeds False (fun _ => True) w _ := proceeds_found manifest none hnone
    rw [hcreated]
    exact regular_reload (regular_of_planted (h.enlisted.proceeds hfound)
      (createConfigured_planted (regular_readManifest h manifest none).planted manifest _))

/-- A closed document that is dropped is no root of an inferred project. -/
theorem foldl_dropFile_planted (h : Planted first guests w.registry) (hclosed : w.isOpen p = false)
    (ids : List ProjectId) :
    Planted first guests (ids.foldl (fun w id =>
      w.modifyProject id fun project => (project.removeRoot p).markStale) w).registry := by
  induction ids generalizing w with
  | nil => exact h
  | cons id ids ih =>
      refine ih ?_ hclosed
      rw [registry_dropFile]
      refine h.modifyRoots fun q hq _ _ => ?_
      have hqp : q ≠ p := by
        rintro rfl
        have hopen : w.isOpen q := h.isOpen q hq
        simp [hclosed] at hopen
      simp [hqp]

theorem regular_documentDeleted (h : w.Regular) (p : Path) : (w.documentDeleted p).Regular := by
  unfold documentDeleted
  cases hopen : w.isOpen p with
  | true =>
      dsimp only
      rw [if_pos rfl]
      exact h.of_registry (h.enlisted.shifts (.calm ((calm_unwatch w p).trans (calm_emit ..))))
        (registry_unwatch w p)
  | false =>
      have hnone : w.owner? p = none := by
        by_contra hne
        simpa [hopen] using h.planted.owned_open p hne
      have hplanted := h.planted
      rw [← registry_forget hopen hnone] at hplanted
      have hclosed : (w.forget p).isOpen p = false := by
        rw [isOpen_forget hopen]
        exact hopen
      have hproceeds (ids : List ProjectId) : Proceeds False (fun _ => True) w _ :=
        proceeds_dropFile hopen ids
      have hdropped (ids : List ProjectId) :=
        regular_of_planted (h.enlisted.proceeds (hproceeds ids))
          (foldl_dropFile_planted hplanted hclosed ids)
      dsimp only
      rw [if_neg Bool.false_ne_true]
      generalize w.projects.keys.filter _ = affected
      specialize hdropped affected
      generalize List.foldl _ (w.forget p) affected = dropped at hdropped ⊢
      have hrefreshed := hdropped.of_registry (hdropped.enlisted.shifts (shifts_refresh dropped))
        (registry_refresh dropped)
      have htold (ps : List Path) : Calm dropped.refresh
          (ps.foldl (fun w q => w.emit (.contextChanged q (w.owner? q))) dropped.refresh) :=
        .foldl (fun _ _ => calm_emit ..) _ _
      exact regular_settle (hrefreshed.of_registry (hrefreshed.enlisted.shifts (.calm (htold _)))
        (registry_foldl (fun w q _ => registry_emit w _) _))

theorem regular_documentChanged (h : w.Regular) (p : Path) (change : FileChange) :
    (w.documentChanged p change).Regular := by
  have hw := h.enlisted.leads (leads_documentChanged w p change)
  rcases documentChanged_cases w p change with hsame | hdeleted | ⟨d, text, hd, hread⟩
  · rwa [hsame]
  · rw [hdeleted]
    exact regular_documentDeleted h p
  · refine h.of_registry hw ?_
    have hmodified := registry_modify_retexted hd (d.retexts_reloadIfChanged text)
    rw [hread]
    split
    · rw [registry_textChanged, registry_markStaleAround, hmodified]
    · exact hmodified

theorem regular_schedule (h : w.Regular) (task : Task) (delay : Nat) :
    (w.schedule task delay).Regular :=
  h.of_registry (h.enlisted.of_roster rfl rfl) rfl

theorem regular_fileChanged (h : w.Regular) (p : Path) (change : FileChange) :
    (w.fileChanged p change).Regular :=
  fileChanged_keeps Regular (fun _ p change h => regular_documentChanged h p change)
    (fun _ id trigger? h => regular_settle (regular_updateConfigured h id trigger?))
    (fun _ _ delay _ h => regular_schedule h _ delay)
    (fun _ manifest h => regular_discoverManifest h manifest) h p change

theorem regular_runTask (h : w.Regular) (task : Task) : (w.runTask task).Regular := by
  cases task with
  | fold p => exact h.of_registry (h.enlisted.shifts (.calm (calm_fold w p))) (registry_fold w p)
  | settle change =>
      unfold runTask
      dsimp only
      split
      · exact regular_settle h
      · exact h
  | reread id => exact regular_rereadManifest h id

theorem regular_advance (h : w.Regular) (duration : Nat) : (w.advance duration).Regular :=
  advance_keeps Regular (fun _ _ _ h => h.of_registry (h.enlisted.of_roster rfl rfl) rfl)
    (fun _ task h => regular_runTask h task) h duration

theorem regular_flush (h : w.Regular) : w.flush.Regular :=
  flush_keeps Regular (fun _ duration h => regular_advance h duration) h

/-! ### Opening and closing -/

/-- A document that its project came to have as it was opened is given to a project that is there. -/
theorem join?_of_guest (hw : w.Enlisted) (h : Planted first [p] w.registry)
    (hroot : p ∈ w.openFiles.roots) :
    ∃ joined, w.refresh.join? p = some joined ∧ w.attach p = joined := by
  have hown := (h.own p hroot).resolve_right fun hold => hold.1 (by simp)
  rw [← registry_refresh] at hown
  obtain ⟨id, howner, hhas⟩ := hown
  obtain ⟨held, hheld, -, hroots⟩ := has_iff.mp hhas
  cases hjoined : w.refresh.join? p with
  | none =>
      -- its project contains it, so that none has to be made
      exact absurd (.inr (by simp [hroots])) (join?_eq_none (hw.shifts (shifts_refresh w)) hjoined hheld)
  | some joined =>
      refine ⟨joined, rfl, ?_⟩
      unfold attach attachWithin
      dsimp only
      rw [hjoined]

theorem attach_regular (hw : w.Enlisted) (h : Planted first [p] w.registry) (hopen : w.isOpen p) :
    (w.attach p).Regular := by
  refine ⟨hw.leads (leads_attach trivial hopen), ?_⟩
  by_cases hroot : p ∈ w.openFiles.roots
  · obtain ⟨joined, hjoined, hattached⟩ := join?_of_guest hw h hroot
    rw [← registry_refresh] at h
    rw [← registry_isOpen, ← registry_refresh, registry_isOpen] at hopen
    obtain ⟨id, hlive, hregistry⟩ := join?_cases hopen hjoined
    have hgiven := h.reassign hopen (h.live_le id hlive)
    rw [hattached]
    rcases hregistry with hregistry | hregistry
    all_goals
      have hlisted : Planted (w.refresh.registry.lastProject + 1) [] joined.registry := by
        rw [hregistry]
        exact hgiven.relist (.refl _)
      exact hlisted.restart
  · exact (attach_planted h hopen hroot).restart

theorem lodge_regular (hw : w.Enlisted) (h : Planted first [p] w.registry) (hopen : w.isOpen p) :
    (w.lodge p).Regular := by
  have hconsulted : Proceeds False (fun _ => True) w (w.consultManifest p) :=
    leads_consultManifest w p ⟨hw, False.elim⟩
  have hattached := attach_regular (hw.proceeds hconsulted) (consultManifest_planted hw h p)
    ((congrFun hconsulted.isOpen p).trans hopen)
  have hpruned := regular_of_planted (hattached.enlisted.leads (leads_prune _))
    (prune_planted hattached.planted hattached.enlisted)
  have hswept : Proceeds False (fun _ => True) _ ((w.consultManifest p).attach p).prune.sweep :=
    proceeds_sweep _
  exact regular_of_planted (hpruned.enlisted.proceeds hswept) (sweep_planted hpruned.planted)

/-- A document that is opened is a guest until it has its place. -/
theorem setOpen_planted (h : Planted first [] w.registry) (htracked : w.isTracked p)
    (hclosed : w.isOpen p = false) :
    let opened := w.modifyDocument p fun d => { d with isOpen := true }
    Planted first [p] opened.registry ∧ opened.isOpen p := by
  have hroot : p ∉ w.openFiles.roots := fun hroot => by
    have hopen : w.isOpen p := h.isOpen p hroot
    simp [hclosed] at hopen
  have hplanted := h.opening hroot
  rw [← registry_setOpen htracked] at hplanted
  refine ⟨hplanted, ?_⟩
  rw [← registry_isOpen, registry_setOpen htracked]
  simp [Registry.setOpen]

theorem regular_openFile (h : w.Regular) (p : Path) (text? : Option Text) :
    (w.openFile p text?).1.Regular := by
  rcases openFile_cases w p text? with hsame | ⟨received, hreceive, hopened⟩
  · rwa [hsame]
  · have hproceeds : Proceeds False (fun _ => True) w received := proceeds_receive hreceive
    obtain ⟨hregistry, htracked⟩ := receive_eq hreceive
    have hreceived := h.of_registry (h.enlisted.proceeds hproceeds) hregistry
    have hemit {v : Workspace} (hv : v.Regular) (e : Event) : (v.emit e).Regular :=
      hv.of_registry (hv.enlisted.of_roster rfl rfl) rfl
    rcases hopened with ⟨-, hopened⟩ | ⟨opened, lodged, hclosed, rfl, rfl, hopened⟩
    · rw [hopened]
      exact hemit hreceived _
    · rw [← registry_isOpen, ← hregistry, registry_isOpen] at hclosed
      obtain ⟨hplanted, hopen⟩ := setOpen_planted hreceived.planted htracked hclosed
      rw [hopened]
      exact hemit (lodge_regular (hreceived.enlisted.beside (beside_setOpen ..)) hplanted hopen) _

theorem shut_planted (h : Planted first [] w.registry) (hopen : w.isOpen p) (text : Text) :
    Planted first [] (w.shut p text).registry ∧ (w.shut p text).registry =
      ((w.registry.modifyOpenFiles (·.removeFirst p)).setOwner p none).setOpen p false := by
  have hreloaded : ((w.modifyDocument p (·.reload text)).markStaleAround p).registry =
      w.registry := by
    rw [registry_markStaleAround]
    exact registry_modifyDocument fun _ _ => ⟨rfl, rfl⟩
  have hopen' : ((w.modifyDocument p (·.reload text)).markStaleAround p).isOpen p := by
    rw [← registry_isOpen, hreloaded]
    exact hopen
  have hregistry := registry_shut hopen'
  rw [hreloaded] at hregistry
  have hplanted := h.shut p
  rw [← hregistry] at hplanted
  exact ⟨hplanted, hregistry⟩

/-- If an inferred project is dissolved as a document is closed then the document was a root, which has left its
list. -/
theorem shut_removeProject_planted (h : Planted first [] w.registry) (hopen : w.isOpen p) (text : Text)
    (hid : p ∈ w.openFiles.roots ∨ (w.shut p text).projectHas id (·.isConfigured)) :
    Planted first [] ((w.shut p text).removeProject id).1.registry := by
  obtain ⟨hshut, hregistry⟩ := shut_planted h hopen text
  refine removeProject_planted hshut ?_
  rcases hid with hroot | hhas
  · have hspare := h.infers_shut hroot
    rw [← hregistry] at hspare
    refine (hspare.evict (some id)).mono ?_
    rw [hregistry]
    exact List.length_filter_le ..
  · refine (hshut.infers.strike ?_).mono (List.length_filter_le ..)
    rintro ⟨c, hc, hkind⟩
    obtain ⟨project, hproject, rfl⟩ := Option.map_eq_some_iff.mp hc
    obtain ⟨project', hproject', hconfigured⟩ := Option.any_eq_true .. |>.mp hhas
    obtain rfl : project = project' := Option.some.inj (hproject.symm.trans hproject')
    exact Project.isConfigured_iff.mp hconfigured hkind

/-- What a document that is closed leaves behind before all is settled. -/
theorem left_planted (h : Planted first [] w.registry) (hopen : w.isOpen p) {text : Text} {left : Workspace}
    (hleft : left = w.shut p text ∨ ∃ id, (p ∈ w.openFiles.roots ∨
      (w.shut p text).projectHas id (·.isConfigured)) ∧ left = (w.shut p text).dissolve id) (e : Event) :
    Planted first [] ((left.cancel (.document p)).emit e).registry := by
  have hplanted : Planted first [] left.registry := by
    rcases hleft with rfl | ⟨id, hid, rfl⟩
    · exact (shut_planted h hopen text).1
    · exact reattach_planted (shut_removeProject_planted h hopen text hid) _
  exact hplanted

theorem regular_close (h : w.Regular) (hopen : w.isOpen p) (text : Text) :
    (w.close p text).Regular := by
  obtain ⟨left, owner?, hleft, heq⟩ := close_dissolves w p text
  have hsteps := turnover_left (hleft.imp_right (Exists.imp fun _ hid => hid.2)) (.closed p owner?)
  rw [heq]
  exact regular_settle (regular_of_planted (h.enlisted.turnover hsteps) (left_planted h.planted hopen hleft _))

theorem regular_closeFile (h : w.Regular) (p : Path) : (w.closeFile p).1.Regular := by
  rcases closeFile_cases w p with hsame | ⟨hopen, text, hclosed⟩
  · rwa [hsame]
  · rw [hclosed]
    exact regular_close h hopen text

/-! ### Runs -/

/-- A document that is given to a project may be a root, which need not have a project of its own then. -/
theorem regular_adoptProjectFor (h : w.Regular) (p : Path) : (w.adoptProjectFor p).1.Regular := by
  have hw := h.enlisted.proceeds (proceeds_adoptProjectFor w p)
  rcases adoptProjectFor_cases w p with hregistry | ⟨id, -, hopen, hregistry, hid⟩
  · exact h.of_registry hw hregistry
  · have hle : id ≤ w.registry.lastProject := by
      rcases hid with hlive | ⟨q, howner⟩
      · exact h.planted.live_le id hlive
      · exact h.planted.owner_le q id howner
    have hgiven := h.planted.reassign hopen hle
    rw [← hregistry] at hgiven
    exact regular_of_planted hw hgiven

theorem regular_perform (h : w.Regular) (op : Operation) : (w.perform op).Regular := by
  have hw := h.enlisted.perform op
  cases op with
  | openFile p text? => exact regular_openFile h p text?
  | closeFile p => exact regular_closeFile h p
  | changeFile p edits => exact h.of_registry hw (registry_changeFile w p edits)
  | changeRange p range text => exact h.of_registry hw (registry_changeRange w p range text)
  | snapshot p => exact h.of_registry hw (registry_snapshot w p)
  | getText p start length => exact h.of_registry hw (registry_query w p _)
  | getTextRange p range => exact h.of_registry hw (registry_query w p _)
  | positionAt p offset => exact h.of_registry hw (registry_query w p _)
  | offsetAt p position => exact h.of_registry hw (registry_query w p _)
  | projectFor p => exact h.of_registry hw (registry_projectFor w p)
  | adoptProjectFor p => exact regular_adoptProjectFor h p
  | takeEvents => exact h.of_registry hw (registry_takeEvents w)
  | fileChanged p change => exact regular_fileChanged h p change
  | advance duration => exact regular_advance h duration
  | flush => exact regular_flush h
  | reload =>
      show w.reload.Regular
      exact regular_reload h
  | settle =>
      show w.settle.Regular
      exact regular_settle h
  | replaceFiles fs =>
      show ({ w with fs } : Workspace).Regular
      exact h.of_registry (h.enlisted.of_roster rfl rfl) rfl

theorem regular_empty {settings : Settings} {scanner : Scanner} {fs : FileSystem} :
    ({ settings, scanner, fs } : Workspace).Regular :=
  have hsound : Sound (.owning scanner.normalizer)
      ({ settings, scanner, fs } : Workspace).registry [] [] [] :=
    sound_empty (t := .owning scanner.normalizer) rfl
  have hplanted : Planted 0 [] ({ settings, scanner, fs } : Workspace).registry :=
    seated_empty.planted 0 hsound
  regular_of_planted enlisted_empty hplanted

theorem regular_run (settings : Settings) (scanner : Scanner) (fs : FileSystem)
    (ops : List Operation) : (({ settings, scanner, fs } : Workspace).run ops).Regular := by
  induction ops using List.reverseRecOn with
  | nil => exact regular_empty
  | append_singleton ops op ih =>
      rw [run_concat]
      exact regular_perform ih op

/-- Settling twice is the same as settling once, also if the files have become others in between. No event is told
about the second time. -/
theorem settle_settle_run (settings : Settings) (scanner : Scanner) (fs : FileSystem)
    (ops : List Operation) :
    let w := ({ settings, scanner, fs } : Workspace).run ops
    w.settle.settle = w.settle ∧
      ∀ fs', ({ w.settle with fs := fs' } : Workspace).settle = { w.settle with fs := fs' } := by
  intro w
  have hw : w.Regular := regular_run settings scanner fs ops
  have hsettled : w.settle.Enlisted := (regular_settle hw).enlisted
  have hneat : w.settle.Neat := neat_settle hw.planted hw.enlisted
  generalize w.settle = settled at hsettled hneat ⊢
  refine ⟨settle_eq_self hsettled hneat, fun fs' => ?_⟩
  exact settle_eq_self (hsettled.of_roster rfl rfl) (hneat.of_eq rfl rfl fun _ hp => hp)

/-- A document that was given the project of another one is told about once. -/
example :
    let path (names : List String) : Path := ⟨names.map .name⟩
    let start : Workspace :=
      { settings := {}
        scanner := ⟨.empty, ⟨path ["w"], true⟩⟩
        fs := FileSystem.ofFiles [(path ["w", "a"], []), (path ["w", "w", "a"], [])] }
    let w := start.run [.openFile (path ["a"]) none, .openFile (path ["w", "a"]) none,
      .adoptProjectFor (path ["a"])]
    w.settle.events ≠ w.events ∧ w.settle.settle.events = w.settle.events := by
  decide +kernel

end Workspace

end ProjectTracker
