import ProjectTracker.Proofs.Workspace.Lasting
import ProjectTracker.Proofs.Workspace.Ticking
/-!
Giving documents to projects and following manifests makes nothing wait. Work is called off on the way only if it is
about a closed document, or about a project that goes.
-/

namespace ProjectTracker

namespace Document

theorem hasPending_fold (d : Document) : d.fold.history.hasPending = false := by
  rw [fold, History.hasPending, History.pending_fold]
  rfl

theorem hasPending_reloadIfChanged (d : Document) (text : Text) :
    (d.reloadIfChanged text).1.history.hasPending → d.history.hasPending := by
  rcases d.reloadIfChanged_cases text with hkept | hloaded
  · rw [hkept]
    rcases d.fingerprinted_cases with hknown | hfound
    · rw [hknown]
      exact id
    · rw [hfound]
      exact fun h => absurd (d.hasPending_fold.symm.trans h) Bool.false_ne_true
  · rw [hloaded]
    exact fun h => absurd h Bool.false_ne_true

end Document

namespace Workspace

variable {w w' w'' : Workspace} {p : Path} {id : ProjectId}

/-! ### Edits that wait -/

/-- Whether edits of a document wait. -/
def hasEdits (w : Workspace) (p : Path) : Bool :=
  (w.documents.get? p).any (·.history.hasPending)

theorem hasEdits_modifyDocument (w : Workspace) (p q : Path) (f : Document → Document) :
    (w.modifyDocument p f).hasEdits q =
      if p = q then (w.documents.get? q).any (fun d => (f d).history.hasPending) else w.hasEdits q := by
  rw [hasEdits, get?_modifyDocument]
  split
  · cases w.documents.get? q <;> rfl
  · rfl

theorem hasEdits_fold (w : Workspace) (p : Path) : (w.fold p).hasEdits p = false := by
  rw [fold, hasEdits_modifyDocument, if_pos rfl]
  cases w.documents.get? p with
  | none => rfl
  | some d => exact d.hasPending_fold

/-- No edits come to wait as documents are given to projects. -/
theorem oversees_hasEdits : Oversees fun w w' => ∀ p, w'.hasEdits p → w.hasEdits p where
  of_eq heq p h := by
    rw [hasEdits] at h ⊢
    rwa [← heq]
  trans h h' p hp := h p (h' p hp)
  fold w p q h := by
    by_cases hq : p = q
    · subst hq
      simp [hasEdits_fold] at h
    · rw [fold, hasEdits_modifyDocument, if_neg hq] at h
      exact h
  track {w p} text _ q h := by
    by_cases hq : q = p
    · subst hq
      simp [hasEdits, Workspace.track, Store.get?, Store.insert, Document.create, Spelling.ofPath,
        History.ofText, History.hasPending] at h
    · rw [hasEdits, w.get?_track hq text] at h
      exact h
  setOwner w p owner? q h := by
    rw [hasEdits, get?_setOwner] at h
    rw [hasEdits]
    split at h
    · cases hd : w.documents.get? q with
      | none => simp [hd] at h
      | some d => simpa [hd] using h
    · exact h
  forget {w p} _ q h := by
    rw [hasEdits, get?_forget] at h
    split at h
    · simp at h
    · rename_i hq
      rwa [get?_unwatch, if_neg hq] at h

/-! ### Less to do -/

/-- The parts of a workspace that say what waits, and for what. -/
structure Agenda where
  timers : TimerQueue Topic Task
  settings : Settings
  changeCount : Nat
  configured : List ProjectId

def agenda (w : Workspace) : Agenda :=
  ⟨w.timers, w.settings, w.changeCount, w.configured⟩

/-- Nothing comes to wait, and what is called off is about a closed document or about a project that goes. -/
structure Relieves (w w' : Workspace) : Prop extends Slackens w w' where
  settings : w'.settings = w.settings
  changeCount : w'.changeCount = w.changeCount
  isOpen : ∀ p, w.isOpen p → w'.isOpen p
  edits : ∀ p, w'.hasEdits p → w.hasEdits p
  kept : ∀ timer ∈ w.timers.timers, ∀ p, timer.key = .document p → w.isOpen p →
    timer ∈ w'.timers.timers
  configured : ∀ id ∈ w.configured,
    id ∈ w'.configured ∨ ∀ timer ∈ w'.timers.timers, timer.key ≠ .project id

theorem Relieves.of_agenda (h : w'.agenda = w.agenda) (hopen : ∀ p, w.isOpen p → w'.isOpen p)
    (hedits : ∀ p, w'.hasEdits p → w.hasEdits p) : Relieves w w' := by
  obtain ⟨htimers, hsettings, hcount, hconfigured⟩ := Agenda.mk.inj h
  refine ⟨.of_eq htimers, hsettings, hcount, hopen, hedits, fun timer htimer _ _ _ => ?_,
    fun id hid => .inl ?_⟩
  · rwa [htimers]
  · rwa [hconfigured]

/-- The documents do not matter. -/
theorem Relieves.of_documents (h : w'.agenda = w.agenda) (hdocuments : w'.documents = w.documents) :
    Relieves w w' :=
  .of_agenda h (fun _ hp => (oversees_isOpen.of_eq hdocuments) ▸ hp) (oversees_hasEdits.of_eq hdocuments)

theorem Relieves.refl (w : Workspace) : Relieves w w :=
  .of_documents rfl rfl

theorem Relieves.trans (h : Relieves w w') (h' : Relieves w' w'') : Relieves w w'' where
  toSlackens := h.toSlackens.trans h'.toSlackens
  settings := h'.settings.trans h.settings
  changeCount := h'.changeCount.trans h.changeCount
  isOpen p hp := h'.isOpen p (h.isOpen p hp)
  edits p hp := h.edits p (h'.edits p hp)
  kept timer htimer p hkey hp := h'.kept timer (h.kept timer htimer p hkey hp) p hkey (h.isOpen p hp)
  configured id hid := by
    rcases h.configured id hid with hid | hnone
    · exact h'.configured id hid
    · exact .inr fun timer htimer => hnone timer (h'.timers.subset htimer)

theorem Relieves.foldl {α : Type} {step : Workspace → α → Workspace}
    (h : ∀ w x, Relieves w (step w x)) (xs : List α) (w : Workspace) :
    Relieves w (xs.foldl step w) := by
  induction xs generalizing w with
  | nil => exact .refl w
  | cons x xs ih => exact (h w x).trans (ih _)

theorem agenda_foldl {α : Type} {step : Workspace → α → Workspace}
    (h : ∀ w x, (step w x).agenda = w.agenda) (xs : List α) (w : Workspace) :
    (xs.foldl step w).agenda = w.agenda := by
  induction xs generalizing w with
  | nil => rfl
  | cons x xs ih => exact (ih (step w x)).trans (h w x)

theorem agenda_load (w : Workspace) (p : Path) : (w.load p).agenda = w.agenda := by
  rw [load]
  split
  · rfl
  · split <;> rfl

theorem agenda_unwatch (w : Workspace) (p : Path) : (w.unwatch p).agenda = w.agenda := by
  rw [unwatch]
  split <;> rfl

theorem agenda_setOwner (w : Workspace) (p : Path) (owner? : Option ProjectId) :
    (w.setOwner p owner?).agenda = w.agenda := by
  rw [setOwner]
  split
  · rfl
  · rename_i d _
    split
    · rfl
    · dsimp only
      split
      · cases d.owner? <;> cases owner? <;> rfl
      · rfl

theorem agenda_joinLookout (w : Workspace) (dir : Path) : (w.joinLookout dir).agenda = w.agenda := by
  rw [joinLookout]
  split <;> rfl

theorem agenda_leaveLookout (w : Workspace) (dir : Path) : (w.leaveLookout dir).agenda = w.agenda := by
  rw [leaveLookout]
  split
  · rfl
  · split <;> rfl

theorem agenda_refreshProject (w : Workspace) (id : ProjectId) :
    (w.refreshProject id).agenda = w.agenda := by
  rw [refreshProject]
  split
  · rfl
  · rename_i project _
    dsimp only
    generalize w.scanner.fileSet w.sources project.roots = files
    rw [agenda_foldl agenda_load]
    exact agenda_foldl (fun (w : Workspace) p => show (w.fold p).agenda = w.agenda from rfl) files _

theorem relieves_setOwner (w : Workspace) (p : Path) (owner? : Option ProjectId) :
    Relieves w (w.setOwner p owner?) :=
  .of_agenda (agenda_setOwner ..) (fun _ hq => (oversees_isOpen.setOwner w p owner?) ▸ hq)
    (oversees_hasEdits.setOwner w p owner?)

theorem relieves_refreshProject (w : Workspace) (id : ProjectId) :
    Relieves w (w.refreshProject id) :=
  .of_agenda (agenda_refreshProject ..) (fun _ hq => (oversees_isOpen.refreshProject w id) ▸ hq)
    (oversees_hasEdits.refreshProject w id)

theorem agenda_forget (w : Workspace) (p : Path) : (w.forget p).agenda =
    if w.isTracked p then { w.agenda with timers := w.timers.cancel (.document p) } else w.agenda := by
  rw [forget]
  split
  · have hunwatched := Agenda.mk.inj (agenda_unwatch w p)
    dsimp only
    rw [agenda, cancel]
    dsimp only
    rw [hunwatched.1, hunwatched.2.1, hunwatched.2.2.1, hunwatched.2.2.2]
    rfl
  · rfl

/-- A document that is forgotten is closed. -/
theorem relieves_forget (h : w.isOpen p = false) : Relieves w (w.forget p) := by
  have hopen : (w.forget p).isOpen = w.isOpen := isOpen_forget h
  have hedits := oversees_hasEdits.forget h
  have hagenda := agenda_forget w p
  split at hagenda
  · obtain ⟨htimers, hsettings, hcount, hconfigured⟩ := Agenda.mk.inj hagenda
    refine ⟨slackens_forget w p, hsettings, hcount, fun q hq => hopen ▸ hq, hedits,
      fun timer htimer q hkey hq => ?_, fun id hid => .inl (hconfigured ▸ hid)⟩
    rw [htimers]
    refine List.mem_filter.mpr ⟨htimer, ?_⟩
    have hne : q ≠ p := by
      rintro rfl
      simp [h] at hq
    simpa [hkey] using hne
  · exact .of_agenda hagenda (fun q hq => hopen ▸ hq) hedits

theorem agenda_removeProject (w : Workspace) (id : ProjectId) : (w.removeProject id).1.agenda =
    if (w.projects.get? id).isSome then
      { w.agenda with
        timers := w.timers.cancel (.project id)
        configured := w.configured.filter (· ≠ id) }
    else w.agenda := by
  rw [removeProject]
  cases w.projects.get? id with
  | none => rfl
  | some project =>
      have hdetach (w : Workspace) (p : Path) : (w.detach p).agenda = w.agenda :=
        agenda_setOwner (w.modifyOpenFiles (·.remove p)) p none
      have hrelease (w : Workspace) (watch : WatchId) : (w.releaseWatch watch).agenda = w.agenda := rfl
      have hleft : (project.lookouts.foldl leaveLookout (project.watches.foldl releaseWatch w)).agenda =
          w.agenda :=
        (agenda_foldl agenda_leaveLookout ..).trans (agenda_foldl hrelease project.watches w)
      dsimp only
      generalize project.lookouts.foldl leaveLookout _ = left at hleft ⊢
      obtain ⟨htimers, hsettings, hcount, hconfigured⟩ := Agenda.mk.inj hleft
      refine (agenda_foldl hdetach _ _).trans ?_
      rw [agenda, cancel]
      dsimp only
      rw [htimers, hsettings, hcount, hconfigured]
      rfl

theorem relieves_removeProject (w : Workspace) (id : ProjectId) :
    Relieves w (w.removeProject id).1 := by
  have hopen : (w.removeProject id).1.isOpen = w.isOpen := oversees_isOpen.removeProject w id
  have hedits := oversees_hasEdits.removeProject w id
  have hagenda := agenda_removeProject w id
  split at hagenda
  · obtain ⟨htimers, hsettings, hcount, hconfigured⟩ := Agenda.mk.inj hagenda
    refine ⟨slackens_removeProject w id, hsettings, hcount, fun q hq => hopen ▸ hq, hedits,
      fun timer htimer q hkey _ => ?_, fun i hi => ?_⟩
    · rw [htimers]
      exact List.mem_filter.mpr ⟨htimer, by simp [hkey]⟩
    · rw [htimers, hconfigured]
      by_cases hgone : i = id
      · subst hgone
        exact .inr fun timer htimer => by simpa using (List.mem_filter.mp htimer).2
      · exact .inl (List.mem_filter.mpr ⟨hi, by simpa using hgone⟩)
  · exact .of_agenda hagenda (fun q hq => hopen ▸ hq) hedits

theorem relieves_createInferred (w : Workspace) (root : Path) :
    Relieves w (w.createInferred root).1 := by
  have hagenda : (w.createInferred root).1.agenda = w.agenda := by
    rw [createInferred]
    dsimp only
    refine (agenda_refreshProject ..).trans ?_
    exact agenda_foldl agenda_joinLookout root.ancestors { w with lastProject := w.lastProject + 1 }
  exact .of_agenda hagenda (fun _ hq => (oversees_isOpen.createInferred w root) ▸ hq)
    (oversees_hasEdits.createInferred w root)

theorem relieves_createConfigured (w : Workspace) (manifest : Path) (outcome : Manifest.Outcome) :
    Relieves w (w.createConfigured manifest outcome) := by
  have hopen : (w.createConfigured manifest outcome).isOpen = w.isOpen :=
    oversees_isOpen.createConfigured w manifest outcome
  have hedits := oversees_hasEdits.createConfigured w manifest outcome
  have hagenda : (w.createConfigured manifest outcome).agenda = w.agenda ∨
      (w.createConfigured manifest outcome).agenda =
        { w.agenda with configured := w.configured ++ [w.lastProject + 1] } := by
    rw [createConfigured]
    split
    · right
      dsimp only
      have hloaded : (outcome.roots.foldl load { w with lastProject := w.lastProject + 1 }).agenda =
          w.agenda :=
        agenda_foldl agenda_load ..
      generalize outcome.roots.foldl load _ = loaded at hloaded ⊢
      obtain ⟨htimers, hsettings, hcount, hconfigured⟩ := Agenda.mk.inj hloaded
      refine (agenda_refreshProject ..).trans ?_
      cases manifest.parent? <;> simp [agenda, watch, htimers, hsettings, hcount, hconfigured]
    · exact .inl rfl
  rcases hagenda with hagenda | hagenda
  · exact .of_agenda hagenda (fun _ hq => hopen ▸ hq) hedits
  · obtain ⟨htimers, hsettings, hcount, hconfigured⟩ := Agenda.mk.inj hagenda
    refine ⟨.of_eq htimers, hsettings, hcount, fun _ hq => hopen ▸ hq, hedits,
      fun timer htimer _ _ _ => ?_, fun id hid => .inl ?_⟩
    · rwa [htimers]
    · rw [hconfigured]
      exact List.mem_append_left _ hid

theorem relieves_sweep (w : Workspace) : Relieves w w.sweep :=
  sweep_of_forget .refl .trans relieves_forget w

theorem governs_relieves : Governs Relieves where
  refl := .refl
  trans := .trans
  emit _ _ := .of_documents rfl rfl
  modifyOpenFiles _ _ := .of_documents rfl rfl
  setOwner := relieves_setOwner
  refreshProject := relieves_refreshProject
  removeProject := relieves_removeProject
  createInferred := relieves_createInferred
  sweep := relieves_sweep
  fold w p := .of_agenda rfl (fun _ hq => (oversees_isOpen.fold w p) ▸ hq) (oversees_hasEdits.fold w p)
  load w p := .of_agenda (agenda_load w p) (fun _ hq => (oversees_isOpen.load w p) ▸ hq)
    (oversees_hasEdits.load w p)
  modifyProject _ _ _ := .of_documents rfl rfl
  createConfigured := relieves_createConfigured

/-! ### Questions and openings -/

theorem relieves_query {α : Type} (w : Workspace) (p : Path) (ask : Snapshot → Except Failure α) :
    Relieves w (w.query p ask).1 := by
  rw [query]
  split
  · exact .refl w
  · exact governs_relieves.fold ..

theorem relieves_projectFor (w : Workspace) (p : Path) : Relieves w (w.projectFor p).1 := by
  rw [projectFor]
  dsimp only
  split
  · split
    · exact .refl w
    · exact governs_relieves.refresh w
  · exact .refl w

theorem relieves_adoptProjectFor (w : Workspace) (p : Path) :
    Relieves w (w.adoptProjectFor p).1 := by
  have hasked : Relieves w (w.projectFor (w.normalize p)).1 := relieves_projectFor ..
  rw [adoptProjectFor]
  generalize w.projectFor (w.normalize p) = answer at hasked ⊢
  obtain ⟨asked, id?⟩ := answer
  cases id? with
  | none => exact hasked
  | some id =>
      dsimp only
      split
      · exact hasked.trans (relieves_setOwner ..)
      · exact hasked

/-- A document may be given another text. -/
theorem relieves_reloadIfChanged {d : Document} (hd : w.documents.get? p = some d) (text : Text) :
    Relieves w (w.modifyDocument p fun _ => (d.reloadIfChanged text).1) := by
  have hopen : (w.modifyDocument p fun _ => (d.reloadIfChanged text).1).isOpen = w.isOpen :=
    congrArg Registry.isOpen (registry_modify_retexted hd (d.retexts_reloadIfChanged text))
  refine .of_agenda rfl (fun _ hq => hopen ▸ hq) fun q hq => ?_
  rw [hasEdits_modifyDocument] at hq
  split at hq
  · subst q
    rw [hd] at hq
    rw [hasEdits, hd]
    exact d.hasPending_reloadIfChanged text hq
  · exact hq

theorem relieves_setOpen (w : Workspace) (p : Path) :
    Relieves w (w.modifyDocument p fun d => { d with isOpen := true }) := by
  refine .of_agenda rfl (fun q hq => ?_) fun q hq => ?_
  · rw [isOpen, get?_modifyDocument]
    rw [isOpen] at hq
    split
    · cases hd : w.documents.get? q with
      | none => simp [hd] at hq
      | some d => rfl
    · exact hq
  · rw [hasEdits_modifyDocument] at hq
    split at hq
    · exact hq
    · exact hq

theorem relieves_receive {text? : Option Text} {received : Workspace}
    (h : w.receive p text? = .ok received) : Relieves w received := by
  have htrack (text : Text) (hd : w.documents.get? p = none) : Relieves w (w.track p text) := by
    have hnew : w.isTracked p = false := by simp [isTracked_eq, hd]
    exact .of_agenda rfl (fun _ hq => (oversees_isOpen.track text hnew) ▸ hq)
      (oversees_hasEdits.track text hnew)
  unfold receive at h
  split at h
  · rename_i d text hd
    have hread := relieves_reloadIfChanged hd text
    generalize d.reloadIfChanged text = reloaded at h hread
    obtain ⟨d', changed⟩ := reloaded
    obtain rfl := Except.ok.inj h
    cases changed with
    | false => exact hread
    | true => exact hread.trans (.of_documents rfl rfl)
  · obtain rfl := Except.ok.inj h
    exact .refl w
  · rename_i text hd
    obtain rfl := Except.ok.inj h
    exact htrack text hd
  · rename_i hd
    split at h
    · obtain rfl := Except.ok.inj h
      exact htrack _ hd
    · simp at h
    · simp at h

theorem relieves_openFile (w : Workspace) (p : Path) (text? : Option Text) :
    Relieves w (w.openFile p text?).1 := by
  rcases openFile_cases w p text? with hsame | ⟨received, hreceive, hopened⟩
  · rw [hsame]
    exact .refl w
  · have hreceived := relieves_receive hreceive
    rcases hopened with ⟨-, hopened⟩ | ⟨opened, lodged, -, rfl, rfl, hopened⟩
    · rw [hopened]
      exact hreceived.trans (governs_relieves.emit ..)
    · rw [hopened, lodge]
      refine (hreceived.trans (relieves_setOpen received (w.normalize p))).trans ?_
      exact ((governs_relieves.consultManifest ..).trans (governs_relieves.attach ..)).trans
        ((governs_relieves.prune _).trans ((relieves_sweep _).trans (governs_relieves.emit ..)))

/-- A document whose file is gone is forgotten if it is closed. -/
theorem relieves_documentDeleted (w : Workspace) (p : Path) : Relieves w (w.documentDeleted p) := by
  rw [documentDeleted]
  cases hopen : w.isOpen p with
  | true =>
      dsimp only
      rw [if_pos rfl]
      have hunwatched : Relieves w (w.unwatch p) := by
        refine .of_agenda (agenda_unwatch w p) (fun q hq => ?_) fun q hq => ?_
        · have hsame := congrFun (congrArg Registry.isOpen (registry_unwatch w p)) q
          exact hsame.trans hq
        · rw [hasEdits, get?_unwatch] at hq
          rw [hasEdits]
          split at hq
          · cases hd : w.documents.get? q with
            | none => simp [hd] at hq
            | some d => simpa [hd] using hq
          · exact hq
      exact hunwatched.trans (governs_relieves.emit ..)
  | false =>
      dsimp only
      rw [if_neg Bool.false_ne_true]
      have hdrop (w : Workspace) (id : ProjectId) : Relieves w
          (w.modifyProject id fun project => (project.removeRoot p).markStale) :=
        .of_documents rfl rfl
      have htell (w : Workspace) (q : Path) : Relieves w (w.emit (.contextChanged q (w.owner? q))) :=
        .of_documents rfl rfl
      have hdropped := (relieves_forget hopen).trans
        (.foldl hdrop (w.projects.keys.filter fun id => w.projectHas id (·.contains p)) _)
      generalize List.foldl _ (w.forget p) _ = dropped at hdropped ⊢
      exact (hdropped.trans (governs_relieves.refresh _)).trans
        ((Relieves.foldl htell _ _).trans (governs_relieves.settle _))

end Workspace

end ProjectTracker
