import ProjectTracker.Proofs.Document.Drafts
import ProjectTracker.Proofs.TimerQueue.Order
import ProjectTracker.Proofs.Workspace.Manifests
/-!
What is asked of a workspace, and what happens to its files, keeps the invariant.
-/

namespace ProjectTracker

namespace Document

/-- Two states of a document that differ in nothing but the text. -/
structure Retexts (d d' : Document) : Prop where
  isOpen : d'.isOpen = d.isOpen
  owner? : d'.owner? = d.owner?
  watch? : d'.watch? = d.watch?

theorem Retexts.trans {d d' d'' : Document} (h : d.Retexts d') (h' : d'.Retexts d'') : d.Retexts d'' :=
  ⟨h'.isOpen.trans h.isOpen, h'.owner?.trans h.owner?, h'.watch?.trans h.watch?⟩

theorem retexts_fingerprinted (d : Document) : d.Retexts d.fingerprinted.1 := by
  rcases d.fingerprinted_cases with h | h <;> rw [h] <;> exact ⟨rfl, rfl, rfl⟩

theorem retexts_reload (d : Document) (text : Text) : d.Retexts (d.reload text) :=
  ⟨rfl, rfl, rfl⟩

theorem retexts_reloadIfChanged (d : Document) (text : Text) :
    d.Retexts (d.reloadIfChanged text).1 := by
  rcases d.reloadIfChanged_cases text with hkept | hloaded
  · rw [hkept]
    exact d.retexts_fingerprinted
  · rw [hloaded]
    exact d.retexts_fingerprinted.trans (retexts_reload ..)

theorem retexts_edit {d d' : Document} {c : Change} (h : d.edit c = .ok d') : d.Retexts d' := by
  unfold edit at h
  split at h
  · obtain rfl := Except.ok.inj h
    exact ⟨rfl, rfl, rfl⟩
  · simp at h

/-- What one edit keeps edits keep. -/
theorem editAll_keeps (property : Document → Prop)
    (hedit : ∀ {d d' c}, edit d c = .ok d' → property d → property d') {edits : List Edit}
    {d d' : Document} (hd : property d) (h : d.editAll edits = .ok d') : property d' := by
  unfold editAll at h
  induction edits generalizing d with
  | nil =>
      obtain rfl : d = d' := Except.ok.inj h
      exact hd
  | cons e edits ih =>
      rw [List.foldlM_cons] at h
      cases hmade : d.edit e.change with
      | error failure => simp [hmade, bind, Except.bind] at h
      | ok next =>
          rw [hmade] at h
          exact ih (hedit hmade hd) h

theorem retexts_editAll {edits : List Edit} {d d' : Document} (h : d.editAll edits = .ok d') :
    d.Retexts d' :=
  editAll_keeps d.Retexts (fun hedit hd => hd.trans (retexts_edit hedit)) ⟨rfl, rfl, rfl⟩ h

end Document

namespace Workspace

open Registry

variable {t : Terms} {w : Workspace} {loose guests : List Path} {p : Path}

/-! ### Questions and edits -/

@[simp] theorem registry_query {α : Type} (w : Workspace) (p : Path)
    (ask : Snapshot → Except Failure α) : (w.query p ask).1.registry = w.registry := by
  unfold query
  dsimp only
  split
  · rfl
  · exact registry_fold ..

@[simp] theorem registry_snapshot (w : Workspace) (p : Path) :
    (w.snapshot p).1.registry = w.registry :=
  registry_query ..

/-- Edits are made all at once: if there is any failure nothing happens at all. -/
theorem changeFile_result (w : Workspace) (p : Path) (edits : List Edit) :
    (∃ failure, w.changeFile p edits = (w, .error failure)) ∨
      ∃ d d', w.documents.get? (w.normalize p) = some d ∧ d.isOpen ∧
        Edit.checkAll d.history.length edits = .ok () ∧ d.editAll edits = .ok d' ∧
        let edited := (w.modifyDocument (w.normalize p) fun _ => d').schedule (.fold (w.normalize p))
          w.settings.timing.editCoalesce
        let told := edited.textChanged.markStaleAround (w.normalize p)
        w.changeFile p edits =
          (told.emit (.changed (w.normalize p) (told.owner? (w.normalize p)) d'.version), .ok d'.version) := by
  unfold changeFile
  dsimp only
  split
  · exact .inl ⟨_, rfl⟩
  · rename_i d hd
    split
    · exact .inl ⟨_, rfl⟩
    · rename_i d' hd'
      refine .inr ⟨d, d', hd, ?_⟩
      cases hopen : d.isOpen with
      | false => simp [hopen, bind, Except.bind, throw, throwThe, MonadExceptOf.throw] at hd'
      | true =>
          cases hcheck : Edit.checkAll d.history.length edits with
          | error failure => simp [hopen, hcheck, bind, Except.bind] at hd'
          | ok _ =>
              have hedited : d.editAll edits = .ok d' := by
                simpa [hopen, hcheck, bind, Except.bind] using hd'
              exact ⟨rfl, rfl, hedited, rfl⟩

/-- Edits that fit an open document change its text, and work is left to be done for that. -/
theorem changeFile_cases (w : Workspace) (p : Path) (edits : List Edit) :
    (w.changeFile p edits).1 = w ∨
      ∃ d d' owner? version, w.documents.get? (w.normalize p) = some d ∧ d.Retexts d' ∧
        (w.changeFile p edits).1 =
          (((w.modifyDocument (w.normalize p) fun _ => d').schedule (.fold (w.normalize p))
            w.settings.timing.editCoalesce).textChanged.markStaleAround (w.normalize p)).emit
              (.changed (w.normalize p) owner? version) := by
  rcases w.changeFile_result p edits with ⟨failure, hfailed⟩ | ⟨d, d', hd, -, -, hedited, hchanged⟩
  · exact .inl (by rw [hfailed])
  · exact .inr ⟨d, d', _, _, hd, Document.retexts_editAll hedited, by rw [hchanged]⟩

theorem registry_modify_retexted {d d' : Document} (hd : w.documents.get? p = some d)
    (h : d.Retexts d') : (w.modifyDocument p fun _ => d').registry = w.registry := by
  apply registry_modifyDocument
  intro d₀ hd₀
  obtain rfl : d = d₀ := Option.some.inj (hd.symm.trans hd₀)
  exact ⟨h.isOpen, h.owner?⟩

@[simp] theorem registry_changeFile (w : Workspace) (p : Path) (edits : List Edit) :
    (w.changeFile p edits).1.registry = w.registry := by
  rcases changeFile_cases w p edits with hsame | ⟨d, d', owner?, version, hd, hretexts, hchanged⟩
  · rw [hsame]
  · rw [hchanged, registry_emit, registry_markStaleAround, registry_textChanged, registry_schedule]
    exact registry_modify_retexted hd hretexts

@[simp] theorem registry_changeRange (w : Workspace) (p : Path) (range : PositionRange)
    (text : Text) : (w.changeRange p range text).1.registry = w.registry := by
  have hsnapshot := registry_snapshot w p
  unfold changeRange
  split
  · rename_i heq
    rwa [heq] at hsnapshot
  · rename_i heq
    rw [registry_changeFile]
    rwa [heq] at hsnapshot

theorem registry_projectFor (w : Workspace) (p : Path) :
    (w.projectFor p).1.registry = w.registry := by
  unfold projectFor
  dsimp only
  split
  · split
    · rfl
    · exact registry_refresh w
  · rfl

theorem isTracked_eq (w : Workspace) (p : Path) :
    w.isTracked p = (w.documents.get? p).isSome := rfl

/-- Having a document tracked changes nothing for the registry. -/
theorem receive_eq {text? : Option Text} {received : Workspace}
    (h : w.receive p text? = .ok received) :
    received.registry = w.registry ∧ received.isTracked p := by
  have htrack (text : Text) (hd : w.documents.get? p = none) :
      (w.track p text).registry = w.registry ∧ (w.track p text).isTracked p := by
    refine ⟨registry_track (by simpa [isTracked_eq] using hd) text, ?_⟩
    simp [isTracked_eq, track, Store.get?, Store.insert, Document.create, Spelling.ofPath]
  unfold receive at h
  split at h
  · rename_i d text hd
    have hmodified := registry_modify_retexted hd (d.retexts_reloadIfChanged text)
    generalize d.reloadIfChanged text = reloaded at h hmodified
    obtain ⟨d', changed⟩ := reloaded
    have htracked : (w.modifyDocument p fun _ => d').isTracked p := by
      have hd' : w.documents.documents.get? p = some d := hd
      simp [isTracked_eq, modifyDocument, Store.get?, Store.modify, hd']
    cases changed with
    | false =>
        obtain rfl := Except.ok.inj h
        exact ⟨hmodified, htracked⟩
    | true =>
        obtain rfl := Except.ok.inj h
        exact ⟨(registry_markStaleAround ..).trans hmodified, htracked⟩
  · rename_i d hd
    obtain rfl := Except.ok.inj h
    exact ⟨rfl, by simp [isTracked_eq, hd]⟩
  · rename_i text hd
    obtain rfl := Except.ok.inj h
    exact htrack text hd
  · rename_i hd
    split at h
    · obtain rfl := Except.ok.inj h
      exact htrack _ hd
    · simp at h
    · simp at h

/-! ### Changes of files and the clock -/

/-- A closed document whose file changed is read again, unless the file is gone. -/
theorem documentChanged_cases (w : Workspace) (p : Path) (change : FileChange) :
    w.documentChanged p change = w ∨ w.documentChanged p change = w.documentDeleted p ∨
    ∃ d text, w.documents.get? p = some d ∧ w.documentChanged p change =
      if (d.reloadIfChanged text).2 then
        ((w.modifyDocument p fun _ => (d.reloadIfChanged text).1).markStaleAround p).textChanged
      else w.modifyDocument p fun _ => (d.reloadIfChanged text).1 := by
  unfold documentChanged
  split
  · exact .inr (.inl rfl)
  · split
    · exact .inl rfl
    · split
      · exact .inr (.inl rfl)
      · rename_i text _
        split
        · exact .inl rfl
        · rename_i d hd
          exact .inr (.inr ⟨d, text, hd, rfl⟩)

/-- What a change of a file means for a purpose of watching it concerns a document, or manifests. -/
theorem respond_keeps (property : Workspace → Prop) (p : Path) (change : FileChange)
    {purpose : WatchPurpose}
    (hdocument : ∀ q, purpose = .document q → property w → property (w.documentChanged q change))
    (hmanifest : ∀ w id trigger?, property w → property (w.updateConfigured id trigger?).settle)
    (hschedule : ∀ w id delay, (w.manifestOf? id).isSome → property w →
      property (w.schedule (.reread id) delay))
    (hdiscover : ∀ w manifest, property w → property (w.discoverManifest manifest))
    (h : property w) : property (respond p change w purpose) := by
  cases purpose with
  | document q => exact hdocument q rfl h
  | manifest id =>
      show property (w.updateConfigured id (some p)).settle
      exact hmanifest w id (some p) h
  | sourceTree id =>
      unfold respond sourceTreeChanged
      dsimp only
      split
      · exact h
      · rename_i manifest hmanifest
        split
        · exact h
        · exact hschedule _ _ _ (by simp [hmanifest]) h
  | lookout dir =>
      unfold respond
      dsimp only
      split
      · exact hdiscover _ _ h
      · exact h

/-- A change of a file concerns the text of a document, or manifests. -/
theorem fileChanged_keeps (property : Workspace → Prop)
    (hdocument : ∀ w p change, property w → property (w.documentChanged p change))
    (hmanifest : ∀ w id trigger?, property w → property (w.updateConfigured id trigger?).settle)
    (hschedule : ∀ w id delay, (w.manifestOf? id).isSome → property w →
      property (w.schedule (.reread id) delay))
    (hdiscover : ∀ w manifest, property w → property (w.discoverManifest manifest))
    (h : property w) (p : Path) (change : FileChange) : property (w.fileChanged p change) :=
  List.foldlRecOn _ _ h fun v h _ _ =>
    respond_keeps property _ change (fun q _ => hdocument v q change) hmanifest hschedule hdiscover h

/-- As time passes tasks are done. -/
theorem advance_keeps (property : Workspace → Prop)
    (hclock : ∀ w timers, timers.timers ⊆ w.timers.timers → property w → property { w with timers })
    (htask : ∀ w task, property w → property (w.runTask task)) (h : property w)
    (duration : Nat) : property (w.advance duration) := by
  have hdue (limit count : Nat) (w : Workspace) (h : property w) :
      property (runDue limit count w) := by
    induction count generalizing w with
    | zero => exact h
    | succ count ih =>
        unfold runDue
        split
        · exact h
        · rename_i timers timer hpop
          have hfewer : timers.timers ⊆ w.timers.timers := by
            rw [TimerQueue.timers_of_popDue hpop]
            exact List.subset_cons_self timer timers.timers
          exact ih _ (htask _ _ (hclock _ _ hfewer h))
  exact hclock _ _ (fun _ htimer => htimer) (hdue _ _ w h)

theorem flush_keeps (property : Workspace → Prop)
    (hadvance : ∀ w duration, property w → property (w.advance duration)) (h : property w) :
    property w.flush := by
  unfold flush
  generalize w.timers.size = count
  induction count generalizing w with
  | zero => exact h
  | succ count ih =>
      unfold flushWithin
      split
      · exact h
      · exact ih (hadvance _ _ h)

theorem registry_dropFile (w : Workspace) (id : ProjectId) (p : Path) :
    (w.modifyProject id fun project => (project.removeRoot p).markStale).registry =
      w.registry.modifyRoots id (·.filter (· ≠ p)) :=
  registry_modifyRoots fun project => project.charter_removeRoot p

/-- Taking a file from the roots of projects. -/
theorem foldl_removeRoot_sound (h : Sound t w.registry loose [] guests) (p : Path)
    (ids : List ProjectId) :
    Sound t (ids.foldl (fun w id =>
      w.modifyProject id fun project => (project.removeRoot p).markStale) w).registry loose []
      guests := by
  induction ids generalizing w with
  | nil => exact h
  | cons id ids ih =>
      apply ih
      rw [registry_dropFile]
      exact h.modifyRoots ..

theorem documentDeleted_sound (h : Sound t.settled w.registry [] [] []) (p : Path) :
    Sound t.settled (w.documentDeleted p).registry [] [] [] := by
  unfold documentDeleted
  cases hopen : w.isOpen p with
  | true =>
      dsimp only
      rw [if_pos rfl, registry_emit, registry_unwatch]
      exact h
  | false =>
      -- a closed document belongs to no project, so that nothing is lost when it is forgotten
      have hnone : w.owner? p = none := by
        by_contra hne
        simpa [hopen] using h.owned_open p hne
      rw [← registry_forget hopen hnone] at h
      dsimp only
      rw [if_neg Bool.false_ne_true]
      apply settle_sound (t := t.settled)
      rw [registry_foldl fun w q _ => registry_emit w _, registry_refresh]
      exact foldl_removeRoot_sound h p _

theorem documentChanged_sound (h : Sound t.settled w.registry [] [] []) (p : Path)
    (change : FileChange) : Sound t.settled (w.documentChanged p change).registry [] [] [] := by
  rcases documentChanged_cases w p change with hsame | hdeleted | ⟨d, text, hd, hread⟩
  · rwa [hsame]
  · rw [hdeleted]
    exact documentDeleted_sound h p
  · rw [hread]
    have hmodified := registry_modify_retexted hd (d.retexts_reloadIfChanged text)
    split
    · rwa [registry_textChanged, registry_markStaleAround, hmodified]
    · rwa [hmodified]

theorem fileChanged_sound (h : Sound t.settled w.registry [] [] []) (p : Path)
    (change : FileChange) : Sound t.settled (w.fileChanged p change).registry [] [] [] :=
  fileChanged_keeps (fun w => Sound t.settled w.registry [] [] [])
    (fun _ p change h => documentChanged_sound h p change)
    (fun _ id trigger? h => settle_sound (t := t.settled) (updateConfigured_sound h id trigger?))
    (fun _ _ _ _ h => h) (fun _ manifest h => discoverManifest_sound h manifest) h p change

theorem runTask_sound (h : Sound t.settled w.registry [] [] []) (task : Task) :
    Sound t.settled (w.runTask task).registry [] [] [] := by
  cases task with
  | fold p =>
      unfold runTask
      rwa [registry_fold]
  | settle change =>
      unfold runTask
      dsimp only
      split
      · exact settle_sound (t := t.settled) h
      · exact h
  | reread id => exact rereadManifest_sound h id

theorem advance_sound (h : Sound t.settled w.registry [] [] []) (duration : Nat) :
    Sound t.settled (w.advance duration).registry [] [] [] :=
  advance_keeps (fun w => Sound t.settled w.registry [] [] []) (fun _ _ _ h => h)
    (fun _ task h => runTask_sound h task) h duration

theorem flush_sound (h : Sound t.settled w.registry [] [] []) :
    Sound t.settled w.flush.registry [] [] [] :=
  flush_keeps (fun w => Sound t.settled w.registry [] [] [])
    (fun _ duration h => advance_sound h duration) h

/-! ### Opening and closing -/

theorem listed_of_isOpen (h : Sound t w.registry [] [] []) (hopen : w.isOpen p) :
    p ∈ w.openFiles.all := by
  by_cases hnone : w.owner? p = none
  · simpa using h.unowned p hopen hnone
  · simpa using h.owned_listed p hopen hnone

/-- A document that is being closed may stay in the lists until all is settled: it leaves the list
where it is found first. -/
theorem shut_sound (h : Sound t.settled w.registry [] [] []) (hopen : w.isOpen p) :
    Sound { t with left := [p] }
      (((w.modifyOpenFiles (·.removeFirst p)).setOwner p none).modifyDocument p fun d =>
        { d with isOpen := false }).registry [] [] [] := by
  have howned : ((w.modifyOpenFiles (·.removeFirst p)).setOwner p none).registry =
      (w.registry.modifyOpenFiles (·.removeFirst p)).setOwner p none := by
    rw [registry_setOwner (.inr rfl), registry_modifyOpenFiles]
  have htracked : ((w.modifyOpenFiles (·.removeFirst p)).setOwner p none).isTracked p := by
    apply isTracked_of_isOpen
    rw [← registry_isOpen, howned]
    exact hopen
  have hunlisted := h.unlist (OpenFiles.without_removeFirst w.openFiles p)
    (listed_of_isOpen h hopen) fun ht => OpenFiles.not_mem_removeFirst (h.nodup ht)
  -- without a project and out of the first of its lists the document is closed
  have hclosed := hunlisted.closing (p := p) (by simp)
    (OpenFiles.not_mem_roots_removeFirst h.roots_nodup) (by simp) (by simp)
  rw [registry_setOpen htracked, howned]
  refine hclosed.weaken (fun q hq hq' _ => ?_) (by simp)
  obtain rfl : q = p := by simpa using hq
  simp [setOpen] at hq'

theorem close_sound (h : Sound t.settled w.registry [] [] []) (hopen : w.isOpen p) (text : Text) :
    Sound t.settled (w.close p text).registry [] [] [] := by
  have hreloaded : ((w.modifyDocument p (·.reload text)).markStaleAround p).registry =
      w.registry := by
    rw [registry_markStaleAround]
    exact registry_modifyDocument fun _ _ => ⟨rfl, rfl⟩
  rw [← hreloaded] at h
  rw [← registry_isOpen, ← hreloaded] at hopen
  unfold close
  dsimp only
  generalize (w.modifyDocument p (·.reload text)).markStaleAround p = w at h hopen ⊢
  have hshut := shut_sound h hopen
  apply settle_sound (t := { t with left := [p] })
  rw [registry_emit, registry_cancel]
  split
  · exact hshut
  · split
    · exact dissolve_sound hshut _
    · exact hshut

/-- Only an open document is closed, and only if its file can be read or is gone. -/
theorem closeFile_cases (w : Workspace) (p : Path) : (w.closeFile p).1 = w ∨
    w.isOpen (w.normalize p) ∧ ∃ text, (w.closeFile p).1 = w.close (w.normalize p) text := by
  unfold closeFile
  dsimp only
  cases hd : w.documents.get? (w.normalize p) with
  | none => exact .inl rfl
  | some d =>
      dsimp only
      split
      · rename_i hdo
        cases w.textOnDisk (w.normalize p) with
        | error e => exact .inl rfl
        | ok text =>
            dsimp only
            exact .inr ⟨by simpa [isOpen, hd] using hdo, text, rfl⟩
      · exact .inl rfl

theorem closeFile_sound (h : Sound t.settled w.registry [] [] []) (p : Path) :
    Sound t.settled (w.closeFile p).1.registry [] [] [] := by
  rcases closeFile_cases w p with hsame | ⟨hopen, text, hclosed⟩
  · rwa [hsame]
  · rw [hclosed]
    exact close_sound h hopen text

end Workspace

end ProjectTracker
