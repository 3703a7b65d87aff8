import ProjectTracker.Proofs.Workspace.Conduct
import ProjectTracker.Proofs.Workspace.Runs
/-!
What is asked of a workspace, and what happens to its files, comes down to steps as well. Only where documents
are opened and closed, and where events are taken or files replaced, something else happens beside.
-/

namespace ProjectTracker.Workspace

variable {strict : Prop} {unsaid : Path → Prop} {w w' received : Workspace} {p : Path} {id : ProjectId}
  {d d' : Document} {text? : Option Text}

/-! ### Texts and timers -/

theorem aside_retext (hd : w.documents.get? p = some d) (h : d.Retexts d') :
    Aside w (w.modifyDocument p fun _ => d') :=
  aside_modifyDocument fun d₀ hd₀ => by
    obtain rfl : d = d₀ := Option.some.inj (hd.symm.trans hd₀)
    exact ⟨h.watch?, h.isOpen, h.owner?⟩

/-- Work may wait if what it is about is there. -/
theorem aside_schedule {task : Task} (h : w.outlook.Concerns task) (delay : Nat) :
    Aside w (w.schedule task delay) :=
  aside_timers fun timer htimer => by
    rcases TimerQueue.mem_insertTimer.mp htimer with rfl | htimer
    · exact .inr ⟨rfl, h⟩
    · exact .inl (List.mem_filter.mp htimer).1

theorem proceeds_textChanged (w : Workspace) : Proceeds strict unsaid w w.textChanged := by
  have hcounted : Beside w { w with changeCount := w.changeCount + 1 } :=
    .of_eq rfl rfl rfl rfl rfl fun _ h => .inl h
  have hsettle : w.outlook.Concerns (.settle (w.changeCount + 1)) := trivial
  exact (Proceeds.aside (hcounted.aside rfl rfl)).trans
    (.aside (aside_schedule (hcounted.outlook ▸ hsettle) _))

theorem proceeds_changeFile (w : Workspace) (p : Path) (edits : List Edit) :
    Proceeds strict unsaid w (w.changeFile p edits).1 := by
  rcases changeFile_cases w p edits with hsame | ⟨d, d', owner?, version, hd, hretexts, hchanged⟩
  · rw [hsame]
    exact .refl w
  · rw [hchanged]
    have hedited : Aside w (w.modifyDocument (w.normalize p) fun _ => d') := aside_retext hd hretexts
    have hconcerns : (w.modifyDocument (w.normalize p) fun _ => d').outlook.Concerns
        (.fold (w.normalize p)) := by
      rw [hedited.outlook]
      show (w.outlook.document? (w.normalize p)).isSome
      rw [isSome_document?]
      exact isTracked_iff.mpr ⟨d, hd⟩
    exact ((Proceeds.aside hedited).trans (.aside (aside_schedule hconcerns _))).trans
      (((proceeds_textChanged _).trans (.aside (aside_markStaleAround ..))).trans
        (.aside (aside_emit _ trivial)))

theorem proceeds_query {α : Type} (w : Workspace) (p : Path) (ask : Snapshot → Except Failure α) :
    Proceeds strict unsaid w (w.query p ask).1 := by
  unfold query
  dsimp only
  split
  · exact .refl w
  · exact .aside (aside_fold ..)

theorem proceeds_changeRange (w : Workspace) (p : Path) (range : PositionRange) (text : Text) :
    Proceeds strict unsaid w (w.changeRange p range text).1 := by
  have hasked : Proceeds strict unsaid w (w.snapshot p).1 := proceeds_query ..
  unfold changeRange
  split
  · rename_i heq
    rwa [heq] at hasked
  · rename_i heq
    rw [heq] at hasked
    exact hasked.trans (proceeds_changeFile ..)

theorem proceeds_projectFor (w : Workspace) (p : Path) :
    Proceeds strict unsaid w (w.projectFor p).1 := by
  unfold projectFor
  dsimp only
  split
  · split
    · exact .refl w
    · exact proceeds_refresh w
  · exact .refl w

theorem proceeds_receive (h : w.receive p text? = .ok received) :
    Proceeds strict unsaid w received := by
  have htrack (text : Text) (hd : w.documents.get? p = none) :
      Proceeds strict unsaid w (w.track p text) :=
    .track text (by simp [isTracked_eq, hd])
  unfold receive at h
  split at h
  · rename_i d text hd
    have hread : Aside w (w.modifyDocument p fun _ => (d.reloadIfChanged text).1) :=
      aside_retext hd (d.retexts_reloadIfChanged text)
    generalize d.reloadIfChanged text = reloaded at h hread
    obtain ⟨d', changed⟩ := reloaded
    cases changed with
    | false =>
        obtain rfl := Except.ok.inj h
        exact .aside hread
    | true =>
        obtain rfl := Except.ok.inj h
        exact (Proceeds.aside hread).trans (.aside (aside_markStaleAround ..))
  · obtain rfl := Except.ok.inj h
    exact .refl w
  · rename_i text hd
    obtain rfl := Except.ok.inj h
    exact htrack text hd
  · rename_i hd
    split at h
    · obtain rfl := Except.ok.inj h
      exact htrack _ hd
    · simp at h
    · simp at h

/-! ### Changes of files and the clock -/

/-- Documents are told about that stay as they are. -/
theorem proceeds_tell (ps : List Path) (hopen : strict → ∀ p ∈ ps, w.isOpen p) :
    Proceeds strict unsaid w
      (ps.foldl (fun w p => w.emit (.contextChanged p (w.owner? p))) w) := by
  induction ps generalizing w with
  | nil => exact .refl w
  | cons p ps ih =>
      have htold : Proceeds strict unsaid w (w.emit (.contextChanged p (w.owner? p))) :=
        .say (.refl w) fun hs => ⟨hopen hs p (by simp), rfl⟩
      exact htold.trans (ih (w := w.emit _) fun hs q hq => hopen hs q (by simp [hq]))

/-- A closed file that is gone is forgotten, and dropped from the roots of projects. -/
theorem proceeds_dropFile (hopen : w.isOpen p = false) (ids : List ProjectId) :
    Proceeds strict unsaid w (ids.foldl (fun w id =>
      w.modifyProject id fun project => (project.removeRoot p).markStale) (w.forget p)) := by
  have hdropped (w : Workspace) (id : ProjectId) : Proceeds strict unsaid w
      (w.modifyProject id fun project => (project.removeRoot p).markStale) := by
    refine .aside (aside_modifyProject (fun project => ?_) fun project _ _ => ?_)
    · unfold Project.removeRoot
      split <;> rfl
    · unfold Project.removeRoot
      split
      · exact fun q hq => (List.mem_filter.mp hq).1
      · exact fun _ h => h
  exact (Proceeds.forget hopen).trans (Proceeds.foldl hdropped ids _)

theorem leads_documentDeleted (w : Workspace) (p : Path) :
    Leads strict unsaid w (w.documentDeleted p) := by
  unfold documentDeleted
  cases hopen : w.isOpen p with
  | true =>
      dsimp only
      rw [if_pos rfl]
      have hunwatched : Proceeds strict (fun q => unsaid q ∨ q = p) w (w.unwatch p) := .unwatch w p
      refine (Proceeds.say hunwatched fun _ => ⟨?_, rfl⟩).leads
      rw [hunwatched.isOpen]
      exact hopen
  | false =>
      dsimp only
      rw [if_neg Bool.false_ne_true]
      generalize w.projects.keys.filter _ = affected
      intro hw
      have hrefreshed : Proceeds strict unsaid w _ :=
        (proceeds_dropFile hopen affected).trans (proceeds_refresh _)
      generalize List.foldl _ (w.forget p) affected = dropped at hrefreshed ⊢
      have htouched (hs : strict) (q : Path) (hq : q ∈ dropped.refresh.openFiles.all.filter fun q =>
          (dropped.refresh.owner? q).any (· ∈ affected)) : dropped.refresh.isOpen q := by
        refine (hw.proceeds hrefreshed |>.tidy hs).owned q fun hnone => ?_
        simpa [hnone] using (List.mem_filter.mp hq).2
      exact ((hrefreshed.trans (proceeds_tell _ htouched)).leads.trans (leads_settle _)) hw

theorem leads_documentChanged (w : Workspace) (p : Path) (change : FileChange) :
    Leads strict unsaid w (w.documentChanged p change) := by
  rcases documentChanged_cases w p change with hsame | hdeleted | ⟨d, text, hd, hread⟩
  · rw [hsame]
    exact .refl w
  · rw [hdeleted]
    exact leads_documentDeleted w p
  · rw [hread]
    have hread : Proceeds strict unsaid w
        (w.modifyDocument p fun _ => (d.reloadIfChanged text).1) :=
      .aside (aside_retext hd (d.retexts_reloadIfChanged text))
    split
    · exact ((hread.trans (.aside (aside_markStaleAround ..))).trans (proceeds_textChanged _)).leads
    · exact hread.leads

theorem leads_fileChanged (w : Workspace) (p : Path) (change : FileChange) :
    Leads strict unsaid w (w.fileChanged p change) := fun hw =>
  fileChanged_keeps (Proceeds strict unsaid w)
    (fun v p change h => h.trans (leads_documentChanged v p change (hw.proceeds h)))
    (fun v id trigger? h => h.trans
      (((leads_updateConfigured v id trigger?).trans (leads_settle _)) (hw.proceeds h)))
    (fun v id delay hlive h => h.trans (.aside (aside_schedule (by
      obtain ⟨manifest, hmanifest⟩ := Option.isSome_iff_exists.mp hlive
      obtain ⟨project, hproject, -⟩ := Option.bind_eq_some_iff.mp hmanifest
      simp [Outlook.Concerns, outlook, hproject]) delay)))
    (fun v manifest h => h.trans (leads_discoverManifest v manifest (hw.proceeds h)))
    (.refl w) p change

theorem leads_runTask (w : Workspace) (task : Task) : Leads strict unsaid w (w.runTask task) := by
  cases task with
  | fold p => exact (aside_fold w p).leads
  | settle change =>
      unfold runTask
      dsimp only
      split
      · exact leads_settle w
      · exact .refl w
  | reread id => exact leads_rereadManifest w id

theorem leads_advance (w : Workspace) (duration : Nat) :
    Leads strict unsaid w (w.advance duration) := fun hw =>
  advance_keeps (Proceeds strict unsaid w)
    (fun _ _ hfewer h => h.trans (.aside (aside_timers fun _ htimer => .inl (hfewer htimer))))
    (fun v task h => h.trans (leads_runTask v task (hw.proceeds h))) (.refl w) duration

theorem leads_flush (w : Workspace) : Leads strict unsaid w w.flush := fun hw =>
  flush_keeps (Proceeds strict unsaid w)
    (fun v duration h => h.trans (leads_advance v duration (hw.proceeds h))) (.refl w)

theorem Enlisted.leads (hw : w.Enlisted) (h : Leads False (fun _ => True) w w') : w'.Enlisted :=
  hw.proceeds (h ⟨hw, False.elim⟩)

/-! ### Opening and closing -/

/-- Finds the place of a document that was opened. -/
def lodge (w : Workspace) (p : Path) : Workspace :=
  (((w.consultManifest p).attach p).prune).sweep

theorem openFile_cases (w : Workspace) (p : Path) (text? : Option Text) :
    (w.openFile p text?).1 = w ∨ ∃ received, w.receive (w.normalize p) text? = .ok received ∧
      ((w.isOpen (w.normalize p) ∧ (w.openFile p text?).1 =
          received.emit (.opened (w.normalize p) (received.owner? (w.normalize p)))) ∨
        ∃ opened lodged, w.isOpen (w.normalize p) = false ∧
          opened = (received.modifyDocument (w.normalize p) fun d => { d with isOpen := true }) ∧
          lodged = opened.lodge (w.normalize p) ∧
          (w.openFile p text?).1 =
            lodged.emit (.opened (w.normalize p) (lodged.owner? (w.normalize p)))) := by
  unfold openFile
  dsimp only
  cases hreceive : w.receive (w.normalize p) text? with
  | error failure => exact .inl rfl
  | ok received =>
      refine .inr ⟨received, rfl, ?_⟩
      dsimp only
      cases hopen : w.isOpen (w.normalize p) with
      | true => exact .inl ⟨rfl, rfl⟩
      | false => exact .inr ⟨_, _, rfl, rfl, rfl, rfl⟩

theorem leads_lodge (hp : unsaid p) (hopen : w.isOpen p) : Leads strict unsaid w (w.lodge p) := by
  intro hw
  have hconsulted : Proceeds strict unsaid w (w.consultManifest p) := leads_consultManifest w p hw
  have hopen' : (w.consultManifest p).isOpen p := by
    rw [hconsulted.isOpen]
    exact hopen
  exact (hconsulted.leads.trans ((leads_attach hp hopen').trans
    ((leads_prune _).trans (proceeds_sweep _).leads))) hw

/-- Opens or closes a document, and does nothing else. -/
theorem beside_setOpen (w : Workspace) (p : Path) (isOpen : Bool) :
    Beside w (w.modifyDocument p fun d => { d with isOpen }) :=
  beside_modifyDocument fun _ _ => rfl

/-- Closes a document with the text of its file. It leaves its list and its project. -/
def shut (w : Workspace) (p : Path) (text : Text) : Workspace :=
  ((((w.modifyDocument p (·.reload text)).markStaleAround p).modifyOpenFiles (·.removeFirst p)).setOwner
    p none).modifyDocument p fun d => { d with isOpen := false }

/-- Whether a project is of no use once a document of it is closed: it has lost its root, or it is a configured one
without any other open document. -/
def isLeft (w : Workspace) (p : Path) (text : Text) (id : ProjectId) : Bool :=
  (w.shut p text).projectHas id fun project =>
    p ∈ w.openFiles.roots || (project.isConfigured && project.openCount = 0)

theorem configured_of_isLeft {text : Text} {id : ProjectId} (h : w.isLeft p text id) :
    p ∈ w.openFiles.roots ∨ (w.shut p text).projectHas id (·.isConfigured) := by
  obtain ⟨project, hproject, hproperty⟩ := Option.any_eq_true .. |>.mp h
  by_cases hroot : p ∈ w.openFiles.roots
  · exact .inl hroot
  · refine .inr (Option.any_eq_true .. |>.mpr ⟨project, hproject, ?_⟩)
    simp only [hroot, decide_false, Bool.false_or, Bool.and_eq_true] at hproperty
    exact hproperty.1

/-- What a document that is closed leaves behind before all is settled. -/
def leave (w : Workspace) (p : Path) (text : Text) (owner? : Option ProjectId) : Workspace :=
  match owner? with
  | none => w.shut p text
  | some id => if w.isLeft p text id then (w.shut p text).dissolve id else w.shut p text

theorem close_eq (w : Workspace) (p : Path) (text : Text) :
    let owner? := ((w.modifyDocument p (·.reload text)).markStaleAround p).owner? p
    w.close p text = (((w.leave p text owner?).cancel (.document p)).emit (.closed p owner?)).settle := rfl

/-- A project is dissolved if it has lost its root, or else if it is a configured one. -/
theorem leave_cases (w : Workspace) (p : Path) (text : Text) (owner? : Option ProjectId) :
    w.leave p text owner? = w.shut p text ∨ ∃ id, (p ∈ w.openFiles.roots ∨
      (w.shut p text).projectHas id (·.isConfigured)) ∧
        w.leave p text owner? = (w.shut p text).dissolve id := by
  unfold leave
  split
  · exact .inl rfl
  · split
    · rename_i id hleft
      exact .inr ⟨id, configured_of_isLeft hleft, rfl⟩
    · exact .inl rfl

theorem close_dissolves (w : Workspace) (p : Path) (text : Text) :
    ∃ left owner?, (left = w.shut p text ∨ ∃ id, (p ∈ w.openFiles.roots ∨
        (w.shut p text).projectHas id (·.isConfigured)) ∧ left = (w.shut p text).dissolve id) ∧
      w.close p text = ((left.cancel (.document p)).emit (.closed p owner?)).settle :=
  ⟨_, _, leave_cases w p text _, w.close_eq p text⟩

theorem close_cases (w : Workspace) (p : Path) (text : Text) :
    ∃ left owner?, (left = w.shut p text ∨ ∃ id, left = (w.shut p text).dissolve id) ∧
      w.close p text = ((left.cancel (.document p)).emit (.closed p owner?)).settle := by
  obtain ⟨left, owner?, hleft, heq⟩ := close_dissolves w p text
  exact ⟨left, owner?, hleft.imp_right fun ⟨id, _, hid⟩ => ⟨id, hid⟩, heq⟩

theorem proceeds_unlist (w : Workspace) (p : Path) (text : Text) : Proceeds strict unsaid w
    ((((w.modifyDocument p (·.reload text)).markStaleAround p).modifyOpenFiles
      (·.removeFirst p)).setOwner p none) := by
  have hreloaded : Aside w (w.modifyDocument p (·.reload text)) :=
    aside_modifyDocument fun _ _ => ⟨rfl, rfl, rfl⟩
  have hremoved (w : Workspace) : Aside w (w.modifyOpenFiles (·.removeFirst p)) :=
    aside_modifyOpenFiles fun q hq => by
      unfold OpenFiles.removeFirst at hq
      split at hq
      · exact List.mem_of_mem_erase hq
      · split at hq <;> exact hq
  exact ((Proceeds.aside hreloaded).trans (.aside (aside_markStaleAround ..))).trans
    ((Proceeds.aside (hremoved _)).trans (.aside (aside_vacate ..)))

/-- Given without a word, a document may be given to any project. -/
theorem proceeds_adoptProjectFor (w : Workspace) (p : Path) :
    Proceeds False (fun _ => True) w (w.adoptProjectFor p).1 := by
  have hasked : Proceeds False (fun _ => True) w (w.projectFor (w.normalize p)).1 :=
    proceeds_projectFor ..
  unfold adoptProjectFor
  dsimp only
  generalize w.projectFor (w.normalize p) = answer at hasked ⊢
  obtain ⟨asked, id?⟩ := answer
  cases id? with
  | none => exact hasked
  | some id =>
      dsimp only
      split
      · exact hasked.trans (.give (some id) trivial False.elim)
      · exact hasked

/-! ### Operations and runs -/

/-- Operations that are made of steps, whatever is said and however strictly. -/
def Operation.IsPlain : Operation → Prop
  | .openFile _ _ | .closeFile _ | .adoptProjectFor _ | .takeEvents | .replaceFiles _ => False
  | _ => True

theorem leads_perform {op : Operation} (h : op.IsPlain) : Leads strict unsaid w (w.perform op) := by
  cases op with
  | openFile _ _ => exact h.elim
  | closeFile _ => exact h.elim
  | adoptProjectFor _ => exact h.elim
  | takeEvents => exact h.elim
  | replaceFiles _ => exact h.elim
  | changeFile p edits => exact (proceeds_changeFile w p edits).leads
  | changeRange p range text => exact (proceeds_changeRange w p range text).leads
  | snapshot p => exact (proceeds_query w p _).leads
  | getText p start length => exact (proceeds_query w p _).leads
  | getTextRange p range => exact (proceeds_query w p _).leads
  | positionAt p offset => exact (proceeds_query w p _).leads
  | offsetAt p position => exact (proceeds_query w p _).leads
  | projectFor p => exact (proceeds_projectFor w p).leads
  | fileChanged p change => exact leads_fileChanged w p change
  | advance duration => exact leads_advance w duration
  | flush => exact leads_flush w
  | reload => exact leads_reload w
  | settle => exact leads_settle w

theorem enlisted_empty {settings : Settings} {scanner : Scanner} {fs : FileSystem} :
    ({ settings, scanner, fs } : Workspace).Enlisted := by
  have hnone (id : ProjectId) : ({ settings, scanner, fs } : Workspace).holding? id = none := rfl
  refine ⟨⟨?_, ?_, ?_, List.nodup_nil, List.nodup_nil⟩, List.nodup_nil⟩
  all_goals simp [hnone, roster]

section Keeping

variable (property : Workspace → Prop)
  (hproceeds : ∀ w w', w.Enlisted → Proceeds False (fun _ => True) w w' → property w → property w')
  (hbeside : ∀ w w', Beside w w' → property w → property w')

include hproceeds hbeside

/-- What steps keep and what comes beside them keeps, operations keep, as long as no files are replaced. -/
theorem perform_keeps (hw : w.Enlisted) (h : property w) (op : Operation)
    (hfiles : ∀ fs, op = .replaceFiles fs → property { w with fs }) :
    (w.perform op).Enlisted ∧ property (w.perform op) := by
  have hstep {v v' : Workspace} (hv : v.Enlisted ∧ property v)
      (h : Proceeds False (fun _ => True) v v') : v'.Enlisted ∧ property v' :=
    ⟨hv.1.proceeds h, hproceeds _ _ hv.1 h hv.2⟩
  have hleads {v v' : Workspace} (hv : v.Enlisted ∧ property v)
      (h : Leads False (fun _ => True) v v') : v'.Enlisted ∧ property v' :=
    hstep hv (h ⟨hv.1, False.elim⟩)
  have hother {v v' : Workspace} (hv : v.Enlisted ∧ property v) (h : Beside v v') :
      v'.Enlisted ∧ property v' :=
    ⟨hv.1.beside h, hbeside _ _ h hv.2⟩
  have hemit {v : Workspace} (hv : v.Enlisted ∧ property v) (e : Event) :
      (v.emit e).Enlisted ∧ property (v.emit e) :=
    hother hv (.of_eq rfl rfl rfl rfl rfl fun _ h => .inl h)
  cases op with
  | openFile p text? =>
      show (w.openFile p text?).1.Enlisted ∧ property (w.openFile p text?).1
      rcases openFile_cases w p text? with hsame | ⟨received, hreceive, hopened⟩
      · rw [hsame]
        exact ⟨hw, h⟩
      · have hreceived := hstep ⟨hw, h⟩ (proceeds_receive hreceive)
        rcases hopened with ⟨-, hopened⟩ | ⟨opened, lodged, -, heq, rfl, hopened⟩
        · rw [hopened]
          exact hemit hreceived _
        · rw [hopened]
          have hopen : opened.isOpen (w.normalize p) := by
            rw [heq, ← registry_isOpen, registry_setOpen (receive_eq hreceive).2]
            simp [Registry.setOpen]
          have hset : opened.Enlisted ∧ property opened :=
            heq ▸ hother hreceived (beside_setOpen ..)
          exact hemit (hleads hset (leads_lodge trivial hopen)) _
  | closeFile p =>
      show (w.closeFile p).1.Enlisted ∧ property (w.closeFile p).1
      rcases closeFile_cases w p with hsame | ⟨-, text, hclosed⟩
      · rw [hsame]
        exact ⟨hw, h⟩
      · obtain ⟨left, owner?, hleft, heq⟩ := close_cases w (w.normalize p) text
        rw [hclosed, heq]
        have hshut : (w.shut (w.normalize p) text).Enlisted ∧ property (w.shut (w.normalize p) text) :=
          hother (hstep ⟨hw, h⟩ (proceeds_unlist w _ text)) (beside_setOpen _ _ false)
        have hleft' : left.Enlisted ∧ property left := by
          rcases hleft with rfl | ⟨id, rfl⟩
          · exact hshut
          · exact hleads hshut (leads_dissolve _ id)
        exact hleads (hemit (hstep hleft' (.aside (aside_cancel ..))) _) (leads_settle _)
  | adoptProjectFor p => exact hstep ⟨hw, h⟩ (proceeds_adoptProjectFor w p)
  | takeEvents => exact hother ⟨hw, h⟩ (.of_eq rfl rfl rfl rfl rfl fun _ h => .inl h)
  | replaceFiles fs => exact ⟨hw.of_roster rfl rfl, hfiles fs rfl⟩
  | _ => exact hleads ⟨hw, h⟩ (leads_perform trivial)

theorem run_keeps (hw : w.Enlisted) (h : property w) {ops : List Operation}
    (hfiles : ∀ done fs, done ++ [.replaceFiles fs] <+: ops → property (w.run done) →
      property { w.run done with fs }) : (w.run ops).Enlisted ∧ property (w.run ops) := by
  induction ops using List.reverseRecOn with
  | nil => exact ⟨hw, h⟩
  | append_singleton ops op ih =>
      obtain ⟨hdone, hproperty⟩ := ih fun done fs hdone =>
        hfiles done fs (hdone.trans (List.prefix_append ..))
      rw [run_concat]
      refine perform_keeps property hproceeds hbeside hdone hproperty op fun fs hop => ?_
      exact hfiles ops fs (hop ▸ List.prefix_refl _) hproperty

end Keeping

theorem Enlisted.perform (hw : w.Enlisted) (op : Operation) : (w.perform op).Enlisted :=
  (perform_keeps (fun _ => True) (fun _ _ _ _ _ => trivial) (fun _ _ _ _ => trivial) hw trivial op
    fun _ _ => trivial).1

theorem enlisted_run {settings : Settings} {scanner : Scanner} {fs : FileSystem}
    {ops : List Operation} : (({ settings, scanner, fs } : Workspace).run ops).Enlisted :=
  (run_keeps (fun _ => True) (fun _ _ _ _ _ => trivial) (fun _ _ _ _ => trivial) enlisted_empty
    trivial fun _ _ _ _ => trivial).1

end ProjectTracker.Workspace
