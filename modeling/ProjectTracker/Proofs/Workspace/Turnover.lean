import ProjectTracker.Proofs.Workspace.Coherence
import ProjectTracker.Proofs.Workspace.Dealings
/-!
What operations do to the texts and to the projects of a workspace, in a few kinds of steps. What every one of these
keeps, all runs keep.
-/

namespace ProjectTracker.Workspace

variable {w w' received : Workspace} {p : Path}

/-- A workspace becomes another one by steps that operations are made of. -/
inductive Turnover : Workspace → Workspace → Prop where
  | evolves {w w' : Workspace} (h : Evolves w w') : Turnover w w'
  | trans {w w' w'' : Workspace} (h : Turnover w w') (h' : Turnover w' w'') : Turnover w w''
  /-- Neither documents nor projects are others. All files may be. -/
  | same {w w' : Workspace} (hscanner : w'.scanner = w.scanner) (hdocuments : w'.documents = w.documents)
    (hroster : w'.roster = w.roster) (hkeys : w'.projects.keys = w.projects.keys) : Turnover w w'
  | rewrite (w : Workspace) (p : Path) (f : Document → Document) :
    Turnover w ((w.modifyDocument p f).markStaleAround p)
  | track {w : Workspace} {p : Path} (h : w.isTracked p = false) (text : Text) :
    Turnover w (w.track p text)
  | drop (w : Workspace) (p : Path) : Turnover w (w.dropFile p).refresh

theorem Turnover.refl (w : Workspace) : Turnover w w :=
  .evolves (.shifts (.refl w))

theorem Turnover.shifts (h : Shifts w w') : Turnover w w' :=
  .evolves (.shifts h)

theorem Turnover.calm (h : Calm w w') : Turnover w w' :=
  .shifts (.calm h)

theorem Enlisted.turnover (hw : w.Enlisted) (h : Turnover w w') : w'.Enlisted := by
  induction h with
  | evolves h => exact hw.evolves h
  | trans _ _ ih ih' => exact ih' (ih hw)
  | same _ _ hroster hkeys => exact hw.of_roster hroster hkeys
  | rewrite w p f =>
      have hmodified : (w.modifyDocument p f).Enlisted := hw.of_roster rfl rfl
      exact enlisted_markStaleAround hmodified p
  | track _ text => exact hw.of_roster rfl rfl
  | drop w p =>
      obtain ⟨-, hroster, hkeys, -⟩ := forget_contents w p
      exact ((hw.of_roster hroster hkeys).shifts (shifts_dropFile w p)).shifts (shifts_refresh _)

theorem turnover_settle (hw : w.Enlisted) (h : Turnover w w') : Turnover w w'.settle :=
  h.trans (.evolves (evolves_settle (hw.turnover h)))

/-! ### Texts -/

/-- A document is given a text. It is loaded anew only if that is another one. -/
theorem turnover_reloadIfChanged {d : Document} (hd : w.documents.get? p = some d) (text : Text) :
    Turnover w (if (d.reloadIfChanged text).2 then
        (w.modifyDocument p fun _ => (d.reloadIfChanged text).1).markStaleAround p
      else w.modifyDocument p fun _ => (d.reloadIfChanged text).1) := by
  split
  · exact .rewrite ..
  · rename_i hsame
    refine .calm (calm_modifyDocument fun d' hd' => ?_)
    obtain rfl : d = d' := Option.some.inj (hd.symm.trans hd')
    exact Document.text_reloadIfChanged (Bool.eq_false_iff.mpr hsame)

theorem turnover_receive {text? : Option Text} (hreceive : w.receive p text? = .ok received) :
    Turnover w received := by
  have huntracked (hd : w.documents.get? p = none) : w.isTracked p = false := by
    rw [isTracked_eq, hd]
    rfl
  unfold receive at hreceive
  split at hreceive
  · rename_i d text hd
    obtain rfl := Except.ok.inj hreceive
    exact turnover_reloadIfChanged hd text
  · obtain rfl := Except.ok.inj hreceive
    exact .refl w
  · rename_i text hd
    obtain rfl := Except.ok.inj hreceive
    exact .track (huntracked hd) text
  · rename_i hd
    split at hreceive
    · obtain rfl := Except.ok.inj hreceive
      exact .track (huntracked hd) _
    · simp at hreceive
    · simp at hreceive

theorem turnover_query {α : Type} (w : Workspace) (p : Path) (ask : Snapshot → Except Failure α) :
    Turnover w (w.query p ask).1 := by
  unfold query
  dsimp only
  split
  · exact .refl w
  · exact .calm (calm_fold ..)

theorem turnover_changeFile (w : Workspace) (p : Path) (edits : List Edit) :
    Turnover w (w.changeFile p edits).1 := by
  rcases changeFile_cases w p edits with hsame | ⟨d, d', owner?, version, -, -, hchanged⟩
  · rw [hsame]
    exact .refl w
  · rw [hchanged]
    exact (Turnover.rewrite w (w.normalize p) fun _ => d').trans (.same rfl rfl rfl rfl)

theorem turnover_changeRange (w : Workspace) (p : Path) (range : PositionRange) (text : Text) :
    Turnover w (w.changeRange p range text).1 := by
  have hsnapshot : Turnover w (w.snapshot p).1 := turnover_query w p .ok
  unfold changeRange
  split
  · rename_i heq
    rwa [heq] at hsnapshot
  · rename_i heq
    rw [heq] at hsnapshot
    exact hsnapshot.trans (turnover_changeFile ..)

/-! ### Opening and closing -/

theorem shifts_lodging (h : w.isTracked p) : Shifts w ((w.consultManifest p).attach p).prune :=
  have hconsulted := shifts_consultManifest w p
  (hconsulted.trans (shifts_attach (hconsulted.quiet.tracked p h))).trans (shifts_prune _)

theorem turnover_lodge (hw : w.Enlisted) (h : w.isTracked p) : Turnover w (w.lodge p) :=
  (Turnover.shifts (shifts_lodging h)).trans
    (.evolves (evolves_sweep _ (hw.shifts (shifts_lodging h)).distinct))

theorem turnover_openFile (hw : w.Enlisted) (p : Path) (text? : Option Text) :
    Turnover w (w.openFile p text?).1 := by
  rcases openFile_cases w p text? with hsame | ⟨received, hreceive, hopened⟩
  · rw [hsame]
    exact .refl w
  · have hreceived := turnover_receive hreceive
    refine hreceived.trans ?_
    rcases hopened with ⟨-, hopened⟩ | ⟨opened, lodged, -, rfl, rfl, hopened⟩
    · rw [hopened]
      exact .calm (calm_emit ..)
    · rw [hopened]
      have hopens : Turnover received (received.modifyDocument (w.normalize p)
          fun d => { d with isOpen := true }) := .calm (calm_modifyDocument fun _ _ => rfl)
      refine (hopens.trans (turnover_lodge ((hw.turnover hreceived).turnover hopens) ?_)).trans
        (.calm (calm_emit ..))
      exact (isTracked_modifyDocument ..).trans (receive_eq hreceive).2

theorem turnover_shut (w : Workspace) (p : Path) (text : Text) : Turnover w (w.shut p text) :=
  (Turnover.rewrite w p (·.reload text)).trans (.calm (((calm_modifyOpenFiles ..).trans
    (calm_setOwner ..)).trans (calm_modifyDocument fun _ _ => rfl)))

/-- What a document that is closed leaves behind before all is settled. -/
theorem turnover_left {left : Workspace} {text : Text}
    (hleft : left = w.shut p text ∨ ∃ id, left = (w.shut p text).dissolve id) (e : Event) :
    Turnover w ((left.cancel (.document p)).emit e) := by
  refine .trans ?_ (.calm ((calm_cancel left (.document p) (by simp)).trans (calm_emit ..)))
  rcases hleft with rfl | ⟨id, rfl⟩
  · exact turnover_shut ..
  · exact (turnover_shut ..).trans (.shifts (shifts_dissolve ..))

theorem turnover_closeFile (hw : w.Enlisted) (p : Path) : Turnover w (w.closeFile p).1 := by
  rcases closeFile_cases w p with hsame | ⟨-, text, hclosed⟩
  · rw [hsame]
    exact .refl w
  · obtain ⟨left, owner?, hleft, heq⟩ := close_cases w (w.normalize p) text
    rw [hclosed, heq]
    exact turnover_settle hw (turnover_left hleft _)

/-! ### Changes of files and the clock -/

theorem turnover_documentDeleted (hw : w.Enlisted) (p : Path) : Turnover w (w.documentDeleted p) := by
  unfold documentDeleted
  split
  · exact .calm ((calm_unwatch w p).trans (calm_emit ..))
  · have htold (ps : List Path) : Turnover w
        (ps.foldl (fun w q => w.emit (.contextChanged q (w.owner? q))) (w.dropFile p).refresh) :=
      (Turnover.drop w p).trans (.shifts (Shifts.foldl (fun _ _ => shifts_emit ..) ps _))
    exact turnover_settle hw (htold _)

theorem turnover_documentChanged (hw : w.Enlisted) (p : Path) (change : FileChange) :
    Turnover w (w.documentChanged p change) := by
  rcases documentChanged_cases w p change with hsame | hdeleted | ⟨d, text, hd, hread⟩
  · rw [hsame]
    exact .refl w
  · rw [hdeleted]
    exact turnover_documentDeleted hw p
  · have hreloaded := turnover_reloadIfChanged hd text
    rw [hread]
    split
    · rename_i hchanged
      rw [if_pos hchanged] at hreloaded
      exact hreloaded.trans (.same rfl rfl rfl rfl)
    · rename_i hsame
      rwa [if_neg hsame] at hreloaded

theorem turnover_fileChanged (hw : w.Enlisted) (p : Path) (change : FileChange) :
    Turnover w (w.fileChanged p change) :=
  fileChanged_keeps (Turnover w)
    (fun _ p change h => h.trans (turnover_documentChanged (hw.turnover h) p change))
    (fun v id trigger? h => turnover_settle hw (h.trans (.shifts (shifts_updateConfigured v id trigger?))))
    (fun _ _ _ _ h => h.trans (.same rfl rfl rfl rfl))
    (fun _ manifest h => h.trans (.evolves (evolves_discoverManifest (hw.turnover h) manifest)))
    (.refl w) p change

theorem turnover_runTask (hw : w.Enlisted) (task : Task) : Turnover w (w.runTask task) := by
  cases task with
  | fold p => exact .calm (calm_fold w p)
  | settle change =>
      unfold runTask
      dsimp only
      split
      · exact .evolves (evolves_settle hw)
      · exact .refl w
  | reread id => exact .evolves (evolves_rereadManifest hw id)

theorem turnover_advance (hw : w.Enlisted) (duration : Nat) : Turnover w (w.advance duration) :=
  advance_keeps (Turnover w) (fun _ _ _ h => h.trans (.same rfl rfl rfl rfl))
    (fun _ task h => h.trans (turnover_runTask (hw.turnover h) task)) (.refl w) duration

/-! ### Runs -/

theorem turnover_perform (hw : w.Enlisted) (op : Operation) : Turnover w (w.perform op) := by
  cases op with
  | openFile p text? => exact turnover_openFile hw p text?
  | closeFile p => exact turnover_closeFile hw p
  | changeFile p edits => exact turnover_changeFile w p edits
  | changeRange p range text => exact turnover_changeRange w p range text
  | snapshot p => exact turnover_query w p _
  | getText p start length => exact turnover_query w p _
  | getTextRange p range => exact turnover_query w p _
  | positionAt p offset => exact turnover_query w p _
  | offsetAt p position => exact turnover_query w p _
  | projectFor p => exact .shifts (shifts_projectFor w p)
  | adoptProjectFor p => exact .shifts (shifts_adoptProjectFor w p)
  | takeEvents => exact .same rfl rfl rfl rfl
  | fileChanged p change => exact turnover_fileChanged hw p change
  | advance duration => exact turnover_advance hw duration
  | flush =>
      exact flush_keeps (Turnover w)
        (fun _ duration h => h.trans (turnover_advance (hw.turnover h) duration)) (.refl w)
  | reload => exact .evolves (evolves_reload hw)
  | settle => exact .evolves (evolves_settle hw)
  | replaceFiles fs => exact .same rfl rfl rfl rfl

/-- What every step keeps, all runs keep. -/
theorem run_turnover {property : Workspace → Prop}
    (hsteps : ∀ w w', Turnover w w' → property w → property w') (settings : Settings) (scanner : Scanner)
    (fs : FileSystem) (hempty : property { settings, scanner, fs }) (ops : List Operation) :
    property (({ settings, scanner, fs } : Workspace).run ops) := by
  have hrun : Turnover { settings, scanner, fs } (({ settings, scanner, fs } : Workspace).run ops) := by
    -- the steps that led to a state say that its projects are listed, which the next operation asks for
    induction ops using List.reverseRecOn with
    | nil => exact .refl _
    | append_singleton ops op ih =>
        rw [run_concat]
        exact ih.trans (turnover_perform (enlisted_empty.turnover ih) op)
  exact hsteps _ _ hrun hempty

end ProjectTracker.Workspace
