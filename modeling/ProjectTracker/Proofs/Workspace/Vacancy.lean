import ProjectTracker.Proofs.Workspace.Settlement
import ProjectTracker.Proofs.Workspace.WatchAccounts
/-!
Where no document is open a workspace is empty: the last project goes with its last open document, and with the
projects go the documents, the watches and the work about them.
-/

namespace ProjectTracker

open Outlook Registry

namespace Workspace

variable {t : Terms} {strict : Prop} {unsaid : Path → Prop} {w w' : Workspace} {p : Path}
  {id : ProjectId} {timer : Timer Topic Task} {single : List Path} {ops : List Operation}

/-! ### Work that waits -/

/-- A task stays about what it is about, if that stays. -/
theorem apt_of_apt (h : w.outlook.Apt timer)
    (hdocument : ∀ p, timer.key = .document p → w.isTracked p → w'.isTracked p)
    (hpost : ∀ id, timer.key = .project id → (w.outlook.post? id).isSome →
      (w'.outlook.post? id).isSome) : w'.outlook.Apt timer := by
  obtain ⟨hkey, hconcerns⟩ := h
  refine ⟨hkey, ?_⟩
  cases htask : timer.task with
  | fold p =>
      rw [htask] at hkey hconcerns
      have htracked : w.isTracked p := isSome_document?.symm.trans hconcerns
      exact isSome_document?.trans (hdocument p hkey htracked)
  | settle change => trivial
  | reread id =>
      rw [htask] at hkey hconcerns
      exact hpost id hkey hconcerns

/-- All tasks that wait are about what is there. -/
def TimersApt (w : Workspace) : Prop :=
  ∀ timer ∈ w.timers.timers, w.outlook.Apt timer

/-- With a project goes its task. -/
theorem timers_removeProject (h : timer ∈ (w.removeProject id).1.timers.timers) :
    timer ∈ w.timers.timers ∧ ((w.projects.get? id).isSome → timer.key ≠ .project id) := by
  unfold removeProject at h
  cases hproject : w.projects.get? id with
  | none =>
      rw [hproject] at h
      exact ⟨h, fun hlive => by simp at hlive⟩
  | some project =>
      rw [hproject] at h
      dsimp only at h
      have hdetach (w : Workspace) (p : Path) : Calm w (w.detach p) :=
        (calm_modifyOpenFiles ..).trans (calm_setOwner ..)
      have hcanceled := (Calm.foldl hdetach _ _).timers.subset h
      obtain ⟨hleft, hkey⟩ := List.mem_filter.mp hcanceled
      have hreleased := (Calm.foldl calm_leaveLookout project.lookouts _).timers.subset hleft
      exact ⟨(Calm.foldl calm_releaseWatch project.watches w).timers.subset hreleased,
        fun _ => by simpa using hkey⟩

theorem timers_forget (h : timer ∈ (w.forget p).timers.timers) :
    timer ∈ w.timers.timers ∧ (w.isTracked p → timer.key ≠ .document p) := by
  unfold forget at h
  split at h
  · obtain ⟨hunwatched, hkey⟩ := List.mem_filter.mp h
    exact ⟨(calm_unwatch w p).timers.subset hunwatched, fun _ => by simpa using hkey⟩
  · rename_i huntracked
    exact ⟨h, fun htracked => absurd htracked huntracked⟩

theorem timersApt_proceeds (h : Proceeds strict unsaid w w') (hw : w.TimersApt) : w'.TimersApt := by
  refine h.keeps TimersApt (fun w w' hbeside hw timer htimer => ?_)
    (fun w p text hp hw timer htimer => ?_) (fun w p hw timer htimer => ?_)
    (fun w p _ hw timer htimer => ?_) (fun w id hw timer htimer => ?_)
    (fun w root hw timer htimer => ?_) (fun w manifest roots settings _ hw timer htimer => ?_) hw
  · rw [hbeside.outlook]
    exact (hbeside.timers timer htimer).elim (hw timer) fun hapt => hapt
  · refine apt_of_apt (hw timer htimer) (fun q _ hq => ?_) fun id _ hid => ?_
    · rw [← isSome_document?, outlook_track]
      show (if q = p then _ else w.outlook.document? q).isSome
      split
      · rfl
      · rwa [isSome_document?]
    · rwa [outlook_track]
  · have hcalm := calm_unwatch w p
    refine apt_of_apt (hw timer (hcalm.timers.subset htimer)) (fun q _ hq => hcalm.tracked q hq)
      fun id _ hid => ?_
    rwa [outlook_unwatch, post?_unwatch]
  · obtain ⟨htimer, hkey⟩ := timers_forget htimer
    refine apt_of_apt (hw timer htimer) (fun q hq htracked => ?_) fun id _ hid => ?_
    · refine ((forget_contents w p).2.2.2.2 q).mpr ⟨htracked, ?_⟩
      rintro rfl
      exact hkey htracked hq
    · rwa [post?_forget]
  · obtain ⟨htimer, hkey⟩ := timers_removeProject htimer
    obtain ⟨hquiet, -⟩ := removeProject_contents w id
    refine apt_of_apt (hw timer htimer) (fun q _ hq => hquiet.tracked q hq) fun i hi hlive => ?_
    rw [outlook_removeProject, post?_strike, if_neg]
    · exact hlive
    · rintro rfl
      exact hkey (by simpa [outlook] using hlive) hi
  · have hcalm := calm_foldl_joinLookout w root.ancestors
    refine apt_of_apt (hw timer (hcalm.timers.subset htimer)) (fun q _ hq => hcalm.tracked q hq)
      fun i _ hlive => ?_
    rw [outlook_enterInferred, post?_enrollInferred]
    split
    · rfl
    · exact hlive
  · obtain ⟨watched, project, hcalm, -, heq⟩ := calm_enterConfigured w manifest roots settings
    obtain ⟨watches, hpost⟩ := w.outlook.post?_enrollConfigured (w.lastProject + 1) manifest
    rw [heq] at htimer
    refine apt_of_apt (hw timer (hcalm.timers.subset htimer))
      (fun q _ hq => heq ▸ hcalm.tracked q hq) fun i _ hlive => ?_
    rw [outlook_enterConfigured, hpost]
    split
    · rfl
    · exact hlive

/-! ### Nothing to do -/

/-- There are no projects and no documents. -/
structure Deserted (w : Workspace) : Prop where
  projects : ∀ id, w.projects.get? id = none
  documents : ∀ p, w.documents.get? p = none
  openFiles : w.openFiles = {}
  configured : w.configured = []

namespace Deserted

theorem paths (h : w.Deserted) : w.documents.paths = [] :=
  List.eq_nil_iff_forall_not_mem.mpr fun p hp => by
    obtain ⟨d, hd⟩ := isTracked_iff.mp (mem_paths_iff.mp hp)
    simp [h.documents] at hd

theorem settle (h : w.Deserted) : w.settle = w := by
  have hrefresh : w.refresh = w :=
    refresh_eq_self fun id held hheld => absurd hheld (by simp [holding?, h.projects])
  unfold Workspace.settle
  rw [hrefresh]
  simp [h.openFiles, h.configured, h.paths, Workspace.reattach, Workspace.prune, Workspace.sweep]

theorem reload (h : w.Deserted) : w.reload = w := by
  unfold Workspace.reload
  simp only [h.configured, h.openFiles, List.foldl_nil]
  exact h.settle

theorem fold (h : w.Deserted) (p : Path) : (w.fold p).Deserted where
  projects := h.projects
  documents q := by
    show (w.modifyDocument p Document.fold).documents.get? q = none
    rw [get?_modifyDocument, h.documents]
    split <;> rfl
  openFiles := h.openFiles
  configured := h.configured

theorem runTask (h : w.Deserted) (task : Task) : (w.runTask task).Deserted := by
  cases task with
  | fold p => exact h.fold p
  | settle change =>
      unfold Workspace.runTask
      dsimp only
      split
      · exact h.settle.symm ▸ h
      · exact h
  | reread id =>
      have hnone : w.manifestOf? id = none := by simp [manifestOf?, h.projects]
      unfold Workspace.runTask rereadManifest
      simp only [hnone]
      exact h

theorem advance (h : w.Deserted) (duration : Nat) : (w.advance duration).Deserted :=
  advance_keeps Deserted (fun _ _ _ h => ⟨h.projects, h.documents, h.openFiles, h.configured⟩)
    (fun _ task h => h.runTask task) h duration

theorem query {α : Type} (h : w.Deserted) (p : Path) (ask : Snapshot → Except Failure α) :
    (w.query p ask).1 = w := by
  unfold Workspace.query
  simp [h.documents]

theorem changeFile (h : w.Deserted) (p : Path) (edits : List Edit) :
    (w.changeFile p edits).1 = w := by
  rcases changeFile_cases w p edits with hsame | ⟨d, d', owner?, version, hd, -⟩
  · exact hsame
  · simp [h.documents] at hd

theorem changeRange (h : w.Deserted) (p : Path) (range : PositionRange) (text : Text) :
    (w.changeRange p range text).1 = w := by
  unfold Workspace.changeRange snapshot Workspace.query
  simp [h.documents]

theorem projectFor (h : w.Deserted) (p : Path) : w.projectFor p = (w, none) := by
  have huntracked (p : Path) : w.isTracked p = false := by simp [isTracked_eq, h.documents]
  unfold Workspace.projectFor
  simp [huntracked]

theorem adoptProjectFor (h : w.Deserted) (p : Path) : (w.adoptProjectFor p).1 = w := by
  unfold Workspace.adoptProjectFor
  dsimp only
  rw [h.projectFor]

/-- What nobody watches is nobody's concern. -/
theorem fileChanged (hpurposes : ∀ id, w.purposes.get? id = none) (p : Path) (change : FileChange) :
    w.fileChanged p change = w := by
  have hnone : w.purposesAt (w.normalize p) = [] := by
    unfold purposesAt
    rw [List.filterMap_eq_nil_iff.mpr fun id _ => hpurposes id]
    rfl
  unfold Workspace.fileChanged
  dsimp only
  rw [hnone]
  rfl

end Deserted

/-- A file that is opened is open then, unless it fails. -/
theorem isOpen_openFile (hw : w.Enlisted) (p : Path) (text? : Option Text) :
    (w.openFile p text?).1 = w ∨ (w.openFile p text?).1.isOpen (w.normalize p) ∧
      ∀ q, w.isOpen q → (w.openFile p text?).1.isOpen q := by
  rcases openFile_cases w p text? with hsame | ⟨received, hreceive, hopened⟩
  · exact .inl hsame
  · have hreceived : Proceeds False (fun _ => True) w received := proceeds_receive hreceive
    refine .inr ?_
    rcases hopened with ⟨hopen, hopened⟩ | ⟨opened, lodged, -, heq, rfl, hopened⟩
    · rw [hopened, isOpen_emit, hreceived.isOpen]
      exact ⟨hopen, fun q hq => hq⟩
    · have hopen (q : Path) : opened.isOpen q = if q = w.normalize p then true else w.isOpen q := by
        rw [heq, ← registry_isOpen, registry_setOpen (receive_eq hreceive).2]
        unfold Registry.setOpen
        dsimp only
        rw [registry_isOpen, hreceived.isOpen]
      have hlisted : opened.Enlisted := by
        rw [heq]
        exact (hw.proceeds hreceived).beside (beside_setOpen received (w.normalize p) true)
      have hlodged : Proceeds False (fun _ => True) opened (opened.lodge (w.normalize p)) :=
        leads_lodge trivial (by simp [hopen]) ⟨hlisted, False.elim⟩
      rw [hopened, isOpen_emit, hlodged.isOpen]
      refine ⟨by rw [hopen, if_pos rfl], fun q hq => ?_⟩
      rw [hopen]
      split
      · rfl
      · exact hq

theorem perform_deserted (h : w.Deserted) (hw : w.Enlisted)
    (hpurposes : ∀ id, w.purposes.get? id = none) (op : Operation) :
    (∃ p, (w.perform op).isOpen p) ∨ (w.perform op).Deserted := by
  have hsame {w' : Workspace} (heq : w' = w) : (∃ p, w'.isOpen p) ∨ w'.Deserted := .inr (heq ▸ h)
  cases op with
  | openFile p text? =>
      rcases isOpen_openFile hw p text? with heq | ⟨hopen, -⟩
      · exact hsame heq
      · exact .inl ⟨_, hopen⟩
  | closeFile p =>
      rcases closeFile_cases w p with heq | ⟨hopen, -⟩
      · exact hsame heq
      · simp [isOpen, h.documents] at hopen
  | changeFile p edits => exact hsame (h.changeFile p edits)
  | changeRange p range text => exact hsame (h.changeRange p range text)
  | snapshot p => exact hsame (h.query p _)
  | getText p start length => exact hsame (h.query p _)
  | getTextRange p range => exact hsame (h.query p _)
  | positionAt p offset => exact hsame (h.query p _)
  | offsetAt p position => exact hsame (h.query p _)
  | projectFor p => exact hsame (congrArg Prod.fst (h.projectFor p))
  | adoptProjectFor p => exact hsame (h.adoptProjectFor p)
  | takeEvents => exact .inr ⟨h.projects, h.documents, h.openFiles, h.configured⟩
  | fileChanged p change => exact hsame (Deserted.fileChanged hpurposes p change)
  | advance duration => exact .inr (h.advance duration)
  | flush => exact .inr (flush_keeps Deserted (fun _ duration h => h.advance duration) h)
  | reload => exact hsame h.reload
  | settle => exact hsame h.settle
  | replaceFiles fs => exact .inr ⟨h.projects, h.documents, h.openFiles, h.configured⟩

/-! ### The last document is closed -/

theorem projects_sweep (w : Workspace) : w.sweep.projects = w.projects := by
  unfold sweep
  dsimp only
  generalize w.documents.paths.filter _ = orphans
  induction orphans generalizing w with
  | nil => rfl
  | cons p orphans ih => rw [List.foldl_cons, ih, projects_forget]

/-- Where nothing is open no project outlives the removal of the unused ones: the root of an inferred project
would be open, and so would a document that a configured one counts. -/
theorem get?_prune_of_closed (ht : t.live) (hsound : Sound t w.registry [] [] [])
    (hseated : Seated w.prune.registry none single) (hclosed : ∀ p, w.prune.isOpen p = false)
    (id : ProjectId) : w.prune.projects.get? id = none := by
  have hpruned := prune_sound hsound
  by_contra hlive
  obtain ⟨project, hproject⟩ := Option.ne_none_iff_exists'.mp hlive
  have hcharter : w.prune.registry.charter? id = some project.charter := by
    simp [registry, hproject]
  by_cases hkind : project.kind = .inferred
  · obtain ⟨p, -, howner⟩ := hseated.inferred id project.charter hcharter hkind (by simp)
    have hopen : w.prune.isOpen p := hpruned.owned_open p (by simp [howner])
    simp [hclosed] at hopen
  · have hnone : w.prune.registry.holders id = ∅ :=
      Set.eq_empty_of_forall_notMem fun p hp => by
        have hopen : w.prune.isOpen p := hp.1
        simp [hclosed] at hopen
    have hcount := hpruned.count id project.charter hcharter
    rw [hnone, Set.ncard_empty] at hcount
    exact openCount_prune ht hsound hcharter hkind hcount

/-- At the end of settling unused projects go, and then the documents that nobody needs. -/
theorem settle_eq_sweep (h : Sound t w.registry [] [] []) :
    ∃ reattached : Workspace, w.settle = reattached.prune.sweep ∧
      Sound t.settled reattached.registry [] [] [] := by
  rw [← registry_refresh] at h
  exact ⟨_, rfl, reattach_sound (foldl_demote_sound _ (detachUnless_sound h))⟩

/-- Where settling leaves nothing open it leaves nothing. -/
theorem settle_deserted (ht : t.live) (hsound : Sound t w.registry [] [] [])
    (hseated : Seated w.settle.registry none single) (hw : w.settle.Enlisted)
    (hclosed : ∀ p, w.settle.isOpen p = false) : w.settle.Deserted := by
  have hsettled := settle_sound hsound
  obtain ⟨reattached, heq, hreattached⟩ := settle_eq_sweep hsound
  rw [heq] at hseated hw hclosed hsettled ⊢
  have hregistry : reattached.prune.sweep.registry = reattached.prune.registry :=
    registry_sweep (prune_sound hreattached).owned_open
  have hprojects := projects_sweep reattached.prune
  have hclosed' (p : Path) : reattached.prune.isOpen p = false := by
    rw [← registry_isOpen, ← hregistry]
    exact hclosed p
  have hdead : ∀ id, reattached.prune.projects.get? id = none :=
    get?_prune_of_closed (t := t.settled) ht hreattached (hregistry ▸ hseated) hclosed'
  have hunlisted : reattached.prune.sweep.openFiles.all = [] :=
    List.eq_nil_iff_forall_not_mem.mpr fun p hp => by
      have hopen : reattached.prune.sweep.isOpen p :=
        (hsettled.listed_open p hp).resolve_right (by simp [Terms.settled])
      simp [hclosed] at hopen
  refine ⟨fun id => hprojects ▸ hdead id, fun p => ?_, ?_, ?_⟩
  · by_contra htracked
    have hneeded := isTracked_sweep (hprojects ▸ hw.distinct)
      (isTracked_iff.mpr (Option.ne_none_iff_exists'.mp htracked))
    rcases hneeded with hopen | ⟨id, hcontains⟩
    · simp [hclosed'] at hopen
    · simp [projectHas, hdead] at hcontains
  · generalize reattached.prune.sweep.openFiles = openFiles at hunlisted ⊢
    obtain ⟨roots, referenced, configuredRoots⟩ := openFiles
    simpa [OpenFiles.all, and_assoc] using hunlisted
  · refine List.eq_nil_iff_forall_not_mem.mpr fun id hid => ?_
    obtain ⟨held, hheld, -⟩ := (hw.orderly.configured id).mp hid
    simp [holding?, hprojects, hdead] at hheld

/-! ### Nothing is left -/

/-- No projects, no documents, no watches and no directories to wait in, and of the work only a question to
settle. -/
structure Vacant (w : Workspace) : Prop where
  projects : w.projects.keys = []
  documents : w.documents.paths = []
  openFiles : w.openFiles = {}
  inferred : w.inferred = []
  configured : w.configured = []
  watches : w.fs.watches.targets.keys = []
  purposes : w.purposes.keys = []
  lookouts : w.lookouts.keys = []
  timers : ∀ timer ∈ w.timers.timers, ∃ change, timer.task = .settle change

/-- Where there are no projects nobody waits in a directory. -/
theorem Deserted.lookouts (h : w.Deserted) (hbalanced : Balanced w.outlook [] []) (dir : Path) :
    w.lookouts.get? dir = none := by
  by_contra hlookout
  obtain ⟨lookout, hlookout⟩ := Option.ne_none_iff_exists'.mp hlookout
  have husers := hbalanced.users dir
  have hused := hbalanced.used dir lookout hlookout
  have hnobody : w.outlook.waiters dir = ∅ := by
    rw [waiters_outlook]
    simp [h.projects]
  have hcounted : w.outlook.users dir = lookout.users := by
    show ((w.lookouts.get? dir).map (·.users)).getD 0 = _
    rw [hlookout]
    rfl
  rw [hnobody, hcounted, Set.ncard_empty, List.count_nil] at husers
  omega

/-- Where nobody holds a watch none is live. -/
theorem Deserted.watches (h : w.Deserted) (hbalanced : Balanced w.outlook [] []) (id : WatchId) :
    w.fs.watches.get? id = none ∧ w.purposes.get? id = none := by
  have hkeys : (w.fs.watches.get? id).isSome = (w.purposes.get? id).isSome := hbalanced.keys id
  cases htarget : w.fs.watches.get? id with
  | none =>
      rw [htarget, Option.isSome_none] at hkeys
      exact ⟨rfl, Option.not_isSome_iff_eq_none.mp (Bool.eq_false_iff.mp hkeys.symm)⟩
  | some target =>
      rw [htarget, Option.isSome_some] at hkeys
      obtain ⟨purpose, hpurpose⟩ := Option.isSome_iff_exists.mp hkeys.symm
      have hbacks : w.Backs id target purpose :=
        ((watchesAccounted_of_balanced hbalanced).backed id target purpose).mp ⟨htarget, hpurpose⟩
      cases purpose with
      | document p => simp [Backs, h.documents] at hbacks
      | manifest i => simp [Backs, h.projects] at hbacks
      | sourceTree i => simp [Backs, h.projects] at hbacks
      | lookout dir => simp [Backs, h.lookouts hbalanced] at hbacks

theorem Deserted.vacant (h : w.Deserted) (hw : w.Enlisted) (hbalanced : Balanced w.outlook [] [])
    (htimers : w.TimersApt) : w.Vacant := by
  have hempty {κ α : Type} [DecidableEq κ] {table : Table κ α} (h : ∀ k, table.get? k = none) :
      table.keys = [] :=
    List.eq_nil_iff_forall_not_mem.mpr fun k hk => by simpa [h] using Table.mem_keys_iff.mp hk
  refine ⟨hempty h.projects, h.paths, h.openFiles, ?_, h.configured,
    hempty fun id => (h.watches hbalanced id).1, hempty fun id => (h.watches hbalanced id).2,
    hempty (h.lookouts hbalanced), fun timer htimer => ?_⟩
  · refine List.eq_nil_iff_forall_not_mem.mpr fun id hid => ?_
    obtain ⟨held, hheld, -⟩ := (hw.orderly.inferred id).mp hid
    simp [holding?, h.projects] at hheld
  · obtain ⟨-, hconcerns⟩ := htimers timer htimer
    cases htask : timer.task with
    | fold p => simp [htask, Concerns, outlook, h.documents] at hconcerns
    | settle change => exact ⟨change, rfl⟩
    | reread id => simp [htask, Concerns, outlook, h.projects] at hconcerns

/-! ### Runs -/

/-- Something is open, or there is nothing. -/
def OpenOrDeserted (w : Workspace) : Prop :=
  (∃ p, w.isOpen p) ∨ w.Deserted

theorem isOpen_perform {op : Operation} (hw : w.Enlisted) (h : op.IsPlain) :
    (w.perform op).isOpen = w.isOpen :=
  have hproceeds : Proceeds False (fun _ => True) w (w.perform op) :=
    leads_perform h ⟨hw, False.elim⟩
  hproceeds.isOpen

/-- The last document that is closed takes everything along. -/
theorem perform_openOrDeserted (ht : t.live) (hsound : Sound t.settled w.registry [] [] [])
    (hseated : Seated w.registry none single) (hw : w.Enlisted)
    (hbalanced : Balanced w.outlook [] []) (h : w.OpenOrDeserted) (op : Operation) :
    (w.perform op).OpenOrDeserted := by
  rcases h with ⟨q, hq⟩ | hdeserted
  · have hkept (hopen : (w.perform op).isOpen = w.isOpen) : (w.perform op).OpenOrDeserted :=
      .inl ⟨q, hopen ▸ hq⟩
    cases op with
    | openFile p text? =>
        rcases isOpen_openFile hw p text? with heq | ⟨-, hopen⟩
        · exact hkept (congrArg isOpen heq)
        · exact .inl ⟨q, hopen q hq⟩
    | closeFile p =>
        by_cases hopen : ∃ p', (w.perform (.closeFile p)).isOpen p'
        · exact .inl hopen
        have hlisted : (w.perform (.closeFile p)).Enlisted := hw.perform _
        have hseated' : Seated (w.perform (.closeFile p)).registry none single :=
          closeFile_seated ht hsound hseated p
        rcases closeFile_cases w p with heq | ⟨hclosing, text, heq⟩
        · exact hkept (congrArg isOpen heq)
        · obtain ⟨closed, hsettle, hclosed, -⟩ := close_eq_settle ht hsound hseated hclosing text
          have heq' : w.perform (.closeFile p) = closed.settle := heq.trans hsettle
          rw [heq'] at hopen hlisted hseated' ⊢
          exact .inr (settle_deserted (t := { t with left := [w.normalize p] }) ht hclosed hseated'
            hlisted (by simpa using hopen))
    | adoptProjectFor p => exact hkept (proceeds_adoptProjectFor w p).isOpen
    | takeEvents => exact hkept rfl
    | replaceFiles fs => exact hkept rfl
    | _ => exact hkept (isOpen_perform hw trivial)
  · exact perform_deserted hdeserted hw (fun id => (hdeserted.watches hbalanced id).2) op

section

variable {scanner : Scanner} {fs : FileSystem}

theorem openOrDeserted_run (settings : Settings) (hfs : fs.watches = {})
    (hops : ({ settings, scanner, fs } : Workspace).Avoids ops Meddles)
    (hrobs : ({ settings, scanner, fs } : Workspace).Avoids ops Robs) :
    (({ settings, scanner, fs } : Workspace).run ops).OpenOrDeserted := by
  induction ops using List.reverseRecOn with
  | nil => exact .inr ⟨fun _ => rfl, fun _ => rfl, rfl, rfl⟩
  | append_singleton ops op ih =>
      obtain ⟨hops, -⟩ := avoids_concat.mp hops
      obtain ⟨hrobs, -⟩ := avoids_concat.mp hrobs
      rw [run_concat]
      exact perform_openOrDeserted (t := .owning scanner.normalizer) trivial (sound_of_avoids_robs hrobs)
        (seated_of_avoids_robs hrobs) enlisted_run (balanced_run settings hfs hops) (ih hops hrobs) op

theorem timersApt_run (settings : Settings)
    (hops : ({ settings, scanner, fs } : Workspace).Avoids ops Meddles) :
    (({ settings, scanner, fs } : Workspace).run ops).TimersApt := by
  refine (run_keeps_apart TimersApt (fun _ _ _ h => timersApt_proceeds h)
    (fun w w' hbeside hw timer htimer => ?_) enlisted_empty (fun _ h => absurd h List.not_mem_nil)
    hops).2
  rw [hbeside.outlook]
  exact (hbeside.timers timer htimer).elim (hw timer) fun hapt => hapt

end

theorem mem_openPaths_of_isOpen (h : w.isOpen p) : p ∈ w.documents.openPaths := by
  obtain ⟨d, hd, hopen⟩ := Option.any_eq_true .. |>.mp h
  exact List.mem_map.mpr ⟨(p, d), List.mem_filter.mpr ⟨Table.mem_entries_of_get? hd, hopen⟩, rfl⟩

/-- Over a file system whose watches are left to the workspace, a run that leaves no document open leaves
nothing, whatever it did before. No step may rob a project, which none does with an absolute base directory. -/
theorem vacant_run (settings : Settings) (scanner : Scanner) (fs : FileSystem) (ops : List Operation) :
    let start : Workspace := { settings, scanner, fs }
    (fs.watches = {} → start.Avoids ops Meddles → start.Avoids ops Robs →
      (∀ p, (start.run ops).isOpen p = false) → (start.run ops).Vacant) ∧
    (scanner.normalizer.base.isAbsolute → start.Avoids ops Robs) := by
  intro start
  refine ⟨fun hfs hops hrobs hclosed => ?_, avoids_robs_of_isAbsolute⟩
  have hdeserted : (start.run ops).Deserted :=
    (openOrDeserted_run settings hfs hops hrobs).resolve_left fun ⟨p, hopen⟩ => by
      rw [hclosed p] at hopen
      simp at hopen
  exact hdeserted.vacant enlisted_run (balanced_run settings hfs hops) (timersApt_run settings hops)

/-- All documents are closed, one of them with an edit. -/
def departing : List Operation :=
  let path (names : List String) : Path := ⟨names.map .name⟩
  agreeing ++ [.changeFile (path ["a"]) [⟨0, 1, []⟩], .closeFile (path ["b"]), .closeFile (path ["a"]),
    .closeFile (path ["w", "a"])]

theorem vacant_run_departing :
    let w := nested.run departing
    (nested.fs.watches = {} ∧ nested.Avoids departing Meddles ∧ nested.Avoids departing Robs ∧
      ∀ p, w.isOpen p = false) ∧ w.Vacant ∧ w.lastProject = 3 := by
  intro w
  have hfs : nested.fs.watches = {} := by decide +kernel
  have hops : nested.Avoids departing Meddles := by decide +kernel
  have hrobs : nested.Avoids departing Robs := by decide +kernel
  have hpaths : w.documents.openPaths = [] := by decide +kernel
  have hclosed : ∀ p, w.isOpen p = false := fun p => by
    by_contra hopen
    have hp := mem_openPaths_of_isOpen (Bool.not_eq_false _ ▸ hopen)
    simp [hpaths] at hp
  exact ⟨⟨hfs, hops, hrobs, hclosed⟩,
    (vacant_run {} nested.scanner nested.fs departing).1 hfs hops hrobs hclosed, by decide +kernel⟩

/-- A document that was given the project of another one leaves its own project behind. -/
example :
    let path (names : List String) : Path := ⟨names.map .name⟩
    let start : Workspace :=
      { settings := {}
        scanner := ⟨.empty, ⟨path ["w"], true⟩⟩
        fs := FileSystem.ofFiles [(path ["w", "a"], []), (path ["w", "w", "a"], [])] }
    let w := start.run [.openFile (path ["a"]) none, .openFile (path ["w", "a"]) none,
      .adoptProjectFor (path ["a"]), .closeFile (path ["a"]), .closeFile (path ["w", "a"])]
    w.documents.openPaths = [] ∧ w.projects.keys = [1] := by
  decide +kernel

end Workspace

end ProjectTracker
