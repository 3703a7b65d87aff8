import ProjectTracker.Proofs.Workspace.Operations
import ProjectTracker.Proofs.Workspace.Upkeep
import ProjectTracker.Proofs.Workspace.Watching
/-!
What a workspace does, as a relation between the states before and after: documents and projects come and go, with
their watches, and documents are given to projects and told about. Every function is made of such steps, so that
whatever each kind of step keeps the functions keep.
-/

namespace ProjectTracker

/-- An event that is neither about the places of documents nor about projects. -/
def Event.IsIdle : Event → Prop
  | .changed _ _ _ | .manifestRead _ _ _ => True
  | _ => False

/-- A task is about a tracked document or a live project. -/
def Outlook.Concerns (o : Outlook) : Task → Prop
  | .fold p => (o.document? p).isSome
  | .settle _ => True
  | .reread id => (o.post? id).isSome

/-- A task waits under its topic, which is still there. -/
def Outlook.Apt (o : Outlook) (timer : Timer Topic Task) : Prop :=
  timer.key = timer.task.topic ∧ o.Concerns timer.task

namespace Workspace

def outlook (w : Workspace) : Outlook where
  watches := w.fs.watches
  purposes := w.purposes
  lookouts := w.lookouts
  document? p := (w.documents.get? p).map (·.watch?)
  post? id := (w.projects.get? id).map Project.post

variable {w w' w'' : Workspace} {p q root : Path} {id : ProjectId} {text : Text} {manifest : Path}

theorem isSome_document? : (w.outlook.document? p).isSome = w.isTracked p := by
  simp [outlook, isTracked, Store.contains, Table.contains, Store.get?]

/-! ### What happens to watches -/

theorem outlook_foldl {α : Type} {step : Workspace → α → Workspace} {step' : Outlook → α → Outlook}
    (h : ∀ w x, (step w x).outlook = step' w.outlook x) (xs : List α) (w : Workspace) :
    (xs.foldl step w).outlook = xs.foldl step' w.outlook := by
  induction xs generalizing w with
  | nil => rfl
  | cons x xs ih => rw [List.foldl_cons, List.foldl_cons, ih, h]

theorem outlook_joinLookout (w : Workspace) (dir : Path) :
    (w.joinLookout dir).outlook = w.outlook.join dir := by
  unfold joinLookout Outlook.join
  cases hlookout : w.lookouts.get? dir with
  | some lookout =>
      have hlookout' : w.outlook.lookouts.get? dir = some lookout := hlookout
      rw [hlookout']
      rfl
  | none =>
      have hlookout' : w.outlook.lookouts.get? dir = none := hlookout
      rw [hlookout']
      rfl

theorem outlook_leaveLookout (w : Workspace) (dir : Path) :
    (w.leaveLookout dir).outlook = w.outlook.leave dir := by
  unfold leaveLookout Outlook.leave
  cases hlookout : w.lookouts.get? dir with
  | some lookout =>
      have hlookout' : w.outlook.lookouts.get? dir = some lookout := hlookout
      rw [hlookout']
      dsimp only
      split <;> rfl
  | none =>
      have hlookout' : w.outlook.lookouts.get? dir = none := hlookout
      rw [hlookout']

/-- Documents of which one is another one, or is new. -/
theorem outlook_documents {documents : Store} {document? : Option (Option WatchId)}
    (h : ∀ q, (documents.get? q).map (·.watch?) =
      if q = p then document? else w.outlook.document? q) :
    ({ w with documents } : Workspace).outlook = w.outlook.setDocument p document? := by
  ext : 1
  case document? =>
    funext q
    exact h q
  all_goals rfl

theorem outlook_track (w : Workspace) (p : Path) (text : Text) :
    (w.track p text).outlook = w.outlook.track p := by
  refine outlook_documents (w := (w.watch (.file (.ofPath p)) (.document p)).1) fun q => ?_
  simp only [Store.get?, Store.insert, Table.get?_insert, Document.create, Spelling.ofPath]
  by_cases hq : q = p
  · simp [hq]
    rfl
  · simp [hq, Ne.symm hq]
    rfl

theorem outlook_unwatch (w : Workspace) (p : Path) : (w.unwatch p).outlook = w.outlook.unwatch p := by
  unfold unwatch Outlook.unwatch
  cases hd : w.documents.get? p with
  | none => simp [outlook, hd]
  | some d =>
      have hdocument : w.outlook.document? p = some d.watch? := by simp [outlook, hd]
      rw [hdocument]
      cases hwatch : d.watch? with
      | none => simp [hwatch]
      | some id =>
          simp only [Option.bind_some, hwatch]
          have hmodified : (w.modifyDocument p fun d => { d with watch? := none }).outlook =
              w.outlook.setDocument p (some none) := by
            refine outlook_documents fun q => ?_
            rw [show (w.documents.modify p _).get? q = _ from get?_modifyDocument w p q _]
            by_cases hq : q = p
            · subst q
              simp [hd]
            · simp [hq, Ne.symm hq, outlook]
          exact congrArg (·.release id) hmodified

theorem outlook_forget (w : Workspace) (p : Path) :
    (w.forget p).outlook = (w.outlook.unwatch p).setDocument p none := by
  unfold forget
  split
  · rw [← outlook_unwatch]
    show ({ w.unwatch p with documents := (w.unwatch p).documents.remove p } : Workspace).outlook = _
    refine outlook_documents fun q => ?_
    simp only [Store.get?, Store.remove, Table.get?_erase]
    by_cases hq : q = p
    · simp [hq]
    · simp [hq, Ne.symm hq]
      rfl
  · rename_i huntracked
    have hnone : w.outlook.document? p = none := by
      rw [← Option.not_isSome_iff_eq_none, isSome_document?]
      exact huntracked
    have hsame : w.outlook.unwatch p = w.outlook := by
      unfold Outlook.unwatch
      rw [hnone]
    rw [hsame]
    ext : 1
    case document? =>
      funext q
      simp only [Outlook.setDocument]
      split
      · subst q
        exact hnone
      · rfl
    all_goals rfl

theorem outlook_emit (w : Workspace) (e : Event) : (w.emit e).outlook = w.outlook := rfl

theorem outlook_cancel (w : Workspace) (topic : Topic) : (w.cancel topic).outlook = w.outlook := rfl

theorem outlook_modifyOpenFiles (w : Workspace) (f : OpenFiles → OpenFiles) :
    (w.modifyOpenFiles f).outlook = w.outlook := rfl

/-- A change of one document that leaves its watch as it is. -/
theorem outlook_modifyDocument {f : Document → Document}
    (h : ∀ d, w.documents.get? p = some d → (f d).watch? = d.watch?) :
    (w.modifyDocument p f).outlook = w.outlook := by
  ext : 1
  case document? =>
    funext q
    simp only [outlook]
    rw [get?_modifyDocument]
    split
    · subst q
      cases hd : w.documents.get? p with
      | none => rfl
      | some d => simp [h d hd]
    · rfl
  all_goals rfl

/-- A change of projects that leaves their posts as they are. -/
theorem outlook_projects {projects : Table ProjectId Project}
    (h : ∀ id, (projects.get? id).map Project.post = (w.projects.get? id).map Project.post) :
    ({ w with projects } : Workspace).outlook = w.outlook := by
  ext : 1
  case post? =>
    funext id
    exact h id
  all_goals rfl

theorem outlook_modifyProject {f : Project → Project} (h : ∀ project, (f project).post = project.post) :
    (w.modifyProject id f).outlook = w.outlook := by
  refine outlook_projects fun i => ?_
  rw [Table.get?_modify]
  split
  · cases w.projects.get? i <;> simp [h]
  · rfl

theorem outlook_setOwner (w : Workspace) (p : Path) (owner? : Option ProjectId) :
    (w.setOwner p owner?).outlook = w.outlook := by
  unfold setOwner
  split
  · rfl
  · rename_i d _
    split
    · rfl
    · have hwritten (w : Workspace) :
          (w.modifyDocument p fun d => { d with owner? }).outlook = w.outlook :=
        outlook_modifyDocument fun _ _ => rfl
      have hout (w : Workspace) (id : ProjectId) : (w.countOut id).outlook = w.outlook := by
        show (w.modifyProject id Project.removeOpen).outlook = w.outlook
        exact outlook_modifyProject fun _ => rfl
      have hin (w : Workspace) (id : ProjectId) : (w.countIn id).outlook = w.outlook :=
        outlook_modifyProject fun _ => rfl
      dsimp only
      rw [hwritten]
      split
      · cases d.owner? <;> cases owner? <;> simp [hout, hin]
      · rfl

theorem setPost_foldl {α : Type} {step : Outlook → α → Outlook} {post? : Option Post}
    (h : ∀ o x, step (o.setPost id post?) x = (step o x).setPost id post?) (xs : List α)
    (o : Outlook) : xs.foldl step (o.setPost id post?) = (xs.foldl step o).setPost id post? := by
  induction xs generalizing o with
  | nil => rfl
  | cons x xs ih => rw [List.foldl_cons, List.foldl_cons, h, ih]

theorem leave_setPost (o : Outlook) (dir : Path) (post? : Option Post) :
    (o.setPost id post?).leave dir = (o.leave dir).setPost id post? := by
  unfold Outlook.leave
  cases hlookout : o.lookouts.get? dir with
  | none => simp [Outlook.setPost, hlookout]
  | some lookout =>
      simp only [Outlook.setPost, hlookout]
      split <;> rfl

theorem outlook_removeProject (w : Workspace) (id : ProjectId) :
    (w.removeProject id).1.outlook = w.outlook.strike id := by
  unfold removeProject Outlook.strike
  cases hproject : w.projects.get? id with
  | none => simp [outlook, hproject]
  | some project =>
      have hpost : w.outlook.post? id = some project.post := by simp [outlook, hproject]
      have hdetach (w : Workspace) (p : Path) : (w.detach p).outlook = w.outlook := by
        rw [detach, outlook_setOwner, outlook_modifyOpenFiles]
      have hdetached (orphans : List Path) (w : Workspace) :
          (orphans.foldl detach w).outlook = w.outlook :=
        (outlook_foldl hdetach orphans w).trans (List.foldl_fixed orphans)
      have hreleased : (project.watches.foldl releaseWatch w).outlook =
          project.watches.foldl Outlook.release w.outlook :=
        outlook_foldl (fun _ _ => rfl) project.watches w
      have hleft := outlook_foldl outlook_leaveLookout project.lookouts
        (project.watches.foldl releaseWatch w)
      have herased (w : Workspace) (inferred configured : List ProjectId) :
          ({ w with projects := w.projects.erase id, inferred, configured } : Workspace).outlook =
            w.outlook.setPost id none := by
        ext : 1
        case post? =>
          funext i
          simp only [outlook, Outlook.setPost, Table.get?_erase]
          by_cases hi : i = id
          · simp [hi]
          · simp [hi, Ne.symm hi]
        all_goals rfl
      rw [hpost]
      dsimp only
      rw [outlook_emit, hdetached, outlook_cancel, herased, hleft, hreleased]
      -- the watches of the project are given up before it goes, which is the same as afterwards
      rw [setPost_foldl fun _ _ => rfl, setPost_foldl fun o dir => leave_setPost o dir none]
      rfl

/-! ### New projects -/

/-- Makes a project with the next id and tells about it. -/
def enter (w : Workspace) (project : Project) : Workspace :=
  { w with
    lastProject := w.lastProject + 1
    projects := w.projects.insert (w.lastProject + 1) project
    inferred := if project.isConfigured then w.inferred else w.inferred ++ [w.lastProject + 1]
    configured :=
      if project.isConfigured then w.configured ++ [w.lastProject + 1] else w.configured }.emit
    (.projectCreated (w.lastProject + 1) project.kind)

/-- An inferred project whose files are still to be found. -/
def enterInferred (w : Workspace) (root : Path) : Workspace :=
  (root.ancestors.foldl joinLookout w).enter
    { id := w.lastProject + 1, kind := .inferred, roots := [root], lookouts := root.ancestors }

/-- The project of a manifest, whose files are still to be found. -/
def enterConfigured (w : Workspace) (manifest : Path) (roots : List Path)
    (settings : List (String × Toml.Value)) : Workspace :=
  let (watched, manifestWatch) := w.watch (.file (.ofPath manifest)) (.manifest (w.lastProject + 1))
  let (watched, treeWatches) :=
    match manifest.parent? with
    | none => (watched, [])
    | some dir =>
      let (watched, tree) :=
        watched.watch (.directory (.ofPath dir) true) (.sourceTree (w.lastProject + 1))
      (watched, [tree])
  watched.enter
    { id := w.lastProject + 1, kind := .configured manifest, roots, settings,
      watches := manifestWatch :: treeWatches }

theorem foldl_commute {α : Type} {step : Workspace → α → Workspace} {f : Workspace → Workspace}
    (h : ∀ w x, step (f w) x = f (step w x)) (xs : List α) (w : Workspace) :
    xs.foldl step (f w) = f (xs.foldl step w) := by
  induction xs generalizing w with
  | nil => rfl
  | cons x xs ih => rw [List.foldl_cons, List.foldl_cons, h, ih]

/-- The files of a project are found without a look at what was told. -/
theorem refreshProject_emit (w : Workspace) (id : ProjectId) (e : Event) :
    (w.emit e).refreshProject id = (w.refreshProject id).emit e := by
  have hload (w : Workspace) (p : Path) : (w.emit e).load p = (w.load p).emit e := by
    unfold load
    show (if w.isTracked p then _ else _) = _
    split
    · rfl
    · rw [show (w.emit e).fs = w.fs from rfl]
      cases w.fs.text? p <;> rfl
  have hfold (w : Workspace) (p : Path) : (w.emit e).fold p = (w.fold p).emit e := rfl
  have hprojects : (w.emit e).projects = w.projects := rfl
  unfold refreshProject
  rw [hprojects]
  cases w.projects.get? id with
  | none => rfl
  | some project =>
      dsimp only
      rw [← foldl_commute hload, ← foldl_commute hfold]
      rfl

theorem lastProject_foldl_joinLookout (w : Workspace) (dirs : List Path) :
    (dirs.foldl joinLookout w).lastProject = w.lastProject :=
  congrArg Registry.lastProject (registry_foldl (fun w dir _ => registry_joinLookout w dir) w)

theorem createInferred_enter (w : Workspace) (root : Path) :
    (w.createInferred root).1 = (w.enterInferred root).refreshProject (w.lastProject + 1) := by
  have hjoin (w : Workspace) (dir : Path) :
      ({ w with lastProject := w.lastProject + 1 } : Workspace).joinLookout dir =
        { w.joinLookout dir with lastProject := (w.joinLookout dir).lastProject + 1 } := by
    unfold joinLookout
    dsimp only
    split <;> rfl
  unfold enterInferred enter
  rw [refreshProject_emit, lastProject_foldl_joinLookout]
  unfold createInferred
  dsimp only
  rw [foldl_commute (f := fun w => { w with lastProject := w.lastProject + 1 }) hjoin]
  dsimp only
  rw [lastProject_foldl_joinLookout]
  rfl

theorem createConfigured_enter (w : Workspace) (manifest : Path) {outcome : Manifest.Outcome}
    (h : outcome.definesProject) :
    let loaded := outcome.roots.foldl load w
    w.createConfigured manifest outcome =
      (loaded.enterConfigured manifest (outcome.roots.filter loaded.isTracked)
        outcome.settings).refreshProject (w.lastProject + 1) := by
  intro loaded
  have hload (w : Workspace) (p : Path) :
      ({ w with lastProject := w.lastProject + 1 } : Workspace).load p =
        { w.load p with lastProject := (w.load p).lastProject + 1 } := by
    unfold load
    show (if w.isTracked p then _ else _) = _
    split
    · rfl
    · dsimp only
      cases w.fs.text? p <;> rfl
  have hlast : loaded.lastProject = w.lastProject :=
    congrArg Registry.lastProject (registry_foldl (fun w p _ => registry_load w p) w)
  unfold createConfigured
  rw [if_pos h]
  dsimp only
  rw [foldl_commute (f := fun w => { w with lastProject := w.lastProject + 1 }) hload]
  show _ = refreshProject _ _
  unfold enterConfigured enter
  rw [refreshProject_emit]
  change loaded.lastProject = w.lastProject at hlast
  simp only [← hlast]
  cases manifest.parent? <;> rfl

theorem outlook_enter (w : Workspace) (project : Project) :
    (w.enter project).outlook = w.outlook.setPost (w.lastProject + 1) (some project.post) := by
  ext : 1
  case post? =>
    funext id
    simp only [outlook, enter, emit, Outlook.setPost, Table.get?_insert]
    by_cases hid : id = w.lastProject + 1
    · simp [hid]
    · simp [hid, Ne.symm hid]
  all_goals rfl

theorem outlook_enterInferred (w : Workspace) (root : Path) :
    (w.enterInferred root).outlook =
      w.outlook.enrollInferred (w.lastProject + 1) root.ancestors := by
  unfold enterInferred Outlook.enrollInferred
  rw [outlook_enter, lastProject_foldl_joinLookout, outlook_foldl outlook_joinLookout]
  rfl

theorem outlook_enterConfigured (w : Workspace) (manifest : Path) (roots : List Path)
    (settings : List (String × Toml.Value)) :
    (w.enterConfigured manifest roots settings).outlook =
      w.outlook.enrollConfigured (w.lastProject + 1) manifest := by
  unfold enterConfigured Outlook.enrollConfigured
  cases manifest.parent? <;> exact outlook_enter ..

/-! ### What stays beside -/

/-- Watches and projects are as they were, and tasks that came to wait are apt. -/
structure Beside (w w' : Workspace) : Prop where
  outlook : w'.outlook = w.outlook
  keys : w'.projects.keys = w.projects.keys
  inferred : w'.inferred = w.inferred
  configured : w'.configured = w.configured
  lastProject : w'.lastProject = w.lastProject
  /-- An inferred project may lose its root, and gets no other one. -/
  roots : ∀ id project', w'.projects.get? id = some project' → project'.kind = .inferred →
    ∃ project, w.projects.get? id = some project ∧ project'.roots ⊆ project.roots
  timers : ∀ timer ∈ w'.timers.timers, timer ∈ w.timers.timers ∨ w.outlook.Apt timer

/-- Open documents may lose their projects as well and leave the lists, and only idle things are told. -/
structure Aside (w w' : Workspace) : Prop extends Beside w w' where
  isOpen : w'.isOpen = w.isOpen
  listed : ∀ p ∈ w'.openFiles.roots, p ∈ w.openFiles.roots
  owner? : ∀ p, w'.owner? p = w.owner? p ∨ w'.owner? p = none
  events : ∃ told, w'.events = w.events ++ told ∧ ∀ e ∈ told, e.IsIdle

theorem Beside.of_eq (houtlook : w'.outlook = w.outlook) (hprojects : w'.projects = w.projects)
    (hinferred : w'.inferred = w.inferred) (hconfigured : w'.configured = w.configured)
    (hlast : w'.lastProject = w.lastProject)
    (htimers : ∀ timer ∈ w'.timers.timers, timer ∈ w.timers.timers ∨ w.outlook.Apt timer) :
    Beside w w' where
  outlook := houtlook
  keys := by rw [hprojects]
  inferred := hinferred
  configured := hconfigured
  lastProject := hlast
  roots id project' hproject' _ := ⟨project', hprojects ▸ hproject', fun _ h => h⟩
  timers := htimers

theorem Beside.refl (w : Workspace) : Beside w w :=
  .of_eq rfl rfl rfl rfl rfl fun _ h => .inl h

theorem Beside.trans (h : Beside w w') (h' : Beside w' w'') : Beside w w'' where
  outlook := h'.outlook.trans h.outlook
  keys := h'.keys.trans h.keys
  inferred := h'.inferred.trans h.inferred
  configured := h'.configured.trans h.configured
  lastProject := h'.lastProject.trans h.lastProject
  roots id project'' hproject'' hkind := by
    obtain ⟨project', hproject', hsub'⟩ := h'.roots id project'' hproject'' hkind
    have hkinds : (w'.outlook.post? id).map (·.kind) = (w''.outlook.post? id).map (·.kind) := by
      rw [h'.outlook]
    have hkind' : project'.kind = .inferred := by
      simpa [Workspace.outlook, hproject', hproject'', Project.post, hkind] using hkinds
    obtain ⟨project, hproject, hsub⟩ := h.roots id project' hproject' hkind'
    exact ⟨project, hproject, fun p hp => hsub (hsub' hp)⟩
  timers timer htimer := by
    rcases h'.timers timer htimer with htimer | hapt
    · exact h.timers timer htimer
    · exact .inr (h.outlook ▸ hapt)

/-- What the registry does not know of is idle. -/
theorem Beside.aside (h : Beside w w') (hregistry : w'.registry = w.registry)
    (hevents : w'.events = w.events) : Aside w w' where
  toBeside := h
  isOpen := congrArg Registry.isOpen hregistry
  listed p hp := by
    rw [← registry_openFiles, ← hregistry]
    exact hp
  owner? p := .inl (congrFun (congrArg Registry.owner? hregistry) p)
  events := ⟨[], by simp [hevents], by simp⟩

theorem beside_modifyDocument {f : Document → Document}
    (h : ∀ d, w.documents.get? p = some d → (f d).watch? = d.watch?) :
    Beside w (w.modifyDocument p f) :=
  .of_eq (outlook_modifyDocument h) rfl rfl rfl rfl fun _ h => .inl h

theorem aside_modifyDocument {f : Document → Document}
    (h : ∀ d, w.documents.get? p = some d →
      (f d).watch? = d.watch? ∧ (f d).isOpen = d.isOpen ∧ (f d).owner? = d.owner?) :
    Aside w (w.modifyDocument p f) :=
  (beside_modifyDocument fun d hd => (h d hd).1).aside
    (registry_modifyDocument fun d hd => (h d hd).2) rfl

theorem aside_fold (w : Workspace) (p : Path) : Aside w (w.fold p) :=
  aside_modifyDocument fun _ _ => ⟨rfl, rfl, rfl⟩

theorem beside_modifyProject {f : Project → Project} (hpost : ∀ project, (f project).post = project.post)
    (hroots : ∀ project, w.projects.get? id = some project → project.kind = .inferred →
      (f project).roots ⊆ project.roots) : Beside w (w.modifyProject id f) where
  outlook := outlook_modifyProject hpost
  keys := Table.keys_modify ..
  inferred := rfl
  configured := rfl
  lastProject := rfl
  roots i project' hproject' hkind := by
    simp only [modifyProject, Table.get?_modify] at hproject'
    split at hproject'
    · subst i
      obtain ⟨project, hproject, rfl⟩ := Option.map_eq_some_iff.mp hproject'
      have hkind' : project.kind = .inferred := (congrArg Post.kind (hpost project)).symm.trans hkind
      exact ⟨project, hproject, hroots project hproject hkind'⟩
    · exact ⟨project', hproject', fun _ h => h⟩
  timers _ h := .inl h

/-- A change of a project that is neither about its watches nor about its open documents. -/
theorem aside_modifyProject {f : Project → Project} (hpost : ∀ project, (f project).post = project.post)
    (hroots : ∀ project, w.projects.get? id = some project → project.kind = .inferred →
      (f project).roots ⊆ project.roots) : Aside w (w.modifyProject id f) where
  toBeside := beside_modifyProject hpost hroots
  isOpen := rfl
  listed _ hp := hp
  owner? _ := .inl rfl
  events := ⟨[], (List.append_nil _).symm, by simp⟩

theorem aside_markStaleAround (w : Workspace) (p : Path) : Aside w (w.markStaleAround p) := by
  have hget (id : ProjectId) : (w.markStaleAround p).projects.get? id =
      (w.projects.get? id).map fun project =>
        if project.contains p then project.markStale else project :=
    Table.get?_map ..
  refine Beside.aside ⟨outlook_projects fun id => ?_, Table.keys_map .., rfl, rfl, rfl,
    fun id project' hproject' _ => ?_, fun _ h => .inl h⟩ (registry_markStaleAround w p) rfl
  · rw [Table.get?_map, Option.map_map]
    congr 1
    funext project
    simp only [Function.comp_apply]
    split <;> rfl
  · rw [hget] at hproject'
    obtain ⟨project, hproject, rfl⟩ := Option.map_eq_some_iff.mp hproject'
    refine ⟨project, hproject, ?_⟩
    split <;> exact fun _ h => h

theorem aside_modifyOpenFiles {f : OpenFiles → OpenFiles}
    (h : ∀ p ∈ (f w.openFiles).roots, p ∈ w.openFiles.roots) : Aside w (w.modifyOpenFiles f) where
  toBeside := .of_eq rfl rfl rfl rfl rfl fun _ h => .inl h
  isOpen := rfl
  listed := h
  owner? _ := .inl rfl
  events := ⟨[], (List.append_nil _).symm, by simp⟩

theorem aside_emit (w : Workspace) {e : Event} (h : e.IsIdle) : Aside w (w.emit e) where
  toBeside := .of_eq rfl rfl rfl rfl rfl fun _ h => .inl h
  isOpen := rfl
  listed _ hp := hp
  owner? _ := .inl rfl
  events := ⟨[e], rfl, by simpa using h⟩

theorem aside_timers {timers : TimerQueue Topic Task}
    (h : ∀ timer ∈ timers.timers, timer ∈ w.timers.timers ∨ w.outlook.Apt timer) :
    Aside w { w with timers } := by
  have hbeside : Beside w { w with timers } := .of_eq rfl rfl rfl rfl rfl h
  exact hbeside.aside rfl rfl

theorem aside_cancel (w : Workspace) (topic : Topic) : Aside w (w.cancel topic) :=
  aside_timers fun _ htimer => .inl (List.mem_filter.mp htimer).1

theorem beside_setOwner (w : Workspace) (p : Path) (owner? : Option ProjectId) :
    Beside w (w.setOwner p owner?) := by
  unfold setOwner
  split
  · exact .refl w
  · rename_i d _
    split
    · exact .refl w
    · have hout (w : Workspace) (id : ProjectId) : Beside w (w.countOut id) :=
        have hcounted : Beside w (w.modifyProject id Project.removeOpen) :=
          beside_modifyProject (fun _ => rfl) fun _ _ _ _ h => h
        ⟨hcounted.outlook, hcounted.keys, rfl, rfl, rfl, hcounted.roots, hcounted.timers⟩
      have hin (w : Workspace) (id : ProjectId) : Beside w (w.countIn id) :=
        beside_modifyProject (fun _ => rfl) fun _ _ _ _ h => h
      have hcounted : Beside w (if d.isOpen then
          let w := d.owner?.elim w w.countOut
          owner?.elim w w.countIn
        else w) := by
        split
        · have hleft : Beside w (d.owner?.elim w w.countOut) := by
            cases d.owner? with
            | none => exact .refl w
            | some id => exact hout w id
          refine hleft.trans ?_
          cases owner? with
          | none => exact .refl _
          | some id => exact hin _ id
        · exact .refl w
      exact hcounted.trans (beside_modifyDocument fun _ _ => rfl)

theorem isOpen_emit (w : Workspace) (e : Event) : (w.emit e).isOpen = w.isOpen := rfl

theorem events_setOwner (w : Workspace) (p : Path) (owner? : Option ProjectId) :
    (w.setOwner p owner?).events = w.events := by
  unfold setOwner
  split
  · rfl
  · rename_i d _
    split
    · rfl
    · cases d.isOpen <;> cases d.owner? <;> cases owner? <;> rfl

theorem get?_setOwner (w : Workspace) (p q : Path) (owner? : Option ProjectId) :
    (w.setOwner p owner?).documents.get? q =
      if p = q then (w.documents.get? q).map fun d => { d with owner? } else w.documents.get? q := by
  unfold setOwner
  split
  · rename_i hnone
    split
    · subst q
      simp [hnone]
    · rfl
  · rename_i d hd
    split
    · rename_i hsame
      split
      · subst q
        simp [hd, ← hsame]
      · rfl
    · rw [get?_modifyDocument]
      have hkept : (if d.isOpen then
          let w := d.owner?.elim w w.countOut
          owner?.elim w w.countIn
        else w).documents = w.documents := by
        cases d.isOpen <;> cases d.owner? <;> cases owner? <;> rfl
      rw [hkept]

theorem isOpen_setOwner (w : Workspace) (p : Path) (owner? : Option ProjectId) :
    (w.setOwner p owner?).isOpen = w.isOpen := by
  funext q
  unfold isOpen
  rw [get?_setOwner]
  split
  · cases w.documents.get? q <;> rfl
  · rfl

theorem owner?_setOwner_self (h : w.isTracked p) (owner? : Option ProjectId) :
    (w.setOwner p owner?).owner? p = owner? := by
  obtain ⟨d, hd⟩ := isTracked_iff.mp h
  unfold Workspace.owner?
  rw [get?_setOwner, if_pos rfl, hd]
  rfl

theorem owner?_setOwner_of_ne (h : q ≠ p) (owner? : Option ProjectId) :
    (w.setOwner p owner?).owner? q = w.owner? q := by
  unfold Workspace.owner?
  rw [get?_setOwner, if_neg (Ne.symm h)]

theorem openFiles_setOwner (w : Workspace) (p : Path) (owner? : Option ProjectId) :
    (w.setOwner p owner?).openFiles = w.openFiles := by
  unfold setOwner
  split
  · rfl
  · rename_i d _
    split
    · rfl
    · cases d.isOpen <;> cases d.owner? <;> cases owner? <;> rfl

theorem aside_vacate (w : Workspace) (p : Path) : Aside w (w.setOwner p none) where
  toBeside := beside_setOwner w p none
  isOpen := isOpen_setOwner w p none
  listed q hq := openFiles_setOwner w p none ▸ hq
  owner? q := by
    by_cases hq : q = p
    · subst q
      right
      unfold Workspace.owner?
      rw [get?_setOwner, if_pos rfl]
      cases w.documents.get? p <;> rfl
    · exact .inl (owner?_setOwner_of_ne hq none)
  events := ⟨[], by rw [events_setOwner, List.append_nil], by simp⟩

/-! ### Steps -/

variable {strict : Prop} {unsaid : Path → Prop}

/-- A workspace becomes another one by steps. Documents for which that is unsaid may be given to projects
without a word, and others only if it is told after all. In a strict account only open documents are given
to projects, listed and told about. -/
inductive Proceeds (strict : Prop) : (Path → Prop) → Workspace → Workspace → Prop where
  | refl {unsaid : Path → Prop} (w : Workspace) : Proceeds strict unsaid w w
  | trans {unsaid : Path → Prop} {w w' w'' : Workspace} (h : Proceeds strict unsaid w w')
    (h' : Proceeds strict unsaid w' w'') : Proceeds strict unsaid w w''
  | aside {unsaid : Path → Prop} {w w' : Workspace} (h : Aside w w') : Proceeds strict unsaid w w'
  | listRoot {unsaid : Path → Prop} {w : Workspace} {p : Path} (h : w.isOpen p) :
    Proceeds strict unsaid w (w.modifyOpenFiles (·.addRoot p))
  | give {unsaid : Path → Prop} {w : Workspace} {p : Path} (owner? : Option ProjectId)
    (h : unsaid p) (hopen : strict → w.isOpen p) : Proceeds strict unsaid w (w.setOwner p owner?)
  | say {unsaid : Path → Prop} {w w' : Workspace} {p : Path} {owner? : Option ProjectId}
    (h : Proceeds strict (fun q => unsaid q ∨ q = p) w w')
    (hsaid : strict → w'.isOpen p ∧ w'.owner? p = owner?) :
    Proceeds strict unsaid w (w'.emit (.contextChanged p owner?))
  | track {unsaid : Path → Prop} {w : Workspace} {p : Path} (text : Text)
    (h : w.isTracked p = false) : Proceeds strict unsaid w (w.track p text)
  | unwatch {unsaid : Path → Prop} (w : Workspace) (p : Path) :
    Proceeds strict unsaid w (w.unwatch p)
  | forget {unsaid : Path → Prop} {w : Workspace} {p : Path} (h : w.isOpen p = false) :
    Proceeds strict unsaid w (w.forget p)
  | removeProject {unsaid : Path → Prop} (w : Workspace) (id : ProjectId) :
    Proceeds strict unsaid w (w.removeProject id).1
  | enterInferred {unsaid : Path → Prop} (w : Workspace) (root : Path) :
    Proceeds strict unsaid w (w.enterInferred root)
  | enterConfigured {unsaid : Path → Prop} {w : Workspace} {manifest : Path} (roots : List Path)
    (settings : List (String × Toml.Value)) (h : w.projectOfManifest? manifest = none) :
    Proceeds strict unsaid w (w.enterConfigured manifest roots settings)

/-- What is not about the places of open documents is kept if the few kinds of steps keep it that have to do
with it. -/
theorem Proceeds.keeps (property : Workspace → Prop)
    (hbeside : ∀ w w', Beside w w' → property w → property w')
    (htrack : ∀ w p text, w.isTracked p = false → property w → property (w.track p text))
    (hunwatch : ∀ w p, property w → property (w.unwatch p))
    (hforget : ∀ w p, w.isOpen p = false → property w → property (w.forget p))
    (hremove : ∀ w id, property w → property (w.removeProject id).1)
    (hinferred : ∀ w root, property w → property (w.enterInferred root))
    (hconfigured : ∀ w manifest roots settings, w.projectOfManifest? manifest = none →
      property w → property (w.enterConfigured manifest roots settings))
    (h : Proceeds strict unsaid w w') (hw : property w) : property w' := by
  have hemit (w : Workspace) (e : Event) (hw : property w) : property (w.emit e) :=
    hbeside w (w.emit e) (.of_eq rfl rfl rfl rfl rfl fun _ h => .inl h) hw
  induction h with
  | refl w => exact hw
  | trans _ _ ih ih' => exact ih' (ih hw)
  | aside h => exact hbeside _ _ h.toBeside hw
  | @listRoot _ w p _ =>
      have hlisted : Beside w (w.modifyOpenFiles (·.addRoot p)) :=
        .of_eq rfl rfl rfl rfl rfl fun _ h => .inl h
      exact hbeside _ _ hlisted hw
  | give owner? _ _ => exact hbeside _ _ (beside_setOwner ..) hw
  | say _ _ ih => exact hemit _ _ (ih hw)
  | track text h => exact htrack _ _ text h hw
  | unwatch w p => exact hunwatch w p hw
  | forget h => exact hforget _ _ h hw
  | removeProject w id => exact hremove w id hw
  | enterInferred w root => exact hinferred w root hw
  | enterConfigured roots settings h => exact hconfigured _ _ roots settings h hw

/-! ### What all steps keep -/

theorem Enlisted.enter (h : w.Enlisted) (project : Project) : (w.enter project).Enlisted := by
  have hroster : (w.enter project).roster = w.roster.enroll project.holding := by
    ext : 1
    case holding? =>
      funext id
      simp only [roster_holding?, holding?, Workspace.enter, emit, Table.get?_insert, Roster.enroll,
        roster_lastProject]
      by_cases hid : id = w.lastProject + 1
      · simp [hid]
      · simp [hid, Ne.symm hid]
    case lastProject => rfl
    all_goals
      obtain ⟨id, kind, roots, files, isStale, openCount, settings, watches, lookouts⟩ := project
      cases kind <;> rfl
  have hfresh : w.lastProject + 1 ∉ w.projects.keys := by
    rw [Table.mem_keys_iff]
    intro hlive
    obtain ⟨project, hproject⟩ := Option.isSome_iff_exists.mp hlive
    have hle := h.orderly.le (w.lastProject + 1) project.holding (by simp [holding?, hproject])
    exact absurd hle (Nat.not_succ_le_self _)
  refine ⟨hroster ▸ h.orderly.enroll _, ?_⟩
  exact (Table.keys_insert_perm hfresh project).nodup_iff.mpr
    (List.nodup_cons.mpr ⟨hfresh, h.distinct⟩)

theorem calm_enterConfigured (w : Workspace) (manifest : Path) (roots : List Path)
    (settings : List (String × Toml.Value)) : ∃ watched project, Calm w watched ∧
      project.kind = .configured manifest ∧
      w.enterConfigured manifest roots settings = watched.enter project := by
  unfold enterConfigured
  have hmanifest := calm_watch w (.file (.ofPath manifest)) (.manifest (w.lastProject + 1))
  cases manifest.parent? with
  | none => exact ⟨_, _, hmanifest, rfl, rfl⟩
  | some dir => exact ⟨_, _, hmanifest.trans (calm_watch ..), rfl, rfl⟩

theorem calm_foldl_joinLookout (w : Workspace) (dirs : List Path) :
    Calm w (dirs.foldl joinLookout w) :=
  Calm.foldl calm_joinLookout dirs w

theorem Enlisted.beside (h : w.Enlisted) (hbeside : Beside w w') : w'.Enlisted := by
  refine h.of_kinds (fun id => ?_) hbeside.inferred hbeside.configured hbeside.lastProject hbeside.keys
  have hkinds : (w'.outlook.post? id).map (·.kind) = (w.outlook.post? id).map (·.kind) := by
    rw [hbeside.outlook]
  simp only [outlook, Option.map_map] at hkinds
  unfold holding?
  rw [Option.map_map, Option.map_map]
  exact hkinds

/-- The lists of projects stay right. -/
theorem Enlisted.proceeds (hw : w.Enlisted) (h : Proceeds strict unsaid w w') : w'.Enlisted := by
  refine h.keeps Enlisted (fun w w' hbeside hw => hw.beside hbeside) (fun w p text _ hw => ?_)
    (fun w p hw => ?_) (fun w p _ hw => ?_) (fun w id hw => ?_) (fun w root hw => ?_)
    (fun w manifest roots settings _ hw => ?_) hw
  · exact hw.of_roster rfl rfl
  · exact hw.of_roster (calm_unwatch w p).roster (calm_unwatch w p).keys
  · obtain ⟨-, hroster, hkeys, -⟩ := forget_contents w p
    exact hw.of_roster hroster hkeys
  · obtain ⟨-, hroster, hkeys⟩ := removeProject_contents w id
    exact ⟨hroster ▸ hw.orderly.strike id, hkeys.nodup hw.distinct⟩
  · have hjoined := calm_foldl_joinLookout w root.ancestors
    exact (hw.of_roster hjoined.roster hjoined.keys).enter _
  · obtain ⟨watched, project, hcalm, -, heq⟩ := calm_enterConfigured w manifest roots settings
    rw [heq]
    exact (hw.of_roster hcalm.roster hcalm.keys).enter project

/-- New ids are not in use. -/
theorem Enlisted.fresh (h : w.Enlisted) : w.outlook.post? (w.lastProject + 1) = none := by
  by_contra hlive
  obtain ⟨post, hpost⟩ := Option.ne_none_iff_exists'.mp hlive
  obtain ⟨project, hproject, -⟩ := Option.map_eq_some_iff.mp hpost
  have hle := h.orderly.le (w.lastProject + 1) project.holding (by simp [holding?, hproject])
  exact absurd hle (Nat.not_succ_le_self _)

/-- To keep a property, what makes new projects may count on the lists being right. -/
theorem Proceeds.keepsListed (property : Workspace → Prop)
    (hbeside : ∀ w w', Beside w w' → property w → property w')
    (htrack : ∀ w p text, w.isTracked p = false → property w → property (w.track p text))
    (hunwatch : ∀ w p, property w → property (w.unwatch p))
    (hforget : ∀ w p, property w → property (w.forget p))
    (hremove : ∀ w id, property w → property (w.removeProject id).1)
    (hinferred : ∀ w root, w.Enlisted → property w → property (w.enterInferred root))
    (hconfigured : ∀ w manifest roots settings, w.Enlisted →
      w.projectOfManifest? manifest = none → property w →
        property (w.enterConfigured manifest roots settings))
    (h : Proceeds strict unsaid w w') (hw : w.Enlisted) (hproperty : property w) : property w' := by
  have hlisted {v v' : Workspace} (hv : v.Enlisted) (h : Proceeds strict unsaid v v') : v'.Enlisted :=
    hv.proceeds h
  exact (h.keeps (fun w => w.Enlisted ∧ property w)
    (fun w w' hbeside' hw => ⟨hw.1.beside hbeside', hbeside w w' hbeside' hw.2⟩)
    (fun w p text hp hw => ⟨hlisted hw.1 (.track text hp), htrack w p text hp hw.2⟩)
    (fun w p hw => ⟨hlisted hw.1 (.unwatch w p), hunwatch w p hw.2⟩)
    (fun w p hp hw => ⟨hlisted hw.1 (.forget hp), hforget w p hw.2⟩)
    (fun w id hw => ⟨hlisted hw.1 (.removeProject w id), hremove w id hw.2⟩)
    (fun w root hw => ⟨hlisted hw.1 (.enterInferred w root), hinferred w root hw.1 hw.2⟩)
    (fun w manifest roots settings hnone hw =>
      ⟨hlisted hw.1 (.enterConfigured roots settings hnone),
        hconfigured w manifest roots settings hw.1 hnone hw.2⟩) ⟨hw, hproperty⟩).2

/-! ### Open documents -/

theorem isOpen_removeProject (w : Workspace) (id : ProjectId) :
    (w.removeProject id).1.isOpen = w.isOpen :=
  congrArg Registry.isOpen (removeProject_eq w id).1

theorem owner?_removeProject (w : Workspace) (id : ProjectId) (p : Path) :
    (w.removeProject id).1.owner? p = w.owner? p ∨ (w.removeProject id).1.owner? p = none := by
  rw [← registry_owner?, (removeProject_eq w id).1]
  simp only [Registry.strike]
  split
  · exact .inr rfl
  · exact .inl rfl

theorem registry_enter (w : Workspace) {project : Project} (hcount : project.openCount = 0) :
    (w.enter project).registry = w.registry.enroll project.kind project.roots := by
  ext : 1
  case charter? =>
    funext id
    simp only [registry, enter, emit, Registry.enroll, Table.get?_insert]
    by_cases hid : id = w.lastProject + 1
    · simp [hid, Project.charter, hcount]
    · simp [hid, Ne.symm hid]
  case configured =>
    obtain ⟨id, kind, roots, files, isStale, openCount, settings, watches, lookouts⟩ := project
    cases kind <;> rfl
  all_goals rfl

theorem registry_enterInferred (w : Workspace) (root : Path) :
    (w.enterInferred root).registry = w.registry.enroll .inferred [root] := by
  have hjoined : (root.ancestors.foldl joinLookout w).registry = w.registry :=
    registry_foldl (fun w dir _ => registry_joinLookout w dir) w
  unfold enterInferred
  rw [registry_enter _ rfl, hjoined]

theorem registry_enterConfigured (w : Workspace) (manifest : Path) (roots : List Path)
    (settings : List (String × Toml.Value)) :
    (w.enterConfigured manifest roots settings).registry =
      w.registry.enroll (.configured manifest) roots := by
  unfold enterConfigured
  cases manifest.parent? <;> exact registry_enter _ rfl

theorem get?_forget (w : Workspace) (p q : Path) :
    (w.forget p).documents.get? q = if p = q then none else (w.unwatch p).documents.get? q := by
  unfold forget
  split
  · exact Table.get?_erase ..
  · rename_i huntracked
    have hnone : w.documents.get? p = none := by
      by_contra hne
      exact huntracked (isTracked_iff.mpr (Option.ne_none_iff_exists'.mp hne))
    split
    · subst q
      exact hnone
    · unfold unwatch
      rw [hnone]
      rfl

theorem isOpen_forget (h : w.isOpen p = false) : (w.forget p).isOpen = w.isOpen := by
  funext q
  have hunwatched := congrFun (congrArg Registry.isOpen (registry_unwatch w p)) q
  simp only [registry_isOpen] at hunwatched
  unfold isOpen at h hunwatched ⊢
  rw [get?_forget]
  split
  · subst q
    rw [h]
    rfl
  · exact hunwatched

theorem owner?_forget (w : Workspace) (p q : Path) :
    (w.forget p).owner? q = w.owner? q ∨ (w.forget p).owner? q = none := by
  have hunwatched := congrFun (congrArg Registry.owner? (registry_unwatch w p)) q
  simp only [registry_owner?] at hunwatched
  unfold owner? at hunwatched ⊢
  rw [get?_forget]
  split
  · exact .inr rfl
  · exact .inl hunwatched

theorem projects_forget (w : Workspace) (p : Path) : (w.forget p).projects = w.projects := by
  have hunwatched : (w.unwatch p).projects = w.projects := by
    unfold unwatch
    split <;> rfl
  unfold forget
  split
  · exact hunwatched
  · rfl

theorem openFiles_forget (w : Workspace) (p : Path) : (w.forget p).openFiles = w.openFiles := by
  have hunwatched : (w.unwatch p).openFiles = w.openFiles :=
    congrArg Registry.openFiles (registry_unwatch w p)
  unfold forget
  split
  · exact hunwatched
  · rfl

/-- No step opens or closes a document. -/
theorem Proceeds.isOpen (h : Proceeds strict unsaid w w') : w'.isOpen = w.isOpen := by
  induction h with
  | refl w => rfl
  | trans _ _ ih ih' => exact ih'.trans ih
  | aside h => exact h.isOpen
  | listRoot _ => rfl
  | give owner? _ _ => exact isOpen_setOwner ..
  | say _ _ ih => exact ih
  | track text h => exact congrArg Registry.isOpen (registry_track h text)
  | unwatch w p => exact congrArg Registry.isOpen (registry_unwatch w p)
  | forget h => exact isOpen_forget h
  | removeProject w id => exact isOpen_removeProject w id
  | enterInferred w root => exact congrArg Registry.isOpen (registry_enterInferred w root)
  | enterConfigured roots settings h =>
      exact congrArg Registry.isOpen (registry_enterConfigured ..)

/-- The roots of inferred projects are open, and so are the documents that belong to projects. -/
structure Tidy (w : Workspace) : Prop where
  roots : ∀ p ∈ w.openFiles.roots, w.isOpen p
  owned : ∀ p, w.owner? p ≠ none → w.isOpen p

/-- Documents that leave lists and projects do no harm. -/
theorem Tidy.fewer (h : w.Tidy) (hopen : w'.isOpen = w.isOpen)
    (hroots : ∀ p ∈ w'.openFiles.roots, p ∈ w.openFiles.roots)
    (howner : ∀ p, w'.owner? p = w.owner? p ∨ w'.owner? p = none) : w'.Tidy where
  roots p hp := hopen ▸ h.roots p (hroots p hp)
  owned p hp := by
    rcases howner p with hsame | hnone
    · exact hopen ▸ h.owned p (hsame ▸ hp)
    · exact absurd hnone hp

theorem Tidy.of_registry (h : w.Tidy) (hregistry : w'.registry = w.registry) : w'.Tidy :=
  h.fewer (congrArg Registry.isOpen hregistry)
    (fun _ hp => by rwa [← registry_openFiles, hregistry] at hp)
    fun p => .inl (congrFun (congrArg Registry.owner? hregistry) p)

theorem tidy_removeProject (h : w.Tidy) (id : ProjectId) : (w.removeProject id).1.Tidy := by
  refine h.fewer (isOpen_removeProject w id) (fun p hp => ?_) (owner?_removeProject w id)
  rw [← registry_openFiles, (removeProject_eq w id).1] at hp
  exact (Registry.mem_roots_strike.mp hp).1

theorem Tidy.proceeds (hstrict : strict) (hw : w.Tidy) (h : Proceeds strict unsaid w w') :
    w'.Tidy := by
  induction h with
  | refl w => exact hw
  | trans _ _ ih ih' => exact ih' (ih hw)
  | aside h => exact hw.fewer h.isOpen h.listed h.owner?
  | @listRoot _ w p h =>
      refine ⟨fun q hq => ?_, hw.owned⟩
      rcases List.mem_append.mp hq with hq | hq
      · exact hw.roots q hq
      · exact List.mem_singleton.mp hq ▸ h
  | @give _ w p owner? _ hopen =>
      refine ⟨fun q hq => ?_, fun q hq => ?_⟩
      · rw [openFiles_setOwner] at hq
        exact isOpen_setOwner w p owner? ▸ hw.roots q hq
      · rw [isOpen_setOwner]
        by_cases hqp : q = p
        · exact hqp ▸ hopen hstrict
        · exact hw.owned q (owner?_setOwner_of_ne hqp owner? ▸ hq)
  | say _ _ ih => exact ⟨(ih hw).roots, (ih hw).owned⟩
  | track text h => exact hw.of_registry (registry_track h text)
  | unwatch w p => exact hw.of_registry (registry_unwatch w p)
  | @forget _ w p h =>
      exact hw.fewer (isOpen_forget h) (fun q hq => openFiles_forget w p ▸ hq) (owner?_forget w p)
  | removeProject w id => exact tidy_removeProject hw id
  | enterInferred w root =>
      have hregistry := registry_enterInferred w root
      exact hw.fewer (congrArg Registry.isOpen hregistry)
        (fun _ hp => by rwa [← registry_openFiles, hregistry] at hp)
        fun p => .inl (congrFun (congrArg Registry.owner? hregistry) p)
  | @enterConfigured _ w manifest roots settings h =>
      have hregistry := registry_enterConfigured w manifest roots settings
      exact hw.fewer (congrArg Registry.isOpen hregistry)
        (fun _ hp => by rwa [← registry_openFiles, hregistry] at hp)
        fun p => .inl (congrFun (congrArg Registry.owner? hregistry) p)

theorem post?_forget (w : Workspace) (p : Path) : (w.forget p).outlook.post? = w.outlook.post? := by
  rw [outlook_forget]
  exact Outlook.post?_unwatch ..

/-- A project keeps its kind as long as it lives, and its id is not given out again. -/
theorem Proceeds.kind (h : Proceeds strict unsaid w w') (hid : id ≤ w.lastProject) :
    id ≤ w'.lastProject ∧ ∀ post', w'.outlook.post? id = some post' →
      ∃ post, w.outlook.post? id = some post ∧ post.kind = post'.kind := by
  have hnew {n : ProjectId} (hid : id ≤ n) : id ≠ n + 1 := fun heq =>
    absurd (heq ▸ hid) (Nat.not_succ_le_self _)
  refine h.keeps (fun w' => id ≤ w'.lastProject ∧ ∀ post', w'.outlook.post? id = some post' →
    ∃ post, w.outlook.post? id = some post ∧ post.kind = post'.kind)
    (fun w w' hbeside hw => ?_) (fun w p text _ hw => ?_) (fun w p hw => ?_) (fun w p _ hw => ?_)
    (fun w i hw => ?_) (fun w root hw => ?_) (fun w manifest roots settings _ hw => ?_)
    ⟨hid, fun post hpost => ⟨post, hpost, rfl⟩⟩
  · rwa [hbeside.outlook, hbeside.lastProject]
  · rwa [outlook_track]
  · have hlast : (w.unwatch p).lastProject = w.lastProject :=
      congrArg Registry.lastProject (registry_unwatch w p)
    rwa [outlook_unwatch, hlast, Outlook.post?_unwatch]
  · obtain ⟨-, hroster, -⟩ := forget_contents w p
    have hlast : (w.forget p).lastProject = w.lastProject := congrArg Roster.lastProject hroster
    rwa [post?_forget, hlast]
  · have hlast : (w.removeProject i).1.lastProject = w.lastProject :=
      congrArg Registry.lastProject (removeProject_eq w i).1
    rw [outlook_removeProject, hlast, Outlook.post?_strike]
    refine ⟨hw.1, fun post' hpost' => ?_⟩
    split at hpost'
    · simp at hpost'
    · exact hw.2 post' hpost'
  · have hlast : (w.enterInferred root).lastProject = w.lastProject + 1 :=
      congrArg Registry.lastProject (registry_enterInferred w root)
    rw [outlook_enterInferred, hlast, Outlook.post?_enrollInferred, if_neg (hnew hw.1)]
    exact ⟨Nat.le_succ_of_le hw.1, hw.2⟩
  · have hlast : (w.enterConfigured manifest roots settings).lastProject = w.lastProject + 1 :=
      congrArg Registry.lastProject (registry_enterConfigured w manifest roots settings)
    obtain ⟨watches, hpost⟩ := w.outlook.post?_enrollConfigured (w.lastProject + 1) manifest
    rw [outlook_enterConfigured, hlast, hpost, if_neg (hnew hw.1)]
    exact ⟨Nat.le_succ_of_le hw.1, hw.2⟩

end Workspace

end ProjectTracker
