import ProjectTracker.Proofs.FileSystem.Listing
import ProjectTracker.Proofs.LineTree.Editing
import ProjectTracker.Proofs.Reference.Reachability
import ProjectTracker.Proofs.Workspace.Registry
/-!
The roster of a workspace: which projects there are and which files they hold. It goes by the texts that can
be read, and most of what a workspace does changes neither those nor the roster.
-/

namespace ProjectTracker

/-- What a project is made of, apart from the open documents that it counts. -/
structure Holding where
  kind : ProjectKind
  roots : List Path
  files : List Path
  isStale : Bool

def Holding.Contains (h : Holding) (p : Path) : Prop :=
  p ∈ h.files ∨ p ∈ h.roots

instance (h : Holding) (p : Path) : Decidable (h.Contains p) :=
  inferInstanceAs (Decidable (_ ∨ _))

instance (h : Holding) (property : Path → Prop) [DecidablePred property] :
    Decidable (∀ p, h.Contains p → property p) :=
  decidable_of_iff (∀ p ∈ h.files ++ h.roots, property p) (by simp only [List.mem_append, Holding.Contains])

def Project.holding (p : Project) : Holding :=
  ⟨p.kind, p.roots, p.files, p.isStale⟩

theorem Project.contains_iff {project : Project} {p : Path} :
    project.contains p ↔ project.holding.Contains p := by
  simp [contains, isRoot, Holding.Contains, holding]

@[ext] structure Roster where
  /-- What the live projects hold. -/
  holding? : ProjectId → Option Holding
  inferred : List ProjectId
  configured : List ProjectId
  lastProject : ProjectId

namespace Roster

def modify (r : Roster) (id : ProjectId) (f : Holding → Holding) : Roster :=
  { r with holding? := fun i => if i = id then (r.holding? i).map f else r.holding? i }

/-- Removes a project, if it is live. -/
def strike (r : Roster) (id : ProjectId) : Roster :=
  if (r.holding? id).isSome then
    { r with
      holding? := fun i => if i = id then none else r.holding? i
      inferred := r.inferred.filter (· ≠ id)
      configured := r.configured.filter (· ≠ id) }
  else r

/-- Makes a project with the next id. -/
def enroll (r : Roster) (h : Holding) : Roster :=
  { holding? := fun id => if id = r.lastProject + 1 then some h else r.holding? id
    inferred :=
      match h.kind with
      | .inferred => r.inferred ++ [r.lastProject + 1]
      | .configured _ => r.inferred
    configured :=
      match h.kind with
      | .inferred => r.configured
      | .configured _ => r.configured ++ [r.lastProject + 1]
    lastProject := r.lastProject + 1 }

theorem holding?_strike (r : Roster) (id i : ProjectId) :
    (r.strike id).holding? i = if i = id then none else r.holding? i := by
  unfold strike
  split
  · rfl
  · rename_i hdead
    by_cases hi : i = id
    · simpa [hi] using hdead
    · simp [hi]

end Roster

namespace Workspace

def holding? (w : Workspace) (id : ProjectId) : Option Holding :=
  (w.projects.get? id).map Project.holding

theorem mem_keys_of_holding {w : Workspace} {id : ProjectId} {held : Holding} (h : w.holding? id = some held) :
    id ∈ w.projects.keys := by
  obtain ⟨project, hproject, -⟩ := Option.map_eq_some_iff.mp h
  exact Table.mem_keys_iff.mpr (by simp [hproject])

section

variable (w : Workspace) (property : ProjectId → Holding → Prop) [∀ id held, Decidable (property id held)]

instance : Decidable (∀ id held, w.holding? id = some held → property id held) :=
  decidable_of_iff (∀ id ∈ w.projects.keys, ∀ held ∈ w.holding? id, property id held)
    ⟨fun h id held hheld => h id (mem_keys_of_holding hheld) held hheld, fun h id _ held hheld => h id held hheld⟩

instance : Decidable (∃ id held, w.holding? id = some held ∧ property id held) :=
  decidable_of_iff (∃ id ∈ w.projects.keys, ∃ held ∈ w.holding? id, property id held)
    ⟨fun ⟨id, _, held, hheld, h⟩ => ⟨id, held, hheld, h⟩,
      fun ⟨id, held, hheld, h⟩ => ⟨id, mem_keys_of_holding hheld, held, hheld, h⟩⟩

end

def roster (w : Workspace) : Roster where
  holding? := w.holding?
  inferred := w.inferred
  configured := w.configured
  lastProject := w.lastProject

@[simp] theorem roster_holding? (w : Workspace) : w.roster.holding? = w.holding? := rfl

@[simp] theorem roster_inferred (w : Workspace) : w.roster.inferred = w.inferred := rfl

@[simp] theorem roster_configured (w : Workspace) : w.roster.configured = w.configured := rfl

@[simp] theorem roster_lastProject (w : Workspace) : w.roster.lastProject = w.lastProject := rfl

/-- The texts that files are found by. -/
def texts (w : Workspace) (p : Path) : Option Text :=
  w.sources.text? p

variable {w w' w'' : Workspace} {id : ProjectId} {p : Path}

theorem texts_eq (w : Workspace) (p : Path) :
    w.texts p = match w.documents.get? p with
      | some d => some d.text
      | none => w.fs.text? p := rfl

theorem isTracked_iff : w.isTracked p ↔ ∃ d, w.documents.get? p = some d := by
  unfold isTracked Store.contains Table.contains Store.get?
  rw [Option.isSome_iff_exists]

theorem mem_paths_iff : p ∈ w.documents.paths ↔ w.isTracked p :=
  Table.mem_keys_iff

theorem get?_modifyDocument (w : Workspace) (p q : Path) (f : Document → Document) :
    (w.modifyDocument p f).documents.get? q =
      if p = q then (w.documents.get? q).map f else w.documents.get? q :=
  Table.get?_modify ..

theorem isTracked_modifyDocument (w : Workspace) (p q : Path) (f : Document → Document) :
    (w.modifyDocument p f).isTracked q = w.isTracked q := by
  show ((w.modifyDocument p f).documents.get? q).isSome = (w.documents.get? q).isSome
  rw [get?_modifyDocument]
  split <;> simp

theorem isTracked_unwatch (w : Workspace) (p q : Path) :
    (w.unwatch p).isTracked q = w.isTracked q := by
  unfold unwatch
  split
  · rfl
  · exact isTracked_modifyDocument ..

theorem isTracked_setOwner (w : Workspace) (p q : Path) (owner? : Option ProjectId) :
    (w.setOwner p owner?).isTracked q = w.isTracked q := by
  unfold setOwner
  split
  · rfl
  · rename_i d _
    split
    · rfl
    · rw [isTracked_modifyDocument]
      split
      · cases d.owner? <;> cases owner? <;> rfl
      · rfl

theorem isSome_texts (h : w.isTracked p) : (w.texts p).isSome := by
  obtain ⟨d, hd⟩ := isTracked_iff.mp h
  simp [texts_eq, hd]

theorem projectHas_contains :
    w.projectHas id (·.contains p) ↔ ∃ h, w.holding? id = some h ∧ h.Contains p := by
  unfold projectHas holding?
  cases w.projects.get? id with
  | none => simp
  | some project => simp [Project.contains_iff]

theorem projectHas_isRoot :
    w.projectHas id (·.isRoot p) ↔ ∃ h, w.holding? id = some h ∧ p ∈ h.roots := by
  unfold projectHas holding?
  cases w.projects.get? id with
  | none => simp
  | some project => simp [Project.isRoot, Project.holding]

/-! ### What stays -/

/-- The surroundings of a workspace are the same, and no task has come to wait. The task about who belongs
to whom still waits if it did. -/
structure Frame (w w' : Workspace) : Prop where
  settings : w'.settings = w.settings
  scanner : w'.scanner = w.scanner
  storage : w'.fs.storage = w.fs.storage
  denied : w'.fs.denied = w.fs.denied
  changeCount : w'.changeCount = w.changeCount
  timers : w'.timers.timers.Sublist w.timers.timers
  waiting : ∀ timer ∈ w.timers.timers, timer.key = .membership → timer ∈ w'.timers.timers

/-- No text is another one, and all tracked documents still are. -/
structure Quiet (w w' : Workspace) : Prop extends Frame w w' where
  texts : w'.texts = w.texts
  tracked : ∀ p, w.isTracked p → w'.isTracked p

/-- The projects are the same as well. -/
structure Calm (w w' : Workspace) : Prop extends Quiet w w' where
  roster : w'.roster = w.roster
  keys : w'.projects.keys = w.projects.keys

theorem Frame.refl (w : Workspace) : Frame w w :=
  ⟨rfl, rfl, rfl, rfl, rfl, .refl _, fun _ h _ => h⟩

theorem Frame.trans (h : Frame w w') (h' : Frame w' w'') : Frame w w'' where
  settings := h'.settings.trans h.settings
  scanner := h'.scanner.trans h.scanner
  storage := h'.storage.trans h.storage
  denied := h'.denied.trans h.denied
  changeCount := h'.changeCount.trans h.changeCount
  timers := h'.timers.trans h.timers
  waiting timer htimer hkey := h'.waiting timer (h.waiting timer htimer hkey) hkey

theorem Frame.text? (h : Frame w w') : w'.fs.text? = w.fs.text? := by
  funext p
  unfold FileSystem.text? FileSystem.read
  rw [h.storage, h.denied]

/-- Nothing else bears on texts. -/
theorem Quiet.of_eq (hsettings : w'.settings = w.settings) (hscanner : w'.scanner = w.scanner)
    (hstorage : w'.fs.storage = w.fs.storage) (hdenied : w'.fs.denied = w.fs.denied)
    (hchangeCount : w'.changeCount = w.changeCount) (htimers : w'.timers = w.timers)
    (hdocuments : w'.documents = w.documents) : Quiet w w' := by
  have hframe : Frame w w' :=
    ⟨hsettings, hscanner, hstorage, hdenied, hchangeCount, htimers ▸ .refl _,
      fun _ h _ => htimers ▸ h⟩
  refine ⟨hframe, ?_, fun p hp => ?_⟩
  · funext p
    rw [texts_eq, texts_eq, hdocuments, hframe.text?]
  · unfold isTracked at hp ⊢
    rwa [hdocuments]

theorem Quiet.refl (w : Workspace) : Quiet w w :=
  .of_eq rfl rfl rfl rfl rfl rfl rfl

theorem Quiet.trans (h : Quiet w w') (h' : Quiet w' w'') : Quiet w w'' :=
  ⟨h.toFrame.trans h'.toFrame, h'.texts.trans h.texts, fun p hp => h'.tracked p (h.tracked p hp)⟩

theorem Calm.refl (w : Workspace) : Calm w w :=
  ⟨.refl w, rfl, rfl⟩

theorem Calm.trans (h : Calm w w') (h' : Calm w' w'') : Calm w w'' :=
  ⟨h.toQuiet.trans h'.toQuiet, h'.roster.trans h.roster, h'.keys.trans h.keys⟩

theorem Calm.foldl {α : Type} {step : Workspace → α → Workspace} (h : ∀ w x, Calm w (step w x))
    (xs : List α) (w : Workspace) : Calm w (xs.foldl step w) := by
  induction xs generalizing w with
  | nil => exact .refl w
  | cons x xs ih => exact (h w x).trans (ih _)

theorem Frame.normalizer (h : Frame w w') : w'.normalizer = w.normalizer :=
  congrArg Scanner.normalizer h.scanner

/-! ### What is calm -/

theorem calm_emit (w : Workspace) (e : Event) : Calm w (w.emit e) :=
  ⟨.of_eq rfl rfl rfl rfl rfl rfl rfl, rfl, rfl⟩

theorem calm_modifyOpenFiles (w : Workspace) (f : OpenFiles → OpenFiles) :
    Calm w (w.modifyOpenFiles f) :=
  ⟨.of_eq rfl rfl rfl rfl rfl rfl rfl, rfl, rfl⟩

theorem calm_cancel (w : Workspace) (topic : Topic) (h : topic ≠ .membership) :
    Calm w (w.cancel topic) := by
  refine ⟨⟨⟨rfl, rfl, rfl, rfl, rfl, List.filter_sublist, fun timer htimer hkey => ?_⟩, rfl,
    fun _ h => h⟩, rfl, rfl⟩
  exact List.mem_filter.mpr ⟨htimer, by simpa [hkey] using Ne.symm h⟩

/-- Watches bear on no text. -/
theorem calm_watches (w : Workspace) (watches : WatchTable) (lookouts : Table Path Lookout)
    (purposes : Table WatchId WatchPurpose) :
    Calm w { w with fs := { w.fs with watches }, lookouts, purposes } :=
  ⟨.of_eq rfl rfl rfl rfl rfl rfl rfl, rfl, rfl⟩

theorem calm_watch (w : Workspace) (target : WatchTarget) (purpose : WatchPurpose) :
    Calm w (w.watch target purpose).1 :=
  calm_watches w ..

theorem calm_releaseWatch (w : Workspace) (id : WatchId) : Calm w (w.releaseWatch id) :=
  calm_watches w ..

theorem calm_joinLookout (w : Workspace) (dir : Path) : Calm w (w.joinLookout dir) := by
  unfold joinLookout
  split
  · exact calm_watches w w.fs.watches _ w.purposes
  · exact calm_watches w ..

theorem calm_leaveLookout (w : Workspace) (dir : Path) : Calm w (w.leaveLookout dir) := by
  unfold leaveLookout
  split
  · exact .refl w
  · split
    · exact calm_watches w ..
    · exact calm_watches w w.fs.watches _ w.purposes

/-- A change of a document that leaves its text alone. -/
theorem calm_modifyDocument {f : Document → Document}
    (h : ∀ d, w.documents.get? p = some d → (f d).text = d.text) :
    Calm w (w.modifyDocument p f) := by
  have hget := get?_modifyDocument w p
  refine ⟨⟨⟨rfl, rfl, rfl, rfl, rfl, .refl _, fun _ h _ => h⟩, ?_, fun q hq => ?_⟩, rfl, rfl⟩
  · funext q
    rw [texts_eq, texts_eq, hget]
    by_cases hq : p = q
    · subst q
      rw [if_pos rfl]
      cases hd : w.documents.get? p with
      | none => rfl
      | some d => exact congrArg some (h d hd)
    · rw [if_neg hq]
      rfl
  · rw [isTracked_iff] at hq ⊢
    obtain ⟨d, hd⟩ := hq
    rw [hget]
    split
    · subst q
      exact ⟨f d, by rw [hd]; rfl⟩
    · exact ⟨d, hd⟩

theorem calm_fold (w : Workspace) (p : Path) : Calm w (w.fold p) := by
  refine calm_modifyDocument fun d _ => ?_
  show d.history.fold.text = d.history.text
  unfold History.fold
  split <;> rfl

theorem calm_unwatch (w : Workspace) (p : Path) : Calm w (w.unwatch p) := by
  unfold unwatch
  split
  · exact .refl w
  · rename_i id _
    have hmodified : Calm w (w.modifyDocument p fun d => { d with watch? := none }) :=
      calm_modifyDocument fun _ _ => rfl
    exact hmodified.trans (calm_releaseWatch _ id)

/-- A change of a project that leaves what it holds alone. -/
theorem calm_modifyProject (w : Workspace) (id : ProjectId) {f : Project → Project}
    (h : ∀ project, (f project).holding = project.holding) : Calm w (w.modifyProject id f) := by
  refine ⟨.of_eq rfl rfl rfl rfl rfl rfl rfl, ?_, Table.keys_modify ..⟩
  ext : 1
  case holding? =>
    funext i
    simp only [roster_holding?, holding?, modifyProject, Table.get?_modify]
    split
    · subst i
      cases w.projects.get? id <;> simp [h]
    · rfl
  all_goals rfl

theorem calm_countOut (w : Workspace) (id : ProjectId) : Calm w (w.countOut id) :=
  have hcalm : Calm w (w.modifyProject id Project.removeOpen) := calm_modifyProject w id fun _ => rfl
  ⟨.of_eq rfl rfl rfl rfl rfl rfl rfl, hcalm.roster, hcalm.keys⟩

theorem calm_setOwner (w : Workspace) (p : Path) (owner? : Option ProjectId) :
    Calm w (w.setOwner p owner?) := by
  unfold setOwner
  split
  · exact .refl w
  · rename_i d hd
    split
    · exact .refl w
    · have hcounted : Calm w (if d.isOpen then
          let w := d.owner?.elim w w.countOut
          owner?.elim w w.countIn
        else w) := by
        split
        · have hout : Calm w (d.owner?.elim w w.countOut) := by
            cases d.owner? with
            | none => exact .refl w
            | some id => exact calm_countOut w id
          refine hout.trans ?_
          cases owner? with
          | none => exact .refl _
          | some id => exact calm_modifyProject _ id fun _ => rfl
        · exact .refl w
      exact hcounted.trans (calm_modifyDocument fun _ _ => rfl)

/-- A file that comes to be tracked with the text that it has anyway. -/
theorem calm_load (w : Workspace) (p : Path) : Calm w (w.load p) := by
  unfold load
  split
  · exact .refl w
  · rename_i huntracked
    split
    · exact .refl w
    · rename_i text htext
      have hnone : w.documents.get? p = none := by
        by_contra hne
        exact huntracked (isTracked_iff.mpr (Option.ne_none_iff_exists'.mp hne))
      have hget (q : Path) : ∃ d, d.text = text ∧
          (w.track p text).documents.get? q = if p = q then some d else w.documents.get? q := by
        refine ⟨{ Document.create (.ofPath p) text w.settings.history w.settings.nodeCapacity with
          watch? := some (w.watch (.file (.ofPath p)) (.document p)).2 },
          LineTree.text_ofText text w.settings.nodeCapacity, ?_⟩
        simp only [track, Store.get?, Store.insert, Table.get?_insert]
        rfl
      refine ⟨⟨⟨rfl, rfl, rfl, rfl, rfl, .refl _, fun _ h _ => h⟩, ?_, fun q hq => ?_⟩, rfl, rfl⟩
      · funext q
        obtain ⟨d, hd, hq⟩ := hget q
        rw [texts_eq, texts_eq, hq]
        by_cases hpq : p = q
        · subst q
          rw [if_pos rfl, hnone]
          dsimp only
          rw [hd, htext]
        · rw [if_neg hpq]
          rfl
      · obtain ⟨d, hd, hq'⟩ := hget q
        rw [isTracked_iff] at hq ⊢
        rw [hq']
        split
        · exact ⟨d, rfl⟩
        · exact hq

theorem isTracked_load (h : (w.texts p).isSome) : (w.load p).isTracked p := by
  unfold load
  split
  · assumption
  · rename_i huntracked
    have hnone : w.documents.get? p = none := by
      by_contra hne
      exact huntracked (isTracked_iff.mpr (Option.ne_none_iff_exists'.mp hne))
    rw [texts_eq, hnone] at h
    split
    · rename_i htext
      simp [htext] at h
    · rw [isTracked_iff]
      simp [track, Store.get?, Store.insert, Document.create, Spelling.ofPath]

theorem calm_readManifest (w : Workspace) (manifest : Path) (trigger? : Option Path) :
    Calm w (w.readManifest manifest trigger?).1 := by
  unfold readManifest
  dsimp only
  split
  · exact .refl w
  · exact calm_emit ..

/-! ### What changes the roster -/

theorem quiet_modifyProject (w : Workspace) (id : ProjectId) (f : Project → Project) :
    Quiet w (w.modifyProject id f) :=
  .of_eq rfl rfl rfl rfl rfl rfl rfl

theorem roster_modifyProject (w : Workspace) (id : ProjectId) {f : Project → Project}
    {g : Holding → Holding} (h : ∀ project, (f project).holding = g project.holding) :
    (w.modifyProject id f).roster = w.roster.modify id g := by
  ext : 1
  case holding? =>
    funext i
    simp only [roster_holding?, holding?, modifyProject, Table.get?_modify, Roster.modify]
    by_cases hi : id = i
    · subst i
      cases w.projects.get? id <;> simp [h]
    · simp [hi, Ne.symm hi]
  all_goals rfl

/-- The files of a project that are found anew are tracked. -/
theorem refreshProject_contents (w : Workspace) (id : ProjectId) :
    Quiet w (w.refreshProject id) ∧ (w.refreshProject id).projects.keys = w.projects.keys ∧
      (w.refreshProject id).roster = w.roster.modify id (fun h =>
        { h with files := w.scanner.fileSet w.sources h.roots, isStale := false }) ∧
      ∀ h, w.holding? id = some h → ∀ p ∈ w.scanner.fileSet w.sources h.roots,
        (w.refreshProject id).isTracked p := by
  unfold refreshProject
  cases hproject : w.projects.get? id with
  | none =>
      have hnone : w.holding? id = none := by simp [holding?, hproject]
      refine ⟨.refl w, rfl, ?_, fun h hh => by simp [hnone] at hh⟩
      ext : 1
      case holding? =>
        funext i
        by_cases hi : i = id <;> simp [Roster.modify, hi, hnone]
      all_goals rfl
  | some project =>
      dsimp only
      generalize hfiles : w.scanner.fileSet w.sources project.roots = files
      have hcalm : Calm (w.modifyProject id (·.refresh files))
          (files.foldl load (files.foldl fold (w.modifyProject id (·.refresh files)))) :=
        (Calm.foldl calm_fold files _).trans (Calm.foldl calm_load files _)
      have hread : ∀ p ∈ files, ((files.foldl fold (w.modifyProject id (·.refresh files))).texts
          p).isSome := by
        intro p hp
        rw [(Calm.foldl calm_fold files _).texts]
        rw [← hfiles] at hp
        exact (Scanner.reaches_of_mem_fileSet hp).isSome
      refine ⟨(quiet_modifyProject ..).trans hcalm.toQuiet, hcalm.keys.trans (Table.keys_modify ..),
        ?_, fun h hh p hp => ?_⟩
      · rw [hcalm.roster, roster_modifyProject w id (g := fun h => { h with files, isStale := false })
          fun _ => rfl]
        ext : 1
        case holding? =>
          funext i
          simp only [Roster.modify]
          split
          · subst i
            simp [holding?, hproject, Project.holding, hfiles]
          · rfl
        all_goals rfl
      · have hholding : w.holding? id = some project.holding := by simp [holding?, hproject]
        obtain rfl : project.holding = h := Option.some.inj (hholding.symm.trans hh)
        have hp : p ∈ files := hfiles ▸ hp
        clear hcalm hfiles
        generalize files.foldl fold (w.modifyProject id (·.refresh files)) = w at hread ⊢
        induction files generalizing w with
        | nil => simp at hp
        | cons q files ih =>
            rw [List.foldl_cons]
            rcases List.mem_cons.mp hp with rfl | hp
            · exact (Calm.foldl calm_load files _).tracked p (isTracked_load (hread p (by simp)))
            · refine ih hp _ fun r hr => ?_
              rw [(calm_load w q).texts]
              exact hread r (by simp [hr])

theorem removeProject_contents (w : Workspace) (id : ProjectId) :
    Quiet w (w.removeProject id).1 ∧ (w.removeProject id).1.roster = w.roster.strike id ∧
      (w.removeProject id).1.projects.keys.Sublist w.projects.keys := by
  unfold removeProject
  cases hproject : w.projects.get? id with
  | none =>
      refine ⟨.refl w, ?_, .refl _⟩
      simp [Roster.strike, holding?, hproject]
  | some project =>
      dsimp only
      have hreleased : Calm w (project.lookouts.foldl leaveLookout
          (project.watches.foldl releaseWatch w)) :=
        (Calm.foldl calm_releaseWatch _ _).trans (Calm.foldl calm_leaveLookout _ _)
      generalize project.lookouts.foldl leaveLookout
        (project.watches.foldl releaseWatch w) = released at hreleased ⊢
      generalize herased : ({ released with
        projects := released.projects.erase id
        inferred := released.inferred.filter (· ≠ id)
        configured := released.configured.filter (· ≠ id) } : Workspace) = erased
      have hquiet : Quiet released erased := by
        subst herased
        exact .of_eq rfl rfl rfl rfl rfl rfl rfl
      have hroster : erased.roster = w.roster.strike id := by
        have hlive : (w.roster.holding? id).isSome := by simp [holding?, hproject]
        rw [← hreleased.roster] at hlive ⊢
        subst herased
        ext : 1
        case holding? =>
          funext i
          rw [Roster.holding?_strike]
          simp only [roster_holding?, holding?, Table.get?_erase]
          by_cases hi : i = id
          · simp [hi]
          · simp [hi, Ne.symm hi]
        all_goals
          rw [Roster.strike, if_pos hlive]
          rfl
      have hdetached : ∀ (w : Workspace) (orphans : List Path),
          Calm w (orphans.foldl detach w) := fun w orphans =>
        Calm.foldl (fun w p => (calm_modifyOpenFiles ..).trans (calm_setOwner ..)) orphans w
      have hcalm := ((calm_cancel erased (.project id) (by simp)).trans
        (hdetached _ ((erased.cancel (.project id)).openFiles.all.filter fun p =>
          (erased.cancel (.project id)).owner? p = some id))).trans (calm_emit _ (.projectRemoved id))
      refine ⟨(hreleased.toQuiet.trans hquiet).trans hcalm.toQuiet, hcalm.roster.trans hroster, ?_⟩
      rw [hcalm.keys, ← hreleased.keys]
      subst herased
      rw [Table.keys_erase]
      exact List.filter_sublist

/-- A project is made of tracked roots. Its files are found by the texts that there are, and are tracked
from then on. -/
structure Creates (w w' : Workspace) (kind : ProjectKind) (roots : List Path) : Prop where
  quiet : Quiet w w'
  roster : ∃ found, Quiet w found ∧ Quiet found w' ∧
    w'.roster = w.roster.enroll ⟨kind, roots, found.scanner.fileSet found.sources roots, false⟩ ∧
    (∀ p ∈ roots, found.isTracked p) ∧
    ∀ p ∈ found.scanner.fileSet found.sources roots, w'.isTracked p
  keys : w.lastProject + 1 ∉ w.projects.keys →
    w'.projects.keys.Perm ((w.lastProject + 1) :: w.projects.keys)

/-- An entry under an id that was taken for it, whose files are then found. -/
theorem creates_of_insert {w₁ : Workspace} {project : Project} {inferred configured : List ProjectId}
    (hquiet : Quiet w w₁) (hroster : w₁.roster = { w.roster with lastProject := w.lastProject + 1 })
    (hkeys : w₁.projects.keys = w.projects.keys)
    (hinferred : inferred = (w.roster.enroll project.holding).inferred)
    (hconfigured : configured = (w.roster.enroll project.holding).configured)
    (hroots : ∀ p ∈ project.roots, w₁.isTracked p) (e : Event) :
    Creates w (({ w₁ with
      projects := w₁.projects.insert (w.lastProject + 1) project
      inferred
      configured }.refreshProject (w.lastProject + 1)).emit e) project.kind project.roots := by
  generalize hinserted : ({ w₁ with
    projects := w₁.projects.insert (w.lastProject + 1) project
    inferred
    configured } : Workspace) = inserted
  have hinsert : Quiet w₁ inserted := by
    subst hinserted
    exact .of_eq rfl rfl rfl rfl rfl rfl rfl
  have hquiet' := hquiet.trans hinsert
  have hholding : inserted.holding? =
      fun id => if id = w.lastProject + 1 then some project.holding else w.holding? id := by
    funext id
    have hrest := congrFun (congrArg Roster.holding? hroster) id
    subst hinserted
    simp only [holding?, Table.get?_insert]
    by_cases hid : w.lastProject + 1 = id
    · simp [hid]
    · rw [if_neg hid, if_neg (Ne.symm hid)]
      exact hrest
  obtain ⟨hfound, hfoundKeys, hfoundRoster, htracked⟩ :=
    refreshProject_contents inserted (w.lastProject + 1)
  have hemitted := calm_emit (inserted.refreshProject (w.lastProject + 1)) e
  have hresult := hfound.trans hemitted.toQuiet
  refine ⟨hquiet'.trans hresult, ⟨inserted, hquiet', hresult, ?_,
    fun p hp => hinsert.tracked p (hroots p hp), ?_⟩, fun hfresh => ?_⟩
  · rw [hemitted.roster, hfoundRoster]
    ext : 1
    case holding? =>
      funext id
      simp only [Roster.modify, roster_holding?, hholding, Roster.enroll]
      by_cases hid : id = w.lastProject + 1 <;> simp [hid, Project.holding]
    case lastProject =>
      subst hinserted
      exact (congrArg Roster.lastProject hroster :)
    case inferred =>
      subst hinserted
      exact hinferred
    case configured =>
      subst hinserted
      exact hconfigured
  · intro p hp
    exact hemitted.tracked p (htracked project.holding (by simp [hholding]) p hp)
  · rw [hemitted.keys, hfoundKeys, ← hkeys]
    subst hinserted
    exact Table.keys_insert_perm (hkeys ▸ hfresh) project

theorem createInferred_creates {root : Path} (h : w.isTracked root) :
    Creates w (w.createInferred root).1 .inferred [root] := by
  have hjoined : Calm { w with lastProject := w.lastProject + 1 } (root.ancestors.foldl joinLookout
      { w with lastProject := w.lastProject + 1 }) :=
    Calm.foldl calm_joinLookout _ _
  have hbumped : Quiet w { w with lastProject := w.lastProject + 1 } :=
    .of_eq rfl rfl rfl rfl rfl rfl rfl
  unfold createInferred
  dsimp only
  refine creates_of_insert (hbumped.trans hjoined.toQuiet) hjoined.roster hjoined.keys ?_ ?_ ?_ _
  · exact congrArg (· ++ [w.lastProject + 1]) (congrArg Roster.inferred hjoined.roster)
  · exact (congrArg Roster.configured hjoined.roster :)
  · intro p hp
    exact hjoined.tracked p (List.mem_singleton.mp hp ▸ h)

/-- A manifest makes a project of those of its roots that can be read, if it makes one. -/
theorem createConfigured_creates (w : Workspace) (manifest : Path) (outcome : Manifest.Outcome) :
    w.createConfigured manifest outcome = w ∨
      ∃ roots, Creates w (w.createConfigured manifest outcome) (.configured manifest) roots := by
  unfold createConfigured
  split
  · right
    dsimp only
    have hloaded : Calm { w with lastProject := w.lastProject + 1 } (outcome.roots.foldl load
        { w with lastProject := w.lastProject + 1 }) :=
      Calm.foldl calm_load _ _
    have hbumped : Quiet w { w with lastProject := w.lastProject + 1 } :=
      .of_eq rfl rfl rfl rfl rfl rfl rfl
    generalize outcome.roots.foldl load { w with lastProject := w.lastProject + 1 } = loaded
      at hloaded ⊢
    have hcreates (watched : Workspace) (hwatched : Calm loaded watched) (watches : List WatchId) :
        Creates w (({ watched with
          projects := watched.projects.insert (w.lastProject + 1)
            { id := w.lastProject + 1
              kind := .configured manifest
              roots := outcome.roots.filter loaded.isTracked
              settings := outcome.settings
              watches }
          configured := watched.configured ++ [w.lastProject + 1] }.refreshProject
            (w.lastProject + 1)).emit (.projectCreated (w.lastProject + 1) (.configured manifest)))
          (.configured manifest) (outcome.roots.filter loaded.isTracked) := by
      have hcalm := hloaded.trans hwatched
      refine creates_of_insert (hbumped.trans hcalm.toQuiet) hcalm.roster hcalm.keys ?_ ?_ ?_ _
      · exact (congrArg Roster.inferred hcalm.roster :)
      · exact congrArg (· ++ [w.lastProject + 1]) (congrArg Roster.configured hcalm.roster)
      · intro p hp
        exact hwatched.tracked p (List.mem_filter.mp hp).2
    have hmanifest := calm_watch loaded (.file (.ofPath manifest)) (.manifest (w.lastProject + 1))
    refine ⟨outcome.roots.filter loaded.isTracked, ?_⟩
    split
    · exact hcreates _ hmanifest _
    · exact hcreates _ (hmanifest.trans (calm_watch ..)) _
  · exact .inl rfl

end Workspace

end ProjectTracker
