import ProjectTracker.Proofs.Workspace.OpenFiles
import ProjectTracker.Workspace.Operation
/-!
The registry of a workspace: what it knows about the places of its open documents, without their
texts, their files, the clock and the watches. Most of what a workspace does leaves the registry as
it is, and the rest changes it in one of a few ways.
-/

namespace ProjectTracker

/-- What the registry holds of a project. -/
structure Charter where
  kind : ProjectKind
  roots : List Path
  openCount : Nat

def Project.charter (p : Project) : Charter :=
  ⟨p.kind, p.roots, p.openCount⟩

theorem Project.charter_removeRoot (project : Project) (root : Path) :
    (project.removeRoot root).charter =
      { project.charter with roots := project.roots.filter (· ≠ root) } := by
  unfold removeRoot isRoot
  split
  · rfl
  · rename_i hroot
    have hkept : project.roots.filter (· ≠ root) = project.roots := by
      refine List.filter_eq_self.mpr fun q hq => decide_eq_true ?_
      rintro rfl
      exact hroot (decide_eq_true hq)
    rw [hkept]
    rfl

@[ext] structure Registry where
  openFiles : OpenFiles
  isOpen : Path → Bool
  owner? : Path → Option ProjectId
  /-- The live projects. -/
  charter? : ProjectId → Option Charter
  configured : List ProjectId
  lastProject : ProjectId
  overdrafts : Nat
  normalizer : Normalizer

namespace Registry

def IsLive (r : Registry) (id : ProjectId) : Prop :=
  (r.charter? id).isSome

def modifyOpenFiles (r : Registry) (f : OpenFiles → OpenFiles) : Registry :=
  { r with openFiles := f r.openFiles }

def setOpen (r : Registry) (p : Path) (isOpen : Bool) : Registry :=
  { r with isOpen := fun q => if q = p then isOpen else r.isOpen q }

/-- The open documents of a project after one of them went from `former?` to `owner?`. -/
def recount (former? owner? : Option ProjectId) (id : ProjectId) (c : Charter) : Charter :=
  { c with
    openCount :=
      if former? = owner? then c.openCount
      else if former? = some id then c.openCount - 1
      else if owner? = some id then c.openCount + 1
      else c.openCount }

/-- Gives a document to a project or to none. -/
def setOwner (r : Registry) (p : Path) (owner? : Option ProjectId) : Registry :=
  { r with
    owner? := fun q => if q = p then owner? else r.owner? q
    charter? := fun id =>
      if r.isOpen p then (r.charter? id).map (recount (r.owner? p) owner? id) else r.charter? id
    overdrafts :=
      if r.isOpen p ∧ r.owner? p ≠ owner? ∧
          (r.owner? p).any fun id => (r.charter? id).any (·.openCount = 0) then
        r.overdrafts + 1
      else r.overdrafts }

/-- The listed documents of a live project. -/
def members (r : Registry) (id : ProjectId) : List Path :=
  if (r.charter? id).isSome then r.openFiles.all.filter fun p => r.owner? p = some id else []

/-- Removes a project. Its listed documents leave the lists and belong to no project. -/
def strike (r : Registry) (id : ProjectId) : Registry :=
  { r with
    openFiles := r.openFiles.filter fun p => p ∉ r.members id
    owner? := fun p => if p ∈ r.members id then none else r.owner? p
    charter? := fun i => if i = id then none else r.charter? i
    configured := if (r.charter? id).isSome then r.configured.filter (· ≠ id) else r.configured }

/-- Makes a project with the next id. -/
def enroll (r : Registry) (kind : ProjectKind) (roots : List Path) : Registry :=
  { r with
    charter? := fun id => if id = r.lastProject + 1 then some ⟨kind, roots, 0⟩ else r.charter? id
    configured :=
      match kind with
      | .inferred => r.configured
      | .configured _ => r.configured ++ [r.lastProject + 1]
    lastProject := r.lastProject + 1 }

def modifyRoots (r : Registry) (id : ProjectId) (f : List Path → List Path) : Registry :=
  { r with
    charter? := fun i =>
      if i = id then (r.charter? i).map fun c => { c with roots := f c.roots } else r.charter? i }

/-- Taking a document from a project that is gone changes no count. -/
theorem setOwner_none_of_dead {r : Registry} {p : Path}
    (h : ∀ id, r.owner? p = some id → r.charter? id = none) :
    r.setOwner p none = { r with owner? := fun q => if q = p then none else r.owner? q } := by
  ext : 1
  case charter? =>
    funext id
    simp only [setOwner]
    split
    · cases hc : r.charter? id with
      | none => rfl
      | some c =>
          have hne : r.owner? p ≠ some id := fun howner => by simp [h id howner] at hc
          simp [recount, hne]
    · rfl
  case overdrafts =>
    simp only [setOwner]
    rw [if_neg]
    rintro ⟨-, -, hany⟩
    obtain ⟨id, howner, hcount⟩ := Option.any_eq_true .. |>.mp hany
    simp [h id howner] at hcount
  all_goals rfl

end Registry

namespace Workspace

def registry (w : Workspace) : Registry where
  openFiles := w.openFiles
  isOpen := w.isOpen
  owner? := w.owner?
  charter? id := (w.projects.get? id).map Project.charter
  configured := w.configured
  lastProject := w.lastProject
  overdrafts := w.overdrafts
  normalizer := w.normalizer

@[simp] theorem registry_openFiles (w : Workspace) : w.registry.openFiles = w.openFiles := rfl

@[simp] theorem registry_isOpen (w : Workspace) : w.registry.isOpen = w.isOpen := rfl

@[simp] theorem registry_owner? (w : Workspace) : w.registry.owner? = w.owner? := rfl

@[simp] theorem registry_configured (w : Workspace) : w.registry.configured = w.configured := rfl

@[simp] theorem registry_lastProject (w : Workspace) :
    w.registry.lastProject = w.lastProject := rfl

@[simp] theorem registry_overdrafts (w : Workspace) : w.registry.overdrafts = w.overdrafts := rfl

@[simp] theorem registry_normalizer (w : Workspace) : w.registry.normalizer = w.normalizer := rfl

/-! ### What leaves the registry as it is -/

@[simp] theorem registry_emit (w : Workspace) (e : Event) : (w.emit e).registry = w.registry := rfl

@[simp] theorem registry_schedule (w : Workspace) (task : Task) (delay : Nat) :
    (w.schedule task delay).registry = w.registry := rfl

@[simp] theorem registry_cancel (w : Workspace) (topic : Topic) :
    (w.cancel topic).registry = w.registry := rfl

@[simp] theorem registry_takeEvents (w : Workspace) : w.takeEvents.1.registry = w.registry := rfl

@[simp] theorem registry_textChanged (w : Workspace) : w.textChanged.registry = w.registry := rfl

@[simp] theorem registry_watch (w : Workspace) (target : WatchTarget) (purpose : WatchPurpose) :
    (w.watch target purpose).1.registry = w.registry := rfl

@[simp] theorem registry_releaseWatch (w : Workspace) (id : WatchId) :
    (w.releaseWatch id).registry = w.registry := rfl

/-- Steps that leave the registry as it is leave it so together. -/
theorem registry_foldl {α : Type} {step : Workspace → α → Workspace} {xs : List α}
    (h : ∀ w, ∀ x ∈ xs, (step w x).registry = w.registry) (w : Workspace) :
    (xs.foldl step w).registry = w.registry := by
  induction xs generalizing w with
  | nil => rfl
  | cons x xs ih =>
      rw [List.foldl_cons, ih (fun w y hy => h w y (by simp [hy])), h w x (by simp)]

@[simp] theorem registry_joinLookout (w : Workspace) (dir : Path) :
    (w.joinLookout dir).registry = w.registry := by
  unfold joinLookout
  split <;> rfl

@[simp] theorem registry_leaveLookout (w : Workspace) (dir : Path) :
    (w.leaveLookout dir).registry = w.registry := by
  unfold leaveLookout
  split
  · rfl
  · split <;> rfl

/-- A change of documents that leaves alone which of them are open and where they belong. -/
theorem registry_documents {w : Workspace} {documents : Store}
    (h : ∀ p, ((documents.get? p).any (·.isOpen) = (w.documents.get? p).any (·.isOpen)) ∧
      (documents.get? p).bind (·.owner?) = (w.documents.get? p).bind (·.owner?)) :
    ({ w with documents } : Workspace).registry = w.registry := by
  ext : 1
  · rfl
  · funext p
    exact (h p).1
  · funext p
    exact (h p).2
  all_goals rfl

/-- A change of projects that leaves their charters as they are. -/
theorem registry_projects {w : Workspace} {projects : Table ProjectId Project}
    (h : ∀ id, (projects.get? id).map Project.charter = (w.projects.get? id).map Project.charter) :
    ({ w with projects } : Workspace).registry = w.registry := by
  ext : 1
  case charter? =>
    funext id
    exact h id
  all_goals rfl

theorem registry_modifyDocument {w : Workspace} {p : Path} {f : Document → Document}
    (h : ∀ d, w.documents.get? p = some d → (f d).isOpen = d.isOpen ∧ (f d).owner? = d.owner?) :
    (w.modifyDocument p f).registry = w.registry := by
  apply registry_documents
  intro q
  simp only [Store.get?, Store.modify, Table.get?_modify] at h ⊢
  split
  · subst q
    cases hd : w.documents.documents.get? p with
    | none => simp
    | some d => simp [h d hd]
  · simp

theorem registry_modifyProject {w : Workspace} {id : ProjectId} {f : Project → Project}
    (h : ∀ project, (f project).charter = project.charter) :
    (w.modifyProject id f).registry = w.registry := by
  apply registry_projects
  intro i
  rw [Table.get?_modify]
  split
  · cases w.projects.get? i <;> simp [h]
  · rfl

@[simp] theorem registry_fold (w : Workspace) (p : Path) : (w.fold p).registry = w.registry :=
  registry_modifyDocument fun _ _ => ⟨rfl, rfl⟩

@[simp] theorem registry_markStaleAround (w : Workspace) (p : Path) :
    (w.markStaleAround p).registry = w.registry := by
  apply registry_projects
  intro id
  rw [Table.get?_map, Option.map_map]
  congr 1
  funext project
  simp only [Function.comp_apply]
  split <;> rfl

@[simp] theorem registry_unwatch (w : Workspace) (p : Path) :
    (w.unwatch p).registry = w.registry := by
  unfold unwatch
  split
  · rfl
  · rw [registry_releaseWatch]
    exact registry_modifyDocument fun _ _ => ⟨rfl, rfl⟩

theorem isTracked_of_isOpen {w : Workspace} {p : Path} (h : w.isOpen p) : w.isTracked p := by
  unfold isOpen at h
  unfold isTracked Store.contains Table.contains
  cases hd : w.documents.documents.get? p with
  | none => simp [Store.get?, hd] at h
  | some d => rfl

theorem registry_track {w : Workspace} {p : Path} (h : w.isTracked p = false) (text : Text) :
    (w.track p text).registry = w.registry := by
  have hnone : w.documents.documents.get? p = none := by
    simpa [isTracked, Store.contains, Table.contains] using h
  refine (registry_documents (w := (w.watch (.file (.ofPath p)) (.document p)).1) fun q => ?_).trans
    (registry_watch ..)
  have hget : (w.watch (.file (.ofPath p)) (.document p)).1.documents.get? q =
      w.documents.documents.get? q := rfl
  rw [hget]
  simp only [Store.get?, Store.insert, Table.get?_insert]
  split
  · rename_i hq
    have hqp : p = q := hq
    rw [← hqp, hnone]
    exact ⟨rfl, rfl⟩
  · exact ⟨rfl, rfl⟩

@[simp] theorem registry_load (w : Workspace) (p : Path) : (w.load p).registry = w.registry := by
  unfold load
  split
  · rfl
  · rename_i h
    split
    · rfl
    · exact registry_track (by simpa using h) _

@[simp] theorem registry_refreshProject (w : Workspace) (id : ProjectId) :
    (w.refreshProject id).registry = w.registry := by
  unfold refreshProject
  split
  · rfl
  · rw [registry_foldl fun w p _ => registry_load w p,
      registry_foldl fun w p _ => registry_fold w p]
    exact registry_modifyProject fun _ => rfl

@[simp] theorem registry_refresh (w : Workspace) : w.refresh.registry = w.registry :=
  registry_foldl (fun w id _ => registry_refreshProject w id) w

@[simp] theorem registry_readManifest (w : Workspace) (manifest : Path) (trigger? : Option Path) :
    (w.readManifest manifest trigger?).1.registry = w.registry := by
  unfold readManifest
  dsimp only
  split <;> rfl

/-- A closed document that belongs to no project leaves no trace in the registry. -/
theorem registry_forget {w : Workspace} {p : Path} (hopen : w.isOpen p = false)
    (howner : w.owner? p = none) : (w.forget p).registry = w.registry := by
  unfold forget
  split
  · rw [registry_cancel, ← registry_unwatch w p]
    have hunwatched := registry_unwatch w p
    have hopen' : (w.unwatch p).isOpen p = false := by
      rw [← registry_isOpen, hunwatched]
      exact hopen
    have howner' : (w.unwatch p).owner? p = none := by
      rw [← registry_owner?, hunwatched]
      exact howner
    apply registry_documents
    intro q
    simp only [Store.get?, Store.remove, Table.get?_erase]
    split
    · subst q
      exact ⟨hopen'.symm, howner'.symm⟩
    · exact ⟨rfl, rfl⟩
  · rfl

/-! ### What changes the registry -/

@[simp] theorem registry_modifyOpenFiles (w : Workspace) (f : OpenFiles → OpenFiles) :
    (w.modifyOpenFiles f).registry = w.registry.modifyOpenFiles f := rfl

theorem registry_setOpen {w : Workspace} {p : Path} (h : w.isTracked p) (isOpen : Bool) :
    (w.modifyDocument p fun d => { d with isOpen }).registry = w.registry.setOpen p isOpen := by
  obtain ⟨d, hd⟩ : ∃ d, w.documents.documents.get? p = some d := by
    simpa [isTracked, Store.contains, Table.contains, Option.isSome_iff_exists] using h
  ext : 1
  case isOpen =>
    funext q
    simp only [registry, Workspace.isOpen, modifyDocument, Store.get?, Store.modify,
      Table.get?_modify, Registry.setOpen]
    by_cases hq : p = q
    · subst q
      simp [hd]
    · simp [hq, Ne.symm hq]
  case owner? =>
    funext q
    simp only [registry, Workspace.owner?, modifyDocument, Store.get?, Store.modify,
      Table.get?_modify, Registry.setOpen]
    split
    · cases w.documents.documents.get? q <;> rfl
    · rfl
  all_goals rfl

theorem registry_modifyRoots {w : Workspace} {id : ProjectId} {f : Project → Project}
    {g : List Path → List Path}
    (h : ∀ project, (f project).charter = { project.charter with roots := g project.roots }) :
    (w.modifyProject id f).registry = w.registry.modifyRoots id g := by
  ext : 1
  case charter? =>
    funext i
    simp only [registry, modifyProject, Table.get?_modify, Registry.modifyRoots]
    by_cases hi : id = i
    · subst i
      rw [if_pos rfl, if_pos rfl, Option.map_map, Option.map_map]
      congr 1
      funext project
      exact h project
    · simp [hi, Ne.symm hi]
  all_goals rfl

theorem registry_countOut (w : Workspace) (id : ProjectId) :
    (w.countOut id).registry =
      { w.registry with
        charter? := fun i =>
          if i = id then
            (w.registry.charter? i).map fun c => { c with openCount := c.openCount - 1 }
          else w.registry.charter? i
        overdrafts :=
          if (w.registry.charter? id).any (·.openCount = 0) then w.overdrafts + 1
          else w.overdrafts } := by
  ext : 1
  case charter? =>
    funext i
    simp only [registry, countOut, modifyProject, Table.get?_modify]
    by_cases hi : id = i
    · subst i
      cases w.projects.get? id <;> simp [Project.charter, Project.removeOpen]
    · simp [hi, Ne.symm hi]
  case overdrafts =>
    simp [registry, countOut, projectHas, Option.any_map, Project.charter]
    rfl
  all_goals rfl

theorem registry_countIn (w : Workspace) (id : ProjectId) :
    (w.countIn id).registry =
      { w.registry with
        charter? := fun i =>
          if i = id then
            (w.registry.charter? i).map fun c => { c with openCount := c.openCount + 1 }
          else w.registry.charter? i } := by
  ext : 1
  case charter? =>
    funext i
    simp only [registry, countIn, modifyProject, Table.get?_modify]
    by_cases hi : id = i
    · subst i
      cases w.projects.get? id <;> simp [Project.charter, Project.addOpen]
    · simp [hi, Ne.symm hi]
  all_goals rfl

/-- Writing the owner into a document, without counting. -/
theorem registry_writeOwner {w : Workspace} {p : Path} (owner? : Option ProjectId)
    (h : w.isTracked p) :
    (w.modifyDocument p fun d => { d with owner? }).registry =
      { w.registry with owner? := fun q => if q = p then owner? else w.owner? q } := by
  obtain ⟨d, hd⟩ : ∃ d, w.documents.documents.get? p = some d := by
    simpa [isTracked, Store.contains, Table.contains, Option.isSome_iff_exists] using h
  ext : 1
  case isOpen =>
    funext q
    simp only [registry, Workspace.isOpen, modifyDocument, Store.get?, Store.modify,
      Table.get?_modify]
    split
    · cases w.documents.documents.get? q <;> rfl
    · rfl
  case owner? =>
    funext q
    simp only [registry, Workspace.owner?, modifyDocument, Store.get?, Store.modify,
      Table.get?_modify]
    by_cases hq : p = q
    · subst q
      simp [hd]
    · simp [hq, Ne.symm hq]
  all_goals rfl

/-- The counts change as a document goes from one owner to another. -/
theorem registry_count {w : Workspace} {former? owner? : Option ProjectId} (h : former? ≠ owner?) :
    (let w := former?.elim w w.countOut
     owner?.elim w w.countIn).registry =
      { w.registry with
        charter? := fun id => (w.registry.charter? id).map (Registry.recount former? owner? id)
        overdrafts :=
          if former?.any fun id => (w.registry.charter? id).any (·.openCount = 0) then
            w.overdrafts + 1
          else w.overdrafts } := by
  cases former? with
  | none =>
      cases owner? with
      | none => exact absurd rfl h
      | some id =>
          ext : 1
          case charter? =>
            funext i
            simp only [Option.elim, registry_countIn]
            rcases w.registry.charter? i with _ | ⟨kind, roots, count⟩ <;> grind [Registry.recount]
          all_goals simp [registry_countIn]
  | some former =>
      cases owner? with
      | none =>
          ext : 1
          case charter? =>
            funext i
            simp only [Option.elim, registry_countOut]
            rcases w.registry.charter? i with _ | ⟨kind, roots, count⟩ <;> grind [Registry.recount]
          all_goals simp [registry_countOut]
      | some id =>
          have hne : former ≠ id := by simpa using h
          ext : 1
          case charter? =>
            funext i
            simp only [Option.elim, registry_countIn, registry_countOut]
            rcases w.registry.charter? i with _ | ⟨kind, roots, count⟩ <;> grind [Registry.recount]
          all_goals simp [registry_countIn, registry_countOut]

theorem registry_setOwner {w : Workspace} {p : Path} {owner? : Option ProjectId}
    (h : w.isOpen p ∨ owner? = none) :
    (w.setOwner p owner?).registry = w.registry.setOwner p owner? := by
  unfold setOwner
  cases hd : w.documents.get? p with
  | none =>
      have hopen : w.isOpen p = false := by simp [isOpen, hd]
      have howner : w.owner? p = none := by simp [Workspace.owner?, hd]
      obtain rfl : owner? = none := by simpa [hopen] using h
      ext : 1
      case owner? =>
        funext q
        by_cases hq : q = p <;> simp [Registry.setOwner, hq, howner]
      all_goals simp [Registry.setOwner, hopen]
  | some d =>
      have hopen : w.isOpen p = d.isOpen := by simp [isOpen, hd]
      have howner : w.owner? p = d.owner? := by simp [Workspace.owner?, hd]
      have htracked : w.isTracked p := by
        have hd' : w.documents.documents.get? p = some d := hd
        simp [isTracked, Store.contains, Table.contains, hd']
      dsimp only
      split
      · rename_i hsame
        ext : 1
        case owner? =>
          funext q
          by_cases hq : q = p <;> simp [Registry.setOwner, hq, howner, hsame]
        case charter? =>
          funext i
          cases hc : w.registry.charter? i <;>
            simp [Registry.setOwner, Registry.recount, howner, hsame, hc]
        all_goals simp [Registry.setOwner, howner, hsame]
      · rename_i hne
        by_cases hdo : d.isOpen
        · have hcount := registry_count (w := w) hne
          have hdocuments : (let w := d.owner?.elim w w.countOut
              owner?.elim w w.countIn).isTracked p := by
            cases d.owner? <;> cases owner? <;> exact htracked
          have howners : (let w := d.owner?.elim w w.countOut
              owner?.elim w w.countIn).owner? = w.owner? :=
            congrArg Registry.owner? hcount
          rw [if_pos hdo, registry_writeOwner _ hdocuments, hcount, howners]
          ext : 1
          all_goals simp [Registry.setOwner, hopen, hdo, howner, hne]
        · rw [if_neg hdo, registry_writeOwner _ htracked]
          ext : 1
          all_goals simp [Registry.setOwner, hopen, hdo]

/-- Documents without a live owner leave the lists without any count changing. -/
theorem registry_foldl_detach {w : Workspace} {ps : List Path}
    (h : ∀ p ∈ ps, ∀ id, w.owner? p = some id → w.registry.charter? id = none) :
    (ps.foldl detach w).registry =
      { w.registry with
        openFiles := ps.foldl OpenFiles.remove w.openFiles
        owner? := fun p => if p ∈ ps then none else w.owner? p } := by
  induction ps generalizing w with
  | nil => simp [registry]
  | cons p ps ih =>
      have hdetach : (w.detach p).registry =
          { w.registry with
            openFiles := w.openFiles.remove p
            owner? := fun q => if q = p then none else w.owner? q } := by
        rw [detach, registry_setOwner (.inr rfl), registry_modifyOpenFiles,
          Registry.setOwner_none_of_dead (h p (by simp))]
        rfl
      have howner : (w.detach p).owner? = fun q => if q = p then none else w.owner? q :=
        congrArg Registry.owner? hdetach
      have hopenFiles : (w.detach p).openFiles = w.openFiles.remove p :=
        congrArg Registry.openFiles hdetach
      rw [List.foldl_cons, ih, hdetach, howner, hopenFiles]
      · ext : 1
        case owner? =>
          funext q
          by_cases hq : q = p <;> simp [hq]
        all_goals rfl
      · intro q hq id hid
        rw [hdetach]
        rw [howner] at hid
        exact h q (by simp [hq]) id (by grind)

/-- Dropping the entry of a project, before its documents are seen to. -/
theorem registry_erase (w : Workspace) (id : ProjectId) (inferred : List ProjectId) :
    ({ w with
      projects := w.projects.erase id
      inferred
      configured := w.configured.filter (· ≠ id) } : Workspace).registry =
      { w.registry with
        charter? := fun i => if i = id then none else w.registry.charter? i
        configured := w.configured.filter (· ≠ id) } := by
  ext : 1
  case charter? =>
    funext i
    simp only [registry, Table.get?_erase]
    by_cases hi : i = id
    · simp [hi]
    · simp [hi, Ne.symm hi]
  all_goals rfl

theorem removeProject_eq (w : Workspace) (id : ProjectId) :
    (w.removeProject id).1.registry = w.registry.strike id ∧
      (w.removeProject id).2 = w.registry.members id := by
  unfold removeProject
  cases hproject : w.projects.get? id with
  | none =>
      have hdead : w.registry.charter? id = none := by simp [registry, hproject]
      have hmembers : w.registry.members id = [] := by simp [Registry.members, hdead]
      refine ⟨?_, hmembers.symm⟩
      ext : 1
      case charter? =>
        funext i
        by_cases hi : i = id
        · subst i
          simp [Registry.strike, hdead]
        · simp [Registry.strike, hi]
      all_goals simp [Registry.strike, hmembers, hdead, OpenFiles.filter]
  | some project =>
      have hlive : (w.registry.charter? id).isSome := by simp [registry, hproject]
      dsimp only
      -- the registry does not know of watches
      have hreleased : (project.lookouts.foldl leaveLookout
          (project.watches.foldl releaseWatch w)).registry = w.registry := by
        rw [registry_foldl fun w dir _ => registry_leaveLookout w dir,
          registry_foldl fun w id _ => registry_releaseWatch w id]
      generalize project.lookouts.foldl leaveLookout
        (project.watches.foldl releaseWatch w) = released at hreleased ⊢
      have herased := registry_erase released id (released.inferred.filter (· ≠ id))
      generalize herased' : ({ released with
        projects := released.projects.erase id
        inferred := released.inferred.filter (· ≠ id)
        configured := released.configured.filter (· ≠ id) } : Workspace).cancel (.project id) =
          erased
      have hregistry : erased.registry =
          { w.registry with
            charter? := fun i => if i = id then none else w.registry.charter? i
            configured := w.registry.configured.filter (· ≠ id) } := by
        rw [← herased', registry_cancel, herased, hreleased, ← registry_configured, hreleased]
      have hopenFiles : erased.openFiles = w.openFiles := congrArg Registry.openFiles hregistry
      have howner : erased.owner? = w.owner? := congrArg Registry.owner? hregistry
      have hmembers : erased.openFiles.all.filter (fun p => erased.owner? p = some id) =
          w.registry.members id := by
        rw [hopenFiles, howner, Registry.members, if_pos hlive]
        rfl
      refine ⟨?_, hmembers⟩
      -- the project is gone when its documents are detached, so that nothing is counted any more
      rw [registry_emit, hmembers, registry_foldl_detach, OpenFiles.foldl_remove_eq_filter,
        hregistry, hopenFiles, howner]
      · ext : 1
        all_goals simp [Registry.strike, hlive]
      · intro p hp
        rw [hopenFiles, Registry.members, if_pos hlive]
        rw [Registry.members, if_pos hlive] at hp
        have hcount := List.count_filter (l := w.openFiles.all)
          (p := fun q => w.registry.owner? q = some id) (a := p) (List.mem_filter.mp hp).2
        exact Nat.le_of_eq hcount.symm
      · intro p hp i hi
        rw [howner] at hi
        rw [Registry.members, if_pos hlive, List.mem_filter] at hp
        have hp' : w.owner? p = some id := of_decide_eq_true hp.2
        obtain rfl : id = i := by simpa [hp'] using hi
        simp [hregistry]

/-- Entering a project under an id that was taken for it. -/
theorem registry_insert {w : Workspace} {r : Registry} {project : Project}
    {inferred configured : List ProjectId}
    (h : w.registry = { r with lastProject := r.lastProject + 1 }) (hcount : project.openCount = 0)
    (hconfigured : configured = (r.enroll project.kind project.roots).configured) :
    ({ w with
      projects := w.projects.insert (r.lastProject + 1) project
      inferred
      configured } : Workspace).registry = r.enroll project.kind project.roots := by
  have hcharter := congrArg Registry.charter? h
  ext : 1
  case charter? =>
    funext i
    simp only [registry, Table.get?_insert, Registry.enroll]
    by_cases hi : r.lastProject + 1 = i
    · simp [hi, Project.charter, hcount]
    · rw [if_neg hi, if_neg (Ne.symm hi)]
      exact congrFun hcharter i
  case configured => exact hconfigured
  case openFiles => exact (congrArg Registry.openFiles h :)
  case isOpen => exact (congrArg Registry.isOpen h :)
  case owner? => exact (congrArg Registry.owner? h :)
  case lastProject => exact (congrArg Registry.lastProject h :)
  case overdrafts => exact (congrArg Registry.overdrafts h :)
  case normalizer => exact (congrArg Registry.normalizer h :)

theorem createInferred_eq (w : Workspace) (root : Path) :
    (w.createInferred root).1.registry = w.registry.enroll .inferred [root] ∧
      (w.createInferred root).2 = w.lastProject + 1 := by
  unfold createInferred
  dsimp only
  refine ⟨?_, rfl⟩
  have hjoined : (root.ancestors.foldl joinLookout
      { w with lastProject := w.lastProject + 1 }).registry =
        { w.registry with lastProject := w.lastProject + 1 } :=
    registry_foldl (fun w dir _ => registry_joinLookout w dir) _
  rw [registry_emit, registry_refreshProject]
  exact registry_insert hjoined rfl (congrArg Registry.configured hjoined)

/-- A manifest that defines no project makes none. -/
theorem createConfigured_cases (w : Workspace) (manifest : Path) (outcome : Manifest.Outcome) :
    (w.createConfigured manifest outcome).registry = w.registry ∨
      ∃ roots, (w.createConfigured manifest outcome).registry =
        w.registry.enroll (.configured manifest) roots := by
  unfold createConfigured
  split
  · right
    dsimp only
    have hloaded : (outcome.roots.foldl load { w with lastProject := w.lastProject + 1 }).registry =
        { w.registry with lastProject := w.lastProject + 1 } :=
      registry_foldl (fun w p _ => registry_load w p) _
    generalize outcome.roots.foldl load { w with lastProject := w.lastProject + 1 } = loaded
      at hloaded ⊢
    have hwatched := (registry_watch loaded (.file (.ofPath manifest))
      (.manifest (w.lastProject + 1))).trans hloaded
    refine ⟨outcome.roots.filter loaded.isTracked, ?_⟩
    rw [registry_emit, registry_refreshProject]
    split
    · exact registry_insert hwatched rfl
        (congrArg (· ++ [w.lastProject + 1]) (congrArg Registry.configured hwatched))
    · rename_i dir hdir
      have htree := (registry_watch (loaded.watch (.file (.ofPath manifest))
        (.manifest (w.lastProject + 1))).1 (.directory (.ofPath dir) true)
        (.sourceTree (w.lastProject + 1))).trans hwatched
      exact registry_insert htree rfl
        (congrArg (· ++ [w.lastProject + 1]) (congrArg Registry.configured htree))
  · exact .inl rfl

end Workspace

end ProjectTracker
