import ProjectTracker.Proofs.Workspace.PlantedRuns
import ProjectTracker.Proofs.Workspace.Tracing
/-!
Opening, closing and settling, told without a bound on how deep documents are attached. Each of them returns, and a
document is never given a project of its own that the project just made for another one has: what a project had that
is taken over with its root, its successor has as well.
-/

namespace ProjectTracker.Workspace

open Registry

variable {w w' v : Workspace} {p q : Path} {ps guests : List Path} {first id : ProjectId} {held : Holding}

/-! ### What a new project gathers -/

/-- The project that is made for a document has all files of a project whose roots it has, such as of one that it takes
the only root from. -/
def Gathers (w : Workspace) (p : Path) : Prop :=
  ∀ former held, w.holding? former = some held →
    (∀ root ∈ held.roots, (w.foundProject p true).1.projectHas (w.lastProject + 1) (·.contains root)) →
    ∀ q, held.Contains q → (w.foundProject p true).1.projectHas (w.lastProject + 1) (·.contains q)

/-- A project that is not stale contains what a file refers to that it contains. -/
theorem Current.contains_link (h : Current first w) (hid : first ≤ id) (hheld : w.holding? id = some held)
    (hfresh : held.isStale = false) (hq : held.Contains q) (hp : p ∈ w.scanner.links w.sources q)
    (hread : (w.texts p).isSome) : held.Contains p := by
  have hasked {r : Path} (hasks : w.scanner.Asks w.sources held.roots held.files r)
      (hread : (w.texts r).isSome) : r ∈ held.files := by
    by_contra hr
    exact h.not_asks hid hheld hfresh hread hr hasks
  have hqfile : q ∈ held.files :=
    hq.elim (fun hq => hq) fun hq => hasked (.inl hq) (Scanner.isSome_of_mem_links hp)
  exact .inl (hasked (.inr ⟨q, hqfile, hp⟩) hread)

theorem gathers_of_prepared (hplanted : Planted first [] w.registry) (hopen : w.isOpen p)
    (hroot : p ∉ w.openFiles.roots) (h : Prepared first w) (htraced : w.Traced) : w.Gathers p := by
  intro former held hheld hroots q hq
  have hquiet := (shifts_foundProject (isTracked_of_isOpen hopen) true).quiet
  obtain ⟨hprepared, -⟩ := foundProject_prepared hplanted hopen hroot h
  rcases hq with hq | hq
  · -- along the way from the roots each file is in the new project
    have htraces := (htraced former held hheld (h.fresh former held hheld)).quiet hquiet
    have hreached := htraces.reaches hq
    clear hq
    induction hreached with
    | root hroot _ => exact hroots _ hroot
    | link _ hlink hread ih =>
        obtain ⟨founded, hfounded, hcontains⟩ := projectHas_contains.mp ih
        exact projectHas_contains.mpr ⟨founded, hfounded, hprepared.current.contains_link h.le hfounded
          (hprepared.fresh _ founded hfounded) hcontains hlink hread⟩
  · exact hroots q hq

/-- The project that is made for a document has all files of those projects that go over it. -/
def Inherits (w : Workspace) (p : Path) : Prop :=
  ∀ former held, w.holding? former = some held → (w.foundProject p true).1.holding? former = none →
    ∀ q, held.Contains q → (w.foundProject p true).1.projectHas (w.lastProject + 1) (·.contains q)

/-! ### What comes before and after -/

/-- Documents may be attached, also in between. Where it is asked for, no root has the project of another one. -/
structure Composed (owned : Prop) (w : Workspace) : Prop extends Regular w where
  grounded : Grounded True w
  traced : w.Traced
  own : owned → Planted 0 [] w.registry

namespace Composed

variable {owned : Prop}

theorem turnover (h : Composed owned w) (hsteps : Turnover w w')
    (hplanted : ∀ first, Planted first [] w.registry → Planted first [] w'.registry) : Composed owned w' :=
  ⟨regular_of_planted (h.enlisted.turnover hsteps) (hplanted _ h.planted), h.grounded.turnover hsteps,
    h.traced.turnover h.grounded hsteps, fun hown => hplanted 0 (h.own hown)⟩

theorem rearranges (h : Composed owned w) (hsteps : Rearranges w w') : Composed owned w' :=
  h.turnover (.shifts hsteps.shifts) hsteps.planted

theorem reattach (h : Composed owned w) (ps : List Path) : Composed owned (w.reattach ps) :=
  h.rearranges ⟨shifts_reattach w ps, fun _ hplanted => reattach_planted hplanted ps⟩

theorem removeProject (h : Composed owned w) (hid : w.NotInferred id) :
    Composed owned (w.removeProject id).1 :=
  h.rearranges ⟨.removeProject w id, fun _ hplanted =>
    removeProject_planted_of_not hplanted hid.not_isInferred⟩

theorem regroup (h : Composed owned w) : Composed owned w.refresh.regroup.1 :=
  (h.rearranges (rearranges_refresh w)).rearranges
    ⟨shifts_regroup w.refresh, fun _ hplanted => regroup_planted hplanted⟩

theorem readManifest (h : Composed owned w) (manifest : Path) (trigger? : Option Path) :
    Composed owned (w.readManifest manifest trigger?).1 :=
  h.rearranges ⟨shifts_readManifest .., fun _ hplanted => by rwa [registry_readManifest]⟩

theorem consultManifest (h : Composed owned w) (p : Path) : Composed owned (w.consultManifest p) :=
  h.rearranges ⟨shifts_consultManifest w p, fun _ hplanted => consultManifest_planted h.enlisted hplanted p⟩

end Composed

theorem composed_run (settings : Settings) (scanner : Scanner) (fs : FileSystem) (ops : List Operation) :
    let start : Workspace := { settings, scanner, fs }
    Composed (start.Avoids ops Robs) (start.run ops) := by
  obtain ⟨hgrounded, htraced⟩ := traced_run settings scanner fs ops
  exact ⟨regular_run settings scanner fs ops, hgrounded, htraced,
    fun hrobs => (seated_of_avoids_robs hrobs).planted 0 (sound_of_avoids_robs hrobs)⟩

/-! ### Operations without a bound -/

section

variable (holds : Workspace → Path → Prop)

/-- A project is removed, and its documents are attached anew. -/
def DissolvesTo (w : Workspace) (id : ProjectId) (v : Workspace) : Prop :=
  ReattachesTo holds (fun _ => False) (w.removeProject id).1 (w.removeProject id).2 v

inductive DissolvesAllTo : Workspace → List ProjectId → Workspace → Prop where
  | nil {w : Workspace} : DissolvesAllTo w [] w
  | cons {w dissolved v : Workspace} {id : ProjectId} {ids : List ProjectId}
    (hdissolved : DissolvesTo holds w id dissolved) (hrest : DissolvesAllTo dissolved ids v) :
    DissolvesAllTo w (id :: ids) v

def PrunesTo (w v : Workspace) : Prop :=
  DissolvesAllTo holds w (w.configured.filter fun id => w.projectHas id (·.openCount = 0)) v

def SettlesTo (w v : Workspace) : Prop :=
  ∃ reattached pruned,
    ReattachesTo holds (fun _ => False) w.refresh.regroup.1 w.refresh.regroup.2 reattached ∧
    PrunesTo holds reattached pruned ∧ v = pruned.sweep

def AppliesTo (w : Workspace) (id : ProjectId) (outcome : Manifest.Outcome) (v : Workspace) : Prop :=
  match w.projects.get? id with
  | none => v = w
  | some project =>
    if outcome.definesProject then
      ReattachesTo holds (fun _ => False) (w.renew id project outcome).1 (w.renew id project outcome).2 v
    else v = w

def UpdatesTo (w : Workspace) (id : ProjectId) (trigger? : Option Path) (v : Workspace) : Prop :=
  match w.manifestOf? id with
  | none => v = w
  | some manifest =>
    if w.fs.isFile (.ofPath manifest) then
      let (w, outcome) := w.readManifest manifest trigger?
      AppliesTo holds w id outcome v
    else DissolvesTo holds w id v

def ConsultsTo (w : Workspace) (p : Path) (v : Workspace) : Prop :=
  match w.nearestManifest? p with
  | none => v = w
  | some manifest =>
    match w.projectOfManifest? manifest with
    | some id => UpdatesTo holds w id (some p) v
    | none =>
      let (w, outcome) := w.readManifest manifest (some p)
      v = w.createConfigured manifest outcome

def LodgesTo (w : Workspace) (p : Path) (v : Workspace) : Prop :=
  ∃ consulted attached pruned, ConsultsTo holds w p consulted ∧ AttachesTo holds consulted p attached ∧
    PrunesTo holds attached pruned ∧ v = pruned.sweep

def OpensTo (w : Workspace) (p : Path) (text? : Option Text)
    (result : Workspace × Except Failure (Option ProjectId)) : Prop :=
  let p := w.normalize p
  match w.receive p text? with
  | .error e => result = (w, .error e)
  | .ok received =>
    ∃ placed, (if w.isOpen p then placed = received
        else LodgesTo holds (received.modifyDocument p fun d => { d with isOpen := true }) p placed) ∧
      result = (placed.emit (.opened p (placed.owner? p)), .ok (placed.owner? p))

/-- The project of a document that is closed is dissolved, or it stays. -/
def LeavesTo (w : Workspace) (p : Path) (text : Text) (owner? : Option ProjectId) (left : Workspace) :
    Prop :=
  match owner? with
  | none => left = w.shut p text
  | some id => if w.isLeft p text id then DissolvesTo holds (w.shut p text) id left else left = w.shut p text

def ClosesTo (w : Workspace) (p : Path) (result : Workspace × Except Failure Unit) : Prop :=
  let p := w.normalize p
  match w.documents.get? p with
  | none => result = (w, .error (.documentNotFound p))
  | some d =>
    if d.isOpen then
      match w.textOnDisk p with
      | .error e => result = (w, .error (.file e))
      | .ok text =>
        let owner? := ((w.modifyDocument p (·.reload text)).markStaleAround p).owner? p
        ∃ left settled, LeavesTo holds w p text owner? left ∧
          SettlesTo holds ((left.cancel (.document p)).emit (.closed p owner?)) settled ∧
          result = (settled, .ok ())
    else result = (w, .ok ())

end

/-! ### There is one result -/

section

variable {holds : Workspace → Path → Prop} {owned : Prop}
  (hholds : ∀ w p, w.Gathers p → (owned → w.Inherits p) → holds w p)

include hholds

theorem holds_of_prepared (hplanted : Planted first [] w.registry) (hopen : w.isOpen p)
    (hroot : p ∉ w.openFiles.roots) (h : Prepared first w) (hw : Composed owned w) : holds w p := by
  have hgathers : w.Gathers p := gathers_of_prepared hplanted hopen hroot h hw.traced
  refine hholds w p hgathers fun hown former held hheld hgone => ?_
  exact hgathers former held hheld
    (contains_roots_of_removed hplanted hopen hroot h (hw.own hown) hheld hgone)

theorem reattachesTo_iff (h : Composed owned w) :
    ReattachesTo holds (fun _ => False) w ps v ↔ v = w.reattach ps := by
  have hreattaches : ReattachesTo holds (fun _ => False) w ps (w.reattach ps) :=
    reattachesTo_reattach (fun _ _ hsteps (h : Composed owned _) => h.rearranges hsteps)
      (fun _ _ _ hplanted hopen hroot hprepared hw => holds_of_prepared hholds hplanted hopen hroot hprepared hw)
      h.planted h.enlisted h ps
  exact ⟨fun h' => h'.unique hreattaches, fun heq => heq ▸ hreattaches⟩

/-- A document that has just been opened may be among the roots already. -/
theorem attachesTo_iff (h : Composed owned w) (hplanted : Planted first [p] w.registry) (hopen : w.isOpen p) :
    AttachesTo holds w p v ↔ v = w.attach p := by
  have hattaches : AttachesTo holds w p (w.attach p) := by
    by_cases hroot : p ∈ w.openFiles.roots
    · obtain ⟨joined, hjoined, hattached⟩ := join?_of_guest h.enlisted hplanted hroot
      rw [hattached]
      exact attachesTo_join hjoined
    · exact attachesTo_attach (fun _ _ hsteps (h : Composed owned _) => h.rearranges hsteps)
        (fun _ _ _ hplanted hopen hroot hprepared hw => holds_of_prepared hholds hplanted hopen hroot hprepared hw)
        h.planted hopen hroot h.enlisted h
  exact ⟨fun h' => h'.unique hattaches, fun heq => heq ▸ hattaches⟩

theorem dissolvesTo_iff (h : Composed owned w) (hid : w.NotInferred id) :
    DissolvesTo holds w id v ↔ v = w.dissolve id :=
  reattachesTo_iff hholds (h.removeProject hid)

theorem dissolvesAllTo_iff {ids : List ProjectId} (h : Composed owned w) (hids : ∀ id ∈ ids, w.NotInferred id) :
    DissolvesAllTo holds w ids v ↔ v = ids.foldl dissolve w := by
  induction ids generalizing w with
  | nil =>
      refine ⟨fun hall => ?_, fun heq => heq ▸ .nil⟩
      cases hall
      rfl
  | cons id ids ih =>
      have hid := hids id (by simp)
      have hrest : DissolvesAllTo holds (w.dissolve id) ids v ↔ v = ids.foldl dissolve (w.dissolve id) :=
        ih ((h.removeProject hid).reattach _) fun i hi => (hids i (by simp [hi])).dissolve h.enlisted id
      refine ⟨fun hall => ?_, fun heq => .cons ((dissolvesTo_iff hholds h hid).mpr rfl) (hrest.mpr heq)⟩
      cases hall with
      | cons hdissolved hall =>
          obtain rfl := (dissolvesTo_iff hholds h hid).mp hdissolved
          exact hrest.mp hall

theorem prunesTo_iff (h : Composed owned w) : PrunesTo holds w v ↔ v = w.prune :=
  dissolvesAllTo_iff hholds h fun _ hid => notInferred_of_mem_configured h.enlisted (List.mem_filter.mp hid).1

theorem settlesTo_iff (h : Composed owned w) : SettlesTo holds w v ↔ v = w.settle := by
  have hreattaches {v : Workspace} :
      ReattachesTo holds (fun _ => False) w.refresh.regroup.1 w.refresh.regroup.2 v ↔
        v = w.refresh.regroup.1.reattach w.refresh.regroup.2 :=
    reattachesTo_iff hholds h.regroup
  have hprunes {v : Workspace} :
      PrunesTo holds (w.refresh.regroup.1.reattach w.refresh.regroup.2) v ↔
        v = (w.refresh.regroup.1.reattach w.refresh.regroup.2).prune :=
    prunesTo_iff hholds (h.regroup.reattach w.refresh.regroup.2)
  rw [settle_eq]
  constructor
  · rintro ⟨reattached, pruned, hreattached, hpruned, hv⟩
    obtain rfl := hreattaches.mp hreattached
    obtain rfl := hprunes.mp hpruned
    exact hv
  · exact fun hv => ⟨_, _, hreattaches.mpr rfl, hprunes.mpr rfl, hv⟩

theorem appliesTo_iff (h : Composed owned w) (hid : w.NotInferred id) (outcome : Manifest.Outcome) :
    AppliesTo holds w id outcome v ↔ v = w.applyManifest id outcome := by
  unfold AppliesTo applyManifest
  cases w.projects.get? id with
  | none => exact .rfl
  | some project =>
      dsimp only
      split
      · exact reattachesTo_iff hholds (h.rearranges
          ⟨shifts_renew w id project outcome, fun _ hplanted => renew_planted hplanted hid project outcome⟩)
      · exact .rfl

theorem updatesTo_iff (h : Composed owned w) (id : ProjectId) (trigger? : Option Path) :
    UpdatesTo holds w id trigger? v ↔ v = w.updateConfigured id trigger? := by
  unfold UpdatesTo updateConfigured
  cases hmanifest : w.manifestOf? id with
  | none => exact .rfl
  | some manifest =>
      have hid := notInferred_of_manifestOf? h.enlisted hmanifest
      dsimp only
      split
      · have hread : Proceeds False (fun _ => True) w (w.readManifest manifest trigger?).1 :=
          proceeds_readManifest ..
        exact appliesTo_iff hholds (h.readManifest manifest trigger?) (hid.proceeds hread) _
      · exact dissolvesTo_iff hholds h hid

theorem consultsTo_iff (h : Composed owned w) : ConsultsTo holds w p v ↔ v = w.consultManifest p := by
  unfold ConsultsTo consultManifest
  cases w.nearestManifest? p with
  | none => exact .rfl
  | some manifest =>
      dsimp only
      cases w.projectOfManifest? manifest with
      | none => exact .rfl
      | some id => exact updatesTo_iff hholds h id (some p)

/-- What its manifest leaves to a document that is opened may have made a root of it. Unless roots have lost their
projects it has not. -/
theorem lodgesTo_iff (h : Composed owned w) (hplanted : Planted first [p] w.registry) (hopen : w.isOpen p)
    (hroot : owned → p ∉ (w.consultManifest p).openFiles.roots) : LodgesTo holds w p v ↔ v = w.lodge p := by
  have hconsulting : Proceeds False (fun _ => True) w (w.consultManifest p) :=
    leads_consultManifest w p ⟨h.enlisted, False.elim⟩
  have hplanted' := consultManifest_planted h.enlisted hplanted p
  have hopen' : (w.consultManifest p).isOpen p := (congrFun hconsulting.isOpen p).trans hopen
  have hconsulted := h.consultManifest p
  have hattaching : Shifts (w.consultManifest p) ((w.consultManifest p).attach p) :=
    shifts_attach (isTracked_of_isOpen hopen')
  have hattached : Composed owned ((w.consultManifest p).attach p) :=
    ⟨attach_regular hconsulted.enlisted hplanted' hopen', hconsulted.grounded.shifts hattaching,
      hconsulted.traced.shifts hconsulted.grounded.weaken hattaching,
      fun hown => attach_planted (hconsulted.own hown) hopen' (hroot hown)⟩
  have hattaches {v : Workspace} := attachesTo_iff (v := v) hholds hconsulted hplanted' hopen'
  constructor
  · rintro ⟨consulted, attached, pruned, hconsults, hattached', hpruned, hv⟩
    obtain rfl := (consultsTo_iff hholds h).mp hconsults
    obtain rfl := hattaches.mp hattached'
    obtain rfl := (prunesTo_iff hholds hattached).mp hpruned
    exact hv
  · exact fun hv =>
      ⟨_, _, _, (consultsTo_iff hholds h).mpr rfl, hattaches.mpr rfl, (prunesTo_iff hholds hattached).mpr rfl, hv⟩

theorem opensTo_iff (h : Composed owned w) (p : Path) (text? : Option Text)
    (hroot : owned → ∀ received, w.receive (w.normalize p) text? = .ok received →
      w.isOpen (w.normalize p) = false →
      w.normalize p ∉ ((received.modifyDocument (w.normalize p) fun d => { d with isOpen := true }).consultManifest
        (w.normalize p)).openFiles.roots)
    {result : Workspace × Except Failure (Option ProjectId)} :
    OpensTo holds w p text? result ↔ result = w.openFile p text? := by
  unfold OpensTo openFile
  dsimp only
  cases hreceive : w.receive (w.normalize p) text? with
  | error e => exact .rfl
  | ok received =>
      dsimp only
      cases hopen : w.isOpen (w.normalize p) with
      | true => simp
      | false =>
          obtain ⟨hregistry, htracked⟩ := receive_eq hreceive
          have hreceived : Composed owned received :=
            h.turnover (turnover_receive hreceive) fun _ hplanted => hregistry ▸ hplanted
          have hclosed : received.isOpen (w.normalize p) = false := by
            rw [← registry_isOpen, hregistry]
            exact hopen
          have hopening : Calm received (received.modifyDocument (w.normalize p)
              fun d => { d with isOpen := true }) := calm_modifyDocument fun _ _ => rfl
          have hcomposed := hreceived.turnover (.calm hopening) fun _ hplanted =>
            (setOpen_planted hplanted htracked hclosed).1.dismiss
          obtain ⟨hplanted, hopened⟩ := setOpen_planted hreceived.planted htracked hclosed
          have hlodges {v : Workspace} := lodgesTo_iff (v := v) hholds hcomposed hplanted hopened
            fun hown => hroot hown received hreceive hopen
          simp only [Bool.false_eq_true, if_false, hlodges, exists_eq_left]
          exact .rfl

theorem leavesTo_iff (h : Composed owned w) (hopen : w.isOpen p) (text : Text) (owner? : Option ProjectId) :
    LeavesTo holds w p text owner? v ↔ v = w.leave p text owner? := by
  unfold LeavesTo leave
  cases owner? with
  | none => exact .rfl
  | some id =>
      dsimp only
      split
      · rename_i hleft
        have hremoving : Turnover w ((w.shut p text).removeProject id).1 :=
          (turnover_shut w p text).trans (.shifts (.removeProject ..))
        exact reattachesTo_iff hholds (h.turnover hremoving fun _ hplanted =>
          shut_removeProject_planted hplanted hopen text (configured_of_isLeft hleft))
      · exact .rfl

theorem closesTo_iff (h : Composed owned w) (p : Path) {result : Workspace × Except Failure Unit} :
    ClosesTo holds w p result ↔ result = w.closeFile p := by
  unfold ClosesTo closeFile
  dsimp only
  cases hd : w.documents.get? (w.normalize p) with
  | none => exact .rfl
  | some d =>
      dsimp only
      split
      · rename_i hdo
        have hopen : w.isOpen (w.normalize p) := by
          rw [isOpen, hd]
          exact hdo
        cases w.textOnDisk (w.normalize p) with
        | error e => exact .rfl
        | ok text =>
            dsimp only
            generalize howner : ((w.modifyDocument (w.normalize p) (·.reload text)).markStaleAround
              (w.normalize p)).owner? (w.normalize p) = owner?
            -- whether or not its project is dissolved, what the document leaves behind can be settled
            have hleft := leave_cases w (w.normalize p) text owner?
            have hcomposed := h.turnover (turnover_left (hleft.imp_right (Exists.imp fun _ hid => hid.2))
              (.closed (w.normalize p) owner?)) fun _ hplanted => left_planted hplanted hopen hleft _
            have hsettles {v : Workspace} := settlesTo_iff (v := v) hholds hcomposed
            simp only [leavesTo_iff hholds h hopen text owner?, exists_and_left, exists_eq_left, hsettles]
            rw [close_eq, howner]
      · exact .rfl

end

/-! ### Runs -/

/-- Documents are attached, and opened, and closed, and all is settled, without a bound on how deep documents are
attached on the way, and with one result. Wherever a project is made for a document something holds, and no document
that it has is given another new project on its account. -/
structure Returns (holds : Workspace → Path → Prop) (w : Workspace) : Prop where
  reattach : ∀ ps v, ReattachesTo holds (fun _ => False) w ps v ↔ v = w.reattach ps
  openFile : ∀ p text? result, OpensTo holds w p text? result ↔ result = w.openFile p text?
  closeFile : ∀ p result, ClosesTo holds w p result ↔ result = w.closeFile p
  settle : ∀ v, SettlesTo holds w v ↔ v = w.settle

/-- Its manifest does not make a root of a document that is opened, where no root has the project of another one. -/
theorem notMem_roots_opened {received : Workspace} {text? : Option Text} {n : Normalizer}
    (hsound : Sound (.owning n) w.registry [] [] []) (hseated : Seated w.registry none [])
    (hreceive : w.receive p text? = .ok received) (hclosed : w.isOpen p = false) :
    p ∉ ((received.modifyDocument p fun d => { d with isOpen := true }).consultManifest p).openFiles.roots := by
  obtain ⟨hregistry, htracked⟩ := receive_eq hreceive
  rw [← registry_isOpen] at hclosed
  rw [← hregistry] at hsound hseated hclosed
  have hopened := opened_sound (t := .owning n) hsound htracked hclosed
  have hseated' := opened_seated (t := .owning n) hsound hseated htracked hclosed
  obtain ⟨-, hfree, -⟩ := consultManifest_free (t := .owning n) trivial (fun honce => honce) hopened hseated'
  exact (consultManifest_seated (t := .owning n) trivial hopened hseated' p).notMem_roots hfree.own

/-- In every state attaching, opening, closing and settling return, and a project that is made for a document has all
files of the projects whose roots it has. Where no step has robbed a project, which none does with an absolute base
directory, it has all files of the projects that go over it. -/
theorem returns_run (settings : Settings) (scanner : Scanner) (fs : FileSystem) (ops : List Operation) :
    let start : Workspace := { settings, scanner, fs }
    (start.run ops).Returns Gathers ∧ (start.Avoids ops Robs → (start.run ops).Returns Inherits) ∧
      (scanner.normalizer.base.isAbsolute → start.Avoids ops Robs) := by
  intro start
  have hw : Composed (start.Avoids ops Robs) (start.run ops) := composed_run settings scanner fs ops
  have hreturns {holds : Workspace → Path → Prop}
      (hholds : ∀ v p, v.Gathers p → (start.Avoids ops Robs → v.Inherits p) → holds v p) :
      (start.run ops).Returns holds :=
    { reattach := fun _ _ => reattachesTo_iff hholds hw
      openFile := fun p text? _ => opensTo_iff hholds hw p text? fun hrobs _ hreceive hclosed =>
        notMem_roots_opened (sound_of_avoids_robs hrobs) (seated_of_avoids_robs hrobs) hreceive hclosed
      closeFile := fun p _ => closesTo_iff hholds hw p
      settle := fun _ => settlesTo_iff hholds hw }
  exact ⟨hreturns fun _ _ hgathers _ => hgathers, fun hrobs => hreturns fun _ _ _ hinherits => hinherits hrobs,
    avoids_robs_of_isAbsolute⟩

/-- A file refers to another one, which is asked for when both are open. The third one refers to the first. -/
def chained : Workspace :=
  let path (name : String) : Path := ⟨[.root, .name name]⟩
  let fs := FileSystem.ofFiles [(path "a", "@b".toList), (path "b", []), (path "c", "@a".toList)]
  { settings := {}, scanner := signScanner, fs }

def chaining : List Operation :=
  let path (name : String) : Path := ⟨[.root, .name name]⟩
  [.openFile (path "a") none, .openFile (path "b") none, .adoptProjectFor (path "b")]

theorem returns_run_chaining :
    let path (name : String) : Path := ⟨[.root, .name name]⟩
    let w := chained.run chaining
    chained.Avoids chaining Robs ∧ OpensTo Inherits w (path "c") none (w.openFile (path "c") none) ∧
      w.owner? (path "b") = some 1 ∧ (w.openFile (path "c") none).1.projects.keys = [2] ∧
      (w.openFile (path "c") none).1.owner? (path "b") = some 2 := by
  have hrobs : chained.Avoids chaining Robs := by decide +kernel
  refine ⟨hrobs, ?_, by decide +kernel, by decide +kernel, by decide +kernel⟩
  exact (((returns_run {} signScanner chained.fs chaining).2.1 hrobs).openFile _ none _).mpr rfl

/-- The state in which a project is made for a file that is opened, if no manifest is near and one is made. -/
def founding? (w : Workspace) (p : Path) (text? : Option Text) : Option Workspace :=
  let p := w.normalize p
  match w.receive p text? with
  | .error _ => none
  | .ok received =>
    let opened := received.modifyDocument p fun d => { d with isOpen := true }
    if !w.isOpen p && (opened.nearestManifest? p).isNone && (opened.refresh.join? p).isNone then
      some opened.refresh
    else none

theorem OpensTo.holds_founding {holds : Workspace → Path → Prop} {text? : Option Text}
    {result : Workspace × Except Failure (Option ProjectId)} (h : OpensTo holds w p text? result)
    (hfounding : w.founding? p text? = some v) : holds v (w.normalize p) := by
  unfold founding? at hfounding
  unfold OpensTo at h
  dsimp only at h hfounding
  cases hreceive : w.receive (w.normalize p) text? with
  | error e => simp [hreceive] at hfounding
  | ok received =>
      rw [hreceive] at h hfounding
      dsimp only at h hfounding
      split at hfounding
      · rename_i hcases
        obtain rfl := Option.some.inj hfounding
        simp only [Bool.and_eq_true, Bool.not_eq_true', Option.isNone_iff_eq_none] at hcases
        obtain ⟨⟨hclosed, hnearest⟩, hjoined⟩ := hcases
        obtain ⟨placed, hplaced, -⟩ := h
        rw [if_neg (by simp [hclosed])] at hplaced
        obtain ⟨consulted, attached, pruned, hconsulted, hattached, -⟩ := hplaced
        rw [ConsultsTo, hnearest] at hconsulted
        rw [hconsulted, AttachesTo, hjoined] at hattached
        exact hattached.1
      · simp at hfounding

theorem not_opensTo_of_founding {holds : Workspace → Path → Prop} [∀ w p, Decidable (holds w p)]
    {text? : Option Text} {result : Workspace × Except Failure (Option ProjectId)}
    (h : (w.founding? p text?).any fun v => !decide (holds v (w.normalize p))) :
    ¬OpensTo holds w p text? result := by
  intro hopens
  obtain ⟨v, hv, hfails⟩ := Option.any_eq_true .. |>.mp h
  have hholds : holds v (w.normalize p) := hopens.holds_founding hv
  simp [hholds] at hfails

/-- The project that is made for a document has all those that lose their project over it. -/
def GathersAll (w : Workspace) (p : Path) : Prop :=
  ∀ q ∈ (w.foundProject p true).2, (w.foundProject p true).1.projectHas (w.lastProject + 1) (·.contains q)

instance (w : Workspace) (p : Path) : Decidable (w.GathersAll p) :=
  inferInstanceAs (Decidable (∀ q ∈ _, _))

/-- A document that its project does not contain any more, as nothing in it refers to the document by now, but that
still belongs to it until all is settled, is given a project of its own when another project takes over the root. -/
theorem not_opensTo_gathersAll :
    let path (name : String) : Path := ⟨[.root, .name name]⟩
    let fs := FileSystem.ofFiles
      [(path "a", "@b".toList), (path "b", []), (path "c", "@a".toList)]
    let w := ({ settings := {}, scanner := signScanner, fs } : Workspace).run
      [.openFile (path "a") none, .openFile (path "b") none, .changeFile (path "a") [⟨0, 2, []⟩]]
    ¬OpensTo GathersAll w (path "c") none (w.openFile (path "c") none) ∧
      (w.openFile (path "c") none).1.owner? (path "a") = some 2 ∧
      (w.openFile (path "c") none).1.owner? (path "b") = some 3 := by
  refine ⟨not_opensTo_of_founding ?_, ?_, ?_⟩
  all_goals decide +kernel

instance (w : Workspace) (p : Path) : Decidable (w.Inherits p) :=
  inferInstanceAs (Decidable (∀ former held, w.holding? former = some held → _ = none →
    ∀ q, held.Contains q → _))

/-- With a relative base directory a document can be given the project of another one. Where its root is taken over that
project goes, and the other document, which the new project does not reach, is given one of its own. -/
theorem not_opensTo_inherits :
    let path (names : List String) : Path := ⟨names.map .name⟩
    let letters (first last : Char) : Pattern := .set ⟨[.range first last], false⟩
    let start : Workspace :=
      { settings := {}
        scanner := ⟨.seq (letters '@' '@') (.group 1 (.star true (letters '.' 'z'))), ⟨path ["w"], true⟩⟩
        fs := FileSystem.ofFiles
          [(path ["w", "a"], []), (path ["w", "w", "a"], []), (path ["w", "c"], "@../a".toList)] }
    let w := start.run
      [.openFile (path ["a"]) none, .openFile (path ["w", "a"]) none, .adoptProjectFor (path ["a"])]
    ¬OpensTo Inherits w (path ["c"]) none (w.openFile (path ["c"]) none) ∧
      (w.openFile (path ["c"]) none).1.owner? (path ["w", "a"]) = some 3 ∧
      (w.openFile (path ["c"]) none).1.owner? (path ["w", "w", "a"]) = some 4 := by
  refine ⟨not_opensTo_of_founding ?_, ?_, ?_⟩
  all_goals decide +kernel

end ProjectTracker.Workspace
