import ProjectTracker.Proofs.Workspace.Dealings
import ProjectTracker.Proofs.Workspace.Ownership
import ProjectTracker.Proofs.Workspace.SeatedRuns
/-!
Whoever reads all events knows the open documents with their projects and the live projects with their kinds.
While a document is on its way what was said of it is old, which is why the invariant leaves some documents out;
it is told about before the operation ends.
-/

namespace ProjectTracker

open Registry

/-- What events tell: the open documents with their projects, and the live projects with their kinds. -/
structure Ledger where
  documents : Table Path (Option ProjectId) := ∅
  projects : Table ProjectId ProjectKind := ∅

namespace Ledger

def record (l : Ledger) : Event → Ledger
  | .opened p owner? => { l with documents := l.documents.insert p owner? }
  | .contextChanged p owner? => { l with documents := l.documents.insert p owner? }
  | .closed p _ => { l with documents := l.documents.erase p }
  | .projectCreated id kind => { l with projects := l.projects.insert id kind }
  | .projectRemoved id => { l with projects := l.projects.erase id }
  | .changed .. => l
  | .manifestRead .. => l

/-- Reads events in their order. -/
def read (l : Ledger) (events : List Event) : Ledger :=
  events.foldl record l

variable {l : Ledger} {p q : Path}

theorem read_append (l : Ledger) (events events' : List Event) :
    l.read (events ++ events') = (l.read events).read events' :=
  List.foldl_append

theorem read_idle {events : List Event} (h : ∀ e ∈ events, e.IsIdle) : l.read events = l := by
  induction events with
  | nil => rfl
  | cons e events ih =>
      have hrecord : l.record e = l := by
        have hidle := h e (by simp)
        cases e <;> first | rfl | exact hidle.elim
      show (l.record e).read events = l
      rw [hrecord]
      exact ih fun e he => h e (by simp [he])

end Ledger

namespace Workspace

variable {t : Terms} {strict : Prop} {unsaid : Path → Prop} {w w' : Workspace} {p : Path}
  {id : ProjectId} {l : Ledger} {ops : List Operation}

/-! ### What steps tell -/

theorem events_foldl {α : Type} {step : Workspace → α → Workspace}
    (h : ∀ w x, (step w x).events = w.events) (xs : List α) (w : Workspace) :
    (xs.foldl step w).events = w.events := by
  induction xs generalizing w with
  | nil => rfl
  | cons x xs ih => rw [List.foldl_cons, ih, h]

theorem events_unwatch (w : Workspace) (p : Path) : (w.unwatch p).events = w.events := by
  unfold unwatch
  split <;> rfl

theorem events_forget (w : Workspace) (p : Path) : (w.forget p).events = w.events := by
  unfold forget
  split
  · exact events_unwatch w p
  · rfl

theorem events_removeProject (w : Workspace) (id : ProjectId) : (w.removeProject id).1.events =
    if (w.outlook.post? id).isSome then w.events ++ [.projectRemoved id] else w.events := by
  have hlive : (w.outlook.post? id).isSome = (w.projects.get? id).isSome := by simp [outlook]
  have hleave (w : Workspace) (dir : Path) : (w.leaveLookout dir).events = w.events := by
    unfold leaveLookout
    split
    · rfl
    · split <;> rfl
  have hrelease (w : Workspace) (id : WatchId) : (w.releaseWatch id).events = w.events := rfl
  have hdetach (w : Workspace) (p : Path) : (w.detach p).events = w.events := events_setOwner ..
  rw [hlive]
  unfold removeProject
  cases w.projects.get? id with
  | none => rfl
  | some project =>
      show (List.foldl detach _ _).events ++ [_] = w.events ++ [_]
      rw [events_foldl hdetach]
      show (List.foldl leaveLookout _ _).events ++ [_] = w.events ++ [_]
      rw [events_foldl hleave, events_foldl hrelease]

theorem events_enterInferred (w : Workspace) (root : Path) : (w.enterInferred root).events =
    w.events ++ [.projectCreated (w.lastProject + 1) .inferred] := by
  have hjoin (w : Workspace) (dir : Path) : (w.joinLookout dir).events = w.events := by
    unfold joinLookout
    split <;> rfl
  unfold enterInferred
  show (root.ancestors.foldl joinLookout w).events ++
    [.projectCreated ((root.ancestors.foldl joinLookout w).lastProject + 1) _] = _
  rw [events_foldl hjoin, lastProject_foldl_joinLookout]

theorem events_enterConfigured (w : Workspace) (manifest : Path) (roots : List Path)
    (settings : List (String × Toml.Value)) : (w.enterConfigured manifest roots settings).events =
      w.events ++ [.projectCreated (w.lastProject + 1) (.configured manifest)] := by
  unfold enterConfigured
  cases manifest.parent? <;> rfl

/-! ### What was told is right -/

/-- What a reader of `l` knows after the waiting events is right, apart from documents of which that is left
unsaid. Of open documents without a project nothing is claimed. -/
structure Told (l : Ledger) (unsaid : Path → Prop) (w : Workspace) : Prop where
  owned : ∀ p id, w.owner? p = some id → ¬unsaid p →
    (l.read w.events).documents.get? p = some (some id)
  closed : ∀ p, w.isOpen p = false → ¬unsaid p → (l.read w.events).documents.get? p = none
  kinds : ∀ id, (l.read w.events).projects.get? id = (w.outlook.post? id).map (·.kind)

namespace Told

theorem weaken {unsaid' : Path → Prop} (h : Told l unsaid w) (hunsaid : ∀ p, unsaid p → unsaid' p) :
    Told l unsaid' w :=
  ⟨fun p id howner hp => h.owned p id howner fun hp' => hp (hunsaid p hp'),
    fun p hclosed hp => h.closed p hclosed fun hp' => hp (hunsaid p hp'), h.kinds⟩

/-- Documents may lose their projects while nothing is told of documents. -/
theorem keepDocuments (h : Told l unsaid w) (hopen : w'.isOpen = w.isOpen)
    (howner : ∀ p, w'.owner? p = w.owner? p ∨ w'.owner? p = none)
    (hdocuments : (l.read w'.events).documents = (l.read w.events).documents)
    (hkinds : ∀ id, (l.read w'.events).projects.get? id = (w'.outlook.post? id).map (·.kind)) :
    Told l unsaid w' := by
  refine ⟨fun p id hp hsaid => ?_, fun p hp hsaid => ?_, hkinds⟩
  · rw [hdocuments]
    rcases howner p with hsame | hnone
    · exact h.owned p id (hsame.symm.trans hp) hsaid
    · simp [hnone] at hp
  · rw [hdocuments]
    exact h.closed p (hopen ▸ hp) hsaid

theorem quiet (h : Told l unsaid w) (hopen : w'.isOpen = w.isOpen)
    (howner : ∀ p, w'.owner? p = w.owner? p ∨ w'.owner? p = none)
    (hpost : w'.outlook.post? = w.outlook.post?) (hevents : l.read w'.events = l.read w.events) :
    Told l unsaid w' := by
  refine h.keepDocuments hopen howner (congrArg Ledger.documents hevents) fun id => ?_
  rw [hevents, hpost]
  exact h.kinds id

theorem of_registry (h : Told l unsaid w) (hregistry : w'.registry = w.registry)
    (hpost : w'.outlook.post? = w.outlook.post?) (hevents : w'.events = w.events) :
    Told l unsaid w' :=
  h.quiet (congrArg Registry.isOpen hregistry)
    (fun p => .inl (congrFun (congrArg Registry.owner? hregistry) p)) hpost
    (congrArg (Ledger.read l) hevents)

/-- An open document of which much was unsaid is told about. -/
theorem say (h : Told l (fun q => unsaid q ∨ q = p) w) (hopen : w.isOpen p) {e : Event}
    (he : ∀ l : Ledger, l.record e = { l with documents := l.documents.insert p (w.owner? p) }) :
    Told l unsaid (w.emit e) := by
  have hread : l.read (w.emit e).events =
      { l.read w.events with documents := (l.read w.events).documents.insert p (w.owner? p) } := by
    show l.read (w.events ++ [e]) = _
    rw [Ledger.read_append]
    exact he _
  refine ⟨fun q id howner hq => ?_, fun q hclosed hq => ?_, fun id => ?_⟩
  · rw [hread, Table.get?_insert]
    have howner' : w.owner? q = some id := howner
    split
    · subst q
      rw [howner']
    · rename_i hne
      exact h.owned q id howner' fun hq' => hq'.elim hq fun heq => hne heq.symm
  · have hclosed' : w.isOpen q = false := hclosed
    have hne : q ≠ p := by
      rintro rfl
      simp [hopen] at hclosed'
    rw [hread, Table.get?_insert, if_neg hne.symm]
    exact h.closed q hclosed' fun hq' => hq'.elim hq hne
  · rw [hread]
    exact h.kinds id

/-- A closed document is no longer in the ledger. -/
theorem sayClosed (h : Told l (· = p) w) (htidy : w.Tidy) (hclosed : w.isOpen p = false)
    (owner? : Option ProjectId) : Told l (fun _ => False) (w.emit (.closed p owner?)) := by
  have hread : l.read (w.emit (.closed p owner?)).events =
      { l.read w.events with documents := (l.read w.events).documents.erase p } := by
    show l.read (w.events ++ [_]) = _
    rw [Ledger.read_append]
    rfl
  refine ⟨fun q id howner _ => ?_, fun q hclosed' _ => ?_, fun id => ?_⟩
  · have howner' : w.owner? q = some id := howner
    have hne : q ≠ p := by
      rintro rfl
      have hopen := htidy.owned q (by simp [howner'])
      simp [hclosed] at hopen
    rw [hread, Table.get?_erase, if_neg hne.symm]
    exact h.owned q id howner' hne
  · rw [hread, Table.get?_erase]
    split
    · rfl
    · rename_i hne
      exact h.closed q hclosed' fun heq => hne heq.symm
  · rw [hread]
    exact h.kinds id

/-- A new project is told about. -/
theorem enroll (h : Told l unsaid w) {kind : ProjectKind} {roots : List Path}
    (hregistry : w'.registry = w.registry.enroll kind roots)
    (hpost : ∀ i, (w'.outlook.post? i).map (·.kind) =
      if i = w.lastProject + 1 then some kind else (w.outlook.post? i).map (·.kind))
    (hevents : w'.events = w.events ++ [.projectCreated (w.lastProject + 1) kind]) :
    Told l unsaid w' := by
  have hread : l.read w'.events = { l.read w.events with
      projects := (l.read w.events).projects.insert (w.lastProject + 1) kind } := by
    rw [hevents, Ledger.read_append]
    rfl
  refine h.keepDocuments (congrArg Registry.isOpen hregistry)
    (fun p => .inl (congrFun (congrArg Registry.owner? hregistry) p))
    (by rw [hread]) fun id => ?_
  rw [hread, Table.get?_insert, hpost]
  by_cases hid : id = w.lastProject + 1
  · rw [if_pos hid, if_pos hid.symm]
  · rw [if_neg hid, if_neg (Ne.symm hid)]
    exact h.kinds id

/-- So is the end of a project, if it was live. -/
theorem removeProject (h : Told l unsaid w) (id : ProjectId) :
    Told l unsaid (w.removeProject id).1 := by
  have hopen := isOpen_removeProject w id
  have howner := owner?_removeProject w id
  have hpost (i : ProjectId) := w.outlook.post?_strike id i
  rw [← outlook_removeProject] at hpost
  have hevents := events_removeProject w id
  cases hlive : w.outlook.post? id with
  | none =>
      rw [hlive, Option.isSome_none, if_neg Bool.false_ne_true] at hevents
      refine h.quiet hopen howner (funext fun i => ?_) (congrArg (Ledger.read l) hevents)
      rw [hpost]
      split
      · subst i
        exact hlive.symm
      · rfl
  | some post =>
      rw [hlive, Option.isSome_some, if_pos rfl] at hevents
      have hread : l.read (w.removeProject id).1.events = { l.read w.events with
          projects := (l.read w.events).projects.erase id } := by
        rw [hevents, Ledger.read_append]
        rfl
      refine h.keepDocuments hopen howner (by rw [hread]) fun i => ?_
      rw [hread, Table.get?_erase, hpost]
      by_cases hi : i = id
      · rw [if_pos hi, if_pos hi.symm]
        rfl
      · rw [if_neg hi, if_neg (Ne.symm hi)]
        exact h.kinds i

end Told

/-- In a strict account everything is told in the end. -/
theorem told_proceeds (hstrict : strict) (h : Proceeds strict unsaid w w') (hw : Told l unsaid w) :
    Told l unsaid w' := by
  induction h with
  | refl w => exact hw
  | trans _ _ ih ih' => exact ih' (ih hw)
  | aside h =>
      obtain ⟨told, hevents, hidle⟩ := h.events
      refine hw.quiet h.isOpen h.owner? (congrArg Outlook.post? h.outlook) ?_
      rw [hevents, Ledger.read_append]
      exact Ledger.read_idle hidle
  | listRoot _ => exact hw.quiet rfl (fun _ => .inl rfl) rfl rfl
  | @give _ w p owner? hp _ =>
      have hevents := events_setOwner w p owner?
      refine ⟨fun q id howner hq => ?_, fun q hclosed hq => ?_, fun id => ?_⟩
      · have hne : q ≠ p := fun heq => hq (heq ▸ hp)
        rw [owner?_setOwner_of_ne hne] at howner
        rw [hevents]
        exact hw.owned q id howner hq
      · rw [hevents]
        exact hw.closed q (isOpen_setOwner w p owner? ▸ hclosed) hq
      · rw [hevents, (beside_setOwner w p owner?).outlook]
        exact hw.kinds id
  | @say _ _ w' p owner? _ hsaid ih =>
      obtain ⟨hopen, howner⟩ := hsaid hstrict
      exact (ih (hw.weaken fun q hq => .inl hq)).say hopen fun _ => by rw [howner]; rfl
  | track text h =>
      exact hw.of_registry (registry_track h text) (by rw [outlook_track]; rfl) rfl
  | unwatch w p =>
      exact hw.of_registry (registry_unwatch w p)
        (by rw [outlook_unwatch, Outlook.post?_unwatch]) (events_unwatch w p)
  | @forget _ w p h =>
      exact hw.quiet (isOpen_forget h) (owner?_forget w p) (post?_forget w p)
        (congrArg (Ledger.read _) (events_forget w p))
  | removeProject w id => exact hw.removeProject id
  | enterInferred w root =>
      refine hw.enroll (registry_enterInferred w root) (fun i => ?_) (events_enterInferred w root)
      rw [outlook_enterInferred, Outlook.post?_enrollInferred]
      split <;> rfl
  | @enterConfigured _ w manifest roots settings _ =>
      obtain ⟨watches, hpost⟩ := w.outlook.post?_enrollConfigured (w.lastProject + 1) manifest
      refine hw.enroll (registry_enterConfigured ..) (fun i => ?_) (events_enterConfigured ..)
      rw [outlook_enterConfigured, hpost]
      split <;> rfl

/-! ### Operations -/

theorem tidy_of_sound {loose moving guests : List Path} (h : Sound t w.registry loose moving guests) :
    w.Tidy where
  roots p hp := (h.listed_open p (by simp [OpenFiles.all, hp])).resolve_right fun hleft => hleft.2 hp
  owned := h.owned_open

theorem isOpen_setOpen (htracked : w.isTracked p) (isOpen : Bool) (q : Path) :
    (w.modifyDocument p fun d => { d with isOpen }).isOpen q =
      if q = p then isOpen else w.isOpen q :=
  congrFun (congrArg Registry.isOpen (registry_setOpen htracked isOpen)) q

/-- That a document opens or closes is still to be told. -/
theorem Told.setOpen (h : Told l (fun _ => False) w) (htracked : w.isTracked p) (isOpen : Bool) :
    Told l (· = p) (w.modifyDocument p fun d => { d with isOpen }) := by
  have hregistry := registry_setOpen htracked isOpen
  have hopen := isOpen_setOpen htracked isOpen
  have hbeside := beside_setOpen w p isOpen
  have hevents : (w.modifyDocument p fun d => { d with isOpen }).events = w.events := rfl
  generalize (w.modifyDocument p fun d => { d with isOpen }) = w' at hregistry hopen hbeside hevents ⊢
  have howner : w'.owner? = w.owner? := congrArg Registry.owner? hregistry
  refine ⟨fun q i hq _ => ?_, fun q hq hne => ?_, fun i => ?_⟩
  · rw [hevents]
    exact h.owned q i (howner ▸ hq) not_false
  · rw [hopen, if_neg hne] at hq
    rw [hevents]
    exact h.closed q hq not_false
  · rw [hevents, hbeside.outlook]
    exact h.kinds i

theorem Tidy.opening (h : w.Tidy) (htracked : w.isTracked p) :
    (w.modifyDocument p fun d => { d with isOpen := true }).Tidy := by
  have hregistry := registry_setOpen htracked true
  have hopen := isOpen_setOpen htracked true
  generalize (w.modifyDocument p fun d => { d with isOpen := true }) = w' at hregistry hopen ⊢
  have howner : w'.owner? = w.owner? := congrArg Registry.owner? hregistry
  have hlists : w'.openFiles = w.openFiles := congrArg Registry.openFiles hregistry
  have hmore (q : Path) (hq : w.isOpen q) : w'.isOpen q := by
    rw [hopen]
    split
    · rfl
    · exact hq
  exact ⟨fun q hq => hmore q (h.roots q (hlists ▸ hq)), fun q hq => hmore q (h.owned q (howner ▸ hq))⟩

/-- A document that opens is told about when it has its place. -/
theorem told_openFile (h : Told l (fun _ => False) w) (hw : w.Proper True) (p : Path)
    (text? : Option Text) : Told l (fun _ => False) (w.openFile p text?).1 := by
  rcases openFile_cases w p text? with hsame | ⟨received, hreceive, hopened⟩
  · rw [hsame]
    exact h
  have hproceeds : Proceeds True (fun _ => False) w received := proceeds_receive hreceive
  have hreceived : Told l (fun _ => False) received := told_proceeds trivial hproceeds h
  have hproper := hw.proceeds hproceeds
  have htracked := (receive_eq hreceive).2
  rcases hopened with ⟨hopen, hopened⟩ | ⟨opened, lodged, -, rfl, rfl, hopened⟩
  · rw [hopened]
    refine (hreceived.weaken fun _ hq => hq.elim).say ?_ fun _ => rfl
    rw [hproceeds.isOpen]
    exact hopen
  · have hset := hreceived.setOpen htracked true
    have hopen := (isOpen_setOpen htracked true (w.normalize p)).trans (if_pos rfl)
    have hproper' : (received.modifyDocument (w.normalize p) fun d =>
        { d with isOpen := true }).Proper True :=
      ⟨hproper.enlisted.beside (beside_setOpen ..), fun _ => (hproper.tidy trivial).opening htracked⟩
    rw [hopened]
    generalize (received.modifyDocument (w.normalize p) fun d => { d with isOpen := true }) = opened
      at hset hopen hproper' ⊢
    have hlodged : Proceeds True (· = w.normalize p) opened (opened.lodge (w.normalize p)) :=
      leads_lodge rfl hopen hproper'
    refine ((told_proceeds trivial hlodged hset).weaken fun q hq => .inr hq).say ?_ fun _ => rfl
    rw [hlodged.isOpen]
    exact hopen

/-- A document that is closed is told about before all is settled. -/
theorem told_close (h : Told l (fun _ => False) w) (hw : w.Enlisted)
    (hsound : Sound t.settled w.registry [] [] []) (hopen : w.isOpen p) (text : Text) :
    Told l (fun _ => False) (w.close p text) := by
  obtain ⟨left, owner?, hleft, heq⟩ := close_cases w p text
  have htidy : (w.shut p text).Tidy := by
    have hreloaded : ((w.modifyDocument p (·.reload text)).markStaleAround p).registry =
        w.registry := by
      rw [registry_markStaleAround]
      exact registry_modifyDocument fun _ _ => ⟨rfl, rfl⟩
    rw [← hreloaded] at hsound
    rw [← registry_isOpen, ← hreloaded] at hopen
    exact tidy_of_sound (shut_sound hsound hopen)
  have hunlisted : Proceeds True (fun _ => False) w _ := proceeds_unlist w p text
  have htracked := isTracked_of_isOpen (hunlisted.isOpen ▸ hopen)
  have hshut : Told l (· = p) (w.shut p text) :=
    (told_proceeds trivial hunlisted h).setOpen htracked false
  have hproper : (w.shut p text).Proper True :=
    ⟨(hw.proceeds hunlisted).beside (beside_setOpen ..), fun _ => htidy⟩
  have hclosed : (w.shut p text).isOpen p = false :=
    (isOpen_setOpen htracked false p).trans (if_pos rfl)
  have hleft' : Proceeds True (· = p) (w.shut p text) left := by
    rcases hleft with rfl | ⟨id, rfl⟩
    · exact .refl _
    · exact leads_dissolve _ id hproper
  have hcanceled := hleft'.trans (.aside (aside_cancel left (.document p)))
  rw [heq]
  generalize left.cancel (.document p) = canceled at hcanceled ⊢
  have htold : Told l (fun _ => False) (canceled.emit (.closed p owner?)) := by
    refine (told_proceeds trivial hcanceled hshut).sayClosed
      ((hproper.proceeds hcanceled).tidy trivial) ?_ owner?
    rw [hcanceled.isOpen]
    exact hclosed
  have hproper' := hproper.proceeds hcanceled
  have hemitted : (canceled.emit (.closed p owner?)).Proper True :=
    ⟨hproper'.enlisted.of_roster rfl rfl, fun _ => (hproper'.tidy trivial).of_registry rfl⟩
  exact told_proceeds trivial (leads_settle _ hemitted) htold

theorem adoptProjectFor_eq (w : Workspace) (p : Path) :
    let asked := (w.projectFor (w.normalize p)).1
    ((w.adoptProjectFor p).1 = asked ∧
        ((w.adoptProjectFor p).2 = none ∨ w.isOpen (w.normalize p) = false)) ∨
      ∃ id, (w.adoptProjectFor p).2 = some id ∧
        (w.adoptProjectFor p).1 = asked.setOwner (w.normalize p) (some id) := by
  have hisOpen : (w.projectFor (w.normalize p)).1.isOpen = w.isOpen :=
    congrArg Registry.isOpen (registry_projectFor w (w.normalize p))
  unfold adoptProjectFor
  dsimp only
  generalize w.projectFor (w.normalize p) = answer at hisOpen ⊢
  obtain ⟨asked, id?⟩ := answer
  cases id? with
  | none => exact .inl ⟨rfl, .inl rfl⟩
  | some id =>
      dsimp only at hisOpen ⊢
      split
      · exact .inr ⟨id, rfl, rfl⟩
      · rename_i hclosed
        exact .inl ⟨rfl, .inr (hisOpen ▸ Bool.eq_false_iff.mpr hclosed)⟩

theorem told_projectFor (h : Told l unsaid w) (p : Path) : Told l unsaid (w.projectFor p).1 :=
  have hproceeds : Proceeds True unsaid w (w.projectFor p).1 := proceeds_projectFor w p
  told_proceeds trivial hproceeds h

/-- Who finds the project of a document that has it already has nothing to tell. -/
theorem told_adoptProjectFor (h : Told l (fun _ => False) w)
    (hsound : Sound t.settled w.registry [] [] []) (hrobs : ¬w.Robs (.adoptProjectFor p)) :
    Told l (fun _ => False) (w.adoptProjectFor p).1 := by
  have hasked := told_projectFor h (w.normalize p)
  have hregistry : (w.adoptProjectFor p).1.registry = (w.projectFor (w.normalize p)).1.registry :=
    (registry_adoptProjectFor hsound hrobs).trans (registry_projectFor ..).symm
  rcases adoptProjectFor_eq w p with ⟨heq, -⟩ | ⟨id, -, heq⟩
  · rw [heq]
    exact hasked
  · refine hasked.of_registry hregistry ?_ ?_
    · rw [heq, (beside_setOwner ..).outlook]
    · rw [heq, events_setOwner]

/-- The events that an operation takes out of the workspace. -/
def takes (w : Workspace) : Operation → List Event
  | .takeEvents => w.takeEvents.2
  | _ => []

/-- An operation that robs no project tells everything that it does. -/
theorem told_perform (h : Told l (fun _ => False) w) (hw : w.Enlisted)
    (hsound : Sound t.settled w.registry [] [] []) {op : Operation} (hrobs : ¬w.Robs op) :
    Told (l.read (w.takes op)) (fun _ => False) (w.perform op) := by
  have hproper : w.Proper True := ⟨hw, fun _ => tidy_of_sound hsound⟩
  cases op with
  | openFile p text? => exact told_openFile h hproper p text?
  | closeFile p =>
      show Told l (fun _ => False) (w.closeFile p).1
      rcases closeFile_cases w p with hsame | ⟨hopen, text, hclosed⟩
      · rwa [hsame]
      · rw [hclosed]
        exact told_close h hw hsound hopen text
  | adoptProjectFor p => exact told_adoptProjectFor h hsound hrobs
  | takeEvents => exact ⟨h.owned, h.closed, h.kinds⟩
  | replaceFiles fs => exact ⟨h.owned, h.closed, h.kinds⟩
  | _ => exact told_proceeds trivial (leads_perform trivial hproper) h

/-! ### Runs -/

/-- The events that the operations of a run take out of the workspace. -/
def taken (w : Workspace) : List Operation → List Event
  | [] => []
  | op :: ops => w.takes op ++ (w.perform op).taken ops

/-- All events of a run: those that were taken and those that wait. -/
def emitted (w : Workspace) (ops : List Operation) : List Event :=
  w.taken ops ++ (w.run ops).events

theorem taken_concat (w : Workspace) (ops : List Operation) (op : Operation) :
    w.taken (ops ++ [op]) = w.taken ops ++ (w.run ops).takes op := by
  induction ops generalizing w with
  | nil => simp [taken, run]
  | cons first ops ih =>
      show w.takes first ++ (w.perform first).taken (ops ++ [op]) = _
      rw [ih, ← List.append_assoc]
      rfl

/-- A ledger has the open documents with their projects and the live projects with their kinds, and nothing
else. -/
structure Faithful (l : Ledger) (w : Workspace) : Prop where
  documents : ∀ p owner?, l.documents.get? p = some owner? ↔ w.isOpen p ∧ w.owner? p = owner?
  projects : ∀ id kind, l.projects.get? id = some kind ↔
    ∃ project, w.projects.get? id = some project ∧ project.kind = kind

/-- Where every open document has a project the ledger knows them all. -/
theorem faithful_of_told (h : Told l (fun _ => False) w)
    (hsound : Sound t w.registry [] [] []) : Faithful (l.read w.events) w := by
  refine ⟨fun p owner? => ?_, fun id kind => ?_⟩
  · cases hopen : w.isOpen p with
    | false => simp [h.closed p hopen not_false]
    | true =>
        obtain ⟨id, howner⟩ := (accounts_of_sound hsound).open_owned p hopen
        simp [h.owned p id howner not_false, howner]
  · rw [h.kinds]
    simp [outlook, Project.post]

/-- A document that is given to another project without a word is wrong in the ledger. -/
theorem not_faithful_of_robs {op : Operation} (h : Told l (fun _ => False) w)
    (hsound : Sound t.settled w.registry [] [] []) (hrobs : w.Robs op) :
    ¬Faithful ((l.read (w.takes op)).read (w.perform op).events) (w.perform op) := by
  cases op with
  | adoptProjectFor p =>
      obtain ⟨former, id, howner, hanswer, hne⟩ := hrobs
      have hopen : w.isOpen (w.normalize p) := hsound.owned_open _ (by simp [howner])
      intro hfaithful
      change Faithful (l.read (w.adoptProjectFor p).1.events) (w.adoptProjectFor p).1 at hfaithful
      rcases adoptProjectFor_eq w p with ⟨-, hnone | hclosed⟩ | ⟨id', hanswer', heq⟩
      · simp [hanswer] at hnone
      · simp [hopen] at hclosed
      · obtain rfl : id = id' := Option.some.inj (hanswer.symm.trans hanswer')
        have hasked := told_projectFor h (w.normalize p)
        have hregistry := registry_projectFor w (w.normalize p)
        rw [heq, events_setOwner] at hfaithful
        generalize (w.projectFor (w.normalize p)).1 = asked at hasked hregistry hfaithful
        have howner' : asked.owner? (w.normalize p) = some former :=
          (congrFun (congrArg Registry.owner? hregistry) _).trans howner
        have hopen' : asked.isOpen (w.normalize p) :=
          (congrFun (congrArg Registry.isOpen hregistry) _).trans hopen
        have htold := hasked.owned _ former howner' not_false
        have hright := (hfaithful.documents (w.normalize p) (some id)).mpr
          ⟨by rw [isOpen_setOwner]; exact hopen',
            owner?_setOwner_self (isTracked_of_isOpen hopen') (some id)⟩
        exact hne (Option.some.inj (Option.some.inj (hright.symm.trans htold)))
  | _ => exact hrobs.elim

section

variable {scanner : Scanner} {fs : FileSystem}

theorem told_run (settings : Settings)
    (hrobs : ({ settings, scanner, fs } : Workspace).Avoids ops Robs) :
    let start : Workspace := { settings, scanner, fs }
    Told (({} : Ledger).read (start.taken ops)) (fun _ => False) (start.run ops) := by
  intro start
  induction ops using List.reverseRecOn with
  | nil =>
      have hfree (p : Path) : start.owner? p = none := rfl
      refine ⟨fun p id howner => ?_, fun _ _ _ => rfl, fun _ => rfl⟩
      exact absurd (howner.symm.trans (hfree p)) (by simp)
  | append_singleton ops op ih =>
      obtain ⟨hops, hop⟩ := avoids_concat.mp hrobs
      rw [run_concat, taken_concat, Ledger.read_append]
      exact told_perform (t := .owning scanner.normalizer) (ih hops) enlisted_run
        (sound_of_avoids_robs hops) hop

end

/-- Whoever reads all events knows the workspace, all along a run that robs no project, which none does with an
absolute base directory. A step that robs one is not told about. -/
theorem faithful_run (settings : Settings) (scanner : Scanner) (fs : FileSystem)
    (ops : List Operation) :
    let start : Workspace := { settings, scanner, fs }
    ((∀ done, done <+: ops → Faithful (({} : Ledger).read (start.emitted done)) (start.run done)) ↔
      start.Avoids ops Robs) ∧
    (scanner.normalizer.base.isAbsolute → start.Avoids ops Robs) := by
  intro start
  have hfaithful {done : List Operation} (hrobs : start.Avoids done Robs) :
      Faithful (({} : Ledger).read (start.emitted done)) (start.run done) := by
    rw [emitted, Ledger.read_append]
    exact faithful_of_told (told_run settings hrobs) (sound_of_avoids_robs hrobs)
  refine ⟨⟨fun h => ?_, fun hrobs done hdone => hfaithful (hrobs.of_prefix hdone)⟩,
    avoids_robs_of_isAbsolute⟩
  induction ops using List.reverseRecOn with
  | nil =>
      intro done op hdone
      simp at hdone
  | append_singleton ops op ih =>
      have hops := ih fun done hdone => h done (hdone.trans (List.prefix_append ..))
      refine avoids_concat.mpr ⟨hops, fun hrobs => ?_⟩
      refine not_faithful_of_robs (t := .owning scanner.normalizer) (told_run settings hops)
        (sound_of_avoids_robs hops) hrobs ?_
      have hlast := h (ops ++ [op]) (List.prefix_refl _)
      rwa [emitted, Ledger.read_append, taken_concat, Ledger.read_append, run_concat] at hlast

/-- With a relative base directory a root may be given the project of another one, and nobody is told. -/
example :
    let path (names : List String) : Path := ⟨names.map .name⟩
    let start : Workspace :=
      { settings := {}
        scanner := ⟨.empty, ⟨path ["w"], true⟩⟩
        fs := FileSystem.ofFiles [(path ["w", "a"], []), (path ["w", "w", "a"], [])] }
    let ops := [.openFile (path ["a"]) none, .openFile (path ["w", "a"]) none,
      .adoptProjectFor (path ["a"])]
    (({} : Ledger).read (start.emitted ops)).documents.get? (path ["w", "a"]) = some (some 1) ∧
      (start.run ops).owner? (path ["w", "a"]) = some 2 := by
  decide +kernel

end Workspace

end ProjectTracker
