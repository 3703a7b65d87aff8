import ProjectTracker.Proofs.Workspace.Dealings
import ProjectTracker.Proofs.Workspace.Pervading
/-!
Most of what a workspace does is not about its documents, and what it does to documents are few things. A
relation between workspaces that goes by the documents alone and holds across these holds across everything
that gives documents to projects and follows manifests. What remains are the operations that are about a
document themselves.
-/

namespace ProjectTracker.Workspace

/-- A relation that goes by the documents, and holds across what is done to them as they are given to
projects. -/
structure Handles (relation : Workspace → Workspace → Prop) : Prop where
  of_eq : ∀ {w w'}, w'.documents = w.documents → relation w w'
  trans : ∀ {w w' w''}, relation w w' → relation w' w'' → relation w w''
  fold : ∀ w p, relation w (w.fold p)
  track : ∀ {w p} text, w.isTracked p = false → relation w (w.track p text)
  setOwner : ∀ w p owner?, relation w (w.setOwner p owner?)

variable {relation : Workspace → Workspace → Prop} {w w' : Workspace} {p : Path}

theorem documents_foldl {α : Type} {step : Workspace → α → Workspace}
    (h : ∀ w x, (step w x).documents = w.documents) (xs : List α) (w : Workspace) :
    (xs.foldl step w).documents = w.documents := by
  induction xs generalizing w with
  | nil => rfl
  | cons x xs ih => exact (ih (step w x)).trans (h w x)

theorem documents_releaseWatch (w : Workspace) (id : WatchId) :
    (w.releaseWatch id).documents = w.documents := rfl

theorem documents_joinLookout (w : Workspace) (dir : Path) :
    (w.joinLookout dir).documents = w.documents := by
  unfold joinLookout
  split <;> rfl

theorem documents_leaveLookout (w : Workspace) (dir : Path) :
    (w.leaveLookout dir).documents = w.documents := by
  unfold leaveLookout
  split
  · rfl
  · split <;> rfl

namespace Handles

variable (h : Handles relation)

include h

theorem refl (w : Workspace) : relation w w :=
  h.of_eq rfl

theorem foldl {α : Type} {step : Workspace → α → Workspace} (hstep : ∀ w x, relation w (step w x))
    (xs : List α) (w : Workspace) : relation w (xs.foldl step w) := by
  induction xs generalizing w with
  | nil => exact h.refl w
  | cons x xs ih => exact h.trans (hstep w x) (ih _)

theorem emit (w : Workspace) (e : Event) : relation w (w.emit e) :=
  h.of_eq rfl

theorem modifyProject (w : Workspace) (id : ProjectId) (f : Project → Project) :
    relation w (w.modifyProject id f) :=
  h.of_eq rfl

theorem modifyOpenFiles (w : Workspace) (f : OpenFiles → OpenFiles) :
    relation w (w.modifyOpenFiles f) :=
  h.of_eq rfl

theorem markStaleAround (w : Workspace) (p : Path) : relation w (w.markStaleAround p) :=
  h.of_eq rfl

theorem textChanged (w : Workspace) : relation w w.textChanged :=
  h.of_eq rfl

theorem cancel (w : Workspace) (topic : Topic) : relation w (w.cancel topic) :=
  h.of_eq rfl

theorem schedule (w : Workspace) (task : Task) (delay : Nat) : relation w (w.schedule task delay) :=
  h.of_eq rfl

theorem detach (w : Workspace) (p : Path) : relation w (w.detach p) :=
  h.trans (h.modifyOpenFiles ..) (h.setOwner ..)

theorem load (w : Workspace) (p : Path) : relation w (w.load p) := by
  unfold Workspace.load
  split
  · exact h.refl w
  · rename_i huntracked
    split
    · exact h.refl w
    · exact h.track _ (Bool.eq_false_iff.mpr huntracked)

theorem refreshProject (w : Workspace) (id : ProjectId) : relation w (w.refreshProject id) := by
  unfold Workspace.refreshProject
  split
  · exact h.refl w
  · rename_i project _
    dsimp only
    generalize w.scanner.fileSet w.sources project.roots = files
    exact h.trans (h.trans (h.modifyProject ..) (h.foldl h.fold ..)) (h.foldl h.load ..)

theorem removeProject (w : Workspace) (id : ProjectId) : relation w (w.removeProject id).1 := by
  unfold Workspace.removeProject
  split
  · exact h.refl w
  · rename_i project _
    dsimp only
    have hleft : (project.lookouts.foldl leaveLookout (project.watches.foldl releaseWatch w)).documents =
        w.documents :=
      (documents_foldl documents_leaveLookout ..).trans (documents_foldl documents_releaseWatch ..)
    generalize project.lookouts.foldl leaveLookout _ = left at hleft ⊢
    have herased : relation w ({ left with
        projects := left.projects.erase id
        inferred := left.inferred.filter (· ≠ id)
        configured := left.configured.filter (· ≠ id) }.cancel (.project id)) :=
      h.of_eq hleft
    exact h.trans herased (h.trans (h.foldl h.detach _ _) (h.emit ..))

theorem createInferred (w : Workspace) (root : Path) : relation w (w.createInferred root).1 := by
  unfold Workspace.createInferred
  dsimp only
  have hjoined : (root.ancestors.foldl joinLookout { w with lastProject := w.lastProject + 1 }).documents =
      w.documents :=
    documents_foldl documents_joinLookout ..
  generalize List.foldl joinLookout _ _ = joined at hjoined ⊢
  have hentered (project : Project) : relation w { joined with
      projects := joined.projects.insert (w.lastProject + 1) project
      inferred := joined.inferred ++ [w.lastProject + 1] } :=
    h.of_eq hjoined
  exact h.trans (h.trans (hentered _) (h.refreshProject ..)) (h.emit ..)

theorem createConfigured (w : Workspace) (manifest : Path) (outcome : Manifest.Outcome) :
    relation w (w.createConfigured manifest outcome) := by
  unfold Workspace.createConfigured
  split
  · dsimp only
    have hnumbered : relation w { w with lastProject := w.lastProject + 1 } := h.of_eq rfl
    have hloaded := h.trans hnumbered (h.foldl h.load outcome.roots _)
    generalize outcome.roots.foldl Workspace.load _ = loaded at hloaded ⊢
    refine h.trans ?_ (h.emit ..)
    refine h.trans ?_ (h.refreshProject ..)
    refine h.trans hloaded (h.of_eq ?_)
    cases manifest.parent? <;> rfl
  · exact h.refl w

theorem assigns : Assigns relation where
  refl := h.refl
  trans := h.trans
  emit := h.emit
  modifyOpenFiles := h.modifyOpenFiles
  setOwner := h.setOwner
  refreshProject := h.refreshProject
  removeProject := h.removeProject
  createInferred := h.createInferred

theorem query {α : Type} (w : Workspace) (p : Path) (ask : Snapshot → Except Failure α) :
    relation w (w.query p ask).1 := by
  unfold Workspace.query
  dsimp only
  split
  · exact h.refl w
  · exact h.fold ..

theorem projectFor (w : Workspace) (p : Path) : relation w (w.projectFor p).1 := by
  unfold Workspace.projectFor
  dsimp only
  split
  · split
    · exact h.refl w
    · exact h.assigns.refresh w
  · exact h.refl w

theorem adoptProjectFor (w : Workspace) (p : Path) : relation w (w.adoptProjectFor p).1 := by
  have hasked : relation w (w.projectFor (w.normalize p)).1 := h.projectFor ..
  unfold Workspace.adoptProjectFor
  dsimp only
  generalize w.projectFor (w.normalize p) = answer at hasked ⊢
  obtain ⟨asked, id?⟩ := answer
  cases id? with
  | none => exact hasked
  | some id =>
      dsimp only
      split
      · exact h.trans hasked (h.setOwner ..)
      · exact hasked

/-- Edits of the document, whenever they are made, are all that is to be looked at. -/
theorem changeFile (edits : List Edit)
    (hedit : ∀ d d', w.documents.get? (w.normalize p) = some d → d.editAll edits = .ok d' →
      relation w (w.modifyDocument (w.normalize p) fun _ => d')) :
    relation w (w.changeFile p edits).1 := by
  rcases w.changeFile_result p edits with ⟨failure, hfailed⟩ | ⟨d, d', hd, -, -, hedited, hchanged⟩
  · rw [hfailed]
    exact h.refl w
  · rw [hchanged]
    exact h.trans (hedit d d' hd hedited) (h.trans (h.schedule ..)
      (h.trans (h.textChanged _) (h.trans (h.markStaleAround ..) (h.emit ..))))

theorem changeRange (range : PositionRange) (text : Text)
    (hedit : ∀ v d d' edits, v.documents.get? (w.normalize p) = some d → d.editAll edits = .ok d' →
      relation v (v.modifyDocument (w.normalize p) fun _ => d')) :
    relation w (w.changeRange p range text).1 := by
  have hasked : relation w (w.snapshot p).1 := h.query ..
  have hsame : (w.snapshot p).1.normalize p = w.normalize p :=
    congrArg (fun r : Registry => r.normalizer.normalize p) (registry_snapshot w p)
  unfold Workspace.changeRange
  split
  · rename_i heq
    rwa [heq] at hasked
  · rename_i heq
    rw [heq] at hasked hsame
    refine h.trans hasked (h.changeFile _ ?_)
    rw [hsame]
    exact fun d d' => hedit _ d d' _

/-- A document that is received is another one, or it is given a text. -/
theorem receive {text? : Option Text} {received : Workspace}
    (hgiven : ∀ d text, text? = some text → w.documents.get? p = some d →
      relation w (w.modifyDocument p fun _ => (d.reloadIfChanged text).1))
    (hreceive : w.receive p text? = .ok received) : relation w received := by
  have htrack (text : Text) (hd : w.documents.get? p = none) : relation w (w.track p text) :=
    h.track text (by simp [isTracked_eq, hd])
  unfold Workspace.receive at hreceive
  split at hreceive
  · rename_i d text hd
    have hread := hgiven d text rfl hd
    generalize d.reloadIfChanged text = reloaded at hreceive hread
    obtain ⟨d', changed⟩ := reloaded
    obtain rfl := Except.ok.inj hreceive
    cases changed with
    | false => exact hread
    | true => exact h.trans hread (h.markStaleAround ..)
  · obtain rfl := Except.ok.inj hreceive
    exact h.refl w
  · rename_i text hd
    obtain rfl := Except.ok.inj hreceive
    exact htrack text hd
  · rename_i hd
    split at hreceive
    · obtain rfl := Except.ok.inj hreceive
      exact htrack _ hd
    · simp at hreceive
    · simp at hreceive

end Handles

/-- What is swept out is closed. -/
theorem sweep_of_forget (hrefl : ∀ w, relation w w)
    (htrans : ∀ {w w' w''}, relation w w' → relation w' w'' → relation w w'')
    (hforget : ∀ {w p}, w.isOpen p = false → relation w (w.forget p)) (w : Workspace) :
    relation w w.sweep := by
  unfold sweep
  dsimp only
  have hclosed : ∀ p ∈ w.documents.paths.filter fun p =>
      !w.isOpen p && !w.projects.values.any (·.contains p), w.isOpen p = false := by
    intro p hp
    simpa using (Bool.and_eq_true_iff.mp (List.mem_filter.mp hp).2).1
  generalize w.documents.paths.filter _ = orphans at hclosed
  induction orphans generalizing w with
  | nil => exact hrefl w
  | cons p orphans ih =>
      have hp : w.isOpen p = false := hclosed p (by simp)
      refine htrans (hforget hp) (ih (w.forget p) fun q hq => ?_)
      rw [isOpen_forget hp]
      exact hclosed q (List.mem_cons_of_mem _ hq)

/-- A relation that goes by the documents, and holds across forgetting closed ones, too. -/
structure Oversees (relation : Workspace → Workspace → Prop) : Prop extends Handles relation where
  forget : ∀ {w p}, w.isOpen p = false → relation w (w.forget p)

namespace Oversees

variable (h : Oversees relation)

include h

theorem sweep (w : Workspace) : relation w w.sweep :=
  sweep_of_forget h.refl h.trans h.forget w

theorem governs : Governs relation where
  toAssigns := h.assigns
  sweep := h.sweep
  fold := h.fold
  load := h.load
  modifyProject := h.modifyProject
  createConfigured := h.createConfigured

/-- A document whose file is gone is forgotten if it is closed, and loses its watch if it is open. -/
theorem documentDeleted (hunwatch : w.isOpen p → relation w (w.unwatch p)) :
    relation w (w.documentDeleted p) := by
  unfold Workspace.documentDeleted
  cases hopen : w.isOpen p with
  | true =>
      dsimp only
      rw [if_pos rfl]
      exact h.trans (hunwatch hopen) (h.emit ..)
  | false =>
      dsimp only
      rw [if_neg Bool.false_ne_true]
      have hdrop (w : Workspace) (id : ProjectId) : relation w
          (w.modifyProject id fun project => (project.removeRoot p).markStale) :=
        h.modifyProject ..
      have hdropped := h.trans (h.forget hopen)
        (h.foldl hdrop (w.projects.keys.filter fun id => w.projectHas id (·.contains p)) _)
      generalize List.foldl _ (w.forget p) _ = dropped at hdropped ⊢
      exact h.trans (h.trans hdropped (h.governs.refresh _))
        (h.trans (h.foldl (fun w q => h.emit ..) _ _) (h.governs.settle _))

theorem documentChanged (change : FileChange)
    (hunwatch : change = .deleted → w.isOpen p → relation w (w.unwatch p))
    (hread : w.isOpen p = false → ∀ d text, w.documents.get? p = some d →
      relation w (w.modifyDocument p fun _ => (d.reloadIfChanged text).1)) :
    relation w (w.documentChanged p change) := by
  unfold Workspace.documentChanged
  split
  · rename_i hdeleted
    exact h.documentDeleted (hunwatch hdeleted)
  · split
    · exact h.refl w
    · rename_i hclosed
      split
      · exact h.documentDeleted fun hopen => absurd hopen hclosed
      · rename_i text _
        split
        · exact h.refl w
        · rename_i d hd
          have hreread := hread (Bool.eq_false_iff.mpr hclosed) d text hd
          dsimp only
          split
          · exact h.trans hreread (h.trans (h.markStaleAround ..) (h.textChanged _))
          · exact hreread

theorem advance (w : Workspace) (duration : Nat) : relation w (w.advance duration) :=
  advance_keeps (relation w) (fun _ _ _ hw => h.trans hw (h.of_eq rfl))
    (fun v task hw => h.trans hw (h.governs.runTask v task)) (h.refl w) duration

theorem flush (w : Workspace) : relation w w.flush :=
  flush_keeps (relation w) (fun v duration hw => h.trans hw (h.advance v duration)) (h.refl w)

theorem openFile {text? : Option Text}
    (hgiven : ∀ d text, text? = some text → w.documents.get? (w.normalize p) = some d →
      relation w (w.modifyDocument (w.normalize p) fun _ => (d.reloadIfChanged text).1))
    (hopen : ∀ v : Workspace,
      relation v (v.modifyDocument (w.normalize p) fun d => { d with isOpen := true })) :
    relation w (w.openFile p text?).1 := by
  rcases openFile_cases w p text? with hsame | ⟨received, hreceive, hopened⟩
  · rw [hsame]
    exact h.refl w
  · have hreceived := h.receive hgiven hreceive
    rcases hopened with ⟨-, hopened⟩ | ⟨opened, lodged, hclosed, rfl, rfl, hopened⟩
    · rw [hopened]
      exact h.trans hreceived (h.emit ..)
    · rw [hopened]
      refine h.trans (h.trans hreceived (hopen received)) ?_
      unfold lodge
      exact h.trans (h.trans (h.governs.consultManifest ..) (h.governs.attach ..))
        (h.trans (h.governs.prune _) (h.trans (h.sweep _) (h.emit ..)))

theorem closeFile
    (hshut : ∀ text, w.isOpen (w.normalize p) → relation w (w.shut (w.normalize p) text)) :
    relation w (w.closeFile p).1 := by
  rcases closeFile_cases w p with hsame | ⟨hopen, text, hclosed⟩
  · rw [hsame]
    exact h.refl w
  · obtain ⟨left, owner?, hleft, heq⟩ := close_cases w (w.normalize p) text
    rw [hclosed, heq]
    have hleft : relation w left := by
      rcases hleft with rfl | ⟨id, rfl⟩
      · exact hshut text hopen
      · exact h.trans (hshut text hopen) (h.governs.dissolve ..)
    exact h.trans (h.trans hleft (h.trans (h.cancel ..) (h.emit ..))) (h.governs.settle _)

end Oversees

/-! ### Open documents -/

theorem oversees_isOpen : Oversees fun w w' => w'.isOpen = w.isOpen where
  of_eq heq := by
    unfold isOpen
    rw [heq]
  trans h h' := h'.trans h
  fold w p := congrArg Registry.isOpen (registry_fold w p)
  track text h := congrArg Registry.isOpen (registry_track h text)
  setOwner := isOpen_setOwner
  forget := isOpen_forget

/-- Which documents are open is not changed by a file. -/
theorem isOpen_documentChanged (w : Workspace) (p : Path) (change : FileChange) :
    (w.documentChanged p change).isOpen = w.isOpen :=
  oversees_isOpen.documentChanged change
    (fun _ _ => congrArg Registry.isOpen (registry_unwatch w p))
    fun _ d text hd => congrArg Registry.isOpen
      (registry_modify_retexted hd (d.retexts_reloadIfChanged text))

theorem Oversees.respond (h : Oversees relation) (p : Path) (change : FileChange)
    {purpose : WatchPurpose}
    (hdocument : ∀ q, purpose = .document q → relation w (w.documentChanged q change)) :
    relation w (Workspace.respond p change w purpose) :=
  respond_keeps (relation w) p change (fun q hq _ => hdocument q hq)
    (fun v id trigger? hv => h.trans hv
      (h.trans (h.governs.updateConfigured v id trigger?) (h.governs.settle _)))
    (fun _ _ _ _ hv => h.trans hv (h.schedule ..))
    (fun v manifest hv => h.trans hv (h.governs.discoverManifest v manifest)) (h.refl w)

theorem isOpen_respond (w : Workspace) (p : Path) (change : FileChange) (purpose : WatchPurpose) :
    (respond p change w purpose).isOpen = w.isOpen :=
  oversees_isOpen.respond p change fun q _ => isOpen_documentChanged w q change

theorem isOpen_foldl_respond (p : Path) (change : FileChange) (purposes : List WatchPurpose) :
    (purposes.foldl (respond p change) w).isOpen = w.isOpen :=
  oversees_isOpen.foldl (fun w purpose => isOpen_respond w p change purpose) purposes w

theorem Oversees.foldl_respond (h : Oversees relation) (p : Path) (change : FileChange)
    {purposes : List WatchPurpose}
    (hdocument : ∀ v q, .document q ∈ purposes → v.isOpen = w.isOpen →
      relation v (v.documentChanged q change)) :
    relation w (purposes.foldl (Workspace.respond p change) w) := by
  induction purposes generalizing w with
  | nil => exact h.refl w
  | cons purpose purposes ih =>
      have hfirst := h.respond (w := w) p change fun q hq =>
        hdocument w q (hq ▸ List.mem_cons_self) rfl
      refine h.trans hfirst (ih fun v q hq hv => hdocument v q (List.mem_cons_of_mem _ hq) ?_)
      rw [hv, isOpen_respond]

/-! ### Operations -/

/-- A relation holds across what an operation does to the documents that it is about. -/
def Touches (relation : Workspace → Workspace → Prop) (w : Workspace) : Operation → Prop
  | .openFile p text? =>
      (∀ d text, text? = some text → w.documents.get? (w.normalize p) = some d →
        relation w (w.modifyDocument (w.normalize p) fun _ => (d.reloadIfChanged text).1)) ∧
      ∀ v : Workspace, relation v (v.modifyDocument (w.normalize p) fun d => { d with isOpen := true })
  | .closeFile p => ∀ text, w.isOpen (w.normalize p) → relation w (w.shut (w.normalize p) text)
  | .changeFile p _ | .changeRange p _ _ => ∀ (v : Workspace) d d' edits,
      v.documents.get? (w.normalize p) = some d → d.editAll edits = .ok d' →
        relation v (v.modifyDocument (w.normalize p) fun _ => d')
  | .fileChanged p change => ∀ (v : Workspace) q,
      .document q ∈ w.purposesAt (w.normalize p) → v.isOpen = w.isOpen →
        relation v (v.documentChanged q change)
  | _ => True

theorem Oversees.perform (h : Oversees relation) {op : Operation} (hop : Touches relation w op) :
    relation w (w.perform op) := by
  cases op with
  | openFile p text? => exact h.openFile hop.1 hop.2
  | closeFile p => exact h.closeFile hop
  | changeFile p edits => exact h.changeFile edits fun d d' => hop w d d' edits
  | changeRange p range text => exact h.changeRange range text hop
  | snapshot p => exact h.query ..
  | getText p start length => exact h.query ..
  | getTextRange p range => exact h.query ..
  | positionAt p offset => exact h.query ..
  | offsetAt p position => exact h.query ..
  | projectFor p => exact h.projectFor w p
  | adoptProjectFor p => exact h.adoptProjectFor w p
  | takeEvents => exact h.of_eq rfl
  | fileChanged p change => exact h.foldl_respond _ change hop
  | advance duration => exact h.advance w duration
  | flush => exact h.flush w
  | reload => exact h.governs.reload w
  | settle => exact h.governs.settle w
  | replaceFiles fs => exact h.of_eq rfl

end ProjectTracker.Workspace
