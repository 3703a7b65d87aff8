import ProjectTracker.Proofs.Workspace.Coherence
import ProjectTracker.Proofs.Workspace.Handling
import ProjectTracker.Proofs.Workspace.Settlement
/-!
The editor owns the texts of open documents. Whatever happens in a workspace, an open document stays tracked
and open with its text, edits that wait included, unless the operation is addressed to it: documents are
loaded, forgotten and read again in many places, and each of them spares those that are open.
-/

namespace ProjectTracker

namespace Document

/-- A document is still open, has the same text, and its version is no earlier one. -/
structure Endures (d d' : Document) : Prop where
  isOpen : d'.isOpen = d.isOpen
  text : d'.text = d.text
  version_le : d.version ≤ d'.version

theorem Endures.refl (d : Document) : d.Endures d :=
  ⟨rfl, rfl, Nat.le_refl _⟩

theorem Endures.trans {d d' d'' : Document} (h : d.Endures d') (h' : d'.Endures d'') :
    d.Endures d'' :=
  ⟨h'.isOpen.trans h.isOpen, h'.text.trans h.text, Nat.le_trans h.version_le h'.version_le⟩

/-- Waiting edits become a version, and count as part of the text before and after. -/
theorem endures_fold (d : Document) : d.Endures d.fold where
  isOpen := rfl
  text := d.text_fold
  version_le := by
    show d.history.version ≤ d.history.fold.version
    unfold History.fold
    split
    · exact Nat.le_refl _
    · exact Nat.le_succ _

end Document

namespace Workspace

/-- A document at a path is left alone if it is open. -/
structure Spares (p : Path) (w w' : Workspace) : Prop where
  endures : ∀ d, w.documents.get? p = some d → d.isOpen →
    ∃ d', w'.documents.get? p = some d' ∧ d.Endures d'

variable {w w' w'' : Workspace} {p q : Path} {id : ProjectId}

theorem Spares.of_get? (h : w'.documents.get? p = w.documents.get? p) : Spares p w w' :=
  ⟨fun d hd _ => ⟨d, h.trans hd, .refl d⟩⟩

theorem Spares.refl (w : Workspace) : Spares p w w :=
  .of_get? rfl

theorem Spares.trans (h : Spares p w w') (h' : Spares p w' w'') : Spares p w w'' := by
  refine ⟨fun d hd hopen => ?_⟩
  obtain ⟨d', hd', hendures⟩ := h.endures d hd hopen
  obtain ⟨d'', hd'', hendures'⟩ := h'.endures d' hd' (hendures.isOpen.trans hopen)
  exact ⟨d'', hd'', hendures.trans hendures'⟩

/-- What an open document has to fear is only a step that is about itself. -/
theorem Spares.of_open (h : w.isOpen p → Spares p w w') : Spares p w w' := by
  refine ⟨fun d hd hopen => ?_⟩
  have hp : w.isOpen p := by
    rw [isOpen, hd]
    exact hopen
  exact (h hp).endures d hd hopen

/-! ### Documents -/

theorem spares_modifyDocument {f : Document → Document}
    (h : q = p → ∀ d, w.documents.get? p = some d → d.isOpen → d.Endures (f d)) :
    Spares p w (w.modifyDocument q f) := by
  refine ⟨fun d hd hopen => ?_⟩
  rw [get?_modifyDocument]
  split
  · rename_i hq
    exact ⟨f d, by rw [hd]; rfl, h hq d hd hopen⟩
  · exact ⟨d, hd, .refl d⟩

theorem spares_fold (w : Workspace) (q : Path) : Spares p w (w.fold q) :=
  spares_modifyDocument fun _ d _ _ => d.endures_fold

theorem spares_releaseWatch (w : Workspace) (id : WatchId) : Spares p w (w.releaseWatch id) :=
  .of_get? rfl

theorem spares_unwatch (w : Workspace) (q : Path) : Spares p w (w.unwatch q) := by
  unfold unwatch
  split
  · exact .refl w
  · rename_i id _
    have hmodified : Spares p w (w.modifyDocument q fun d => { d with watch? := none }) :=
      spares_modifyDocument fun _ d _ _ => ⟨rfl, rfl, Nat.le_refl _⟩
    exact hmodified.trans (spares_releaseWatch ..)

theorem spares_setOwner (w : Workspace) (q : Path) (owner? : Option ProjectId) :
    Spares p w (w.setOwner q owner?) := by
  refine ⟨fun d hd _ => ?_⟩
  rw [get?_setOwner, hd]
  split
  · exact ⟨_, rfl, rfl, rfl, Nat.le_refl _⟩
  · exact ⟨d, rfl, .refl d⟩

/-- Only files that are not tracked come to be tracked. -/
theorem spares_track (h : w.isTracked q = false) (text : Text) : Spares p w (w.track q text) := by
  refine .of_open fun hopen => .of_get? (w.get?_track ?_ text)
  rintro rfl
  simp [isTracked_of_isOpen hopen] at h

theorem spares_forget (h : w.isOpen q = false) : Spares p w (w.forget q) := by
  refine .of_open fun hopen => ⟨fun d hd hd' => ?_⟩
  rw [get?_forget, if_neg]
  · exact (spares_unwatch w q).endures d hd hd'
  · rintro rfl
    simp [hopen] at h

theorem oversees_spares : Oversees (Spares p) where
  of_eq h := .of_get? (congrArg (·.get? p) h)
  trans := .trans
  fold := spares_fold
  track text h := spares_track h text
  setOwner := spares_setOwner
  forget := spares_forget

/-- A document is read again only if it is closed. -/
theorem spares_documentChanged (w : Workspace) (q : Path) (change : FileChange) :
    Spares p w (w.documentChanged q change) := by
  refine oversees_spares.documentChanged change (fun _ _ => spares_unwatch w q) fun hclosed d text hd => ?_
  refine spares_modifyDocument fun hq d' hd' hopen => ?_
  subst q
  rw [isOpen, hd', Option.any_some] at hclosed
  exact absurd hopen (Bool.eq_false_iff.mp hclosed)

theorem spares_shut (h : q ≠ p) (w : Workspace) (text : Text) : Spares p w (w.shut q text) := by
  have hmodified (w : Workspace) (f : Document → Document) : Spares p w (w.modifyDocument q f) :=
    spares_modifyDocument fun hq => absurd hq h
  unfold shut
  exact (((hmodified w _).trans (oversees_spares.markStaleAround ..)).trans
    ((oversees_spares.modifyOpenFiles ..).trans (spares_setOwner ..))).trans (hmodified ..)

/-! ### Operations and runs -/

/-- The path of the document whose text an operation gives or closes. A question is addressed to nothing, and
so is the request to open a file as it is. -/
def Operation.addressee? : Operation → Option Path
  | .openFile q (some _) => some q
  | .closeFile q => some q
  | .changeFile q _ => some q
  | .changeRange q _ _ => some q
  | _ => none

/-- An operation is addressed to the document at a path. -/
def Addresses (p : Path) (w : Workspace) (op : Operation) : Prop :=
  op.addressee?.map w.normalize = some p

instance (p : Path) (w : Workspace) (op : Operation) : Decidable (Addresses p w op) :=
  inferInstanceAs (Decidable (_ = _))

/-- What an operation does to the documents that it is about is nothing to the others. -/
theorem touches_spares {op : Operation} (h : ¬Addresses p w op) : Touches (Spares p) w op := by
  have hother {q : Path} (hq : op.addressee? = some q) : w.normalize q ≠ p := by
    rintro rfl
    exact h (by rw [Addresses, hq]; rfl)
  have hmodified {q : Path} (hq : op.addressee? = some q) (v : Workspace) (f : Document → Document) :
      Spares p v (v.modifyDocument (w.normalize q) f) :=
    spares_modifyDocument fun heq => absurd heq (hother hq)
  cases op with
  | openFile q text? =>
      refine ⟨fun d text htext _ => ?_, fun v => ?_⟩
      · subst htext
        exact hmodified rfl w _
      · exact spares_modifyDocument fun _ d _ hd => ⟨hd.symm, rfl, Nat.le_refl _⟩
  | closeFile q => exact fun text _ => spares_shut (hother rfl) w text
  | changeFile q edits => exact fun v d d' _ _ _ => hmodified rfl v _
  | changeRange q range text => exact fun v d d' _ _ _ => hmodified rfl v _
  | fileChanged q change => exact fun v r _ _ => spares_documentChanged v r change
  | _ => trivial

theorem spares_perform {op : Operation} (h : ¬Addresses p w op) : Spares p w (w.perform op) :=
  oversees_spares.perform (touches_spares h)

theorem spares_run {ops : List Operation} (h : w.Avoids ops (Addresses p)) :
    Spares p w (w.run ops) := by
  induction ops using List.reverseRecOn with
  | nil => exact .refl w
  | append_singleton ops op ih =>
      obtain ⟨hdone, hop⟩ := avoids_concat.mp h
      rw [run_concat]
      exact (ih hdone).trans (spares_perform hop)

/-- Only what is addressed to an open document closes it, changes its text or takes its version back. Nothing
else that is asked of a workspace or that happens to files does, even if the file of the document itself is
changed or deleted. -/
theorem buffer_kept_run {w : Workspace} {p : Path} {ops : List Operation} {d : Document}
    (hd : w.documents.get? p = some d) (hopen : d.isOpen) (h : w.Avoids ops (Addresses p)) :
    ∃ d', (w.run ops).documents.get? p = some d' ∧ d'.isOpen ∧ d'.text = d.text ∧
      d.version ≤ d'.version := by
  obtain ⟨d', hd', hendures⟩ := (spares_run h).endures d hd hopen
  exact ⟨d', hd', hendures.isOpen.trans hopen, hendures.text, hendures.version_le⟩

/-- A workspace in which a file is open and an edit of it waits, while another open file refers to it. -/
def edited : Workspace :=
  let path (name : String) : Path := ⟨[.root, .name name]⟩
  let fs := FileSystem.ofFiles [(path "a", "@b".toList), (path "b", "old".toList)]
  ({ settings := {}, scanner := signScanner, fs } : Workspace).run
    [.openFile (path "b") none, .openFile (path "a") none, .changeFile (path "b") [⟨0, 3, "new".toList⟩]]

/-- The edited file is deleted, what refers to it is closed, and everything that waits is done. -/
def bereaving : List Operation :=
  let path (name : String) : Path := ⟨[.root, .name name]⟩
  [.replaceFiles (edited.fs.remove (.ofPath (path "b"))), .fileChanged (path "b") .deleted,
    .closeFile (path "a"), .openFile (path "b") none, .flush, .reload, .settle]

theorem buffer_kept_run_bereaving :
    let b : Path := ⟨[.root, .name "b"]⟩
    edited.Avoids bereaving (Addresses b) ∧ (edited.run bereaving).fs.text? b = none ∧
      ∃ d d', edited.documents.get? b = some d ∧ d.text = "new".toList ∧ d.isOpen ∧
        (edited.run bereaving).documents.get? b = some d' ∧ d'.isOpen ∧ d'.text = d.text ∧
          d.version ≤ d'.version := by
  intro b
  have havoids : edited.Avoids bereaving (Addresses b) := by decide +kernel
  have hedited : (edited.documents.get? b).any fun d => d.text = "new".toList ∧ d.isOpen := by
    decide +kernel
  obtain ⟨d, hd, hd'⟩ := Option.any_eq_true .. |>.mp hedited
  obtain ⟨htext, hopen⟩ := of_decide_eq_true hd'
  obtain ⟨d', hkept⟩ := buffer_kept_run hd hopen havoids
  exact ⟨havoids, by decide +kernel, d, d', hd, htext, hopen, hkept⟩

end Workspace

end ProjectTracker
