import ProjectTracker.Proofs.Workspace.Lasting
/-!
Edits are made all or none. They are checked before any of them is made, with a length that is counted on
edit by edit; the document counts its own length, and checks each edit again when it is made. The two counts
agree, so that no edit fails that was found to fit, and a document that is edited in place is never left
with a part of the edits.
-/

namespace ProjectTracker

namespace Edit

/-- An edit is none of a text of some length. -/
def Misfits (e : Edit) (length : Nat) : Prop :=
  e.stop < e.start ∨ length < e.stop

variable {e : Edit} {edits : List Edit} {length : Nat}

theorem fits_change (h : ¬e.Misfits length) : e.change.Fits length := by
  have hsum : e.start + (e.stop - e.start) ≤ length := by
    rw [Misfits] at h
    omega
  exact hsum

theorem checkAll_cons_of_not_misfits (h : ¬e.Misfits length) :
    checkAll length (e :: edits) = checkAll (length - e.deleted + e.text.length) edits := by
  rw [Misfits, not_or] at h
  rw [checkAll, if_neg h.1, if_neg h.2]

theorem checkAll_cons_of_misfits (h : e.Misfits length) :
    ∃ failure, checkAll length (e :: edits) = .error failure := by
  rw [checkAll]
  split
  · exact ⟨_, rfl⟩
  · rename_i hordered
    rw [if_pos (h.resolve_left hordered)]
    exact ⟨_, rfl⟩

end Edit

namespace Document

/-- Makes edits one after the other until one fails, and keeps those that were made. -/
def editWhile (d : Document) : List Edit → Document × Option Failure
  | [] => (d, none)
  | e :: edits =>
    match d.edit e.change with
    | .error failure => (d, some failure)
    | .ok d => d.editWhile edits

variable {d : Document} {edits : List Edit}

/-- Edits that were found to fit are all made. -/
theorem IsDrafted.editAll_of_checkAll (h : d.IsDrafted)
    (hcheck : Edit.checkAll d.history.length edits = .ok ()) :
    ∃ d', d.editAll edits = .ok d' ∧ d.editWhile edits = (d', none) ∧
      d'.text = Change.applyAll (edits.map Edit.change) d.text := by
  induction edits generalizing d with
  | nil => exact ⟨d, rfl, rfl, rfl⟩
  | cons e edits ih =>
      have hfits : ¬e.Misfits d.history.length := fun hmisfits => by
        obtain ⟨failure, hfailure⟩ := Edit.checkAll_cons_of_misfits hmisfits
        rw [hfailure] at hcheck
        cases hcheck
      obtain ⟨d₁, hedit, hdrafted, htext, hlength⟩ := h.edit_of_fits (Edit.fits_change hfits)
      rw [Edit.checkAll_cons_of_not_misfits hfits] at hcheck
      obtain ⟨d', hall, hwhile, htext'⟩ := ih hdrafted (hlength ▸ hcheck)
      refine ⟨d', ?_, ?_, ?_⟩
      · rw [editAll, List.foldlM_cons, hedit]
        exact hall
      · rw [editWhile, hedit]
        exact hwhile
      · rw [htext', htext, List.map_cons]
        rfl

theorem lasting_isDrafted : Lasting fun _ d => d.IsDrafted where
  create p text limits capacity _ := isDrafted_create (.ofPath p) text limits capacity
  turns hturns h := by
    cases hturns with
    | fold => exact h.fold
    | edit hedit => exact h.edit hedit
    | reload text => exact isDrafted_reload _ text
    | fingerprinted => exact h.fingerprinted
    | setOpen => exact h
    | setOwner => exact h

end Document

namespace Workspace

variable {settings : Settings} {scanner : Scanner} {fs : FileSystem} {ops : List Operation}
  {w : Workspace} {p : Path}

theorem changeFile_eq_ok {d d' : Document} {edits : List Edit}
    (hd : w.documents.get? (w.normalize p) = some d) (hopen : d.isOpen)
    (hcheck : Edit.checkAll d.history.length edits = .ok ()) (hall : d.editAll edits = .ok d') :
    (w.changeFile p edits).2 = .ok d'.version := by
  simp [changeFile, hd, hopen, hcheck, hall, bind, Except.bind]

/-- Edits that are made are all made, in order, and nothing else is done to the text. -/
theorem changeFile_text (h : w.AllDocuments fun _ d => d.IsDrafted) {edits : List Edit} {version : Nat}
    (hmade : (w.changeFile p edits).2 = .ok version) :
    ∃ d d', w.documents.get? (w.normalize p) = some d ∧
      (w.changeFile p edits).1.documents.get? (w.normalize p) = some d' ∧ d'.version = version ∧
      d'.text = Change.applyAll (edits.map Edit.change) d.text := by
  rcases w.changeFile_result p edits with
    ⟨failure, hfailed⟩ | ⟨d, d', hd, hopen, hcheck, hall, hchanged⟩
  · rw [hfailed] at hmade
    cases hmade
  · obtain ⟨d₀, hall₀, -, htext⟩ := (h _ d hd).editAll_of_checkAll hcheck
    obtain rfl := Except.ok.inj (hall.symm.trans hall₀)
    rw [hchanged] at hmade ⊢
    refine ⟨d, d', hd, ?_, Except.ok.inj hmade, htext⟩
    show (w.modifyDocument (w.normalize p) fun _ => d').documents.get? (w.normalize p) = some d'
    rw [get?_modifyDocument, if_pos rfl, hd]
    rfl

end Workspace

end ProjectTracker
