import ProjectTracker.Proofs.Document.Versions

/-!
Nobody sees that edits wait. A history answers every call as the text alone
would: the text that was loaded last, with the edits since then made in it one
after the other, each as soon as it comes. When waiting edits become a version,
how many versions are kept and how the lines of a text are arranged makes no
difference to the answers.
-/

namespace ProjectTracker

/-- Whether a change stays within a text of some length. -/
def Change.Fits (c : Change) (length : Nat) : Prop :=
  c.start + c.deleted ≤ length
  deriving Decidable

/-- The bounds as they are checked, without a sum that could be too large. -/
theorem Change.not_fits_iff {c : Change} {length : Nat} :
    ¬c.Fits length ↔ length < c.start ∨ length - c.start < c.deleted := by
  rw [Fits]
  omega

theorem Change.Fits.length_apply {c : Change} {text : Text} (h : c.Fits text.length) :
    (c.apply text).length = text.length - c.deleted + c.inserted.length := by
  rw [Fits] at h
  simp only [apply, List.length_append, List.length_take, List.length_drop]
  omega

namespace History

/-- What a caller gets for an operation. -/
inductive Answer where
  | done
  | refused (failure : Failure)
  /-- the text of the current version -/
  | shown (text : Text)
  deriving DecidableEq, Repr

def answer (h : History) : Operation → Answer
  | .edit c =>
      match h.edit c with
      | .ok _ => .done
      | .error failure => .refused failure
  | .fold => .shown h.fold.latest.tree.text
  | .reload _ => .done

/-- What a caller gets for one operation after the other, each time with the
length of the text after it. -/
def answers (h : History) : List Operation → List (Answer × Nat)
  | [] => []
  | op :: ops => (h.answer op, (h.perform op).length) :: (h.perform op).answers ops

end History

/-- A text as it was loaded, with the edits that were accepted since then. -/
structure Draft where
  loaded : Text
  changes : List Change
  deriving DecidableEq, Repr

namespace Draft

open History

def ofText (text : Text) : Draft :=
  { loaded := text, changes := [] }

def text (d : Draft) : Text :=
  Change.applyAll d.changes d.loaded

def perform (d : Draft) : Operation → Draft
  | .edit c => if c.Fits d.text.length then { d with changes := d.changes ++ [c] } else d
  | .fold => d
  | .reload text => ofText text

def run (d : Draft) (ops : List Operation) : Draft :=
  ops.foldl perform d

def answer (d : Draft) : Operation → Answer
  | .edit c =>
      if c.Fits d.text.length then .done
      else .refused (.editOutOfRange c.start c.deleted d.text.length)
  | .fold => .shown d.text
  | .reload _ => .done

def answers (d : Draft) : List Operation → List (Answer × Nat)
  | [] => []
  | op :: ops => (d.answer op, (d.perform op).text.length) :: (d.perform op).answers ops

end Draft

namespace History

/-- A history and a draft of one text. The length is counted apart from the
text, so it has to be said that the count is right. -/
structure Tracks (h : History) (d : Draft) : Prop where
  text : h.text = d.text
  length : h.length = d.text.length
  balanced : h.latest.tree.Balanced

section

variable {h : History} {d : Draft}

theorem tracks_ofText (text : Text) (limits : HistoryLimits) (capacity : Nat) :
    (ofText text limits capacity).Tracks (.ofText text) :=
  ⟨LineTree.text_ofText .., rfl, LineTree.balanced_ofText ..⟩

theorem tracks_reload (h : History) (text : Text) : (h.reload text).Tracks (.ofText text) :=
  ⟨LineTree.text_ofText .., rfl, LineTree.balanced_ofText ..⟩

theorem text_latest_fold (h : History) : h.fold.latest.tree.text = h.text := by
  rw [fold]
  split
  · rename_i hpending
    rw [text, currentTree, hpending]
    rfl
  · rfl

theorem Tracks.fold (hd : h.Tracks d) : h.fold.Tracks d := by
  rw [History.fold]
  split
  · exact hd
  · exact ⟨hd.text, hd.length, hd.balanced.editAll _⟩

/-- An edit is refused for the length that is counted, and this is the length
of the text. -/
theorem Tracks.edit_of_not_fits (hd : h.Tracks d) {c : Change} (hc : ¬c.Fits d.text.length) :
    h.edit c = .error (.editOutOfRange c.start c.deleted d.text.length) := by
  rw [Change.not_fits_iff, ← hd.length] at hc
  rw [History.edit, if_pos hc, hd.length]

theorem Tracks.edit_of_fits (hd : h.Tracks d) {c : Change} (hc : c.Fits d.text.length) :
    ∃ h', h.edit c = .ok h' ∧ h'.Tracks { d with changes := d.changes ++ [c] } := by
  have htext : Draft.text { d with changes := d.changes ++ [c] } = c.apply d.text :=
    Change.applyAll_append ..
  have hrange : ¬(h.length < c.start ∨ h.length - c.start < c.deleted) := by
    rw [← Change.not_fits_iff, hd.length]
    exact not_not_intro hc
  have hqueued : (h.enqueue c).Tracks { d with changes := d.changes ++ [c] } := by
    refine ⟨?_, ?_, hd.balanced⟩
    · rw [htext, ← hd.text, History.text, History.text, currentTree, currentTree, enqueue,
        hd.balanced.text_editAll, hd.balanced.text_editAll, Change.applyAll_append]
      rfl
    · rw [htext, hc.length_apply, ← hd.length]
      rfl
  rw [History.edit, if_neg hrange]
  refine ⟨_, rfl, ?_⟩
  split
  · exact hqueued.fold
  · exact hqueued

/-- One call is answered alike, and leaves the two alike. -/
theorem Tracks.perform (hd : h.Tracks d) (op : Operation) :
    h.answer op = d.answer op ∧ (h.perform op).Tracks (d.perform op) := by
  cases op with
  | edit c =>
      rw [answer, Draft.answer, History.perform, Draft.perform]
      by_cases hc : c.Fits d.text.length
      · obtain ⟨h', hedit, hd'⟩ := hd.edit_of_fits hc
        rw [hedit, if_pos hc, if_pos hc]
        exact ⟨rfl, hd'⟩
      · rw [hd.edit_of_not_fits hc, if_neg hc, if_neg hc]
        exact ⟨rfl, hd⟩
  | fold =>
      refine ⟨?_, hd.fold⟩
      rw [answer, Draft.answer, text_latest_fold, hd.text]
  | reload text => exact ⟨rfl, tracks_reload h text⟩

theorem Tracks.answers (hd : h.Tracks d) (ops : List Operation) : h.answers ops = d.answers ops := by
  induction ops generalizing h d with
  | nil => rfl
  | cons op ops ih =>
      obtain ⟨hanswer, hnext⟩ := hd.perform op
      rw [History.answers, Draft.answers, hanswer, hnext.length, ih hnext]

theorem Tracks.run (hd : h.Tracks d) (ops : List Operation) : (h.run ops).Tracks (d.run ops) := by
  induction ops generalizing h d with
  | nil => exact hd
  | cons op ops ih => exact ih (hd.perform op).2

end

/-- Histories of one text that are used in the same way give the same answers,
whatever their limits and the capacity of their trees: those of the draft. An
edit is refused exactly if it reaches past the text, and then nothing changes. -/
theorem answers_ofText (text : Text) (limits limits' : HistoryLimits) (capacity capacity' : Nat)
    (ops : List Operation) :
    (ofText text limits capacity).answers ops = (ofText text limits' capacity').answers ops ∧
    (ofText text limits capacity).answers ops = (Draft.ofText text).answers ops ∧
    let h := (ofText text limits capacity).run ops
    let d := (Draft.ofText text).run ops
    h.fold.latest.tree.text = d.text ∧ h.length = d.text.length ∧
    ∀ c : Change,
      ((∃ failure, h.edit c = .error failure) ↔
        h.length < c.start ∨ h.length - c.start < c.deleted) ∧
      ((∃ failure, h.edit c = .error failure) ↔ h.length < c.start + c.deleted) ∧
      ∀ failure, h.edit c = .error failure →
        failure = .editOutOfRange c.start c.deleted h.length ∧ h.perform (.edit c) = h := by
  have hstart := tracks_ofText text limits capacity
  refine ⟨?_, hstart.answers ops, ?_⟩
  · rw [hstart.answers ops, (tracks_ofText text limits' capacity').answers ops]
  intro h d
  have hd : h.Tracks d := hstart.run ops
  have hrefused (c : Change) : (∃ failure, h.edit c = .error failure) ↔ ¬c.Fits h.length := by
    rw [hd.length]
    constructor
    · rintro ⟨failure, hfailure⟩ hc
      obtain ⟨h', hedit, -⟩ := hd.edit_of_fits hc
      rw [hedit] at hfailure
      cases hfailure
    · intro hc
      exact ⟨_, hd.edit_of_not_fits hc⟩
  refine ⟨(text_latest_fold h).trans hd.text, hd.length, fun c => ⟨?_, ?_, ?_⟩⟩
  · rw [hrefused, Change.not_fits_iff]
  · rw [hrefused, Change.Fits, Nat.not_le]
  · intro failure hfailure
    have hc : ¬c.Fits d.text.length := by
      rw [← hd.length]
      exact (hrefused c).mp ⟨failure, hfailure⟩
    rw [hd.edit_of_not_fits hc] at hfailure
    rw [hd.length, History.perform, hd.edit_of_not_fits hc]
    exact ⟨(Except.error.inj hfailure).symm, rfl⟩

end History

end ProjectTracker
