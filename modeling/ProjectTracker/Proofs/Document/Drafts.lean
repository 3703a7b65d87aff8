import ProjectTracker.Document.Basic
import ProjectTracker.Proofs.Document.Buffering

/-!
The text of a document. It is the one that was loaded with the edits made since then, whether or not these are a
version yet; making them one, and finding the fingerprint of the text, leave it as it is.
-/

namespace ProjectTracker.Document

theorem text_fold (d : Document) : d.fold.text = d.text := by
  show d.history.fold.text = d.history.text
  unfold History.fold
  split <;> rfl

/-- Who asks for the text of a document gets the edits that wait with it. -/
theorem text_snapshot (d : Document) : d.snapshot.tree.text = d.text :=
  d.history.text_latest_fold

/-- To find a fingerprint that is not known the edits that wait become a version. -/
theorem fingerprinted_cases (d : Document) :
    d.fingerprinted.1 = d ∨ d.fingerprinted.1 = { d.fold with fingerprint? := some d.text.fingerprint } := by
  rw [fingerprinted]
  split
  · exact .inl rfl
  · exact .inr rfl

/-- A text that may be the same is loaded, or nothing happens once the fingerprint is known. -/
theorem reloadIfChanged_cases (d : Document) (text : Text) :
    d.reloadIfChanged text = (d.fingerprinted.1, false) ∨
      d.reloadIfChanged text = (d.fingerprinted.1.reload text, true) := by
  rw [reloadIfChanged]
  dsimp only
  split
  · exact .inl rfl
  · exact .inr rfl

theorem text_fingerprinted (d : Document) : d.fingerprinted.1.text = d.text := by
  rcases d.fingerprinted_cases with h | h
  · rw [h]
  · rw [h]
    exact d.text_fold

/-- A document that is not loaded anew keeps its text. -/
theorem text_reloadIfChanged {d : Document} {text : Text}
    (h : (d.reloadIfChanged text).2 = false) : (d.reloadIfChanged text).1.text = d.text := by
  rcases d.reloadIfChanged_cases text with hkept | hloaded
  · rw [hkept]
    exact d.text_fingerprinted
  · rw [hloaded] at h
    cases h

/-- The text of a document is the one that was loaded with the edits since then, and its length is counted
right. -/
def IsDrafted (d : Document) : Prop :=
  ∃ draft, d.history.Tracks draft

variable {d d' : Document} {c : Change}

theorem isDrafted_create (path : Spelling) (text : Text) (limits : HistoryLimits) (capacity : Nat) :
    (create path text limits capacity).IsDrafted :=
  ⟨_, History.tracks_ofText text limits capacity⟩

theorem isDrafted_reload (d : Document) (text : Text) : (d.reload text).IsDrafted :=
  ⟨_, History.tracks_reload _ text⟩

theorem IsDrafted.fold (h : d.IsDrafted) : d.fold.IsDrafted := by
  obtain ⟨draft, hdraft⟩ := h
  exact ⟨draft, hdraft.fold⟩

theorem IsDrafted.fingerprinted (h : d.IsDrafted) : d.fingerprinted.1.IsDrafted := by
  rcases d.fingerprinted_cases with hknown | hfound
  · rwa [hknown]
  · rw [hfound]
    exact h.fold

theorem IsDrafted.reloadIfChanged (h : d.IsDrafted) (text : Text) : (d.reloadIfChanged text).1.IsDrafted := by
  rcases d.reloadIfChanged_cases text with hkept | hloaded
  · rw [hkept]
    exact h.fingerprinted
  · rw [hloaded]
    exact isDrafted_reload _ text

theorem IsDrafted.length_eq (h : d.IsDrafted) : d.history.length = d.text.length := by
  obtain ⟨draft, hdraft⟩ := h
  rw [hdraft.length, text, hdraft.text]

/-- An edit that fits the length that is counted is made. -/
theorem IsDrafted.edit_of_fits (h : d.IsDrafted) (hc : c.Fits d.history.length) :
    ∃ d', d.edit c = .ok d' ∧ d'.IsDrafted ∧ d'.text = c.apply d.text ∧
      d'.history.length = d.history.length - c.deleted + c.inserted.length := by
  have hlength := h.length_eq
  obtain ⟨draft, hdraft⟩ := h
  have hfits : c.Fits draft.text.length := hdraft.length ▸ hc
  obtain ⟨history, hedit, hdraft'⟩ := hdraft.edit_of_fits hfits
  have htext : history.text = c.apply d.text := by
    rw [hdraft'.text, text, hdraft.text]
    exact Change.applyAll_append ..
  refine ⟨{ d with history, fingerprint? := none }, ?_, ⟨_, hdraft'⟩, htext, ?_⟩
  · rw [edit, hedit]
  · rw [hdraft'.length, ← hdraft'.text, htext, hlength]
    exact (hlength ▸ hc).length_apply

/-- Any other edit is refused. -/
theorem IsDrafted.edit_of_not_fits (h : d.IsDrafted) (hc : ¬c.Fits d.history.length) :
    d.edit c = .error (.editOutOfRange c.start c.deleted d.history.length) := by
  obtain ⟨draft, hdraft⟩ := h
  rw [hdraft.length] at hc ⊢
  rw [edit, hdraft.edit_of_not_fits hc]

theorem IsDrafted.edit (h : d.IsDrafted) (hedit : d.edit c = .ok d') : d'.IsDrafted := by
  by_cases hc : c.Fits d.history.length
  · obtain ⟨d₀, hd₀, hdrafted, -⟩ := h.edit_of_fits hc
    obtain rfl := Except.ok.inj (hd₀.symm.trans hedit)
    exact hdrafted
  · rw [h.edit_of_not_fits hc] at hedit
    cases hedit

end ProjectTracker.Document
