import ProjectTracker.Proofs.Document.Drafts

/-!
Loading a text only if it is another one. A document remembers the fingerprint of its text as long as nothing is
edited, and finds it anew when it is asked for; to find it, the edits that wait become a version. Whether it is
remembered makes no difference: a text is loaded exactly if its fingerprint is not that of the whole current text.
-/

namespace ProjectTracker.Document

/-- What is done to a document by itself. -/
inductive Operation where
  | edit (c : Change)
  /-- asking for the current version -/
  | snapshot
  | reload (text : Text)
  | reloadIfChanged (text : Text)
  deriving DecidableEq, Repr

/-- The document after an operation. An edit that is refused changes nothing. -/
def perform (d : Document) : Operation → Document
  | .edit c => (d.edit c).toOption.getD d
  | .snapshot => d.fold
  | .reload text => d.reload text
  | .reloadIfChanged text => (d.reloadIfChanged text).1

def run (d : Document) (ops : List Operation) : Document :=
  ops.foldl perform d

/-- A fingerprint that is remembered is that of the text, and no edit waits. -/
def IsFingerprinted (d : Document) : Prop :=
  ∀ fingerprint, d.fingerprint? = some fingerprint →
    fingerprint = Text.fingerprint d.text ∧ d.history.pending = []

variable {d d' : Document} {c : Change}

theorem text_reload (d : Document) (text : Text) : (d.reload text).text = text :=
  LineTree.text_ofText ..

theorem version_fold (d : Document) : d.fold.version = d.version + if d.history.pending = [] then 0 else 1 :=
  d.history.version_fold

theorem isFingerprinted_reload (d : Document) (text : Text) : (d.reload text).IsFingerprinted := by
  rintro _ ⟨⟩
  exact ⟨by rw [text_reload], rfl⟩

/-- After an edit no fingerprint is remembered. -/
theorem isFingerprinted_edit (hedit : d.edit c = .ok d') : d'.IsFingerprinted := by
  rw [edit] at hedit
  split at hedit
  · obtain rfl := Except.ok.inj hedit
    rintro _ ⟨⟩
  · cases hedit

theorem IsFingerprinted.fold (h : d.IsFingerprinted) : d.fold.IsFingerprinted := by
  intro fingerprint hfingerprint
  rw [text_fold]
  exact ⟨(h fingerprint hfingerprint).1, d.history.pending_fold⟩

/-- Remembered or not, the fingerprint that is found is that of the text, and all edits are a version by then. -/
theorem IsFingerprinted.fingerprinted_eq (h : d.IsFingerprinted) :
    d.fingerprinted = ({ d.fold with fingerprint? := some d.text.fingerprint }, Text.fingerprint d.text) := by
  rw [fingerprinted]
  cases hfingerprint : d.fingerprint? with
  | none => rfl
  | some fingerprint =>
      obtain ⟨rfl, hpending⟩ := h fingerprint hfingerprint
      have hsame : { d.fold with fingerprint? := some d.text.fingerprint } = d := by
        rw [← hfingerprint, Document.fold, History.fold_of_pending_eq_nil hpending]
      rw [hsame]

theorem IsFingerprinted.reloadIfChanged_eq (h : d.IsFingerprinted) (text : Text) :
    d.reloadIfChanged text =
      if Text.fingerprint text = Text.fingerprint d.text then
        ({ d.fold with fingerprint? := some d.text.fingerprint }, false)
      else (d.fold.reload text, true) := by
  rw [reloadIfChanged, h.fingerprinted_eq]
  dsimp only
  simp only [eq_comm (a := Text.fingerprint text)]
  rfl

theorem IsFingerprinted.reloadIfChanged (h : d.IsFingerprinted) (text : Text) :
    (d.reloadIfChanged text).1.IsFingerprinted := by
  rw [h.reloadIfChanged_eq]
  split
  · rintro _ ⟨⟩
    exact ⟨congrArg Text.fingerprint d.text_fold.symm, d.history.pending_fold⟩
  · exact isFingerprinted_reload d.fold text

/-- What all that can be done to a document leaves true is true after an operation, whichever it is and whether or not
an edit is refused. -/
theorem perform_keeps {p : Document → Prop} (h : p d) (hedit : ∀ c d', d.edit c = .ok d' → p d')
    (hfold : p d.fold) (hreload : ∀ text, p (d.reload text))
    (hreloadIfChanged : ∀ text, p (d.reloadIfChanged text).1) (op : Operation) : p (d.perform op) := by
  cases op with
  | edit c =>
      rw [perform]
      cases hmade : d.edit c with
      | error failure => exact h
      | ok d' => exact hedit c d' hmade
  | snapshot => exact hfold
  | reload text => exact hreload text
  | reloadIfChanged text => exact hreloadIfChanged text

theorem IsDrafted.perform (h : d.IsDrafted) (op : Operation) : (d.perform op).IsDrafted :=
  perform_keeps h (fun _ _ hedit => h.edit hedit) h.fold (isDrafted_reload d) h.reloadIfChanged op

theorem IsFingerprinted.perform (h : d.IsFingerprinted) (op : Operation) : (d.perform op).IsFingerprinted :=
  perform_keeps h (fun _ _ hedit => isFingerprinted_edit hedit) h.fold (isFingerprinted_reload d)
    h.reloadIfChanged op

end ProjectTracker.Document
