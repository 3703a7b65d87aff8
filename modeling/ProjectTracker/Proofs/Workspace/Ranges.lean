import ProjectTracker.Proofs.LineTree.Slicing
import ProjectTracker.Proofs.Workspace.Atomicity
/-!
Ranges of positions. Whatever positions an editor sends, they are taken to offsets of the current text, the
waiting edits among it; if they come in order their offsets do, so that the part between them can be asked for
and replaced, and neither is refused.
-/

namespace ProjectTracker

namespace Document

/-- The tree of the current version is a tree of the lines of its text. -/
structure IsLined (d : Document) : Prop where
  balanced : d.history.latest.tree.Balanced
  canonical : Text.Canonical d.history.latest.tree.lines

variable {d d' : Document} {c : Change}

theorem isLined_of_firstSnapshot {version capacity : Nat} {text : Text}
    (h : d.history.latest = History.firstSnapshot version text capacity) : d.IsLined where
  balanced := h ▸ LineTree.balanced_ofText text capacity
  canonical := by
    rw [h, History.firstSnapshot, LineTree.lines_ofText]
    exact Text.canonical_splitLines text

theorem IsLined.fold (h : d.IsLined) : d.fold.IsLined := by
  unfold Document.fold History.fold
  split
  · exact h
  · exact ⟨h.balanced.editAll _, h.balanced.canonical_editAll h.canonical _⟩

theorem IsLined.edit (h : d.IsLined) (hedit : d.edit c = .ok d') : d'.IsLined := by
  unfold Document.edit at hedit
  split at hedit
  · rename_i history hhistory
    obtain rfl := Except.ok.inj hedit
    have hqueued : IsLined { d with history := d.history.enqueue c } := ⟨h.balanced, h.canonical⟩
    obtain rfl := History.edit_cases hhistory
    split
    · exact ⟨hqueued.fold.balanced, hqueued.fold.canonical⟩
    · exact ⟨h.balanced, h.canonical⟩
  · cases hedit

theorem IsLined.fingerprinted (h : d.IsLined) : d.fingerprinted.1.IsLined := by
  rcases d.fingerprinted_cases with hknown | hfound
  · rwa [hknown]
  · rw [hfound]
    exact ⟨h.fold.balanced, h.fold.canonical⟩

theorem lasting_isLined : Lasting fun _ d => d.IsLined where
  create _ _ _ _ _ := isLined_of_firstSnapshot rfl
  turns hturns h := by
    cases hturns with
    | fold => exact h.fold
    | edit hedit => exact h.edit hedit
    | reload => exact isLined_of_firstSnapshot rfl
    | fingerprinted => exact h.fingerprinted
    | setOpen => exact ⟨h.balanced, h.canonical⟩
    | setOwner => exact ⟨h.balanced, h.canonical⟩

theorem IsLined.offset_snapshot (h : d.IsLined) (p : Position) :
    d.snapshot.tree.offset p = d.text.offset p := by
  rw [← d.text_snapshot]
  exact h.fold.balanced.offset_eq h.fold.canonical p

theorem IsLined.getText_snapshot (h : d.IsLined) (start count : Nat) :
    d.snapshot.tree.getText start count = d.text.slice start count := by
  rw [← d.text_snapshot]
  exact h.fold.balanced.getText_eq start count

end Document

namespace Workspace

variable {w : Workspace} {p : Path} {d : Document} {range : PositionRange}

theorem query_eq {α : Type} (hd : w.documents.get? (w.normalize p) = some d)
    (ask : Snapshot → Except Failure α) :
    w.query p ask = (w.fold (w.normalize p), ask d.snapshot) := by
  unfold query
  dsimp only
  rw [hd]

theorem getTextRange_of_ordered (hd : w.documents.get? (w.normalize p) = some d) (hlined : d.IsLined)
    (hrange : ¬range.stop.isBefore range.start) :
    (w.getTextRange p range).2 = .ok (d.text.slice (d.text.offset range.start)
      (d.text.offset range.stop - d.text.offset range.start)) := by
  have hordered := (d.text.offset_mono hrange).1
  rw [getTextRange, query_eq hd]
  dsimp only
  rw [hlined.offset_snapshot, hlined.offset_snapshot, if_neg (by omega), hlined.getText_snapshot]

/-- The edits that wait become a version, and the replacement is an edit of it that fits. -/
theorem changeRange_of_ordered (hd : w.documents.get? (w.normalize p) = some d) (hopen : d.isOpen)
    (hdrafted : w.AllDocuments fun _ d => d.IsDrafted) (hlined : d.IsLined)
    (hrange : ¬range.stop.isBefore range.start) (inserted : Text) :
    ∃ d', (w.changeRange p range inserted).2 = .ok d'.version ∧
      (w.changeRange p range inserted).1.documents.get? (w.normalize p) = some d' ∧
      d'.text = d.text.take (d.text.offset range.start) ++ inserted ++
        d.text.drop (d.text.offset range.stop) := by
  obtain ⟨hordered, hle⟩ := d.text.offset_mono hrange
  generalize hstart : d.text.offset range.start = start at hordered
  generalize hstop : d.text.offset range.stop = stop at hordered hle
  have hchange : w.changeRange p range inserted =
      (w.fold (w.normalize p)).changeFile p [⟨start, stop, inserted⟩] := by
    rw [changeRange, snapshot, query_eq hd]
    dsimp only
    rw [hlined.offset_snapshot, hlined.offset_snapshot, hstart, hstop]
  have hfolded : (w.fold (w.normalize p)).documents.get? (w.normalize p) = some d.fold := by
    rw [fold, get?_modifyDocument, if_pos rfl, hd]
    rfl
  have hdrafted' : (w.fold (w.normalize p)).AllDocuments fun _ d => d.IsDrafted :=
    preserves_turns Document.lasting_isDrafted Document.Turns.fold hdrafted
  have hfits : ¬Edit.Misfits ⟨start, stop, inserted⟩ d.fold.history.length := by
    rw [(hdrafted' _ _ hfolded).length_eq, d.text_fold]
    rintro (hreversed | hlong)
    · exact Nat.not_lt.mpr hordered hreversed
    · exact Nat.not_lt.mpr hle hlong
  have hcheck : Edit.checkAll d.fold.history.length [⟨start, stop, inserted⟩] = .ok () :=
    Edit.checkAll_cons_of_not_misfits hfits
  obtain ⟨_, hall, -⟩ := (hdrafted' _ _ hfolded).editAll_of_checkAll hcheck
  have hmade := changeFile_eq_ok (w := w.fold (w.normalize p)) hfolded hopen hcheck hall
  obtain ⟨d₀, d', hd₀, hd', hversion, htext⟩ := changeFile_text hdrafted' hmade
  obtain rfl : d.fold = d₀ := Option.some.inj (hfolded.symm.trans hd₀)
  rw [hchange]
  refine ⟨d', hversion ▸ hmade, hd', ?_⟩
  calc d'.text
      = d.text.take start ++ inserted ++ (d.text.drop start).drop (stop - start) :=
        d.text_fold ▸ htext
    _ = d.text.take start ++ inserted ++ d.text.drop stop := by
        rw [List.drop_drop, Nat.add_sub_cancel' hordered]

/-- In every state a range of positions that come in order is taken to a part of the text that a document has,
the edits that wait among it, wherever the positions lie. The text of the range is this part, and a text put in
the place of the range stands there afterwards, between what was before and after it. -/
theorem textRange_run (settings : Settings) (scanner : Scanner) (fs : FileSystem) (ops : List Operation)
    (p : Path) (range : PositionRange) (hrange : ¬range.stop.isBefore range.start) :
    let w := ({ settings, scanner, fs } : Workspace).run ops
    ∀ d, w.documents.get? (w.normalize p) = some d →
      let start := d.text.offset range.start
      let stop := d.text.offset range.stop
      (start ≤ stop ∧ stop ≤ d.text.length) ∧
        (w.getTextRange p range).2 = .ok (d.text.slice start (stop - start)) ∧
        (d.isOpen → ∀ inserted, ∃ d',
          (w.changeRange p range inserted).2 = .ok d'.version ∧
          (w.changeRange p range inserted).1.documents.get? (w.normalize p) = some d' ∧
          d'.text = d.text.take start ++ inserted ++ d.text.drop stop) := by
  intro w d hd
  have hdrafted : w.AllDocuments fun _ d => d.IsDrafted :=
    allDocuments_run Document.lasting_isDrafted allDocuments_empty fun _ => .inl fun _ h => h
  have hlined : d.IsLined :=
    allDocuments_run Document.lasting_isLined allDocuments_empty
      (fun _ => .inl fun _ h => ⟨h.balanced, h.canonical⟩) _ d hd
  exact ⟨d.text.offset_mono hrange, getTextRange_of_ordered hd hlined hrange,
    fun hopen => changeRange_of_ordered hd hopen hdrafted hlined hrange⟩

/-- A workspace in which a file is open and an edit of it waits. -/
def drafted : Workspace :=
  ({ settings := {}, scanner := ⟨.set ⟨[], false⟩, ⟨.root, true⟩⟩, fs := .ofFiles [] } : Workspace).run
    [.openFile ⟨[.root, .name "a"]⟩ (some "b\nc".toList),
      .changeFile ⟨[.root, .name "a"]⟩ [⟨0, 0, "a".toList⟩]]

/-- A range that starts at a column past its line and ends in a line that is not there. -/
theorem textRange_run_outside :
    let p : Path := ⟨[.root, .name "a"]⟩
    let range : PositionRange := ⟨⟨0, 9⟩, ⟨9, 0⟩⟩
    ¬range.stop.isBefore range.start ∧
      ∃ d d', drafted.documents.get? (drafted.normalize p) = some d ∧ d.isOpen ∧ d.history.hasPending ∧
        (drafted.getTextRange p range).2 = .ok "\nc".toList ∧
        (drafted.changeRange p range "!".toList).2 = .ok d'.version ∧
        (drafted.changeRange p range "!".toList).1.documents.get? (drafted.normalize p) = some d' ∧
        d'.text = "ab!".toList := by
  intro p range
  have hrange : ¬range.stop.isBefore range.start := by decide
  have hedited : (drafted.documents.get? (drafted.normalize p)).any fun d =>
      d.text = "ab\nc".toList ∧ d.isOpen ∧ d.history.hasPending := by
    decide +kernel
  have hoffsets : Text.offset "ab\nc".toList range.start = 2 ∧
      Text.offset "ab\nc".toList range.stop = 4 := by
    decide +kernel
  obtain ⟨d, hd, hd'⟩ := Option.any_eq_true .. |>.mp hedited
  obtain ⟨htext, hopen, hpending⟩ := of_decide_eq_true hd'
  unfold drafted at hd ⊢
  obtain ⟨-, hpart, hchange⟩ := textRange_run _ _ _ _ p range hrange d hd
  obtain ⟨d', hmade, hstored, htext'⟩ := hchange hopen "!".toList
  rw [htext, hoffsets.1, hoffsets.2] at hpart htext'
  exact ⟨hrange, d, d', hd, hopen, hpending, hpart, hmade, hstored, htext'⟩

end Workspace

end ProjectTracker
