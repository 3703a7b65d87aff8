import ProjectTracker.Document.History
import ProjectTracker.Proofs.LineTree.Contents

/-!
Editing a line tree is editing its text. The two lines at the ends of an edit
are found by the totals, and between them the tree changes as its list of lines
does; neither the shape of the tree nor the form of the lines matters.
-/

namespace ProjectTracker

/-- A change that reaches past the text is the one that ends with it. -/
theorem Change.apply_eq_clamped (c : Change) (text : Text) :
    c.apply text =
      text.take (min c.start text.length) ++ c.inserted ++
        text.drop
          (min c.start text.length + min c.deleted (text.length - min c.start text.length)) := by
  have htake : text.take (min c.start text.length) = text.take c.start := by
    rw [List.take_eq_take_iff]
    omega
  have hdrop : text.drop
      (min c.start text.length + min c.deleted (text.length - min c.start text.length)) =
        text.drop (c.start + c.deleted) := by
    rcases Nat.le_total (c.start + c.deleted) text.length with hle | hge
    · congr 1
      omega
    · rw [List.drop_eq_nil_of_le hge, List.drop_eq_nil_iff]
      omega
  rw [Change.apply, htake, hdrop, List.drop_drop]

namespace LineTree

open Node

theorem lines_ofLines (lines : List Text) (capacity : Nat) :
    (ofLines lines capacity).lines = lines.filter (!·.isEmpty) := by
  rw [LineTree.lines, ofLines, toList_rootOf, toListAll_map_ofLine]

theorem flatten_filter_isEmpty (lines : List Text) :
    (lines.filter (!·.isEmpty)).flatten = lines.flatten := by
  induction lines with
  | nil => rfl
  | cons line lines ih => cases line <;> simp [ih]

/-- Loading keeps the text, whether or not its lines are terminated. -/
@[simp] theorem text_ofLines (lines : List Text) (capacity : Nat) :
    (ofLines lines capacity).text = lines.flatten := by
  rw [LineTree.text, lines_ofLines, flatten_filter_isEmpty]

@[simp] theorem text_ofText (text : Text) (capacity : Nat) :
    (ofText text capacity).text = text := by
  rw [ofText, text_ofLines, Text.flatten_splitLines]

section

variable {t : LineTree}

theorem Balanced.length_eq (h : t.Balanced) : t.length = t.text.length := by
  rw [LineTree.length, LineTree.text, LineTree.lines]
  rcases h.root with hroot | ⟨depth, hroot, -⟩
  · rw [hroot]
    rfl
  · exact hroot.chars_eq

theorem Balanced.lineCount_eq (h : t.Balanced) : t.lineCount = t.lines.length := by
  rw [LineTree.lineCount, LineTree.lines]
  rcases h.root with hroot | ⟨depth, hroot, -⟩
  · rw [hroot]
    rfl
  · exact hroot.lines_eq

theorem Balanced.root_eq_nil (h : t.Balanced) (hlines : t.lines = []) :
    t.root = .ofChildren [] := by
  rcases h.root with hroot | ⟨depth, hroot, -⟩
  · exact hroot
  · exact absurd hlines hroot.toList_ne_nil

/-- An edit of a text with lines falls into one of them. -/
theorem Balanced.exists_editedLine? (h : t.Balanced) {offset : Nat} (hoffset : offset ≤ t.length)
    (hlines : t.lines ≠ []) :
    ∃ found, t.editedLine? offset = some found ∧ found.Touches t.lines offset := by
  rcases h.root with hroot | ⟨depth, hroot, -⟩
  · rw [LineTree.lines, hroot] at hlines
    exact absurd rfl hlines
  · by_cases hinside : offset < t.length
    · obtain ⟨found, heq, hcovers⟩ := hroot.exists_atOffset? hinside
      refine ⟨found, ?_, hcovers.touches⟩
      rw [editedLine?, lineAt?, if_pos hinside, heq, Option.some_or]
    · -- the end of the text lies in no line, and counts to the last one
      have hend : offset = t.lines.flatten.length := by
        have := h.length_eq
        rw [LineTree.text] at this
        omega
      refine ⟨_, ?_, Found.touches_last hlines hend⟩
      rw [editedLine?, lineAt?, if_neg hinside, Option.none_or, lastLine?, hroot.lastLine?_eq,
        h.lineCount_eq, h.length_eq]
      rw [LineTree.lines] at hlines
      rw [List.getLast?_eq_some_getLast hlines]
      rfl

/-- Taking the replaced lines out of a tree and putting others in their place. -/
theorem Balanced.toListAll_splice_root (h : t.Balanced) {r : Replacement} (hle : r.first ≤ r.last)
    (hlast : r.last < t.lines.length) :
    toListAll (t.root.splice t.capacity r 0) =
      t.lines.take r.first ++ toListAll r.leaves ++ t.lines.drop (r.last + 1) := by
  rcases h.root with hroot | ⟨depth, hroot, -⟩
  · rw [LineTree.lines, hroot] at hlast
    exact absurd hlast (Nat.not_lt_zero _)
  · rw [hroot.toListAll_splice hle, ← LineTree.lines,
      replaceLines_around (Nat.zero_le _) hle (by omega)]
    rfl

/-- The text of a tree in which the lines that an edit touches are replaced. -/
theorem Balanced.text_splice (h : t.Balanced) {start stop : Nat} {inserted : Text}
    {first last : Found} (hfirst : first.Touches t.lines start) (hlast : last.Touches t.lines stop)
    (hle : start ≤ stop) :
    (toListAll (t.root.splice t.capacity
        ⟨first.line, last.line,
          (Text.splitLines (first.text.take (start - first.start) ++ inserted ++
            last.text.drop (stop - last.start))).map ofLine⟩ 0)).flatten =
      t.text.take start ++ inserted ++ t.text.drop stop := by
  have hlt : last.line < t.lines.length := (List.getElem?_eq_some_iff.mp hlast.text).1
  rw [h.toListAll_splice_root (hfirst.line_le hlast hle) hlt, toListAll_map_ofLine, LineTree.text,
    hfirst.take_drop.1, hlast.take_drop.2]
  simp only [List.flatten_append, Text.flatten_splitLines, List.append_assoc]

/-- An edit of a tree changes its text as an edit of the text does, whether or
not it stays within the bounds of the text. -/
theorem Balanced.text_edit (h : t.Balanced) (c : Change) :
    (t.edit c.start c.deleted c.inserted).text = c.apply t.text := by
  rw [c.apply_eq_clamped, ← h.length_eq, LineTree.edit]
  generalize hstart : min c.start t.length = start
  generalize hdeleted : min c.deleted (t.length - start) = deleted
  have hstop : start + deleted ≤ t.length := by omega
  dsimp only
  split
  · rename_i hnothing
    rw [hnothing.1, hnothing.2, List.append_nil, Nat.add_zero, List.take_append_drop]
  · by_cases hlines : t.lines = []
    · -- no line can be found in the empty text, and the tree is built from the inserted one
      have hempty : t.text = [] := by rw [LineTree.text, hlines]; rfl
      rw [editedLine?_of_root_eq_nil (h.root_eq_nil hlines), hempty]
      dsimp only
      rw [text_ofText, List.take_nil, List.drop_nil, List.nil_append, List.append_nil]
    · obtain ⟨first, hfirst, hfirst'⟩ :=
        h.exists_editedLine? (Nat.le_of_add_right_le hstop) hlines
      obtain ⟨last, hlast, hlast'⟩ := h.exists_editedLine? hstop hlines
      rw [hfirst, hlast]
      dsimp only
      rw [LineTree.text, LineTree.lines, toList_rootOf]
      exact h.text_splice hfirst' hlast' (Nat.le_add_right ..)

theorem Balanced.editAll (h : t.Balanced) (changes : List Change) :
    (t.editAll changes).Balanced := by
  induction changes generalizing t with
  | nil => exact h
  | cons c changes ih => exact ih (h.edit ..)

theorem Balanced.text_editAll (h : t.Balanced) (changes : List Change) :
    (t.editAll changes).text = Change.applyAll changes t.text := by
  induction changes generalizing t with
  | nil => rfl
  | cons c changes ih =>
      calc ((t.edit c.start c.deleted c.inserted).editAll changes).text
          = Change.applyAll changes (t.edit c.start c.deleted c.inserted).text := ih (h.edit ..)
        _ = Change.applyAll changes (c.apply t.text) := by rw [h.text_edit]

end

/-- Loading lines, well formed or not, and editing the tree gives the text that
the same edits make of the lines put together. -/
theorem text_editAll_ofLines (lines : List Text) (capacity : Nat) (changes : List Change) :
    ((ofLines lines capacity).editAll changes).text = Change.applyAll changes lines.flatten := by
  rw [(balanced_ofLines lines capacity).text_editAll, text_ofLines]

end LineTree

end ProjectTracker
