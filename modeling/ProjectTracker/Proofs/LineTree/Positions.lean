import ProjectTracker.Proofs.LineTree.Decomposition

/-!
Offsets and positions. The position of an offset can be read off the text before it, however the tree that
answers is built, and the way from offsets to positions and back loses nothing. The way back clamps: a
column to the content of its line, and a line that is not there to the end of the text.
-/

namespace ProjectTracker

namespace Text

/-- The position after a text: how many line feeds it has, and how many characters follow the last one. -/
def endPosition (text : Text) : Position :=
  ⟨text.count '\n', (text.reverse.takeWhile (· ≠ '\n')).length⟩

/-- The position in a text that is nearest to a given one. -/
def clamp (text : Text) (p : Position) : Position :=
  match text.splitLines[p.line]? with
  | some line => ⟨p.line, min p.character line.content.length⟩
  | none => text.endPosition

/-! ### Terminated lines -/

theorem content_prefix (line : Text) : line.content <+: line := by
  unfold content
  split
  · exact List.dropLast_prefix line
  · exact List.prefix_refl line

theorem length_le_length_content (line : Text) : line.length ≤ line.content.length + 1 := by
  unfold content
  split
  · rw [List.length_dropLast]
    omega
  · exact Nat.le_succ _

/-- What follows lines that are all terminated, and has no line feed, stands in the line after them. -/
theorem endPosition_flatten_append {lines : List Text} {part : Text}
    (hfeed : ∀ line ∈ lines, '\n' ∉ line.dropLast) (hterminated : ∀ line ∈ lines, line.isTerminated)
    (hpart : '\n' ∉ part) : endPosition (lines.flatten ++ part) = ⟨lines.length, part.length⟩ := by
  have hcount : lines.flatten.count '\n' = lines.length := by
    induction lines with
    | nil => rfl
    | cons line lines ih =>
        have hline := eq_dropLast_append_of_isTerminated (hterminated line (by simp))
        rw [List.flatten_cons, List.count_append, ih (fun l hl => hfeed l (by simp [hl]))
          fun l hl => hterminated l (by simp [hl]), hline, List.count_append,
          List.count_eq_zero_of_not_mem (hfeed line (by simp)), List.length_cons, List.count_singleton_self]
        omega
  have hcolumn : (lines.flatten ++ part).reverse.takeWhile (· ≠ '\n') = part.reverse := by
    rw [List.reverse_append, List.takeWhile_append_of_pos fun c hc => by
      simpa using ne_of_mem_of_not_mem (List.mem_reverse.mp hc) hpart]
    -- the lines end with a line feed, if there are any
    rcases List.eq_nil_or_concat lines with rfl | ⟨init, last, rfl⟩
    · simp
    · have hlast := eq_dropLast_append_of_isTerminated (hterminated last (by simp))
      rw [List.concat_eq_append, List.flatten_append, List.flatten_singleton, hlast]
      simp
  rw [endPosition, hcolumn, List.count_append, hcount, List.count_eq_zero_of_not_mem hpart,
    List.length_reverse, Nat.add_zero]

theorem Canonical.isTerminated_of_getLast {lines : List Text} (h : Canonical lines) (hne : lines ≠ [])
    (hlast : (lines.getLast hne).isTerminated) : ∀ line ∈ lines, line.isTerminated := by
  intro line hline
  rw [← List.dropLast_append_getLast hne] at hline
  rcases List.mem_append.mp hline with hline | hline
  · exact h.terminated line hline
  · exact List.mem_singleton.mp hline ▸ hlast

theorem Canonical.not_mem_content {lines : List Text} (h : Canonical lines) {line : Text}
    (hline : line ∈ lines) : '\n' ∉ line.content := by
  unfold content
  split
  · exact h.feed_last line hline
  · exact h.not_mem_of_not_isTerminated hline ‹_›

end Text

namespace LineTree

open Node

/-- A place in lines: in the content of one of them, or after them if they are all terminated. -/
inductive Marks (lines : List Text) (offset : Nat) : Position → Prop where
  | within {line character : Nat} {text : Text} (h : lines[line]? = some text)
    (hle : character ≤ text.content.length) (hoffset : offset = startOf lines line + character) :
    Marks lines offset ⟨line, character⟩
  | after (h : ∀ line ∈ lines, line.isTerminated) (hoffset : offset = lines.flatten.length) :
    Marks lines offset ⟨lines.length, 0⟩

section

variable {t : LineTree} {lines : List Text} {offset : Nat} {p q : Position}

/-- A place is where the text before it ends. -/
theorem Marks.eq_endPosition (hlines : Text.Canonical lines) (h : Marks lines offset p) :
    p = Text.endPosition (lines.flatten.take offset) := by
  cases h with
  | @within line character text h hle hoffset =>
      have hbegins := text.content_prefix
      have hlt : line < lines.length := (List.getElem?_eq_some_iff.mp h).1
      have htake : text.take character = text.content.take character := by
        obtain ⟨rest, hrest⟩ := hbegins
        conv_lhs => rw [← hrest]
        exact List.take_append_of_le_length hle
      rw [(take_drop_flatten h (by omega) (by have := hbegins.length_le; omega)).1, hoffset,
        Nat.add_sub_cancel_left, htake, Text.endPosition_flatten_append
          (fun l hl => hlines.feed_last l (List.mem_of_mem_take hl))
          (hlines.isTerminated_of_mem_take hlt)
          fun hmem => hlines.not_mem_content (List.mem_of_getElem? h) (List.mem_of_mem_take hmem),
        List.length_take, List.length_take, Nat.min_eq_left hle, Nat.min_eq_left (Nat.le_of_lt hlt)]
  | after h hoffset =>
      have hend : Text.endPosition (lines.flatten ++ []) = ⟨lines.length, 0⟩ :=
        Text.endPosition_flatten_append hlines.feed_last h List.not_mem_nil
      rw [List.append_nil] at hend
      rw [List.take_of_length_le (Nat.le_of_eq hoffset.symm), hend]

/-- What a tree knows about a line, as its list of lines has it. -/
theorem Balanced.lineInfo_eq (h : t.Balanced) (line : Nat) :
    t.lineInfo line = match t.lines[line]? with
      | some text => (startOf t.lines line, text)
      | none => (t.length, []) := by
  rw [lineInfo]
  split
  · rename_i hline
    obtain ⟨text, hfound, htext⟩ := h.exists_atLine? hline
    rw [hfound, htext]
  · rename_i hline
    rw [h.lineCount_eq] at hline
    rw [List.getElem?_eq_none (by omega)]

theorem Balanced.offset_of_line (h : t.Balanced) {text : Text} (hline : t.lines[p.line]? = some text) :
    t.offset p = startOf t.lines p.line + min p.character text.content.length := by
  rw [LineTree.offset, h.lineInfo_eq, hline]

theorem Balanced.offset_of_no_line (h : t.Balanced) (hline : t.lines[p.line]? = none) :
    t.offset p = t.length := by
  rw [LineTree.offset, h.lineInfo_eq, hline]
  exact congrArg (t.length + ·) (Nat.min_zero _)

theorem Balanced.offset_of_marks (h : t.Balanced) (hmarks : Marks t.lines offset p) :
    t.offset p = offset := by
  cases hmarks with
  | within hline hle hoffset =>
      rw [h.offset_of_line hline, hoffset, Nat.min_eq_left hle]
  | after hterminated hoffset =>
      rw [h.offset_of_no_line (List.getElem?_eq_none (Nat.le_refl _)), h.length_eq, hoffset]
      rfl

/-- The line that a tree finds for an offset inside of the text. -/
theorem Balanced.exists_lineAt? (h : t.Balanced) (hoffset : offset < t.length) :
    ∃ found, t.lineAt? offset = some found ∧ found.Covers t.lines offset := by
  rcases h.root with hroot | ⟨depth, hroot, -⟩
  · rw [LineTree.length, hroot] at hoffset
    exact absurd hoffset (Nat.not_lt_zero _)
  · obtain ⟨found, heq, hcovers⟩ := hroot.exists_atOffset? hoffset
    exact ⟨found, by rw [lineAt?, if_pos hoffset, heq], hcovers⟩

theorem Balanced.lastLine?_eq (h : t.Balanced) :
    t.lastLine? = t.lines.getLast?.map fun text => ⟨t.lineCount - 1, t.length - text.length, text⟩ := by
  rw [lastLine?]
  rcases h.root with hroot | ⟨depth, hroot, -⟩
  · rw [LineTree.lines, hroot]
    rfl
  · rw [hroot.lastLine?_eq]
    rfl

/-- The end of the text is a place in the last line, or after it if it is terminated. -/
theorem Balanced.marks_end (h : t.Balanced) (hlines : Text.Canonical t.lines) :
    Marks t.lines t.length (match t.lastLine? with
      | none => ⟨0, 0⟩
      | some found =>
        if found.text.isTerminated then ⟨found.line + 1, 0⟩
        else ⟨found.line, t.length - found.start⟩) := by
  have hend : t.length = t.lines.flatten.length := h.length_eq
  rw [h.lastLine?_eq]
  rcases eq_or_ne t.lines [] with hnil | hne
  · rw [hnil] at hend ⊢
    exact .after (by simp) hend
  · have htouches := Found.touches_last hne hend
    rw [List.getLast?_eq_some_getLast hne, h.lineCount_eq, hend]
    dsimp only [Option.map_some]
    split
    · rename_i hterminated
      rw [Nat.sub_add_cancel (List.length_pos_iff.mpr hne)]
      exact .after (hlines.isTerminated_of_getLast hne hterminated) rfl
    · rename_i hterminated
      refine .within htouches.text ?_ ?_
      · rw [Text.content, if_neg hterminated]
        show _ - (_ - (t.lines.getLast hne).length) ≤ (t.lines.getLast hne).length
        omega
      · rw [← htouches.start]
        exact (Nat.add_sub_cancel' (Nat.sub_le ..)).symm

/-- The position of an offset is a place at this offset, or at the end of the text. -/
theorem Balanced.marks_position (h : t.Balanced) (hlines : Text.Canonical t.lines) (offset : Nat) :
    Marks t.lines (min offset t.length) (t.position offset) := by
  unfold position
  generalize hclamped : min offset t.length = clamped
  dsimp only
  by_cases hinside : clamped < t.length
  · obtain ⟨found, hfound, hcovers⟩ := h.exists_lineAt? hinside
    have hle := hcovers.start_le
    have hlt := hcovers.lt_stop
    have hcontent := found.text.length_le_length_content
    rw [hfound]
    exact .within hcovers.text (by omega) (by rw [← hcovers.start]; omega)
  · obtain rfl : clamped = t.length := by omega
    rw [lineAt?, if_neg hinside]
    exact h.marks_end hlines

theorem Balanced.position_eq (h : t.Balanced) (hlines : Text.Canonical t.lines) (offset : Nat) :
    t.position offset = Text.endPosition (t.text.take (min offset t.length)) :=
  (h.marks_position hlines offset).eq_endPosition hlines

theorem Balanced.offset_le (h : t.Balanced) (p : Position) : t.offset p ≤ t.length := by
  cases hline : t.lines[p.line]? with
  | none => exact Nat.le_of_eq (h.offset_of_no_line hline)
  | some text =>
      have hwhole := startOf_mono t.lines (show p.line + 1 ≤ max (p.line + 1) t.lines.length by omega)
      have hall : startOf t.lines (max (p.line + 1) t.lines.length) = t.length := by
        rw [startOf, List.take_of_length_le (by omega), h.length_eq]
        rfl
      have hcontent := text.content_prefix.length_le
      rw [hall, startOf_succ hline] at hwhole
      rw [h.offset_of_line hline]
      omega

/-- A clamped position is the place of the offset that the position is taken to. -/
theorem Balanced.marks_clamp (h : t.Balanced) (hlines : Text.Canonical t.lines) (p : Position) :
    Marks t.lines (t.offset p) (t.text.clamp p) := by
  rw [Text.clamp, LineTree.text, ← hlines.eq_splitLines]
  cases hline : t.lines[p.line]? with
  | some text =>
      exact .within hline (Nat.min_le_right ..) (h.offset_of_line hline)
  | none =>
      have hend := h.marks_position hlines t.length
      rw [h.position_eq hlines, Nat.min_self, h.length_eq, List.take_length, ← h.length_eq,
        ← h.offset_of_no_line hline] at hend
      exact hend

theorem Balanced.offset_mono (h : t.Balanced) (hle : ¬q.isBefore p) : t.offset p ≤ t.offset q := by
  have hle' : p.line < q.line ∨ p.line = q.line ∧ p.character ≤ q.character := by
    simp only [Position.isBefore, Bool.or_eq_true, Bool.and_eq_true, decide_eq_true_eq, not_or,
      not_and, Nat.not_lt] at hle
    omega
  cases hq : t.lines[q.line]? with
  | none => exact h.offset_of_no_line hq ▸ h.offset_le p
  | some later =>
      have hlt := (List.getElem?_eq_some_iff.mp hq).1
      obtain ⟨text, hp⟩ : ∃ text, t.lines[p.line]? = some text :=
        ⟨_, List.getElem?_eq_getElem (show p.line < t.lines.length by omega)⟩
      rw [h.offset_of_line hp, h.offset_of_line hq]
      rcases hle' with hline | ⟨hline, hcharacter⟩
      · have hstart := startOf_mono t.lines (show p.line + 1 ≤ q.line by omega)
        have hcontent := text.content_prefix.length_le
        rw [startOf_succ hp] at hstart
        omega
      · rw [hline] at hp ⊢
        obtain rfl : text = later := Option.some.inj (hp.symm.trans hq)
        omega

end

/-- After any edits a tree tells positions as its text alone would: by counting line feeds and what follows the
last one. From an offset to its position and back nothing is lost, the way from a position to its offset and
back clamps it, and later positions never have smaller offsets. -/
theorem positions_editAll_ofText (text : Text) (capacity : Nat) (changes : List Change) :
    let t := (ofText text capacity).editAll changes
    t.text = Change.applyAll changes text ∧
      (∀ offset, t.position offset = Text.endPosition (t.text.take (min offset t.text.length))) ∧
      (∀ offset, t.offset (t.position offset) = min offset t.text.length) ∧
      (∀ p, t.position (t.offset p) = t.text.clamp p) ∧
      (∀ p q, ¬q.isBefore p → t.offset p ≤ t.offset q) ∧
      ∀ p, t.offset p ≤ t.text.length := by
  intro t
  have hloaded := balanced_ofText text capacity
  have hbalanced : t.Balanced := hloaded.editAll changes
  have hcanonical : Text.Canonical t.lines := by
    apply hloaded.canonical_editAll
    rw [lines_ofText]
    exact Text.canonical_splitLines text
  rw [← hbalanced.length_eq]
  refine ⟨?_, hbalanced.position_eq hcanonical, fun offset => ?_, fun p => ?_,
    fun p q => hbalanced.offset_mono, hbalanced.offset_le⟩
  · rw [hloaded.text_editAll, text_ofText]
  · exact hbalanced.offset_of_marks (hbalanced.marks_position hcanonical offset)
  · rw [hbalanced.position_eq hcanonical, Nat.min_eq_left (hbalanced.offset_le p)]
    exact ((hbalanced.marks_clamp hcanonical p).eq_endPosition hcanonical).symm

/-- The end of a text is in the line after a line feed, and in the last line otherwise. -/
example :
    (["", "ab", "ab\n"].map fun text =>
      let t := ofText text.toList 2
      (t.position 9, t.offset ⟨0, 9⟩)) = [(⟨0, 0⟩, 0), (⟨0, 2⟩, 2), (⟨1, 0⟩, 2)] := by
  decide +kernel

end LineTree

end ProjectTracker
