import ProjectTracker.LineTree.Reader
import ProjectTracker.Proofs.LineTree.Editing

/-!
The lines of a tree are the lines of its text. A text can be cut into lines in
one way only, and although an edit splits no more than the region that it
rewrites, the pieces and the lines around them are again a cut of that kind:
every line before the region is terminated, and so is the region itself if a
line follows it.
-/

namespace ProjectTracker

namespace Text

/-! ### Cutting a text into lines -/

/-- No line is empty, a line feed stands only at the end of a line, and every
line but the last ends with one. -/
structure Canonical (lines : List Text) : Prop where
  ne_nil : ∀ line ∈ lines, line ≠ []
  feed_last : ∀ line ∈ lines, '\n' ∉ line.dropLast
  terminated : ∀ line ∈ lines.dropLast, line.isTerminated

/-- The canonical way to cut a text. -/
structure Decomposes (lines : List Text) (text : Text) : Prop where
  canonical : Canonical lines
  flatten_eq : lines.flatten = text

theorem isTerminated_iff {line : Text} : line.isTerminated ↔ line.getLast? = some '\n' := by
  simp [isTerminated]

theorem isTerminated_append {before after : Text} (h : after ≠ []) :
    (before ++ after).isTerminated = after.isTerminated := by
  rw [isTerminated, isTerminated, List.getLast?_append_of_ne_nil _ h]

theorem eq_dropLast_append_of_isTerminated {line : Text} (h : line.isTerminated) :
    line = line.dropLast ++ ['\n'] :=
  (List.dropLast_append_getLast? _ (isTerminated_iff.mp h)).symm

theorem splitLines_of_not_mem {line : Text} (hne : line ≠ []) (h : '\n' ∉ line) :
    splitLines line = [line] := by
  induction line with
  | nil => exact absurd rfl hne
  | cons c rest ih =>
      rw [List.mem_cons, not_or] at h
      rw [splitLines, if_neg (Ne.symm h.1)]
      cases rest with
      | nil => rfl
      | cons d rest => rw [ih (List.cons_ne_nil d rest) h.2]

theorem splitLines_append_feed {body : Text} (h : '\n' ∉ body) (rest : Text) :
    splitLines (body ++ '\n' :: rest) = (body ++ ['\n']) :: splitLines rest := by
  induction body with
  | nil => rfl
  | cons c body ih =>
      rw [List.mem_cons, not_or] at h
      rw [List.cons_append, splitLines, if_neg (Ne.symm h.1), ih h.2]
      rfl

namespace Canonical

variable {line : Text} {lines xs ys : List Text}

theorem nil : Canonical [] :=
  ⟨by simp, by simp, by simp⟩

theorem tail (h : Canonical (line :: lines)) : Canonical lines where
  ne_nil text htext := h.ne_nil text (List.mem_cons_of_mem _ htext)
  feed_last text htext := h.feed_last text (List.mem_cons_of_mem _ htext)
  terminated text htext := by
    apply h.terminated
    rw [List.dropLast_cons_of_ne_nil (by rintro rfl; simp at htext)]
    exact List.mem_cons_of_mem _ htext

theorem isTerminated_head (h : Canonical (line :: lines)) (hlines : lines ≠ []) :
    line.isTerminated := by
  apply h.terminated
  rw [List.dropLast_cons_of_ne_nil hlines]
  exact List.mem_cons_self

/-- A terminated line may stand before lines that are cut canonically. -/
theorem cons (hne : line ≠ []) (hfeed : '\n' ∉ line.dropLast)
    (hterminated : lines ≠ [] → line.isTerminated) (h : Canonical lines) :
    Canonical (line :: lines) where
  ne_nil := List.forall_mem_cons.mpr ⟨hne, h.ne_nil⟩
  feed_last := List.forall_mem_cons.mpr ⟨hfeed, h.feed_last⟩
  terminated := by
    rcases eq_or_ne lines [] with rfl | hlines
    · simp
    · rw [List.dropLast_cons_of_ne_nil hlines]
      exact List.forall_mem_cons.mpr ⟨hterminated hlines, h.terminated⟩

theorem append (hx : Canonical xs) (hterminated : ys ≠ [] → ∀ line ∈ xs, line.isTerminated)
    (hy : Canonical ys) : Canonical (xs ++ ys) := by
  induction xs with
  | nil => exact hy
  | cons x xs ih =>
      apply cons (hx.ne_nil x (by simp)) (hx.feed_last x (by simp))
      · intro hrest
        by_cases hys : ys = []
        · exact hx.isTerminated_head (by simpa [hys] using hrest)
        · exact hterminated hys x (by simp)
      · exact ih hx.tail fun hys line hline => hterminated hys line (List.mem_cons_of_mem _ hline)

theorem drop (h : Canonical lines) (n : Nat) : Canonical (lines.drop n) := by
  induction n generalizing lines with
  | zero => exact h
  | succ n ih =>
      cases lines with
      | nil => exact h
      | cons line lines => exact ih h.tail

/-- Lines of which another one follows are terminated. -/
theorem isTerminated_of_lt (h : Canonical lines) {n : Nat} (hlt : n + 1 < lines.length)
    (hline : lines[n]? = some line) : line.isTerminated := by
  apply h.terminated
  rw [List.dropLast_eq_take]
  exact List.mem_of_getElem? (i := n) (by rw [List.getElem?_take_of_lt (by omega), hline])

theorem take (h : Canonical lines) (n : Nat) : Canonical (lines.take n) where
  ne_nil line hline := h.ne_nil line (List.mem_of_mem_take hline)
  feed_last line hline := h.feed_last line (List.mem_of_mem_take hline)
  terminated line hline := by
    obtain ⟨i, hi⟩ := List.mem_iff_getElem?.mp hline
    have hlt := (List.getElem?_eq_some_iff.mp hi).1
    rw [List.length_dropLast, List.length_take] at hlt
    apply h.isTerminated_of_lt (n := i) (by omega)
    rwa [List.getElem?_dropLast, if_pos (by rw [List.length_take]; omega),
      List.getElem?_take_of_lt (by omega)] at hi

theorem isTerminated_of_mem_take (h : Canonical lines) {n : Nat} (hlt : n < lines.length) :
    ∀ line ∈ lines.take n, line.isTerminated := by
  intro line hline
  obtain ⟨i, hi⟩ := List.mem_iff_getElem?.mp hline
  have hlen := (List.getElem?_eq_some_iff.mp hi).1
  rw [List.length_take] at hlen
  rw [List.getElem?_take_of_lt (by omega)] at hi
  exact h.isTerminated_of_lt (by omega) hi

/-- All lines of a terminated text are terminated. -/
theorem isTerminated_of_flatten (h : Canonical lines) (hflatten : isTerminated lines.flatten) :
    ∀ line ∈ lines, line.isTerminated := by
  induction lines with
  | nil => simp
  | cons line lines ih =>
      rcases eq_or_ne lines [] with rfl | hlines
      · simpa using hflatten
      · refine List.forall_mem_cons.mpr ⟨h.isTerminated_head hlines, ih h.tail ?_⟩
        rwa [List.flatten_cons, isTerminated_append] at hflatten
        intro hnil
        obtain ⟨next, rest, rfl⟩ := List.exists_cons_of_ne_nil hlines
        exact h.tail.ne_nil next (by simp) (List.flatten_eq_nil_iff.mp hnil next (by simp))

/-- A line without a line feed at its end has none at all. -/
theorem not_mem_of_not_isTerminated (h : Canonical lines) (hline : line ∈ lines)
    (hterminated : ¬line.isTerminated) : '\n' ∉ line := by
  intro hmem
  rw [← List.dropLast_append_getLast (h.ne_nil line hline)] at hmem
  rcases List.mem_append.mp hmem with hmem | hmem
  · exact h.feed_last line hline hmem
  · rw [List.mem_singleton] at hmem
    apply hterminated
    rw [isTerminated_iff, List.getLast?_eq_some_getLast (h.ne_nil line hline), hmem]

/-- Lines that are cut canonically are the lines of the text that they make up. -/
theorem eq_splitLines (h : Canonical lines) : lines = splitLines lines.flatten := by
  induction lines with
  | nil => rfl
  | cons line lines ih =>
      have hfeed := h.feed_last line (by simp)
      by_cases hline : line.isTerminated
      · rw [List.flatten_cons, eq_dropLast_append_of_isTerminated hline, List.append_assoc,
          List.singleton_append, splitLines_append_feed hfeed, ← ih h.tail]
      · have hlines : lines = [] := by_contra fun hne => hline (h.isTerminated_head hne)
        have hnot : '\n' ∉ line := h.not_mem_of_not_isTerminated (by simp) hline
        rw [hlines, List.flatten_cons, List.flatten_nil, List.append_nil,
          splitLines_of_not_mem (h.ne_nil line (by simp)) hnot]

end Canonical

/-- A text is split into lines that are cut canonically. -/
theorem canonical_splitLines (text : Text) : Canonical text.splitLines := by
  induction text with
  | nil => exact .nil
  | cons c rest ih =>
      rw [splitLines]
      split
      · rename_i hc
        exact .cons (by simp) (by simp) (fun _ => by simp [isTerminated_iff, hc]) ih
      · rename_i hc
        cases hsplit : splitLines rest with
        | nil => exact .cons (by simp) (by simp) (fun h => absurd rfl h) .nil
        | cons line lines =>
            -- the character joins the first line of the rest, which keeps its end
            rw [hsplit] at ih
            have hline := ih.ne_nil line (by simp)
            refine .cons (by simp) ?_ (fun hlines => ?_) ih.tail
            · rw [List.dropLast_cons_of_ne_nil hline, List.mem_cons, not_or]
              exact ⟨Ne.symm hc, ih.feed_last line (by simp)⟩
            · rw [← List.singleton_append, isTerminated_append hline]
              exact ih.isTerminated_head hlines

/-- There is one way to cut a text into lines. -/
theorem decomposes_iff {lines : List Text} {text : Text} :
    Decomposes lines text ↔ lines = text.splitLines := by
  constructor
  · rintro ⟨hcanonical, rfl⟩
    exact hcanonical.eq_splitLines
  · rintro rfl
    exact ⟨canonical_splitLines text, flatten_splitLines text⟩

end Text

namespace LineTree

open Node

/-! ### Reading lines in order -/

namespace Reader

/-- The lines below the runs of nodes that are still to be read. -/
def ahead (reader : Reader) : List Text :=
  reader.flatMap toListAll

theorem ahead_eq_nil_of_next? {reader : Reader} (h : reader.next? = none) : reader.ahead = [] := by
  fun_induction next? reader with
  | case1 => rfl
  | case2 runs ih => exact ih h
  | case3 => simp at h
  | case4 children chars lines nodes runs ih =>
      simpa [ahead, toListAll, toList] using ih h

theorem ahead_eq_cons_of_next? {reader rest : Reader} {text : Text}
    (h : reader.next? = some (text, rest)) : reader.ahead = text :: rest.ahead := by
  fun_induction next? reader with
  | case1 => simp at h
  | case2 runs ih => exact ih h
  | case3 =>
      cases h
      rfl
  | case4 children chars lines nodes runs ih =>
      simpa [ahead, toListAll, toList] using ih h

/-- Reading to the end yields every line once, in order. -/
theorem drain_eq_ahead (reader : Reader) : reader.drain = reader.ahead := by
  fun_induction drain reader with
  | case1 reader h => exact (ahead_eq_nil_of_next? h).symm
  | case2 reader text rest h ih => rw [ahead_eq_cons_of_next? h, ih]

end Reader

theorem Balanced.drain_reader {t : LineTree} (h : t.Balanced) : t.reader.drain = t.lines := by
  rw [Reader.drain_eq_ahead, reader, LineTree.lines, Reader.ahead, List.flatMap_singleton]
  rcases h.root with hroot | ⟨depth, hroot, -⟩
  · rw [hroot]
    rfl
  · generalize t.root = root at hroot ⊢
    cases hroot
    rfl

/-! ### Finding a line by its number -/

theorem exists_atLineAll? {capacity depth : Nat} {nodes : List Node}
    (hnodes : ∀ node ∈ nodes, node.Balanced capacity depth)
    (h : ∀ node ∈ nodes, ∀ line < node.lines,
      ∃ text, node.atLine? line = some ⟨line, startOf node.toList line, text⟩ ∧
        node.toList[line]? = some text)
    {line : Nat} (hline : line < (toListAll nodes).length) :
    ∃ text, atLineAll? nodes line = some ⟨line, startOf (toListAll nodes) line, text⟩ ∧
      (toListAll nodes)[line]? = some text := by
  induction nodes generalizing line with
  | nil => simp [toListAll] at hline
  | cons node nodes ih =>
      have hnode := hnodes node (by simp)
      rw [atLineAll?, toListAll]
      split
      · rename_i hlt
        obtain ⟨text, heq, htext⟩ := h node (by simp) line hlt
        rw [hnode.lines_eq] at hlt
        refine ⟨text, ?_, by rw [List.getElem?_append_left hlt, htext]⟩
        rw [heq, startOf, startOf, List.take_append_of_le_length (Nat.le_of_lt hlt)]
      · rename_i hge
        rw [toListAll, List.length_append, ← hnode.lines_eq] at hline
        obtain ⟨text, heq, htext⟩ := ih (fun node hmem => hnodes node (by simp [hmem]))
          (fun node hmem => h node (by simp [hmem])) (show line - node.lines < _ by omega)
        -- the lines that are passed over are counted again on the way back
        have hle : node.toList.length ≤ line := by rw [← hnode.lines_eq]; omega
        obtain ⟨k, rfl⟩ := Nat.exists_eq_add_of_le' hle
        rw [hnode.lines_eq, Nat.add_sub_cancel] at heq htext
        refine ⟨text, ?_, by rw [List.getElem?_append_right hle, Nat.add_sub_cancel, htext]⟩
        rw [hnode.lines_eq, Nat.add_sub_cancel, heq, startOf_append, ← hnode.chars_eq]
        rfl

theorem Node.Balanced.exists_atLine? {capacity depth : Nat} {node : Node}
    (h : node.Balanced capacity depth) {line : Nat} (hline : line < node.lines) :
    ∃ text, node.atLine? line = some ⟨line, startOf node.toList line, text⟩ ∧
      node.toList[line]? = some text := by
  induction h generalizing line with
  | leaf =>
      obtain rfl : line = 0 := by simpa [Node.lines] using hline
      exact ⟨_, rfl, rfl⟩
  | @branch depth children _ _ balanced ih =>
      apply exists_atLineAll? balanced fun node hnode line => ih node hnode
      rwa [← total_lines_eq fun node hnode => (balanced node hnode).lines_eq]

section

variable {t : LineTree}

/-- A line that exists is found in the tree, with the offset where it starts. -/
theorem Balanced.exists_atLine? (h : t.Balanced) {line : Nat} (hline : line < t.lineCount) :
    ∃ text, t.root.atLine? line = some ⟨line, startOf t.lines line, text⟩ ∧
      t.lines[line]? = some text := by
  rcases h.root with hroot | ⟨depth, hroot, -⟩
  · rw [lineCount, hroot] at hline
    exact absurd hline (Nat.not_lt_zero _)
  · exact hroot.exists_atLine? hline

theorem Balanced.lineText?_eq (h : t.Balanced) (line : Nat) : t.lineText? line = t.lines[line]? := by
  rw [lineText?, lineInfo]
  split
  · rename_i hline
    obtain ⟨text, hfound, htext⟩ := h.exists_atLine? hline
    rw [hfound, htext]
  · rename_i hline
    rw [h.lineCount_eq] at hline
    exact (List.getElem?_eq_none (by omega)).symm

/-! ### Editing -/

/-- The rewritten region between lines that stay as they are. If a line follows
the region, its last line reaches past the end of the edit, so that the region
ends as this line did. -/
theorem canonical_replace {lines : List Text} (h : Text.Canonical lines) {start stop : Nat}
    (inserted : Text) {first last : Found} (hfirst : first.Touches lines start)
    (hlast : last.Touches lines stop) :
    Text.Canonical (lines.take first.line ++
      Text.splitLines (first.text.take (start - first.start) ++ inserted ++
        last.text.drop (stop - last.start)) ++ lines.drop (last.line + 1)) := by
  generalize hregion : first.text.take (start - first.start) ++ inserted ++
    last.text.drop (stop - last.start) = region
  have hlt : first.line < lines.length := (List.getElem?_eq_some_iff.mp hfirst.text).1
  rw [List.append_assoc]
  apply (h.take _).append fun _ => h.isTerminated_of_mem_take hlt
  apply (Text.canonical_splitLines region).append _ (h.drop _)
  intro hrest
  apply (Text.canonical_splitLines region).isTerminated_of_flatten
  have hnext : last.line + 1 < lines.length := by
    by_contra hge
    exact hrest (List.drop_eq_nil_of_le (by omega))
  have hstop := hlast.lt_stop hnext
  have hstart := hlast.start_le
  have hkept : last.text.drop (stop - last.start) ≠ [] := by
    rw [Ne, List.drop_eq_nil_iff]
    omega
  have hwhole :
      Text.isTerminated (last.text.take (stop - last.start) ++ last.text.drop (stop - last.start)) =
        Text.isTerminated (last.text.drop (stop - last.start)) :=
    Text.isTerminated_append hkept
  rw [Text.flatten_splitLines, ← hregion, Text.isTerminated_append hkept, ← hwhole,
    List.take_append_drop]
  exact h.isTerminated_of_lt hnext hlast.text

theorem lines_ofText (text : Text) (capacity : Nat) :
    (ofText text capacity).lines = text.splitLines := by
  rw [ofText, lines_ofLines, List.filter_eq_self]
  intro line hline
  simpa using Text.ne_nil_of_mem_splitLines hline

theorem Balanced.canonical_edit (h : t.Balanced) (hlines : Text.Canonical t.lines)
    (start deleted : Nat) (inserted : Text) :
    Text.Canonical (t.edit start deleted inserted).lines := by
  rw [LineTree.edit]
  generalize hstart : min start t.length = start
  generalize hdeleted : min deleted (t.length - start) = deleted
  have hstop : start + deleted ≤ t.length := by omega
  dsimp only
  split
  · exact hlines
  · by_cases hempty : t.lines = []
    · rw [editedLine?_of_root_eq_nil (h.root_eq_nil hempty)]
      dsimp only
      rw [lines_ofText]
      exact Text.canonical_splitLines inserted
    · obtain ⟨first, hfirst, hfirst'⟩ :=
        h.exists_editedLine? (Nat.le_of_add_right_le hstop) hempty
      obtain ⟨last, hlast, hlast'⟩ := h.exists_editedLine? hstop hempty
      have hlt : last.line < t.lines.length := (List.getElem?_eq_some_iff.mp hlast'.text).1
      rw [hfirst, hlast]
      dsimp only
      rw [LineTree.lines, toList_rootOf,
        h.toListAll_splice_root (hfirst'.line_le hlast' (Nat.le_add_right ..)) hlt,
        toListAll_map_ofLine]
      exact canonical_replace hlines inserted hfirst' hlast'

theorem Balanced.canonical_editAll (h : t.Balanced) (hlines : Text.Canonical t.lines)
    (changes : List Change) : Text.Canonical (t.editAll changes).lines := by
  induction changes generalizing t with
  | nil => exact hlines
  | cons c changes ih => exact ih (h.edit ..) (h.canonical_edit hlines ..)

end

/-- After any edits the lines of a tree are the one canonical cut of its text,
also as they are read one at a time. So how many lines there are and what stands
in them depends on the text alone, not on the edits nor on the capacity. -/
theorem decomposes_editAll_ofText (text : Text) (capacity : Nat) (changes : List Change) :
    let t := (ofText text capacity).editAll changes
    t.text = Change.applyAll changes text ∧
      (∀ lines, Text.Decomposes lines t.text ↔ lines = t.reader.drain) ∧
      t.reader.drain = t.lines ∧
      t.lines = t.text.splitLines ∧
      t.lineCount = t.text.splitLines.length ∧
      ∀ line, t.lineText? line = t.text.splitLines[line]? := by
  intro t
  have hloaded := balanced_ofText text capacity
  have hbalanced : t.Balanced := hloaded.editAll changes
  have hcanonical : Text.Canonical t.lines := by
    apply hloaded.canonical_editAll
    rw [lines_ofText]
    exact Text.canonical_splitLines text
  have hlines : t.lines = t.text.splitLines := hcanonical.eq_splitLines
  have hread := hbalanced.drain_reader
  refine ⟨?_, fun lines => ?_, hread, hlines, ?_, fun line => ?_⟩
  · rw [hloaded.text_editAll, text_ofText]
  · rw [hread, hlines, Text.decomposes_iff]
  · rw [hbalanced.lineCount_eq, ← hlines]
  · rw [hbalanced.lineText?_eq, ← hlines]

end LineTree

end ProjectTracker
