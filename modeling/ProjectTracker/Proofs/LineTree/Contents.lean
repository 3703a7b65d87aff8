import ProjectTracker.Proofs.LineTree.Balance

/-!
What a line tree holds, as a list of lines. The totals count that list, a line
is found where the list has it, and replacing lines in the tree replaces them in
the list.
-/

namespace ProjectTracker.LineTree

/-- The offset at which a line of a list starts. -/
def startOf (lines : List Text) (line : Nat) : Nat :=
  (lines.take line).flatten.length

@[simp] theorem startOf_zero (lines : List Text) : startOf lines 0 = 0 := by
  simp [startOf]

theorem startOf_succ {lines : List Text} {line : Nat} {text : Text} (h : lines[line]? = some text) :
    startOf lines (line + 1) = startOf lines line + text.length := by
  simp [startOf, List.take_add_one, h]

theorem startOf_mono (lines : List Text) {i j : Nat} (h : i ≤ j) :
    startOf lines i ≤ startOf lines j := by
  obtain ⟨k, rfl⟩ := Nat.exists_eq_add_of_le h
  simp [startOf, List.take_add]

theorem startOf_append (xs ys : List Text) (line : Nat) :
    startOf (xs ++ ys) (line + xs.length) = startOf ys line + xs.flatten.length := by
  rw [startOf, startOf, List.take_append, List.take_of_length_le (by omega), Nat.add_sub_cancel,
    List.flatten_append, List.length_append, Nat.add_comm]

/-- The text before an offset in a line, and the text from it on. -/
theorem take_drop_flatten {lines : List Text} {line : Nat} {text : Text} {offset : Nat}
    (h : lines[line]? = some text) (hle : startOf lines line ≤ offset)
    (hge : offset ≤ startOf lines line + text.length) :
    lines.flatten.take offset =
        (lines.take line).flatten ++ text.take (offset - startOf lines line) ∧
      lines.flatten.drop offset =
        text.drop (offset - startOf lines line) ++ (lines.drop (line + 1)).flatten := by
  obtain ⟨hlt, rfl⟩ := List.getElem?_eq_some_iff.mp h
  have hsplit : lines.flatten =
      (lines.take line).flatten ++ (lines[line] ++ (lines.drop (line + 1)).flatten) := by
    rw [← List.flatten_cons, ← List.drop_eq_getElem_cons hlt, ← List.flatten_append,
      List.take_append_drop]
  obtain ⟨k, rfl⟩ := Nat.exists_eq_add_of_le hle
  rw [hsplit, startOf, List.take_length_add_append, List.drop_length_add_append,
    List.take_append_of_le_length (by simpa [startOf] using hge),
    List.drop_append_of_le_length (by simpa [startOf] using hge), Nat.add_sub_cancel_left]
  exact ⟨rfl, rfl⟩

namespace Node

/-! ### Runs of nodes -/

@[simp] theorem toListAll_append (xs ys : List Node) :
    toListAll (xs ++ ys) = toListAll xs ++ toListAll ys := by
  induction xs with
  | nil => rfl
  | cons x xs ih => simp [toListAll, ih]

theorem toListAll_map_ofLine (texts : List Text) : toListAll (texts.map ofLine) = texts := by
  induction texts with
  | nil => rfl
  | cons text texts ih => simp [toListAll, toList, ofLine, ih]

theorem toListAll_map_ofChildren (chunks : List (List Node)) :
    toListAll (chunks.map ofChildren) = toListAll chunks.flatten := by
  induction chunks with
  | nil => rfl
  | cons chunk chunks ih => simp [toListAll, toList, ofChildren, ih]

@[simp] theorem toListAll_group (capacity : Nat) (nodes : List Node) :
    toListAll (group capacity nodes) = toListAll nodes := by
  rw [group, toListAll_map_ofChildren, flatten_chunksFrom, List.reverse_nil, List.nil_append]

@[simp] theorem toListAll_raise (capacity fuel : Nat) (nodes : List Node) :
    toListAll (raise capacity fuel nodes) = toListAll nodes := by
  induction fuel generalizing nodes with
  | zero => rfl
  | succ fuel ih =>
      rw [raise]
      split
      · rfl
      · rw [ih, toListAll_group]

@[simp] theorem toList_collapse (node : Node) : node.collapse.toList = node.toList := by
  fun_induction collapse node with
  | case1 => simp_all [toList, toListAll]
  | case2 => rfl

/-- Building levels above a run of nodes keeps its lines. -/
@[simp] theorem toList_rootOf (capacity : Nat) (nodes : List Node) :
    (rootOf capacity nodes).toList = toListAll nodes := by
  rw [rootOf, toList_collapse, ofChildren, toList, toListAll_raise]

/-! ### Totals -/

section

variable {capacity depth : Nat} {node : Node} {nodes : List Node}

theorem total_lines_eq (h : ∀ node ∈ nodes, node.lines = node.toList.length) :
    total lines nodes = (toListAll nodes).length := by
  induction nodes with
  | nil => rfl
  | cons node nodes ih =>
      have hrest := ih fun node hnode => h node (List.mem_cons_of_mem _ hnode)
      simp only [toListAll, List.length_append, ← hrest, ← h node (by simp)]
      rfl

theorem total_chars_eq (h : ∀ node ∈ nodes, node.chars = node.toList.flatten.length) :
    total chars nodes = (toListAll nodes).flatten.length := by
  induction nodes with
  | nil => rfl
  | cons node nodes ih =>
      have hrest := ih fun node hnode => h node (List.mem_cons_of_mem _ hnode)
      simp only [toListAll, List.flatten_append, List.length_append, ← hrest, ← h node (by simp)]
      rfl

theorem Balanced.lines_eq (h : node.Balanced capacity depth) : node.lines = node.toList.length := by
  induction h with
  | leaf => rfl
  | branch _ _ _ ih => exact total_lines_eq ih

theorem Balanced.chars_eq (h : node.Balanced capacity depth) :
    node.chars = node.toList.flatten.length := by
  induction h with
  | leaf => simp [chars, toList]
  | branch _ _ _ ih => exact total_chars_eq ih

theorem Balanced.toList_ne_nil (h : node.Balanced capacity depth) : node.toList ≠ [] := by
  induction h with
  | leaf => simp [toList]
  | @branch _ children ne_nil _ _ ih =>
      obtain ⟨first, rest, rfl⟩ := List.exists_cons_of_ne_nil ne_nil
      simp [toList, toListAll, ih first]

end

/-! ### Finding lines -/

/-- A line of a list as it is found from an offset inside of it. -/
structure Found.Covers (found : Found) (lines : List Text) (offset : Nat) : Prop where
  text : lines[found.line]? = some found.text
  start : found.start = startOf lines found.line
  start_le : found.start ≤ offset
  lt_stop : offset < found.start + found.text.length

theorem Found.Covers.append {found : Found} {xs : List Text} {offset : Nat}
    (h : found.Covers xs offset) (ys : List Text) : found.Covers (xs ++ ys) offset := by
  have hlt : found.line < xs.length := (List.getElem?_eq_some_iff.mp h.text).1
  refine ⟨?_, ?_, h.start_le, h.lt_stop⟩
  · rw [List.getElem?_append_left hlt, h.text]
  · rw [h.start, startOf, startOf, List.take_append_of_le_length (Nat.le_of_lt hlt)]

theorem Found.Covers.shift {found : Found} {ys : List Text} {offset : Nat} (xs : List Text)
    (h : found.Covers ys (offset - xs.flatten.length)) (hle : xs.flatten.length ≤ offset) :
    (found.shift xs.length xs.flatten.length).Covers (xs ++ ys) offset := by
  have hstart := h.start_le
  have hstop := h.lt_stop
  refine ⟨?_, ?_, ?_, ?_⟩
  · rw [Found.shift, List.getElem?_append_right (by simp), Nat.add_sub_cancel, h.text]
  · rw [Found.shift, startOf_append, h.start]
  · simp only [Found.shift]; omega
  · simp only [Found.shift]; omega

/-- A line of a list into which an edit at an offset falls: the one that holds
the offset, or the last one if the offset is the end of the text. -/
structure Found.Touches (found : Found) (lines : List Text)
    (offset : Nat) : Prop where
  text : lines[found.line]? = some found.text
  start : found.start = startOf lines found.line
  start_le : found.start ≤ offset
  le_stop : offset ≤ found.start + found.text.length
  lt_stop : found.line + 1 < lines.length → offset < found.start + found.text.length

theorem Found.Covers.touches {found : Found} {lines : List Text} {offset : Nat}
    (h : found.Covers lines offset) : found.Touches lines offset :=
  ⟨h.text, h.start, h.start_le, Nat.le_of_lt h.lt_stop, fun _ => h.lt_stop⟩

/-- The last line, for the end of the text. -/
theorem Found.touches_last {lines : List Text} {offset : Nat} (h : lines ≠ [])
    (hoffset : offset = lines.flatten.length) :
    Found.Touches
      ⟨lines.length - 1, lines.flatten.length - (lines.getLast h).length, lines.getLast h⟩
      lines offset := by
  have hpos : 0 < lines.length := List.length_pos_iff.mpr h
  have htext : lines[lines.length - 1]? = some (lines.getLast h) := by
    rw [← List.getLast?_eq_getElem?, List.getLast?_eq_some_getLast h]
  have hlength : startOf lines (lines.length - 1) + (lines.getLast h).length =
      lines.flatten.length := by
    rw [← startOf_succ htext, startOf, List.take_of_length_le (by omega)]
  refine ⟨htext, ?_, ?_, ?_, ?_⟩
  · dsimp only; omega
  · dsimp only; omega
  · dsimp only; omega
  · intro hlt
    dsimp only at hlt
    omega

theorem Found.Touches.line_le {first last : Found} {lines : List Text} {start stop : Nat}
    (hfirst : first.Touches lines start) (hlast : last.Touches lines stop) (h : start ≤ stop) :
    first.line ≤ last.line := by
  -- otherwise the whole last line would lie before the first one starts
  by_contra hlt
  have hline : first.line < lines.length := (List.getElem?_eq_some_iff.mp hfirst.text).1
  have hstart := startOf_mono lines (show last.line + 1 ≤ first.line by omega)
  rw [startOf_succ hlast.text, ← hlast.start, ← hfirst.start] at hstart
  have := hlast.lt_stop (by omega)
  have := hfirst.start_le
  omega

/-- What stands before an offset is what stands before the line that it falls
into and the part of this line up to it; likewise for what follows. -/
theorem Found.Touches.take_drop {found : Found} {lines : List Text} {offset : Nat}
    (h : found.Touches lines offset) :
    lines.flatten.take offset =
        (lines.take found.line).flatten ++ found.text.take (offset - found.start) ∧
      lines.flatten.drop offset =
        found.text.drop (offset - found.start) ++ (lines.drop (found.line + 1)).flatten := by
  have hle := h.start_le
  have hge := h.le_stop
  rw [h.start] at hle hge ⊢
  exact take_drop_flatten h.text hle hge

theorem exists_atOffsetAll? {capacity depth : Nat} {nodes : List Node}
    (hnodes : ∀ node ∈ nodes, node.Balanced capacity depth)
    (h : ∀ node ∈ nodes, ∀ offset < node.chars,
      ∃ found, node.atOffset? offset = some found ∧ found.Covers node.toList offset)
    {offset : Nat} (hoffset : offset < (toListAll nodes).flatten.length) :
    ∃ found, atOffsetAll? nodes offset = some found ∧ found.Covers (toListAll nodes) offset := by
  induction nodes generalizing offset with
  | nil => simp [toListAll] at hoffset
  | cons node nodes ih =>
      have hnode := hnodes node (by simp)
      rw [atOffsetAll?, toListAll]
      split
      · rename_i hlt
        obtain ⟨found, heq, hcovers⟩ := h node (by simp) offset hlt
        exact ⟨found, heq, hcovers.append _⟩
      · rename_i hge
        rw [toListAll, List.flatten_append, List.length_append, ← hnode.chars_eq] at hoffset
        have hrest : offset - node.chars < (toListAll nodes).flatten.length := by omega
        obtain ⟨found, heq, hcovers⟩ := ih (fun node hmem => hnodes node (by simp [hmem]))
          (fun node hmem => h node (by simp [hmem])) hrest
        refine ⟨found.shift node.lines node.chars, by rw [heq]; rfl, ?_⟩
        -- the node that is passed over counts as much as its lines do
        rw [hnode.chars_eq] at hcovers hge
        rw [hnode.lines_eq, hnode.chars_eq]
        exact hcovers.shift _ (by omega)

/-- Descending by the totals leads to the line that the offset lies in. -/
theorem Balanced.exists_atOffset? {capacity depth : Nat} {node : Node}
    (h : node.Balanced capacity depth) {offset : Nat} (hoffset : offset < node.chars) :
    ∃ found, node.atOffset? offset = some found ∧ found.Covers node.toList offset := by
  induction h generalizing offset with
  | leaf =>
      exact ⟨⟨0, 0, _⟩, rfl, rfl, by simp, Nat.zero_le _, by simpa [chars] using hoffset⟩
  | @branch depth children _ _ balanced ih =>
      apply exists_atOffsetAll? balanced fun node hnode offset => ih node hnode
      rwa [← total_chars_eq fun node hnode => (balanced node hnode).chars_eq]

theorem lastLineAll?_eq {nodes : List Node}
    (h : ∀ node ∈ nodes, node.toList ≠ [] ∧ node.lastLine? = node.toList.getLast?) :
    lastLineAll? nodes = (toListAll nodes).getLast? := by
  induction nodes with
  | nil => rfl
  | cons node nodes ih =>
      cases nodes with
      | nil => simp [lastLineAll?, toListAll, (h node (by simp)).2]
      | cons next nodes =>
          have hrest := ih fun node hnode => h node (List.mem_cons_of_mem _ hnode)
          have hnext : toListAll (next :: nodes) ≠ [] := by
            simp [toListAll, (h next (by simp)).1]
          rw [lastLineAll?, hrest]
          exact (List.getLast?_append_of_ne_nil _ hnext).symm

theorem Balanced.lastLine?_eq {capacity depth : Nat} {node : Node}
    (h : node.Balanced capacity depth) : node.lastLine? = node.toList.getLast? := by
  induction h with
  | leaf => rfl
  | branch _ _ balanced ih =>
      exact lastLineAll?_eq fun node hnode => ⟨(balanced node hnode).toList_ne_nil, ih node hnode⟩

/-! ### Replacing lines -/

/-- What stands for a list of lines, the first of them line `line` of a text,
when the lines of the text from `first` to `last` give way to `new`. -/
def replaceLines (first last : Nat) (new : List Text) : Nat → List Text → List Text
  | _, [] => []
  | line, text :: texts =>
    (if line = first then new else if first < line ∧ line ≤ last then [] else [text]) ++
      replaceLines first last new (line + 1) texts

section

variable {first last : Nat} {new : List Text}

theorem replaceLines_append (line : Nat) (xs ys : List Text) :
    replaceLines first last new line (xs ++ ys) =
      replaceLines first last new line xs ++ replaceLines first last new (line + xs.length) ys := by
  induction xs generalizing line with
  | nil => rfl
  | cons x xs ih =>
      simp only [List.cons_append, replaceLines, ih, List.append_assoc, List.length_cons]
      rw [show line + 1 + xs.length = line + (xs.length + 1) by omega]

theorem replaceLines_before {line : Nat} {texts : List Text} (h : line + texts.length ≤ first) :
    replaceLines first last new line texts = texts := by
  induction texts generalizing line with
  | nil => rfl
  | cons text texts ih =>
      rw [List.length_cons] at h
      rw [replaceLines, ih (by omega), if_neg (by omega), if_neg (by omega)]
      rfl

theorem replaceLines_after {line : Nat} {texts : List Text} (h : first < line) :
    replaceLines first last new line texts = texts.drop (last + 1 - line) := by
  induction texts generalizing line with
  | nil => simp [replaceLines]
  | cons text texts ih =>
      rw [replaceLines, ih (by omega), if_neg (by omega)]
      by_cases hline : line ≤ last
      · rw [if_pos ⟨h, hline⟩, show last + 1 - line = last + 1 - (line + 1) + 1 by omega]
        rfl
      · rw [if_neg (by omega), show last + 1 - line = 0 by omega,
          show last + 1 - (line + 1) = 0 by omega]
        rfl

/-- In a text that has them all, the replaced lines are one stretch. -/
theorem replaceLines_around {line : Nat} {texts : List Text} (hline : line ≤ first)
    (hle : first ≤ last) (hlast : last < line + texts.length) :
    replaceLines first last new line texts =
      texts.take (first - line) ++ new ++ texts.drop (last + 1 - line) := by
  induction texts generalizing line with
  | nil => simp only [List.length_nil] at hlast; omega
  | cons text texts ih =>
      rw [List.length_cons] at hlast
      rw [replaceLines, show last + 1 - line = last + 1 - (line + 1) + 1 by omega,
        List.drop_succ_cons]
      by_cases hfirst : line = first
      · rw [if_pos hfirst, replaceLines_after (by omega), hfirst, Nat.sub_self]
        rfl
      · rw [if_neg hfirst, if_neg (by omega), ih (by omega) (by omega),
          show first - line = first - (line + 1) + 1 by omega]
        rfl

end

theorem Replacement.overlap_eq_apart {r : Replacement} {line count : Nat}
    (h : r.overlap line count = .apart) : line + count - 1 < r.first ∨ r.last < line := by
  grind [Replacement.overlap]

theorem Replacement.overlap_eq_within {r : Replacement} {line count : Nat}
    (h : r.overlap line count = .within) : r.first < line ∧ line + count - 1 ≤ r.last := by
  grind [Replacement.overlap]

section

variable {r : Replacement} {new : List Text} {line : Nat} {texts : List Text}

theorem replaceLines_apart (hr : r.first ≤ r.last)
    (h : r.overlap line texts.length = .apart) :
    replaceLines r.first r.last new line texts = texts := by
  rcases Replacement.overlap_eq_apart h with hbefore | hafter
  · exact replaceLines_before (by omega)
  · rw [replaceLines_after (by omega), show r.last + 1 - line = 0 by omega, List.drop_zero]

theorem replaceLines_within (h : r.overlap line texts.length = .within) :
    replaceLines r.first r.last new line texts = [] := by
  obtain ⟨hfirst, hlast⟩ := Replacement.overlap_eq_within h
  rw [replaceLines_after hfirst, List.drop_eq_nil_iff]
  omega

end

/-- A single line that is neither apart nor within is the first replaced one. -/
theorem Replacement.overlap_eq_across {r : Replacement} {line : Nat}
    (h : r.overlap line 1 = .across) : line = r.first := by
  grind [Replacement.overlap]

theorem toListAll_spliceAll {capacity : Nat} {r : Replacement} {nodes : List Node}
    (hlines : ∀ node ∈ nodes, node.lines = node.toList.length)
    (h : ∀ node ∈ nodes, ∀ line, toListAll (node.splice capacity r line) =
      replaceLines r.first r.last (toListAll r.leaves) line node.toList) (line : Nat) :
    toListAll (spliceAll capacity r line nodes) =
      replaceLines r.first r.last (toListAll r.leaves) line (toListAll nodes) := by
  induction nodes generalizing line with
  | nil => rfl
  | cons node nodes ih =>
      rw [spliceAll, toListAll_append, h node (by simp), toListAll, replaceLines_append,
        ih (fun node hnode => hlines node (List.mem_cons_of_mem _ hnode))
          (fun node hnode => h node (List.mem_cons_of_mem _ hnode)),
        hlines node (by simp)]

/-- A node that lies apart keeps its lines, one within loses them, and only one
across has to be entered. -/
theorem Balanced.toListAll_splice {capacity depth : Nat} {node : Node} {r : Replacement}
    (hr : r.first ≤ r.last) (h : node.Balanced capacity depth) (line : Nat) :
    toListAll (node.splice capacity r line) =
      replaceLines r.first r.last (toListAll r.leaves) line node.toList := by
  induction h generalizing line with
  | @leaf text ne_nil =>
      rw [splice]
      cases hoverlap : r.overlap line 1 with
      | apart => exact (replaceLines_apart hr hoverlap).symm
      | within => exact (replaceLines_within hoverlap).symm
      | across =>
          have hline := Replacement.overlap_eq_across hoverlap
          simp [hline, toList, replaceLines]
  | @branch depth children ne_nil length_le balanced ih =>
      have hlines := total_lines_eq fun node hnode => (balanced node hnode).lines_eq
      rw [splice, hlines]
      cases hoverlap : r.overlap line (toListAll children).length with
      | apart =>
          rw [toListAll, toListAll, List.append_nil, toList]
          exact (replaceLines_apart hr hoverlap).symm
      | within => exact (replaceLines_within hoverlap).symm
      | across =>
          simp only [toListAll_group]
          exact toListAll_spliceAll (fun node hnode => (balanced node hnode).lines_eq) ih line

end Node

end ProjectTracker.LineTree
