import ProjectTracker.Proofs.LineTree.Positions

/-!
Parts of a text. A tree enters only the branches that overlap a range, and what it gathers from them is the
part of the text that stands there. Where a position lies can be told from the text alone, so that ranges
of positions do not depend on the tree either.
-/

namespace ProjectTracker

namespace Text

/-- The offset of the place in a text that is nearest to a position. A column counts at most to the end of
the content of its line, and a line that is not there is the end of the text. -/
def offset (text : Text) (p : Position) : Nat :=
  match text.splitLines[p.line]? with
  | some line => LineTree.startOf text.splitLines p.line + min p.character line.content.length
  | none => text.length

end Text

namespace LineTree

namespace Node

variable {capacity depth start stop : Nat} {node : Node} {nodes : List Node}

theorem drop_take_append (xs ys : Text) (start stop : Nat) :
    ((xs ++ ys).take stop).drop start =
      (xs.take stop).drop start ++ (ys.take (stop - xs.length)).drop (start - xs.length) := by
  rw [List.take_append, List.drop_append, List.length_take]
  rcases Nat.le_total xs.length stop with hle | hge
  · rw [Nat.min_eq_right hle]
  · -- nothing is taken of the second text, wherever it is cut
    rw [Nat.sub_eq_zero_of_le hge, List.take_zero, List.drop_nil, List.drop_nil]

/-- A node that ends before the range, or starts after it, has no part in it. -/
theorem rangeAll_eq (hchars : ∀ node ∈ nodes, node.chars = node.toList.flatten.length)
    (h : ∀ node ∈ nodes, ∀ start stop,
      node.range start stop = (node.toList.flatten.take stop).drop start) :
    rangeAll nodes start stop = ((toListAll nodes).flatten.take stop).drop start := by
  induction nodes generalizing start stop with
  | nil => simp [rangeAll, toListAll]
  | cons node nodes ih =>
      have hrest := @ih (start - node.chars) (stop - node.chars)
        (fun node hmem => hchars node (List.mem_cons_of_mem _ hmem))
        fun node hmem => h node (List.mem_cons_of_mem _ hmem)
      have hnode := hchars node List.mem_cons_self
      rw [rangeAll, toListAll, List.flatten_append, drop_take_append, ← hnode, hrest]
      split
      · rename_i hstop
        rw [hstop, Nat.zero_sub, List.take_zero, List.take_zero, List.drop_nil, List.drop_nil]
        rfl
      · congr 1
        split
        · exact h node List.mem_cons_self start stop
        · rename_i hstart
          refine (List.drop_eq_nil_of_le ?_).symm
          have hlength := List.length_take_le' stop node.toList.flatten
          omega

theorem Balanced.range_eq (h : node.Balanced capacity depth) (start stop : Nat) :
    node.range start stop = (node.toList.flatten.take stop).drop start := by
  induction h generalizing start stop with
  | @leaf text =>
      rw [range, toList, List.flatten_singleton]
      congr 1
      rw [List.take_eq_take_iff]
      omega
  | branch _ _ balanced ih =>
      exact rangeAll_eq (fun node hnode => (balanced node hnode).chars_eq) ih

end Node

variable {t : LineTree} {start count : Nat}

theorem Balanced.range_root_eq (h : t.Balanced) (start stop : Nat) :
    t.root.range start stop = (t.text.take stop).drop start := by
  rw [LineTree.text, LineTree.lines]
  rcases h.root with hroot | ⟨depth, hroot, -⟩
  · rw [hroot]
    simp [Node.ofChildren, Node.range, Node.rangeAll, Node.toList, Node.toListAll]
  · exact hroot.range_eq start stop

/-- What a tree gives for a part of its text is this part. -/
theorem Balanced.getText_eq (h : t.Balanced) (start count : Nat) :
    t.getText start count = t.text.slice start count := by
  have hlength := h.length_eq
  rw [getText, Text.slice]
  split
  · rename_i hnothing
    rcases hnothing with rfl | hpast
    · rfl
    · rw [List.drop_eq_nil_of_le (hlength ▸ hpast), List.take_nil]
  · rename_i hsome
    have hstop : min (start + count) t.length - start = min count (t.text.drop start).length := by
      rw [List.length_drop]
      omega
    rw [h.range_root_eq, List.drop_take, hstop, List.take_eq_take_iff, Nat.min_assoc, Nat.min_self]

/-- Where a tree finds a position is where it lies in the text. -/
theorem Balanced.offset_eq (h : t.Balanced) (hlines : Text.Canonical t.lines) (p : Position) :
    t.offset p = t.text.offset p := by
  have hsplit : t.text.splitLines = t.lines := hlines.eq_splitLines.symm
  rw [Text.offset, hsplit]
  cases hline : t.lines[p.line]? with
  | some line => exact h.offset_of_line hline
  | none => exact (h.offset_of_no_line hline).trans h.length_eq

end LineTree

namespace Text

/-- Later positions never have smaller offsets, and no position lies past the end. -/
theorem offset_mono (text : Text) {p q : Position} (h : ¬q.isBefore p) :
    text.offset p ≤ text.offset q ∧ text.offset q ≤ text.length := by
  have hbalanced := LineTree.balanced_ofText text LineTree.defaultCapacity
  have hlines : Canonical (LineTree.ofText text LineTree.defaultCapacity).lines := by
    rw [LineTree.lines_ofText]
    exact canonical_splitLines text
  have hoffset := hbalanced.offset_eq hlines
  rw [LineTree.text_ofText] at hoffset
  have hlength := hbalanced.length_eq
  rw [LineTree.text_ofText] at hlength
  rw [← hoffset, ← hoffset, ← hlength]
  exact ⟨hbalanced.offset_mono h, hbalanced.offset_le q⟩

end Text

end ProjectTracker
