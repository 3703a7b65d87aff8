import ProjectTracker.Proofs.LineTree.Arithmetic
import ProjectTracker.Proofs.LineTree.Positions

/-!
Lines by number. A tree goes down to a line by its cached totals and reads its lines in order from a stack; both give
the lines of one list, and the offsets where these start are the sums of the lengths before them. The search here
adds up on the way down what the search of the tree adds on the way back.
-/

namespace ProjectTracker.LineTree

namespace Node

mutual

/-- The line that `rest` others come before, below a node that starts at `offset`: where it starts, and its text. -/
def seek? : Node → Nat → Nat → Option (Nat × Text)
  | leaf text _, _, offset => some (offset, text)
  | branch children _ _, rest, offset => seekAll? children rest offset

/-- The same below a run of nodes. -/
def seekAll? : List Node → Nat → Nat → Option (Nat × Text)
  | [], _, _ => none
  | node :: nodes, rest, offset =>
    if rest < node.lines then node.seek? rest offset
    else seekAll? nodes (rest - node.lines) (offset + node.chars)

end

mutual

/-- Whatever the totals are, it makes no difference on which way they are added up. -/
theorem seek?_eq (node : Node) (rest offset : Nat) :
    node.seek? rest offset = (node.atLine? rest).map fun found => (offset + found.start, found.text) := by
  cases node with
  | leaf text chars => rfl
  | branch children chars lines => exact seekAll?_eq children rest offset

theorem seekAll?_eq (nodes : List Node) (rest offset : Nat) :
    seekAll? nodes rest offset =
      (atLineAll? nodes rest).map fun found => (offset + found.start, found.text) := by
  cases nodes with
  | nil => rfl
  | cons node nodes =>
      rw [seekAll?, atLineAll?]
      split
      · exact seek?_eq node rest offset
      · rw [seekAll?_eq nodes, Option.map_map]
        congr 1
        funext found
        simp only [Function.comp_apply, Found.shift, Prod.mk.injEq, and_true]
        omega

end

end Node

/-! ### Where lines start -/

/-- A line starts after all lines before it. -/
theorem startOf_eq_sum (lines : List Text) (line : Nat) :
    startOf lines line = ((lines.map List.length).take line).sum := by
  rw [startOf, List.length_flatten, List.map_take]

theorem startsFrom_eq (offset : Nat) (lines : List Text) :
    startsFrom offset lines = (List.range lines.length).map fun line => offset + startOf lines line := by
  induction lines generalizing offset with
  | nil => rfl
  | cons text lines ih =>
      have hstart (line : Nat) : startOf (text :: lines) (line + 1) = text.length + startOf lines line := by
        rw [startOf, startOf, List.take_succ_cons, List.flatten_cons, List.length_append]
      rw [startsFrom, ih, List.length_cons, List.range_succ_eq_map, List.map_cons, List.map_map, startOf_zero]
      congr 1
      apply List.map_congr_left
      intro line _
      rw [Function.comp_apply, Nat.succ_eq_add_one, hstart, Nat.add_assoc]

/-- The offsets of the lines of a tree, by the list of its lines. -/
theorem lineStarts_eq (t : LineTree) : t.lineStarts = (List.range t.lines.length).map (startOf t.lines) := by
  rw [lineStarts, startsFrom_eq]
  simp only [Nat.zero_add]

/-- Whatever a tree is loaded from and however it is edited, all that is asked of it about lines agrees with the list
of lines that it yields one at a time. The search for a line finds it if there are that many, on either way of adding
up; a line that is not there has no text and stands at the end of the text. -/
theorem lineInfo_editAll_load (origin : Origin) (changes : List Change) :
    let t := origin.load.editAll changes
    let lines := t.reader.drain
    let start (line : Nat) := ((lines.map List.length).take line).sum
    t.lines = lines ∧
    t.lineCount = lines.length ∧
    t.lineStarts = (List.range lines.length).map start ∧
    (∀ line < t.lineCount, ∃ text, lines[line]? = some text ∧
      t.root.seek? line 0 = some (start line, text) ∧
      t.root.atLine? line = some ⟨line, start line, text⟩ ∧
      t.lineInfo line = (start line, text) ∧
      t.lineText? line = some text) ∧
    ∀ line, t.lineCount ≤ line → t.lineInfo line = (t.length, []) ∧ t.lineText? line = none := by
  intro t lines start
  have hbalanced : t.Balanced := origin.balanced_load.editAll changes
  have hlines : t.lines = lines := hbalanced.drain_reader.symm
  have hcount : t.lineCount = lines.length := hlines ▸ hbalanced.lineCount_eq
  have hstart : startOf t.lines = start := by
    funext line
    rw [startOf_eq_sum, hlines]
  refine ⟨hlines, hcount, ?_, fun line hline => ?_, fun line hline => ?_⟩
  · rw [lineStarts_eq, hstart, hlines]
  · obtain ⟨text, hfound, htext⟩ := hbalanced.exists_atLine? hline
    have hinfo := hbalanced.lineInfo_eq line
    have hlineText := hbalanced.lineText?_eq line
    rw [hstart] at hfound
    rw [htext] at hinfo hlineText
    refine ⟨text, hlines ▸ htext, ?_, hfound, hstart ▸ hinfo, hlineText⟩
    rw [Node.seek?_eq, hfound, Option.map_some, Nat.zero_add]
  · have hnone : t.lines[line]? = none := List.getElem?_eq_none (hlines ▸ hcount ▸ hline)
    rw [hbalanced.lineInfo_eq, hbalanced.lineText?_eq, hnone]
    exact ⟨rfl, rfl⟩

end ProjectTracker.LineTree
