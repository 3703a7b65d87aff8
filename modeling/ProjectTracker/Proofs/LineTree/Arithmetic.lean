import Mathlib.Data.Nat.PSub
import ProjectTracker.Proofs.LineTree.Shape

/-!
The arithmetic of a line tree. The functions of this module work as those of the
tree do, but take every difference with `Nat.psub`, which fails below zero, and
carry the line and the offset where a node starts from the root down. On a tree
that is loaded and edited they never fail, and give what the tree gives: the
totals of a shapely tree leave nothing to underflow.
-/

namespace ProjectTracker.LineTree

namespace Node

/-! ### Searching by offset -/

mutual

/-- The line that holds the character at `offset`, below a node that starts at line `line` and at
offset `start`. -/
def leafAt? (offset : Nat) : Node → Nat → Nat → Option (Option Found)
  | leaf text _, line, start => some (some ⟨line, start, text⟩)
  | branch children _ _, line, start => leafAtAll? offset children line start

/-- The same below a run of nodes. -/
def leafAtAll? (offset : Nat) : List Node → Nat → Nat → Option (Option Found)
  | [], _, _ => some none
  | node :: nodes, line, start => do
    let rest ← offset.psub start
    if rest < node.chars then node.leafAt? offset line start
    else leafAtAll? offset nodes (line + node.lines) (start + node.chars)

end

theorem Found.shift_shift (found : Found) (lines chars lines' chars' : Nat) :
    (found.shift lines chars).shift lines' chars' = found.shift (lines' + lines) (chars' + chars) := by
  simp only [Found.shift, Found.mk.injEq, and_true]
  omega

mutual

/-- The search only moves on to a node that starts at or before the offset. -/
theorem leafAt?_eq {offset : Nat} (node : Node) (line : Nat) {start : Nat} (h : start ≤ offset) :
    node.leafAt? offset line start =
      some ((node.atOffset? (offset - start)).map (·.shift line start)) := by
  cases node with
  | leaf text chars => simp [leafAt?, atOffset?, Found.shift]
  | branch children chars lines =>
      rw [leafAt?, atOffset?]
      exact leafAtAll?_eq children line h

theorem leafAtAll?_eq {offset : Nat} (nodes : List Node) (line : Nat) {start : Nat}
    (h : start ≤ offset) :
    leafAtAll? offset nodes line start =
      some ((atOffsetAll? nodes (offset - start)).map (·.shift line start)) := by
  cases nodes with
  | nil => rfl
  | cons node nodes =>
      rw [leafAtAll?, atOffsetAll?, Nat.psub_eq_sub h]
      dsimp only [Option.bind_eq_bind, Option.bind_some]
      split
      · exact leafAt?_eq node line h
      · rename_i hge
        rw [leafAtAll?_eq nodes _ (by omega), Option.map_map, Nat.sub_sub]
        congr 2
        funext found
        exact (found.shift_shift ..).symm

end

/-! ### Reading a range -/

mutual

/-- The characters from `start` to before `stop`, below a node that starts at offset `base`. -/
def collect? (start stop : Nat) : Node → Nat → Option Text
  | leaf text chars, base => do
    let upto ← stop.psub base
    some ((text.take (min upto chars)).drop (start - base))
  | branch children _ _, base => collectAll? start stop children base

/-- The same below a run of nodes. A node is entered if it overlaps the range, and none is looked at
once the range has ended. -/
def collectAll? (start stop : Nat) : List Node → Nat → Option Text
  | [], _ => some []
  | node :: nodes, base =>
    let next := base + node.chars
    let here := if start < next ∧ base < stop then node.collect? start stop base else some []
    if stop ≤ next then here
    else do
      let first ← here
      let rest ← collectAll? start stop nodes next
      some (first ++ rest)

end

theorem rangeAll_zero (nodes : List Node) (start : Nat) : rangeAll nodes start 0 = [] := by
  cases nodes <;> simp [rangeAll]

theorem collectAll?_eq {start stop : Nat} {nodes : List Node}
    (hpos : ∀ node ∈ nodes, 0 < node.chars)
    (h : ∀ node ∈ nodes, ∀ base ≤ stop,
      node.collect? start stop base = some (node.range (start - base) (stop - base)))
    {base : Nat} (hbase : base ≤ stop) :
    collectAll? start stop nodes base = some (rangeAll nodes (start - base) (stop - base)) := by
  induction nodes generalizing base with
  | nil => rfl
  | cons node nodes ih =>
      have hchars := hpos node (by simp)
      rw [collectAll?, rangeAll]
      rcases Nat.eq_or_lt_of_le hbase with rfl | hlt
      · simp
      · -- a node that holds a character overlaps the range if it ends after its start
        have hhere : (if start < base + node.chars ∧ base < stop then node.collect? start stop base
            else some []) =
              some (if start - base < node.chars then node.range (start - base) (stop - base)
                else []) := by
          by_cases hin : start - base < node.chars
          · rw [if_pos ⟨by omega, hlt⟩, if_pos hin, h node (by simp) base hbase]
          · rw [if_neg (by omega), if_neg hin]
        rw [hhere, if_neg (show stop - base ≠ 0 by omega), Nat.sub_sub, Nat.sub_sub]
        split
        · rename_i hend
          rw [Nat.sub_eq_zero_of_le hend, rangeAll_zero, List.append_nil]
        · rename_i hmore
          rw [ih (fun node hmem => hpos node (by simp [hmem]))
            (fun node hmem => h node (by simp [hmem])) (by omega)]
          rfl

/-- A node that is read starts before the range ends. -/
theorem Balanced.collect?_eq {capacity depth : Nat} {node : Node}
    (h : node.Balanced capacity depth) {start stop base : Nat} (hbase : base ≤ stop) :
    node.collect? start stop base = some (node.range (start - base) (stop - base)) := by
  induction h generalizing base with
  | leaf =>
      rw [collect?, range, Nat.psub_eq_sub hbase]
      rfl
  | branch _ _ balanced ih =>
      exact collectAll?_eq (fun node hnode => (balanced node hnode).chars_pos)
        (fun node hnode base hbase => ih node hnode hbase) hbase

/-! ### Replacing lines -/

/-- How a node with `count` lines that starts at line `line` lies to the replaced lines. -/
def Replacement.overlap? (r : Replacement) (line count : Nat) : Option Overlap := do
  let last ← (line + count).psub 1
  if last < r.first ∨ r.last < line then some .apart
  else if r.first < line ∧ last ≤ r.last then some .within
  else some .across

theorem Replacement.overlap?_eq (r : Replacement) (line : Nat) {count : Nat} (h : 0 < count) :
    r.overlap? line count = some (r.overlap line count) := by
  rw [Replacement.overlap?, Nat.psub_eq_sub (by omega), Replacement.overlap]
  dsimp only [Option.bind_eq_bind, Option.bind_some]
  split
  · rfl
  · split <;> rfl

mutual

/-- The nodes that stand for a node after the replacement. -/
def splice? (capacity : Nat) (r : Replacement) (line : Nat) : Node → Option (List Node)
  | leaf text chars => do
    match ← r.overlap? line 1 with
    | .apart => some [leaf text chars]
    | .within => some []
    | .across => some (if line = r.first then r.leaves else [])
  | branch children chars lines => do
    match ← r.overlap? line lines with
    | .apart => some [branch children chars lines]
    | .within => some []
    | .across =>
      let nodes ← spliceAll? capacity r line children
      some (group capacity nodes)

/-- The nodes that stand for a run of nodes after the replacement. -/
def spliceAll? (capacity : Nat) (r : Replacement) (line : Nat) : List Node → Option (List Node)
  | [] => some []
  | node :: nodes => do
    let here ← node.splice? capacity r line
    let rest ← spliceAll? capacity r (line + node.lines) nodes
    some (here ++ rest)

end

theorem spliceAll?_eq {capacity : Nat} {r : Replacement} {nodes : List Node}
    (h : ∀ node ∈ nodes, ∀ line, node.splice? capacity r line = some (node.splice capacity r line))
    (line : Nat) :
    spliceAll? capacity r line nodes = some (spliceAll capacity r line nodes) := by
  induction nodes generalizing line with
  | nil => rfl
  | cons node nodes ih =>
      rw [spliceAll?, h node (by simp), ih fun node hnode => h node (List.mem_cons_of_mem _ hnode)]
      rfl

/-- A node has a line, and so a last one. -/
theorem Balanced.splice?_eq {capacity depth : Nat} {node : Node} {r : Replacement}
    (h : node.Balanced capacity depth) (line : Nat) :
    node.splice? capacity r line = some (node.splice capacity r line) := by
  induction h generalizing line with
  | leaf =>
      rw [splice?, splice, r.overlap?_eq line Nat.one_pos]
      dsimp only [Option.bind_eq_bind, Option.bind_some]
      cases r.overlap line 1 <;> rfl
  | @branch depth children ne_nil length_le balanced ih =>
      have hlines := (Balanced.branch ne_nil length_le balanced).lines_pos
      rw [Node.lines] at hlines
      rw [splice?, splice, r.overlap?_eq line hlines, spliceAll?_eq ih line]
      dsimp only [Option.bind_eq_bind, Option.bind_some]
      cases r.overlap line (total Node.lines children) <;> rfl

end Node

/-! ### Whole trees -/

/-- The line that holds the character at `offset`. -/
def leafAt? (t : LineTree) (offset : Nat) : Option (Option Node.Found) :=
  if offset < t.length then t.root.leafAt? offset 0 0 else some none

/-- The last line. -/
def lastLeaf? (t : LineTree) : Option (Option Node.Found) :=
  match t.root.lastLine? with
  | none => some none
  | some text => do
    let line ← t.lineCount.psub 1
    let start ← t.length.psub text.length
    some (some ⟨line, start, text⟩)

/-- The line that an edit at `offset` falls into. -/
def locate? (t : LineTree) (offset : Nat) : Option (Option Node.Found) := do
  match ← t.leafAt? offset with
  | some found => some (some found)
  | none => t.lastLeaf?

/-- The part of the text that starts at `start` and has `count` characters. -/
def collect? (t : LineTree) (start count : Nat) : Option Text :=
  if count = 0 ∨ t.length ≤ start then some []
  else t.root.collect? start (min (start + count) t.length) 0

/-- The position of an offset. -/
def place? (t : LineTree) (offset : Nat) : Option Position := do
  let offset := min offset t.length
  match ← t.leafAt? offset with
  | some found =>
    let character ← offset.psub found.start
    some ⟨found.line, character⟩
  | none =>
    match ← t.lastLeaf? with
    | none => some ⟨0, 0⟩
    | some found =>
      if found.text.isTerminated then some ⟨found.line + 1, 0⟩
      else
        let character ← offset.psub found.start
        some ⟨found.line, character⟩

/-- Replaces `deleted` characters at `start` by `inserted`. -/
def edit? (t : LineTree) (start deleted : Nat) (inserted : Text) : Option LineTree := do
  let start := min start t.length
  let room ← t.length.psub start
  let deleted := min deleted room
  if deleted = 0 ∧ inserted = [] then some t
  else
    match ← t.locate? start, ← t.locate? (start + deleted) with
    | some first, some last =>
      let head ← start.psub first.start
      let tail ← (start + deleted).psub last.start
      let leaves := (Text.splitLines (first.text.take head ++ inserted ++ last.text.drop tail)).map
        Node.ofLine
      let nodes ← t.root.splice? t.capacity ⟨first.line, last.line, leaves⟩ 0
      some { t with root := .rootOf t.capacity nodes }
    | _, _ => some (ofText inserted t.capacity)

/-- Nothing that is asked of a tree takes it below zero. -/
structure Subtracts (t : LineTree) : Prop where
  leafAt? : ∀ offset, t.leafAt? offset = some (t.lineAt? offset)
  lastLeaf? : t.lastLeaf? = some t.lastLine?
  place? : ∀ offset, t.place? offset = some (t.position offset)
  collect? : ∀ start count, t.collect? start count = some (t.getText start count)
  edit? : ∀ start deleted inserted, t.edit? start deleted inserted = some (t.edit start deleted inserted)

section

variable {t : LineTree}

theorem leafAt?_eq_lineAt? (t : LineTree) (offset : Nat) :
    t.leafAt? offset = some (t.lineAt? offset) := by
  rw [leafAt?, lineAt?]
  split
  · rw [Node.leafAt?_eq t.root 0 (Nat.zero_le offset)]
    have hshift : (fun found : Node.Found => found.shift 0 0) = id := rfl
    rw [hshift, Option.map_id, id, Nat.sub_zero]
  · rfl

/-- The last line is one of the lines, and its characters are among those of the text. -/
theorem Balanced.lastLeaf?_eq (h : t.Balanced) : t.lastLeaf? = some t.lastLine? := by
  rw [lastLeaf?, lastLine?]
  cases htext : t.root.lastLine? with
  | none => rfl
  | some text =>
      rcases h.root with hroot | ⟨depth, hroot, -⟩
      · rw [hroot] at htext
        exact absurd htext (by simp [Node.lastLine?, Node.lastLineAll?, Node.ofChildren])
      · have hmem : text ∈ t.lines := by
          rw [hroot.lastLine?_eq] at htext
          exact List.mem_of_getLast? htext
        have hcount : 1 ≤ t.lineCount := hroot.lines_pos
        have hlength : text.length ≤ t.length := by
          rw [h.length_eq, LineTree.text]
          exact (List.sublist_flatten_of_mem hmem).length_le
        dsimp only
        rw [Nat.psub_eq_sub hcount, Nat.psub_eq_sub hlength]
        rfl

theorem Balanced.locate?_eq (h : t.Balanced) (offset : Nat) :
    t.locate? offset = some (t.editedLine? offset) := by
  rw [locate?, leafAt?_eq_lineAt?, h.lastLeaf?_eq, editedLine?]
  cases t.lineAt? offset <;> rfl

theorem Balanced.collect?_eq (h : t.Balanced) (start count : Nat) :
    t.collect? start count = some (t.getText start count) := by
  rw [collect?, getText]
  split
  · rfl
  · rename_i hinside
    rcases h.root with hroot | ⟨depth, hroot, -⟩
    · exact absurd (.inr (by rw [LineTree.length, hroot]; exact Nat.zero_le _)) hinside
    · rw [hroot.collect?_eq (Nat.zero_le _)]
      rfl

/-- Every offset inside of the text lies in a line that starts at or before it. -/
theorem Balanced.lineAt?_cases (h : t.Balanced) (offset : Nat) :
    (t.length ≤ offset ∧ t.lineAt? offset = none) ∨
      ∃ found, t.lineAt? offset = some found ∧ found.start ≤ offset := by
  rw [lineAt?]
  split
  · rename_i hlt
    rcases h.root with hroot | ⟨depth, hroot, -⟩
    · rw [LineTree.length, hroot] at hlt
      exact absurd hlt (Nat.not_lt_zero _)
    · obtain ⟨found, heq, hcovers⟩ := hroot.exists_atOffset? hlt
      exact .inr ⟨found, heq, hcovers.start_le⟩
  · exact .inl ⟨by omega, rfl⟩

theorem start_le_of_lastLine? {found : Node.Found} (hfound : t.lastLine? = some found) :
    found.start ≤ t.length := by
  obtain ⟨text, -, rfl⟩ := Option.map_eq_some_iff.mp hfound
  exact Nat.sub_le ..

theorem Balanced.start_le_of_editedLine? (h : t.Balanced) {offset : Nat} {found : Node.Found}
    (hfound : t.editedLine? offset = some found) : found.start ≤ offset := by
  rw [editedLine?] at hfound
  rcases h.lineAt?_cases offset with ⟨hend, hnone⟩ | ⟨found', hfound', hle⟩
  · rw [hnone, Option.none_or] at hfound
    exact Nat.le_trans (start_le_of_lastLine? hfound) hend
  · rw [hfound', Option.some_or] at hfound
    cases hfound
    exact hle

theorem Balanced.place?_eq (h : t.Balanced) (offset : Nat) :
    t.place? offset = some (t.position offset) := by
  rw [place?, position]
  generalize hclamped : min offset t.length = clamped
  rw [leafAt?_eq_lineAt?, h.lastLeaf?_eq]
  dsimp only [Option.bind_eq_bind, Option.bind_some]
  rcases h.lineAt?_cases clamped with ⟨hend, hnone⟩ | ⟨found, hfound, hle⟩
  · rw [hnone]
    dsimp only
    cases hlast : t.lastLine? with
    | none => rfl
    | some found =>
        have hle := Nat.le_trans (start_le_of_lastLine? hlast) hend
        dsimp only
        rw [Nat.psub_eq_sub hle]
        split <;> rfl
  · rw [hfound]
    dsimp only
    rw [Nat.psub_eq_sub hle]
    rfl

/-- The lines that an edit falls into start at or before its ends, and the lines
that are looked at in between are there. -/
theorem Balanced.edit?_eq (h : t.Balanced) (start deleted : Nat) (inserted : Text) :
    t.edit? start deleted inserted = some (t.edit start deleted inserted) := by
  rw [edit?, LineTree.edit]
  generalize hstart : min start t.length = first
  dsimp only
  rw [Nat.psub_eq_sub (show first ≤ t.length by omega)]
  dsimp only [Option.bind_eq_bind, Option.bind_some]
  split
  · rfl
  · rw [h.locate?_eq, h.locate?_eq]
    generalize hstop : first + min deleted (t.length - first) = stop
    dsimp only [Option.bind_some]
    cases hfirst : t.editedLine? first with
    | none => rfl
    | some firstLine =>
        cases hlast : t.editedLine? stop with
        | none => rfl
        | some lastLine =>
            dsimp only
            rw [Nat.psub_eq_sub (h.start_le_of_editedLine? hfirst),
              Nat.psub_eq_sub (h.start_le_of_editedLine? hlast)]
            rcases h.root with hroot | ⟨depth, hroot, -⟩
            · rw [editedLine?_of_root_eq_nil hroot] at hfirst
              exact absurd hfirst (by simp)
            · dsimp only [Option.bind_some]
              rw [hroot.splice?_eq]
              rfl

theorem Balanced.subtracts (h : t.Balanced) : t.Subtracts where
  leafAt? := leafAt?_eq_lineAt? t
  lastLeaf? := h.lastLeaf?_eq
  place? := h.place?_eq
  collect? := h.collect?_eq
  edit? := h.edit?_eq

end

/-- How a tree comes to be: of the empty text, of lines that may lack their ends, or of a text. -/
inductive Origin where
  | empty (capacity : Nat)
  | lines (texts : List Text) (capacity : Nat)
  | text (content : Text) (capacity : Nat)

def Origin.load : Origin → LineTree
  | empty capacity => LineTree.empty capacity
  | lines texts capacity => ofLines texts capacity
  | text content capacity => ofText content capacity

theorem Origin.balanced_load (origin : Origin) : origin.load.Balanced := by
  cases origin with
  | empty capacity => exact ⟨two_le_fitCapacity capacity, .inl rfl⟩
  | lines texts capacity => exact balanced_ofLines texts capacity
  | text content capacity => exact balanced_ofText content capacity

/-- Whatever a tree is loaded from and however it is edited, it is shapely, and
its arithmetic never goes below zero. -/
theorem shapely_editAll_load (origin : Origin) (changes : List Change) :
    (origin.load.editAll changes).Shapely ∧ (origin.load.editAll changes).Subtracts := by
  have hbalanced := origin.balanced_load.editAll changes
  exact ⟨hbalanced.shapely, hbalanced.subtracts⟩

end ProjectTracker.LineTree
