import ProjectTracker.Proofs.LineTree.Growth

/-!
How deep a line tree can get. Branches that are nearly empty are never merged, so that the levels which edits have
added stay. Line feeds at the start of a text split all the branches on the way to its first line every time, and
leave single nodes behind: the tree gets as deep as it gets long. The depth is bounded by the edits that break lines,
and not by the number of lines.
-/

namespace ProjectTracker.LineTree

namespace Node

section

variable {α : Type}

/-- The piece under way is filled up, and the pieces after it are cut from what is left. -/
theorem chunksFrom_append (size : Nat) {room : Nat} (piece : List α) {xs : List α} (ys : List α)
    (hroom : 1 ≤ room) (hxs : xs.length = room) :
    chunksFrom size room piece (xs ++ ys) = (piece.reverse ++ xs) :: chunksFrom size size [] ys := by
  induction xs generalizing room piece with
  | nil => simp only [List.length_nil] at hxs; omega
  | cons x xs ih =>
      rw [List.length_cons] at hxs
      rw [List.cons_append, chunksFrom]
      split
      · obtain rfl : xs = [] := List.length_eq_zero_iff.mp (by omega)
        simp
      · rw [ih (x :: piece) (by omega) (by omega)]
        simp

/-- What fits into the piece under way is not cut. -/
theorem chunksFrom_of_le (size : Nat) {room : Nat} (piece : List α) {xs : List α} (hxs : xs.length ≤ room)
    (hne : piece.reverse ++ xs ≠ []) : chunksFrom size room piece xs = [piece.reverse ++ xs] := by
  induction xs generalizing room piece with
  | nil =>
      match piece, hne with
      | x :: piece, _ => simp [chunksFrom]
  | cons x xs ih =>
      rw [List.length_cons] at hxs
      rw [chunksFrom]
      split
      · obtain rfl : xs = [] := List.length_eq_zero_iff.mp (by omega)
        simp [chunksFrom]
      · rw [ih (x :: piece) (by omega) (by simp)]
        simp

end

section

variable {capacity depth width : Nat} {node : Node} {nodes : List Node}

theorem group_of_le (hne : nodes ≠ []) (hlength : nodes.length ≤ capacity) :
    group capacity nodes = [ofChildren nodes] := by
  rw [group, chunksFrom_of_le capacity [] hlength (by simpa), List.reverse_nil, List.nil_append]
  rfl

theorem group_append {full rest : List Node} (hcapacity : 1 ≤ capacity) (hfull : full.length = capacity)
    (hne : rest ≠ []) (hrest : rest.length ≤ capacity) :
    group capacity (full ++ rest) = [ofChildren full, ofChildren rest] := by
  rw [group, chunksFrom_append capacity [] rest hcapacity hfull,
    chunksFrom_of_le capacity [] hrest (by simpa), List.reverse_nil, List.nil_append, List.nil_append]
  rfl

/-- The leaf of an empty line. -/
def blank : Node :=
  ofLine ['\n']

/-- A node whose first line is empty and whose branches on the way to it have no room left. -/
inductive Laden (capacity : Nat) : Nat → Node → Prop where
  | leaf : Laden capacity 0 blank
  | branch {depth : Nat} {first : Node} {rest : List Node} (first_laden : Laden capacity depth first)
      (length_eq : rest.length + 1 = capacity) : Laden capacity (depth + 1) (ofChildren (first :: rest))

theorem Laden.pos (h : Laden capacity depth node) : 0 < node.lines ∧ 0 < node.chars := by
  induction h with
  | leaf => exact ⟨Nat.one_pos, Nat.one_pos⟩
  | branch _ _ ih => exact ⟨Nat.add_pos_left ih.1 _, Nat.add_pos_left ih.2 _⟩

theorem Laden.depth_eq (h : Laden capacity depth node) : node.depth = depth := by
  induction h with
  | leaf => rfl
  | branch _ _ ih => rw [ofChildren, Node.depth, ih]

theorem atOffset?_zero_ofChildren {first : Node} (rest : List Node) (h : 0 < first.chars) :
    (ofChildren (first :: rest)).atOffset? 0 = first.atOffset? 0 := by
  rw [ofChildren, atOffset?, atOffsetAll?, if_pos h]

theorem Laden.atOffset?_zero (h : Laden capacity depth node) : node.atOffset? 0 = some ⟨0, 0, ['\n']⟩ := by
  induction h with
  | leaf => rfl
  | @branch depth first rest first_laden _ ih => rw [atOffset?_zero_ofChildren rest first_laden.pos.2, ih]

/-- The replacement of the first line, which is empty, by two such lines. -/
def doubling : Replacement :=
  ⟨0, 0, [blank, blank]⟩

theorem splice_doubling_of_pos (node : Node) {line : Nat} (h : 0 < line) :
    node.splice capacity doubling line = [node] := by
  have hapart (count : Nat) : doubling.overlap line count = .apart := if_pos (.inr h)
  cases node with
  | leaf text chars => rw [splice, hapart]
  | branch children chars lines => rw [splice, hapart]

theorem spliceAll_doubling_of_pos (nodes : List Node) {line : Nat} (h : 0 < line) :
    spliceAll capacity doubling line nodes = nodes := by
  induction nodes generalizing line with
  | nil => rfl
  | cons node nodes ih =>
      rw [spliceAll, splice_doubling_of_pos node h, ih (by omega)]
      rfl

theorem splice_doubling_ofChildren {first : Node} (rest : List Node) (h : 0 < first.lines) :
    (ofChildren (first :: rest)).splice capacity doubling 0 =
      group capacity (first.splice capacity doubling 0 ++ rest) := by
  have hacross (count : Nat) : doubling.overlap 0 count = .across := by
    simp [Replacement.overlap, doubling]
  rw [ofChildren, splice, hacross, spliceAll, spliceAll_doubling_of_pos rest (by omega)]

/-- One more line at the start of a laden node splits every branch on the way to it, so that another laden node
stands in the place of the node, and one more beside it. -/
theorem Laden.splice_doubling (hcapacity : 2 ≤ capacity) (h : Laden capacity depth node) :
    ∃ first second, node.splice capacity doubling 0 = [first, second] ∧ Laden capacity depth first := by
  induction h with
  | leaf => exact ⟨blank, blank, rfl, .leaf⟩
  | @branch depth child rest first_laden length_eq ih =>
      obtain ⟨first, second, hsplice, hfirst⟩ := ih
      rw [splice_doubling_ofChildren rest first_laden.pos.1, hsplice]
      -- the last child has to move to the new branch
      obtain ⟨kept, last, hrest⟩ : ∃ kept last, second :: rest = kept ++ [last] :=
        ⟨_, _, (List.dropLast_concat_getLast (List.cons_ne_nil second rest)).symm⟩
      have hlength := congrArg List.length hrest
      simp only [List.length_cons, List.length_append, List.length_nil] at hlength
      refine ⟨ofChildren (first :: kept), ofChildren [last], ?_, .branch hfirst (by omega)⟩
      have hnodes : [first, second] ++ rest = (first :: kept) ++ [last] := by
        rw [List.cons_append, List.singleton_append, hrest, List.cons_append]
      rw [hnodes]
      exact group_append (by omega) (by simp only [List.length_cons]; omega) (by simp)
        (by simp only [List.length_cons, List.length_nil]; omega)

/-- A branch of `width` children, the first of which is laden. -/
def Leads (capacity depth width : Nat) (node : Node) : Prop :=
  ∃ first rest, node = ofChildren (first :: rest) ∧ Laden capacity depth first ∧ rest.length + 1 = width

theorem leads_iff_laden : Leads capacity depth capacity node ↔ Laden capacity (depth + 1) node := by
  constructor
  · rintro ⟨first, rest, rfl, hfirst, hlength⟩
    exact .branch hfirst hlength
  · rintro (_ | ⟨hfirst, hlength⟩)
    exact ⟨_, _, rfl, hfirst, hlength⟩

theorem rootOf_of_le (htwo : 2 ≤ nodes.length) (hfits : nodes.length ≤ capacity) :
    rootOf capacity nodes = ofChildren nodes := by
  obtain ⟨count, hcount⟩ : ∃ count, nodes.length = count + 1 := ⟨nodes.length - 1, by omega⟩
  rw [rootOf, hcount, raise, if_pos hfits, collapse_ofChildren htwo]

/-- While the root has room it takes the node that comes to stand beside the first one. -/
theorem Leads.rootOf_of_lt (h : Leads capacity depth width node) (hroom : width < capacity) :
    Leads capacity depth (width + 1) (rootOf capacity (node.splice capacity doubling 0)) := by
  obtain ⟨child, rest, rfl, hchild, rfl⟩ := h
  obtain ⟨first, second, hsplice, hfirst⟩ := hchild.splice_doubling (by omega)
  have hnodes : group capacity ([first, second] ++ rest) = [ofChildren (first :: second :: rest)] :=
    group_of_le (by simp) (by simpa)
  refine ⟨first, second :: rest, ?_, hfirst, rfl⟩
  -- the branch that the nodes are put below takes the place of the root above it
  have hroot : (ofChildren [ofChildren (first :: second :: rest)]).collapse =
      (ofChildren (first :: second :: rest)).collapse := by rw [ofChildren, ofChildren, collapse]
  rw [splice_doubling_ofChildren rest hchild.pos.1, hsplice, hnodes, rootOf_singleton (by omega), hroot,
    collapse_ofChildren (by simp)]

/-- A root without room is split, and a new one put above. -/
theorem Laden.leads_rootOf (hcapacity : 2 ≤ capacity) (h : Laden capacity depth node) :
    Leads capacity depth 2 (rootOf capacity (node.splice capacity doubling 0)) := by
  obtain ⟨first, second, hsplice, hfirst⟩ := h.splice_doubling hcapacity
  rw [hsplice, rootOf_of_le (by simp) (by simpa)]
  exact ⟨first, [second], rfl, hfirst, rfl⟩

end

end Node

/-! ### Line feeds at the start -/

/-- An empty line is put before all others. -/
def lineFeed : Change :=
  ⟨0, 0, ['\n']⟩

theorem editAll_cons (t : LineTree) (c : Change) (changes : List Change) :
    t.editAll (c :: changes) = (t.edit c.start c.deleted c.inserted).editAll changes :=
  rfl

theorem editAll_append (t : LineTree) (first second : List Change) :
    t.editAll (first ++ second) = (t.editAll first).editAll second :=
  List.foldl_append

section

variable {capacity depth width : Nat} {root : Node}

theorem edit_lineFeed (h : root.Leads capacity depth width) :
    (LineTree.mk root capacity).edit 0 0 ['\n'] =
      ⟨.rootOf capacity (root.splice capacity Node.doubling 0), capacity⟩ := by
  obtain ⟨first, rest, rfl, hfirst, -⟩ := h
  have hchars : 0 < (LineTree.mk (.ofChildren (first :: rest)) capacity).length :=
    Nat.add_pos_left hfirst.pos.2 _
  have hfound : (LineTree.mk (.ofChildren (first :: rest)) capacity).editedLine? 0 = some ⟨0, 0, ['\n']⟩ := by
    rw [editedLine?, lineAt?, if_pos hchars, Node.atOffset?_zero_ofChildren rest hfirst.pos.2,
      hfirst.atOffset?_zero, Option.some_or]
  rw [LineTree.edit]
  simp only [Nat.zero_min, Nat.zero_add, hfound, List.cons_ne_self, and_false, if_false]
  rfl

/-- Line feeds fill the root up. -/
theorem leads_editAll (count : Nat) (h : root.Leads capacity depth width) (hroom : width + count ≤ capacity) :
    ∃ root', (LineTree.mk root capacity).editAll (List.replicate count lineFeed) = ⟨root', capacity⟩ ∧
      root'.Leads capacity depth (width + count) := by
  induction count generalizing root width with
  | zero => exact ⟨root, rfl, h⟩
  | succ count ih =>
      rw [List.replicate_succ, editAll_cons, lineFeed, edit_lineFeed h, Nat.add_comm count 1, ← Nat.add_assoc]
      exact ih (h.rootOf_of_lt (by omega)) (by omega)

/-- A full root is split by a line feed, and filled up again by the next ones. -/
theorem laden_editAll (hcapacity : 2 ≤ capacity) (h : root.Laden capacity (depth + 1)) :
    ∃ root', (LineTree.mk root capacity).editAll (List.replicate (capacity - 1) lineFeed) = ⟨root', capacity⟩ ∧
      root'.Laden capacity (depth + 2) := by
  have hfilled : ∃ root', (LineTree.mk (.rootOf capacity (root.splice capacity Node.doubling 0)) capacity).editAll
      (List.replicate (capacity - 2) lineFeed) = ⟨root', capacity⟩ ∧
        root'.Leads capacity (depth + 1) (2 + (capacity - 2)) :=
    leads_editAll (capacity - 2) (h.leads_rootOf hcapacity) (by omega)
  obtain ⟨root', hedit, hlead⟩ := hfilled
  rw [Nat.add_sub_cancel' hcapacity] at hlead
  refine ⟨root', ?_, Node.leads_iff_laden.mp hlead⟩
  rw [show capacity - 1 = capacity - 2 + 1 by omega, List.replicate_succ, editAll_cons, lineFeed,
    edit_lineFeed (Node.leads_iff_laden.mpr h)]
  exact hedit

/-- Every round adds a level. -/
theorem laden_rounds (hcapacity : 2 ≤ capacity) (rounds : Nat) (h : root.Laden capacity (depth + 1)) :
    ∃ root', (LineTree.mk root capacity).editAll (List.replicate (rounds * (capacity - 1)) lineFeed) =
      ⟨root', capacity⟩ ∧ root'.Laden capacity (depth + 1 + rounds) := by
  induction rounds generalizing root depth with
  | zero => exact ⟨root, by rw [Nat.zero_mul]; rfl, h⟩
  | succ rounds ih =>
      obtain ⟨middle, hmiddle, hladen⟩ := laden_editAll hcapacity h
      obtain ⟨root', hedit, hladen'⟩ := ih hladen
      refine ⟨root', ?_, ?_⟩
      · rw [Nat.succ_mul, Nat.add_comm, List.replicate_add, editAll_append, hmiddle]
        exact hedit
      · rwa [show depth + 1 + (rounds + 1) = depth + 1 + 1 + rounds by omega]

end

theorem splitLines_replicate (count : Nat) :
    Text.splitLines (List.replicate count '\n') = List.replicate count ['\n'] := by
  induction count with
  | zero => rfl
  | succ count ih => rw [List.replicate_succ, Text.splitLines, if_pos rfl, ih, List.replicate_succ]

/-- As many empty lines as the root has room for. -/
theorem ofText_replicate (capacity : Nat) :
    ∃ root, ofText (List.replicate (fitCapacity capacity) '\n') capacity = ⟨root, fitCapacity capacity⟩ ∧
      root.Laden (fitCapacity capacity) 1 := by
  have hcapacity := two_le_fitCapacity capacity
  generalize hfit : fitCapacity capacity = width at hcapacity
  have hlines : (List.replicate width ['\n']).filter (!·.isEmpty) = List.replicate width ['\n'] := by
    rw [List.filter_replicate]
    rfl
  have hroot : Node.rootOf width (List.replicate width Node.blank) =
      .ofChildren (Node.blank :: List.replicate (width - 1) Node.blank) := by
    rw [Node.rootOf_of_le (by simpa) (by simp), ← List.replicate_succ, Nat.sub_add_cancel (by omega)]
  refine ⟨.ofChildren (Node.blank :: List.replicate (width - 1) Node.blank), ?_, .branch .leaf ?_⟩
  · rw [ofText, ofLines, splitLines_replicate, hlines, List.map_replicate, hfit, ← hroot]
    rfl
  · rw [List.length_replicate, Nat.sub_add_cancel (by omega)]

theorem applyAll_lineFeed (count width : Nat) :
    Change.applyAll (List.replicate count lineFeed) (List.replicate width '\n') =
      List.replicate (width + count) '\n' := by
  induction count generalizing width with
  | zero => rfl
  | succ count ih =>
      rw [show width + (count + 1) = width + 1 + count by omega, ← ih]
      rfl

theorem lineCount_editAll_lineFeed (capacity count width : Nat) :
    ((ofText (List.replicate width '\n') capacity).editAll (List.replicate count lineFeed)).lineCount =
      width + count := by
  have hloaded := balanced_ofText (List.replicate width '\n') capacity
  have hlines := hloaded.canonical_editAll
    (by rw [lines_ofText]; exact Text.canonical_splitLines _) (List.replicate count lineFeed)
  rw [(hloaded.editAll _).lineCount_eq, hlines.eq_splitLines, ← LineTree.text, hloaded.text_editAll, text_ofText,
    applyAll_lineFeed, splitLines_replicate, List.length_replicate]

/-- Line feeds at the start of a text of empty lines give the tree a level for each full branch of new lines. -/
theorem depth_editAll_lineFeed (capacity rounds : Nat) :
    let width := fitCapacity capacity
    let t := (ofText (List.replicate width '\n') capacity).editAll (List.replicate (rounds * (width - 1)) lineFeed)
    t.depth = rounds + 1 ∧ t.lineCount = t.depth * (width - 1) + 1 := by
  intro width t
  have hcapacity : 2 ≤ width := two_le_fitCapacity capacity
  obtain ⟨root, hload, hladen⟩ := ofText_replicate capacity
  obtain ⟨root', hedit, hladen'⟩ := laden_rounds hcapacity rounds hladen
  have ht : t = ⟨root', width⟩ := by rw [← hedit, ← hload]
  have hdepth : t.depth = rounds + 1 := by
    rw [ht, LineTree.depth, hladen'.depth_eq]
    omega
  refine ⟨hdepth, ?_⟩
  have hcount : t.lineCount = width + rounds * (width - 1) := lineCount_editAll_lineFeed capacity _ width
  rw [hcount, hdepth, Nat.succ_mul]
  omega

/-- A tree is at most as deep as one that is loaded from the most lines it ever had, and one level more for every edit
that put several lines in place. So it is balanced if it has not lost lines since, and such an edit was made at most
once; the lines may be edited without end. But there is no bound by the number of lines: whatever the capacity, trees
with line feeds put at the start get as deep as they get long. -/
theorem depth_editAll_load (origin : Origin) (changes : List Change) :
    let start := origin.load
    let t := start.editAll changes
    t.depth ≤ levels start.capacity (start.peak changes) + start.breaks changes ∧
      (start.breaks changes ≤ 1 → start.peak changes = t.lineCount → 1 ≤ t.lineCount →
        2 ^ t.depth ≤ 4 * t.lineCount) ∧
      ∀ rounds : Nat,
        let feeds := List.replicate (rounds * (start.capacity - 1)) lineFeed
        let fed := (ofText (List.replicate start.capacity '\n') start.capacity).editAll feeds
        fed.depth = rounds + 1 ∧ fed.lineCount = fed.depth * (start.capacity - 1) + 1 := by
  intro start t
  have hbalanced := origin.balanced_load
  have hdepth : t.depth ≤ levels start.capacity (start.peak changes) + start.breaks changes := by
    have hrun := hbalanced.depth_editAll_le changes
    have hload := origin.depth_load
    have hlevels := levels_mono origin.load.capacity (lineCount_le_peak origin.load changes)
    rw [hload, Nat.max_eq_right hlevels] at hrun
    exact hrun
  refine ⟨hdepth, fun hbreaks hpeak hcount => ?_, fun rounds => ?_⟩
  · rw [hpeak] at hdepth
    calc 2 ^ t.depth
        ≤ 2 ^ (levels start.capacity t.lineCount + 1) := Nat.pow_le_pow_right (by omega) (by omega)
      _ = 2 * 2 ^ levels start.capacity t.lineCount := Nat.pow_succ'
      _ ≤ 2 * (2 * t.lineCount) := Nat.mul_le_mul_left 2 (two_pow_levels_le hbalanced.two_le_capacity hcount)
      _ = 4 * t.lineCount := by omega
  · have hwidth : fitCapacity start.capacity = start.capacity := Nat.max_eq_left hbalanced.two_le_capacity
    have hfed := depth_editAll_lineFeed start.capacity rounds
    rwa [hwidth] at hfed

/-- Six lines of a tree with two branches at each node, which fit in three levels, stand in five. -/
example :
    let t := (ofText "\n\n".toList 2).editAll (List.replicate 4 lineFeed)
    t.depth = 5 ∧ t.lineCount = 6 ∧ ¬ 2 ^ t.depth ≤ 4 * t.lineCount := by
  decide +kernel

end ProjectTracker.LineTree
