import ProjectTracker.Proofs.LineTree.Arithmetic
import ProjectTracker.Proofs.LineTree.Decomposition
import ProjectTracker.Proofs.LineTree.Depth

/-!
The depth of a line tree under editing. A branch that overflows is split, and nothing but the root is ever made
higher by it. So an edit takes no more levels than the tree has or its new lines need, and one more at most; none if it
puts a single line in place.
-/

namespace ProjectTracker.LineTree

namespace Node

/-! ### How many nodes stand for a node -/

section

variable {capacity depth : Nat} {r : Replacement} {node : Node} {nodes : List Node}

theorem length_group_le (hcapacity : 1 ≤ capacity) {count : Nat}
    (h : nodes.length ≤ count * capacity) : (group capacity nodes).length ≤ count := by
  rw [length_group hcapacity, Nat.div_le_iff_le_mul_add_pred hcapacity, Nat.mul_comm]
  omega

theorem length_spliceAll_le
    (h : ∀ node ∈ nodes, ∀ line, r.first < line ∨ line + node.lines ≤ r.first →
      (node.splice capacity r line).length ≤ 1)
    {line : Nat} (hline : r.first < line ∨ line + total lines nodes ≤ r.first) :
    (spliceAll capacity r line nodes).length ≤ nodes.length := by
  induction nodes generalizing line with
  | nil => simp [spliceAll]
  | cons node nodes ih =>
      have htotal : total lines (node :: nodes) = node.lines + total lines nodes := rfl
      have hline' : r.first < line + node.lines ∨
          line + node.lines + total lines nodes ≤ r.first := by omega
      have hnode := h node List.mem_cons_self line (by omega)
      have hrest := ih (fun node hmem => h node (List.mem_cons_of_mem _ hmem)) hline'
      rw [spliceAll, List.length_append, List.length_cons]
      omega

/-- The new leaves stand below one node of a run. All others give one node at most. -/
theorem length_spliceAll_le_add {more : Nat}
    (hone : ∀ node ∈ nodes, ∀ line, r.first < line ∨ line + node.lines ≤ r.first →
      (node.splice capacity r line).length ≤ 1)
    (hmore : ∀ node ∈ nodes, ∀ line, (node.splice capacity r line).length ≤ 1 + more)
    (line : Nat) : (spliceAll capacity r line nodes).length ≤ nodes.length + more := by
  induction nodes generalizing line with
  | nil => simp [spliceAll]
  | cons node nodes ih =>
      have hone' node (hmem : node ∈ nodes) := hone node (List.mem_cons_of_mem _ hmem)
      rw [spliceAll, List.length_append, List.length_cons]
      by_cases hbelow : r.first < line + node.lines
      · have hnode := hmore node List.mem_cons_self line
        have hrest := length_spliceAll_le hone' (.inl hbelow)
        omega
      · have hnode := hone node List.mem_cons_self line (.inr (by omega))
        have hrest := ih hone' (fun node hmem => hmore node (List.mem_cons_of_mem _ hmem))
          (line + node.lines)
        omega

/-- A node that the first replaced line is not below. -/
theorem Balanced.length_splice_le_one (hcapacity : 1 ≤ capacity) (h : Balanced capacity depth node)
    {line : Nat} (hline : r.first < line ∨ line + node.lines ≤ r.first) :
    (node.splice capacity r line).length ≤ 1 := by
  induction h generalizing line with
  | leaf =>
      rw [splice]
      split
      · exact Nat.le_refl 1
      · exact Nat.zero_le 1
      · rw [if_neg]
        · exact Nat.zero_le 1
        · rintro rfl
          simp only [lines] at hline
          omega
  | branch ne_nil length_le balanced ih =>
      rw [splice]
      split
      · exact Nat.le_refl 1
      · exact Nat.zero_le 1
      · apply length_group_le hcapacity
        have hall := length_spliceAll_le (fun child hchild line hline => ih child hchild hline) hline
        omega

/-- Of new leaves that are `more` branches full at the level of a node, that many nodes come to stand beside it. -/
theorem Balanced.length_splice_le (hcapacity : 1 ≤ capacity) (h : Balanced capacity depth node)
    {more : Nat} (hleaves : r.leaves.length ≤ 1 + more * capacity ^ depth) (line : Nat) :
    (node.splice capacity r line).length ≤ 1 + more := by
  induction h generalizing line more with
  | leaf =>
      rw [splice]
      split
      · exact Nat.le_add_right ..
      · exact Nat.zero_le _
      · split
        · simpa using hleaves
        · exact Nat.zero_le _
  | @branch depth children ne_nil length_le balanced ih =>
      rw [splice]
      split
      · exact Nat.le_add_right ..
      · exact Nat.zero_le _
      · apply length_group_le hcapacity
        -- a branch here holds as much as `capacity` nodes of the level below
        have hleaves' : r.leaves.length ≤ 1 + more * capacity * capacity ^ depth := by
          rwa [Nat.mul_assoc, ← Nat.pow_succ']
        have hall := length_spliceAll_le_add
          (fun child hchild line hline => (balanced child hchild).length_splice_le_one hcapacity hline)
          (fun child hchild line => ih child hchild hleaves' line) line
        rw [Nat.add_mul, Nat.one_mul]
        omega

/-- New leaves that fit below `fit` levels add at most one more. -/
theorem Balanced.depth_add_clog_le (hcapacity : 2 ≤ capacity) (h : Balanced capacity depth node) {fit : Nat}
    (hdepth : depth ≤ fit) (hleaves : r.leaves.length ≤ capacity ^ fit) (line : Nat) :
    depth + Nat.clog capacity (node.splice capacity r line).length ≤ fit + 1 := by
  have hpow : capacity ^ (fit - depth) * capacity ^ depth = capacity ^ fit := by
    rw [← Nat.pow_add, Nat.sub_add_cancel hdepth]
  have hlength : (node.splice capacity r line).length ≤ 1 + capacity ^ (fit - depth) :=
    h.length_splice_le (by omega) (by omega) line
  have hclog : Nat.clog capacity (node.splice capacity r line).length ≤ fit - depth + 1 := by
    apply Nat.clog_le_of_le_pow
    calc (node.splice capacity r line).length
        ≤ 1 + capacity ^ (fit - depth) := hlength
      _ ≤ capacity ^ (fit - depth) * 2 := by
          have := Nat.one_le_pow (fit - depth) capacity (by omega)
          omega
      _ ≤ capacity ^ (fit - depth + 1) := by
          rw [Nat.pow_succ]
          exact Nat.mul_le_mul_left _ hcapacity
  omega

end

/-- The root above the nodes that stand for a former one. Several of them need levels above, and a single one takes
the place of the root. -/
theorem depth_rootOf_le {capacity depth : Nat} {nodes : List Node} (hcapacity : 2 ≤ capacity)
    (h : ∀ node ∈ nodes, Balanced capacity (depth + 1) node) :
    (rootOf capacity nodes).depth ≤ depth + 1 + Nat.clog capacity nodes.length := by
  match nodes, h with
  | [], _ =>
      rw [rootOf_nil]
      exact Nat.zero_le _
  | [node], h =>
      have hnode := h node (by simp)
      have hdepth := hnode.depth_eq
      have hcollapse := depth_collapse_le node
      rw [rootOf_singleton hcapacity, ofChildren]
      cases hnode with
      | branch ne_nil length_le balanced =>
          rw [collapse]
          omega
  | first :: second :: rest, h =>
      rw [(balanced_rootOf_of_two_le hcapacity (by simp) h).depth_eq]

end Node

/-! ### One edit -/

section

variable {t : LineTree}

/-- The lines that an edit puts in the place of those that it touches. An edit that changes nothing touches none. -/
def rewritten (t : LineTree) (c : Change) : List Text :=
  let start := min c.start t.length
  let deleted := min c.deleted (t.length - start)
  if deleted = 0 ∧ c.inserted = [] then []
  else
    match t.editedLine? start, t.editedLine? (start + deleted) with
    | some first, some last =>
      Text.splitLines
        (first.text.take (start - first.start) ++ c.inserted ++ last.text.drop (start + deleted - last.start))
    | _, _ => Text.splitLines c.inserted

/-- An edit leaves the tree as it is, or loads the text that is inserted into an empty one, or puts a root above the
nodes that stand for the former one. -/
theorem Balanced.edit_cases (h : t.Balanced) (c : Change) :
    (t.rewritten c = [] ∧ t.edit c.start c.deleted c.inserted = t) ∨
    (t.rewritten c = c.inserted.splitLines ∧ t.edit c.start c.deleted c.inserted = ofText c.inserted t.capacity) ∨
    ∃ r : Node.Replacement, r.leaves = (t.rewritten c).map Node.ofLine ∧ r.first ≤ r.last ∧
      r.last < t.lines.length ∧
      t.edit c.start c.deleted c.inserted = ⟨.rootOf t.capacity (t.root.splice t.capacity r 0), t.capacity⟩ := by
  unfold rewritten LineTree.edit
  dsimp only
  generalize hstart : min c.start t.length = start
  generalize hdeleted : min c.deleted (t.length - start) = deleted
  have hstop : start + deleted ≤ t.length := by omega
  split
  · exact .inl ⟨rfl, rfl⟩
  · by_cases hempty : t.lines = []
    · rw [editedLine?_of_root_eq_nil (h.root_eq_nil hempty)]
      exact .inr (.inl ⟨rfl, rfl⟩)
    · obtain ⟨first, hfirst, hfirst'⟩ :=
        h.exists_editedLine? (Nat.le_of_add_right_le hstop) hempty
      obtain ⟨last, hlast, hlast'⟩ := h.exists_editedLine? hstop hempty
      rw [hfirst, hlast]
      exact .inr (.inr ⟨_, rfl, hfirst'.line_le hlast' (Nat.le_add_right ..),
        (List.getElem?_eq_some_iff.mp hlast'.text).1, rfl⟩)

theorem ne_nil_of_mem_rewritten {c : Change} {line : Text} (h : line ∈ t.rewritten c) : line ≠ [] := by
  unfold rewritten at h
  dsimp only at h
  split at h
  · simp at h
  · split at h
    · exact Text.ne_nil_of_mem_splitLines h
    · exact Text.ne_nil_of_mem_splitLines h

theorem Balanced.capacity_edit (h : t.Balanced) (c : Change) :
    (t.edit c.start c.deleted c.inserted).capacity = t.capacity := by
  rcases h.edit_cases c with ⟨-, heq⟩ | ⟨-, heq⟩ | ⟨r, -, -, -, heq⟩
  · rw [heq]
  · rw [heq]
    exact Nat.max_eq_left h.two_le_capacity
  · rw [heq]

/-- The rewritten lines are among those that the tree has after the edit. -/
theorem Balanced.length_rewritten_le (h : t.Balanced) (c : Change) :
    (t.rewritten c).length ≤ (t.edit c.start c.deleted c.inserted).lineCount := by
  rw [(h.edit c.start c.deleted c.inserted).lineCount_eq]
  rcases h.edit_cases c with ⟨hnone, -⟩ | ⟨hlines, heq⟩ | ⟨r, hleaves, hle, hlast, heq⟩
  · rw [hnone]
    exact Nat.zero_le _
  · rw [heq, lines_ofText, hlines]
  · rw [heq, LineTree.lines, Node.toList_rootOf, h.toListAll_splice_root hle hlast, hleaves,
      Node.toListAll_map_ofLine, List.length_append, List.length_append]
    omega

/-- An edit takes no more levels than the tree has or the rewritten lines need, and one more if these are several. -/
theorem Balanced.depth_edit_le (h : t.Balanced) (c : Change) :
    (t.edit c.start c.deleted c.inserted).depth ≤
      max t.depth (levels t.capacity (t.rewritten c).length) +
        if 2 ≤ (t.rewritten c).length then 1 else 0 := by
  have hcapacity := h.two_le_capacity
  rcases h.edit_cases c with ⟨-, heq⟩ | ⟨hlines, heq⟩ | ⟨r, hleaves, -, hlast, heq⟩
  · rw [heq]
    omega
  · have hdepth : (ofText c.inserted t.capacity).depth =
        levels (fitCapacity t.capacity) c.inserted.splitLines.length := by
      rw [ofText, depth_ofLines_eq, ← lines_ofLines _ t.capacity, ← ofText, lines_ofText]
    rw [heq, hdepth, hlines, fitCapacity, Nat.max_eq_left hcapacity]
    omega
  · rcases h.root with hroot | ⟨depth, hroot, -⟩
    · rw [LineTree.lines, hroot] at hlast
      exact absurd hlast (Nat.not_lt_zero _)
    · have hdepth : t.depth = depth + 1 := hroot.depth_eq
      have hbalanced := Node.balanced_of_mem_splice (Nat.le_of_succ_le hcapacity)
        (hleaves ▸ Node.balanced_of_mem_ofLine fun _ => ne_nil_of_mem_rewritten) hroot 0
      have hroot' := Node.depth_rootOf_le hcapacity hbalanced
      rw [heq, hdepth]
      refine Nat.le_trans hroot' ?_
      have hlength : r.leaves.length = (t.rewritten c).length := by rw [hleaves, List.length_map]
      split
      · rename_i hseveral
        apply hroot.depth_add_clog_le hcapacity (Nat.le_max_left ..)
        rw [hlength]
        refine Nat.le_trans (le_pow_levels hcapacity _) ?_
        exact Nat.pow_le_pow_right (by omega) (Nat.le_max_right ..)
      · have hone : (t.root.splice t.capacity r 0).length ≤ 1 + 0 :=
          hroot.length_splice_le (by omega) (by omega) 0
        rw [Nat.clog_of_right_le_one hone]
        omega

end

/-! ### Runs of edits -/

/-- The most lines that a tree has while it is edited. -/
def peak (t : LineTree) : List Change → Nat
  | [] => t.lineCount
  | c :: changes => max t.lineCount ((t.edit c.start c.deleted c.inserted).peak changes)

/-- How many of some edits put several lines in the place of those that they touch. -/
def breaks (t : LineTree) : List Change → Nat
  | [] => 0
  | c :: changes =>
    (if 2 ≤ (t.rewritten c).length then 1 else 0) + (t.edit c.start c.deleted c.inserted).breaks changes

section

variable {t : LineTree}

theorem lineCount_le_peak (t : LineTree) (changes : List Change) : t.lineCount ≤ t.peak changes := by
  cases changes with
  | nil => exact Nat.le_refl _
  | cons c changes => exact Nat.le_max_left ..

theorem Balanced.depth_editAll_le (h : t.Balanced) (changes : List Change) :
    (t.editAll changes).depth ≤ max t.depth (levels t.capacity (t.peak changes)) + t.breaks changes := by
  induction changes generalizing t with
  | nil => exact Nat.le_add_right_of_le (Nat.le_max_left ..)
  | cons c changes ih =>
      have hedit := h.depth_edit_le c
      have hrest := ih (h.edit c.start c.deleted c.inserted)
      rw [h.capacity_edit] at hrest
      generalize hnext : t.edit c.start c.deleted c.inserted = next at hedit hrest
      have hrewritten : (t.rewritten c).length ≤ next.peak changes :=
        Nat.le_trans (hnext ▸ h.length_rewritten_le c) (lineCount_le_peak next changes)
      have hneeded := levels_mono t.capacity hrewritten
      have hpeak : t.peak (c :: changes) = max t.lineCount (next.peak changes) := by rw [peak, hnext]
      have hlevels : levels t.capacity (next.peak changes) ≤ levels t.capacity (t.peak (c :: changes)) :=
        levels_mono _ (hpeak ▸ Nat.le_max_right ..)
      have hbreaks : t.breaks (c :: changes) =
          (if 2 ≤ (t.rewritten c).length then 1 else 0) + next.breaks changes := by rw [breaks, hnext]
      rw [LineTree.editAll, List.foldl_cons, hnext, hbreaks]
      rw [LineTree.editAll] at hrest
      omega

theorem depth_eq_levels (lines : List Text) (capacity : Nat) :
    (ofLines lines capacity).depth = levels (ofLines lines capacity).capacity (ofLines lines capacity).lineCount := by
  rw [depth_ofLines_eq, (balanced_ofLines lines capacity).lineCount_eq, lines_ofLines]
  rfl

theorem Origin.depth_load (origin : Origin) :
    origin.load.depth = levels origin.load.capacity origin.load.lineCount := by
  cases origin with
  | empty capacity => rfl
  | lines texts capacity => exact depth_eq_levels texts capacity
  | text content capacity => exact depth_eq_levels content.splitLines capacity

end

end ProjectTracker.LineTree
