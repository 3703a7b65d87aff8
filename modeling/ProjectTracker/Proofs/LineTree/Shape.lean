import Mathlib.Algebra.GroupWithZero.Nat
import ProjectTracker.Proofs.LineTree.Editing

/-!
The shape of a line tree, node by node. In a balanced tree every node is filled,
all leaves lie at the depth of the tree, the totals of the root count its text
and its lines, and the root does more than to hold another branch.
-/

namespace ProjectTracker.LineTree

namespace Node

/-! ### The nodes of a tree -/

mutual

/-- A node and all those below it. -/
def nodes : Node → List Node
  | leaf text chars => [leaf text chars]
  | branch children chars lines => branch children chars lines :: nodesAll children

/-- A run of nodes and all those below them. -/
def nodesAll : List Node → List Node
  | [] => []
  | node :: rest => node.nodes ++ nodesAll rest

end

mutual

/-- How many branches lie above each leaf, for a node that has `above` of them above itself. -/
def leafDepths (above : Nat) : Node → List Nat
  | leaf _ _ => [above]
  | branch children _ _ => leafDepthsAll (above + 1) children

/-- How many branches lie above each leaf below a run of nodes. -/
def leafDepthsAll (above : Nat) : List Node → List Nat
  | [] => []
  | node :: rest => node.leafDepths above ++ leafDepthsAll above rest

end

theorem mem_nodesAll {node : Node} {run : List Node} :
    node ∈ nodesAll run ↔ ∃ top ∈ run, node ∈ top.nodes := by
  induction run with
  | nil => simp [nodesAll]
  | cons top run ih => simp [nodesAll, ih]

theorem mem_leafDepthsAll {above depth : Nat} {run : List Node} :
    depth ∈ leafDepthsAll above run ↔ ∃ top ∈ run, depth ∈ top.leafDepths above := by
  induction run with
  | nil => simp [leafDepthsAll]
  | cons top run ih => simp [leafDepthsAll, ih]

theorem total_eq_sum (count : Node → Nat) (run : List Node) :
    total count run = (run.map count).sum := by
  induction run with
  | nil => rfl
  | cons node run ih =>
      rw [List.map_cons, List.sum_cons, ← ih]
      rfl

/-- A node on its own: a leaf holds a line and its length, and a branch has
children, not too many, and their totals. -/
inductive Filled (capacity : Nat) : Node → Prop where
  | leaf {text : Text} {chars : Nat} (ne_nil : text ≠ []) (chars_eq : chars = text.length) :
      Filled capacity (.leaf text chars)
  | branch {children : List Node} {chars lines : Nat} (one_le : 1 ≤ children.length)
      (length_le : children.length ≤ capacity) (chars_eq : chars = (children.map Node.chars).sum)
      (lines_eq : lines = (children.map Node.lines).sum) :
      Filled capacity (.branch children chars lines)

section

variable {capacity depth : Nat} {node : Node}

/-- Every node of a balanced tree is filled. -/
theorem Balanced.filled (h : node.Balanced capacity depth) :
    ∀ below ∈ node.nodes, below.Filled capacity := by
  induction h with
  | leaf ne_nil => simpa [nodes] using .leaf ne_nil rfl
  | @branch depth children ne_nil length_le balanced ih =>
      rw [nodes]
      refine List.forall_mem_cons.mpr ⟨?_, ?_⟩
      · exact .branch (List.length_pos_iff.mpr ne_nil) length_le (total_eq_sum ..)
          (total_eq_sum ..)
      · intro below hbelow
        obtain ⟨child, hchild, hbelow⟩ := mem_nodesAll.mp hbelow
        exact ih child hchild below hbelow

theorem Balanced.eq_of_mem_leafDepths (h : node.Balanced capacity depth) {above : Nat} :
    ∀ leafDepth ∈ node.leafDepths above, leafDepth = above + depth := by
  induction h generalizing above with
  | leaf => simp [leafDepths]
  | branch _ _ _ ih =>
      intro leafDepth hdepth
      obtain ⟨child, hchild, hdepth⟩ := mem_leafDepthsAll.mp hdepth
      rw [ih child hchild leafDepth hdepth]
      omega

/-- The way to the first leaf is as long as the way to any other. -/
theorem Balanced.depth_eq (h : node.Balanced capacity depth) : node.depth = depth := by
  induction h with
  | leaf => rfl
  | @branch depth children ne_nil _ _ ih =>
      obtain ⟨first, rest, rfl⟩ := List.exists_cons_of_ne_nil ne_nil
      rw [Node.depth, ih first (by simp)]

theorem Compact.children_ne (h : node.Compact) (children : List Node) (chars lines : Nat) :
    node.children ≠ [.branch children chars lines] := by
  cases h <;> simp [Node.children]

theorem Balanced.chars_pos (h : node.Balanced capacity depth) : 0 < node.chars := by
  induction h with
  | leaf ne_nil => exact List.length_pos_iff.mpr ne_nil
  | @branch depth children ne_nil _ _ ih =>
      obtain ⟨first, rest, rfl⟩ := List.exists_cons_of_ne_nil ne_nil
      have := ih first (by simp)
      simp only [chars, total, List.foldr_cons] at this ⊢
      omega

theorem Balanced.lines_pos (h : node.Balanced capacity depth) : 0 < node.lines := by
  rw [h.lines_eq]
  exact List.length_pos_iff.mpr h.toList_ne_nil

end

end Node

/-- What the form of a line tree promises. Only the empty text has a node that is not filled, a root
without children. -/
structure Shapely (t : LineTree) : Prop where
  two_le_capacity : 2 ≤ t.capacity
  filled : ∀ node ∈ t.root.nodes,
    node.Filled t.capacity ∨ (t.text = [] ∧ node = t.root ∧ node = .branch [] 0 0)
  /-- All leaves lie equally deep, at the depth of the tree. -/
  depth_eq : ∀ depth ∈ t.root.leafDepths 0, depth = t.depth
  root_eq : ∃ children chars lines, t.root = .branch children chars lines
  root_children : ∀ children chars lines, t.root.children ≠ [.branch children chars lines]
  length_eq : t.length = t.text.length
  lineCount_eq : t.lineCount = t.lines.length
  depth_eq_zero : t.depth = 0 ↔ t.text = []

section

variable {t : LineTree}

theorem text_ne_nil_of_root {depth : Nat} (h : t.root.Balanced t.capacity (depth + 1)) :
    t.text ≠ [] := by
  rw [Ne, ← List.length_eq_zero_iff, LineTree.text, LineTree.lines, ← h.chars_eq]
  exact Nat.ne_of_gt h.chars_pos

theorem Balanced.shapely (h : t.Balanced) : t.Shapely := by
  have hlength := h.length_eq
  have hcount := h.lineCount_eq
  rcases h.root with hroot | ⟨depth, hroot, hcompact⟩
  · have htext : t.text = [] := by
      rw [LineTree.text, LineTree.lines, hroot]
      rfl
    exact
      { two_le_capacity := h.two_le_capacity
        filled := by
          intro node hnode
          rw [hroot] at hnode ⊢
          obtain rfl : node = .ofChildren [] := by
            simpa [Node.nodes, Node.nodesAll, Node.ofChildren] using hnode
          exact .inr ⟨htext, rfl, rfl⟩
        depth_eq := by
          rw [hroot]
          simp [Node.leafDepths, Node.leafDepthsAll, Node.ofChildren]
        root_eq := ⟨_, _, _, hroot⟩
        root_children := by
          rw [hroot]
          simp [Node.children, Node.ofChildren]
        length_eq := hlength
        lineCount_eq := hcount
        depth_eq_zero := by simp [htext, LineTree.depth, hroot, Node.depth, Node.ofChildren] }
  · have hdepth : t.depth = depth + 1 := hroot.depth_eq
    exact
      { two_le_capacity := h.two_le_capacity
        filled := fun node hnode => .inl (hroot.filled node hnode)
        depth_eq := by
          intro leafDepth hleaf
          rw [hroot.eq_of_mem_leafDepths leafDepth hleaf, hdepth, Nat.zero_add]
        root_eq := by
          generalize t.root = root at hroot ⊢
          cases hroot
          exact ⟨_, _, _, rfl⟩
        root_children := hcompact.children_ne
        length_eq := hlength
        lineCount_eq := hcount
        depth_eq_zero := by simp [hdepth, text_ne_nil_of_root hroot] }

end

end ProjectTracker.LineTree
