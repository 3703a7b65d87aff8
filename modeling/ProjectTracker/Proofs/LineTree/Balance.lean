import Mathlib.Data.List.Basic
import ProjectTracker.LineTree.Basic

/-!
Balance of the line tree. Every branch has at least one child and at most as
many as the capacity allows, all leaves lie equally deep, and the totals that a
node caches are exact. The trees that loading and editing build are of this
form, whatever lines they are given.
-/

namespace ProjectTracker.LineTree

namespace Node

/-! ### Cutting a run of nodes into pieces -/

section Chunks

variable {α : Type} {size : Nat}

theorem flatten_chunksFrom (size room : Nat) (piece xs : List α) :
    (chunksFrom size room piece xs).flatten = piece.reverse ++ xs := by
  induction xs generalizing room piece with
  | nil => cases piece <;> simp [chunksFrom]
  | cons x xs ih =>
      rw [chunksFrom]
      split
      · simp [ih]
      · simp [ih]

theorem ne_nil_of_mem_chunksFrom {room : Nat} {piece xs chunk : List α}
    (h : chunk ∈ chunksFrom size room piece xs) : chunk ≠ [] := by
  induction xs generalizing room piece with
  | nil =>
      cases piece with
      | nil => simp [chunksFrom] at h
      | cons y piece =>
          simp only [chunksFrom, List.mem_singleton] at h
          simp [h]
  | cons x xs ih =>
      rw [chunksFrom] at h
      split at h
      · rcases List.mem_cons.mp h with rfl | h
        · simp
        · exact ih h
      · exact ih h

theorem length_le_of_mem_chunksFrom {room : Nat} {piece xs chunk : List α}
    (hroom : 1 ≤ room) (hsize : piece.length + room = size)
    (h : chunk ∈ chunksFrom size room piece xs) : chunk.length ≤ size := by
  induction xs generalizing room piece with
  | nil =>
      cases piece with
      | nil => simp [chunksFrom] at h
      | cons y piece =>
          simp only [chunksFrom, List.mem_singleton] at h
          simp only [h, List.length_reverse]
          omega
  | cons x xs ih =>
      rw [chunksFrom] at h
      split at h
      · rcases List.mem_cons.mp h with rfl | h
        · simp only [List.length_reverse, List.length_cons]
          omega
        · exact ih (by omega) (by simp) h
      · exact ih (by omega) (by simp only [List.length_cons]; omega) h

/-- The pieces are as few as can be. -/
theorem length_chunksFrom {room : Nat} {piece xs : List α}
    (hroom : 1 ≤ room) (hsize : piece.length + room = size) :
    (chunksFrom size room piece xs).length = (piece.length + xs.length + size - 1) / size := by
  induction xs generalizing room piece with
  | nil =>
      cases piece with
      | nil => simp only [chunksFrom, List.length_nil]; rw [Nat.div_eq_of_lt (by omega)]
      | cons y piece =>
          simp only [chunksFrom, List.length_cons, List.length_nil] at hsize ⊢
          rw [show piece.length + 1 + 0 + size - 1 = piece.length + size by omega,
            Nat.add_div_right _ (by omega), Nat.div_eq_of_lt (by omega)]
  | cons x xs ih =>
      rw [chunksFrom]
      split
      · rw [List.length_cons, ih (by omega) (by simp)]
        simp only [List.length_nil, List.length_cons, Nat.zero_add]
        rw [show piece.length + (xs.length + 1) + size - 1 = xs.length + size - 1 + size by omega,
          Nat.add_div_right _ (by omega)]
      · rw [ih (by omega) (by simp only [List.length_cons]; omega)]
        simp only [List.length_cons]
        congr 1
        omega

end Chunks

/-- A node whose leaves all lie `depth` levels below it, with no empty line, no
empty or overfull branch, and no wrong total. -/
inductive Balanced (capacity : Nat) : Nat → Node → Prop where
  | leaf {text : Text} (ne_nil : text ≠ []) : Balanced capacity 0 (.leaf text text.length)
  | branch {depth : Nat} {children : List Node} (ne_nil : children ≠ [])
      (length_le : children.length ≤ capacity)
      (balanced : ∀ node ∈ children, Balanced capacity depth node) :
      Balanced capacity (depth + 1)
        (.branch children (total chars children) (total lines children))

theorem balanced_ofLine {capacity : Nat} {text : Text} (h : text ≠ []) :
    Balanced capacity 0 (ofLine text) :=
  .leaf h

/-- The leaves of lines that are not empty. -/
theorem balanced_of_mem_ofLine {capacity : Nat} {texts : List Text}
    (h : ∀ text ∈ texts, text ≠ []) : ∀ node ∈ texts.map ofLine, Balanced capacity 0 node := by
  intro node hnode
  obtain ⟨text, htext, rfl⟩ := List.mem_map.mp hnode
  exact balanced_ofLine (h text htext)

section

variable {capacity depth : Nat} {nodes : List Node}

theorem balanced_of_mem_group (hcapacity : 1 ≤ capacity)
    (h : ∀ node ∈ nodes, Balanced capacity depth node) :
    ∀ node ∈ group capacity nodes, Balanced capacity (depth + 1) node := by
  intro node hnode
  obtain ⟨chunk, hchunk, rfl⟩ := List.mem_map.mp hnode
  refine .branch (ne_nil_of_mem_chunksFrom hchunk)
    (length_le_of_mem_chunksFrom hcapacity (by simp) hchunk) ?_
  intro child hchild
  apply h
  have hflat := flatten_chunksFrom capacity capacity [] nodes
  rw [List.reverse_nil, List.nil_append] at hflat
  rw [← hflat]
  exact List.mem_flatten_of_mem hchunk hchild

theorem length_group (hcapacity : 1 ≤ capacity) :
    (group capacity nodes).length = (nodes.length + capacity - 1) / capacity := by
  rw [group, List.length_map, length_chunksFrom hcapacity (by simp)]
  simp

/-- A new level is shorter than the one below it. -/
theorem length_group_lt (hcapacity : 2 ≤ capacity) (hlength : capacity < nodes.length) :
    (group capacity nodes).length < nodes.length := by
  rw [length_group (by omega), Nat.div_lt_iff_lt_mul (by omega)]
  have := Nat.mul_le_mul_left nodes.length hcapacity
  omega

theorem group_ne_nil (h : nodes ≠ []) : group capacity nodes ≠ [] := by
  intro hgroup
  have hflat := flatten_chunksFrom capacity capacity [] nodes
  rw [List.map_eq_nil_iff.mp hgroup] at hflat
  exact h (by simpa using hflat.symm)

/-- Raising ends with a level that fits below one branch. -/
theorem length_raise_le (hcapacity : 2 ≤ capacity) {fuel : Nat} (hfuel : nodes.length ≤ fuel) :
    (raise capacity fuel nodes).length ≤ capacity := by
  induction fuel generalizing nodes with
  | zero => rw [raise]; omega
  | succ fuel ih =>
      rw [raise]
      split
      · assumption
      · rename_i hlong
        have := length_group_lt hcapacity (Nat.lt_of_not_le hlong)
        exact ih (by omega)

theorem raise_ne_nil (fuel : Nat) (h : nodes ≠ []) : raise capacity fuel nodes ≠ [] := by
  induction fuel generalizing nodes with
  | zero => exact h
  | succ fuel ih =>
      rw [raise]
      split
      · exact h
      · exact ih (group_ne_nil h)

theorem exists_balanced_raise (hcapacity : 1 ≤ capacity) (fuel : Nat)
    (h : ∀ node ∈ nodes, Balanced capacity depth node) :
    ∃ depth', ∀ node ∈ raise capacity fuel nodes, Balanced capacity depth' node := by
  induction fuel generalizing nodes depth with
  | zero => exact ⟨depth, h⟩
  | succ fuel ih =>
      rw [raise]
      split
      · exact ⟨depth, h⟩
      · exact ih (balanced_of_mem_group hcapacity h)

end

/-- A branch that holds more than one other branch, or leaves. -/
inductive Compact : Node → Prop where
  | leaf {text : Text} {count : Nat} {chars lines : Nat} :
      Compact (.branch [.leaf text count] chars lines)
  | many {first second : Node} {rest : List Node} {chars lines : Nat} :
      Compact (.branch (first :: second :: rest) chars lines)

/-- Collapsing a balanced branch leaves a balanced branch, and one that is
compact. -/
theorem exists_balanced_collapse {capacity depth : Nat} {node : Node}
    (h : Balanced capacity (depth + 1) node) :
    ∃ depth', Balanced capacity (depth' + 1) node.collapse ∧ Compact node.collapse := by
  induction depth generalizing node with
  | zero =>
      cases h with
      | @branch _ children ne_nil length_le balanced =>
          match children, balanced with
          | [], _ => exact absurd rfl ne_nil
          | [only], balanced =>
              cases balanced only (by simp) with
              | leaf htext => exact ⟨0, .branch ne_nil length_le balanced, .leaf⟩
          | first :: second :: rest, balanced =>
              rw [collapse]
              · exact ⟨0, .branch ne_nil length_le balanced, .many⟩
              · simp
  | succ depth ih =>
      cases h with
      | @branch _ children ne_nil length_le balanced =>
          match children, balanced with
          | [], _ => exact absurd rfl ne_nil
          | [only], balanced =>
              -- the only child takes the place of the branch, and is collapsed in turn
              have honly := balanced only (by simp)
              obtain ⟨depth', hdepth⟩ := ih honly
              cases honly with
              | branch => exact ⟨depth', by rwa [collapse]⟩
          | first :: second :: rest, balanced =>
              rw [collapse]
              · exact ⟨depth + 1, .branch ne_nil length_le balanced, .many⟩
              · simp

/-- A root above a run of nodes of one depth. -/
theorem exists_balanced_rootOf {capacity depth : Nat} {nodes : List Node} (hcapacity : 2 ≤ capacity)
    (hnodes : nodes ≠ []) (h : ∀ node ∈ nodes, Balanced capacity depth node) :
    ∃ depth', Balanced capacity (depth' + 1) (rootOf capacity nodes) ∧
      Compact (rootOf capacity nodes) := by
  obtain ⟨depth', hdepth⟩ := exists_balanced_raise (Nat.le_of_succ_le hcapacity) nodes.length h
  exact exists_balanced_collapse
    (.branch (raise_ne_nil _ hnodes) (length_raise_le hcapacity Nat.le.refl) hdepth)

theorem rootOf_nil (capacity : Nat) : rootOf capacity [] = ofChildren [] := by
  rw [rootOf, List.length_nil, raise, ofChildren, collapse]
  simp

/-! ### Replacing lines -/

theorem balanced_of_mem_spliceAll {capacity depth : Nat} {r : Replacement} {nodes : List Node}
    (h : ∀ node ∈ nodes, ∀ line, ∀ node' ∈ node.splice capacity r line,
      Balanced capacity depth node') (line : Nat) :
    ∀ node' ∈ spliceAll capacity r line nodes, Balanced capacity depth node' := by
  induction nodes generalizing line with
  | nil => simp [spliceAll]
  | cons node nodes ih =>
      intro node' hnode'
      rw [spliceAll] at hnode'
      rcases List.mem_append.mp hnode' with hnode' | hnode'
      · exact h node (by simp) line node' hnode'
      · exact ih (fun node hnode => h node (List.mem_cons_of_mem _ hnode)) _ node' hnode'

/-- What stands for a node after a replacement has the depth of the node. -/
theorem balanced_of_mem_splice {capacity depth : Nat} {r : Replacement} {node : Node}
    (hcapacity : 1 ≤ capacity) (hleaves : ∀ leaf ∈ r.leaves, Balanced capacity 0 leaf)
    (h : Balanced capacity depth node) (line : Nat) :
    ∀ node' ∈ node.splice capacity r line, Balanced capacity depth node' := by
  induction h generalizing line with
  | leaf ne_nil =>
      rw [splice]
      cases r.overlap line 1 with
      | apart => simpa using Balanced.leaf ne_nil
      | within => simp
      | across =>
          by_cases hline : line = r.first
          · simpa [hline] using hleaves
          · simp [hline]
  | @branch depth children ne_nil length_le balanced ih =>
      rw [splice]
      cases r.overlap line (total lines children) with
      | apart => simpa using Balanced.branch ne_nil length_le balanced
      | within => simp
      | across => exact balanced_of_mem_group hcapacity (balanced_of_mem_spliceAll ih line)

end Node

/-! ### Whole trees -/

/-- A tree whose root is a compact branch above balanced nodes, or the branch
without children that stands for the empty text. -/
structure Balanced (t : LineTree) : Prop where
  two_le_capacity : 2 ≤ t.capacity
  root : t.root = .ofChildren [] ∨ ∃ depth, t.root.Balanced t.capacity (depth + 1) ∧ t.root.Compact

theorem two_le_fitCapacity (capacity : Nat) : 2 ≤ fitCapacity capacity :=
  Nat.le_max_right ..

/-- A root above nodes that may be none. -/
theorem balanced_rootOf {capacity depth : Nat} {nodes : List Node} (hcapacity : 2 ≤ capacity)
    (h : ∀ node ∈ nodes, node.Balanced capacity depth) :
    (LineTree.mk (.rootOf capacity nodes) capacity).Balanced := by
  refine ⟨hcapacity, ?_⟩
  rcases eq_or_ne nodes [] with rfl | hnodes
  · exact .inl (Node.rootOf_nil capacity)
  · exact .inr (Node.exists_balanced_rootOf hcapacity hnodes h)

theorem balanced_ofLines (lines : List Text) (capacity : Nat) :
    (ofLines lines capacity).Balanced := by
  exact balanced_rootOf (two_le_fitCapacity capacity) (Node.balanced_of_mem_ofLine (by simp))

theorem balanced_ofText (text : Text) (capacity : Nat) : (ofText text capacity).Balanced :=
  balanced_ofLines ..

theorem editedLine?_of_root_eq_nil {t : LineTree} (h : t.root = .ofChildren []) (offset : Nat) :
    t.editedLine? offset = none := by
  have hlength : t.length = 0 := by rw [length, h]; rfl
  have hlast : t.lastLine? = none := by rw [lastLine?, h]; rfl
  simp [editedLine?, lineAt?, hlength, hlast]

theorem Balanced.edit {t : LineTree} (h : t.Balanced) (start deleted : Nat) (inserted : Text) :
    (t.edit start deleted inserted).Balanced := by
  unfold LineTree.edit
  dsimp only
  split
  · exact h
  · split
    · rename_i first last hfirst hlast
      rcases h.root with hroot | ⟨depth, hroot, -⟩
      · rw [editedLine?_of_root_eq_nil hroot] at hfirst
        exact absurd hfirst (by simp)
      · apply balanced_rootOf h.two_le_capacity
        apply Node.balanced_of_mem_splice (Nat.le_of_succ_le h.two_le_capacity) _ hroot
        exact Node.balanced_of_mem_ofLine fun _ => Text.ne_nil_of_mem_splitLines
    · exact balanced_ofText ..

end ProjectTracker.LineTree
