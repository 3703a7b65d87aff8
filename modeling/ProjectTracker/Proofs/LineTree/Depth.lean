import Mathlib.Data.Nat.Log
import Mathlib.Order.Bounds.Defs
import ProjectTracker.Proofs.LineTree.Shape

/-!
The depth of a line tree that is built from its lines. Levels are added above the leaves until they fit below one
branch, and a root that only holds another branch is dropped. Rounding up level by level comes to the same as rounding
up once, so that the tree has just the levels that its capacity and the number of its lines ask for.
-/

namespace ProjectTracker.LineTree

/-- The number of levels that branches of at most `capacity` children need above `count` lines. -/
def levels (capacity count : Nat) : Nat :=
  if count = 0 then 0 else max 1 (Nat.clog capacity count)

@[simp] theorem levels_zero (capacity : Nat) : levels capacity 0 = 0 := rfl

theorem levels_of_pos (capacity : Nat) {count : Nat} (h : 1 ≤ count) :
    levels capacity count = max 1 (Nat.clog capacity count) :=
  if_neg (by omega)

theorem levels_mono (capacity : Nat) {few many : Nat} (h : few ≤ many) :
    levels capacity few ≤ levels capacity many := by
  unfold levels
  split
  · exact Nat.zero_le _
  · have := Nat.clog_mono_right capacity h
    rw [if_neg (by omega)]
    omega

/-- As many levels leave room for the lines. -/
theorem le_pow_levels {capacity : Nat} (hcapacity : 2 ≤ capacity) (count : Nat) :
    count ≤ capacity ^ levels capacity count := by
  unfold levels
  split
  · omega
  · exact (Nat.clog_le_iff_le_pow hcapacity).mp (Nat.le_max_right ..)

/-- Whatever the capacity, the lines fill more than half of what the levels have room for at two children each. -/
theorem two_pow_levels_le {capacity count : Nat} (hcapacity : 2 ≤ capacity) (hcount : 1 ≤ count) :
    2 ^ levels capacity count ≤ 2 * count := by
  rw [levels_of_pos capacity hcount]
  have hclog : Nat.clog capacity count ≤ Nat.clog 2 count := Nat.clog_anti_left Nat.one_lt_two hcapacity
  rcases Nat.lt_or_ge 1 count with hmany | hone
  · have hpos : 0 < Nat.clog 2 count := Nat.clog_pos Nat.one_lt_two hmany
    calc 2 ^ max 1 (Nat.clog capacity count)
        ≤ 2 ^ (Nat.clog 2 count - 1 + 1) := Nat.pow_le_pow_right (by omega) (by omega)
      _ = 2 * 2 ^ (Nat.clog 2 count).pred := Nat.pow_succ'
      _ ≤ 2 * count := Nat.mul_le_mul_left 2 (Nat.le_of_lt (Nat.pow_pred_clog_lt_self Nat.one_lt_two hmany))
  · rw [Nat.clog_of_right_le_one hone, Nat.max_eq_left (Nat.zero_le 1)]
    omega

theorem isLeast_levels {capacity count : Nat} (hcapacity : 2 ≤ capacity) (hcount : 1 ≤ count) :
    IsLeast {depth | 1 ≤ depth ∧ count ≤ capacity ^ depth} (levels capacity count) := by
  have hlevels := levels_of_pos capacity hcount
  refine ⟨⟨?_, le_pow_levels hcapacity count⟩, ?_⟩
  · rw [hlevels]
    exact Nat.le_max_left ..
  · rintro depth ⟨hdepth, hfits⟩
    rw [hlevels]
    exact max_le hdepth (Nat.clog_le_of_le_pow hfits)

namespace Node

section

variable {capacity depth fuel : Nat} {nodes : List Node}

/-- More nodes than fit below a branch need two branches at least. -/
theorem two_le_length_group (hcapacity : 2 ≤ capacity) (hlong : capacity < nodes.length) :
    2 ≤ (group capacity nodes).length := by
  rw [length_group (by omega), Nat.le_div_iff_mul_le (by omega)]
  omega

/-- A run of several nodes is never raised to a single one. -/
theorem two_le_length_raise (hcapacity : 2 ≤ capacity) (fuel : Nat) (h : 2 ≤ nodes.length) :
    2 ≤ (raise capacity fuel nodes).length := by
  induction fuel generalizing nodes with
  | zero => exact h
  | succ fuel ih =>
      rw [raise]
      split
      · exact h
      · exact ih (two_le_length_group hcapacity (by omega))

/-- Each level above the first divides the number of nodes by the capacity, rounding up. -/
theorem balanced_raise (hcapacity : 2 ≤ capacity) (hfuel : nodes.length ≤ fuel)
    (h : ∀ node ∈ nodes, Balanced capacity depth node) :
    ∀ node ∈ raise capacity fuel nodes,
      Balanced capacity (depth + (Nat.clog capacity nodes.length - 1)) node := by
  induction fuel generalizing nodes depth with
  | zero =>
      obtain rfl : nodes = [] := List.length_eq_zero_iff.mp (by omega)
      simp [raise]
  | succ fuel ih =>
      rw [raise]
      split
      · rename_i hfits
        have hlevels : Nat.clog capacity nodes.length ≤ 1 := Nat.clog_le_of_le_pow (by simpa)
        simpa [Nat.sub_eq_zero_of_le hlevels] using h
      · rename_i hlong
        have hshorter := length_group_lt hcapacity (Nat.lt_of_not_le hlong)
        have htwo := two_le_length_group hcapacity (Nat.lt_of_not_le hlong)
        have hgroup := ih (by omega) (balanced_of_mem_group (by omega) h)
        have hpos : 0 < Nat.clog capacity (group capacity nodes).length :=
          Nat.clog_pos hcapacity (by omega)
        have hlevels : Nat.clog capacity nodes.length =
            Nat.clog capacity (group capacity nodes).length + 1 := by
          rw [Nat.clog_of_two_le hcapacity (by omega), length_group (by omega)]
        rw [hlevels]
        rwa [show depth + 1 + (Nat.clog capacity (group capacity nodes).length - 1) =
          depth + (Nat.clog capacity (group capacity nodes).length + 1 - 1) by omega] at hgroup

theorem collapse_ofChildren (h : 2 ≤ nodes.length) : (ofChildren nodes).collapse = ofChildren nodes := by
  rw [ofChildren, collapse]
  intro children chars lines _ _ hroot
  obtain ⟨rfl, -, -⟩ := branch.inj hroot
  rw [List.length_singleton] at h
  omega

/-- A root above several nodes stays where it is put. -/
theorem balanced_rootOf_of_two_le (hcapacity : 2 ≤ capacity) (hlength : 2 ≤ nodes.length)
    (h : ∀ node ∈ nodes, Balanced capacity depth node) :
    Balanced capacity (depth + Nat.clog capacity nodes.length) (rootOf capacity nodes) := by
  have hraised := balanced_raise hcapacity (Nat.le_refl _) h
  have hfits := length_raise_le hcapacity (Nat.le_refl nodes.length)
  have htwo := two_le_length_raise hcapacity nodes.length hlength
  have hpos : 0 < Nat.clog capacity nodes.length := Nat.clog_pos hcapacity hlength
  rw [rootOf]
  generalize raise capacity nodes.length nodes = top at hraised hfits htwo
  have hne : top ≠ [] := by
    rintro rfl
    rw [List.length_nil] at htwo
    omega
  have hroot : Balanced capacity (depth + (Nat.clog capacity nodes.length - 1) + 1) (ofChildren top) :=
    .branch hne hfits hraised
  rw [collapse_ofChildren htwo]
  rwa [show depth + (Nat.clog capacity nodes.length - 1) + 1 =
    depth + Nat.clog capacity nodes.length by omega] at hroot

theorem rootOf_singleton (hcapacity : 2 ≤ capacity) (node : Node) :
    rootOf capacity [node] = (ofChildren [node]).collapse := by
  rw [rootOf, List.length_singleton, raise, if_pos (by simp only [List.length_singleton]; omega)]

theorem depth_collapse_le (node : Node) : node.collapse.depth ≤ node.depth := by
  fun_induction collapse node with
  | case1 children chars lines _ _ ih =>
      rw [depth]
      exact Nat.le_succ_of_le ih
  | case2 => exact Nat.le_refl _

/-- Leaves get the levels that they need. -/
theorem depth_rootOf_map_ofLine {texts : List Text} (hcapacity : 2 ≤ capacity)
    (h : ∀ text ∈ texts, text ≠ []) :
    (rootOf capacity (texts.map ofLine)).depth = levels capacity texts.length := by
  rcases Nat.lt_or_ge texts.length 2 with hfew | hmany
  · match texts, hfew with
    | [], _ => rw [List.map_nil, rootOf_nil]; rfl
    | [text], _ =>
        -- the root holds a leaf, which cannot take its place
        rw [List.map_singleton, rootOf_singleton hcapacity, ofChildren, collapse]
        · simp [levels, depth, ofLine]
        · simp [ofLine]
  · have hroot := balanced_rootOf_of_two_le hcapacity (by simpa) (balanced_of_mem_ofLine h)
    have hpos : 0 < Nat.clog capacity texts.length := Nat.clog_pos hcapacity hmany
    rw [hroot.depth_eq, List.length_map, levels_of_pos _ (by omega)]
    omega

end

end Node

theorem depth_ofLines_eq (lines : List Text) (capacity : Nat) :
    (ofLines lines capacity).depth =
      levels (fitCapacity capacity) (lines.filter (!·.isEmpty)).length := by
  rw [LineTree.depth, ofLines]
  exact Node.depth_rootOf_map_ofLine (two_le_fitCapacity capacity) (by simp)

/-- A tree that is built from lines is as flat as its capacity allows: its depth is the least one, but for 0, at which
that many lines find room. Without lines there is no level at all. -/
theorem depth_ofLines (lines : List Text) (capacity : Nat) :
    let count := (lines.filter (!·.isEmpty)).length
    let t := ofLines lines capacity
    (count = 0 → t.depth = 0) ∧
      (1 ≤ count → IsLeast {depth | 1 ≤ depth ∧ count ≤ fitCapacity capacity ^ depth} t.depth) := by
  intro count t
  have hdepth : t.depth = levels (fitCapacity capacity) count := depth_ofLines_eq lines capacity
  refine ⟨fun hnone => ?_, fun hsome => ?_⟩
  · rw [hdepth, hnone, levels_zero]
  · rw [hdepth]
    exact isLeast_levels (two_le_fitCapacity capacity) hsome

end ProjectTracker.LineTree
