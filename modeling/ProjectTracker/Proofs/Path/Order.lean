import Mathlib.Data.String.Basic
import ProjectTracker.Path.Basic

/-!
The order of components, which is total, and how it orders the paths just below a common one.
-/

namespace ProjectTracker

namespace Component

theorem lt_iff {a b : Component} :
    a < b ↔ a.rank < b.rank ∨ ∃ s t, a = .name s ∧ b = .name t ∧ s < t := by
  show a.isBefore b = true ↔ _
  unfold isBefore
  split
  · rename_i s t
    simp [rank]
  · rename_i hnames
    rw [decide_eq_true_iff]
    refine ⟨.inl, ?_⟩
    rintro (hrank | ⟨s, t, rfl, rfl, -⟩)
    · exact hrank
    · exact absurd rfl (hnames s t rfl)

theorem lt_irrefl (c : Component) : ¬ c < c := by
  rw [lt_iff]
  rintro (hrank | ⟨s, t, rfl, ht, hlt⟩)
  · exact Nat.lt_irrefl _ hrank
  · obtain rfl := Component.name.inj ht
    exact String.lt_irrefl _ hlt

theorem lt_trans {a b c : Component} (hab : a < b) (hbc : b < c) : a < c := by
  rw [lt_iff] at *
  rcases hab with hab | ⟨s, t, rfl, rfl, hst⟩
  · rcases hbc with hbc | ⟨t, u, rfl, rfl, -⟩
    · exact .inl (Nat.lt_trans hab hbc)
    · exact .inl hab
  · rcases hbc with hbc | ⟨t', u, ht, rfl, htu⟩
    · exact .inl hbc
    · obtain rfl := Component.name.inj ht
      exact .inr ⟨s, u, rfl, rfl, String.lt_trans hst htu⟩

theorem lt_of_not_lt {a b : Component} (hne : a ≠ b) (h : ¬ a < b) : b < a := by
  rw [lt_iff, not_or] at h
  obtain ⟨hrank, hnames⟩ := h
  rw [lt_iff]
  rcases Nat.lt_or_eq_of_le (Nat.le_of_not_lt hrank) with hless | hsame
  · exact .inl hless
  · -- of one rank there are several components only if they are names
    cases a with
    | name s =>
        cases b with
        | name t =>
            have hst : ¬ s < t := fun hlt => hnames ⟨s, t, rfl, rfl, hlt⟩
            have hne' : t ≠ s := fun heq => hne (heq ▸ rfl)
            exact .inr ⟨t, s, rfl, rfl, lt_of_le_of_ne (not_lt.mp hst) hne'⟩
        | _ => simp [rank] at hsame
    | _ => cases b <;> first | exact absurd rfl hne | simp [rank] at hsame

end Component

namespace Path

theorem ne_of_lt {p q : Path} (h : p < q) : p ≠ q := by
  have hself (components : List Component) : listIsBefore components components = false := by
    induction components with
    | nil => rfl
    | cons c components ih => rwa [listIsBefore, if_pos rfl]
  rintro rfl
  exact absurd h (Bool.eq_false_iff.mp (hself p.components))

theorem append_lt_append {above : List Component} {c d : Component} :
    (⟨above ++ [c]⟩ : Path) < ⟨above ++ [d]⟩ ↔ c < d := by
  show listIsBefore (above ++ [c]) (above ++ [d]) = true ↔ c < d
  induction above with
  | nil =>
      show (if c = d then false else decide (c < d)) = true ↔ c < d
      split
      · rename_i hsame
        simp [hsame, Component.lt_irrefl]
      · exact decide_eq_true_iff
  | cons first above ih =>
      rw [List.cons_append, List.cons_append, listIsBefore, if_pos rfl]
      exact ih

end Path

end ProjectTracker
