import Mathlib.Data.List.Nodup
import ProjectTracker.Workspace.OpenFiles
/-!
The lists of the open documents as documents are taken out and put in, one at a time or many at
once.
-/

namespace ProjectTracker.OpenFiles

def filter (o : OpenFiles) (keep : Path → Bool) : OpenFiles :=
  ⟨o.roots.filter keep, o.referenced.filter keep, o.configuredRoots.filter keep⟩

theorem erase_eq_filter {l : List Path} {p : Path} (h : l.count p ≤ 1) :
    l.erase p = l.filter (· ≠ p) := by
  induction l with
  | nil => rfl
  | cons q l ih =>
      by_cases hq : q = p
      · subst q
        have hnot : p ∉ l := by
          rw [List.count_cons_self] at h
          exact List.count_eq_zero.mp (by omega)
        rw [List.erase_cons_head, List.filter_cons_of_neg (by simp), List.filter_eq_self.mpr]
        intro q hq
        simpa using fun hqp : q = p => hnot (hqp ▸ hq)
      · rw [List.count_cons_of_ne hq] at h
        rw [List.erase_cons_tail (by simpa using hq), List.filter_cons_of_pos (by simpa using hq),
          ih h]

/-- Taking paths out one by one takes out all their occurrences if each is named often enough. -/
theorem foldl_erase_eq_filter {l ps : List Path} (h : ∀ p ∈ ps, l.count p ≤ ps.count p) :
    ps.foldl List.erase l = l.filter fun p => p ∉ ps := by
  induction ps generalizing l with
  | nil => simp
  | cons p ps ih =>
      have hcount : ∀ q ∈ ps, (l.erase p).count q ≤ ps.count q := by
        intro q hq
        have hle := h q (by simp [hq])
        rw [List.count_cons] at hle
        rw [List.count_erase]
        grind
      rw [List.foldl_cons, ih hcount, ← List.erase_filter]
      by_cases hp : p ∈ ps
      · rw [List.erase_of_not_mem (by simp [hp])]
        apply List.filter_congr
        intro q hq
        simp only [List.mem_cons]
        grind
      · have hone : (l.filter fun q => q ∉ ps).count p ≤ 1 := by
          have hle := h p (by simp)
          rw [List.count_cons_self, List.count_eq_zero.mpr hp] at hle
          exact Nat.le_trans (List.filter_sublist.count_le p) hle
        rw [erase_eq_filter hone, List.filter_filter]
        apply List.filter_congr
        intro q hq
        simp

theorem count_all (o : OpenFiles) (p : Path) :
    o.all.count p = o.roots.count p + o.referenced.count p + o.configuredRoots.count p := by
  rw [all, List.count_append, List.count_append]

theorem foldl_remove_eq_filter {o : OpenFiles} {ps : List Path}
    (h : ∀ p ∈ ps, o.all.count p ≤ ps.count p) :
    ps.foldl remove o = o.filter fun p => p ∉ ps := by
  have hfields (ps : List Path) (o : OpenFiles) : ps.foldl remove o =
      ⟨ps.foldl List.erase o.roots, ps.foldl List.erase o.referenced,
        ps.foldl List.erase o.configuredRoots⟩ := by
    induction ps generalizing o with
    | nil => rfl
    | cons p ps ih => exact ih _
  rw [hfields, filter]
  congr 1
  all_goals
    apply foldl_erase_eq_filter
    intro p hp
    have hle := h p hp
    rw [count_all] at hle
    omega

/-! ### Taking out of the lists and putting in -/

/-- The lists after a document was taken out of some of them. -/
structure Without (o : OpenFiles) (p : Path) (o' : OpenFiles) : Prop where
  sublist : o'.all.Sublist o.all
  roots : o'.roots.Sublist o.roots
  keeps : ∀ q ≠ p, q ∈ o.all → q ∈ o'.all

/-- The lists after a document was put into one of them, the roots only if it may stand there. -/
structure With (o : OpenFiles) (p : Path) (mayRoot : Prop) (o' : OpenFiles) : Prop where
  perm : o'.all.Perm (p :: o.all)
  roots : o'.roots = o.roots ∨ (o'.roots = o.roots ++ [p] ∧ mayRoot)

variable {o o' o'' : OpenFiles} {p : Path} {mayRoot : Prop}

theorem Without.refl (o : OpenFiles) (p : Path) : o.Without p o where
  sublist := .refl _
  roots := .refl _
  keeps _ _ h := h

theorem Without.trans (h : o.Without p o') (h' : o'.Without p o'') : o.Without p o'' where
  sublist := h'.sublist.trans h.sublist
  roots := h'.roots.trans h.roots
  keeps q hq hmem := h'.keeps q hq (h.keeps q hq hmem)

theorem without_removeRoot (o : OpenFiles) (p : Path) : o.Without p (o.removeRoot p) where
  sublist := (List.erase_sublist.append (.refl _)).append (.refl _)
  roots := List.erase_sublist
  keeps q hq := by simp [all, removeRoot, List.mem_erase_of_ne hq]

theorem without_removeReferenced (o : OpenFiles) (p : Path) :
    o.Without p (o.removeReferenced p) where
  sublist := ((List.Sublist.refl _).append List.erase_sublist).append (.refl _)
  roots := .refl _
  keeps q hq := by simp [all, removeReferenced, List.mem_erase_of_ne hq]

theorem without_removeConfiguredRoot (o : OpenFiles) (p : Path) :
    o.Without p (o.removeConfiguredRoot p) where
  sublist := (List.Sublist.refl _).append List.erase_sublist
  roots := .refl _
  keeps q hq := by simp [all, removeConfiguredRoot, List.mem_erase_of_ne hq]

theorem without_remove (o : OpenFiles) (p : Path) : o.Without p (o.remove p) :=
  ((without_removeRoot o p).trans (without_removeReferenced _ p)).trans
    (without_removeConfiguredRoot _ p)

theorem without_removeFirst (o : OpenFiles) (p : Path) : o.Without p (o.removeFirst p) := by
  unfold removeFirst
  split
  · exact without_removeRoot o p
  · split
    · exact without_removeConfiguredRoot o p
    · exact without_removeReferenced o p

theorem with_addRoot (o : OpenFiles) (p : Path) (h : mayRoot) :
    o.With p mayRoot (o.addRoot p) where
  perm := by
    rw [List.perm_iff_count]
    intro q
    simp only [all, addRoot, List.count_append, List.count_cons, List.count_nil]
    omega
  roots := .inr ⟨rfl, h⟩

theorem with_addReferenced (o : OpenFiles) (p : Path) : o.With p mayRoot (o.addReferenced p) where
  perm := by
    rw [List.perm_iff_count]
    intro q
    simp only [all, addReferenced, List.count_append, List.count_cons, List.count_nil]
    omega
  roots := .inl rfl

theorem with_addConfiguredRoot (o : OpenFiles) (p : Path) :
    o.With p mayRoot (o.addConfiguredRoot p) where
  perm := by
    rw [List.perm_iff_count]
    intro q
    simp only [all, addConfiguredRoot, List.count_append, List.count_cons, List.count_nil]
    omega
  roots := .inl rfl

/-- A document that is listed once is gone from the lists once it is taken out of one. -/
theorem not_mem_removeRoot (h : o.all.Nodup) (hp : p ∈ o.roots) : p ∉ (o.removeRoot p).all := by
  rw [← List.count_eq_zero]
  have hle := List.nodup_iff_count_le_one.mp h p
  have hpos := List.count_pos_iff.mpr hp
  rw [count_all] at hle ⊢
  simp only [removeRoot, List.count_erase_self]
  omega

theorem not_mem_removeReferenced (h : o.all.Nodup) (hp : p ∈ o.referenced) :
    p ∉ (o.removeReferenced p).all := by
  rw [← List.count_eq_zero]
  have hle := List.nodup_iff_count_le_one.mp h p
  have hpos := List.count_pos_iff.mpr hp
  rw [count_all] at hle ⊢
  simp only [removeReferenced, List.count_erase_self]
  omega

theorem not_mem_removeConfiguredRoot (h : o.all.Nodup) (hp : p ∈ o.configuredRoots) :
    p ∉ (o.removeConfiguredRoot p).all := by
  rw [← List.count_eq_zero]
  have hle := List.nodup_iff_count_le_one.mp h p
  have hpos := List.count_pos_iff.mpr hp
  rw [count_all] at hle ⊢
  simp only [removeConfiguredRoot, List.count_erase_self]
  omega

theorem not_mem_remove (h : o.all.Nodup) : p ∉ (o.remove p).all := by
  rw [← List.count_eq_zero]
  have hle := List.nodup_iff_count_le_one.mp h p
  rw [count_all] at hle ⊢
  simp only [remove, removeRoot, removeReferenced, removeConfiguredRoot, List.count_erase_self]
  omega

theorem not_mem_removeFirst (h : o.all.Nodup) : p ∉ (o.removeFirst p).all := by
  unfold removeFirst
  split
  · exact not_mem_removeRoot h ‹_›
  · split
    · exact not_mem_removeConfiguredRoot h ‹_›
    · rename_i hroots hconfigured
      rw [← List.count_eq_zero]
      have hle := List.nodup_iff_count_le_one.mp h p
      rw [count_all] at hle ⊢
      simp only [removeReferenced, List.count_erase_self, List.count_eq_zero.mpr hroots,
        List.count_eq_zero.mpr hconfigured] at hle ⊢
      omega

theorem not_mem_roots_removeFirst (h : o.roots.Nodup) : p ∉ (o.removeFirst p).roots := by
  unfold removeFirst
  split
  · exact h.not_mem_erase
  · split <;> assumption

end ProjectTracker.OpenFiles
