import ProjectTracker.Path.Normalizer
import ProjectTracker.Proofs.Text.Lowercase
/-!
A normal path stays as it is when it is made normal again, as long as the base directory is
absolute.
-/

namespace ProjectTracker

namespace Path

/-! ### Cleaning -/

/-- Components that cleaning has gathered, the last one first, which it leaves as they are from
then on. -/
def Settled (done : List Component) : Prop :=
  done.reverse.foldl cleanStep [] = done

theorem settled_cons {done : List Component} (h : Settled done) {c : Component}
    (hc : cleanStep done c = c :: done) : Settled (c :: done) := by
  unfold Settled
  rw [List.reverse_cons, List.foldl_append, h]
  exact hc

theorem settled_cleanStep {done : List Component} (h : Settled done) (c : Component) :
    Settled (cleanStep done c) := by
  cases c with
  | here => exact h
  | root => rfl
  | name text => exact settled_cons h rfl
  | parent =>
      cases done with
      | nil => exact settled_cons h rfl
      | cons last rest =>
          cases last with
          | root => exact h
          | here => exact settled_cons h rfl
          | parent => exact settled_cons h rfl
          | name text =>
              -- the name went in last, and without it the rest was settled before
              unfold Settled at h
              rw [List.reverse_cons, List.foldl_append] at h
              exact (List.cons.inj h).2

theorem settled_foldl {done : List Component} (h : Settled done) (components : List Component) :
    Settled (components.foldl cleanStep done) := by
  induction components generalizing done with
  | nil => exact h
  | cons c components ih => exact ih (settled_cleanStep h c)

theorem clean_eq (p : Path) :
    p.clean =
      if p.components.foldl cleanStep [] = [] then ⟨[.here]⟩
      else ⟨(p.components.foldl cleanStep []).reverse⟩ := by
  unfold clean
  cases p.components.foldl cleanStep [] <;> simp

theorem clean_clean (p : Path) : p.clean.clean = p.clean := by
  have hnil : Settled [] := rfl
  have hsettled : Settled (p.components.foldl cleanStep []) := settled_foldl hnil p.components
  rw [clean_eq p]
  split
  · rfl
  · rename_i hne
    rw [clean_eq, hsettled, if_neg hne]

/-! ### Absolute paths -/

/-- What was gathered from an absolute path keeps its root at the end. -/
theorem getLast?_cleanStep {done : List Component} (h : done.getLast? = some .root)
    (c : Component) : (cleanStep done c).getLast? = some .root := by
  have hne : done ≠ [] := by
    rintro rfl
    simp at h
  have hpush (c : Component) : (c :: done).getLast? = some .root := by
    rw [List.getLast?_cons, h]
    rfl
  cases c with
  | here => exact h
  | root => rfl
  | name text => exact hpush _
  | parent =>
      cases done with
      | nil => exact absurd rfl hne
      | cons last rest =>
          cases last with
          | root => exact h
          | here => exact hpush _
          | parent => exact hpush _
          | name text =>
              -- a name is not the root, so that something is left when it goes
              cases rest with
              | nil => simp at h
              | cons next rest =>
                  show (next :: rest).getLast? = some .root
                  simpa using h

theorem getLast?_foldl {done : List Component} (h : done.getLast? = some .root)
    (components : List Component) :
    (components.foldl cleanStep done).getLast? = some .root := by
  induction components generalizing done with
  | nil => exact h
  | cons c components ih => exact ih (getLast?_cleanStep h c)

theorem isAbsolute_clean {p : Path} (h : p.isAbsolute) : p.clean.isAbsolute := by
  obtain ⟨components⟩ := p
  have hhead : components.head? = some .root := of_decide_eq_true h
  cases components with
  | nil => simp at hhead
  | cons c components =>
      obtain rfl : c = .root := Option.some.inj hhead
      have hlast : (components.foldl cleanStep [.root]).getLast? = some .root :=
        getLast?_foldl rfl components
      rw [clean_eq]
      split
      · rename_i hnil
        have hnil' : components.foldl cleanStep [.root] = [] := hnil
        simp [hnil'] at hlast
      · exact decide_eq_true (List.head?_reverse.trans hlast)

theorem isAbsolute_join {p q : Path} (h : p.isAbsolute) : (p.join q).isAbsolute := by
  unfold join
  split
  · assumption
  · have hhead : p.components.head? = some .root := of_decide_eq_true h
    split
    · rename_i hnil
      simp [hnil] at hhead
    · apply decide_eq_true
      rw [List.head?_append, hhead]
      rfl

theorem join_of_isAbsolute (p : Path) {q : Path} (h : q.isAbsolute) : p.join q = q :=
  if_pos h

end Path

namespace Normalizer

/-! ### Small letters -/

theorem lowerComponent_lowerComponent (c : Component) :
    lowerComponent (lowerComponent c) = lowerComponent c := by
  cases c with
  | name text => simp [lowerComponent, Text.toLower_toLower]
  | root => rfl
  | here => rfl
  | parent => rfl

theorem cleanStep_lowerComponent (done : List Component) (c : Component) :
    Path.cleanStep (done.map lowerComponent) (lowerComponent c) =
      (Path.cleanStep done c).map lowerComponent := by
  cases c with
  | here => rfl
  | root => rfl
  | name text => rfl
  | parent =>
      cases done with
      | nil => rfl
      | cons last rest => cases last <;> rfl

theorem foldl_lowerComponent (done components : List Component) :
    (components.map lowerComponent).foldl Path.cleanStep (done.map lowerComponent) =
      (components.foldl Path.cleanStep done).map lowerComponent := by
  induction components generalizing done with
  | nil => rfl
  | cons c components ih =>
      rw [List.map_cons, List.foldl_cons, List.foldl_cons, cleanStep_lowerComponent, ih]

/-- Cleaning goes by the kinds of the components only, so that it does not matter when names are
written in small letters. -/
theorem clean_lowerComponent (p : Path) :
    Path.clean ⟨p.components.map lowerComponent⟩ = ⟨p.clean.components.map lowerComponent⟩ := by
  have hfoldl := foldl_lowerComponent [] p.components
  rw [List.map_nil] at hfoldl
  rw [Path.clean_eq, Path.clean_eq, hfoldl]
  split
  · rename_i hnil
    rw [if_pos (List.map_eq_nil_iff.mp hnil)]
    rfl
  · rename_i hne
    rw [if_neg fun hnil => hne (List.map_eq_nil_iff.mpr hnil), List.map_reverse]

theorem isAbsolute_lowerComponent {p : Path} (h : p.isAbsolute) :
    Path.isAbsolute ⟨p.components.map lowerComponent⟩ := by
  have hhead : p.components.head? = some .root := of_decide_eq_true h
  apply decide_eq_true
  rw [List.head?_map, hhead]
  rfl

/-! ### Normal paths -/

/-- A normal path is normal. -/
theorem normalize_normalize {n : Normalizer} (h : n.base.isAbsolute) (p : Path) :
    n.normalize (n.normalize p) = n.normalize p := by
  -- the path is absolute the second time, so that the base does not come in again
  have habsolute : (n.base.join p).clean.isAbsolute :=
    Path.isAbsolute_clean (Path.isAbsolute_join h)
  unfold normalize
  dsimp only
  cases n.caseSensitive with
  | true =>
      rw [if_pos rfl, if_pos rfl, Path.join_of_isAbsolute _ habsolute, Path.clean_clean]
  | false =>
      rw [if_neg Bool.false_ne_true, if_neg Bool.false_ne_true,
        Path.join_of_isAbsolute _ (isAbsolute_lowerComponent habsolute), clean_lowerComponent,
        Path.clean_clean, List.map_map]
      congr 2
      funext c
      exact lowerComponent_lowerComponent c

end Normalizer

end ProjectTracker
