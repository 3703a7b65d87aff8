import Mathlib.Data.List.Basic
import ProjectTracker.Path.Spelling

/-!
Paths that can be written. Each component of such a path is what its own writing stands for, and only the first one
can be a root or a leading dot, so that the path can be taken down to from above, one component after the other.
-/

namespace ProjectTracker

/-- A path that some text stands for. -/
def Path.Written (p : Path) : Prop :=
  ∃ text, (Spelling.parse text).path = p

/-- A component that is written as a path of its own. -/
def Component.Legible (c : Component) : Prop :=
  (Spelling.parse c.render).path = ⟨[c]⟩

namespace Spelling

/-! ### Pieces -/

theorem slash_notMem_of_mem_pieces {text piece : List Char} (h : piece ∈ pieces text) : '/' ∉ piece := by
  induction text generalizing piece with
  | nil =>
      obtain rfl := List.mem_singleton.mp h
      exact List.not_mem_nil
  | cons c rest ih =>
      unfold pieces at h
      split at h
      · rcases List.mem_cons.mp h with rfl | h
        · exact List.not_mem_nil
        · exact ih h
      · rename_i hc
        have hc' : ¬ '/' = c := fun hslash => hc hslash.symm
        split at h
        · obtain rfl := List.mem_singleton.mp h
          simp [hc']
        · rename_i first more hrest
          rw [hrest] at ih
          rcases List.mem_cons.mp h with rfl | h
          · simp [hc', ih List.mem_cons_self]
          · exact ih (List.mem_cons_of_mem _ h)

theorem pieces_of_slash_notMem {text : List Char} (h : '/' ∉ text) : pieces text = [text] := by
  induction text with
  | nil => rfl
  | cons c rest ih =>
      rw [List.mem_cons, not_or] at h
      have hc : ¬ c = '/' := fun hslash => h.1 hslash.symm
      unfold pieces
      rw [if_neg hc, ih h.2]

theorem legible_of_componentOf {atStart : Bool} {piece : List Char} {c : Component} (hslash : '/' ∉ piece)
    (h : componentOf atStart piece = some c) : c.Legible := by
  unfold componentOf at h
  split at h
  · simp at h
  · rename_i hempty
    split at h
    · split at h
      · obtain rfl := Option.some.inj h
        rfl
      · simp at h
    · rename_i hdot
      split at h
      · obtain rfl := Option.some.inj h
        rfl
      · rename_i hdots
        obtain rfl := Option.some.inj h
        have hscan : scan piece = located true 0 (pieces piece) := by
          unfold scan
          split
          · simp at hslash
          · rfl
        have hname : componentOf true piece = some (.name (String.ofList piece)) := by
          unfold componentOf
          rw [if_neg hempty, if_neg hdot, if_neg hdots]
        unfold Component.Legible parse Component.render
        rw [String.toList_ofList, hscan, pieces_of_slash_notMem hslash, located, hname]
        rfl

theorem componentOf_false_ne {piece : List Char} {c : Component} (h : componentOf false piece = some c) :
    c ≠ .root ∧ c ≠ .here := by
  unfold componentOf at h
  split at h
  · simp at h
  · split at h
    · simp at h
    · split at h
      · obtain rfl := Option.some.inj h
        simp
      · obtain rfl := Option.some.inj h
        simp

/-! ### Components -/

theorem located_cons (atStart : Bool) (start : Nat) (piece : List Char) (more : List (List Char)) :
    (located atStart start (piece :: more)).map (·.1) =
      (componentOf atStart piece).toList ++ (located false (start + piece.length + 1) more).map (·.1) := by
  rw [located]
  cases componentOf atStart piece <;> rfl

theorem exists_of_mem_located {start : Nat} {found : List (List Char)} {c : Component}
    (h : c ∈ (located false start found).map (·.1)) : ∃ piece ∈ found, componentOf false piece = some c := by
  induction found generalizing start with
  | nil => simp [located] at h
  | cons piece more ih =>
      rw [located_cons, List.mem_append] at h
      rcases h with h | h
      · exact ⟨piece, List.mem_cons_self, Option.mem_toList.mp h⟩
      · obtain ⟨later, hlater, hc⟩ := ih h
        exact ⟨later, List.mem_cons_of_mem _ hlater, hc⟩

theorem legible_of_mem_located {text : List Char} {found : List (List Char)} (hfound : found ⊆ pieces text)
    {start : Nat} {c : Component} (h : c ∈ (located false start found).map (·.1)) :
    c.Legible ∧ c ≠ .root ∧ c ≠ .here := by
  obtain ⟨piece, hpiece, hc⟩ := exists_of_mem_located h
  exact ⟨legible_of_componentOf (slash_notMem_of_mem_pieces (hfound hpiece)) hc, componentOf_false_ne hc⟩

/-- The components of a text: one that only can stand first, or none, and then others. -/
theorem exists_components_parse (text : String) : ∃ (first : Option Component) (later : List Component),
    (parse text).path.components = first.toList ++ later ∧ (∀ c ∈ first, c.Legible) ∧
      ∀ c ∈ later, c.Legible ∧ c ≠ .root ∧ c ≠ .here := by
  unfold parse
  dsimp only
  unfold scan
  split
  · rename_i rest _
    refine ⟨some .root, _, rfl, ?_, fun c => legible_of_mem_located (List.Subset.refl (pieces rest))⟩
    rintro _ ⟨⟩
    rfl
  · cases hpieces : pieces text.toList with
    | nil => exact ⟨none, [], rfl, nofun, nofun⟩
    | cons piece more =>
        have hmore : more ⊆ pieces text.toList := hpieces ▸ List.subset_cons_self ..
        have hpiece : piece ∈ pieces text.toList := hpieces ▸ List.mem_cons_self
        exact ⟨_, _, located_cons .., fun c => legible_of_componentOf (slash_notMem_of_mem_pieces hpiece),
          fun c => legible_of_mem_located hmore⟩

end Spelling

namespace Path

/-- A component of a path that can be written, somewhere in it. -/
theorem Written.split {p : Path} (hp : p.Written) {above rest : List Component} {c : Component}
    (h : p.components = above ++ c :: rest) : c.Legible ∧ (above = [] ∨ c ≠ .root ∧ c ≠ .here) := by
  obtain ⟨text, rfl⟩ := hp
  obtain ⟨first, later, hcomponents, hfirst, hlater⟩ := Spelling.exists_components_parse text
  rw [hcomponents] at h
  cases above with
  | nil =>
      refine ⟨?_, .inl rfl⟩
      have hc : c ∈ first.toList ++ later := h ▸ List.mem_cons_self
      rcases List.mem_append.mp hc with hc | hc
      · exact hfirst c (Option.mem_toList.mp hc)
      · exact (hlater c hc).1
  | cons top above =>
      have hc : c ∈ later := by
        cases first with
        | none => simp [show later = _ from h]
        | some found =>
            obtain ⟨-, hrest⟩ := List.cons.inj h
            simp [show later = _ from hrest]
      exact ⟨(hlater c hc).1, .inr (hlater c hc).2⟩

end Path

namespace Spelling

theorem path_join (s : Spelling) (name : String) : (s.join name).path = s.path.join (parse name).path := by
  unfold join Path.join
  dsimp only
  split <;> rfl

/-- A step down on the way to a path that can be written. -/
theorem path_join_render {s : Spelling} {p : Path} (hp : p.Written) {c : Component} {rest : List Component}
    (h : p.components = s.path.components ++ c :: rest) :
    (s.join c.render).path = ⟨s.path.components ++ [c]⟩ := by
  obtain ⟨hc, hplace⟩ := hp.split h
  rw [path_join, hc]
  unfold Path.join
  rcases hplace with hnone | ⟨hroot, hhere⟩
  · rw [if_pos hnone, hnone]
    split <;> rfl
  · have hrelative : ¬ Path.isAbsolute ⟨[c]⟩ := by simpa [Path.isAbsolute] using hroot
    rw [if_neg hrelative]
    split
    · rename_i hnone
      rw [hnone]
      rfl
    · simp [hhere]

end Spelling

end ProjectTracker
