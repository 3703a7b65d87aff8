import Mathlib.Data.Char
import ProjectTracker.Text.Lowercase
/-!
Small letters have no other small letters: a text that was written in small letters stays as it is.
-/

namespace ProjectTracker

namespace CharClass

/-! ### The table of capitals -/

/-- Whether the small letters of a run lie apart from the capitals of another one. Where every
second character is a capital the others may lie in between. -/
def CaseRun.misses (a b : CaseRun) : Bool :=
  let first := (a.first + a.offset).toNat
  let last := (a.last + a.offset).toNat
  Nat.blt last b.first || Nat.blt b.last first ||
    (b.step == 2 && (a.step == 2 || a.first == a.last) && first % 2 != b.first % 2)

/-- The small letters of a run are characters, and none of them is the capital I with a dot. -/
def CaseRun.lands (a : CaseRun) : Bool :=
  let first := (a.first + a.offset).toNat
  let last := (a.last + a.offset).toNat
  0 ≤ a.first + a.offset && (last < 0xd800 || (0xdfff < first && last < 0x110000)) &&
    (last < 0x130 || 0x130 < first)

theorem all_misses : lowerRuns.all fun a => lowerRuns.all a.misses := by
  decide +kernel

theorem all_lands : lowerRuns.all CaseRun.lands := by
  decide +kernel

theorem CaseRun.not_holds_of_misses {a b : CaseRun} {n : Nat} (hmisses : a.misses b)
    (hlands : a.lands) (hn : a.holds n) : b.holds (n + a.offset).toNat = false := by
  unfold misses at hmisses
  unfold lands at hlands
  unfold holds at hn ⊢
  simp only [Bool.and_eq_true, Bool.or_eq_true, Nat.blt_eq, beq_iff_eq, bne_iff_ne,
    decide_eq_true_eq] at hmisses hlands hn
  rw [Bool.eq_false_iff]
  simp only [ne_eq, Bool.and_eq_true, decide_eq_true_eq]
  rintro ⟨⟨hfirst, hlast⟩, hstep⟩
  obtain ⟨⟨hle, hge⟩, hmod⟩ := hn
  rcases hmisses with (hbefore | hafter) | ⟨⟨hb, ha⟩, hparity⟩
  · omega
  · omega
  · rw [hb] at hstep
    rcases ha with ha | ha
    · rw [ha] at hmod
      omega
    · omega

theorem CaseRun.isValidChar_of_lands {a : CaseRun} {n : Nat} (hlands : a.lands) (hn : a.holds n) :
    (n + a.offset).toNat.isValidChar ∧ (n + a.offset).toNat ≠ 0x130 := by
  unfold lands at hlands
  unfold holds at hn
  unfold Nat.isValidChar
  simp only [Bool.and_eq_true, Bool.or_eq_true, decide_eq_true_eq] at hlands hn
  omega

theorem toNat_ofNat {n : Nat} (h : n.isValidChar) : (Char.ofNat n).toNat = n := by
  unfold Char.ofNat
  rw [dif_pos h]
  rfl

/-- The characters that are not capitals. -/
def IsSmall (c : Char) : Prop :=
  lower c = [c] ∧ c ≠ 'Σ'

theorem isSmall_of_find? {c : Char} (h : lowerRuns.find? (·.holds c.toNat) = none)
    (hc : c ≠ '\u0130') : IsSmall c := by
  constructor
  · unfold lower
    rw [if_neg hc, h]
  · rintro rfl
    revert h
    decide

theorem isSmall_of_mem_lower {c d : Char} (h : d ∈ lower c) : IsSmall d := by
  unfold lower at h
  split at h
  · have hboth : IsSmall 'i' ∧ IsSmall '\u0307' := by
      unfold IsSmall
      decide
    rcases List.mem_cons.mp h with rfl | h
    · exact hboth.1
    · obtain rfl := List.mem_singleton.mp h
      exact hboth.2
  · rename_i hc
    split at h
    · rename_i run hrun
      have hmem := List.mem_of_find?_eq_some hrun
      have hholds := List.find?_some hrun
      have hlands := List.all_eq_true.mp all_lands run hmem
      have hmisses := List.all_eq_true.mp (List.all_eq_true.mp all_misses run hmem)
      obtain ⟨hvalid, hne⟩ := CaseRun.isValidChar_of_lands hlands hholds
      obtain rfl := List.mem_singleton.mp h
      -- the small letter lies in no run, so that it is no capital itself
      apply isSmall_of_find?
      · rw [toNat_ofNat hvalid, List.find?_eq_none]
        intro other hother
        rw [CaseRun.not_holds_of_misses (hmisses other hother) hlands hholds]
        exact Bool.false_ne_true
      · intro heq
        apply hne
        rw [← toNat_ofNat hvalid, heq]
        rfl
    · rename_i hnone
      obtain rfl := List.mem_singleton.mp h
      exact isSmall_of_find? hnone hc

end CharClass

namespace Text

open CharClass

/-! ### Texts -/

theorem isSmall_of_mem_lowerAfter {before text : Text} {d : Char}
    (h : d ∈ lowerAfter before text) : IsSmall d := by
  induction text generalizing before with
  | nil => simp [lowerAfter] at h
  | cons c text ih =>
      rw [lowerAfter] at h
      rcases List.mem_append.mp h with h | h
      · have hsigma : IsSmall 'ς' ∧ IsSmall 'σ' := by
          unfold IsSmall
          decide
        split at h
        · split at h
          · obtain rfl := List.mem_singleton.mp h
            exact hsigma.1
          · obtain rfl := List.mem_singleton.mp h
            exact hsigma.2
        · exact isSmall_of_mem_lower h
      · exact ih h

theorem lowerAfter_eq_self {before text : Text} (h : ∀ c ∈ text, IsSmall c) :
    lowerAfter before text = text := by
  induction text generalizing before with
  | nil => rfl
  | cons c text ih =>
      obtain ⟨hlower, hsigma⟩ := h c (by simp)
      rw [lowerAfter, if_neg hsigma, hlower, ih fun d hd => h d (by simp [hd])]
      rfl

theorem toLower_toLower (text : Text) : toLower (toLower text) = toLower text :=
  lowerAfter_eq_self fun _ => isSmall_of_mem_lowerAfter

end Text

end ProjectTracker
