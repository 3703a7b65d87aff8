import ProjectTracker.Proofs.Document.Buffering
import Mathlib.Algebra.GroupWithZero.Nat
import Mathlib.Algebra.Ring.Int.Defs
import Mathlib.Order.Bounds.Basic

/-!
The span of a run of changes. Each change is told in the text that those before it made; taken back over
what the text has grown by until then it is a change of the old text, and the span reaches from the least
start to the greatest end. Outside of it the old and the new text agree. As long as the texts are not too
long for a machine word, nothing that is computed on the way is.
-/

namespace ProjectTracker

namespace Change

/-- How much longer a change makes a text. -/
def growth (c : Change) : Int :=
  c.inserted.length - c.deleted

/-- How much longer changes make a text. -/
def growthAll (changes : List Change) : Int :=
  (changes.map growth).sum

/-- Each change stays within the text that those before it make of an old one, and all these texts are so
short that their offsets are signed machine words. -/
structure InRange (changes : List Change) (old : Text) : Prop where
  fits : ∀ done c, done ++ [c] <+: changes → c.Fits (applyAll done old).length
  short : ∀ done, done <+: changes → (applyAll done old).length < 2 ^ 63

variable {c : Change} {changes : List Change} {old text : Text}

@[simp] theorem growthAll_nil : growthAll [] = 0 := rfl

@[simp] theorem growthAll_concat (changes : List Change) (c : Change) :
    growthAll (changes ++ [c]) = growthAll changes + c.growth := by
  simp [growthAll]

theorem inRange_nil : InRange [] old ↔ old.length < 2 ^ 63 := by
  refine ⟨fun h => h.short [] (List.prefix_refl _), fun h => ⟨fun done c hdone => ?_, fun done hdone => ?_⟩⟩
  · simp at hdone
  · rwa [List.prefix_nil.mp hdone]

theorem inRange_concat : InRange (changes ++ [c]) old ↔ InRange changes old ∧
    c.Fits (applyAll changes old).length ∧ (c.apply (applyAll changes old)).length < 2 ^ 63 := by
  constructor
  · intro h
    refine ⟨⟨fun done c' hdone => h.fits done c' (hdone.trans (List.prefix_append ..)),
      fun done hdone => h.short done (hdone.trans (List.prefix_append ..))⟩,
      h.fits changes c (List.prefix_refl _), ?_⟩
    have hshort := h.short (changes ++ [c]) (List.prefix_refl _)
    rwa [applyAll_append] at hshort
  · rintro ⟨h, hfits, hshort⟩
    refine ⟨fun done c' hdone => ?_, fun done hdone => ?_⟩
    · rcases List.prefix_concat_iff.mp hdone with heq | hdone
      · obtain ⟨rfl, hc⟩ := List.append_inj' heq rfl
        rwa [List.singleton_inj.mp hc]
      · exact h.fits done c' hdone
    · rcases List.prefix_concat_iff.mp hdone with rfl | hdone
      · rwa [applyAll_append]
      · exact h.short done hdone

theorem InRange.of_prefix {done : List Change} (h : InRange changes old) (hdone : done <+: changes) :
    InRange done old :=
  ⟨fun _ c hc => h.fits _ c (hc.trans hdone), fun _ hd => h.short _ (hd.trans hdone)⟩

theorem Fits.length_apply_eq (h : c.Fits text.length) :
    ((c.apply text).length : Int) = text.length + c.growth := by
  have hlength := h.length_apply
  rw [Fits] at h
  rw [growth]
  omega

/-- What stands before a change stays. -/
theorem Fits.take_apply (h : c.Fits text.length) {n : Nat} (hn : n ≤ c.start) :
    (c.apply text).take n = text.take n := by
  rw [Fits] at h
  rw [apply, List.append_assoc, List.take_append_of_le_length (by rw [List.length_take]; omega),
    List.take_take, Nat.min_eq_left hn]

/-- What stands after a change stays, and moves by what the text grows. -/
theorem Fits.drop_apply (h : c.Fits text.length) (n : Nat) :
    (c.apply text).drop (c.start + c.inserted.length + n) = text.drop (c.start + c.deleted + n) := by
  rw [Fits] at h
  have hbefore : (text.take c.start ++ c.inserted).length = c.start + c.inserted.length := by
    rw [List.length_append, List.length_take]
    omega
  rw [apply, ← hbefore, List.drop_length_add_append, List.drop_drop, List.drop_drop, Nat.add_assoc]

end Change

namespace Span

open Change

/-- What a span says about the changes that it covers, and about the texts before and after them. -/
structure Covers (span : Span) (changes : List Change) (old new : Text) : Prop where
  start : IsLeast { x | ∃ c ∈ changes, x = c.start } span.start
  /-- The end in the old text, where the end of each change is taken back by the growth before it. -/
  stop : IsGreatest
    { x : Int | ∃ done c, done ++ [c] <+: changes ∧ x = c.start + c.deleted - growthAll done }
    (span.start + span.oldLength)
  newLength : (span.newLength : Int) = span.oldLength + growthAll changes
  old_le : span.start + span.oldLength ≤ old.length
  new_le : span.start + span.newLength ≤ new.length
  take : old.take span.start = new.take span.start
  drop : old.drop (span.start + span.oldLength) = new.drop (span.start + span.newLength)

/-- The span of some changes, before its numbers are made unsigned. -/
def extent? : List Change → Option Extent
  | [] => none
  | first :: rest => some (rest.foldl Extent.widen (Extent.ofChange first))

/-- The extent of a span, none of whose numbers is negative. -/
def extent (s : Span) : Extent :=
  ⟨s.start, s.start + s.oldLength, s.start + s.newLength⟩

/-- To widen a span by a change no number is taken beyond the signed machine words. -/
structure Extent.Widens (e : Extent) (c : Change) : Prop where
  back : toSigned (c.start + c.deleted - e.newEnd) = c.start + c.deleted - e.newEnd
  oldEnd : toSigned (e.oldEnd + (c.start + c.deleted - e.newEnd)) =
    e.oldEnd + (c.start + c.deleted - e.newEnd)
  forth : toSigned (e.newEnd - (c.start + c.deleted)) = e.newEnd - (c.start + c.deleted)
  newEnd : toSigned (c.start + c.inserted.length + (e.newEnd - (c.start + c.deleted))) =
    c.start + c.inserted.length + (e.newEnd - (c.start + c.deleted))

/-- No number that is computed for changes wraps around, and the ends of all spans on the way are as they
are without a sign. -/
structure Exact (changes : List Change) : Prop where
  ofChange : ∀ c ∈ changes,
    Extent.ofChange c = ⟨c.start, c.start + c.deleted, c.start + c.inserted.length⟩
  extent : ∀ done, done <+: changes → done ≠ [] →
    ∃ s : Span, extent? done = some s.extent ∧ s.extent.span = s
  widens : ∀ done c e, done ++ [c] <+: changes → extent? done = some e → e.Widens c

variable {s : Span} {c : Change} {changes : List Change} {old text : Text}

theorem toSigned_eq_self {n : Int} (hle : -2 ^ 63 ≤ n) (hlt : n < 2 ^ 63) : toSigned n = n :=
  Int.bmod_eq_of_le_mul_two (by rw [UInt64.size]; omega) (by rw [UInt64.size]; omega)

theorem toUnsigned_natCast {n : Nat} (h : n < 2 ^ 63) : toUnsigned n = n := by
  rw [toUnsigned, UInt64.size]
  omega

theorem collapse_eq (changes : List Change) : collapse changes = (extent? changes).map Extent.span := by
  cases changes <;> rfl

theorem extent?_concat {e : Extent} (h : extent? changes = some e) (c : Change) :
    extent? (changes ++ [c]) = some (e.widen c) := by
  cases changes with
  | nil => cases h
  | cons first rest =>
      obtain rfl := Option.some.inj h
      rw [List.cons_append, extent?, List.foldl_append]
      rfl

theorem span_extent (hold : s.start + s.oldLength < 2 ^ 63) (hnew : s.start + s.newLength < 2 ^ 63) :
    s.extent.span = s := by
  have hstart := toUnsigned_natCast (Nat.lt_of_le_of_lt (Nat.le_add_right ..) hold)
  have hold' := toUnsigned_natCast (Nat.lt_of_le_of_lt (Nat.le_add_left ..) hold)
  have hnew' := toUnsigned_natCast (Nat.lt_of_le_of_lt (Nat.le_add_left ..) hnew)
  have hcancel (n : Nat) : (s.start + n - s.start : Int) = n := by omega
  rw [extent, Extent.span]
  dsimp only
  rw [hcancel, hcancel, hstart, hold', hnew']

/-! ### One change -/

theorem ofChange_eq (hfits : c.Fits text.length) (hshort : text.length < 2 ^ 63)
    (hnext : (c.apply text).length < 2 ^ 63) :
    Extent.ofChange c = ⟨c.start, c.start + c.deleted, c.start + c.inserted.length⟩ := by
  have hlength := hfits.length_apply
  rw [Fits] at hfits
  rw [Extent.ofChange, toSigned_eq_self (by omega) (by omega), toSigned_eq_self (by omega) (by omega),
    toSigned_eq_self (by omega) (by omega)]

theorem covers_ofChange (hfits : c.Fits old.length) :
    Covers ⟨c.start, c.deleted, c.inserted.length⟩ [c] old (c.apply old) where
  start := by simp [isLeast_singleton]
  stop := by
    refine ⟨⟨[], c, List.prefix_refl _, by simp⟩, ?_⟩
    rintro x ⟨done, c', hdone, rfl⟩
    rcases List.prefix_concat_iff.mp (show done ++ [c'] <+: [] ++ [c] from hdone) with heq | hnil
    · obtain ⟨rfl, hc⟩ := List.append_inj' heq rfl
      obtain rfl := List.singleton_inj.mp hc
      simp
    · simp at hnil
  newLength := by
    show (c.inserted.length : Int) = c.deleted + growthAll ([] ++ [c])
    rw [growthAll_concat, growthAll_nil, growth]
    omega
  old_le := hfits
  new_le := by
    have hlength := hfits.length_apply
    rw [Fits] at hfits
    dsimp only
    omega
  take := (hfits.take_apply (Nat.le_refl _)).symm
  drop := (hfits.drop_apply 0).symm

/-! ### One change more -/

/-- Where a span of changes and a further change end together, in the text between them. -/
def join (s : Span) (c : Change) : Nat :=
  max (s.start + s.newLength) (c.start + c.deleted)

/-- The span of changes and a further one. What lies between the end of either and the end of both stays as
it is on the way to the other texts. -/
def widen (s : Span) (c : Change) : Span :=
  let start := min s.start c.start
  { start
    oldLength := s.start + s.oldLength + (s.join c - (s.start + s.newLength)) - start
    newLength := c.start + c.inserted.length + (s.join c - (c.start + c.deleted)) - start }

theorem widen_oldEnd (s : Span) (c : Change) : (s.widen c).start + (s.widen c).oldLength =
    s.start + s.oldLength + (s.join c - (s.start + s.newLength)) := by
  dsimp only [widen]
  omega

theorem widen_newEnd (s : Span) (c : Change) : (s.widen c).start + (s.widen c).newLength =
    c.start + c.inserted.length + (s.join c - (c.start + c.deleted)) := by
  dsimp only [widen]
  omega

/-- What the two texts differ in length is what the changes made them differ. -/
theorem Covers.length_eq (h : s.Covers changes old text) :
    (text.length : Int) = old.length + growthAll changes := by
  have hrest := congrArg List.length h.drop
  have hold := h.old_le
  have hnew := h.new_le
  have hgrowth := h.newLength
  rw [List.length_drop, List.length_drop] at hrest
  omega

theorem starts_concat (changes : List Change) (c : Change) :
    { x | ∃ c' ∈ changes ++ [c], x = c'.start } = insert c.start { x | ∃ c' ∈ changes, x = c'.start } := by
  ext x
  simp only [Set.mem_ofPred_eq, Set.mem_insert_iff, List.mem_append, List.mem_singleton]
  constructor
  · rintro ⟨c', hc' | rfl, rfl⟩
    · exact .inr ⟨c', hc', rfl⟩
    · exact .inl rfl
  · rintro (rfl | ⟨c', hc', rfl⟩)
    · exact ⟨c, .inr rfl, rfl⟩
    · exact ⟨c', .inl hc', rfl⟩

theorem stops_concat (changes : List Change) (c : Change) :
    { x : Int | ∃ done c', done ++ [c'] <+: changes ++ [c] ∧
        x = c'.start + c'.deleted - growthAll done } =
      insert (c.start + c.deleted - growthAll changes : Int)
        { x : Int | ∃ done c', done ++ [c'] <+: changes ∧
          x = c'.start + c'.deleted - growthAll done } := by
  ext x
  simp only [Set.mem_ofPred_eq, Set.mem_insert_iff]
  constructor
  · rintro ⟨done, c', hdone, rfl⟩
    rcases List.prefix_concat_iff.mp hdone with heq | hdone
    · obtain ⟨rfl, hc⟩ := List.append_inj' heq rfl
      obtain rfl := List.singleton_inj.mp hc
      exact .inl rfl
    · exact .inr ⟨done, c', hdone, rfl⟩
  · rintro (rfl | ⟨done, c', hdone, rfl⟩)
    · exact ⟨changes, c, List.prefix_refl _, rfl⟩
    · exact ⟨done, c', hdone.trans (List.prefix_append ..), rfl⟩

theorem Covers.widen (h : s.Covers changes old text) (hfits : c.Fits text.length) :
    (s.widen c).Covers (changes ++ [c]) old (c.apply text) where
  start := by
    rw [starts_concat]
    have hleast := h.start.insert c.start
    rwa [min_comm] at hleast
  stop := by
    rw [stops_concat]
    have hgreatest := h.stop.insert (c.start + c.deleted - growthAll changes : Int)
    have hgrowth := h.newLength
    have hend := s.widen_oldEnd c
    rw [join] at hend
    have hmax : ((s.widen c).start + (s.widen c).oldLength : Int) =
        max (c.start + c.deleted - growthAll changes : Int) (s.start + s.oldLength) := by
      omega
    rwa [hmax]
  newLength := by
    have hgrowth := h.newLength
    have hold := s.widen_oldEnd c
    have hnew := s.widen_newEnd c
    rw [join] at hold hnew
    rw [growthAll_concat, growth]
    omega
  old_le := by
    have hlength := h.length_eq
    have hgrowth := h.newLength
    have hle := h.old_le
    rw [Fits] at hfits
    rw [widen_oldEnd, join]
    omega
  new_le := by
    have hlength := hfits.length_apply_eq
    have hle := h.new_le
    rw [Fits] at hfits
    rw [growth] at hlength
    rw [widen_newEnd, join]
    omega
  take := by
    have hstart : min s.start c.start ≤ s.start := Nat.min_le_left ..
    calc old.take (min s.start c.start)
        = (old.take s.start).take (min s.start c.start) := by
          rw [List.take_take, Nat.min_eq_left hstart]
      _ = (text.take s.start).take (min s.start c.start) := by rw [h.take]
      _ = text.take (min s.start c.start) := by rw [List.take_take, Nat.min_eq_left hstart]
      _ = (c.apply text).take (min s.start c.start) := (hfits.take_apply (Nat.min_le_right ..)).symm
  drop := by
    rw [widen_oldEnd, widen_newEnd, hfits.drop_apply, ← List.drop_drop, h.drop, List.drop_drop]
    congr 1
    rw [join]
    omega

/-- As long as the texts are short the arithmetic of machine words makes of the extent of a span the one of
the widened span. -/
theorem Covers.widen_extent (h : s.Covers changes old text) (hfits : c.Fits text.length)
    (hold : old.length < 2 ^ 63) (hshort : text.length < 2 ^ 63)
    (hnext : (c.apply text).length < 2 ^ 63) :
    s.extent.Widens c ∧ s.extent.widen c = (s.widen c).extent := by
  have hlength := h.length_eq
  have hgrowth := h.newLength
  have hle := h.old_le
  have hle' := h.new_le
  have hafter := hfits.length_apply
  have hnext' := ofChange_eq hfits hshort hnext
  rw [Fits] at hfits
  have hwidens : s.extent.Widens c := by
    constructor <;> refine toSigned_eq_self ?_ ?_ <;> dsimp only [extent] <;> omega
  refine ⟨hwidens, ?_⟩
  have hold' := s.widen_oldEnd c
  have hnew' := s.widen_newEnd c
  rw [join] at hold' hnew'
  rw [Extent.widen, hnext']
  dsimp only
  rw [hwidens.back, hwidens.oldEnd, hwidens.forth, hwidens.newEnd]
  dsimp only [extent]
  congr 1
  · dsimp only [Span.widen]
    omega
  · omega
  · omega

/-! ### Runs of changes -/

theorem exists_extent? (h : InRange changes old) (hne : changes ≠ []) :
    ∃ s : Span, extent? changes = some s.extent ∧ s.Covers changes old (applyAll changes old) := by
  induction changes using List.reverseRecOn with
  | nil => exact absurd rfl hne
  | append_singleton changes c ih =>
      obtain ⟨hrange, hfits, hnext⟩ := inRange_concat.mp h
      have hold : old.length < 2 ^ 63 := hrange.short [] List.nil_prefix
      rw [applyAll_append]
      by_cases hnil : changes = []
      · subst hnil
        exact ⟨⟨c.start, c.deleted, c.inserted.length⟩, congrArg some (ofChange_eq hfits hold hnext),
          covers_ofChange hfits⟩
      · obtain ⟨s, hextent, hcovers⟩ := ih hrange hnil
        have hshort := hrange.short changes (List.prefix_refl _)
        refine ⟨s.widen c, ?_, hcovers.widen hfits⟩
        rw [extent?_concat hextent, (hcovers.widen_extent hfits hold hshort hnext).2]

/-- The span of short texts is told exactly by its extent. -/
theorem Covers.span_extent {new : Text} (h : s.Covers changes old new) (hold : old.length < 2 ^ 63)
    (hnew : new.length < 2 ^ 63) : s.extent.span = s :=
  Span.span_extent (Nat.lt_of_le_of_lt h.old_le hold) (Nat.lt_of_le_of_lt h.new_le hnew)

theorem exact_of_inRange (h : InRange changes old) : Exact changes where
  ofChange c hc := by
    obtain ⟨done, rest, rfl⟩ := List.append_of_mem hc
    have hdone : done ++ [c] <+: done ++ c :: rest := ⟨rest, by simp⟩
    obtain ⟨hrange, hfits, hnext⟩ := inRange_concat.mp (h.of_prefix hdone)
    exact ofChange_eq hfits (hrange.short done (List.prefix_refl _)) hnext
  extent done hdone hne := by
    obtain ⟨s, hextent, hcovers⟩ := exists_extent? (h.of_prefix hdone) hne
    exact ⟨s, hextent, hcovers.span_extent (h.short [] List.nil_prefix) (h.short done hdone)⟩
  widens done c e hdone he := by
    obtain ⟨hrange, hfits, hnext⟩ := inRange_concat.mp (h.of_prefix hdone)
    have hne : done ≠ [] := by
      rintro rfl
      cases he
    obtain ⟨s, hextent, hcovers⟩ := exists_extent? hrange hne
    obtain rfl : s.extent = e := Option.some.inj (hextent.symm.trans he)
    exact (hcovers.widen_extent hfits (h.short [] List.nil_prefix)
      (hrange.short done (List.prefix_refl _)) hnext).1

/-- Changes that are in range have a span. It reaches from the least start to the greatest end in the old
text, grows by what the changes grow the text, stays within both texts and has all that they differ in,
and it is computed without a number that wraps around. -/
theorem collapse_covers (hne : changes ≠ []) (h : InRange changes old) :
    ∃ span, collapse changes = some span ∧ span.Covers changes old (applyAll changes old) ∧
      Exact changes := by
  obtain ⟨s, hextent, hcovers⟩ := exists_extent? h hne
  have hold : old.length < 2 ^ 63 := h.short [] List.nil_prefix
  have hnew := h.short changes (List.prefix_refl _)
  refine ⟨s, ?_, hcovers, exact_of_inRange h⟩
  rw [collapse_eq, hextent, Option.map_some, hcovers.span_extent hold hnew]

/-- Three changes of which the last one is in front of the second one, and the last two are given in a text
that has grown. -/
theorem collapse_covers_of_digits :
    let old := "0123456789abcdef".toList
    let changes := [⟨2, 1, "XY".toList⟩, ⟨12, 2, []⟩, ⟨6, 0, "__".toList⟩]
    (changes ≠ [] ∧ InRange changes old) ∧
      ∃ span, collapse changes = some span ∧ span.Covers changes old (applyAll changes old) ∧
        Exact changes := by
  intro old changes
  have hone : InRange [⟨2, 1, "XY".toList⟩] old :=
    inRange_concat.mpr ⟨inRange_nil.mpr (by decide), by decide, by decide⟩
  have htwo : InRange [⟨2, 1, "XY".toList⟩, ⟨12, 2, []⟩] old :=
    inRange_concat.mpr ⟨hone, by decide, by decide⟩
  have hthree : InRange changes old := inRange_concat.mpr ⟨htwo, by decide, by decide⟩
  have hne : changes ≠ [] := List.cons_ne_nil _ _
  exact ⟨⟨hne, hthree⟩, collapse_covers hne hthree⟩

/-! ### On the way to an end -/

/-- The numbers that a widened span is computed from: how far the change ends from the end of the span, one way and the
other, and where the ends of both come to be over it. -/
def Extent.workings (e : Extent) (c : Change) : List Int :=
  let next := Extent.ofChange c
  let back := toSigned (next.oldEnd - e.newEnd)
  let forth := toSigned (e.newEnd - next.oldEnd)
  [back, toSigned (e.oldEnd + back), forth, toSigned (next.newEnd + forth)]

/-- One of them is negative, unless the change ends where the span does. -/
theorem exists_workings_neg_iff {e : Extent} (h : InRange (changes ++ [c]) old)
    (he : extent? changes = some e) :
    (∃ n ∈ e.workings c, n < 0) ↔ (c.start + c.deleted : Int) ≠ e.newEnd := by
  have hexact := exact_of_inRange h
  have hwidens := hexact.widens changes c e (List.prefix_refl _) he
  have hchange := hexact.ofChange c (by simp)
  have hne : changes ≠ [] := by
    rintro rfl
    cases he
  obtain ⟨s, hextent, -⟩ := hexact.extent changes (List.prefix_append ..) hne
  obtain rfl : s.extent = e := Option.some.inj (hextent.symm.trans he)
  have hworkings : s.extent.workings c =
      [c.start + c.deleted - s.extent.newEnd,
        s.extent.oldEnd + (c.start + c.deleted - s.extent.newEnd),
        s.extent.newEnd - (c.start + c.deleted),
        c.start + c.inserted.length + (s.extent.newEnd - (c.start + c.deleted))] := by
    unfold Extent.workings
    rw [hchange]
    dsimp only
    rw [hwidens.back, hwidens.oldEnd, hwidens.forth, hwidens.newEnd]
  have hold : 0 ≤ s.extent.oldEnd := by
    dsimp only [extent]
    omega
  rw [hworkings]
  constructor
  · -- both differences are nothing where the two ends are the same
    rintro ⟨n, hn, hneg⟩ heq
    rw [heq, Int.sub_self, Int.add_zero, Int.add_zero] at hn
    simp only [List.mem_cons, List.not_mem_nil, or_false] at hn
    omega
  · intro hends
    rcases Int.lt_or_gt_of_ne hends with hlt | hgt
    · exact ⟨c.start + c.deleted - s.extent.newEnd, by simp, by omega⟩
    · exact ⟨s.extent.newEnd - (c.start + c.deleted), by simp, by omega⟩

/-- Text is inserted, and then a part of it is deleted that ends before it does. -/
theorem not_workings_nonneg : ¬∀ (old : Text) (changes : List Change), changes ≠ [] → InRange changes old →
    ∀ done c e, done ++ [c] <+: changes → extent? done = some e → ∀ n ∈ e.workings c, 0 ≤ n := by
  intro hnonneg
  let insertion : Change := ⟨0, 0, "abcde".toList⟩
  let deletion : Change := ⟨0, 1, []⟩
  have hone : InRange [insertion] [] := inRange_concat.mpr ⟨inRange_nil.mpr (by decide), by decide, by decide⟩
  have htwo : InRange ([insertion] ++ [deletion]) [] := inRange_concat.mpr ⟨hone, by decide, by decide⟩
  obtain ⟨n, hn, hneg⟩ : ∃ n ∈ (Extent.ofChange insertion).workings deletion, n < 0 :=
    (exists_workings_neg_iff htwo rfl).mpr (by decide)
  have hpos := hnonneg [] _ (List.cons_ne_nil _ _) htwo [insertion] deletion _ (List.prefix_refl _) rfl n hn
  omega

end Span

end ProjectTracker
