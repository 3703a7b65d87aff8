import ProjectTracker.Reference.Basic
/-!
The files that some roots lead to are those that the search lists. It stops as soon as no listed file refers
to another one that can be read, and not before, provided that all it comes upon is among the paths of
the sources.
-/

namespace ProjectTracker.Scanner

variable {s : Scanner} {S S' : Sources} {A : Path → Prop} {roots waiting listed : List Path}
  {p q : Path}

/-- What a file refers to, if it can be read. -/
def links (s : Scanner) (S : Sources) (p : Path) : List Path :=
  (S.text? p).elim [] (s.references p)

theorem isSome_of_mem_links (h : q ∈ s.links S p) : (S.text? p).isSome := by
  unfold links at h
  cases htext : S.text? p with
  | none => simp [htext] at h
  | some text => rfl

/-- A file that can be read and that some roots lead to. -/
inductive Reaches (s : Scanner) (S : Sources) (roots : List Path) : Path → Prop where
  | root {p : Path} (hp : p ∈ roots) (hread : (S.text? p).isSome) : Reaches s S roots p
  | link {q p : Path} (hq : Reaches s S roots q) (hp : p ∈ s.links S q)
      (hread : (S.text? p).isSome) : Reaches s S roots p

theorem Reaches.isSome (h : s.Reaches S roots p) : (S.text? p).isSome := by
  cases h <;> assumption

/-- What a root of one set leads to, the roots that lead to it lead to as well. -/
theorem Reaches.trans (hp : s.Reaches S roots p) (hq : s.Reaches S [p] q) :
    s.Reaches S roots q := by
  induction hq with
  | root hmem _ => exact List.mem_singleton.mp hmem ▸ hp
  | link _ hmem hread ih => exact ih.link hmem hread

/-- Texts that come to be readable take nothing away. -/
theorem Reaches.mono (h : ∀ q text, S.text? q = some text → S'.text? q = some text)
    (hp : s.Reaches S roots p) : s.Reaches S' roots p := by
  have hread {q : Path} (hread : (S.text? q).isSome) : S'.text? q = S.text? q := by
    obtain ⟨text, htext⟩ := Option.isSome_iff_exists.mp hread
    rw [htext, h q text htext]
  induction hp with
  | root hp hsome => exact .root hp (hread hsome ▸ hsome)
  | link _ hp hsome ih =>
      refine ih.link ?_ (hread hsome ▸ hsome)
      have hlinks := hread (isSome_of_mem_links hp)
      unfold links at hp ⊢
      rwa [hlinks]

/-- Only the texts matter. -/
theorem Reaches.congr (h : S'.text? = S.text?) (hp : s.Reaches S roots p) : s.Reaches S' roots p :=
  hp.mono fun _ _ htext => h ▸ htext

/-- No two files lead to one another. -/
def Acyclic (s : Scanner) (S : Sources) : Prop :=
  ∀ p q, s.Reaches S [p] q → s.Reaches S [q] p → p = q

/-- The sources list all files among some paths that references do not lead out of. -/
structure Covers (s : Scanner) (S : Sources) (A : Path → Prop) : Prop where
  closed : ∀ p, A p → ∀ q ∈ s.links S p, A q
  listed : ∀ p, A p → (S.text? p).isSome → p ∈ S.paths

/-! ### One round -/

theorem visit_eq (s : Scanner) (S : Sources) (waiting listed found : List Path) :
    ∃ new, s.visit S waiting listed found = (listed ++ new, found ++ new.flatMap (s.links S)) ∧
      (∀ p ∈ new, p ∈ waiting ∧ p ∉ listed ∧ (S.text? p).isSome) ∧
      ∀ p ∈ waiting, (S.text? p).isSome → p ∈ listed ++ new := by
  induction waiting generalizing listed found with
  | nil => exact ⟨[], by simp [visit]⟩
  | cons p waiting ih =>
      unfold visit
      split
      · rename_i hlisted
        obtain ⟨new, heq, hnew, hall⟩ := ih listed found
        refine ⟨new, heq, fun q hq => ?_, fun q hq hread => ?_⟩
        · obtain ⟨hwaiting, hrest⟩ := hnew q hq
          exact ⟨by simp [hwaiting], hrest⟩
        · rcases List.mem_cons.mp hq with rfl | hq
          · exact List.mem_append_left _ hlisted
          · exact hall q hq hread
      · rename_i hunlisted
        split
        · rename_i htext
          obtain ⟨new, heq, hnew, hall⟩ := ih listed found
          refine ⟨new, heq, fun q hq => ?_, fun q hq hread => ?_⟩
          · obtain ⟨hwaiting, hrest⟩ := hnew q hq
            exact ⟨by simp [hwaiting], hrest⟩
          · rcases List.mem_cons.mp hq with rfl | hq
            · simp [htext] at hread
            · exact hall q hq hread
        · rename_i text htext
          obtain ⟨new, heq, hnew, hall⟩ := ih (listed ++ [p]) (found ++ s.references p text)
          refine ⟨p :: new, ?_, fun q hq => ?_, fun q hq hread => ?_⟩
          · have hlinks : s.links S p = s.references p text := by simp [links, htext]
            rw [heq, List.flatMap_cons, hlinks, List.append_assoc, List.append_assoc]
            rfl
          · rcases List.mem_cons.mp hq with rfl | hq
            · exact ⟨by simp, hunlisted, by simp [htext]⟩
            · obtain ⟨hwaiting, hrest, hread⟩ := hnew q hq
              rw [List.mem_append, not_or] at hrest
              exact ⟨by simp [hwaiting], hrest.1, hread⟩
          · rcases List.mem_cons.mp hq with rfl | hq
            · simp
            · simpa using hall q hq hread

theorem visit_congr (h : ∀ p ∈ waiting, S.text? p = S'.text? p) (found : List Path) :
    s.visit S waiting listed found = s.visit S' waiting listed found := by
  induction waiting generalizing listed found with
  | nil => rfl
  | cons p waiting ih =>
      have ih (listed found : List Path) :
          s.visit S waiting listed found = s.visit S' waiting listed found :=
        ih (fun q hq => h q (by simp [hq])) found
      unfold visit
      rw [h p (by simp)]
      simp only [ih]

/-! ### All rounds -/

/-- The files that a search may list yet. -/
def unlisted (S : Sources) (listed : List Path) : List Path :=
  S.paths.filter fun p => p ∉ listed

/-- A round that comes upon more files has listed one. -/
theorem length_unlisted_lt {new : List Path} (hp : p ∈ S.paths) (hold : p ∉ listed)
    (hnew : p ∈ new) : (unlisted S (listed ++ new)).length < (unlisted S listed).length := by
  have hfilter : unlisted S (listed ++ new) = (unlisted S listed).filter fun q => q ∉ new := by
    unfold unlisted
    rw [List.filter_filter]
    congr 1
    funext q
    simp only [List.mem_append, not_or, Bool.decide_and, Bool.and_comm]
  rw [hfilter, List.length_filter_lt_length_iff_exists]
  exact ⟨p, List.mem_filter.mpr ⟨hp, by simpa using hold⟩, by simpa using hnew⟩

theorem reaches_of_mem_rounds {n : Nat} (hlisted : ∀ p ∈ listed, s.Reaches S roots p)
    (hwaiting : ∀ p ∈ waiting, (S.text? p).isSome → s.Reaches S roots p)
    (hp : p ∈ s.rounds S n waiting listed) : s.Reaches S roots p := by
  induction n generalizing waiting listed with
  | zero => exact hlisted p hp
  | succ n ih =>
      obtain ⟨new, heq, hnew, -⟩ := visit_eq s S waiting listed []
      have hreached : ∀ q ∈ listed ++ new, s.Reaches S roots q := by
        intro q hq
        rcases List.mem_append.mp hq with hq | hq
        · exact hlisted q hq
        · exact hwaiting q (hnew q hq).1 (hnew q hq).2.2
      unfold rounds at hp
      rw [heq] at hp
      dsimp only at hp
      split at hp
      · exact hreached p hp
      · refine ih hreached (fun q hq hread => ?_) hp
        rw [List.nil_append, List.mem_flatMap] at hq
        obtain ⟨r, hr, hq⟩ := hq
        exact (hreached r (List.mem_append_right _ hr)).link hq hread

/-- With a round for every file that may be listed yet, and one, nothing is left to be listed. -/
theorem rounds_closed {n : Nat} (hA : s.Covers S A) (hfuel : (unlisted S listed).length < n)
    (hwaiting : ∀ p ∈ waiting, A p)
    (hlisted : ∀ q ∈ listed, ∀ p ∈ s.links S q, (S.text? p).isSome → p ∈ listed ∨ p ∈ waiting) :
    (∀ p ∈ listed, p ∈ s.rounds S n waiting listed) ∧
      (∀ p ∈ waiting, (S.text? p).isSome → p ∈ s.rounds S n waiting listed) ∧
      ∀ q ∈ s.rounds S n waiting listed, ∀ p ∈ s.links S q, (S.text? p).isSome →
        p ∈ s.rounds S n waiting listed := by
  induction n generalizing waiting listed with
  | zero => omega
  | succ n ih =>
      obtain ⟨new, heq, hnew, hall⟩ := visit_eq s S waiting listed []
      have hlinks : ∀ q ∈ listed ++ new, ∀ p ∈ s.links S q, (S.text? p).isSome →
          p ∈ listed ++ new ∨ p ∈ new.flatMap (s.links S) := by
        intro q hq p hp hread
        rcases List.mem_append.mp hq with hq | hq
        · left
          rcases hlisted q hq p hp hread with hold | hold
          · exact List.mem_append_left _ hold
          · exact hall p hold hread
        · exact .inr (List.mem_flatMap.mpr ⟨q, hq, hp⟩)
      unfold rounds
      rw [heq]
      dsimp only
      rw [List.nil_append]
      split
      · rename_i hnone
        refine ⟨fun p hp => List.mem_append_left _ hp, hall, fun q hq p hp hread => ?_⟩
        exact (hlinks q hq p hp hread).resolve_right (by simp [hnone])
      · rename_i hsome
        obtain ⟨p, hp⟩ := List.exists_mem_of_ne_nil _ hsome
        obtain ⟨q, hq, hp⟩ := List.mem_flatMap.mp hp
        obtain ⟨hqwaiting, hqold, hqread⟩ := hnew q hq
        have hfewer := length_unlisted_lt
          (hA.listed q (hwaiting q hqwaiting) hqread) hqold hq
        have hfound : ∀ p ∈ new.flatMap (s.links S), A p := by
          intro p hp
          obtain ⟨q, hq, hp⟩ := List.mem_flatMap.mp hp
          exact hA.closed q (hwaiting q (hnew q hq).1) p hp
        obtain ⟨hkept, -, hclosed⟩ := ih (by omega) hfound hlinks
        exact ⟨fun p hp => hkept p (List.mem_append_left _ hp),
          fun p hp hread => hkept p (hall p hp hread), hclosed⟩

/-- Neither the number of rounds, as long as it is large enough, nor the texts of files that nobody asks
for make a difference. -/
theorem rounds_congr {n m : Nat} (hA : s.Covers S A) (hA' : s.Covers S' A)
    (htexts : ∀ p, A p → S.text? p = S'.text? p) (hn : (unlisted S listed).length < n)
    (hm : (unlisted S' listed).length < m) (hwaiting : ∀ p ∈ waiting, A p) :
    s.rounds S n waiting listed = s.rounds S' m waiting listed := by
  induction n generalizing m waiting listed with
  | zero => omega
  | succ n ih =>
      cases m with
      | zero => omega
      | succ m =>
          have hsame : s.visit S waiting listed [] = s.visit S' waiting listed [] :=
            visit_congr (fun p hp => htexts p (hwaiting p hp)) []
          obtain ⟨new, heq, hnew, -⟩ := visit_eq s S waiting listed []
          unfold rounds
          rw [← hsame, heq]
          dsimp only
          rw [List.nil_append]
          split
          · rfl
          · rename_i hsome
            obtain ⟨p, hp⟩ := List.exists_mem_of_ne_nil _ hsome
            obtain ⟨q, hq, -⟩ := List.mem_flatMap.mp hp
            obtain ⟨hqwaiting, hqold, hqread⟩ := hnew q hq
            have hqA := hwaiting q hqwaiting
            have hfewer := length_unlisted_lt (hA.listed q hqA hqread) hqold hq
            have hfewer' := length_unlisted_lt
              (hA'.listed q hqA (htexts q hqA ▸ hqread)) hqold hq
            refine ih (by omega) (by omega) fun p hp => ?_
            obtain ⟨q, hq, hp⟩ := List.mem_flatMap.mp hp
            exact hA.closed q (hwaiting q (hnew q hq).1) p hp

/-! ### The files of some roots -/

theorem length_unlisted_nil_lt (S : Sources) : (unlisted S []).length < S.paths.length + 1 :=
  Nat.lt_succ_of_le (List.length_filter_le _ _)

theorem reaches_of_mem_fileSet (h : p ∈ s.fileSet S roots) : s.Reaches S roots p :=
  reaches_of_mem_rounds (by simp) (fun _ hq hread => .root hq hread) h

theorem mem_fileSet_iff (hA : s.Covers S A) (hroots : ∀ p ∈ roots, A p) :
    p ∈ s.fileSet S roots ↔ s.Reaches S roots p := by
  have hnone : ∀ q ∈ ([] : List Path), ∀ p ∈ s.links S q, (S.text? p).isSome →
      p ∈ ([] : List Path) ∨ p ∈ roots := by simp
  obtain ⟨-, hwaiting, hclosed⟩ := rounds_closed hA (length_unlisted_nil_lt S) hroots hnone
  constructor
  · exact reaches_of_mem_fileSet
  · intro h
    induction h with
    | root hp hread => exact hwaiting _ hp hread
    | link _ hp hread ih => exact hclosed _ ih _ hp hread

/-- The files of a file that some roots lead to are among the files of the roots. -/
theorem fileSet_subset (hA : s.Covers S A) (hroots : ∀ p ∈ roots, A p)
    (hp : p ∈ s.fileSet S roots) : s.fileSet S [p] ⊆ s.fileSet S roots := by
  have hreached := (mem_fileSet_iff hA hroots).mp hp
  have hpA : A p := by
    clear hp
    induction hreached with
    | root hp _ => exact hroots _ hp
    | link _ hp _ ih => exact hA.closed _ ih _ hp
  intro q hq
  have hq' := (mem_fileSet_iff hA (by simpa using hpA)).mp hq
  exact (mem_fileSet_iff hA hroots).mpr (hreached.trans hq')

theorem Reaches.root_isSome (h : s.Reaches S [p] q) : (S.text? p).isSome := by
  induction h with
  | root hp hread => exact List.mem_singleton.mp hp ▸ hread
  | link _ _ _ ih => exact ih

/-- Sources that list every file are searched for files that lead to one another. -/
theorem acyclic_of_covers (hA : s.Covers S fun _ => True)
    (h : ∀ p ∈ S.paths, ∀ q ∈ s.fileSet S [p], p ∈ s.fileSet S [q] → p = q) : s.Acyclic S := by
  intro p q hq hp
  have hfound {p q : Path} (hq : s.Reaches S [p] q) : q ∈ s.fileSet S [p] :=
    (mem_fileSet_iff hA fun _ _ => trivial).mpr hq
  exact h p (hA.listed p trivial hq.root_isSome) q (hfound hq) (hfound hp)

/-- A path whose text decides about the files of some roots: a root, or one that a file refers to. -/
def Asks (s : Scanner) (S : Sources) (roots files : List Path) (p : Path) : Prop :=
  p ∈ roots ∨ ∃ q ∈ files, p ∈ s.links S q

instance (s : Scanner) (S : Sources) (roots files : List Path) (p : Path) : Decidable (s.Asks S roots files p) :=
  inferInstanceAs (Decidable (_ ∨ ∃ q ∈ files, _))

/-- What is asked for and can be read is listed. -/
theorem mem_fileSet_of_asks (hA : s.Covers S A) (hroots : ∀ p ∈ roots, A p)
    (hasks : s.Asks S roots (s.fileSet S roots) p) (hread : (S.text? p).isSome) :
    p ∈ s.fileSet S roots := by
  rw [mem_fileSet_iff hA hroots]
  rcases hasks with hp | ⟨q, hq, hp⟩
  · exact .root hp hread
  · exact ((mem_fileSet_iff hA hroots).mp hq).link hp hread

/-- The files of some roots stay the same as long as no text changes that is asked for. -/
theorem fileSet_congr {A' : Path → Prop} (hA : s.Covers S A) (hA' : s.Covers S' A')
    (hroots : ∀ p ∈ roots, A p) (hasked' : ∀ p, s.Asks S roots (s.fileSet S roots) p → A' p)
    (htexts : ∀ p, s.Asks S roots (s.fileSet S roots) p → S.text? p = S'.text? p) :
    s.fileSet S' roots = s.fileSet S roots := by
  have hasked : ∀ p, s.Asks S roots (s.fileSet S roots) p → A p := by
    have hreached {q : Path} (hq : s.Reaches S roots q) : A q := by
      induction hq with
      | root hp _ => exact hroots _ hp
      | link _ hp _ ih => exact hA.closed _ ih _ hp
    rintro p (hp | ⟨q, hq, hp⟩)
    · exact hroots p hp
    · exact hA.closed q (hreached ((mem_fileSet_iff hA hroots).mp hq)) p hp
  have hlinks (p : Path) (hp : s.Asks S roots (s.fileSet S roots) p) (q : Path)
      (hq : q ∈ s.links S p) : s.Asks S roots (s.fileSet S roots) q :=
    .inr ⟨p, mem_fileSet_of_asks hA hroots hp (isSome_of_mem_links hq), hq⟩
  have hclosed : s.Covers S (s.Asks S roots (s.fileSet S roots)) :=
    ⟨hlinks, fun p hp hread => hA.listed p (hasked p hp) hread⟩
  have hclosed' : s.Covers S' (s.Asks S roots (s.fileSet S roots)) := by
    refine ⟨fun p hp q hq => hlinks p hp q ?_, fun p hp hread => hA'.listed p (hasked' p hp) hread⟩
    unfold links at hq ⊢
    rwa [htexts p hp]
  exact (rounds_congr hclosed hclosed' htexts (length_unlisted_nil_lt S)
    (length_unlisted_nil_lt S') fun p hp => .inl hp).symm

end ProjectTracker.Scanner
