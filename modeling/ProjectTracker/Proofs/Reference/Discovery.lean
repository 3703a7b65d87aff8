import Mathlib
import ProjectTracker.Proofs.Reference.Reachability
/-!
The order in which files are discovered: the roots, then what each listed file refers to, each file where it
is named first. A search that takes one path after the other from a queue comes to the same list, whatever
it leaves out of the queue that cannot be listed any more.
-/

namespace ProjectTracker.Scanner

variable {s : Scanner} {S : Sources} {roots rest listed waiting files l l' : List Path} {p : Path}

/-- The paths that can be read, each where it occurs first. -/
def firsts (S : Sources) (l : List Path) : List Path :=
  (l.filter fun p => (S.text? p).isSome).eraseDups

@[simp] theorem firsts_nil : firsts S [] = [] := rfl

@[simp] theorem mem_firsts : p ∈ firsts S l ↔ p ∈ l ∧ (S.text? p).isSome := by
  simp [firsts]

theorem firsts_concat_of_new (hp : p ∉ l) (hread : (S.text? p).isSome) :
    firsts S (l ++ [p]) = firsts S l ++ [p] := by
  simp [firsts, hread, hp, List.eraseDups_append, List.removeAll, List.eraseDups_cons]

theorem firsts_concat_of_old (h : (S.text? p).isSome → p ∈ l) : firsts S (l ++ [p]) = firsts S l := by
  cases hread : (S.text? p).isSome with
  | true =>
      have hold : p ∈ l.filter fun q => (S.text? q).isSome := List.mem_filter.mpr ⟨h hread, hread⟩
      have hnothing : [p].removeAll (l.filter fun q => (S.text? q).isSome) = [] := by
        rw [List.removeAll, List.filter_singleton]
        simp [hold]
      rw [firsts, List.filter_append, List.filter_singleton, hread]
      dsimp only [cond_true]
      rw [List.eraseDups_append, hnothing]
      simp [firsts]
  | false => simp [firsts, hread]

theorem nodup_firsts (S : Sources) (l : List Path) : (firsts S l).Nodup := by
  induction l using List.reverseRecOn with
  | nil => simp
  | append_singleton l p ih =>
      by_cases hnew : p ∉ l ∧ (S.text? p).isSome
      · rw [firsts_concat_of_new hnew.1 hnew.2]
        exact List.nodup_append.mpr ⟨ih, by simp, fun q hq => by aesop⟩
      · rw [firsts_concat_of_old (by tauto)]
        exact ih

/-- What comes first in a list is all that counts for what comes first in a longer one. -/
theorem firsts_append_congr (h : firsts S l = firsts S l') (rest : List Path) :
    firsts S (l ++ rest) = firsts S (l' ++ rest) := by
  induction rest using List.reverseRecOn with
  | nil => simpa using h
  | append_singleton rest p ih =>
      rw [← List.append_assoc, ← List.append_assoc]
      have hmem (hread : (S.text? p).isSome) : p ∈ l ++ rest ↔ p ∈ l' ++ rest := by
        have := congrArg (p ∈ ·) ih
        simpa only [mem_firsts, hread, and_true, eq_iff_iff] using this
      by_cases hnew : p ∉ l ++ rest ∧ (S.text? p).isSome
      · rw [firsts_concat_of_new hnew.1 hnew.2,
          firsts_concat_of_new (mt (hmem hnew.2).mpr hnew.1) hnew.2, ih]
      · have hold (hread : (S.text? p).isSome) : p ∈ l ++ rest := by tauto
        rw [firsts_concat_of_old hold, firsts_concat_of_old fun hread => (hmem hread).mp (hold hread), ih]

/-- Leaving out what is there already, or cannot be read, makes no difference. -/
theorem firsts_append_filter {keeps : Path → Bool}
    (h : ∀ p ∈ rest, keeps p = false → (S.text? p).isSome → p ∈ l) :
    firsts S (l ++ rest.filter keeps) = firsts S (l ++ rest) := by
  induction rest using List.reverseRecOn with
  | nil => rfl
  | append_singleton rest p ih =>
      have ih := ih fun q hq => h q (by simp [hq])
      rw [List.filter_append, ← List.append_assoc, ← List.append_assoc]
      cases hkeeps : keeps p with
      | true =>
          rw [List.filter_singleton, hkeeps]
          exact firsts_append_congr ih [p]
      | false =>
          rw [List.filter_singleton, hkeeps, firsts_concat_of_old]
          · simpa using ih
          · exact fun hread => List.mem_append_left _ (h p (by simp) hkeeps hread)

theorem firsts_prefix (S : Sources) (l rest : List Path) : firsts S l <+: firsts S (l ++ rest) := by
  induction rest using List.reverseRecOn with
  | nil => simp
  | append_singleton rest p ih =>
      rw [← List.append_assoc]
      by_cases hnew : p ∉ l ++ rest ∧ (S.text? p).isSome
      · rw [firsts_concat_of_new hnew.1 hnew.2]
        exact ih.trans (List.prefix_append _ _)
      · rw [firsts_concat_of_old (by tauto)]
        exact ih

/-! ### Lists in the order of discovery -/

/-- A list of files in the order of discovery: the roots in their order, then what each of the files refers
to in order of appearance, each file where it occurs first. No file stands for itself alone. -/
structure InDiscoveryOrder (s : Scanner) (S : Sources) (roots files : List Path) : Prop where
  eq_firsts : files = firsts S (roots ++ files.flatMap (s.links S))
  reached : ∀ p ∈ files, s.Reaches S roots p

namespace InDiscoveryOrder

theorem nodup (h : s.InDiscoveryOrder S roots files) : files.Nodup := by
  rw [h.eq_firsts]
  exact nodup_firsts S _

theorem mem_iff (h : s.InDiscoveryOrder S roots files) : p ∈ files ↔ s.Reaches S roots p := by
  refine ⟨h.reached p, fun hp => ?_⟩
  induction hp with
  | root hp hread =>
      rw [h.eq_firsts]
      exact mem_firsts.mpr ⟨List.mem_append_left _ hp, hread⟩
  | link _ hp hread ih =>
      rw [h.eq_firsts]
      exact mem_firsts.mpr ⟨List.mem_append_right _ (List.mem_flatMap.mpr ⟨_, ih, hp⟩), hread⟩

/-- What a beginning of the list leads to at once comes at the beginning of the list as well. -/
theorem firsts_take_prefix (h : s.InDiscoveryOrder S roots files) (n : Nat) :
    firsts S (roots ++ (files.take n).flatMap (s.links S)) <+: files := by
  conv_rhs =>
    rw [h.eq_firsts, ← List.take_append_drop n files, List.flatMap_append, ← List.append_assoc]
  exact firsts_prefix S _ _

/-- A beginning of the list that is not all of it leads beyond itself. -/
theorem lt_length_firsts (h : s.InDiscoveryOrder S roots files) {n : Nat} (hn : n < files.length) :
    n < (firsts S (roots ++ (files.take n).flatMap (s.links S))).length := by
  by_contra hshort
  -- Otherwise all that the beginning leads to is in it, and so is the file that comes next.
  have hwithin : ∀ p ∈ firsts S (roots ++ (files.take n).flatMap (s.links S)), p ∈ files.take n := by
    have hbeginning := List.prefix_of_prefix_length_le (h.firsts_take_prefix n)
      (List.take_prefix n files) (by rw [List.length_take]; omega)
    exact fun p hp => hbeginning.subset hp
  have hreached (p : Path) (hp : s.Reaches S roots p) : p ∈ files.take n := by
    induction hp with
    | root hp hread => exact hwithin _ (mem_firsts.mpr ⟨List.mem_append_left _ hp, hread⟩)
    | link _ hp hread ih =>
        refine hwithin _ (mem_firsts.mpr ⟨List.mem_append_right _ ?_, hread⟩)
        exact List.mem_flatMap.mpr ⟨_, ih, hp⟩
  obtain ⟨m, hm, heq⟩ := List.getElem_of_mem (hreached _ (h.reached _ (List.getElem_mem hn)))
  rw [List.getElem_take] at heq
  have hsame : m = n := h.nodup.getElem_inj_iff.mp heq
  rw [List.length_take] at hm
  omega

/-- The first files decide about the next one. -/
theorem take_prefix (h : s.InDiscoveryOrder S roots l) (h' : s.InDiscoveryOrder S roots l') {n : Nat}
    (hn : n ≤ l.length) : l.take n <+: l' := by
  induction n with
  | zero => simp
  | succ n ih =>
      have hlength := h.lt_length_firsts (n := n) (by omega)
      have hsame : l.take n = l'.take n := by
        have := List.prefix_iff_eq_take.mp (ih (by omega))
        rwa [List.length_take, Nat.min_eq_left (by omega)] at this
      have hnext : l.take (n + 1) <+: firsts S (roots ++ (l.take n).flatMap (s.links S)) := by
        refine List.prefix_of_prefix_length_le (List.take_prefix _ _) (h.firsts_take_prefix n) ?_
        rw [List.length_take]
        omega
      exact hnext.trans (hsame ▸ h'.firsts_take_prefix n)

/-- There is one order of discovery. -/
theorem unique (h : s.InDiscoveryOrder S roots l) (h' : s.InDiscoveryOrder S roots l') : l = l' := by
  have hprefix := h.take_prefix h' (Nat.le_refl _)
  have hprefix' := h'.take_prefix h (Nat.le_refl _)
  rw [List.take_length] at hprefix hprefix'
  exact hprefix.eq_of_length_le hprefix'.length_le

end InDiscoveryOrder

/-! ### Searching with a queue -/

/-- What a search adds to its queue of the paths that a listed file refers to, given what is listed and what
is waiting. It leaves out only what cannot be listed any more when its turn comes. -/
structure Admission (S : Sources) where
  admits : List Path → List Path → Path → Bool
  spares : ∀ {listed waiting p}, admits listed waiting p = false →
    p ∈ listed ∨ p ∈ waiting ∨ S.text? p = none

namespace Admission

/-- Adds everything. -/
def all (S : Sources) : Admission S where
  admits _ _ _ := true
  spares h := by simp at h

/-- Adds what is not listed yet. -/
def unseen (S : Sources) : Admission S where
  admits listed _ p := p ∉ listed
  spares h := .inl (by simpa using h)

end Admission

/-- A search that takes one path after the other from a queue. -/
structure Search where
  waiting : List Path
  listed : List Path

namespace Search

variable {admission : Admission S} {search : Search} {found : List Path}

/-- Takes the first path from the queue. If it is not listed yet and can be read, it is listed, and what it
refers to is added to the queue. -/
def step (s : Scanner) (admission : Admission S) : Search → Search
  | ⟨[], listed⟩ => ⟨[], listed⟩
  | ⟨p :: waiting, listed⟩ =>
    if p ∈ listed ∨ S.text? p = none then ⟨waiting, listed⟩
    else ⟨waiting ++ (s.links S p).filter (admission.admits (listed ++ [p]) waiting), listed ++ [p]⟩

theorem step_of_old (hold : (S.text? p).isSome → p ∈ listed) :
    step s admission ⟨p :: waiting, listed⟩ = ⟨waiting, listed⟩ := by
  refine if_pos ?_
  cases htext : S.text? p with
  | none => exact .inr rfl
  | some _ => exact .inl (hold (by simp [htext]))

theorem step_of_new (hnew : p ∉ listed) (hread : (S.text? p).isSome) :
    step s admission ⟨p :: waiting, listed⟩ =
      ⟨waiting ++ (s.links S p).filter (admission.admits (listed ++ [p]) waiting), listed ++ [p]⟩ := by
  refine if_neg ?_
  rintro (hold | hnone)
  · exact hnew hold
  · simp [hnone] at hread

/-- What there is to do at most: a turn for every waiting path, and one for every reference of the files
that are not listed yet. -/
def remaining (s : Scanner) (S : Sources) (search : Search) : Nat :=
  search.waiting.length + ((unlisted S search.listed).map fun p => (s.links S p).length).sum

/-- What is listed, followed by what is waiting, is in the order of discovery. -/
structure Orderly (s : Scanner) (S : Sources) (roots : List Path) (search : Search) : Prop where
  settled : firsts S search.listed = search.listed
  ordered : firsts S (roots ++ search.listed.flatMap (s.links S)) =
    firsts S (search.listed ++ search.waiting)
  reached : ∀ p ∈ search.listed, s.Reaches S roots p

theorem orderly_start (s : Scanner) (S : Sources) (roots : List Path) :
    Orderly s S roots ⟨roots, []⟩ :=
  ⟨rfl, by simp, by simp⟩

theorem Orderly.reaches_head (h : Orderly s S roots ⟨p :: waiting, listed⟩)
    (hread : (S.text? p).isSome) : s.Reaches S roots p := by
  have hp : p ∈ firsts S (listed ++ p :: waiting) := mem_firsts.mpr ⟨by simp, hread⟩
  rw [← h.ordered, mem_firsts, List.mem_append, List.mem_flatMap] at hp
  obtain ⟨hp | ⟨q, hq, hp⟩, -⟩ := hp
  · exact .root hp hread
  · exact (h.reached q hq).link hp hread

/-- A path that cannot be listed any more is as good as gone. -/
theorem Orderly.skip (h : Orderly s S roots ⟨p :: waiting, listed⟩)
    (hold : (S.text? p).isSome → p ∈ listed) : Orderly s S roots ⟨waiting, listed⟩ := by
  refine ⟨h.settled, ?_, h.reached⟩
  rw [h.ordered]
  have := firsts_append_congr (firsts_concat_of_old hold) waiting
  simpa using this

theorem Orderly.list (h : Orderly s S roots ⟨p :: waiting, listed⟩) (hnew : p ∉ listed)
    (hread : (S.text? p).isSome)
    (hfound : firsts S (listed ++ [p] ++ waiting ++ found) =
      firsts S (listed ++ [p] ++ waiting ++ s.links S p)) :
    Orderly s S roots ⟨waiting ++ found, listed ++ [p]⟩ := by
  refine ⟨?_, ?_, ?_⟩
  · rw [firsts_concat_of_new hnew hread, h.settled]
  · have := firsts_append_congr h.ordered (s.links S p)
    simp only [List.append_assoc, List.cons_append, List.nil_append, List.flatMap_append,
      List.flatMap_cons, List.flatMap_nil, List.append_nil] at this hfound ⊢
    rw [this, hfound]
  · intro q hq
    rcases List.mem_append.mp hq with hq | hq
    · exact h.reached q hq
    · exact List.mem_singleton.mp hq ▸ h.reaches_head hread

theorem orderly_step (h : Orderly s S roots search) : Orderly s S roots (search.step s admission) := by
  obtain ⟨_ | ⟨p, waiting⟩, listed⟩ := search
  · exact h
  · by_cases hnew : p ∉ listed ∧ (S.text? p).isSome
    · rw [step_of_new hnew.1 hnew.2]
      refine h.list hnew.1 hnew.2 (firsts_append_filter fun q _ hspared hread => ?_)
      rcases admission.spares hspared with hq | hq | hq
      · exact List.mem_append_left _ hq
      · exact List.mem_append_right _ hq
      · simp [hq] at hread
    · have hold (hread : (S.text? p).isSome) : p ∈ listed := by tauto
      rw [step_of_old hold]
      exact h.skip hold

theorem orderly_steps (admission : Admission S) (h : Orderly s S roots search) (n : Nat) :
    Orderly s S roots ((step s admission)^[n] search) := by
  induction n with
  | zero => exact h
  | succ n ih =>
      rw [Function.iterate_succ_apply']
      exact orderly_step ih

theorem sum_unlisted_concat (hp : p ∈ S.paths) (hnew : p ∉ listed) :
    ((unlisted S (listed ++ [p])).map fun p => (s.links S p).length).sum + (s.links S p).length ≤
      ((unlisted S listed).map fun p => (s.links S p).length).sum := by
  have hfewer : unlisted S (listed ++ [p]) = (unlisted S listed).filter fun q => q ≠ p := by
    unfold unlisted
    rw [List.filter_filter]
    congr 1
    funext q
    simp [and_comm]
  have hsplit := (List.filter_append_perm (fun q => q ≠ p) (unlisted S listed)).map
    fun q => (s.links S q).length
  have hcounted : (s.links S p).length ≤
      (((unlisted S listed).filter fun q => !decide (q ≠ p)).map fun q => (s.links S q).length).sum := by
    refine List.le_sum_of_mem (List.mem_map_of_mem (List.mem_filter.mpr ⟨?_, by simp⟩))
    exact List.mem_filter.mpr ⟨hp, by simpa using hnew⟩
  rw [hfewer, ← hsplit.sum_eq, List.map_append, List.sum_append]
  exact Nat.add_le_add_left hcounted _

/-- Every turn leaves less to do. -/
theorem remaining_step_lt (admission : Admission S) (hlists : ∀ p, (S.text? p).isSome → p ∈ S.paths)
    (h : search.waiting ≠ []) :
    (search.step s admission).remaining s S < search.remaining s S := by
  obtain ⟨_ | ⟨p, waiting⟩, listed⟩ := search
  · exact absurd rfl h
  · by_cases hnew : p ∉ listed ∧ (S.text? p).isSome
    · rw [step_of_new hnew.1 hnew.2]
      -- What the file refers to is counted in the queue now, as far as it is there, and as a reference before.
      have hsum := sum_unlisted_concat (s := s) (hlists p hnew.2) hnew.1
      have hfound := List.length_filter_le (admission.admits (listed ++ [p]) waiting) (s.links S p)
      simp only [remaining, List.length_append, List.length_cons]
      omega
    · rw [step_of_old (by tauto)]
      simp [remaining]

theorem waiting_steps_eq_nil (hlists : ∀ p, (S.text? p).isSome → p ∈ S.paths) (n : Nat)
    (hn : search.remaining s S ≤ n) : ((step s admission)^[n] search).waiting = [] := by
  induction n generalizing search with
  | zero =>
      have : search.waiting.length = 0 := by
        unfold remaining at hn
        omega
      exact List.length_eq_zero_iff.mp this
  | succ n ih =>
      rw [Function.iterate_succ_apply]
      by_cases hdone : search.waiting = []
      · have hstays : search.step s admission = search := by
          obtain ⟨waiting, listed⟩ := search
          subst hdone
          rfl
        rw [hstays, Function.iterate_fixed hstays]
        exact hdone
      · have := remaining_step_lt (s := s) admission hlists hdone
        exact ih (by omega)

/-- A search that has nothing left to do has listed the files in the order of discovery. -/
theorem Orderly.inDiscoveryOrder (h : Orderly s S roots ⟨[], files⟩) :
    s.InDiscoveryOrder S roots files := by
  refine ⟨?_, h.reached⟩
  rw [h.ordered, List.append_nil, h.settled]

end Search

/-! ### The files of some roots -/

/-- A round is as many turns of a search that adds everything to its queue as there are paths waiting. -/
theorem visit_eq_steps (s : Scanner) (S : Sources) (waiting listed found : List Path) :
    s.visit S waiting listed found =
      let search := (Search.step s (.all S))^[waiting.length] ⟨waiting ++ found, listed⟩
      (search.listed, search.waiting) := by
  induction waiting generalizing listed found with
  | nil => rfl
  | cons p waiting ih =>
      rw [List.length_cons, Function.iterate_succ_apply, List.cons_append]
      by_cases hnew : p ∉ listed ∧ (S.text? p).isSome
      · obtain ⟨text, htext⟩ := Option.isSome_iff_exists.mp hnew.2
        have hvisit : s.visit S (p :: waiting) listed found =
            s.visit S waiting (listed ++ [p]) (found ++ s.links S p) := by
          simp [visit, links, hnew.1, htext]
        rw [hvisit, ih, Search.step_of_new hnew.1 hnew.2]
        simp [Admission.all]
      · have hold (hread : (S.text? p).isSome) : p ∈ listed := by tauto
        have hvisit : s.visit S (p :: waiting) listed found = s.visit S waiting listed found := by
          cases htext : S.text? p with
          | none => simp [visit, htext]
          | some _ => simp [visit, hold (by simp [htext])]
        rw [hvisit, ih, Search.step_of_old hold]

theorem inDiscoveryOrder_rounds {n : Nat} (hlists : ∀ p, (S.text? p).isSome → p ∈ S.paths)
    (h : Search.Orderly s S roots ⟨waiting, listed⟩) (hfuel : (unlisted S listed).length < n) :
    s.InDiscoveryOrder S roots (s.rounds S n waiting listed) := by
  induction n generalizing waiting listed with
  | zero => omega
  | succ n ih =>
      obtain ⟨new, heq, hnew, -⟩ := visit_eq s S waiting listed []
      have hnext : Search.Orderly s S roots ⟨new.flatMap (s.links S), listed ++ new⟩ := by
        have hsteps := Search.orderly_steps (.all S) h waiting.length
        have hvisit := visit_eq_steps s S waiting listed []
        rw [heq, List.append_nil, List.nil_append, Prod.mk.injEq] at hvisit
        rw [hvisit.1, hvisit.2]
        exact hsteps
      unfold rounds
      rw [heq]
      dsimp only
      rw [List.nil_append]
      split
      · rename_i hnone
        exact (hnone ▸ hnext).inDiscoveryOrder
      · rename_i hsome
        refine ih hnext ?_
        obtain ⟨p, hp⟩ := List.exists_mem_of_ne_nil _ hsome
        obtain ⟨q, hq, -⟩ := List.mem_flatMap.mp hp
        obtain ⟨-, hqnew, hread⟩ := hnew q hq
        have := length_unlisted_lt (hlists q hread) hqnew hq
        omega

theorem inDiscoveryOrder_fileSet (hlists : ∀ p, (S.text? p).isSome → p ∈ S.paths)
    (roots : List Path) : s.InDiscoveryOrder S roots (s.fileSet S roots) :=
  inDiscoveryOrder_rounds hlists (Search.orderly_start s S roots) (length_unlisted_nil_lt S)

/-- What a search comes to does not depend on what it leaves out of its queue. It is over after a turn for
every root and one for every reference of a file that can be read, if not before. -/
theorem steps_eq_fileSet (hlists : ∀ p, (S.text? p).isSome → p ∈ S.paths)
    (admission : Admission S) (roots : List Path) {n : Nat}
    (hn : roots.length + (S.paths.map fun p => (s.links S p).length).sum ≤ n) :
    (Search.step s admission)^[n] ⟨roots, []⟩ = ⟨[], s.fileSet S roots⟩ := by
  have hdone : ((Search.step s admission)^[n] ⟨roots, []⟩).waiting = [] :=
    Search.waiting_steps_eq_nil hlists n (by simpa [Search.remaining, unlisted] using hn)
  have horderly := Search.orderly_steps admission (Search.orderly_start s S roots) n
  generalize (Search.step s admission)^[n] ⟨roots, []⟩ = search at hdone horderly
  obtain ⟨waiting, listed⟩ := search
  subst hdone
  rw [horderly.inDiscoveryOrder.unique (inDiscoveryOrder_fileSet hlists roots)]

/-- Roots that cannot be read or come twice are as good as none. -/
theorem fileSet_eq_of_firsts_eq (hlists : ∀ p, (S.text? p).isSome → p ∈ S.paths)
    {roots' : List Path} (h : firsts S roots = firsts S roots') :
    s.fileSet S roots = s.fileSet S roots' := by
  have horder := inDiscoveryOrder_fileSet (s := s) hlists roots
  have hroots {p : Path} (hread : (S.text? p).isSome) : p ∈ roots → p ∈ roots' := by
    have := congrArg (p ∈ ·) h
    simp only [mem_firsts, hread, and_true, eq_iff_iff] at this
    exact this.mp
  refine InDiscoveryOrder.unique ⟨?_, fun p hp => ?_⟩ (inDiscoveryOrder_fileSet hlists roots')
  · rw [← firsts_append_congr h]
    exact horder.eq_firsts
  · have hreached := horder.reached p hp
    clear hp
    induction hreached with
    | root hp hread => exact .root (hroots hread hp) hread
    | link _ hp hread ih => exact ih.link hp hread

/-- Roots in other spellings lead to the same files. -/
theorem map_path_spelledFileSet (s : Scanner) (S : Sources) (roots : List Spelling) :
    (s.spelledFileSet S roots).map (·.path) = s.fileSet S (roots.map (·.path)) := by
  unfold spelledFileSet
  rw [List.map_map]
  refine (List.map_congr_left fun p _ => ?_).trans (List.map_id _)
  dsimp only [Function.comp_apply, id]
  cases hfind : roots.find? (·.path = p) with
  | none => rfl
  | some spelling => simpa using List.find?_some hfind

/-- If finitely many paths can be read, then the search ends, and it lists each file that can be read and
that the roots lead to once, in the order of discovery. What is left out of the queue early, and what stays
in it although it cannot be listed any more, makes no difference. -/
theorem fileSet_breadth_first (s : Scanner) (S : Sources) (roots : List Path)
    (hlists : ∀ p, (S.text? p).isSome → p ∈ S.paths) :
    let files := s.fileSet S roots
    let turns := roots.length + (S.paths.map fun p => (s.links S p).length).sum
    files.Nodup ∧ (∀ p, p ∈ files ↔ s.Reaches S roots p) ∧
      files = firsts S (roots ++ files.flatMap (s.links S)) ∧
      (∀ other, s.InDiscoveryOrder S roots other ↔ other = files) ∧
      (Search.step s (.unseen S))^[turns] ⟨roots, []⟩ = ⟨[], files⟩ ∧
      (∀ admission : Admission S, ∀ n, turns ≤ n →
        (Search.step s admission)^[n] ⟨roots, []⟩ = ⟨[], files⟩) ∧
      (∀ roots', firsts S roots' = firsts S roots → s.fileSet S roots' = files) ∧
      ∀ spelled : List Spelling, spelled.map (·.path) = roots →
        (s.spelledFileSet S spelled).map (·.path) = files := by
  intro files turns
  have horder : s.InDiscoveryOrder S roots files := inDiscoveryOrder_fileSet hlists roots
  refine ⟨horder.nodup, fun p => horder.mem_iff, horder.eq_firsts, fun other => ?_, ?_, ?_, ?_, ?_⟩
  · exact ⟨fun h => h.unique horder, fun h => h ▸ horder⟩
  · exact steps_eq_fileSet hlists (.unseen S) roots (Nat.le_refl turns)
  · exact fun admission n hn => steps_eq_fileSet hlists admission roots hn
  · exact fun roots' h => fileSet_eq_of_firsts_eq hlists h
  · rintro spelled rfl
    exact map_path_spelledFileSet s S spelled

/-- Every letter of a text is a reference. -/
def letterScanner : Scanner :=
  ⟨.group 1 (.set ⟨[.range 'a' 'z'], false⟩), ⟨.root, true⟩⟩

/-- Three files that refer to one another, and to one that cannot be read. -/
def cyclicSources : Sources where
  paths := [⟨[.root, .name "a"]⟩, ⟨[.root, .name "b"]⟩, ⟨[.root, .name "c"]⟩]
  text? p :=
    if p = ⟨[.root, .name "a"]⟩ then some "cab".toList
    else if p = ⟨[.root, .name "b"]⟩ then some "da".toList
    else if p = ⟨[.root, .name "c"]⟩ then some "bb".toList
    else none

theorem fileSet_breadth_first_cyclic :
    let path (name : String) : Path := ⟨[.root, .name name]⟩
    let roots := [path "d", path "a", path "a"]
    let files := [path "a", path "c", path "b"]
    (∀ p, (cyclicSources.text? p).isSome → p ∈ cyclicSources.paths) ∧
      letterScanner.fileSet cyclicSources roots = files ∧
      (∀ p, p ∈ files ↔ letterScanner.Reaches cyclicSources roots p) ∧
      (Search.step letterScanner (.unseen cyclicSources))^[10] ⟨roots, []⟩ = ⟨[], files⟩ := by
  intro path roots files
  have hlists : ∀ p, (cyclicSources.text? p).isSome → p ∈ cyclicSources.paths := by
    intro p hread
    by_contra hunlisted
    simp only [cyclicSources, List.mem_cons, List.not_mem_nil, or_false, not_or] at hunlisted
    simp [cyclicSources, hunlisted] at hread
  have hfiles : letterScanner.fileSet cyclicSources roots = files := by decide +kernel
  obtain ⟨-, hmem, -, -, -, hsteps, -⟩ :=
    fileSet_breadth_first letterScanner cyclicSources roots hlists
  rw [hfiles] at hmem hsteps
  exact ⟨hlists, hfiles, hmem, hsteps (.unseen _) 10 (by decide +kernel)⟩

end ProjectTracker.Scanner
