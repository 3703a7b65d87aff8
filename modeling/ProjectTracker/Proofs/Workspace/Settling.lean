import ProjectTracker.Proofs.Workspace.Placing
/-!
Settling keeps the invariant, and leaves no closed document in the lists.
-/

namespace ProjectTracker

open Registry

namespace OpenFiles

/-- One of the lists, and the way to take a document out of it. -/
structure Section (list : OpenFiles → List Path) (removal : OpenFiles → Path → OpenFiles) :
    Prop where
  without : ∀ (o : OpenFiles) (p : Path), o.Without p (removal o p)
  list_removal : ∀ o p, list (removal o p) = (list o).erase p
  mem_all : ∀ (o : OpenFiles), ∀ p ∈ list o, p ∈ o.all
  not_mem : ∀ (o : OpenFiles) (p : Path), o.all.Nodup → p ∈ list o → p ∉ (removal o p).all

theorem section_configuredRoots : Section (·.configuredRoots) (.removeConfiguredRoot) where
  without := without_removeConfiguredRoot
  list_removal _ _ := rfl
  mem_all o p hp := by simp [all, hp]
  not_mem _ _ := not_mem_removeConfiguredRoot

theorem section_referenced : Section (·.referenced) (.removeReferenced) where
  without := without_removeReferenced
  list_removal _ _ := rfl
  mem_all o p hp := by simp [all, hp]
  not_mem _ _ := not_mem_removeReferenced

end OpenFiles

namespace Workspace

variable {t : Terms} {w : Workspace} {loose guests : List Path} {p root : Path}

/-! ### Projects and documents that nobody needs -/

theorem prune_sound (h : Sound t w.registry loose [] guests) :
    Sound t w.prune.registry loose [] guests := by
  unfold prune
  dsimp only
  generalize w.configured.filter _ = unused
  induction unused generalizing w with
  | nil => exact h
  | cons id unused ih => exact ih (dissolve_sound h id)

theorem registry_foldl_forget {ps : List Path}
    (h : ∀ p ∈ ps, w.isOpen p = false ∧ w.owner? p = none) :
    (ps.foldl forget w).registry = w.registry := by
  induction ps generalizing w with
  | nil => rfl
  | cons p ps ih =>
      obtain ⟨hopen, hnone⟩ := h p (by simp)
      have hforget := registry_forget hopen hnone
      rw [List.foldl_cons, ih, hforget]
      intro q hq
      have hq' := h q (by simp [hq])
      rwa [← registry_isOpen, ← registry_owner?, ← hforget] at hq'

/-- No closed document belongs to a project, so that the registry knows nothing of those that are
forgotten. -/
theorem registry_sweep (h : ∀ p, w.registry.owner? p ≠ none → w.registry.isOpen p) :
    w.sweep.registry = w.registry := by
  apply registry_foldl_forget
  intro p hp
  have hclosed : w.isOpen p = false := by
    have hp' := (List.mem_filter.mp hp).2
    simp only [Bool.and_eq_true, Bool.not_eq_true'] at hp'
    exact hp'.1
  refine ⟨hclosed, ?_⟩
  by_contra hne
  simpa [hclosed] using h p hne

theorem sweep_sound (h : Sound t w.registry loose [] guests) :
    Sound t w.sweep.registry loose [] guests := by
  rw [registry_sweep h.owned_open]
  exact h

/-! ### Documents whose place is no longer right -/

section

variable {list : OpenFiles → List Path} {removal : OpenFiles → Path → OpenFiles}
  {property : Path → Project → Bool}

theorem detachUnless_cases (property : Path → Project → Bool)
    (removal : OpenFiles → Path → OpenFiles) (w : Workspace) (detached : List Path) (p : Path) :
    (detachUnless property removal (w, detached) p = (w, detached) ∧ w.owner? p ≠ none) ∨
      ((detachUnless property removal (w, detached) p).1.registry =
          (w.registry.modifyOpenFiles (removal · p)).setOwner p none ∧
        (detachUnless property removal (w, detached) p).2 = detached ++ [p]) := by
  unfold detachUnless
  dsimp only
  split
  · rename_i hany
    refine .inl ⟨rfl, fun hnone => ?_⟩
    simp [hnone] at hany
  · refine .inr ⟨?_, rfl⟩
    rw [registry_setOwner (.inr rfl)]
    rfl

/-- Going through documents of a list takes only such out that are in it. -/
theorem foldl_detachUnless_sound (hlist : OpenFiles.Section list removal) {ps detached : List Path}
    (h : Sound t w.registry (detached ++ loose) [] guests) (hps : ps.Subperm (list w.openFiles)) :
    Sound t (ps.foldl (detachUnless property removal) (w, detached)).1.registry
      ((ps.foldl (detachUnless property removal) (w, detached)).2 ++ loose) [] guests := by
  induction ps generalizing w detached with
  | nil => exact h
  | cons p ps ih =>
      rw [List.foldl_cons]
      rcases detachUnless_cases property removal w detached p with ⟨hsame, -⟩ | ⟨hregistry, hadded⟩
      · rw [hsame]
        exact ih h ((List.sublist_cons_self p ps).subperm.trans hps)
      · have hp : p ∈ list w.openFiles := hps.subset (by simp)
        have hunlisted := h.unlist (hlist.without w.openFiles p) (hlist.mem_all _ p hp)
          fun ht => hlist.not_mem _ p (h.nodup ht) hp
        generalize detachUnless property removal (w, detached) p = state at hregistry hadded ⊢
        obtain ⟨w', detached'⟩ := state
        dsimp only at hregistry hadded
        apply ih
        · rw [hregistry, hadded]
          refine hunlisted.perm ?_
          rw [List.append_assoc]
          exact List.perm_middle.symm
        · have hopenFiles : w'.openFiles = removal w.openFiles p :=
            congrArg Registry.openFiles hregistry
          rw [hopenFiles, hlist.list_removal]
          simpa using hps.erase p

/-- A document without a project is taken out as often as it is met. -/
theorem foldl_detachUnless_count (hlist : OpenFiles.Section list removal) {ps detached : List Path}
    (hnone : w.owner? p = none) :
    (list (ps.foldl (detachUnless property removal) (w, detached)).1.openFiles).count p =
      (list w.openFiles).count p - ps.count p ∧
      (ps.foldl (detachUnless property removal) (w, detached)).1.owner? p = none := by
  induction ps generalizing w detached with
  | nil => exact ⟨by simp, hnone⟩
  | cons q ps ih =>
      rw [List.foldl_cons]
      rcases detachUnless_cases property removal w detached q with ⟨hsame, hne⟩ | ⟨hregistry, -⟩
      · have hqp : q ≠ p := by
          rintro rfl
          exact hne hnone
        rw [hsame, List.count_cons_of_ne hqp]
        exact ih hnone
      · generalize detachUnless property removal (w, detached) q = state at hregistry ⊢
        obtain ⟨w', detached'⟩ := state
        have hopenFiles : w'.openFiles = removal w.openFiles q :=
          congrArg Registry.openFiles hregistry
        have howner : w'.owner? p = none := by
          rw [← registry_owner?, hregistry, setOwner_owner?]
          split
          · rfl
          · exact hnone
        obtain ⟨hcount, hnone'⟩ := @ih w' detached' howner
        refine ⟨?_, hnone'⟩
        rw [hcount, hopenFiles, hlist.list_removal, List.count_erase, List.count_cons]
        grind

theorem foldl_detachUnless_keep {α : Type} (keep : Registry → α)
    (hkeep : ∀ (r : Registry) (p : Path),
      keep ((r.modifyOpenFiles (removal · p)).setOwner p none) = keep r)
    {ps detached : List Path} :
    keep (ps.foldl (detachUnless property removal) (w, detached)).1.registry = keep w.registry := by
  induction ps generalizing w detached with
  | nil => rfl
  | cons q ps ih =>
      rw [List.foldl_cons]
      rcases detachUnless_cases property removal w detached q with ⟨hsame, -⟩ | ⟨hregistry, -⟩
      · rw [hsame]
        exact ih
      · generalize detachUnless property removal (w, detached) q = state at hregistry ⊢
        obtain ⟨w', detached'⟩ := state
        dsimp only at hregistry
        rw [ih, hregistry, hkeep]

end

theorem assign_eq (id : ProjectId) (hopen : w.isOpen p) :
    ∃ o, w.openFiles.With p False o ∧
      (w.assign p id).registry = { w.registry.setOwner p (some id) with openFiles := o } := by
  have hmodified (f : OpenFiles → OpenFiles) : (w.modifyOpenFiles f).isOpen p ∨ some id = none :=
    .inl hopen
  unfold assign
  dsimp only
  split
  · exact ⟨_, OpenFiles.with_addConfiguredRoot .., by rw [registry_setOwner (hmodified _)]; rfl⟩
  · exact ⟨_, OpenFiles.with_addReferenced .., by rw [registry_setOwner (hmodified _)]; rfl⟩

/-- Giving the root of an inferred project to another one that reaches it. -/
theorem demote_sound {detached : List Path}
    (h : Sound t w.registry (detached ++ loose) [] guests) (root : Path) :
    Sound t (demote (w, detached) root).1.registry ((demote (w, detached) root).2 ++ loose) []
      guests := by
  unfold demote
  dsimp only
  split
  · exact h
  · rename_i hroot
    have hroot : root ∈ w.openFiles.roots := not_not.mp hroot
    cases hreaching : w.reachingProject? root (w.owner? root) with
    | none => exact h
    | some id =>
        rw [reachingProject?] at hreaching
        have hfound := List.find?_some hreaching
        simp only [Bool.and_eq_true, decide_eq_true_eq] at hfound
        obtain ⟨hne, hproject⟩ := hfound
        obtain ⟨hregistry, horphans⟩ :=
          evict_eq (w.modifyOpenFiles (·.removeRoot root)) (w.owner? root)
        dsimp only
        generalize (w.modifyOpenFiles (·.removeRoot root)).evict (w.owner? root) = evicted
          at hregistry horphans ⊢
        obtain ⟨evicted, orphans⟩ := evicted
        dsimp only at hregistry horphans ⊢
        have hopen : evicted.isOpen root := by
          rw [← registry_isOpen, hregistry, isOpen_evict]
          exact h.isOpen_of_mem_roots hroot
        obtain ⟨o, ho, hassigned⟩ := assign_eq id hopen
        have hopenFiles := congrArg Registry.openFiles hregistry
        rw [registry_openFiles] at hopenFiles
        rw [hopenFiles] at ho
        have hlive : t.live → w.registry.IsLive id ∧ w.registry.owner? root ≠ some id :=
          fun _ => ⟨isLive_of_projectHas hproject, hne.symm⟩
        have hle := h.live_le id (isLive_of_projectHas hproject)
        have hgiven := h.supplant hroot hle hlive (.refl _ _) ho
        rw [registry_emit, hassigned, hregistry, horphans, List.append_assoc]
        exact hgiven.perm (List.perm_append_comm_assoc ..)

theorem foldl_demote_sound (ps : List Path) {detached : List Path}
    (h : Sound t w.registry (detached ++ loose) [] guests) :
    Sound t (ps.foldl demote (w, detached)).1.registry ((ps.foldl demote (w, detached)).2 ++ loose)
      [] guests := by
  induction ps generalizing w detached with
  | nil => exact h
  | cons root ps ih =>
      have hstep := demote_sound h root
      rw [List.foldl_cons]
      generalize demote (w, detached) root = state at hstep ⊢
      obtain ⟨w', detached'⟩ := state
      exact ih hstep

/-- Once every place was looked at no closed document stands in the lists. -/
theorem detachUnless_sound (h : Sound t w.registry [] [] guests) :
    let configured := w.openFiles.configuredRoots.foldl
      (detachUnless (fun p project => project.isRoot p) .removeConfiguredRoot) (w, [])
    let referenced := configured.1.openFiles.referenced.foldl
      (detachUnless (fun p project => project.contains p) .removeReferenced) configured
    Sound t.settled referenced.1.registry (referenced.2 ++ []) [] guests := by
  intro configured referenced
  have hconfigured : Sound t configured.1.registry (configured.2 ++ []) [] guests :=
    foldl_detachUnless_sound OpenFiles.section_configuredRoots h (.refl _)
  have hreferenced : Sound t referenced.1.registry (referenced.2 ++ []) [] guests :=
    foldl_detachUnless_sound OpenFiles.section_referenced hconfigured (.refl _)
  -- a closed document has no project, so that each pass took out all that the list had of it
  refine hreferenced.noneLeft fun p hclosed hall => ?_
  have hopen : referenced.1.registry.isOpen = w.registry.isOpen :=
    (foldl_detachUnless_keep (·.isOpen) fun _ _ => rfl).trans
      (foldl_detachUnless_keep (·.isOpen) fun _ _ => rfl)
  have hnone : w.owner? p = none := by
    by_contra hne
    have hopen' := h.owned_open p hne
    rw [← hopen, hclosed] at hopen'
    simp at hopen'
  obtain ⟨hcountConfigured, hnone'⟩ : configured.1.openFiles.configuredRoots.count p =
      w.openFiles.configuredRoots.count p - w.openFiles.configuredRoots.count p ∧
        configured.1.owner? p = none :=
    foldl_detachUnless_count OpenFiles.section_configuredRoots hnone
  have hcountReferenced : referenced.1.openFiles.referenced.count p =
      configured.1.openFiles.referenced.count p - configured.1.openFiles.referenced.count p :=
    (foldl_detachUnless_count OpenFiles.section_referenced hnone').1
  have hkept : referenced.1.openFiles.configuredRoots = configured.1.openFiles.configuredRoots :=
    foldl_detachUnless_keep (·.openFiles.configuredRoots) fun _ _ => rfl
  have hroots := ((hreferenced.listed_open p hall).resolve_left (by simp [hclosed])).2
  rw [Nat.sub_self] at hcountConfigured hcountReferenced
  rw [← hkept] at hcountConfigured
  have hall' := List.count_pos_iff.mpr hall
  rw [OpenFiles.count_all, List.count_eq_zero.mpr hroots] at hall'
  rw [registry_openFiles] at hall'
  omega

/-- Settling takes the closed documents out of the lists. -/
theorem settle_sound (h : Sound t w.registry [] [] guests) :
    Sound t.settled w.settle.registry [] [] guests := by
  rw [← registry_refresh] at h
  unfold settle
  dsimp only
  exact sweep_sound (prune_sound (reattach_sound (foldl_demote_sound _ (detachUnless_sound h))))

end Workspace

end ProjectTracker
