import ProjectTracker.Proofs.Workspace.Attaching
import ProjectTracker.Proofs.Workspace.Coherence
import ProjectTracker.Proofs.Workspace.Listing
import ProjectTracker.Proofs.Workspace.Ownership
import ProjectTracker.Proofs.Workspace.SeatedRuns
/-!
After settling every document stands where it should by what the projects hold. A document stays with an inferred
project that a configured one reaches into only if it was a referenced file of it before.
-/

namespace ProjectTracker

theorem Project.isConfigured_iff {project : Project} :
    project.isConfigured ↔ project.kind ≠ .inferred := by
  unfold isConfigured manifest?
  cases project.kind <;> simp

namespace Workspace

open Registry

variable {t : Terms} {w w' : Workspace} {kept spared : Path → ProjectId → Prop}
  {loose guests single : List Path} {p q root : Path} {first id : ProjectId} {held : Holding}

/-! ### Looking at every place -/

section

variable {list : OpenFiles → List Path} {removal : OpenFiles → Path → OpenFiles}
  {property : Path → Project → Bool} {suits : Path → Holding → Prop}

/-- The project of a document suits it. -/
def Suited (suits : Path → Holding → Prop) (w : Workspace) (p : Path) : Prop :=
  ∃ id held, w.owner? p = some id ∧ w.holding? id = some held ∧ suits p held

theorem suited_iff (hproperty : ∀ p project, property p project ↔ suits p project.holding) :
    ((w.owner? p).any fun id => w.projectHas id (property p)) ↔ w.Suited suits p := by
  unfold Suited projectHas holding?
  cases w.owner? p with
  | none => simp
  | some id =>
      cases hproject : w.projects.get? id with
      | none => simp [hproject]
      | some project => simp [hproject, hproperty]

theorem holding?_detachUnless (removal : OpenFiles → Path → OpenFiles)
    (state : Workspace × List Path) (p : Path) :
    (detachUnless property removal state p).1.holding? = state.1.holding? := by
  unfold detachUnless
  dsimp only
  split
  · rfl
  · exact congrArg Roster.holding? ((calm_modifyOpenFiles ..).trans (calm_setOwner ..)).roster

theorem holding?_foldl_detachUnless (ps : List Path) (state : Workspace × List Path) :
    (ps.foldl (detachUnless property removal) state).1.holding? = state.1.holding? := by
  induction ps generalizing state with
  | nil => rfl
  | cons p ps ih => rw [List.foldl_cons, ih, holding?_detachUnless]

/-- A document is left alone if its project suits it, and taken out of the list otherwise. -/
theorem detachUnless_suited (hproperty : ∀ p project, property p project ↔ suits p project.holding)
    (removal : OpenFiles → Path → OpenFiles) (state : Workspace × List Path) (p : Path) :
    (state.1.Suited suits p ∧ detachUnless property removal state p = state) ∨
      (¬state.1.Suited suits p ∧ (detachUnless property removal state p).1.registry =
        (state.1.registry.modifyOpenFiles (removal · p)).setOwner p none) := by
  rw [← suited_iff hproperty]
  unfold detachUnless
  dsimp only
  split
  · exact .inl ⟨‹_›, rfl⟩
  · refine .inr ⟨‹_›, ?_⟩
    rw [registry_setOwner (.inr rfl)]
    rfl

/-- The documents that are not looked at keep their projects, and the others at most lose them. -/
theorem owner?_foldl_detachUnless (ps : List Path) (state : Workspace × List Path) (p : Path) :
    let after := (ps.foldl (detachUnless property removal) state).1
    (p ∉ ps → after.owner? p = state.1.owner? p) ∧
      (after.owner? p = state.1.owner? p ∨ after.owner? p = none) := by
  induction ps generalizing state with
  | nil => exact ⟨fun _ => rfl, .inl rfl⟩
  | cons q ps ih =>
      obtain ⟨hkept, hlost⟩ := ih (detachUnless property removal state q)
      have hstep : (p ≠ q → (detachUnless property removal state q).1.owner? p = state.1.owner? p) ∧
          ((detachUnless property removal state q).1.owner? p = state.1.owner? p ∨
            (detachUnless property removal state q).1.owner? p = none) := by
        rcases detachUnless_cases property removal state.1 state.2 q with ⟨hsame, -⟩ | ⟨hregistry, -⟩
        · rw [hsame]
          exact ⟨fun _ => rfl, .inl rfl⟩
        · rw [← registry_owner?, hregistry, setOwner_owner?]
          by_cases hpq : p = q
          · simp [hpq]
          · rw [if_neg hpq]
            exact ⟨fun _ => rfl, .inl rfl⟩
      rw [List.foldl_cons]
      constructor
      · intro hp
        rw [List.mem_cons, not_or] at hp
        rw [hkept hp.2, hstep.1 hp.1]
      · rcases hlost with hsame | hnone
        · rw [hsame]
          exact hstep.2
        · exact .inr hnone

/-- A document that its project suits keeps it. -/
theorem owner?_foldl_detachUnless_of_suited
    (hproperty : ∀ p project, property p project ↔ suits p project.holding) (ps : List Path)
    {state : Workspace × List Path} (h : state.1.Suited suits p) :
    (ps.foldl (detachUnless property removal) state).1.owner? p = state.1.owner? p := by
  induction ps generalizing state with
  | nil => rfl
  | cons q ps ih =>
      rw [List.foldl_cons]
      rcases detachUnless_suited hproperty removal state q with ⟨-, hsame⟩ | ⟨hmisplaced, hregistry⟩
      · rw [hsame]
        exact ih h
      · have hpq : p ≠ q := fun hpq => hmisplaced (hpq ▸ h)
        have howner : (detachUnless property removal state q).1.owner? p = state.1.owner? p :=
          (congrFun (congrArg Registry.owner? hregistry) p).trans (if_neg hpq)
        obtain ⟨id, held, howner', hheld, hsuits⟩ := h
        refine (ih ⟨id, held, howner.trans howner', ?_, hsuits⟩).trans howner
        rw [holding?_detachUnless]
        exact hheld

theorem below_foldl_detachUnless (hremoval : ∀ o p, (removal o p).Below o) (ps : List Path)
    (state : Workspace × List Path) :
    (ps.foldl (detachUnless property removal) state).1.openFiles.Below state.1.openFiles := by
  induction ps generalizing state with
  | nil => exact .refl _
  | cons p ps ih =>
      refine (ih _).trans ?_
      rcases detachUnless_cases property removal state.1 state.2 p with ⟨hsame, -⟩ | ⟨hregistry, -⟩
      · rw [hsame]
        exact .refl _
      · rw [← registry_openFiles, hregistry]
        exact hremoval state.1.openFiles p

/-- Once all of a list was looked at, what is left in it has a project that suits it. -/
theorem foldl_detachUnless_suited (hlist : OpenFiles.Section list removal)
    (hproperty : ∀ p project, property p project ↔ suits p project.holding) {ps : List Path}
    {state : Workspace × List Path} (h : ∀ p ∈ list state.1.openFiles, state.1.Suited suits p ∨
      (list state.1.openFiles).count p ≤ ps.count p) :
    let after := (ps.foldl (detachUnless property removal) state).1
    ∀ p ∈ list after.openFiles, after.Suited suits p := by
  -- as many of a misplaced document are left to look at as are left in the list
  induction ps generalizing state with
  | nil =>
      intro after p hp
      refine (h p hp).resolve_right fun hcount => ?_
      exact absurd (List.count_pos_iff.mpr hp) (Nat.not_lt_of_le hcount)
  | cons q ps ih =>
      refine ih fun p hp => ?_
      rcases detachUnless_suited hproperty removal state q with ⟨hsuited, hsame⟩ | ⟨hmisplaced, hregistry⟩
      · rw [hsame] at hp ⊢
        by_cases hpq : p = q
        · exact .inl (hpq ▸ hsuited)
        · rw [← List.count_cons_of_ne (Ne.symm hpq) (l := ps)]
          exact h p hp
      · have hopenFiles : (detachUnless property removal state q).1.openFiles =
            removal state.1.openFiles q := congrArg Registry.openFiles hregistry
        have howner : (detachUnless property removal state q).1.owner? =
            fun p => if p = q then none else state.1.owner? p := congrArg Registry.owner? hregistry
        rw [hopenFiles, hlist.list_removal] at hp ⊢
        have hformer := h p (List.mem_of_mem_erase hp)
        by_cases hpq : p = q
        · subst q
          have hcount := hformer.resolve_left hmisplaced
          rw [List.count_cons_self] at hcount
          rw [List.count_erase_self]
          exact .inr (by omega)
        · rw [List.count_cons_of_ne (Ne.symm hpq)] at hformer
          rw [List.count_erase_of_ne hpq]
          refine hformer.imp_left fun ⟨id, held, howner', hheld, hsuits⟩ =>
            ⟨id, held, ?_, ?_, hsuits⟩
          · rw [howner]
            exact (if_neg hpq).trans howner'
          · rw [holding?_detachUnless]
            exact hheld

end

/-- Once the first two passes looked at the lists, only roots may be misplaced. The referenced files have the
projects that they had before. -/
theorem detachUnless_placed
    (hfresh : ∀ id held, w.holding? id = some held → held.isStale = false) :
    let configured := w.openFiles.configuredRoots.foldl
      (detachUnless (fun p project => project.isRoot p) .removeConfiguredRoot) (w, [])
    let referenced := configured.1.openFiles.referenced.foldl
      (detachUnless (fun p project => project.contains p) .removeReferenced) configured
    Placed (fun p id => p ∈ w.openFiles.referenced ∧ w.owner? p = some id)
      (fun p _ => p ∈ referenced.1.openFiles.roots) referenced.1.registry referenced.1.holding? := by
  intro configured referenced
  have hconfigured : ∀ p ∈ configured.1.openFiles.configuredRoots,
      configured.1.Suited (fun p held => p ∈ held.roots) p :=
    foldl_detachUnless_suited OpenFiles.section_configuredRoots
      (fun p project => by simp [Project.isRoot, Project.holding]) fun p _ => .inr (Nat.le_refl _)
  have hreferenced : ∀ p ∈ referenced.1.openFiles.referenced,
      referenced.1.Suited (fun p held => held.Contains p) p :=
    foldl_detachUnless_suited OpenFiles.section_referenced (fun p project => Project.contains_iff)
      fun p _ => .inr (Nat.le_refl _)
  have hholding : referenced.1.holding? = configured.1.holding? := holding?_foldl_detachUnless ..
  have hholding' : configured.1.holding? = w.holding? := holding?_foldl_detachUnless ..
  have hkeptReferenced : configured.1.openFiles.referenced = w.openFiles.referenced :=
    foldl_detachUnless_keep (·.openFiles.referenced) fun _ _ => rfl
  have hbelow : referenced.1.openFiles.Below configured.1.openFiles :=
    below_foldl_detachUnless OpenFiles.below_removeReferenced ..
  -- what has a project in the end had it all along
  have howner {p : Path} {id : ProjectId} (hid : referenced.1.owner? p = some id) :
      w.owner? p = some id := by
    have hlost : referenced.1.owner? p = configured.1.owner? p ∨ referenced.1.owner? p = none :=
      (owner?_foldl_detachUnless configured.1.openFiles.referenced configured p).2
    have hlost' : configured.1.owner? p = w.owner? p ∨ configured.1.owner? p = none :=
      (owner?_foldl_detachUnless w.openFiles.configuredRoots (w, []) p).2
    have hsame := hlost.resolve_right (by simp [hid])
    exact (hlost'.resolve_right (by simp [← hsame, hid])).symm.trans (hsame.symm.trans hid)
  constructor
  · exact fun p hp id held _ _ => .inr hp
  · exact hreferenced
  · intro p hp id held howner' _ _
    exact .inl ⟨hkeptReferenced ▸ hbelow.referenced.subset hp, howner howner'⟩
  · -- a root of a project is in it, so that the second pass leaves it alone
    intro p hp
    have hp : p ∈ configured.1.openFiles.configuredRoots := hbelow.configuredRoots.subset hp
    obtain ⟨id, held, hid, hheld, hroot⟩ := hconfigured p hp
    have hsuited : configured.1.Suited (fun p held => held.Contains p) p :=
      ⟨id, held, hid, hheld, .inr hroot⟩
    refine ⟨id, held, ?_, hholding ▸ hheld, hroot⟩
    exact (owner?_foldl_detachUnless_of_suited (fun p project => Project.contains_iff) _ hsuited).trans
      hid
  · rw [hholding, hholding']
    exact hfresh

/-! ### Giving roots away -/

theorem assign_placed (hopen : w.isOpen p) (h : Placed kept spared w.registry w.holding?)
    (hroot : p ∉ w.openFiles.roots) (hreferenced : p ∉ w.openFiles.referenced)
    (hconfigured : p ∉ w.openFiles.configuredRoots) (hheld : w.holding? id = some held)
    (hcontains : held.Contains p) (hyields : held.kind = .inferred → Unclaimed w.holding? p) :
    Placed kept spared (w.assign p id).registry (w.assign p id).holding? := by
  have hholding : (w.assign p id).holding? = w.holding? :=
    congrArg Roster.holding? ((calm_modifyOpenFiles ..).trans (calm_setOwner ..)).roster
  have hmodified (f : OpenFiles → OpenFiles) : (w.modifyOpenFiles f).isOpen p ∨ some id = none :=
    .inl hopen
  rw [hholding]
  unfold assign
  dsimp only
  rw [registry_setOwner (hmodified _)]
  split
  · rename_i hhas
    obtain ⟨held', hheld', hmem⟩ := projectHas_isRoot.mp hhas
    exact h.joinConfigured hroot hreferenced hheld' hmem
  · exact h.joinReferenced hroot hreferenced hconfigured hheld hcontains hyields

/-- A root that another project has goes there, and any other one is in no other project. -/
theorem demote_placed {ps : List Path} (hw : w.Enlisted)
    (hplanted : Planted first guests w.registry)
    (h : Placed kept (fun q _ => q ∈ root :: ps) w.registry w.holding?) (detached : List Path) :
    let after := (demote (w, detached) root).1
    Placed kept (fun q _ => q ∈ ps) after.registry after.holding? := by
  rcases demote_cases w detached root with ⟨hsame, hnone⟩ | ⟨id, hroot, hreaching, hdemoted⟩
  · rw [hsame]
    refine { h with alone := fun q hq i held hheld hcontains => ?_ }
    by_cases hqr : q = root
    · subst q
      exact .inl (reachingProject?_eq_none hw (hnone hq) hheld hcontains)
    · exact (h.alone q hq i held hheld hcontains).imp_right fun hspared =>
        (List.mem_cons.mp hspared).resolve_left hqr
  · obtain ⟨hne, held, hheld, hcontains, hyields⟩ := reachingProject?_eq_some hw hreaching
    obtain ⟨hreferenced, hconfigured⟩ := notMem_unseat_of_placed h root
    have hgone := hplanted.notMem_unseat root
    rw [← registry_unseat] at hgone
    have hopen : (w.unseat root).isOpen root := by
      rw [← registry_isOpen, registry_unseat, Registry.unseat, isOpen_evict]
      exact hplanted.isOpen root hroot
    have hunseated := (placed_unseat h root).sparing (fun q _ => q ∈ ps)
      fun q hq _ hspared => (List.mem_cons.mp hspared).resolve_left fun hqr => hgone (hqr ▸ hq)
    dsimp only
    rw [hdemoted, registry_emit]
    refine assign_placed hopen hunseated hgone hreferenced hconfigured
      (holding?_unseat_eq_some.mpr ⟨hne.symm, hheld⟩) hcontains
      fun hkind i held' hheld' hkind' hcontains' => ?_
    -- among the inferred ones the project was found only as no configured one was
    obtain ⟨hi, hheld'⟩ := holding?_unseat_eq_some.mp hheld'
    exact hi (hyields hkind i held' hheld' hkind' hcontains')

theorem foldl_demote_placed {ps : List Path} (hw : w.Enlisted)
    (hplanted : Planted first guests w.registry)
    (h : Placed kept (fun q _ => q ∈ ps) w.registry w.holding?) (detached : List Path) :
    let after := (ps.foldl demote (w, detached)).1
    Placed kept unspared after.registry after.holding? := by
  induction ps generalizing w detached with
  | nil => exact h.sparing _ fun q _ _ hspared => by simp at hspared
  | cons root ps ih =>
      have hplanted' := demote_planted hplanted detached root
      have hplaced := demote_placed hw hplanted h detached
      have hw' := hw.shifts (shifts_demote (w, detached) root)
      rw [List.foldl_cons]
      generalize demote (w, detached) root = state at hplanted' hplaced hw' ⊢
      obtain ⟨w', detached'⟩ := state
      exact ih hw' hplanted' hplaced detached'

/-! ### Projects and documents that nobody needs -/

theorem dissolve_placed (hplanted : Planted first [] w.registry) (hid : ¬w.registry.IsInferred id)
    (hw : w.Enlisted) (h : Placed kept unspared w.registry w.holding?) :
    Placed kept unspared (w.dissolve id).registry (w.dissolve id).holding? ∧
      Retains (w.registry.strike id) (w.dissolve id).registry := by
  have hremoved : Shifts w (w.removeProject id).1 := .removeProject w id
  have hregistry := (removeProject_eq w id).1
  have hplanted' : Planted first [] (w.removeProject id).1.registry := by
    rw [hregistry]
    exact hplanted.dissolve hid
  have hplaced : Placed kept unspared (w.removeProject id).1.registry
      (w.removeProject id).1.holding? := by
    rw [hregistry, holding?_removeProject]
    exact h.strike fun _ => isLive_of_holding?
  rw [← hregistry]
  exact reattach_placed hplanted' (hw.shifts hremoved) hplaced _

/-- Projects that are not inferred are gone for good once they are removed. -/
theorem foldl_dissolve_placed (ids : List ProjectId) (hplanted : Planted first [] w.registry)
    (hids : ∀ id ∈ ids, w.NotInferred id) (hw : w.Enlisted)
    (h : Placed kept unspared w.registry w.holding?) :
    let after := ids.foldl dissolve w
    Placed kept unspared after.registry after.holding? ∧ Retains w.registry after.registry ∧
      ∀ id ∈ ids, ∀ c, after.registry.charter? id = some c → c.kind = .inferred := by
  induction ids generalizing w with
  | nil => exact ⟨h, .refl _, by simp⟩
  | cons gone ids ih =>
      have hgone := (hids gone (by simp)).not_isInferred
      have hdissolved := shifts_dissolve w gone
      obtain ⟨hplaced, hretains⟩ := dissolve_placed hplanted hgone hw h
      obtain ⟨hrest, hretains', hdead⟩ := ih (dissolve_planted hplanted hgone)
        (fun id hid => (hids id (by simp [hid])).dissolve hw gone) (hw.shifts hdissolved) hplaced
      refine ⟨hrest, ((Retains.strike w.registry gone).trans hretains).trans hretains',
        fun id hid c hc => ?_⟩
      rcases List.mem_cons.mp hid with rfl | hid
      · -- what comes while its documents are attached anew is inferred
        by_contra hkind
        obtain ⟨former, hformer, -⟩ := (hretains.trans hretains') id c hc hkind
        simp [Registry.strike] at hformer
      · exact hdead id hid c hc

/-- Every configured project that is left counts an open document. -/
theorem prune_placed (hplanted : Planted first [] w.registry) (hw : w.Enlisted)
    (h : Placed kept unspared w.registry w.holding?) :
    Placed kept unspared w.prune.registry w.prune.holding? ∧
      ∀ id c, w.prune.registry.charter? id = some c → c.kind ≠ .inferred → c.openCount ≠ 0 := by
  obtain ⟨hplaced, hretains, hdead⟩ := foldl_dissolve_placed
    (w.configured.filter fun id => w.projectHas id (·.openCount = 0)) hplanted
    (fun id hid => notInferred_of_mem_configured hw (List.mem_filter.mp hid).1) hw h
  refine ⟨hplaced, fun id c hc hkind hunused => ?_⟩
  -- a project that counts none now did not count any before, so that it was removed
  obtain ⟨former, hformer, hkind', hle⟩ := hretains id c hc hkind
  refine hkind (hdead id (List.mem_filter.mpr ⟨?_, ?_⟩) c hc)
  · have hconfigured : w.registry.IsConfigured id := ⟨former, hformer, hkind'⟩
    exact (hw.orderly.configured id).mpr (has_iff.mp hconfigured)
  · obtain ⟨project, hproject, rfl⟩ := Option.map_eq_some_iff.mp hformer
    have hcount : project.openCount ≤ c.openCount := hle
    simp only [projectHas, hproject, Option.any_some, decide_eq_true_eq]
    omega

/-- Where each document stands in one list, every configured project that is left counts an open one. -/
theorem openCount_prune (ht : t.live) (hsound : Sound t w.registry loose [] guests) {c : Charter}
    (hc : w.prune.registry.charter? id = some c) (hkind : c.kind ≠ .inferred) :
    c.openCount ≠ 0 := by
  obtain ⟨hc, hused⟩ := charter?_prune hsound hc
  intro hunused
  refine hused (List.mem_filter.mpr ⟨hsound.configured ht id c hc hkind, ?_⟩)
  obtain ⟨project, hproject, rfl⟩ := Option.map_eq_some_iff.mp hc
  have hunused : project.openCount = 0 := hunused
  simp [projectHas, hproject, hunused]

theorem roster_sweep (w : Workspace) : w.sweep.roster = w.roster := by
  unfold sweep
  dsimp only
  generalize w.documents.paths.filter _ = orphans
  induction orphans generalizing w with
  | nil => rfl
  | cons p orphans ih =>
      rw [List.foldl_cons, ih]
      exact (forget_contents w p).2.1

/-- Whatever is still tracked is open or has a project. -/
theorem isTracked_sweep (hkeys : w.projects.keys.Nodup) (h : w.sweep.isTracked p) :
    w.isOpen p ∨ ∃ id, w.projectHas id (·.contains p) := by
  have hforgotten (orphans : List Path) (w : Workspace)
      (h : (orphans.foldl forget w).isTracked p) : w.isTracked p ∧ p ∉ orphans := by
    induction orphans generalizing w with
    | nil => exact ⟨h, by simp⟩
    | cons q orphans ih =>
        obtain ⟨htracked, hp⟩ := ih _ h
        obtain ⟨htracked, hpq⟩ := ((forget_contents w q).2.2.2.2 p).mp htracked
        exact ⟨htracked, by simp [hpq, hp]⟩
  unfold sweep at h
  obtain ⟨htracked, hkept⟩ := hforgotten _ w h
  by_contra hunneeded
  rw [not_or] at hunneeded
  obtain ⟨hclosed, hfree⟩ := hunneeded
  refine hkept (List.mem_filter.mpr ⟨mem_paths_iff.mpr htracked, ?_⟩)
  have hnone : w.projects.values.any (·.contains p) = false := by
    refine List.any_eq_false.mpr fun project hproject hcontains => hfree ?_
    obtain ⟨id, hid⟩ := (Table.mem_values_iff hkeys).mp hproject
    exact ⟨id, by simp [projectHas, hid, hcontains]⟩
  simp [hclosed, hnone]

/-! ### Settling -/

/-- Every place is right: who belongs to whom follows from the projects, and nothing is there that nobody
needs. -/
structure Settled (w : Workspace) : Prop where
  roots : ∀ p ∈ w.openFiles.roots, ∃ id project, w.owner? p = some id ∧
    w.projects.get? id = some project ∧ project.kind = .inferred ∧ project.roots = [p] ∧
    ∀ i, w.projectHas i (·.contains p) → i = id
  referenced : ∀ p ∈ w.openFiles.referenced, ∃ id, w.owner? p = some id ∧
    w.projectHas id (·.contains p)
  configuredRoots : ∀ p ∈ w.openFiles.configuredRoots, ∃ id, w.owner? p = some id ∧
    w.projectHas id fun project => project.isConfigured && project.isRoot p
  used : ∀ id project, w.projects.get? id = some project → project.isConfigured →
    0 < project.openCount
  fresh : ∀ id project, w.projects.get? id = some project → project.isStale = false
  needed : ∀ p, w.isTracked p → w.isOpen p ∨ ∃ id, w.projectHas id (·.contains p)

/-- Where an inferred project has a document that a configured one has as well, it is a referenced file that
it had before. -/
def Defers (w w' : Workspace) : Prop :=
  ∀ p id i, w'.isOpen p → w'.owner? p = some id →
    w'.projectHas id (fun project => project.kind = .inferred) →
    w'.projectHas i (fun project => project.isConfigured && project.contains p) →
    (p ∈ w.openFiles.referenced ∧ w.owner? p = some id) ∧
      p ∈ w'.openFiles.referenced ∧ w'.projectHas id (·.contains p)

/-- Only what is needed is there. -/
structure Trimmed (w : Workspace) : Prop where
  used : ∀ id c, w.registry.charter? id = some c → c.kind ≠ .inferred → c.openCount ≠ 0
  needed : ∀ p, w.isTracked p → w.isOpen p ∨ ∃ id, w.projectHas id (·.contains p)

theorem holding_of_projectHas {test : Project → Bool} {property : Holding → Prop}
    (htest : ∀ project, test project ↔ property project.holding) (h : w.projectHas id test) :
    ∃ held, w.holding? id = some held ∧ property held := by
  obtain ⟨project, hproject, htested⟩ := Option.any_eq_true .. |>.mp h
  exact ⟨project.holding, by simp [holding?, hproject], (htest project).mp htested⟩

theorem not_own_configuredRoots (hseated : Seated w.registry none single)
    (hp : p ∈ w.openFiles.configuredRoots) (howner : w.owner? p = some id)
    (hheld : w.holding? id = some held) (hroot : p ∈ held.roots) : held.kind ≠ .inferred := by
  intro hkind
  have hhas : w.registry.Has id fun kind roots => kind = .inferred ∧ p ∈ roots :=
    has_iff.mpr ⟨held, hheld, hkind, hroot⟩
  obtain ⟨c, hc, hkind', hmem⟩ := hhas
  obtain ⟨q, hroots, hq⟩ := hseated.inferred id c hc hkind' (by simp)
  obtain rfl : p = q := by simpa [hroots] using hmem
  exact hseated.configured p hp ⟨id, howner, c, hc, hkind', hroots⟩

theorem settled_of_placed (hseated : Seated w.registry none single)
    (h : Placed kept unspared w.registry w.holding?) (htrimmed : w.Trimmed) : w.Settled where
  roots p hp := by
    obtain ⟨id, howner, hhas⟩ := hseated.own p hp
    obtain ⟨held, hheld, hkind, hroots⟩ := has_iff.mp hhas
    obtain ⟨project, hproject, rfl⟩ := Option.map_eq_some_iff.mp hheld
    refine ⟨id, project, howner, hproject, hkind, hroots, fun i hi => ?_⟩
    obtain ⟨held, hheld, hcontains⟩ := projectHas_contains.mp hi
    have howner' := (h.alone p hp i held hheld hcontains).resolve_right not_false
    exact Option.some.inj (howner'.symm.trans howner)
  referenced p hp := by
    obtain ⟨id, held, howner, hheld, hcontains⟩ := h.referenced p hp
    exact ⟨id, howner, projectHas_contains.mpr ⟨held, hheld, hcontains⟩⟩
  configuredRoots p hp := by
    obtain ⟨id, held, howner, hheld, hroot⟩ := h.configuredRoots p hp
    have hkind := not_own_configuredRoots hseated hp howner hheld hroot
    obtain ⟨project, hproject, rfl⟩ := Option.map_eq_some_iff.mp hheld
    have hroot' : p ∈ project.roots := hroot
    refine ⟨id, howner, ?_⟩
    simp [projectHas, hproject, Project.isConfigured_iff.mpr hkind, Project.isRoot, hroot']
  used id project hproject hconfigured := by
    have hused := htrimmed.used id project.charter (by simp [registry, hproject])
      (Project.isConfigured_iff.mp hconfigured)
    exact Nat.pos_of_ne_zero hused
  fresh id project hproject := h.fresh id project.holding (by simp [holding?, hproject])
  needed := htrimmed.needed

/-- Once the projects and documents that nobody needs are gone all are needed. -/
theorem prune_sweep_placed (hplanted : Planted first [] w.registry) (hw : w.Enlisted)
    (h : Placed kept unspared w.registry w.holding?) :
    Placed kept unspared w.prune.sweep.registry w.prune.sweep.holding? ∧
      w.prune.sweep.Trimmed := by
  have hholding : w.prune.sweep.holding? = w.prune.holding? :=
    congrArg Roster.holding? (roster_sweep w.prune)
  have hregistry := registry_sweep (prune_planted hplanted hw).owned_open
  have hisOpen : w.prune.sweep.isOpen = w.prune.isOpen := congrArg Registry.isOpen hregistry
  obtain ⟨hplaced, hused⟩ := prune_placed hplanted hw h
  refine ⟨?_, ⟨?_, fun p hp => ?_⟩⟩
  · rwa [hregistry, hholding]
  · rwa [hregistry]
  · rw [hisOpen]
    refine (isTracked_sweep (hw.shifts (shifts_prune w)).distinct hp).imp_right fun ⟨id, hid⟩ => ⟨id, ?_⟩
    rw [projectHas_contains, hholding]
    exact projectHas_contains.mp hid

theorem regroup_placed (hplanted : Planted first [] w.registry) (hw : w.Enlisted)
    (hfresh : ∀ id held, w.holding? id = some held → held.isStale = false) :
    Placed (fun p id => p ∈ w.openFiles.referenced ∧ w.owner? p = some id) unspared
      w.regroup.1.registry w.regroup.1.holding? :=
  foldl_demote_placed (hw.shifts (shifts_detaching w)) (detaching_planted hplanted)
    (detachUnless_placed hfresh) _

/-- Settling gives every open document its place. -/
theorem settle_placed (hplanted : Planted first [] w.registry) (hw : w.Enlisted) :
    Placed (fun p id => p ∈ w.openFiles.referenced ∧ w.owner? p = some id) unspared
      w.settle.registry w.settle.holding? ∧ w.settle.Trimmed := by
  have hregistry := registry_refresh w
  have hreferenced : w.refresh.openFiles.referenced = w.openFiles.referenced :=
    congrArg (·.openFiles.referenced) hregistry
  have howner : w.refresh.owner? = w.owner? := congrArg Registry.owner? hregistry
  rw [← hregistry] at hplanted
  have hplaced := regroup_placed hplanted (hw.shifts (shifts_refresh w)) (fresh_refresh w)
  rw [howner, hreferenced] at hplaced
  have hregrouping := (shifts_refresh w).trans (shifts_regroup w.refresh)
  have hreattaching := shifts_reattach w.refresh.regroup.1 w.refresh.regroup.2
  have hregrouped := hw.shifts hregrouping
  have hplanted' := regroup_planted hplanted
  rw [settle_eq]
  exact prune_sweep_placed (reattach_planted hplanted' _) (hregrouped.shifts hreattaching)
    (reattach_placed hplanted' hregrouped hplaced _).1

/-- After settling every place is right. -/
theorem settle_settled (ht : t.live) (hsound : Sound t w.registry [] [] guests)
    (hseated : Seated w.registry none single) (hw : w.Enlisted) : w.settle.Settled := by
  obtain ⟨hplaced, htrimmed⟩ := settle_placed (hseated.planted 0 hsound) hw
  exact settled_of_placed (settle_seated ht hsound hseated) hplaced htrimmed

theorem defers_of_placed (hsound : Sound t w'.registry [] [] []) (hseated : Seated w'.registry none single)
    (h : Placed (fun p id => p ∈ w.openFiles.referenced ∧ w.owner? p = some id) unspared w'.registry
      w'.holding?) : w.Defers w' := by
  intro p id i hopen howner hinferred hclaimed
  obtain ⟨held, hheld, hkind⟩ : ∃ held, w'.holding? id = some held ∧
      held.kind = .inferred :=
    holding_of_projectHas (fun _ => decide_eq_true_iff) hinferred
  obtain ⟨claimer, hclaimer, hconfigured, hcontains⟩ : ∃ held, w'.holding? i = some held ∧
      held.kind ≠ .inferred ∧ held.Contains p :=
    holding_of_projectHas (fun project => by
      rw [Bool.and_eq_true, Project.isConfigured_iff, Project.contains_iff]
      rfl) hclaimed
  have hall := listed_of_isOpen hsound hopen
  simp only [OpenFiles.all, List.mem_append] at hall
  rcases hall with (hroot | hreferenced) | hconfiguredRoot
  · have howner' := (h.alone p hroot i claimer hclaimer hcontains).resolve_right not_false
    obtain rfl : i = id := Option.some.inj (howner'.symm.trans howner)
    exact absurd (Option.some.inj (hheld.symm.trans hclaimer) ▸ hkind) hconfigured
  · obtain ⟨j, held', howner', hheld', hcontains'⟩ := h.referenced p hreferenced
    obtain rfl : j = id := Option.some.inj (howner'.symm.trans howner)
    refine ⟨(h.yields p hreferenced j held howner hheld hkind).resolve_right fun hunclaimed =>
      hunclaimed i claimer hclaimer hconfigured hcontains, hreferenced, ?_⟩
    exact projectHas_contains.mpr ⟨held', hheld', hcontains'⟩
  · obtain ⟨j, held', howner', hheld', hmem⟩ := h.configuredRoots p hconfiguredRoot
    obtain rfl : j = id := Option.some.inj (howner'.symm.trans howner)
    exact absurd (Option.some.inj (hheld.symm.trans hheld') ▸ hkind)
      (not_own_configuredRoots hseated hconfiguredRoot howner hheld' hmem)

theorem settle_defers (ht : t.live) (hsound : Sound t w.registry [] [] [])
    (hseated : Seated w.registry none single) (hw : w.Enlisted) : w.Defers w.settle :=
  defers_of_placed (settle_sound hsound) (settle_seated ht hsound hseated)
    (settle_placed (hseated.planted 0 hsound) hw).1

/-! ### Runs -/

/-- What every step keeps that takes no document away from its project. -/
structure Tended (n : Normalizer) (w : Workspace) : Prop where
  sound : Sound (.owning n) w.registry [] [] []
  seated : Seated w.registry none []
  steady : Steady False n w

theorem tended_run (settings : Settings) {scanner : Scanner} {fs : FileSystem} {ops : List Operation}
    (hrobs : ({ settings, scanner, fs } : Workspace).Avoids ops Robs) :
    Tended scanner.normalizer (({ settings, scanner, fs } : Workspace).run ops) where
  sound := sound_of_avoids_robs hrobs
  seated := run_seated (t := .owning scanner.normalizer) trivial (fun honce => honce)
    (sound_empty rfl) seated_empty hrobs
  steady := steady_run steady_empty False.elim False.elim

/-- Where no step of a run robs a project, settling puts everything in its place. With an absolute base
directory no step does. -/
theorem settled_run (settings : Settings) (scanner : Scanner) (fs : FileSystem)
    (ops : List Operation) :
    let start : Workspace := { settings, scanner, fs }
    (start.Avoids ops Robs → (start.run ops).settle.Settled) ∧
      (scanner.normalizer.base.isAbsolute → (start.run ops).settle.Settled) := by
  intro start
  have hsettled (hrobs : start.Avoids ops Robs) : (start.run ops).settle.Settled := by
    obtain ⟨hsound, hseated, hsteady⟩ := tended_run settings hrobs
    exact settle_settled trivial hsound hseated hsteady.enlisted
  exact ⟨hsettled, fun hbase => hsettled (avoids_robs_of_isAbsolute hbase)⟩

/-- With a relative base directory a document can be given the project of another one. Settling then leaves
it among the roots of configured projects, with an inferred one. -/
example :
    let path (names : List String) : Path := ⟨names.map .name⟩
    let start : Workspace :=
      { settings := {}
        scanner := ⟨.empty, ⟨path ["w"], true⟩⟩
        fs := FileSystem.ofFiles [(path ["w", "a"], []), (path ["w", "w", "a"], [])] }
    let w := (start.run [.openFile (path ["a"]) none, .openFile (path ["w", "a"]) none,
      .adoptProjectFor (path ["a"])]).settle
    w.openFiles.configuredRoots = [path ["w", "a"]] ∧
      (w.projects.get? 1).map (·.kind) = some .inferred ∧
      w.owner? (path ["w", "a"]) = some 1 := by
  decide +kernel

/-- In such a run settling leaves a document with an inferred project that a configured one reaches into only
if it was a referenced file of it before. -/
theorem defers_run (settings : Settings) (scanner : Scanner) (fs : FileSystem)
    (ops : List Operation) :
    let start : Workspace := { settings, scanner, fs }
    (start.Avoids ops Robs → (start.run ops).Defers (start.run ops).settle) ∧
      (scanner.normalizer.base.isAbsolute → (start.run ops).Defers (start.run ops).settle) := by
  intro start
  have hdefers (hrobs : start.Avoids ops Robs) : (start.run ops).Defers (start.run ops).settle := by
    obtain ⟨hsound, hseated, hsteady⟩ := tended_run settings hrobs
    exact settle_defers trivial hsound hseated hsteady.enlisted
  exact ⟨hdefers, fun hbase => hdefers (avoids_robs_of_isAbsolute hbase)⟩

/-- A reference is all that follows a sign. -/
def signScanner : Scanner :=
  let letters (first last : Char) : Pattern := .set ⟨[.range first last], false⟩
  ⟨.seq (letters '@' '@') (.group 1 (.star true (letters '/' 'z'))), ⟨.root, true⟩⟩

/-- Two files refer to a third one, and a manifest lists one of the two. -/
def sharedFile : FileSystem :=
  let path (names : List String) : Path := ⟨.root :: names.map .name⟩
  FileSystem.ofFiles [(path ["a"], "@c".toList), (path ["c"], []),
    (path ["m", "project.toml"], "files = ['b']".toList), (path ["m", "b"], "@/c".toList)]

/-- The file that is referred to is opened before the manifest is found. -/
def sharing : List Operation :=
  [.openFile ⟨[.root, .name "a"]⟩ none, .openFile ⟨[.root, .name "c"]⟩ none,
    .openFile ⟨[.root, .name "m", .name "b"]⟩ none]

/-- No document belongs to an inferred project that a configured one reaches. -/
def ConfiguredFirst (w : Workspace) : Prop :=
  ∀ p id, w.isOpen p → w.owner? p = some id →
    w.projectHas id (fun project => project.kind = .inferred) →
    ∀ i, ¬w.projectHas i (fun project => project.isConfigured && project.contains p)

/-- Settling does not take a referenced file away from the inferred project that it has. -/
theorem not_configuredFirst_settle : ¬∀ (settings : Settings) (scanner : Scanner) (fs : FileSystem)
    (ops : List Operation),
    (({ settings, scanner, fs } : Workspace).run ops).settle.ConfiguredFirst := by
  intro h
  exact h {} signScanner sharedFile sharing ⟨[.root, .name "c"]⟩ 1 (by decide +kernel)
    (by decide +kernel) (by decide +kernel) 2 (by decide +kernel)

/-- The file that the two projects share was a referenced file before, of the project that it keeps. -/
theorem defers_run_sharing :
    let c : Path := ⟨[.root, .name "c"]⟩
    let w := ({ settings := {}, scanner := signScanner, fs := sharedFile } : Workspace).run sharing
    (c ∈ w.openFiles.referenced ∧ w.owner? c = some 1) ∧
      c ∈ w.settle.openFiles.referenced ∧ w.settle.projectHas 1 (·.contains c) :=
  (defers_run {} signScanner sharedFile sharing).2 (by decide) ⟨[.root, .name "c"]⟩ 1 2
    (by decide +kernel) (by decide +kernel) (by decide +kernel) (by decide +kernel)

end Workspace

end ProjectTracker
