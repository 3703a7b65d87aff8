import ProjectTracker.Proofs.Workspace.Purposes
import ProjectTracker.Proofs.Workspace.Rereading
/-!
A manifest that appears or changes takes over the roots of inferred projects that it lists. Its project is made, all
manifests are read again, and settling then gives such a root to a configured project: to the new one, or to another
one that has the root as well.
-/

namespace ProjectTracker.Workspace

open Registry

variable {t : Terms} {n : Normalizer} {w w' w'' : Workspace} {loose guests detached single : List Path}
  {p root : Path} {id : ProjectId} {held : Holding} {suits : Holding → Prop}

/-- A document belongs to a configured project that contains it, and is the root of no inferred one. -/
structure Claimed (w : Workspace) (p : Path) : Prop where
  unrooted : p ∉ w.openFiles.roots
  owned : ∃ id held, w.owner? p = some id ∧ w.holding? id = some held ∧ held.kind ≠ .inferred ∧
    held.Contains p

/-! ### Settling -/

/-- A configured project stays what it is as roots go from one project to another. -/
theorem holds_foldl_demote (ht : t.live) (hkind : ∀ held, suits held → held.kind ≠ .inferred) (ps : List Path)
    (hsound : Sound t w.registry (detached ++ loose) [] guests) (h : w.Holds id suits) :
    (ps.foldl demote (w, detached)).1.Holds id suits := by
  induction ps generalizing w detached with
  | nil => exact h
  | cons root ps ih =>
      have hdemoted := demote_sound hsound root
      have hholds : (demote (w, detached) root).1.Holds id suits := by
        rcases demote_cases w detached root with ⟨hsame, -⟩ | ⟨i, hroot, -, hgiven⟩
        · rw [hsame]
          exact h
        · have hholding : (((w.unseat root).assign root i).emit
              (.contextChanged root (some i))).holding? = (w.unseat root).holding? :=
            congrArg Roster.holding? ((calm_modifyOpenFiles ..).trans (calm_setOwner ..)).roster
          unfold Holds
          rw [hgiven, hholding]
          exact h.unseat (hsound.owner?_ne ht (h.isConfigured hkind) hroot)
      rw [List.foldl_cons]
      generalize demote (w, detached) root = state at hdemoted hholds ⊢
      exact ih hdemoted hholds

theorem regroup_sound (h : Sound t w.registry [] [] guests) :
    Sound t.settled w.regroup.1.registry (w.regroup.2 ++ []) [] guests :=
  foldl_demote_sound _ (detachUnless_sound h)

theorem regroup_seated (hsound : Sound t w.registry [] [] guests) (h : Seated w.registry none single) :
    Seated w.regroup.1.registry none single :=
  foldl_demote_seated _ (detachUnless_sound hsound) (detachUnless_seated h)

theorem holds_regroup (ht : t.live) (hkind : ∀ held, suits held → held.kind ≠ .inferred)
    (hsound : Sound t w.registry [] [] guests) (h : w.Holds id suits) : w.regroup.1.Holds id suits := by
  refine holds_foldl_demote (t := t.settled) ht hkind _ (detachUnless_sound hsound) ?_
  obtain ⟨held, hheld, hsuits⟩ := h
  refine ⟨held, ?_, hsuits⟩
  rw [holding?_foldl_detachUnless, holding?_foldl_detachUnless]
  exact hheld

/-- Where a project goes that counts no open document the others stay, and every document has the one that it
had. -/
theorem foldl_dissolve_spares {unused : List ProjectId} (h : Sound t w.registry loose [] guests)
    (hunused : ∀ id ∈ unused, ∀ c, w.registry.charter? id = some c → c.openCount = 0) (hid : id ∉ unused) :
    (unused.foldl dissolve w).owner? = w.owner? ∧ (unused.foldl dissolve w).holding? id = w.holding? id := by
  induction unused generalizing w with
  | nil => exact ⟨rfl, rfl⟩
  | cons gone unused ih =>
      obtain ⟨hregistry, -⟩ := openFiles_dissolve h (hunused gone (by simp))
      have hmembers := members_of_unused h (hunused gone (by simp))
      have howner : (w.dissolve gone).owner? = w.owner? := by
        rw [← registry_owner?, hregistry]
        simp [strike, hmembers]
      have hholding : (w.dissolve gone).holding? id = w.holding? id := by
        have hdissolved : w.dissolve gone = (w.removeProject gone).1 := by
          unfold dissolve
          dsimp only
          rw [(removeProject_eq w gone).2, hmembers]
          rfl
        rw [hdissolved, holding?_removeProject]
        exact if_neg fun heq => hid (by simp [heq])
      obtain ⟨howner', hholding'⟩ := ih (w := w.dissolve gone) (dissolve_sound h gone) (fun i hi c hc => by
        rw [hregistry] at hc
        exact hunused i (by simp [hi]) c (charter?_strike_eq_some.mp hc).2) fun hmem => hid (by simp [hmem])
      exact ⟨howner'.trans howner, hholding'.trans hholding⟩

/-- The project of a document is not one that nobody needs. -/
theorem prune_spares (h : Sound t w.registry loose [] guests) (howner : w.owner? p = some id)
    (hheld : w.holding? id = some held) : w.prune.owner? p = some id ∧ w.prune.holding? id = some held := by
  have hid : id ∉ w.configured.filter fun id => w.projectHas id (·.openCount = 0) := fun hunused => by
    obtain ⟨project, hproject, -⟩ := Option.map_eq_some_iff.mp hheld
    have hc : w.registry.charter? id = some project.charter := by simp [registry, hproject]
    exact h.openCount_ne_zero howner hc (openCount_of_unused hunused hc)
  obtain ⟨hsame, hholding⟩ := foldl_dissolve_spares h (fun _ hid _ hc => openCount_of_unused hid hc) hid
  unfold prune
  dsimp only
  rw [hsame, hholding]
  exact ⟨howner, hheld⟩

theorem Claimed.sweep (h : w.Claimed p) (hsound : Sound t w.registry loose [] guests) : w.sweep.Claimed p := by
  have hregistry := registry_sweep hsound.owned_open
  obtain ⟨hroot, id, held, howner, hheld, hclaims⟩ := h
  refine ⟨?_, id, held, ?_, ?_, hclaims⟩
  · rw [← registry_openFiles, hregistry]
    exact hroot
  · rw [← registry_owner?, hregistry]
    exact howner
  · rw [← roster_holding?, roster_sweep]
    exact hheld

/-- With every place right, the document of a configured project belongs to such a project, unless it was a
referenced file before. -/
theorem claimed_of_placed (hsound : Sound (.owning n) w'.registry [] [] [])
    (hseated : Seated w'.registry none single)
    (h : Placed (fun p id => p ∈ w.openFiles.referenced ∧ w.owner? p = some id) unspared w'.registry
      w'.holding?)
    (hopen : w'.isOpen p) (hreferenced : p ∉ w.openFiles.referenced)
    (hclaims : w'.Holds id fun held => held.kind ≠ .inferred ∧ p ∈ held.roots) : w'.Claimed p := by
  obtain ⟨claimer, hclaimer, hconfigured, hroot⟩ := hclaims
  obtain ⟨i, howner⟩ : ∃ i, w'.owner? p = some i := by
    by_contra hnone
    have hunowned := hsound.unowned p hopen (Option.eq_none_iff_forall_ne_some.mpr fun i hi => hnone ⟨i, hi⟩)
    simp at hunowned
  obtain ⟨held, hheld, hcontains⟩ := contains_of_owner? h hseated (listed_of_isOpen hsound hopen) howner
  have hyields : held.kind ≠ .inferred := by
    intro hinferred
    obtain ⟨project, hproject, rfl⟩ := Option.map_eq_some_iff.mp hheld
    obtain ⟨other, hother, rfl⟩ := Option.map_eq_some_iff.mp hclaimer
    have hkind : project.kind = .inferred := hinferred
    have hhas : w'.projectHas i fun project => project.kind = .inferred := by
      simp [projectHas, hproject, hkind]
    have hclaims : w'.projectHas id fun project => project.isConfigured && project.contains p := by
      simp [projectHas, hother, Project.isConfigured_iff.mpr hconfigured,
        Project.contains_iff.mpr (.inr hroot)]
    exact hreferenced (defers_of_placed hsound hseated h p i id hopen howner hhas hclaims).1.1
  exact ⟨fun hp => hsound.owner?_ne (t := .owning n) trivial (has_iff.mpr ⟨held, hheld, hyields⟩) hp howner,
    i, held, howner, hheld, hyields, hcontains⟩

theorem Claimed.prune (h : w.Claimed p) (hsound : Sound t w.registry loose [] guests) : w.prune.Claimed p := by
  obtain ⟨hunrooted, id, held, howner, hheld, hclaims⟩ := h
  obtain ⟨howner', hheld'⟩ := prune_spares hsound howner hheld
  exact ⟨by rwa [openFiles_prune hsound], id, held, howner', hheld', hclaims⟩

/-- Settling gives the root of a configured project to such a project, unless it is a referenced file already. -/
theorem settle_claimed (h : Tended n w) (hopen : w.isOpen p) (hreferenced : p ∉ w.openFiles.referenced)
    (hclaims : w.registry.Has id fun kind roots => kind ≠ .inferred ∧ p ∈ roots) : w.settle.Claimed p := by
  have hsound : Sound (.owning n) w.refresh.registry [] [] [] := (registry_refresh w).symm ▸ h.sound
  have hseated : Seated w.refresh.registry none [] := (registry_refresh w).symm ▸ h.seated
  have hplanted : Planted 0 [] w.refresh.registry := hseated.planted 0 hsound
  have hregrouping := (shifts_refresh w).trans (shifts_regroup w.refresh)
  have hregrouped := h.steady.enlisted.shifts hregrouping
  let suits (held : Holding) : Prop := held.kind ≠ .inferred ∧ p ∈ held.roots
  have hkind : ∀ held, suits held → held.kind ≠ .inferred := fun _ hheld => hheld.1
  -- the project that claims the document outlasts everything before the unused projects go
  have hholds : w.Holds id suits := has_iff.mp hclaims
  have hholds' : w.refresh.regroup.1.Holds id suits :=
    holds_regroup (t := .owning n) trivial hkind hsound (hholds.refresh fun _ _ hheld _ => hheld)
  have hsound' := regroup_sound hsound
  have hreattached := reattach_sound hsound'
  have hholds'' : (w.refresh.regroup.1.reattach w.refresh.regroup.2).Holds id suits := reattach_endures
    (endures_holds (t := .owning n) trivial [] id hkind fun _ _ hheld _ => hheld)
    (regroup_planted hplanted) hregrouped hsound' hholds'
  have hseated' : Seated (w.refresh.regroup.1.reattach w.refresh.regroup.2).registry none [] :=
    reattach_seated (t := .owning n) trivial hsound' (regroup_seated hsound hseated)
  have hplaced := (reattach_placed (regroup_planted hplanted) hregrouped
    (regroup_placed hplanted (h.steady.enlisted.shifts (shifts_refresh w)) (fresh_refresh w))
    w.refresh.regroup.2).1
  have hsettled : w.settle.isOpen = w.isOpen := oversees_isOpen.governs.settle w
  rw [settle_eq] at hsettled ⊢
  generalize w.refresh.regroup.1.reattach w.refresh.regroup.2 = v at *
  have hpruned : v.prune.isOpen = v.isOpen := oversees_isOpen.governs.prune v
  have hisOpen : v.isOpen p := by
    rw [← hpruned, ← oversees_isOpen.sweep v.prune, hsettled]
    exact hopen
  have hreferenced' : p ∉ w.refresh.openFiles.referenced := by
    rwa [← registry_openFiles, registry_refresh]
  have hclaimed := claimed_of_placed hreattached hseated' hplaced hisOpen hreferenced' hholds''
  exact (hclaimed.prune hreattached).sweep (prune_sound hreattached)

/-! ### The file as a document -/

/-- A text may have been read again, so that projects are stale now. -/
structure Rereads (w w' : Workspace) : Prop where
  registry : w'.registry = w.registry
  fs : w'.fs = w.fs
  scanner : w'.scanner = w.scanner
  settings : w'.settings = w.settings
  holding? : ∀ id held, w.holding? id = some held → ∃ isStale, w'.holding? id = some { held with isStale }

theorem Rereads.refl (w : Workspace) : Rereads w w :=
  ⟨rfl, rfl, rfl, rfl, fun _ held h => ⟨held.isStale, h⟩⟩

theorem Rereads.trans (h : Rereads w w') (h' : Rereads w' w'') : Rereads w w'' where
  registry := h'.registry.trans h.registry
  fs := h'.fs.trans h.fs
  scanner := h'.scanner.trans h.scanner
  settings := h'.settings.trans h.settings
  holding? id held hheld := by
    obtain ⟨isStale, hheld'⟩ := h.holding? id held hheld
    exact h'.holding? id { held with isStale } hheld'

theorem Rereads.claimed (h : Rereads w w') (hclaimed : w.Claimed p) : w'.Claimed p := by
  obtain ⟨hunrooted, id, held, howner, hheld, hclaims⟩ := hclaimed
  obtain ⟨isStale, hheld'⟩ := h.holding? id held hheld
  refine ⟨?_, id, _, ?_, hheld', hclaims⟩
  · rw [← registry_openFiles, h.registry]
    exact hunrooted
  · rw [← registry_owner?, h.registry]
    exact howner

theorem rereads_markStaleAround (w : Workspace) (p : Path) : Rereads w (w.markStaleAround p) := by
  refine ⟨registry_markStaleAround w p, rfl, rfl, rfl, fun id held hheld => ?_⟩
  obtain ⟨project, hproject, rfl⟩ := Option.map_eq_some_iff.mp hheld
  unfold holding? markStaleAround
  rw [Table.get?_map, hproject]
  by_cases hcontains : project.contains p
  · exact ⟨true, by simp [hcontains, Project.markStale, Project.holding]⟩
  · exact ⟨project.isStale, by simp [hcontains, Project.holding]⟩

/-- A file that can be read is not gone as a document. -/
theorem rereads_documentChanged {change : FileChange} (hchange : change ≠ .deleted)
    (htext : (w.fs.text? p).isSome) : Rereads w (w.documentChanged p change) := by
  obtain ⟨text, htext⟩ := Option.isSome_iff_exists.mp htext
  unfold documentChanged
  rw [if_neg hchange, htext]
  split
  · exact .refl w
  · dsimp only
    split
    · exact .refl w
    · rename_i d hd
      have hmodified : Rereads w (w.modifyDocument p fun _ => (d.reloadIfChanged text).1) :=
        ⟨registry_modify_retexted hd (d.retexts_reloadIfChanged text), rfl, rfl, rfl,
          fun _ held hheld => ⟨held.isStale, hheld⟩⟩
      split
      · have hmarked := hmodified.trans (rereads_markStaleAround _ p)
        exact ⟨hmarked.registry, hmarked.fs, hmarked.scanner, hmarked.settings, hmarked.holding?⟩
      · exact hmodified

theorem tended_documentChanged (h : Tended n w) (p : Path) (change : FileChange) :
    Tended n (w.documentChanged p change) :=
  ⟨documentChanged_sound (t := .owning n) h.sound p change,
    documentChanged_seated (t := .owning n) trivial h.sound h.seated p change,
    steady_documentChanged h.steady p change⟩

section

variable {change : FileChange} {purposes : List WatchPurpose}
  (hpurposes : ∀ purpose ∈ purposes, purpose = .document p)

include hpurposes

theorem rereads_foldl_respond (hchange : change ≠ .deleted) (htext : (w.fs.text? p).isSome) :
    Rereads w (purposes.foldl (respond p change) w) := by
  induction purposes generalizing w with
  | nil => exact .refl w
  | cons purpose purposes ih =>
      obtain rfl := hpurposes purpose (by simp)
      have hfirst := rereads_documentChanged hchange htext
      refine hfirst.trans (ih (fun purpose hpurpose => hpurposes purpose (by simp [hpurpose])) ?_)
      exact hfirst.fs.symm ▸ htext

theorem tended_foldl_respond (h : Tended n w) : Tended n (purposes.foldl (respond p change) w) :=
  List.foldlRecOn _ _ h fun v h purpose hpurpose => by
    rw [hpurposes purpose hpurpose]
    exact tended_documentChanged h p change

end

/-! ### The file as a manifest -/

theorem projectOfManifest?_eq_none
    (hinferred : ∀ id project, w.projects.get? id = some project → project.kind = .inferred) (p : Path) :
    w.projectOfManifest? p = none := by
  refine List.find?_eq_none.mpr fun id _ hhas => ?_
  obtain ⟨project, hproject, hmanifest⟩ := Option.any_eq_true .. |>.mp hhas
  simp [Project.manifest?, hinferred id project hproject] at hmanifest

/-- A manifest without a project gets one, if it lists the root of an inferred project. -/
theorem discoverManifest_eq (hnone : w.projectOfManifest? p = none) (hroot : root ∈ w.openFiles.roots)
    (hlisted : root ∈ (Manifest.read w.fs w.normalizer (.ofPath p)).roots) :
    w.discoverManifest p = ((w.readManifest p none).1.createConfigured p
      (Manifest.read w.fs w.normalizer (.ofPath p))).reload := by
  have htakes : (w.readManifest p none).1.takesOver p (Manifest.read w.fs w.normalizer (.ofPath p)) := by
    refine List.any_eq_true.mpr ⟨root, ?_, by simp [hlisted]⟩
    rw [← registry_openFiles, registry_readManifest]
    exact hroot
  unfold discoverManifest
  rw [hnone, if_neg (by simp)]
  exact if_pos (Bool.and_eq_true_iff.mpr ⟨Manifest.Outcome.definesProject_of_mem hlisted, htakes⟩)

/-- A manifest that appears claims the roots of inferred projects that it lists, if there is no configured project
so far. -/
theorem discoverManifest_claimed (h : Tended n w)
    (hinferred : ∀ id project, w.projects.get? id = some project → project.kind = .inferred)
    (hroot : root ∈ w.openFiles.roots)
    (hlisted : root ∈ (Manifest.read w.fs w.normalizer (.ofPath p)).roots) :
    (w.discoverManifest p).Claimed root := by
  have hdefines : (Manifest.read w.fs w.normalizer (.ofPath p)).definesProject :=
    Manifest.Outcome.definesProject_of_mem hlisted
  have hread := tended_readManifest h p none
  have hregistry := registry_readManifest w p none
  have hdiscovered := discoverManifest_eq (projectOfManifest?_eq_none hinferred p) hroot hlisted
  rw [← (calm_readManifest w p none).read_manifest p] at hdefines hlisted hdiscovered
  generalize (w.readManifest p none).1 = v at hread hregistry hdefines hlisted hdiscovered
  have habreast : v.Abreast := fun id c manifest hc hkind => by
    rw [hregistry] at hc
    obtain ⟨project, hproject, rfl⟩ := Option.map_eq_some_iff.mp hc
    have hkind' : project.kind = .configured manifest := hkind
    simp [hinferred id project hproject] at hkind'
  obtain ⟨hgrown, habreast'⟩ := createConfigured_abreast habreast p
  have hcreated : Tended n (v.createConfigured p (Manifest.read v.fs v.normalizer (.ofPath p))) :=
    hread.shifts (createConfigured_sound hread.sound p _)
      (createConfigured_seated hread.sound hread.seated p _) (shifts_createConfigured ..)
  obtain ⟨project, hproject, hkind, hfollows⟩ := follows_createConfigured v p hdefines
  obtain ⟨reloaded, hreload, hreloaded, hgrown'⟩ := reload_abreast hcreated habreast'
  have hopen : v.isOpen root := hread.sound.isOpen_of_mem_roots (hregistry.symm ▸ hroot)
  have hopen' : reloaded.isOpen root := by
    rw [← registry_isOpen, hgrown'.isOpen, hgrown.isOpen]
    exact hopen
  have hreferenced : root ∉ reloaded.openFiles.referenced := by
    rw [← registry_openFiles, hgrown'.openFiles, hgrown.openFiles, hregistry]
    exact fun hreferenced => (h.seated.apart root hreferenced).1 (h.seated.own root hroot)
  have hclaims : reloaded.registry.Has (v.lastProject + 1)
      fun kind roots => kind ≠ .inferred ∧ root ∈ roots := by
    generalize v.createConfigured p _ = created at hcreated hproject hgrown'
    have hcharter : created.registry.charter? (v.lastProject + 1) = some project.charter := by
      simp [registry, hproject]
    refine ⟨project.charter, ?_, fun hinferred => ?_, (hfollows.roots root).mpr ⟨hlisted, .inl ?_⟩⟩
    · rw [hgrown'.charter? _ (hcreated.sound.live_le _ (by simp [IsLive, hcharter]))]
      exact hcharter
    · have hkind' : project.kind = .inferred := hinferred
      simp [hkind] at hkind'
    · exact isTracked_of_isOpen hopen
  rw [hdiscovered, hreload]
  exact settle_claimed hreloaded hopen' hreferenced hclaims

/-- Somebody waits for manifests above the root of every inferred project. -/
theorem lookout_of_root (hbalanced : Outlook.Balanced w.outlook [] []) (hwaits : w.WaitsAbove)
    (h : Seated w.registry none single) (hroot : root ∈ w.openFiles.roots) {dir : Path}
    (hdir : dir ∈ root.ancestors) : (w.lookouts.get? dir).isSome := by
  obtain ⟨id, -, c, hc, hkind, hroots⟩ := h.own root hroot
  obtain ⟨project, hproject, rfl⟩ := Option.map_eq_some_iff.mp hc
  obtain ⟨top, hsub, hlookouts⟩ :=
    (hwaits id project.charter project.post hc (by simp [outlook, hproject])).1 hkind
  obtain rfl : root = top := by
    rw [hroots] at hsub
    simpa using hsub
  have hwaiter : id ∈ w.outlook.waiters dir := ⟨project.post, by simp [outlook, hproject], hlookouts ▸ hdir⟩
  have husers := hbalanced.users dir
  have hpos : 0 < (w.outlook.waiters dir).ncard :=
    (Set.ncard_pos (hbalanced.finite_waiters dir)).mpr ⟨id, hwaiter⟩
  have hget : w.outlook.lookouts.get? dir ≠ none := fun hnone => by
    simp only [Outlook.users, hnone, Option.map_none, Option.getD_none, List.count_nil,
      Nat.add_zero] at husers
    omega
  exact Option.isSome_iff_ne_none.mpr hget

/-- Where there is no configured project, what waits for a file besides the directory is the document. -/
theorem purposesAt_around (haccounted : w.WatchesAccounted) (horderly : w.fs.watches.Orderly)
    (hinferred : ∀ id project, w.projects.get? id = some project → project.kind = .inferred) {dir : Path}
    (hparent : p.parent? = some dir) (hlookout : (w.lookouts.get? dir).isSome) :
    ∃ before after, w.purposesAt p = before ++ .lookout dir :: after ∧
      (∀ purpose ∈ before, purpose = .document p) ∧ ∀ purpose ∈ after, purpose = .document p := by
  obtain ⟨before, after, hpurposes⟩ := List.append_of_mem
    ((lookout_mem_purposesAt_iff haccounted horderly).mpr ⟨hparent, hlookout⟩)
  have hnodup := nodup_purposesAt w p
  have honly : ∀ purpose ∈ w.purposesAt p, purpose ≠ .lookout dir → purpose = .document p := by
    intro purpose hpurpose hne
    refine (purposesAt_of_inferred haccounted horderly hinferred hpurpose).resolve_right ?_
    rintro ⟨other, hother, rfl⟩
    exact hne (congrArg _ (Option.some.inj (hother.symm.trans hparent)))
  rw [hpurposes] at hnodup honly
  obtain ⟨-, hafter, hapart⟩ := List.nodup_append.mp hnodup
  exact ⟨before, after, hpurposes,
    fun purpose hpurpose =>
      honly purpose (by simp [hpurpose]) fun heq => hapart purpose hpurpose _ (by simp) heq,
    fun purpose hpurpose =>
      honly purpose (by simp [hpurpose]) fun heq => (List.nodup_cons.mp hafter).1 (heq ▸ hpurpose)⟩

theorem fileChanged_claimed {change : FileChange} (h : Tended n w) (hbalanced : Outlook.Balanced w.outlook [] [])
    (horderly : w.fs.watches.Orderly) (hwaits : w.WaitsAbove)
    (hinferred : ∀ id project, w.projects.get? id = some project → project.kind = .inferred)
    (hchange : change ≠ .deleted) (hname : w.isManifestName (w.normalize p)) {dir : Path}
    (hparent : (w.normalize p).parent? = some dir) (hroot : root ∈ w.openFiles.roots)
    (hdir : dir ∈ root.ancestors)
    (hlisted : root ∈ (Manifest.read w.fs w.normalizer (.ofPath (w.normalize p))).roots) :
    (w.fileChanged p change).Claimed root := by
  obtain ⟨before, after, hpurposes, hbefore, hafter⟩ :=
    purposesAt_around (watchesAccounted_of_balanced hbalanced) horderly hinferred hparent
      (lookout_of_root hbalanced hwaits h.seated hroot hdir)
  obtain ⟨text, htext⟩ :=
    Manifest.read_of_definesProject (Manifest.Outcome.definesProject_of_mem hlisted)
  have htext : (w.fs.text? (w.normalize p)).isSome := by
    unfold FileSystem.text?
    rw [htext]
    rfl
  unfold fileChanged
  dsimp only
  generalize w.normalize p = manifest at *
  have hrereads := rereads_foldl_respond hbefore hchange htext
  have htended : Tended n (before.foldl (respond manifest change) w) := tended_foldl_respond hbefore h
  rw [hpurposes, List.foldl_append, List.foldl_cons]
  generalize before.foldl (respond manifest change) w = v at hrereads htended ⊢
  have hname' : v.isManifestName manifest := by
    unfold isManifestName
    rw [hrereads.settings]
    exact hname
  have hresponds : respond manifest change v (.lookout dir) = v.discoverManifest manifest :=
    if_pos ⟨hchange, hname'⟩
  have hclaimed : (v.discoverManifest manifest).Claimed root := by
    refine discoverManifest_claimed htended (fun id project hproject => ?_) ?_ ?_
    · have hc : w.registry.charter? id = some project.charter := by
        rw [← hrereads.registry]
        simp [registry, hproject]
      obtain ⟨former, hformer, hsame⟩ := Option.map_eq_some_iff.mp hc
      exact (congrArg Charter.kind hsame).symm.trans (hinferred id former hformer)
    · rw [← registry_openFiles, hrereads.registry]
      exact hroot
    · show root ∈ (Manifest.read v.fs v.scanner.normalizer (.ofPath manifest)).roots
      rw [hrereads.fs, hrereads.scanner]
      exact hlisted
  have hframe := (evolves_discoverManifest htended.steady.enlisted manifest).frame
  have htext' : ((v.discoverManifest manifest).fs.text? manifest).isSome := by
    rw [hframe.text?, hrereads.fs]
    exact htext
  rw [hresponds]
  exact (rereads_foldl_respond hafter hchange htext').claimed hclaimed

/-! ### The former project -/

/-- An inferred project gets no other root as long as it lives, and its id is not given out again. -/
theorem Proceeds.charter? {strict : Prop} {unsaid : Path → Prop} (h : Proceeds strict unsaid w w')
    {c : Charter} (hid : id ≤ w.lastProject) (hc : w.registry.charter? id = some c)
    (hkind : c.kind = .inferred) (c' : Charter) (hc' : w'.registry.charter? id = some c') :
    c'.kind = .inferred ∧ c'.roots ⊆ c.roots := by
  let stays (r : Registry) : Prop := id ≤ r.lastProject ∧ ∀ c', r.charter? id = some c' →
    c'.kind = .inferred ∧ c'.roots ⊆ c.roots
  have henroll {r : Registry} (hr : stays r) (kind : ProjectKind) (roots : List Path) :
      stays (r.enroll kind roots) := by
    refine ⟨Nat.le_succ_of_le hr.1, fun c' hc' => hr.2 c' ?_⟩
    rwa [(Registry.Grown.enroll r kind roots).charter? id hr.1] at hc'
  have hstart : stays w.registry := ⟨hid, fun c' hc' => by
    obtain rfl := Option.some.inj (hc.symm.trans hc')
    exact ⟨hkind, List.Subset.refl _⟩⟩
  refine (h.keeps (fun v => stays v.registry) (fun v v' hbeside hv => ?_) (fun v p text hp hv => ?_)
    (fun v p hv => ?_) (fun v p hp hv => ?_) (fun v i hv => ?_) (fun v root hv => ?_)
    (fun v manifest roots settings _ hv => ?_) hstart).2 c' hc'
  · refine ⟨le_of_le_of_eq hv.1 hbeside.lastProject.symm, fun c' hc' => ?_⟩
    obtain ⟨project', hproject', rfl⟩ := Option.map_eq_some_iff.mp hc'
    have hpost : v.outlook.post? id = some project'.post := by
      rw [← hbeside.outlook]
      simp [outlook, hproject']
    obtain ⟨project, hproject, hsame⟩ := Option.map_eq_some_iff.mp hpost
    obtain ⟨hinferred, hroots⟩ := hv.2 project.charter (by simp [registry, hproject])
    have hinferred' : project'.kind = .inferred := (congrArg Post.kind hsame).symm.trans hinferred
    obtain ⟨former, hformer, hsub⟩ := hbeside.roots id project' hproject' hinferred'
    obtain rfl := Option.some.inj (hproject.symm.trans hformer)
    exact ⟨hinferred', fun q hq => hroots (hsub hq)⟩
  · rwa [registry_track hp]
  · rwa [registry_unwatch]
  · obtain ⟨-, hroster, -⟩ := forget_contents v p
    have hlast : (v.forget p).lastProject = v.lastProject := congrArg Roster.lastProject hroster
    refine ⟨le_of_le_of_eq hv.1 hlast.symm, fun c' hc' => hv.2 c' ?_⟩
    simpa [registry, projects_forget] using hc'
  · rw [(removeProject_eq v i).1]
    exact ⟨hv.1, fun c' hc' => hv.2 c' (charter?_strike_eq_some.mp hc').2⟩
  · rw [registry_enterInferred]
    exact henroll hv ..
  · rw [registry_enterConfigured]
    exact henroll hv ..

/-- Once its root is claimed an inferred project is gone. -/
theorem Claimed.former_gone {strict : Prop} {unsaid : Path → Prop} {former : ProjectId}
    (hclaimed : w'.Claimed root) (h : Tended n w) (hseated' : Seated w'.registry none [])
    (hproceeds : Proceeds strict unsaid w w') (hroot : root ∈ w.openFiles.roots)
    (howner : w.owner? root = some former) : w'.projects.get? former = none := by
  obtain ⟨-, i, held, howner', hheld, hkind, -⟩ := hclaimed
  obtain ⟨c, hc, hinferred, hroots⟩ := (h.seated.own root hroot).of_owner howner
  have hle : former ≤ w.lastProject := h.sound.owner_le root former howner
  by_contra hlive
  obtain ⟨project, hproject⟩ := Option.ne_none_iff_exists'.mp hlive
  have hc' : w'.registry.charter? former = some project.charter := by simp [registry, hproject]
  obtain ⟨hinferred', hsub⟩ := hproceeds.charter? hle hc hinferred project.charter hc'
  obtain ⟨p, hp, howns⟩ := hseated'.inferred former project.charter hc' hinferred' (by simp)
  -- it could only have the root that it had, and that belongs to another project now
  obtain rfl : p = root := by
    rw [hp, hroots] at hsub
    simpa using hsub
  obtain rfl : i = former := Option.some.inj (howner'.symm.trans howns)
  obtain ⟨project', hproject', rfl⟩ := Option.map_eq_some_iff.mp hheld
  obtain rfl := Option.some.inj (hproject.symm.trans hproject')
  exact hkind hinferred'

/-- Where there is no configured project so far, a manifest that appears or changes takes over the roots that it
lists. The watches of the file system have to be left to the workspace, and no step of the run may have robbed a
project, which none does with an absolute base directory. -/
theorem takeover_run (settings : Settings) (scanner : Scanner) (fs : FileSystem) (ops : List Operation) :
    let start : Workspace := { settings, scanner, fs }
    let w := start.run ops
    (fs.watches = {} → start.Avoids ops Meddles → start.Avoids ops Robs →
      (∀ id project, w.projects.get? id = some project → project.kind = .inferred) →
        ∀ m change, change ≠ .deleted →
          let manifest := w.normalize m
          let after := w.fileChanged m change
          w.isManifestName manifest → ∀ root ∈ w.openFiles.roots,
            (∃ dir, manifest.parent? = some dir ∧ dir ∈ root.ancestors) →
              root ∈ (Manifest.read w.fs w.normalizer (.ofPath manifest)).roots →
                (∃ id project, after.owner? root = some id ∧ after.projects.get? id = some project ∧
                  project.kind ≠ .inferred ∧ project.contains root) ∧
                root ∉ after.openFiles.roots ∧
                ∃ former, w.owner? root = some former ∧ (w.projects.get? former).isSome ∧
                  after.projects.get? former = none) ∧
      (scanner.normalizer.base.isAbsolute → start.Avoids ops Robs) := by
  intro start w
  refine ⟨fun hfs hops hrobs hinferred m change hchange => ?_, avoids_robs_of_isAbsolute⟩
  intro manifest after hname root hroot hdir hlisted
  have htended : Tended scanner.normalizer w := tended_run settings hrobs
  obtain ⟨dir, hparent, hdir⟩ := hdir
  have hclaimed : after.Claimed root :=
    fileChanged_claimed htended (balanced_run settings hfs hops) (orderly_run settings hfs hops)
      (waitsAbove_run settings hops) hinferred hchange hname hparent hroot hdir hlisted
  have hseated : Seated after.registry none [] :=
    fileChanged_seated (t := .owning scanner.normalizer) trivial htended.sound htended.seated m change
  have hproceeds : Proceeds False (fun _ => True) w after :=
    leads_fileChanged w m change ⟨htended.steady.enlisted, False.elim⟩
  obtain ⟨former, howner, c, hc, -⟩ := htended.seated.own root hroot
  obtain ⟨project, hproject, -⟩ := Option.map_eq_some_iff.mp hc
  have hgone := hclaimed.former_gone htended hseated hproceeds hroot howner
  obtain ⟨hunrooted, id, held, howner', hheld, hkind, hcontains⟩ := hclaimed
  obtain ⟨taker, htaker, rfl⟩ := Option.map_eq_some_iff.mp hheld
  exact ⟨⟨id, taker, howner', htaker, hkind, Project.contains_iff.mpr hcontains⟩, hunrooted,
    former, howner, by simp [hproject], hgone⟩

/-- After two documents are opened a manifest is written that lists one of them. -/
def listingLater : List Operation :=
  let path (names : List String) : Path := ⟨names.map .name⟩
  agreeing ++ [.replaceFiles
    ((nested.run agreeing).fs.write (.ofPath (path ["w", "project.toml"])) "files = ['../a']".toList)]

theorem takeover_run_listingLater :
    let path (names : List String) : Path := ⟨names.map .name⟩
    let root := path ["w", "a"]
    let w := nested.run listingLater
    let after := w.fileChanged (path ["project.toml"]) .created
    (nested.Avoids listingLater Meddles ∧ nested.Avoids listingLater Robs) ∧
      (root ∈ w.openFiles.roots ∧ w.owner? root = some 1) ∧
      (∃ id project, after.owner? root = some id ∧ after.projects.get? id = some project ∧
        project.kind ≠ .inferred ∧ project.contains root) ∧
      root ∉ after.openFiles.roots ∧ after.openFiles.roots = [path ["w", "b"]] ∧ after.projects.keys = [2, 3] := by
  intro path
  have hops : nested.Avoids listingLater Meddles := by decide +kernel
  have hrobs : nested.Avoids listingLater Robs := by decide +kernel
  have hkinds : ∀ entry ∈ (nested.run listingLater).projects.entries, entry.2.kind = .inferred := by
    decide +kernel
  have hroot : path ["w", "a"] ∈ (nested.run listingLater).openFiles.roots := by decide +kernel
  have hrun := takeover_run {} nested.scanner nested.fs listingLater
  -- with the start spelled in two ways the run would be evaluated where what follows is compared
  have hstart : ({ settings := {}, scanner := nested.scanner, fs := nested.fs } : Workspace) = nested := rfl
  rw [hstart] at hrun
  have htaken := hrun.1 (by decide +kernel) hops hrobs
    (fun id project hproject => hkinds (id, project) (Table.mem_entries_of_get? hproject))
    (path ["project.toml"]) .created (by decide) (by decide +kernel) (path ["w", "a"]) hroot
    ⟨path ["w"], by decide +kernel, by decide +kernel⟩ (by decide +kernel)
  exact ⟨⟨hops, hrobs⟩, ⟨hroot, by decide +kernel⟩, htaken.1, htaken.2.1, by decide +kernel, by decide +kernel⟩

/-- With a relative base directory a document can outlive its project as a root, and then nobody waits for manifests
above it. -/
example :
    let path (names : List String) : Path := ⟨names.map .name⟩
    let above (p : Path) : Path := ⟨.parent :: p.components⟩
    let a := path ["d", "a"]
    let manifest := path ["d", "project.toml"]
    let start : Workspace :=
      { settings := {}
        scanner := ⟨.empty, ⟨path ["w"], true⟩⟩
        fs := FileSystem.ofFiles [(above a, []), (a, []), (path ["w", "d", "a"], [])] }
    let w := start.run [.openFile (above (above a)) none, .openFile (above a) none, .openFile a none,
      .adoptProjectFor (above (above a)), .adoptProjectFor (above a), .closeFile (above (above a))]
    let written := { w with fs := w.fs.write (.ofPath manifest) "files = ['../../d/a']".toList }
    (Manifest.read written.fs written.normalizer (.ofPath manifest)).roots = [a] ∧
      a ∈ (written.fileChanged (above manifest) .created).openFiles.roots := by
  decide +kernel

end ProjectTracker.Workspace
