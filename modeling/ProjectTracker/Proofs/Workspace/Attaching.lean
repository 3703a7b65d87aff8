import ProjectTracker.Proofs.Workspace.Recursion
/-!
Attaching a document puts it where it should be and leaves the others where they should be, however deep it goes.
-/

namespace ProjectTracker

namespace Registry

variable {r r' r'' : Registry} {p root : Path} {id : ProjectId}

/-- No configured project has come, and none counts fewer open documents than before. -/
def Retains (r r' : Registry) : Prop :=
  ∀ id c', r'.charter? id = some c' → c'.kind ≠ .inferred →
    ∃ c, r.charter? id = some c ∧ c.kind ≠ .inferred ∧ c.openCount ≤ c'.openCount

namespace Retains

theorem refl (r : Registry) : Retains r r :=
  fun _ c hc hkind => ⟨c, hc, hkind, Nat.le_refl _⟩

theorem trans (h : Retains r r') (h' : Retains r' r'') : Retains r r'' := by
  intro id c'' hc'' hkind''
  obtain ⟨c', hc', hkind', hle'⟩ := h' id c'' hc'' hkind''
  obtain ⟨c, hc, hkind, hle⟩ := h id c' hc' hkind'
  exact ⟨c, hc, hkind, Nat.le_trans hle hle'⟩

theorem strike (r : Registry) (id : ProjectId) : Retains r (r.strike id) :=
  fun _ c hc hkind => ⟨c, (charter?_strike_eq_some.mp hc).2, hkind, Nat.le_refl _⟩

theorem enroll_inferred (r : Registry) (roots : List Path) :
    Retains r (r.enroll .inferred roots) := by
  intro id c hc hkind
  simp only [Registry.enroll] at hc
  split at hc
  · obtain rfl := Option.some.inj hc
    exact absurd rfl hkind
  · exact ⟨c, hc, hkind, Nat.le_refl _⟩

/-- A document without a live project comes to one. -/
theorem setOwner (h : ∀ id, r.owner? p = some id → r.charter? id = none)
    (owner? : Option ProjectId) : Retains r (r.setOwner p owner?) := by
  intro id c' hc' hkind
  rw [setOwner_charter?] at hc'
  split at hc'
  · obtain ⟨c, hc, rfl⟩ := Option.map_eq_some_iff.mp hc'
    have hne : r.owner? p ≠ some id := fun howner => by simp [h id howner] at hc
    refine ⟨c, hc, hkind, ?_⟩
    simp only [recount, if_neg hne]
    split
    · exact Nat.le_refl _
    · split
      · exact Nat.le_succ _
      · exact Nat.le_refl _
  · exact ⟨c', hc', hkind, Nat.le_refl _⟩

end Retains

/-- As the root of an inferred project leaves it no live project is left to it. -/
theorem charter?_unseat_owner (h : (r.unseat root).owner? root = some id) :
    (r.unseat root).charter? id = none := by
  unfold Registry.unseat at h ⊢
  cases howner : r.owner? root with
  | none =>
      rw [howner] at h
      exact absurd (howner.symm.trans h) (by simp)
  | some former =>
      rw [howner] at h
      have hformer := (owner?_strike_eq_some.mp h).2
      obtain rfl : former = id := Option.some.inj (howner.symm.trans hformer)
      simp [evict, Registry.strike]

theorem retains_unseat (r : Registry) (root : Path) : Retains r (r.unseat root) := by
  unfold Registry.unseat
  cases r.owner? root with
  | none => exact .refl r
  | some former => exact .strike (r.modifyOpenFiles (·.removeRoot root)) former

/-- A project takes a root over. -/
theorem retains_absorb (r : Registry) (id : ProjectId) (root : Path) :
    Retains r (r.absorb id root).1 :=
  (retains_unseat r root).trans (.setOwner (fun _ => charter?_unseat_owner) (some id))

end Registry

namespace Workspace

open Registry

variable {w w' v : Workspace} {kept spared : Path → ProjectId → Prop} {waiting ps : List Path}
  {p q root : Path} {first first' id former : ProjectId} {held : Holding}

/-! ### Taking over roots -/

/-- The root of an inferred project leaves it, and the project goes. -/
theorem placed_unseat (h : Placed kept spared w.registry w.holding?) (root : Path) :
    Placed kept spared (w.unseat root).registry (w.unseat root).holding? := by
  have hbelow := h.below (OpenFiles.below_removeRoot _ root)
  rw [registry_unseat, holding?_unseat, Registry.unseat, registry_owner?]
  cases w.owner? root with
  | none => exact hbelow
  | some former =>
      have hlive (held : Holding) (hheld : w.holding? former = some held) :
          w.registry.IsLive former := isLive_of_holding? hheld
      have hstruck := hbelow.strike hlive
      simp only [Option.some.injEq]
      simp only [eq_comm (a := former)]
      exact hstruck

/-- A document without a live project is in no list of documents that another project has. -/
theorem notMem_of_placed (h : Placed kept spared w.registry w.holding?)
    (hdead : ∀ i held, w.owner? p = some i → w.holding? i ≠ some held) :
    p ∉ w.openFiles.referenced ∧ p ∉ w.openFiles.configuredRoots := by
  constructor
  · intro hp
    obtain ⟨i, held, howner, hheld, -⟩ := h.referenced p hp
    exact hdead i held howner hheld
  · intro hp
    obtain ⟨i, held, howner, hheld, -⟩ := h.configuredRoots p hp
    exact hdead i held howner hheld

theorem notMem_unseat_of_placed (h : Placed kept spared w.registry w.holding?) (root : Path) :
    root ∉ (w.unseat root).openFiles.referenced ∧
      root ∉ (w.unseat root).openFiles.configuredRoots := by
  refine notMem_of_placed (placed_unseat h root) fun i held howner hheld => ?_
  have howner' : (w.registry.unseat root).owner? root = some i := by
    rw [← registry_unseat]
    exact howner
  obtain ⟨c, hc⟩ := Option.isSome_iff_exists.mp (isLive_of_holding? hheld)
  rw [registry_unseat, charter?_unseat_owner howner'] at hc
  simp at hc

/-- Documents that stand where they should are in their projects. -/
theorem prepared_of_placed (hplanted : Planted first [] w.registry)
    (h : Placed kept spared w.registry w.holding?) (hready : Ready first w) : Prepared first w := by
  refine ⟨hready, h.fresh, fun q hall i held howner hfirst hheld => ?_⟩
  simp only [OpenFiles.all, List.mem_append] at hall
  rcases hall with (hroot | hreferenced) | hconfigured
  · have hown := (hplanted.own q hroot).resolve_right fun hold =>
      absurd (hold.2 i howner) (Nat.not_lt_of_le hfirst)
    obtain ⟨held', hheld', -, hroots⟩ := has_iff.mp (hown.of_owner howner)
    obtain rfl : held' = held := Option.some.inj (hheld'.symm.trans hheld)
    exact .inr (by simp [hroots])
  · obtain ⟨j, held', howner', hheld', hcontains⟩ := h.referenced q hreferenced
    obtain rfl : j = i := Option.some.inj (howner'.symm.trans howner)
    exact Option.some.inj (hheld'.symm.trans hheld) ▸ hcontains
  · obtain ⟨j, held', howner', hheld', hmem⟩ := h.configuredRoots q hconfigured
    obtain rfl : j = i := Option.some.inj (howner'.symm.trans howner)
    exact Option.some.inj (hheld'.symm.trans hheld) ▸ .inr hmem

/-- A new project takes over roots that it reaches, and documents stand where they should. -/
structure Adopting (kept : Path → ProjectId → Prop) (first id : ProjectId) (p : Path)
    (waiting : List Path) (w : Workspace) : Prop where
  taking : Taking first id p waiting w
  placed : Placed kept (fun q i => q ∈ waiting ∧ i = id) w.registry w.holding?
  claims : ∀ q ∈ waiting, ∀ i held, w.holding? i = some held → held.kind ≠ .inferred →
    held.Contains q → w.owner? q = some i
  sole : ∀ i held, w.holding? i = some held → held.Contains p → i = id

namespace Adopting

variable {detached : List Path}

/-- The root is a referenced file of the new project then. -/
theorem placed_absorb (h : Adopting kept first id p (root :: waiting) w) :
    Placed kept (fun q i => q ∈ waiting ∧ i = id) (absorb id (w, detached) root).1.registry
      (absorb id (w, detached) root).1.holding? := by
  have hne := h.taking.uprooting.owner?_head_ne
  have hgone := h.taking.uprooting.planted.notMem_unseat root
  obtain ⟨hreferenced, hconfigured⟩ := notMem_unseat_of_placed h.placed root
  obtain ⟨heldId, hheldId, -, hfiles⟩ := h.taking.held
  have hunseated := placed_unseat h.placed root
  -- a configured project that has the root is the one that it had to leave
  have hunclaimed : Unclaimed (w.unseat root).holding? root := by
    intro i held hheld hkind hcontains
    obtain ⟨hi, hheld⟩ := holding?_unseat_eq_some.mp hheld
    exact hi (h.claims root (by simp) i held hheld hkind hcontains)
  rw [registry_unseat] at hunseated
  rw [← registry_openFiles, registry_unseat] at hreferenced hconfigured
  have hjoined := hunseated.joinReferenced hgone hreferenced hconfigured
    (holding?_unseat_eq_some.mpr ⟨hne, hheldId⟩) (.inl (hfiles root (by simp))) fun _ => hunclaimed
  rw [holding?_absorb, (absorb_eq id detached (h.taking.uprooting.isOpen root (by simp))).1]
  refine hjoined.sparing _ fun q hq i hspared => ⟨?_, hspared.2⟩
  exact (List.mem_cons.mp hspared.1).resolve_left fun hqr => hgone (hqr ▸ hq)

theorem absorb (h : Adopting kept first id p (root :: waiting) w) :
    Adopting kept first id p waiting (absorb id (w, detached) root).1 := by
  have hregistry := (absorb_eq id detached (h.taking.uprooting.isOpen root (by simp))).1
  refine ⟨h.taking.absorb, h.placed_absorb, fun q hq i held hheld hkind hcontains => ?_,
    fun i held hheld hcontains => ?_⟩
  · rw [holding?_absorb] at hheld
    obtain ⟨hi, hheld⟩ := holding?_unseat_eq_some.mp hheld
    have howner := h.claims q (by simp [hq]) i held hheld hkind hcontains
    have hqr : q ≠ root := fun hqr =>
      (List.nodup_cons.mp h.taking.uprooting.nodup).1 (hqr ▸ hq)
    rw [← registry_owner?, hregistry]
    show (if q = root then some id else (w.registry.unseat root).owner? q) = some i
    rw [if_neg hqr, owner?_unseat_of_ne fun heq => hi (heq.symm.trans howner)]
    exact howner
  · rw [holding?_absorb] at hheld
    exact h.sole i held (holding?_unseat_eq_some.mp hheld).2 hcontains

theorem foldl (h : Adopting kept first id p waiting w) (detached : List Path) :
    let after := waiting.foldl (Workspace.absorb id) (w, detached)
    Adopting kept first id p [] after.1 ∧ Retains w.registry after.1.registry := by
  induction waiting generalizing w detached with
  | nil => exact ⟨h, .refl _⟩
  | cons root waiting ih =>
      have hstep : Adopting kept first id p waiting (Workspace.absorb id (w, detached) root).1 :=
        h.absorb
      have hretains : Retains w.registry (Workspace.absorb id (w, detached) root).1.registry := by
        rw [(absorb_eq id detached (h.taking.uprooting.isOpen root (by simp))).1]
        exact retains_absorb _ _ _
      rw [List.foldl_cons]
      generalize Workspace.absorb id (w, detached) root = state at hstep hretains ⊢
      obtain ⟨w', detached'⟩ := state
      obtain ⟨hrest, hretains'⟩ := ih hstep detached'
      exact ⟨hrest, hretains.trans hretains'⟩

end Adopting

/-! ### Founding projects -/

/-- The documents that have a place keep it as another one is given a new project. -/
theorem Founds.placed {files : List Path} {founded : Workspace} (hfounds : Founds p files w founded)
    (hroot : p ∉ w.openFiles.roots) (hreferenced : p ∉ w.openFiles.referenced)
    (hconfigured : p ∉ w.openFiles.configuredRoots) (hw : w.Enlisted)
    (h : Placed kept unspared w.registry w.holding?) :
    Placed kept (fun q i => q ∈ w.reachedRoots founded ∧ i = w.lastProject + 1) founded.registry
      founded.holding? := by
  rw [hfounds.registry, funext hfounds.holding?_eq]
  have henrolled := h.enroll ⟨.inferred, [p], files, false⟩ hw.holding?_next rfl rfl
  have hsame : Placed kept _ (w.registry.enroll .inferred [p]) _ := henrolled.of_eq rfl rfl
  have howned := hsame.setOwner (some (w.lastProject + 1)) hroot hreferenced
    fun hp => absurd hp hconfigured
  exact howned.sparing _ fun q hq i hspared => ⟨hfounds.mem_reachedRoots.mpr ⟨hq, hspared.1⟩, hspared.2⟩

/-- The new project takes over roots from then on. -/
theorem Founds.adopting {files : List Path} {founded : Workspace} (hfounds : Founds p files w founded)
    (hplanted : Planted first [] w.registry) (hopen : w.isOpen p)
    (hroot : p ∉ w.openFiles.roots) (hreferenced : p ∉ w.openFiles.referenced)
    (hconfigured : p ∉ w.openFiles.configuredRoots)
    (h : Placed kept unspared w.registry w.holding?) (hready : Ready first w)
    (hnone : ∀ id held, w.holding? id = some held → ¬held.Contains p) :
    Adopting kept first (w.lastProject + 1) p (w.reachedRoots founded) founded := by
  refine ⟨hfounds.taking hplanted hopen hroot (prepared_of_placed hplanted h hready),
    hfounds.placed hroot hreferenced hconfigured hready.enlisted h,
    fun q hq i held hheld hkind hcontains => ?_, fun i held hheld hcontains => ?_⟩
  · have hq := (hfounds.mem_reachedRoots.mp hq).1
    rw [hfounds.holding?_eq] at hheld
    split at hheld
    · exact absurd (congrArg Holding.kind (Option.some.inj hheld)).symm hkind
    · rw [hfounds.owner?_of_mem_roots hroot hq]
      exact (h.alone q hq i held hheld hcontains).resolve_right not_false
  · rw [hfounds.holding?_eq] at hheld
    split at hheld
    · assumption
    · exact absurd hcontains (hnone i held hheld)

/-- A document that no project has is given one of its own. -/
theorem foundProject_placed (hplanted : Planted first [] w.registry) (hopen : w.isOpen p)
    (hroot : p ∉ w.openFiles.roots) (hreferenced : p ∉ w.openFiles.referenced)
    (hconfigured : p ∉ w.openFiles.configuredRoots)
    (h : Placed kept unspared w.registry w.holding?) (hready : Ready first w)
    (hnone : ∀ id held, w.holding? id = some held → ¬held.Contains p) :
    let founded := w.foundProject p true
    Placed kept unspared founded.1.registry founded.1.holding? ∧
      (w.owner? p = none → Retains w.registry founded.1.registry) := by
  obtain ⟨files, founded, hfounds, heq⟩ := foundProject_parts hopen
  have hadopting := hfounds.adopting hplanted hopen hroot hreferenced hconfigured h hready hnone
  obtain ⟨hadopted, hretains⟩ := hadopting.foldl []
  rw [heq]
  dsimp only
  generalize List.foldl (absorb _) _ _ = adopted at hadopted hretains ⊢
  refine ⟨?_, fun hunowned => ?_⟩
  · have hunspared := hadopted.placed.sparing unspared fun q _ i hspared => by
      simp at hspared
    refine hunspared.addRoot fun i held hheld hcontains => ?_
    rw [hadopted.sole i held hheld hcontains]
    exact hadopted.taking.uprooting.owner
  · have hgiven : Retains w.registry founded.registry := by
      rw [hfounds.registry]
      refine (Retains.enroll_inferred w.registry [p]).trans (.setOwner (fun id howner => ?_) _)
      exact absurd (hunowned.symm.trans howner) (by simp)
    exact hgiven.trans hretains

/-! ### Attaching -/

theorem join?_housed (hopen : w.isOpen p) (hroot : p ∉ w.openFiles.roots)
    (hreferenced : p ∉ w.openFiles.referenced)
    (hconfigured : w.rootingProject? p = none → p ∉ w.openFiles.configuredRoots)
    (h : Placed kept unspared w.registry w.holding?) (hw : w.Enlisted) {joined : Workspace}
    (hjoined : w.join? p = some joined) :
    Placed kept unspared joined.registry joined.holding? ∧
      (w.owner? p = none → Retains w.registry joined.registry) := by
  obtain ⟨hholding, -⟩ := holding?_join? hjoined
  have hplaced := join?_placed hopen hw h hroot hreferenced hconfigured hjoined
  rw [← hholding] at hplaced
  refine ⟨hplaced, fun hunowned => ?_⟩
  have hgiven (id : ProjectId) : Retains w.registry (w.registry.setOwner p (some id)) :=
    .setOwner (fun i howner => absurd (hunowned.symm.trans howner) (by simp)) (some id)
  obtain ⟨id, -, hregistry | hregistry⟩ := join?_cases hopen hjoined
  all_goals
    rw [hregistry]
    exact hgiven id

/-- Documents stand where they should, and more of them may be attached. -/
structure Orderable (kept : Path → ProjectId → Prop) (first : ProjectId) (w : Workspace) : Prop where
  planted : Planted first [] w.registry
  placed : Placed kept unspared w.registry w.holding?
  ready : Ready first w

namespace Orderable

theorem refresh_eq (h : Orderable kept first w) : w.refresh = w :=
  refresh_eq_self h.placed.fresh

theorem emit (h : Orderable kept first w) (e : Event) : Orderable kept first (w.emit e) :=
  ⟨h.planted, h.placed, h.ready.shifts (shifts_emit w e)⟩

/-- A document without a project is in no list once it is taken out of that of the roots. -/
theorem remove (h : Orderable kept first w) (hnone : w.owner? p = none) :
    let lifted := w.modifyOpenFiles (·.remove p)
    Orderable kept first lifted ∧ p ∉ lifted.openFiles.roots ∧ p ∉ lifted.openFiles.referenced ∧
      p ∉ lifted.openFiles.configuredRoots := by
  have hbelow := OpenFiles.below_remove w.openFiles p
  have hplaced : Placed kept unspared (w.modifyOpenFiles (·.remove p)).registry w.holding? :=
    h.placed.below hbelow
  refine ⟨⟨h.planted.relist hbelow.roots, hplaced, h.ready.shifts (shifts_modifyOpenFiles ..)⟩,
    h.planted.nodup.not_mem_erase, notMem_of_placed hplaced fun i held howner => ?_⟩
  exact absurd (hnone.symm.trans howner) (by simp)

theorem join (h : Orderable kept first w) (hopen : w.isOpen p) (hroot : p ∉ w.openFiles.roots)
    (hreferenced : p ∉ w.openFiles.referenced)
    (hconfigured : w.rootingProject? p = none → p ∉ w.openFiles.configuredRoots) {joined : Workspace}
    (hjoined : w.join? p = some joined) :
    Orderable kept first joined ∧ (w.owner? p = none → Retains w.registry joined.registry) := by
  obtain ⟨hplaced, hretains⟩ :=
    join?_housed hopen hroot hreferenced hconfigured h.placed h.ready.enlisted hjoined
  exact ⟨⟨join?_planted h.planted hopen hroot hjoined, hplaced, h.ready.shifts (shifts_join? hjoined)⟩,
    hretains⟩

theorem found (h : Orderable kept first w) (hopen : w.isOpen p) (hroot : p ∉ w.openFiles.roots)
    (hreferenced : p ∉ w.openFiles.referenced) (hconfigured : p ∉ w.openFiles.configuredRoots)
    (hjoined : w.join? p = none) :
    Orderable kept first (w.foundProject p true).1 ∧
      (w.owner? p = none → Retains w.registry (w.foundProject p true).1.registry) := by
  have hnone (i : ProjectId) (held : Holding) (hheld : w.holding? i = some held) : ¬held.Contains p :=
    join?_eq_none h.ready.enlisted hjoined hheld
  obtain ⟨hplaced, hretains⟩ :=
    foundProject_placed h.planted hopen hroot hreferenced hconfigured h.placed h.ready hnone
  have hfounded := shifts_foundProject (isTracked_of_isOpen hopen) true
  exact ⟨⟨foundProject_planted h.planted hopen hroot true, hplaced, h.ready.shifts hfounded⟩, hretains⟩

end Orderable

theorem ReattachesTo.orderable {holds : Workspace → Path → Prop} {certain : Path → Prop}
    (h : ReattachesTo holds certain w ps v) (hw : Orderable kept first w) :
    Orderable kept first v ∧ Retains w.registry v.registry := by
  induction h with
  | nil => exact ⟨hw, .refl _⟩
  | stay _ _ ih => exact ih hw
  | join hopen hnone hjoined _ ih =>
      obtain ⟨hlifted, hroot, hreferenced, hconfigured⟩ := hw.remove hnone
      rw [hlifted.refresh_eq] at hjoined
      obtain ⟨hjoins, hretains⟩ := hlifted.join hopen hroot hreferenced (fun _ => hconfigured) hjoined
      obtain ⟨hrest, hretains'⟩ := ih (hjoins.emit _)
      exact ⟨hrest, (hretains hnone).trans hretains'⟩
  | found hopen hnone _ hlifting hjoined _ _ _ ih ih' =>
      obtain ⟨hlifted, hroot, hreferenced, hconfigured⟩ := hw.remove hnone
      rw [hlifted.refresh_eq] at hlifting
      subst hlifting
      obtain ⟨hfounded, hretains⟩ := hlifted.found hopen hroot hreferenced hconfigured hjoined
      obtain ⟨hdetached, hretains'⟩ := ih hfounded
      obtain ⟨hrest, hretains''⟩ := ih' (hdetached.emit _)
      exact ⟨hrest, ((hretains hnone).trans hretains').trans hretains''⟩

theorem AttachesTo.orderable {holds : Workspace → Path → Prop} (h : AttachesTo holds w p v)
    (hw : Orderable kept first w) (hopen : w.isOpen p) (hroot : p ∉ w.openFiles.roots)
    (hreferenced : p ∉ w.openFiles.referenced)
    (hconfigured : w.rootingProject? p = none → p ∉ w.openFiles.configuredRoots) :
    Orderable kept first v := by
  rw [AttachesTo, hw.refresh_eq] at h
  split at h
  · rename_i joined hjoined
    rw [h]
    exact (hw.join hopen hroot hreferenced hconfigured hjoined).1
  · rename_i hjoined
    obtain ⟨hfounded, -⟩ :=
      hw.found hopen hroot hreferenced (hconfigured (rootingProject?_of_join? hjoined)) hjoined
    exact (h.2.orderable hfounded).1

/-- A newly opened document comes to stand where it should, once the projects are up to date. -/
theorem attach_placed (hplanted : Planted first [] w.registry) (hopen : w.isOpen p)
    (hroot : p ∉ w.openFiles.roots) (hreferenced : p ∉ w.openFiles.referenced)
    (hconfigured : w.refresh.rootingProject? p = none → p ∉ w.openFiles.configuredRoots)
    (hw : w.Enlisted) (h : Placed kept unspared w.refresh.registry w.refresh.holding?) :
    Placed kept unspared (w.attach p).registry (w.attach p).holding? := by
  have hrefreshed := shifts_refresh w
  have hregistry := registry_refresh w
  have hplanted' := hplanted.restart
  rw [← hregistry] at hplanted'
  have hattaches : AttachesTo (fun _ _ => True) w.refresh p (w.attach p) :=
    attachesTo_refresh.mpr (attachesTo_attach (fun _ _ _ (h : True) => h)
      (fun _ _ _ _ _ _ _ _ => trivial) hplanted hopen hroot hw trivial)
  rw [← registry_isOpen, ← hregistry] at hopen
  rw [← registry_openFiles, ← hregistry] at hroot hreferenced hconfigured
  have hready := ready_start (hw.shifts hrefreshed)
  exact (hattaches.orderable ⟨hplanted', h, hready⟩ hopen hroot hreferenced hconfigured).placed

theorem reattach_placed (hplanted : Planted first [] w.registry) (hw : w.Enlisted)
    (h : Placed kept unspared w.registry w.holding?) (paths : List Path) :
    Placed kept unspared (w.reattach paths).registry (w.reattach paths).holding? ∧
      Retains w.registry (w.reattach paths).registry := by
  have hreattaches : ReattachesTo (fun _ _ => True) (fun _ => False) w paths (w.reattach paths) :=
    reattachesTo_reattach (fun _ _ _ (h : True) => h) (fun _ _ _ _ _ _ _ _ => trivial) hplanted hw trivial paths
  obtain ⟨hordered, hretains⟩ :=
    hreattaches.orderable ⟨hplanted.restart, h, ready_start hw⟩
  exact ⟨hordered.placed, hretains⟩

end Workspace

end ProjectTracker
