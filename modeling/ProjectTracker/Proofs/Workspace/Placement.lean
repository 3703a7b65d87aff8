import ProjectTracker.Proofs.Workspace.Seating
/-!
Where a document stands goes by what the projects hold. The root of an inferred project is in no other project,
a referenced file is in its project, and the root of a configured project is one of it. Removing a
project or giving a document to one keeps that.
-/

namespace ProjectTracker

namespace Registry

variable {t : Terms} {r : Registry} {kept spared : Path → ProjectId → Prop}
  {holding? : ProjectId → Option Holding} {held : Holding} {p q root : Path} {id : ProjectId}
  {o : OpenFiles}

/-- No configured project has a document. -/
def Unclaimed (holding? : ProjectId → Option Holding) (p : Path) : Prop :=
  ∀ id held, holding? id = some held → held.kind ≠ .inferred → ¬held.Contains p

/-- No root is spared. -/
abbrev unspared : Path → ProjectId → Prop :=
  fun _ _ => False

/-- The documents stand where they should by what the projects hold. Some roots are spared, and some
referenced files are kept by inferred projects whatever configured ones have. -/
structure Placed (kept spared : Path → ProjectId → Prop) (r : Registry)
    (holding? : ProjectId → Option Holding) : Prop where
  alone : ∀ p ∈ r.openFiles.roots, ∀ id held, holding? id = some held → held.Contains p →
    r.owner? p = some id ∨ spared p id
  referenced : ∀ p ∈ r.openFiles.referenced, ∃ id held, r.owner? p = some id ∧
    holding? id = some held ∧ held.Contains p
  yields : ∀ p ∈ r.openFiles.referenced, ∀ id held, r.owner? p = some id →
    holding? id = some held → held.kind = .inferred → kept p id ∨ Unclaimed holding? p
  configuredRoots : ∀ p ∈ r.openFiles.configuredRoots, ∃ id held, r.owner? p = some id ∧
    holding? id = some held ∧ p ∈ held.roots
  fresh : ∀ id held, holding? id = some held → held.isStale = false

/-- What the projects hold once one of them is gone. -/
def without (holding? : ProjectId → Option Holding) (id : ProjectId) (i : ProjectId) :
    Option Holding :=
  if i = id then none else holding? i

theorem without_eq_some {i : ProjectId} :
    without holding? id i = some held ↔ i ≠ id ∧ holding? i = some held := by
  unfold without
  split
  · rename_i hi
    simp [hi]
  · rename_i hi
    simp [hi]

theorem Unclaimed.without (h : Unclaimed holding? p) (id : ProjectId) :
    Unclaimed (Registry.without holding? id) p :=
  fun i held hheld => h i held (without_eq_some.mp hheld).2

namespace Placed

theorem sparing (h : Placed kept spared r holding?) (spared' : Path → ProjectId → Prop)
    (hspared : ∀ p ∈ r.openFiles.roots, ∀ id, spared p id → spared' p id) :
    Placed kept spared' r holding? :=
  { h with
    alone := fun p hp id held hheld hcontains =>
      (h.alone p hp id held hheld hcontains).imp_right (hspared p hp id) }

/-- Only the lists and the owners matter. -/
theorem of_eq {r' : Registry} (h : Placed kept spared r holding?)
    (hopenFiles : r'.openFiles = r.openFiles) (howner : r'.owner? = r.owner?) :
    Placed kept spared r' holding? := by
  obtain ⟨halone, hreferenced, hyields, hconfigured, hfresh⟩ := h
  constructor
  · rwa [hopenFiles, howner]
  · rwa [hopenFiles, howner]
  · rwa [hopenFiles, howner]
  · rwa [hopenFiles, howner]
  · exact hfresh

/-- Documents may be taken out of the lists. -/
theorem below (h : Placed kept spared r holding?) (ho : o.Below r.openFiles) :
    Placed kept spared { r with openFiles := o } holding? where
  alone p hp := h.alone p (ho.roots.subset hp)
  referenced p hp := h.referenced p (ho.referenced.subset hp)
  yields p hp := h.yields p (ho.referenced.subset hp)
  configuredRoots p hp := h.configuredRoots p (ho.configuredRoots.subset hp)
  fresh := h.fresh

/-- With a project its documents go. -/
theorem strike (h : Placed kept spared r holding?)
    (hlive : ∀ held, holding? id = some held → r.IsLive id) :
    Placed kept spared (r.strike id) (without holding? id) := by
  -- a document that stays has another project
  have hother (p : Path) (i : ProjectId) (held : Holding) (hall : p ∈ r.openFiles.all)
      (hstays : p ∉ r.members id) (howner : r.owner? p = some i) (hheld : holding? i = some held) :
      (r.strike id).owner? p = some i ∧ without holding? id i = some held := by
    refine ⟨owner?_strike_eq_some.mpr ⟨hstays, howner⟩, without_eq_some.mpr ⟨?_, hheld⟩⟩
    rintro rfl
    exact hstays (mem_members.mpr ⟨hlive held hheld, hall, howner⟩)
  have hstays {list : List Path} {p : Path} (hp : p ∈ list.filter fun p => p ∉ r.members id) :
      p ∈ list ∧ p ∉ r.members id := by
    simpa using hp
  constructor
  · intro p hp i held hheld hcontains
    obtain ⟨hroot, hmembers⟩ := hstays hp
    obtain ⟨-, hheld⟩ := without_eq_some.mp hheld
    exact (h.alone p hroot i held hheld hcontains).imp_left fun howner =>
      owner?_strike_eq_some.mpr ⟨hmembers, howner⟩
  · intro p hp
    obtain ⟨hreferenced, hmembers⟩ := hstays hp
    obtain ⟨i, held, howner, hheld, hcontains⟩ := h.referenced p hreferenced
    obtain ⟨howner, hheld⟩ :=
      hother p i held (by simp [OpenFiles.all, hreferenced]) hmembers howner hheld
    exact ⟨i, held, howner, hheld, hcontains⟩
  · intro p hp i held howner hheld hkind
    exact (h.yields p (hstays hp).1 i held (owner?_strike_eq_some.mp howner).2
      (without_eq_some.mp hheld).2 hkind).imp_right (·.without id)
  · intro p hp
    obtain ⟨hconfigured, hmembers⟩ := hstays hp
    obtain ⟨i, held, howner, hheld, hroot⟩ := h.configuredRoots p hconfigured
    obtain ⟨howner, hheld⟩ :=
      hother p i held (by simp [OpenFiles.all, hconfigured]) hmembers howner hheld
    exact ⟨i, held, howner, hheld, hroot⟩
  · intro i held hheld
    exact h.fresh i held (without_eq_some.mp hheld).2

/-- A document that stands in no list, except rightly among the roots of configured projects, comes to
belong to another project. -/
theorem setOwner (h : Placed kept spared r holding?) (owner? : Option ProjectId)
    (hroot : p ∉ r.openFiles.roots) (hreferenced : p ∉ r.openFiles.referenced)
    (hconfigured : p ∈ r.openFiles.configuredRoots → ∃ id held, owner? = some id ∧
      holding? id = some held ∧ p ∈ held.roots) :
    Placed kept spared (r.setOwner p owner?) holding? where
  alone q hq id held hheld hcontains := by
    have hqp : q ≠ p := fun hqp => hroot (hqp ▸ hq)
    rw [setOwner_owner?, if_neg hqp]
    exact h.alone q hq id held hheld hcontains
  referenced q hq := by
    have hqp : q ≠ p := fun hqp => hreferenced (hqp ▸ hq)
    rw [setOwner_owner?, if_neg hqp]
    exact h.referenced q hq
  yields q hq id held howner := by
    have hqp : q ≠ p := fun hqp => hreferenced (hqp ▸ hq)
    rw [setOwner_owner?, if_neg hqp] at howner
    exact h.yields q hq id held howner
  configuredRoots q hq := by
    rw [setOwner_owner?]
    split
    · rename_i hqp
      exact hqp ▸ hconfigured (hqp ▸ hq)
    · exact h.configuredRoots q hq
  fresh := h.fresh

theorem addRoot (h : Placed kept spared r holding?)
    (halone : ∀ id held, holding? id = some held → held.Contains p → r.owner? p = some id) :
    Placed kept spared (r.modifyOpenFiles (·.addRoot p)) holding? :=
  { h with
    alone := fun q hq id held hheld hcontains => by
      rcases List.mem_append.mp hq with hq | hq
      · exact h.alone q hq id held hheld hcontains
      · obtain rfl := List.mem_singleton.mp hq
        exact .inl (halone id held hheld hcontains) }

theorem addReferenced (h : Placed kept spared r holding?) (howner : r.owner? p = some id)
    (hheld : holding? id = some held) (hcontains : held.Contains p)
    (hyields : held.kind = .inferred → Unclaimed holding? p) :
    Placed kept spared (r.modifyOpenFiles (·.addReferenced p)) holding? :=
  { h with
    referenced := fun q hq => by
      rcases List.mem_append.mp hq with hq | hq
      · exact h.referenced q hq
      · obtain rfl := List.mem_singleton.mp hq
        exact ⟨id, held, howner, hheld, hcontains⟩
    yields := fun q hq i held' howner' hheld' hkind => by
      rcases List.mem_append.mp hq with hq | hq
      · exact h.yields q hq i held' howner' hheld' hkind
      · obtain rfl := List.mem_singleton.mp hq
        obtain rfl : id = i := Option.some.inj (howner.symm.trans howner')
        obtain rfl : held = held' := Option.some.inj (hheld.symm.trans hheld')
        exact .inr (hyields hkind) }

theorem addConfiguredRoot (h : Placed kept spared r holding?) (howner : r.owner? p = some id)
    (hheld : holding? id = some held) (hroot : p ∈ held.roots) :
    Placed kept spared (r.modifyOpenFiles (·.addConfiguredRoot p)) holding? :=
  { h with
    configuredRoots := fun q hq => by
      rcases List.mem_append.mp hq with hq | hq
      · exact h.configuredRoots q hq
      · obtain rfl := List.mem_singleton.mp hq
        exact ⟨id, held, howner, hheld, hroot⟩ }

/-- A document in hand is given to a project that reaches it. -/
theorem joinReferenced (h : Placed kept spared r holding?) (hroot : p ∉ r.openFiles.roots)
    (hreferenced : p ∉ r.openFiles.referenced) (hconfigured : p ∉ r.openFiles.configuredRoots)
    (hheld : holding? id = some held) (hcontains : held.Contains p)
    (hyields : held.kind = .inferred → Unclaimed holding? p) :
    Placed kept spared ((r.setOwner p (some id)).modifyOpenFiles (·.addReferenced p)) holding? :=
  (h.setOwner (some id) hroot hreferenced fun hp => absurd hp hconfigured).addReferenced (by simp) hheld
    hcontains hyields

/-- A document in hand is given to a project that has it as a root. -/
theorem joinConfigured (h : Placed kept spared r holding?) (hroot : p ∉ r.openFiles.roots)
    (hreferenced : p ∉ r.openFiles.referenced) (hheld : holding? id = some held)
    (hmem : p ∈ held.roots) :
    Placed kept spared ((r.setOwner p (some id)).modifyOpenFiles (·.addConfiguredRoot p)) holding? :=
  (h.setOwner (some id) hroot hreferenced fun _ => ⟨id, held, rfl, hheld, hmem⟩).addConfiguredRoot (by simp)
    hheld hmem

/-- A new inferred project reaches roots of others, which are spared for now. -/
theorem enroll (h : Placed kept unspared r holding?) (held : Holding) {next : ProjectId}
    (hnext : holding? next = none) (hkind : held.kind = .inferred) (hfresh : held.isStale = false) :
    Placed kept (fun q id => held.Contains q ∧ id = next) r
      (fun id => if id = next then some held else holding? id) := by
  have hheld {id : ProjectId} {held' : Holding}
      (hheld' : (if id = next then some held else holding? id) = some held') :
      (id = next ∧ held' = held) ∨ holding? id = some held' := by
    split at hheld'
    · exact .inl ⟨‹_›, (Option.some.inj hheld').symm⟩
    · exact .inr hheld'
  have hold {id : ProjectId} {held' : Holding} (hheld' : holding? id = some held') :
      (if id = next then some held else holding? id) = some held' := by
    split
    · rename_i hid
      simp [hid, hnext] at hheld'
    · exact hheld'
  have hunclaimed {p : Path} (hp : Unclaimed holding? p) :
      Unclaimed (fun id => if id = next then some held else holding? id) p := by
    intro id held' hheld' hkind'
    rcases hheld hheld' with ⟨-, rfl⟩ | hheld'
    · exact absurd hkind hkind'
    · exact hp id held' hheld' hkind'
  constructor
  · intro q hq id held' hheld' hcontains
    rcases hheld hheld' with ⟨rfl, rfl⟩ | hheld'
    · exact .inr ⟨hcontains, rfl⟩
    · exact (h.alone q hq id held' hheld' hcontains).imp_right False.elim
  · intro q hq
    obtain ⟨id, held', howner, hheld', hcontains⟩ := h.referenced q hq
    exact ⟨id, held', howner, hold hheld', hcontains⟩
  · intro q hq id held' howner hheld' hkind'
    obtain ⟨i, held'', howner', hheld'', -⟩ := h.referenced q hq
    obtain rfl : id = i := Option.some.inj (howner.symm.trans howner')
    exact (h.yields q hq id held'' howner hheld'' (Option.some.inj
      (hheld'.symm.trans (hold hheld'')) ▸ hkind')).imp_right hunclaimed
  · intro q hq
    obtain ⟨id, held', howner, hheld', hroot⟩ := h.configuredRoots q hq
    exact ⟨id, held', howner, hold hheld', hroot⟩
  · intro id held' hheld'
    rcases hheld hheld' with ⟨-, rfl⟩ | hheld'
    · exact hfresh
    · exact h.fresh id held' hheld'

end Placed

end Registry

namespace Workspace

open Registry

variable {t : Terms} {w w' w'' : Workspace} {kept spared : Path → ProjectId → Prop}
  {loose guests single : List Path} {p q root : Path} {first id : ProjectId} {held : Holding}

theorem has_iff {property : ProjectKind → List Path → Prop} :
    w.registry.Has id property ↔ ∃ held, w.holding? id = some held ∧ property held.kind held.roots := by
  have hcharter : w.registry.charter? id = (w.projects.get? id).map Project.charter := rfl
  unfold Has holding?
  rw [hcharter]
  cases w.projects.get? id with
  | none => simp
  | some project => simp [Project.charter, Project.holding]

theorem isLive_of_holding? (h : w.holding? id = some held) : w.registry.IsLive id :=
  (has_iff.mpr ⟨held, h, trivial⟩ : w.registry.Has id fun _ _ => True).isLive

/-- A listed document is in its project. -/
theorem contains_of_owner? (h : Placed kept spared w.registry w.holding?)
    (hseated : Seated w.registry none single) (hall : q ∈ w.openFiles.all)
    (howner : w.owner? q = some id) : ∃ held, w.holding? id = some held ∧ held.Contains q := by
  simp only [OpenFiles.all, List.mem_append] at hall
  rcases hall with (hroot | hreferenced) | hconfigured
  · obtain ⟨held, hheld, -, hroots⟩ := has_iff.mp ((hseated.own q hroot).of_owner howner)
    exact ⟨held, hheld, .inr (by simp [hroots])⟩
  · obtain ⟨i, held, howner', hheld, hcontains⟩ := h.referenced q hreferenced
    obtain rfl : i = id := Option.some.inj (howner'.symm.trans howner)
    exact ⟨held, hheld, hcontains⟩
  · obtain ⟨i, held, howner', hheld, hmem⟩ := h.configuredRoots q hconfigured
    obtain rfl : i = id := Option.some.inj (howner'.symm.trans howner)
    exact ⟨held, hheld, .inr hmem⟩

/-! ### Stale projects -/

theorem refresh_eq_self (h : ∀ id held, w.holding? id = some held → held.isStale = false) :
    w.refresh = w := by
  have hnone : (w.projects.keys.filter fun id => w.projectHas id (·.isStale)) = [] := by
    refine List.filter_eq_nil_iff.mpr fun id _ hstale => ?_
    unfold projectHas at hstale
    cases hproject : w.projects.get? id with
    | none => simp [hproject] at hstale
    | some project =>
        have hfresh : project.isStale = false :=
          h id project.holding (by simp [holding?, hproject])
        simp [hproject, hfresh] at hstale
  unfold refresh
  rw [hnone]
  rfl

theorem fresh_refresh (w : Workspace) (id : ProjectId) (held : Holding)
    (h : w.refresh.holding? id = some held) : held.isStale = false := by
  -- of the projects that are gone through none is stale in the end
  have hfold (ids : List ProjectId) (w : Workspace) (held : Holding)
      (h : (ids.foldl refreshProject w).holding? id = some held) :
      held.isStale = false ∨ id ∉ ids ∧ w.holding? id = some held := by
    induction ids generalizing w with
    | nil => exact .inr ⟨by simp, h⟩
    | cons i ids ih =>
        rcases ih _ h with hfresh | ⟨hid, hheld⟩
        · exact .inl hfresh
        · obtain ⟨-, -, hroster, -⟩ := refreshProject_contents w i
          rw [← roster_holding?, hroster] at hheld
          simp only [Roster.modify] at hheld
          split at hheld
          · obtain ⟨former, -, rfl⟩ := Option.map_eq_some_iff.mp hheld
            exact .inl rfl
          · rename_i hi
            exact .inr ⟨by simp [hi, hid], hheld⟩
  unfold refresh at h
  rcases hfold _ w held h with hfresh | ⟨hid, hheld⟩
  · exact hfresh
  · obtain ⟨project, hproject, rfl⟩ := Option.map_eq_some_iff.mp hheld
    by_contra hstale
    refine hid (List.mem_filter.mpr ⟨Table.mem_keys_iff.mpr (by simp [hproject]), ?_⟩)
    have hstale' : project.isStale = true := by
      simpa [Project.holding] using hstale
    simp [projectHas, hproject, hstale']

theorem inferred_refresh (w : Workspace) : w.refresh.inferred = w.inferred := by
  unfold refresh
  dsimp only
  generalize w.projects.keys.filter _ = ids
  induction ids generalizing w with
  | nil => rfl
  | cons id ids ih =>
      obtain ⟨-, -, hroster, -⟩ := refreshProject_contents w id
      rw [List.foldl_cons, ih]
      exact (congrArg Roster.inferred hroster :)

/-! ### Finding projects -/

theorem reachingProject?_eq_none {except? : Option ProjectId} (hw : w.Enlisted)
    (h : w.reachingProject? p except? = none) (hheld : w.holding? id = some held)
    (hcontains : held.Contains p) : except? = some id := by
  unfold reachingProject? at h
  have hlisted : id ∈ w.configured ++ w.inferred := by
    by_cases hkind : held.kind = .inferred
    · exact List.mem_append_right _ ((hw.orderly.inferred id).mpr ⟨held, hheld, hkind⟩)
    · exact List.mem_append_left _ ((hw.orderly.configured id).mpr ⟨held, hheld, hkind⟩)
  have hfails := List.find?_eq_none.mp h id hlisted
  have hhas : w.projectHas id (·.contains p) := projectHas_contains.mpr ⟨held, hheld, hcontains⟩
  by_contra hne
  simp [hhas, Ne.symm hne] at hfails

/-- An inferred project is found only where no configured one has the document. -/
theorem reachingProject?_eq_some {except? : Option ProjectId} (hw : w.Enlisted)
    (h : w.reachingProject? p except? = some id) :
    some id ≠ except? ∧ ∃ held, w.holding? id = some held ∧ held.Contains p ∧
      (held.kind = .inferred → ∀ i held', w.holding? i = some held' → held'.kind ≠ .inferred →
        held'.Contains p → except? = some i) := by
  unfold reachingProject? at h
  have hfound := List.find?_some h
  simp only [Bool.and_eq_true, decide_eq_true_eq] at hfound
  obtain ⟨held, hheld, hcontains⟩ := projectHas_contains.mp hfound.2
  refine ⟨hfound.1, held, hheld, hcontains, fun hkind i held' hheld' hkind' hcontains' => ?_⟩
  have hnot : id ∉ w.configured := fun hid => by
    obtain ⟨held'', hheld'', hkind''⟩ := (hw.orderly.configured id).mp hid
    exact hkind'' (Option.some.inj (hheld.symm.trans hheld'') ▸ hkind)
  have hnone : w.configured.find? (fun id => some id ≠ except? &&
      w.projectHas id (·.contains p)) = none := by
    by_contra hsome
    obtain ⟨j, hj⟩ := Option.ne_none_iff_exists'.mp hsome
    rw [List.find?_append, hj, Option.some_or, Option.some.injEq] at h
    exact hnot (h ▸ List.mem_of_find?_eq_some hj)
  have hfails := List.find?_eq_none.mp hnone i
    ((hw.orderly.configured i).mpr ⟨held', hheld', hkind'⟩)
  have hhas : w.projectHas i (·.contains p) := projectHas_contains.mpr ⟨held', hheld', hcontains'⟩
  by_contra hne
  simp [hhas, Ne.symm hne] at hfails

theorem join?_placed (hopen : w.isOpen p) (hw : w.Enlisted)
    (h : Placed kept spared w.registry w.holding?) (hroot : p ∉ w.openFiles.roots)
    (hreferenced : p ∉ w.openFiles.referenced)
    (hconfigured : w.rootingProject? p = none → p ∉ w.openFiles.configuredRoots)
    {joined : Workspace} (hjoined : w.join? p = some joined) :
    Placed kept spared joined.registry w.holding? := by
  unfold join? at hjoined
  split at hjoined
  · rename_i id hid
    obtain rfl := Option.some.inj hjoined
    rw [registry_modifyOpenFiles, registry_setOwner (.inl hopen)]
    rw [rootingProject?] at hid
    have hfound := List.find?_some hid
    obtain ⟨held, hheld, hmem⟩ := projectHas_isRoot.mp hfound
    exact h.joinConfigured hroot hreferenced hheld hmem
  · rename_i hnone
    split at hjoined
    · rename_i id hid
      obtain rfl := Option.some.inj hjoined
      rw [registry_modifyOpenFiles, registry_setOwner (.inl hopen)]
      obtain ⟨-, held, hheld, hcontains, hyields⟩ := reachingProject?_eq_some hw hid
      exact h.joinReferenced hroot hreferenced (hconfigured hnone) hheld hcontains
        fun hkind i held' hheld' hkind' hcontains' =>
          Option.some_ne_none i (hyields hkind i held' hheld' hkind' hcontains').symm
    · simp at hjoined

/-- Only where no project has a document none is found for it. -/
theorem join?_eq_none (hw : w.Enlisted) (h : w.join? p = none) (hheld : w.holding? id = some held) :
    ¬held.Contains p := by
  intro hcontains
  unfold join? at h
  split at h
  · simp at h
  · split at h
    · simp at h
    · rename_i hnone
      simpa using reachingProject?_eq_none hw hnone hheld hcontains

theorem holding?_join? {joined : Workspace} (h : w.join? p = some joined) :
    joined.holding? = w.holding? ∧ joined.inferred = w.inferred := by
  have hcalm : Calm w joined := by
    unfold join? at h
    split at h
    · obtain rfl := Option.some.inj h
      exact (calm_setOwner ..).trans (calm_modifyOpenFiles ..)
    · split at h
      · obtain rfl := Option.some.inj h
        exact (calm_setOwner ..).trans (calm_modifyOpenFiles ..)
      · simp at h
  exact ⟨congrArg Roster.holding? hcalm.roster, congrArg Roster.inferred hcalm.roster⟩

end Workspace

end ProjectTracker
