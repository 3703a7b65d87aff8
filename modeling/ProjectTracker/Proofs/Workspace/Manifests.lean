import ProjectTracker.Proofs.Workspace.Settling
/-!
Following manifests keeps the invariant: as a project gains and loses roots its documents move with
them.
-/

namespace ProjectTracker

namespace Registry

variable {t : Terms} {r : Registry} {loose moving guests : List Path} {p root : Path}
  {id : ProjectId}

/-- A project is live, and its kind and its roots have a property. -/
def Has (r : Registry) (id : ProjectId) (property : ProjectKind → List Path → Prop) : Prop :=
  ∃ c, r.charter? id = some c ∧ property c.kind c.roots

abbrev IsConfigured (r : Registry) (id : ProjectId) : Prop :=
  r.Has id fun kind _ => kind ≠ .inferred

namespace Has

variable {property : ProjectKind → List Path → Prop}

theorem isLive (h : r.Has id property) : r.IsLive id := by
  obtain ⟨c, hc, -⟩ := h
  simp [IsLive, hc]

theorem imp (h : r.Has id property) {weaker : ProjectKind → List Path → Prop}
    (hweaker : ∀ kind roots, property kind roots → weaker kind roots) : r.Has id weaker := by
  obtain ⟨c, hc, hproperty⟩ := h
  exact ⟨c, hc, hweaker _ _ hproperty⟩

theorem setOwner (h : r.Has id property) (p : Path) (owner? : Option ProjectId) :
    (r.setOwner p owner?).Has id property := by
  obtain ⟨c, hc, hproperty⟩ := h
  unfold Has
  rw [setOwner_charter?, hc]
  split
  · exact ⟨_, rfl, hproperty⟩
  · exact ⟨c, rfl, hproperty⟩

theorem modifyRoots (h : r.Has id property) (i : ProjectId) {f : List Path → List Path}
    (hf : ∀ kind roots, property kind roots → property kind (f roots)) :
    (r.modifyRoots i f).Has id property := by
  obtain ⟨c, hc, hproperty⟩ := h
  simp only [Has, Registry.modifyRoots, hc]
  split
  · exact ⟨_, rfl, hf _ _ hproperty⟩
  · exact ⟨c, rfl, hproperty⟩

theorem evict (h : r.Has id property) {former? : Option ProjectId} (hne : former? ≠ some id) :
    (r.evict former?).1.Has id property := by
  cases former? with
  | none => exact h
  | some former =>
      obtain ⟨c, hc, hproperty⟩ := h
      have hid : id ≠ former := fun hid => hne (hid ▸ rfl)
      exact ⟨c, by simpa [Registry.evict, strike, hid] using hc, hproperty⟩

theorem enroll (h : r.Has id property) (hid : id ≤ r.lastProject) (kind : ProjectKind)
    (roots : List Path) : (r.enroll kind roots).Has id property := by
  obtain ⟨c, hc, hproperty⟩ := h
  have hne : id ≠ r.lastProject + 1 := fun heq => absurd (heq ▸ hid) (Nat.not_succ_le_self _)
  exact ⟨c, by simpa [Registry.enroll, hne] using hc, hproperty⟩

end Has

/-- A configured project has no root of an inferred one. -/
theorem Sound.owner?_ne (h : Sound t r loose moving guests) (ht : t.live)
    (hid : r.IsConfigured id) (hroot : root ∈ r.openFiles.roots) : r.owner? root ≠ some id := by
  intro howner
  obtain ⟨c, hc, hkind⟩ := hid
  exact hkind (h.root_inferred ht root hroot id c howner hc)

theorem filter_ne_guests {guests : List Path} (h : root ∉ guests) :
    guests.filter (· ≠ root) = guests :=
  List.filter_eq_self.mpr fun q hq => by simpa using fun hqr : q = root => h (hqr ▸ hq)

/-- The project that a document has to leave if it is the root of an inferred one. -/
def rootOwner? (r : Registry) (root : Path) : Option ProjectId :=
  if root ∈ r.openFiles.roots then r.owner? root else none

theorem Sound.rootOwner?_ne (h : Sound t r loose moving guests) (ht : t.live)
    (hid : r.IsConfigured id) (root : Path) : r.rootOwner? root ≠ some id := by
  unfold rootOwner?
  split
  · exact h.owner?_ne ht hid ‹_›
  · simp

/-- The registry after a configured project took over one of its roots. -/
def takeOver (r : Registry) (id : ProjectId) (root : Path) : Registry × List Path :=
  let evicted := (r.modifyOpenFiles (·.removeRoot root)).evict (r.rootOwner? root)
  let r := evicted.1.modifyOpenFiles fun o => (o.removeReferenced root).removeConfiguredRoot root
  ((r.setOwner root (some id)).modifyOpenFiles (·.addConfiguredRoot root),
    evicted.2.filter (· ≠ root))

theorem Sound.takeOver (h : Sound t r loose [] guests) (hopen : r.isOpen root)
    (hle : id ≤ r.lastProject) (hid : t.live → r.IsConfigured id) :
    Sound t (r.takeOver id root).1 ((r.takeOver id root).2 ++ loose) []
      (guests.filter (· ≠ root)) := by
  unfold Registry.takeOver rootOwner?
  by_cases hroot : root ∈ r.openFiles.roots
  · have hguests : root ∉ guests := fun hg =>
      (h.guest root hg).2.2.1 (by simp [OpenFiles.all, hroot])
    have hlive : t.live → r.IsLive id ∧ r.owner? root ≠ some id := fun ht =>
      ⟨(hid ht).isLive, h.owner?_ne ht (hid ht) hroot⟩
    rw [filter_ne_guests hguests, if_pos hroot]
    exact h.supplant hroot hle hlive ((OpenFiles.without_removeReferenced ..).trans
      (OpenFiles.without_removeConfiguredRoot ..)) (OpenFiles.with_addConfiguredRoot ..)
  · have hlive : t.live → r.IsLive id ∧ (none : Option ProjectId) ≠ some id := fun ht =>
      ⟨(hid ht).isLive, by simp⟩
    rw [if_neg hroot]
    -- a guest is in no list yet, and any other document has to leave the one that it is in
    by_cases hguests : root ∈ guests
    · have hwelcomed := (h.welcome hguests).shrink
        (OpenFiles.without_removeRoot r.openFiles root) (by simp)
      exact hwelcomed.handOver (fun _ hq => hq)
        (fun q hq => (hwelcomed.guest q hq).2.2.2.1) hle hlive
        ((OpenFiles.without_removeReferenced ..).trans
          (OpenFiles.without_removeConfiguredRoot ..)) (OpenFiles.with_addConfiguredRoot ..)
    · rw [filter_ne_guests hguests]
      have hlifted := h.lift (OpenFiles.without_remove r.openFiles root) hopen (by simp) hguests
        h.roots_nodup.not_mem_erase fun ht => OpenFiles.not_mem_remove (h.nodup ht)
      exact hlifted.handOver (fun q hq => (List.mem_filter.mp hq).1)
        (fun q hq => (h.guest q hq).2.2.2.1) hle hlive (.refl _ _)
        (OpenFiles.with_addConfiguredRoot ..)

@[simp] theorem lastProject_takeOver (r : Registry) (id : ProjectId) (root : Path) :
    (r.takeOver id root).1.lastProject = r.lastProject :=
  lastProject_evict ..

theorem Sound.isConfigured_takeOver (h : Sound t r loose [] guests) (ht : t.live)
    (hid : r.IsConfigured id) : (r.takeOver id root).1.IsConfigured id := by
  have hid' : (r.modifyOpenFiles (·.removeRoot root)).IsConfigured id := hid
  have hevicted : (((r.modifyOpenFiles (·.removeRoot root)).evict
      (r.rootOwner? root)).1.modifyOpenFiles
        fun o => (o.removeReferenced root).removeConfiguredRoot root).IsConfigured id :=
    hid'.evict (h.rootOwner?_ne ht hid root)
  exact hevicted.setOwner root (some id)

end Registry

namespace Workspace

open Registry

variable {t : Terms} {w : Workspace} {loose guests : List Path} {p root : Path} {id : ProjectId}

theorem takeOver_eq (id : ProjectId) (detached : List Path) (hopen : w.isOpen root) :
    (takeOver id (w, detached) root).1.registry = (w.registry.takeOver id root).1 ∧
      (takeOver id (w, detached) root).2 = detached ++ (w.registry.takeOver id root).2 := by
  obtain ⟨hregistry, horphans⟩ :=
    evict_eq (w.modifyOpenFiles (·.removeRoot root)) (w.registry.rootOwner? root)
  unfold takeOver Registry.takeOver
  dsimp only
  constructor
  · rw [registry_emit, registry_modifyOpenFiles, registry_setOwner, registry_modifyOpenFiles]
    · unfold rootOwner? at hregistry
      exact congrArg (fun r : Registry =>
        ((r.modifyOpenFiles fun o => (o.removeReferenced root).removeConfiguredRoot root).setOwner
          root (some id)).modifyOpenFiles (·.addConfiguredRoot root)) hregistry
    · left
      have hevicted := congrFun (congrArg Registry.isOpen hregistry) root
      rw [isOpen_evict] at hevicted
      exact hevicted.trans hopen
  · unfold rootOwner? at horphans ⊢
    exact congrArg (fun orphans => detached ++ orphans.filter (· ≠ root)) horphans

/-- What holds while the roots of a project change: it stays configured. -/
structure Updating (t : Terms) (guests : List Path) (id : ProjectId)
    (state : Workspace × List Path) : Prop where
  sound : Sound t state.1.registry (state.2 ++ []) [] guests
  le : id ≤ state.1.lastProject
  configured : t.live → state.1.registry.IsConfigured id

theorem updating_iff {state : Workspace × List Path} :
    Updating t guests id state ↔ Sound t state.1.registry (state.2 ++ []) [] guests ∧
      id ≤ state.1.registry.lastProject ∧ (t.live → state.1.registry.IsConfigured id) :=
  ⟨fun h => ⟨h.sound, h.le, h.configured⟩, fun h => ⟨h.1, h.2.1, h.2.2⟩⟩

/-- A list of roots with one more. -/
def addTo (root : Path) (roots : List Path) : List Path :=
  if root ∈ roots then roots else roots ++ [root]

theorem registry_addRoot (w : Workspace) (id : ProjectId) (root : Path) :
    (w.modifyProject id (·.addRoot root)).registry = w.registry.modifyRoots id (addTo root) := by
  apply registry_modifyRoots
  intro project
  unfold Project.addRoot Project.isRoot addTo
  by_cases hroot : root ∈ project.roots <;> simp [hroot, Project.charter]

/-- A root that cannot be read is left out, and one that is open is taken over. -/
theorem gainRoot_cases (id : ProjectId) (state : Workspace × List Path) (root : Path) :
    ((gainRoot id state root).2 = state.2 ∧ state.1.isOpen root = false ∧
      ((gainRoot id state root).1.registry = state.1.registry ∨
        (gainRoot id state root).1.registry = state.1.registry.modifyRoots id (addTo root))) ∨
    (state.1.isOpen root ∧
      (gainRoot id state root).1.registry =
        ((state.1.registry.modifyRoots id (addTo root)).takeOver id root).1 ∧
      (gainRoot id state root).2 =
        state.2 ++ ((state.1.registry.modifyRoots id (addTo root)).takeOver id root).2) := by
  obtain ⟨w, detached⟩ := state
  have hload := registry_load w root
  have hopenLoad : (w.load root).isOpen root = w.isOpen root :=
    congrFun (congrArg Registry.isOpen hload) root
  have hadded := (registry_addRoot (w.load root) id root).trans
    (congrArg (·.modifyRoots id (addTo root)) hload)
  unfold gainRoot
  dsimp only
  split
  · split
    · rename_i hopen
      obtain ⟨hregistry, horphans⟩ := takeOver_eq id detached hopen
      rw [hregistry, horphans, hadded]
      exact .inr ⟨hopenLoad ▸ hopen, rfl, rfl⟩
    · rename_i hopen
      have hclosed : w.isOpen root = false := by
        rw [← hopenLoad]
        exact Bool.eq_false_iff.mpr hopen
      exact .inl ⟨rfl, hclosed, .inr hadded⟩
  · rename_i htracked
    have hclosed : w.isOpen root = false := by
      rw [← hopenLoad]
      exact Bool.eq_false_iff.mpr fun hopen => htracked (isTracked_of_isOpen hopen)
    exact .inl ⟨rfl, hclosed, .inl hload⟩

theorem gainRoot_sound {state : Workspace × List Path} (h : Updating t guests id state)
    (root : Path) : Updating t (guests.filter (· ≠ root)) id (gainRoot id state root) := by
  obtain ⟨hsound, hle, hid⟩ := h
  have hsound' := hsound.modifyRoots id (addTo root)
  have hid' (ht : t.live) : (state.1.registry.modifyRoots id (addTo root)).IsConfigured id :=
    (hid ht).modifyRoots id fun _ _ hkind => hkind
  rcases gainRoot_cases id state root with
    ⟨horphans, hclosed, hregistry⟩ | ⟨hopen, hregistry, horphans⟩
  · have hguests : root ∉ guests := fun hg => by
      have hopen : state.1.isOpen root := (hsound.guest root hg).1
      simp [hclosed] at hopen
    rw [updating_iff, horphans, filter_ne_guests hguests]
    rcases hregistry with hregistry | hregistry
    · rw [hregistry]
      exact ⟨hsound, hle, hid⟩
    · rw [hregistry]
      exact ⟨hsound', hle, hid'⟩
  · rw [updating_iff, hregistry, horphans]
    refine ⟨(hsound'.takeOver hopen hle hid').perm ?_, ?_, fun ht =>
      hsound'.isConfigured_takeOver ht (hid' ht)⟩
    · rw [List.append_nil, List.append_nil]
      exact List.perm_append_comm
    · rw [lastProject_takeOver]
      exact hle

theorem foldl_gainRoot_sound {state : Workspace × List Path} (h : Updating t guests id state)
    (roots : List Path) :
    Updating t (guests.filter (· ∉ roots)) id (roots.foldl (gainRoot id) state) := by
  induction roots generalizing state guests with
  | nil => simpa using h
  | cons root roots ih =>
      have hguests : (guests.filter (· ≠ root)).filter (· ∉ roots) =
          guests.filter (· ∉ root :: roots) := by
        rw [List.filter_filter]
        congr 1
        funext q
        simp only [List.mem_cons, not_or, Bool.decide_and, Bool.and_comm]
      rw [List.foldl_cons, ← hguests]
      exact ih (gainRoot_sound h root)

theorem registry_removeRoot (w : Workspace) (id : ProjectId) (root : Path) :
    (w.modifyProject id (·.removeRoot root)).registry =
      w.registry.modifyRoots id (·.filter (· ≠ root)) :=
  registry_modifyRoots fun project => project.charter_removeRoot root

theorem dropRoot_sound {state : Workspace × List Path} (h : Updating t guests id state)
    (root : Path) : Updating t guests id (dropRoot id state root) := by
  obtain ⟨w, detached⟩ := state
  obtain ⟨hsound, hle, hid⟩ := h
  have hsound' : Sound t (w.modifyProject id (·.removeRoot root)).registry (detached ++ []) []
      guests := by
    rw [registry_removeRoot]
    exact hsound.modifyRoots ..
  have hid' (ht : t.live) :
      (w.modifyProject id (·.removeRoot root)).registry.IsConfigured id := by
    rw [registry_removeRoot]
    exact (hid ht).modifyRoots id fun _ _ hkind => hkind
  unfold dropRoot
  dsimp only
  split
  · rename_i hdrop
    have hunlisted := hsound'.unlist
      (OpenFiles.without_removeConfiguredRoot
        (w.modifyProject id (·.removeRoot root)).openFiles root)
      (OpenFiles.section_configuredRoots.mem_all _ root hdrop.2)
      fun ht => OpenFiles.not_mem_removeConfiguredRoot (hsound'.nodup ht) hdrop.2
    rw [updating_iff]
    dsimp only
    rw [registry_setOwner (.inr rfl)]
    refine ⟨hunlisted.perm ?_, hle, fun ht => ?_⟩
    · rw [List.append_nil, List.append_nil]
      exact (List.perm_append_singleton root detached).symm
    · have hid'' : ((w.modifyProject id (·.removeRoot root)).registry.modifyOpenFiles
          (·.removeConfiguredRoot root)).IsConfigured id := hid' ht
      exact hid''.setOwner root none
  · exact ⟨hsound', hle, hid'⟩

theorem foldl_dropRoot_sound {state : Workspace × List Path} (h : Updating t guests id state)
    (roots : List Path) : Updating t guests id (roots.foldl (dropRoot id) state) := by
  induction roots generalizing state with
  | nil => exact h
  | cons root roots ih => exact ih (dropRoot_sound h root)

/-- The roots that a project gains as it is made what its manifest defines. -/
def gains (w : Workspace) (id : ProjectId) (outcome : Manifest.Outcome) : List Path :=
  match w.projects.get? id with
  | none => []
  | some project =>
    if outcome.definesProject then outcome.roots.filter fun root => root ∉ project.roots else []

@[simp] theorem registry_renewed (w : Workspace) (id : ProjectId)
    (settings : List (String × Toml.Value)) :
    ((w.modifyProject id fun project => { project with settings, isStale := true }).refreshProject
      id).registry = w.registry := by
  rw [registry_refreshProject]
  exact registry_modifyProject fun _ => rfl

/-- A guest that is among the roots that a project gains is given its place on the way. -/
theorem applyManifest_sound (h : Sound t w.registry [] [] guests) (outcome : Manifest.Outcome)
    (hid : t.live → w.registry.IsLive id → w.registry.IsConfigured id) :
    Sound t (w.applyManifest id outcome).registry [] []
      (guests.filter (· ∉ w.gains id outcome)) := by
  unfold applyManifest gains
  cases hproject : w.projects.get? id with
  | none => simpa using h
  | some project =>
      have hlive : w.registry.IsLive id := by simp [IsLive, registry, hproject]
      dsimp only
      split
      · have hstart : Updating t guests id (w, []) :=
          ⟨h, h.live_le id hlive, fun ht => hid ht hlive⟩
        have hdropped := foldl_dropRoot_sound hstart
          (project.roots.filter fun root => root ∉ outcome.roots)
        have hgained := foldl_gainRoot_sound hdropped
          (outcome.roots.filter fun root => root ∉ project.roots)
        apply reattach_sound
        rw [registry_renewed]
        exact hgained.sound
      · simpa using h

/-- The roots that a project gains as its manifest is read again. -/
def gainsOf (w : Workspace) (id : ProjectId) : List Path :=
  match w.manifestOf? id with
  | none => []
  | some manifest =>
    if w.fs.isFile (.ofPath manifest) then
      w.gains id (Manifest.read w.fs w.normalizer (.ofPath manifest))
    else []

/-- The roots that a project gains as the manifest nearest to a file is read. -/
def gainsNear (w : Workspace) (p : Path) : List Path :=
  match w.nearestManifest? p with
  | none => []
  | some manifest =>
    match w.projectOfManifest? manifest with
    | none => []
    | some id => w.gainsOf id

theorem isConfigured_of_manifestOf? {manifest : Path} (h : w.manifestOf? id = some manifest) :
    w.registry.IsConfigured id := by
  unfold manifestOf? at h
  cases hproject : w.projects.get? id with
  | none => simp [hproject] at h
  | some project =>
      refine ⟨project.charter, by simp [registry, hproject], fun hkind => ?_⟩
      have hkind' : project.kind = .inferred := hkind
      simp [hproject, Project.manifest?, hkind'] at h

theorem updateConfigured_sound (h : Sound t w.registry [] [] guests) (id : ProjectId)
    (trigger? : Option Path) :
    Sound t (w.updateConfigured id trigger?).registry [] [] (guests.filter (· ∉ w.gainsOf id)) := by
  unfold updateConfigured gainsOf
  cases hmanifest : w.manifestOf? id with
  | none => simpa using h
  | some manifest =>
      have hid : t.live → w.registry.IsLive id → w.registry.IsConfigured id := fun _ _ =>
        isConfigured_of_manifestOf? hmanifest
      dsimp only
      split
      · unfold readManifest
        dsimp only
        split
        · exact applyManifest_sound h _ hid
        · rw [← registry_emit] at h hid
          exact applyManifest_sound h _ hid
      · simpa using dissolve_sound h id

theorem createConfigured_sound (h : Sound t w.registry loose [] guests) (manifest : Path)
    (outcome : Manifest.Outcome) :
    Sound t (w.createConfigured manifest outcome).registry loose [] guests := by
  rcases createConfigured_cases w manifest outcome with heq | ⟨roots, heq⟩
  · rw [heq]
    exact h
  · rw [heq]
    exact h.enroll ..

theorem consultManifest_sound (h : Sound t w.registry [] [] guests) (p : Path) :
    Sound t (w.consultManifest p).registry [] [] (guests.filter (· ∉ w.gainsNear p)) := by
  unfold consultManifest gainsNear
  cases w.nearestManifest? p with
  | none => simpa using h
  | some manifest =>
      dsimp only
      split
      · rename_i id hid
        simp only [hid]
        exact updateConfigured_sound h id _
      · rename_i hid
        simp only [hid]
        rw [← registry_readManifest w manifest (some p)] at h
        simpa using createConfigured_sound h manifest _

/-- After all manifests were read everything is settled. -/
theorem reload_keeps (property : Workspace → Prop)
    (hupdate : ∀ w id, property w → property (w.updateConfigured id none))
    (hconsult : ∀ w p, property w → property (w.consultManifest p)) (h : property w) :
    ∃ reloaded, property reloaded ∧ w.reload = reloaded.settle := by
  have hupdated : property (w.configured.foldl (fun w id => w.updateConfigured id none) w) :=
    List.foldlRecOn _ _ h fun w h id _ => hupdate w id h
  unfold reload
  dsimp only
  exact ⟨_, List.foldlRecOn _ _ hupdated fun w h p _ => hconsult w p h, rfl⟩

/-- A manifest is read again if it is still there, and followed if it lists other files. -/
theorem rereadManifest_cases (w : Workspace) (id : ProjectId) :
    w.rereadManifest id = w ∨ w.rereadManifest id = (w.updateConfigured id none).settle ∨
    ∃ manifest, w.manifestOf? id = some manifest ∧
      (w.rereadManifest id = (w.readManifest manifest none).1 ∨
        w.rereadManifest id = ((w.readManifest manifest none).1.applyManifest id
          (w.readManifest manifest none).2).settle) := by
  unfold rereadManifest
  split
  · exact .inl rfl
  · rename_i manifest hmanifest
    split
    · dsimp only
      split
      · exact .inr (.inr ⟨manifest, hmanifest, .inl rfl⟩)
      · exact .inr (.inr ⟨manifest, hmanifest, .inr rfl⟩)
    · exact .inr (.inl rfl)

/-- A manifest that has no project yet is read, and all are read again if it makes one. -/
theorem discoverManifest_cases (w : Workspace) (manifest : Path) :
    w.discoverManifest manifest = w ∨
    w.discoverManifest manifest = (w.readManifest manifest none).1 ∨
    w.projectOfManifest? manifest = none ∧
      w.discoverManifest manifest = ((w.readManifest manifest none).1.createConfigured manifest
        (w.readManifest manifest none).2).reload := by
  unfold discoverManifest
  split
  · exact .inl rfl
  · rename_i hnone
    dsimp only
    split
    · exact .inr (.inr ⟨Option.not_isSome_iff_eq_none.mp hnone, rfl⟩)
    · exact .inr (.inl rfl)

theorem reload_sound (h : Sound t w.registry [] [] []) :
    Sound t.settled w.reload.registry [] [] [] := by
  obtain ⟨reloaded, hreloaded, heq⟩ := reload_keeps (fun w => Sound t w.registry [] [] [])
    (fun _ id h => updateConfigured_sound h id none) (fun _ p h => consultManifest_sound h p) h
  rw [heq]
  exact settle_sound hreloaded

/-- The manifest of a configured project was read, which changes nothing yet. -/
theorem isConfigured_readManifest {manifest : Path} (h : w.manifestOf? id = some manifest) :
    (w.readManifest manifest none).1.registry.IsConfigured id := by
  rw [registry_readManifest]
  exact isConfigured_of_manifestOf? h

theorem rereadManifest_sound (h : Sound t.settled w.registry [] [] []) (id : ProjectId) :
    Sound t.settled (w.rereadManifest id).registry [] [] [] := by
  rcases rereadManifest_cases w id with hsame | hupdated | ⟨manifest, hmanifest, hread | happlied⟩
  · rwa [hsame]
  · rw [hupdated]
    exact settle_sound (t := t.settled) (updateConfigured_sound h id none)
  · rwa [hread, registry_readManifest]
  · rw [happlied]
    rw [← registry_readManifest w manifest none] at h
    exact settle_sound (t := t.settled)
      (applyManifest_sound h _ fun _ _ => isConfigured_readManifest hmanifest)

theorem discoverManifest_sound (h : Sound t.settled w.registry [] [] []) (manifest : Path) :
    Sound t.settled (w.discoverManifest manifest).registry [] [] [] := by
  rcases discoverManifest_cases w manifest with hsame | hread | ⟨-, hcreated⟩
  · rwa [hsame]
  · rwa [hread, registry_readManifest]
  · rw [hcreated]
    rw [← registry_readManifest w manifest none] at h
    exact reload_sound (t := t.settled) (createConfigured_sound h manifest _)

end Workspace

end ProjectTracker
