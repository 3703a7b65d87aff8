import ProjectTracker.Proofs.Workspace.Seating
/-!
All that is asked of a workspace leaves its documents in the proper lists, unless a step takes a document
away from its project.
-/

namespace ProjectTracker

namespace Registry

variable {t : Terms} {r : Registry} {loose guests single : List Path} {p root : Path} {id : ProjectId}

/-- Out of its former list, and without a project of its own, a document may come to the next one. -/
theorem Seated.free_vacate (h : Seated r none single) (hown : ¬r.Own root) :
    Free (r.modifyOpenFiles fun o => (o.removeReferenced root).removeConfiguredRoot root) single
      root := by
  have htwice := h.twice root
  refine ⟨hown, h.nodup.not_mem_erase, ?_, fun hsingle => List.count_eq_zero.mp ?_⟩
  · show (r.openFiles.configuredRoots.erase root).count root ≤ 1
    rw [List.count_erase_self]
    omega
  · have honce := h.once root (.inr hsingle)
    show (r.openFiles.configuredRoots.erase root).count root = 0
    rw [List.count_erase_self]
    omega

theorem Seated.takeOver (h : Seated r none single) (hsound : Sound t r loose [] guests)
    (id : ProjectId) (root : Path) : Seated (r.takeOver id root).1 none single := by
  have hevicted := (h.below (OpenFiles.below_removeRoot _ root)).evict (r.rootOwner? root)
  have hown : ¬((r.modifyOpenFiles (·.removeRoot root)).evict (r.rootOwner? root)).1.Own root := by
    unfold rootOwner?
    split
    · rename_i hroot
      exact (h.free_unseat hroot).1.own
    · rename_i hroot
      exact fun hown => hroot (h.mem_roots_of_own hsound hown)
  have hvacated := hevicted.below ((OpenFiles.below_removeConfiguredRoot _ root).trans
    (OpenFiles.below_removeReferenced _ root))
  exact hvacated.joinConfigured (hevicted.free_vacate hown) id

/-- The roots of a configured project may change. -/
theorem Seated.modifyConfigured (h : Seated r none single) (hid : r.IsConfigured id)
    (f : List Path → List Path) : Seated (r.modifyRoots id f) none single := by
  refine h.modifyRoots fun c hc hkind => ?_
  obtain ⟨c', hc', hkind'⟩ := hid
  obtain rfl : c = c' := Option.some.inj (hc.symm.trans hc')
  exact absurd hkind hkind'

/-- The root of an inferred project may be taken away from it, as long as the project goes then. -/
theorem Seated.vacate (h : Seated r none single) (hown : r.Own p) (howner : r.owner? p = some id)
    (hroot : p ∉ r.openFiles.roots) : Seated (r.setOwner p none) (some id) single where
  own q hq := by
    have hqp : q ≠ p := fun hqp => hroot (hqp ▸ hq)
    exact (own_setOwner_iff hqp).mpr (h.own q hq)
  inferred i c hc hkind hi := by
    obtain ⟨c', hc', hkind', hroots⟩ := kind_setOwner hc
    obtain ⟨q, hq, hq'⟩ := h.inferred i c' hc' (hkind' ▸ hkind) (by simp)
    have hqp : q ≠ p := by
      rintro rfl
      exact hi (howner.symm.trans hq')
    exact ⟨q, hroots ▸ hq, by simpa [hqp] using hq'⟩
  apart q hq := by
    have hqp : q ≠ p := fun hqp => (h.apart q hq).1 (hqp ▸ hown)
    exact ⟨(own_setOwner_iff hqp).not.mpr (h.apart q hq).1, (h.apart q hq).2⟩
  configured q hq := by
    have hqp : q ≠ p := fun hqp => h.configured q hq (hqp ▸ hown)
    exact (own_setOwner_iff hqp).not.mpr (h.configured q hq)
  nodup := h.nodup
  twice := h.twice
  once q hq := by
    by_cases hqp : q = p
    · subst q
      show r.openFiles.configuredRoots.count p ≤ 1
      rw [List.count_eq_zero.mpr fun hmem => h.configured p hmem hown]
      omega
    · exact h.once q (by simpa [hqp] using hq)

/-- A document that is closed leaves the list where it is found first. -/
theorem Seated.shut (h : Seated r none single) (hsound : Sound t r [] [] []) (p : Path) :
    Seated ((r.modifyOpenFiles (·.removeFirst p)).setOwner p none)
      (if p ∈ r.openFiles.roots then r.owner? p else none) single := by
  have hbelow := OpenFiles.below_removeFirst r.openFiles p
  split
  · rename_i hroot
    have hown := h.own p hroot
    have ⟨id, howner, _⟩ := hown
    rw [howner]
    exact (h.below hbelow).vacate hown howner
      (OpenFiles.not_mem_roots_removeFirst hsound.roots_nodup)
  · rename_i hroot
    refine h.unlist hbelow (fun hown => hroot (h.mem_roots_of_own hsound hown)) ?_
    have htwice := h.twice p
    show (r.openFiles.removeFirst p).configuredRoots.count p ≤ 1
    unfold OpenFiles.removeFirst
    rw [if_neg hroot]
    split
    · show (r.openFiles.configuredRoots.erase p).count p ≤ 1
      rw [List.count_erase_self]
      omega
    · rename_i hconfigured
      show r.openFiles.configuredRoots.count p ≤ 1
      rw [List.count_eq_zero.mpr hconfigured]
      omega

/-- A document that stands nowhere stands nowhere twice. -/
theorem Seated.alone (h : Seated r none []) (hp : p ∉ r.openFiles.configuredRoots) :
    Seated r none [p] :=
  { h with
    once := fun q hq => by
      by_cases hqp : q = p
      · rw [List.count_eq_zero.mpr (hqp ▸ hp)]
        omega
      · exact h.once q (.inl (hq.resolve_right (by simpa using hqp))) }

theorem free_of_guest (hsound : Sound t r loose [] guests) (hp : p ∈ guests) :
    Free r single p ∧ r.Welcome p := by
  obtain ⟨-, hnone, hall, -⟩ := hsound.guest p hp
  simp only [OpenFiles.all, List.mem_append, not_or] at hall
  obtain ⟨⟨-, hreferenced⟩, hconfigured⟩ := hall
  refine ⟨⟨?_, hreferenced, ?_, fun _ => hconfigured⟩, fun hmem => absurd hmem hconfigured⟩
  · rintro ⟨id, howner, -⟩
    simp [hnone] at howner
  · rw [List.count_eq_zero.mpr hconfigured]
    omega

/-- A document that is listed for its project already may be listed once more. -/
theorem Seated.free_of_anchored (h : Seated r none [p]) (hanchored : r.Anchored id p) :
    Free r [] p ∧ r.Welcome p :=
  ⟨⟨h.configured p hanchored.listed, fun hmem => (h.apart p hmem).2 hanchored.listed,
    h.once p (.inr (by simp)), by simp⟩, fun _ => ⟨id, hanchored.rooted⟩⟩

/-- Nothing of it depends on which documents are open. -/
theorem Seated.setOpen {vacant? : Option ProjectId} {isOpen : Bool} (h : Seated r vacant? single) :
    Seated (r.setOpen p isOpen) vacant? single :=
  ⟨h.own, h.inferred, h.apart, h.configured, h.nodup, h.twice, h.once⟩

end Registry

namespace Workspace

open Registry

variable {t : Terms} {w received : Workspace} {loose guests single : List Path} {p root : Path}
  {id : ProjectId} {state : Workspace × List Path}

/-! ### Manifests -/

theorem gainRoot_seated (ht : t.live) (hsound : Updating t guests id state)
    (h : Seated state.1.registry none single) (root : Path) :
    Seated (gainRoot id state root).1.registry none single := by
  have hadded := h.modifyConfigured (hsound.configured ht) (addTo root)
  rcases gainRoot_cases id state root with ⟨-, -, hregistry | hregistry⟩ | ⟨-, hregistry, -⟩
  · rw [hregistry]
    exact h
  · rw [hregistry]
    exact hadded
  · rw [hregistry]
    exact hadded.takeOver (hsound.sound.modifyRoots id (addTo root)) id root

theorem foldl_gainRoot_seated (ht : t.live) (hsound : Updating t guests id state)
    (h : Seated state.1.registry none single) (roots : List Path) :
    Seated (roots.foldl (gainRoot id) state).1.registry none single := by
  induction roots generalizing state guests with
  | nil => exact h
  | cons root roots ih => exact ih (gainRoot_sound hsound root) (gainRoot_seated ht hsound h root)

theorem dropRoot_seated (ht : t.live) (hsound : Updating t guests id state)
    (h : Seated state.1.registry none single) (root : Path) :
    Seated (dropRoot id state root).1.registry none single := by
  obtain ⟨w, detached⟩ := state
  have hdropped : Seated (w.modifyProject id (·.removeRoot root)).registry none single := by
    rw [registry_removeRoot]
    exact h.modifyConfigured (hsound.configured ht) _
  unfold dropRoot
  dsimp only
  split
  · rename_i hlisted
    obtain ⟨hbelow, hgone⟩ := leaves_configuredRoots
      (w.modifyProject id (·.removeRoot root)).openFiles root
    obtain ⟨hown, hcount⟩ := hgone _ single rfl hdropped hlisted.2
    rw [registry_setOwner (.inr rfl)]
    exact hdropped.unlist hbelow hown hcount
  · exact hdropped

theorem foldl_dropRoot_seated (ht : t.live) (hsound : Updating t guests id state)
    (h : Seated state.1.registry none single) (roots : List Path) :
    Seated (roots.foldl (dropRoot id) state).1.registry none single := by
  induction roots generalizing state with
  | nil => exact h
  | cons root roots ih => exact ih (dropRoot_sound hsound root) (dropRoot_seated ht hsound h root)

theorem applyManifest_seated (ht : t.live) (hsound : Sound t w.registry [] [] guests)
    (h : Seated w.registry none single) (outcome : Manifest.Outcome)
    (hid : w.registry.IsLive id → w.registry.IsConfigured id) :
    Seated (w.applyManifest id outcome).registry none single := by
  unfold applyManifest
  cases hproject : w.projects.get? id with
  | none => exact h
  | some project =>
      have hlive : w.registry.IsLive id := by simp [IsLive, registry, hproject]
      dsimp only
      split
      · have hstart : Updating t guests id (w, []) :=
          ⟨hsound, hsound.live_le id hlive, fun _ => hid hlive⟩
        have hdropped := foldl_dropRoot_sound hstart
          (project.roots.filter fun root => root ∉ outcome.roots)
        have hgained := foldl_gainRoot_sound hdropped
          (outcome.roots.filter fun root => root ∉ project.roots)
        have hseated := foldl_gainRoot_seated ht hdropped (foldl_dropRoot_seated ht hstart h _)
          (outcome.roots.filter fun root => root ∉ project.roots)
        generalize List.foldl (gainRoot id) _ _ = gained at hgained hseated ⊢
        rw [updating_iff, ← registry_renewed gained.1 id outcome.settings] at hgained
        rw [← registry_renewed gained.1 id outcome.settings] at hseated
        exact reattach_seated ht hgained.1 hseated
      · exact h

theorem updateConfigured_seated (ht : t.live) (hsound : Sound t w.registry [] [] guests)
    (h : Seated w.registry none single) (id : ProjectId) (trigger? : Option Path) :
    Seated (w.updateConfigured id trigger?).registry none single := by
  unfold updateConfigured
  cases hmanifest : w.manifestOf? id with
  | none => exact h
  | some manifest =>
      dsimp only
      split
      · have hid : (w.readManifest manifest trigger?).1.registry.IsLive id →
            (w.readManifest manifest trigger?).1.registry.IsConfigured id := fun _ => by
          rw [registry_readManifest]
          exact isConfigured_of_manifestOf? hmanifest
        rw [← registry_readManifest w manifest trigger?] at hsound h
        exact applyManifest_seated ht hsound h _ hid
      · exact dissolve_seated ht hsound h (by simp)

theorem createConfigured_seated (hsound : Sound t w.registry loose [] guests)
    (h : Seated w.registry none single) (manifest : Path) (outcome : Manifest.Outcome) :
    Seated (w.createConfigured manifest outcome).registry none single := by
  rcases createConfigured_cases w manifest outcome with heq | ⟨roots, heq⟩
  · rw [heq]
    exact h
  · rw [heq]
    exact h.enroll hsound.owner_le (.configured manifest) roots (by simp)

theorem consultManifest_seated (ht : t.live) (hsound : Sound t w.registry [] [] guests)
    (h : Seated w.registry none single) (p : Path) :
    Seated (w.consultManifest p).registry none single := by
  unfold consultManifest
  cases w.nearestManifest? p with
  | none => exact h
  | some manifest =>
      dsimp only
      split
      · exact updateConfigured_seated ht hsound h _ _
      · rw [← registry_readManifest w manifest (some p)] at hsound h
        exact createConfigured_seated hsound h manifest _

theorem reload_seated (ht : t.live) (hsound : Sound t w.registry [] [] [])
    (h : Seated w.registry none single) : Seated w.reload.registry none single := by
  obtain ⟨reloaded, ⟨hsound', h'⟩, heq⟩ := reload_keeps
    (fun w => Sound t w.registry [] [] [] ∧ Seated w.registry none single)
    (fun _ id h => ⟨updateConfigured_sound h.1 id none, updateConfigured_seated ht h.1 h.2 id none⟩)
    (fun _ p h => ⟨consultManifest_sound h.1 p, consultManifest_seated ht h.1 h.2 p⟩) ⟨hsound, h⟩
  rw [heq]
  exact settle_seated ht hsound' h'

theorem rereadManifest_seated (ht : t.live) (hsound : Sound t w.registry [] [] [])
    (h : Seated w.registry none single) (id : ProjectId) :
    Seated (w.rereadManifest id).registry none single := by
  rcases rereadManifest_cases w id with hsame | hupdated | ⟨manifest, hmanifest, hread | happlied⟩
  · rwa [hsame]
  · rw [hupdated]
    exact settle_seated ht (updateConfigured_sound hsound id none)
      (updateConfigured_seated ht hsound h id none)
  · rwa [hread, registry_readManifest]
  · have hid := isConfigured_readManifest hmanifest
    rw [happlied]
    rw [← registry_readManifest w manifest none] at hsound h
    exact settle_seated ht (applyManifest_sound hsound _ fun _ _ => hid)
      (applyManifest_seated ht hsound h _ fun _ => hid)

theorem discoverManifest_seated (ht : t.live) (hsound : Sound t w.registry [] [] [])
    (h : Seated w.registry none single) (manifest : Path) :
    Seated (w.discoverManifest manifest).registry none single := by
  rcases discoverManifest_cases w manifest with hsame | hread | ⟨-, hcreated⟩
  · rwa [hsame]
  · rwa [hread, registry_readManifest]
  · rw [hcreated]
    rw [← registry_readManifest w manifest none] at hsound h
    exact reload_seated ht (createConfigured_sound hsound manifest _)
      (createConfigured_seated hsound h manifest _)

/-! ### Changes of files and the clock -/

/-- The root of an inferred project is open, so that no such project loses a closed file. -/
theorem foldl_dropFile_seated (hsound : Sound t w.registry loose [] guests)
    (h : Seated w.registry none single) (hclosed : w.isOpen p = false) (ids : List ProjectId) :
    Seated (ids.foldl (fun w id =>
      w.modifyProject id fun project => (project.removeRoot p).markStale) w).registry none
      single := by
  induction ids generalizing w with
  | nil => exact h
  | cons id ids ih =>
      refine ih (foldl_removeRoot_sound hsound p [id]) ?_ hclosed
      rw [registry_dropFile]
      refine h.modifyRoots fun c hc hkind => ?_
      obtain ⟨q, hroots, howner⟩ := h.inferred id c hc hkind (by simp)
      have hopen : w.isOpen q := hsound.owned_open q (by simp [howner])
      have hqp : q ≠ p := by
        rintro rfl
        simp [hclosed] at hopen
      rw [hroots]
      simp [hqp]

/-- A closed file that is gone is forgotten, and dropped from the roots of projects. -/
theorem dropFile_seated (hsound : Sound t.settled w.registry [] [] [])
    (h : Seated w.registry none single) (hopen : w.isOpen p = false) :
    let dropped := (w.projects.keys.filter fun id => w.projectHas id (·.contains p)).foldl
      (fun w id => w.modifyProject id fun project => (project.removeRoot p).markStale) (w.forget p)
    Sound t.settled dropped.registry [] [] [] ∧ Seated dropped.registry none single := by
  have hnone : w.owner? p = none := by
    by_contra hne
    simpa [hopen] using hsound.owned_open p hne
  have hforgotten := registry_forget hopen hnone
  have hclosed : (w.forget p).isOpen p = false := by
    rw [← registry_isOpen, hforgotten]
    exact hopen
  rw [← hforgotten] at hsound h
  exact ⟨foldl_removeRoot_sound hsound p _, foldl_dropFile_seated hsound h hclosed _⟩

theorem documentDeleted_seated (ht : t.live) (hsound : Sound t.settled w.registry [] [] [])
    (h : Seated w.registry none single) (p : Path) :
    Seated (w.documentDeleted p).registry none single := by
  unfold documentDeleted
  cases hopen : w.isOpen p with
  | true =>
      dsimp only
      rw [if_pos rfl, registry_emit, registry_unwatch]
      exact h
  | false =>
      obtain ⟨hdropped, hseated⟩ := dropFile_seated hsound h hopen
      dsimp only
      rw [if_neg Bool.false_ne_true]
      rw [← registry_refresh] at hdropped hseated
      refine settle_seated (t := t.settled) ht (?_ : Sound _ _ [] [] []) ?_
      · rw [registry_foldl fun w q _ => registry_emit w _]
        exact hdropped
      · rw [registry_foldl fun w q _ => registry_emit w _]
        exact hseated

theorem documentChanged_seated (ht : t.live) (hsound : Sound t.settled w.registry [] [] [])
    (h : Seated w.registry none single) (p : Path) (change : FileChange) :
    Seated (w.documentChanged p change).registry none single := by
  rcases documentChanged_cases w p change with hsame | hdeleted | ⟨d, text, hd, hread⟩
  · rwa [hsame]
  · rw [hdeleted]
    exact documentDeleted_seated ht hsound h p
  · rw [hread]
    have hmodified := registry_modify_retexted hd (d.retexts_reloadIfChanged text)
    split
    · rwa [registry_textChanged, registry_markStaleAround, hmodified]
    · rwa [hmodified]

theorem fileChanged_seated (ht : t.live) (hsound : Sound t.settled w.registry [] [] [])
    (h : Seated w.registry none single) (p : Path) (change : FileChange) :
    Seated (w.fileChanged p change).registry none single :=
  (fileChanged_keeps (fun w => Sound t.settled w.registry [] [] [] ∧ Seated w.registry none single)
    (fun _ p change h =>
      ⟨documentChanged_sound h.1 p change, documentChanged_seated ht h.1 h.2 p change⟩)
    (fun _ id trigger? h => ⟨settle_sound (t := t.settled) (updateConfigured_sound h.1 id trigger?),
      settle_seated (t := t.settled) ht (updateConfigured_sound h.1 id trigger?)
        (updateConfigured_seated (t := t.settled) ht h.1 h.2 id trigger?)⟩)
    (fun _ _ _ _ h => h)
    (fun _ manifest h => ⟨discoverManifest_sound h.1 manifest,
      discoverManifest_seated (t := t.settled) ht h.1 h.2 manifest⟩)
    ⟨hsound, h⟩ p change).2

theorem runTask_seated (ht : t.live) (hsound : Sound t.settled w.registry [] [] [])
    (h : Seated w.registry none single) (task : Task) :
    Seated (w.runTask task).registry none single := by
  cases task with
  | fold p =>
      unfold runTask
      rwa [registry_fold]
  | settle change =>
      unfold runTask
      dsimp only
      split
      · exact settle_seated (t := t.settled) ht hsound h
      · exact h
  | reread id => exact rereadManifest_seated (t := t.settled) ht hsound h id

theorem advance_seated (ht : t.live) (hsound : Sound t.settled w.registry [] [] [])
    (h : Seated w.registry none single) (duration : Nat) :
    Seated (w.advance duration).registry none single :=
  (advance_keeps (fun w => Sound t.settled w.registry [] [] [] ∧ Seated w.registry none single)
    (fun _ _ _ h => h) (fun _ task h => ⟨runTask_sound h.1 task, runTask_seated ht h.1 h.2 task⟩)
    ⟨hsound, h⟩ duration).2

theorem flush_seated (ht : t.live) (hsound : Sound t.settled w.registry [] [] [])
    (h : Seated w.registry none single) : Seated w.flush.registry none single :=
  (flush_keeps (fun w => Sound t.settled w.registry [] [] [] ∧ Seated w.registry none single)
    (fun _ duration h => ⟨advance_sound h.1 duration, advance_seated ht h.1 h.2 duration⟩)
    ⟨hsound, h⟩).2

/-! ### Opening and closing -/

/-- What closing a document does to the registry before the projects are looked at. -/
theorem registry_shut (hopen : w.isOpen p) :
    (((w.modifyOpenFiles (·.removeFirst p)).setOwner p none).modifyDocument p fun d =>
      { d with isOpen := false }).registry =
        ((w.registry.modifyOpenFiles (·.removeFirst p)).setOwner p none).setOpen p false := by
  have howned : ((w.modifyOpenFiles (·.removeFirst p)).setOwner p none).registry =
      (w.registry.modifyOpenFiles (·.removeFirst p)).setOwner p none :=
    registry_setOwner (.inr rfl)
  have htracked : ((w.modifyOpenFiles (·.removeFirst p)).setOwner p none).isTracked p := by
    apply isTracked_of_isOpen
    rw [← registry_isOpen, howned]
    exact hopen
  rw [registry_setOpen htracked, howned]

theorem projectHas_of_isLive {property : Project → Bool} (h : w.registry.IsLive id)
    (hproperty : ∀ project, property project) : w.projectHas id property := by
  obtain ⟨c, hc⟩ := Option.isSome_iff_exists.mp h
  obtain ⟨project, hproject, -⟩ := Option.map_eq_some_iff.mp hc
  simp [projectHas, hproject, hproperty]

/-- A document is closed and its project looked after. What comes then is settling. -/
theorem close_eq_settle (ht : t.live) (hsound : Sound t.settled w.registry [] [] [])
    (h : Seated w.registry none single) (hopen : w.isOpen p) (text : Text) :
    ∃ closed, w.close p text = closed.settle ∧
      Sound { t with left := [p] } closed.registry [] [] [] ∧
      Seated closed.registry none single ∧
      Shifts ((w.modifyDocument p (·.reload text)).markStaleAround p) closed := by
  have hreloaded : ((w.modifyDocument p (·.reload text)).markStaleAround p).registry =
      w.registry := by
    rw [registry_markStaleAround]
    exact registry_modifyDocument fun _ _ => ⟨rfl, rfl⟩
  rw [← hreloaded] at hsound h
  rw [← registry_isOpen, ← hreloaded] at hopen
  unfold close
  dsimp only
  refine ⟨_, rfl, ?_⟩
  generalize (w.modifyDocument p (·.reload text)).markStaleAround p = w at hsound h hopen ⊢
  have hsound' := shut_sound hsound hopen
  have hregistry := registry_shut hopen
  have hshifts : Shifts w (((w.modifyOpenFiles (·.removeFirst p)).setOwner p none).modifyDocument p
      fun d => { d with isOpen := false }) :=
    .calm (((calm_modifyOpenFiles w _).trans (calm_setOwner ..)).trans
      (calm_modifyDocument fun _ _ => rfl))
  generalize ((w.modifyOpenFiles (·.removeFirst p)).setOwner p none).modifyDocument p
    (fun d => { d with isOpen := false }) = left at hsound' hregistry hshifts ⊢
  have hshut : Seated left.registry (if p ∈ w.openFiles.roots then w.owner? p else none) single := by
    rw [hregistry]
    exact (h.shut hsound p).setOpen
  rw [registry_emit, registry_cancel]
  have hended (w : Workspace) (e : Event) : Shifts w ((w.cancel (.document p)).emit e) :=
    .calm ((calm_cancel w (.document p) (by simp)).trans (calm_emit ..))
  cases howner : w.owner? p with
  | none => exact ⟨hsound', by simpa [howner] using hshut, hshifts.trans (hended ..)⟩
  | some id =>
      have hvacant : ∀ i, (if p ∈ w.openFiles.roots then w.owner? p else none) = some i →
          i = id := fun i hi => by
        split at hi
        · exact Option.some.inj (hi.symm.trans howner)
        · simp at hi
      dsimp only
      split
      · exact ⟨dissolve_sound hsound' id,
          dissolve_seated (t := { t with left := [p] }) ht hsound' hshut hvacant,
          hshifts.trans ((shifts_dissolve ..).trans (hended ..))⟩
      · rename_i hkept
        -- a project that was inferred for the document would be removed
        have hroot : p ∉ w.openFiles.roots := fun hroot => hkept <| by
          obtain ⟨c, hc, -⟩ := (h.own p hroot).of_owner howner
          have hlive : left.registry.IsLive id := by
            rw [hregistry]
            exact (isLive_setOwner (w.registry.modifyOpenFiles _) p none id).mpr
              (Option.isSome_iff_exists.mpr ⟨c, hc⟩)
          exact projectHas_of_isLive hlive fun _ => by simp [hroot]
        exact ⟨hsound', by simpa [hroot] using hshut, hshifts.trans (hended ..)⟩

theorem close_seated (ht : t.live) (hsound : Sound t.settled w.registry [] [] [])
    (h : Seated w.registry none single) (hopen : w.isOpen p) (text : Text) :
    Seated (w.close p text).registry none single := by
  obtain ⟨closed, heq, hclosed, hseated, -⟩ := close_eq_settle ht hsound h hopen text
  rw [heq]
  exact settle_seated (t := { t with left := [p] }) ht hclosed hseated

theorem closeFile_seated (ht : t.live) (hsound : Sound t.settled w.registry [] [] [])
    (h : Seated w.registry none single) (p : Path) :
    Seated (w.closeFile p).1.registry none single := by
  rcases closeFile_cases w p with hsame | ⟨hopen, text, hclosed⟩
  · rwa [hsame]
  · rw [hclosed]
    exact close_seated ht hsound h hopen text

/-- A document that was just opened may be put in its place, whether the manifest has come to list it or
not. -/
theorem consultManifest_free (ht : t.live) (honce : ¬t.once)
    (hsound : Sound t.settled w.registry [] [] [p]) (h : Seated w.registry none [p]) :
    Sound t.settled (w.consultManifest p).registry [] [p] [] ∧
      Free (w.consultManifest p).registry [] p ∧ (w.consultManifest p).registry.Welcome p := by
  by_cases hgained : p ∈ w.gainsNear p
  · obtain ⟨id, hanchored, hinHand⟩ := consultManifest_gained hsound hgained honce
    exact ⟨hinHand, (consultManifest_seated (t := t.settled) ht hsound h p).free_of_anchored hanchored⟩
  · have hguest := consultManifest_sound hsound p
    exact ⟨consultManifest_welcome hsound hgained, free_of_guest hguest (by simpa using hgained)⟩

theorem consult_attach_seated (ht : t.live) (honce : ¬t.once)
    (hsound : Sound t.settled w.registry [] [] [p]) (h : Seated w.registry none [p]) :
    Seated ((w.consultManifest p).attach p).registry none [] := by
  obtain ⟨hinHand, hfree, hwelcome⟩ := consultManifest_free ht honce hsound h
  exact attach_seated (t := t.settled) ht hinHand ((consultManifest_seated (t := t.settled) ht
    hsound h p).fewer (List.nil_subset [p])) hfree hwelcome

theorem opened_seated (hsound : Sound t.settled w.registry [] [] []) (h : Seated w.registry none [])
    (htracked : w.isTracked p) (hclosed : w.isOpen p = false) :
    Seated (w.modifyDocument p fun d => { d with isOpen := true }).registry none [p] := by
  have hopened := opened_sound hsound htracked hclosed
  refine Seated.alone ?_ fun hmem => ?_
  · rw [registry_setOpen htracked]
    exact h.setOpen
  · exact (hopened.guest _ (by simp)).2.2.1 (List.mem_append_right _ hmem)

theorem openFile_seated (ht : t.live) (honce : ¬t.once)
    (hsound : Sound t.settled w.registry [] [] []) (h : Seated w.registry none [])
    (text? : Option Text) : Seated (w.openFile p text?).1.registry none [] := by
  unfold openFile
  dsimp only
  cases hreceive : w.receive (w.normalize p) text? with
  | error failure => exact h
  | ok received =>
      obtain ⟨hregistry, htracked⟩ := receive_eq hreceive
      have hsame := congrFun (congrArg Registry.isOpen hregistry) (w.normalize p)
      rw [registry_isOpen, registry_isOpen] at hsame
      rw [← hregistry] at hsound h
      dsimp only
      rw [registry_emit]
      split
      · exact h
      · rename_i hopen
        have hclosed := hsame.trans (Bool.eq_false_iff.mpr hopen)
        have hopened := opened_sound hsound htracked hclosed
        have hsound' := consult_attach_sound (t := t) hopened fun hlisted => absurd hlisted honce
        rw [registry_sweep (prune_sound hsound').owned_open]
        exact prune_seated (t := t.settled) ht hsound'
          (consult_attach_seated ht honce hopened (opened_seated hsound h htracked hclosed))

/-! ### Steps and runs -/

/-- Documents that lost no project to it are left where they are. -/
theorem registry_adoptProjectFor (hsound : Sound t.settled w.registry [] [] [])
    (hrobs : ¬w.Robs (.adoptProjectFor p)) : (w.adoptProjectFor p).1.registry = w.registry := by
  rcases adoptProjectFor_cases w p with hregistry | ⟨id, hanswer, hopen, hregistry, -⟩
  · exact hregistry
  · rw [hregistry]
    cases howner : w.owner? (w.normalize p) with
    | none => simpa using hsound.unowned (w.normalize p) hopen howner
    | some former =>
        have hsame : id = former := by
          by_contra hne
          exact hrobs ⟨former, id, howner, hanswer, hne⟩
        rw [hsame, ← howner, ← registry_owner?, setOwner_self]

theorem adoptProjectFor_seated (hsound : Sound t.settled w.registry [] [] [])
    (h : Seated w.registry none single) (hrobs : ¬w.Robs (.adoptProjectFor p)) :
    Seated (w.adoptProjectFor p).1.registry none single := by
  rw [registry_adoptProjectFor hsound hrobs]
  exact h

theorem perform_seated (ht : t.live) (honce : ¬t.once) (hsound : Sound t.settled w.registry [] [] [])
    (h : Seated w.registry none []) {op : Operation} (hrobs : ¬w.Robs op) :
    Seated (w.perform op).registry none [] := by
  cases op with
  | openFile p text? => exact openFile_seated ht honce hsound h text?
  | closeFile p => exact closeFile_seated ht hsound h p
  | changeFile p edits =>
      show Seated (w.changeFile p edits).1.registry none []
      rwa [registry_changeFile]
  | changeRange p range text =>
      show Seated (w.changeRange p range text).1.registry none []
      rwa [registry_changeRange]
  | snapshot p =>
      show Seated (w.snapshot p).1.registry none []
      rwa [registry_snapshot]
  | getText p start length =>
      show Seated (w.query p _).1.registry none []
      rwa [registry_query]
  | getTextRange p range =>
      show Seated (w.query p _).1.registry none []
      rwa [registry_query]
  | positionAt p offset =>
      show Seated (w.query p _).1.registry none []
      rwa [registry_query]
  | offsetAt p position =>
      show Seated (w.query p _).1.registry none []
      rwa [registry_query]
  | projectFor p =>
      show Seated (w.projectFor p).1.registry none []
      rwa [registry_projectFor]
  | adoptProjectFor p => exact adoptProjectFor_seated hsound h hrobs
  | takeEvents =>
      show Seated w.takeEvents.1.registry none []
      rwa [registry_takeEvents]
  | fileChanged p change => exact fileChanged_seated ht hsound h p change
  | advance duration =>
      show Seated (w.advance duration).registry none []
      exact advance_seated ht hsound h duration
  | flush =>
      show Seated w.flush.registry none []
      exact flush_seated ht hsound h
  | reload =>
      show Seated w.reload.registry none []
      exact reload_seated (t := t.settled) ht hsound h
  | settle =>
      show Seated w.settle.registry none []
      exact settle_seated (t := t.settled) ht hsound h
  | replaceFiles fs => exact h

theorem seated_empty {settings : Settings} {scanner : Scanner} {fs : FileSystem} :
    Seated ({ settings, scanner, fs } : Workspace).registry none [] where
  own _ hp := by simp at hp
  inferred _ _ hc := by simp [registry] at hc
  apart _ hp := by simp at hp
  configured _ hp := by simp at hp
  nodup := List.nodup_nil
  twice _ := by simp
  once _ _ := by simp

theorem run_seated (ht : t.live) (honce : ¬t.once) (hsound : Sound t.settled w.registry [] [] [])
    (h : Seated w.registry none []) {ops : List Operation} (hrobs : w.Avoids ops Robs) :
    Seated (w.run ops).registry none [] := by
  induction ops using List.reverseRecOn with
  | nil => exact h
  | append_singleton ops op ih =>
      obtain ⟨hops, hop⟩ := avoids_concat.mp hrobs
      rw [run_concat]
      exact perform_seated ht honce (run_sound hsound (fun hlisted => absurd hlisted honce)
        fun _ => hops) (ih hops) hop

theorem seated_of_avoids_robs {settings : Settings} {scanner : Scanner} {fs : FileSystem}
    {ops : List Operation} (hrobs : ({ settings, scanner, fs } : Workspace).Avoids ops Robs) :
    Seated (({ settings, scanner, fs } : Workspace).run ops).registry none [] :=
  run_seated (t := .owning scanner.normalizer) trivial (fun honce => honce) (sound_empty rfl)
    seated_empty hrobs

end Workspace

end ProjectTracker
