import ProjectTracker.Proofs.Workspace.Clock
import ProjectTracker.Proofs.Workspace.Settlement
/-!
When all work that waits is done everything is in its place, so that settling once more changes nothing. Whatever
might misplace a document settles at once or lets that wait, except for some ways of opening files.
-/

namespace ProjectTracker

namespace Workspace

open Registry

variable {t : Terms} {w w' received : Workspace} {n : Normalizer} {guests single : List Path}
  {p root : Path} {first id : ProjectId}

/-! ### Nothing to settle -/

/-- The documents stand where they should by what the projects hold. -/
def InPlace (w : Workspace) : Prop :=
  Placed (fun _ _ => True) unspared w.registry w.holding?

theorem inPlace_iff : w.InPlace ↔
    (∀ p ∈ w.openFiles.roots, ∀ id held, w.holding? id = some held → held.Contains p → w.owner? p = some id) ∧
    (∀ p ∈ w.openFiles.referenced, ∃ id held, w.holding? id = some held ∧ w.owner? p = some id ∧ held.Contains p) ∧
    (∀ p ∈ w.openFiles.configuredRoots, ∃ id held, w.holding? id = some held ∧ w.owner? p = some id ∧ p ∈ held.roots) ∧
    ∀ id held, w.holding? id = some held → held.isStale = false := by
  simp only [and_left_comm (a := w.holding? _ = some _)]
  constructor
  · rintro ⟨halone, hreferenced, -, hroots, hfresh⟩
    exact ⟨fun p hp id held hheld hcontains => (halone p hp id held hheld hcontains).resolve_right not_false,
      hreferenced, hroots, hfresh⟩
  · rintro ⟨halone, hreferenced, hroots, hfresh⟩
    exact ⟨fun p hp id held hheld hcontains => .inl (halone p hp id held hheld hcontains), hreferenced,
      fun _ _ _ _ _ _ _ => .inl trivial, hroots, hfresh⟩

instance (w : Workspace) : Decidable w.InPlace :=
  decidable_of_iff _ inPlace_iff.symm

/-- There is nothing to settle. -/
structure Neat (w : Workspace) : Prop where
  placed : w.InPlace
  trimmed : w.Trimmed

theorem Neat.of_eq (h : w.Neat) (hregistry : w'.registry = w.registry)
    (hholding : w'.holding? = w.holding?) (htracked : ∀ p, w'.isTracked p → w.isTracked p) :
    w'.Neat := by
  refine ⟨?_, ⟨?_, fun p hp => ?_⟩⟩
  · unfold InPlace
    rw [hregistry, hholding]
    exact h.placed
  · rw [hregistry]
    exact h.trimmed.used
  · have hopen : w'.isOpen = w.isOpen := congrArg Registry.isOpen hregistry
    rw [hopen]
    refine (h.trimmed.needed p (htracked p hp)).imp_right fun ⟨id, hid⟩ => ⟨id, ?_⟩
    rw [projectHas_contains, hholding]
    exact projectHas_contains.mp hid

theorem foldl_detachUnless_eq_self {property : Path → Project → Bool}
    {suits : Path → Holding → Prop} (removal : OpenFiles → Path → OpenFiles)
    (hproperty : ∀ p project, property p project ↔ suits p project.holding) {ps : List Path}
    {state : Workspace × List Path} (h : ∀ p ∈ ps, state.1.Suited suits p) :
    ps.foldl (detachUnless property removal) state = state := by
  induction ps with
  | nil => rfl
  | cons p ps ih =>
      have hsame : detachUnless property removal state p = state := by
        rcases detachUnless_suited hproperty removal state p with ⟨-, hsame⟩ | ⟨hmisplaced, -⟩
        · exact hsame
        · exact absurd (h p (by simp)) hmisplaced
      rw [List.foldl_cons, hsame]
      exact ih fun q hq => h q (by simp [hq])

theorem foldl_demote_eq_self (hw : w.Enlisted) (h : w.InPlace) {ps detached : List Path}
    (hps : ps ⊆ w.openFiles.roots) : ps.foldl demote (w, detached) = (w, detached) := by
  induction ps with
  | nil => rfl
  | cons root ps ih =>
      have hroot : root ∈ w.openFiles.roots := hps (by simp)
      have hnone : w.reachingProject? root (w.owner? root) = none := by
        by_contra hsome
        obtain ⟨id, hid⟩ := Option.ne_none_iff_exists'.mp hsome
        obtain ⟨hne, held, hheld, hcontains, -⟩ := reachingProject?_eq_some hw hid
        exact hne ((h.alone root hroot id held hheld hcontains).resolve_right not_false).symm
      have hsame : demote (w, detached) root = (w, detached) := by
        unfold demote
        dsimp only
        rw [if_neg (not_not_intro hroot), hnone]
      rw [List.foldl_cons, hsame]
      exact ih fun q hq => hps (by simp [hq])

theorem prune_eq_self (hw : w.Enlisted) (h : w.Trimmed) : w.prune = w := by
  have hnone : (w.configured.filter fun id => w.projectHas id (·.openCount = 0)) = [] := by
    refine List.filter_eq_nil_iff.mpr fun id hid hunused => ?_
    obtain ⟨held, hheld, hkind⟩ := (hw.orderly.configured id).mp hid
    have hconfigured : w.registry.IsConfigured id := has_iff.mpr ⟨held, hheld, hkind⟩
    obtain ⟨c, hc, hkind'⟩ := hconfigured
    exact h.used id c hc hkind' (openCount_of_unused (List.mem_filter.mpr ⟨hid, hunused⟩) hc)
  unfold prune
  rw [hnone]
  rfl

theorem sweep_eq_self (hw : w.Enlisted) (h : w.Trimmed) : w.sweep = w := by
  have hnone : (w.documents.paths.filter fun p =>
      !w.isOpen p && !w.projects.values.any (·.contains p)) = [] := by
    refine List.filter_eq_nil_iff.mpr fun p hp hunneeded => ?_
    simp only [Bool.and_eq_true, Bool.not_eq_true'] at hunneeded
    rcases h.needed p (mem_paths_iff.mp hp) with hopen | ⟨id, hid⟩
    · simp [hunneeded.1] at hopen
    · obtain ⟨project, hproject, hcontains⟩ := Option.any_eq_true .. |>.mp hid
      have hany : w.projects.values.any (·.contains p) :=
        List.any_eq_true.mpr ⟨project, (Table.mem_values_iff hw.distinct).mpr ⟨id, hproject⟩, hcontains⟩
      simp [hunneeded.2] at hany
  unfold sweep
  rw [hnone]
  rfl

/-- Settling changes nothing where there is nothing to settle. -/
theorem settle_eq_self (hw : w.Enlisted) (h : w.Neat) : w.settle = w := by
  have hconfigured : w.openFiles.configuredRoots.foldl
      (detachUnless (fun p project => project.isRoot p) .removeConfiguredRoot) (w, []) = (w, []) :=
    foldl_detachUnless_eq_self _ (fun p project => by simp [Project.isRoot, Project.holding])
      h.placed.configuredRoots
  have hreferenced : w.openFiles.referenced.foldl
      (detachUnless (fun p project => project.contains p) .removeReferenced) (w, []) = (w, []) :=
    foldl_detachUnless_eq_self _ (fun p project => Project.contains_iff) h.placed.referenced
  unfold settle
  rw [refresh_eq_self h.placed.fresh]
  dsimp only
  rw [hconfigured]
  dsimp only
  rw [hreferenced]
  dsimp only
  rw [foldl_demote_eq_self hw h.placed (List.Subset.refl _)]
  show w.prune.sweep = w
  rw [prune_eq_self hw h.trimmed, sweep_eq_self hw h.trimmed]

/-! ### Work that waits -/

/-- Settling waits, and no text has changed since it was asked for. -/
def Due (w : Workspace) : Prop :=
  ∃ timer ∈ w.timers.timers, timer.key = .membership ∧ timer.task = .settle w.changeCount

instance (w : Workspace) : Decidable w.Due :=
  inferInstanceAs (Decidable (∃ timer ∈ _, _ ∧ _))

theorem Due.frame (h : w.Due) (hframe : Frame w w') : w'.Due := by
  obtain ⟨timer, htimer, hkey, htask⟩ := h
  exact ⟨timer, hframe.waiting timer htimer hkey, hkey, hframe.changeCount ▸ htask⟩

/-- What every step keeps that takes no document away from its project: there is nothing to settle, or
settling waits. -/
structure Attended (n : Normalizer) (w : Workspace) : Prop extends Tended n w where
  awaited : w.Due ∨ w.Neat

theorem Tended.shifts (h : Tended n w) (hsound : Sound (.owning n) w'.registry [] [] [])
    (hseated : Seated w'.registry none []) (hshifts : Shifts w w') : Tended n w' :=
  ⟨hsound, hseated, h.steady.evolves (.shifts hshifts)⟩

theorem Tended.calm (h : Tended n w) (hcalm : Calm w w') (hregistry : w'.registry = w.registry) :
    Tended n w' :=
  h.shifts (hregistry ▸ h.sound) (hregistry ▸ h.seated) (.calm hcalm)

/-- What has no bearing on projects and tracks no other documents. -/
theorem Attended.calm (h : Attended n w) (hcalm : Calm w w') (hregistry : w'.registry = w.registry)
    (htracked : ∀ p, w'.isTracked p → w.isTracked p) : Attended n w' where
  toTended := h.toTended.calm hcalm hregistry
  awaited := h.awaited.imp (·.frame hcalm.toFrame)
    (·.of_eq hregistry (congrArg Roster.holding? hcalm.roster) htracked)

theorem awaited_emit (h : w.Due ∨ w.Neat) (e : Event) : (w.emit e).Due ∨ (w.emit e).Neat :=
  h.imp (·.frame (calm_emit w e).toFrame) (·.of_eq rfl rfl fun _ hp => hp)

theorem Attended.emit (h : Attended n w) (e : Event) : Attended n (w.emit e) :=
  h.calm (calm_emit w e) rfl fun _ hp => hp

/-- After settling there is nothing to settle. -/
theorem neat_settle (hplanted : Planted first [] w.registry) (hw : w.Enlisted) : w.settle.Neat := by
  obtain ⟨hplaced, htrimmed⟩ := settle_placed hplanted hw
  refine ⟨?_, htrimmed⟩
  exact { hplaced with yields := fun _ _ _ _ _ _ _ => .inl trivial }

theorem settle_eq_self_iff (h : Tended n w) : w.settle = w ↔ w.Neat := by
  refine ⟨fun heq => ?_, settle_eq_self h.steady.enlisted⟩
  rw [← heq]
  exact neat_settle (h.seated.planted 0 h.sound) h.steady.enlisted

theorem attended_settle (h : Tended n w) : Attended n w.settle where
  sound := settle_sound h.sound
  seated := settle_seated (t := .owning n) trivial h.sound h.seated
  steady := steady_settle h.steady
  awaited := .inr (neat_settle (h.seated.planted 0 h.sound) h.steady.enlisted)

/-! ### Manifests -/

theorem tended_readManifest (h : Tended n w) (manifest : Path) (trigger? : Option Path) :
    Tended n (w.readManifest manifest trigger?).1 :=
  h.calm (calm_readManifest ..) (registry_readManifest ..)

theorem attended_readManifest (h : Attended n w) (manifest : Path) (trigger? : Option Path) :
    Attended n (w.readManifest manifest trigger?).1 := by
  unfold readManifest
  dsimp only
  split
  · exact h
  · exact h.emit _

theorem tended_updateConfigured (h : Tended n w) (id : ProjectId) (trigger? : Option Path) :
    Tended n (w.updateConfigured id trigger?) :=
  h.shifts (updateConfigured_sound h.sound id trigger?)
    (updateConfigured_seated (t := .owning n) trivial h.sound h.seated id trigger?)
    (shifts_updateConfigured ..)

theorem tended_consultManifest (h : Tended n w) (p : Path) : Tended n (w.consultManifest p) :=
  h.shifts (consultManifest_sound h.sound p)
    (consultManifest_seated (t := .owning n) trivial h.sound h.seated p)
    (shifts_consultManifest ..)

theorem attended_reload (h : Tended n w) : Attended n w.reload := by
  obtain ⟨reloaded, hreloaded, heq⟩ := reload_keeps (Tended n)
    (fun _ id h => tended_updateConfigured h id none) (fun _ p h => tended_consultManifest h p) h
  rw [heq]
  exact attended_settle hreloaded

theorem attended_rereadManifest (h : Attended n w) (id : ProjectId) :
    Attended n (w.rereadManifest id) := by
  rcases rereadManifest_cases w id with hsame | hupdated | ⟨manifest, hmanifest, hread | happlied⟩
  · rwa [hsame]
  · rw [hupdated]
    exact attended_settle (tended_updateConfigured h.toTended id none)
  · rw [hread]
    exact attended_readManifest h manifest none
  · have hid := isConfigured_readManifest hmanifest
    have htended := tended_readManifest h.toTended manifest none
    rw [happlied]
    exact attended_settle (htended.shifts (applyManifest_sound htended.sound _ fun _ _ => hid)
      (applyManifest_seated (t := .owning n) trivial htended.sound htended.seated _ fun _ => hid)
      (shifts_applyManifest ..))

theorem attended_discoverManifest (h : Attended n w) (manifest : Path) :
    Attended n (w.discoverManifest manifest) := by
  rcases discoverManifest_cases w manifest with hsame | hread | ⟨-, hcreated⟩
  · rwa [hsame]
  · rw [hread]
    exact attended_readManifest h manifest none
  · have htended := tended_readManifest h.toTended manifest none
    rw [hcreated]
    exact attended_reload (htended.shifts (createConfigured_sound htended.sound manifest _)
      (createConfigured_seated htended.sound htended.seated manifest _) (shifts_createConfigured ..))

/-! ### Changes of texts and files -/

theorem due_textChanged (w : Workspace) : w.textChanged.Due :=
  ⟨_, TimerQueue.mem_insertTimer.mpr (.inl rfl), rfl, rfl⟩

/-- A task of another topic takes no place of the one that settles. -/
theorem attended_schedule (h : Attended n w) (task : Task) (delay : Nat)
    (htopic : task.topic ≠ .membership) : Attended n (w.schedule task delay) := by
  refine ⟨⟨h.sound, h.seated, steady_schedule h.steady task delay⟩, h.awaited.imp ?_ ?_⟩
  · rintro ⟨timer, htimer, hkey, htask⟩
    have hkept : timer ∈ (w.timers.cancel task.topic).timers :=
      List.mem_filter.mpr ⟨htimer, by simpa [hkey] using Ne.symm htopic⟩
    exact ⟨timer, TimerQueue.mem_insertTimer.mpr (.inr hkept), hkey, htask⟩
  · exact fun hneat => hneat.of_eq rfl rfl fun _ hp => hp

/-- A file that is gone was of no use to a settled workspace any longer, or all is settled anew. -/
theorem attended_documentDeleted (h : Attended n w) (p : Path) :
    Attended n (w.documentDeleted p) := by
  unfold documentDeleted
  cases hopen : w.isOpen p with
  | true =>
      dsimp only
      rw [if_pos rfl]
      refine Attended.emit (h.calm (calm_unwatch w p) (registry_unwatch w p) fun q hq => ?_) _
      rwa [isTracked_unwatch] at hq
  | false =>
      obtain ⟨hsound, hseated⟩ := dropFile_seated (t := .owning n) (p := p) h.sound h.seated hopen
      have hsteady := steady_dropFile h.steady p
      dsimp only
      rw [if_neg Bool.false_ne_true]
      have hdropped : Tended n ((w.projects.keys.filter fun id =>
          w.projectHas id (·.contains p)).foldl (fun w id => w.modifyProject id fun project =>
            (project.removeRoot p).markStale) (w.forget p)) := ⟨hsound, hseated, hsteady⟩
      generalize List.foldl _ (w.forget p) _ = dropped at hdropped ⊢
      -- whatever the file was to its projects, all ends in settling
      have hrefreshed : Tended n dropped.refresh := by
        refine hdropped.shifts ?_ ?_ (shifts_refresh dropped)
        · rw [registry_refresh]
          exact hdropped.sound
        · rw [registry_refresh]
          exact hdropped.seated
      exact attended_settle (hrefreshed.calm (Calm.foldl (fun _ _ => calm_emit ..) _ _)
        (registry_foldl (fun w q _ => registry_emit w _) _))

theorem attended_documentChanged (h : Attended n w) (p : Path) (change : FileChange) :
    Attended n (w.documentChanged p change) := by
  refine ⟨⟨documentChanged_sound (t := .owning n) h.sound p change, documentChanged_seated
    (t := .owning n) trivial h.sound h.seated p change, steady_documentChanged h.steady p change⟩, ?_⟩
  rcases documentChanged_cases w p change with hsame | hdeleted | ⟨d, text, hd, hread⟩
  · rw [hsame]
    exact h.awaited
  · rw [hdeleted]
    exact (attended_documentDeleted h p).awaited
  · rw [hread]
    split
    · exact .inl (due_textChanged _)
    · -- a text that was read again and is the same is no change
      rename_i hsame
      refine (h.calm (calm_modifyDocument fun d' hd' => ?_) (registry_modify_retexted hd (d.retexts_reloadIfChanged text))
        fun q hq => ?_).awaited
      · obtain rfl : d = d' := Option.some.inj (hd.symm.trans hd')
        exact Document.text_reloadIfChanged (Bool.eq_false_iff.mpr hsame)
      · rwa [isTracked_modifyDocument] at hq

theorem attended_fileChanged (h : Attended n w) (p : Path) (change : FileChange) :
    Attended n (w.fileChanged p change) :=
  fileChanged_keeps (Attended n) (fun _ p change h => attended_documentChanged h p change)
    (fun _ id trigger? h => attended_settle (tended_updateConfigured h.toTended id trigger?))
    (fun _ _ _ _ h => attended_schedule h _ _ (by simp [Task.topic]))
    (fun _ manifest h => attended_discoverManifest h manifest) h p change

/-! ### The clock -/

/-- The task that is done now may be the one that settles. -/
theorem attended_runTask (h : Tended n w) {task : Task}
    (hawaited : w.Due ∨ w.Neat ∨ task = .settle w.changeCount) : Attended n (w.runTask task) := by
  cases task with
  | fold p =>
      have hattended : Attended n w := ⟨h, hawaited.imp_right (·.resolve_right (by simp))⟩
      exact hattended.calm (calm_fold w p) (registry_fold w p) fun q hq => by
        rwa [runTask, fold, isTracked_modifyDocument] at hq
  | settle change =>
      unfold runTask
      dsimp only
      split
      · exact attended_settle h
      · -- a text changed since then, and that asked for settling anew
        rename_i hchange
        exact ⟨h, hawaited.imp_right (·.resolve_right fun heq => hchange (Task.settle.inj heq))⟩
  | reread id =>
      have hattended : Attended n w := ⟨h, hawaited.imp_right (·.resolve_right (by simp))⟩
      exact attended_rereadManifest hattended id

theorem attended_runDue (h : Attended n w) (limit count : Nat) :
    Attended n (runDue limit count w) := by
  induction count generalizing w with
  | zero => exact h
  | succ count ih =>
      unfold runDue
      split
      · exact h
      · rename_i timers timer hpop
        have htimers : Tended n { w with timers } :=
          ⟨h.sound, h.seated, h.steady.of_eq rfl rfl rfl rfl rfl rfl rfl⟩
        refine ih (attended_runTask htimers ?_)
        rcases h.awaited with ⟨due, hdue, hkey, htask⟩ | hneat
        · rw [TimerQueue.timers_of_popDue hpop] at hdue
          rcases List.mem_cons.mp hdue with rfl | hdue
          · exact .inr (.inr htask)
          · exact .inl ⟨due, hdue, hkey, htask⟩
        · exact .inr (.inl (hneat.of_eq rfl rfl fun _ hp => hp))

theorem attended_advance (h : Attended n w) (duration : Nat) : Attended n (w.advance duration) := by
  have hrun := attended_runDue h (w.timers.now + duration) w.timers.size
  exact ⟨⟨hrun.sound, hrun.seated, hrun.steady.of_eq rfl rfl rfl rfl rfl rfl rfl⟩,
    hrun.awaited.imp id fun hneat => hneat.of_eq rfl rfl fun _ hp => hp⟩

theorem attended_flush (h : Attended n w) : Attended n w.flush :=
  flush_keeps (Attended n) (fun _ duration h => attended_advance h duration) h

theorem neat_flush (h : Attended n w) : w.flush.Neat := by
  refine (attended_flush h).awaited.resolve_left ?_
  rintro ⟨timer, htimer, -⟩
  simp [timers_flush h.steady] at htimer

/-! ### Opening, closing and editing -/

/-- Closing a document ends in settling. -/
theorem attended_closeFile (h : Attended n w) (p : Path) : Attended n (w.closeFile p).1 := by
  rcases closeFile_cases w p with hsame | ⟨hopen, text, hclosed⟩
  · rwa [hsame]
  · obtain ⟨closed, heq, hsound, hseated, hshifts⟩ :=
      close_eq_settle (t := .owning n) trivial h.sound h.seated hopen text
    have hsteady : Steady False n closed :=
      (h.steady.rewrite (isTracked_of_isOpen hopen) (·.reload text)).evolves (.shifts hshifts)
    rw [hclosed, heq]
    exact
      { sound := settle_sound hsound
        seated := settle_seated (t := { Terms.owning n with left := _ }) trivial hsound hseated
        steady := steady_settle hsteady
        awaited := .inr (neat_settle (hseated.planted 0 hsound) hsteady.enlisted) }

theorem attended_query {α : Type} (h : Attended n w) (p : Path)
    (ask : Snapshot → Except Failure α) : Attended n (w.query p ask).1 := by
  unfold query
  dsimp only
  split
  · exact h
  · exact h.calm (calm_fold ..) (registry_fold ..) fun q hq => by
      rwa [fold, isTracked_modifyDocument] at hq

/-- After an edit settling waits. -/
theorem attended_changeFile (h : Attended n w) (p : Path) (edits : List Edit) :
    Attended n (w.changeFile p edits).1 := by
  have hregistry := registry_changeFile w p edits
  refine ⟨⟨hregistry ▸ h.sound, hregistry ▸ h.seated, steady_changeFile h.steady p edits⟩, ?_⟩
  clear hregistry
  unfold changeFile
  dsimp only
  split
  · exact h.awaited
  · split
    · exact h.awaited
    · exact .inl (due_textChanged _)

theorem attended_changeRange (h : Attended n w) (p : Path) (range : PositionRange) (text : Text) :
    Attended n (w.changeRange p range text).1 := by
  have hsnapshot : Attended n (w.snapshot p).1 := attended_query h p .ok
  unfold changeRange
  split
  · rename_i heq
    rwa [heq] at hsnapshot
  · rename_i heq
    rw [heq] at hsnapshot
    exact attended_changeFile hsnapshot p _

theorem projectFor_eq_self (h : w.Neat) (p : Path) : (w.projectFor p).1 = w := by
  unfold projectFor
  dsimp only
  rw [refresh_eq_self h.placed.fresh]
  split
  · split <;> rfl
  · rfl

theorem attended_projectFor (h : Attended n w) (p : Path) : Attended n (w.projectFor p).1 := by
  have hshifts := shifts_projectFor w p
  have hregistry := registry_projectFor w p
  refine ⟨h.toTended.shifts (hregistry ▸ h.sound) (hregistry ▸ h.seated) hshifts,
    h.awaited.imp (·.frame hshifts.quiet.toFrame) fun hneat => ?_⟩
  rw [projectFor_eq_self hneat]
  exact hneat

theorem attended_adoptProjectFor (h : Attended n w) (hrobs : ¬w.Robs (.adoptProjectFor p)) :
    Attended n (w.adoptProjectFor p).1 := by
  have hshifts := shifts_adoptProjectFor w p
  have hregistry := registry_adoptProjectFor (t := .owning n) h.sound hrobs
  refine ⟨h.toTended.shifts (hregistry ▸ h.sound) (hregistry ▸ h.seated) hshifts,
    h.awaited.imp (·.frame hshifts.quiet.toFrame) fun hneat => ?_⟩
  have hfound := projectFor_eq_self hneat (w.normalize p)
  unfold adoptProjectFor at hregistry ⊢
  dsimp only at hregistry ⊢
  generalize w.projectFor (w.normalize p) = answer at hfound hregistry ⊢
  obtain ⟨found, id?⟩ := answer
  obtain rfl : found = w := hfound
  cases id? with
  | none => exact hneat
  | some id =>
      dsimp only at hregistry ⊢
      split at hregistry
      · rename_i hopen
        rw [if_pos hopen]
        refine hneat.of_eq hregistry (congrArg Roster.holding? (calm_setOwner ..).roster)
          fun q hq => ?_
        rwa [isTracked_setOwner] at hq
      · rename_i hclosed
        rw [if_neg hclosed]
        exact hneat

/-- A tracked document is given another text. -/
def Rewrites (w : Workspace) (p : Path) (text? : Option Text) : Prop :=
  ∃ d text, w.documents.get? p = some d ∧ text? = some text ∧ (d.reloadIfChanged text).2

instance (w : Workspace) (p : Path) (text? : Option Text) : Decidable (w.Rewrites p text?) :=
  decidable_of_iff ((w.documents.get? p).any fun d => text?.any fun text => (d.reloadIfChanged text).2) <| by
    simp [Rewrites, Option.any_eq_true]

/-- While settling does not wait, an operation opens a file again with another text, or it opens a file whose
manifest, or whose text, leaves another document misplaced. -/
def Disturbs (w : Workspace) : Operation → Prop
  | .openFile p text? =>
    ¬w.Due ∧
      if w.isOpen (w.normalize p) then w.Rewrites (w.normalize p) text?
      else
        ∃ received, w.receive (w.normalize p) text? = .ok received ∧
          ¬((received.modifyDocument (w.normalize p) fun d => { d with isOpen := true }).consultManifest
            (w.normalize p)).refresh.InPlace
  | _ => False

instance (result : Except Failure Workspace) (property : Workspace → Prop) [DecidablePred property] :
    Decidable (∃ w, result = .ok w ∧ property w) :=
  match result with
  | .error _ => isFalse (by simp)
  | .ok w => decidable_of_iff (property w) (by simp)

instance (w : Workspace) : (op : Operation) → Decidable (w.Disturbs op)
  | .openFile p _ => inferInstanceAs (Decidable (_ ∧
      if w.isOpen (w.normalize p) then _ else ∃ received : Workspace, _ = Except.ok received ∧ _))
  | .closeFile .. | .changeFile .. | .changeRange .. | .snapshot .. | .getText .. | .getTextRange ..
  | .positionAt .. | .offsetAt .. | .projectFor .. | .adoptProjectFor .. | .takeEvents | .fileChanged ..
  | .advance .. | .flush | .reload | .settle | .replaceFiles .. => inferInstanceAs (Decidable False)

theorem frame_receive {text? : Option Text} (h : w.receive p text? = .ok received) :
    Frame w received := by
  have htrack (text : Text) : Frame w (w.track p text) :=
    ⟨rfl, rfl, rfl, rfl, rfl, .refl _, fun _ h _ => h⟩
  have hreload (d : Document) (reloaded : Bool) : Frame w
      (if reloaded then (w.modifyDocument p fun _ => d).markStaleAround p
        else w.modifyDocument p fun _ => d) := by
    cases reloaded <;> exact ⟨rfl, rfl, rfl, rfl, rfl, .refl _, fun _ h _ => h⟩
  unfold receive at h
  split at h
  · obtain rfl := Except.ok.inj h
    exact hreload _ _
  · obtain rfl := Except.ok.inj h
    exact .refl w
  · obtain rfl := Except.ok.inj h
    exact htrack _
  · split at h
    · obtain rfl := Except.ok.inj h
      exact htrack _
    · simp at h
    · simp at h

/-- A document that is open already keeps its text, or is opened with the same one. -/
theorem neat_receive {text? : Option Text} (h : w.Neat) (hopen : w.isOpen p)
    (hsame : ¬w.Rewrites p text?)
    (hreceive : w.receive p text? = .ok received) : received.Neat := by
  obtain ⟨d, hd⟩ := isTracked_iff.mp (isTracked_of_isOpen hopen)
  unfold receive at hreceive
  rw [hd] at hreceive
  cases text? with
  | none =>
      obtain rfl := Except.ok.inj hreceive
      exact h
  | some text =>
      have hreloaded : (d.reloadIfChanged text).2 = false :=
        Bool.eq_false_iff.mpr fun hreloaded => hsame ⟨d, text, hd, rfl, hreloaded⟩
      dsimp only at hreceive
      rw [hreloaded, if_neg Bool.false_ne_true] at hreceive
      obtain rfl := Except.ok.inj hreceive
      refine h.of_eq (registry_modify_retexted hd (d.retexts_reloadIfChanged text)) rfl fun q hq => ?_
      rwa [isTracked_modifyDocument] at hq

/-- A document that is put into its place once its manifest was read disturbs nothing, and what waits still
does. -/
theorem awaited_open (hsound : Sound (.owning n) w.registry [] [] [])
    (hseated : Seated w.registry none []) (hsteady : Steady False n w) (htracked : w.isTracked p)
    (hclosed : w.isOpen p = false) (h : w.Due ∨
      ((w.modifyDocument p fun d => { d with isOpen := true }).consultManifest p).refresh.InPlace) :
    let opened := w.modifyDocument p fun d => { d with isOpen := true }
    let after := (((opened.consultManifest p).attach p).prune).sweep
    after.Due ∨ after.Neat := by
  have hopened := opened_sound (t := .owning n) hsound htracked hclosed
  have hseated' := opened_seated (t := .owning n) hsound hseated htracked hclosed
  have hcalm : Calm w (w.modifyDocument p fun d => { d with isOpen := true }) :=
    calm_modifyDocument fun _ _ => rfl
  have hsteady' := hsteady.calm hcalm
  intro opened after
  have hconsulted := shifts_consultManifest opened p
  have hattached := hconsulted.trans (shifts_attach (hconsulted.quiet.tracked p
    (hcalm.tracked p htracked)))
  have hpruned := hattached.trans (shifts_prune _)
  rcases h with hdue | hplaced
  · have hswept := evolves_sweep _ (hsteady'.enlisted.shifts hpruned).distinct
    exact .inl (((hdue.frame hcalm.toFrame).frame hpruned.quiet.toFrame).frame hswept.frame)
  · -- all but the document in hand are in place, and attaching it keeps that
    have hinHand := consultManifest_free (t := .owning n) trivial (fun honce => honce) hopened hseated'
    obtain ⟨hmoving, hfree, hwelcome⟩ := hinHand
    have hseatedConsulted := (consultManifest_seated (t := .owning n) trivial hopened hseated' p).fewer
      (List.nil_subset [p])
    have hplanted : Planted 0 [] (opened.consultManifest p).registry :=
      hseatedConsulted.planted 0 hmoving
    have hopen := (hmoving.moving_free p (by simp)).1
    have hroot := hseatedConsulted.notMem_roots hfree.own
    have hconfigured (hnone : (opened.consultManifest p).refresh.rootingProject? p = none) :
        p ∉ (opened.consultManifest p).openFiles.configuredRoots := by
      have hregistry := registry_refresh (opened.consultManifest p)
      rw [← registry_openFiles, ← hregistry]
      exact notMem_configuredRoots (t := .owning n) (hregistry ▸ hmoving) trivial
        (hregistry ▸ hwelcome) hnone
    have hplaced' := attach_placed hplanted hopen hroot hfree.referenced hconfigured
      (hsteady'.enlisted.shifts hconsulted) hplaced
    obtain ⟨hneat, htrimmed⟩ := prune_sweep_placed (attach_planted hplanted hopen hroot)
      (hsteady'.enlisted.shifts hattached) hplaced'
    exact .inr ⟨hneat, htrimmed⟩

theorem tended_openFile (h : Tended n w) (p : Path) (text? : Option Text) :
    Tended n (w.openFile p text?).1 where
  sound := openFile_sound (t := .owning n) h.sound fun honce => (honce : False).elim
  seated := openFile_seated (t := .owning n) trivial (fun honce => honce) h.sound h.seated text?
  steady := steady_openFile h.steady False.elim

theorem attended_openFile (h : Attended n w) {text? : Option Text}
    (hdisturbs : ¬w.Disturbs (.openFile p text?)) : Attended n (w.openFile p text?).1 := by
  refine ⟨tended_openFile h.toTended p text?, ?_⟩
  unfold openFile
  dsimp only
  cases hreceive : w.receive (w.normalize p) text? with
  | error failure => exact h.awaited
  | ok received =>
      have hframe := frame_receive hreceive
      obtain ⟨hregistry, htracked⟩ := receive_eq hreceive
      have hsame := congrFun (congrArg Registry.isOpen hregistry) (w.normalize p)
      rw [registry_isOpen, registry_isOpen] at hsame
      dsimp only
      refine awaited_emit ?_ _
      split
      · rename_i hopen
        by_cases hdue : w.Due
        · exact .inl (hdue.frame hframe)
        · exact .inr (neat_receive (h.awaited.resolve_left hdue) hopen
            (fun hrewrites => hdisturbs ⟨hdue, by rwa [if_pos hopen]⟩) hreceive)
      · rename_i hopen
        have hclosed := hsame.trans (Bool.eq_false_iff.mpr hopen)
        have hreceived := steady_receive h.steady False.elim hreceive
        refine awaited_open (hregistry ▸ h.sound) (hregistry ▸ h.seated) hreceived htracked hclosed ?_
        by_cases hdue : w.Due
        · exact .inl (hdue.frame hframe)
        · refine .inr (not_not.mp fun hmisplaced => hdisturbs ⟨hdue, ?_⟩)
          rw [if_neg hopen]
          exact ⟨received, hreceive, hmisplaced⟩

theorem openFile_of_rewrites {text? : Option Text} (hopen : w.isOpen (w.normalize p))
    (h : w.Rewrites (w.normalize p) text?) : ∃ d e, (w.openFile p text?).1 =
      ((w.modifyDocument (w.normalize p) fun _ => d).markStaleAround (w.normalize p)).emit e := by
  obtain ⟨d, text, hd, rfl, hreloaded⟩ := h
  have hreceive : w.receive (w.normalize p) (some text) =
      .ok ((w.modifyDocument (w.normalize p) fun _ => (d.reloadIfChanged text).1).markStaleAround
        (w.normalize p)) := by
    unfold receive
    rw [hd]
    exact congrArg Except.ok (if_pos hreloaded)
  unfold openFile
  dsimp only
  rw [hreceive]
  dsimp only
  rw [if_pos hopen]
  exact ⟨_, _, rfl⟩

/-- A document that a settled workspace has open is in some project. Another text makes that project stale. -/
theorem not_neat_of_rewrites (h : Tended n w) (hneat : w.Neat) (hopen : w.isOpen (w.normalize p))
    {text? : Option Text} (hrewrites : w.Rewrites (w.normalize p) text?) :
    ¬(w.openFile p text?).1.Neat := by
  obtain ⟨id, howner⟩ := Option.ne_none_iff_exists'.mp fun hnone => by
    simpa using h.sound.unowned (w.normalize p) hopen hnone
  obtain ⟨held, hheld, hcontains⟩ :=
    contains_of_owner? hneat.placed h.seated (listed_of_isOpen h.sound hopen) howner
  obtain ⟨d, e, heq⟩ := openFile_of_rewrites hopen hrewrites
  rw [heq]
  generalize hmodified : (w.modifyDocument (w.normalize p) fun _ => d) = modified
  have hholding : modified.holding? = w.holding? := by
    subst hmodified
    rfl
  intro hneat'
  have hfresh : ∀ id held, (modified.markStaleAround (w.normalize p)).holding? id = some held →
    held.isStale = false := hneat'.placed.fresh
  cases hmarked : (modified.markStaleAround (w.normalize p)).holding? id with
  | none =>
      unfold markStaleAround holding? at hmarked
      rw [Table.get?_map, Option.map_map, Option.map_eq_none_iff] at hmarked
      have hnone : modified.holding? id = none := congrArg (·.map Project.holding) hmarked
      exact Option.some_ne_none held (hheld.symm.trans (hholding ▸ hnone))
  | some held' =>
      obtain ⟨former, hformer, -, -, hkept⟩ := holding?_markStaleAround hmarked
      obtain ⟨rfl, hfree⟩ := hkept (hfresh id held' hmarked)
      rw [hholding, hheld] at hformer
      exact hfree (Option.some.inj hformer ▸ hcontains)

/-! ### Runs -/

theorem attended_takeEvents (h : Attended n w) : Attended n w.takeEvents.1 :=
  h.calm ⟨.of_eq rfl rfl rfl rfl rfl rfl rfl, rfl, rfl⟩ rfl fun _ hp => hp

theorem attended_perform {op : Operation} (h : Attended n w) (hrobs : ¬w.Robs op)
    (hdisturbs : ¬w.Disturbs op) : Attended n (w.perform op) := by
  cases op with
  | openFile p text? => exact attended_openFile h hdisturbs
  | closeFile p => exact attended_closeFile h p
  | changeFile p edits => exact attended_changeFile h p edits
  | changeRange p range text => exact attended_changeRange h p range text
  | snapshot p => exact attended_query h p _
  | getText p start length => exact attended_query h p _
  | getTextRange p range => exact attended_query h p _
  | positionAt p offset => exact attended_query h p _
  | offsetAt p position => exact attended_query h p _
  | projectFor p => exact attended_projectFor h p
  | adoptProjectFor p => exact attended_adoptProjectFor h hrobs
  | takeEvents => exact attended_takeEvents h
  | fileChanged p change => exact attended_fileChanged h p change
  | advance duration => exact attended_advance h duration
  | flush => exact attended_flush h
  | reload =>
      show Attended n w.reload
      exact attended_reload h.toTended
  | settle =>
      show Attended n w.settle
      exact attended_settle h.toTended
  | replaceFiles fs =>
      exact ⟨⟨h.sound, h.seated, steady_perform h.steady False.elim False.elim⟩,
        h.awaited.imp_right (·.of_eq rfl rfl fun _ hp => hp)⟩

/-- An empty workspace has nothing to settle. -/
theorem attended_empty {settings : Settings} {scanner : Scanner} {fs : FileSystem} :
    Attended scanner.normalizer ({ settings, scanner, fs } : Workspace) where
  sound := sound_empty (t := .owning scanner.normalizer) rfl
  seated := seated_empty
  steady := steady_empty
  awaited := by
    refine .inr ⟨⟨?_, ?_, ?_, ?_, ?_⟩, ⟨?_, fun p hp => ?_⟩⟩
    case refine_7 => exact absurd hp Bool.false_ne_true
    all_goals simp [holding?, registry]

theorem attended_run {ops : List Operation} (h : Attended n w) (hrobs : w.Avoids ops Robs)
    (hdisturbs : w.Avoids ops Disturbs) : Attended n (w.run ops) := by
  induction ops using List.reverseRecOn with
  | nil => exact h
  | append_singleton ops op ih =>
      obtain ⟨hrobs, hrobs'⟩ := avoids_concat.mp hrobs
      obtain ⟨hdisturbs, hdisturbs'⟩ := avoids_concat.mp hdisturbs
      rw [run_concat]
      exact attended_perform (ih hrobs hdisturbs) hrobs' hdisturbs'

/-- Once all work that waits is done settling changes nothing, where no step robs a project or disturbs
others unnoticed. If a document that is open is given another text then by opening it again, settling does
change something, although nothing waits. -/
theorem quiescent_run (settings : Settings) (scanner : Scanner) (fs : FileSystem)
    (ops : List Operation) :
    let start : Workspace := { settings, scanner, fs }
    let w := (start.run ops).flush
    (start.Avoids ops Robs → start.Avoids ops Disturbs → w.settle = w ∧
      ∀ p text?, w.isOpen (w.normalize p) → w.Rewrites (w.normalize p) text? →
        let reopened := (w.perform (.openFile p text?)).flush
        reopened.settle ≠ reopened) ∧
    (scanner.normalizer.base.isAbsolute → start.Avoids ops Disturbs → w.settle = w) := by
  intro start w
  have hattended (hrobs : start.Avoids ops Robs) (hdisturbs : start.Avoids ops Disturbs) :
      Attended scanner.normalizer (start.run ops) :=
    attended_run attended_empty hrobs hdisturbs
  refine ⟨fun hrobs hdisturbs => ?_, fun hbase hdisturbs => ?_⟩
  · have hdone := hattended hrobs hdisturbs
    have htended : Tended scanner.normalizer w := (attended_flush hdone).toTended
    refine ⟨(settle_eq_self_iff htended).mpr (neat_flush hdone), fun p text? hopen hrewrites => ?_⟩
    obtain ⟨d, e, heq⟩ := openFile_of_rewrites hopen hrewrites
    have htimers : (w.openFile p text?).1.timers.timers = [] := by
      rw [heq]
      exact timers_flush hdone.steady
    have hflush : (w.perform (.openFile p text?)).flush = (w.openFile p text?).1 :=
      flush_eq_self htimers
    intro reopened hsettled
    rw [show reopened = (w.openFile p text?).1 from hflush] at hsettled
    exact not_neat_of_rewrites htended (neat_flush hdone) hopen hrewrites
      ((settle_eq_self_iff (tended_openFile htended p text?)).mp hsettled)
  · have hdone := hattended (avoids_robs_of_isAbsolute hbase) hdisturbs
    exact settle_eq_self (attended_flush hdone).steady.enlisted (neat_flush hdone)

def separate : Workspace :=
  let path (name : String) : Path := ⟨[.root, .name name]⟩
  { settings := {}, scanner := signScanner, fs := FileSystem.ofFiles [(path "a", []), (path "b", [])] }

/-- A document is opened again as it is, and only then comes to refer to the other one. -/
def joining : List Operation :=
  let path (name : String) : Path := ⟨[.root, .name name]⟩
  [.openFile (path "a") none, .openFile (path "b") none, .openFile (path "a") (some []),
    .adoptProjectFor (path "b"), .changeFile (path "a") [⟨0, 0, "@b".toList⟩]]

theorem quiescent_run_joining :
    let path (name : String) : Path := ⟨[.root, .name name]⟩
    let w := (separate.run joining).flush
    let reopened := (w.perform (.openFile (path "a") (some []))).flush
    (separate.Avoids joining Robs ∧ separate.Avoids joining Disturbs) ∧ w.settle = w ∧
      (separate.run joining).owner? (path "b") = some 2 ∧ w.owner? (path "b") = some 1 ∧
      reopened.settle ≠ reopened := by
  intro path w reopened
  have hrobs : separate.Avoids joining Robs := by decide +kernel
  have hdisturbs : separate.Avoids joining Disturbs := by decide +kernel
  have hopen : w.isOpen (w.normalize (path "a")) := by decide +kernel
  have hrewrites : w.Rewrites (w.normalize (path "a")) (some []) := by decide +kernel
  obtain ⟨hsettled, hunsettled⟩ := (quiescent_run {} separate.scanner separate.fs joining).1 hrobs hdisturbs
  exact ⟨⟨hrobs, hdisturbs⟩, hsettled, by decide +kernel, by decide +kernel,
    hunsettled (path "a") (some []) hopen hrewrites⟩

/-- A document is opened again with a reference to another one. Nothing is left to do, but settling gives the
project of the first one both. -/
example :
    let path (name : String) : Path := ⟨[.root, .name name]⟩
    let start : Workspace :=
      { settings := {}, scanner := signScanner
        fs := FileSystem.ofFiles [(path "a", []), (path "b", [])] }
    let w := (start.run [.openFile (path "a") none, .openFile (path "b") none,
      .openFile (path "a") (some "@b".toList)]).flush
    (w.owner? (path "b"), w.settle.owner? (path "b")) = (some 2, some 1) := by
  decide +kernel

/-- A manifest that is found as a file is opened reaches a document that is open. Only settling moves it. -/
example :
    let c : Path := ⟨[.root, .name "c"]⟩
    let start : Workspace := { settings := {}, scanner := signScanner, fs := sharedFile }
    let w := (start.run [.openFile c none, .openFile ⟨[.root, .name "m", .name "b"]⟩ none]).flush
    (w.owner? c, w.settle.owner? c) = (some 1, some 2) := by
  decide +kernel

end Workspace

end ProjectTracker
