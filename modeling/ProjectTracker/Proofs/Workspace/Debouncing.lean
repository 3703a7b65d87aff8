import ProjectTracker.Proofs.Workspace.Relief
import ProjectTracker.Proofs.Workspace.Settlement
/-!
Work waits until nothing of its kind was asked for during its delay. What waits is always about the present: about
the last change of a text, about a document that is open and about a configured project that is live.
-/

namespace ProjectTracker.Workspace

variable {w w' v : Workspace} {p q : Path} {id : ProjectId} {closing? : Option Path} {task : Task}
  {timer : Timer Topic Task} {rest : List (Timer Topic Task)}

/-- What there is to know of the past: for how long work waits, when a text changed last and when an editor
changed a document last. -/
structure Past where
  delays : Timing
  changed : Nat → Prop
  edited : Path → Nat → Prop

variable {past past' : Past}

/-- A task is about what is there, and due when its delay is over. Only a document that is being closed need not
be open. -/
def Timely (past : Past) (closing? : Option Path) (w : Workspace) (timer : Timer Topic Task) : Prop :=
  match timer.task with
  | .fold p => (w.isOpen p ∨ closing? = some p) ∧
      ∃ now, past.edited p now ∧ timer.deadline = now + past.delays.editCoalesce
  | .settle change => change = w.changeCount ∧
      ∃ now, past.changed now ∧ timer.deadline = now + past.delays.structureUpdate
  | .reread id => id ∈ w.configured

/-- All tasks that wait are timely, and edits that wait have one. -/
structure Debounced (past : Past) (closing? : Option Path) (w : Workspace) : Prop where
  delays : w.settings.timing = past.delays
  keyed : ∀ timer ∈ w.timers.timers, timer.key = timer.task.topic
  timely : ∀ timer ∈ w.timers.timers, w.Timely past closing? timer
  edits : ∀ p, w.hasEdits p →
    w.isOpen p ∧ closing? ≠ some p ∧ ∃ timer ∈ w.timers.timers, timer.task = .fold p

theorem timely_fold (htask : timer.task = .fold p) : w.Timely past closing? timer ↔
    (w.isOpen p ∨ closing? = some p) ∧
      ∃ now, past.edited p now ∧ timer.deadline = now + past.delays.editCoalesce := by
  rw [Timely, htask]

theorem timely_settle {change : Nat} (htask : timer.task = .settle change) :
    w.Timely past closing? timer ↔ change = w.changeCount ∧
      ∃ now, past.changed now ∧ timer.deadline = now + past.delays.structureUpdate := by
  rw [Timely, htask]

theorem timely_reread (htask : timer.task = .reread id) :
    w.Timely past closing? timer ↔ id ∈ w.configured := by
  rw [Timely, htask]

theorem Timely.mono (h : w.Timely past closing? timer)
    (hopen : ∀ p, w.isOpen p → w'.isOpen p ∨ closing? = some p)
    (hcount : w'.changeCount = w.changeCount)
    (hconfigured : ∀ id, timer.task = .reread id → id ∈ w.configured → id ∈ w'.configured) :
    w'.Timely past closing? timer := by
  cases htask : timer.task with
  | fold p =>
      rw [timely_fold htask] at h ⊢
      exact ⟨h.1.elim (hopen p) .inr, h.2⟩
  | settle change =>
      rw [timely_settle htask] at h ⊢
      rwa [hcount]
  | reread id =>
      rw [timely_reread htask] at h ⊢
      exact hconfigured id htask h

theorem Timely.imp (h : w.Timely past closing? timer) (hdelays : past'.delays = past.delays)
    (hchanged : ∀ change, timer.task = .settle change → ∀ now, past.changed now → past'.changed now)
    (hedited : ∀ p, timer.task = .fold p → ∀ now, past.edited p now → past'.edited p now) :
    w.Timely past' closing? timer := by
  cases htask : timer.task with
  | fold p =>
      rw [timely_fold htask, hdelays]
      obtain ⟨hopen, now, hnow, hdue⟩ := (timely_fold htask).mp h
      exact ⟨hopen, now, hedited p htask now hnow, hdue⟩
  | settle change =>
      rw [timely_settle htask, hdelays]
      obtain ⟨hcount, now, hnow, hdue⟩ := (timely_settle htask).mp h
      exact ⟨hcount, now, hchanged change htask now hnow, hdue⟩
  | reread id => exact (timely_reread htask).mpr ((timely_reread htask).mp h)

theorem mem_schedule {delay : Nat} : timer ∈ (w.schedule task delay).timers.timers ↔
    timer = ⟨w.timers.now + delay, w.timers.nextOrder, task.topic, task⟩ ∨
      timer ∈ w.timers.timers ∧ timer.key ≠ task.topic := by
  refine TimerQueue.mem_insertTimer.trans (or_congr .rfl ?_)
  simp [TimerQueue.cancel]

namespace Debounced

section

variable (h : Debounced past closing? w)

include h

theorem relieves (hrelieves : Relieves w w') : Debounced past closing? w' where
  delays := hrelieves.settings ▸ h.delays
  keyed timer htimer := h.keyed timer (hrelieves.timers.subset htimer)
  timely timer htimer := by
    have hold := hrelieves.timers.subset htimer
    refine (h.timely timer hold).mono (fun p hp => .inl (hrelieves.isOpen p hp)) hrelieves.changeCount ?_
    intro id htask hid
    -- no timer of a project is left once it is gone
    refine (hrelieves.configured id hid).resolve_right fun hnone => hnone timer htimer ?_
    rw [h.keyed timer hold, htask, Task.topic]
  edits p hp := by
    obtain ⟨hopen, hkeeps, timer, htimer, htask⟩ := h.edits p (hrelieves.edits p hp)
    have hkey : timer.key = .document p := by rw [h.keyed timer htimer, htask, Task.topic]
    exact ⟨hrelieves.isOpen p hopen, hkeeps, timer, hrelieves.kept timer htimer p hkey hopen, htask⟩

theorem imp (hdelays : past'.delays = past.delays)
    (hchanged : ∀ now, past.changed now → past'.changed now)
    (hedited : ∀ p now, past.edited p now → past'.edited p now) : Debounced past' closing? w where
  delays := h.delays.trans hdelays.symm
  keyed := h.keyed
  timely timer htimer := (h.timely timer htimer).imp hdelays (fun _ _ => hchanged) fun p _ => hedited p
  edits := h.edits

/-! ### Work that is done -/

/-- Edits that a task was to make a version wait no longer when it leaves. -/
theorem strikeHour (htimers : w.timers.timers = timer :: rest)
    (hdone : ∀ p, timer.task = .fold p → w.hasEdits p = false) :
    Debounced past closing? (w.strikeHour timer rest) := by
  have hrest : rest ⊆ w.timers.timers := htimers ▸ List.subset_cons_self timer rest
  refine ⟨h.delays, fun t ht => h.keyed t (hrest ht), fun t ht => h.timely t (hrest ht),
    fun p hp => ?_⟩
  obtain ⟨hopen, hkeeps, t, ht, htask⟩ := h.edits p hp
  rw [htimers] at ht
  rcases List.mem_cons.mp ht with rfl | ht
  · have hp' : w.hasEdits p := hp
    simp [hdone p htask] at hp'
  · exact ⟨hopen, hkeeps, t, ht, htask⟩

theorem runTimer (htimers : w.timers.timers = timer :: rest) :
    Debounced past closing? (w.runTimer timer rest) := by
  have hother (hnot : ∀ p, timer.task ≠ .fold p) : Debounced past closing? (w.runTimer timer rest) :=
    (h.strikeHour htimers fun p htask => absurd htask (hnot p)).relieves
      (governs_relieves.runTask ..)
  cases htask : timer.task with
  | fold p =>
      -- the edits may become a version before the timer leaves just as well as after it
      have hfolded : w.runTimer timer rest = (w.fold p).strikeHour timer rest := by
        rw [Workspace.runTimer, htask]
        rfl
      rw [hfolded]
      refine (h.relieves (governs_relieves.fold w p)).strikeHour htimers fun q hq => ?_
      obtain rfl := Task.fold.inj (htask.symm.trans hq)
      exact hasEdits_fold w p
  | settle change => exact hother (by simp [htask])
  | reread id => exact hother (by simp [htask])

theorem runDue (limit count : Nat) : Debounced past closing? (runDue limit count w) := by
  induction count generalizing w with
  | zero => exact h
  | succ count ih =>
      rcases w.timers.due_cases limit with ⟨timer, rest, htimers, hdue⟩ | hearly
      · rw [runDue_of_due htimers hdue]
        exact ih (h.runTimer htimers)
      · rw [runDue_of_early hearly]
        exact h

theorem advance (duration : Nat) : Debounced past closing? (w.advance duration) := by
  have hdone := h.runDue (w.timers.now + duration) w.timers.size
  exact ⟨hdone.delays, hdone.keyed, hdone.timely, hdone.edits⟩

theorem flushWithin (count : Nat) : Debounced past closing? (flushWithin count w) := by
  induction count generalizing w with
  | zero => exact h
  | succ count ih =>
      rw [Workspace.flushWithin]
      split
      · exact h
      · exact ih (h.advance _)

/-- The task of a settlement finds that no text changed since it was scheduled. -/
theorem settles (limit : Nat) {timers : TimerQueue Topic Task} {change : Nat}
    (hpop : w.timers.popDue limit = (timers, some timer)) (htask : timer.task = .settle change) :
    change = w.changeCount := by
  have htimer : timer ∈ w.timers.timers := by
    rw [TimerQueue.timers_of_popDue hpop]
    exact List.mem_cons_self
  exact ((timely_settle htask).mp (h.timely timer htimer)).1

end

/-! ### New work -/

section

variable (h : Debounced past none w)

include h

/-- A task that is scheduled takes the place of the one that is about the same. -/
theorem schedule {delay : Nat} (htimers : v.timers = w.timers)
    (hdelays : v.settings.timing = past'.delays)
    (hnew : v.Timely past' none ⟨w.timers.now + delay, w.timers.nextOrder, task.topic, task⟩)
    (hother : ∀ timer, timer.task.topic ≠ task.topic → w.Timely past none timer →
      v.Timely past' none timer)
    (hedits : ∀ p, v.hasEdits p → v.isOpen p ∧ (task = .fold p ∨ w.hasEdits p)) :
    Debounced past' none (v.schedule task delay) := by
  have hcases (timer : Timer Topic Task) : timer ∈ (v.schedule task delay).timers.timers ↔
      timer = ⟨w.timers.now + delay, w.timers.nextOrder, task.topic, task⟩ ∨
        timer ∈ w.timers.timers ∧ timer.key ≠ task.topic := by
    rw [mem_schedule, htimers]
  refine ⟨hdelays, fun timer htimer => ?_, fun timer htimer => ?_, fun p hp => ?_⟩
  · rcases (hcases timer).mp htimer with rfl | ⟨hold, -⟩
    · rfl
    · exact h.keyed timer hold
  · rcases (hcases timer).mp htimer with rfl | ⟨hold, hkey⟩
    · exact hnew
    · exact hother timer (h.keyed timer hold ▸ hkey) (h.timely timer hold)
  · obtain ⟨hopen, hwaiting⟩ := hedits p hp
    refine ⟨hopen, by simp, ?_⟩
    by_cases htask : task = .fold p
    · exact ⟨_, (hcases _).mpr (.inl rfl), htask⟩
    · obtain ⟨-, -, timer, htimer, hfold⟩ := h.edits p (hwaiting.resolve_left htask)
      refine ⟨timer, (hcases timer).mpr (.inr ⟨htimer, ?_⟩), hfold⟩
      rw [h.keyed timer htimer, hfold]
      cases task with
      | fold q => simpa [Task.topic, eq_comm] using htask
      | settle change => exact Topic.noConfusion
      | reread id => exact Topic.noConfusion

/-- A change of a text starts the delay anew. -/
theorem textChanged : Debounced { past with changed := (· = w.timers.now) } none w.textChanged := by
  have hcounted : ({ w with changeCount := w.changeCount + 1 } : Workspace).timers = w.timers := rfl
  refine h.schedule hcounted ?_ ?_ ?_ ?_
  · exact h.delays
  · exact ⟨rfl, w.timers.now, rfl, congrArg (w.timers.now + ·.structureUpdate) h.delays⟩
  · intro timer htopic htimely
    cases htask : timer.task with
    | settle change => exact absurd (htask ▸ rfl) htopic
    | fold p =>
        rw [timely_fold htask] at htimely ⊢
        exact htimely
    | reread id =>
        rw [timely_reread htask] at htimely ⊢
        exact htimely
  · exact fun p hp => ⟨(h.edits p hp).1, .inr hp⟩

theorem scheduleReread (hid : id ∈ w.configured) (delay : Nat) :
    Debounced past none (w.schedule (.reread id) delay) :=
  h.schedule rfl h.delays hid (fun _ _ htimely => htimely) fun p hp => ⟨(h.edits p hp).1, .inr hp⟩

/-- Edits of an open document start its delay anew. -/
theorem edit {d d' : Document} (hd : w.documents.get? p = some d) (hopen : d.isOpen)
    (hretexts : d.Retexts d') : Debounced
      { past with edited := fun q now => if q = p then now = w.timers.now else past.edited q now } none
      ((w.modifyDocument p fun _ => d').schedule (.fold p) w.settings.timing.editCoalesce) := by
  have hsame : (w.modifyDocument p fun _ => d').isOpen = w.isOpen :=
    congrArg Registry.isOpen (registry_modify_retexted hd hretexts)
  have hp : w.isOpen p := by simp [isOpen, hd, hopen]
  have hmodified : (w.modifyDocument p fun _ => d').timers = w.timers := rfl
  refine h.schedule hmodified ?_ ?_ ?_ ?_
  · exact h.delays
  · refine ⟨.inl ?_, w.timers.now, by simp, congrArg (w.timers.now + ·.editCoalesce) h.delays⟩
    rwa [hsame]
  · intro timer htopic htimely
    have htimely' : (w.modifyDocument p fun _ => d').Timely past none timer :=
      htimely.mono (fun q hq => .inl (by rwa [hsame])) rfl fun _ _ hid => hid
    refine htimely'.imp rfl (fun _ _ _ hnow => hnow) fun q htask now hnow => ?_
    have hne : q ≠ p := by
      rintro rfl
      exact htopic (htask ▸ rfl)
    exact (if_neg hne).mpr hnow
  · intro q hq
    rw [hsame]
    by_cases hqp : p = q
    · subst hqp
      exact ⟨hp, .inl rfl⟩
    · rw [hasEdits_modifyDocument, if_neg hqp] at hq
      exact ⟨(h.edits q hq).1, .inr hq⟩

end

/-! ### Closing -/

theorem get?_shut (hne : q ≠ p) (text : Text) :
    (w.shut p text).documents.get? q = w.documents.get? q := by
  rw [shut, get?_modifyDocument, if_neg hne.symm, get?_setOwner, if_neg hne.symm]
  exact (get?_modifyDocument w p q _).trans (if_neg hne.symm)

theorem hasEdits_shut (w : Workspace) (p : Path) (text : Text) : (w.shut p text).hasEdits p = false := by
  have hreloaded : (((w.modifyDocument p (·.reload text)).markStaleAround p).modifyOpenFiles
      (·.removeFirst p)).documents.get? p = (w.documents.get? p).map (·.reload text) :=
    (get?_modifyDocument w p p _).trans (if_pos rfl)
  rw [hasEdits, Workspace.shut, get?_modifyDocument, if_pos rfl, get?_setOwner, if_pos rfl, hreloaded]
  cases w.documents.get? p <;> rfl

/-- A document that is shut has no edits that wait, but its timer is still there. -/
theorem shut (h : Debounced past none w) (p : Path) (text : Text) :
    Debounced past (some p) (w.shut p text) := by
  have hagenda : (w.shut p text).agenda = w.agenda := agenda_setOwner ..
  obtain ⟨htimers, hsettings, hcount, hconfigured⟩ := Agenda.mk.inj hagenda
  have hopen {q : Path} (hq : q ≠ p) : (w.shut p text).isOpen q = w.isOpen q := by
    rw [isOpen, get?_shut hq, isOpen]
  refine ⟨hsettings ▸ h.delays, htimers ▸ h.keyed, fun timer htimer => ?_, fun q hq => ?_⟩
  · have htimely := h.timely timer (htimers ▸ htimer)
    cases htask : timer.task with
    | fold q =>
        rw [timely_fold htask] at htimely ⊢
        refine ⟨?_, htimely.2⟩
        by_cases hqp : q = p
        · exact .inr (congrArg some hqp.symm)
        · exact .inl ((hopen hqp).trans (htimely.1.resolve_right (by simp)))
    | settle change =>
        rw [timely_settle htask] at htimely ⊢
        rwa [hcount]
    | reread id =>
        rw [timely_reread htask] at htimely ⊢
        rwa [hconfigured]
  · by_cases hqp : q = p
    · subst hqp
      simp [hasEdits_shut] at hq
    · rw [hasEdits, get?_shut hqp] at hq
      obtain ⟨hopened, -, timer, htimer, htask⟩ := h.edits q hq
      refine ⟨(hopen hqp).trans hopened, ?_, timer, htimers ▸ htimer, htask⟩
      exact fun heq => hqp (Option.some.inj heq).symm

theorem cancel (h : Debounced past (some p) w) :
    Debounced past none (w.cancel (.document p)) := by
  have hmem {timer : Timer Topic Task} : timer ∈ (w.cancel (.document p)).timers.timers ↔
      timer ∈ w.timers.timers ∧ timer.key ≠ .document p := by
    simp [Workspace.cancel, TimerQueue.cancel]
  refine ⟨h.delays, fun timer htimer => h.keyed timer (hmem.mp htimer).1, fun timer htimer => ?_,
    fun q hq => ?_⟩
  · obtain ⟨hold, hkey⟩ := hmem.mp htimer
    have htimely := h.timely timer hold
    rw [h.keyed timer hold] at hkey
    cases htask : timer.task with
    | fold q =>
        rw [timely_fold htask] at htimely ⊢
        refine ⟨.inl (htimely.1.resolve_right fun heq => hkey ?_), htimely.2⟩
        rw [htask, Option.some.inj heq, Task.topic]
    | settle change => exact (timely_settle htask).mpr ((timely_settle htask).mp htimely)
    | reread id => exact (timely_reread htask).mpr ((timely_reread htask).mp htimely)
  · obtain ⟨hopen, hkeeps, timer, htimer, htask⟩ := h.edits q hq
    refine ⟨hopen, by simp, timer, hmem.mpr ⟨htimer, fun hkey => hkeeps ?_⟩, htask⟩
    rw [h.keyed timer htimer, htask] at hkey
    exact congrArg some (Topic.document.inj hkey).symm

theorem close (h : Debounced past none w) (p : Path) (text : Text) :
    Debounced past none (w.close p text) := by
  obtain ⟨left, owner?, hleft, heq⟩ := close_cases w p text
  have hleft' : Debounced past (some p) left := by
    rcases hleft with rfl | ⟨id, rfl⟩
    · exact h.shut p text
    · exact (h.shut p text).relieves (governs_relieves.dissolve ..)
  rw [heq]
  exact hleft'.cancel.relieves ((governs_relieves.emit ..).trans (governs_relieves.settle _))

end Debounced

/-! ### Operations -/

theorem isSome_manifestOf? (w : Workspace) (id : ProjectId) :
    (w.manifestOf? id).isSome = w.projectHas id (·.isConfigured) := by
  rw [manifestOf?, projectHas]
  cases w.projects.get? id <;> rfl

theorem mem_configured_iff (hw : w.Enlisted) :
    id ∈ w.configured ↔ w.projectHas id (·.isConfigured) := by
  have hlisted := hw.orderly.configured id
  rw [roster_configured, roster_holding?, holding?] at hlisted
  rw [hlisted, projectHas]
  cases w.projects.get? id with
  | none => simp
  | some project => simp [Project.isConfigured_iff, Project.holding]

/-- A step counts a change of a text. -/
def Counts (w : Workspace) (op : Operation) : Prop :=
  (w.perform op).changeCount ≠ w.changeCount

/-- A step changes an open document for an editor. -/
def Edits (p : Path) (w : Workspace) : Operation → Prop
  | .changeFile q edits => w.normalize q = p ∧ ∃ version, (w.changeFile q edits).2 = .ok version
  | .changeRange q range text =>
    w.normalize q = p ∧ ∃ version, (w.changeRange q range text).2 = .ok version
  | _ => False

/-- What there is to know of the past after one more step. -/
structure Past.Follows (past : Past) (w : Workspace) (op : Operation) (past' : Past) : Prop where
  delays : past'.delays = past.delays
  counts : w.Counts op → (w.perform op).timers.now = w.timers.now → past'.changed w.timers.now
  changed : ¬w.Counts op → ∀ now, past.changed now → past'.changed now
  edits : ∀ p, w.Edits p op → (w.perform op).timers.now = w.timers.now → past'.edited p w.timers.now
  edited : ∀ p, ¬w.Edits p op → ∀ now, past.edited p now → past'.edited p now

/-- What happens while the clock stands still, and without an editor. -/
structure Meanwhile (past : Past) (w v : Workspace) : Prop where
  enlisted : v.Enlisted
  now : v.timers.now = w.timers.now
  changeCount : w.changeCount ≤ v.changeCount
  debounced : Debounced { past with changed := fun now =>
    if v.changeCount = w.changeCount then past.changed now else now = w.timers.now } none v

namespace Meanwhile

theorem refl (hw : w.Enlisted) (h : Debounced past none w) : Meanwhile past w w where
  enlisted := hw
  now := rfl
  changeCount := Nat.le_refl _
  debounced := h.imp rfl (fun _ hnow => (if_pos rfl).mpr hnow) fun _ _ => id

variable (h : Meanwhile past w v)

include h

theorem relieves (hv' : w'.Enlisted) (hrelieves : Relieves v w') : Meanwhile past w w' where
  enlisted := hv'
  now := hrelieves.now.trans h.now
  changeCount := hrelieves.changeCount ▸ h.changeCount
  debounced := by
    rw [hrelieves.changeCount]
    exact h.debounced.relieves hrelieves

theorem textChanged : Meanwhile past w v.textChanged where
  enlisted := h.enlisted.of_roster rfl rfl
  now := h.now
  changeCount := Nat.le_succ_of_le h.changeCount
  debounced := by
    have hle := h.changeCount
    have hmore : v.textChanged.changeCount ≠ w.changeCount := by
      show v.changeCount + 1 ≠ w.changeCount
      omega
    refine h.debounced.textChanged.imp rfl (fun now hnow => ?_) fun _ _ => id
    exact (if_neg hmore).mpr (hnow.trans h.now)

theorem scheduleReread (hlive : (v.manifestOf? id).isSome) (delay : Nat) :
    Meanwhile past w (v.schedule (.reread id) delay) where
  enlisted := h.enlisted.of_roster rfl rfl
  now := h.now
  changeCount := h.changeCount
  debounced := by
    rw [isSome_manifestOf?, ← mem_configured_iff h.enlisted] at hlive
    exact h.debounced.scheduleReread hlive delay

theorem documentChanged (p : Path) (change : FileChange) :
    Meanwhile past w (v.documentChanged p change) := by
  rcases v.documentChanged_cases p change with hsame | hdeleted | ⟨d, text, hd, hread⟩
  · rwa [hsame]
  · rw [hdeleted]
    exact h.relieves (h.enlisted.leads (leads_documentDeleted v p)) (relieves_documentDeleted v p)
  · have hreloaded : Meanwhile past w (v.modifyDocument p fun _ => (d.reloadIfChanged text).1) :=
      h.relieves (h.enlisted.of_roster rfl rfl) (relieves_reloadIfChanged hd text)
    rw [hread]
    split
    · have hmarked : Meanwhile past w
          ((v.modifyDocument p fun _ => (d.reloadIfChanged text).1).markStaleAround p) :=
        hreloaded.relieves (enlisted_markStaleAround hreloaded.enlisted p) (.of_documents rfl rfl)
      exact hmarked.textChanged
    · exact hreloaded

theorem fileChanged (p : Path) (change : FileChange) : Meanwhile past w (v.fileChanged p change) := by
  refine fileChanged_keeps (Meanwhile past w) (fun _ p change h => h.documentChanged p change)
    (fun v id trigger? h => ?_) (fun v id delay hlive h => ?_) (fun v manifest h => ?_) h p change
  · have hv' : (v.updateConfigured id trigger?).settle.Enlisted :=
      h.enlisted.leads ((leads_updateConfigured v id trigger?).trans (leads_settle _))
    exact h.relieves hv'
      ((governs_relieves.updateConfigured ..).trans (governs_relieves.settle _))
  · exact h.scheduleReread hlive delay
  · exact h.relieves (h.enlisted.leads (leads_discoverManifest v manifest))
      (governs_relieves.discoverManifest ..)

end Meanwhile

/-! ### Runs -/

theorem Debounced.follows {op : Operation} (hfollows : past.Follows w op past')
    (h : Debounced past none v) (hcounts : ¬w.Counts op) (hedits : ∀ p, ¬w.Edits p op) :
    Debounced past' none v :=
  h.imp hfollows.delays (hfollows.changed hcounts) fun p => hfollows.edited p (hedits p)

/-- What a step that relieves does counts no change. -/
theorem Debounced.follows_relieves {op : Operation} (hfollows : past.Follows w op past')
    (h : Debounced past none w) (hrelieves : Relieves w (w.perform op)) (hedits : ∀ p, ¬w.Edits p op) :
    Debounced past' none (w.perform op) :=
  (h.relieves hrelieves).follows hfollows (fun hcounts => hcounts hrelieves.changeCount) hedits

/-- Either an editor is refused, or a document is changed and the delays for that start anew. -/
def Responds (past : Past) (w : Workspace) (p : Path) (answer : Workspace × Except Failure Nat) : Prop :=
  (∃ failure, answer.2 = .error failure) ∧ Relieves w answer.1 ∨
    (∃ version, answer.2 = .ok version) ∧ answer.1.changeCount ≠ w.changeCount ∧
      answer.1.timers.now = w.timers.now ∧ Debounced
        ⟨past.delays, (· = w.timers.now), fun q now => if q = p then now = w.timers.now else past.edited q now⟩
        none answer.1

theorem Debounced.responds_changeFile (h : Debounced past none w) (p : Path) (edits : List Edit) :
    Responds past w (w.normalize p) (w.changeFile p edits) := by
  rcases w.changeFile_result p edits with ⟨failure, hfailed⟩ | ⟨d, d', hd, hopen, -, hedited, hchanged⟩
  · rw [hfailed]
    exact .inl ⟨⟨failure, rfl⟩, .refl w⟩
  · rw [hchanged]
    refine .inr ⟨⟨d'.version, rfl⟩, Nat.succ_ne_self _, rfl, ?_⟩
    have htimed := (h.edit hd hopen (Document.retexts_editAll hedited)).textChanged
    exact htimed.relieves (.of_documents rfl rfl)

theorem Debounced.responds_changeRange (h : Debounced past none w) (p : Path) (range : PositionRange)
    (text : Text) : Responds past w (w.normalize p) (w.changeRange p range text) := by
  have hasked : Relieves w (w.snapshot p).1 := relieves_query w p _
  have hnormalize : (w.snapshot p).1.normalize p = w.normalize p := by
    rw [snapshot, query]
    split <;> rfl
  rw [changeRange]
  generalize w.snapshot p = answer at hasked hnormalize
  obtain ⟨asked, snapshot⟩ := answer
  cases snapshot with
  | error failure => exact .inl ⟨⟨failure, rfl⟩, hasked⟩
  | ok s =>
      have hresponds := (h.relieves hasked).responds_changeFile p
        [⟨s.tree.offset range.start, s.tree.offset range.stop, text⟩]
      rw [hnormalize, Responds, hasked.now, hasked.changeCount] at hresponds
      refine hresponds.imp_left fun hrefused => ?_
      exact ⟨hrefused.1, hasked.trans hrefused.2⟩

theorem Responds.follows {op : Operation} {answer : Workspace × Except Failure Nat}
    (hresponds : Responds past w p answer) (h : Debounced past none w)
    (hfollows : past.Follows w op past') (hperform : w.perform op = answer.1)
    (hedits : ∀ q, w.Edits q op ↔ p = q ∧ ∃ version, answer.2 = .ok version) :
    Debounced past' none (w.perform op) := by
  rcases hresponds with ⟨⟨failure, hfailed⟩, hrelieves⟩ | ⟨hchanged, hcount, hnow, hdebounced⟩
  · rw [← hperform] at hrelieves
    refine h.follows_relieves hfollows hrelieves fun q hq => ?_
    obtain ⟨-, version, hversion⟩ := (hedits q).mp hq
    simp [hfailed] at hversion
  · rw [← hperform] at hcount hnow hdebounced
    refine hdebounced.imp hfollows.delays (fun now hpast => hpast ▸ hfollows.counts hcount hnow) ?_
    intro q now hpast
    by_cases hq : q = p
    · subst hq
      have hpast' : now = w.timers.now := by simpa using hpast
      exact hpast' ▸ hfollows.edits q ((hedits q).mpr ⟨rfl, hchanged⟩) hnow
    · have hpast' : past.edited q now := by simpa [hq] using hpast
      exact hfollows.edited q (fun hedited => hq ((hedits q).mp hedited).1.symm) now hpast'

theorem changeCount_close (w : Workspace) (p : Path) (text : Text) :
    (w.close p text).changeCount = w.changeCount := by
  have hshut : (w.shut p text).changeCount = w.changeCount :=
    (Agenda.mk.inj (agenda_setOwner ..)).2.2.1
  obtain ⟨left, owner?, hleft, heq⟩ := close_cases w p text
  have hleft' : left.changeCount = w.changeCount := by
    rcases hleft with rfl | ⟨id, rfl⟩
    · exact hshut
    · exact (governs_relieves.dissolve ..).changeCount.trans hshut
  rw [heq]
  exact ((governs_relieves.emit ..).trans (governs_relieves.settle _)).changeCount.trans hleft'

theorem changeCount_advance (w : Workspace) (duration : Nat) :
    (w.advance duration).changeCount = w.changeCount :=
  advance_keeps (·.changeCount = w.changeCount) (fun _ _ _ h => h)
    (fun v task h => (governs_relieves.runTask v task).changeCount.trans h) rfl duration

theorem debounced_perform (hw : w.Enlisted) (h : Debounced past none w) {op : Operation}
    (hfollows : past.Follows w op past') : Debounced past' none (w.perform op) := by
  cases op with
  | openFile p text? =>
      exact h.follows_relieves hfollows (relieves_openFile w p text?) fun _ => id
  | closeFile p =>
      rcases closeFile_cases w p with hsame | ⟨-, text, hclosed⟩
      · refine h.follows_relieves hfollows ?_ fun _ => id
        show Relieves w (w.closeFile p).1
        rw [hsame]
        exact .refl w
      · have hperform : w.perform (.closeFile p) = w.close (w.normalize p) text := hclosed
        rw [hperform]
        refine (h.close (w.normalize p) text).follows hfollows (fun hcounts => hcounts ?_) fun _ => id
        rw [hperform]
        exact changeCount_close ..
  | changeFile p edits =>
      exact (h.responds_changeFile p edits).follows h hfollows rfl fun _ => .rfl
  | changeRange p range text =>
      exact (h.responds_changeRange p range text).follows h hfollows rfl fun _ => .rfl
  | snapshot p => exact h.follows_relieves hfollows (relieves_query w p _) fun _ => id
  | getText p start length => exact h.follows_relieves hfollows (relieves_query w p _) fun _ => id
  | getTextRange p range => exact h.follows_relieves hfollows (relieves_query w p _) fun _ => id
  | positionAt p offset => exact h.follows_relieves hfollows (relieves_query w p _) fun _ => id
  | offsetAt p position => exact h.follows_relieves hfollows (relieves_query w p _) fun _ => id
  | projectFor p => exact h.follows_relieves hfollows (relieves_projectFor w p) fun _ => id
  | adoptProjectFor p => exact h.follows_relieves hfollows (relieves_adoptProjectFor w p) fun _ => id
  | takeEvents => exact h.follows_relieves hfollows (.of_documents rfl rfl) fun _ => id
  | fileChanged p change =>
      have hafter := (Meanwhile.refl hw h).fileChanged p change
      refine hafter.debounced.imp hfollows.delays (fun now hpast => ?_) fun q =>
        hfollows.edited q id
      by_cases hcounts : w.Counts (.fileChanged p change)
      · have hpast' : now = w.timers.now := (if_neg hcounts).mp hpast
        exact hpast' ▸ hfollows.counts hcounts hafter.now
      · exact hfollows.changed hcounts now ((if_pos (not_not.mp hcounts)).mp hpast)
  | advance duration =>
      exact (h.advance duration).follows hfollows (fun hcounts => hcounts (changeCount_advance ..))
        fun _ => id
  | flush =>
      refine (h.flushWithin w.timers.size).follows hfollows (fun hcounts => hcounts ?_) fun _ => id
      exact flush_keeps (·.changeCount = w.changeCount)
        (fun v duration hv => (changeCount_advance v duration).trans hv) rfl
  | reload => exact h.follows_relieves hfollows (governs_relieves.reload w) fun _ => id
  | settle => exact h.follows_relieves hfollows (governs_relieves.settle w) fun _ => id
  | replaceFiles fs => exact h.follows_relieves hfollows (.of_documents rfl rfl) fun _ => id

/-- The clock showed a time, and went on to show it, when a step of a kind was made last. -/
def LastAt (w : Workspace) (ops : List Operation) (kind : Workspace → Operation → Prop) (now : Nat) :
    Prop :=
  ∃ done op rest, ops = done ++ op :: rest ∧ kind (w.run done) op ∧
    (w.run done).timers.now = now ∧ ((w.run done).perform op).timers.now = now ∧
    ((w.run done).perform op).Avoids rest kind

section

variable {start : Workspace} {ops : List Operation} {op : Operation}
  {kind : Workspace → Operation → Prop} {now : Nat}

theorem lastAt_concat (hkind : kind (start.run ops) op)
    (hnow : ((start.run ops).perform op).timers.now = (start.run ops).timers.now) :
    start.LastAt (ops ++ [op]) kind (start.run ops).timers.now :=
  ⟨ops, op, [], rfl, hkind, rfl, hnow, avoids_nil⟩

theorem LastAt.concat (h : start.LastAt ops kind now) (hkind : ¬kind (start.run ops) op) :
    start.LastAt (ops ++ [op]) kind now := by
  obtain ⟨done, last, rest, rfl, hlast, hnow, hnow', hrest⟩ := h
  refine ⟨done, last, rest ++ [op], by simp, hlast, hnow, hnow', avoids_concat.mpr ⟨hrest, ?_⟩⟩
  have hrun : start.run (done ++ last :: rest) = ((start.run done).perform last).run rest := by
    rw [run, List.foldl_append, List.foldl_cons]
    rfl
  rwa [← hrun]

/-- The past of a run. -/
def pastOf (start : Workspace) (ops : List Operation) : Past where
  delays := start.settings.timing
  changed := start.LastAt ops Counts
  edited p := start.LastAt ops (Edits p)

theorem follows_pastOf (start : Workspace) (ops : List Operation) (op : Operation) :
    (start.pastOf ops).Follows (start.run ops) op (start.pastOf (ops ++ [op])) where
  delays := rfl
  counts := lastAt_concat
  changed hcounts _ h := h.concat hcounts
  edits _ := lastAt_concat
  edited _ hedits _ h := h.concat hedits

theorem debounced_empty {settings : Settings} {scanner : Scanner} {fs : FileSystem} :
    Debounced (({ settings, scanner, fs } : Workspace).pastOf []) none
      ({ settings, scanner, fs } : Workspace) := by
  refine ⟨rfl, by simp, by simp, fun p hp => ?_⟩
  have hnone : ({ settings, scanner, fs } : Workspace).documents.get? p = none := rfl
  simp [hasEdits, hnone] at hp

theorem debounced_run (settings : Settings) (scanner : Scanner) (fs : FileSystem)
    (ops : List Operation) :
    Debounced (({ settings, scanner, fs } : Workspace).pastOf ops) none
      (({ settings, scanner, fs } : Workspace).run ops) := by
  induction ops using List.reverseRecOn with
  | nil => exact debounced_empty
  | append_singleton ops op ih =>
      rw [run_concat]
      exact debounced_perform enlisted_run ih (follows_pastOf ..)

end

/-- Tasks wait for what there is. After every run a settlement that waits is one for the last change of a text, and
is due when the delay since then is over; it is never found to be out of date when its time comes. Edits that wait
have a task that makes them a version, due when the delay since the last edit of the document is over. Tasks of
that kind are about open documents, and manifests are to be read again only for live configured projects. -/
theorem timers_run (settings : Settings) (scanner : Scanner) (fs : FileSystem) (ops : List Operation) :
    let start : Workspace := { settings, scanner, fs }
    let w := start.run ops
    (∀ timer ∈ w.timers.timers, ∀ change, timer.task = .settle change → change = w.changeCount ∧
      ∃ now, start.LastAt ops Counts now ∧
        timer.deadline = now + settings.timing.structureUpdate) ∧
    (∀ flushes limit count timers timer change,
      (runDue limit count (flushWithin flushes w)).timers.popDue limit = (timers, some timer) →
      timer.task = .settle change →
      change = (runDue limit count (flushWithin flushes w)).changeCount) ∧
    (∀ p, w.hasEdits p → ∃ timer ∈ w.timers.timers, timer.task = .fold p ∧
      ∃ now, start.LastAt ops (Edits p) now ∧
        timer.deadline = now + settings.timing.editCoalesce) ∧
    (∀ timer ∈ w.timers.timers, ∀ p, timer.task = .fold p → w.isOpen p) ∧
    ∀ timer ∈ w.timers.timers, ∀ id, timer.task = .reread id →
      w.projectHas id (·.isConfigured) := by
  intro start w
  have hw : w.Enlisted := enlisted_run
  have h : Debounced (start.pastOf ops) none w := debounced_run settings scanner fs ops
  refine ⟨fun timer htimer change htask => (timely_settle htask).mp (h.timely timer htimer), ?_,
    fun p hp => ?_, fun timer htimer p htask => ?_, fun timer htimer id htask => ?_⟩
  · intro flushes limit count timers timer change hpop htask
    exact ((h.flushWithin flushes).runDue limit count).settles limit hpop htask
  · obtain ⟨-, -, timer, htimer, htask⟩ := h.edits p hp
    exact ⟨timer, htimer, htask, ((timely_fold htask).mp (h.timely timer htimer)).2⟩
  · exact ((timely_fold htask).mp (h.timely timer htimer)).1.resolve_right (by simp)
  · rw [← mem_configured_iff hw]
    exact (timely_reread htask).mp (h.timely timer htimer)

end ProjectTracker.Workspace
