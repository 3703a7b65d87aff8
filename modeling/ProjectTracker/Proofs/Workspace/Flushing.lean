import ProjectTracker.Proofs.Workspace.Buffers
import ProjectTracker.Proofs.Workspace.Debouncing
import ProjectTracker.Proofs.Workspace.Returning
/-!
Doing all that waits, told without a bound on the rounds or on the tasks of a round. It comes to an end because
each round takes out at least the timer that it waited for, and no task puts one in; how long the rest waits does
not matter.
-/

namespace ProjectTracker.Workspace

variable {w v : Workspace} {id : ProjectId} {limit duration count : Nat} {fired : List (Timer Topic Task)}

/-! ### Tasks and rounds without a bound -/

section

variable (holds : Workspace → Path → Prop)

/-- The manifest of a project is read again. Where that changes nothing about the roots, nothing else is done. -/
def RereadsTo (w : Workspace) (id : ProjectId) (v : Workspace) : Prop :=
  match w.manifestOf? id with
  | none => v = w
  | some manifest =>
    if w.fs.isFile (.ofPath manifest) then
      let (w, outcome) := w.readManifest manifest none
      let roots := ((w.projects.get? id).map (·.roots)).getD []
      if outcome.roots.isPerm roots then v = w
      else ∃ applied, AppliesTo holds w id outcome applied ∧ SettlesTo holds applied v
    else ∃ updated, UpdatesTo holds w id none updated ∧ SettlesTo holds updated v

def RunsTo (w : Workspace) (task : Task) (v : Workspace) : Prop :=
  match task with
  | .fold p => v = w.fold p
  | .settle change => if change = w.changeCount then SettlesTo holds w v else v = w
  | .reread id => RereadsTo holds w id v

/-- All that is due by a time is done, the earliest first, for as long as anything is due. -/
inductive RunsDueTo (limit : Nat) : Workspace → List (Timer Topic Task) → Workspace → Prop where
  | early {w : Workspace} {timers : TimerQueue Topic Task} (hpop : w.timers.popDue limit = (timers, none)) :
    RunsDueTo limit w [] w
  | due {w ran v : Workspace} {timers : TimerQueue Topic Task} {timer : Timer Topic Task}
    {fired : List (Timer Topic Task)} (hpop : w.timers.popDue limit = (timers, some timer))
    (hran : RunsTo holds { w with timers } timer.task ran) (hrest : RunsDueTo limit ran fired v) :
    RunsDueTo limit w (timer :: fired) v

def AdvancesTo (w : Workspace) (duration : Nat) (fired : List (Timer Topic Task)) (v : Workspace) : Prop :=
  ∃ ran, RunsDueTo holds (w.timers.now + duration) w fired ran ∧
    v = ran.setClock (w.timers.now + duration)

/-- Time passes until the next task is due, for as long as there is one. -/
inductive FlushesTo : Workspace → List (Timer Topic Task) → Workspace → Prop where
  | done {w : Workspace} (hnext : w.nextTaskIn? = none) : FlushesTo w [] w
  | round {w advanced v : Workspace} {duration : Nat} {fired later : List (Timer Topic Task)}
    (hnext : w.nextTaskIn? = some duration) (hadvanced : AdvancesTo holds w duration fired advanced)
    (hrest : FlushesTo advanced later v) : FlushesTo w (fired ++ later) v

end

namespace Composed

theorem of_regular (h : Composed False w) (hsteps : Turnover w w') (hw' : w'.Regular) : Composed False w' :=
  ⟨hw', h.grounded.turnover hsteps, h.traced.turnover h.grounded hsteps, False.elim⟩

theorem strikeHour (h : Composed False w) (timer : Timer Topic Task) (rest : List (Timer Topic Task)) :
    Composed False (w.strikeHour timer rest) :=
  h.turnover (.same rfl rfl rfl rfl) fun _ hplanted => hplanted

theorem runTask (h : Composed False w) (task : Task) : Composed False (w.runTask task) :=
  h.of_regular (turnover_runTask h.enlisted task) (regular_runTask h.toRegular task)

theorem advance (h : Composed False w) (duration : Nat) : Composed False (w.advance duration) :=
  h.of_regular (turnover_advance h.enlisted duration) (regular_advance h.toRegular duration)

theorem updateConfigured (h : Composed False w) (id : ProjectId) (trigger? : Option Path) :
    Composed False (w.updateConfigured id trigger?) :=
  h.rearranges ⟨shifts_updateConfigured .., fun _ hplanted =>
    updateConfigured_planted h.enlisted hplanted id trigger?⟩

theorem applyManifest (h : Composed False w) (hid : w.NotInferred id) (outcome : Manifest.Outcome) :
    Composed False (w.applyManifest id outcome) :=
  h.rearranges ⟨shifts_applyManifest .., fun _ hplanted => applyManifest_planted hplanted hid outcome⟩

end Composed

/-! ### What fires -/

/-- Timers fire on the way to another workspace, and the clock is moved to the last of their deadlines. All of them,
and those that wait then, waited before. -/
structure Fires (w : Workspace) (fired : List (Timer Topic Task)) (v : Workspace) : Prop where
  timers : (fired ++ v.timers.timers).Sublist w.timers.timers
  now : v.timers.now = (fired.map (·.deadline)).foldl max w.timers.now

namespace Fires

theorem refl (w : Workspace) : Fires w [] w :=
  ⟨.refl _, rfl⟩

theorem trans {u : Workspace} {later : List (Timer Topic Task)} (h : Fires w fired v)
    (h' : Fires v later u) : Fires w (fired ++ later) u where
  timers := by
    rw [List.append_assoc]
    exact (h'.timers.append_left fired).trans h.timers
  now := by rw [h'.now, h.now, List.map_append, List.foldl_append]

theorem runTimer {timer : Timer Topic Task} {rest : List (Timer Topic Task)}
    (h : w.timers.timers = timer :: rest) : Fires w [timer] (w.runTimer timer rest) where
  timers := by
    rw [h]
    exact ((governs_slackens.runTask (w.strikeHour timer rest) timer.task).timers).cons_cons timer
  now := now_runTimer ..

theorem length_lt (h : Fires w fired v) (hne : fired ≠ []) :
    v.timers.timers.length < w.timers.timers.length := by
  have hlength := h.timers.length_le
  rw [List.length_append] at hlength
  have hpos := List.length_pos_iff.mpr hne
  omega

end Fires

/-- A result that is reached by timers that fire, and the only one. -/
def Reaches (relation : List (Timer Topic Task) → Workspace → Prop) (w : Workspace)
    (fired : List (Timer Topic Task)) (result : Workspace) : Prop :=
  (∀ fired' v, relation fired' v ↔ fired' = fired ∧ v = result) ∧ Fires w fired result

/-! ### There is one result -/

section

variable {holds : Workspace → Path → Prop} (hholds : ∀ w p, w.Gathers p → (False → w.Inherits p) → holds w p)

include hholds

theorem rereadsTo_iff (h : Composed False w) (id : ProjectId) :
    RereadsTo holds w id v ↔ v = w.rereadManifest id := by
  unfold RereadsTo rereadManifest
  cases hmanifest : w.manifestOf? id with
  | none => exact .rfl
  | some manifest =>
      have hread : Proceeds False (fun _ => True) w (w.readManifest manifest none).1 :=
        proceeds_readManifest ..
      have hid := (notInferred_of_manifestOf? h.enlisted hmanifest).proceeds hread
      have hcomposed := h.readManifest manifest none
      dsimp only
      split
      · split
        · exact .rfl
        · simp only [appliesTo_iff hholds hcomposed hid, exists_eq_left]
          exact settlesTo_iff hholds (hcomposed.applyManifest hid _)
      · simp only [updatesTo_iff hholds h, exists_eq_left]
        exact settlesTo_iff hholds (h.updateConfigured id none)

theorem runsTo_iff (h : Composed False w) (task : Task) : RunsTo holds w task v ↔ v = w.runTask task := by
  cases task with
  | fold p => exact .rfl
  | settle change =>
      unfold RunsTo Workspace.runTask
      dsimp only
      split
      · exact settlesTo_iff hholds h
      · exact .rfl
  | reread id => exact rereadsTo_iff hholds h id

theorem runsDueTo_iff (limit : Nat) (w : Workspace) (h : Composed False w) :
    ∃ fired, Reaches (RunsDueTo holds limit w) w fired (runAllDue limit w) ∧
      ∀ timer ∈ w.timers.timers.head?, timer.deadline ≤ limit → ∃ rest, fired = timer :: rest := by
  induction w using due_induction limit with
  | early w hearly =>
      rw [runAllDue_of_early hearly]
      have hpop := TimerQueue.popDue_of_early hearly
      refine ⟨[], ⟨fun fired v => ⟨fun hruns => ?_, ?_⟩, .refl w⟩, fun timer htimer hdue => ?_⟩
      · cases hruns with
        | early => exact ⟨rfl, rfl⟩
        | due hdue => simp [hpop] at hdue
      · rintro ⟨rfl, rfl⟩
        exact .early hpop
      · exact absurd hdue (Nat.not_le_of_lt (hearly timer htimer))
  | due w timer rest htimers hdue ih =>
      have hstruck := h.strikeHour timer rest
      obtain ⟨fired, ⟨hruns, hfires⟩, -⟩ := ih (hstruck.runTask timer.task)
      have hpop := TimerQueue.popDue_of_due htimers hdue
      rw [runAllDue_of_due htimers hdue]
      refine ⟨timer :: fired, ⟨fun fired' v => ⟨fun hruns' => ?_, ?_⟩,
        (Fires.runTimer htimers).trans hfires⟩, fun first hfirst _ => ⟨fired, ?_⟩⟩
      · cases hruns' with
        | early hearly => simp [hpop] at hearly
        | due hpop' hran hrest =>
            obtain ⟨rfl, htimer⟩ := Prod.mk.inj (hpop.symm.trans hpop')
            obtain rfl := Option.some.inj htimer
            obtain rfl := (runsTo_iff hholds hstruck timer.task).mp hran
            obtain ⟨rfl, rfl⟩ := (hruns _ _).mp hrest
            exact ⟨rfl, rfl⟩
      · rintro ⟨rfl, rfl⟩
        exact .due hpop ((runsTo_iff hholds hstruck timer.task).mpr rfl) ((hruns _ _).mpr ⟨rfl, rfl⟩)
      · rw [htimers] at hfirst
        rw [← Option.some.inj hfirst]

/-- A round does what it waited for, and moves the clock no further than that. -/
theorem advancesTo_iff (h : Composed False w) (hnext : w.nextTaskIn? = some duration) :
    ∃ fired, Reaches (AdvancesTo holds w duration) w fired (w.advance duration) ∧ fired ≠ [] := by
  obtain ⟨timer, htimer, rfl⟩ : ∃ timer ∈ w.timers.timers.head?,
      timer.deadline - w.timers.now = duration := by
    simpa [nextTaskIn?, TimerQueue.nextDeadline?] using hnext
  have hdue : timer.deadline ≤ w.timers.now + (timer.deadline - w.timers.now) := by omega
  generalize hlimit : w.timers.now + (timer.deadline - w.timers.now) = limit at hdue
  obtain ⟨fired, ⟨hruns, hfires⟩, hfirst⟩ := runsDueTo_iff hholds limit w h
  obtain ⟨rest, rfl⟩ := hfirst timer htimer hdue
  have hadvanced : w.advance (timer.deadline - w.timers.now) = (runAllDue limit w).setClock limit := by
    rw [advance_eq_advanceTo, hlimit, advanceTo]
  have hnow : max (runAllDue limit w).timers.now limit = (runAllDue limit w).timers.now := by
    -- the timer that was waited for has moved the clock as far already
    have hreached : max w.timers.now timer.deadline ≤ (runAllDue limit w).timers.now := by
      rw [hfires.now, List.map_cons, List.foldl_cons, List.foldl_max]
      exact Nat.le_max_left ..
    omega
  refine ⟨timer :: rest, ⟨fun fired' v => ?_, ?_⟩, List.cons_ne_nil timer rest⟩
  · unfold AdvancesTo
    rw [hadvanced, hlimit]
    simp only [hruns, and_assoc, exists_and_left, exists_eq_left]
  · rw [hadvanced]
    exact ⟨hfires.timers, hnow.trans hfires.now⟩

theorem flushesTo_iff (h : Composed False w) (hcount : w.timers.timers.length ≤ count) :
    ∃ fired, Reaches (FlushesTo holds w) w fired (flushWithin count w) ∧
      (flushWithin count w).timers.timers = [] := by
  have hdone {w : Workspace} (hnext : w.nextTaskIn? = none) : Reaches (FlushesTo holds w) w [] w := by
    refine ⟨fun fired v => ⟨fun hflushes => ?_, ?_⟩, .refl w⟩
    · cases hflushes with
      | done => exact ⟨rfl, rfl⟩
      | round hround => simp [hnext] at hround
    · rintro ⟨rfl, rfl⟩
      exact .done hnext
  have hnone {w : Workspace} : w.nextTaskIn? = none ↔ w.timers.timers = [] := by
    simp [nextTaskIn?, TimerQueue.nextDeadline?]
  induction count generalizing w with
  | zero =>
      have hempty := List.eq_nil_of_length_eq_zero (Nat.le_zero.mp hcount)
      exact ⟨[], hdone (hnone.mpr hempty), hempty⟩
  | succ count ih =>
      unfold flushWithin
      cases hnext : w.nextTaskIn? with
      | none => exact ⟨[], hdone hnext, hnone.mp hnext⟩
      | some duration =>
          obtain ⟨fired, ⟨hadvances, hfires⟩, hne⟩ := advancesTo_iff hholds h hnext
          have hlt := hfires.length_lt hne
          obtain ⟨later, ⟨hflushes, hfires'⟩, hempty⟩ := ih (h.advance duration) (by omega)
          refine ⟨fired ++ later,
            ⟨fun fired' v => ⟨fun hflushes' => ?_, ?_⟩, hfires.trans hfires'⟩, hempty⟩
          · cases hflushes' with
            | done hdone => simp [hnext] at hdone
            | round hround hadvanced hrest =>
                obtain rfl := Option.some.inj (hnext.symm.trans hround)
                obtain ⟨rfl, rfl⟩ := (hadvances _ _).mp hadvanced
                obtain ⟨rfl, rfl⟩ := (hflushes _ _).mp hrest
                exact ⟨rfl, rfl⟩
          · rintro ⟨rfl, rfl⟩
            exact .round hnext ((hadvances _ _).mpr ⟨rfl, rfl⟩) ((hflushes _ _).mpr ⟨rfl, rfl⟩)

end

/-! ### Runs -/

/-- In every state all that waits can be done, without a bound on the rounds and with one result. Nothing waits then,
neither a task nor an edit, only timers have fired that waited before, the clock stands where it stood or at the last
of their deadlines, whichever is later, and the documents that were open are, with the texts that they had. -/
theorem flush_run (settings : Settings) (scanner : Scanner) (fs : FileSystem) (ops : List Operation) :
    let w := ({ settings, scanner, fs } : Workspace).run ops
    ∃ fired, (∀ fired' v, FlushesTo Gathers w fired' v ↔ fired' = fired ∧ v = w.flush) ∧
      fired.Sublist w.timers.timers ∧ w.flush.timers.timers = [] ∧ (∀ p, w.flush.hasEdits p = false) ∧
      w.flush.timers.now = max w.timers.now ((fired.map (·.deadline)).max?.getD w.timers.now) ∧
      ∀ p d, w.documents.get? p = some d → d.isOpen →
        ∃ d', w.flush.documents.get? p = some d' ∧ d'.isOpen ∧ d'.text = d.text := by
  intro w
  have hw : Composed False w := { composed_run settings scanner fs ops with own := False.elim }
  have hdebounced := debounced_run settings scanner fs (ops ++ [.flush])
  rw [run_concat] at hdebounced
  obtain ⟨fired, ⟨hflushes, hfires⟩, hempty⟩ := flushesTo_iff (fun _ _ hgathers _ => hgathers) hw (Nat.le_refl _)
  refine ⟨fired, hflushes, (List.sublist_append_left ..).trans hfires.timers, hempty, fun p => ?_,
    hfires.now.trans List.foldl_max, fun p d hd hopen => ?_⟩
  · by_contra hedits
    obtain ⟨-, -, timer, htimer, -⟩ := hdebounced.edits p (Bool.of_not_eq_false hedits)
    have hnone : timer ∈ w.flush.timers.timers := htimer
    rw [show w.flush.timers.timers = [] from hempty] at hnone
    cases hnone
  · have hspares : Spares p w (w.perform .flush) := spares_perform fun haddressed => by
      cases haddressed
    obtain ⟨d', hd', hendures⟩ := hspares.endures d hd hopen
    exact ⟨d', hd', hendures.isOpen.trans hopen, hendures.text⟩

end ProjectTracker.Workspace
