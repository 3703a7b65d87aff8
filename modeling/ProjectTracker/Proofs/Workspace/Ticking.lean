import ProjectTracker.Proofs.TimerQueue.Order
import ProjectTracker.Proofs.Workspace.Pervading
import ProjectTracker.Workspace.Ticker
/-!
It makes no difference how time is cut. A task that runs reads the clock of its own deadline, no task moves the
clock or makes another one wait, and what is due is done in the order of the deadlines however far the clock is
to be moved. To move it on in parts is therefore to move it on at once.
-/

namespace ProjectTracker

namespace Workspace

/-! ### What leaves the clock alone -/

/-- The clock stands, and nothing more has come to wait. -/
structure Slackens (w w' : Workspace) : Prop where
  now : w'.timers.now = w.timers.now
  timers : w'.timers.timers.Sublist w.timers.timers

variable {w w' w'' : Workspace}

theorem Slackens.of_eq (h : w'.timers = w.timers) : Slackens w w' := by
  refine ⟨?_, ?_⟩
  · rw [h]
  · rw [h]

theorem Slackens.refl (w : Workspace) : Slackens w w :=
  .of_eq rfl

theorem Slackens.trans (h : Slackens w w') (h' : Slackens w' w'') : Slackens w w'' :=
  ⟨h'.now.trans h.now, h'.timers.trans h.timers⟩

theorem Slackens.foldl {α : Type} {step : Workspace → α → Workspace}
    (h : ∀ w x, Slackens w (step w x)) (xs : List α) (w : Workspace) :
    Slackens w (xs.foldl step w) := by
  induction xs generalizing w with
  | nil => exact .refl w
  | cons x xs ih => exact (h w x).trans (ih _)

theorem slackens_emit (w : Workspace) (e : Event) : Slackens w (w.emit e) :=
  .of_eq rfl

theorem slackens_modifyOpenFiles (w : Workspace) (f : OpenFiles → OpenFiles) :
    Slackens w (w.modifyOpenFiles f) :=
  .of_eq rfl

theorem slackens_fold (w : Workspace) (p : Path) : Slackens w (w.fold p) :=
  .of_eq rfl

theorem slackens_releaseWatch (w : Workspace) (id : WatchId) : Slackens w (w.releaseWatch id) :=
  .of_eq rfl

theorem slackens_cancel (w : Workspace) (topic : Topic) : Slackens w (w.cancel topic) :=
  ⟨rfl, List.filter_sublist⟩

theorem slackens_load (w : Workspace) (p : Path) : Slackens w (w.load p) := by
  rw [load]
  split
  · exact .refl w
  · split
    · exact .refl w
    · exact .of_eq rfl

theorem slackens_unwatch (w : Workspace) (p : Path) : Slackens w (w.unwatch p) := by
  rw [unwatch]
  split
  · exact .refl w
  · exact .of_eq rfl

theorem slackens_forget (w : Workspace) (p : Path) : Slackens w (w.forget p) := by
  rw [forget]
  split
  · have hremoved : Slackens (w.unwatch p)
        { w.unwatch p with documents := (w.unwatch p).documents.remove p } :=
      .of_eq rfl
    exact (slackens_unwatch w p).trans (hremoved.trans (slackens_cancel ..))
  · exact .refl w

theorem slackens_setOwner (w : Workspace) (p : Path) (owner? : Option ProjectId) :
    Slackens w (w.setOwner p owner?) := by
  rw [setOwner]
  split
  · exact .refl w
  · rename_i d _
    split
    · exact .refl w
    · refine .of_eq ?_
      dsimp only
      split
      · cases d.owner? <;> cases owner? <;> rfl
      · rfl

theorem slackens_joinLookout (w : Workspace) (dir : Path) : Slackens w (w.joinLookout dir) := by
  rw [joinLookout]
  split <;> exact .of_eq rfl

theorem slackens_leaveLookout (w : Workspace) (dir : Path) : Slackens w (w.leaveLookout dir) := by
  rw [leaveLookout]
  split
  · exact .refl w
  · split <;> exact .of_eq rfl

theorem slackens_refreshProject (w : Workspace) (id : ProjectId) :
    Slackens w (w.refreshProject id) := by
  rw [refreshProject]
  split
  · exact .refl w
  · rename_i project _
    dsimp only
    generalize w.scanner.fileSet w.sources project.roots = files
    have hrefreshed : Slackens w (w.modifyProject id (·.refresh files)) := .of_eq rfl
    have hfolded := hrefreshed.trans (.foldl slackens_fold files _)
    exact hfolded.trans (.foldl slackens_load files _)

theorem slackens_detach (w : Workspace) (p : Path) : Slackens w (w.detach p) :=
  (slackens_modifyOpenFiles ..).trans (slackens_setOwner ..)

theorem slackens_removeProject (w : Workspace) (id : ProjectId) :
    Slackens w (w.removeProject id).1 := by
  rw [removeProject]
  split
  · exact .refl w
  · rename_i project _
    dsimp only
    have hreleased : Slackens w (project.watches.foldl releaseWatch w) :=
      .foldl slackens_releaseWatch project.watches w
    have hleft := hreleased.trans (.foldl slackens_leaveLookout project.lookouts _)
    generalize project.lookouts.foldl leaveLookout _ = left at hleft ⊢
    have herased : Slackens left { left with
        projects := left.projects.erase id
        inferred := left.inferred.filter (· ≠ id)
        configured := left.configured.filter (· ≠ id) } :=
      .of_eq rfl
    have hcancelled := hleft.trans (herased.trans (slackens_cancel _ (.project id)))
    exact (hcancelled.trans (.foldl slackens_detach _ _)).trans (slackens_emit ..)

theorem slackens_createInferred (w : Workspace) (root : Path) :
    Slackens w (w.createInferred root).1 := by
  rw [createInferred]
  dsimp only
  have hnumbered : Slackens w { w with lastProject := w.lastProject + 1 } := .of_eq rfl
  have hjoined := hnumbered.trans (.foldl slackens_joinLookout root.ancestors _)
  generalize List.foldl joinLookout _ _ = joined at hjoined ⊢
  have hentered (project : Project) : Slackens joined { joined with
      projects := joined.projects.insert (w.lastProject + 1) project
      inferred := joined.inferred ++ [w.lastProject + 1] } :=
    .of_eq rfl
  exact (hjoined.trans (hentered _)).trans ((slackens_refreshProject ..).trans (slackens_emit ..))

theorem slackens_createConfigured (w : Workspace) (manifest : Path) (outcome : Manifest.Outcome) :
    Slackens w (w.createConfigured manifest outcome) := by
  rw [createConfigured]
  split
  · dsimp only
    have hnumbered : Slackens w { w with lastProject := w.lastProject + 1 } := .of_eq rfl
    have hloaded := hnumbered.trans (.foldl slackens_load outcome.roots _)
    generalize outcome.roots.foldl load _ = loaded at hloaded ⊢
    refine Slackens.trans ?_ ((slackens_refreshProject ..).trans (slackens_emit ..))
    refine hloaded.trans (.of_eq ?_)
    cases manifest.parent? <;> rfl
  · exact .refl w

theorem slackens_sweep (w : Workspace) : Slackens w w.sweep :=
  Slackens.foldl slackens_forget _ w

theorem governs_slackens : Governs Slackens where
  refl := .refl
  trans := .trans
  emit := slackens_emit
  modifyOpenFiles := slackens_modifyOpenFiles
  setOwner := slackens_setOwner
  refreshProject := slackens_refreshProject
  removeProject := slackens_removeProject
  createInferred := slackens_createInferred
  sweep := slackens_sweep
  fold := slackens_fold
  load := slackens_load
  modifyProject _ _ _ := .of_eq rfl
  createConfigured := slackens_createConfigured

/-! ### Running what is due -/

section

variable {limit later count : Nat} {timer : Timer Topic Task} {rest : List (Timer Topic Task)}

/-- The workspace in which the clock stands at the deadline of a timer and the timer is taken out. -/
def strikeHour (w : Workspace) (timer : Timer Topic Task) (rest : List (Timer Topic Task)) :
    Workspace :=
  { w with timers := { w.timers with now := max w.timers.now timer.deadline, timers := rest } }

/-- Does the work of a timer at its deadline. -/
def runTimer (w : Workspace) (timer : Timer Topic Task) (rest : List (Timer Topic Task)) : Workspace :=
  (w.strikeHour timer rest).runTask timer.task

theorem now_runTimer (w : Workspace) (timer : Timer Topic Task) (rest : List (Timer Topic Task)) :
    (w.runTimer timer rest).timers.now = max w.timers.now timer.deadline :=
  (governs_slackens.runTask (w.strikeHour timer rest) timer.task).now

theorem size_runTimer_le (w : Workspace) (timer : Timer Topic Task)
    (rest : List (Timer Topic Task)) : (w.runTimer timer rest).timers.size ≤ rest.length :=
  (governs_slackens.runTask (w.strikeHour timer rest) timer.task).timers.length_le

theorem runDue_of_due (h : w.timers.timers = timer :: rest) (hdue : timer.deadline ≤ limit)
    (count : Nat) : runDue limit (count + 1) w = runDue limit count (w.runTimer timer rest) := by
  rw [runDue, TimerQueue.popDue_of_due h hdue]
  rfl

theorem runDue_of_early (h : ∀ timer ∈ w.timers.timers.head?, limit < timer.deadline)
    (count : Nat) : runDue limit count w = w := by
  cases count with
  | zero => rfl
  | succ count => rw [runDue, TimerQueue.popDue_of_early h]

theorem runDue_succ (h : w.timers.size ≤ count) :
    runDue limit (count + 1) w = runDue limit count w := by
  induction count generalizing w with
  | zero =>
      have hnone : w.timers.timers = [] := List.eq_nil_of_length_eq_zero (Nat.le_zero.mp h)
      exact runDue_of_early (by simp [hnone]) _
  | succ count ih =>
      rcases w.timers.due_cases limit with ⟨timer, rest, htimers, hdue⟩ | hearly
      · have hrest : rest.length ≤ count := by
          rw [TimerQueue.size, htimers, List.length_cons] at h
          omega
        rw [runDue_of_due htimers hdue, runDue_of_due htimers hdue]
        exact ih ((size_runTimer_le w timer rest).trans hrest)
      · rw [runDue_of_early hearly, runDue_of_early hearly]

/-- A round for each timer that waits is enough. -/
theorem runDue_eq_of_size_le (h : w.timers.size ≤ count) :
    runDue limit count w = runDue limit w.timers.size w := by
  induction count, h using Nat.le_induction with
  | base => rfl
  | succ count hcount ih => rw [runDue_succ hcount, ih]

/-- Does all that is due by a time. -/
def runAllDue (limit : Nat) (w : Workspace) : Workspace :=
  runDue limit w.timers.size w

theorem runAllDue_of_due (h : w.timers.timers = timer :: rest) (hdue : timer.deadline ≤ limit) :
    runAllDue limit w = runAllDue limit (w.runTimer timer rest) := by
  have hsize : w.timers.size = rest.length + 1 := congrArg List.length h
  rw [runAllDue, hsize, runDue_of_due h hdue, runDue_eq_of_size_le (size_runTimer_le w timer rest),
    runAllDue]

theorem runAllDue_of_early (h : ∀ timer ∈ w.timers.timers.head?, limit < timer.deadline) :
    runAllDue limit w = w :=
  runDue_of_early h _

/-- What is true of a workspace in which nothing is due, and of one before the work of a timer if it is true of
the one after it, is true of all. -/
theorem due_induction {property : Workspace → Prop} (limit : Nat)
    (early : ∀ w, (∀ timer ∈ w.timers.timers.head?, limit < timer.deadline) → property w)
    (due : ∀ w timer rest, w.timers.timers = timer :: rest → timer.deadline ≤ limit →
      property (w.runTimer timer rest) → property w) (w : Workspace) : property w := by
  induction hsize : w.timers.size using Nat.strong_induction_on generalizing w with
  | _ size ih =>
      rcases w.timers.due_cases limit with ⟨timer, rest, htimers, hdue⟩ | hearly
      · have hlt : (w.runTimer timer rest).timers.size < size := by
          have hle := size_runTimer_le w timer rest
          rw [TimerQueue.size, htimers, List.length_cons] at hsize
          omega
        exact due w timer rest htimers hdue (ih _ hlt _ rfl)
      · exact early w hearly

theorem now_runAllDue_le (h : w.timers.now ≤ limit) : (runAllDue limit w).timers.now ≤ limit := by
  induction w using due_induction limit with
  | early w hearly => rwa [runAllDue_of_early hearly]
  | due w timer rest htimers hdue ih =>
      rw [runAllDue_of_due htimers hdue]
      apply ih
      rw [now_runTimer]
      omega

end

/-! ### Moving the clock -/

section

variable {limit later : Nat}

/-- Moves the clock on to a time. -/
def setClock (w : Workspace) (now : Nat) : Workspace :=
  { w with timers := w.timers.setNow now }

theorem setClock_setClock (w : Workspace) (h : limit ≤ later) :
    (w.setClock limit).setClock later = w.setClock later := by
  rw [setClock, setClock, setClock, TimerQueue.setNow, TimerQueue.setNow, TimerQueue.setNow]
  dsimp only
  rw [max_assoc, max_eq_right h]

/-- A timer that is due later does not notice that the clock was moved. -/
theorem runTimer_setClock (w : Workspace) {timer : Timer Topic Task}
    (h : limit ≤ timer.deadline) (rest : List (Timer Topic Task)) :
    (w.setClock limit).runTimer timer rest = w.runTimer timer rest := by
  rw [runTimer, runTimer, strikeHour, strikeHour, setClock, TimerQueue.setNow]
  dsimp only
  rw [max_assoc, max_eq_right h]

/-- Moves the clock on to a time and does what is due on the way. -/
def advanceTo (w : Workspace) (limit : Nat) : Workspace :=
  (runAllDue limit w).setClock limit

theorem advance_eq_advanceTo (w : Workspace) (duration : Nat) :
    w.advance duration = w.advanceTo (w.timers.now + duration) :=
  rfl

theorem now_advance (w : Workspace) (duration : Nat) :
    (w.advance duration).timers.now = w.timers.now + duration :=
  max_eq_right (now_runAllDue_le (Nat.le_add_right ..))

theorem advanceTo_of_due {timer : Timer Topic Task} {rest : List (Timer Topic Task)}
    (h : w.timers.timers = timer :: rest) (hdue : timer.deadline ≤ limit) :
    w.advanceTo limit = (w.runTimer timer rest).advanceTo limit := by
  rw [advanceTo, runAllDue_of_due h hdue, advanceTo]

theorem advanceTo_of_early (h : ∀ timer ∈ w.timers.timers.head?, limit < timer.deadline) :
    w.advanceTo limit = w.setClock limit := by
  rw [advanceTo, runAllDue_of_early h]

/-- Nothing that is due later notices that the clock stood still in between. -/
theorem advanceTo_advanceTo (w : Workspace) (h : limit ≤ later) :
    (w.advanceTo limit).advanceTo later = w.advanceTo later := by
  induction w using due_induction limit with
  | early w hearly =>
      rw [advanceTo_of_early hearly]
      rcases w.timers.due_cases later with ⟨timer, rest, htimers, hdue⟩ | hlate
      · have hlt : limit < timer.deadline := hearly timer (by simp [htimers])
        have hstopped : (w.setClock limit).timers.timers = timer :: rest := htimers
        rw [advanceTo_of_due hstopped hdue, advanceTo_of_due htimers hdue, runTimer_setClock w hlt.le]
      · have hstopped : ∀ timer ∈ (w.setClock limit).timers.timers.head?, later < timer.deadline :=
          hlate
        rw [advanceTo_of_early hstopped, advanceTo_of_early hlate, setClock_setClock w h]
  | due w timer rest htimers hdue ih =>
      rw [advanceTo_of_due htimers hdue, advanceTo_of_due htimers (hdue.trans h), ih]

theorem advance_advance (w : Workspace) (first second : Nat) :
    (w.advance first).advance second = w.advance (first + second) := by
  rw [advance_eq_advanceTo (w.advance first), now_advance, advance_eq_advanceTo, advance_eq_advanceTo,
    advanceTo_advanceTo w (by omega), Nat.add_assoc]

end

end Workspace

namespace Ticker

theorem workspace_tick (t : Ticker) (count : Nat) :
    (t.tick (count + 1)).workspace = t.workspace.advance ((count + 1) * t.interval) := by
  induction count generalizing t with
  | zero =>
      rw [tick, tick, Nat.zero_add, Nat.one_mul]
  | succ count ih =>
      rw [tick, ih, Workspace.advance_advance]
      congr 1
      rw [Nat.add_mul (count + 1) 1, Nat.one_mul, Nat.add_comm]

end Ticker

namespace Workspace

/-- To let time pass in parts, one after the other and with nothing in between, leaves all as it is left when
the whole of it passes at once: the documents, the projects, the lists, the timers, the clock and the events.
Nor does it matter in what intervals a ticker divides it. -/
theorem foldl_advance (w : Workspace) (part : Nat) (parts : List Nat) :
    (part :: parts).foldl advance w = w.advance (part :: parts).sum ∧
    ∀ interval count, (({ workspace := w, interval } : Ticker).tick (count + 1)).workspace =
      w.advance ((count + 1) * interval) := by
  refine ⟨?_, fun interval count => Ticker.workspace_tick _ count⟩
  induction parts generalizing w part with
  | nil => rw [List.foldl_cons, List.foldl_nil, List.sum_singleton]
  | cons next parts ih =>
      rw [List.foldl_cons, List.foldl_cons, advance_advance]
      have hmerged := ih w (part + next)
      rw [List.foldl_cons] at hmerged
      rw [hmerged, List.sum_cons, List.sum_cons, List.sum_cons, Nat.add_assoc]

end Workspace

end ProjectTracker
