import ProjectTracker.Proofs.Workspace.Coherence
/-!
Work that waits gets done. No task makes another one wait, so that each time that the clock moves on to the
next one fewer wait, and none once all were flushed.
-/

namespace ProjectTracker

namespace Workspace

variable {w : Workspace} {n : Normalizer}

/-- No task makes another one wait. -/
theorem timers_runTask (h : w.Enlisted) (task : Task) :
    (w.runTask task).timers.timers.Sublist w.timers.timers := by
  cases task with
  | fold p => exact (calm_fold w p).timers
  | settle change =>
      unfold runTask
      dsimp only
      split
      · exact (evolves_settle h).frame.timers
      · exact .refl _
  | reread id => exact (evolves_rereadManifest h id).frame.timers

theorem timers_runDue (h : Steady False n w) (limit count : Nat) :
    (runDue limit count w).timers.timers.Sublist w.timers.timers := by
  induction count generalizing w with
  | zero => exact .refl _
  | succ count ih =>
      unfold runDue
      split
      · exact .refl _
      · rename_i timers timer hpop
        have htimers : Steady False n { w with timers } := h.of_eq rfl rfl rfl rfl rfl rfl rfl
        have hrest := ih (steady_runTask htimers timer.task)
        have htask := timers_runTask htimers.enlisted timer.task
        rw [TimerQueue.timers_of_popDue hpop]
        exact (hrest.trans htask).trans (List.sublist_cons_self timer timers.timers)

/-- If a task is due one less waits. -/
theorem length_timers_runDue_lt (h : Steady False n w) {limit : Nat} {timer : Timer Topic Task}
    {rest : List (Timer Topic Task)} (htimers : w.timers.timers = timer :: rest)
    (hdue : timer.deadline ≤ limit) (count : Nat) :
    (runDue limit (count + 1) w).timers.timers.length < w.timers.timers.length := by
  have hpop : w.timers.popDue limit =
      ({ w.timers with now := max w.timers.now timer.deadline, timers := rest }, some timer) := by
    unfold TimerQueue.popDue
    rw [htimers]
    exact if_neg (Nat.not_lt_of_le hdue)
  generalize ({ w.timers with now := max w.timers.now timer.deadline, timers := rest } :
    TimerQueue Topic Task) = timers at hpop
  have hpopped : Steady False n { w with timers } := h.of_eq rfl rfl rfl rfl rfl rfl rfl
  have hrest := (timers_runDue (steady_runTask hpopped timer.task) limit count).trans
    (timers_runTask hpopped.enlisted timer.task)
  unfold runDue
  rw [hpop, TimerQueue.timers_of_popDue hpop]
  exact Nat.lt_succ_of_le hrest.length_le

theorem length_timers_advance_lt (h : Steady False n w) {duration : Nat}
    (hnext : w.nextTaskIn? = some duration) :
    (w.advance duration).timers.timers.length < w.timers.timers.length := by
  unfold nextTaskIn? TimerQueue.nextDeadline? at hnext
  cases htimers : w.timers.timers with
  | nil => simp [htimers] at hnext
  | cons timer rest =>
      have hduration : timer.deadline - w.timers.now = duration := by simpa [htimers] using hnext
      have hdue : timer.deadline ≤ w.timers.now + duration := by omega
      have hlt := length_timers_runDue_lt h htimers hdue rest.length
      have hsize : w.timers.size = rest.length + 1 := congrArg List.length htimers
      rw [htimers] at hlt
      unfold advance
      rw [hsize]
      exact hlt

/-- Nothing waits once all work was done. -/
theorem timers_flush (h : Steady False n w) : w.flush.timers.timers = [] := by
  have hall (count : Nat) (w : Workspace) (h : Steady False n w)
      (hcount : w.timers.timers.length ≤ count) : (flushWithin count w).timers.timers = [] := by
    -- there is a round for every timer, and each round takes one away
    induction count generalizing w with
    | zero => exact List.eq_nil_of_length_eq_zero (Nat.le_zero.mp hcount)
    | succ count ih =>
        unfold flushWithin
        split
        · rename_i hnone
          unfold nextTaskIn? TimerQueue.nextDeadline? at hnone
          simpa using hnone
        · rename_i duration hnext
          have hlt := length_timers_advance_lt h hnext
          exact ih _ (steady_advance h duration) (by omega)
  exact hall _ w h (Nat.le_refl _)

theorem flush_eq_self (h : w.timers.timers = []) : w.flush = w := by
  have hsize : w.timers.size = 0 := congrArg List.length h
  unfold flush
  rw [hsize]
  rfl

end Workspace

end ProjectTracker
