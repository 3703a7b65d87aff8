import Mathlib.Data.List.Nodup
import ProjectTracker.TimerQueue
/-!
The order in which timers wait: by deadline, and those of one deadline by the order of scheduling. No two timers
have the same key.
-/

namespace ProjectTracker

variable {κ τ : Type}

/-- The first of two timers is due earlier, or was scheduled earlier for the same time. -/
def Timer.Before (t u : Timer κ τ) : Prop :=
  t.deadline < u.deadline ∨ t.deadline = u.deadline ∧ t.order < u.order

theorem Timer.Before.le {t u : Timer κ τ} (h : t.Before u) : t.deadline ≤ u.deadline := by
  unfold Before at h
  omega

namespace TimerQueue

variable {q q' : TimerQueue κ τ} {timer t u : Timer κ τ} {timers rest : List (Timer κ τ)} {limit : Nat}

theorem insertTimer_perm (timer : Timer κ τ) (timers : List (Timer κ τ)) :
    (insertTimer timer timers).Perm (timer :: timers) := by
  induction timers with
  | nil => exact .refl _
  | cons first rest ih =>
      unfold insertTimer
      split
      · exact .refl _
      · exact (ih.cons first).trans (.swap timer first rest)

theorem mem_insertTimer {new : Timer κ τ} :
    timer ∈ insertTimer new timers ↔ timer = new ∨ timer ∈ timers :=
  (insertTimer_perm new timers).mem_iff.trans List.mem_cons

theorem popDue_of_due (h : q.timers = timer :: rest) (hdue : timer.deadline ≤ limit) :
    q.popDue limit = ({ q with now := max q.now timer.deadline, timers := rest }, some timer) := by
  rw [popDue, h]
  exact if_neg (Nat.not_lt_of_le hdue)

theorem popDue_of_early (h : ∀ timer ∈ q.timers.head?, limit < timer.deadline) :
    q.popDue limit = (q, none) := by
  rw [popDue]
  split
  · rfl
  · rename_i timer rest htimers
    exact if_pos (h timer (by rw [htimers]; rfl))

/-- The first timer is due, or none is. -/
theorem due_cases (q : TimerQueue κ τ) (limit : Nat) :
    (∃ timer rest, q.timers = timer :: rest ∧ timer.deadline ≤ limit) ∨
      ∀ timer ∈ q.timers.head?, limit < timer.deadline := by
  cases htimers : q.timers with
  | nil => exact .inr (by simp)
  | cons timer rest =>
      by_cases hdue : timer.deadline ≤ limit
      · exact .inl ⟨timer, rest, rfl, hdue⟩
      · exact .inr (by simpa using hdue)

theorem timers_of_popDue (h : q.popDue limit = (q', some timer)) :
    q.timers = timer :: q'.timers := by
  rcases due_cases q limit with ⟨first, rest, htimers, hdue⟩ | hearly
  · rw [popDue_of_due htimers hdue] at h
    obtain ⟨rfl, htimer⟩ := Prod.mk.inj h
    rw [htimers, Option.some.inj htimer]
  · simp [popDue_of_early hearly] at h

/-- The timers wait in their order, each key has one at most, and so has each place in the order of scheduling.
Those to come are behind all of them. -/
structure Orderly (q : TimerQueue κ τ) : Prop where
  sorted : q.timers.Pairwise Timer.Before
  keys : (q.timers.map (·.key)).Nodup
  orders : (q.timers.map (·.order)).Nodup
  fresh : ∀ timer ∈ q.timers, timer.order < q.nextOrder

/-- A timer that is scheduled last goes behind all that are due with it. -/
theorem pairwise_insertTimer (h : timers.Pairwise Timer.Before)
    (horder : ∀ t ∈ timers, t.order < timer.order) :
    (insertTimer timer timers).Pairwise Timer.Before := by
  induction timers with
  | nil => simp [insertTimer]
  | cons first rest ih =>
      rw [List.pairwise_cons] at h
      unfold insertTimer
      split
      · rename_i hfirst
        refine List.pairwise_cons.mpr ⟨fun t ht => .inl ?_, List.pairwise_cons.mpr h⟩
        rcases List.mem_cons.mp ht with rfl | ht
        · exact hfirst
        · exact Nat.lt_of_lt_of_le hfirst (h.1 t ht).le
      · rename_i hfirst
        refine List.pairwise_cons.mpr ⟨fun t ht => ?_, ih h.2 fun t ht => horder t (by simp [ht])⟩
        rcases mem_insertTimer.mp ht with rfl | ht
        · have := horder first (by simp)
          unfold Timer.Before
          omega
        · exact h.1 t ht

namespace Orderly

theorem empty : Orderly ({} : TimerQueue κ τ) :=
  ⟨.nil, .nil, .nil, by simp⟩

theorem eq_of_key (h : q.Orderly) (ht : t ∈ q.timers) (hu : u ∈ q.timers) (hkey : t.key = u.key) :
    t = u :=
  List.inj_on_of_nodup_map h.keys ht hu hkey

theorem eq_of_order (h : q.Orderly) (ht : t ∈ q.timers) (hu : u ∈ q.timers)
    (horder : t.order = u.order) : t = u :=
  List.inj_on_of_nodup_map h.orders ht hu horder

/-- Fewer timers, at a later time. -/
theorem sublist (h : q.Orderly) (htimers : timers.Sublist q.timers) (now : Nat) :
    Orderly { q with now, timers } :=
  ⟨h.sorted.sublist htimers, h.keys.sublist (htimers.map _), h.orders.sublist (htimers.map _),
    fun t ht => h.fresh t (htimers.subset ht)⟩

theorem setNow (h : q.Orderly) (now : Nat) : (q.setNow now).Orderly :=
  h.sublist (.refl _) _

theorem popDue (h : q.Orderly) (limit : Nat) : (q.popDue limit).1.Orderly := by
  rcases due_cases q limit with ⟨timer, rest, htimers, hdue⟩ | hearly
  · rw [popDue_of_due htimers hdue]
    exact h.sublist (htimers ▸ List.sublist_cons_self timer rest) _
  · rw [popDue_of_early hearly]
    exact h

theorem advance (h : q.Orderly) (duration : Nat) : (q.advance duration).1.Orderly :=
  h.sublist (List.dropWhile_sublist _) _

variable [DecidableEq κ]

theorem cancel (h : q.Orderly) (key : κ) : (q.cancel key).Orderly :=
  h.sublist List.filter_sublist _

theorem schedule (h : q.Orderly) (key : κ) (delay : Nat) (task : τ) :
    (q.schedule key delay task).Orderly := by
  have hrest := h.cancel key
  refine ⟨?_, ?_, ?_, fun t ht => ?_⟩
  · exact pairwise_insertTimer hrest.sorted hrest.fresh
  · rw [TimerQueue.schedule, ((insertTimer_perm _ _).map _).nodup_iff, List.map_cons, List.nodup_cons]
    refine ⟨?_, hrest.keys⟩
    simp [TimerQueue.cancel]
  · rw [TimerQueue.schedule, ((insertTimer_perm _ _).map _).nodup_iff, List.map_cons, List.nodup_cons]
    refine ⟨fun hmem => ?_, hrest.orders⟩
    obtain ⟨t, ht, horder⟩ := List.mem_map.mp hmem
    exact absurd (hrest.fresh t ht) (horder ▸ Nat.lt_irrefl _)
  · rcases mem_insertTimer.mp ht with rfl | ht
    · exact Nat.lt_succ_self _
    · exact Nat.lt_succ_of_lt (hrest.fresh t ht)

end Orderly

end TimerQueue

end ProjectTracker
