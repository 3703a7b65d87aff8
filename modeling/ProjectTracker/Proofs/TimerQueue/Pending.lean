import ProjectTracker.Proofs.TimerQueue.Order
import Mathlib.Data.List.Perm.Basic
import Mathlib.Logic.Function.Basic
/-!
A queue of timers stands for a map from keys to timers, whatever it is asked for. Each timer leaves it once: it
fires, or it is cancelled, or another one of the same key takes its place.
-/

namespace ProjectTracker.TimerQueue

variable {κ τ : Type}

/-- What a queue can be asked for. -/
inductive Request (κ τ : Type) where
  | schedule (key : κ) (delay : Nat) (task : τ)
  | cancel (key : κ)
  | popDue (limit : Nat)
  | setNow (now : Nat)
  | advance (duration : Nat)

/-- What comes back: whether there was a timer to cancel, or the timers that came due. -/
inductive Answer (κ τ : Type) where
  | done
  | cancelled (waited : Bool)
  | fired (timers : List (Timer κ τ))

namespace Answer

def timers : Answer κ τ → List (Timer κ τ)
  | .fired timers => timers
  | _ => []

end Answer

/-- What a queue stands for: the clock, the number of timers that were ever scheduled, and the timer that waits
under each key. -/
structure Pending (κ τ : Type) where
  now : Nat
  nextOrder : Nat
  timer? : κ → Option (Timer κ τ)

section

variable [DecidableEq κ]

/-- What a request does to a map of timers, and what comes back. -/
inductive Pending.Step : Pending κ τ → Request κ τ → Pending κ τ → Answer κ τ → Prop where
  | schedule (m : Pending κ τ) (key : κ) (delay : Nat) (task : τ) :
      Step m (.schedule key delay task)
        { m with
          nextOrder := m.nextOrder + 1
          timer? := Function.update m.timer? key (some ⟨m.now + delay, m.nextOrder, key, task⟩) }
        .done
  | cancel (m : Pending κ τ) (key : κ) :
      Step m (.cancel key) { m with timer? := Function.update m.timer? key none }
        (.cancelled (m.timer? key).isSome)
  | due {m : Pending κ τ} {limit : Nat} {t : Timer κ τ} (hwaits : m.timer? t.key = some t)
      (hfirst : ∀ u, m.timer? u.key = some u → u = t ∨ t.Before u) (hdue : t.deadline ≤ limit) :
      Step m (.popDue limit)
        { m with now := max m.now t.deadline, timer? := Function.update m.timer? t.key none }
        (.fired [t])
  | early {m : Pending κ τ} {limit : Nat} (hearly : ∀ u, m.timer? u.key = some u → limit < u.deadline) :
      Step m (.popDue limit) m (.fired [])
  | setNow (m : Pending κ τ) (now : Nat) :
      Step m (.setNow now) { m with now := max m.now now } .done
  | advance {m : Pending κ τ} {duration : Nat} {fired : List (Timer κ τ)}
      (hsorted : fired.Pairwise Timer.Before)
      (hfired : ∀ t, t ∈ fired ↔ m.timer? t.key = some t ∧ t.deadline ≤ m.now + duration) :
      Step m (.advance duration)
        { m with
          now := m.now + duration
          timer? := fun key => (m.timer? key).filter (m.now + duration < ·.deadline) }
        (.fired fired)

/-- Does what is asked for. -/
def perform (q : TimerQueue κ τ) : Request κ τ → TimerQueue κ τ × Answer κ τ
  | .schedule key delay task => (q.schedule key delay task, .done)
  | .cancel key => (q.cancel key, .cancelled (q.isScheduled key))
  | .popDue limit =>
    let (q, timer?) := q.popDue limit
    (q, .fired timer?.toList)
  | .setNow now => (q.setNow now, .done)
  | .advance duration =>
    let (q, timers) := q.advance duration
    (q, .fired timers)

def run (q : TimerQueue κ τ) (requests : List (Request κ τ)) : TimerQueue κ τ :=
  requests.foldl (fun q request => (q.perform request).1) q

/-- The timer that waits under a key. -/
def find? (q : TimerQueue κ τ) (key : κ) : Option (Timer κ τ) :=
  q.timers.find? (·.key = key)

def pending (q : TimerQueue κ τ) : Pending κ τ :=
  ⟨q.now, q.nextOrder, q.find?⟩

end

/-! ### In and out by the clock -/

section

variable {timers : List (Timer κ τ)}

/-- Where the timers wait in their order, those that are due by a time are all in front. -/
theorem takeWhile_eq_filter (h : timers.Pairwise Timer.Before) (limit : Nat) :
    timers.takeWhile (·.deadline ≤ limit) = timers.filter (·.deadline ≤ limit) := by
  induction timers with
  | nil => rfl
  | cons first rest ih =>
      rw [List.pairwise_cons] at h
      by_cases hdue : first.deadline ≤ limit
      · rw [List.takeWhile_cons_of_pos (by simpa using hdue),
          List.filter_cons_of_pos (by simpa using hdue), ih h.2]
      · have hrest : rest.filter (·.deadline ≤ limit) = [] := by
          refine List.filter_eq_nil_iff.mpr fun t ht => ?_
          have := (h.1 t ht).le
          simp only [decide_eq_true_eq]
          omega
        rw [List.takeWhile_cons_of_neg (by simpa using hdue),
          List.filter_cons_of_neg (by simpa using hdue), hrest]

theorem dropWhile_eq_filter (h : timers.Pairwise Timer.Before) (limit : Nat) :
    timers.dropWhile (·.deadline ≤ limit) = timers.filter (limit < ·.deadline) := by
  induction timers with
  | nil => rfl
  | cons first rest ih =>
      rw [List.pairwise_cons] at h
      by_cases hdue : first.deadline ≤ limit
      · rw [List.dropWhile_cons_of_pos (by simpa using hdue),
          List.filter_cons_of_neg (by simpa using hdue), ih h.2]
      · have hrest : rest.filter (limit < ·.deadline) = rest := by
          refine List.filter_eq_self.mpr fun t ht => ?_
          have := (h.1 t ht).le
          simp only [decide_eq_true_eq]
          omega
        rw [List.dropWhile_cons_of_neg (by simpa using hdue),
          List.filter_cons_of_pos (by simpa using hdue), hrest]

theorem dropWhile_dropWhile_of_le (timers : List (Timer κ τ)) {limit limit' : Nat} (h : limit ≤ limit') :
    (timers.dropWhile (·.deadline ≤ limit)).dropWhile (·.deadline ≤ limit') =
      timers.dropWhile (·.deadline ≤ limit') := by
  induction timers with
  | nil => rfl
  | cons first rest ih =>
      by_cases hdue : first.deadline ≤ limit
      · rw [List.dropWhile_cons_of_pos (by simpa using hdue), ih,
          List.dropWhile_cons_of_pos (by simpa using Nat.le_trans hdue h)]
      · rw [List.dropWhile_cons_of_neg (by simpa using hdue)]

theorem takeWhile_append_of_le (timers : List (Timer κ τ)) {limit limit' : Nat} (h : limit ≤ limit') :
    timers.takeWhile (·.deadline ≤ limit) ++
        (timers.dropWhile (·.deadline ≤ limit)).takeWhile (·.deadline ≤ limit') =
      timers.takeWhile (·.deadline ≤ limit') := by
  induction timers with
  | nil => rfl
  | cons first rest ih =>
      by_cases hdue : first.deadline ≤ limit
      · rw [List.takeWhile_cons_of_pos (by simpa using hdue),
          List.dropWhile_cons_of_pos (by simpa using hdue), List.cons_append, ih,
          List.takeWhile_cons_of_pos (by simpa using Nat.le_trans hdue h)]
      · rw [List.takeWhile_cons_of_neg (by simpa using hdue),
          List.dropWhile_cons_of_neg (by simpa using hdue), List.nil_append]

/-- To let time pass in two parts is to let it pass at once. -/
theorem advance_parts (q : TimerQueue κ τ) (a b : Nat) :
    (((q.advance a).1.advance b).1, (q.advance a).2 ++ ((q.advance a).1.advance b).2) =
      q.advance (a + b) := by
  have hlimit : q.now + a ≤ q.now + (a + b) := by omega
  simp only [advance, Nat.add_assoc, dropWhile_dropWhile_of_le _ hlimit, takeWhile_append_of_le _ hlimit]

end

/-! ### The map -/

theorem isScheduled_eq [DecidableEq κ] (q : TimerQueue κ τ) (key : κ) :
    q.isScheduled key = (q.find? key).isSome := by
  rw [isScheduled, find?, Bool.eq_iff_iff, List.any_eq_true, List.find?_isSome]

namespace Orderly

variable [DecidableEq κ] {q q' : TimerQueue κ τ} {key : κ} {t : Timer κ τ} {timers : List (Timer κ τ)}

theorem find?_eq_some_iff (h : q.Orderly) : q.find? key = some t ↔ t ∈ q.timers ∧ t.key = key := by
  constructor
  · intro hfind
    exact ⟨List.mem_of_find?_eq_some hfind, by simpa using List.find?_some hfind⟩
  · rintro ⟨ht, rfl⟩
    cases hfind : q.find? t.key with
    | none => simpa using List.find?_eq_none.mp hfind t ht
    | some u =>
        have hu : u.key = t.key := by simpa using List.find?_some hfind
        rw [h.eq_of_key (List.mem_of_find?_eq_some hfind) ht hu]

theorem mem_iff (h : q.Orderly) : t ∈ q.timers ↔ q.find? t.key = some t := by
  rw [h.find?_eq_some_iff]
  exact (and_iff_left rfl).symm

/-- What some timers are kept of a map. -/
theorem find?_filter (h : q.Orderly) (h' : q'.Orderly) {keeps : Timer κ τ → Bool}
    (htimers : q'.timers = q.timers.filter keeps) (key : κ) :
    q'.find? key = (q.find? key).filter keeps := by
  refine Option.ext fun t => ?_
  rw [h'.find?_eq_some_iff, htimers, List.mem_filter, Option.filter_eq_some_iff,
    h.find?_eq_some_iff]
  tauto

theorem find?_cancel (h : q.Orderly) (key : κ) :
    (q.cancel key).find? = Function.update q.find? key none := by
  funext key'
  refine Option.ext fun t => ?_
  rw [(h.cancel key).find?_eq_some_iff]
  have hmem : t ∈ (q.cancel key).timers ↔ t ∈ q.timers ∧ t.key ≠ key := by
    simp [TimerQueue.cancel]
  by_cases hkey : key' = key
  · subst hkey
    simp [hmem]
  · rw [Function.update_of_ne hkey, h.find?_eq_some_iff, hmem]
    constructor
    · rintro ⟨⟨ht, -⟩, htkey⟩
      exact ⟨ht, htkey⟩
    · rintro ⟨ht, rfl⟩
      exact ⟨⟨ht, hkey⟩, rfl⟩

theorem find?_schedule (h : q.Orderly) (key : κ) (delay : Nat) (task : τ) :
    (q.schedule key delay task).find? =
      Function.update q.find? key (some ⟨q.now + delay, q.nextOrder, key, task⟩) := by
  funext key'
  refine Option.ext fun t => ?_
  have hmem : t ∈ (q.schedule key delay task).timers ↔
      t = ⟨q.now + delay, q.nextOrder, key, task⟩ ∨ t ∈ (q.cancel key).timers :=
    mem_insertTimer
  have hrest : t ∈ (q.cancel key).timers ∧ t.key = key' ↔
      Function.update q.find? key none key' = some t := by
    rw [← h.find?_cancel, (h.cancel key).find?_eq_some_iff]
  rw [(h.schedule key delay task).find?_eq_some_iff, hmem]
  by_cases hkey : key' = key
  · subst hkey
    rw [Function.update_self] at hrest ⊢
    simp only [reduceCtorEq, iff_false] at hrest
    rw [Option.some.injEq]
    constructor
    · rintro ⟨rfl | ht, htkey⟩
      · rfl
      · exact absurd ⟨ht, htkey⟩ hrest
    · rintro rfl
      exact ⟨.inl rfl, rfl⟩
  · rw [Function.update_of_ne hkey] at hrest ⊢
    rw [← hrest]
    constructor
    · rintro ⟨rfl | ht, htkey⟩
      · exact absurd htkey.symm hkey
      · exact ⟨ht, htkey⟩
    · rintro ⟨ht, htkey⟩
      exact ⟨.inr ht, htkey⟩

/-- To cancel the first timer is to take it. -/
theorem cancel_head (h : q.Orderly) (htimers : q.timers = t :: timers) :
    (q.cancel t.key).timers = timers := by
  have hkeys := h.keys
  rw [htimers, List.map_cons, List.nodup_cons] at hkeys
  rw [TimerQueue.cancel, htimers, List.filter_cons_of_neg (by simp), List.filter_eq_self]
  intro u hu
  have hne : u.key ≠ t.key := fun heq => hkeys.1 (heq ▸ List.mem_map_of_mem hu)
  simpa using hne

theorem find?_tail (h : q.Orderly) (htimers : q.timers = t :: q'.timers) :
    q'.find? = Function.update q.find? t.key none := by
  rw [← h.find?_cancel]
  funext key'
  rw [find?, find?, h.cancel_head htimers]

theorem step_popDue (h : q.Orderly) (limit : Nat) :
    Pending.Step q.pending (.popDue limit) (q.popDue limit).1.pending
      (.fired (q.popDue limit).2.toList) := by
  rcases due_cases q limit with ⟨timer, rest, htimers, hdue⟩ | hearly
  · rw [popDue_of_due htimers hdue]
    have hmap : ({ q with now := max q.now timer.deadline, timers := rest } : TimerQueue κ τ).find? =
        Function.update q.find? timer.key none :=
      h.find?_tail htimers
    rw [pending, pending, hmap]
    have hsorted := h.sorted
    rw [htimers, List.pairwise_cons] at hsorted
    refine .due (h.mem_iff.mp (by simp [htimers])) (fun u hu => ?_) hdue
    have hu := h.mem_iff.mpr hu
    rw [htimers, List.mem_cons] at hu
    exact hu.imp_right (hsorted.1 u)
  · rw [popDue_of_early hearly]
    refine .early fun u hu => ?_
    have hu := h.mem_iff.mpr hu
    have hsorted := h.sorted
    cases htimers : q.timers with
    | nil => simp [htimers] at hu
    | cons first rest =>
        rw [htimers, List.pairwise_cons] at hsorted
        rw [htimers, List.mem_cons] at hu
        have hfirst : limit < first.deadline := hearly first (by rw [htimers]; rfl)
        rcases hu with rfl | hu
        · exact hfirst
        · exact Nat.lt_of_lt_of_le hfirst (hsorted.1 u hu).le

theorem step_advance (h : q.Orderly) (duration : Nat) :
    Pending.Step q.pending (.advance duration) (q.advance duration).1.pending
      (.fired (q.advance duration).2) := by
  have hrest : (q.advance duration).1.timers = q.timers.filter (q.now + duration < ·.deadline) :=
    dropWhile_eq_filter h.sorted _
  have hmap : (q.advance duration).1.pending =
      { q.pending with
        now := q.now + duration
        timer? := fun key => (q.find? key).filter (q.now + duration < ·.deadline) } := by
    rw [pending, funext (h.find?_filter (h.advance duration) hrest)]
    rfl
  have hfired : (q.advance duration).2 = q.timers.filter (·.deadline ≤ q.now + duration) :=
    takeWhile_eq_filter h.sorted _
  rw [hmap, hfired]
  refine .advance (h.sorted.sublist List.filter_sublist) fun t => ?_
  rw [List.mem_filter, h.mem_iff, decide_eq_true_eq]
  exact .rfl

/-- What a queue does is what happens to the map that it stands for. -/
theorem step_pending (h : q.Orderly) (request : Request κ τ) :
    Pending.Step q.pending request (q.perform request).1.pending (q.perform request).2 := by
  cases request with
  | schedule key delay task =>
      have hmap : (q.schedule key delay task).pending =
          { q.pending with
            nextOrder := q.nextOrder + 1
            timer? := Function.update q.find? key (some ⟨q.now + delay, q.nextOrder, key, task⟩) } := by
        rw [pending, h.find?_schedule]
        rfl
      rw [perform, hmap]
      exact .schedule q.pending key delay task
  | cancel key =>
      have hmap : (q.cancel key).pending =
          { q.pending with timer? := Function.update q.find? key none } := by
        rw [pending, h.find?_cancel]
        rfl
      rw [perform, hmap, isScheduled_eq]
      exact .cancel q.pending key
  | popDue limit => exact h.step_popDue limit
  | setNow now => exact .setNow q.pending now
  | advance duration => exact h.step_advance duration

theorem perform (h : q.Orderly) (request : Request κ τ) : (q.perform request).1.Orderly := by
  cases request with
  | schedule key delay task => exact h.schedule key delay task
  | cancel key => exact h.cancel key
  | popDue limit => exact h.popDue limit
  | setNow now => exact h.setNow now
  | advance duration => exact h.advance duration

theorem run (h : q.Orderly) (requests : List (Request κ τ)) : (q.run requests).Orderly := by
  induction requests generalizing q with
  | nil => exact h
  | cons request requests ih => exact ih (h.perform request)

end Orderly

/-! ### The way out -/

variable [DecidableEq κ] {q q' : TimerQueue κ τ} {t : Timer κ τ}

/-- The timer that a request makes wait. -/
def arriving (q : TimerQueue κ τ) : Request κ τ → List (Timer κ τ)
  | .schedule key delay task => [⟨q.now + delay, q.nextOrder, key, task⟩]
  | _ => []

/-- The timers that are gone after a request. -/
def departing (q : TimerQueue κ τ) (request : Request κ τ) : List (Timer κ τ) :=
  q.timers.filter fun t => t.order ∉ (q.perform request).1.timers.map (·.order)

/-- The timers that were gone at some time, in the order in which they went. -/
def departed (q : TimerQueue κ τ) : List (Request κ τ) → List (Timer κ τ)
  | [] => []
  | request :: requests => q.departing request ++ (q.perform request).1.departed requests

/-- Fired, cancelled, or replaced by another timer of the same key. -/
def Takes (q : TimerQueue κ τ) (request : Request κ τ) (t : Timer κ τ) : Prop :=
  t ∈ (q.perform request).2.timers ∨ request = .cancel t.key ∨
    ∃ delay task, request = .schedule t.key delay task

omit [DecidableEq κ] in
theorem orders_arriving (q : TimerQueue κ τ) (request : Request κ τ) :
    (q.arriving request).map (·.order) = List.range' q.nextOrder (q.arriving request).length := by
  cases request <;> rfl

omit [DecidableEq κ] in
/-- What is left when the first timers have fired. -/
theorem filter_of_fired (h : q.Orderly) {fired rest : List (Timer κ τ)}
    (htimers : q.timers = fired ++ rest) :
    (q.timers.filter fun t => t.order ∉ fired.map (·.order)) = rest ∧
      ∀ t ∈ q.timers, t.order ∈ fired.map (·.order) ↔ t ∈ fired := by
  have horders := h.orders
  rw [htimers, List.map_append, List.nodup_append] at horders
  refine ⟨?_, fun t ht => ⟨fun hmem => ?_, List.mem_map_of_mem⟩⟩
  · rw [htimers, List.filter_append, List.filter_eq_nil_iff.mpr, List.filter_eq_self.mpr,
      List.nil_append]
    · intro t ht
      have hrest := List.mem_map_of_mem (f := (·.order)) ht
      simpa using fun u hu heq => horders.2.2 _ (List.mem_map_of_mem hu) _ hrest heq
    · intro t ht
      simpa using ⟨t, ht, rfl⟩
  · obtain ⟨u, hu, horder⟩ := List.mem_map.mp hmem
    exact h.eq_of_order (htimers ▸ List.mem_append_left rest hu) ht horder ▸ hu

/-- After a request there wait those that waited before and that it does not take, and the one that it makes
wait. -/
theorem perform_parts (h : q.Orderly) (request : Request κ τ) :
    (q.perform request).1.nextOrder = q.nextOrder + (q.arriving request).length ∧
      ∃ keeps : Timer κ τ → Bool,
        (q.perform request).1.timers.Perm (q.arriving request ++ q.timers.filter keeps) ∧
          ∀ t ∈ q.timers, keeps t = false ↔ q.Takes request t := by
  have hfired {fired rest : List (Timer κ τ)} (htimers : q.timers = fired ++ rest) :
      ∃ keeps : Timer κ τ → Bool, rest.Perm ([] ++ q.timers.filter keeps) ∧
        ∀ t ∈ q.timers, keeps t = false ↔ t ∈ fired := by
    obtain ⟨hrest, hmem⟩ := filter_of_fired h htimers
    refine ⟨fun t => t.order ∉ fired.map (·.order), by rw [List.nil_append, hrest], fun t ht => ?_⟩
    rw [decide_eq_false_iff_not, not_not, hmem t ht]
  cases request with
  | schedule key delay task =>
      refine ⟨rfl, fun t => ¬t.key = key, insertTimer_perm _ _, fun t _ => ?_⟩
      simp [Takes, TimerQueue.perform, Answer.timers, @eq_comm _ key]
  | cancel key =>
      refine ⟨rfl, fun t => ¬t.key = key, .refl _, fun t _ => ?_⟩
      simp [Takes, TimerQueue.perform, Answer.timers, @eq_comm _ key]
  | setNow now =>
      refine ⟨rfl, fun _ => true, ?_, fun t _ => ?_⟩
      · rw [List.filter_true]
        exact .refl _
      · simp [Takes, TimerQueue.perform, Answer.timers]
  | popDue limit =>
      have hparts : q.timers = (q.popDue limit).2.toList ++ (q.popDue limit).1.timers ∧
          (q.popDue limit).1.nextOrder = q.nextOrder := by
        rcases due_cases q limit with ⟨timer, rest, htimers, hdue⟩ | hearly
        · rw [popDue_of_due htimers hdue]
          exact ⟨htimers, rfl⟩
        · rw [popDue_of_early hearly]
          exact ⟨rfl, rfl⟩
      obtain ⟨keeps, hperm, hkeeps⟩ := hfired hparts.1
      refine ⟨hparts.2, keeps, hperm, fun t ht => (hkeeps t ht).trans ?_⟩
      simp [Takes, TimerQueue.perform, Answer.timers]
  | advance duration =>
      have hparts : q.timers = (q.advance duration).2 ++ (q.advance duration).1.timers :=
        List.takeWhile_append_dropWhile.symm
      obtain ⟨keeps, hperm, hkeeps⟩ := hfired hparts
      refine ⟨rfl, keeps, hperm, fun t ht => (hkeeps t ht).trans ?_⟩
      simp [Takes, TimerQueue.perform, Answer.timers]

theorem departing_eq (h : q.Orderly) {request : Request κ τ} {keeps : Timer κ τ → Bool}
    (hperm : (q.perform request).1.timers.Perm (q.arriving request ++ q.timers.filter keeps)) :
    q.departing request = q.timers.filter fun t => !keeps t := by
  refine List.filter_congr fun t ht => ?_
  cases hkeeps : keeps t with
  | true =>
      have hstays : t ∈ (q.perform request).1.timers :=
        hperm.mem_iff.mpr (List.mem_append_right _ (List.mem_filter.mpr ⟨ht, hkeeps⟩))
      simpa using ⟨t, hstays, rfl⟩
  | false =>
      have hgone : t.order ∉ (q.perform request).1.timers.map (·.order) := by
        intro hmem
        rw [(hperm.map _).mem_iff, List.map_append, List.mem_append, orders_arriving,
          List.mem_range'_1] at hmem
        rcases hmem with hnew | hold
        · exact absurd (h.fresh t ht) (Nat.not_lt_of_le hnew.1)
        · obtain ⟨u, hu, horder⟩ := List.mem_map.mp hold
          obtain ⟨hu, hkept⟩ := List.mem_filter.mp hu
          simp [h.eq_of_order hu ht horder, hkeeps] at hkept
      simpa using hgone

/-- A request takes what is gone after it. -/
theorem mem_departing_iff (h : q.Orderly) (request : Request κ τ) :
    t ∈ q.departing request ↔ t ∈ q.timers ∧ q.Takes request t := by
  obtain ⟨-, keeps, hperm, hkeeps⟩ := perform_parts h request
  rw [departing_eq h hperm, List.mem_filter, Bool.not_eq_true']
  exact and_congr_right (hkeeps t)

/-- Every timer that was ever scheduled waits, or is gone, and none twice. -/
theorem accounts_perform (h : q.Orderly) (request : Request κ τ) {gone : List (Timer κ τ)}
    (hgone : ((q.timers ++ gone).map (·.order)).Perm (List.range q.nextOrder)) :
    (((q.perform request).1.timers ++ (gone ++ q.departing request)).map (·.order)).Perm
      (List.range (q.perform request).1.nextOrder) := by
  classical
  obtain ⟨hcount, keeps, hperm, -⟩ := perform_parts h request
  have hsplit := List.filter_append_perm keeps q.timers
  have hmoved : ((q.perform request).1.timers ++ (gone ++ q.departing request)).Perm
      (q.timers ++ gone ++ q.arriving request) := by
    rw [departing_eq h hperm]
    refine List.perm_iff_count.mpr fun t => ?_
    have hnext := hperm.count_eq t
    have hold := hsplit.count_eq t
    simp only [List.count_append] at hnext hold ⊢
    omega
  refine (hmoved.map _).trans ?_
  rw [List.map_append, orders_arriving, hcount]
  have hrange : List.range (q.nextOrder + (q.arriving request).length) =
      List.range q.nextOrder ++ List.range' q.nextOrder (q.arriving request).length := by
    rw [List.range_eq_range', List.range_eq_range', ← List.range'_append_1, Nat.zero_add]
  rw [hrange]
  exact hgone.append_right _

theorem accounts_run (h : q.Orderly) (requests : List (Request κ τ)) (gone : List (Timer κ τ))
    (hgone : ((q.timers ++ gone).map (·.order)).Perm (List.range q.nextOrder)) :
    (((q.run requests).timers ++ (gone ++ q.departed requests)).map (·.order)).Perm
      (List.range (q.run requests).nextOrder) := by
  induction requests generalizing q gone with
  | nil => simpa [run, departed] using hgone
  | cons request requests ih =>
      have := ih (h.perform request) _ (accounts_perform h request hgone)
      rwa [List.append_assoc] at this

theorem now_perform (q : TimerQueue κ τ) (request : Request κ τ) :
    q.now ≤ (q.perform request).1.now := by
  cases request with
  | schedule key delay task => exact Nat.le_refl _
  | cancel key => exact Nat.le_refl _
  | popDue limit =>
      rcases due_cases q limit with ⟨timer, rest, htimers, hdue⟩ | hearly
      · rw [perform, popDue_of_due htimers hdue]
        exact Nat.le_max_left _ _
      · have hsame : (q.perform (.popDue limit)).1 = q := by rw [perform, popDue_of_early hearly]
        exact Nat.le_of_eq (congrArg TimerQueue.now hsame.symm)
  | setNow now => exact Nat.le_max_left _ _
  | advance duration => exact Nat.le_add_right _ _

end ProjectTracker.TimerQueue
