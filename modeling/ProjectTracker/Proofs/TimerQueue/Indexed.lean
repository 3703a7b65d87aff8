import ProjectTracker.Proofs.TimerQueue.Pending
import ProjectTracker.Table
/-!
A queue of timers with two tables: the timers by where they wait, and where the timer of each key waits. The tables
stay in step, and the queue gives the answers of one that keeps a single list.
-/

namespace ProjectTracker

variable {κ τ : Type}

/-- Where a timer waits: by deadline, and then by the order of scheduling. -/
structure Slot where
  deadline : Nat
  order : Nat
deriving DecidableEq

instance : LT Slot :=
  ⟨fun a b => a.deadline < b.deadline ∨ a.deadline = b.deadline ∧ a.order < b.order⟩

instance : DecidableLT Slot :=
  fun a b => inferInstanceAs (Decidable (a.deadline < b.deadline ∨ a.deadline = b.deadline ∧ a.order < b.order))

def Timer.slot (t : Timer κ τ) : Slot :=
  ⟨t.deadline, t.order⟩

/-- The timer that waits in a slot. -/
def Slot.timer (slot : Slot) (entry : κ × τ) : Timer κ τ :=
  ⟨slot.deadline, slot.order, entry.1, entry.2⟩

structure IndexedQueue (κ τ : Type) where
  now : Nat := 0
  nextOrder : Nat := 0
  entries : Table Slot (κ × τ) := ∅
  slot? : κ → Option Slot := fun _ => none

namespace IndexedQueue

open TimerQueue (Request Answer Pending Orderly)

variable [DecidableEq κ]

/-- Takes the timer of a key out of both tables, and tells whether there was one. -/
def cancel (i : IndexedQueue κ τ) (key : κ) : IndexedQueue κ τ × Bool :=
  match i.slot? key with
  | some slot =>
    ({ i with entries := i.entries.erase slot, slot? := Function.update i.slot? key none }, true)
  | none => (i, false)

def schedule (i : IndexedQueue κ τ) (key : κ) (delay : Nat) (task : τ) : IndexedQueue κ τ :=
  let i := (i.cancel key).1
  let slot : Slot := ⟨i.now + delay, i.nextOrder⟩
  { i with
    nextOrder := i.nextOrder + 1
    slot? := Function.update i.slot? key (some slot)
    entries := i.entries.insert slot (key, task) }

/-- Takes the first entry if it is due by `limit`, and moves the clock to its deadline. -/
def popDue (i : IndexedQueue κ τ) (limit : Nat) : IndexedQueue κ τ × Option (Timer κ τ) :=
  match i.entries.entries with
  | [] => (i, none)
  | (slot, entry) :: _ =>
    if limit < slot.deadline then (i, none)
    else
      ({ i with
          now := max i.now slot.deadline
          entries := i.entries.erase slot
          slot? := Function.update i.slot? entry.1 none },
        some (slot.timer entry))

def setNow (i : IndexedQueue κ τ) (now : Nat) : IndexedQueue κ τ :=
  { i with now := max i.now now }

/-- Takes timers as long as one is due by `limit`. No more than `count` are. -/
def popAllDue (limit : Nat) : Nat → IndexedQueue κ τ → IndexedQueue κ τ × List (Timer κ τ)
  | 0, i => (i, [])
  | count + 1, i =>
    match i.popDue limit with
    | (i, none) => (i, [])
    | (i, some timer) =>
      let (i, timers) := popAllDue limit count i
      (i, timer :: timers)

def advance (i : IndexedQueue κ τ) (duration : Nat) : IndexedQueue κ τ × List (Timer κ τ) :=
  let limit := i.now + duration
  let (i, timers) := i.popAllDue limit i.entries.size
  (i.setNow limit, timers)

def perform (i : IndexedQueue κ τ) : Request κ τ → IndexedQueue κ τ × Answer κ τ
  | .schedule key delay task => (i.schedule key delay task, .done)
  | .cancel key =>
    let (i, waited) := i.cancel key
    (i, .cancelled waited)
  | .popDue limit =>
    let (i, timer?) := i.popDue limit
    (i, .fired timer?.toList)
  | .setNow now => (i.setNow now, .done)
  | .advance duration =>
    let (i, timers) := i.advance duration
    (i, .fired timers)

def run (i : IndexedQueue κ τ) (requests : List (Request κ τ)) : IndexedQueue κ τ :=
  requests.foldl (fun i request => (i.perform request).1) i

/-- The map that the tables stand for. -/
def pending (i : IndexedQueue κ τ) : Pending κ τ :=
  ⟨i.now, i.nextOrder, fun key =>
    (i.slot? key).bind fun slot => (i.entries.get? slot).map slot.timer⟩

/-- Each of the tables is made of the timers of a queue. -/
structure Backs (i : IndexedQueue κ τ) (q : TimerQueue κ τ) : Prop where
  now : i.now = q.now
  nextOrder : i.nextOrder = q.nextOrder
  entries : i.entries.entries = q.timers.map fun t => (t.slot, t.key, t.task)
  slot? : i.slot? = Option.map Timer.slot ∘ q.find?

variable {i i' : IndexedQueue κ τ} {q q' : TimerQueue κ τ}

theorem backs_empty : Backs ({} : IndexedQueue κ τ) {} :=
  ⟨rfl, rfl, rfl, rfl⟩

/-- A queue has one pair of tables. -/
theorem Backs.unique (h : i.Backs q) (h' : i'.Backs q) : i = i' := by
  obtain ⟨now, nextOrder, ⟨entries⟩, slot?⟩ := i
  obtain ⟨now', nextOrder', ⟨entries'⟩, slot?'⟩ := i'
  obtain ⟨rfl, rfl, rfl, rfl⟩ := h
  obtain ⟨rfl, rfl, rfl, rfl⟩ := h'
  rfl

/-- What is erased from the table of entries by its slot is one timer. -/
theorem Backs.erase_slot (h : i.Backs q) (hq : q.Orderly) {t : Timer κ τ} (ht : t ∈ q.timers) :
    (i.entries.erase t.slot).entries =
      (q.cancel t.key).timers.map fun t => (t.slot, t.key, t.task) := by
  have hsame (u : Timer κ τ) (hu : u ∈ q.timers) : u.slot = t.slot ↔ u.key = t.key := by
    constructor
    · intro heq
      rw [hq.eq_of_order hu ht (Slot.mk.inj heq).2]
    · intro heq
      rw [hq.eq_of_key hu ht heq]
  have hkept : (q.timers.filter fun u => ¬u.slot = t.slot) = (q.cancel t.key).timers :=
    List.filter_congr fun u hu => by simpa using hsame u hu
  rw [Table.erase, h.entries, List.filter_map, ← hkept]
  rfl

theorem Backs.slot?_update (h : i.Backs q) (key : κ) (timer? : Option (Timer κ τ)) :
    Function.update i.slot? key (timer?.map Timer.slot) =
      Option.map Timer.slot ∘ Function.update q.find? key timer? := by
  rw [h.slot?, Function.comp_update]

theorem cancel_of_some {key : κ} {slot : Slot} (h : i.slot? key = some slot) :
    i.cancel key =
      ({ i with entries := i.entries.erase slot, slot? := Function.update i.slot? key none }, true) := by
  rw [cancel, h]

theorem cancel_of_none {key : κ} (h : i.slot? key = none) : i.cancel key = (i, false) := by
  rw [cancel, h]

theorem Backs.cancel (h : i.Backs q) (hq : q.Orderly) (key : κ) :
    (i.cancel key).1.Backs (q.cancel key) ∧ (i.cancel key).2 = q.isScheduled key := by
  have hslot : i.slot? key = (q.find? key).map Timer.slot := congrFun h.slot? key
  rw [TimerQueue.isScheduled_eq]
  cases hfind : q.find? key with
  | none =>
      have hkeys := List.find?_eq_none.mp hfind
      have hkept : q.timers.filter (¬ ·.key = key) = q.timers :=
        List.filter_eq_self.mpr fun t ht => by simpa using hkeys t ht
      rw [hfind] at hslot
      rw [cancel_of_none hslot, TimerQueue.cancel, hkept]
      exact ⟨h, rfl⟩
  | some t =>
      obtain ⟨ht, rfl⟩ := hq.find?_eq_some_iff.mp hfind
      rw [hfind] at hslot
      rw [cancel_of_some hslot]
      refine ⟨⟨h.now, h.nextOrder, h.erase_slot hq ht, ?_⟩, rfl⟩
      rw [hq.find?_cancel]
      exact h.slot?_update t.key none

omit [DecidableEq κ] in
/-- A timer that is scheduled last has its place in the table where it has it in the queue. -/
theorem insertEntry_eq {timer : Timer κ τ} {timers : List (Timer κ τ)}
    (horder : ∀ t ∈ timers, t.order < timer.order) :
    Table.insertEntry timer.slot (timer.key, timer.task)
        (timers.map fun t => (t.slot, t.key, t.task)) =
      (TimerQueue.insertTimer timer timers).map fun t => (t.slot, t.key, t.task) := by
  induction timers with
  | nil => rfl
  | cons first rest ih =>
      have hfirst := horder first (by simp)
      have hne : first.slot ≠ timer.slot := by
        intro heq
        have := (Slot.mk.inj heq).2
        omega
      have hlt : timer.slot < first.slot ↔ timer.deadline < first.deadline := by
        show timer.deadline < first.deadline ∨
          timer.deadline = first.deadline ∧ timer.order < first.order ↔ _
        omega
      rw [List.map_cons, Table.insertEntry, TimerQueue.insertTimer, if_neg hne]
      by_cases hdue : timer.deadline < first.deadline
      · rw [if_pos (hlt.mpr hdue), if_pos hdue]
        rfl
      · rw [if_neg (mt hlt.mp hdue), if_neg hdue, ih fun t ht => horder t (by simp [ht])]
        rfl

theorem Backs.schedule (h : i.Backs q) (hq : q.Orderly) (key : κ) (delay : Nat) (task : τ) :
    (i.schedule key delay task).Backs (q.schedule key delay task) := by
  obtain ⟨hrest, -⟩ := h.cancel hq key
  have hnew : (⟨(i.cancel key).1.now + delay, (i.cancel key).1.nextOrder⟩ : Slot) =
      (⟨q.now + delay, q.nextOrder, key, task⟩ : Timer κ τ).slot := by
    rw [hrest.now, hrest.nextOrder]
    rfl
  rw [IndexedQueue.schedule, hnew]
  refine ⟨hrest.now, congrArg (· + 1) hrest.nextOrder, ?_, ?_⟩
  · rw [Table.insert, hrest.entries]
    exact insertEntry_eq (hq.cancel key).fresh
  · have hmap := hrest.slot?_update key (some ⟨q.now + delay, q.nextOrder, key, task⟩)
    rw [hq.find?_cancel, Function.update_idem] at hmap
    rw [hq.find?_schedule]
    exact hmap

theorem popDue_of_due {slot : Slot} {entry : κ × τ} {rest : List (Slot × κ × τ)} {limit : Nat}
    (h : i.entries.entries = (slot, entry) :: rest) (hdue : slot.deadline ≤ limit) :
    i.popDue limit =
      ({ i with
          now := max i.now slot.deadline
          entries := i.entries.erase slot
          slot? := Function.update i.slot? entry.1 none },
        some (slot.timer entry)) := by
  rw [popDue, h]
  exact if_neg (Nat.not_lt_of_le hdue)

theorem popDue_of_early {limit : Nat}
    (h : ∀ entry ∈ i.entries.entries.head?, limit < entry.1.deadline) :
    i.popDue limit = (i, none) := by
  rw [popDue]
  split
  · rfl
  · rename_i slot entry rest hentries
    exact if_pos (h (slot, entry) (by rw [hentries]; rfl))

theorem Backs.popDue (h : i.Backs q) (hq : q.Orderly) (limit : Nat) :
    (i.popDue limit).1.Backs (q.popDue limit).1 ∧ (i.popDue limit).2 = (q.popDue limit).2 := by
  have hentries := h.entries
  rcases TimerQueue.due_cases q limit with ⟨timer, rest, htimers, hdue⟩ | hearly
  · rw [htimers, List.map_cons] at hentries
    rw [TimerQueue.popDue_of_due htimers hdue, popDue_of_due hentries hdue]
    refine ⟨⟨congrArg (max · timer.deadline) h.now, h.nextOrder, ?_, ?_⟩, rfl⟩
    · have hkept := h.erase_slot hq (t := timer) (by simp [htimers])
      rwa [hq.cancel_head htimers] at hkept
    · have hmap : TimerQueue.find?
          { q with now := max q.now timer.deadline, timers := rest } =
          Function.update q.find? timer.key none :=
        hq.find?_tail htimers
      rw [hmap]
      exact h.slot?_update timer.key none
  · have hfirst : ∀ entry ∈ i.entries.entries.head?, limit < entry.1.deadline := by
      rw [hentries, List.head?_map]
      intro entry hentry
      obtain ⟨timer, htimer, rfl⟩ := Option.map_eq_some_iff.mp hentry
      exact hearly timer htimer
    rw [TimerQueue.popDue_of_early hearly, popDue_of_early hfirst]
    exact ⟨h, rfl⟩

omit [DecidableEq κ] in
theorem takeWhile_of_early {timers : List (Timer κ τ)} {limit : Nat}
    (h : ∀ timer ∈ timers.head?, limit < timer.deadline) :
    timers.takeWhile (·.deadline ≤ limit) = [] ∧ timers.dropWhile (·.deadline ≤ limit) = timers := by
  cases timers with
  | nil => exact ⟨rfl, rfl⟩
  | cons first rest =>
      have hfirst : ¬first.deadline ≤ limit := Nat.not_le_of_lt (h first rfl)
      exact ⟨List.takeWhile_cons_of_neg (by simpa using hfirst),
        List.dropWhile_cons_of_neg (by simpa using hfirst)⟩

/-- Taking one timer after the other takes those in front that are due. -/
theorem Backs.popAllDue (h : i.Backs q) (hq : q.Orderly) {limit count : Nat} (hnow : q.now ≤ limit)
    (hcount : q.timers.length ≤ count) :
    (∃ now ≤ limit, (i.popAllDue limit count).1.Backs
        { q with now, timers := q.timers.dropWhile (·.deadline ≤ limit) }) ∧
      (i.popAllDue limit count).2 = q.timers.takeWhile (·.deadline ≤ limit) := by
  induction count generalizing i q with
  | zero =>
      have hnone := List.eq_nil_of_length_eq_zero (Nat.le_zero.mp hcount)
      rw [hnone]
      exact ⟨⟨q.now, hnow, by rw [List.dropWhile_nil, ← hnone]; exact h⟩, rfl⟩
  | succ count ih =>
      obtain ⟨hpopped, hanswer⟩ := h.popDue hq limit
      rw [IndexedQueue.popAllDue]
      generalize i.popDue limit = popped at hpopped hanswer
      obtain ⟨i', timer?⟩ := popped
      rcases TimerQueue.due_cases q limit with ⟨timer, rest, htimers, hdue⟩ | hearly
      · have hq' := hq.popDue limit
        rw [TimerQueue.popDue_of_due htimers hdue] at hpopped hanswer hq'
        have hrest : rest.length ≤ count := by simpa [htimers] using hcount
        obtain ⟨⟨now, hle, hbacks⟩, hfired⟩ := ih hpopped hq' (Nat.max_le.mpr ⟨hnow, hdue⟩) hrest
        cases hanswer
        rw [htimers, List.dropWhile_cons_of_pos (by simpa using hdue),
          List.takeWhile_cons_of_pos (by simpa using hdue)]
        exact ⟨⟨now, hle, hbacks⟩, congrArg (timer :: ·) hfired⟩
      · rw [TimerQueue.popDue_of_early hearly] at hpopped hanswer
        cases hanswer
        obtain ⟨hnone, hall⟩ := takeWhile_of_early hearly
        rw [hnone, hall]
        exact ⟨⟨q.now, hnow, hpopped⟩, rfl⟩

theorem Backs.advance (h : i.Backs q) (hq : q.Orderly) (duration : Nat) :
    (i.advance duration).1.Backs (q.advance duration).1 ∧
      (i.advance duration).2 = (q.advance duration).2 := by
  have hcount : i.entries.size = q.timers.length := by
    rw [Table.size, h.entries, List.length_map]
  obtain ⟨⟨now, hle, hbacks⟩, hfired⟩ :=
    h.popAllDue hq (Nat.le_add_right q.now duration) (Nat.le_of_eq hcount.symm)
  rw [IndexedQueue.advance, h.now]
  refine ⟨⟨?_, hbacks.nextOrder, hbacks.entries, hbacks.slot?⟩, hfired⟩
  have hnow := hbacks.now
  exact (congrArg (max · (q.now + duration)) hnow).trans (Nat.max_eq_right hle)

theorem Backs.perform (h : i.Backs q) (hq : q.Orderly) (request : Request κ τ) :
    (i.perform request).1.Backs (q.perform request).1 ∧
      (i.perform request).2 = (q.perform request).2 := by
  cases request with
  | schedule key delay task => exact ⟨h.schedule hq key delay task, rfl⟩
  | cancel key =>
      obtain ⟨hcancelled, hanswer⟩ := h.cancel hq key
      exact ⟨hcancelled, congrArg Answer.cancelled hanswer⟩
  | popDue limit =>
      obtain ⟨hpopped, hanswer⟩ := h.popDue hq limit
      refine ⟨hpopped, ?_⟩
      show Answer.fired (i.popDue limit).2.toList = Answer.fired (q.popDue limit).2.toList
      rw [hanswer]
  | setNow now => exact ⟨⟨congrArg (max · now) h.now, h.nextOrder, h.entries, h.slot?⟩, rfl⟩
  | advance duration =>
      obtain ⟨hadvanced, hanswer⟩ := h.advance hq duration
      exact ⟨hadvanced, congrArg Answer.fired hanswer⟩

theorem Backs.run (h : i.Backs q) (hq : q.Orderly) (requests : List (Request κ τ)) :
    (i.run requests).Backs (q.run requests) := by
  induction requests generalizing i q with
  | nil => exact h
  | cons request requests ih => exact ih (h.perform hq request).1 (hq.perform request)

theorem Backs.exists_of_get? (h : i.Backs q) {slot : Slot} {entry : κ × τ}
    (hget : i.entries.get? slot = some entry) :
    ∃ t ∈ q.timers, t.slot = slot ∧ (t.key, t.task) = entry := by
  have hmem := Table.mem_entries_of_get? hget
  rw [h.entries, List.mem_map] at hmem
  obtain ⟨t, ht, heq⟩ := hmem
  exact ⟨t, ht, (Prod.mk.inj heq).1, (Prod.mk.inj heq).2⟩

theorem Backs.get?_slot (h : i.Backs q) (hq : q.Orderly) {t : Timer κ τ} (ht : t ∈ q.timers) :
    i.entries.get? t.slot = some (t.key, t.task) := by
  have hsome : (i.entries.get? t.slot).isSome := by
    rw [← Table.mem_keys_iff, Table.keys, h.entries, List.map_map]
    exact List.mem_map_of_mem ht
  obtain ⟨entry, hget⟩ := Option.isSome_iff_exists.mp hsome
  obtain ⟨u, hu, hslot, hentry⟩ := h.exists_of_get? hget
  rw [hget, ← hentry, hq.eq_of_order hu ht (Slot.mk.inj hslot).2]

/-- What stands in one table stands in the other one. -/
theorem Backs.slot?_eq_some_iff (h : i.Backs q) (hq : q.Orderly) {key : κ} {slot : Slot} :
    i.slot? key = some slot ↔ ∃ task, i.entries.get? slot = some (key, task) := by
  rw [h.slot?, Function.comp_apply, Option.map_eq_some_iff]
  constructor
  · rintro ⟨t, hfind, rfl⟩
    obtain ⟨ht, rfl⟩ := hq.find?_eq_some_iff.mp hfind
    exact ⟨t.task, h.get?_slot hq ht⟩
  · rintro ⟨task, hget⟩
    obtain ⟨t, ht, hslot, hentry⟩ := h.exists_of_get? hget
    exact ⟨t, hq.find?_eq_some_iff.mpr ⟨ht, (Prod.mk.inj hentry).1⟩, hslot⟩

theorem Backs.pending (h : i.Backs q) (hq : q.Orderly) : i.pending = q.pending := by
  rw [IndexedQueue.pending, TimerQueue.pending, h.now, h.nextOrder]
  congr 1
  funext key
  rw [h.slot?, Function.comp_apply]
  cases hfind : q.find? key with
  | none => rfl
  | some t =>
      obtain ⟨ht, rfl⟩ := hq.find?_eq_some_iff.mp hfind
      rw [Option.map_some, Option.bind_some, h.get?_slot hq ht]
      rfl

/-- Whatever a queue with two tables is asked for, it gives the answers of one with a single list, and does
to the map from keys to timers what is to be done to it. The tables are in step. A timer leaves once, because
it fires, is cancelled or is replaced. The clock never goes back, and it makes no difference how the time that
passes is cut. -/
theorem refines_run (requests : List (Request κ τ)) :
    let i : IndexedQueue κ τ := run {} requests
    let q : TimerQueue κ τ := TimerQueue.run {} requests
    i.Backs q ∧
      (∀ key slot, i.slot? key = some slot ↔ ∃ task, i.entries.get? slot = some (key, task)) ∧
      (∀ request,
        (i.perform request).1.Backs (q.perform request).1 ∧
          (i.perform request).2 = (q.perform request).2 ∧
          Pending.Step i.pending request (i.perform request).1.pending (i.perform request).2 ∧
          i.now ≤ (i.perform request).1.now ∧
          ∀ t, t ∈ q.departing request ↔ t ∈ q.timers ∧ q.Takes request t) ∧
      ((q.timers ++ TimerQueue.departed {} requests).map (·.order)).Perm (List.range q.nextOrder) ∧
      ∀ a b, (((i.advance a).1.advance b).1, (i.advance a).2 ++ ((i.advance a).1.advance b).2) =
        i.advance (a + b) := by
  intro i q
  have hq : q.Orderly := Orderly.empty.run requests
  have hi : i.Backs q := backs_empty.run .empty requests
  refine ⟨hi, fun _ _ => hi.slot?_eq_some_iff hq, fun request => ?_, ?_, fun a b => ?_⟩
  · obtain ⟨hnext, hanswer⟩ := hi.perform hq request
    refine ⟨hnext, hanswer, ?_, ?_, fun t => TimerQueue.mem_departing_iff hq request⟩
    · rw [hi.pending hq, hnext.pending (hq.perform request), hanswer]
      exact hq.step_pending request
    · rw [hi.now, hnext.now]
      exact TimerQueue.now_perform q request
  · exact TimerQueue.accounts_run .empty requests [] (by simp)
  · obtain ⟨hfirst, hfired⟩ := hi.advance hq a
    obtain ⟨hsecond, hfired'⟩ := hfirst.advance (hq.advance a) b
    obtain ⟨hboth, hfired''⟩ := hi.advance hq (a + b)
    have hparts := Prod.mk.inj (TimerQueue.advance_parts q a b)
    refine Prod.ext ?_ ?_
    · exact (hparts.1 ▸ hsecond).unique hboth
    · rw [hfired, hfired', hfired'']
      exact hparts.2

end IndexedQueue

end ProjectTracker
