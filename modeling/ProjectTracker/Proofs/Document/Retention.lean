import Mathlib.Data.List.DropRight
import ProjectTracker.Proofs.Document.Versions

/-!
Which versions a history keeps. They are numbered without a gap up to the current one, and there are as many as the
limits allow, or as many as came up since the text was loaded. How the number of the current version grows can be told
from the edits that wait and the limits alone, and neither it nor the oldest number that is kept ever gets smaller.
-/

namespace ProjectTracker.History

variable {h h' : History} {c : Change} {loaded : Nat}

/-! ### What one operation does -/

/-- A new version is kept together with as many of the former ones as there is room for. -/
theorem length_snapshots_fold (hlimits : 1 ≤ h.limits.versions) (hpending : h.pending ≠ []) :
    h.fold.snapshots.length = min h.limits.versions (h.snapshots.length + 1) := by
  rw [fold, if_neg hpending]
  dsimp only [snapshots]
  rw [List.length_cons, List.length_take]
  omega

theorem pending_enqueue_ne_nil (h : History) (c : Change) : (h.enqueue c).pending ≠ [] :=
  List.append_ne_nil_of_right_ne_nil _ (List.cons_ne_nil c [])

theorem length_pending_enqueue (h : History) (c : Change) :
    (h.enqueue c).pending.length = h.pending.length + 1 :=
  List.length_append

/-- An edit makes a version if it is one too many to wait, or too large. -/
theorem version_edit (hedit : h.edit c = .ok h') :
    h'.version = h.version +
      if h.limits.changeCount < h.pending.length + 1 ∨ h.limits.changeLength < c.deleted ∨
        h.limits.changeLength < c.inserted.length then 1 else 0 := by
  have hwaits : ((h.enqueue c).isOverfull || (h.enqueue c).isLarge c) = true ↔
      h.limits.changeCount < h.pending.length + 1 ∨ h.limits.changeLength < c.deleted ∨
        h.limits.changeLength < c.inserted.length := by
    rw [Bool.or_eq_true, isOverfull, isLarge, Bool.or_eq_true, decide_eq_true_iff, decide_eq_true_iff,
      decide_eq_true_iff, length_pending_enqueue]
    rfl
  rw [edit_cases hedit]
  by_cases hmade : ((h.enqueue c).isOverfull || (h.enqueue c).isLarge c) = true
  · rw [if_pos hmade, if_pos (hwaits.mp hmade), version_fold, if_neg (pending_enqueue_ne_nil h c)]
    rfl
  · rw [if_neg hmade, if_neg (mt hwaits.mpr hmade)]
    rfl

theorem limits_edit (hedit : h.edit c = .ok h') : h'.limits = h.limits := by
  rw [edit_cases hedit]
  split
  · exact limits_fold _
  · rfl

/-- Edits that are still waiting after an edit are not too many. -/
theorem length_pending_edit_le (hedit : h.edit c = .ok h') : h'.pending.length ≤ h.limits.changeCount := by
  rw [edit_cases hedit]
  split
  · rw [pending_fold]
    exact Nat.zero_le _
  · rename_i hwaits
    rw [Bool.or_eq_true, not_or, isOverfull, decide_eq_true_iff, Nat.not_lt] at hwaits
    exact hwaits.1

/-! ### Which versions are kept -/

/-- The numbers of versions that follow one another, from the oldest on. -/
theorem versions_eq_range' {newest : Snapshot} {rest : List Snapshot}
    (h : (newest :: rest).IsChain Snapshot.Follows) :
    (newest :: rest).reverse.map Snapshot.version =
        List.range' (rest.getLast?.getD newest).version (rest.length + 1) ∧
      (rest.getLast?.getD newest).version + rest.length = newest.version := by
  induction rest generalizing newest with
  | nil => exact ⟨rfl, rfl⟩
  | cons next rest ih =>
      rw [List.isChain_cons_cons] at h
      obtain ⟨hversions, hnewest⟩ := ih h.2
      have hnext := h.1.version
      have hlast : newest.version = (rest.getLast?.getD next).version + 1 * (rest.length + 1) := by omega
      rw [getD_getLast?_cons, List.length_cons]
      refine ⟨?_, by omega⟩
      rw [List.reverse_cons, List.map_append, hversions, List.map_singleton, hlast]
      exact List.range'_concat.symm

theorem Coherent.versions_eq (hh : h.Coherent) :
    h.snapshots.reverse.map Snapshot.version = List.range' h.minVersion h.snapshots.length :=
  (versions_eq_range' hh.follows).1

theorem Coherent.minVersion_add_length (hh : h.Coherent) :
    h.minVersion + h.snapshots.length = h.version + 1 := by
  have holdest := (versions_eq_range' hh.follows).2
  rw [minVersion, snapshots, List.length_cons, version]
  omega

/-- The versions since the text was loaded with version `loaded`, or the newest of them if there are more than the
limits allow. -/
structure Keeps (h : History) (loaded : Nat) : Prop where
  coherent : h.Coherent
  one_le : 1 ≤ h.limits.versions
  loaded_le : loaded ≤ h.version
  length_eq : h.snapshots.length = min h.limits.versions (h.version + 1 - loaded)

theorem keeps_ofText (text : Text) (limits : HistoryLimits) (capacity : Nat) :
    (ofText text limits capacity).Keeps 0 where
  coherent := coherent_ofText ..
  one_le := Nat.le_max_right ..
  loaded_le := Nat.zero_le _
  length_eq := (Nat.min_eq_right (Nat.le_max_right ..)).symm

theorem Keeps.reload (hk : h.Keeps loaded) (text : Text) : (h.reload text).Keeps (h.version + 1) where
  coherent := .reload text
  one_le := hk.one_le
  loaded_le := Nat.le_refl _
  length_eq := by
    show 1 = min h.limits.versions (h.version + 1 + 1 - (h.version + 1))
    have := hk.one_le
    omega

theorem Keeps.fold (hk : h.Keeps loaded) : h.fold.Keeps loaded := by
  by_cases hpending : h.pending = []
  · rw [fold_of_pending_eq_nil hpending]
    exact hk
  · have hversion := h.version_fold
    have hlength := length_snapshots_fold hk.one_le hpending
    have hloaded := hk.loaded_le
    rw [if_neg hpending] at hversion
    rw [hk.length_eq] at hlength
    refine ⟨hk.coherent.fold, by rw [limits_fold]; exact hk.one_le, by omega, ?_⟩
    rw [hlength, limits_fold, hversion]
    omega

theorem Keeps.edit (hk : h.Keeps loaded) (hedit : h.edit c = .ok h') : h'.Keeps loaded := by
  have hqueued : (h.enqueue c).Keeps loaded :=
    ⟨⟨hk.coherent.follows, hk.coherent.balanced⟩, hk.one_le, hk.loaded_le, hk.length_eq⟩
  rw [edit_cases hedit]
  split
  · exact hqueued.fold
  · exact hqueued

/-- The oldest version: the one that was loaded, unless there is no room for all since then. -/
theorem Keeps.minVersion_eq (hk : h.Keeps loaded) :
    h.minVersion = max loaded (h.version + 1 - h.limits.versions) := by
  have hlength := hk.length_eq
  have hloaded := hk.loaded_le
  have hcount := hk.coherent.minVersion_add_length
  omega

/-! ### Runs -/

/-- Whether an operation loads a text. -/
def Operation.loads : Operation → Bool
  | .reload _ => true
  | _ => false

/-- The version with which the text was loaded that a history has after some operations: the one that the last
loading operation made, or the one at the start. -/
def loadedVersion (h : History) (ops : List Operation) : Nat :=
  (h.run (ops.rdropWhile fun op => !op.loads)).version

theorem limits_perform (h : History) (op : Operation) : (h.perform op).limits = h.limits :=
  perform_keeps (p := fun after => after.limits = h.limits) rfl (fun _ _ hedit => limits_edit hedit)
    h.limits_fold (fun _ => rfl) op

theorem limits_run (h : History) (ops : List Operation) : (h.run ops).limits = h.limits := by
  induction ops generalizing h with
  | nil => rfl
  | cons op ops ih => exact (ih _).trans (limits_perform h op)

theorem length_pending_perform_le (hpending : h.pending.length ≤ h.limits.changeCount) (op : Operation) :
    (h.perform op).pending.length ≤ h.limits.changeCount := by
  have hnone : ([] : List Change).length ≤ h.limits.changeCount := Nat.zero_le _
  refine perform_keeps (p := fun after => after.pending.length ≤ h.limits.changeCount) hpending
    (fun _ _ hedit => length_pending_edit_le hedit) ?_ (fun _ => hnone) op
  rw [pending_fold]
  exact hnone

theorem length_pending_run_le (hpending : h.pending.length ≤ h.limits.changeCount) (ops : List Operation) :
    (h.run ops).pending.length ≤ h.limits.changeCount := by
  induction ops generalizing h with
  | nil => exact hpending
  | cons op ops ih =>
      have hnext := length_pending_perform_le hpending op
      rw [← limits_perform h op] at hnext ⊢
      exact ih hnext

theorem version_le_perform (h : History) (op : Operation) : h.version ≤ (h.perform op).version := by
  rcases perform_cases h op with hsame | ⟨hversion, -⟩
  · rw [version, version, (List.cons_eq_cons.mp hsame).1]
  · omega

theorem Keeps.perform (hk : h.Keeps loaded) (op : Operation) :
    (h.perform op).Keeps (if op.loads then (h.perform op).version else loaded) := by
  cases op with
  | edit c =>
      rw [History.perform]
      cases hedit : h.edit c with
      | error failure => exact hk
      | ok h' => exact hk.edit hedit
  | fold => exact hk.fold
  | reload text => exact hk.reload text

theorem Keeps.run (hk : h.Keeps h.version) (ops : List Operation) :
    (h.run ops).Keeps (h.loadedVersion ops) := by
  induction ops using List.reverseRecOn with
  | nil => exact hk
  | append_singleton ops op ih =>
      have hlast := ih.perform op
      have hrun : h.run (ops ++ [op]) = (h.run ops).perform op := run_append h ops [op]
      rw [loadedVersion, List.rdropWhile_concat, hrun]
      cases hop : op.loads with
      | false =>
          rw [hop] at hlast
          exact hlast
      | true =>
          rw [hop] at hlast
          rw [Bool.not_true, if_neg Bool.false_ne_true, hrun]
          exact hlast

/-- Nothing that is done makes an older version answerable again. -/
theorem Keeps.minVersion_le_perform (hk : h.Keeps loaded) (op : Operation) :
    h.minVersion ≤ (h.perform op).minVersion := by
  have hversion := version_le_perform h op
  have hloaded := hk.loaded_le
  rw [hk.minVersion_eq, (hk.perform op).minVersion_eq, limits_perform]
  split <;> omega

/-- How the versions of a history are numbered after any operations. It keeps those since the text was loaded, but no
more than the limits allow and at least one; asking for the current version makes one of the edits that wait, loading a
text always makes one and forgets all others, and an edit makes one exactly if it may not wait. -/
theorem versions_run (text : Text) (limits : HistoryLimits) (capacity : Nat) (ops : List Operation) :
    let start := ofText text limits capacity
    let h := start.run ops
    let first := max (start.loadedVersion ops) (h.version + 1 - max 1 limits.versions)
    h.snapshots.reverse.map Snapshot.version = List.range' first (h.version + 1 - first) ∧
    first ≤ h.version ∧ h.minVersion = first ∧
    (∀ op, h.version ≤ (h.perform op).version ∧ h.minVersion ≤ (h.perform op).minVersion) ∧
    (h.pending ≠ [] → h.fold.version = h.version + 1 ∧ h.fold.pending = []) ∧
    (h.pending = [] → h.fold = h) ∧
    (∀ loaded, (h.reload loaded).version = h.version + 1 ∧ (h.reload loaded).minVersion = h.version + 1 ∧
      (h.reload loaded).snapshots = [firstSnapshot (h.version + 1) loaded h.capacity] ∧
      (h.reload loaded).pending = []) ∧
    (∀ c h', h.edit c = .ok h' →
      h'.version = h.version +
        if limits.changeCount < h.pending.length + 1 ∨ limits.changeLength < c.deleted ∨
          limits.changeLength < c.inserted.length then 1 else 0) ∧
    ∀ c, (h.perform (.edit c)).pending.length ≤ limits.changeCount := by
  intro start h first
  have hk : h.Keeps (start.loadedVersion ops) := (keeps_ofText text limits capacity).run ops
  have hlimits : h.limits = { limits with versions := max limits.versions 1 } := limits_run start ops
  have hpending : h.pending.length ≤ limits.changeCount :=
    length_pending_run_le (h := start) (Nat.zero_le _) ops
  have hfirst : h.minVersion = first := by
    rw [hk.minVersion_eq, hlimits, Nat.max_comm limits.versions]
  have hcount := hk.coherent.minVersion_add_length
  refine ⟨?_, ?_, hfirst, fun op => ⟨version_le_perform h op, hk.minVersion_le_perform op⟩, fun hwaiting => ?_,
    fold_of_pending_eq_nil, fun loaded => ⟨rfl, rfl, rfl, rfl⟩, fun c h' hedit => ?_, fun c => ?_⟩
  · rw [hk.coherent.versions_eq, hfirst]
    congr 1
    omega
  · have : 1 ≤ h.snapshots.length := Nat.succ_pos _
    omega
  · rw [version_fold, if_neg hwaiting]
    exact ⟨rfl, pending_fold h⟩
  · rw [version_edit hedit, hlimits]
  · have hmade := length_pending_perform_le (h := h) (by rw [hlimits]; exact hpending) (.edit c)
    rwa [hlimits] at hmade

end ProjectTracker.History
