import Mathlib.Data.List.Chain
import ProjectTracker.Proofs.LineTree.Editing

/-!
The versions of a text. Those that a history keeps are numbered without a gap,
and each comes from the one before it by the changes that it records. What is
answered about two kept versions therefore leads from the text of the older to
the text of the newer one, however the edits were gathered into versions.
-/

namespace ProjectTracker

/-- What one version has to do with the version before it. -/
structure Snapshot.Follows (newer older : Snapshot) : Prop where
  version : newer.version = older.version + 1
  changes_ne_nil : newer.changes ≠ []
  text : newer.tree.text = Change.applyAll newer.changes older.tree.text

namespace History

/-! ### Runs -/

/-- What is done to a history. -/
inductive Operation where
  | edit (c : Change)
  /-- asking for the current version -/
  | fold
  | reload (text : Text)
  deriving DecidableEq, Repr

/-- The history after an operation. An edit that is refused changes nothing. -/
def perform (h : History) : Operation → History
  | .edit c => (h.edit c).toOption.getD h
  | .fold => h.fold
  | .reload text => h.reload text

def run (h : History) (ops : List Operation) : History :=
  ops.foldl perform h

/-- That a version came up in a run of operations, and with which text. -/
def Shows (h : History) (ops : List Operation) (version : Nat) (text : Text) : Prop :=
  ∃ done, done <+: ops ∧ (h.run done).version = version ∧ (h.run done).latest.tree.text = text

/-- The kept versions follow one another, the newest first, and their trees can
be edited. -/
structure Coherent (h : History) : Prop where
  follows : h.snapshots.IsChain Snapshot.Follows
  balanced : h.latest.tree.Balanced

theorem coherent_ofText (text : Text) (limits : HistoryLimits) (capacity : Nat) :
    (ofText text limits capacity).Coherent :=
  ⟨.singleton _, LineTree.balanced_ofText ..⟩

theorem Coherent.reload {h : History} (text : Text) : (h.reload text).Coherent :=
  ⟨.singleton _, LineTree.balanced_ofText ..⟩

theorem Coherent.fold {h : History} (hh : h.Coherent) : h.fold.Coherent := by
  rw [History.fold]
  split
  · exact hh
  · rename_i hpending
    refine ⟨?_, hh.balanced.editAll _⟩
    refine (hh.follows.take _).cons fun older holder => ?_
    have hlatest : older = h.latest := by
      cases hcount : h.limits.versions - 1 with
      | zero => simp [hcount] at holder
      | succ count => simpa [hcount, snapshots] using holder.symm
    subst hlatest
    exact ⟨rfl, hpending, hh.balanced.text_editAll h.pending⟩

/-- The history in which an edit waits, before it is decided whether it may. -/
def enqueue (h : History) (c : Change) : History :=
  { h with
    pending := h.pending ++ [c]
    length := h.length - c.deleted + c.inserted.length }

/-- An edit that is accepted waits, or becomes a version with those that wait. -/
theorem edit_cases {h h' : History} {c : Change} (hedit : h.edit c = .ok h') :
    h' = if (h.enqueue c).isOverfull || (h.enqueue c).isLarge c then (h.enqueue c).fold
      else h.enqueue c := by
  rw [edit] at hedit
  split at hedit
  · cases hedit
  · exact (Except.ok.inj hedit).symm

theorem Coherent.edit {h h' : History} (hh : h.Coherent) {c : Change} (hedit : h.edit c = .ok h') :
    h'.Coherent := by
  have hqueued : (h.enqueue c).Coherent := ⟨hh.follows, hh.balanced⟩
  rw [edit_cases hedit]
  split
  · exact hqueued.fold
  · exact hqueued

/-- What edits that are accepted, folding and loading all leave true is true after any operation. -/
theorem perform_keeps {p : History → Prop} {h : History} (hh : p h)
    (hedit : ∀ c h', h.edit c = .ok h' → p h') (hfold : p h.fold) (hreload : ∀ text, p (h.reload text))
    (op : Operation) : p (h.perform op) := by
  cases op with
  | edit c =>
      rw [perform]
      cases hmade : h.edit c with
      | error failure => exact hh
      | ok h' => exact hedit c h' hmade
  | fold => exact hfold
  | reload text => exact hreload text

theorem Coherent.perform {h : History} (hh : h.Coherent) (op : Operation) : (h.perform op).Coherent :=
  perform_keeps hh (fun _ _ hedit => hh.edit hedit) hh.fold (fun text => .reload text) op

theorem Coherent.run {h : History} (hh : h.Coherent) (ops : List Operation) :
    (h.run ops).Coherent := by
  induction ops generalizing h with
  | nil => exact hh
  | cons op ops ih => exact ih (hh.perform op)

/-! ### Versions in a chain -/

section Chain

variable {newest s older newer : Snapshot} {rest snapshots : List Snapshot}

theorem version_lt_of_mem (h : (newest :: rest).IsChain Snapshot.Follows) (hs : s ∈ rest) :
    s.version < newest.version := by
  induction rest generalizing newest with
  | nil => simp at hs
  | cons next rest ih =>
      rw [List.isChain_cons_cons] at h
      have hnext := h.1.version
      rcases List.mem_cons.mp hs with rfl | hs
      · omega
      · have := ih h.2 hs
        omega

/-- A version number stands for one version. -/
theorem eq_of_version_eq (h : snapshots.IsChain Snapshot.Follows) (hs : s ∈ snapshots)
    (holder : older ∈ snapshots) (hversion : s.version = older.version) : s = older := by
  induction snapshots with
  | nil => simp at hs
  | cons newest rest ih =>
      rcases List.mem_cons.mp hs with rfl | hs'
      · rcases List.mem_cons.mp holder with rfl | holder'
        · rfl
        · have := version_lt_of_mem h holder'
          omega
      · rcases List.mem_cons.mp holder with rfl | holder'
        · have := version_lt_of_mem h hs'
          omega
        · exact ih h.tail hs' holder'

theorem getD_getLast?_cons (newest next : Snapshot) (rest : List Snapshot) :
    (next :: rest).getLast?.getD newest = rest.getLast?.getD next := by
  cases rest <;> simp [List.getLast?_cons]

/-- The numbers have no gap. -/
theorem exists_version_eq (h : (newest :: rest).IsChain Snapshot.Follows) {version : Nat}
    (hmin : (rest.getLast?.getD newest).version ≤ version) (hmax : version ≤ newest.version) :
    ∃ s ∈ newest :: rest, s.version = version := by
  induction rest generalizing newest with
  | nil => exact ⟨newest, by simp, Nat.le_antisymm hmin hmax⟩
  | cons next rest ih =>
      rw [List.isChain_cons_cons] at h
      have hnext := h.1.version
      by_cases heq : version = newest.version
      · exact ⟨newest, by simp, heq.symm⟩
      · rw [getD_getLast?_cons] at hmin
        obtain ⟨s, hs, hversion⟩ := ih h.2 hmin (by omega)
        exact ⟨s, List.mem_cons_of_mem _ hs, hversion⟩

/-- The changes of some versions, the newest of which comes first. -/
def changesIn (snapshots : List Snapshot) (old new : Nat) : List Change :=
  (snapshots.reverse.filter fun s => old < s.version && s.version ≤ new).flatMap (·.changes)

theorem changesIn_cons (s : Snapshot) (snapshots : List Snapshot) (old new : Nat) :
    changesIn (s :: snapshots) old new =
      changesIn snapshots old new ++
        if old < s.version ∧ s.version ≤ new then s.changes else [] := by
  by_cases h : old < s.version ∧ s.version ≤ new
  · simp [changesIn, h]
  · have hnone : (old < s.version && s.version ≤ new) = false := by simpa using h
    simp [changesIn, hnone, if_neg h]

/-- Versions after the last one asked for do not count. -/
theorem changesIn_cons_of_lt {old new : Nat} (h : new < s.version) :
    changesIn (s :: snapshots) old new = changesIn snapshots old new := by
  rw [changesIn_cons, if_neg (by omega), List.append_nil]

theorem changesIn_eq_nil {old new : Nat} (h : ∀ s ∈ snapshots, s.version ≤ old) :
    changesIn snapshots old new = [] := by
  induction snapshots with
  | nil => rfl
  | cons s snapshots ih =>
      have := h s (by simp)
      rw [changesIn_cons, ih fun s hs => h s (List.mem_cons_of_mem _ hs), if_neg (by omega),
        List.append_nil]

theorem changesIn_self (snapshots : List Snapshot) (version : Nat) :
    changesIn snapshots version version = [] := by
  induction snapshots with
  | nil => rfl
  | cons s snapshots ih => rw [changesIn_cons, ih, if_neg (by omega), List.append_nil]

theorem changesIn_congr {old new new' : Nat}
    (h : ∀ s ∈ snapshots, s.version ≤ new ∧ s.version ≤ new') :
    changesIn snapshots old new = changesIn snapshots old new' := by
  induction snapshots with
  | nil => rfl
  | cons s snapshots ih =>
      have hs := h s (by simp)
      simp only [changesIn_cons, ih fun s hs => h s (List.mem_cons_of_mem _ hs), hs.1, hs.2]

theorem changesIn_append (h : snapshots.IsChain Snapshot.Follows) {old mid new : Nat}
    (hold : old ≤ mid) (hmid : mid ≤ new) :
    changesIn snapshots old new = changesIn snapshots old mid ++ changesIn snapshots mid new := by
  induction snapshots with
  | nil => rfl
  | cons s snapshots ih =>
      rw [changesIn_cons, ih h.tail, changesIn_cons _ _ old mid, changesIn_cons _ _ mid new]
      by_cases hs : s.version ≤ mid
      · -- the newest version lies in the first part, and so do all before it
        have hnone : changesIn snapshots mid new = [] := by
          apply changesIn_eq_nil
          intro s' hs'
          have := version_lt_of_mem h hs'
          omega
        rw [hnone, if_neg (show ¬(mid < s.version ∧ s.version ≤ new) by omega)]
        simp only [hs, Nat.le_trans hs hmid, List.append_nil]
      · rw [if_neg (show ¬(old < s.version ∧ s.version ≤ mid) by omega)]
        have hiff : (old < s.version ∧ s.version ≤ new) ↔ (mid < s.version ∧ s.version ≤ new) := by
          omega
        simp only [hiff, List.append_nil, List.append_assoc]

theorem changesIn_ne_nil (h : snapshots.IsChain Snapshot.Follows) (holder : older ∈ snapshots)
    (hnewer : newer ∈ snapshots) (hlt : older.version < newer.version) :
    changesIn snapshots older.version newer.version ≠ [] := by
  induction snapshots with
  | nil => simp at holder
  | cons s rest ih =>
      by_cases hs : newer = s
      · subst hs
        have holder' : older ∈ rest := by
          rcases List.mem_cons.mp holder with rfl | holder'
          · omega
          · exact holder'
        obtain ⟨next, rest, rfl⟩ := List.exists_cons_of_ne_nil (List.ne_nil_of_mem holder')
        rw [changesIn_cons, if_pos ⟨hlt, Nat.le_refl _⟩]
        exact List.append_ne_nil_of_right_ne_nil _ (List.isChain_cons_cons.mp h).1.changes_ne_nil
      · have hnewer' : newer ∈ rest := (List.mem_cons.mp hnewer).resolve_left hs
        have hnewest := version_lt_of_mem h hnewer'
        have holder' : older ∈ rest := by
          rcases List.mem_cons.mp holder with rfl | holder'
          · omega
          · exact holder'
        rw [changesIn_cons_of_lt hnewest]
        exact ih h.tail holder' hnewer'

/-- The changes between two versions lead from the text of the one to the text
of the other. -/
theorem applyAll_changesIn (h : snapshots.IsChain Snapshot.Follows) (holder : older ∈ snapshots)
    (hnewer : newer ∈ snapshots) (hle : older.version ≤ newer.version) :
    Change.applyAll (changesIn snapshots older.version newer.version) older.tree.text =
      newer.tree.text := by
  induction snapshots generalizing newer with
  | nil => simp at holder
  | cons s rest ih =>
      by_cases holder' : older ∈ rest
      · by_cases hnewer' : newer ∈ rest
        · rw [changesIn_cons_of_lt (version_lt_of_mem h hnewer')]
          exact ih h.tail holder' hnewer' hle
        · obtain rfl : newer = s := (List.mem_cons.mp hnewer).resolve_right hnewer'
          obtain ⟨next, rest, rfl⟩ := List.exists_cons_of_ne_nil (List.ne_nil_of_mem holder')
          have hfollows := (List.isChain_cons_cons.mp h).1
          -- up to the newest version is up to the one below it, and then its own changes
          have hversions : ∀ s ∈ next :: rest,
              s.version ≤ newer.version ∧ s.version ≤ next.version := by
            intro s' hs'
            have hlt := version_lt_of_mem h hs'
            have := hfollows.version
            omega
          have hnext : older.version ≤ next.version := (hversions older holder').2
          rw [changesIn_cons, if_pos ⟨version_lt_of_mem h holder', Nat.le_refl _⟩,
            changesIn_congr hversions, Change.applyAll_append,
            ih h.tail holder' (by simp) hnext, hfollows.text]
      · obtain rfl : older = s := (List.mem_cons.mp holder).resolve_right holder'
        obtain rfl | hnewer' := List.mem_cons.mp hnewer
        · rw [changesIn_self]
          rfl
        · have := version_lt_of_mem h hnewer'
          omega

end Chain

/-! ### Answers about two versions -/

section

variable {h : History} {s : Snapshot} {old new : Nat}

theorem difference_eq_unchanged_iff :
    h.difference old new = .unchanged ↔ old = new ∧ new ≤ h.version := by
  rw [difference]
  grind

theorem difference_eq_changes_iff {cs : List Change} :
    h.difference old new = .changes cs ↔
      (h.minVersion ≤ old ∧ old < new ∧ new ≤ h.version) ∧ h.changesBetween old new = cs := by
  rw [difference]
  grind

theorem difference_eq_unavailable_iff :
    h.difference old new = .unavailable ↔
      ¬(old = new ∧ new ≤ h.version) ∧ ¬(h.minVersion ≤ old ∧ old < new ∧ new ≤ h.version) := by
  rw [difference]
  grind

theorem Coherent.exists_version (hh : h.Coherent) (hmin : h.minVersion ≤ old)
    (hmax : old ≤ h.version) : ∃ s ∈ h.snapshots, s.version = old :=
  exists_version_eq hh.follows hmin hmax

/-- Two kept versions and what lies between them. -/
theorem Coherent.changesBetween_spec (hh : h.Coherent) (hmin : h.minVersion ≤ old) (hlt : old < new)
    (hmax : new ≤ h.version) :
    h.changesBetween old new ≠ [] ∧
      ∃ older ∈ h.snapshots, ∃ newer ∈ h.snapshots, older.version = old ∧ newer.version = new ∧
        Change.applyAll (h.changesBetween old new) older.tree.text = newer.tree.text := by
  obtain ⟨older, holder, rfl⟩ := hh.exists_version hmin (by omega)
  obtain ⟨newer, hnewer, rfl⟩ := hh.exists_version (by omega) hmax
  refine ⟨changesIn_ne_nil hh.follows holder hnewer hlt, older, holder, newer, hnewer, rfl, rfl, ?_⟩
  exact applyAll_changesIn hh.follows holder hnewer (Nat.le_of_lt hlt)

/-- Between two versions lie the changes up to any version in the middle and
those from there on. -/
theorem Coherent.difference_append (hh : h.Coherent) {mid : Nat} {cs : List Change}
    (hcs : h.difference old new = .changes cs) (hold : old < mid) (hnew : mid < new) :
    ∃ first second, h.difference old mid = .changes first ∧ h.difference mid new = .changes second ∧
      cs = first ++ second := by
  obtain ⟨⟨hmin, hlt, hmax⟩, rfl⟩ := difference_eq_changes_iff.mp hcs
  refine ⟨h.changesBetween old mid, h.changesBetween mid new, ?_, ?_, ?_⟩
  · exact difference_eq_changes_iff.mpr ⟨⟨hmin, hold, by omega⟩, rfl⟩
  · exact difference_eq_changes_iff.mpr ⟨⟨by omega, hnew, hmax⟩, rfl⟩
  · exact changesIn_append hh.follows (Nat.le_of_lt hold) (Nat.le_of_lt hnew)

end

/-! ### Versions along a run -/

theorem run_append (h : History) (first second : List Operation) :
    h.run (first ++ second) = (h.run first).run second :=
  List.foldl_append

theorem fold_of_pending_eq_nil {h : History} (hpending : h.pending = []) : h.fold = h :=
  if_pos hpending

@[simp] theorem pending_fold (h : History) : h.fold.pending = [] := by
  rw [fold]
  split
  · assumption
  · rfl

@[simp] theorem limits_fold (h : History) : h.fold.limits = h.limits := by
  rw [fold]
  split <;> rfl

theorem version_fold (h : History) : h.fold.version = h.version + if h.pending = [] then 0 else 1 := by
  rw [fold]
  split <;> rfl

/-- Folding makes no version or one, and forgets none but the oldest. -/
theorem fold_cases (h : History) :
    h.fold.snapshots = h.snapshots ∨
      h.fold.version = h.version + 1 ∧ h.fold.earlier ⊆ h.snapshots := by
  rw [fold]
  split
  · exact .inl rfl
  · exact .inr ⟨rfl, List.take_subset _ _⟩

/-- So does every operation. -/
theorem perform_cases (h : History) (op : Operation) :
    (h.perform op).snapshots = h.snapshots ∨
      (h.perform op).version = h.version + 1 ∧ (h.perform op).earlier ⊆ h.snapshots := by
  cases op with
  | edit c =>
      rw [perform, edit]
      split
      · exact .inl rfl
      · dsimp only [Except.toOption, Option.getD_some]
        split
        · exact fold_cases _
        · exact .inl rfl
  | fold => exact fold_cases h
  | reload text => exact .inr ⟨rfl, List.nil_subset _⟩

/-- A version that is kept was kept before, or is new. -/
theorem mem_or_lt_of_run {h : History} {ops : List Operation} {s : Snapshot}
    (hs : s ∈ (h.run ops).snapshots) : s ∈ h.snapshots ∨ h.version < s.version := by
  induction ops generalizing h with
  | nil => exact .inl hs
  | cons op ops ih =>
      rcases perform_cases h op with hsame | ⟨hversion, hearlier⟩
      · have hlatest : (h.perform op).version = h.version := by
          rw [version, version, (List.cons_eq_cons.mp hsame).1]
        rw [← hsame, ← hlatest]
        exact ih hs
      · rcases ih hs with hs | hlt
        · rcases List.mem_cons.mp hs with rfl | hs
          · exact .inr (by rw [version] at hversion; omega)
          · exact .inl (hearlier hs)
        · exact .inr (by omega)

/-- A version that is kept was the latest at some time. -/
theorem Shows.of_mem {h : History} {s : Snapshot} (hlatest : h.snapshots = [h.latest])
    (ops : List Operation) (hs : s ∈ (h.run ops).snapshots) :
    h.Shows ops s.version s.tree.text := by
  induction ops using List.reverseRecOn with
  | nil =>
      rw [run, List.foldl_nil, hlatest, List.mem_singleton] at hs
      subst hs
      exact ⟨[], List.prefix_rfl, rfl, rfl⟩
  | append_singleton ops op ih =>
      by_cases hold : s ∈ (h.run ops).snapshots
      · obtain ⟨done, hdone, hshown⟩ := ih hold
        exact ⟨done, hdone.trans (List.prefix_append _ _), hshown⟩
      · -- what the last operation brought in is the version that it made the latest
        have hnew : s = (h.run (ops ++ [op])).latest := by
          rw [run_append] at hs ⊢
          change s ∈ ((h.run ops).perform op).snapshots at hs
          rcases perform_cases (h.run ops) op with hsame | ⟨-, hearlier⟩
          · exact absurd (hsame ▸ hs) hold
          · exact (List.mem_cons.mp hs).resolve_right fun hs => hold (hearlier hs)
        subst hnew
        exact ⟨_, List.prefix_rfl, rfl, rfl⟩

/-- A version never changes its text. -/
theorem Shows.unique {h : History} (hh : h.Coherent) {ops : List Operation} {version : Nat}
    {text text' : Text} (hshows : h.Shows ops version text) (hshows' : h.Shows ops version text') :
    text = text' := by
  obtain ⟨done, hdone, hversion, rfl⟩ := hshows
  obtain ⟨done', hdone', hversion', rfl⟩ := hshows'
  -- of the two states the later one still has the version of the earlier one
  have hlater {first second : List Operation} (hbefore : first <+: second)
      (heq : (h.run second).version = (h.run first).version) :
      (h.run first).latest.tree.text = (h.run second).latest.tree.text := by
    obtain ⟨more, rfl⟩ := hbefore
    rw [run_append] at heq ⊢
    have hmem : ((h.run first).run more).latest ∈ ((h.run first).run more).snapshots := by
      simp [snapshots]
    rcases mem_or_lt_of_run hmem with hmem | hlt
    · rw [eq_of_version_eq (hh.run first).follows hmem (by simp [snapshots]) heq]
    · exact absurd heq (Nat.ne_of_gt hlt)
  rcases List.prefix_or_prefix_of_prefix hdone hdone' with hbefore | hbefore
  · exact hlater hbefore (hversion'.trans hversion.symm)
  · exact (hlater hbefore (hversion.trans hversion'.symm)).symm

/-- The answer about two versions of a history, whatever was done to it. -/
theorem difference_run (text : Text) (limits : HistoryLimits) (capacity : Nat)
    (ops : List Operation) (old new : Nat) :
    let start := ofText text limits capacity
    let h := start.run ops
    (h.difference old new = .unchanged ↔ old = new ∧ new ≤ h.version) ∧
    ((∃ cs, h.difference old new = .changes cs) ↔
      h.minVersion ≤ old ∧ old < new ∧ new ≤ h.version) ∧
    (h.difference old new = .unavailable ↔
      ¬(old = new ∧ new ≤ h.version) ∧ ¬(h.minVersion ≤ old ∧ old < new ∧ new ≤ h.version)) ∧
    ∀ cs, h.difference old new = .changes cs →
      cs ≠ [] ∧
      (∃ before after, start.Shows ops old before ∧ start.Shows ops new after) ∧
      (∀ before after, start.Shows ops old before → start.Shows ops new after →
        Change.applyAll cs before = after) ∧
      ∀ mid, old < mid → mid < new →
        ∃ first second, h.difference old mid = .changes first ∧
          h.difference mid new = .changes second ∧ cs = first ++ second := by
  intro start h
  have hstart : start.Coherent := coherent_ofText text limits capacity
  have hh : h.Coherent := hstart.run ops
  refine ⟨difference_eq_unchanged_iff, ?_, difference_eq_unavailable_iff, ?_⟩
  · simp only [difference_eq_changes_iff, exists_and_left, exists_eq', and_true]
  · intro cs hcs
    obtain ⟨⟨hmin, hlt, hmax⟩, rfl⟩ := difference_eq_changes_iff.mp hcs
    obtain ⟨hne, older, holder, newer, hnewer, rfl, rfl, happly⟩ :=
      hh.changesBetween_spec hmin hlt hmax
    have hbefore : start.Shows ops older.version older.tree.text := .of_mem rfl ops holder
    have hafter : start.Shows ops newer.version newer.tree.text := .of_mem rfl ops hnewer
    refine ⟨hne, ⟨_, _, hbefore, hafter⟩, ?_, fun mid => hh.difference_append hcs⟩
    intro before after hbefore' hafter'
    rw [hbefore'.unique hstart hbefore, hafter'.unique hstart hafter, happly]

/-- An edit at the end and one at the start, each made a version. -/
theorem difference_run_of_two_edits :
    let start := ofText ['a', 'b'] {} 4
    let ops := [.edit ⟨2, 0, ['c']⟩, .fold, .edit ⟨0, 1, []⟩, .fold]
    let cs := [⟨2, 0, ['c']⟩, ⟨0, 1, []⟩]
    (start.run ops).difference 0 2 = .changes cs ∧
      start.Shows ops 0 ['a', 'b'] ∧ start.Shows ops 2 ['b', 'c'] ∧
      Change.applyAll cs ['a', 'b'] = ['b', 'c'] := by
  intro start ops cs
  have hcs : (start.run ops).difference 0 2 = .changes cs := by decide
  have hbefore : start.Shows ops 0 ['a', 'b'] := ⟨[], ops.nil_prefix, by decide, by decide⟩
  have hafter : start.Shows ops 2 ['b', 'c'] := ⟨ops, List.prefix_rfl, by decide, by decide⟩
  have hrun := (difference_run ['a', 'b'] {} 4 ops 0 2).2.2.2 cs hcs
  exact ⟨hcs, hbefore, hafter, hrun.2.2.1 _ _ hbefore hafter⟩

end History

end ProjectTracker
