import ProjectTracker.Proofs.Workspace.Bereavement
/-!
What a change of a file is about. Watches stand in the table of the file system once, so that a change has just the
purposes of those holders whose watches cover it, each of them once.
-/

namespace ProjectTracker

open Workspace (Proceeds Beside Meddles)

theorem Table.mem_entries_iff {κ α : Type} [DecidableEq κ] {t : Table κ α} {k : κ} {a : α}
    (h : t.keys.Nodup) : (k, a) ∈ t.entries ↔ t.get? k = some a := by
  refine ⟨fun hmem => ?_, mem_entries_of_get?⟩
  obtain ⟨entries⟩ := t
  replace h : (entries.map (·.1)).Nodup := h
  show lookup k entries = some a
  induction entries with
  | nil => simp at hmem
  | cons entry rest ih => grind [lookup]

namespace WatchTable

variable {t : WatchTable}

/-- Every id stands in the table once, and none is ahead of the last one given out. -/
structure Orderly (t : WatchTable) : Prop where
  nodup : t.targets.keys.Nodup
  le : ∀ id ∈ t.targets.keys, id ≤ t.lastId

theorem Orderly.add (h : t.Orderly) (target : WatchTarget) : (t.add target).1.Orderly := by
  have hfresh : t.lastId + 1 ∉ t.targets.keys := fun hid =>
    Nat.not_succ_le_self _ (h.le _ hid)
  have hperm := Table.keys_insert_perm hfresh target
  refine ⟨hperm.nodup_iff.mpr (List.nodup_cons.mpr ⟨hfresh, h.nodup⟩), fun id hid => ?_⟩
  rcases List.mem_cons.mp (hperm.mem_iff.mp hid) with rfl | hid
  · exact Nat.le_refl _
  · exact Nat.le_succ_of_le (h.le id hid)

theorem Orderly.release (h : t.Orderly) (id : WatchId) : (t.release id).Orderly := by
  have hkeys : (t.release id).targets.keys = t.targets.keys.filter (· ≠ id) := Table.keys_erase ..
  refine ⟨hkeys ▸ h.nodup.filter _, fun i hi => ?_⟩
  rw [hkeys] at hi
  exact h.le i (List.mem_filter.mp hi).1

theorem Orderly.mem_matching_iff (h : t.Orderly) {id : WatchId} {p : Path} :
    id ∈ t.matching p ↔ ∃ target, t.get? id = some target ∧ target.covers p := by
  unfold matching get?
  simp only [List.mem_map, List.mem_filter, Prod.exists]
  constructor
  · rintro ⟨_, target, ⟨hentry, hcovers⟩, rfl⟩
    exact ⟨target, (Table.mem_entries_iff h.nodup).mp hentry, hcovers⟩
  · rintro ⟨target, hlive, hcovers⟩
    exact ⟨id, target, ⟨Table.mem_entries_of_get? hlive, hcovers⟩, rfl⟩

end WatchTable

namespace Outlook

variable {o : Outlook}

theorem orderly_join (h : o.watches.Orderly) (dir : Path) : (o.join dir).watches.Orderly := by
  unfold join
  split
  · exact h
  · exact h.add _

theorem orderly_leave (h : o.watches.Orderly) (dir : Path) : (o.leave dir).watches.Orderly := by
  unfold leave
  split
  · exact h
  · split
    · exact h.release _
    · exact h

theorem orderly_unwatch (h : o.watches.Orderly) (p : Path) : (o.unwatch p).watches.Orderly := by
  unfold unwatch
  split
  · exact h.release _
  · exact h

theorem orderly_foldl {α : Type} {step : Outlook → α → Outlook}
    (hstep : ∀ (o : Outlook) x, o.watches.Orderly → (step o x).watches.Orderly) (xs : List α)
    (h : o.watches.Orderly) : (xs.foldl step o).watches.Orderly := by
  induction xs generalizing o with
  | nil => exact h
  | cons x xs ih => exact ih (hstep o x h)

theorem orderly_strike (h : o.watches.Orderly) (id : ProjectId) : (o.strike id).watches.Orderly := by
  unfold strike
  split
  · exact h
  · exact orderly_foldl (fun _ dir h => orderly_leave h dir) _
      (orderly_foldl (fun _ id h => h.release id) _ h)

theorem orderly_enrollConfigured (h : o.watches.Orderly) (id : ProjectId) (manifest : Path) :
    (o.enrollConfigured id manifest).watches.Orderly := by
  unfold enrollConfigured
  cases manifest.parent? with
  | none => exact h.add _
  | some dir => exact (h.add _).add _

end Outlook

namespace Workspace

variable {strict : Prop} {unsaid : Path → Prop} {w w' : Workspace} {p q dir : Path} {purpose : WatchPurpose}

theorem orderly_proceeds (h : Proceeds strict unsaid w w') (hw : w.outlook.watches.Orderly) :
    w'.outlook.watches.Orderly := by
  refine h.keeps (fun w => w.outlook.watches.Orderly) (fun w w' hbeside hw => ?_)
    (fun w p text _ hw => ?_) (fun w p hw => ?_) (fun w p _ hw => ?_) (fun w id hw => ?_)
    (fun w root hw => ?_) (fun w manifest roots settings _ hw => ?_) hw
  · exact hbeside.outlook ▸ hw
  · rw [outlook_track]
    exact hw.add _
  · rw [outlook_unwatch]
    exact Outlook.orderly_unwatch hw p
  · rw [outlook_forget]
    exact Outlook.orderly_unwatch hw p
  · rw [outlook_removeProject]
    exact Outlook.orderly_strike hw id
  · rw [outlook_enterInferred]
    exact Outlook.orderly_foldl (fun _ dir h => Outlook.orderly_join h dir) _ hw
  · rw [outlook_enterConfigured]
    exact Outlook.orderly_enrollConfigured hw _ manifest

theorem orderly_run (settings : Settings) {scanner : Scanner} {fs : FileSystem} {ops : List Operation}
    (hfs : fs.watches = {}) (hops : ({ settings, scanner, fs } : Workspace).Avoids ops Meddles) :
    (({ settings, scanner, fs } : Workspace).run ops).fs.watches.Orderly := by
  have hstart : ({ settings, scanner, fs } : Workspace).outlook.watches.Orderly := by
    show fs.watches.Orderly
    rw [hfs]
    exact ⟨List.nodup_nil, fun id hid => by cases hid⟩
  exact (run_keeps_apart (fun w => w.outlook.watches.Orderly) (fun _ _ _ h => orderly_proceeds h)
    (fun _ _ hbeside h => hbeside.outlook ▸ h) enlisted_empty hstart hops).2

/-! ### Purposes -/

theorem nodup_purposesAt (w : Workspace) (p : Path) : (w.purposesAt p).Nodup := by
  unfold purposesAt
  refine List.foldlRecOn _ _ List.nodup_nil fun found hfound purpose _ => ?_
  split
  · exact hfound
  · rename_i hnew
    exact List.nodup_append.mpr ⟨hfound, by simp, by
      rintro found' hmem _ hpurpose rfl
      exact hnew (List.mem_singleton.mp hpurpose ▸ hmem)⟩

theorem mem_purposesAt_iff (h : w.WatchesAccounted) (horderly : w.fs.watches.Orderly) :
    purpose ∈ w.purposesAt p ↔ ∃ id target, w.Backs id target purpose ∧ target.covers p := by
  rw [mem_purposesAt]
  refine exists_congr fun id => ?_
  rw [horderly.mem_matching_iff]
  constructor
  · rintro ⟨⟨target, hlive, hcovers⟩, hpurpose⟩
    exact ⟨target, (h.backed id target purpose).mp ⟨hlive, hpurpose⟩, hcovers⟩
  · rintro ⟨target, hbacks, hcovers⟩
    obtain ⟨hlive, hpurpose⟩ := (h.backed id target purpose).mpr hbacks
    exact ⟨⟨target, hlive, hcovers⟩, hpurpose⟩

/-- A change is about the one document whose file it is. -/
theorem document_mem_purposesAt (h : w.WatchesAccounted) (horderly : w.fs.watches.Orderly)
    (hp : .document q ∈ w.purposesAt p) : q = p := by
  obtain ⟨id, target, ⟨rfl, -⟩, hcovers⟩ := (mem_purposesAt_iff h horderly).mp hp
  exact of_decide_eq_true hcovers

/-- A change is of interest where somebody waits for manifests in just its directory. -/
theorem lookout_mem_purposesAt_iff (h : w.WatchesAccounted) (horderly : w.fs.watches.Orderly) :
    .lookout dir ∈ w.purposesAt p ↔ p.parent? = some dir ∧ (w.lookouts.get? dir).isSome := by
  rw [mem_purposesAt_iff h horderly]
  constructor
  · rintro ⟨id, target, ⟨rfl, hlookout⟩, hcovers⟩
    obtain ⟨lookout, hlookout, -⟩ := Option.map_eq_some_iff.mp hlookout
    exact ⟨of_decide_eq_true hcovers, by simp [hlookout]⟩
  · rintro ⟨hparent, hlookout⟩
    obtain ⟨lookout, hlookout⟩ := Option.isSome_iff_exists.mp hlookout
    exact ⟨lookout.watch, _, ⟨rfl, by simp [hlookout]⟩, decide_eq_true hparent⟩

/-- Without a configured project a change is about its document, and the directory that it is in. -/
theorem purposesAt_of_inferred (h : w.WatchesAccounted) (horderly : w.fs.watches.Orderly)
    (hinferred : ∀ id project, w.projects.get? id = some project → project.kind = .inferred)
    (hp : purpose ∈ w.purposesAt p) :
    purpose = .document p ∨ ∃ dir, p.parent? = some dir ∧ purpose = .lookout dir := by
  cases purpose with
  | document q => exact .inl (by rw [document_mem_purposesAt h horderly hp])
  | lookout dir => exact .inr ⟨dir, ((lookout_mem_purposesAt_iff h horderly).mp hp).1, rfl⟩
  | manifest i =>
      obtain ⟨id, target, ⟨project, manifest, hproject, hkind, -⟩, -⟩ :=
        (mem_purposesAt_iff h horderly).mp hp
      simp [hinferred i project hproject] at hkind
  | sourceTree i =>
      obtain ⟨id, target, ⟨project, manifest, dir, hproject, hkind, -⟩, -⟩ :=
        (mem_purposesAt_iff h horderly).mp hp
      simp [hinferred i project hproject] at hkind

end Workspace

end ProjectTracker
