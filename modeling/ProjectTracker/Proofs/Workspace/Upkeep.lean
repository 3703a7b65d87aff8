import ProjectTracker.Proofs.Workspace.Contents
/-!
What a workspace does to its projects as documents are given to them, in a few kinds of steps. What
every step keeps, all functions that are made of such steps keep: the lists of projects are right,
and a project that is not stale has the files that its roots lead to.
-/

namespace ProjectTracker

/-! ### The lists of projects -/

namespace Roster

/-- The lists have the live projects, by their kinds. -/
structure Orderly (r : Roster) : Prop where
  le : ∀ id h, r.holding? id = some h → id ≤ r.lastProject
  inferred : ∀ id, id ∈ r.inferred ↔ ∃ h, r.holding? id = some h ∧ h.kind = .inferred
  configured : ∀ id, id ∈ r.configured ↔ ∃ h, r.holding? id = some h ∧ h.kind ≠ .inferred
  inferred_nodup : r.inferred.Nodup
  configured_nodup : r.configured.Nodup

variable {r : Roster}

theorem Orderly.strike (hr : r.Orderly) (id : ProjectId) : (r.strike id).Orderly := by
  unfold Roster.strike
  split
  · have hiff {i : ProjectId} {property : Holding → Prop} :
        (∃ h, (if i = id then none else r.holding? i) = some h ∧ property h) ↔
          (∃ h, r.holding? i = some h ∧ property h) ∧ i ≠ id := by
      by_cases hi : i = id <;> simp [hi]
    refine ⟨fun i h hh => ?_, fun i => ?_, fun i => ?_, hr.inferred_nodup.filter _,
      hr.configured_nodup.filter _⟩
    · dsimp only at hh
      split at hh
      · simp at hh
      · exact hr.le i h hh
    · rw [hiff, ← hr.inferred]
      simp
    · rw [hiff, ← hr.configured]
      simp
  · exact hr

/-- The kinds of the live projects are all that matters. -/
theorem Orderly.of_kinds {r' : Roster} (hr : r.Orderly)
    (hkinds : ∀ id, (r'.holding? id).map (·.kind) = (r.holding? id).map (·.kind))
    (hinferred : r'.inferred = r.inferred) (hconfigured : r'.configured = r.configured)
    (hlast : r'.lastProject = r.lastProject) : r'.Orderly := by
  have hiff (r : Roster) (id : ProjectId) (property : ProjectKind → Prop) :
      (∃ h, r.holding? id = some h ∧ property h.kind) ↔
        ∃ kind, (r.holding? id).map (·.kind) = some kind ∧ property kind := by
    cases r.holding? id <;> simp
  refine ⟨fun id h hh => ?_, fun id => ?_, fun id => ?_, hinferred ▸ hr.inferred_nodup,
    hconfigured ▸ hr.configured_nodup⟩
  · have hlive := hkinds id
    rw [hh] at hlive
    obtain ⟨h', hh', -⟩ := Option.map_eq_some_iff.mp hlive.symm
    exact hlast ▸ hr.le id h' hh'
  · rw [hinferred, hr.inferred, hiff r id (· = .inferred), hiff r' id (· = .inferred), hkinds]
  · rw [hconfigured, hr.configured, hiff r id (· ≠ .inferred), hiff r' id (· ≠ .inferred), hkinds]

theorem Orderly.enroll (hr : r.Orderly) (h : Holding) : (r.enroll h).Orderly := by
  have hdead (property : Holding → Prop) :
      ¬∃ h, r.holding? (r.lastProject + 1) = some h ∧ property h := by
    rintro ⟨h, hh, -⟩
    exact absurd (hr.le _ h hh) (Nat.not_succ_le_self _)
  have hfreshInferred : r.lastProject + 1 ∉ r.inferred := fun hmem =>
    hdead _ ((hr.inferred _).mp hmem)
  have hfreshConfigured : r.lastProject + 1 ∉ r.configured := fun hmem =>
    hdead _ ((hr.configured _).mp hmem)
  have hiff (i : ProjectId) (property : Holding → Prop) :
      (∃ h', (r.enroll h).holding? i = some h' ∧ property h') ↔
        (i = r.lastProject + 1 ∧ property h) ∨ ∃ h', r.holding? i = some h' ∧ property h' := by
    simp only [Roster.enroll]
    by_cases hi : i = r.lastProject + 1
    · subst i
      simp [hdead]
    · simp [hi]
  refine ⟨fun i h' hh => ?_, fun i => ?_, fun i => ?_, ?_, ?_⟩
  · rcases (hiff i fun _ => True).mp ⟨h', hh, trivial⟩ with ⟨rfl, -⟩ | ⟨h', hh, -⟩
    · exact Nat.le_refl _
    · exact Nat.le_succ_of_le (hr.le i h' hh)
  · rw [hiff, ← hr.inferred]
    cases hkind : h.kind <;> simp [Roster.enroll, hkind, or_comm]
  · rw [hiff, ← hr.configured]
    cases hkind : h.kind <;> simp [Roster.enroll, hkind, or_comm]
  · simp only [Roster.enroll]
    split
    · exact List.concat_eq_append ▸ hr.inferred_nodup.concat hfreshInferred
    · exact hr.inferred_nodup
  · simp only [Roster.enroll]
    split
    · exact hr.configured_nodup
    · exact List.concat_eq_append ▸ hr.configured_nodup.concat hfreshConfigured

end Roster

namespace Workspace

variable {w w' w'' : Workspace} {first id : ProjectId} {p : Path} {roots : List Path}

/-- The lists of projects are right, and no project is entered twice. -/
structure Enlisted (w : Workspace) : Prop where
  orderly : w.roster.Orderly
  distinct : w.projects.keys.Nodup

theorem Enlisted.of_kinds (h : w.Enlisted)
    (hkinds : ∀ id, (w'.holding? id).map (·.kind) = (w.holding? id).map (·.kind))
    (hinferred : w'.inferred = w.inferred) (hconfigured : w'.configured = w.configured)
    (hlast : w'.lastProject = w.lastProject) (hkeys : w'.projects.keys = w.projects.keys) :
    w'.Enlisted :=
  ⟨h.orderly.of_kinds hkinds hinferred hconfigured hlast, hkeys ▸ h.distinct⟩

theorem Enlisted.of_roster (h : w.Enlisted) (hroster : w'.roster = w.roster)
    (hkeys : w'.projects.keys = w.projects.keys) : w'.Enlisted :=
  ⟨hroster ▸ h.orderly, hkeys ▸ h.distinct⟩

theorem Enlisted.creates (h : w.Enlisted) {kind : ProjectKind} (hcreates : Creates w w' kind roots) :
    w'.Enlisted := by
  obtain ⟨found, -, -, hroster, -⟩ := hcreates.roster
  have hfresh : w.lastProject + 1 ∉ w.projects.keys := by
    rw [Table.mem_keys_iff]
    intro hlive
    obtain ⟨project, hproject⟩ := Option.isSome_iff_exists.mp hlive
    have hle := h.orderly.le (w.lastProject + 1) project.holding (by simp [holding?, hproject])
    exact absurd hle (Nat.not_succ_le_self _)
  refine ⟨hroster ▸ h.orderly.enroll _, (hcreates.keys hfresh).nodup_iff.mpr ?_⟩
  exact List.nodup_cons.mpr ⟨hfresh, h.distinct⟩

/-! ### The files of projects -/

/-- References are normal paths. -/
theorem normal_of_mem_links {s : Scanner} {S : Sources} {q : Path} (hq : q ∈ s.links S p) :
    ∃ target, q = s.normalizer.normalize target := by
  unfold Scanner.links at hq
  cases htext : S.text? p with
  | none => simp [htext] at hq
  | some text =>
      rw [htext] at hq
      obtain ⟨target, -, rfl⟩ := List.mem_map.mp hq
      exact ⟨_, rfl⟩

/-- The sources list everything that a reference can lead to. -/
theorem covers_sources (w : Workspace) :
    w.scanner.Covers w.sources fun p => w.isTracked p ∨ ∃ q, p = w.normalizer.normalize q where
  closed _ _ _ hq := .inr (normal_of_mem_links hq)
  listed p hp hread := by
    by_cases htracked : w.isTracked p
    · exact List.mem_append_left _ (mem_paths_iff.mpr htracked)
    · obtain ⟨q, rfl⟩ := hp.resolve_left htracked
      have hnone : w.documents.get? (w.normalizer.normalize q) = none := by
        by_contra hne
        exact htracked (isTracked_iff.mpr (Option.ne_none_iff_exists'.mp hne))
      have hread' : (w.texts (w.normalizer.normalize q)).isSome := hread
      rw [texts_eq, hnone] at hread'
      exact List.mem_append_right _ (FileSystem.normalize_mem_filePaths hread')

/-- The files of tracked roots depend on the texts alone. -/
theorem fileSet_of_quiet (hquiet : Quiet w w') (hroots : ∀ p ∈ roots, w.isTracked p) :
    w'.scanner.fileSet w'.sources roots = w.scanner.fileSet w.sources roots := by
  have hcovers' := covers_sources w'
  rw [hquiet.scanner] at hcovers' ⊢
  rw [hquiet.normalizer] at hcovers'
  refine Scanner.fileSet_congr (covers_sources w) hcovers' (fun p hp => .inl (hroots p hp))
    (fun p hp => ?_) fun p _ => (congrFun hquiet.texts p).symm
  rcases hp with hp | ⟨q, -, hp⟩
  · exact .inl (hquiet.tracked p (hroots p hp))
  · exact .inr (normal_of_mem_links hp)

/-- From some project on, those that are not stale have the files that their roots lead to. All of
these are tracked. -/
structure Current (first : ProjectId) (w : Workspace) : Prop where
  rooted : ∀ id h, first ≤ id → w.holding? id = some h → ∀ p ∈ h.roots, w.isTracked p
  tracked : ∀ id h, first ≤ id → w.holding? id = some h → h.isStale = false →
    ∀ p ∈ h.files, w.isTracked p
  files : ∀ id h, first ≤ id → w.holding? id = some h → h.isStale = false →
    h.files = w.scanner.fileSet w.sources h.roots

/-- Where no text changes only projects that are new or changed have to be looked at. -/
theorem Current.of_quiet (h : Current first w) (hquiet : Quiet w w')
    (hnew : ∀ id h', first ≤ id → w'.holding? id = some h' → w.holding? id = some h' ∨
      (∀ p ∈ h'.roots, w'.isTracked p) ∧ (h'.isStale = false →
        (∀ p ∈ h'.files, w'.isTracked p) ∧
          h'.files = w'.scanner.fileSet w'.sources h'.roots)) :
    Current first w' where
  rooted id h' hid hh' p hp := by
    rcases hnew id h' hid hh' with hold | ⟨hroots, -⟩
    · exact hquiet.tracked p (h.rooted id h' hid hold p hp)
    · exact hroots p hp
  tracked id h' hid hh' hstale p hp := by
    rcases hnew id h' hid hh' with hold | ⟨-, hfresh⟩
    · exact hquiet.tracked p (h.tracked id h' hid hold hstale p hp)
    · exact (hfresh hstale).1 p hp
  files id h' hid hh' hstale := by
    rcases hnew id h' hid hh' with hold | ⟨-, hfresh⟩
    · rw [fileSet_of_quiet hquiet (h.rooted id h' hid hold)]
      exact h.files id h' hid hold hstale
    · exact (hfresh hstale).2

theorem Current.creates (h : Current first w) {kind : ProjectKind}
    (hcreates : Creates w w' kind roots) : Current first w' := by
  obtain ⟨found, hquiet, hfound, hroster, hroots, htracked⟩ := hcreates.roster
  refine h.of_quiet hcreates.quiet fun id h' _ hh' => ?_
  rw [← roster_holding?, hroster] at hh'
  simp only [Roster.enroll] at hh'
  split at hh'
  · obtain rfl := Option.some.inj hh'
    refine .inr ⟨fun p hp => hfound.tracked p (hroots p hp), fun _ => ⟨htracked, ?_⟩⟩
    exact (fileSet_of_quiet hfound hroots).symm
  · exact .inl hh'

/-- Only the text of one path may be another one, and no project that is not stale asks for it. -/
theorem Current.of_unasked (h : Current first w) (unasked : Path)
    (hscanner : w'.scanner = w.scanner) (htexts : ∀ q ≠ unasked, w'.texts q = w.texts q)
    (hheld : ∀ id h', first ≤ id → w'.holding? id = some h' → ∃ h, w.holding? id = some h ∧
      (∀ q ∈ h'.roots, w'.isTracked q) ∧ (h'.isStale = false → h' = h ∧
        ¬w.scanner.Asks w.sources h.roots h.files unasked ∧ ∀ q ∈ h.files, w'.isTracked q)) :
    Current first w' where
  rooted id h' hid hh' := by
    obtain ⟨-, -, hroots, -⟩ := hheld id h' hid hh'
    exact hroots
  tracked id h' hid hh' hstale := by
    obtain ⟨held, -, -, hfresh⟩ := hheld id h' hid hh'
    obtain ⟨rfl, -, htracked⟩ := hfresh hstale
    exact htracked
  files id h' hid hh' hstale := by
    obtain ⟨held, hheld, hroots, hfresh⟩ := hheld id h' hid hh'
    obtain ⟨rfl, hunasked, -⟩ := hfresh hstale
    have hfiles := h.files id h' hid hheld hstale
    have hcovers' := covers_sources w'
    have hnormalizer : w'.normalizer = w.normalizer := congrArg Scanner.normalizer hscanner
    rw [hnormalizer, hscanner] at hcovers'
    rw [hscanner, hfiles]
    rw [hfiles] at hunasked
    refine (Scanner.fileSet_congr (covers_sources w) hcovers'
      (fun p hp => .inl (h.rooted id h' hid hheld p hp)) (fun p hp => ?_) fun p hp => ?_).symm
    · rcases hp with hp | ⟨q, -, hp⟩
      · exact .inl (hroots p hp)
      · exact .inr (normal_of_mem_links hp)
    · have hne : p ≠ unasked := fun heq => hunasked (heq ▸ hp)
      exact (htexts p hne).symm

/-- A project that is not stale has all readable files that it asks for. -/
theorem Current.not_asks (h : Current first w) {held : Holding} (hid : first ≤ id)
    (hheld : w.holding? id = some held) (hstale : held.isStale = false)
    (hread : (w.texts p).isSome) (hp : p ∉ held.files) :
    ¬w.scanner.Asks w.sources held.roots held.files p := by
  intro hasks
  have hfiles := h.files id held hid hheld hstale
  rw [hfiles] at hasks hp
  exact hp (Scanner.mem_fileSet_of_asks (covers_sources w)
    (fun q hq => .inl (h.rooted id held hid hheld q hq)) hasks hread)

/-! ### Steps -/

/-- A change of a project that leaves what it holds as it is, or else makes it stale. Its files are as they were
found last, and new roots are tracked files. -/
def Amends (w : Workspace) (f : Project → Project) (project : Project) : Prop :=
  (f project).kind = project.kind ∧ (f project).files = project.files ∧
    ((f project).holding = project.holding ∨
      (f project).isStale ∧ ∀ p ∈ (f project).roots, p ∈ project.roots ∨ w.isTracked p)

/-- A workspace becomes another one by steps that have to do with who belongs to whom. All documents stay
tracked. -/
inductive Shifts : Workspace → Workspace → Prop where
  | refl (w : Workspace) : Shifts w w
  | trans {w w' w'' : Workspace} (h : Shifts w w') (h' : Shifts w' w'') : Shifts w w''
  | calm {w w' : Workspace} (h : Calm w w') : Shifts w w'
  | refreshProject (w : Workspace) (id : ProjectId) : Shifts w (w.refreshProject id)
  | removeProject (w : Workspace) (id : ProjectId) : Shifts w (w.removeProject id).1
  | creates {w w' : Workspace} {kind : ProjectKind} {roots : List Path}
    (h : Creates w w' kind roots) : Shifts w w'
  | amend {w : Workspace} {id : ProjectId} {f : Project → Project}
    (h : ∀ project, w.projects.get? id = some project → w.Amends f project) :
    Shifts w (w.modifyProject id f)

/-- Some documents may be forgotten on the way that no project contains. -/
inductive Evolves : Workspace → Workspace → Prop where
  | shifts {w w' : Workspace} (h : Shifts w w') : Evolves w w'
  | trans {w w' w'' : Workspace} (h : Evolves w w') (h' : Evolves w' w'') : Evolves w w''
  | forget {w : Workspace} {p : Path} (h : ∀ id held, w.holding? id = some held → ¬held.Contains p) :
    Evolves w (w.forget p)

theorem Shifts.foldl {α : Type} {step : Workspace → α → Workspace}
    (h : ∀ w x, Shifts w (step w x)) (xs : List α) (w : Workspace) : Shifts w (xs.foldl step w) := by
  induction xs generalizing w with
  | nil => exact .refl w
  | cons x xs ih => exact (h w x).trans (ih _)

theorem forget_contents (w : Workspace) (p : Path) :
    Frame w (w.forget p) ∧ (w.forget p).roster = w.roster ∧
      (w.forget p).projects.keys = w.projects.keys ∧
      (∀ q ≠ p, (w.forget p).texts q = w.texts q) ∧
      ∀ q, (w.forget p).isTracked q ↔ w.isTracked q ∧ q ≠ p := by
  unfold forget
  split
  · have hunwatched := calm_unwatch w p
    have htracked (q : Path) : (w.unwatch p).isTracked q ↔ w.isTracked q := by
      rw [isTracked_unwatch]
    generalize w.unwatch p = unwatched at hunwatched htracked ⊢
    dsimp only
    generalize hremoved :
      ({ unwatched with documents := unwatched.documents.remove p } : Workspace) = removed
    have hget (q : Path) : removed.documents.get? q =
        if p = q then none else unwatched.documents.get? q := by
      subst hremoved
      exact Table.get?_erase ..
    have hframe : Frame unwatched removed := by
      subst hremoved
      exact ⟨rfl, rfl, rfl, rfl, rfl, .refl _, fun _ h _ => h⟩
    have hcalm := calm_cancel removed (.document p) (by simp)
    refine ⟨(hunwatched.toFrame.trans hframe).trans hcalm.toFrame, ?_, ?_, fun q hq => ?_,
      fun q => ?_⟩
    · rw [hcalm.roster, ← hunwatched.roster]
      subst hremoved
      rfl
    · rw [hcalm.keys, ← hunwatched.keys]
      subst hremoved
      rfl
    · rw [hcalm.texts, ← hunwatched.texts, texts_eq, texts_eq, hget, if_neg (Ne.symm hq),
        hframe.text?]
    · rw [← htracked, isTracked_iff, isTracked_iff]
      show (∃ d, removed.documents.get? q = some d) ↔ _
      rw [hget]
      by_cases hq : p = q
      · simp [hq]
      · simp [hq, Ne.symm hq]
  · rename_i huntracked
    refine ⟨.refl w, rfl, rfl, fun _ _ => rfl, fun q => ⟨fun hq => ⟨hq, ?_⟩, And.left⟩⟩
    rintro rfl
    exact huntracked hq

theorem holding?_modifyProject (w : Workspace) (id : ProjectId) (f : Project → Project)
    (i : ProjectId) : (w.modifyProject id f).holding? i =
      if i = id then (w.projects.get? id).map fun project => (f project).holding
      else w.holding? i := by
  unfold holding? modifyProject
  rw [Table.get?_modify]
  by_cases hi : id = i
  · subst i
    rw [if_pos rfl, if_pos rfl, Option.map_map]
    rfl
  · rw [if_neg hi, if_neg (Ne.symm hi)]

theorem Shifts.quiet (h : Shifts w w') : Quiet w w' := by
  induction h with
  | refl w => exact .refl w
  | trans _ _ ih ih' => exact ih.trans ih'
  | calm h => exact h.toQuiet
  | refreshProject w id => exact (refreshProject_contents w id).1
  | removeProject w id => exact (removeProject_contents w id).1
  | creates h => exact h.quiet
  | amend _ => exact quiet_modifyProject ..

theorem Shifts.lastProject_le (h : Shifts w w') : w.lastProject ≤ w'.lastProject := by
  induction h with
  | refl w => exact Nat.le_refl _
  | trans _ _ ih ih' => exact Nat.le_trans ih ih'
  | calm h => exact Nat.le_of_eq (congrArg Roster.lastProject h.roster).symm
  | refreshProject w id =>
      exact Nat.le_of_eq (congrArg Roster.lastProject (refreshProject_contents w id).2.2.1).symm
  | removeProject w id =>
      obtain ⟨-, hroster, -⟩ := removeProject_contents w id
      rw [← roster_lastProject, ← roster_lastProject, hroster]
      unfold Roster.strike
      split <;> exact Nat.le_refl _
  | creates h =>
      obtain ⟨found, -, -, hroster, -⟩ := h.roster
      rw [← roster_lastProject, ← roster_lastProject, hroster]
      exact Nat.le_succ _
  | amend _ => exact Nat.le_refl _

theorem Evolves.frame (h : Evolves w w') : Frame w w' := by
  induction h with
  | shifts h => exact h.quiet.toFrame
  | trans _ _ ih ih' => exact ih.trans ih'
  | forget _ => exact (forget_contents ..).1

theorem Enlisted.shifts (hw : w.Enlisted) (h : Shifts w w') : w'.Enlisted := by
  induction h with
  | refl w => exact hw
  | trans _ _ ih ih' => exact ih' (ih hw)
  | calm h => exact hw.of_roster h.roster h.keys
  | refreshProject w id =>
      obtain ⟨-, hkeys, hroster, -⟩ := refreshProject_contents w id
      refine ⟨hw.orderly.of_kinds (fun i => ?_) ?_ ?_ ?_, hkeys ▸ hw.distinct⟩
      · rw [hroster]
        simp only [Roster.modify]
        split
        · rw [Option.map_map]
          rfl
        · rfl
      all_goals rw [hroster]; rfl
  | removeProject w id =>
      obtain ⟨-, hroster, hkeys⟩ := removeProject_contents w id
      exact ⟨hroster ▸ hw.orderly.strike id, hkeys.nodup hw.distinct⟩
  | creates h => exact hw.creates h
  | @amend w id f h =>
      refine hw.of_kinds (fun i => ?_) rfl rfl rfl (Table.keys_modify ..)
      rw [holding?_modifyProject]
      split
      · subst i
        unfold holding?
        cases hproject : w.projects.get? id with
        | none => rfl
        | some project => exact congrArg some (h project hproject).1
      · rfl

theorem Enlisted.evolves (hw : w.Enlisted) (h : Evolves w w') : w'.Enlisted := by
  induction h with
  | shifts h => exact hw.shifts h
  | trans _ _ ih ih' => exact ih' (ih hw)
  | forget _ =>
      obtain ⟨-, hroster, hkeys, -⟩ := forget_contents ..
      exact hw.of_roster hroster hkeys

theorem Current.shifts (hw : Current first w) (h : Shifts w w') : Current first w' := by
  induction h with
  | refl w => exact hw
  | trans _ _ ih ih' => exact ih' (ih hw)
  | calm h =>
      refine hw.of_quiet h.toQuiet fun id h' _ hh' => .inl ?_
      rw [← roster_holding?, ← h.roster]
      exact hh'
  | refreshProject w id =>
      obtain ⟨hquiet, -, hroster, htracked⟩ := refreshProject_contents w id
      refine hw.of_quiet hquiet fun i h' hi hh' => ?_
      rw [← roster_holding?, hroster] at hh'
      simp only [Roster.modify] at hh'
      split at hh'
      · subst i
        obtain ⟨held, hheld, rfl⟩ := Option.map_eq_some_iff.mp hh'
        have hroots := hw.rooted id held hi hheld
        refine .inr ⟨fun p hp => hquiet.tracked p (hroots p hp), fun _ => ⟨htracked held hheld, ?_⟩⟩
        exact (fileSet_of_quiet hquiet hroots).symm
      · exact .inl hh'
  | removeProject w id =>
      obtain ⟨hquiet, hroster, -⟩ := removeProject_contents w id
      refine hw.of_quiet hquiet fun i h' _ hh' => .inl ?_
      rw [← roster_holding?, hroster, Roster.holding?_strike] at hh'
      split at hh'
      · simp at hh'
      · exact hh'
  | creates h => exact hw.creates h
  | @amend w id f h =>
      refine hw.of_quiet (quiet_modifyProject ..) fun i h' hi hh' => ?_
      rw [holding?_modifyProject] at hh'
      split at hh'
      · subst i
        obtain ⟨project, hproject, rfl⟩ := Option.map_eq_some_iff.mp hh'
        have hheld : w.holding? id = some project.holding := by simp [holding?, hproject]
        rcases (h project hproject).2.2 with hsame | ⟨hstale, hroots⟩
        · exact .inl (hsame ▸ hheld)
        · refine .inr ⟨fun p hp => ?_, fun hfresh => ?_⟩
          · exact (hroots p hp).elim (hw.rooted id _ hi hheld p) fun htracked => htracked
          · have hstale' : (f project).holding.isStale = true := hstale
            simp [hstale'] at hfresh
      · exact .inl hh'

theorem Current.evolves (hw : Current first w) (h : Evolves w w') : Current first w' := by
  induction h with
  | shifts h => exact hw.shifts h
  | trans _ _ ih ih' => exact ih' (ih hw)
  | @forget w p h =>
      obtain ⟨hframe, hroster, -, htexts, htracked⟩ := forget_contents w p
      have hholding : (w.forget p).holding? = w.holding? := congrArg Roster.holding? hroster
      by_cases hp : w.isTracked p
      · refine hw.of_unasked p hframe.scanner htexts fun id held hid hheld => ?_
        rw [hholding] at hheld
        have hfree := h id held hheld
        have hne : ∀ q, held.Contains q → q ≠ p := fun q hq hqp => hfree (hqp ▸ hq)
        refine ⟨held, hheld, fun q hq => (htracked q).mpr
          ⟨hw.rooted id held hid hheld q hq, hne q (.inr hq)⟩, fun hstale => ⟨rfl, ?_, fun q hq =>
            (htracked q).mpr ⟨hw.tracked id held hid hheld hstale q hq, hne q (.inl hq)⟩⟩⟩
        exact hw.not_asks hid hheld hstale (isSome_texts hp) fun hmem => hfree (.inl hmem)
      · have hsame : w.forget p = w := by
          unfold forget
          rw [if_neg hp]
        rw [hsame]
        exact hw

end Workspace

end ProjectTracker
