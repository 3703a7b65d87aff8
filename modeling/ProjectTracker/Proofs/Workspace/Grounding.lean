import ProjectTracker.Proofs.Workspace.Settlement
import ProjectTracker.Proofs.Workspace.Turnover
/-!
What projects contain and what is tracked go together. Whatever a project contains is tracked, even if its files
have changed since it looked for them; and once documents were given their places nothing is tracked any more
that is neither open nor contained in a project.
-/

namespace ProjectTracker.Workspace

variable {strict : Prop} {w w' received : Workspace} {p : Path} {id : ProjectId}

/-! ### What projects contain -/

/-- The roots of projects are tracked, and so are their files: strictly all of them, or else those of the
projects that are not stale. -/
structure Grounded (strict : Prop) (w : Workspace) : Prop where
  roots : ∀ id held, w.holding? id = some held → ∀ p ∈ held.roots, w.isTracked p
  files : ∀ id held, w.holding? id = some held → (held.isStale → strict) →
    ∀ p ∈ held.files, w.isTracked p

theorem Grounded.weaken (h : Grounded True w) : Grounded strict w :=
  ⟨h.roots, fun id held hheld _ => h.files id held hheld fun _ => trivial⟩

/-- Tracked documents still are, and each project is grounded anew or holds nothing new. -/
theorem Grounded.of_holding (h : Grounded strict w) (htracked : ∀ p, w.isTracked p → w'.isTracked p)
    (hheld : ∀ id held', w'.holding? id = some held' →
      (∃ held, w.holding? id = some held ∧ (∀ p ∈ held'.roots, p ∈ held.roots ∨ w'.isTracked p) ∧
        held'.files = held.files ∧ (held.isStale → held'.isStale)) ∨
      ∀ p, held'.Contains p → w'.isTracked p) : Grounded strict w' where
  roots id held' hheld' p hp := by
    rcases hheld id held' hheld' with ⟨held, hsame, hroots, -, -⟩ | hnew
    · exact (hroots p hp).elim (fun hp => htracked p (h.roots id held hsame p hp)) fun hp => hp
    · exact hnew p (.inr hp)
  files id held' hheld' hstale p hp := by
    rcases hheld id held' hheld' with ⟨held, hsame, -, hfiles, hstaled⟩ | hnew
    · exact htracked p (h.files id held hsame (fun hs => hstale (hstaled hs)) p (hfiles ▸ hp))
    · exact hnew p (.inl hp)

/-- The projects hold what they held. -/
theorem Grounded.of_eq (h : Grounded strict w) (hholding : w'.holding? = w.holding?)
    (htracked : ∀ p, w.isTracked p → w'.isTracked p) : Grounded strict w' :=
  h.of_holding htracked fun _ held' hheld' =>
    .inl ⟨held', hholding ▸ hheld', fun _ hp => .inl hp, rfl, fun hs => hs⟩

theorem Grounded.shifts (h : Grounded strict w) (hsteps : Shifts w w') : Grounded strict w' := by
  induction hsteps with
  | refl w => exact h
  | trans _ _ ih ih' => exact ih' (ih h)
  | calm hcalm => exact h.of_eq (congrArg Roster.holding? hcalm.roster) hcalm.tracked
  | refreshProject w id =>
      obtain ⟨hquiet, -, hroster, hfound⟩ := refreshProject_contents w id
      refine h.of_holding hquiet.tracked fun i held' hheld' => ?_
      rw [← roster_holding?, hroster] at hheld'
      simp only [Roster.modify] at hheld'
      split at hheld'
      · subst i
        obtain ⟨held, hheld, rfl⟩ := Option.map_eq_some_iff.mp hheld'
        refine .inr fun p hp => ?_
        rcases hp with hp | hp
        · exact hfound held hheld p hp
        · exact hquiet.tracked p (h.roots id held hheld p hp)
      · exact .inl ⟨held', hheld', fun _ hp => .inl hp, rfl, fun hs => hs⟩
  | removeProject w id =>
      obtain ⟨hquiet, hroster, -⟩ := removeProject_contents w id
      refine h.of_holding hquiet.tracked fun i held' hheld' => ?_
      rw [← roster_holding?, hroster, Roster.holding?_strike] at hheld'
      split at hheld'
      · simp at hheld'
      · exact .inl ⟨held', hheld', fun _ hp => .inl hp, rfl, fun hs => hs⟩
  | creates hcreates =>
      obtain ⟨found, -, hfound, hroster, hroots, htracked⟩ := hcreates.roster
      refine h.of_holding hcreates.quiet.tracked fun i held' hheld' => ?_
      rw [← roster_holding?, hroster] at hheld'
      simp only [Roster.enroll] at hheld'
      split at hheld'
      · obtain rfl := Option.some.inj hheld'
        refine .inr fun p hp => ?_
        rcases hp with hp | hp
        · exact htracked p hp
        · exact hfound.tracked p (hroots p hp)
      · exact .inl ⟨held', hheld', fun _ hp => .inl hp, rfl, fun hs => hs⟩
  | @amend w id f hamends =>
      refine h.of_holding (quiet_modifyProject ..).tracked fun i held' hheld' => ?_
      rw [holding?_modifyProject] at hheld'
      split at hheld'
      · subst i
        obtain ⟨project, hproject, rfl⟩ := Option.map_eq_some_iff.mp hheld'
        obtain ⟨-, hfiles, hcases⟩ := hamends project hproject
        refine .inl ⟨project.holding, by simp [holding?, hproject], ?_⟩
        rcases hcases with hsame | ⟨hstale, hroots⟩
        · rw [hsame]
          exact ⟨fun _ hp => .inl hp, rfl, fun hs => hs⟩
        · exact ⟨hroots, hfiles, fun _ => hstale⟩
      · exact .inl ⟨held', hheld', fun _ hp => .inl hp, rfl, fun hs => hs⟩

/-- What is forgotten on the way no project contains. -/
theorem Grounded.evolves (h : Grounded strict w) (hsteps : Evolves w w') : Grounded strict w' := by
  induction hsteps with
  | shifts hshifts => exact h.shifts hshifts
  | trans _ _ ih ih' => exact ih' (ih h)
  | @forget w p hfree =>
      obtain ⟨-, hroster, -, -, htracked⟩ := forget_contents w p
      have hholding : (w.forget p).holding? = w.holding? := congrArg Roster.holding? hroster
      have hne (id : ProjectId) (held : Holding) (hheld : w.holding? id = some held) (q : Path)
          (hq : held.Contains q) : q ≠ p := by
        rintro rfl
        exact hfree id held hheld hq
      constructor
      · intro id held hheld q hq
        rw [hholding] at hheld
        exact (htracked q).mpr ⟨h.roots id held hheld q hq, hne id held hheld q (.inr hq)⟩
      · intro id held hheld hstale q hq
        rw [hholding] at hheld
        exact (htracked q).mpr ⟨h.files id held hheld hstale q hq, hne id held hheld q (.inl hq)⟩

/-- Where no project is stale nothing is missing. -/
theorem Grounded.refresh (h : Grounded False w) : Grounded True w.refresh := by
  have hrefreshed := h.shifts (shifts_refresh w)
  refine ⟨hrefreshed.roots, fun id held hheld _ p hp => hrefreshed.files id held hheld ?_ p hp⟩
  intro hstale
  simp [fresh_refresh w id held hheld] at hstale

/-- A file that is gone is no root any more, and no file of a project that is not stale. -/
theorem Grounded.dropFile (h : Grounded True w) (p : Path) : Grounded False (w.dropFile p) := by
  obtain ⟨-, hroster, -, -, htracked⟩ := forget_contents w p
  have hkept (q : Path) (hq : w.isTracked q) (hne : q ≠ p) :=
    (shifts_dropFile w p).quiet.tracked q ((htracked q).mpr ⟨hq, hne⟩)
  constructor
  · intro id held hid q hq
    obtain ⟨former, hformer, ⟨rfl, hfree⟩ | ⟨-, hroots⟩⟩ := holding?_dropFile hid
    · refine hkept q (h.roots id held hformer q hq) ?_
      rintro rfl
      exact hfree (.inr hq)
    · rw [hroots] at hq
      obtain ⟨hq, hne⟩ := List.mem_filter.mp hq
      exact hkept q (h.roots id former hformer q hq) (by simpa using hne)
  · intro id held hid hstale q hq
    obtain ⟨former, hformer, ⟨rfl, hfree⟩ | ⟨hstale', -⟩⟩ := holding?_dropFile hid
    · refine hkept q (h.files id held hformer (fun _ => trivial) q hq) ?_
      rintro rfl
      exact hfree (.inl hq)
    · exact (hstale hstale').elim

/-- Finding the files of the stale projects makes up for those that are gone. -/
theorem Grounded.turnover (h : Grounded True w) (hsteps : Turnover w w') : Grounded True w' := by
  induction hsteps with
  | evolves hevolves => exact h.evolves hevolves
  | trans _ _ ih ih' => exact ih' (ih h)
  | same _ hdocuments hroster _ =>
      refine h.of_eq (congrArg Roster.holding? hroster) fun q hq => ?_
      rw [isTracked_eq] at hq ⊢
      rwa [hdocuments]
  | rewrite w p f =>
      refine h.of_holding (fun q hq => (isTracked_modifyDocument w p q f).trans hq)
        fun id held' hheld' => ?_
      obtain ⟨former, hformer, hroots, hfiles, hfresh⟩ := holding?_markStaleAround hheld'
      refine .inl ⟨former, hformer, fun _ hq => .inl (hroots ▸ hq), hfiles, fun hstale => ?_⟩
      by_contra hne
      simp [(hfresh (Bool.eq_false_iff.mpr hne)).1, hstale] at hne
  | @track w p _ text =>
      refine h.of_eq rfl fun q hq => ?_
      by_cases hqp : q = p
      · subst q
        exact isTracked_track ..
      · rw [isTracked_eq] at hq ⊢
        rwa [w.get?_track hqp]
  | drop w p => exact (h.dropFile p).refresh

theorem Grounded.contains (h : Grounded True w) (hp : w.projectHas id (·.contains p)) :
    w.isTracked p := by
  obtain ⟨held, hheld, hp⟩ := projectHas_contains.mp hp
  rcases hp with hp | hp
  · exact h.files id held hheld (fun _ => trivial) p hp
  · exact h.roots id held hheld p hp

theorem grounded_run (settings : Settings) (scanner : Scanner) (fs : FileSystem) (ops : List Operation) :
    Grounded True (({ settings, scanner, fs } : Workspace).run ops) := by
  refine run_turnover (fun _ _ hsteps h => h.turnover hsteps) settings scanner fs ⟨?_, ?_⟩ ops
  · intro id held hheld
    cases hheld
  · intro id held hheld
    cases hheld

/-! ### What is tracked -/

/-- Every tracked document is open, or a live project contains it. -/
def Needed (w : Workspace) : Prop :=
  ∀ p, w.isTracked p → w.isOpen p ∨ ∃ id, w.projectHas id (·.contains p)

theorem needed_iff : w.Needed ↔ ∀ p ∈ w.documents.paths,
    w.isOpen p ∨ ∃ id ∈ w.projects.keys, w.projectHas id (·.contains p) := by
  have hlive {id : ProjectId} {p : Path} (h : w.projectHas id (·.contains p)) :
      id ∈ w.projects.keys := by
    obtain ⟨project, hproject, -⟩ := Option.any_eq_true .. |>.mp h
    exact Table.mem_keys_iff.mpr (by simp [hproject])
  constructor
  · intro h p hp
    refine (h p (mem_paths_iff.mp hp)).imp_right ?_
    rintro ⟨id, hid⟩
    exact ⟨id, hlive hid, hid⟩
  · intro h p hp
    refine (h p (mem_paths_iff.mpr hp)).imp_right ?_
    rintro ⟨id, -, hid⟩
    exact ⟨id, hid⟩

instance (w : Workspace) : Decidable w.Needed :=
  decidable_of_iff _ needed_iff.symm

theorem Needed.emit (h : w.Needed) (e : Event) : (w.emit e).Needed :=
  h

theorem needed_sweep (hkeys : w.projects.keys.Nodup) : w.sweep.Needed := by
  intro p hp
  have hholding : w.sweep.holding? = w.holding? := congrArg Roster.holding? (roster_sweep w)
  rcases isTracked_sweep hkeys hp with hopen | ⟨id, hid⟩
  · have hswept : Proceeds False (fun _ => True) w w.sweep := proceeds_sweep w
    exact .inl ((congrFun hswept.isOpen p).trans hopen)
  · refine .inr ⟨id, ?_⟩
    rw [projectHas_contains, hholding]
    exact projectHas_contains.mp hid

/-- Settling ends with a sweep, as do opening and closing. -/
theorem needed_settle (hw : w.Enlisted) : w.settle.Needed :=
  needed_sweep (hw.shifts (shifts_settling w)).distinct

theorem needed_lodge (hw : w.Enlisted) (hp : w.isTracked p) : (w.lodge p).Needed :=
  needed_sweep (hw.shifts (shifts_lodging hp)).distinct

/-- A file that is not open cannot be opened, and nothing changes, or nothing is tracked any more that is not
needed. -/
theorem openFile_needed (hw : w.Enlisted) (p : Path) (text? : Option Text)
    (hclosed : w.isOpen (w.normalize p) = false) :
    (∃ failure, w.openFile p text? = (w, .error failure)) ∨
      (∃ id?, (w.openFile p text?).2 = .ok id?) ∧ (w.openFile p text?).1.Needed := by
  unfold openFile
  dsimp only
  cases hreceive : w.receive (w.normalize p) text? with
  | error failure => exact .inl ⟨failure, rfl⟩
  | ok received =>
      refine .inr ⟨⟨_, rfl⟩, Needed.emit ?_ _⟩
      rw [if_neg (Bool.eq_false_iff.mp hclosed)]
      have hopened : Enlisted (received.modifyDocument (w.normalize p) fun d => { d with isOpen := true }) :=
        (hw.turnover (turnover_receive hreceive)).of_roster rfl rfl
      refine needed_lodge hopened ?_
      exact (isTracked_modifyDocument ..).trans (receive_eq hreceive).2

theorem closeFile_needed (hw : w.Enlisted) (p : Path) (hopen : w.isOpen (w.normalize p)) :
    (∃ failure, w.closeFile p = (w, .error failure)) ∨
      (w.closeFile p).2 = .ok () ∧ (w.closeFile p).1.Needed := by
  obtain ⟨d, hd⟩ := isTracked_iff.mp (isTracked_of_isOpen hopen)
  have hdo : d.isOpen := by
    rw [isOpen, hd] at hopen
    exact hopen
  unfold closeFile
  dsimp only
  rw [hd]
  dsimp only
  rw [if_pos hdo]
  cases w.textOnDisk (w.normalize p) with
  | error failure => exact .inl ⟨_, rfl⟩
  | ok text =>
      dsimp only
      refine .inr ⟨rfl, ?_⟩
      obtain ⟨left, owner?, hleft, heq⟩ := close_cases w (w.normalize p) text
      rw [heq]
      exact needed_settle (hw.turnover (turnover_left hleft _))

/-- A file that a project does not contain any more stays as it is found, and so it does where another file cannot be
opened. -/
theorem not_needed_openFile :
    let path (name : String) : Path := ⟨[.root, .name name]⟩
    let fs := FileSystem.ofFiles [(path "a", "@b".toList), (path "b", [])]
    let w := ({ settings := {}, scanner := signScanner, fs } : Workspace).run
      [.openFile (path "a") none, .changeFile (path "a") [⟨0, 2, []⟩], .projectFor (path "b")]
    w.isOpen (w.normalize (path "c")) = false ∧ ¬(w.openFile (path "c") none).1.Needed := by
  decide +kernel

/-- In every state all that projects contain is tracked. After a settling, after each file that is opened and each
open one that is closed, all that is tracked is needed; where a file cannot be opened or closed nothing
changes. -/
theorem tracked_run (settings : Settings) (scanner : Scanner) (fs : FileSystem)
    (ops : List Operation) :
    let w := ({ settings, scanner, fs } : Workspace).run ops
    (∀ id project, w.projects.get? id = some project →
      ∀ p, p ∈ project.roots ∨ p ∈ project.files → w.isTracked p) ∧
    w.settle.Needed ∧
    (∀ p text?, w.isOpen (w.normalize p) = false →
      (∃ failure, w.openFile p text? = (w, .error failure)) ∨
        (∃ id?, (w.openFile p text?).2 = .ok id?) ∧ (w.openFile p text?).1.Needed) ∧
    ∀ p, w.isOpen (w.normalize p) →
      (∃ failure, w.closeFile p = (w, .error failure)) ∨
        (w.closeFile p).2 = .ok () ∧ (w.closeFile p).1.Needed := by
  intro w
  have hw : w.Enlisted := enlisted_run
  refine ⟨fun id project hproject p hp => ?_, needed_settle hw, openFile_needed hw, closeFile_needed hw⟩
  have hhas : w.projectHas id (·.contains p) := by
    simpa [projectHas, hproject, Project.contains, Project.isRoot] using hp.symm
  exact (grounded_run settings scanner fs ops).contains hhas

end ProjectTracker.Workspace
