import ProjectTracker.Proofs.Workspace.Grounding
import ProjectTracker.Proofs.Workspace.Lasting
/-!
Why a project has the files that it has. Unless it is stale its roots lead to each of them by way of its own files,
which are tracked, and whose texts are those that the files were found by. Nothing that happens elsewhere thus takes
a file away from it.
-/

namespace ProjectTracker.Workspace

variable {w w' : Workspace} {p : Path} {id : ProjectId} {held : Holding} {roots files : List Path}

/-! ### Texts of tracked files -/

def trackedText? (w : Workspace) (p : Path) : Option Text :=
  (w.documents.get? p).map (·.text)

theorem trackedText?_eq (h : w.isTracked p) : w.trackedText? p = w.texts p := by
  obtain ⟨d, hd⟩ := isTracked_iff.mp h
  simp [trackedText?, texts_eq, hd]

theorem isTracked_of_trackedText? (h : (w.trackedText? p).isSome) : w.isTracked p := by
  rw [isTracked_eq]
  simpa [trackedText?] using h

/-- The texts of the tracked ones among some files. -/
def textsOf (w : Workspace) (files : List Path) : Sources where
  paths := files
  text? p := if p ∈ files then w.trackedText? p else none

theorem textsOf_congr (h : ∀ p ∈ files, w'.trackedText? p = w.trackedText? p) :
    w'.textsOf files = w.textsOf files := by
  unfold textsOf
  congr 1
  funext p
  split
  · exact h p ‹_›
  · rfl

/-- Roots lead to files by the texts of these files alone. -/
def Traces (w : Workspace) (roots files : List Path) : Prop :=
  ∀ p ∈ files, w.scanner.Reaches (w.textsOf files) roots p

theorem Traces.isTracked (h : w.Traces roots files) (hp : p ∈ files) : w.isTracked p := by
  have hread := (h p hp).isSome
  simp only [textsOf, if_pos hp] at hread
  exact isTracked_of_trackedText? hread

theorem Traces.congr (h : w.Traces roots files) (hscanner : w'.scanner = w.scanner)
    (htexts : ∀ p ∈ files, w'.trackedText? p = w.trackedText? p) : w'.Traces roots files := by
  unfold Traces
  rwa [hscanner, textsOf_congr htexts]

theorem Traces.quiet (h : w.Traces roots files) (hquiet : Quiet w w') : w'.Traces roots files := by
  refine h.congr hquiet.scanner fun p hp => ?_
  have htracked := h.isTracked hp
  rw [trackedText?_eq htracked, trackedText?_eq (hquiet.tracked p htracked), hquiet.texts]

/-- The texts of tracked files are all that can be read of them. -/
theorem Traces.reaches (h : w.Traces roots files) (hp : p ∈ files) :
    w.scanner.Reaches w.sources roots p := by
  refine (h p hp).mono fun q text htext => ?_
  simp only [textsOf] at htext
  split at htext
  · have htracked : w.isTracked q := isTracked_of_trackedText? (by simp [htext])
    rw [trackedText?_eq htracked] at htext
    exact htext
  · simp at htext

/-- Files that were just found, and that are tracked then. -/
theorem traces_fileSet (hroots : ∀ p ∈ roots, w.isTracked p) (hquiet : Quiet w w')
    (htracked : ∀ p ∈ w.scanner.fileSet w.sources roots, w'.isTracked p) :
    w'.Traces roots (w.scanner.fileSet w.sources roots) := by
  have hmem {p : Path} : p ∈ w.scanner.fileSet w.sources roots ↔ w.scanner.Reaches w.sources roots p :=
    Scanner.mem_fileSet_iff (covers_sources w) fun p hp => .inl (hroots p hp)
  have htext {p : Path} (hp : w.scanner.Reaches w.sources roots p) :
      (w'.textsOf (w.scanner.fileSet w.sources roots)).text? p = w.sources.text? p := by
    have hfound := hmem.mpr hp
    simp only [textsOf, if_pos hfound, trackedText?_eq (htracked p hfound), hquiet.texts]
    rfl
  intro p hp
  rw [hquiet.scanner]
  -- what a file refers to is found with it
  induction hmem.mp hp with
  | root hroot hread => exact .root hroot (by rw [htext (.root hroot hread)]; exact hread)
  | @link q p hq hlink hread ih =>
      refine .link (ih (hmem.mpr hq)) ?_ (by rw [htext (hq.link hlink hread)]; exact hread)
      unfold Scanner.links at hlink ⊢
      rwa [htext hq]

/-! ### What steps keep -/

/-- The roots of each project that is not stale lead to its files by way of these. -/
def Traced (w : Workspace) : Prop :=
  ∀ id held, w.holding? id = some held → held.isStale = false → w.Traces held.roots held.files

/-- Each project that is not stale holds what it held, or has its files traced anew. -/
theorem Traced.of_holding (h : w.Traced) (hkept : ∀ roots files, w.Traces roots files → w'.Traces roots files)
    (hheld : ∀ id held, w'.holding? id = some held → held.isStale = false →
      w.holding? id = some held ∨ w'.Traces held.roots held.files) : w'.Traced :=
  fun id held hid hstale =>
    (hheld id held hid hstale).elim (fun hid => hkept _ _ (h id held hid hstale)) fun htraces => htraces

theorem Traced.shifts (h : w.Traced) (hgrounded : Grounded False w) (hsteps : Shifts w w') : w'.Traced := by
  have hsame {w w' : Workspace} (h : w.Traced) (hquiet : Quiet w w')
      (hheld : ∀ id held, w'.holding? id = some held → held.isStale = false →
        w.holding? id = some held ∨ w'.Traces held.roots held.files) : w'.Traced :=
    h.of_holding (fun _ _ htraces => htraces.quiet hquiet) hheld
  induction hsteps with
  | refl w => exact h
  | trans hsteps _ ih ih' => exact ih' (ih h hgrounded) (hgrounded.shifts hsteps)
  | calm hcalm =>
      refine hsame h hcalm.toQuiet fun id held hid _ => .inl ?_
      rwa [← roster_holding?, ← hcalm.roster]
  | refreshProject w id =>
      obtain ⟨hquiet, -, hroster, htracked⟩ := refreshProject_contents w id
      refine hsame h hquiet fun i held hi _ => ?_
      rw [← roster_holding?, hroster] at hi
      simp only [Roster.modify] at hi
      split at hi
      · obtain ⟨former, hformer, rfl⟩ := Option.map_eq_some_iff.mp hi
        subst i
        exact .inr (traces_fileSet (hgrounded.roots id former hformer) hquiet (htracked former hformer))
      · exact .inl hi
  | removeProject w id =>
      obtain ⟨hquiet, hroster, -⟩ := removeProject_contents w id
      refine hsame h hquiet fun i held hi _ => .inl ?_
      rw [← roster_holding?, hroster, Roster.holding?_strike] at hi
      split at hi
      · simp at hi
      · exact hi
  | creates hcreates =>
      obtain ⟨found, -, hfound, hroster, hroots, htracked⟩ := hcreates.roster
      refine hsame h hcreates.quiet fun i held hi _ => ?_
      rw [← roster_holding?, hroster] at hi
      simp only [Roster.enroll] at hi
      split at hi
      · obtain rfl := Option.some.inj hi
        exact .inr (traces_fileSet hroots hfound htracked)
      · exact .inl hi
  | @amend w id f hamends =>
      -- a project that comes to hold something else is stale from then on
      refine hsame h (quiet_modifyProject ..) fun i held hi hstale => .inl ?_
      rw [holding?_modifyProject] at hi
      split at hi
      · subst i
        obtain ⟨project, hproject, rfl⟩ := Option.map_eq_some_iff.mp hi
        rcases (hamends project hproject).2.2 with hsame | ⟨hstaled, -⟩
        · simp [holding?, hproject, hsame]
        · have hstaled : (f project).holding.isStale = true := hstaled
          simp [hstaled] at hstale
      · exact hi

/-- A project that does not contain the one file whose text changes does not notice. -/
theorem Traced.of_apart (h : w.Traced) (hscanner : w'.scanner = w.scanner)
    (htexts : ∀ q ≠ p, w'.trackedText? q = w.trackedText? q)
    (hheld : ∀ id held, w'.holding? id = some held → held.isStale = false →
      w.holding? id = some held ∧ p ∉ held.files) : w'.Traced := by
  intro id held hid hstale
  obtain ⟨hid, hapart⟩ := hheld id held hid hstale
  refine (h id held hid hstale).congr hscanner fun q hq => htexts q ?_
  rintro rfl
  exact hapart hq

theorem trackedText?_forget {q : Path} (hq : q ≠ p) : (w.forget p).trackedText? q = w.trackedText? q := by
  unfold trackedText?
  rw [get?_forget, if_neg hq.symm, get?_unwatch, if_neg hq.symm]

theorem Traced.evolves (h : w.Traced) (hgrounded : Grounded True w) (hsteps : Evolves w w') : w'.Traced := by
  induction hsteps with
  | shifts hshifts => exact h.shifts hgrounded.weaken hshifts
  | trans hsteps _ ih ih' => exact ih' (ih h hgrounded) (hgrounded.evolves hsteps)
  | @forget w p hfree =>
      obtain ⟨hframe, hroster, -⟩ := forget_contents w p
      refine h.of_apart hframe.scanner (fun q hq => trackedText?_forget hq) fun id held hid _ => ?_
      rw [← roster_holding?, hroster] at hid
      exact ⟨hid, fun hp => hfree id held hid (.inl hp)⟩

theorem Traced.dropFile (h : w.Traced) (p : Path) : (w.dropFile p).Traced := by
  have hdocuments : (w.dropFile p).documents = (w.forget p).documents := by
    have hstep (w : Workspace) (id : ProjectId) :
        (w.modifyProject id fun project => (project.removeRoot p).markStale).documents = w.documents := rfl
    exact documents_foldl hstep _ _
  have hscanner : (w.dropFile p).scanner = w.scanner :=
    (shifts_dropFile w p).quiet.scanner.trans (forget_contents w p).1.scanner
  refine h.of_apart (p := p) hscanner (fun q hq => ?_) fun id held hid hstale => ?_
  · rw [trackedText?, hdocuments]
    exact trackedText?_forget hq
  · obtain ⟨former, hformer, ⟨rfl, hfree⟩ | ⟨hstaled, -⟩⟩ := holding?_dropFile hid
    · exact ⟨hformer, fun hp => hfree (.inl hp)⟩
    · simp [hstaled] at hstale

theorem Traced.turnover (h : w.Traced) (hgrounded : Grounded True w) (hsteps : Turnover w w') :
    w'.Traced := by
  induction hsteps with
  | evolves hevolves => exact h.evolves hgrounded hevolves
  | trans hsteps _ ih ih' => exact ih' (ih h hgrounded) (hgrounded.turnover hsteps)
  | same hscanner hdocuments hroster _ =>
      refine h.of_holding (fun _ _ htraces => htraces.congr hscanner fun p _ => ?_)
        fun id held hid _ => .inl ?_
      · unfold trackedText?
        rw [hdocuments]
      · rwa [← roster_holding?, ← hroster]
  | rewrite w p f =>
      refine h.of_apart (p := p) rfl (fun q hq => ?_) fun id held hid hstale => ?_
      · have hget : ((w.modifyDocument p f).markStaleAround p).documents.get? q = w.documents.get? q :=
          (get?_modifyDocument w p q f).trans (if_neg hq.symm)
        unfold trackedText?
        rw [hget]
      · obtain ⟨former, hformer, -, -, hfresh⟩ := holding?_markStaleAround hid
        obtain ⟨rfl, hfree⟩ := hfresh hstale
        exact ⟨hformer, fun hp => hfree (.inl hp)⟩
  | @track w p huntracked text =>
      -- what is traced is tracked, so a file that was not is in no project that is not stale
      refine h.of_apart (p := p) rfl (fun q hq => ?_) fun id held hid hstale => ⟨hid, fun hp => ?_⟩
      · unfold trackedText?
        rw [w.get?_track hq]
      · simp [(h id held hid hstale).isTracked hp] at huntracked
  | drop w p => exact (h.dropFile p).shifts (hgrounded.dropFile p) (shifts_refresh _)

/-! ### Runs -/

/-- The roots of each project that is not stale lead to all its files, by way of these files alone, and whatever has
become of the files that are not tracked. -/
theorem traced_run (settings : Settings) (scanner : Scanner) (fs : FileSystem) (ops : List Operation) :
    let w := ({ settings, scanner, fs } : Workspace).run ops
    Grounded True w ∧ w.Traced := by
  have hkept (w w' : Workspace) (hsteps : Turnover w w') (h : Grounded True w ∧ w.Traced) :
      Grounded True w' ∧ w'.Traced := ⟨h.1.turnover hsteps, h.2.turnover h.1 hsteps⟩
  refine run_turnover hkept settings scanner fs ⟨⟨?_, ?_⟩, ?_⟩ ops
  all_goals
    intro id held hheld
    cases hheld

end ProjectTracker.Workspace
