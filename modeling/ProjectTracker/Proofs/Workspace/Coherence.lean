import ProjectTracker.Proofs.Workspace.Evolution
import ProjectTracker.Proofs.Workspace.Runs
/-!
Which files projects have as documents are opened, edited and closed. A text that becomes another one makes
the projects stale that contain its file. That leaves one gap: a file that could not be read until it is
opened with a text, and that no project contains though some refer to it.
-/

namespace ProjectTracker

namespace Workspace

variable {w w' received : Workspace} {first id : ProjectId} {p : Path} {coherent : Prop}
  {n : Normalizer}

/-! ### What every step keeps -/

/-- The lists of projects are right. Where it is asked for, the projects that are not stale have the files that their
roots lead to. -/
structure Steady (coherent : Prop) (n : Normalizer) (w : Workspace) : Prop where
  enlisted : w.Enlisted
  normalizer : w.normalizer = n
  current : coherent → Current 0 w

theorem Steady.evolves (h : Steady coherent n w) (hsteps : Evolves w w') : Steady coherent n w' :=
  ⟨h.enlisted.evolves hsteps, hsteps.frame.normalizer.trans h.normalizer, fun hc =>
    (h.current hc).evolves hsteps⟩

theorem Steady.calm (h : Steady coherent n w) (hcalm : Calm w w') : Steady coherent n w' :=
  h.evolves (.shifts (.calm hcalm))

/-- Neither the clock nor the lists of open documents matter. -/
theorem Steady.of_eq (h : Steady coherent n w) (hscanner : w'.scanner = w.scanner) (hfs : w'.fs = w.fs)
    (hdocuments : w'.documents = w.documents) (hprojects : w'.projects = w.projects)
    (hlast : w'.lastProject = w.lastProject) (hinferred : w'.inferred = w.inferred)
    (hconfigured : w'.configured = w.configured) : Steady coherent n w' := by
  obtain ⟨henlisted, hnormalizer, hcurrent⟩ := h
  have hholding : w'.holding? = w.holding? := by
    unfold holding?
    rw [hprojects]
  have htexts : w'.sources = w.sources := by
    unfold sources
    rw [hdocuments, hfs]
  have htracked : w'.isTracked = w.isTracked := by
    unfold isTracked
    rw [hdocuments]
  refine ⟨henlisted.of_kinds (fun id => by rw [hholding]) hinferred hconfigured hlast (by
    rw [hprojects]), ?_, fun hc => ?_⟩
  · unfold Workspace.normalizer at hnormalizer ⊢
    rwa [hscanner]
  · obtain ⟨hrooted, htrackedFiles, hfiles⟩ := hcurrent hc
    constructor
    · rwa [hholding, htracked]
    · rwa [hholding, htracked]
    · rwa [hholding, hscanner, htexts]

theorem steady_schedule (h : Steady coherent n w) (task : Task) (delay : Nat) :
    Steady coherent n (w.schedule task delay) :=
  h.of_eq rfl rfl rfl rfl rfl rfl rfl

theorem steady_textChanged (h : Steady coherent n w) : Steady coherent n w.textChanged :=
  h.of_eq rfl rfl rfl rfl rfl rfl rfl

/-! ### Texts -/

/-- Projects that contain a file are stale once they are marked, and the others are what they were. -/
theorem holding?_markStaleAround {held : Holding}
    (h : (w.markStaleAround p).holding? id = some held) : ∃ former, w.holding? id = some former ∧
      held.roots = former.roots ∧ held.files = former.files ∧
        (held.isStale = false → held = former ∧ ¬held.Contains p) := by
  unfold markStaleAround holding? at h
  rw [Table.get?_map, Option.map_map] at h
  obtain ⟨project, hproject, rfl⟩ := Option.map_eq_some_iff.mp h
  refine ⟨project.holding, by simp [holding?, hproject], ?_⟩
  simp only [Function.comp_apply]
  split
  · exact ⟨rfl, rfl, fun hstale => by simp [Project.markStale, Project.holding] at hstale⟩
  · rename_i hcontains
    exact ⟨rfl, rfl, fun _ => ⟨rfl, fun hheld => hcontains (Project.contains_iff.mpr hheld)⟩⟩

theorem enlisted_markStaleAround (h : w.Enlisted) (p : Path) : (w.markStaleAround p).Enlisted := by
  refine h.of_kinds (fun id => ?_) rfl rfl rfl (Table.keys_map ..)
  unfold markStaleAround holding?
  rw [Table.get?_map, Option.map_map, Option.map_map, Option.map_map]
  congr 1
  funext project
  simp only [Function.comp_apply]
  split <;> rfl

/-- The text of a tracked file becomes another one. The projects that ask for the file contain it, so that
they are stale from then on. -/
theorem Steady.rewrite (h : Steady coherent n w) (htracked : w.isTracked p)
    (f : Document → Document) : Steady coherent n ((w.modifyDocument p f).markStaleAround p) := by
  have hmodified : (w.modifyDocument p f).Enlisted := ⟨h.enlisted.orderly, h.enlisted.distinct⟩
  refine ⟨enlisted_markStaleAround hmodified p, h.normalizer, fun hc => ?_⟩
  have hcurrent := h.current hc
  have hkept (q : Path) :
      ((w.modifyDocument p f).markStaleAround p).isTracked q = w.isTracked q :=
    isTracked_modifyDocument w p q f
  refine hcurrent.of_unasked p rfl (fun q hq => ?_) fun id held hid hheld => ?_
  · rw [texts_eq, texts_eq]
    have hget : ((w.modifyDocument p f).markStaleAround p).documents.get? q =
        w.documents.get? q :=
      (get?_modifyDocument w p q f).trans (if_neg (Ne.symm hq))
    rw [hget]
    rfl
  · obtain ⟨former, hformer, hroots, -, hfresh⟩ := holding?_markStaleAround hheld
    refine ⟨former, hformer, fun q hq => ?_, fun hstale => ?_⟩
    · rw [hkept]
      exact hcurrent.rooted id former hid hformer q (hroots ▸ hq)
    · obtain ⟨rfl, hcontains⟩ := hfresh hstale
      refine ⟨rfl, ?_, fun q hq => ?_⟩
      · exact hcurrent.not_asks hid hformer hstale (isSome_texts htracked)
          fun hp => hcontains (.inl hp)
      · rw [hkept]
        exact hcurrent.tracked id held hid hformer hstale q hq

theorem get?_track (w : Workspace) {q : Path} (hq : q ≠ p) (text : Text) :
    (w.track p text).documents.get? q = w.documents.get? q := by
  simp only [Workspace.track, Store.get?, Store.insert, Table.get?_insert]
  exact if_neg (Ne.symm hq)

theorem isTracked_track (w : Workspace) (p : Path) (text : Text) : (w.track p text).isTracked p := by
  simp [isTracked_eq, track, Store.get?, Store.insert, Document.create, Spelling.ofPath]

/-- A file comes to be tracked with a text. -/
theorem Steady.track (h : Steady coherent n w) (htracked : w.isTracked p = false) (text : Text)
    (hasked : coherent → w.fs.text? p = none → ∀ id held, w.holding? id = some held →
      held.isStale = false → ¬w.scanner.Asks w.sources held.roots held.files p) :
    Steady coherent n (w.track p text) := by
  have hnone : w.documents.get? p = none := by
    rwa [isTracked_eq, Option.isSome_eq_false_iff, Option.isNone_iff_eq_none] at htracked
  have hkept (q : Path) (hq : w.isTracked q) : (w.track p text).isTracked q := by
    have hqp : q ≠ p := fun hqp => by simp [hqp, htracked] at hq
    rw [isTracked_eq] at hq ⊢
    rwa [w.get?_track hqp]
  refine ⟨⟨h.enlisted.orderly, h.enlisted.distinct⟩, h.normalizer, fun hc => ?_⟩
  have hcurrent := h.current hc
  refine hcurrent.of_unasked p rfl (fun q hq => ?_) fun id held hid hheld => ?_
  · rw [texts_eq, texts_eq, w.get?_track hq]
    rfl
  · refine ⟨held, hheld, fun q hq => hkept q (hcurrent.rooted id held hid hheld q hq),
      fun hstale => ⟨rfl, ?_, fun q hq => hkept q (hcurrent.tracked id held hid hheld hstale q hq)⟩⟩
    cases htext : w.fs.text? p with
    | none => exact hasked hc htext id held hheld hstale
    | some _ =>
        -- a project that asks for a file that can be read contains it, and has it tracked
        have hread : (w.texts p).isSome := by simp [texts_eq, hnone, htext]
        refine hcurrent.not_asks hid hheld hstale hread fun hp => ?_
        simp [hcurrent.tracked id held hid hheld hstale p hp] at htracked

/-- A document is loaded anew if its text is another one. -/
theorem steady_reloadIfChanged (h : Steady coherent n w) {d : Document}
    (hd : w.documents.get? p = some d) (text : Text) :
    Steady coherent n (if (d.reloadIfChanged text).2 then
        (w.modifyDocument p fun _ => (d.reloadIfChanged text).1).markStaleAround p
      else w.modifyDocument p fun _ => (d.reloadIfChanged text).1) := by
  split
  · exact h.rewrite (isTracked_iff.mpr ⟨d, hd⟩) _
  · rename_i hsame
    refine h.calm (calm_modifyDocument fun d' hd' => ?_)
    obtain rfl : d = d' := Option.some.inj (hd.symm.trans hd')
    exact Document.text_reloadIfChanged (Bool.eq_false_iff.mpr hsame)

/-! ### Opening and closing -/

/-- An operation opens a file with a text that could not be read before, and some project that is not stale
refers to it. -/
def Surprises (w : Workspace) : Operation → Prop
  | .openFile p (some _) =>
    w.isTracked (w.normalize p) = false ∧ w.fs.text? (w.normalize p) = none ∧
      ∃ id held, w.holding? id = some held ∧ held.isStale = false ∧
        w.scanner.Asks w.sources held.roots held.files (w.normalize p)
  | _ => False

instance (w : Workspace) : (op : Operation) → Decidable (w.Surprises op)
  | .openFile _ (some _) => inferInstanceAs (Decidable (_ ∧ _ ∧ ∃ id held, w.holding? id = some held ∧ _))
  | .openFile _ none | .closeFile .. | .changeFile .. | .changeRange .. | .snapshot .. | .getText ..
  | .getTextRange .. | .positionAt .. | .offsetAt .. | .projectFor .. | .adoptProjectFor .. | .takeEvents
  | .fileChanged .. | .advance .. | .flush | .reload | .settle | .replaceFiles .. =>
    inferInstanceAs (Decidable False)

theorem steady_receive {text? : Option Text} (h : Steady coherent n w)
    (hsurprises : coherent → ¬w.Surprises (.openFile p text?))
    (hreceive : w.receive (w.normalize p) text? = .ok received) : Steady coherent n received := by
  have huntracked (hd : w.documents.get? (w.normalize p) = none) :
      w.isTracked (w.normalize p) = false := by
    rw [isTracked_eq, hd]
    rfl
  unfold receive at hreceive
  split at hreceive
  · rename_i d text hd
    obtain rfl := Except.ok.inj hreceive
    exact steady_reloadIfChanged h hd text
  · obtain rfl := Except.ok.inj hreceive
    exact h
  · rename_i text hd
    obtain rfl := Except.ok.inj hreceive
    refine h.track (huntracked hd) text fun hc htext id held hheld hstale hasks => ?_
    exact hsurprises hc ⟨huntracked hd, htext, id, held, hheld, hstale, hasks⟩
  · rename_i hd
    split at hreceive
    · rename_i text hread
      obtain rfl := Except.ok.inj hreceive
      refine h.track (huntracked hd) text fun _ htext => ?_
      simp [FileSystem.text?, hread, Except.toOption] at htext
    · simp at hreceive
    · simp at hreceive

theorem steady_openFile {text? : Option Text} (h : Steady coherent n w)
    (hsurprises : coherent → ¬w.Surprises (.openFile p text?)) :
    Steady coherent n (w.openFile p text?).1 := by
  unfold openFile
  dsimp only
  cases hreceive : w.receive (w.normalize p) text? with
  | error failure => exact h
  | ok received =>
      have hreceived := steady_receive h hsurprises hreceive
      dsimp only
      refine Steady.calm ?_ (calm_emit ..)
      split
      · exact hreceived
      · have hopened := hreceived.calm
          (calm_modifyDocument (p := w.normalize p) (f := fun d => { d with isOpen := true })
            fun _ _ => rfl)
        have htracked := (isTracked_modifyDocument received (w.normalize p) (w.normalize p)
          fun d => { d with isOpen := true }).trans (receive_eq hreceive).2
        generalize received.modifyDocument (w.normalize p) (fun d => { d with isOpen := true }) =
          opened at hopened htracked ⊢
        have hconsulted := shifts_consultManifest opened (w.normalize p)
        have hpruned := (hconsulted.trans (shifts_attach (hconsulted.quiet.tracked _ htracked))).trans
          (shifts_prune _)
        exact hopened.evolves ((Evolves.shifts hpruned).trans (evolves_sweep _
          (hopened.enlisted.shifts hpruned).distinct))

theorem steady_settle (h : Steady coherent n w) : Steady coherent n w.settle :=
  h.evolves (evolves_settle h.enlisted)

theorem steady_close (h : Steady coherent n w) (htracked : w.isTracked p) (text : Text) :
    Steady coherent n (w.close p text) := by
  have hreloaded := h.rewrite htracked (·.reload text)
  unfold close
  dsimp only
  generalize (w.modifyDocument p (·.reload text)).markStaleAround p = w at hreloaded ⊢
  have hshut : Calm w (((w.modifyOpenFiles (·.removeFirst p)).setOwner p none).modifyDocument p
      fun d => { d with isOpen := false }) :=
    ((calm_modifyOpenFiles w _).trans (calm_setOwner ..)).trans (calm_modifyDocument fun _ _ => rfl)
  apply steady_settle
  refine Steady.calm (Steady.calm ?_ (calm_cancel _ (.document p) (by simp))) (calm_emit ..)
  split
  · exact hreloaded.calm hshut
  · split
    · exact (hreloaded.calm hshut).evolves (.shifts (shifts_dissolve ..))
    · exact hreloaded.calm hshut

theorem steady_closeFile (h : Steady coherent n w) (p : Path) :
    Steady coherent n (w.closeFile p).1 := by
  rcases closeFile_cases w p with hsame | ⟨hopen, text, hclosed⟩
  · rwa [hsame]
  · rw [hclosed]
    exact steady_close h (isTracked_of_isOpen hopen) text

/-! ### Questions and edits -/

theorem steady_query {α : Type} (h : Steady coherent n w) (p : Path)
    (ask : Snapshot → Except Failure α) : Steady coherent n (w.query p ask).1 := by
  unfold query
  dsimp only
  split
  · exact h
  · exact h.calm (calm_fold ..)

theorem steady_changeFile (h : Steady coherent n w) (p : Path) (edits : List Edit) :
    Steady coherent n (w.changeFile p edits).1 := by
  unfold changeFile
  dsimp only
  split
  · exact h
  · rename_i d hd
    split
    · exact h
    · rename_i edited _
      have hrewritten := h.rewrite (isTracked_iff.mpr ⟨d, hd⟩) fun _ => edited
      exact hrewritten.of_eq rfl rfl rfl rfl rfl rfl rfl

theorem steady_changeRange (h : Steady coherent n w) (p : Path) (range : PositionRange)
    (text : Text) : Steady coherent n (w.changeRange p range text).1 := by
  have hsnapshot : Steady coherent n (w.snapshot p).1 := steady_query h p .ok
  unfold changeRange
  split
  · rename_i heq
    rwa [heq] at hsnapshot
  · rename_i heq
    rw [heq] at hsnapshot
    exact steady_changeFile hsnapshot p _

theorem shifts_projectFor (w : Workspace) (p : Path) : Shifts w (w.projectFor p).1 := by
  unfold projectFor
  dsimp only
  split
  · split
    · exact .refl w
    · exact shifts_refresh w
  · exact .refl w

theorem shifts_adoptProjectFor (w : Workspace) (p : Path) : Shifts w (w.adoptProjectFor p).1 := by
  have hfound := shifts_projectFor w (w.normalize p)
  unfold adoptProjectFor
  dsimp only
  split
  · rename_i heq
    rwa [heq] at hfound
  · rename_i found id heq
    rw [heq] at hfound
    dsimp only
    split
    · exact hfound.trans (shifts_setOwner found (w.normalize p) (some id))
    · exact hfound

/-! ### Changes of files and the clock -/

/-- A file that is gone is forgotten. The projects that contain it are stale from then on, and it is no root of theirs
any more. -/
def dropFile (w : Workspace) (p : Path) : Workspace :=
  (w.projects.keys.filter fun id => w.projectHas id (·.contains p)).foldl
    (fun w id => w.modifyProject id fun project => (project.removeRoot p).markStale) (w.forget p)

/-- What a project is once a file is taken from its roots. -/
theorem amends_dropFile (w : Workspace) (p : Path) (project : Project) :
    w.Amends (fun project => (project.removeRoot p).markStale) project := by
  refine ⟨?_, ?_, .inr ⟨rfl, fun q hq => .inl ?_⟩⟩
  · exact (congrArg Charter.kind (project.charter_removeRoot p) :)
  · show (project.removeRoot p).files = project.files
    rw [Project.removeRoot]
    split <;> rfl
  · have hroots : ((project.removeRoot p).markStale).roots = project.roots.filter (· ≠ p) :=
      congrArg Charter.roots (project.charter_removeRoot p)
    rw [hroots] at hq
    exact (List.mem_filter.mp hq).1

theorem shifts_dropFile (w : Workspace) (p : Path) : Shifts (w.forget p) (w.dropFile p) :=
  Shifts.foldl (fun w _ => .amend fun project _ => amends_dropFile w p project) _ (w.forget p)

/-- The projects that are not named are what they were, and the others are stale and have one root less. -/
theorem holding?_foldl_dropFile {ids : List ProjectId} {held : Holding}
    (h : (ids.foldl (fun w id =>
      w.modifyProject id fun project => (project.removeRoot p).markStale) w).holding? id =
        some held) :
    ∃ former, w.holding? id = some former ∧ ((id ∉ ids ∧ held = former) ∨
      (held.isStale ∧ held.roots = former.roots.filter (· ≠ p))) := by
  induction ids generalizing w with
  | nil => exact ⟨held, h, .inl ⟨by simp, rfl⟩⟩
  | cons i ids ih =>
      obtain ⟨next, hnext, hcases⟩ := ih h
      rw [holding?_modifyProject] at hnext
      split at hnext
      · rename_i hi
        subst i
        obtain ⟨project, hproject, rfl⟩ := Option.map_eq_some_iff.mp hnext
        have hroots : ((project.removeRoot p).markStale).roots = project.roots.filter (· ≠ p) :=
          congrArg Charter.roots (project.charter_removeRoot p)
        refine ⟨project.holding, by simp [holding?, hproject], .inr ?_⟩
        rcases hcases with ⟨-, rfl⟩ | ⟨hstale, heq⟩
        · exact ⟨rfl, hroots⟩
        · refine ⟨hstale, heq.trans ?_⟩
          show ((project.removeRoot p).markStale).roots.filter (· ≠ p) =
            project.roots.filter (· ≠ p)
          rw [hroots, List.filter_filter]
          simp
      · rename_i hi
        refine ⟨next, hnext, hcases.imp_left fun hrest => ⟨?_, hrest.2⟩⟩
        simp [hi, hrest.1]

/-- The projects that do not contain the file are what they were. -/
theorem holding?_dropFile {held : Holding} (h : (w.dropFile p).holding? id = some held) :
    ∃ former, w.holding? id = some former ∧ ((held = former ∧ ¬held.Contains p) ∨
      (held.isStale ∧ held.roots = former.roots.filter (· ≠ p))) := by
  obtain ⟨former, hformer, hcases⟩ := holding?_foldl_dropFile h
  rw [← roster_holding?, (forget_contents w p).2.1] at hformer
  refine ⟨former, hformer, hcases.imp_left fun ⟨hid, hsame⟩ => ⟨hsame, fun hcontains => ?_⟩⟩
  subst hsame
  refine hid (List.mem_filter.mpr ⟨?_, projectHas_contains.mpr ⟨held, hformer, hcontains⟩⟩)
  obtain ⟨project, hproject, -⟩ := Option.map_eq_some_iff.mp hformer
  exact Table.mem_keys_iff.mpr (by simp [hproject])

theorem steady_dropFile (h : Steady coherent n w) (p : Path) : Steady coherent n (w.dropFile p) := by
  obtain ⟨hframe, hroster, hkeys, htexts, htracked⟩ := forget_contents w p
  have hshifts := shifts_dropFile w p
  have hforgotten : (w.forget p).Enlisted := h.enlisted.of_roster hroster hkeys
  refine ⟨hforgotten.shifts hshifts,
    (hshifts.quiet.normalizer.trans hframe.normalizer).trans h.normalizer, fun hc => ?_⟩
  have hcurrent := h.current hc
  by_cases hp : w.isTracked p
  · refine hcurrent.of_unasked p (hshifts.quiet.scanner.trans hframe.scanner) (fun q hq => ?_)
      fun id held hid hheld => ?_
    · rw [hshifts.quiet.texts]
      exact htexts q hq
    · obtain ⟨former, hformer, hcases⟩ := holding?_dropFile hheld
      have hkept (q : Path) (hq : w.isTracked q) (hne : q ≠ p) :=
        hshifts.quiet.tracked q ((htracked q).mpr ⟨hq, hne⟩)
      have hroots := hcurrent.rooted id former hid hformer
      refine ⟨former, hformer, ?_⟩
      rcases hcases with ⟨rfl, hfree⟩ | ⟨hstale, heq⟩
      · have hne (q : Path) (hq : held.Contains q) : q ≠ p := fun hqp => hfree (hqp ▸ hq)
        refine ⟨fun q hq => hkept q (hroots q hq) (hne q (.inr hq)), fun hstale => ⟨rfl, ?_,
          fun q hq => hkept q (hcurrent.tracked id held hid hformer hstale q hq) (hne q (.inl hq))⟩⟩
        exact hcurrent.not_asks hid hformer hstale (isSome_texts hp)
          fun hmem => hfree (.inl hmem)
      · refine ⟨fun q hq => ?_, fun hfresh => by simp [hstale] at hfresh⟩
        rw [heq] at hq
        obtain ⟨hq, hne⟩ := List.mem_filter.mp hq
        exact hkept q (hroots q hq) (by simpa using hne)
  · have hsame : w.forget p = w := by
      unfold forget
      rw [if_neg hp]
    rw [hsame] at hshifts
    exact hcurrent.shifts hshifts

theorem steady_documentDeleted (h : Steady coherent n w) (p : Path) :
    Steady coherent n (w.documentDeleted p) := by
  unfold documentDeleted
  split
  · exact h.calm ((calm_unwatch w p).trans (calm_emit ..))
  · exact steady_settle (((steady_dropFile h p).evolves (.shifts (shifts_refresh _))).evolves
      (.shifts (Shifts.foldl (fun _ _ => shifts_emit ..) _ _)))

theorem steady_documentChanged (h : Steady coherent n w) (p : Path) (change : FileChange) :
    Steady coherent n (w.documentChanged p change) := by
  rcases documentChanged_cases w p change with hsame | hdeleted | ⟨d, text, hd, hread⟩
  · rwa [hsame]
  · rw [hdeleted]
    exact steady_documentDeleted h p
  · rw [hread]
    have hreloaded := steady_reloadIfChanged h hd text
    split
    · rename_i hchanged
      rw [if_pos hchanged] at hreloaded
      exact steady_textChanged hreloaded
    · rename_i hsame
      rwa [if_neg hsame] at hreloaded

theorem steady_fileChanged (h : Steady coherent n w) (p : Path) (change : FileChange) :
    Steady coherent n (w.fileChanged p change) :=
  fileChanged_keeps (Steady coherent n) (fun _ p change h => steady_documentChanged h p change)
    (fun w id trigger? h => steady_settle (h.evolves (.shifts (shifts_updateConfigured w id trigger?))))
    (fun _ _ _ _ h => steady_schedule h ..)
    (fun _ manifest h => h.evolves (evolves_discoverManifest h.enlisted manifest)) h p change

theorem steady_runTask (h : Steady coherent n w) (task : Task) : Steady coherent n (w.runTask task) := by
  cases task with
  | fold p => exact h.calm (calm_fold w p)
  | settle change =>
      unfold runTask
      dsimp only
      split
      · exact steady_settle h
      · exact h
  | reread id => exact h.evolves (evolves_rereadManifest h.enlisted id)

theorem steady_advance (h : Steady coherent n w) (duration : Nat) :
    Steady coherent n (w.advance duration) :=
  advance_keeps (Steady coherent n) (fun _ _ _ h => h.of_eq rfl rfl rfl rfl rfl rfl rfl)
    (fun _ task h => steady_runTask h task) h duration

theorem steady_flush (h : Steady coherent n w) : Steady coherent n w.flush :=
  flush_keeps (Steady coherent n) (fun _ duration h => steady_advance h duration) h

/-! ### Steps and runs -/

/-- Nothing is known about the files of projects once all files are others. -/
theorem steady_perform {op : Operation} (h : Steady coherent n w)
    (hfiles : coherent → ∀ fs, op ≠ .replaceFiles fs) (hsurprises : coherent → ¬w.Surprises op) :
    Steady coherent n (w.perform op) := by
  cases op with
  | openFile p text? => exact steady_openFile h hsurprises
  | closeFile p => exact steady_closeFile h p
  | changeFile p edits => exact steady_changeFile h p edits
  | changeRange p range text => exact steady_changeRange h p range text
  | snapshot p => exact steady_query h p _
  | getText p start length => exact steady_query h p _
  | getTextRange p range => exact steady_query h p _
  | positionAt p offset => exact steady_query h p _
  | offsetAt p position => exact steady_query h p _
  | projectFor p => exact h.evolves (.shifts (shifts_projectFor w p))
  | adoptProjectFor p => exact h.evolves (.shifts (shifts_adoptProjectFor w p))
  | takeEvents => exact h.of_eq rfl rfl rfl rfl rfl rfl rfl
  | fileChanged p change => exact steady_fileChanged h p change
  | advance duration => exact steady_advance h duration
  | flush => exact steady_flush h
  | reload => exact h.evolves (evolves_reload h.enlisted)
  | settle => exact steady_settle h
  | replaceFiles fs =>
      exact ⟨⟨h.enlisted.orderly, h.enlisted.distinct⟩, h.normalizer, fun hc => absurd rfl (hfiles hc fs)⟩

theorem steady_run {ops : List Operation} (h : Steady coherent n w)
    (hfiles : coherent → ∀ fs, .replaceFiles fs ∉ ops)
    (hsurprises : coherent → w.Avoids ops Surprises) : Steady coherent n (w.run ops) := by
  induction ops using List.reverseRecOn with
  | nil => exact h
  | append_singleton ops op ih =>
      have hdone := ih (fun hc fs hmem => hfiles hc fs (by simp [hmem]))
        fun hc => (avoids_concat.mp (hsurprises hc)).1
      rw [run_concat]
      refine steady_perform hdone (fun hc fs hop => ?_)
        fun hc => (avoids_concat.mp (hsurprises hc)).2
      exact hfiles hc fs (by simp [hop])

/-- An empty workspace has no projects. -/
theorem steady_empty {settings : Settings} {scanner : Scanner} {fs : FileSystem} :
    Steady coherent scanner.normalizer ({ settings, scanner, fs } : Workspace) := by
  have hnone (id : ProjectId) : ({ settings, scanner, fs } : Workspace).holding? id = none := rfl
  refine ⟨⟨⟨?_, ?_, ?_, List.nodup_nil, List.nodup_nil⟩, List.nodup_nil⟩, rfl,
    fun _ => ⟨?_, ?_, ?_⟩⟩
  all_goals simp [hnone, roster]

/-- Every project that is not stale has the files that its roots lead to. -/
def FilesCurrent (w : Workspace) : Prop :=
  ∀ id project, w.projects.get? id = some project → project.isStale = false →
    project.files = w.scanner.fileSet w.sources project.roots

theorem filesCurrent_of_current (h : Current 0 w) : w.FilesCurrent :=
  fun id project hproject hstale =>
    h.files id project.holding (Nat.zero_le id) (by simp [holding?, hproject]) hstale

/-- Such a file is missing among the files of the project as soon as it has its text. -/
theorem not_filesCurrent_of_surprises {text : Text} (h : Steady True n w)
    (hsurprises : w.Surprises (.openFile p (some text))) :
    ¬(w.track (w.normalize p) text).FilesCurrent := by
  obtain ⟨huntracked, -, id, held, hheld, hstale, hasks⟩ := hsurprises
  have hcurrent := h.current trivial
  intro hfiles
  obtain ⟨project, hproject, rfl⟩ := Option.map_eq_some_iff.mp hheld
  have hfound : project.files = w.scanner.fileSet (w.track (w.normalize p) text).sources
      project.roots :=
    hfiles id project hproject hstale
  have hne (q : Path) (hq : w.isTracked q) : q ≠ w.normalize p := by
    rintro rfl
    simp [huntracked] at hq
  have hrooted := hcurrent.rooted id project.holding (Nat.zero_le id) hheld
  have htracked := hcurrent.tracked id project.holding (Nat.zero_le id) hheld hstale
  have hroots : ∀ q ∈ project.roots, (w.track (w.normalize p) text).isTracked q := by
    intro q hq
    rw [isTracked_eq, w.get?_track (hne q (hrooted q hq))]
    exact hrooted q hq
  have hasks' : w.scanner.Asks (w.track (w.normalize p) text).sources project.roots
      (w.scanner.fileSet (w.track (w.normalize p) text).sources project.roots)
      (w.normalize p) := by
    refine hasks.imp_right ?_
    rintro ⟨q, hq, hlink⟩
    refine ⟨q, hfound ▸ hq, ?_⟩
    have htext : (w.track (w.normalize p) text).sources.text? q = w.sources.text? q := by
      show (w.track (w.normalize p) text).texts q = w.texts q
      rw [texts_eq, texts_eq, w.get?_track (hne q (htracked q hq))]
      rfl
    unfold Scanner.links at hlink ⊢
    rwa [htext]
  have hcovers := covers_sources (w.track (w.normalize p) text)
  have hmem : w.normalize p ∈ project.files := by
    rw [hfound]
    exact Scanner.mem_fileSet_of_asks hcovers (fun q hq => .inl (hroots q hq)) hasks'
      (isSome_texts (w.isTracked_track (w.normalize p) text))
  exact hne _ (htracked _ hmem) rfl

/-- As long as no file changes, and no step opens a file with a text that some project waited for without
knowing, the projects that are not stale have the files that their roots lead to. -/
theorem filesCurrent_run (settings : Settings) (scanner : Scanner) (fs : FileSystem)
    (ops : List Operation) :
    let start : Workspace := { settings, scanner, fs }
    (∀ fs', .replaceFiles fs' ∉ ops) → start.Avoids ops Surprises → (start.run ops).FilesCurrent := by
  intro start hfiles hsurprises
  have hsteady : Steady True scanner.normalizer (start.run ops) :=
    steady_run steady_empty (fun _ => hfiles) fun _ => hsurprises
  exact filesCurrent_of_current (hsteady.current trivial)

def referring : Workspace :=
  let path (name : String) : Path := ⟨[.root, .name name]⟩
  let letters (first last : Char) : Pattern := .set ⟨[.range first last], false⟩
  { settings := {}
    scanner := ⟨.seq (letters '@' '@') (.group 1 (.star true (letters 'a' 'z'))), ⟨.root, true⟩⟩
    fs := FileSystem.ofFiles [(path "a", "@b".toList), (path "b", [])] }

/-- A missing file is opened with a text before another one refers to it. -/
def drafting : List Operation :=
  let path (name : String) : Path := ⟨[.root, .name name]⟩
  [.openFile (path "a") none, .openFile (path "b") (some "@c".toList), .openFile (path "d") (some []),
    .changeFile (path "a") [⟨2, 2, "@d".toList⟩], .settle]

theorem filesCurrent_run_drafting :
    let path (name : String) : Path := ⟨[.root, .name name]⟩
    let w := referring.run drafting
    (∀ fs, .replaceFiles fs ∉ drafting) ∧ referring.Avoids drafting Surprises ∧ w.FilesCurrent ∧
      (w.projects.get? 1).map (fun project => (project.isStale, project.files)) =
        some (false, [path "a", path "b", path "d"]) := by
  have hfiles : ∀ fs, .replaceFiles fs ∉ drafting := by simp [drafting]
  have hsurprises : referring.Avoids drafting Surprises := by decide +kernel
  exact ⟨hfiles, hsurprises, filesCurrent_run {} referring.scanner referring.fs drafting hfiles hsurprises,
    by decide +kernel⟩

/-- A file that is missing is opened with a text. The project that refers to it does not come to know. -/
example :
    let path (name : String) : Path := ⟨[.root, .name name]⟩
    let letters (first last : Char) : Pattern := .set ⟨[.range first last], false⟩
    let start : Workspace :=
      { settings := {}
        scanner :=
          ⟨.seq (letters '@' '@') (.group 1 (.star true (letters 'a' 'z'))), ⟨.root, true⟩⟩
        fs := FileSystem.ofFiles [(path "a", "@b".toList)] }
    let w := start.run [.openFile (path "a") none, .openFile (path "b") (some [])]
    (w.projects.get? 1).map (fun project => (project.isStale, project.roots, project.files)) =
        some (false, [path "a"], [path "a"]) ∧
      w.scanner.fileSet w.sources [path "a"] = [path "a", path "b"] := by
  decide +kernel

end Workspace

end ProjectTracker
