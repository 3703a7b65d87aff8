import ProjectTracker.Proofs.Workspace.Dealings
import ProjectTracker.Proofs.Workspace.Pervading
import ProjectTracker.Proofs.Workspace.Quiescence
/-!
Where there are no manifests and documents are only opened as their files are and closed again, which of them
are roots can be told from the open documents alone, however these came to be open: the roots are those that no
other open document leads to.
-/

namespace ProjectTracker

namespace FileSystem

/-- The files that can be read. -/
def sources (fs : FileSystem) : Sources :=
  ⟨fs.filePaths, fs.text?⟩

/-- In no directory is a file with one of the names. -/
def Lacks (fs : FileSystem) (names : List String) : Prop :=
  ∀ (dir : Spelling), ∀ name ∈ names, fs.isFile (dir.join name) = false

theorem find?_of_lacks {fs : FileSystem} {names : List String} (h : fs.Lacks names)
    (dir : Spelling) : Manifest.find? fs dir names = none := by
  unfold Manifest.find?
  refine List.find?_eq_none.mpr fun s hs => ?_
  obtain ⟨above, -, hs⟩ := List.mem_flatMap.mp hs
  obtain ⟨name, hname, rfl⟩ := List.mem_map.mp hs
  simp [h above name hname]

/-- Among files in memory it is enough to look at what they are called. -/
theorem lacks_of_memory {fs : FileSystem} {files : MemoryFiles} {names : List String}
    (hstorage : fs.storage = .memory files)
    (hnames : ∀ name ∈ names, (Spelling.parse name).path = ⟨[.name name]⟩)
    (hfiles : ∀ p ∈ files.keys, ∀ name ∈ names, p.fileName? ≠ some name) : fs.Lacks names := by
  intro dir name hname
  have hlast : (dir.join name).path.fileName? = some name := by
    unfold Spelling.join
    dsimp only
    rw [hnames name hname]
    simp only [Path.isAbsolute, List.head?_cons, Option.some.injEq, reduceCtorEq, decide_false,
      Bool.false_eq_true, if_false]
    unfold Path.join
    split
    · rfl
    · split
      · rfl
      · simp [Path.fileName?]
  unfold isFile
  rw [hstorage]
  refine Bool.eq_false_iff.mpr fun hfile => ?_
  exact hfiles _ (Table.mem_keys_iff.mpr hfile) name hname hlast

end FileSystem

namespace Workspace

open Registry

variable {start w w' w'' received : Workspace} {n : Normalizer} {p q : Path} {id : ProjectId}
  {held : Holding}

/-! ### What stays -/

/-- The surroundings stay, documents that have the texts of their files keep them, and no project is
configured if none was. -/
structure Mild (w w' : Workspace) : Prop extends Frame w w' where
  texts : w.texts = w.fs.text? → w'.texts = w'.fs.text?
  configured : w.configured = [] → w'.configured = []

theorem Mild.refl (w : Workspace) : Mild w w :=
  ⟨.refl w, id, id⟩

theorem Mild.trans (h : Mild w w') (h' : Mild w' w'') : Mild w w'' :=
  ⟨h.toFrame.trans h'.toFrame, fun htexts => h'.texts (h.texts htexts),
    fun hnone => h'.configured (h.configured hnone)⟩

theorem Quiet.mild (h : Quiet w w') (hconfigured : w'.configured = w.configured) : Mild w w' :=
  ⟨h.toFrame, fun htexts => h.texts.trans (htexts.trans h.text?.symm), hconfigured.trans⟩

theorem Calm.mild (h : Calm w w') : Mild w w' :=
  h.toQuiet.mild (congrArg Roster.configured h.roster)

theorem mild_refreshProject (w : Workspace) (id : ProjectId) : Mild w (w.refreshProject id) := by
  obtain ⟨hquiet, -, hroster, -⟩ := refreshProject_contents w id
  exact hquiet.mild (congrArg Roster.configured hroster)

theorem mild_removeProject (w : Workspace) (id : ProjectId) : Mild w (w.removeProject id).1 := by
  obtain ⟨hquiet, hroster, -⟩ := removeProject_contents w id
  have hconfigured : (w.removeProject id).1.configured = (w.roster.strike id).configured :=
    congrArg Roster.configured hroster
  refine ⟨hquiet.toFrame, fun htexts => hquiet.texts.trans (htexts.trans hquiet.text?.symm),
    fun hnone => ?_⟩
  rw [hconfigured, Roster.strike]
  split <;> simp [hnone]

theorem mild_createInferred (w : Workspace) (root : Path) : Mild w (w.createInferred root).1 := by
  have hnumbered : Quiet w { w with lastProject := w.lastProject + 1 } :=
    .of_eq rfl rfl rfl rfl rfl rfl rfl
  have hjoined := (hnumbered.mild rfl).trans
    (calm_foldl_joinLookout _ root.ancestors).mild
  unfold createInferred
  dsimp only
  generalize List.foldl joinLookout _ _ = joined at hjoined ⊢
  have hentered (project : Project) : Quiet joined { joined with
      projects := joined.projects.insert (w.lastProject + 1) project
      inferred := joined.inferred ++ [w.lastProject + 1] } :=
    .of_eq rfl rfl rfl rfl rfl rfl rfl
  exact ((hjoined.trans ((hentered _).mild rfl)).trans
    (mild_refreshProject ..)).trans (calm_emit ..).mild

/-- A file that is no longer tracked has the text that its document had. -/
theorem mild_forget (w : Workspace) (p : Path) : Mild w (w.forget p) := by
  obtain ⟨hframe, hroster, -, htexts, htracked⟩ := forget_contents w p
  refine ⟨hframe, fun hsame => ?_, (congrArg Roster.configured hroster).trans⟩
  funext q
  by_cases hqp : q = p
  · have huntracked : (w.forget p).documents.get? q = none := by
      rw [← Option.not_isSome_iff_eq_none, ← isTracked_eq]
      exact fun htracked' => ((htracked q).mp htracked').2 hqp
    rw [texts_eq, huntracked]
  · rw [htexts q hqp, hsame, hframe.text?]

theorem mild_sweep (w : Workspace) : Mild w w.sweep := by
  unfold sweep
  dsimp only
  generalize w.documents.paths.filter _ = orphans
  induction orphans generalizing w with
  | nil => exact .refl w
  | cons p orphans ih => exact (mild_forget w p).trans (ih _)

theorem pervades_mild : Pervades Mild where
  refl := .refl
  trans := .trans
  emit w e := (calm_emit w e).mild
  modifyOpenFiles w f := (calm_modifyOpenFiles w f).mild
  setOwner w p owner? := (calm_setOwner w p owner?).mild
  refreshProject := mild_refreshProject
  removeProject := mild_removeProject
  createInferred := mild_createInferred
  sweep := mild_sweep

/-! ### Opening -/

theorem consultManifest_eq_self (h : w.fs.Lacks w.settings.manifestNames) (p : Path) :
    w.consultManifest p = w := by
  have hnone : w.nearestManifest? p = none := by
    unfold nearestManifest?
    cases p.parent? with
    | none => rfl
    | some dir =>
        simp [FileSystem.find?_of_lacks h]
  unfold consultManifest
  rw [hnone]

theorem Frame.lacks (h : Frame w w') {names : List String} (hlacks : w.fs.Lacks names) :
    w'.fs.Lacks names := by
  intro dir name hname
  have hsame := hlacks dir name hname
  unfold FileSystem.isFile at hsame ⊢
  rwa [h.storage]

/-- To receive a document as its file is means to load it. -/
theorem load_of_receive (h : w.receive p none = .ok received) : received = w.load p := by
  unfold receive at h
  unfold load
  cases hd : w.documents.get? p with
  | some d =>
      rw [hd] at h
      rw [if_pos (isTracked_iff.mpr ⟨d, hd⟩)]
      exact (Except.ok.inj h).symm
  | none =>
      have huntracked : ¬w.isTracked p := by simp [isTracked_eq, hd]
      rw [hd] at h
      rw [if_neg huntracked]
      unfold FileSystem.text?
      dsimp only at h
      split at h
      · rename_i text hread
        rw [hread]
        exact (Except.ok.inj h).symm
      · simp at h
      · simp at h

theorem mild_openFile (hlacks : w.fs.Lacks w.settings.manifestNames) (p : Path) :
    Mild w (w.openFile p none).1 := by
  rcases openFile_cases w p none with hsame | ⟨received, hreceive, hopened⟩
  · rw [hsame]
    exact .refl w
  · obtain rfl := load_of_receive hreceive
    have hloaded : Calm w (w.load (w.normalize p)) := calm_load ..
    rcases hopened with ⟨-, hopened⟩ | ⟨opened, lodged, -, hset, rfl, hopened⟩
    · rw [hopened]
      exact (hloaded.trans (calm_emit ..)).mild
    · have hcalm : Calm (w.load (w.normalize p)) opened :=
        hset ▸ calm_modifyDocument fun _ _ => rfl
      have hopenedMild := (hloaded.trans hcalm).mild
      have hsettings : opened.settings = w.settings := hopenedMild.settings
      have hconsulted : opened.consultManifest (w.normalize p) = opened :=
        consultManifest_eq_self (hsettings ▸ hopenedMild.toFrame.lacks hlacks) _
      rw [hopened]
      unfold lodge
      rw [hconsulted]
      exact (hopenedMild.trans (pervades_mild.attach ..)).trans
        ((pervades_mild.prune _).trans ((mild_sweep _).trans (calm_emit ..).mild))

/-- A file that is opened where nothing has to be settled leaves all others in their places. -/
theorem not_disturbs_openFile (hlacks : w.fs.Lacks w.settings.manifestNames)
    (hawaited : w.Due ∨ w.Neat) : ¬w.Disturbs (.openFile p none) := by
  rintro ⟨hdue, hdisturbs⟩
  have hneat := hawaited.resolve_left hdue
  split at hdisturbs
  · obtain ⟨d, text, -, hnone, -⟩ := hdisturbs
    simp at hnone
  · obtain ⟨received, hreceive, hmisplaced⟩ := hdisturbs
    refine hmisplaced ?_
    have htracked := (receive_eq hreceive).2
    obtain rfl := load_of_receive hreceive
    have hcalm : Calm w ((w.load (w.normalize p)).modifyDocument (w.normalize p) fun d =>
        { d with isOpen := true }) :=
      (calm_load ..).trans (calm_modifyDocument fun _ _ => rfl)
    have hregistry : ((w.load (w.normalize p)).modifyDocument (w.normalize p) fun d =>
        { d with isOpen := true }).registry = w.registry.setOpen (w.normalize p) true := by
      rw [registry_setOpen htracked, registry_load]
    have hholding := congrArg Roster.holding? hcalm.roster
    have hsettings := hcalm.settings
    rw [consultManifest_eq_self (hsettings ▸ hcalm.toFrame.lacks hlacks)]
    generalize ((w.load (w.normalize p)).modifyDocument (w.normalize p) fun d =>
      { d with isOpen := true }) = opened at hregistry hholding
    have hplaced : opened.InPlace := by
      unfold InPlace
      rw [hregistry, show opened.holding? = w.holding? from hholding]
      exact hneat.placed.of_eq rfl rfl
    rwa [refresh_eq_self hplaced.fresh]

/-! ### Closing -/

theorem mild_shut {text : Text} (h : w.texts p = some text) :
    Mild w (w.shut p text) := by
  have hreloaded : Calm w (w.modifyDocument p (·.reload text)) := by
    refine calm_modifyDocument fun d hd => ?_
    rw [texts_eq, hd] at h
    have htext : (d.reload text).text = text := LineTree.text_ofText ..
    rw [htext]
    exact (Option.some.inj h).symm
  have hmarked : Quiet (w.modifyDocument p (·.reload text))
      ((w.modifyDocument p (·.reload text)).markStaleAround p) :=
    .of_eq rfl rfl rfl rfl rfl rfl rfl
  have hclosed (w : Workspace) : Calm w (w.modifyDocument p fun d => { d with isOpen := false }) :=
    calm_modifyDocument fun _ _ => rfl
  unfold shut
  exact (hreloaded.mild.trans (hmarked.mild rfl)).trans
    (((calm_modifyOpenFiles ..).trans (calm_setOwner ..)).trans (hclosed _)).mild

/-- A document that is closed gets the text of its file, which is the text that it has. -/
theorem closeFile_of_texts (htexts : w.texts = w.fs.text?) (p : Path) :
    (w.closeFile p).1 = w ∨ ∃ text, w.texts (w.normalize p) = some text ∧
      (w.closeFile p).1 = w.close (w.normalize p) text := by
  unfold closeFile
  dsimp only
  cases hd : w.documents.get? (w.normalize p) with
  | none => exact .inl rfl
  | some d =>
      have htext : w.texts (w.normalize p) = some d.text := by rw [texts_eq, hd]
      have hdisk : w.textOnDisk (w.normalize p) = .ok d.text := by
        rw [htexts, FileSystem.text?] at htext
        unfold textOnDisk
        cases hread : w.fs.read (.ofPath (w.normalize p)) with
        | error e => simp [hread, Except.toOption] at htext
        | ok text =>
            obtain rfl : text = d.text := by simpa [hread, Except.toOption] using htext
            rfl
      dsimp only
      split
      · rw [hdisk]
        dsimp only
        exact .inr ⟨d.text, htext, rfl⟩
      · exact .inl rfl

theorem mild_closeFile (htexts : w.texts = w.fs.text?) (p : Path) : Mild w (w.closeFile p).1 := by
  rcases closeFile_of_texts htexts p with hsame | ⟨text, htext, hclosed⟩
  · rw [hsame]
    exact .refl w
  · obtain ⟨left, owner?, hleft, heq⟩ := close_cases w (w.normalize p) text
    rw [hclosed, heq]
    have hshut := mild_shut htext
    have hleft' : Mild w left := by
      rcases hleft with rfl | ⟨id, rfl⟩
      · exact hshut
      · exact hshut.trans (pervades_mild.dissolve ..)
    exact hleft'.trans (((calm_cancel _ _ (by simp)).trans (calm_emit ..)).mild.trans
      (pervades_mild.settle _))

/-! ### Who leads to whom -/

/-- Where no project is configured the project of an open document is that of an open root, which leads to
it. -/
theorem exists_root (h : Tended n w) (hneat : w.Neat) (hcurrent : Current 0 w)
    (hnone : w.configured = []) (hopen : w.isOpen q) :
    ∃ root id held, root ∈ w.openFiles.roots ∧ w.holding? id = some held ∧ held.roots = [root] ∧
      w.scanner.Reaches w.sources [root] q := by
  have hlisted := listed_of_isOpen h.sound hopen
  obtain ⟨id, howner⟩ := Option.ne_none_iff_exists'.mp fun hnone => by
    simpa using h.sound.unowned q hopen hnone
  obtain ⟨held, hheld, hcontains⟩ := contains_of_owner? hneat.placed h.seated hlisted howner
  have hkind : held.kind = .inferred := by
    by_contra hkind
    have hid : id ∈ w.configured := (h.steady.enlisted.orderly.configured id).mpr ⟨held, hheld, hkind⟩
    simp [hnone] at hid
  have hhas : w.registry.Has id fun kind _ => kind = .inferred := has_iff.mpr ⟨held, hheld, hkind⟩
  obtain ⟨c, hc, hinferred⟩ := hhas
  obtain ⟨root, hroots, hroot⟩ := h.seated.inferred id c hc hinferred (by simp)
  have hown : w.registry.Own root := ⟨id, hroot, c, hc, hinferred, hroots⟩
  have hroots' : held.roots = [root] := by
    obtain ⟨held', hheld', -, hroots'⟩ := has_iff.mp (hown.of_owner hroot)
    obtain rfl : held = held' := Option.some.inj (hheld.symm.trans hheld')
    exact hroots'
  refine ⟨root, id, held, h.seated.mem_roots_of_own h.sound hown, hheld, hroots', ?_⟩
  rcases hcontains with hfile | hroot
  · rw [hcurrent.files id held (Nat.zero_le id) hheld (hneat.placed.fresh id held hheld), hroots']
      at hfile
    exact Scanner.reaches_of_mem_fileSet hfile
  · rw [hroots'] at hroot
    exact .root hroot (isSome_texts (isTracked_of_isOpen hopen))

/-- A root is led to by no root but itself. -/
theorem eq_of_reaches_root (h : Tended n w) (hneat : w.Neat) (hcurrent : Current 0 w)
    (hp : p ∈ w.openFiles.roots) (hheld : w.holding? id = some held) (hroots : held.roots = [q])
    (hreaches : w.scanner.Reaches w.sources [q] p) : q = p := by
  have hfile : p ∈ held.files := by
    rw [hcurrent.files id held (Nat.zero_le id) hheld (hneat.placed.fresh id held hheld), hroots]
    refine (Scanner.mem_fileSet_iff (covers_sources _) fun r hr => .inl ?_).mpr hreaches
    exact hcurrent.rooted id held (Nat.zero_le id) hheld r (hroots ▸ hr)
  have howner := (hneat.placed.alone p hp id held hheld (.inl hfile)).resolve_right not_false
  obtain ⟨held', hheld', -, hroots'⟩ := has_iff.mp ((h.seated.own p hp).of_owner howner)
  obtain rfl : held = held' := Option.some.inj (hheld.symm.trans hheld')
  simpa [hroots] using hroots'

/-- Where nothing has to be settled the roots are the open documents that no other one leads to. -/
theorem mem_roots_iff (h : Tended n w) (hneat : w.Neat) (hcurrent : Current 0 w)
    (hnone : w.configured = []) (hacyclic : w.scanner.Acyclic w.sources) :
    p ∈ w.openFiles.roots ↔
      w.isOpen p ∧ ∀ q, w.isOpen q → w.scanner.Reaches w.sources [q] p → q = p := by
  have hopen {p : Path} (hp : p ∈ w.openFiles.roots) : w.isOpen p :=
    (h.sound.listed_open p (by simp [OpenFiles.all, hp])).resolve_right (by simp [Terms.owning])
  constructor
  · refine fun hp => ⟨hopen hp, fun q hq hreaches => ?_⟩
    -- the root that leads to the other document leads to this one through it
    obtain ⟨root, id, held, -, hheld, hroots, hroot⟩ := exists_root h hneat hcurrent hnone hq
    obtain rfl := eq_of_reaches_root h hneat hcurrent hp hheld hroots (hroot.trans hreaches)
    exact hacyclic q root hreaches hroot
  · rintro ⟨hp, halone⟩
    obtain ⟨root, id, held, hroot, -, -, hreaches⟩ := exists_root h hneat hcurrent hnone hp
    exact halone root (hopen hroot) hreaches ▸ hroot

/-! ### Runs -/

/-- A file is opened as it is, or closed. -/
def Operation.IsVisit : Operation → Prop
  | .openFile _ none | .closeFile _ => True
  | _ => False

/-- What such operations keep. -/
structure Visited (start w : Workspace) : Prop where
  mild : Mild start w
  attended : Attended start.normalizer w
  steady : Steady True start.normalizer w

theorem Visited.perform {op : Operation} (h : Visited start w)
    (hlacks : start.fs.Lacks start.settings.manifestNames) (htexts : start.texts = start.fs.text?)
    (hop : op.IsVisit) : Visited start (w.perform op) := by
  have hlacks' : w.fs.Lacks w.settings.manifestNames :=
    h.mild.settings ▸ h.mild.toFrame.lacks hlacks
  cases op with
  | openFile p text? =>
      cases text? with
      | none =>
          exact ⟨h.mild.trans (mild_openFile hlacks' p),
            attended_openFile h.attended (not_disturbs_openFile hlacks' h.attended.awaited),
            steady_openFile h.steady fun _ hsurprises => hsurprises⟩
      | some text => exact hop.elim
  | closeFile p =>
      exact ⟨h.mild.trans (mild_closeFile (h.mild.texts htexts) p), attended_closeFile h.attended p,
        steady_closeFile h.steady p⟩
  | _ => exact hop.elim

theorem Visited.run {ops : List Operation} (h : Visited start w)
    (hlacks : start.fs.Lacks start.settings.manifestNames) (htexts : start.texts = start.fs.text?)
    (hops : ∀ op ∈ ops, op.IsVisit) : Visited start (w.run ops) := by
  induction ops using List.reverseRecOn with
  | nil => exact h
  | append_singleton ops op ih =>
      rw [run_concat]
      exact (ih fun op hop => hops op (by simp [hop])).perform hlacks htexts (hops op (by simp))

theorem visited_empty (settings : Settings) (scanner : Scanner) (fs : FileSystem) :
    Visited { settings, scanner, fs } { settings, scanner, fs } :=
  ⟨.refl _, attended_empty, steady_empty⟩

/-- Nothing waits, as opening files as they are and closing them makes no work. -/
theorem Visited.neat (h : Visited start w) (hidle : start.timers.timers = []) : w.Neat := by
  refine h.attended.awaited.resolve_left fun ⟨timer, htimer, _⟩ => ?_
  have hstart := h.mild.timers.subset htimer
  simp [hidle] at hstart

/-- Where there are no manifests and no two files lead to one another, the roots after a run that opens files as
they are and closes them are the open documents that no other open document leads to. Two such runs that
leave the same documents open leave the same roots. -/
theorem roots_run (settings : Settings) (scanner : Scanner) (fs : FileSystem)
    (hlacks : fs.Lacks settings.manifestNames) (hacyclic : scanner.Acyclic fs.sources) :
    let start : Workspace := { settings, scanner, fs }
    ∀ ops : List Operation, (∀ op ∈ ops, op.IsVisit) →
      (∀ p, p ∈ (start.run ops).openFiles.roots ↔ (start.run ops).isOpen p ∧
        ∀ q, (start.run ops).isOpen q → scanner.Reaches fs.sources [q] p → q = p) ∧
      ∀ ops' : List Operation, (∀ op ∈ ops', op.IsVisit) →
        (∀ p, (start.run ops).isOpen p ↔ (start.run ops').isOpen p) →
        ∀ p, p ∈ (start.run ops).openFiles.roots ↔ p ∈ (start.run ops').openFiles.roots := by
  intro start
  have hroots (ops : List Operation) (hops : ∀ op ∈ ops, op.IsVisit) (p : Path) :
      p ∈ (start.run ops).openFiles.roots ↔ (start.run ops).isOpen p ∧
        ∀ q, (start.run ops).isOpen q → scanner.Reaches fs.sources [q] p → q = p := by
    have hvisited : Visited start (start.run ops) :=
      (visited_empty settings scanner fs).run hlacks rfl hops
    have htexts : (start.run ops).sources.text? = fs.sources.text? :=
      (hvisited.mild.texts rfl).trans hvisited.mild.text?
    have hreaches {q p : Path} : (start.run ops).scanner.Reaches (start.run ops).sources [q] p ↔
        scanner.Reaches fs.sources [q] p := by
      rw [hvisited.mild.scanner]
      exact ⟨.congr htexts.symm, .congr htexts⟩
    rw [mem_roots_iff hvisited.attended.toTended (hvisited.neat rfl)
      (hvisited.steady.current trivial) (hvisited.mild.configured rfl) fun q r hq hr =>
        hacyclic q r (hreaches.mp hq) (hreaches.mp hr)]
    simp only [hreaches]
  refine fun ops hops => ⟨hroots ops hops, fun ops' hops' hsame p => ?_⟩
  rw [hroots ops hops, hroots ops' hops']
  simp only [hsame]

/-- Each of three files refers to the next one, and a fourth file to the last. -/
def chain : FileSystem :=
  let path (name : String) : Path := ⟨[.root, .name name]⟩
  FileSystem.ofFiles [(path "a", "@b".toList), (path "b", "@c".toList), (path "c", []),
    (path "d", "@c".toList)]

/-- All files but the first are opened, with a detour or without. -/
def tour (detour : Bool) : List Operation :=
  let path (name : String) : Path := ⟨[.root, .name name]⟩
  if detour then
    [.openFile (path "c") none, .openFile (path "b") none, .openFile (path "d") none,
      .openFile (path "a") none, .closeFile (path "a")]
  else [.openFile (path "b") none, .openFile (path "d") none, .openFile (path "c") none]

def toured (detour : Bool) : Workspace :=
  ({ settings := {}, scanner := signScanner, fs := chain } : Workspace).run (tour detour)

theorem isOpen_toured (p : Path) : (toured true).isOpen p ↔ (toured false).isOpen p := by
  have hpaths {w : Workspace} (h : w.isOpen p) : p ∈ w.documents.paths :=
    mem_paths_iff.mpr (isTracked_of_isOpen h)
  have hsame : ∀ p ∈ (toured true).documents.paths ++ (toured false).documents.paths,
      (toured true).isOpen p ↔ (toured false).isOpen p := by decide +kernel
  constructor
  · exact fun h => (hsame p (List.mem_append_left _ (hpaths h))).mp h
  · exact fun h => (hsame p (List.mem_append_right _ (hpaths h))).mpr h

theorem roots_run_chain :
    chain.Lacks ({} : Settings).manifestNames ∧ signScanner.Acyclic chain.sources ∧
      (∀ detour, ∀ op ∈ tour detour, op.IsVisit) ∧
      (toured true).openFiles.roots = [⟨[.root, .name "d"]⟩, ⟨[.root, .name "b"]⟩] ∧
      (∀ p, p ∈ (toured true).openFiles.roots ↔ (toured true).isOpen p ∧
        ∀ q, (toured true).isOpen q → signScanner.Reaches chain.sources [q] p → q = p) ∧
      ∀ p, p ∈ (toured true).openFiles.roots ↔ p ∈ (toured false).openFiles.roots := by
  have hlacks : chain.Lacks ({} : Settings).manifestNames :=
    FileSystem.lacks_of_memory rfl (by decide) (by decide)
  have hacyclic : signScanner.Acyclic chain.sources :=
    Scanner.acyclic_of_covers
      ⟨fun _ _ _ _ => trivial, fun _ _ hread => FileSystem.mem_filePaths_of_memory rfl hread⟩
      (by decide +kernel)
  have hvisits : ∀ detour, ∀ op ∈ tour detour, op.IsVisit := by
    intro detour
    cases detour <;> simp [tour, Operation.IsVisit]
  have hsame := isOpen_toured
  obtain ⟨hroots, hboth⟩ := roots_run {} signScanner chain hlacks hacyclic (tour true) (hvisits true)
  refine ⟨hlacks, hacyclic, hvisits, by decide +kernel, ?_⟩
  unfold toured at hsame ⊢
  exact ⟨hroots, hboth (tour false) (hvisits false) hsame⟩

end Workspace

end ProjectTracker
