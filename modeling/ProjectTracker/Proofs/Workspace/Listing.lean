import ProjectTracker.Proofs.Workspace.Runs
/-!
Where the documents are listed: every open document once, and nothing else, unless a step of the
run lists one twice.
-/

namespace ProjectTracker

open Registry

namespace Workspace

variable {t : Terms} {w : Workspace} {loose guests : List Path} {p : Path} {id : ProjectId}

/-- Every open document stands in the lists once, and nothing else stands there. -/
def ListsOnce (w : Workspace) : Prop :=
  ∀ p, w.openFiles.all.count p = if w.isOpen p then 1 else 0

theorem mem_all_iff (h : Sound t.settled w.registry [] [] []) :
    p ∈ w.openFiles.all ↔ w.isOpen p :=
  ⟨fun hp => (h.listed_open p hp).resolve_right (by simp [Terms.settled]), listed_of_isOpen h⟩

theorem listsOnce_of_sound (h : Sound t.settled w.registry [] [] []) (ht : t.once) :
    w.ListsOnce := by
  intro p
  split
  · rename_i hopen
    exact List.count_eq_one_of_mem (h.nodup ht) ((mem_all_iff h).mpr hopen)
  · rename_i hclosed
    exact List.count_eq_zero.mpr fun hp => hclosed ((mem_all_iff h).mp hp)

/-! ### A document that is listed twice -/

/-- An anchored document that is attached joins the project that it is a root of, and is listed
there once more. -/
theorem configuredRoots_attach (h : Sound t w.registry loose [p] guests) (ht : t.live)
    (hanchored : w.registry.Anchored id p) :
    (w.attach p).openFiles.configuredRoots = w.openFiles.configuredRoots ++ [p] := by
  have hregistry := registry_refresh w
  rw [← hregistry] at h hanchored
  have hopenFiles : w.refresh.openFiles = w.openFiles := congrArg Registry.openFiles hregistry
  obtain ⟨rooting, hrooting⟩ :=
    Option.isSome_iff_exists.mp (isSome_rootingProject? h ht hanchored.rooted)
  have hjoined : w.refresh.join? p =
      some ((w.refresh.setOwner p (some rooting)).modifyOpenFiles (·.addConfiguredRoot p)) := by
    unfold join?
    rw [hrooting]
  have hopen : w.refresh.isOpen p := (h.moving_free p (by simp)).1
  have hgiven : (w.refresh.setOwner p (some rooting)).registry =
      w.refresh.registry.setOwner p (some rooting) :=
    registry_setOwner (.inl hopen)
  have hkept : (w.refresh.setOwner p (some rooting)).openFiles = w.openFiles :=
    (congrArg Registry.openFiles hgiven).trans hopenFiles
  unfold attach attachWithin
  dsimp only
  rw [hjoined]
  show (w.refresh.setOwner p (some rooting)).openFiles.configuredRoots ++ [p] = _
  rw [hkept]

theorem members_of_unused (h : Sound t w.registry loose [] guests)
    (hunused : ∀ c, w.registry.charter? id = some c → c.openCount = 0) : w.registry.members id = [] := by
  refine List.eq_nil_iff_forall_not_mem.mpr fun q hq => ?_
  obtain ⟨hlive, -, howner⟩ := mem_members.mp hq
  obtain ⟨c, hc⟩ := Option.isSome_iff_exists.mp hlive
  exact h.openCount_ne_zero howner hc (hunused c hc)

/-- A project that counts no open document has none to leave behind. -/
theorem openFiles_dissolve (h : Sound t w.registry loose [] guests)
    (hunused : ∀ c, w.registry.charter? id = some c → c.openCount = 0) :
    (w.dissolve id).registry = w.registry.strike id ∧ (w.dissolve id).openFiles = w.openFiles := by
  obtain ⟨hregistry, horphans⟩ := removeProject_eq w id
  have hmembers := members_of_unused h hunused
  have hdissolved : (w.dissolve id).registry = w.registry.strike id := by
    unfold dissolve
    dsimp only
    rw [horphans, hmembers]
    exact hregistry
  refine ⟨hdissolved, ?_⟩
  rw [← registry_openFiles, hdissolved]
  simp [strike, hmembers, OpenFiles.filter]

/-- Projects that count no open document go without a trace in the lists. -/
theorem foldl_dissolve_unused {unused : List ProjectId} (h : Sound t w.registry loose [] guests)
    (hunused : ∀ id ∈ unused, ∀ c, w.registry.charter? id = some c → c.openCount = 0) :
    (unused.foldl dissolve w).openFiles = w.openFiles ∧
      ∀ id c, (unused.foldl dissolve w).registry.charter? id = some c →
        w.registry.charter? id = some c ∧ id ∉ unused := by
  induction unused generalizing w with
  | nil => exact ⟨rfl, fun id c hc => ⟨hc, by simp⟩⟩
  | cons id unused ih =>
      obtain ⟨hregistry, hopenFiles⟩ := openFiles_dissolve h (hunused id (by simp))
      obtain ⟨hrest, hcharter⟩ := ih (w := w.dissolve id) (dissolve_sound h id) fun i hi c hc => by
        rw [hregistry] at hc
        exact hunused i (by simp [hi]) c (charter?_strike_eq_some.mp hc).2
      refine ⟨hrest.trans hopenFiles, fun i c hc => ?_⟩
      obtain ⟨hc, hi⟩ := hcharter i c hc
      rw [hregistry] at hc
      obtain ⟨hne, hc⟩ := charter?_strike_eq_some.mp hc
      exact ⟨hc, by simp [hne, hi]⟩

theorem openCount_of_unused {c : Charter}
    (hid : id ∈ w.configured.filter fun id => w.projectHas id (·.openCount = 0))
    (hc : w.registry.charter? id = some c) : c.openCount = 0 := by
  obtain ⟨project, hproject, rfl⟩ := Option.map_eq_some_iff.mp hc
  have hid' := (List.mem_filter.mp hid).2
  simpa [projectHas, hproject, Project.charter] using hid'

theorem openFiles_prune (h : Sound t w.registry loose [] guests) :
    w.prune.openFiles = w.openFiles :=
  (foldl_dissolve_unused h fun _ hid _ hc => openCount_of_unused hid hc).1

theorem charter?_prune {c : Charter} (h : Sound t w.registry loose [] guests)
    (hc : w.prune.registry.charter? id = some c) : w.registry.charter? id = some c ∧
      id ∉ w.configured.filter fun id => w.projectHas id (·.openCount = 0) :=
  (foldl_dissolve_unused h fun _ hid _ hc => openCount_of_unused hid hc).2 id c hc

/-- A document that the manifest made a root on the way is listed twice once it is open. -/
theorem count_openFile {text? : Option Text} (h : Sound t.settled w.registry [] [] [])
    (honce : ¬t.once) (hdoubles : w.Doubles (.openFile p text?)) :
    2 ≤ (w.openFile p text?).1.openFiles.all.count (w.normalize p) := by
  obtain ⟨hclosed, received, hreceive, hgained⟩ := hdoubles
  obtain ⟨hregistry, htracked⟩ := receive_eq hreceive
  have hsame := congrFun (congrArg Registry.isOpen hregistry) (w.normalize p)
  rw [← hregistry] at h
  have hopened := opened_sound h htracked (hsame.trans hclosed)
  unfold openFile
  dsimp only
  rw [hreceive, hclosed]
  dsimp only
  rw [if_neg Bool.false_ne_true]
  generalize hopened' : received.modifyDocument (w.normalize p)
    (fun d => { d with isOpen := true }) = opened at hopened ⊢
  have hgained' : w.normalize p ∈ opened.gainsNear (w.normalize p) := hopened' ▸ hgained
  obtain ⟨id, hanchored, hinHand⟩ := consultManifest_gained hopened hgained' honce
  have hlive : t.settled.live := t.asked.resolve_left honce
  have hattached := configuredRoots_attach hinHand hlive hanchored
  have hsound := attach_sound hinHand
  generalize (opened.consultManifest (w.normalize p)).attach (w.normalize p) = attached
    at hattached hsound ⊢
  -- neither the projects nor the documents that go after that are any that the lists know of
  have hswept : attached.prune.sweep.openFiles = attached.openFiles :=
    (congrArg Registry.openFiles (registry_sweep (prune_sound hsound).owned_open)).trans
      (openFiles_prune hsound)
  have hlisted : 0 < (opened.consultManifest (w.normalize p)).openFiles.configuredRoots.count
      (w.normalize p) :=
    List.count_pos_iff.mpr hanchored.listed
  show 2 ≤ attached.prune.sweep.openFiles.all.count (w.normalize p)
  rw [hswept, OpenFiles.count_all, hattached, List.count_append, List.count_singleton_self]
  omega

theorem not_listsOnce_of_doubles {op : Operation} (h : Sound t.settled w.registry [] [] [])
    (honce : ¬t.once) (hdoubles : w.Doubles op) : ¬(w.perform op).ListsOnce := by
  intro hlists
  cases op with
  | openFile p text? =>
      have htwice := count_openFile h honce hdoubles
      have honly := hlists (w.normalize p)
      unfold perform at honly
      dsimp only at honly
      rw [honly] at htwice
      split at htwice <;> omega
  | _ => exact hdoubles

/-! ### Runs -/

/-- Where no step of a run lists a document twice, every open document is listed once, and nothing
else is listed. Where no step robs a project the lists hold just the open documents at any rate, and
steps that list a document twice are the only ones that break the rule. -/
theorem listsOnce_run (settings : Settings) (scanner : Scanner) (fs : FileSystem)
    (ops : List Operation) :
    let start : Workspace := { settings, scanner, fs }
    (start.Avoids ops Doubles → (start.run ops).ListsOnce) ∧
      (start.Avoids ops Robs →
        (∀ p, p ∈ (start.run ops).openFiles.all ↔ (start.run ops).isOpen p) ∧
        ((∀ done, done <+: ops → (start.run done).ListsOnce) ↔ start.Avoids ops Doubles)) := by
  intro start
  have hlists (done : List Operation) (hdoubles : start.Avoids done Doubles) :
      (start.run done).ListsOnce :=
    listsOnce_of_sound (t := .listing scanner.normalizer) (sound_of_avoids_doubles hdoubles) trivial
  refine ⟨hlists ops, fun hrobs => ⟨fun p => ?_, ?_, ?_⟩⟩
  · exact mem_all_iff (t := .owning scanner.normalizer) (sound_of_avoids_robs hrobs)
  · intro hall done op hdone hdoubles
    have hdone' : done <+: ops := (List.prefix_append done [op]).trans hdone
    have hsound := sound_of_avoids_robs (hrobs.of_prefix hdone')
    have honce : ¬(Terms.owning scanner.normalizer).once := fun honce => honce
    have hlisted := hall (done ++ [op]) hdone
    rw [run_concat] at hlisted
    exact not_listsOnce_of_doubles (t := .owning scanner.normalizer) hsound honce hdoubles hlisted
  · intro hdoubles done hdone
    exact hlists done (hdoubles.of_prefix hdone)

/-- A manifest comes to list a document that is opened only then. -/
example :
    let a : Path := ⟨[.root, .name "a"]⟩
    let b : Path := ⟨[.root, .name "b"]⟩
    let manifest : Path := ⟨[.root, .name "project.toml"]⟩
    let before := FileSystem.ofFiles [(manifest, "files = ['a']".toList), (a, []), (b, [])]
    let after := FileSystem.ofFiles [(manifest, "files = ['a', 'b']".toList), (a, []), (b, [])]
    let start : Workspace :=
      { settings := {}, scanner := ⟨.empty, ⟨.root, true⟩⟩, fs := before }
    let ops := [.openFile a none, .replaceFiles after, .openFile b none]
    (start.run ops).openFiles.configuredRoots = [a, b, b] := by
  decide +kernel

end Workspace

end ProjectTracker
