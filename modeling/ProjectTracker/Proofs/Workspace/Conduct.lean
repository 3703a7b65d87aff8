import ProjectTracker.Proofs.Workspace.Clock
import ProjectTracker.Proofs.Workspace.Proceeding
/-!
The functions of a workspace are made of steps. That they give only open documents to projects depends on the
lists, which is why a strict account of them starts from lists that are in order.
-/

namespace ProjectTracker.Workspace

variable {strict : Prop} {unsaid : Path → Prop} {w w' w'' : Workspace} {p root : Path} {id : ProjectId}

/-- What an account of a function starts from. -/
structure Proper (strict : Prop) (w : Workspace) : Prop where
  enlisted : w.Enlisted
  tidy : strict → w.Tidy

/-- A function leads to another workspace by steps. -/
def Leads (strict : Prop) (unsaid : Path → Prop) (w w' : Workspace) : Prop :=
  w.Proper strict → Proceeds strict unsaid w w'

theorem Proper.proceeds (hw : w.Proper strict) (h : Proceeds strict unsaid w w') : w'.Proper strict :=
  ⟨hw.enlisted.proceeds h, fun hs => (hw.tidy hs).proceeds hs h⟩

theorem Proceeds.leads (h : Proceeds strict unsaid w w') : Leads strict unsaid w w' :=
  fun _ => h

theorem Aside.leads (h : Aside w w') : Leads strict unsaid w w' :=
  fun _ => .aside h

theorem Leads.refl (w : Workspace) : Leads strict unsaid w w :=
  fun _ => .refl w

theorem Leads.trans (h : Leads strict unsaid w w') (h' : Leads strict unsaid w' w'') :
    Leads strict unsaid w w'' :=
  fun hw => (h hw).trans (h' (hw.proceeds (h hw)))

theorem Proceeds.foldl {α : Type} {step : Workspace → α → Workspace}
    (h : ∀ w x, Proceeds strict unsaid w (step w x)) (xs : List α) (w : Workspace) :
    Proceeds strict unsaid w (xs.foldl step w) := by
  induction xs generalizing w with
  | nil => exact .refl w
  | cons x xs ih => exact (h w x).trans (ih _)

theorem Leads.foldl {α : Type} {step : Workspace → α → Workspace}
    (h : ∀ w x, Leads strict unsaid w (step w x)) (xs : List α) (w : Workspace) :
    Leads strict unsaid w (xs.foldl step w) := by
  induction xs generalizing w with
  | nil => exact .refl w
  | cons x xs ih => exact (h w x).trans (ih _)

/-- Steps that also gather paths. -/
theorem Proceeds.foldl_pair {step : Workspace × List Path → Path → Workspace × List Path}
    (h : ∀ state p, Proceeds strict unsaid state.1 (step state p).1) (ps : List Path)
    (state : Workspace × List Path) : Proceeds strict unsaid state.1 (ps.foldl step state).1 := by
  induction ps generalizing state with
  | nil => exact .refl _
  | cons p ps ih => exact (h state p).trans (ih _)

/-- Steps that are taken with open documents, which stay open. -/
theorem Proceeds.foldl_pair_open (state : Workspace × List Path)
    {step : Workspace × List Path → Path → Workspace × List Path}
    (h : ∀ state p, (strict → state.1.isOpen p) → Proceeds strict unsaid state.1 (step state p).1)
    {ps : List Path} (hps : strict → ∀ p ∈ ps, state.1.isOpen p) :
    Proceeds strict unsaid state.1 (ps.foldl step state).1 := by
  induction ps generalizing state with
  | nil => exact .refl _
  | cons p ps ih =>
      have hstep := h state p fun hs => hps hs p (by simp)
      refine hstep.trans (ih _ fun hs q hq => ?_)
      rw [hstep.isOpen]
      exact hps hs q (by simp [hq])

/-! ### The files of projects -/

theorem proceeds_load (w : Workspace) (p : Path) : Proceeds strict unsaid w (w.load p) := by
  unfold load
  split
  · exact .refl w
  · rename_i huntracked
    split
    · exact .refl w
    · exact .track _ (Bool.eq_false_iff.mpr huntracked)

theorem proceeds_refreshProject (w : Workspace) (id : ProjectId) :
    Proceeds strict unsaid w (w.refreshProject id) := by
  unfold refreshProject
  split
  · exact .refl w
  · rename_i project _
    dsimp only
    generalize w.scanner.fileSet w.sources project.roots = files
    have hrefreshed : Aside w (w.modifyProject id (·.refresh files)) :=
      aside_modifyProject (fun _ => rfl) fun _ _ _ _ h => h
    exact (Proceeds.aside hrefreshed).trans
      ((Proceeds.foldl (fun w p => .aside (aside_fold w p)) files _).trans
        (Proceeds.foldl proceeds_load files _))

theorem proceeds_refresh (w : Workspace) : Proceeds strict unsaid w w.refresh :=
  Proceeds.foldl proceeds_refreshProject _ w

theorem proceeds_createInferred (w : Workspace) (root : Path) :
    Proceeds strict unsaid w (w.createInferred root).1 := by
  rw [createInferred_enter]
  exact (Proceeds.enterInferred w root).trans (proceeds_refreshProject ..)

theorem projectOfManifest?_congr (hconfigured : w'.configured = w.configured)
    (hpost : w'.outlook.post? = w.outlook.post?) (manifest : Path) :
    w'.projectOfManifest? manifest = w.projectOfManifest? manifest := by
  have hmanifest (w : Workspace) (id : ProjectId) :
      (w.projectHas id (·.manifest? = some manifest)) =
        (w.outlook.post? id).any fun post => post.kind = .configured manifest := by
    unfold projectHas
    simp only [outlook]
    cases hproject : w.projects.get? id with
    | none => rfl
    | some project =>
        obtain ⟨id, kind, roots, files, isStale, openCount, settings, watches, lookouts⟩ := project
        cases kind <;> simp [Project.manifest?, Project.post]
  unfold projectOfManifest?
  rw [hconfigured]
  congr 1
  funext id
  rw [hmanifest, hmanifest, hpost]

theorem post?_foldl_load (ps : List Path) (w : Workspace) :
    (ps.foldl load w).outlook.post? = w.outlook.post? := by
  induction ps generalizing w with
  | nil => rfl
  | cons p ps ih =>
      rw [List.foldl_cons, ih]
      unfold load
      split
      · rfl
      · split
        · rfl
        · rw [outlook_track]
          rfl

theorem proceeds_createConfigured (manifest : Path) (outcome : Manifest.Outcome)
    (h : w.projectOfManifest? manifest = none) :
    Proceeds strict unsaid w (w.createConfigured manifest outcome) := by
  cases hdefines : outcome.definesProject with
  | false =>
      unfold createConfigured
      rw [if_neg (Bool.eq_false_iff.mp hdefines)]
      exact .refl w
  | true =>
      rw [createConfigured_enter w manifest hdefines]
      have hloaded : Proceeds strict unsaid w (outcome.roots.foldl load w) :=
        Proceeds.foldl proceeds_load outcome.roots w
      have hconfigured : (outcome.roots.foldl load w).configured = w.configured :=
        congrArg Registry.configured (registry_foldl (fun w p _ => registry_load w p) w)
      have hnone : (outcome.roots.foldl load w).projectOfManifest? manifest = none := by
        rw [projectOfManifest?_congr hconfigured (post?_foldl_load ..), h]
      exact (hloaded.trans (.enterConfigured _ _ hnone)).trans (proceeds_refreshProject ..)

/-! ### Attaching -/

theorem proceeds_evict (w : Workspace) (former? : Option ProjectId) :
    Proceeds strict unsaid w (w.evict former?).1 := by
  cases former? with
  | none => exact .refl w
  | some id => exact .removeProject w id

/-- A document is given to a project, and it is told after its lists are right. -/
theorem Proceeds.hand (h : Proceeds strict (fun q => unsaid q ∨ q = root) w w')
    (hopen : strict → w.isOpen root) {f g : OpenFiles → OpenFiles}
    (hf : ∀ p ∈ (f w'.openFiles).roots, p ∈ w'.openFiles.roots)
    (hg : ∀ p ∈ (g (f w'.openFiles)).roots, p ∈ (f w'.openFiles).roots) (id : ProjectId) :
    Proceeds strict unsaid w ((((w'.modifyOpenFiles f).setOwner root (some id)).modifyOpenFiles
      g).emit (.contextChanged root (some id))) := by
  have hopen' (hs : strict) : (w'.modifyOpenFiles f).isOpen root := by
    show w'.isOpen root
    rw [h.isOpen]
    exact hopen hs
  have hlisted : Aside ((w'.modifyOpenFiles f).setOwner root (some id))
      (((w'.modifyOpenFiles f).setOwner root (some id)).modifyOpenFiles g) :=
    aside_modifyOpenFiles fun p hp => by
      rw [openFiles_setOwner] at hp ⊢
      exact hg p hp
  refine .say (((h.trans (.aside (aside_modifyOpenFiles hf))).trans
    (.give (some id) (.inr rfl) hopen')).trans (.aside hlisted)) fun hs => ⟨?_, ?_⟩
  · show ((w'.modifyOpenFiles f).setOwner root (some id)).isOpen root
    rw [isOpen_setOwner]
    exact hopen' hs
  · exact owner?_setOwner_self (isTracked_of_isOpen (hopen' hs)) (some id)

theorem proceeds_absorb (id : ProjectId) (state : Workspace × List Path) (root : Path)
    (hopen : strict → state.1.isOpen root) :
    Proceeds strict unsaid state.1 (absorb id state root).1 := by
  have hevicted : Proceeds strict (fun q => unsaid q ∨ q = root) state.1
      ((state.1.modifyOpenFiles (·.removeRoot root)).evict (state.1.owner? root)).1 :=
    (Proceeds.aside (aside_modifyOpenFiles fun _ hp => List.mem_of_mem_erase hp)).trans
      (proceeds_evict ..)
  exact hevicted.hand hopen (f := fun o => o) (fun _ hp => hp) (fun _ hp => hp) id

theorem proceeds_join? (hp : unsaid p) (hopen : strict → w.isOpen p) {joined : Workspace}
    (h : w.join? p = some joined) : Proceeds strict unsaid w joined := by
  have hjoins (id : ProjectId) {f : OpenFiles → OpenFiles}
      (hf : ∀ o, ∀ q ∈ (f o).roots, q ∈ o.roots) :
      Proceeds strict unsaid w ((w.setOwner p (some id)).modifyOpenFiles f) :=
    (Proceeds.give (some id) hp hopen).trans (.aside (aside_modifyOpenFiles (hf _)))
  unfold join? at h
  split at h
  · obtain rfl := Option.some.inj h
    exact hjoins _ fun _ _ hq => hq
  · split at h
    · obtain rfl := Option.some.inj h
      exact hjoins _ fun _ _ hq => hq
    · simp at h

theorem leads_foundProject (hp : unsaid p) (hopen : w.isOpen p) (absorbs : Bool) :
    Leads strict unsaid w (w.foundProject p absorbs).1 := by
  intro hw
  have hcreated : Proceeds strict unsaid w (w.createInferred p).1 := proceeds_createInferred w p
  have hgiven := hcreated.trans (.give (some (w.createInferred p).2) hp fun _ => by
    rw [hcreated.isOpen]
    exact hopen)
  unfold foundProject
  dsimp only
  generalize ((w.createInferred p).1.setOwner p (some (w.createInferred p).2)) = given at hgiven ⊢
  generalize (w.createInferred p).2 = id
  have hroots (hs : strict) (q : Path) (hq : q ∈ if absorbs then
      given.openFiles.roots.filter fun root => given.projectHas id (·.contains root) else []) :
      given.isOpen q := by
    refine ((hw.tidy hs).proceeds hs hgiven).roots q ?_
    split at hq
    · exact (List.mem_filter.mp hq).1
    · simp at hq
  have habsorbed := hgiven.trans (Proceeds.foldl_pair_open (given, [])
    (fun state q => proceeds_absorb id state q) hroots)
  refine habsorbed.trans (.listRoot ?_)
  rw [habsorbed.isOpen]
  exact hopen

theorem leads_reattachBy {attach : Workspace → Path → Workspace}
    (hattach : ∀ (unsaid : Path → Prop) w p, unsaid p → w.isOpen p →
      Leads strict unsaid w (attach w p)) (w : Workspace) (p : Path) :
    Leads strict unsaid w (reattachBy attach w p) := by
  intro hw
  unfold reattachBy
  split
  · exact .refl w
  · rename_i hskip
    have hopen : w.isOpen p := by
      simp only [Bool.or_eq_true, not_or, Bool.not_eq_true', Bool.not_eq_false] at hskip
      exact hskip.1
    have hremoved : Aside w (w.modifyOpenFiles (·.remove p)) :=
      aside_modifyOpenFiles fun _ hq => List.mem_of_mem_erase hq
    have hattached : Proceeds strict (fun q => unsaid q ∨ q = p) w
        (attach (w.modifyOpenFiles (·.remove p)) p) :=
      (hremoved.leads.trans (hattach _ _ p (.inr rfl) hopen)) hw
    refine .say hattached fun _ => ⟨?_, rfl⟩
    rw [hattached.isOpen]
    exact hopen

theorem leads_attachWithin (depth : Nat) (hp : unsaid p) (hopen : w.isOpen p) :
    Leads strict unsaid w (attachWithin depth w p) := by
  have hopen' : w.refresh.isOpen p := by
    rw [← registry_isOpen, registry_refresh]
    exact hopen
  have hrefreshed : Leads strict unsaid w w.refresh := (proceeds_refresh w).leads
  induction depth generalizing unsaid w p with
  | zero =>
      unfold attachWithin
      dsimp only
      refine hrefreshed.trans ?_
      cases hjoined : w.refresh.join? p with
      | some joined => exact (proceeds_join? hp (fun _ => hopen') hjoined).leads
      | none => exact leads_foundProject hp hopen' false
  | succ depth ih =>
      unfold attachWithin
      dsimp only
      refine hrefreshed.trans ?_
      cases hjoined : w.refresh.join? p with
      | some joined => exact (proceeds_join? hp (fun _ => hopen') hjoined).leads
      | none =>
          refine (leads_foundProject hp hopen' true).trans (Leads.foldl (leads_reattachBy ?_) _ _)
          intro unsaid w p hp hopen
          refine ih hp hopen ?_ (proceeds_refresh w).leads
          rw [← registry_isOpen, registry_refresh]
          exact hopen

theorem leads_attach (hp : unsaid p) (hopen : w.isOpen p) : Leads strict unsaid w (w.attach p) :=
  leads_attachWithin _ hp hopen

theorem leads_reattach (w : Workspace) (ps : List Path) : Leads strict unsaid w (w.reattach ps) :=
  Leads.foldl (leads_reattachBy fun _ _ _ => leads_attach) ps w

theorem leads_dissolve (w : Workspace) (id : ProjectId) : Leads strict unsaid w (w.dissolve id) :=
  (Proceeds.removeProject w id).leads.trans (leads_reattach _ _)

/-! ### Settling -/

theorem leads_prune (w : Workspace) : Leads strict unsaid w w.prune :=
  Leads.foldl leads_dissolve _ w

/-- Only closed documents are forgotten. -/
theorem proceeds_sweep (w : Workspace) : Proceeds strict unsaid w w.sweep := by
  have hclosed : ∀ p ∈ w.documents.paths.filter fun p =>
      !w.isOpen p && !w.projects.values.any (·.contains p), w.isOpen p = false := by
    intro p hp
    have hp' := (List.mem_filter.mp hp).2
    simp only [Bool.and_eq_true, Bool.not_eq_true'] at hp'
    exact hp'.1
  unfold sweep
  dsimp only
  generalize w.documents.paths.filter _ = orphans at hclosed ⊢
  induction orphans generalizing w with
  | nil => exact .refl w
  | cons p orphans ih =>
      have hp := hclosed p (by simp)
      refine (Proceeds.forget hp).trans (ih _ fun q hq => ?_)
      rw [isOpen_forget hp]
      exact hclosed q (by simp [hq])

theorem proceeds_detachUnless (property : Path → Project → Bool)
    (removal : OpenFiles → Path → OpenFiles) (hremoval : ∀ o p, ∀ q ∈ (removal o p).roots, q ∈ o.roots)
    (state : Workspace × List Path) (p : Path) :
    Proceeds strict unsaid state.1 (detachUnless property removal state p).1 := by
  unfold detachUnless
  dsimp only
  split
  · exact .refl _
  · exact (Proceeds.aside (aside_modifyOpenFiles (hremoval _ p))).trans (.aside (aside_vacate ..))

theorem leads_demote (state : Workspace × List Path) (root : Path) :
    Leads strict unsaid state.1 (demote state root).1 := by
  intro hw
  unfold demote
  dsimp only
  split
  · exact .refl _
  · rename_i hroot
    have hopen (hs : strict) : state.1.isOpen root :=
      (hw.tidy hs).roots root (Decidable.not_not.mp hroot)
    split
    · exact .refl _
    · rename_i id _
      have hevicted : Proceeds strict (fun q => unsaid q ∨ q = root) state.1
          ((state.1.modifyOpenFiles (·.removeRoot root)).evict (state.1.owner? root)).1 :=
        (Proceeds.aside (aside_modifyOpenFiles fun _ hp => List.mem_of_mem_erase hp)).trans
          (proceeds_evict ..)
      unfold assign
      dsimp only
      split
      · exact hevicted.hand hopen (g := fun o => o) (fun _ hp => hp) (fun _ hp => hp) id
      · exact hevicted.hand hopen (g := fun o => o) (fun _ hp => hp) (fun _ hp => hp) id

theorem leads_foldl_demote (ps : List Path) (state : Workspace × List Path) :
    Leads strict unsaid state.1 (ps.foldl demote state).1 := by
  induction ps generalizing state with
  | nil => exact .refl _
  | cons p ps ih => exact (leads_demote state p).trans (ih _)

theorem leads_settle (w : Workspace) : Leads strict unsaid w w.settle := by
  have hrefreshed : Proceeds strict unsaid w w.refresh := proceeds_refresh w
  have hdetached (state : Workspace × List Path) : Proceeds strict unsaid state.1
      (state.1.openFiles.configuredRoots.foldl
        (detachUnless (fun p project => project.isRoot p) .removeConfiguredRoot) state).1 :=
    Proceeds.foldl_pair (proceeds_detachUnless _ .removeConfiguredRoot fun _ _ _ hq => hq) _ state
  have hdetached' (state : Workspace × List Path) : Proceeds strict unsaid state.1
      (state.1.openFiles.referenced.foldl
        (detachUnless (fun p project => project.contains p) .removeReferenced) state).1 :=
    Proceeds.foldl_pair (proceeds_detachUnless _ .removeReferenced fun _ _ _ hq => hq) _ state
  unfold settle
  dsimp only
  exact ((hrefreshed.trans ((hdetached (w.refresh, [])).trans (hdetached' _))).leads.trans
    (leads_foldl_demote _ _)).trans
      ((leads_reattach _ _).trans ((leads_prune _).trans (proceeds_sweep _).leads))

/-! ### Manifests -/

/-- A project is not inferred, however long it lives. -/
def NotInferred (w : Workspace) (id : ProjectId) : Prop :=
  id ≤ w.lastProject ∧ ∀ post, w.outlook.post? id = some post → post.kind ≠ .inferred

theorem NotInferred.proceeds (hid : w.NotInferred id) (h : Proceeds strict unsaid w w') :
    w'.NotInferred id := by
  obtain ⟨hle, hkind⟩ := h.kind hid.1
  refine ⟨hle, fun post' hpost' => ?_⟩
  obtain ⟨post, hpost, hsame⟩ := hkind post' hpost'
  exact hsame ▸ hid.2 post hpost

theorem notInferred_of_manifestOf? {manifest : Path} (hw : w.Enlisted)
    (h : w.manifestOf? id = some manifest) : w.NotInferred id := by
  unfold manifestOf? at h
  obtain ⟨project, hproject, hmanifest⟩ := Option.bind_eq_some_iff.mp h
  refine ⟨hw.orderly.le id project.holding (by simp [holding?, hproject]), fun post hpost hkind => ?_⟩
  simp only [outlook, hproject, Option.map_some, Option.some.injEq] at hpost
  subst hpost
  have hkind' : project.kind = .inferred := hkind
  simp [Project.manifest?, hkind'] at hmanifest

theorem proceeds_readManifest (w : Workspace) (manifest : Path) (trigger? : Option Path) :
    Proceeds strict unsaid w (w.readManifest manifest trigger?).1 := by
  unfold readManifest
  dsimp only
  split
  · exact .refl w
  · exact .aside (aside_emit w trivial)

theorem proceeds_dropRoot (id : ProjectId) (state : Workspace × List Path) (root : Path) :
    Proceeds strict unsaid state.1 (dropRoot id state root).1 := by
  have hremoved : Aside state.1 (state.1.modifyProject id (·.removeRoot root)) := by
    refine aside_modifyProject (fun project => ?_) fun project _ _ => ?_
    · unfold Project.removeRoot
      split <;> rfl
    · unfold Project.removeRoot
      split
      · exact fun p hp => (List.mem_filter.mp hp).1
      · exact fun _ h => h
  unfold dropRoot
  dsimp only
  split
  · exact (Proceeds.aside hremoved).trans
      ((Proceeds.aside (aside_modifyOpenFiles fun _ hp => hp)).trans (.aside (aside_vacate ..)))
  · exact .aside hremoved

theorem proceeds_takeOver (id : ProjectId) (state : Workspace × List Path)
    (hopen : strict → state.1.isOpen root) :
    Proceeds strict unsaid state.1 (takeOver id state root).1 := by
  have hevicted (former? : Option ProjectId) : Proceeds strict (fun q => unsaid q ∨ q = root) state.1
      ((state.1.modifyOpenFiles (·.removeRoot root)).evict former?).1 :=
    (Proceeds.aside (aside_modifyOpenFiles fun _ hp => List.mem_of_mem_erase hp)).trans
      (proceeds_evict ..)
  exact (hevicted _).hand hopen (f := fun o => (o.removeReferenced root).removeConfiguredRoot root)
    (fun _ hp => hp) (fun _ hp => hp) id

/-- Inferred projects gain no roots. -/
theorem aside_addRoot (hid : w.NotInferred id) (root : Path) :
    Aside w (w.modifyProject id (·.addRoot root)) := by
  refine aside_modifyProject (fun project => ?_) fun project hproject hkind => ?_
  · unfold Project.addRoot
    split <;> rfl
  · exact absurd hkind (hid.2 project.post (by simp [outlook, hproject]))

theorem proceeds_gainRoot {state : Workspace × List Path} (hid : state.1.NotInferred id)
    (root : Path) : Proceeds strict unsaid state.1 (gainRoot id state root).1 := by
  have hloaded : Proceeds strict unsaid state.1 (state.1.load root) := proceeds_load ..
  unfold gainRoot
  dsimp only
  split
  · have hadded := hloaded.trans (.aside (aside_addRoot (hid.proceeds hloaded) root))
    split
    · rename_i hopen
      exact hadded.trans (proceeds_takeOver id (_, state.2) fun _ => hopen)
    · exact hadded
  · exact hloaded

theorem proceeds_foldl_gainRoot (roots : List Path) {state : Workspace × List Path}
    (hid : state.1.NotInferred id) :
    Proceeds strict unsaid state.1 (roots.foldl (gainRoot id) state).1 := by
  induction roots generalizing state with
  | nil => exact .refl _
  | cons root roots ih =>
      have hgained : Proceeds strict unsaid state.1 (gainRoot id state root).1 :=
        proceeds_gainRoot hid root
      exact hgained.trans (ih (hid.proceeds hgained))

theorem leads_applyManifest (hid : w.NotInferred id) (outcome : Manifest.Outcome) :
    Leads strict unsaid w (w.applyManifest id outcome) := by
  unfold applyManifest
  split
  · exact .refl w
  · rename_i project _
    split
    · dsimp only
      have hdropped : Proceeds strict unsaid w
          ((project.roots.filter fun root => root ∉ outcome.roots).foldl (dropRoot id) (w, [])).1 :=
        Proceeds.foldl_pair (proceeds_dropRoot id) _ (w, [])
      generalize List.foldl (dropRoot id) (w, []) _ = dropped at hdropped ⊢
      have hgained := hdropped.trans (proceeds_foldl_gainRoot
        (outcome.roots.filter fun root => root ∉ project.roots) (hid.proceeds hdropped))
      generalize List.foldl (gainRoot id) dropped _ = gained at hgained ⊢
      have hrenewed : Aside gained.1 (gained.1.modifyProject id fun project =>
          { project with settings := outcome.settings, isStale := true }) :=
        aside_modifyProject (fun _ => rfl) fun _ _ _ _ h => h
      exact ((hgained.trans (.aside hrenewed)).trans (proceeds_refreshProject ..)).leads.trans
        (leads_reattach _ _)
    · exact .refl w

theorem leads_updateConfigured (w : Workspace) (id : ProjectId) (trigger? : Option Path) :
    Leads strict unsaid w (w.updateConfigured id trigger?) := by
  unfold updateConfigured
  split
  · exact .refl w
  · rename_i manifest hmanifest
    split
    · intro hw
      have hread : Proceeds strict unsaid w (w.readManifest manifest trigger?).1 :=
        proceeds_readManifest ..
      have hid := (notInferred_of_manifestOf? hw.enlisted hmanifest).proceeds hread
      exact hread.trans (leads_applyManifest hid _ (hw.proceeds hread))
    · exact leads_dissolve w id

/-- To read a manifest makes no project. -/
theorem projectOfManifest?_readManifest (w : Workspace) (manifest manifest' : Path)
    (trigger? : Option Path) : (w.readManifest manifest trigger?).1.projectOfManifest? manifest' =
      w.projectOfManifest? manifest' := by
  unfold readManifest
  dsimp only
  split <;> rfl

theorem proceeds_found (manifest : Path) (trigger? : Option Path)
    (h : w.projectOfManifest? manifest = none) : Proceeds strict unsaid w
      ((w.readManifest manifest trigger?).1.createConfigured manifest
        (w.readManifest manifest trigger?).2) :=
  (proceeds_readManifest ..).trans
    (proceeds_createConfigured _ _ ((projectOfManifest?_readManifest ..).trans h))

theorem leads_consultManifest (w : Workspace) (p : Path) :
    Leads strict unsaid w (w.consultManifest p) := by
  unfold consultManifest
  split
  · exact .refl w
  · split
    · exact leads_updateConfigured w _ _
    · rename_i hnone
      exact (proceeds_found _ _ hnone).leads

theorem leads_reload (w : Workspace) : Leads strict unsaid w w.reload := by
  intro hw
  obtain ⟨reloaded, hreloaded, heq⟩ := reload_keeps (Proceeds strict unsaid w)
    (fun v id h => h.trans (leads_updateConfigured v id none (hw.proceeds h)))
    (fun v p h => h.trans (leads_consultManifest v p (hw.proceeds h))) (.refl w)
  rw [heq]
  exact hreloaded.trans (leads_settle reloaded (hw.proceeds hreloaded))

theorem leads_rereadManifest (w : Workspace) (id : ProjectId) :
    Leads strict unsaid w (w.rereadManifest id) := by
  rcases rereadManifest_cases w id with hsame | hupdated | ⟨manifest, hmanifest, hread | happlied⟩
  · rw [hsame]
    exact .refl w
  · rw [hupdated]
    exact (leads_updateConfigured w id none).trans (leads_settle _)
  · rw [hread]
    exact (proceeds_readManifest ..).leads
  · rw [happlied]
    intro hw
    have hread : Proceeds strict unsaid w (w.readManifest manifest none).1 :=
      proceeds_readManifest ..
    have hid := (notInferred_of_manifestOf? hw.enlisted hmanifest).proceeds hread
    exact (hread.leads.trans ((leads_applyManifest hid _).trans (leads_settle _))) hw

theorem leads_discoverManifest (w : Workspace) (manifest : Path) :
    Leads strict unsaid w (w.discoverManifest manifest) := by
  rcases discoverManifest_cases w manifest with hsame | hread | ⟨hnone, hcreated⟩
  · rw [hsame]
    exact .refl w
  · rw [hread]
    exact (proceeds_readManifest ..).leads
  · rw [hcreated]
    exact (proceeds_found manifest none hnone).leads.trans (leads_reload _)

end ProjectTracker.Workspace
