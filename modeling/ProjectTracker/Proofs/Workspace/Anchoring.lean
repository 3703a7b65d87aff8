import ProjectTracker.Proofs.Workspace.Manifests
/-!
The documents that a configured project has as roots stay where they are while other documents
are attached.
-/

namespace ProjectTracker

namespace Registry

variable {t : Terms} {r : Registry} {loose moving guests : List Path} {p q root : Path}
  {id : ProjectId}

/-- A live configured project has a document as a root. -/
abbrev Rooted (r : Registry) (id : ProjectId) (p : Path) : Prop :=
  r.Has id fun kind roots => kind ≠ .inferred ∧ p ∈ roots

theorem Rooted.isConfigured (h : r.Rooted id p) : r.IsConfigured id :=
  h.imp fun _ _ hproperty => hproperty.1

/-- A document is listed as the root of a configured project that owns it. -/
structure Anchored (r : Registry) (id : ProjectId) (p : Path) : Prop where
  rooted : r.Rooted id p
  owner : r.owner? p = some id
  listed : p ∈ r.openFiles.configuredRoots

/-- Once the project takes the document over it is anchored. -/
theorem Rooted.takeOver (h : r.Rooted id root) (hsound : Sound t r loose [] guests) (ht : t.live) :
    (r.takeOver id root).1.Anchored id root := by
  have hlifted : (r.modifyOpenFiles (·.removeRoot root)).Rooted id root := h
  have hevicted := hlifted.evict (hsound.rootOwner?_ne ht h.isConfigured root)
  have hshrunk : (((r.modifyOpenFiles (·.removeRoot root)).evict
      (r.rootOwner? root)).1.modifyOpenFiles
        fun o => (o.removeReferenced root).removeConfiguredRoot root).Rooted id root := hevicted
  exact
    { rooted := hshrunk.setOwner root (some id)
      owner := by simp [Registry.takeOver, Registry.modifyOpenFiles]
      listed := List.mem_append_right _ (by simp) }

namespace Anchored

theorem setOwner (h : r.Anchored id p) (hq : q ≠ p) (owner? : Option ProjectId) :
    (r.setOwner q owner?).Anchored id p where
  rooted := h.rooted.setOwner q owner?
  owner := by
    rw [setOwner_owner?, if_neg (Ne.symm hq)]
    exact h.owner
  listed := h.listed

theorem modifyOpenFiles (h : r.Anchored id p) (f : OpenFiles → OpenFiles)
    (hf : p ∈ (f r.openFiles).configuredRoots) : (r.modifyOpenFiles f).Anchored id p :=
  ⟨h.rooted, h.owner, hf⟩

theorem evict (h : r.Anchored id p) {former? : Option ProjectId} (hne : former? ≠ some id) :
    (r.evict former?).1.Anchored id p := by
  have hnot : p ∉ (r.evict former?).2 := fun hp => hne ((mem_evict hp).2.2.symm.trans h.owner)
  cases former? with
  | none => exact h
  | some former =>
      exact
        { rooted := h.rooted.evict hne
          owner := by
            rw [owner?_evict, if_neg hnot]
            exact h.owner
          listed := List.mem_filter.mpr ⟨h.listed, decide_eq_true hnot⟩ }

theorem enroll (h : r.Anchored id p) (hid : id ≤ r.lastProject) (kind : ProjectKind)
    (roots : List Path) : (r.enroll kind roots).Anchored id p :=
  ⟨h.rooted.enroll hid kind roots, h.owner, h.listed⟩

theorem modifyRoots (h : r.Anchored id p) (i : ProjectId) {f : List Path → List Path}
    (hf : ∀ roots, p ∈ roots → p ∈ f roots) : (r.modifyRoots i f).Anchored id p :=
  ⟨h.rooted.modifyRoots i fun _ roots hroot => ⟨hroot.1, hf roots hroot.2⟩, h.owner, h.listed⟩

/-- It is not the root of an inferred project. -/
theorem notMem_roots (h : r.Anchored id p) (hsound : Sound t r loose moving guests)
    (ht : t.live) : p ∉ r.openFiles.roots := fun hp =>
  hsound.owner?_ne ht h.rooted.isConfigured hp h.owner

theorem absorb {i : ProjectId} {waiting : List Path} (h : r.Anchored id p)
    (habsorbing : Absorbing t r loose guests i q (root :: waiting)) (ht : t.live) :
    (r.absorb i root).1.Anchored id p := by
  have hne : r.owner? root ≠ some id := by
    rcases habsorbing.waiting_placed root (by simp) with hroots | ⟨hnone, -⟩
    · exact habsorbing.sound.owner?_ne ht h.rooted.isConfigured hroots
    · simp [hnone]
  have hroot : root ≠ p := by
    rintro rfl
    exact hne h.owner
  have hlifted : (r.modifyOpenFiles (·.removeRoot root)).Anchored id p :=
    h.modifyOpenFiles _ h.listed
  have hgiven := (hlifted.evict hne).setOwner hroot (some i)
  exact hgiven.modifyOpenFiles (·.addReferenced root) hgiven.listed

theorem takeOver {i : ProjectId} (h : r.Anchored id p) (hsound : Sound t r loose [] guests)
    (ht : t.live) (hroot : root ≠ p) : (r.takeOver i root).1.Anchored id p := by
  have hlifted : (r.modifyOpenFiles (·.removeRoot root)).Anchored id p :=
    h.modifyOpenFiles _ h.listed
  have hevicted := hlifted.evict (hsound.rootOwner?_ne ht h.rooted.isConfigured root)
  have hshrunk : (((r.modifyOpenFiles (·.removeRoot root)).evict
      (r.rootOwner? root)).1.modifyOpenFiles
        fun o => (o.removeReferenced root).removeConfiguredRoot root).Anchored id p :=
    hevicted.modifyOpenFiles _ ((List.mem_erase_of_ne (Ne.symm hroot)).mpr hevicted.listed)
  have hgiven := hshrunk.setOwner hroot (some i)
  exact hgiven.modifyOpenFiles (·.addConfiguredRoot root) (List.mem_append_left _ hgiven.listed)

end Anchored

end Registry

namespace Workspace

open Registry

variable {t : Terms} {w : Workspace} {loose guests : List Path} {p q : Path} {id : ProjectId}

/-- A configured project that has a document as a root is found. -/
theorem isSome_rootingProject? (hsound : Sound t w.registry loose [p] guests) (ht : t.live)
    (h : w.registry.Rooted id p) : (w.rootingProject? p).isSome := by
  obtain ⟨c, hc, hkind, hroot⟩ := h
  rw [rootingProject?, List.find?_isSome]
  refine ⟨id, hsound.configured ht id c hc hkind, ?_⟩
  obtain ⟨project, hproject, rfl⟩ := Option.map_eq_some_iff.mp hc
  have hroot' : p ∈ project.roots := hroot
  simpa [projectHas, hproject, Project.isRoot] using hroot'

theorem anchored_foldl_absorb {i : ProjectId} {waiting detached : List Path} (ht : t.live)
    (habsorbing : Absorbing t w.registry (detached ++ loose) guests i q waiting)
    (h : w.registry.Anchored id p) :
    (waiting.foldl (absorb i) (w, detached)).1.registry.Anchored id p := by
  induction waiting generalizing w detached with
  | nil => exact h
  | cons root waiting ih =>
      have hstep := absorbing_absorb habsorbing
      have hregistry := (absorb_eq i detached (habsorbing.waiting_open root (by simp))).1
      have hanchored : (absorb i (w, detached) root).1.registry.Anchored id p := by
        rw [hregistry]
        exact h.absorb habsorbing ht
      rw [List.foldl_cons]
      generalize absorb i (w, detached) root = state at hstep hanchored ⊢
      exact ih hstep hanchored

theorem anchored_foundProject (ht : t.live) (hsound : Sound t w.registry loose [q] guests)
    (h : w.registry.Anchored id p) (hq : q ≠ p) (absorbs : Bool) :
    (w.foundProject q absorbs).1.registry.Anchored id p := by
  obtain ⟨founded, waiting, hregistry, hwaiting, heq⟩ :=
    foundProject_eq (hsound.moving_free q (by simp)).1 absorbs
  have habsorbing : Absorbing t founded.registry ([] ++ loose) guests (w.lastProject + 1) q
      waiting := by
    rw [hregistry]
    exact hsound.absorbing hwaiting
  have hfounded : founded.registry.Anchored id p := by
    rw [hregistry]
    exact (h.enroll (hsound.live_le id h.rooted.isConfigured.isLive) _ _).setOwner hq _
  have habsorbed := anchored_foldl_absorb ht habsorbing hfounded
  rw [heq]
  exact habsorbed.modifyOpenFiles (·.addRoot q) habsorbed.listed

theorem anchored_join? (hsound : Sound t w.registry loose [q] guests)
    (h : w.registry.Anchored id p) (hq : q ≠ p) {joined : Workspace}
    (hjoined : w.join? q = some joined) : joined.registry.Anchored id p := by
  obtain ⟨i, -, hregistry | hregistry⟩ := join?_cases (hsound.moving_free q (by simp)).1 hjoined
  · rw [hregistry]
    have hgiven := h.setOwner hq (some i)
    exact hgiven.modifyOpenFiles (·.addConfiguredRoot q) (List.mem_append_left _ hgiven.listed)
  · rw [hregistry]
    have hgiven := h.setOwner hq (some i)
    exact hgiven.modifyOpenFiles (·.addReferenced q) hgiven.listed

/-- A way of attaching other documents that keeps one anchored. -/
def AttachesBeside (t : Terms) (guests : List Path) (id : ProjectId) (p : Path)
    (attach : Workspace → Path → Workspace) : Prop :=
  ∀ ⦃w q loose⦄, Sound t w.registry loose [q] guests → w.registry.Anchored id p → q ≠ p →
    (attach w q).registry.Anchored id p

theorem anchored_reattachBy {attach : Workspace → Path → Workspace}
    (hattach : AttachesBeside t guests id p attach)
    (hsound : Sound t w.registry (q :: loose) [] guests) (h : w.registry.Anchored id p) :
    (reattachBy attach w q).registry.Anchored id p := by
  rcases reattachBy_cases attach w q with ⟨hsame, -⟩ | ⟨hregistry, hopen, hnone⟩
  · rw [hsame]
    exact h
  · -- a document that is attached again has no project, and the anchored one has
    have hq : q ≠ p := by
      rintro rfl
      simp [← registry_owner?, h.owner] at hnone
    have hlifted : (w.modifyOpenFiles (·.remove q)).registry.Anchored id p :=
      h.modifyOpenFiles (·.remove q) ((List.mem_erase_of_ne (Ne.symm hq)).mpr h.listed)
    rw [hregistry]
    exact hattach (w := w.modifyOpenFiles (·.remove q)) (lift_loose hsound hopen hnone) hlifted hq

theorem anchored_foldl_reattachBy {attach : Workspace → Path → Workspace}
    (hsafe : Attaches t guests attach) (hattach : AttachesBeside t guests id p attach)
    {paths : List Path} (hsound : Sound t w.registry (paths ++ loose) [] guests)
    (h : w.registry.Anchored id p) :
    (paths.foldl (reattachBy attach) w).registry.Anchored id p := by
  induction paths generalizing w with
  | nil => exact h
  | cons q paths ih =>
      exact ih (reattachBy_sound hsafe hsound) (anchored_reattachBy hattach hsound h)

theorem attachesBeside_attachWithin (ht : t.live) (guests : List Path) (id : ProjectId)
    (p : Path) (depth : Nat) : AttachesBeside t guests id p (attachWithin depth) := by
  induction depth with
  | zero =>
      intro w q loose hsound h hq
      rw [← registry_refresh] at hsound h
      unfold attachWithin
      dsimp only
      cases hjoined : w.refresh.join? q with
      | some joined => exact anchored_join? hsound h hq hjoined
      | none => exact anchored_foundProject ht hsound h hq false
  | succ depth ih =>
      intro w q loose hsound h hq
      rw [← registry_refresh] at hsound h
      unfold attachWithin
      dsimp only
      cases hjoined : w.refresh.join? q with
      | some joined => exact anchored_join? hsound h hq hjoined
      | none =>
          exact anchored_foldl_reattachBy (attaches_attachWithin t guests depth) ih
            (foundProject_sound hsound true) (anchored_foundProject ht hsound h hq true)

theorem anchored_reattach (ht : t.live) {paths : List Path}
    (hsound : Sound t w.registry (paths ++ loose) [] guests) (h : w.registry.Anchored id p) :
    (w.reattach paths).registry.Anchored id p :=
  anchored_foldl_reattachBy (fun _ _ _ => attach_sound)
    (fun _ _ _ hsound h hq => attachesBeside_attachWithin ht guests id p _ hsound h hq) hsound h

/-! ### Roots that a project gains -/

theorem mem_addTo {root : Path} {roots : List Path} :
    q ∈ addTo root roots ↔ q = root ∨ q ∈ roots := by
  unfold addTo
  split
  · rename_i hroot
    exact ⟨.inr, fun hq => hq.elim (· ▸ hroot) fun hq => hq⟩
  · rw [List.mem_append, List.mem_singleton, or_comm]

theorem anchored_gainRoot {state : Workspace × List Path} (ht : t.live)
    (hsound : Updating t guests id state) (root : Path) (h : state.1.registry.Anchored id p) :
    (gainRoot id state root).1.registry.Anchored id p := by
  have hadded := h.modifyRoots id (f := addTo root) fun roots hp => mem_addTo.mpr (.inr hp)
  rcases gainRoot_cases id state root with ⟨-, -, hregistry | hregistry⟩ | ⟨-, hregistry, -⟩
  · rw [hregistry]
    exact h
  · rw [hregistry]
    exact hadded
  · rw [hregistry]
    have hsound' := hsound.sound.modifyRoots id (addTo root)
    by_cases hroot : root = p
    · subst hroot
      exact hadded.rooted.takeOver hsound' ht
    · exact hadded.takeOver hsound' ht hroot

theorem anchored_foldl_gainRoot {state : Workspace × List Path} (ht : t.live)
    (hsound : Updating t guests id state) (roots : List Path)
    (h : state.1.registry.Anchored id p) :
    (roots.foldl (gainRoot id) state).1.registry.Anchored id p := by
  induction roots generalizing state guests with
  | nil => exact h
  | cons root roots ih => exact ih (gainRoot_sound hsound root) (anchored_gainRoot ht hsound root h)

/-- A guest that is among the roots that a project gains is anchored there. -/
theorem anchored_of_mem {state : Workspace × List Path} (ht : t.live)
    (hsound : Updating t guests id state) {roots : List Path} (hp : p ∈ roots) (hg : p ∈ guests) :
    (roots.foldl (gainRoot id) state).1.registry.Anchored id p := by
  induction roots generalizing state guests with
  | nil => simp at hp
  | cons root roots ih =>
      have hstep := gainRoot_sound hsound root
      rw [List.foldl_cons]
      by_cases hroot : root = p
      · subst hroot
        apply anchored_foldl_gainRoot ht hstep
        have hopen : state.1.isOpen root := (hsound.sound.guest root hg).1
        rcases gainRoot_cases id state root with ⟨-, hclosed, -⟩ | ⟨-, hregistry, -⟩
        · simp [hclosed] at hopen
        · rw [hregistry]
          obtain ⟨c, hc, hkind⟩ := hsound.configured ht
          have hrooted : (state.1.registry.modifyRoots id (addTo root)).Rooted id root :=
            ⟨{ c with roots := addTo root c.roots }, by simp [Registry.modifyRoots, hc], hkind,
              mem_addTo.mpr (.inl rfl)⟩
          exact hrooted.takeOver (hsound.sound.modifyRoots ..) ht
      · refine ih hstep ((List.mem_cons.mp hp).resolve_left (Ne.symm hroot)) ?_
        exact List.mem_filter.mpr ⟨hg, by simpa using Ne.symm hroot⟩

theorem anchored_applyManifest (ht : t.live) (hsound : Sound t w.registry [] [] guests)
    {outcome : Manifest.Outcome} (hid : w.registry.IsLive id → w.registry.IsConfigured id)
    (hp : p ∈ w.gains id outcome) (hg : p ∈ guests) :
    (w.applyManifest id outcome).registry.Anchored id p := by
  unfold gains at hp
  unfold applyManifest
  cases hproject : w.projects.get? id with
  | none => simp [hproject] at hp
  | some project =>
      have hlive : w.registry.IsLive id := by simp [IsLive, registry, hproject]
      simp only [hproject] at hp
      dsimp only
      split
      · rename_i hdefines
        rw [if_pos hdefines] at hp
        have hstart : Updating t guests id (w, []) :=
          ⟨hsound, hsound.live_le id hlive, fun _ => hid hlive⟩
        have hdropped := foldl_dropRoot_sound hstart
          (project.roots.filter fun root => root ∉ outcome.roots)
        have hgained := foldl_gainRoot_sound hdropped
          (outcome.roots.filter fun root => root ∉ project.roots)
        have hanchored := anchored_of_mem ht hdropped hp hg
        generalize (outcome.roots.filter fun root => root ∉ project.roots).foldl (gainRoot id) _ =
          gained at hgained hanchored ⊢
        rw [updating_iff, ← registry_renewed gained.1 id outcome.settings] at hgained
        rw [← registry_renewed gained.1 id outcome.settings] at hanchored
        exact anchored_reattach ht hgained.1 hanchored
      · rename_i hdefines
        rw [if_neg hdefines] at hp
        simp at hp

theorem anchored_consultManifest (ht : t.live) (hsound : Sound t w.registry [] [] guests)
    (hp : p ∈ w.gainsNear q) (hg : p ∈ guests) :
    ∃ id, (w.consultManifest q).registry.Anchored id p := by
  unfold gainsNear at hp
  unfold consultManifest
  cases hnearest : w.nearestManifest? q with
  | none => simp [hnearest] at hp
  | some manifest =>
      simp only [hnearest] at hp
      dsimp only
      cases hproject : w.projectOfManifest? manifest with
      | none => simp [hproject] at hp
      | some id =>
          simp only [hproject, gainsOf] at hp
          dsimp only
          unfold updateConfigured
          cases hmanifest : w.manifestOf? id with
          | none => simp [hmanifest] at hp
          | some manifest =>
              have hid : w.registry.IsLive id → w.registry.IsConfigured id := fun _ =>
                isConfigured_of_manifestOf? hmanifest
              simp only [hmanifest] at hp
              dsimp only
              split
              · rename_i hfile
                rw [if_pos hfile] at hp
                refine ⟨id, ?_⟩
                unfold readManifest
                dsimp only
                split
                · exact anchored_applyManifest ht hsound hid hp hg
                · rw [← registry_emit] at hsound hid
                  exact anchored_applyManifest ht hsound hid hp hg
              · rename_i hfile
                rw [if_neg hfile] at hp
                simp at hp

end Workspace

end ProjectTracker
