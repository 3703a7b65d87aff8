import ProjectTracker.Proofs.Workspace.Soundness
/-!
Attaching documents keeps the invariant: whatever a document leaves behind when it is given to a
project is loose, and is attached in turn.
-/

namespace ProjectTracker

namespace Registry

variable {t : Terms} {r : Registry} {loose moving guests : List Path} {p root : Path}

/-- Removes the project that a document came from, if it came from one. -/
def evict (r : Registry) (former? : Option ProjectId) : Registry × List Path :=
  match former? with
  | none => (r, [])
  | some id => (r.strike id, r.members id)

theorem Sound.evict (h : Sound t r loose moving guests) (former? : Option ProjectId) :
    Sound t (r.evict former?).1 ((r.evict former?).2 ++ loose) moving guests := by
  cases former? with
  | none => exact h
  | some id => exact h.strike id

theorem isLive_evict {former? : Option ProjectId} {id : ProjectId} :
    (r.evict former?).1.IsLive id ↔ r.IsLive id ∧ former? ≠ some id := by
  cases former? with
  | none => simp [Registry.evict]
  | some former =>
      simp only [IsLive, Registry.evict, strike]
      split
      · simp [*]
      · rename_i hne
        simp [Ne.symm hne]

theorem mem_roots_evict {former? : Option ProjectId} {q : Path} :
    q ∈ (r.evict former?).1.openFiles.roots ↔
      q ∈ r.openFiles.roots ∧ q ∉ (r.evict former?).2 := by
  cases former? with
  | none => simp [Registry.evict]
  | some former => exact mem_roots_strike

theorem mem_evict {former? : Option ProjectId} {q : Path} (h : q ∈ (r.evict former?).2) :
    q ∈ r.openFiles.all ∧ former? ≠ none ∧ r.owner? q = former? := by
  cases former? with
  | none => simp [Registry.evict] at h
  | some former =>
      obtain ⟨-, hall, howner⟩ := mem_members.mp h
      exact ⟨hall, by simp, howner⟩

theorem charter?_evict {former? : Option ProjectId} {id : ProjectId} {c : Charter}
    (h : (r.evict former?).1.charter? id = some c) : r.charter? id = some c := by
  cases former? with
  | none => exact h
  | some former => exact (charter?_strike_eq_some.mp h).2

@[simp] theorem lastProject_evict (former? : Option ProjectId) :
    (r.evict former?).1.lastProject = r.lastProject := by
  cases former? <;> rfl

@[simp] theorem isOpen_evict (former? : Option ProjectId) :
    (r.evict former?).1.isOpen = r.isOpen := by
  cases former? <;> rfl

theorem owner?_evict (former? : Option ProjectId) (q : Path) :
    (r.evict former?).1.owner? q = if q ∈ (r.evict former?).2 then none else r.owner? q := by
  cases former? with
  | none => simp [Registry.evict]
  | some former => rfl

/-- A document in hand goes to another project, and the one that it came from is removed. -/
theorem Sound.handOver {held : List Path} (h : Sound t r held (root :: moving) guests)
    (hheld : ∀ q ∈ held, q ∈ loose) (hloose : ∀ q ∈ guests, q ∉ loose)
    {former? : Option ProjectId} {id : ProjectId} (hle : id ≤ r.lastProject)
    (hid : t.live → r.IsLive id ∧ former? ≠ some id) {o o' : OpenFiles}
    (ho : (r.evict former?).1.openFiles.Without root o) (ho' : o.With root False o') :
    Sound t { ((r.evict former?).1.setOwner root (some id)) with openFiles := o' }
      ((r.evict former?).2.filter (· ≠ root) ++ loose) moving guests := by
  have hlive (ht : t.live) : (r.evict former?).1.IsLive id := isLive_evict.mpr (hid ht)
  have hevicted := h.evict former?
  have hle' : id ≤ (r.evict former?).1.lastProject := by simpa using hle
  have hgiven := (hevicted.shrink ho (by simp)).assign (p := root) (by simp) hle'
  have hput := hgiven.put (by simp) (fun ht => (isLive_setOwner ..).mpr (hlive ht))
    ⟨ho'.perm, ho'.roots.imp_right fun h => h.2.elim⟩
  -- the removal made the document loose as well, but it has a project by now
  refine hput.weaken (fun q hq _ hnone => .inl ?_) fun q hq hq' => ?_
  · have hqr : q ≠ root := fun hqr => by simp [hqr] at hnone
    rcases List.mem_append.mp hq with hq | hq
    · exact List.mem_append_left _ (List.mem_filter.mpr ⟨hq, by simpa using hqr⟩)
    · exact List.mem_append_right _ (hheld q hq)
  · rcases List.mem_append.mp hq' with hq' | hq'
    · exact (hevicted.guest q hq).2.2.2.1 (List.mem_append_left _ (List.mem_filter.mp hq').1)
    · exact hloose q hq hq'

theorem Sound.isOpen_of_mem_roots (h : Sound t r loose moving guests)
    (hp : p ∈ r.openFiles.roots) : r.isOpen p :=
  (h.listed_open p (by simp [OpenFiles.all, hp])).resolve_right fun hleft => hleft.2 hp

/-- Takes the root of an inferred project in hand. -/
theorem Sound.liftRoot (h : Sound t r loose moving guests) (hroot : root ∈ r.openFiles.roots) :
    Sound t (r.modifyOpenFiles (·.removeRoot root)) (loose.filter (· ≠ root)) (root :: moving)
      guests :=
  h.lift (OpenFiles.without_removeRoot r.openFiles root) (h.isOpen_of_mem_roots hroot)
    (fun hm => (h.moving_free root hm).2.1 hroot)
    (fun hg => (h.guest root hg).2.2.1 (by simp [OpenFiles.all, hroot]))
    h.roots_nodup.not_mem_erase fun ht => OpenFiles.not_mem_removeRoot (h.nodup ht) hroot

/-- The root of an inferred project goes to another project, and its own one is removed. -/
theorem Sound.supplant (h : Sound t r loose moving guests) (hroot : root ∈ r.openFiles.roots)
    {id : ProjectId} (hle : id ≤ r.lastProject)
    (hid : t.live → r.IsLive id ∧ r.owner? root ≠ some id) {o o' : OpenFiles}
    (ho : ((r.modifyOpenFiles (·.removeRoot root)).evict
      (r.owner? root)).1.openFiles.Without root o)
    (ho' : o.With root False o') :
    Sound t { (((r.modifyOpenFiles (·.removeRoot root)).evict (r.owner? root)).1.setOwner root
        (some id)) with openFiles := o' }
      (((r.modifyOpenFiles (·.removeRoot root)).evict (r.owner? root)).2.filter (· ≠ root) ++ loose)
      moving guests :=
  (h.liftRoot hroot).handOver (fun _ hq => (List.mem_filter.mp hq).1)
    (fun q hq => (h.guest q hq).2.2.2.1) hle hid ho ho'

/-- A new inferred project is about to absorb some roots: it owns the document that it is for, and
no root. Over earlier ones a root may have lost its own project. -/
structure Absorbing (t : Terms) (r : Registry) (loose guests : List Path) (id : ProjectId)
    (p : Path) (waiting : List Path) : Prop where
  sound : Sound t r loose [p] guests
  owner : r.owner? p = some id
  le : id ≤ r.lastProject
  live : t.live → r.IsLive id
  inferred : t.live → ∀ c, r.charter? id = some c → c.kind = .inferred
  foreign : t.live → ∀ q ∈ r.openFiles.roots, r.owner? q ≠ some id
  nodup : waiting.Nodup
  waiting_open : ∀ q ∈ waiting, r.isOpen q
  waiting_placed : ∀ q ∈ waiting, q ∈ r.openFiles.roots ∨ (r.owner? q = none ∧ q ∈ loose)

theorem Absorbing.perm {loose' : List Path} {id : ProjectId} {waiting : List Path}
    (h : Absorbing t r loose guests id p waiting) (hperm : loose.Perm loose') :
    Absorbing t r loose' guests id p waiting :=
  { h with
    sound := h.sound.perm hperm
    waiting_placed := fun q hq =>
      (h.waiting_placed q hq).imp_right (And.imp_right (hperm.subset ·)) }

/-- The registry after a project absorbed a root. -/
def absorb (r : Registry) (id : ProjectId) (root : Path) : Registry × List Path :=
  let evicted := (r.modifyOpenFiles (·.removeRoot root)).evict (r.owner? root)
  ((evicted.1.setOwner root (some id)).modifyOpenFiles (·.addReferenced root),
    evicted.2.filter (· ≠ root))

namespace Absorbing

variable {id : ProjectId} {waiting : List Path}

theorem owner?_head_ne (h : Absorbing t r loose guests id p (root :: waiting)) (ht : t.live) :
    r.owner? root ≠ some id := by
  rcases h.waiting_placed root (by simp) with hroot | ⟨hnone, -⟩
  · exact h.foreign ht root hroot
  · simp [hnone]

theorem head_ne (h : Absorbing t r loose guests id p (root :: waiting)) : root ≠ p := by
  rintro rfl
  rcases h.waiting_placed root (by simp) with hroot | ⟨hnone, -⟩
  · exact (h.sound.moving_free root (by simp)).2.1 hroot
  · simp [h.owner] at hnone

/-- The root that is next is taken in hand. -/
theorem lift_head (h : Absorbing t r loose guests id p (root :: waiting)) :
    Sound t (r.modifyOpenFiles (·.removeRoot root)) (loose.filter (· ≠ root)) [root, p] guests := by
  have hplaced := h.waiting_placed root (by simp)
  have hguests : root ∉ guests := fun hg => by
    obtain ⟨-, -, hall, hl, -⟩ := h.sound.guest root hg
    rcases hplaced with hroot | ⟨-, hloose⟩
    · exact hall (by simp [OpenFiles.all, hroot])
    · exact hl hloose
  have honce (ht : t.once) : root ∉ (r.openFiles.removeRoot root).all := by
    rcases hplaced with hroot | ⟨hnone, -⟩
    · exact OpenFiles.not_mem_removeRoot (h.sound.nodup ht) hroot
    · exact fun hmem => h.sound.listed_owned ht root
        ((OpenFiles.without_removeRoot ..).sublist.subset hmem) hnone
  exact h.sound.lift (OpenFiles.without_removeRoot r.openFiles root) (h.waiting_open root (by simp))
    (by simpa using h.head_ne) hguests h.sound.roots_nodup.not_mem_erase honce

/-- The document that the project is for does not lose its place as a root loses its project. -/
theorem notMem_evicted (h : Absorbing t r loose guests id p (root :: waiting)) :
    p ∉ ((r.modifyOpenFiles (·.removeRoot root)).evict (r.owner? root)).2 := by
  intro hmem
  obtain ⟨hall, -, hformer⟩ := mem_evict hmem
  have hformer' : r.owner? root = some id := hformer.symm.trans h.owner
  -- it is not in the lists, or else the root would have the same project
  rcases t.asked with ht | ht
  · exact (h.sound.moving_free p (by simp)).2.2 ht
      ((OpenFiles.without_removeRoot ..).sublist.subset hall)
  · exact h.owner?_head_ne ht hformer'

theorem step (h : Absorbing t r loose guests id p (root :: waiting)) :
    Absorbing t (r.absorb id root).1 ((r.absorb id root).2 ++ loose) guests id p waiting := by
  have hid (ht : t.live) : r.IsLive id ∧ r.owner? root ≠ some id :=
    ⟨h.live ht, h.owner?_head_ne ht⟩
  constructor
  · exact h.lift_head.handOver (fun q hq => (List.mem_filter.mp hq).1)
      (fun q hq => (h.sound.guest q hq).2.2.2.1) h.le hid (.refl _ _)
      (OpenFiles.with_addReferenced _ root)
  · show (if p = root then some id else _) = some id
    rw [if_neg (Ne.symm h.head_ne), owner?_evict, if_neg h.notMem_evicted]
    exact h.owner
  · show id ≤ ((r.modifyOpenFiles _).evict _).1.lastProject
    rw [lastProject_evict]
    exact h.le
  · exact fun ht => (isLive_setOwner ..).mpr (isLive_evict.mpr (hid ht))
  · intro ht c hc
    obtain ⟨c', hc', hkind, -⟩ := kind_setOwner hc
    have hc'' : (r.modifyOpenFiles (·.removeRoot root)).charter? id = some c' := charter?_evict hc'
    exact hkind ▸ h.inferred ht c' hc''
  · intro ht q hq hq'
    obtain ⟨hroots, hmembers⟩ := mem_roots_evict.mp hq
    have hqr : q ≠ root := fun hqr => h.sound.roots_nodup.not_mem_erase (hqr ▸ hroots)
    have hq'' : (if q = root then some id else _) = some id := hq'
    rw [if_neg hqr, owner?_evict, if_neg hmembers] at hq''
    exact h.foreign ht q (List.mem_of_mem_erase hroots) hq''
  · exact (List.nodup_cons.mp h.nodup).2
  · intro q hq
    show ((r.modifyOpenFiles _).evict _).1.isOpen q
    rw [isOpen_evict]
    exact h.waiting_open q (by simp [hq])
  · -- a root that waits stays in its list, or else it goes with the project of the absorbed one
    intro q hq
    have hqr : q ≠ root := fun hqr => (List.nodup_cons.mp h.nodup).1 (hqr ▸ hq)
    have howner : (r.absorb id root).1.owner? q =
        if q ∈ ((r.modifyOpenFiles (·.removeRoot root)).evict (r.owner? root)).2 then none
        else r.owner? q := by
      show (if q = root then some id else _) = _
      rw [if_neg hqr, owner?_evict]
      rfl
    by_cases hmembers : q ∈ ((r.modifyOpenFiles (·.removeRoot root)).evict (r.owner? root)).2
    · right
      rw [howner, if_pos hmembers]
      exact ⟨rfl, List.mem_append_left _ (List.mem_filter.mpr ⟨hmembers, by simpa using hqr⟩)⟩
    · rw [howner, if_neg hmembers]
      refine (h.waiting_placed q (by simp [hq])).imp (fun hroots => ?_)
        (And.imp_right (List.mem_append_right _))
      exact mem_roots_evict.mpr ⟨(List.mem_erase_of_ne hqr).mpr hroots, hmembers⟩

end Absorbing

/-- A document that was given a new inferred project may absorb roots. -/
theorem Sound.absorbing (h : Sound t r loose [p] guests) {waiting : List Path}
    (hwaiting : waiting.Sublist r.openFiles.roots) :
    Absorbing t ((r.enroll .inferred [p]).setOwner p (some (r.lastProject + 1))) loose guests
      (r.lastProject + 1) p waiting := by
  have hcharter : (r.enroll .inferred [p]).charter? (r.lastProject + 1) =
      some ⟨.inferred, [p], 0⟩ := by
    simp [Registry.enroll]
  exact
    { sound := (h.enroll .inferred [p]).assign (p := p) (by simp) (Nat.le_refl _)
      owner := by simp
      le := Nat.le_refl _
      live := fun _ => (isLive_setOwner ..).mpr (by simp [IsLive, hcharter])
      inferred := fun _ c hc => by
        obtain ⟨c', hc', hkind, -⟩ := kind_setOwner hc
        obtain rfl : ⟨.inferred, [p], 0⟩ = c' := by simpa [hcharter] using hc'
        exact hkind.symm
      foreign := fun ht q hq hq' => by
        have hqp : q ≠ p := fun hqp => (h.moving_free p (by simp)).2.1 (hqp ▸ hq)
        rw [setOwner_owner?, if_neg hqp] at hq'
        exact absurd (h.owner_le q _ hq') (Nat.not_succ_le_self _)
      nodup := hwaiting.nodup h.roots_nodup
      waiting_open := fun q hq => (h.isOpen_of_mem_roots (hwaiting.subset hq) :)
      waiting_placed := fun q hq => .inl (hwaiting.subset hq) }

end Registry

namespace Workspace

open Registry

variable {t : Terms} {w : Workspace} {loose moving guests : List Path} {p root : Path}

theorem evict_eq (w : Workspace) (former? : Option ProjectId) :
    (w.evict former?).1.registry = (w.registry.evict former?).1 ∧
      (w.evict former?).2 = (w.registry.evict former?).2 := by
  cases former? with
  | none => exact ⟨rfl, rfl⟩
  | some former => exact removeProject_eq w former

theorem absorb_eq (id : ProjectId) (detached : List Path) (hopen : w.isOpen root) :
    (absorb id (w, detached) root).1.registry = (w.registry.absorb id root).1 ∧
      (absorb id (w, detached) root).2 = detached ++ (w.registry.absorb id root).2 := by
  obtain ⟨hregistry, horphans⟩ :=
    evict_eq (w.modifyOpenFiles (·.removeRoot root)) (w.owner? root)
  unfold absorb
  dsimp only
  constructor
  · rw [registry_emit, registry_modifyOpenFiles, registry_setOwner, hregistry]
    · rfl
    · left
      rw [← registry_isOpen, hregistry, isOpen_evict]
      exact hopen
  · rw [horphans]
    rfl

theorem absorbing_absorb {id : ProjectId} {waiting detached : List Path}
    (h : Absorbing t w.registry (detached ++ loose) guests id p (root :: waiting)) :
    Absorbing t (absorb id (w, detached) root).1.registry
      ((absorb id (w, detached) root).2 ++ loose) guests id p waiting := by
  obtain ⟨hregistry, hdetached⟩ := absorb_eq id detached (h.waiting_open root (by simp))
  rw [hregistry, hdetached, List.append_assoc]
  exact h.step.perm (List.perm_append_comm_assoc ..)

theorem absorbing_foldl {id : ProjectId} {waiting detached : List Path}
    (h : Absorbing t w.registry (detached ++ loose) guests id p waiting) :
    Absorbing t (waiting.foldl (absorb id) (w, detached)).1.registry
      ((waiting.foldl (absorb id) (w, detached)).2 ++ loose) guests id p [] := by
  induction waiting generalizing w detached with
  | nil => exact h
  | cons root waiting ih =>
      have hstep := absorbing_absorb h
      rw [List.foldl_cons]
      generalize absorb id (w, detached) root = state at hstep ⊢
      exact ih hstep

/-- A project is founded for a document by making it, and having it absorb some roots. -/
theorem foundProject_eq (hopen : w.isOpen p) (absorbs : Bool) :
    ∃ (founded : Workspace) (waiting : List Path),
      founded.registry = (w.registry.enroll .inferred [p]).setOwner p (some (w.lastProject + 1)) ∧
      waiting.Sublist w.openFiles.roots ∧
      w.foundProject p absorbs =
        ((waiting.foldl (absorb (w.lastProject + 1)) (founded, [])).1.modifyOpenFiles (·.addRoot p),
          (waiting.foldl (absorb (w.lastProject + 1)) (founded, [])).2) := by
  obtain ⟨hcreated, hid⟩ := createInferred_eq w p
  unfold foundProject
  generalize w.createInferred p = created at hcreated hid ⊢
  obtain ⟨created, id⟩ := created
  dsimp only at hcreated hid ⊢
  subst hid
  have hopen' : created.isOpen p := by
    rw [← registry_isOpen, hcreated]
    exact hopen
  have hfounded : (created.setOwner p (some (w.lastProject + 1))).registry =
      (w.registry.enroll .inferred [p]).setOwner p (some (w.lastProject + 1)) := by
    rw [registry_setOwner (.inl hopen'), hcreated]
  have hopenFiles : (created.setOwner p (some (w.lastProject + 1))).openFiles = w.openFiles :=
    congrArg Registry.openFiles hfounded
  refine ⟨_, _, hfounded, ?_, rfl⟩
  split
  · rw [hopenFiles]
    exact List.filter_sublist
  · exact List.nil_sublist _

/-- A document is given a project of its own. -/
theorem foundProject_sound (h : Sound t w.registry loose [p] guests) (absorbs : Bool) :
    Sound t (w.foundProject p absorbs).1.registry ((w.foundProject p absorbs).2 ++ loose) []
      guests := by
  obtain ⟨founded, waiting, hregistry, hwaiting, heq⟩ :=
    foundProject_eq (h.moving_free p (by simp)).1 absorbs
  have habsorbing : Absorbing t founded.registry ([] ++ loose) guests (w.lastProject + 1) p
      waiting := by
    rw [hregistry]
    exact h.absorbing hwaiting
  have habsorbed := absorbing_foldl habsorbing
  rw [heq]
  exact habsorbed.sound.put habsorbed.owner habsorbed.live
    (OpenFiles.with_addRoot _ p habsorbed.inferred)

/-- A project whose property is known is live. -/
theorem isLive_of_projectHas {id : ProjectId} {property : Project → Bool}
    (h : w.projectHas id property) : w.registry.IsLive id := by
  unfold projectHas at h
  simp only [IsLive, registry]
  cases hproject : w.projects.get? id <;> simp [hproject] at h ⊢

/-- A document joins a live project, as a root or as a referenced file. -/
theorem join?_cases (hopen : w.isOpen p) {joined : Workspace} (hjoined : w.join? p = some joined) :
    ∃ id, w.registry.IsLive id ∧
      (joined.registry = (w.registry.setOwner p (some id)).modifyOpenFiles (·.addConfiguredRoot p) ∨
        joined.registry =
          (w.registry.setOwner p (some id)).modifyOpenFiles (·.addReferenced p)) := by
  unfold join? at hjoined
  split at hjoined
  · rename_i id hid
    obtain rfl := Option.some.inj hjoined
    rw [rootingProject?] at hid
    refine ⟨id, isLive_of_projectHas (by simpa using List.find?_some hid), .inl ?_⟩
    rw [registry_modifyOpenFiles, registry_setOwner (.inl hopen)]
  · split at hjoined
    · rename_i id hid
      obtain rfl := Option.some.inj hjoined
      rw [reachingProject?] at hid
      have hfound := List.find?_some hid
      simp only [Bool.and_eq_true] at hfound
      refine ⟨id, isLive_of_projectHas hfound.2, .inr ?_⟩
      rw [registry_modifyOpenFiles, registry_setOwner (.inl hopen)]
    · simp at hjoined

/-- A document goes to a project that is there. -/
theorem join?_sound (h : Sound t w.registry loose [p] guests) {joined : Workspace}
    (hjoined : w.join? p = some joined) : Sound t joined.registry loose [] guests := by
  obtain ⟨id, hlive, hregistry⟩ := join?_cases (h.moving_free p (by simp)).1 hjoined
  have hassigned := h.assign (p := p) (by simp) (h.live_le id hlive)
  have hlive' : t.live → (w.registry.setOwner p (some id)).IsLive id := fun _ =>
    (isLive_setOwner ..).mpr hlive
  rcases hregistry with hregistry | hregistry
  · rw [hregistry]
    exact hassigned.put (by simp) hlive' (OpenFiles.with_addConfiguredRoot ..)
  · rw [hregistry]
    exact hassigned.put (by simp) hlive' (OpenFiles.with_addReferenced ..)

/-- A way of attaching documents that keeps the invariant. -/
def Attaches (t : Terms) (guests : List Path) (attach : Workspace → Path → Workspace) : Prop :=
  ∀ ⦃w p loose⦄, Sound t w.registry loose [p] guests →
    Sound t (attach w p).registry loose [] guests

/-- A document is attached again only if it is open and has no project. -/
theorem reattachBy_cases (attach : Workspace → Path → Workspace) (w : Workspace) (p : Path) :
    (reattachBy attach w p = w ∧ (w.isOpen p = false ∨ w.owner? p ≠ none)) ∨
      ((reattachBy attach w p).registry =
          (attach (w.modifyOpenFiles (·.remove p)) p).registry ∧
        w.isOpen p ∧ w.owner? p = none) := by
  unfold reattachBy
  cases hopen : w.isOpen p with
  | false => simp
  | true => cases w.owner? p <;> simp

theorem lift_loose {r : Registry} (h : Sound t r (p :: loose) [] guests) (hopen : r.isOpen p)
    (hnone : r.owner? p = none) :
    Sound t (r.modifyOpenFiles (·.remove p)) ((p :: loose).filter (· ≠ p)) [p] guests :=
  h.lift (OpenFiles.without_remove r.openFiles p) hopen (by simp)
    (fun hg => (h.guest p hg).2.2.2.1 (by simp)) h.roots_nodup.not_mem_erase
    fun ht hmem => h.listed_owned ht p ((OpenFiles.without_remove ..).sublist.subset hmem) hnone

theorem reattachBy_sound {attach : Workspace → Path → Workspace}
    (hattach : Attaches t guests attach)
    (h : Sound t w.registry (p :: loose) [] guests) :
    Sound t (reattachBy attach w p).registry loose [] guests := by
  have hguests : ∀ q ∈ guests, q ∉ loose := fun q hq hq' =>
    (h.guest q hq).2.2.2.1 (by simp [hq'])
  rcases reattachBy_cases attach w p with ⟨hsame, hskip⟩ | ⟨hregistry, hopen, hnone⟩
  · rw [hsame]
    refine h.weaken (fun q hq hopen hnone => .inl ?_) hguests
    rcases List.mem_cons.mp hq with rfl | hq
    · have hclosed := hskip.resolve_right (not_not_intro hnone)
      simp [hclosed] at hopen
    · exact hq
  · have hattached := hattach (w := w.modifyOpenFiles (·.remove p)) (lift_loose h hopen hnone)
    rw [hregistry]
    refine hattached.weaken (fun q hq _ _ => .inl ?_) hguests
    obtain ⟨hq, hqp⟩ := List.mem_filter.mp hq
    exact (List.mem_cons.mp hq).resolve_left (by simpa using hqp)

theorem foldl_reattachBy_sound {attach : Workspace → Path → Workspace}
    (hattach : Attaches t guests attach) {paths : List Path}
    (h : Sound t w.registry (paths ++ loose) [] guests) :
    Sound t (paths.foldl (reattachBy attach) w).registry loose [] guests := by
  induction paths generalizing w with
  | nil => exact h
  | cons p paths ih => exact ih (reattachBy_sound hattach h)

/-- Each level of the recursion hands its own loose documents to the next one. -/
theorem attaches_attachWithin (t : Terms) (guests : List Path) (depth : Nat) :
    Attaches t guests (attachWithin depth) := by
  induction depth with
  | zero =>
      intro w p loose h
      rw [← registry_refresh] at h
      unfold attachWithin
      dsimp only
      cases hjoined : w.refresh.join? p with
      | some joined => exact join?_sound h hjoined
      | none => exact foundProject_sound h false
  | succ depth ih =>
      intro w p loose h
      rw [← registry_refresh] at h
      unfold attachWithin
      dsimp only
      cases hjoined : w.refresh.join? p with
      | some joined => exact join?_sound h hjoined
      | none => exact foldl_reattachBy_sound ih (foundProject_sound h true)

theorem attach_sound (h : Sound t w.registry loose [p] guests) :
    Sound t (w.attach p).registry loose [] guests :=
  attaches_attachWithin t guests _ h

theorem reattach_sound {paths : List Path} (h : Sound t w.registry (paths ++ loose) [] guests) :
    Sound t (w.reattach paths).registry loose [] guests :=
  foldl_reattachBy_sound (fun _ _ _ => attach_sound) h

theorem removeProject_sound (h : Sound t w.registry loose moving guests) (id : ProjectId) :
    Sound t (w.removeProject id).1.registry ((w.removeProject id).2 ++ loose) moving guests := by
  obtain ⟨hregistry, hmembers⟩ := removeProject_eq w id
  rw [hregistry, hmembers]
  exact h.strike id

theorem dissolve_sound (h : Sound t w.registry loose [] guests) (id : ProjectId) :
    Sound t (w.dissolve id).registry loose [] guests :=
  reattach_sound (removeProject_sound h id)

end Workspace

end ProjectTracker
