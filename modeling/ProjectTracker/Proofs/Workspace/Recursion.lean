import ProjectTracker.Proofs.Workspace.Placement
import ProjectTracker.Proofs.Workspace.Planting
/-!
How documents are attached, told without a bound on the depth of it. The bound is never reached. An inferred project
that is made on the way and then taken over has only files that its successor has as well. Each further level thus
takes over a root that was there before, and there are fewer of these than levels.
-/

namespace ProjectTracker

namespace Workspace

open Registry

/-! ### Steps on the way -/

/-- A workspace is rearranged by steps that leave the roots of inferred projects in order. -/
structure Rearranges (w w' : Workspace) : Prop where
  shifts : Shifts w w'
  planted : ∀ first, Planted first [] w.registry → Planted first [] w'.registry

theorem rearranges_refresh (w : Workspace) : Rearranges w w.refresh :=
  ⟨shifts_refresh w, fun _ h => by rwa [registry_refresh]⟩

theorem rearranges_remove (w : Workspace) (p : Path) : Rearranges w (w.modifyOpenFiles (·.remove p)) :=
  ⟨shifts_modifyOpenFiles .., fun _ h => h.relist (OpenFiles.below_remove w.openFiles p).roots⟩

theorem rearranges_reattachBy {attach : Workspace → Path → Workspace}
    (hshifts : ∀ w p, w.isTracked p → Shifts w (attach w p)) (hplants : ∀ first, Plants first [] attach)
    (w : Workspace) (p : Path) : Rearranges w (reattachBy attach w p) :=
  ⟨shifts_reattachBy hshifts w p, fun first h => reattachBy_planted (hplants first) h p⟩

/-! ### Attaching without a bound -/

/-- Documents are attached again, one after the other. Wherever a project is made something holds. None is made for
those documents that are certain to find one. -/
inductive ReattachesTo (holds : Workspace → Path → Prop) :
    (Path → Prop) → Workspace → List Path → Workspace → Prop where
  | nil {certain : Path → Prop} {w : Workspace} : ReattachesTo holds certain w [] w
  | stay {certain : Path → Prop} {w v : Workspace} {p : Path} {ps : List Path}
    (hstays : w.isOpen p → w.owner? p ≠ none) (hrest : ReattachesTo holds certain w ps v) :
    ReattachesTo holds certain w (p :: ps) v
  | join {certain : Path → Prop} {w v joined : Workspace} {p : Path} {ps : List Path}
    (hopen : w.isOpen p) (hnone : w.owner? p = none)
    (hjoined : (w.modifyOpenFiles (·.remove p)).refresh.join? p = some joined)
    (hrest : ReattachesTo holds certain (joined.emit (.contextChanged p (joined.owner? p))) ps v) :
    ReattachesTo holds certain w (p :: ps) v
  | found {certain : Path → Prop} {w v lifted attached : Workspace} {p : Path} {ps : List Path}
    (hopen : w.isOpen p) (hnone : w.owner? p = none) (huncertain : ¬certain p)
    (hlifted : lifted = (w.modifyOpenFiles (·.remove p)).refresh) (hjoined : lifted.join? p = none)
    (hholds : holds lifted p)
    (hdetached : ReattachesTo holds
      (fun q => (lifted.foundProject p true).1.projectHas (lifted.lastProject + 1) (·.contains q))
      (lifted.foundProject p true).1 (lifted.foundProject p true).2 attached)
    (hrest : ReattachesTo holds certain (attached.emit (.contextChanged p (attached.owner? p))) ps v) :
    ReattachesTo holds certain w (p :: ps) v

variable {holds : Workspace → Path → Prop} {certain : Path → Prop} {w w' w'' v attached : Workspace}
  {p q root : Path} {ps waiting detached : List Path} {first first' id former : ProjectId} {held : Holding}

/-- A document is attached, and then those that lost their project over it. -/
def AttachesTo (holds : Workspace → Path → Prop) (w : Workspace) (p : Path) (v : Workspace) : Prop :=
  match w.refresh.join? p with
  | some joined => v = joined
  | none => holds w.refresh p ∧ ReattachesTo holds
      (fun q => (w.refresh.foundProject p true).1.projectHas (w.refresh.lastProject + 1) (·.contains q))
      (w.refresh.foundProject p true).1 (w.refresh.foundProject p true).2 v

theorem attachesTo_join {joined : Workspace} (hjoined : w.refresh.join? p = some joined) :
    AttachesTo holds w p joined := by
  rw [AttachesTo, hjoined]

theorem attachesTo_found (hjoined : w.refresh.join? p = none) (hholds : holds w.refresh p)
    (h : ReattachesTo holds
      (fun q => (w.refresh.foundProject p true).1.projectHas (w.refresh.lastProject + 1) (·.contains q))
      (w.refresh.foundProject p true).1 (w.refresh.foundProject p true).2 v) :
    AttachesTo holds w p v := by
  rw [AttachesTo, hjoined]
  exact ⟨hholds, h⟩

theorem attachesTo_refresh : AttachesTo holds w.refresh p v ↔ AttachesTo holds w p v := by
  rw [AttachesTo, AttachesTo, refresh_eq_self (fresh_refresh w)]

theorem ReattachesTo.again (hopen : w.isOpen p) (hnone : w.owner? p = none)
    (hcertain : certain p → (w.modifyOpenFiles (·.remove p)).refresh.join? p ≠ none)
    (hattaches : AttachesTo holds (w.modifyOpenFiles (·.remove p)) p attached)
    (hrest : ReattachesTo holds certain (attached.emit (.contextChanged p (attached.owner? p))) ps v) :
    ReattachesTo holds certain w (p :: ps) v := by
  rw [AttachesTo] at hattaches
  split at hattaches
  · rename_i joined hjoined
    subst hattaches
    exact .join hopen hnone hjoined hrest
  · rename_i hjoined
    exact .found hopen hnone (fun hp => hcertain hp hjoined) rfl hjoined hattaches.1 hattaches.2 hrest

theorem reattachBy_stay (attach : Workspace → Path → Workspace) (h : w.isOpen p → w.owner? p ≠ none) :
    reattachBy attach w p = w := by
  rw [reattachBy, if_pos]
  cases hopen : w.isOpen p with
  | false => rfl
  | true => simpa using Option.isSome_iff_ne_none.mpr (h hopen)

theorem reattachBy_again (attach : Workspace → Path → Workspace) (hopen : w.isOpen p)
    (hnone : w.owner? p = none) : reattachBy attach w p =
      (attach (w.modifyOpenFiles (·.remove p)) p).emit
        (.contextChanged p ((attach (w.modifyOpenFiles (·.remove p)) p).owner? p)) := by
  rw [reattachBy, if_neg (by simp [hopen, hnone])]

theorem ReattachesTo.cons {attach : Workspace → Path → Workspace}
    (hattaches : w.isOpen p → w.owner? p = none →
      AttachesTo holds (w.modifyOpenFiles (·.remove p)) p (attach (w.modifyOpenFiles (·.remove p)) p))
    (hcertain : certain p → (w.modifyOpenFiles (·.remove p)).refresh.join? p ≠ none)
    (hrest : ReattachesTo holds certain (reattachBy attach w p) ps v) :
    ReattachesTo holds certain w (p :: ps) v := by
  by_cases hstays : w.isOpen p → w.owner? p ≠ none
  · rw [reattachBy_stay attach hstays] at hrest
    exact .stay hstays hrest
  · obtain ⟨hopen, hnone⟩ := Classical.not_imp.mp hstays
    have hnone : w.owner? p = none := not_not.mp hnone
    rw [reattachBy_again attach hopen hnone] at hrest
    exact .again hopen hnone hcertain (hattaches hopen hnone) hrest

/-- There is one way of attaching documents again, whatever holds on it. -/
theorem ReattachesTo.unique {holds' : Workspace → Path → Prop} {certain' : Path → Prop} {v' : Workspace}
    (h : ReattachesTo holds certain w ps v) (h' : ReattachesTo holds' certain' w ps v') : v = v' := by
  induction h generalizing certain' v' with
  | nil =>
      cases h'
      rfl
  | stay hstays _ ih =>
      cases h' with
      | stay _ hrest => exact ih hrest
      | join hopen hnone => exact absurd hnone (hstays hopen)
      | found hopen hnone => exact absurd hnone (hstays hopen)
  | join hopen hnone hjoined _ ih =>
      cases h' with
      | stay hstays => exact absurd hnone (hstays hopen)
      | join _ _ hjoined' hrest =>
          obtain rfl := Option.some.inj (hjoined.symm.trans hjoined')
          exact ih hrest
      | found _ _ _ hlifted hjoined' =>
          subst hlifted
          simp [hjoined] at hjoined'
  | found hopen hnone _ hlifted hjoined _ _ _ ih ih' =>
      subst hlifted
      cases h' with
      | stay hstays => exact absurd hnone (hstays hopen)
      | join _ _ hjoined' => simp [hjoined] at hjoined'
      | found _ _ _ hlifted _ _ hdetached hrest =>
          subst hlifted
          obtain rfl := ih hdetached
          exact ih' hrest

theorem AttachesTo.unique {holds' : Workspace → Path → Prop} {v' : Workspace}
    (h : AttachesTo holds w p v) (h' : AttachesTo holds' w p v') : v = v' := by
  rw [AttachesTo] at h h'
  cases hjoined : w.refresh.join? p with
  | some joined =>
      rw [hjoined] at h h'
      exact h.trans h'.symm
  | none =>
      rw [hjoined] at h h'
      exact h.2.unique h'.2

/-! ### Old roots -/

/-- A file is in a project from some project on. -/
def Housed (first : ProjectId) (w : Workspace) (q : Path) : Prop :=
  ∃ id held, first ≤ id ∧ w.holding? id = some held ∧ held.Contains q

/-- A root has no project, or one before some project. -/
def isSenior (first : ProjectId) (w : Workspace) (root : Path) : Bool :=
  (w.owner? root).all (· < first)

theorem isSenior_iff : w.isSenior first root ↔ ∀ id, w.owner? root = some id → id < first := by
  unfold isSenior
  cases w.owner? root <;> simp

/-- The number of roots of inferred projects that have a project from before some project, or none. -/
def seniors (first : ProjectId) (w : Workspace) : Nat :=
  (w.openFiles.roots.filter (w.isSenior first)).length

/-- No root has come that is not new, and a file that was in a new project still is. -/
structure Succeeds (first : ProjectId) (w w' : Workspace) : Prop where
  seniors : w'.seniors first ≤ w.seniors first
  housed : ∀ q, w.Housed first q → w'.Housed first q

theorem Succeeds.refl (first : ProjectId) (w : Workspace) : Succeeds first w w :=
  ⟨Nat.le_refl _, fun _ hq => hq⟩

theorem Succeeds.trans (h : Succeeds first w w') (h' : Succeeds first w' w'') : Succeeds first w w'' :=
  ⟨Nat.le_trans h'.seniors h.seniors, fun q hq => h'.housed q (h.housed q hq)⟩

/-- Roots that leave their list are old ones or new ones. -/
theorem seniors_sublist (hroots : w'.openFiles.roots.Sublist w.openFiles.roots)
    (howner : ∀ q ∈ w'.openFiles.roots, w'.owner? q = w.owner? q) :
    (w'.openFiles.roots.filter (w'.isSenior first)).Sublist
      (w.openFiles.roots.filter (w.isSenior first)) := by
  have hsame : w'.openFiles.roots.filter (w'.isSenior first) =
      w'.openFiles.roots.filter (w.isSenior first) := by
    refine List.filter_congr fun q hq => ?_
    unfold isSenior
    rw [howner q hq]
  rw [hsame]
  exact hroots.filter _

theorem seniors_le (hroots : w'.openFiles.roots.Sublist w.openFiles.roots)
    (howner : ∀ q ∈ w'.openFiles.roots, w'.owner? q = w.owner? q) :
    w'.seniors first ≤ w.seniors first :=
  (seniors_sublist hroots howner).length_le

/-- An old root that goes makes one less of them. -/
theorem seniors_lt (hroots : w'.openFiles.roots.Sublist w.openFiles.roots)
    (howner : ∀ q ∈ w'.openFiles.roots, w'.owner? q = w.owner? q) (hroot : root ∈ w.openFiles.roots)
    (hgone : root ∉ w'.openFiles.roots) (hsenior : w.isSenior first root) :
    w'.seniors first < w.seniors first := by
  have hsublist : (w'.openFiles.roots.filter (w'.isSenior first)).Sublist
      (w.openFiles.roots.filter (w.isSenior first)) := seniors_sublist hroots howner
  refine Nat.lt_of_le_of_ne hsublist.length_le fun heq => hgone ?_
  have hmem : root ∈ w.openFiles.roots.filter (w.isSenior first) :=
    List.mem_filter.mpr ⟨hroot, hsenior⟩
  rw [← hsublist.eq_of_length heq] at hmem
  exact (List.mem_filter.mp hmem).1

theorem Succeeds.of_sublist (hheld : w'.holding? = w.holding?)
    (hroots : w'.openFiles.roots.Sublist w.openFiles.roots)
    (howner : ∀ q ∈ w'.openFiles.roots, w'.owner? q = w.owner? q) : Succeeds first w w' where
  seniors := seniors_le hroots howner
  housed q hq := by simpa [Housed, hheld] using hq

/-- There are no more roots than inferred projects. -/
theorem seniors_le_inferred (hw : w.Enlisted) (h : Planted first' [] w.registry) :
    w.seniors first ≤ w.inferred.length := by
  obtain ⟨ids, hnodup, hlength, hids⟩ := h.infers
  have hsubset : ids ⊆ w.inferred := fun id hid => by
    obtain ⟨held, hheld, hkind⟩ := has_iff.mp (hids id hid)
    exact (hw.orderly.inferred id).mpr ⟨held, hheld, hkind⟩
  have hle := (hnodup.subperm hsubset).length_le
  have hroots : w.seniors first ≤ w.openFiles.roots.length := List.length_filter_le ..
  exact Nat.le_trans hroots (Nat.le_trans hlength hle)

/-- Documents may be attached: the lists of projects are right, and the new projects have the files that
their roots lead to. -/
structure Ready (first : ProjectId) (w : Workspace) : Prop where
  enlisted : w.Enlisted
  current : Current first w
  le : first ≤ w.lastProject + 1

theorem Ready.shifts (h : Ready first w) (hw : Shifts w w') : Ready first w' :=
  ⟨h.enlisted.shifts hw, h.current.shifts hw,
    Nat.le_trans h.le (Nat.succ_le_succ hw.lastProject_le)⟩

/-- No project is new yet. -/
theorem ready_start (hw : w.Enlisted) : Ready (w.lastProject + 1) w := by
  have hnone (id : ProjectId) (held : Holding) (hid : w.lastProject + 1 ≤ id)
      (hheld : w.holding? id = some held) : False :=
    absurd (Nat.le_trans hid (hw.orderly.le id held hheld)) (Nat.not_succ_le_self _)
  exact ⟨hw, ⟨fun id held hid hheld => (hnone id held hid hheld).elim,
    fun id held hid hheld => (hnone id held hid hheld).elim,
    fun id held hid hheld => (hnone id held hid hheld).elim⟩, Nat.le_refl _⟩

/-- A listed document is in its project if that is a new one. -/
def Belongs (first : ProjectId) (w : Workspace) : Prop :=
  ∀ q ∈ w.openFiles.all, ∀ id held, w.owner? q = some id → first ≤ id → w.holding? id = some held →
    held.Contains q

/-- The projects are up to date, and the new ones have their documents. -/
structure Prepared (first : ProjectId) (w : Workspace) : Prop extends Ready first w where
  fresh : ∀ id held, w.holding? id = some held → held.isStale = false
  belongs : w.Belongs first

/-! ### Taking over roots -/

theorem holding?_removeProject (w : Workspace) (id : ProjectId) :
    (w.removeProject id).1.holding? = without w.holding? id := by
  funext i
  rw [← roster_holding?, (removeProject_contents w id).2.1, Roster.holding?_strike]
  rfl

theorem holding?_unseat (w : Workspace) (root : Path) :
    (w.unseat root).holding? = fun i => if w.owner? root = some i then none else w.holding? i := by
  have hlifted : (w.modifyOpenFiles (·.removeRoot root)).holding? = w.holding? := rfl
  unfold Workspace.unseat
  funext i
  cases howner : w.owner? root with
  | none => simp [Workspace.evict, hlifted]
  | some former =>
      simp only [Workspace.evict, holding?_removeProject, hlifted, without, Option.some.injEq]
      simp only [eq_comm]

theorem holding?_unseat_eq_some {i : ProjectId} : (w.unseat root).holding? i = some held ↔
    w.owner? root ≠ some i ∧ w.holding? i = some held := by
  rw [holding?_unseat]
  dsimp only
  split <;> simp [*]

theorem absorb_unseat (id : ProjectId) (w : Workspace) (detached : List Path) (root : Path) :
    (absorb id (w, detached) root).1 =
      (((w.unseat root).setOwner root (some id)).modifyOpenFiles (·.addReferenced root)).emit
        (.contextChanged root (some id)) := rfl

theorem holding?_absorb (id : ProjectId) (w : Workspace) (detached : List Path) (root : Path) :
    (absorb id (w, detached) root).1.holding? = (w.unseat root).holding? := by
  rw [absorb_unseat]
  exact congrArg Roster.holding?
    ((calm_setOwner ..).trans ((calm_modifyOpenFiles ..).trans (calm_emit ..))).roster

/-- A new project takes over roots that it reaches. The documents that this leaves without a project are
listed. -/
structure Taking (first id : ProjectId) (p : Path) (waiting : List Path) (w : Workspace) : Prop where
  uprooting : Uprooting first [] id p waiting w.registry
  prepared : Prepared first w
  le : first ≤ id
  held : ∃ held, w.holding? id = some held ∧ held.roots = [p] ∧ ∀ q ∈ waiting, q ∈ held.files

namespace Taking

/-- A new project whose root it reaches has no files of its own. -/
theorem contains (h : Taking first id p (root :: waiting) w)
    (hheld : w.holding? former = some held) (hroots : held.roots = [root])
    (hfirst : first ≤ former) (hq : held.Contains q) :
    ∃ held, w.holding? id = some held ∧ held.Contains q := by
  obtain ⟨heldId, hheldId, hrootsId, hfiles⟩ := h.held
  have hroot : root ∈ heldId.files := hfiles root (by simp)
  refine ⟨heldId, hheldId, .inl ?_⟩
  rcases hq with hq | hq
  · have hcurrent := h.prepared.current
    rw [hcurrent.files id heldId h.le hheldId (h.prepared.fresh id heldId hheldId)] at hroot ⊢
    rw [hcurrent.files former held hfirst hheld (h.prepared.fresh former held hheld), hroots] at hq
    exact Scanner.fileSet_subset (covers_sources w)
      (fun q hq => .inl (hcurrent.rooted id heldId h.le hheldId q hq)) hroot hq
  · rw [hroots, List.mem_singleton] at hq
    exact hq ▸ hroot

theorem roots_absorb (h : Taking first id p (root :: waiting) w) (detached : List Path) :
    (absorb id (w, detached) root).1.openFiles.roots = (w.unseat root).openFiles.roots ∧
      ∀ q ∈ (w.unseat root).openFiles.roots,
        (absorb id (w, detached) root).1.owner? q = w.owner? q := by
  have hregistry := (absorb_eq id detached (h.uprooting.isOpen root (by simp))).1
  rw [← registry_openFiles, ← registry_openFiles, ← registry_owner?, hregistry, registry_unseat]
  refine ⟨rfl, fun q hq => ?_⟩
  have hqr : q ≠ root := fun hqr => h.uprooting.planted.notMem_unseat root (hqr ▸ hq)
  show (if q = root then some id else (w.registry.unseat root).owner? q) = _
  rw [if_neg hqr]
  exact owner?_unseat_of_mem hq

theorem seniors_absorb (h : Taking first id p (root :: waiting) w) :
    (absorb id (w, detached) root).1.seniors first ≤ w.seniors first ∧
      (root ∈ w.openFiles.roots → w.isSenior first root →
        (absorb id (w, detached) root).1.seniors first < w.seniors first) := by
  obtain ⟨hroots, howner⟩ := h.roots_absorb detached
  have hsublist : (absorb id (w, detached) root).1.openFiles.roots.Sublist w.openFiles.roots := by
    rw [hroots, ← registry_openFiles, registry_unseat]
    exact (below_unseat w.registry root).roots
  have hgone : root ∉ (absorb id (w, detached) root).1.openFiles.roots := by
    rw [hroots, ← registry_openFiles, registry_unseat]
    exact h.uprooting.planted.notMem_unseat root
  rw [← hroots] at howner
  exact ⟨seniors_le hsublist howner, fun hroot => seniors_lt hsublist howner hroot hgone⟩

/-- The project that a root leaves is an old one, or it has no other root. -/
theorem leaves (h : Taking first id p (root :: waiting) w)
    (howner : w.owner? root = some former) :
    (absorb id (w, detached) root).1.seniors first < w.seniors first ∨
      first ≤ former ∧ w.registry.Own root := by
  have hroot : root ∈ w.openFiles.roots :=
    (h.uprooting.placed root (by simp)).resolve_right (by simp [howner])
  by_cases hfirst : first ≤ former
  · refine .inr ⟨hfirst, (h.uprooting.planted.own root hroot).resolve_right fun hold => ?_⟩
    exact absurd (hold.2 former howner) (Nat.not_lt_of_le hfirst)
  · refine .inl (h.seniors_absorb.2 hroot (isSenior_iff.mpr fun i hi => ?_))
    exact Option.some.inj (howner.symm.trans hi) ▸ Nat.lt_of_not_le hfirst

theorem succeeds_absorb (h : Taking first id p (root :: waiting) w) :
    Succeeds first w (absorb id (w, detached) root).1 where
  seniors := h.seniors_absorb.1
  housed q hq := by
    have hne := h.uprooting.owner?_head_ne
    obtain ⟨i, held, hnew, hheld, hcontains⟩ := hq
    simp only [Housed, holding?_absorb, holding?_unseat_eq_some]
    by_cases howner : w.owner? root = some i
    · have hroot : root ∈ w.openFiles.roots :=
        (h.uprooting.placed root (by simp)).resolve_right (by simp [howner])
      have hown := (h.uprooting.planted.own root hroot).resolve_right fun hold =>
        absurd (hold.2 i howner) (Nat.not_lt_of_le hnew)
      obtain ⟨held', hheld', -, hroots⟩ := has_iff.mp (hown.of_owner howner)
      obtain rfl : held' = held := Option.some.inj (hheld'.symm.trans hheld)
      obtain ⟨heldId, hheldId, hcontainsId⟩ := h.contains hheld hroots hnew hcontains
      exact ⟨id, heldId, h.le, ⟨hne, hheldId⟩, hcontainsId⟩
    · exact ⟨i, held, hnew, ⟨howner, hheld⟩, hcontains⟩

/-- A document that goes loose with a root is in the new project, or else the root is an old one. -/
theorem loose_absorb (h : Taking first id p (root :: waiting) w)
    (hq : q ∈ (absorb id (w, detached) root).2) : q ∈ detached ∨
      (absorb id (w, detached) root).1.Housed first q ∨
      (absorb id (w, detached) root).1.seniors first < w.seniors first := by
  rw [(absorb_eq id detached (h.uprooting.isOpen root (by simp))).2] at hq
  refine (List.mem_append.mp hq).imp_right fun hq => ?_
  obtain ⟨hq, -⟩ := List.mem_filter.mp hq
  obtain ⟨hall, hformer, howner⟩ := mem_evict hq
  obtain ⟨former, hformer⟩ := Option.ne_none_iff_exists'.mp hformer
  refine (h.leaves hformer).symm.imp_left fun ⟨hfirst, hown⟩ => ?_
  obtain ⟨held, hheld, -, hroots⟩ := has_iff.mp (hown.of_owner hformer)
  have hall' : q ∈ w.openFiles.all := (OpenFiles.below_removeRoot _ root).all.subset hall
  have hcontains := h.prepared.belongs q hall' former held (howner.trans hformer) hfirst hheld
  obtain ⟨heldId, hheldId, hcontainsId⟩ := h.contains hheld hroots hfirst hcontains
  refine ⟨id, heldId, h.le, ?_, hcontainsId⟩
  rw [holding?_absorb]
  exact holding?_unseat_eq_some.mpr ⟨h.uprooting.owner?_head_ne, hheldId⟩

/-- Documents keep the project that they belong to, except for the root. -/
theorem owner?_absorb (h : Taking first id p (root :: waiting) w) {i : ProjectId} (hq : q ≠ root)
    (howner : (absorb id (w, detached) root).1.owner? q = some i) : w.owner? q = some i := by
  have hregistry := (absorb_eq id detached (h.uprooting.isOpen root (by simp))).1
  have howner' : (w.registry.absorb id root).1.owner? q = some i := by
    rw [← hregistry]
    exact howner
  have hunseated : (w.registry.unseat root).owner? q = some i := by
    have hgiven : (if q = root then some id else (w.registry.unseat root).owner? q) = some i := howner'
    rwa [if_neg hq] at hgiven
  rw [Registry.unseat, owner?_evict] at hunseated
  split at hunseated
  · simp at hunseated
  · exact hunseated

theorem belongs_absorb (h : Taking first id p (root :: waiting) w) :
    (absorb id (w, detached) root).1.Belongs first := by
  have hregistry := (absorb_eq id detached (h.uprooting.isOpen root (by simp))).1
  intro q hq i held howner hnew hheld
  rw [holding?_absorb, holding?_unseat_eq_some] at hheld
  by_cases hqr : q = root
  · subst hqr
    have hgiven : (absorb id (w, detached) q).1.owner? q = some id := by
      rw [← registry_owner?, hregistry]
      exact if_pos rfl
    obtain rfl : id = i := Option.some.inj (hgiven.symm.trans howner)
    obtain ⟨held', hheld', -, hfiles⟩ := h.held
    obtain rfl : held' = held := Option.some.inj (hheld'.symm.trans hheld.2)
    exact .inl (hfiles q (by simp))
  · have hall : q ∈ ((w.registry.unseat root).openFiles.addReferenced root).all := by
      rw [← registry_openFiles, hregistry] at hq
      exact hq
    have hall' : q ∈ (w.registry.unseat root).openFiles.all := by
      simpa [OpenFiles.all, OpenFiles.addReferenced, hqr] using hall
    exact h.prepared.belongs q ((below_unseat w.registry root).all.subset hall') i held
      (h.owner?_absorb hqr howner) hnew hheld.2

theorem absorb (h : Taking first id p (root :: waiting) w) :
    Taking first id p waiting (absorb id (w, detached) root).1 := by
  obtain ⟨heldId, hheldId, hrootsId, hfiles⟩ := h.held
  refine ⟨uprooting_absorb h.uprooting _, ⟨h.prepared.shifts (shifts_absorb id (w, detached) root),
    fun i held hheld => ?_, h.belongs_absorb⟩, h.le, heldId, ?_, hrootsId,
      fun q hq => hfiles q (by simp [hq])⟩
  · rw [holding?_absorb, holding?_unseat_eq_some] at hheld
    exact h.prepared.fresh i held hheld.2
  · rw [holding?_absorb]
    exact holding?_unseat_eq_some.mpr ⟨h.uprooting.owner?_head_ne, hheldId⟩

theorem foldl (h : Taking first id p waiting w) (detached : List Path) :
    let after := waiting.foldl (Workspace.absorb id) (w, detached)
    Taking first id p [] after.1 ∧ Succeeds first w after.1 ∧ after.1.holding? id = w.holding? id ∧
      ∀ q ∈ after.2, q ∈ detached ∨ after.1.Housed first q ∨
        after.1.seniors first < w.seniors first := by
  induction waiting generalizing w detached with
  | nil => exact ⟨h, .refl first _, rfl, fun q hq => .inl hq⟩
  | cons root waiting ih =>
      have hstep : Taking first id p waiting (Workspace.absorb id (w, detached) root).1 := h.absorb
      have hsucceeds : Succeeds first w (Workspace.absorb id (w, detached) root).1 :=
        h.succeeds_absorb
      have hloose (q : Path) (hq : q ∈ (Workspace.absorb id (w, detached) root).2) :=
        h.loose_absorb hq
      have hheld : (Workspace.absorb id (w, detached) root).1.holding? id = w.holding? id := by
        rw [holding?_absorb, holding?_unseat]
        exact if_neg h.uprooting.owner?_head_ne
      rw [List.foldl_cons]
      generalize Workspace.absorb id (w, detached) root = state at hstep hsucceeds hloose hheld ⊢
      obtain ⟨w', detached'⟩ := state
      obtain ⟨hrest, hsucceeds', hheld', hloose'⟩ := ih hstep detached'
      refine ⟨hrest, hsucceeds.trans hsucceeds', hheld'.trans hheld, fun q hq => ?_⟩
      have hseniors := hsucceeds'.seniors
      rcases hloose' q hq with hq | hhoused | hfewer
      · refine (hloose q hq).imp_right fun hloose => ?_
        refine hloose.imp (hsucceeds'.housed q) fun hfewer => ?_
        exact Nat.lt_of_le_of_lt hseniors hfewer
      · exact .inr (.inl hhoused)
      · exact .inr (.inr (Nat.lt_of_lt_of_le hfewer hsucceeds.seniors))

/-- A project that goes on the way had one of the roots. -/
theorem owner?_of_removed (h : Taking first id p waiting w) (hheld : w.holding? former = some held)
    (hgone : (waiting.foldl (Workspace.absorb id) (w, detached)).1.holding? former = none) :
    ∃ root ∈ waiting, w.owner? root = some former := by
  induction waiting generalizing w detached with
  | nil => exact absurd (hheld.symm.trans hgone) (Option.some_ne_none held)
  | cons root waiting ih =>
      by_cases howner : w.owner? root = some former
      · exact ⟨root, by simp, howner⟩
      have hstep : Taking first id p waiting (Workspace.absorb id (w, detached) root).1 := h.absorb
      have hstays : (Workspace.absorb id (w, detached) root).1.holding? former = some held := by
        rw [holding?_absorb]
        exact holding?_unseat_eq_some.mpr ⟨howner, hheld⟩
      obtain ⟨q, hq, howner'⟩ := ih hstep hstays hgone
      have hqr : q ≠ root := fun hqr => (List.nodup_cons.mp h.uprooting.nodup).1 (hqr ▸ hq)
      exact ⟨q, by simp [hq], h.owner?_absorb hqr howner'⟩

end Taking

/-! ### Founding projects -/

/-- A project has been made for a document, and the document has been given to it. -/
structure Founds (p : Path) (files : List Path) (w founded : Workspace) : Prop where
  registry : founded.registry = (w.registry.enroll .inferred [p]).setOwner p (some (w.lastProject + 1))
  shifts : Shifts w founded
  roster : founded.roster = w.roster.enroll ⟨.inferred, [p], files, false⟩

/-- The roots that a project which was made last reaches. -/
def reachedRoots (w founded : Workspace) : List Path :=
  w.openFiles.roots.filter fun root => founded.projectHas (w.lastProject + 1) (·.contains root)

/-- A project is made first and then takes over the roots that it reaches, one after the other. -/
theorem foundProject_parts (hopen : w.isOpen p) : ∃ files founded, Founds p files w founded ∧
    w.foundProject p true =
      let taken := (w.reachedRoots founded).foldl (absorb (w.lastProject + 1)) (founded, [])
      (taken.1.modifyOpenFiles (·.addRoot p), taken.2) := by
  obtain ⟨hcreated, hid⟩ := createInferred_eq w p
  have hcreates := createInferred_creates (isTracked_of_isOpen hopen)
  obtain ⟨found, -, -, hroster, -⟩ := hcreates.roster
  have hgiven := calm_setOwner (w.createInferred p).1 p (some (w.lastProject + 1))
  have hopen' : (w.createInferred p).1.isOpen p := by
    rw [← registry_isOpen, hcreated]
    exact hopen
  have hregistry : ((w.createInferred p).1.setOwner p (some (w.lastProject + 1))).registry =
      (w.registry.enroll .inferred [p]).setOwner p (some (w.lastProject + 1)) := by
    rw [registry_setOwner (.inl hopen'), hcreated]
  have hopenFiles : ((w.createInferred p).1.setOwner p (some (w.lastProject + 1))).openFiles =
      w.openFiles := congrArg Registry.openFiles hregistry
  refine ⟨_, _, ⟨hregistry, (Shifts.creates hcreates).trans (.calm hgiven), hgiven.roster.trans hroster⟩, ?_⟩
  unfold foundProject reachedRoots
  dsimp only
  rw [hid, if_pos rfl, hopenFiles]

theorem Enlisted.holding?_next (h : w.Enlisted) : w.holding? (w.lastProject + 1) = none := by
  by_contra hlive
  obtain ⟨held, hheld⟩ := Option.ne_none_iff_exists'.mp hlive
  exact absurd (h.orderly.le _ held hheld) (Nat.not_succ_le_self _)

namespace Founds

variable {files : List Path} {founded : Workspace}

theorem holding?_eq (h : Founds p files w founded) (i : ProjectId) : founded.holding? i =
    if i = w.lastProject + 1 then some ⟨.inferred, [p], files, false⟩ else w.holding? i := by
  rw [← roster_holding?, h.roster]
  rfl

theorem holding?_new (h : Founds p files w founded) :
    founded.holding? (w.lastProject + 1) = some ⟨.inferred, [p], files, false⟩ := by
  rw [h.holding?_eq, if_pos rfl]

theorem openFiles_eq (h : Founds p files w founded) : founded.openFiles = w.openFiles := by
  rw [← registry_openFiles, h.registry]
  rfl

theorem owner?_eq (h : Founds p files w founded) (q : Path) :
    founded.owner? q = if q = p then some (w.lastProject + 1) else w.owner? q := by
  rw [← registry_owner?, h.registry, setOwner_owner?]
  rfl

theorem owner?_of_mem_roots (h : Founds p files w founded) (hroot : p ∉ w.openFiles.roots)
    (hq : q ∈ w.openFiles.roots) : founded.owner? q = w.owner? q := by
  have hqp : q ≠ p := fun hqp => hroot (hqp ▸ hq)
  rw [h.owner?_eq, if_neg hqp]

theorem mem_reachedRoots (h : Founds p files w founded) : q ∈ w.reachedRoots founded ↔
    q ∈ w.openFiles.roots ∧ (⟨.inferred, [p], files, false⟩ : Holding).Contains q := by
  rw [reachedRoots, List.mem_filter, projectHas_contains, h.holding?_new]
  simp

theorem prepared (h : Founds p files w founded) (hplanted : Planted first [] w.registry)
    (hw : Prepared first w) : Prepared first founded := by
  refine ⟨hw.shifts h.shifts, fun i held hheld => ?_, fun q hq i held howner hfirst hheld => ?_⟩
  · rw [h.holding?_eq] at hheld
    split at hheld
    · obtain rfl := Option.some.inj hheld
      rfl
    · exact hw.fresh i held hheld
  · rw [h.owner?_eq] at howner
    rw [h.holding?_eq] at hheld
    split at howner
    · rename_i hqp
      rw [if_pos (Option.some.inj howner).symm] at hheld
      obtain rfl := Option.some.inj hheld
      exact .inr (by simp [hqp])
    · rw [h.openFiles_eq] at hq
      have hle := hplanted.owner_le q i howner
      have hne : i ≠ w.lastProject + 1 := fun hi => Nat.not_succ_le_self _ (hi ▸ hle)
      rw [if_neg hne] at hheld
      exact hw.belongs q hq i held howner hfirst hheld

theorem succeeds (h : Founds p files w founded) (hroot : p ∉ w.openFiles.roots) (hw : w.Enlisted) :
    Succeeds first w founded := by
  refine ⟨seniors_le (h.openFiles_eq ▸ .refl _) ?_, fun q hq => ?_⟩
  · rw [h.openFiles_eq]
    exact fun q => h.owner?_of_mem_roots hroot
  · obtain ⟨i, held, hfirst, hheld, hcontains⟩ := hq
    refine ⟨i, held, hfirst, ?_, hcontains⟩
    have hne : i ≠ w.lastProject + 1 := by
      rintro rfl
      simp [hw.holding?_next] at hheld
    rw [h.holding?_eq, if_neg hne]
    exact hheld

/-- The document may take over roots from then on. -/
theorem taking (h : Founds p files w founded) (hplanted : Planted first [] w.registry) (hopen : w.isOpen p)
    (hroot : p ∉ w.openFiles.roots) (hw : Prepared first w) :
    Taking first (w.lastProject + 1) p (w.reachedRoots founded) founded := by
  refine ⟨?_, h.prepared hplanted hw, hw.le, _, h.holding?_new, rfl, fun q hq => ?_⟩
  · rw [h.registry]
    exact hplanted.uprooting hopen hroot List.filter_sublist
  · obtain ⟨hq, hcontains⟩ := h.mem_reachedRoots.mp hq
    refine hcontains.resolve_right fun hqp => hroot ?_
    exact List.mem_singleton.mp hqp ▸ hq

end Founds

/-- A document is given a project of its own. Those that this leaves without one are in new projects, or else an old
root has gone. -/
theorem foundProject_prepared (hplanted : Planted first [] w.registry) (hopen : w.isOpen p)
    (hroot : p ∉ w.openFiles.roots) (h : Prepared first w) :
    let founded := w.foundProject p true
    Prepared first founded.1 ∧ Succeeds first w founded.1 ∧
      ∀ q ∈ founded.2, founded.1.Housed first q ∨ founded.1.seniors first < w.seniors first := by
  obtain ⟨files, founded, hfounds, heq⟩ := foundProject_parts hopen
  have hsucceeds : Succeeds first w founded := hfounds.succeeds hroot h.enlisted
  obtain ⟨htaken, hsucceeds', -, hloose⟩ := (hfounds.taking hplanted hopen hroot h).foldl []
  rw [heq]
  dsimp only
  generalize List.foldl (absorb _) _ _ = taken at htaken hsucceeds' hloose ⊢
  have hsenior : taken.1.isSenior first p = false := by
    refine Bool.eq_false_iff.mpr fun hsenior => ?_
    exact absurd (isSenior_iff.mp hsenior _ htaken.uprooting.owner) (Nat.not_lt_of_le h.le)
  have hseniors : (taken.1.modifyOpenFiles (·.addRoot p)).seniors first = taken.1.seniors first := by
    show ((taken.1.openFiles.roots ++ [p]).filter (taken.1.isSenior first)).length = _
    rw [List.filter_append, List.filter_cons_of_neg (by simp [hsenior]), List.filter_nil,
      List.append_nil]
    rfl
  have hsame : Succeeds first taken.1 (taken.1.modifyOpenFiles (·.addRoot p)) :=
    ⟨Nat.le_of_eq hseniors, fun q hq => hq⟩
  have hready : Ready first (taken.1.modifyOpenFiles (·.addRoot p)) :=
    htaken.prepared.shifts (shifts_modifyOpenFiles ..)
  refine ⟨⟨hready, htaken.prepared.fresh, fun q hq i held howner hfirst hheld => ?_⟩,
    (hsucceeds.trans hsucceeds').trans hsame, fun q hq => ?_⟩
  · by_cases hqp : q = p
    · subst hqp
      obtain rfl : w.lastProject + 1 = i :=
        Option.some.inj (htaken.uprooting.owner.symm.trans howner)
      obtain ⟨held', hheld', hroots, -⟩ := htaken.held
      obtain rfl : held' = held := Option.some.inj (hheld'.symm.trans hheld)
      exact .inr (by simp [hroots])
    · have hall : q ∈ taken.1.openFiles.all := by
        have hadded : q ∈ (taken.1.openFiles.addRoot p).all := hq
        simpa [OpenFiles.all, OpenFiles.addRoot, hqp] using hadded
      exact htaken.prepared.belongs q hall i held howner hfirst hheld
  · rw [hseniors]
    refine (hloose q hq).resolve_left (by simp) |>.imp id fun hfewer => ?_
    exact Nat.lt_of_lt_of_le hfewer hsucceeds.seniors

/-- A project that goes over it had no root but one that the new project has. -/
theorem contains_roots_of_removed (hplanted : Planted first [] w.registry) (hopen : w.isOpen p)
    (hroot : p ∉ w.openFiles.roots) (h : Prepared first w) (hown : Planted 0 [] w.registry)
    (hheld : w.holding? former = some held) (hgone : (w.foundProject p true).1.holding? former = none) :
    ∀ root ∈ held.roots, (w.foundProject p true).1.projectHas (w.lastProject + 1) (·.contains root) := by
  obtain ⟨files, founded, hfounds, heq⟩ := foundProject_parts hopen
  have htaking := hfounds.taking hplanted hopen hroot h
  obtain ⟨-, -, hkept, -⟩ := htaking.foldl []
  rw [heq] at hgone ⊢
  have hold : founded.holding? former = some held := by
    have hne : former ≠ w.lastProject + 1 := by
      rintro rfl
      simp [h.enlisted.holding?_next] at hheld
    rw [hfounds.holding?_eq, if_neg hne]
    exact hheld
  obtain ⟨q, hq, howner⟩ := htaking.owner?_of_removed hold hgone
  obtain ⟨hqroot, hreached⟩ := hfounds.mem_reachedRoots.mp hq
  rw [hfounds.owner?_of_mem_roots hroot hqroot] at howner
  have hqown : w.registry.Own q := (hown.own q hqroot).resolve_right fun hold =>
    absurd (hold.2 former howner) (Nat.not_lt_zero _)
  obtain ⟨held', hheld', -, hroots⟩ := has_iff.mp (hqown.of_owner howner)
  obtain rfl : held' = held := Option.some.inj (hheld'.symm.trans hheld)
  intro r hr
  obtain rfl : r = q := by simpa [hroots] using hr
  exact projectHas_contains.mpr ⟨_, hkept.trans hfounds.holding?_new, hreached⟩

/-! ### Joining projects -/

/-- A document is given to a project that has it. -/
theorem join?_contains (hopen : w.isOpen p) {joined : Workspace} (h : w.join? p = some joined) :
    ∃ id held, w.holding? id = some held ∧ held.Contains p ∧
      joined.openFiles.roots = w.openFiles.roots ∧
      (∀ q ∈ joined.openFiles.all, q ≠ p → q ∈ w.openFiles.all) ∧
      ∀ q, joined.owner? q = if q = p then some id else w.owner? q := by
  have howner (id : ProjectId) (f : OpenFiles → OpenFiles) (q : Path) :
      ((w.setOwner p (some id)).modifyOpenFiles f).owner? q =
        if q = p then some id else w.owner? q := by
    rw [← registry_owner?, registry_modifyOpenFiles, registry_setOwner (.inl hopen)]
    rfl
  have hopenFiles (id : ProjectId) : (w.setOwner p (some id)).openFiles = w.openFiles := by
    rw [← registry_openFiles, registry_setOwner (.inl hopen)]
    rfl
  rw [join?] at h
  split at h
  · rename_i id hid
    obtain rfl := Option.some.inj h
    rw [rootingProject?] at hid
    have hhas := List.find?_some hid
    obtain ⟨held, hheld, hroot⟩ := projectHas_isRoot.mp hhas
    refine ⟨id, held, hheld, .inr hroot, ?_, fun q hq hqp => ?_, howner id _⟩
    · exact (congrArg OpenFiles.roots (hopenFiles id) :)
    · have hadded : q ∈ ((w.setOwner p (some id)).openFiles.addConfiguredRoot p).all := hq
      rw [hopenFiles] at hadded
      simpa [OpenFiles.all, OpenFiles.addConfiguredRoot, hqp] using hadded
  · split at h
    · rename_i id hid
      obtain rfl := Option.some.inj h
      rw [reachingProject?] at hid
      have hhas := List.find?_some hid
      rw [Bool.and_eq_true] at hhas
      obtain ⟨held, hheld, hcontains⟩ := projectHas_contains.mp hhas.2
      refine ⟨id, held, hheld, hcontains, ?_, fun q hq hqp => ?_, howner id _⟩
      · exact (congrArg OpenFiles.roots (hopenFiles id) :)
      · have hadded : q ∈ ((w.setOwner p (some id)).openFiles.addReferenced p).all := hq
        rw [hopenFiles] at hadded
        simpa [OpenFiles.all, OpenFiles.addReferenced, hqp] using hadded
    · simp at h

theorem join?_prepared (hopen : w.isOpen p) (hroot : p ∉ w.openFiles.roots) (h : Prepared first w)
    {joined : Workspace} (hjoined : w.join? p = some joined) :
    Prepared first joined ∧ Succeeds first w joined := by
  obtain ⟨hholding, -⟩ := holding?_join? hjoined
  obtain ⟨id, held, hheld, hcontains, hroots, hall, howner⟩ := join?_contains hopen hjoined
  refine ⟨⟨h.shifts (shifts_join? hjoined), fun i held' hheld' => ?_,
    fun q hq i held' hown hfirst hheld' => ?_⟩, .of_sublist hholding (hroots ▸ .refl _)
      fun q hq => ?_⟩
  · rw [hholding] at hheld'
    exact h.fresh i held' hheld'
  · rw [hholding] at hheld'
    rw [howner] at hown
    split at hown
    · rename_i hqp
      obtain rfl := Option.some.inj hown
      obtain rfl : held = held' := Option.some.inj (hheld.symm.trans hheld')
      exact hqp ▸ hcontains
    · rename_i hqp
      exact h.belongs q (hall q hq hqp) i held' hown hfirst hheld'
  · have hqp : q ≠ p := by
      rintro rfl
      exact hroot (hroots ▸ hq)
    rw [howner, if_neg hqp]

/-! ### The bound is never reached -/

/-- A document takes at most so many levels to attach: an old root less for each one, unless it is in a new
project. -/
def Fits (first : ProjectId) (depth : Nat) (w : Workspace) (p : Path) : Prop :=
  w.seniors first ≤ depth ∧ (w.Housed first p ∨ w.seniors first < depth)

theorem Fits.succeeds {depth : Nat} (h : Fits first depth w p) (hw : Succeeds first w w') :
    Fits first depth w' p :=
  ⟨Nat.le_trans hw.seniors h.1, h.2.imp (hw.housed p) (Nat.lt_of_le_of_lt hw.seniors)⟩

/-- A document that is in a new project finds one. -/
theorem Housed.join?_ne_none (h : w.Housed first p) (hw : w.Enlisted) : w.join? p ≠ none := by
  obtain ⟨id, held, -, hheld, hcontains⟩ := h
  exact fun hjoined => join?_eq_none hw hjoined hheld hcontains

theorem Fits.lt {depth : Nat} (h : Fits first depth w p) (hw : w.Enlisted) (hjoined : w.join? p = none) :
    w.seniors first < depth :=
  h.2.resolve_left fun hhoused => hhoused.join?_ne_none hw hjoined

theorem Prepared.lift (h : Prepared first w) (p : Path) : Prepared first (w.modifyOpenFiles (·.remove p)) :=
  ⟨h.shifts (shifts_modifyOpenFiles ..), h.fresh,
    fun q hq => h.belongs q ((OpenFiles.below_remove w.openFiles p).all.subset hq)⟩

theorem Succeeds.lift (first : ProjectId) (w : Workspace) (p : Path) :
    Succeeds first w (w.modifyOpenFiles (·.remove p)) :=
  .of_sublist rfl (OpenFiles.below_remove w.openFiles p).roots fun _ _ => rfl

/-- Before a document is attached the projects are brought up to date. -/
theorem attach_refresh (w : Workspace) (p : Path) : w.refresh.attach p = w.attach p := by
  have hagain := refresh_eq_self (fresh_refresh w)
  unfold attach
  rw [inferred_refresh]
  unfold attachWithin
  rw [hagain]

/-- A document that finds a project takes no level. -/
theorem attachWithin_join {joined : Workspace} (hjoined : w.refresh.join? p = some joined) (depth : Nat) :
    attachWithin depth w p = joined := by
  cases depth with
  | zero =>
      rw [attachWithin, hjoined]
      rfl
  | succ depth => rw [attachWithin, hjoined]

theorem attachWithin_found (hjoined : w.refresh.join? p = none) (depth : Nat) :
    attachWithin (depth + 1) w p =
      (w.refresh.foundProject p true).2.foldl (reattachBy (attachWithin depth))
        (w.refresh.foundProject p true).1 := by
  rw [attachWithin, hjoined]

/-- What attaching a document in some way comes to. -/
structure Arrives (holds : Workspace → Path → Prop) (first : ProjectId) (w : Workspace) (p : Path)
    (v : Workspace) : Prop where
  attaches : AttachesTo holds w p v
  prepared : Prepared first v
  succeeds : Succeeds first w v

theorem arrives_join (h : Prepared first w) (hopen : w.isOpen p) (hroot : p ∉ w.openFiles.roots)
    {joined : Workspace} (hjoined : w.join? p = some joined) (depth : Nat) :
    Arrives holds first w p (attachWithin depth w p) := by
  obtain ⟨hprepared, hsucceeds⟩ := join?_prepared hopen hroot h hjoined
  rw [← refresh_eq_self h.fresh] at hjoined
  rw [attachWithin_join hjoined]
  exact ⟨attachesTo_join hjoined, hprepared, hsucceeds⟩

/-- A way of attaching the documents that fit without reaching a bound. -/
def Recurs (holds : Workspace → Path → Prop) (property : Workspace → Prop) (first : ProjectId)
    (fits : Workspace → Path → Prop) (attach : Workspace → Path → Workspace) : Prop :=
  ∀ ⦃w p⦄, Planted first [] w.registry → w.isOpen p → p ∉ w.openFiles.roots → Prepared first w →
    property w → fits w p → Arrives holds first w p (attach w p)

section

variable {property : Workspace → Prop} (hsteps : ∀ w w', Rearranges w w' → property w → property w')

include hsteps

/-- A document that fits is taken out of its list and attached. -/
theorem Recurs.lifted {depth : Nat} {attach : Workspace → Path → Workspace}
    (hattach : Recurs holds property first (Fits first depth) attach) (hplanted : Planted first [] w.registry)
    (h : Prepared first w) (hproperty : property w) (hfits : Fits first depth w p) (hopen : w.isOpen p) :
    Arrives holds first (w.modifyOpenFiles (·.remove p)) p
      (attach (w.modifyOpenFiles (·.remove p)) p) :=
  hattach (hplanted.relist (OpenFiles.below_remove w.openFiles p).roots) hopen
    hplanted.nodup.not_mem_erase (h.lift p) (hsteps _ _ (rearranges_remove w p) hproperty)
    (hfits.succeeds (.lift first w p))

theorem Recurs.reattachBy {depth : Nat} {attach : Workspace → Path → Workspace}
    (hattach : Recurs holds property first (Fits first depth) attach) (hplanted : Planted first [] w.registry)
    (h : Prepared first w) (hproperty : property w) (hfits : Fits first depth w p) :
    Prepared first (reattachBy attach w p) ∧ Succeeds first w (reattachBy attach w p) := by
  by_cases hstays : w.isOpen p → w.owner? p ≠ none
  · rw [reattachBy_stay _ hstays]
    exact ⟨h, .refl first w⟩
  · obtain ⟨hopen, hnone⟩ := Classical.not_imp.mp hstays
    have harrives := hattach.lifted hsteps hplanted h hproperty hfits hopen
    rw [reattachBy_again _ hopen (not_not.mp hnone)]
    refine ⟨⟨harrives.prepared.shifts (shifts_emit ..), harrives.prepared.fresh,
      harrives.prepared.belongs⟩, ?_⟩
    exact ((Succeeds.lift first w p).trans harrives.succeeds).trans (.of_sublist rfl (.refl _) fun _ _ => rfl)

/-- Documents that are in new projects are certain to find one. -/
theorem reattachesTo_foldl {depth : Nat}
    (hattach : Recurs holds property first (Fits first depth) (attachWithin depth))
    (hcertain : ∀ q, certain q → w.Housed first q) (hplanted : Planted first [] w.registry)
    (h : Prepared first w) (hproperty : property w) (hps : ∀ q ∈ ps, Fits first depth w q) :
    let after := ps.foldl (reattachBy (attachWithin depth)) w
    ReattachesTo holds certain w ps after ∧ Prepared first after ∧ Succeeds first w after := by
  induction ps generalizing w with
  | nil => exact ⟨.nil, h, .refl first w⟩
  | cons p ps ih =>
      rw [List.foldl_cons]
      have hfits : Fits first depth w p := hps p (by simp)
      obtain ⟨hstep, hsucceeds⟩ := hattach.reattachBy hsteps hplanted h hproperty hfits
      have hstepping := rearranges_reattachBy (fun _ _ => shifts_attachWithin depth)
        (fun first => plants_attachWithin first [] depth) w p
      obtain ⟨hrest, hprepared, hsucceeds'⟩ := ih
        (fun q hq => hsucceeds.housed q (hcertain q hq))
        (hstepping.planted first hplanted) hstep
        (hsteps _ _ hstepping hproperty) fun q hq => (hps q (by simp [hq])).succeeds hsucceeds
      refine ⟨.cons (fun hopen _ => ?_) (fun hp => ?_) hrest, hprepared, hsucceeds.trans hsucceeds'⟩
      · exact (hattach.lifted hsteps hplanted h hproperty hfits hopen).attaches
      · have hhoused : (w.modifyOpenFiles (·.remove p)).Housed first p := hcertain p hp
        rw [refresh_eq_self (h.lift p).fresh]
        exact hhoused.join?_ne_none (h.lift p).enlisted

theorem recurs_attachWithin
    (hholds : ∀ w p, Planted first [] w.registry → w.isOpen p → p ∉ w.openFiles.roots →
      Prepared first w → property w → holds w p) (depth : Nat) :
    Recurs holds property first (Fits first depth) (attachWithin depth) := by
  induction depth with
  | zero =>
      intro w p hplanted hopen hroot h hproperty hfits
      cases hjoined : w.join? p with
      | some joined => exact arrives_join h hopen hroot hjoined 0
      | none => exact absurd (hfits.lt h.enlisted hjoined) (Nat.not_lt_zero _)
  | succ depth ih =>
      intro w p hplanted hopen hroot h hproperty hfits
      cases hjoined : w.join? p with
      | some joined => exact arrives_join h hopen hroot hjoined (depth + 1)
      | none =>
          have hbound := hfits.lt h.enlisted hjoined
          -- a document that comes loose is in a new project, or else an old root has gone and one level less will do
          obtain ⟨hprepared, hsucceeds, hloose⟩ := foundProject_prepared hplanted hopen hroot h
          have hseniors := hsucceeds.seniors
          have hfounded : Rearranges w (w.foundProject p true).1 :=
            ⟨shifts_foundProject (isTracked_of_isOpen hopen) true,
              fun _ h => foundProject_planted h hopen hroot true⟩
          have hcertain (q : Path) (hq : (w.foundProject p true).1.projectHas (w.lastProject + 1)
              (·.contains q)) : (w.foundProject p true).1.Housed first q := by
            obtain ⟨held, hheld, hcontains⟩ := projectHas_contains.mp hq
            exact ⟨_, held, h.le, hheld, hcontains⟩
          obtain ⟨hrest, hprepared', hsucceeds'⟩ := reattachesTo_foldl hsteps ih hcertain
            (hfounded.planted first hplanted) hprepared (hsteps _ _ hfounded hproperty)
            fun q hq => ⟨by omega, (hloose q hq).imp_right fun hfewer => by omega⟩
          have hfresh : w.refresh = w := refresh_eq_self h.fresh
          rw [← hfresh] at hjoined
          rw [attachWithin_found hjoined, hfresh]
          refine ⟨attachesTo_found hjoined ?_ ?_, hprepared', hsucceeds.trans hsucceeds'⟩
          · rw [hfresh]
            exact hholds w p hplanted hopen hroot h hproperty
          · rw [hfresh]
            exact hrest

/-- Attaching a document comes to an end, and wherever a project is made something holds that the roots of inferred
projects and the files of the new ones make sure of. -/
theorem attachesTo_attach (hholds : ∀ first w p, Planted first [] w.registry → w.isOpen p →
      p ∉ w.openFiles.roots → Prepared first w → property w → holds w p)
    (hplanted : Planted first [] w.registry) (hopen : w.isOpen p) (hroot : p ∉ w.openFiles.roots)
    (hw : w.Enlisted) (hproperty : property w) : AttachesTo holds w p (w.attach p) := by
  have hrefreshing := rearranges_refresh w
  have hregistry := registry_refresh w
  have hplanted' : Planted (w.refresh.lastProject + 1) [] w.refresh.registry :=
    (hrefreshing.planted first hplanted).restart
  rw [← registry_isOpen, ← hregistry] at hopen
  rw [← registry_openFiles, ← hregistry] at hroot
  have hready := ready_start (hw.shifts hrefreshing.shifts)
  have hprepared : Prepared (w.refresh.lastProject + 1) w.refresh := by
    refine ⟨hready, fresh_refresh w, fun q _ i held howner hnew _ => ?_⟩
    have hle := hplanted'.owner_le q i howner
    exact absurd (Nat.le_trans hnew hle) (Nat.not_succ_le_self _)
  have hseniors : w.refresh.seniors (w.refresh.lastProject + 1) ≤ w.refresh.inferred.length :=
    seniors_le_inferred hready.enlisted hplanted'
  have hrecurs := recurs_attachWithin hsteps (hholds _) (w.refresh.inferred.length + 2) hplanted' hopen
    hroot hprepared (hsteps _ _ hrefreshing hproperty) ⟨by omega, .inr (by omega)⟩
  rw [← attach_refresh]
  exact attachesTo_refresh.mp hrecurs.attaches

theorem reattachesTo_reattach (hholds : ∀ first w p, Planted first [] w.registry → w.isOpen p →
      p ∉ w.openFiles.roots → Prepared first w → property w → holds w p)
    (hplanted : Planted first [] w.registry) (hw : w.Enlisted) (hproperty : property w)
    (ps : List Path) : ReattachesTo holds (fun _ => False) w ps (w.reattach ps) := by
  induction ps generalizing w with
  | nil => exact .nil
  | cons p ps ih =>
      have hstepping := rearranges_reattachBy (fun _ _ => shifts_attach) (fun _ _ _ => attach_planted) w p
      have hrest := ih (hstepping.planted first hplanted) (hw.shifts hstepping.shifts)
        (hsteps _ _ hstepping hproperty)
      have hlifting := rearranges_remove w p
      refine .cons (fun hopen _ => ?_) False.elim hrest
      exact attachesTo_attach hsteps hholds (hlifting.planted first hplanted) hopen
        hplanted.nodup.not_mem_erase (hw.shifts hlifting.shifts) (hsteps _ _ hlifting hproperty)

end

end Workspace

end ProjectTracker
