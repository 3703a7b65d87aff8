import ProjectTracker.Proofs.Workspace.Conduct
import ProjectTracker.Proofs.Workspace.Seating
/-!
What holds of the roots of inferred projects whatever happens, even where documents stand in the lists twice or
were given to the projects of others. Each root is listed once and open, there are no more roots than inferred
projects, and those that come to their list from some time on have a project of their own.
-/

namespace ProjectTracker

namespace Registry

variable {r : Registry} {guests waiting : List Path} {p q root : Path} {first id : ProjectId}
  {owner? : Option ProjectId} {o : OpenFiles} {n m : Nat}

/-! ### Counting inferred projects -/

abbrev IsInferred (r : Registry) (id : ProjectId) : Prop :=
  r.Has id fun kind _ => kind = .inferred

/-- At least so many projects are inferred. -/
def Infers (r : Registry) (n : Nat) : Prop :=
  ∃ ids : List ProjectId, ids.Nodup ∧ n ≤ ids.length ∧ ∀ id ∈ ids, r.IsInferred id

namespace Infers

variable {r' : Registry}

theorem mono (h : r.Infers n) (hle : m ≤ n) : r.Infers m := by
  obtain ⟨ids, hnodup, hlength, hids⟩ := h
  exact ⟨ids, hnodup, Nat.le_trans hle hlength, hids⟩

theorem keep (h : r.Infers n) (hkeep : ∀ id, r.IsInferred id → r'.IsInferred id) : r'.Infers n := by
  obtain ⟨ids, hnodup, hlength, hids⟩ := h
  exact ⟨ids, hnodup, hlength, fun id hid => hkeep id (hids id hid)⟩

theorem setOwner (h : r.Infers n) (p : Path) (owner? : Option ProjectId) :
    (r.setOwner p owner?).Infers n :=
  h.keep fun _ hid => hid.setOwner p owner?

/-- A project that is not inferred does not count. -/
theorem strike (h : r.Infers n) (hid : ¬r.IsInferred id) : (r.strike id).Infers n := by
  refine h.keep fun i hi => ?_
  have hne : some id ≠ some i := fun heq => hid (Option.some.inj heq ▸ hi)
  exact hi.evict hne

/-- With a project at most one inferred one goes. -/
theorem evict (h : r.Infers (n + 1)) (former? : Option ProjectId) : (r.evict former?).1.Infers n := by
  cases former? with
  | none => exact h.mono (Nat.le_succ n)
  | some former =>
      obtain ⟨ids, hnodup, hlength, hids⟩ := h
      refine ⟨ids.erase former, hnodup.erase former, ?_, fun id hid => ?_⟩
      · rw [List.length_erase]
        split <;> omega
      · obtain ⟨hne, hid⟩ := hnodup.mem_erase_iff.mp hid
        exact (hids id hid).evict fun heq => hne (Option.some.inj heq).symm

theorem enroll (h : r.Infers n) (hle : ∀ id, r.IsLive id → id ≤ r.lastProject) (kind : ProjectKind)
    (roots : List Path) : (r.enroll kind roots).Infers n :=
  h.keep fun _ hid => hid.enroll (hle _ hid.isLive) kind roots

theorem enroll_inferred (h : r.Infers n) (hle : ∀ id, r.IsLive id → id ≤ r.lastProject)
    (roots : List Path) : (r.enroll .inferred roots).Infers (n + 1) := by
  obtain ⟨ids, hnodup, hlength, hids⟩ := h
  have hnew : r.lastProject + 1 ∉ ids := fun hmem =>
    absurd (hle _ (hids _ hmem).isLive) (Nat.not_succ_le_self _)
  refine ⟨(r.lastProject + 1) :: ids, List.nodup_cons.mpr ⟨hnew, hnodup⟩, by simpa using hlength,
    fun id hid => ?_⟩
  rcases List.mem_cons.mp hid with rfl | hid
  · exact ⟨⟨.inferred, roots, 0⟩, by simp [Registry.enroll], rfl⟩
  · exact (hids id hid).enroll (hle id (hids id hid).isLive) .inferred roots

end Infers

/-- As the root of an inferred project leaves it, so does at most one project. -/
theorem infers_unseat (h : r.Infers (r.openFiles.roots.length + n))
    (hroot : root ∈ r.openFiles.roots ∨ r.owner? root = none) :
    (r.unseat root).Infers ((r.unseat root).openFiles.roots.length + n) := by
  have hbelow := (below_unseat r root).roots.length_le
  unfold Registry.unseat at hbelow ⊢
  by_cases hmem : root ∈ r.openFiles.roots
  · -- at most one project goes, and one root at least
    have hfewer : ((r.modifyOpenFiles (·.removeRoot root)).evict
        (r.owner? root)).1.openFiles.roots.length + 1 ≤ r.openFiles.roots.length := by
      have hpos := List.length_pos_of_mem hmem
      have herased : (r.openFiles.roots.erase root).length = r.openFiles.roots.length - 1 :=
        List.length_erase_of_mem hmem
      have hle : ((r.modifyOpenFiles (·.removeRoot root)).evict
          (r.owner? root)).1.openFiles.roots.length ≤ (r.openFiles.roots.erase root).length := by
        cases r.owner? root with
        | none => exact Nat.le_refl _
        | some former => exact List.length_filter_le ..
      omega
    have hcount : (r.modifyOpenFiles (·.removeRoot root)).Infers (r.openFiles.roots.length + n) := h
    exact (hcount.mono (by omega)).evict _
  · rw [hroot.resolve_left hmem] at hbelow ⊢
    have hcount : (r.modifyOpenFiles (·.removeRoot root)).Infers (r.openFiles.roots.length + n) := h
    exact hcount.mono (Nat.add_le_add_right hbelow n)

/-- Documents of other projects keep them. -/
theorem owner?_unseat_of_ne (h : r.owner? q ≠ r.owner? root) :
    (r.unseat root).owner? q = r.owner? q := by
  have hstays : q ∉ ((r.modifyOpenFiles (·.removeRoot root)).evict (r.owner? root)).2 :=
    fun hmem => h (mem_evict hmem).2.2
  exact (owner?_evict ..).trans (if_neg hstays)

/-- What still stands among the roots has the project that it had. -/
theorem owner?_unseat_of_mem (h : q ∈ (r.unseat root).openFiles.roots) :
    (r.unseat root).owner? q = r.owner? q :=
  (owner?_evict ..).trans (if_neg (mem_roots_evict.mp h).2)

/-! ### Roots -/

/-- The roots of inferred projects are in order. Those whose project came before the first one of some time may
have any project or none, guests apart. -/
structure Planted (first : ProjectId) (guests : List Path) (r : Registry) : Prop where
  nodup : r.openFiles.roots.Nodup
  isOpen : ∀ p ∈ r.openFiles.roots, r.isOpen p
  infers : r.Infers r.openFiles.roots.length
  own : ∀ p ∈ r.openFiles.roots, r.Own p ∨ (p ∉ guests ∧ ∀ id, r.owner? p = some id → id < first)
  owned_open : ∀ p, r.owner? p ≠ none → r.isOpen p
  owner_le : ∀ p id, r.owner? p = some id → id ≤ r.lastProject
  live_le : ∀ id, r.IsLive id → id ≤ r.lastProject

namespace Planted

/-- Only the roots matter. -/
theorem relist (h : Planted first guests r) (ho : o.roots.Sublist r.openFiles.roots) :
    Planted first guests { r with openFiles := o } :=
  { h with
    nodup := ho.nodup h.nodup
    isOpen := fun p hp => h.isOpen p (ho.subset hp)
    infers := h.infers.mono ho.length_le
    own := fun p hp => h.own p (ho.subset hp) }

/-- A document that is no root comes to belong to another project. A root that is no guest may lose its
project. -/
theorem setOwner (h : Planted first guests r) (owner? : Option ProjectId)
    (hroot : p ∈ r.openFiles.roots → owner? = none ∧ p ∉ guests)
    (hopen : owner? ≠ none → r.isOpen p) (hle : ∀ id, owner? = some id → id ≤ r.lastProject) :
    Planted first guests (r.setOwner p owner?) where
  nodup := h.nodup
  isOpen := h.isOpen
  infers := h.infers.setOwner p owner?
  own q hq := by
    by_cases hqp : q = p
    · subst q
      obtain ⟨rfl, hguest⟩ := hroot hq
      exact .inr ⟨hguest, by simp⟩
    · rw [own_setOwner_iff hqp, setOwner_owner?, if_neg hqp]
      exact h.own q hq
  owned_open q hq := by
    rw [setOwner_owner?] at hq
    split at hq
    · rename_i hqp
      exact hqp ▸ hopen hq
    · exact h.owned_open q hq
  owner_le q id hid := by
    rw [setOwner_owner?] at hid
    split at hid
    · exact hle id hid
    · exact h.owner_le q id hid
  live_le id hid := h.live_le id (by simpa using hid)

/-- Any other time will do once all projects are older. -/
theorem restart (h : Planted first guests r) : Planted (r.lastProject + 1) [] r :=
  { h with
    own := fun p _ => .inr ⟨by simp, fun id hid => Nat.lt_succ_of_le (h.owner_le p id hid)⟩ }

/-- A guest that has its place is one no longer. -/
theorem dismiss (h : Planted first guests r) : Planted first [] r :=
  { h with own := fun p hp => (h.own p hp).imp_right fun hold => ⟨by simp, hold.2⟩ }

/-- A document may be given to the project of another one, if that is told apart from what comes later. -/
theorem reassign (h : Planted first guests r) (hopen : r.isOpen p) (hle : id ≤ r.lastProject) :
    Planted (r.lastProject + 1) [] (r.setOwner p (some id)) := by
  have howner_le (q : Path) (i : ProjectId) (hi : (r.setOwner p (some id)).owner? q = some i) :
      i ≤ r.lastProject := by
    rw [setOwner_owner?] at hi
    split at hi
    · exact Option.some.inj hi ▸ hle
    · exact h.owner_le q i hi
  exact
    { nodup := h.nodup
      isOpen := h.isOpen
      infers := h.infers.setOwner p (some id)
      own := fun q _ => .inr ⟨by simp, fun i hi => Nat.lt_succ_of_le (howner_le q i hi)⟩
      owned_open := fun q hq => by
        rw [setOwner_owner?] at hq
        split at hq
        · rename_i hqp
          exact hqp ▸ hopen
        · exact h.owned_open q hq
      owner_le := howner_le
      live_le := fun i hi => h.live_le i (by simpa using hi) }

/-- With a project its documents go. -/
theorem strike (h : Planted first guests r)
    (hinfers : (r.strike id).Infers (r.strike id).openFiles.roots.length) :
    Planted first guests (r.strike id) where
  nodup := h.nodup.filter _
  isOpen p hp := h.isOpen p (mem_roots_strike.mp hp).1
  infers := hinfers
  own p hp := by
    obtain ⟨hroot, hmembers⟩ := mem_roots_strike.mp hp
    refine (h.own p hroot).imp (fun hown => Seated.own_strike hown fun howner => hmembers ?_)
      (And.imp_right fun hold i hi => hold i (owner?_strike_eq_some.mp hi).2)
    exact mem_members.mpr ⟨(hown.of_owner howner).isLive, by simp [OpenFiles.all, hroot], howner⟩
  owned_open p hp := by
    obtain ⟨i, hi⟩ := Option.ne_none_iff_exists'.mp hp
    exact h.owned_open p (by simp [(owner?_strike_eq_some.mp hi).2])
  owner_le p i hi := h.owner_le p i (owner?_strike_eq_some.mp hi).2
  live_le i hi := by
    obtain ⟨c, hc⟩ := Option.isSome_iff_exists.mp hi
    exact h.live_le i (by simp [IsLive, (charter?_strike_eq_some.mp hc).2])

/-- A project that is not inferred leaves the number of the others as it is. -/
theorem dissolve (h : Planted first guests r) (hid : ¬r.IsInferred id) :
    Planted first guests (r.strike id) :=
  h.strike ((h.infers.strike hid).mono (List.length_filter_le ..))

/-- The root of an inferred project leaves it, and the project goes. -/
theorem unseat (h : Planted first guests r)
    (hroot : root ∈ r.openFiles.roots ∨ r.owner? root = none) :
    Planted first guests (r.unseat root) := by
  have hinfers := infers_unseat (n := 0) h.infers hroot
  unfold Registry.unseat at hinfers ⊢
  have hlifted : Planted first guests (r.modifyOpenFiles (·.removeRoot root)) :=
    h.relist List.erase_sublist
  cases hid : r.owner? root with
  | none => exact hlifted
  | some former =>
      rw [hid] at hinfers
      exact hlifted.strike hinfers

theorem notMem_unseat (h : Planted first guests r) (root : Path) :
    root ∉ (r.unseat root).openFiles.roots := fun hmem =>
  (mem_roots_evict.mp hmem).1 |> h.nodup.not_mem_erase

theorem enroll (h : Planted first guests r) (kind : ProjectKind) (roots : List Path) :
    Planted first guests (r.enroll kind roots) where
  nodup := h.nodup
  isOpen := h.isOpen
  infers := h.infers.enroll h.live_le kind roots
  own p hp := (h.own p hp).imp_left fun ⟨id, howner, hhas⟩ =>
    ⟨id, howner, hhas.enroll (h.live_le id hhas.isLive) kind roots⟩
  owned_open := h.owned_open
  owner_le p id hid := Nat.le_succ_of_le (h.owner_le p id hid)
  live_le id hid := by
    by_cases hnew : id = r.lastProject + 1
    · exact Nat.le_of_eq hnew
    · exact Nat.le_succ_of_le (h.live_le id (by simpa [IsLive, Registry.enroll, hnew] using hid))

theorem modifyRoots (h : Planted first guests r) {f : List Path → List Path}
    (hf : ∀ p ∈ r.openFiles.roots, r.owner? p = some id → r.Own p → f [p] = [p]) :
    Planted first guests (r.modifyRoots id f) := by
  have hlive (i : ProjectId) : (r.modifyRoots id f).IsLive i ↔ r.IsLive i := by
    simp only [IsLive, Registry.modifyRoots]
    split <;> simp
  exact
    { h with
      infers := h.infers.keep fun i hi => hi.modifyRoots id fun _ _ hkind => hkind
      own := fun p hp => (h.own p hp).imp_left fun hown => by
        obtain ⟨i, howner, c, hc, hkind, hroots⟩ := hown
        refine ⟨i, howner, ?_⟩
        simp only [Has, Registry.modifyRoots, hc]
        split
        · rename_i hi
          have hkept := hf p hp (hi ▸ howner) ⟨i, howner, c, hc, hkind, hroots⟩
          exact ⟨_, rfl, hkind, (congrArg f hroots).trans hkept⟩
        · exact ⟨c, rfl, hkind, hroots⟩
      live_le := fun i hi => h.live_le i ((hlive i).mp hi) }

/-- A document of its own project comes to the roots. -/
theorem addRoot (h : Planted first guests r) (hroot : p ∉ r.openFiles.roots) (hown : r.Own p)
    (hinfers : r.Infers (r.openFiles.roots.length + 1)) :
    Planted first guests (r.modifyOpenFiles (·.addRoot p)) :=
  have hopen : r.isOpen p := by
    obtain ⟨id, howner, -⟩ := hown
    exact h.owned_open p (by simp [howner])
  { h with
    nodup := by
      show (r.openFiles.roots ++ [p]).Nodup
      rw [← List.concat_eq_append]
      exact h.nodup.concat hroot
    isOpen := fun q hq => by
      rcases List.mem_append.mp hq with hq | hq
      · exact h.isOpen q hq
      · exact List.mem_singleton.mp hq ▸ hopen
    infers := by
      have hlength : (r.openFiles.roots ++ [p]).length = r.openFiles.roots.length + 1 := by simp
      show r.Infers (r.openFiles.roots ++ [p]).length
      rw [hlength]
      exact hinfers
    own := fun q hq => by
      rcases List.mem_append.mp hq with hq | hq
      · exact h.own q hq
      · exact .inl (List.mem_singleton.mp hq ▸ hown) }

/-- A document that is opened is a guest. -/
theorem opening (h : Planted first [] r) (hroot : p ∉ r.openFiles.roots) :
    Planted first [p] (r.setOpen p true) :=
  { h with
    isOpen := fun q hq => by
      simp only [setOpen]
      split
      · rfl
      · exact h.isOpen q hq
    own := fun q hq => (h.own q hq).imp_right fun hold =>
      ⟨by simpa using fun hqp : q = p => hroot (hqp ▸ hq), hold.2⟩
    owned_open := fun q hq => by
      simp only [setOpen]
      split
      · rfl
      · exact h.owned_open q hq }

theorem closing (h : Planted first guests r) (hroot : p ∉ r.openFiles.roots)
    (hnone : r.owner? p = none) : Planted first guests (r.setOpen p false) :=
  { h with
    isOpen := fun q hq => by
      have hqp : q ≠ p := fun hqp => hroot (hqp ▸ hq)
      simpa [setOpen, hqp] using h.isOpen q hq
    owned_open := fun q hq => by
      have hqp : q ≠ p := fun hqp => hq (hqp ▸ hnone)
      simpa [setOpen, hqp] using h.owned_open q hq }

end Planted

/-- Where the lists go by the kinds of projects all roots have projects of their own. -/
theorem Seated.planted {t : Terms} {loose moving single guests' : List Path}
    {vacant? : Option ProjectId} (h : Seated r vacant? single) (first : ProjectId)
    (hsound : Sound t r loose moving guests') : Planted first guests r where
  nodup := hsound.roots_nodup
  isOpen _ := hsound.isOpen_of_mem_roots
  infers := by
    -- no two roots own one project
    refine ⟨r.openFiles.roots.map fun p => (r.owner? p).getD 0, ?_, by simp, fun id hid => ?_⟩
    · refine List.Nodup.map_on (fun p hp q hq heq => ?_) hsound.roots_nodup
      obtain ⟨i, hi, -⟩ := h.own p hp
      obtain ⟨j, hj, -⟩ := h.own q hq
      refine (h.own p hp).eq_of_owner (h.own q hq) ?_
      simpa [hi, hj] using heq
    · obtain ⟨p, hp, rfl⟩ := List.mem_map.mp hid
      obtain ⟨i, hi, c, hc, hkind, -⟩ := h.own p hp
      rw [hi]
      exact ⟨c, hc, hkind⟩
  own p hp := .inl (h.own p hp)
  owned_open := hsound.owned_open
  owner_le := hsound.owner_le
  live_le := hsound.live_le

/-! ### Taking over roots -/

/-- A new project takes over roots that it reaches. Over earlier ones a root may have lost its own project. -/
structure Uprooting (first : ProjectId) (guests : List Path) (id : ProjectId) (p : Path)
    (waiting : List Path) (r : Registry) : Prop where
  planted : Planted first guests r
  infers : r.Infers (r.openFiles.roots.length + 1)
  notMem : p ∉ r.openFiles.roots
  owner : r.owner? p = some id
  own : r.Own p
  foreign : ∀ q ∈ r.openFiles.roots, r.owner? q ≠ some id
  nodup : waiting.Nodup
  isOpen : ∀ q ∈ waiting, r.isOpen q
  placed : ∀ q ∈ waiting, q ∈ r.openFiles.roots ∨ r.owner? q = none

namespace Uprooting

theorem owner?_head_ne (h : Uprooting first guests id p (root :: waiting) r) :
    r.owner? root ≠ some id := by
  rcases h.placed root (by simp) with hroot | hnone
  · exact h.foreign root hroot
  · simp [hnone]

theorem absorb (h : Uprooting first guests id p (root :: waiting) r) :
    Uprooting first guests id p waiting (r.absorb id root).1 := by
  have hne := h.owner?_head_ne
  have hrootp : root ≠ p := fun hrp => hne (hrp ▸ h.owner)
  have hplanted := h.planted.unseat (h.placed root (by simp))
  have hgone := h.planted.notMem_unseat root
  have hinfers := infers_unseat h.infers (h.placed root (by simp))
  have hbelow := (below_unseat r root).roots
  have hnp : r.owner? p ≠ r.owner? root := fun heq => hne (heq.symm.trans h.owner)
  have hopen : (r.unseat root).isOpen = r.isOpen := isOpen_evict ..
  have hlast : (r.unseat root).lastProject = r.lastProject := lastProject_evict ..
  have hown : (r.unseat root).Own p := by
    obtain ⟨i, hi, hhas⟩ := h.own
    obtain rfl : id = i := Option.some.inj (h.owner.symm.trans hi)
    have hhas' : (r.modifyOpenFiles (·.removeRoot root)).Has id
        fun kind roots => kind = .inferred ∧ roots = [p] := hhas
    exact ⟨id, (owner?_unseat_of_ne hnp).trans hi, hhas'.evict hne⟩
  have hgiven := hplanted.setOwner (p := root) (some id) (fun hmem => absurd hmem hgone)
    (fun _ => hopen ▸ h.isOpen root (by simp)) fun i hi => by
      rw [hlast, ← Option.some.inj hi]
      exact h.planted.owner_le p id h.owner
  constructor
  · exact hgiven.relist (.refl _)
  · exact hinfers.setOwner root (some id)
  · exact fun hmem => h.notMem (hbelow.subset hmem)
  · show (if p = root then some id else (r.unseat root).owner? p) = some id
    rw [if_neg hrootp.symm, owner?_unseat_of_ne hnp]
    exact h.owner
  · exact (own_setOwner_iff hrootp.symm).mpr hown
  · intro q hq hq'
    have hqr : q ≠ root := fun hqr => hgone (hqr ▸ hq)
    have hq'' : (if q = root then some id else (r.unseat root).owner? q) = some id := hq'
    rw [if_neg hqr, owner?_unseat_of_mem hq] at hq''
    exact h.foreign q (hbelow.subset hq) hq''
  · exact (List.nodup_cons.mp h.nodup).2
  · intro q hq
    show (r.unseat root).isOpen q
    rw [hopen]
    exact h.isOpen q (by simp [hq])
  · -- a root that waits stays in its list, or else it goes with the project of the absorbed one
    intro q hq
    have hqr : q ≠ root := fun hqr => (List.nodup_cons.mp h.nodup).1 (hqr ▸ hq)
    show q ∈ (r.unseat root).openFiles.roots ∨ (if q = root then some id else _) = none
    rw [if_neg hqr]
    unfold Registry.unseat
    rw [owner?_evict]
    split
    · exact .inr rfl
    · rename_i hstays
      refine (h.placed q (by simp [hq])).imp_left fun hroots => ?_
      exact mem_roots_evict.mpr ⟨(List.mem_erase_of_ne hqr).mpr hroots, hstays⟩

end Uprooting

/-- A document that was given a new inferred project may take over roots. -/
theorem Planted.uprooting (h : Planted first guests r) (hopen : r.isOpen p)
    (hroot : p ∉ r.openFiles.roots) (hwaiting : waiting.Sublist r.openFiles.roots) :
    Uprooting first guests (r.lastProject + 1) p waiting
      ((r.enroll .inferred [p]).setOwner p (some (r.lastProject + 1))) where
  planted := (h.enroll .inferred [p]).setOwner _ (fun hmem => absurd hmem hroot) (fun _ => hopen)
    fun _ hid => Nat.le_of_eq (Option.some.inj hid).symm
  infers := (h.infers.enroll_inferred h.live_le [p]).setOwner p _
  notMem := hroot
  owner := by simp
  own := ⟨r.lastProject + 1, by simp,
    Has.setOwner ⟨⟨.inferred, [p], 0⟩, by simp [Registry.enroll], rfl, rfl⟩ p _⟩
  foreign q hq hq' := by
    have hqp : q ≠ p := fun hqp => hroot (hqp ▸ hq)
    rw [setOwner_owner?, if_neg hqp] at hq'
    exact absurd (h.owner_le q _ hq') (Nat.not_succ_le_self _)
  nodup := hwaiting.nodup h.nodup
  isOpen q hq := h.isOpen q (hwaiting.subset hq)
  placed q hq := .inl (hwaiting.subset hq)

theorem Uprooting.addRoot (h : Uprooting first guests id p [] r) :
    Planted first guests (r.modifyOpenFiles (·.addRoot p)) :=
  h.planted.addRoot h.notMem h.own h.infers

end Registry

namespace Workspace

open Registry

variable {w : Workspace} {guests waiting detached : List Path} {p root : Path} {first id : ProjectId}

theorem uprooting_absorb (h : Uprooting first guests id p (root :: waiting) w.registry)
    (detached : List Path) :
    Uprooting first guests id p waiting (absorb id (w, detached) root).1.registry := by
  rw [(absorb_eq id detached (h.isOpen root (by simp))).1]
  exact h.absorb

theorem uprooting_foldl (h : Uprooting first guests id p waiting w.registry) :
    Uprooting first guests id p [] (waiting.foldl (absorb id) (w, detached)).1.registry := by
  induction waiting generalizing w detached with
  | nil => exact h
  | cons root waiting ih =>
      have hstep := uprooting_absorb h detached
      rw [List.foldl_cons]
      generalize absorb id (w, detached) root = state at hstep ⊢
      exact ih hstep

/-! ### Attaching -/

theorem foundProject_planted (h : Planted first guests w.registry) (hopen : w.isOpen p)
    (hroot : p ∉ w.openFiles.roots) (absorbs : Bool) :
    Planted first guests (w.foundProject p absorbs).1.registry := by
  obtain ⟨founded, waiting, hregistry, hwaiting, heq⟩ := foundProject_eq hopen absorbs
  have huprooting : Uprooting first guests (w.lastProject + 1) p waiting founded.registry := by
    rw [hregistry]
    exact h.uprooting hopen hroot hwaiting
  rw [heq]
  exact (uprooting_foldl huprooting).addRoot

theorem join?_planted (h : Planted first guests w.registry) (hopen : w.isOpen p)
    (hroot : p ∉ w.openFiles.roots) {joined : Workspace} (hjoined : w.join? p = some joined) :
    Planted first guests joined.registry := by
  obtain ⟨id, hlive, hregistry⟩ := join?_cases hopen hjoined
  have hgiven := h.setOwner (p := p) (some id) (fun hmem => absurd hmem hroot)
    (fun _ => hopen) fun i hi => h.live_le i (Option.some.inj hi ▸ hlive)
  rcases hregistry with hregistry | hregistry
  all_goals
    rw [hregistry]
    exact hgiven.relist (.refl _)

/-- A way of attaching documents that keeps the roots in order. -/
def Plants (first : ProjectId) (guests : List Path) (attach : Workspace → Path → Workspace) : Prop :=
  ∀ ⦃w p⦄, Planted first guests w.registry → w.isOpen p → p ∉ w.openFiles.roots →
    Planted first guests (attach w p).registry

variable {attach : Workspace → Path → Workspace}

theorem reattachBy_planted (hattach : Plants first guests attach)
    (h : Planted first guests w.registry) (p : Path) :
    Planted first guests (reattachBy attach w p).registry := by
  rcases reattachBy_cases attach w p with ⟨hsame, -⟩ | ⟨hregistry, hopen, -⟩
  · rw [hsame]
    exact h
  · rw [hregistry]
    have hlifted : Planted first guests (w.modifyOpenFiles (·.remove p)).registry :=
      h.relist (OpenFiles.below_remove _ p).roots
    exact hattach hlifted hopen h.nodup.not_mem_erase

theorem foldl_reattachBy_planted (hattach : Plants first guests attach)
    (h : Planted first guests w.registry) (paths : List Path) :
    Planted first guests (paths.foldl (reattachBy attach) w).registry := by
  induction paths generalizing w with
  | nil => exact h
  | cons p paths ih => exact ih (reattachBy_planted hattach h p)

theorem plants_attachWithin (first : ProjectId) (guests : List Path) (depth : Nat) :
    Plants first guests (attachWithin depth) := by
  induction depth with
  | zero =>
      intro w p h hopen hroot
      rw [← registry_refresh] at h
      rw [← registry_isOpen, ← registry_refresh] at hopen
      rw [← registry_openFiles, ← registry_refresh] at hroot
      unfold attachWithin
      dsimp only
      cases hjoined : w.refresh.join? p with
      | some joined => exact join?_planted h hopen hroot hjoined
      | none => exact foundProject_planted h hopen hroot false
  | succ depth ih =>
      intro w p h hopen hroot
      rw [← registry_refresh] at h
      rw [← registry_isOpen, ← registry_refresh] at hopen
      rw [← registry_openFiles, ← registry_refresh] at hroot
      unfold attachWithin
      dsimp only
      cases hjoined : w.refresh.join? p with
      | some joined => exact join?_planted h hopen hroot hjoined
      | none => exact foldl_reattachBy_planted ih (foundProject_planted h hopen hroot true) _

theorem attach_planted (h : Planted first guests w.registry) (hopen : w.isOpen p)
    (hroot : p ∉ w.openFiles.roots) : Planted first guests (w.attach p).registry :=
  plants_attachWithin first guests _ h hopen hroot

theorem reattach_planted (h : Planted first guests w.registry) (paths : List Path) :
    Planted first guests (w.reattach paths).registry :=
  foldl_reattachBy_planted (fun _ _ => attach_planted) h paths

theorem removeProject_planted (h : Planted first guests w.registry)
    (hinfers : (w.registry.strike id).Infers (w.registry.strike id).openFiles.roots.length) :
    Planted first guests (w.removeProject id).1.registry := by
  rw [(removeProject_eq w id).1]
  exact h.strike hinfers

/-- A project that is not inferred may go. -/
theorem removeProject_planted_of_not (h : Planted first guests w.registry)
    (hid : ¬w.registry.IsInferred id) : Planted first guests (w.removeProject id).1.registry :=
  removeProject_planted h ((h.infers.strike hid).mono (List.length_filter_le ..))

theorem dissolve_planted (h : Planted first guests w.registry) (hid : ¬w.registry.IsInferred id) :
    Planted first guests (w.dissolve id).registry :=
  reattach_planted (removeProject_planted_of_not h hid) _

/-! ### Settling -/

theorem detachUnless_planted (h : Planted first [] w.registry) (property : Path → Project → Bool)
    {removal : OpenFiles → Path → OpenFiles} (hremoval : ∀ o p, (removal o p).Below o) (p : Path) :
    Planted first [] (detachUnless property removal (w, detached) p).1.registry := by
  rcases detachUnless_cases property removal w detached p with ⟨hsame, -⟩ | ⟨hregistry, -⟩
  · rw [hsame]
    exact h
  · rw [hregistry]
    have hunlisted : Planted first [] (w.registry.modifyOpenFiles (removal · p)) :=
      h.relist (hremoval w.openFiles p).roots
    exact hunlisted.setOwner none (fun _ => ⟨rfl, by simp⟩) (absurd rfl) fun id hid => by simp at hid

theorem foldl_detachUnless_planted {state : Workspace × List Path}
    (h : Planted first [] state.1.registry) (property : Path → Project → Bool)
    {removal : OpenFiles → Path → OpenFiles} (hremoval : ∀ o p, (removal o p).Below o)
    (ps : List Path) :
    Planted first [] (ps.foldl (detachUnless property removal) state).1.registry := by
  induction ps generalizing state with
  | nil => exact h
  | cons p ps ih => exact ih (detachUnless_planted h property hremoval p)

theorem demote_planted (h : Planted first guests w.registry) (detached : List Path) (root : Path) :
    Planted first guests (demote (w, detached) root).1.registry := by
  rcases demote_cases w detached root with ⟨hsame, -⟩ | ⟨id, hroot, hreaching, hdemoted⟩
  · rw [hsame]
    exact h
  · have hunseated := h.unseat (.inl hroot)
    have hgone := h.notMem_unseat root
    rw [← registry_unseat] at hunseated hgone
    have hopen : (w.unseat root).isOpen root := by
      rw [← registry_isOpen, registry_unseat, Registry.unseat, isOpen_evict]
      exact h.isOpen root hroot
    have hle : id ≤ (w.unseat root).lastProject := by
      rw [← registry_lastProject, registry_unseat, Registry.unseat, lastProject_evict]
      rw [reachingProject?] at hreaching
      have hfound := List.find?_some hreaching
      rw [Bool.and_eq_true] at hfound
      exact h.live_le id (isLive_of_projectHas hfound.2)
    obtain ⟨o, ho, hassigned⟩ := assign_eq id hopen
    have hroots : o.roots = (w.unseat root).openFiles.roots := ho.roots.resolve_right fun h => h.2
    have hgiven := hunseated.setOwner (p := root) (some id)
      (fun hmem => absurd hmem hgone) (fun _ => hopen) fun i hi => Option.some.inj hi ▸ hle
    rw [hdemoted, registry_emit, hassigned]
    exact hgiven.relist (by rw [hroots]; exact .refl _)

theorem foldl_demote_planted {state : Workspace × List Path}
    (h : Planted first guests state.1.registry) (ps : List Path) :
    Planted first guests (ps.foldl demote state).1.registry := by
  induction ps generalizing state with
  | nil => exact h
  | cons root ps ih => exact ih (demote_planted h _ root)

theorem NotInferred.not_isInferred (hid : w.NotInferred id) : ¬w.registry.IsInferred id := by
  rintro ⟨c, hc, hkind⟩
  obtain ⟨project, hproject, rfl⟩ := Option.map_eq_some_iff.mp hc
  exact hid.2 project.post (by simp [outlook, hproject]) hkind

theorem notInferred_of_mem_configured (hw : w.Enlisted) (hid : id ∈ w.configured) :
    w.NotInferred id := by
  obtain ⟨held, hheld, hkind⟩ := (hw.orderly.configured id).mp hid
  refine ⟨hw.orderly.le id held hheld, fun post hpost hinferred => hkind ?_⟩
  obtain ⟨project, hproject, rfl⟩ := Option.map_eq_some_iff.mp hheld
  obtain rfl : project.post = post := by simpa [outlook, hproject] using hpost
  exact hinferred

theorem NotInferred.dissolve (hw : w.Enlisted) (hid : w.NotInferred id) (gone : ProjectId) :
    (w.dissolve gone).NotInferred id :=
  have hproceeds : Proceeds False (fun _ => True) w (w.dissolve gone) :=
    leads_dissolve w gone ⟨hw, False.elim⟩
  hid.proceeds hproceeds

theorem prune_planted (h : Planted first guests w.registry) (hw : w.Enlisted) :
    Planted first guests w.prune.registry := by
  unfold prune
  dsimp only
  have hids : ∀ id ∈ w.configured.filter fun id => w.projectHas id (·.openCount = 0),
      w.NotInferred id := fun id hid =>
    notInferred_of_mem_configured hw (List.mem_filter.mp hid).1
  generalize w.configured.filter _ = unused at hids ⊢
  induction unused generalizing w with
  | nil => exact h
  | cons id unused ih =>
      exact ih (dissolve_planted h (hids id (by simp)).not_isInferred)
        (hw.shifts (shifts_dissolve w id)) fun i hi => (hids i (by simp [hi])).dissolve hw id

theorem sweep_planted (h : Planted first guests w.registry) :
    Planted first guests w.sweep.registry := by
  rw [registry_sweep h.owned_open]
  exact h

theorem detaching_planted (h : Planted first [] w.registry) :
    let configured := w.openFiles.configuredRoots.foldl
      (detachUnless (fun p project => project.isRoot p) .removeConfiguredRoot) (w, [])
    let referenced := configured.1.openFiles.referenced.foldl
      (detachUnless (fun p project => project.contains p) .removeReferenced) configured
    Planted first [] referenced.1.registry :=
  foldl_detachUnless_planted (foldl_detachUnless_planted h _ OpenFiles.below_removeConfiguredRoot _)
    _ OpenFiles.below_removeReferenced _

theorem regroup_planted (h : Planted first [] w.registry) : Planted first [] w.regroup.1.registry :=
  foldl_demote_planted (detaching_planted h) _

/-- Settling leaves the roots in order. -/
theorem settle_planted (h : Planted first [] w.registry) (hw : w.Enlisted) :
    Planted first [] w.settle.registry := by
  rw [← registry_refresh w] at h
  have hregrouped := (shifts_refresh w).trans (shifts_regroup w.refresh)
  rw [settle_eq]
  exact sweep_planted (prune_planted (reattach_planted (regroup_planted h) _)
    (hw.shifts (hregrouped.trans (shifts_reattach ..))))

end Workspace

end ProjectTracker
