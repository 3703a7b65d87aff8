import ProjectTracker.Proofs.Workspace.Evolution
import ProjectTracker.Proofs.Workspace.Runs
/-!
Which list a document stands in tells what kind of project it belongs to. The roots of inferred projects are
just the documents that own one, and the other lists have no such document. A document stands among the
roots of configured projects at most twice, and once more than it should only while it has a project.
-/

namespace ProjectTracker

namespace OpenFiles

variable {o o' o'' : OpenFiles} {p : Path}

/-- Lists from which some documents were taken out. -/
structure Below (o' o : OpenFiles) : Prop where
  roots : o'.roots.Sublist o.roots
  referenced : o'.referenced.Sublist o.referenced
  configuredRoots : o'.configuredRoots.Sublist o.configuredRoots

theorem Below.refl (o : OpenFiles) : o.Below o :=
  ⟨.refl _, .refl _, .refl _⟩

theorem Below.trans (h : o''.Below o') (h' : o'.Below o) : o''.Below o :=
  ⟨h.roots.trans h'.roots, h.referenced.trans h'.referenced,
    h.configuredRoots.trans h'.configuredRoots⟩

theorem Below.all (h : o'.Below o) : o'.all.Sublist o.all :=
  (h.roots.append h.referenced).append h.configuredRoots

theorem below_filter (o : OpenFiles) (keep : Path → Bool) : (o.filter keep).Below o :=
  ⟨List.filter_sublist, List.filter_sublist, List.filter_sublist⟩

theorem below_removeRoot (o : OpenFiles) (p : Path) : (o.removeRoot p).Below o :=
  ⟨List.erase_sublist, .refl _, .refl _⟩

theorem below_removeReferenced (o : OpenFiles) (p : Path) : (o.removeReferenced p).Below o :=
  ⟨.refl _, List.erase_sublist, .refl _⟩

theorem below_removeConfiguredRoot (o : OpenFiles) (p : Path) : (o.removeConfiguredRoot p).Below o :=
  ⟨.refl _, .refl _, List.erase_sublist⟩

theorem below_remove (o : OpenFiles) (p : Path) : (o.remove p).Below o :=
  ((below_removeConfiguredRoot _ p).trans (below_removeReferenced _ p)).trans (below_removeRoot o p)

theorem below_removeFirst (o : OpenFiles) (p : Path) : (o.removeFirst p).Below o := by
  unfold removeFirst
  split
  · exact below_removeRoot o p
  · split
    · exact below_removeConfiguredRoot o p
    · exact below_removeReferenced o p

end OpenFiles

namespace Registry

variable {t : Terms} {r : Registry} {loose moving guests single : List Path} {p q root : Path}
  {id : ProjectId} {vacant? : Option ProjectId} {o : OpenFiles}

/-- A document is the only root of a live inferred project that it belongs to. -/
def Own (r : Registry) (p : Path) : Prop :=
  ∃ id, r.owner? p = some id ∧ r.Has id fun kind roots => kind = .inferred ∧ roots = [p]

/-- The lists go by the kinds of projects. One inferred project may be without its root. Some documents
stand among the roots of configured projects at most once. -/
structure Seated (r : Registry) (vacant? : Option ProjectId) (single : List Path) : Prop where
  own : ∀ p ∈ r.openFiles.roots, r.Own p
  inferred : ∀ id c, r.charter? id = some c → c.kind = .inferred → vacant? ≠ some id →
    ∃ p, c.roots = [p] ∧ r.owner? p = some id
  apart : ∀ p ∈ r.openFiles.referenced, ¬r.Own p ∧ p ∉ r.openFiles.configuredRoots
  configured : ∀ p ∈ r.openFiles.configuredRoots, ¬r.Own p
  nodup : r.openFiles.referenced.Nodup
  twice : ∀ p, r.openFiles.configuredRoots.count p ≤ 2
  once : ∀ p, r.owner? p = none ∨ p ∈ single → r.openFiles.configuredRoots.count p ≤ 1

/-- A document may be put into a list: it is nowhere else, or else once among the roots of configured
projects. -/
structure Free (r : Registry) (single : List Path) (p : Path) : Prop where
  own : ¬r.Own p
  referenced : p ∉ r.openFiles.referenced
  count : r.openFiles.configuredRoots.count p ≤ 1
  once : p ∈ single → p ∉ r.openFiles.configuredRoots

/-- If it stands among those roots it does so rightly. -/
def Welcome (r : Registry) (p : Path) : Prop :=
  p ∈ r.openFiles.configuredRoots → ∃ id, r.Rooted id p

theorem Own.of_owner (h : r.Own p) (howner : r.owner? p = some id) :
    r.Has id fun kind roots => kind = .inferred ∧ roots = [p] := by
  obtain ⟨i, hi, hhas⟩ := h
  obtain rfl : i = id := Option.some.inj (hi.symm.trans howner)
  exact hhas

theorem Has.roots_eq {p q : Path} (hp : r.Has id fun kind roots => kind = .inferred ∧ roots = [p])
    (hq : r.Has id fun kind roots => kind = .inferred ∧ roots = [q]) : p = q := by
  obtain ⟨c, hc, -, hroots⟩ := hp
  obtain ⟨c', hc', -, hroots'⟩ := hq
  obtain rfl : c = c' := Option.some.inj (hc.symm.trans hc')
  simpa using hroots.symm.trans hroots'

/-- Two documents do not own one project. -/
theorem Own.eq_of_owner (hp : r.Own p) (hq : r.Own q) (h : r.owner? p = r.owner? q) : p = q := by
  obtain ⟨id, howner, hhas⟩ := hp
  exact hhas.roots_eq (hq.of_owner (h ▸ howner))

namespace Seated

theorem notMem_roots (h : Seated r vacant? single) (hown : ¬r.Own p) : p ∉ r.openFiles.roots :=
  fun hp => hown (h.own p hp)

/-- Taking documents out of the lists does no harm. -/
theorem below (h : Seated r vacant? single) (ho : o.Below r.openFiles) :
    Seated { r with openFiles := o } vacant? single where
  own p hp := h.own p (ho.roots.subset hp)
  inferred := h.inferred
  apart p hp := ⟨(h.apart p (ho.referenced.subset hp)).1,
    fun hp' => (h.apart p (ho.referenced.subset hp)).2 (ho.configuredRoots.subset hp')⟩
  configured p hp := h.configured p (ho.configuredRoots.subset hp)
  nodup := ho.referenced.nodup h.nodup
  twice p := Nat.le_trans (ho.configuredRoots.count_le p) (h.twice p)
  once p hp := Nat.le_trans (ho.configuredRoots.count_le p) (h.once p hp)

theorem fewer {single' : List Path} (h : Seated r vacant? single) (hsingle : single' ⊆ single) :
    Seated r vacant? single' :=
  { h with once := fun p hp => h.once p (hp.imp_right (hsingle ·)) }

end Seated

/-! ### Owners -/

theorem has_setOwner_iff {owner? : Option ProjectId} {property : ProjectKind → List Path → Prop} :
    (r.setOwner p owner?).Has id property ↔ r.Has id property := by
  refine ⟨?_, fun h => h.setOwner p owner?⟩
  rintro ⟨c, hc, hproperty⟩
  obtain ⟨c', hc', hkind, hroots⟩ := kind_setOwner hc
  exact ⟨c', hc', hkind ▸ hroots ▸ hproperty⟩

theorem own_setOwner_iff {owner? : Option ProjectId} (hq : q ≠ p) :
    (r.setOwner p owner?).Own q ↔ r.Own q := by
  unfold Own
  simp only [setOwner_owner?, if_neg hq, has_setOwner_iff]

namespace Seated

/-- The projects of other documents do not become those of this one. -/
theorem not_own_setOwner (h : Seated r none single) (hown : ¬r.Own p) (id : ProjectId) :
    ¬(r.setOwner p (some id)).Own p := by
  intro hown'
  have howner' : (r.setOwner p (some id)).owner? p = some id := by simp
  have hhas := hown'.of_owner howner'
  rw [has_setOwner_iff] at hhas
  obtain ⟨c, hc, hkind, hroots⟩ := hhas
  obtain ⟨q, hroots', howner⟩ := h.inferred id c hc hkind (by simp)
  obtain rfl : p = q := by simpa using hroots.symm.trans hroots'
  exact hown ⟨id, howner, c, hc, hkind, hroots⟩

/-- A document that owns no inferred project goes to another owner. -/
theorem setOwner (h : Seated r vacant? single) (hown : ¬r.Own p) {owner? : Option ProjectId}
    (hown' : ¬(r.setOwner p owner?).Own p)
    (hcount : owner? = none → r.openFiles.configuredRoots.count p ≤ 1) :
    Seated (r.setOwner p owner?) vacant? single where
  own q hq := by
    have hqp : q ≠ p := fun hqp => hown (hqp ▸ h.own q hq)
    exact (own_setOwner_iff hqp).mpr (h.own q hq)
  inferred id c hc hkind hid := by
    obtain ⟨c', hc', hkind', hroots⟩ := kind_setOwner hc
    obtain ⟨q, hq, howner⟩ := h.inferred id c' hc' (hkind' ▸ hkind) hid
    have hqp : q ≠ p := by
      rintro rfl
      exact hown ⟨id, howner, c', hc', hkind' ▸ hkind, hq⟩
    exact ⟨q, hroots ▸ hq, by simpa [hqp] using howner⟩
  apart q hq := by
    refine ⟨?_, (h.apart q hq).2⟩
    by_cases hqp : q = p
    · exact hqp ▸ hown'
    · exact (own_setOwner_iff hqp).not.mpr (h.apart q hq).1
  configured q hq := by
    by_cases hqp : q = p
    · exact hqp ▸ hown'
    · exact (own_setOwner_iff hqp).not.mpr (h.configured q hq)
  nodup := h.nodup
  twice := h.twice
  once q hq := by
    by_cases hqp : q = p
    · subst q
      exact hq.elim (fun hnone => hcount (by simpa using hnone)) fun hq => h.once p (.inr hq)
    · exact h.once q (by simpa [hqp] using hq)

/-- A document is taken out of lists and away from its project. -/
theorem unlist (h : Seated r none single) (ho : o.Below r.openFiles) (hown : ¬r.Own p)
    (hcount : o.configuredRoots.count p ≤ 1) :
    Seated ({ r with openFiles := o }.setOwner p none) none single := by
  refine (h.below ho).setOwner hown ?_ fun _ => hcount
  rintro ⟨id, howner, -⟩
  simp at howner

theorem addRoot (h : Seated r vacant? single) (hown : r.Own p) :
    Seated (r.modifyOpenFiles (·.addRoot p)) vacant? single :=
  { h with
    own := fun q hq => by
      rcases List.mem_append.mp hq with hq | hq
      · exact h.own q hq
      · exact List.mem_singleton.mp hq ▸ hown }

theorem addReferenced (h : Seated r vacant? single) (hown : ¬r.Own p)
    (hreferenced : p ∉ r.openFiles.referenced) (hconfigured : p ∉ r.openFiles.configuredRoots) :
    Seated (r.modifyOpenFiles (·.addReferenced p)) vacant? single :=
  { h with
    apart := fun q hq => by
      rcases List.mem_append.mp hq with hq | hq
      · exact h.apart q hq
      · obtain rfl := List.mem_singleton.mp hq
        exact ⟨hown, hconfigured⟩
    nodup := by
      show (r.openFiles.referenced ++ [p]).Nodup
      rw [← List.concat_eq_append]
      exact h.nodup.concat hreferenced }

theorem addConfiguredRoot (h : Seated r vacant? single) (hown : ¬r.Own p)
    (hreferenced : p ∉ r.openFiles.referenced)
    (hcount : r.openFiles.configuredRoots.count p ≤ 1)
    (honce : r.owner? p = none ∨ p ∈ single → p ∉ r.openFiles.configuredRoots) :
    Seated (r.modifyOpenFiles (·.addConfiguredRoot p)) vacant? single := by
  have hcounts (q : Path) : (r.openFiles.configuredRoots ++ [p]).count q =
      r.openFiles.configuredRoots.count q + if q = p then 1 else 0 := by
    rw [List.count_append]
    by_cases hq : q = p
    · subst q
      simp
    · have hzero : [p].count q = 0 := List.count_eq_zero.mpr (by simpa using hq)
      rw [if_neg hq, hzero]
  exact
    { h with
      apart := fun q hq => by
        refine ⟨(h.apart q hq).1, fun hq' => ?_⟩
        rcases List.mem_append.mp hq' with hq' | hq'
        · exact (h.apart q hq).2 hq'
        · exact hreferenced (List.mem_singleton.mp hq' ▸ hq)
      configured := fun q hq => by
        rcases List.mem_append.mp hq with hq | hq
        · exact h.configured q hq
        · exact List.mem_singleton.mp hq ▸ hown
      twice := fun q => by
        show (r.openFiles.configuredRoots ++ [p]).count q ≤ 2
        rw [hcounts]
        split
        · subst q
          omega
        · exact h.twice q
      once := fun q hq => by
        show (r.openFiles.configuredRoots ++ [p]).count q ≤ 1
        rw [hcounts]
        split
        · subst q
          rw [List.count_eq_zero.mpr (honce hq)]
        · exact h.once q hq }

/-! ### Projects -/

theorem own_of_strike (h : (r.strike id).Own p) : r.Own p := by
  obtain ⟨i, howner, c, hc, hproperty⟩ := h
  exact ⟨i, (owner?_strike_eq_some.mp howner).2, c, (charter?_strike_eq_some.mp hc).2, hproperty⟩

/-- The documents that own other projects keep them. -/
theorem own_strike (h : r.Own p) (hne : r.owner? p ≠ some id) : (r.strike id).Own p := by
  obtain ⟨i, howner, c, hc, hproperty⟩ := h
  have hmembers : p ∉ r.members id := fun hp => hne (mem_members.mp hp).2.2
  refine ⟨i, owner?_strike_eq_some.mpr ⟨hmembers, howner⟩, c, ?_, hproperty⟩
  exact charter?_strike_eq_some.mpr ⟨fun hi => hne (hi ▸ howner), hc⟩

/-- With a project all its documents leave the lists. -/
theorem strike (h : Seated r vacant? single) (hvacant : ∀ i, vacant? = some i → i = id) :
    Seated (r.strike id) none single where
  own p hp := by
    obtain ⟨hroot, hmembers⟩ := mem_roots_strike.mp hp
    refine own_strike (h.own p hroot) fun howner => hmembers ?_
    have hlive := ((h.own p hroot).of_owner howner).isLive
    exact mem_members.mpr ⟨hlive, by simp [OpenFiles.all, hroot], howner⟩
  inferred i c hc hkind _ := by
    obtain ⟨hi, hc⟩ := charter?_strike_eq_some.mp hc
    obtain ⟨p, hroots, howner⟩ := h.inferred i c hc hkind fun hv => hi (hvacant i hv)
    have hmembers : p ∉ r.members id := fun hp =>
      hi (Option.some.inj (howner.symm.trans (mem_members.mp hp).2.2))
    exact ⟨p, hroots, owner?_strike_eq_some.mpr ⟨hmembers, howner⟩⟩
  apart p hp := by
    have hp' : p ∈ r.openFiles.referenced := (List.mem_filter.mp hp).1
    exact ⟨fun hown => (h.apart p hp').1 (own_of_strike hown),
      fun hmem => (h.apart p hp').2 (List.mem_filter.mp hmem).1⟩
  configured p hp := fun hown => h.configured p (List.mem_filter.mp hp).1 (own_of_strike hown)
  nodup := h.nodup.filter _
  twice p := Nat.le_trans (List.filter_sublist.count_le p) (h.twice p)
  once p hp := by
    by_cases hmembers : p ∈ r.members id
    · have hgone : p ∉ (r.strike id).openFiles.configuredRoots := fun hmem => by
        simpa [hmembers] using (List.mem_filter.mp hmem).2
      rw [List.count_eq_zero.mpr hgone]
      omega
    · refine Nat.le_trans (List.filter_sublist.count_le p) (h.once p (hp.imp_left fun hnone => ?_))
      simpa [Registry.strike, hmembers] using hnone

theorem evict (h : Seated r none single) (former? : Option ProjectId) :
    Seated (r.evict former?).1 none single := by
  cases former? with
  | none => exact h
  | some former => exact h.strike (by simp)

theorem own_enroll_iff (hle : ∀ q i, r.owner? q = some i → i ≤ r.lastProject) (kind : ProjectKind)
    (roots : List Path) : (r.enroll kind roots).Own p ↔ r.Own p := by
  constructor
  · rintro ⟨i, howner, c, hc, hproperty⟩
    have hne : i ≠ r.lastProject + 1 := fun heq =>
      absurd (heq ▸ hle p i howner) (Nat.not_succ_le_self _)
    exact ⟨i, howner, c, by simpa [Registry.enroll, hne] using hc, hproperty⟩
  · rintro ⟨i, howner, hhas⟩
    exact ⟨i, howner, hhas.enroll (hle p i howner) kind roots⟩

/-- A new inferred project is without its root at first. -/
theorem enroll (h : Seated r none single) (hle : ∀ q i, r.owner? q = some i → i ≤ r.lastProject)
    (kind : ProjectKind) (roots : List Path) (hvacant : kind = .inferred →
      vacant? = some (r.lastProject + 1)) : Seated (r.enroll kind roots) vacant? single where
  own p hp := (own_enroll_iff hle kind roots).mpr (h.own p hp)
  inferred i c hc hkind hi := by
    simp only [Registry.enroll] at hc
    split at hc
    · obtain rfl := Option.some.inj hc
      subst i
      exact absurd (hvacant hkind) hi
    · exact h.inferred i c hc hkind (by simp)
  apart p hp := ⟨(own_enroll_iff hle kind roots).not.mpr (h.apart p hp).1, (h.apart p hp).2⟩
  configured p hp := (own_enroll_iff hle kind roots).not.mpr (h.configured p hp)
  nodup := h.nodup
  twice := h.twice
  once := h.once

/-- The root of an inferred project comes to own it. -/
theorem occupy (h : Seated r (some id) single)
    (hid : r.Has id fun kind roots => kind = .inferred ∧ roots = [p]) (hown : ¬r.Own p)
    (hreferenced : p ∉ r.openFiles.referenced) (hconfigured : p ∉ r.openFiles.configuredRoots) :
    Seated (r.setOwner p (some id)) none single where
  own q hq := by
    have hqp : q ≠ p := fun hqp => hown (hqp ▸ h.own q hq)
    exact (own_setOwner_iff hqp).mpr (h.own q hq)
  inferred i c hc hkind _ := by
    obtain ⟨c', hc', hkind', hroots⟩ := kind_setOwner hc
    by_cases hi : i = id
    · subst i
      obtain ⟨c'', hc'', -, hroots'⟩ := hid
      obtain rfl : c'' = c' := Option.some.inj (hc''.symm.trans hc')
      exact ⟨p, hroots ▸ hroots', by simp⟩
    · obtain ⟨q, hq, howner⟩ := h.inferred i c' hc' (hkind' ▸ hkind) fun hv =>
        hi (Option.some.inj hv).symm
      have hqp : q ≠ p := by
        rintro rfl
        exact hown ⟨i, howner, c', hc', hkind' ▸ hkind, hq⟩
      exact ⟨q, hroots ▸ hq, by simpa [hqp] using howner⟩
  apart q hq := by
    have hqp : q ≠ p := fun hqp => hreferenced (hqp ▸ hq)
    exact ⟨(own_setOwner_iff hqp).not.mpr (h.apart q hq).1, (h.apart q hq).2⟩
  configured q hq := by
    have hqp : q ≠ p := fun hqp => hconfigured (hqp ▸ hq)
    exact (own_setOwner_iff hqp).not.mpr (h.configured q hq)
  nodup := h.nodup
  twice := h.twice
  once q hq := by
    by_cases hqp : q = p
    · subst q
      show r.openFiles.configuredRoots.count p ≤ 1
      rw [List.count_eq_zero.mpr hconfigured]
      omega
    · exact h.once q (by simpa [hqp] using hq)

/-- The roots of inferred projects stay the same. -/
theorem modifyRoots (h : Seated r vacant? single) {f : List Path → List Path}
    (hf : ∀ c, r.charter? id = some c → c.kind = .inferred → f c.roots = c.roots) :
    Seated (r.modifyRoots id f) vacant? single := by
  have hcharter (i : ProjectId) (c : Charter) (hkind : c.kind = .inferred) :
      (r.modifyRoots id f).charter? i = some c ↔ r.charter? i = some c := by
    simp only [Registry.modifyRoots]
    split
    · subst i
      cases hc : r.charter? id with
      | none => simp
      | some former =>
          have hkept (hkind : former.kind = .inferred) :
              { former with roots := f former.roots } = former := by
            rw [hf former hc hkind]
          rw [Option.map_some, Option.some.injEq, Option.some.injEq]
          constructor
          · rintro rfl
            exact (hkept hkind).symm
          · rintro rfl
            exact hkept hkind
    · rfl
  have hown (p : Path) : (r.modifyRoots id f).Own p ↔ r.Own p := by
    unfold Own Has
    constructor
    · rintro ⟨i, howner, c, hc, hkind, hroots⟩
      exact ⟨i, howner, c, (hcharter i c hkind).mp hc, hkind, hroots⟩
    · rintro ⟨i, howner, c, hc, hkind, hroots⟩
      exact ⟨i, howner, c, (hcharter i c hkind).mpr hc, hkind, hroots⟩
  exact
    { own := fun p hp => (hown p).mpr (h.own p hp)
      inferred := fun i c hc hkind => h.inferred i c ((hcharter i c hkind).mp hc) hkind
      apart := fun p hp => ⟨(hown p).not.mpr (h.apart p hp).1, (h.apart p hp).2⟩
      configured := fun p hp => (hown p).not.mpr (h.configured p hp)
      nodup := h.nodup
      twice := h.twice
      once := h.once }

/-- A document that owns a project and stands nowhere else is the root of it. -/
theorem mem_roots_of_own (h : Seated r none single) (hsound : Sound t r loose [] guests)
    (hown : r.Own p) : p ∈ r.openFiles.roots := by
  have ⟨id, howner, _⟩ := hown
  have hopen := hsound.owned_open p (by simp [howner])
  have hall := (hsound.owned_listed p hopen (by simp [howner])).resolve_right (by simp)
  simp only [OpenFiles.all, List.mem_append] at hall
  rcases hall with (hroots | hreferenced) | hconfigured
  · exact hroots
  · exact absurd hown (h.apart p hreferenced).1
  · exact absurd hown (h.configured p hconfigured)

/-! ### Attaching -/

/-- A document that lost its project and leaves the lists may be attached. -/
theorem free_remove (h : Seated r none single) (hnone : r.owner? p = none) :
    Free (r.modifyOpenFiles (·.remove p)) single p ∧ (r.modifyOpenFiles (·.remove p)).Welcome p := by
  have hcount : (r.openFiles.configuredRoots.erase p).count p = 0 := by
    have hle := h.once p (.inl hnone)
    rw [List.count_erase_self]
    omega
  have hgone : p ∉ r.openFiles.configuredRoots.erase p := List.count_eq_zero.mp hcount
  refine ⟨⟨?_, h.nodup.not_mem_erase, ?_, fun _ => hgone⟩, fun hmem => absurd hmem hgone⟩
  · rintro ⟨id, howner, -⟩
    have howner' : r.owner? p = some id := howner
    simp [hnone] at howner'
  · show (r.openFiles.configuredRoots.erase p).count p ≤ 1
    omega

/-- A document comes to its next list with its project. -/
theorem joinReferenced (h : Seated r none single) (hfree : Free r single p) (id : ProjectId)
    (hconfigured : p ∉ r.openFiles.configuredRoots) :
    Seated ((r.setOwner p (some id)).modifyOpenFiles (·.addReferenced p)) none single :=
  have hown := h.not_own_setOwner hfree.own id
  (h.setOwner hfree.own hown (by simp)).addReferenced hown hfree.referenced hconfigured

theorem joinConfigured (h : Seated r none single) (hfree : Free r single p) (id : ProjectId) :
    Seated ((r.setOwner p (some id)).modifyOpenFiles (·.addConfiguredRoot p)) none single :=
  have hown := h.not_own_setOwner hfree.own id
  (h.setOwner hfree.own hown (by simp)).addConfiguredRoot hown hfree.referenced hfree.count
    fun hp => hfree.once (hp.resolve_left (by simp))

end Seated

/-- The registry after the root of an inferred project left it, and the project went. -/
def unseat (r : Registry) (root : Path) : Registry :=
  ((r.modifyOpenFiles (·.removeRoot root)).evict (r.owner? root)).1

theorem below_unseat (r : Registry) (root : Path) : (r.unseat root).openFiles.Below r.openFiles := by
  unfold unseat
  cases r.owner? root with
  | none => exact OpenFiles.below_removeRoot ..
  | some former => exact (OpenFiles.below_filter ..).trans (OpenFiles.below_removeRoot ..)

/-- Those that own other projects keep them, and their places. -/
theorem Own.unseat (hq : r.Own q) (hroot : r.Own root) (hne : q ≠ root) :
    (r.unseat root).Own q ∧ (r.unseat root).owner? q = r.owner? q ∧
      (q ∈ r.openFiles.roots → q ∈ (r.unseat root).openFiles.roots) := by
  have howner : r.owner? root ≠ r.owner? q := fun heq => hne (hroot.eq_of_owner hq heq).symm
  have hstays : q ∉ ((r.modifyOpenFiles (·.removeRoot root)).evict (r.owner? root)).2 := fun hmem =>
    howner (mem_evict hmem).2.2.symm
  refine ⟨?_, ?_, fun hmem => ?_⟩
  · have ⟨former, hformer, _⟩ := hroot
    unfold Registry.unseat
    rw [hformer] at howner ⊢
    exact Seated.own_strike (r := r.modifyOpenFiles (·.removeRoot root)) hq howner.symm
  · unfold Registry.unseat
    rw [owner?_evict, if_neg hstays]
    rfl
  · exact mem_roots_evict.mpr ⟨(List.mem_erase_of_ne hne).mpr hmem, hstays⟩

theorem Seated.unseat (h : Seated r none single) (root : Path) :
    Seated (r.unseat root) none single :=
  (h.below (OpenFiles.below_removeRoot _ root)).evict (r.owner? root)

/-- Once its project is removed the root of an inferred project may go to another one. -/
theorem Seated.free_unseat (h : Seated r none single) (hroot : root ∈ r.openFiles.roots) :
    Free (r.unseat root) single root ∧ root ∉ (r.unseat root).openFiles.configuredRoots := by
  have hown := h.own root hroot
  have hbelow := below_unseat r root
  have hconfigured : root ∉ (r.unseat root).openFiles.configuredRoots := fun hmem =>
    h.configured root (hbelow.configuredRoots.subset hmem) hown
  refine ⟨⟨?_, fun hmem => (h.apart root (hbelow.referenced.subset hmem)).1 hown, ?_,
    fun _ => hconfigured⟩, hconfigured⟩
  · have ⟨id, howner, _⟩ := hown
    unfold Registry.unseat
    rw [howner]
    rintro ⟨i, howner', c, hc, -⟩
    have hi := (owner?_strike_eq_some.mp howner').2
    obtain rfl : id = i := Option.some.inj (howner.symm.trans hi)
    exact (charter?_strike_eq_some.mp hc).1 rfl
  · rw [List.count_eq_zero.mpr hconfigured]
    omega

/-- An inferred project owns the document that it is for, and absorbs roots. -/
structure Gathering (r : Registry) (id : ProjectId) (p : Path) (waiting single : List Path) :
    Prop where
  seated : Seated r none single
  owner : r.owner? p = some id
  own : r.Own p
  fresh : p ∉ r.openFiles.roots
  placed : ∀ q ∈ waiting, q ∈ r.openFiles.roots
  nodup : waiting.Nodup

theorem Gathering.absorb {waiting : List Path} (h : Gathering r id p (root :: waiting) single) :
    Gathering (r.absorb id root).1 id p waiting single := by
  have hroot := h.placed root (by simp)
  have hown := h.seated.own root hroot
  have hpr : p ≠ root := fun heq => h.fresh (heq ▸ hroot)
  obtain ⟨hfree, hconfigured⟩ := h.seated.free_unseat hroot
  obtain ⟨hkept, howner, -⟩ := h.own.unseat hown hpr
  exact
    { seated := (h.seated.unseat root).joinReferenced hfree id hconfigured
      owner := by
        show (if p = root then some id else (r.unseat root).owner? p) = some id
        rw [if_neg hpr, howner]
        exact h.owner
      own := (own_setOwner_iff (r := r.unseat root) hpr).mpr hkept
      fresh := fun hmem => h.fresh ((below_unseat r root).roots.subset hmem)
      placed := fun q hq => by
        have hqr : q ≠ root := fun heq => (List.nodup_cons.mp h.nodup).1 (heq ▸ hq)
        have hqroot := h.placed q (by simp [hq])
        exact ((h.seated.own q hqroot).unseat hown hqr).2.2 hqroot
      nodup := (List.nodup_cons.mp h.nodup).2 }

/-- A free document that stands nowhere founds a project. -/
theorem Seated.gathering {waiting : List Path} (h : Seated r none single)
    (hsound : Sound t r loose moving guests) (hfree : Free r single p)
    (hconfigured : p ∉ r.openFiles.configuredRoots) (hwaiting : waiting.Sublist r.openFiles.roots) :
    Gathering ((r.enroll .inferred [p]).setOwner p (some (r.lastProject + 1)))
      (r.lastProject + 1) p waiting single := by
  have henrolled := h.enroll hsound.owner_le .inferred [p] fun _ => rfl
  have hhas : (r.enroll .inferred [p]).Has (r.lastProject + 1)
      fun kind roots => kind = .inferred ∧ roots = [p] :=
    ⟨⟨.inferred, [p], 0⟩, by simp [Registry.enroll], rfl, rfl⟩
  have hown := (own_enroll_iff hsound.owner_le .inferred [p]).not.mpr hfree.own
  exact
    { seated := henrolled.occupy hhas hown hfree.referenced hconfigured
      owner := by simp
      own := ⟨_, by simp, has_setOwner_iff.mpr hhas⟩
      fresh := h.notMem_roots hfree.own
      placed := fun q hq => hwaiting.subset hq
      nodup := hwaiting.nodup hsound.roots_nodup }

end Registry

namespace Workspace

open Registry

variable {t : Terms} {w : Workspace} {loose guests single : List Path} {p root : Path}
  {id : ProjectId}

theorem gathering_foldl {waiting detached : List Path}
    (habsorbing : Absorbing t w.registry (detached ++ loose) guests id p waiting)
    (h : Gathering w.registry id p waiting single) :
    Gathering (waiting.foldl (absorb id) (w, detached)).1.registry id p [] single := by
  induction waiting generalizing w detached with
  | nil => exact h
  | cons root waiting ih =>
      have hstep := absorbing_absorb habsorbing
      have hregistry := (absorb_eq id detached (habsorbing.waiting_open root (by simp))).1
      have habsorbed := h.absorb
      rw [← hregistry] at habsorbed
      rw [List.foldl_cons]
      generalize absorb id (w, detached) root = state at hstep habsorbed ⊢
      exact ih hstep habsorbed

theorem foundProject_seated (hsound : Sound t w.registry loose [p] guests)
    (h : Seated w.registry none single) (hfree : Free w.registry single p)
    (hconfigured : p ∉ w.openFiles.configuredRoots) (absorbs : Bool) :
    Seated (w.foundProject p absorbs).1.registry none single := by
  obtain ⟨founded, waiting, hregistry, hwaiting, heq⟩ :=
    foundProject_eq (hsound.moving_free p (by simp)).1 absorbs
  have habsorbing : Absorbing t founded.registry ([] ++ loose) guests (w.lastProject + 1) p
      waiting := by
    rw [hregistry]
    exact hsound.absorbing hwaiting
  have hgathering : Gathering founded.registry (w.lastProject + 1) p waiting single := by
    rw [hregistry]
    exact h.gathering hsound hfree hconfigured hwaiting
  have hgathered := gathering_foldl habsorbing hgathering
  rw [heq]
  exact hgathered.seated.addRoot hgathered.own

/-- Where no project has a document as a root it does not stand among the roots of such projects. -/
theorem notMem_configuredRoots (hsound : Sound t w.registry loose [p] guests) (ht : t.live)
    (hwelcome : w.registry.Welcome p) (hnone : w.rootingProject? p = none) :
    p ∉ w.openFiles.configuredRoots := by
  intro hmem
  obtain ⟨id, hrooted⟩ := hwelcome hmem
  have hsome := isSome_rootingProject? hsound ht hrooted
  simp [hnone] at hsome

theorem join?_seated (hsound : Sound t w.registry loose [p] guests) (ht : t.live)
    (h : Seated w.registry none single) (hfree : Free w.registry single p)
    (hwelcome : w.registry.Welcome p) {joined : Workspace} (hjoined : w.join? p = some joined) :
    Seated joined.registry none single := by
  have hopen : w.isOpen p := (hsound.moving_free p (by simp)).1
  unfold join? at hjoined
  split at hjoined
  · rename_i id _
    obtain rfl := Option.some.inj hjoined
    rw [registry_modifyOpenFiles, registry_setOwner (.inl hopen)]
    exact h.joinConfigured hfree id
  · rename_i hrooting
    split at hjoined
    · rename_i id _
      obtain rfl := Option.some.inj hjoined
      rw [registry_modifyOpenFiles, registry_setOwner (.inl hopen)]
      exact h.joinReferenced hfree id (notMem_configuredRoots hsound ht hwelcome hrooting)
    · simp at hjoined

theorem rootingProject?_of_join? (h : w.join? p = none) : w.rootingProject? p = none := by
  unfold join? at h
  split at h
  · simp at h
  · assumption

/-- A way of attaching documents that gives them a proper place. -/
def Seats (t : Terms) (guests single : List Path) (attach : Workspace → Path → Workspace) : Prop :=
  ∀ ⦃w p loose⦄, Sound t w.registry loose [p] guests → Seated w.registry none single →
    Free w.registry single p → w.registry.Welcome p → Seated (attach w p).registry none single

theorem reattachBy_seated {attach : Workspace → Path → Workspace}
    (hattach : Seats t guests single attach) (hsound : Sound t w.registry (p :: loose) [] guests)
    (h : Seated w.registry none single) :
    Seated (reattachBy attach w p).registry none single := by
  rcases reattachBy_cases attach w p with ⟨hsame, -⟩ | ⟨hregistry, hopen, hnone⟩
  · rw [hsame]
    exact h
  · rw [hregistry]
    exact hattach (w := w.modifyOpenFiles (·.remove p)) (lift_loose hsound hopen hnone)
      (h.below (OpenFiles.below_remove _ p)) (h.free_remove hnone).1 (h.free_remove hnone).2

theorem foldl_reattachBy_seated {attach : Workspace → Path → Workspace}
    (hsafe : Attaches t guests attach) (hattach : Seats t guests single attach) {paths : List Path}
    (hsound : Sound t w.registry (paths ++ loose) [] guests) (h : Seated w.registry none single) :
    Seated (paths.foldl (reattachBy attach) w).registry none single := by
  induction paths generalizing w with
  | nil => exact h
  | cons p paths ih =>
      exact ih (reattachBy_sound hsafe hsound) (reattachBy_seated hattach hsound h)

theorem seats_attachWithin (ht : t.live) (guests single : List Path) (depth : Nat) :
    Seats t guests single (attachWithin depth) := by
  induction depth with
  | zero =>
      intro w p loose hsound h hfree hwelcome
      rw [← registry_refresh] at hsound h hfree hwelcome
      unfold attachWithin
      dsimp only
      cases hjoined : w.refresh.join? p with
      | some joined => exact join?_seated hsound ht h hfree hwelcome hjoined
      | none =>
          exact foundProject_seated hsound h hfree (notMem_configuredRoots hsound ht hwelcome
            (rootingProject?_of_join? hjoined)) false
  | succ depth ih =>
      intro w p loose hsound h hfree hwelcome
      rw [← registry_refresh] at hsound h hfree hwelcome
      unfold attachWithin
      dsimp only
      cases hjoined : w.refresh.join? p with
      | some joined => exact join?_seated hsound ht h hfree hwelcome hjoined
      | none =>
          exact foldl_reattachBy_seated (attaches_attachWithin t guests depth) ih
            (foundProject_sound hsound true) (foundProject_seated hsound h hfree
              (notMem_configuredRoots hsound ht hwelcome (rootingProject?_of_join? hjoined)) true)

theorem attach_seated (ht : t.live) (hsound : Sound t w.registry loose [p] guests)
    (h : Seated w.registry none single) (hfree : Free w.registry single p)
    (hwelcome : w.registry.Welcome p) : Seated (w.attach p).registry none single :=
  seats_attachWithin ht guests single _ hsound h hfree hwelcome

theorem reattach_seated (ht : t.live) {paths : List Path}
    (hsound : Sound t w.registry (paths ++ loose) [] guests) (h : Seated w.registry none single) :
    Seated (w.reattach paths).registry none single :=
  foldl_reattachBy_seated (fun _ _ _ => attach_sound) (fun _ _ _ => attach_seated ht) hsound h

/-- A project that goes may be the one that is without its root. -/
theorem dissolve_seated (ht : t.live) (hsound : Sound t w.registry loose [] guests)
    {vacant? : Option ProjectId} (h : Seated w.registry vacant? single)
    (hvacant : ∀ i, vacant? = some i → i = id) :
    Seated (w.dissolve id).registry none single := by
  have hstruck : Seated (w.removeProject id).1.registry none single := by
    rw [(removeProject_eq w id).1]
    exact h.strike hvacant
  exact reattach_seated ht (removeProject_sound hsound id) hstruck

/-! ### Settling -/

theorem prune_seated (ht : t.live) (hsound : Sound t w.registry loose [] guests)
    (h : Seated w.registry none single) : Seated w.prune.registry none single := by
  unfold prune
  dsimp only
  generalize w.configured.filter _ = unused
  induction unused generalizing w with
  | nil => exact h
  | cons id unused ih =>
      exact ih (dissolve_sound hsound id) (dissolve_seated ht hsound h (by simp))

section

variable {list : OpenFiles → List Path} {removal : OpenFiles → Path → OpenFiles}

/-- A document that is taken out of one of the lists owns no project, and stands nowhere else more than
once. -/
def Leaves (list : OpenFiles → List Path) (removal : OpenFiles → Path → OpenFiles) : Prop :=
  ∀ (o : OpenFiles) (p : Path), (removal o p).Below o ∧ ∀ (r : Registry) (single : List Path),
    r.openFiles = o → Seated r none single → p ∈ list o →
      ¬r.Own p ∧ (removal o p).configuredRoots.count p ≤ 1

theorem leaves_configuredRoots : Leaves (·.configuredRoots) (.removeConfiguredRoot) := by
  refine fun o p => ⟨OpenFiles.below_removeConfiguredRoot o p, ?_⟩
  rintro r single rfl h hp
  refine ⟨h.configured p hp, ?_⟩
  show (r.openFiles.configuredRoots.erase p).count p ≤ 1
  have htwice := h.twice p
  rw [List.count_erase_self]
  omega

theorem leaves_referenced : Leaves (·.referenced) (.removeReferenced) := by
  refine fun o p => ⟨OpenFiles.below_removeReferenced o p, ?_⟩
  rintro r single rfl h hp
  obtain ⟨hown, hconfigured⟩ := h.apart p hp
  refine ⟨hown, ?_⟩
  show r.openFiles.configuredRoots.count p ≤ 1
  rw [List.count_eq_zero.mpr hconfigured]
  omega

theorem foldl_detachUnless_seated (property : Path → Project → Bool)
    (hlist : OpenFiles.Section list removal) (hleaves : Leaves list removal) {ps : List Path}
    (detached : List Path) (h : Seated w.registry none single)
    (hps : ps.Subperm (list w.openFiles)) :
    Seated (ps.foldl (detachUnless property removal) (w, detached)).1.registry none single := by
  -- what is left to look at is still in the list, as often as it is left
  induction ps generalizing w detached with
  | nil => exact h
  | cons p ps ih =>
      rw [List.foldl_cons]
      rcases detachUnless_cases property removal w detached p with ⟨hsame, -⟩ | ⟨hregistry, -⟩
      · rw [hsame]
        exact ih detached h ((List.sublist_cons_self p ps).subperm.trans hps)
      · obtain ⟨hbelow, hgone⟩ := hleaves w.openFiles p
        obtain ⟨hown, hcount⟩ := hgone w.registry single rfl h (hps.subset (by simp))
        have hunlisted := h.unlist hbelow hown hcount
        generalize detachUnless property removal (w, detached) p = state at hregistry ⊢
        obtain ⟨w', detached'⟩ := state
        dsimp only at hregistry
        apply ih
        · rw [hregistry]
          exact hunlisted
        · have hopenFiles : w'.openFiles = removal w.openFiles p :=
            congrArg Registry.openFiles hregistry
          rw [hopenFiles, hlist.list_removal]
          simpa using hps.erase p

end

theorem assign_seated (hopen : w.isOpen p) (h : Seated w.registry none single)
    (hfree : Free w.registry single p) (hconfigured : p ∉ w.openFiles.configuredRoots)
    (id : ProjectId) : Seated (w.assign p id).registry none single := by
  have hmodified (f : OpenFiles → OpenFiles) : (w.modifyOpenFiles f).isOpen p ∨ some id = none :=
    .inl hopen
  unfold assign
  dsimp only
  rw [registry_setOwner (hmodified _)]
  split
  · exact h.joinConfigured hfree id
  · exact h.joinReferenced hfree id hconfigured

/-- The workspace after the root of an inferred project left it, and the project went. -/
def unseat (w : Workspace) (root : Path) : Workspace :=
  ((w.modifyOpenFiles (·.removeRoot root)).evict (w.owner? root)).1

theorem registry_unseat (w : Workspace) (root : Path) :
    (w.unseat root).registry = w.registry.unseat root :=
  (evict_eq ..).1

theorem isOpen_unseat (hsound : Sound t w.registry loose [] guests) (hroot : root ∈ w.openFiles.roots) :
    (w.unseat root).isOpen root := by
  rw [← registry_isOpen, registry_unseat, Registry.unseat, isOpen_evict]
  exact hsound.isOpen_of_mem_roots hroot

/-- A root goes to another project that contains it, if there is one. -/
theorem demote_cases (w : Workspace) (detached : List Path) (root : Path) :
    (demote (w, detached) root = (w, detached) ∧
      (root ∈ w.openFiles.roots → w.reachingProject? root (w.owner? root) = none)) ∨
    ∃ id, root ∈ w.openFiles.roots ∧ w.reachingProject? root (w.owner? root) = some id ∧
      (demote (w, detached) root).1 =
        ((w.unseat root).assign root id).emit (.contextChanged root (some id)) := by
  unfold demote
  dsimp only
  split
  · rename_i hroot
    exact .inl ⟨rfl, fun hmem => absurd hmem hroot⟩
  · rename_i hroot
    cases hreaching : w.reachingProject? root (w.owner? root) with
    | none => exact .inl ⟨rfl, fun _ => rfl⟩
    | some id => exact .inr ⟨id, not_not.mp hroot, rfl, rfl⟩

theorem demote_seated {detached : List Path}
    (hsound : Sound t w.registry (detached ++ loose) [] guests)
    (h : Seated w.registry none single) (root : Path) :
    Seated (demote (w, detached) root).1.registry none single := by
  rcases demote_cases w detached root with ⟨hsame, -⟩ | ⟨id, hroot, -, hdemoted⟩
  · rw [hsame]
    exact h
  · obtain ⟨hfree, hconfigured⟩ := h.free_unseat hroot
    have hunseated := h.unseat root
    rw [← registry_unseat] at hfree hconfigured hunseated
    rw [hdemoted, registry_emit]
    exact assign_seated (isOpen_unseat hsound hroot) hunseated hfree hconfigured id

theorem foldl_demote_seated (ps : List Path) {detached : List Path}
    (hsound : Sound t w.registry (detached ++ loose) [] guests)
    (h : Seated w.registry none single) :
    Seated (ps.foldl demote (w, detached)).1.registry none single := by
  induction ps generalizing w detached with
  | nil => exact h
  | cons root ps ih =>
      have hstep := demote_sound hsound root
      have hseated := demote_seated hsound h root
      rw [List.foldl_cons]
      generalize demote (w, detached) root = state at hstep hseated ⊢
      obtain ⟨w', detached'⟩ := state
      exact ih hstep hseated

/-- The passes over the lists leave the other documents in the proper ones. -/
theorem detachUnless_seated (h : Seated w.registry none single) :
    let configured := w.openFiles.configuredRoots.foldl
      (detachUnless (fun p project => project.isRoot p) .removeConfiguredRoot) (w, [])
    let referenced := configured.1.openFiles.referenced.foldl
      (detachUnless (fun p project => project.contains p) .removeReferenced) configured
    Seated referenced.1.registry none single := by
  intro configured referenced
  have hconfigured : Seated configured.1.registry none single :=
    foldl_detachUnless_seated _ OpenFiles.section_configuredRoots leaves_configuredRoots [] h
      (.refl _)
  exact foldl_detachUnless_seated _ OpenFiles.section_referenced leaves_referenced configured.2
    hconfigured (.refl _)

theorem settle_seated (ht : t.live) (hsound : Sound t w.registry [] [] guests)
    (h : Seated w.registry none single) : Seated w.settle.registry none single := by
  rw [← registry_refresh] at hsound h
  have hdetached := detachUnless_sound hsound
  have hseated := detachUnless_seated h
  unfold settle
  dsimp only at hdetached hseated ⊢
  generalize List.foldl (detachUnless _ _) (List.foldl (detachUnless _ _) _ _) _ = referenced
    at hdetached hseated ⊢
  have hdemoted := foldl_demote_sound referenced.1.openFiles.roots hdetached
  have hseated' := foldl_demote_seated referenced.1.openFiles.roots hdetached hseated
  have hreattached := reattach_sound hdemoted
  rw [registry_sweep (prune_sound hreattached).owned_open]
  exact prune_seated (t := t.settled) ht hreattached
    (reattach_seated (t := t.settled) ht hdemoted hseated')

end Workspace

end ProjectTracker
