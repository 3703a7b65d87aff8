import Mathlib.Data.Set.Card
import ProjectTracker.Proofs.Workspace.Registry
/-!
The invariant of the registry. While documents are on their way from one place to another some of
them are loose: they lost their project and wait to be attached anew. Others are in hand: they are
out of the lists, or about to be, until they are put in their next place.
-/

namespace ProjectTracker

namespace Registry

/-- Which parts of the invariant are asked for. -/
structure Terms where
  /-- Every document stands in the lists at most once. -/
  once : Prop
  /-- Every owner is a live project. -/
  live : Prop
  asked : once ∨ live
  /-- The way in which all paths are made normal. -/
  normalizer : Normalizer
  /-- Closed documents that may stand in the lists yet. -/
  left : List Path := []

/-- The same without closed documents in the lists. -/
def Terms.settled (t : Terms) : Terms :=
  { t with left := [] }

/-- The open documents that belong to a project. -/
def holders (r : Registry) (id : ProjectId) : Set Path :=
  { p | r.isOpen p ∧ r.owner? p = some id }

/-- The invariant, for loose documents, documents in hand, and open documents that wait for their
first place. -/
structure Sound (t : Terms) (r : Registry) (loose moving guests : List Path) : Prop where
  finite : { p | r.isOpen p }.Finite
  nodup : t.once → r.openFiles.all.Nodup
  roots_nodup : r.openFiles.roots.Nodup
  listed_open : ∀ p ∈ r.openFiles.all, r.isOpen p ∨ (p ∈ t.left ∧ p ∉ r.openFiles.roots)
  listed_owned : t.once → ∀ p ∈ r.openFiles.all, r.owner? p ≠ none
  owned_listed : ∀ p, r.isOpen p → r.owner? p ≠ none → p ∈ r.openFiles.all ∨ p ∈ moving
  unowned : ∀ p, r.isOpen p → r.owner? p = none → p ∈ loose ∨ p ∈ moving ∨ p ∈ guests
  owned_open : ∀ p, r.owner? p ≠ none → r.isOpen p
  moving_free : ∀ p ∈ moving,
    r.isOpen p ∧ p ∉ r.openFiles.roots ∧ (t.once → p ∉ r.openFiles.all)
  moving_nodup : moving.Nodup
  guest : ∀ p ∈ guests,
    r.isOpen p ∧ r.owner? p = none ∧ p ∉ r.openFiles.all ∧ p ∉ loose ∧ p ∉ moving
  owner_live : t.live → ∀ p id, r.owner? p = some id → r.IsLive id ∨ p ∈ moving
  owner_le : ∀ p id, r.owner? p = some id → id ≤ r.lastProject
  live_le : ∀ id, r.IsLive id → id ≤ r.lastProject
  /-- The roots of inferred projects belong to inferred projects. -/
  root_inferred : t.live → ∀ p ∈ r.openFiles.roots, ∀ id c, r.owner? p = some id →
    r.charter? id = some c → c.kind = .inferred
  configured : t.live → ∀ id c, r.charter? id = some c → c.kind ≠ .inferred →
    id ∈ r.configured
  count : ∀ id c, r.charter? id = some c → c.openCount = (r.holders id).ncard
  overdrafts : r.overdrafts = 0
  normalizer : r.normalizer = t.normalizer

variable {t : Terms} {r : Registry} {loose moving guests : List Path} {p : Path}

/-! ### Counting -/

@[simp] theorem setOwner_openFiles (r : Registry) (p : Path) (owner? : Option ProjectId) :
    (r.setOwner p owner?).openFiles = r.openFiles := rfl

@[simp] theorem setOwner_isOpen (r : Registry) (p : Path) (owner? : Option ProjectId) :
    (r.setOwner p owner?).isOpen = r.isOpen := rfl

@[simp] theorem setOwner_owner? (r : Registry) (p q : Path) (owner? : Option ProjectId) :
    (r.setOwner p owner?).owner? q = if q = p then owner? else r.owner? q := rfl

theorem setOwner_charter? (r : Registry) (p : Path) (owner? : Option ProjectId) (id : ProjectId) :
    (r.setOwner p owner?).charter? id =
      if r.isOpen p then (r.charter? id).map (recount (r.owner? p) owner? id)
      else r.charter? id := rfl

@[simp] theorem isLive_setOwner (r : Registry) (p : Path) (owner? : Option ProjectId)
    (id : ProjectId) : (r.setOwner p owner?).IsLive id ↔ r.IsLive id := by
  unfold IsLive
  rw [setOwner_charter?]
  split <;> simp

theorem kind_setOwner {r : Registry} {p : Path} {owner? : Option ProjectId} {id : ProjectId}
    {c : Charter} (h : (r.setOwner p owner?).charter? id = some c) :
    ∃ c', r.charter? id = some c' ∧ c'.kind = c.kind ∧ c'.roots = c.roots := by
  rw [setOwner_charter?] at h
  split at h
  · obtain ⟨c', hc', rfl⟩ := Option.map_eq_some_iff.mp h
    exact ⟨c', hc', rfl, rfl⟩
  · exact ⟨c, h, rfl, rfl⟩

theorem setOwner_self (r : Registry) (p : Path) : r.setOwner p (r.owner? p) = r := by
  ext : 1
  case owner? =>
    funext q
    by_cases hq : q = p <;> simp [hq]
  case charter? =>
    funext id
    have hrecount : recount (r.owner? p) (r.owner? p) id = fun c => c := by
      funext c
      simp [recount]
    rw [setOwner_charter?, hrecount, Option.map_id', ite_self]
  all_goals simp [setOwner]

/-- Counting an open document out and in keeps count of the holders. -/
theorem ncard_holders_setOwner (hfinite : { q | r.isOpen q }.Finite) (hopen : r.isOpen p)
    (owner? : Option ProjectId) (id : ProjectId) (c : Charter)
    (hc : c.openCount = (r.holders id).ncard) :
    (recount (r.owner? p) owner? id c).openCount = ((r.setOwner p owner?).holders id).ncard := by
  have hfin : (r.holders id).Finite := hfinite.subset fun q hq => hq.1
  simp only [recount]
  split
  · rename_i hsame
    rw [hc]
    congr 1
    ext q
    by_cases hq : q = p <;> simp [holders, hq, hsame]
  · split
    · -- the document leaves the project
      rename_i hne hformer
      have hp : p ∈ r.holders id := ⟨hopen, hformer⟩
      have hset : (r.setOwner p owner?).holders id = r.holders id \ {p} := by
        ext q
        by_cases hq : q = p
        · subst q
          simp [holders, ← hformer, Ne.symm hne]
        · simp [holders, hq]
      rw [hset, Set.ncard_sdiff_singleton_of_mem hp, hc]
    · split
      · -- the document comes to the project
        rename_i hne hformer hnew
        have hp : p ∉ r.holders id := fun hp => hformer hp.2
        have hset : (r.setOwner p owner?).holders id = insert p (r.holders id) := by
          ext q
          by_cases hq : q = p
          · subst q
            simp [holders, hnew, hopen]
          · simp [holders, hq]
        rw [hset, Set.ncard_insert_of_notMem hp hfin, hc]
      · -- the project has nothing to do with it
        rename_i hne hformer hnew
        rw [hc]
        congr 1
        ext q
        by_cases hq : q = p
        · subst q
          simp [holders, hnew, hformer]
        · simp [holders, hq]

/-! ### Removing projects -/

theorem mem_members {id : ProjectId} :
    p ∈ r.members id ↔ r.IsLive id ∧ p ∈ r.openFiles.all ∧ r.owner? p = some id := by
  unfold members IsLive
  split
  · rename_i hlive
    rw [List.mem_filter, decide_eq_true_iff]
    exact ⟨fun h => ⟨hlive, h⟩, fun h => h.2⟩
  · rename_i hdead
    simp [hdead]

theorem mem_all_strike {id : ProjectId} :
    p ∈ (r.strike id).openFiles.all ↔ p ∈ r.openFiles.all ∧ p ∉ r.members id := by
  simp only [strike, OpenFiles.all, OpenFiles.filter, List.mem_append, List.mem_filter,
    decide_eq_true_eq]
  tauto

theorem all_strike_sublist (r : Registry) (id : ProjectId) :
    (r.strike id).openFiles.all.Sublist r.openFiles.all :=
  (List.filter_sublist.append List.filter_sublist).append List.filter_sublist

theorem mem_roots_strike {id : ProjectId} :
    p ∈ (r.strike id).openFiles.roots ↔ p ∈ r.openFiles.roots ∧ p ∉ r.members id := by
  simp [strike, OpenFiles.filter]

theorem owner?_strike_eq_some {id i : ProjectId} :
    (r.strike id).owner? p = some i ↔ p ∉ r.members id ∧ r.owner? p = some i := by
  simp only [strike]
  split
  · rename_i hmembers
    simp [hmembers]
  · rename_i hmembers
    simp [hmembers]

theorem charter?_strike_eq_some {id i : ProjectId} {c : Charter} :
    (r.strike id).charter? i = some c ↔ i ≠ id ∧ r.charter? i = some c := by
  simp only [strike]
  split
  · rename_i hi
    simp [hi]
  · rename_i hi
    simp [hi]

namespace Sound

/-- Every project of an open document counts at least that one. -/
theorem openCount_ne_zero (h : Sound t r loose moving guests) {id : ProjectId} {c : Charter}
    (howner : r.owner? p = some id) (hc : r.charter? id = some c) : c.openCount ≠ 0 := by
  have hopen : r.isOpen p := h.owned_open p (by simp [howner])
  have hfin : (r.holders id).Finite := h.finite.subset fun q hq => hq.1
  rw [h.count id c hc]
  exact (Set.ncard_pos hfin).mpr ⟨p, hopen, howner⟩ |>.ne'

/-- Giving a document away changes the counts with it, and no count falls below zero. -/
theorem count_setOwner (h : Sound t r loose moving guests) {owner? : Option ProjectId} :
    (∀ id c, (r.setOwner p owner?).charter? id = some c →
      c.openCount = ((r.setOwner p owner?).holders id).ncard) ∧
    (r.setOwner p owner?).overdrafts = 0 := by
  constructor
  · intro id c hc
    rw [setOwner_charter?] at hc
    split at hc
    · rename_i hp
      obtain ⟨c', hc', rfl⟩ := Option.map_eq_some_iff.mp hc
      exact ncard_holders_setOwner h.finite hp owner? id c' (h.count id c' hc')
    · rename_i hp
      have hset : (r.setOwner p owner?).holders id = r.holders id := by
        ext q
        by_cases hq : q = p
        · subst q
          simp [holders, hp]
        · simp [holders, hq]
      rw [hset, h.count id c hc]
  · simp only [setOwner]
    rw [if_neg]
    · exact h.overdrafts
    · rintro ⟨-, -, hany⟩
      obtain ⟨id, howner, hany⟩ := Option.any_eq_true .. |>.mp hany
      obtain ⟨c, hc, hzero⟩ := Option.any_eq_true .. |>.mp hany
      exact h.openCount_ne_zero howner hc (by simpa using hzero)

/-! ### Moving documents -/

/-- Of the loose documents only those without a project have to be known. -/
theorem weaken (h : Sound t r loose moving guests) {loose' : List Path}
    (hloose : ∀ p ∈ loose, r.isOpen p → r.owner? p = none → p ∈ loose' ∨ p ∈ moving)
    (hguests : ∀ p ∈ guests, p ∉ loose') : Sound t r loose' moving guests :=
  { h with
    unowned := fun p hp hnone => by
      rcases h.unowned p hp hnone with hl | hm | hg
      · rcases hloose p hl hp hnone with hl | hm
        · exact .inl hl
        · exact .inr (.inl hm)
      · exact .inr (.inl hm)
      · exact .inr (.inr hg)
    guest := fun p hp => by
      obtain ⟨hopen, hnone, hall, -, hm⟩ := h.guest p hp
      exact ⟨hopen, hnone, hall, hguests p hp, hm⟩ }

theorem perm (h : Sound t r loose moving guests) {loose' : List Path} (hperm : loose.Perm loose') :
    Sound t r loose' moving guests :=
  h.weaken (fun _ hp _ _ => .inl (hperm.subset hp))
    fun p hp hp' => (h.guest p hp).2.2.2.1 (hperm.mem_iff.mpr hp')

/-- Takes a document in hand. -/
theorem lift (h : Sound t r loose moving guests) {o : OpenFiles}
    (ho : r.openFiles.Without p o) (hopen : r.isOpen p) (hmoving : p ∉ moving)
    (hguests : p ∉ guests) (hroots : p ∉ o.roots) (honce : t.once → p ∉ o.all) :
    Sound t { r with openFiles := o } (loose.filter (· ≠ p)) (p :: moving) guests where
  finite := h.finite
  nodup ht := ho.sublist.nodup (h.nodup ht)
  roots_nodup := ho.roots.nodup h.roots_nodup
  listed_open q hq := (h.listed_open q (ho.sublist.subset hq)).imp_right fun hleft =>
    ⟨hleft.1, fun hq' => hleft.2 (ho.roots.subset hq')⟩
  listed_owned ht q hq := h.listed_owned ht q (ho.sublist.subset hq)
  owned_listed q hq howner := by
    by_cases hqp : q = p
    · simp [hqp]
    · exact (h.owned_listed q hq howner).imp (ho.keeps q hqp) (by simp [·])
  unowned q hq hnone := by
    have hq' := h.unowned q hq hnone
    by_cases hqp : q = p <;> simp_all
  owned_open := h.owned_open
  moving_free q hq := by
    rcases List.mem_cons.mp hq with rfl | hq
    · exact ⟨hopen, hroots, honce⟩
    · obtain ⟨hqopen, hqroots, hqonce⟩ := h.moving_free q hq
      exact ⟨hqopen, fun hq' => hqroots (ho.roots.subset hq'),
        fun ht hq' => hqonce ht (ho.sublist.subset hq')⟩
  moving_nodup := List.nodup_cons.mpr ⟨hmoving, h.moving_nodup⟩
  guest q hq := by
    obtain ⟨hqopen, hnone, hall, hl, hm⟩ := h.guest q hq
    have hqp : q ≠ p := fun hqp => hguests (hqp ▸ hq)
    exact ⟨hqopen, hnone, fun hq' => hall (ho.sublist.subset hq'), by simp [hl], by simp [hqp, hm]⟩
  owner_live ht q id howner := (h.owner_live ht q id howner).imp_right (by simp [·])
  owner_le := h.owner_le
  live_le := h.live_le
  root_inferred ht q hq := h.root_inferred ht q (ho.roots.subset hq)
  configured := h.configured
  count := h.count
  overdrafts := h.overdrafts
  normalizer := h.normalizer

/-- Takes a document that is in hand out of more lists. -/
theorem shrink (h : Sound t r loose moving guests) {o : OpenFiles}
    (ho : r.openFiles.Without p o) (hp : p ∈ moving) :
    Sound t { r with openFiles := o } loose moving guests :=
  { h with
    nodup := fun ht => ho.sublist.nodup (h.nodup ht)
    roots_nodup := ho.roots.nodup h.roots_nodup
    listed_open := fun q hq => (h.listed_open q (ho.sublist.subset hq)).imp_right fun hleft =>
      ⟨hleft.1, fun hq' => hleft.2 (ho.roots.subset hq')⟩
    listed_owned := fun ht q hq => h.listed_owned ht q (ho.sublist.subset hq)
    owned_listed := fun q hq howner => by
      by_cases hqp : q = p
      · exact .inr (hqp ▸ hp)
      · exact (h.owned_listed q hq howner).imp_left (ho.keeps q hqp)
    moving_free := fun q hq => by
      obtain ⟨hqopen, hqroots, hqonce⟩ := h.moving_free q hq
      exact ⟨hqopen, fun hq' => hqroots (ho.roots.subset hq'),
        fun ht hq' => hqonce ht (ho.sublist.subset hq')⟩
    guest := fun q hq => by
      obtain ⟨hqopen, hnone, hall, hl, hm⟩ := h.guest q hq
      exact ⟨hqopen, hnone, fun hq' => hall (ho.sublist.subset hq'), hl, hm⟩
    root_inferred := fun ht q hq => h.root_inferred ht q (ho.roots.subset hq) }

/-- Takes a guest in hand. -/
theorem welcome (h : Sound t r loose moving guests) (hp : p ∈ guests) :
    Sound t r loose (p :: moving) (guests.filter (· ≠ p)) := by
  obtain ⟨hopen, hnone, hall, hloose, hmoving⟩ := h.guest p hp
  exact
    { h with
      owned_listed := fun q hq howner => (h.owned_listed q hq howner).imp_right (by simp [·])
      unowned := fun q hq hq' => by
        have hcases := h.unowned q hq hq'
        by_cases hqp : q = p <;> simp_all
      moving_free := fun q hq => by
        rcases List.mem_cons.mp hq with rfl | hq
        · refine ⟨hopen, fun hq' => hall ?_, fun _ => hall⟩
          simp [OpenFiles.all, hq']
        · exact h.moving_free q hq
      moving_nodup := List.nodup_cons.mpr ⟨hmoving, h.moving_nodup⟩
      guest := fun q hq => by
        obtain ⟨hq, hqp⟩ : q ∈ guests ∧ q ≠ p := by simpa using hq
        obtain ⟨hqopen, hqnone, hqall, hql, hqm⟩ := h.guest q hq
        exact ⟨hqopen, hqnone, hqall, hql, by simp [hqp, hqm]⟩
      owner_live := fun ht q id howner =>
        (h.owner_live ht q id howner).imp_right (by simp [·]) }

/-- Where documents may stand in the lists more than once a listed one can be taken in hand as
well. -/
theorem grab (h : Sound t r loose moving guests) (honce : ¬t.once) (hopen : r.isOpen p)
    (hroots : p ∉ r.openFiles.roots) (hmoving : p ∉ moving) (hguests : p ∉ guests) :
    Sound t r loose (p :: moving) guests :=
  { h with
    owned_listed := fun q hq howner => (h.owned_listed q hq howner).imp_right (by simp [·])
    unowned := fun q hq hnone => (h.unowned q hq hnone).imp_right (Or.imp_left (by simp [·]))
    moving_free := fun q hq => by
      rcases List.mem_cons.mp hq with rfl | hq
      · exact ⟨hopen, hroots, fun ht => absurd ht honce⟩
      · exact h.moving_free q hq
    moving_nodup := List.nodup_cons.mpr ⟨hmoving, h.moving_nodup⟩
    guest := fun q hq => by
      obtain ⟨hqopen, hnone, hall, hl, hm⟩ := h.guest q hq
      have hqp : q ≠ p := fun hqp => hguests (hqp ▸ hq)
      exact ⟨hqopen, hnone, hall, hl, by simp [hqp, hm]⟩
    owner_live := fun ht q id howner => (h.owner_live ht q id howner).imp_right (by simp [·]) }

/-- Gives a document that is in hand to a project. -/
theorem assign (h : Sound t r loose moving guests) (hp : p ∈ moving) {id : ProjectId}
    (hid : id ≤ r.lastProject) :
    Sound t (r.setOwner p (some id)) loose moving guests where
  finite := h.finite
  nodup := h.nodup
  roots_nodup := h.roots_nodup
  listed_open := h.listed_open
  listed_owned ht q hq := by
    rw [setOwner_owner?]
    split
    · simp
    · exact h.listed_owned ht q hq
  owned_listed q hq howner := by
    by_cases hqp : q = p
    · exact .inr (hqp ▸ hp)
    · exact h.owned_listed q hq (by simpa [hqp] using howner)
  unowned q hq hnone := by
    by_cases hqp : q = p
    · simp [hqp] at hnone
    · exact h.unowned q hq (by simpa [hqp] using hnone)
  owned_open q howner := by
    by_cases hqp : q = p
    · exact hqp ▸ (h.moving_free p hp).1
    · exact h.owned_open q (by simpa [hqp] using howner)
  moving_free := h.moving_free
  moving_nodup := h.moving_nodup
  guest q hq := by
    obtain ⟨hqopen, hnone, hall, hl, hm⟩ := h.guest q hq
    have hqp : q ≠ p := fun hqp => hm (hqp ▸ hp)
    exact ⟨hqopen, by simp [hqp, hnone], hall, hl, hm⟩
  owner_live ht q i howner := by
    by_cases hqp : q = p
    · exact .inr (hqp ▸ hp)
    · simpa using h.owner_live ht q i (by simpa [hqp] using howner)
  owner_le q i howner := by
    by_cases hqp : q = p
    · obtain rfl : id = i := by simpa [hqp] using howner
      exact hid
    · exact h.owner_le q i (by simpa [hqp] using howner)
  live_le i hi := h.live_le i (by simpa using hi)
  root_inferred ht q hq i c howner hc := by
    have hqp : q ≠ p := fun hqp => (h.moving_free p hp).2.1 (hqp ▸ hq)
    obtain ⟨c', hc', hkind, -⟩ := kind_setOwner hc
    exact hkind ▸ h.root_inferred ht q hq i c' (by simpa [hqp] using howner) hc'
  configured ht i c hc hkind := by
    obtain ⟨c', hc', hkind', -⟩ := kind_setOwner hc
    exact h.configured ht i c' hc' (hkind' ▸ hkind)
  count := h.count_setOwner.1
  overdrafts := h.count_setOwner.2
  normalizer := h.normalizer

/-- Puts a document down that has a project. -/
theorem put (h : Sound t r loose (p :: moving) guests) {o : OpenFiles} {id : ProjectId}
    (howner : r.owner? p = some id) (hlive : t.live → r.IsLive id)
    (ho : r.openFiles.With p
      (t.live → ∀ c, r.charter? id = some c → c.kind = .inferred) o) :
    Sound t { r with openFiles := o } loose moving guests := by
  obtain ⟨hopen, hroots, honce⟩ := h.moving_free p (by simp)
  have hmem (q : Path) : q ∈ o.all ↔ q = p ∨ q ∈ r.openFiles.all := by
    rw [ho.perm.mem_iff, List.mem_cons]
  have hmemRoots (q : Path) (hq : q ∈ o.roots) : q = p ∨ q ∈ r.openFiles.roots := by
    rcases ho.roots with heq | ⟨heq, -⟩
    · exact .inr (heq ▸ hq)
    · rw [heq, List.mem_append, List.mem_singleton] at hq
      exact hq.symm
  exact
    { h with
      nodup := fun ht => ho.perm.nodup_iff.mpr (List.nodup_cons.mpr ⟨honce ht, h.nodup ht⟩)
      roots_nodup := by
        rcases ho.roots with heq | ⟨heq, -⟩
        · exact heq ▸ h.roots_nodup
        · rw [heq, List.nodup_append]
          refine ⟨h.roots_nodup, by simp, ?_⟩
          rintro a ha b hb rfl
          exact hroots (List.mem_singleton.mp hb ▸ ha)
      listed_open := fun q hq => by
        rcases (hmem q).mp hq with rfl | hq
        · exact .inl hopen
        · refine (h.listed_open q hq).elim .inl fun hleft => ?_
          by_cases hqp : q = p
          · exact .inl (hqp ▸ hopen)
          · exact .inr ⟨hleft.1, fun hq' => (hmemRoots q hq').elim hqp hleft.2⟩
      listed_owned := fun ht q hq => by
        rcases (hmem q).mp hq with rfl | hq
        · simp [howner]
        · exact h.listed_owned ht q hq
      owned_listed := fun q hq hq' => by
        have hcases := h.owned_listed q hq hq'
        rw [hmem]
        grind
      unowned := fun q hq hnone => by
        have hqp : q ≠ p := fun hqp => by simp [hqp, howner] at hnone
        have hcases := h.unowned q hq hnone
        simpa [hqp] using hcases
      moving_free := fun q hq => by
        obtain ⟨hqopen, hqroots, hqonce⟩ := h.moving_free q (by simp [hq])
        have hqp : q ≠ p := fun hqp => (List.nodup_cons.mp h.moving_nodup).1 (hqp ▸ hq)
        refine ⟨hqopen, fun hq' => (hmemRoots q hq').elim hqp hqroots, fun ht hq' => ?_⟩
        exact ((hmem q).mp hq').elim hqp (hqonce ht)
      moving_nodup := (List.nodup_cons.mp h.moving_nodup).2
      guest := fun q hq => by
        obtain ⟨hqopen, hnone, hall, hl, hm⟩ := h.guest q hq
        rw [List.mem_cons, not_or] at hm
        refine ⟨hqopen, hnone, fun hq' => ((hmem q).mp hq').elim hm.1 hall, hl, hm.2⟩
      owner_live := fun ht q i hq => by
        by_cases hqp : q = p
        · obtain rfl : id = i := by simpa [hqp, howner] using hq
          exact .inl (hlive ht)
        · exact (h.owner_live ht q i hq).imp_right (by simp [hqp])
      root_inferred := fun ht q hq i c hq' hc => by
        rcases ho.roots with heq | ⟨heq, hmay⟩
        · exact h.root_inferred ht q (heq ▸ hq) i c hq' hc
        · rcases hmemRoots q hq with rfl | hq
          · obtain rfl : id = i := by simpa [howner] using hq'
            exact hmay ht c hc
          · exact h.root_inferred ht q hq i c hq' hc }

/-- Takes a listed document out of a list and away from its project. -/
theorem unlist (h : Sound t r loose moving guests) {o : OpenFiles}
    (ho : r.openFiles.Without p o) (hp : p ∈ r.openFiles.all) (honce : t.once → p ∉ o.all) :
    Sound t ({ r with openFiles := o }.setOwner p none) (p :: loose) moving guests where
  finite := h.finite
  nodup ht := ho.sublist.nodup (h.nodup ht)
  roots_nodup := ho.roots.nodup h.roots_nodup
  listed_open q hq := (h.listed_open q (ho.sublist.subset hq)).imp_right fun hleft =>
    ⟨hleft.1, fun hq' => hleft.2 (ho.roots.subset hq')⟩
  listed_owned ht q hq := by
    have hqp : q ≠ p := fun hqp => honce ht (hqp ▸ hq)
    simpa [hqp] using h.listed_owned ht q (ho.sublist.subset hq)
  owned_listed q hq howner := by
    have hqp : q ≠ p := fun hqp => by simp [hqp] at howner
    exact (h.owned_listed q hq (by simpa [hqp] using howner)).imp_left (ho.keeps q hqp)
  unowned q hq hnone := by
    by_cases hqp : q = p
    · simp [hqp]
    · exact (h.unowned q hq (by simpa [hqp] using hnone)).imp_left (by simp [·])
  owned_open q howner := by
    have hqp : q ≠ p := fun hqp => by simp [hqp] at howner
    exact h.owned_open q (by simpa [hqp] using howner)
  moving_free q hq := by
    obtain ⟨hqopen, hqroots, hqonce⟩ := h.moving_free q hq
    exact ⟨hqopen, fun hq' => hqroots (ho.roots.subset hq'),
      fun ht hq' => hqonce ht (ho.sublist.subset hq')⟩
  moving_nodup := h.moving_nodup
  guest q hq := by
    obtain ⟨hqopen, hnone, hall, hl, hm⟩ := h.guest q hq
    have hqp : q ≠ p := fun hqp => hall (hqp ▸ hp)
    exact ⟨hqopen, by simp [hqp, hnone], fun hq' => hall (ho.sublist.subset hq'),
      by simp [hqp, hl], hm⟩
  owner_live ht q id howner := by
    have hqp : q ≠ p := fun hqp => by simp [hqp] at howner
    exact (h.owner_live ht q id (by simpa [hqp] using howner)).imp_left
      (isLive_setOwner { r with openFiles := o } p none id).mpr
  owner_le q id howner := by
    have hqp : q ≠ p := fun hqp => by simp [hqp] at howner
    exact h.owner_le q id (by simpa [hqp] using howner)
  live_le id hid :=
    h.live_le id ((isLive_setOwner { r with openFiles := o } p none id).mp hid)
  root_inferred ht q hq id c howner hc := by
    have hqp : q ≠ p := fun hqp => by simp [hqp] at howner
    obtain ⟨c', hc', hkind, -⟩ := kind_setOwner hc
    exact hkind ▸ h.root_inferred ht q (ho.roots.subset hq) id c' (by simpa [hqp] using howner) hc'
  configured ht i c hc hkind := by
    obtain ⟨c', hc', hkind', -⟩ := kind_setOwner hc
    exact h.configured ht i c' hc' (hkind' ▸ hkind)
  count := h.count_setOwner.1
  overdrafts := h.count_setOwner.2
  normalizer := h.normalizer

/-! ### Projects -/

/-- Removes a project. -/
theorem strike (h : Sound t r loose moving guests) (id : ProjectId) :
    Sound t (r.strike id) (r.members id ++ loose) moving guests := by
  have hroots : (r.strike id).openFiles.roots.Sublist r.openFiles.roots := List.filter_sublist
  exact
    { finite := h.finite
      nodup := fun ht => (all_strike_sublist r id).nodup (h.nodup ht)
      roots_nodup := hroots.nodup h.roots_nodup
      listed_open := fun q hq => (h.listed_open q (mem_all_strike.mp hq).1).imp_right fun hleft =>
        ⟨hleft.1, fun hq' => hleft.2 (hroots.subset hq')⟩
      listed_owned := fun ht q hq => by
        obtain ⟨hall, hmembers⟩ := mem_all_strike.mp hq
        simpa [Registry.strike, hmembers] using h.listed_owned ht q hall
      owned_listed := fun q hq hq' => by
        obtain ⟨i, hi⟩ := Option.ne_none_iff_exists'.mp hq'
        obtain ⟨hmembers, hi⟩ := owner?_strike_eq_some.mp hi
        exact (h.owned_listed q hq (by simp [hi])).imp_left fun hall =>
          mem_all_strike.mpr ⟨hall, hmembers⟩
      unowned := fun q hq hnone => by
        by_cases hmembers : q ∈ r.members id
        · simp [hmembers]
        · exact (h.unowned q hq (by simpa [Registry.strike, hmembers] using hnone)).imp_left
            (by simp [·])
      owned_open := fun q hq => by
        obtain ⟨i, hi⟩ := Option.ne_none_iff_exists'.mp hq
        exact h.owned_open q (by simp [(owner?_strike_eq_some.mp hi).2])
      moving_free := fun q hq => by
        obtain ⟨hqopen, hqroots, hqonce⟩ := h.moving_free q hq
        exact ⟨hqopen, fun hq' => hqroots (hroots.subset hq'),
          fun ht hq' => hqonce ht (mem_all_strike.mp hq').1⟩
      moving_nodup := h.moving_nodup
      guest := fun q hq => by
        obtain ⟨hqopen, hnone, hall, hl, hm⟩ := h.guest q hq
        have hmembers : q ∉ r.members id := fun hq' => hall (mem_members.mp hq').2.1
        refine ⟨hqopen, ?_, fun hq' => hall (mem_all_strike.mp hq').1, by simp [hmembers, hl], hm⟩
        simp [Registry.strike, hmembers, hnone]
      owner_live := fun ht q i hq => by
        obtain ⟨hmembers, hi⟩ := owner?_strike_eq_some.mp hq
        rcases h.owner_live ht q i hi with hlive | hm
        · by_cases hid : i = id
          · -- what still belongs to the project is not listed, so that it is in hand
            subst i
            have hall : q ∉ r.openFiles.all := fun hall =>
              hmembers (mem_members.mpr ⟨hlive, hall, hi⟩)
            have hopen := h.owned_open q (by simp [hi])
            exact .inr ((h.owned_listed q hopen (by simp [hi])).resolve_left hall)
          · left
            simpa [IsLive, Registry.strike, hid] using hlive
        · exact .inr hm
      owner_le := fun q i hq => h.owner_le q i (owner?_strike_eq_some.mp hq).2
      live_le := fun i hi => by
        obtain ⟨c, hc⟩ := Option.isSome_iff_exists.mp hi
        exact h.live_le i (by simp [IsLive, (charter?_strike_eq_some.mp hc).2])
      root_inferred := fun ht q hq i c hq' hc =>
        h.root_inferred ht q (hroots.subset hq) i c (owner?_strike_eq_some.mp hq').2
          (charter?_strike_eq_some.mp hc).2
      configured := fun ht i c hc hkind => by
        obtain ⟨hne, hc⟩ := charter?_strike_eq_some.mp hc
        have hi := h.configured ht i c hc hkind
        simp only [Registry.strike]
        split
        · simp [hi, hne]
        · exact hi
      count := fun i c hc => by
        obtain ⟨hne, hc⟩ := charter?_strike_eq_some.mp hc
        rw [h.count i c hc]
        congr 1
        ext q
        -- the members belong to the project that goes, and this is another one
        refine and_congr_right fun _ => ?_
        rw [owner?_strike_eq_some]
        refine ⟨fun hq => ⟨fun hq' => ?_, hq⟩, fun hq => hq.2⟩
        exact hne (Option.some.inj (hq.symm.trans (mem_members.mp hq').2.2))
      overdrafts := h.overdrafts
      normalizer := h.normalizer }

/-- Makes a project. -/
theorem enroll (h : Sound t r loose moving guests) (kind : ProjectKind) (roots : List Path) :
    Sound t (r.enroll kind roots) loose moving guests := by
  have hcharter (id : ProjectId) (c : Charter) (hc : (r.enroll kind roots).charter? id = some c) :
      (id = r.lastProject + 1 ∧ c = ⟨kind, roots, 0⟩) ∨ r.charter? id = some c := by
    simp only [Registry.enroll] at hc
    split at hc
    · exact .inl ⟨‹_›, (Option.some.inj hc).symm⟩
    · exact .inr hc
  exact
    { h with
      owner_live := fun ht q id hq => (h.owner_live ht q id hq).imp_left fun hlive => by
        simp only [IsLive, Registry.enroll]
        split
        · rfl
        · exact hlive
      owner_le := fun q id hq => Nat.le_succ_of_le (h.owner_le q id hq)
      live_le := fun id hlive => by
        obtain ⟨c, hc⟩ := Option.isSome_iff_exists.mp hlive
        rcases hcharter id c hc with ⟨rfl, -⟩ | hc
        · exact Nat.le_refl _
        · exact Nat.le_succ_of_le (h.live_le id (by simp [IsLive, hc]))
      root_inferred := fun ht q hq id c hq' hc => by
        rcases hcharter id c hc with ⟨rfl, -⟩ | hc
        · exact absurd (h.owner_le q _ hq') (Nat.not_succ_le_self _)
        · exact h.root_inferred ht q hq id c hq' hc
      configured := fun ht id c hc hkind => by
        rcases hcharter id c hc with ⟨rfl, rfl⟩ | hc
        · cases kind with
          | inferred => exact absurd rfl hkind
          | configured manifest => simp [Registry.enroll]
        · have hid := h.configured ht id c hc hkind
          cases kind with
          | inferred => exact hid
          | configured manifest => exact List.mem_append_left _ hid
      count := fun id c hc => by
        rcases hcharter id c hc with ⟨rfl, rfl⟩ | hc
        · -- no document belongs to a project of that id yet
          have hempty : (r.enroll kind roots).holders (r.lastProject + 1) = ∅ := by
            ext q
            exact ⟨fun hq => absurd (h.owner_le q _ hq.2) (Nat.not_succ_le_self _),
              fun hq => hq.elim⟩
          rw [hempty, Set.ncard_empty]
        · exact h.count id c hc }

/-- Changes the roots of a project. -/
theorem modifyRoots (h : Sound t r loose moving guests) (id : ProjectId)
    (f : List Path → List Path) : Sound t (r.modifyRoots id f) loose moving guests := by
  have hcharter (i : ProjectId) (c : Charter) (hc : (r.modifyRoots id f).charter? i = some c) :
      ∃ c', r.charter? i = some c' ∧ c'.kind = c.kind ∧ c'.openCount = c.openCount := by
    simp only [Registry.modifyRoots] at hc
    split at hc
    · obtain ⟨c', hc', rfl⟩ := Option.map_eq_some_iff.mp hc
      exact ⟨c', hc', rfl, rfl⟩
    · exact ⟨c, hc, rfl, rfl⟩
  have hlive (i : ProjectId) : (r.modifyRoots id f).IsLive i ↔ r.IsLive i := by
    simp only [IsLive, Registry.modifyRoots]
    split <;> simp
  exact
    { h with
      owner_live := fun ht q i hq => (h.owner_live ht q i hq).imp_left (hlive i).mpr
      live_le := fun i hi => h.live_le i ((hlive i).mp hi)
      root_inferred := fun ht q hq i c hq' hc => by
        obtain ⟨c', hc', hkind, -⟩ := hcharter i c hc
        exact hkind ▸ h.root_inferred ht q hq i c' hq' hc'
      configured := fun ht i c hc hkind => by
        obtain ⟨c', hc', hkind', -⟩ := hcharter i c hc
        exact h.configured ht i c' hc' (hkind' ▸ hkind)
      count := fun i c hc => by
        obtain ⟨c', hc', -, hcount⟩ := hcharter i c hc
        exact hcount ▸ h.count i c' hc' }

/-! ### Opening and closing -/

/-- A closed document that is in no list becomes a guest when it is opened. -/
theorem opening (h : Sound t r loose moving guests) (hclosed : r.isOpen p = false)
    (hall : p ∉ r.openFiles.all) (hloose : p ∉ loose) :
    Sound t (r.setOpen p true) loose moving (p :: guests) := by
  have hopen (q : Path) : (r.setOpen p true).isOpen q ↔ q = p ∨ r.isOpen q := by
    by_cases hqp : q = p <;> simp [setOpen, hqp]
  have hnone : r.owner? p = none := by
    by_contra hne
    simpa [hclosed] using h.owned_open p hne
  have hmoving : p ∉ moving := fun hp => by simpa [hclosed] using (h.moving_free p hp).1
  exact
    { h with
      finite := (h.finite.insert p).subset fun q hq => (hopen q).mp hq
      listed_open := fun q hq => (h.listed_open q hq).imp_left fun hq' => (hopen q).mpr (.inr hq')
      owned_listed := fun q _ howner => h.owned_listed q (h.owned_open q howner) howner
      unowned := fun q hq hq' => by
        rcases (hopen q).mp hq with rfl | hq
        · simp
        · exact (h.unowned q hq hq').imp_right (Or.imp_right (by simp [·]))
      owned_open := fun q howner => (hopen q).mpr (.inr (h.owned_open q howner))
      moving_free := fun q hq => by
        obtain ⟨hqopen, hqroots, hqonce⟩ := h.moving_free q hq
        exact ⟨(hopen q).mpr (.inr hqopen), hqroots, hqonce⟩
      guest := fun q hq => by
        rcases List.mem_cons.mp hq with rfl | hq
        · exact ⟨(hopen q).mpr (.inl rfl), hnone, hall, hloose, hmoving⟩
        · obtain ⟨hqopen, hq'⟩ := h.guest q hq
          exact ⟨(hopen q).mpr (.inr hqopen), hq'⟩
      count := fun id c hc => by
        rw [h.count id c hc]
        congr 1
        ext q
        refine ⟨fun hq => ⟨(hopen q).mpr (.inr hq.1), hq.2⟩, fun hq => ?_⟩
        have howner : r.owner? q = some id := hq.2
        exact ⟨h.owned_open q (by simp [howner]), howner⟩ }

/-- A document without a project is closed, and may stay in the lists for now. -/
theorem closing (h : Sound t r loose moving guests) (hnone : r.owner? p = none)
    (hroots : p ∉ r.openFiles.roots) (hmoving : p ∉ moving) (hguests : p ∉ guests) :
    Sound { t with left := p :: t.left } (r.setOpen p false) loose moving guests := by
  have hopen (q : Path) : (r.setOpen p false).isOpen q ↔ q ≠ p ∧ r.isOpen q := by
    by_cases hqp : q = p <;> simp [setOpen, hqp]
  exact
    { h with
      finite := h.finite.subset fun q hq => ((hopen q).mp hq).2
      listed_open := fun q hq => by
        by_cases hqp : q = p
        · exact .inr ⟨by simp [hqp], hqp ▸ hroots⟩
        · exact (h.listed_open q hq).imp (fun hq' => (hopen q).mpr ⟨hqp, hq'⟩)
            (And.imp_left (by simp [·]))
      owned_listed := fun q hq => h.owned_listed q ((hopen q).mp hq).2
      unowned := fun q hq => h.unowned q ((hopen q).mp hq).2
      owned_open := fun q howner =>
        (hopen q).mpr ⟨fun hqp => howner (hqp ▸ hnone), h.owned_open q howner⟩
      moving_free := fun q hq => by
        obtain ⟨hqopen, hq'⟩ := h.moving_free q hq
        exact ⟨(hopen q).mpr ⟨fun hqp => hmoving (hqp ▸ hq), hqopen⟩, hq'⟩
      guest := fun q hq => by
        obtain ⟨hqopen, hq'⟩ := h.guest q hq
        exact ⟨(hopen q).mpr ⟨fun hqp => hguests (hqp ▸ hq), hqopen⟩, hq'⟩
      count := fun id c hc => by
        rw [h.count id c hc]
        congr 1
        ext q
        refine ⟨fun hq => ⟨(hopen q).mpr ⟨fun hqp => ?_, hq.1⟩, hq.2⟩,
          fun hq => ⟨((hopen q).mp hq.1).2, hq.2⟩⟩
        simpa [hqp, hnone] using hq.2 }

/-- Once no closed document stands in the lists none may. -/
theorem noneLeft (h : Sound t r loose moving guests)
    (hleft : ∀ p, r.isOpen p = false → p ∉ r.openFiles.all) :
    Sound t.settled r loose moving guests :=
  { h with
    listed_open := fun q hq => by
      cases hopen : r.isOpen q with
      | true => exact .inl rfl
      | false => exact absurd hq (hleft q hopen) }

/-- Where owners may be gone an open document can go from one project to another. -/
theorem reassign (h : Sound t r loose moving guests) (hlive : ¬t.live)
    (howned : r.owner? p ≠ none) {id : ProjectId} (hid : id ≤ r.lastProject) :
    Sound t (r.setOwner p (some id)) loose moving guests := by
  have howner (q : Path) : (r.setOwner p (some id)).owner? q ≠ none ↔ r.owner? q ≠ none := by
    by_cases hqp : q = p <;> simp [hqp, howned]
  exact
    { h with
      listed_owned := fun ht q hq => (howner q).mpr (h.listed_owned ht q hq)
      owned_listed := fun q hq hq' => h.owned_listed q hq ((howner q).mp hq')
      unowned := fun q hq hq' => h.unowned q hq (by
        by_contra hne
        exact (howner q).mpr hne hq')
      owned_open := fun q hq => h.owned_open q ((howner q).mp hq)
      guest := fun q hq => by
        obtain ⟨hqopen, hnone, hq'⟩ := h.guest q hq
        have hqp : q ≠ p := fun hqp => howned (hqp ▸ hnone)
        exact ⟨hqopen, by simp [hqp, hnone], hq'⟩
      owner_live := fun ht => absurd ht hlive
      owner_le := fun q i hq => by
        by_cases hqp : q = p
        · obtain rfl : id = i := by simpa [hqp] using hq
          exact hid
        · exact h.owner_le q i (by simpa [hqp] using hq)
      live_le := fun i hi => h.live_le i (by simpa using hi)
      root_inferred := fun ht => absurd ht hlive
      configured := fun ht => absurd ht hlive
      count := h.count_setOwner.1
      overdrafts := h.count_setOwner.2 }

end Sound

end Registry

end ProjectTracker
