import Mathlib.Data.Set.Card
import ProjectTracker.Proofs.Workspace.Contents
/-!
The watches of a workspace. Each has one holder, which gives it up once: a tracked document, a configured project,
or a directory in which inferred projects wait for manifests. While a watch passes from nobody to its holder
or back it is spare, and while a project comes or goes the directories count it without knowing it.
-/

namespace ProjectTracker

/-- What has to do with watches about a project. -/
structure Post where
  kind : ProjectKind
  watches : List WatchId
  lookouts : List Path

def Project.post (p : Project) : Post :=
  ⟨p.kind, p.watches, p.lookouts⟩

/-- What a project has watches for, in their order. -/
def ProjectKind.targets (id : ProjectId) : ProjectKind → List (WatchTarget × WatchPurpose)
  | .inferred => []
  | .configured manifest =>
    (.file (.ofPath manifest), .manifest id) ::
      (manifest.parent?.map fun dir => (.directory (.ofPath dir) true, .sourceTree id)).toList

theorem ProjectKind.nodup_purposes (id : ProjectId) (kind : ProjectKind) :
    ((kind.targets id).map (·.2)).Nodup := by
  cases kind with
  | inferred => exact List.nodup_nil
  | configured manifest => cases h : manifest.parent? <;> simp [targets, h]

/-- The purposes tell the projects apart. -/
theorem ProjectKind.purpose_of_mem_targets {id : ProjectId} {kind : ProjectKind}
    {target : WatchTarget} {purpose : WatchPurpose} (h : (target, purpose) ∈ kind.targets id) :
    purpose = .manifest id ∨ purpose = .sourceTree id := by
  cases kind with
  | inferred => simp [targets] at h
  | configured manifest =>
      rcases List.mem_cons.mp h with heq | hmem
      · exact .inl (Prod.mk.inj heq).2
      · obtain ⟨dir, -, heq⟩ := Option.map_eq_some_iff.mp (Option.mem_toList.mp hmem)
        exact .inr (Prod.mk.inj heq).2.symm

/-- What a workspace has watches for. -/
@[ext] structure Outlook where
  watches : WatchTable
  purposes : Table WatchId WatchPurpose
  lookouts : Table Path Lookout
  /-- The tracked documents, with the watches that they have. -/
  document? : Path → Option (Option WatchId)
  /-- The live projects. -/
  post? : ProjectId → Option Post

namespace Outlook

/-- A watch has a holder, which gives it up. -/
inductive Holds (o : Outlook) : WatchId → WatchTarget → WatchPurpose → Prop where
  | document {p : Path} {id : WatchId} (h : o.document? p = some (some id)) :
    Holds o id (.file (.ofPath p)) (.document p)
  | project {i : ProjectId} {post : Post} {id : WatchId} {target : WatchTarget}
    {purpose : WatchPurpose} (h : o.post? i = some post)
    (hwatch : (id, target, purpose) ∈ post.watches.zip (post.kind.targets i)) :
    Holds o id target purpose
  | lookout {dir : Path} {lookout : Lookout} (h : o.lookouts.get? dir = some lookout) :
    Holds o lookout.watch (.directory (.ofPath dir) false) (.lookout dir)

/-- The number of projects that wait in a directory, as it is counted there. -/
def users (o : Outlook) (dir : Path) : Nat :=
  ((o.lookouts.get? dir).map (·.users)).getD 0

/-- The projects that wait in a directory. -/
def waiters (o : Outlook) (dir : Path) : Set ProjectId :=
  { id | ∃ post, o.post? id = some post ∧ dir ∈ post.lookouts }

/-! ### What happens to watches -/

def watch (o : Outlook) (target : WatchTarget) (purpose : WatchPurpose) : Outlook × WatchId :=
  let (watches, id) := o.watches.add target
  ({ o with watches, purposes := o.purposes.insert id purpose }, id)

def release (o : Outlook) (id : WatchId) : Outlook :=
  { o with watches := o.watches.release id, purposes := o.purposes.erase id }

def join (o : Outlook) (dir : Path) : Outlook :=
  match o.lookouts.get? dir with
  | some lookout =>
    { o with lookouts := o.lookouts.insert dir { lookout with users := lookout.users + 1 } }
  | none =>
    let (o, id) := o.watch (.directory (.ofPath dir) false) (.lookout dir)
    { o with lookouts := o.lookouts.insert dir ⟨id, 1⟩ }

def leave (o : Outlook) (dir : Path) : Outlook :=
  match o.lookouts.get? dir with
  | none => o
  | some lookout =>
    if lookout.users ≤ 1 then { o with lookouts := o.lookouts.erase dir }.release lookout.watch
    else { o with lookouts := o.lookouts.insert dir { lookout with users := lookout.users - 1 } }

def setDocument (o : Outlook) (p : Path) (document? : Option (Option WatchId)) : Outlook :=
  { o with document? := fun q => if q = p then document? else o.document? q }

def setPost (o : Outlook) (id : ProjectId) (post? : Option Post) : Outlook :=
  { o with post? := fun i => if i = id then post? else o.post? i }

def track (o : Outlook) (p : Path) : Outlook :=
  let (o, id) := o.watch (.file (.ofPath p)) (.document p)
  o.setDocument p (some (some id))

def unwatch (o : Outlook) (p : Path) : Outlook :=
  match o.document? p with
  | some (some id) => (o.setDocument p (some none)).release id
  | _ => o

/-- Removes a project, if it is live. -/
def strike (o : Outlook) (id : ProjectId) : Outlook :=
  match o.post? id with
  | none => o
  | some post => post.lookouts.foldl leave (post.watches.foldl release (o.setPost id none))

/-- Makes an inferred project that waits in the given directories. -/
def enrollInferred (o : Outlook) (id : ProjectId) (lookouts : List Path) : Outlook :=
  (lookouts.foldl join o).setPost id (some ⟨.inferred, [], lookouts⟩)

/-- Makes the project of a manifest. -/
def enrollConfigured (o : Outlook) (id : ProjectId) (manifest : Path) : Outlook :=
  let (o, manifestWatch) := o.watch (.file (.ofPath manifest)) (.manifest id)
  let (o, treeWatches) :=
    match manifest.parent? with
    | none => (o, [])
    | some dir =>
      let (o, tree) := o.watch (.directory (.ofPath dir) true) (.sourceTree id)
      (o, [tree])
  o.setPost id (some ⟨.configured manifest, manifestWatch :: treeWatches, []⟩)

/-! ### Projects -/

theorem post?_unwatch (o : Outlook) (p : Path) : (o.unwatch p).post? = o.post? := by
  unfold unwatch
  split <;> rfl

/-- A document that gave up its watch has none. -/
theorem document?_unwatch (o : Outlook) (p : Path) (id : WatchId) :
    (o.unwatch p).document? p ≠ some (some id) := by
  unfold unwatch
  split
  · simp [release, setDocument]
  · rename_i hnone
    exact hnone id

theorem post?_foldl {α : Type} {step : Outlook → α → Outlook}
    (h : ∀ o x, (step o x).post? = o.post?) (xs : List α) (o : Outlook) :
    (xs.foldl step o).post? = o.post? := by
  induction xs generalizing o with
  | nil => rfl
  | cons x xs ih => rw [List.foldl_cons, ih, h]

theorem post?_join (o : Outlook) (dir : Path) : (o.join dir).post? = o.post? := by
  unfold join
  split <;> rfl

theorem post?_leave (o : Outlook) (dir : Path) : (o.leave dir).post? = o.post? := by
  unfold leave
  split
  · rfl
  · split <;> rfl

theorem post?_strike (o : Outlook) (id i : ProjectId) :
    (o.strike id).post? i = if i = id then none else o.post? i := by
  unfold strike
  split
  · rename_i hnone
    split
    · subst i
      exact hnone
    · rfl
  · have hrelease (o : Outlook) (id : WatchId) : (o.release id).post? = o.post? := rfl
    rw [post?_foldl post?_leave, post?_foldl hrelease]
    rfl

theorem post?_enrollInferred (o : Outlook) (id i : ProjectId) (lookouts : List Path) :
    (o.enrollInferred id lookouts).post? i =
      if i = id then some ⟨.inferred, [], lookouts⟩ else o.post? i := by
  unfold enrollInferred
  show (if i = id then _ else (lookouts.foldl join o).post? i) = _
  rw [post?_foldl post?_join]

theorem post?_enrollConfigured (o : Outlook) (id : ProjectId) (manifest : Path) :
    ∃ watches, ∀ i, (o.enrollConfigured id manifest).post? i =
      if i = id then some ⟨.configured manifest, watches, []⟩ else o.post? i := by
  unfold enrollConfigured
  cases manifest.parent? <;> exact ⟨_, fun _ => rfl⟩

/-! ### Holders -/

section

variable {o : Outlook} {id : WatchId} {target : WatchTarget} {purpose : WatchPurpose} {p dir : Path}
  {i : ProjectId}

/-- What holders there are depends on the documents, the projects and the directories alone. -/
theorem Holds.of_eq {o' : Outlook} (h : o.Holds id target purpose)
    (hdocument : o'.document? = o.document?) (hpost : o'.post? = o.post?)
    (hlookouts : o'.lookouts = o.lookouts) : o'.Holds id target purpose := by
  rcases h with hp | ⟨hproject, hwatch⟩ | hlookout
  · exact .document (hdocument ▸ hp)
  · exact .project (hpost ▸ hproject) hwatch
  · exact .lookout (hlookouts ▸ hlookout)

theorem holds_document : o.Holds id target (.document p) ↔
    o.document? p = some (some id) ∧ target = .file (.ofPath p) := by
  constructor
  · intro h
    cases h with
    | document hp => exact ⟨hp, rfl⟩
    | project hpost hwatch =>
        have hmem := ProjectKind.purpose_of_mem_targets (List.of_mem_zip hwatch).2
        simp at hmem
  · rintro ⟨hp, rfl⟩
    exact .document hp

theorem holds_lookout : o.Holds id target (.lookout dir) ↔
    ∃ lookout, o.lookouts.get? dir = some lookout ∧ lookout.watch = id ∧
      target = .directory (.ofPath dir) false := by
  constructor
  · intro h
    cases h with
    | project hpost hwatch =>
        have hmem := ProjectKind.purpose_of_mem_targets (List.of_mem_zip hwatch).2
        simp at hmem
    | lookout hlookout => exact ⟨_, hlookout, rfl, rfl⟩
  · rintro ⟨lookout, hlookout, rfl, rfl⟩
    exact .lookout hlookout

/-- What a project holds, by the purpose. -/
theorem holds_project (hpurpose : purpose = .manifest i ∨ purpose = .sourceTree i) :
    o.Holds id target purpose ↔
      ∃ post, o.post? i = some post ∧ (id, target, purpose) ∈ post.watches.zip (post.kind.targets i) := by
  constructor
  · intro h
    cases h with
    | document hp => simp at hpurpose
    | @project i' post _ _ _ hpost hwatch =>
        have hpurpose' := ProjectKind.purpose_of_mem_targets (List.of_mem_zip hwatch).2
        obtain rfl : i = i' := by
          rcases hpurpose with rfl | rfl <;> simpa using hpurpose'
        exact ⟨post, hpost, hwatch⟩
    | lookout hlookout => simp at hpurpose
  · rintro ⟨post, hpost, hwatch⟩
    exact .project hpost hwatch

theorem holds_setDocument {document? : Option (Option WatchId)} :
    (o.setDocument p document?).Holds id target purpose ↔
      (document? = some (some id) ∧ target = .file (.ofPath p) ∧ purpose = .document p) ∨
        (o.Holds id target purpose ∧ purpose ≠ .document p) := by
  by_cases hpurpose : purpose = .document p
  · subst purpose
    simp [holds_document, setDocument]
  · rw [or_iff_right fun h => hpurpose h.2.2, and_iff_left hpurpose]
    have hne {q : Path} (hq : WatchPurpose.document q ≠ .document p) : q ≠ p := fun h => hq (h ▸ rfl)
    constructor
    · rintro (hq | ⟨hpost, hwatch⟩ | hlookout)
      · exact .document (by simpa [setDocument, hne hpurpose] using hq)
      · exact .project hpost hwatch
      · exact .lookout hlookout
    · rintro (hq | ⟨hpost, hwatch⟩ | hlookout)
      · exact .document (by simpa [setDocument, hne hpurpose] using hq)
      · exact .project hpost hwatch
      · exact .lookout hlookout

end

/-! ### Every watch has one holder -/

/-- The live watches are those that somebody holds and the spare ones, and each directory in which
projects wait counts them, and those that are on their way. -/
structure Balanced (o : Outlook) (spare : List (WatchId × WatchTarget × WatchPurpose))
    (waiting : List Path) : Prop where
  live : ∀ id target purpose,
    o.watches.get? id = some target ∧ o.purposes.get? id = some purpose ↔
      o.Holds id target purpose ∨ (id, target, purpose) ∈ spare
  keys : ∀ id, (o.watches.get? id).isSome = (o.purposes.get? id).isSome
  le : ∀ id, (o.watches.get? id).isSome → id ≤ o.watches.lastId
  apart : ∀ id target purpose, (id, target, purpose) ∈ spare →
    ∀ target' purpose', ¬o.Holds id target' purpose'
  nodup : (spare.map (·.1)).Nodup
  posts : ∀ id post, o.post? id = some post →
    post.watches.length = (post.kind.targets id).length ∧ post.lookouts.Nodup
  finite : { id | (o.post? id).isSome }.Finite
  users : ∀ dir, o.users dir = (o.waiters dir).ncard + waiting.count dir
  used : ∀ dir lookout, o.lookouts.get? dir = some lookout → 0 < lookout.users
  misreleases : o.watches.misreleases = 0

namespace Balanced

variable {o : Outlook} {spare spare' : List (WatchId × WatchTarget × WatchPurpose)}
  {waiting dirs : List Path} {id : WatchId} {target target' : WatchTarget}
  {purpose purpose' : WatchPurpose} {i : ProjectId} {p dir : Path}

theorem purpose_eq (h : Balanced o spare waiting) (hheld : o.Holds id target purpose) :
    o.purposes.get? id = some purpose :=
  ((h.live id target purpose).mpr (.inl hheld)).2

/-- A watch has one holder. -/
theorem holds_inj (h : Balanced o spare waiting) (hheld : o.Holds id target purpose)
    (hheld' : o.Holds id target' purpose') : target = target' ∧ purpose = purpose' := by
  obtain ⟨htarget, hpurpose⟩ := (h.live id target purpose).mpr (.inl hheld)
  obtain ⟨htarget', hpurpose'⟩ := (h.live id target' purpose').mpr (.inl hheld')
  exact ⟨Option.some.inj (htarget.symm.trans htarget'),
    Option.some.inj (hpurpose.symm.trans hpurpose')⟩

theorem perm (h : Balanced o spare waiting) (hspare : spare.Perm spare')
    {waiting' : List Path} (hwaiting : waiting.Perm waiting') : Balanced o spare' waiting' :=
  { h with
    live := fun id target purpose => by rw [h.live, hspare.mem_iff]
    apart := fun id target purpose hmem => h.apart id target purpose (hspare.mem_iff.mpr hmem)
    nodup := (hspare.map _).nodup_iff.mp h.nodup
    users := fun dir => by rw [h.users, hwaiting.count_eq] }

/-- Watches pass from nobody to holders, or back. -/
theorem rehold (h : Balanced o spare waiting) (o' : Outlook) (hwatches : o'.watches = o.watches)
    (hpurposes : o'.purposes = o.purposes)
    (hholds : ∀ id target purpose, o'.Holds id target purpose ∨ (id, target, purpose) ∈ spare' ↔
      o.Holds id target purpose ∨ (id, target, purpose) ∈ spare)
    (hapart : ∀ id target purpose, (id, target, purpose) ∈ spare' →
      ∀ target' purpose', ¬o'.Holds id target' purpose')
    (hnodup : (spare'.map (·.1)).Nodup)
    (hposts : ∀ id post, o'.post? id = some post →
      post.watches.length = (post.kind.targets id).length ∧ post.lookouts.Nodup)
    (hfinite : { id | (o'.post? id).isSome }.Finite)
    {waiting' : List Path}
    (husers : ∀ dir, o'.users dir = (o'.waiters dir).ncard + waiting'.count dir)
    (hused : ∀ dir lookout, o'.lookouts.get? dir = some lookout → 0 < lookout.users) :
    Balanced o' spare' waiting' where
  live id target purpose := by rw [hwatches, hpurposes, hholds, h.live]
  keys id := by rw [hwatches, hpurposes, h.keys]
  le id := by
    rw [hwatches]
    exact h.le id
  apart := hapart
  nodup := hnodup
  posts := hposts
  finite := hfinite
  users := husers
  used := hused
  misreleases := by rw [hwatches, h.misreleases]

/-- A new watch is spare. -/
theorem watch (h : Balanced o spare waiting) (target : WatchTarget) (purpose : WatchPurpose) :
    Balanced (o.watch target purpose).1 ((o.watches.lastId + 1, target, purpose) :: spare) waiting := by
  have hfresh : o.watches.get? (o.watches.lastId + 1) = none := by
    by_contra hlive
    exact absurd (h.le _ (Option.isSome_iff_ne_none.mpr hlive)) (Nat.not_succ_le_self _)
  have hunheld (target' : WatchTarget) (purpose' : WatchPurpose) :
      ¬(o.Holds (o.watches.lastId + 1) target' purpose' ∨
        (o.watches.lastId + 1, target', purpose') ∈ spare) := by
    rw [← h.live, hfresh]
    simp
  have hholds (id : WatchId) (target' : WatchTarget) (purpose' : WatchPurpose) :
      (o.watch target purpose).1.Holds id target' purpose' ↔ o.Holds id target' purpose' :=
    ⟨fun h => h.of_eq rfl rfl rfl, fun h => h.of_eq rfl rfl rfl⟩
  have hwatches (id : WatchId) : (o.watch target purpose).1.watches.get? id =
      if o.watches.lastId + 1 = id then some target else o.watches.get? id :=
    Table.get?_insert ..
  have hpurposes (id : WatchId) : (o.watch target purpose).1.purposes.get? id =
      if o.watches.lastId + 1 = id then some purpose else o.purposes.get? id :=
    Table.get?_insert ..
  exact
    { h with
      live := fun id target' purpose' => by
        rw [hwatches, hpurposes, hholds]
        by_cases hid : o.watches.lastId + 1 = id
        · subst id
          have hnot := hunheld target' purpose'
          simp only [if_pos, Option.some.injEq, List.mem_cons, Prod.mk.injEq, true_and]
          constructor
          · rintro ⟨rfl, rfl⟩
            exact .inr (.inl ⟨rfl, rfl⟩)
          · rintro (hheld | ⟨rfl, rfl⟩ | hspare)
            · exact absurd (.inl hheld) hnot
            · exact ⟨rfl, rfl⟩
            · exact absurd (.inr hspare) hnot
        · rw [if_neg hid, if_neg hid, h.live]
          simp [Ne.symm hid]
      keys := fun id => by
        rw [hwatches, hpurposes]
        split
        · rfl
        · exact h.keys id
      le := fun id hid => by
        show id ≤ o.watches.lastId + 1
        rw [hwatches] at hid
        split at hid
        · exact Nat.le_of_eq (Eq.symm ‹_›)
        · exact Nat.le_succ_of_le (h.le id hid)
      apart := fun id target' purpose' hmem target'' purpose'' => by
        rw [hholds]
        rcases List.mem_cons.mp hmem with heq | hmem
        · obtain ⟨rfl, -⟩ := Prod.mk.inj heq
          exact fun hheld => hunheld _ _ (.inl hheld)
        · exact h.apart id target' purpose' hmem target'' purpose''
      nodup := by
        refine List.nodup_cons.mpr ⟨fun hmem => ?_, h.nodup⟩
        obtain ⟨⟨id, target', purpose'⟩, hspare, heq⟩ := List.mem_map.mp hmem
        obtain rfl : id = o.watches.lastId + 1 := heq
        exact hunheld _ _ (.inr hspare) }

/-- A spare watch is released. -/
theorem release (h : Balanced o ((id, target, purpose) :: spare) waiting) :
    Balanced (o.release id) spare waiting := by
  have hlive := (h.live id target purpose).mpr (.inr (by simp))
  have hgone : id ∉ spare.map (·.1) := (List.nodup_cons.mp h.nodup).1
  have hholds (id' : WatchId) (target' : WatchTarget) (purpose' : WatchPurpose) :
      (o.release id).Holds id' target' purpose' ↔ o.Holds id' target' purpose' :=
    ⟨fun h => h.of_eq rfl rfl rfl, fun h => h.of_eq rfl rfl rfl⟩
  have hwatches (id' : WatchId) : (o.release id).watches.get? id' =
      if id = id' then none else o.watches.get? id' :=
    Table.get?_erase ..
  have hpurposes (id' : WatchId) : (o.release id).purposes.get? id' =
      if id = id' then none else o.purposes.get? id' :=
    Table.get?_erase ..
  exact
    { h with
      live := fun id' target' purpose' => by
        rw [hwatches, hpurposes, hholds]
        by_cases hid : id = id'
        · subst id'
          simp only [if_pos, reduceCtorEq, false_and, false_iff]
          rintro (hheld | hspare)
          · exact h.apart id target purpose (by simp) target' purpose' hheld
          · exact hgone (List.mem_map.mpr ⟨_, hspare, rfl⟩)
        · rw [if_neg hid, if_neg hid, h.live]
          simp [Ne.symm hid]
      keys := fun id' => by
        rw [hwatches, hpurposes]
        split
        · rfl
        · exact h.keys id'
      le := fun id' hid' => by
        show id' ≤ o.watches.lastId
        rw [hwatches] at hid'
        split at hid'
        · simp at hid'
        · exact h.le id' hid'
      apart := fun id' target' purpose' hmem target'' purpose'' => by
        rw [hholds]
        exact h.apart id' target' purpose' (by simp [hmem]) target'' purpose''
      nodup := (List.nodup_cons.mp h.nodup).2
      misreleases := by
        have hcontains : o.watches.targets.contains id = true :=
          Option.isSome_iff_exists.mpr ⟨target, hlive.1⟩
        show (if o.watches.targets.contains id then o.watches.misreleases
          else o.watches.misreleases + 1) = 0
        rw [if_pos hcontains, h.misreleases] }

theorem releaseAll (h : Balanced o spare waiting) :
    Balanced ((spare.map (·.1)).foldl Outlook.release o) [] waiting := by
  induction spare generalizing o with
  | nil => exact h
  | cons entry spare ih => exact ih h.release

/-! ### Documents -/

/-- A document that has no watch takes a spare one. -/
theorem adopt (h : Balanced o ((id, .file (.ofPath p), .document p) :: spare) waiting)
    (hfree : ∀ id', o.document? p ≠ some (some id')) :
    Balanced (o.setDocument p (some (some id))) spare waiting := by
  have hfree' (id' : WatchId) (target' : WatchTarget) : ¬o.Holds id' target' (.document p) :=
    fun hheld => hfree id' (holds_document.mp hheld).1
  refine h.rehold (o.setDocument p (some (some id))) rfl rfl
    (fun id' target' purpose' => ?_) (fun id' target' purpose' hmem target'' purpose'' => ?_)
    (List.nodup_cons.mp h.nodup).2 h.posts h.finite h.users h.used
  · rw [holds_setDocument]
    by_cases hpurpose : purpose' = .document p
    · subst purpose'
      simp [hfree', eq_comm]
    · simp [hpurpose]
  · rw [holds_setDocument]
    rintro (⟨hid, -⟩ | ⟨hheld, -⟩)
    · obtain rfl : id = id' := by simpa using hid
      exact (List.nodup_cons.mp h.nodup).1 (List.mem_map.mpr ⟨_, hmem, rfl⟩)
    · exact h.apart id' target' purpose' (by simp [hmem]) _ _ hheld

/-- A document gives up its watch. -/
theorem disown (h : Balanced o spare waiting) (hp : o.document? p = some (some id)) :
    Balanced (o.setDocument p (some none)) ((id, .file (.ofPath p), .document p) :: spare)
      waiting := by
  have hheld : o.Holds id (.file (.ofPath p)) (.document p) := .document hp
  have hgone : id ∉ spare.map (·.1) := by
    intro hmem
    obtain ⟨⟨id', target', purpose'⟩, hspare, rfl⟩ := List.mem_map.mp hmem
    exact h.apart id' target' purpose' hspare _ _ hheld
  refine h.rehold (o.setDocument p (some none)) rfl rfl
    (fun id' target' purpose' => ?_) (fun id' target' purpose' hmem target'' purpose'' => ?_)
    ?_ h.posts h.finite h.users h.used
  · rw [holds_setDocument]
    by_cases hpurpose : purpose' = .document p
    · subst purpose'
      simp [holds_document, hp, eq_comm]
    · simp [hpurpose]
  · rw [holds_setDocument]
    rintro (⟨hid, -⟩ | ⟨hheld', hne⟩)
    · simp at hid
    · rcases List.mem_cons.mp hmem with heq | hmem
      · obtain ⟨rfl, -⟩ := Prod.mk.inj heq
        exact hne (h.holds_inj hheld' hheld).2
      · exact h.apart id' target' purpose' hmem _ _ hheld'
  · exact List.nodup_cons.mpr ⟨hgone, h.nodup⟩

theorem track (h : Balanced o spare waiting) (hp : o.document? p = none) :
    Balanced (o.track p) spare waiting :=
  (h.watch _ _).adopt fun id' hid' => by
    have hnone : (o.watch (.file (.ofPath p)) (.document p)).1.document? p = none := hp
    simp [hnone] at hid'

theorem unwatch (h : Balanced o spare waiting) (p : Path) :
    Balanced (o.unwatch p) spare waiting := by
  unfold Outlook.unwatch
  split
  · rename_i hp
    exact (h.disown hp).release
  · exact h

/-- A document without a watch is forgotten. -/
theorem forget (h : Balanced o spare waiting) (hp : ∀ id, o.document? p ≠ some (some id)) :
    Balanced (o.setDocument p none) spare waiting := by
  have hholds (id : WatchId) (target : WatchTarget) (purpose : WatchPurpose) :
      (o.setDocument p none).Holds id target purpose ↔ o.Holds id target purpose := by
    rw [holds_setDocument]
    refine ⟨fun hheld => (hheld.resolve_left (by simp)).1, fun hheld => .inr ⟨hheld, ?_⟩⟩
    rintro rfl
    exact hp id (holds_document.mp hheld).1
  exact h.rehold (o.setDocument p none) rfl rfl (fun id target purpose => by rw [hholds])
    (fun id target purpose hmem target' purpose' => by
      rw [hholds]
      exact h.apart id target purpose hmem target' purpose')
    h.nodup h.posts h.finite h.users h.used

/-! ### Directories -/

/-- Where the entry of one directory is another one, its purpose alone has another holder. -/
theorem holds_lookouts {lookouts : Table Path Lookout}
    (hsame : ∀ dir', dir' ≠ dir → lookouts.get? dir' = o.lookouts.get? dir') :
    ({ o with lookouts } : Outlook).Holds id target purpose ↔
      (o.Holds id target purpose ∧ purpose ≠ .lookout dir) ∨
        ((lookouts.get? dir).map (·.watch) = some id ∧ target = .directory (.ofPath dir) false ∧
          purpose = .lookout dir) := by
  by_cases hpurpose : purpose = .lookout dir
  · subst purpose
    simp [holds_lookout]
    grind
  · rw [and_iff_left hpurpose, or_iff_left fun h => hpurpose h.2.2]
    have hne {dir' : Path} (hdir : WatchPurpose.lookout dir' ≠ .lookout dir) : dir' ≠ dir :=
      fun h => hdir (h ▸ rfl)
    constructor
    · rintro (hp | ⟨hpost, hwatch⟩ | hlookout)
      · exact .document hp
      · exact .project hpost hwatch
      · exact .lookout ((hsame _ (hne hpurpose)).symm.trans hlookout)
    · rintro (hp | ⟨hpost, hwatch⟩ | hlookout)
      · exact .document hp
      · exact .project hpost hwatch
      · exact .lookout ((hsame _ (hne hpurpose)).trans hlookout)

/-- A directory that is known counts another number of projects. -/
theorem recount (h : Balanced o spare waiting) {lookout : Lookout}
    (hlookout : o.lookouts.get? dir = some lookout) {users : Nat} (hused : 0 < users)
    {waiting' : List Path}
    (husers : ∀ dir', (if dir' = dir then users else o.users dir') =
      (o.waiters dir').ncard + waiting'.count dir') :
    Balanced { o with lookouts := o.lookouts.insert dir { lookout with users } } spare waiting' := by
  have hget (dir' : Path) : (o.lookouts.insert dir { lookout with users }).get? dir' =
      if dir = dir' then some { lookout with users } else o.lookouts.get? dir' :=
    Table.get?_insert ..
  have hholds (id : WatchId) (target : WatchTarget) (purpose : WatchPurpose) :
      ({ o with lookouts := o.lookouts.insert dir { lookout with users } } : Outlook).Holds id target
        purpose ↔ o.Holds id target purpose := by
    rw [holds_lookouts fun dir' hdir => (hget dir').trans (if_neg (Ne.symm hdir)), hget, if_pos rfl]
    by_cases hpurpose : purpose = .lookout dir
    · subst purpose
      simp [holds_lookout, hlookout, eq_comm]
    · simp [hpurpose]
  refine h.rehold { o with lookouts := o.lookouts.insert dir { lookout with users } } rfl rfl
    (fun id target purpose => by rw [hholds]) (fun id target purpose hmem target' purpose' => ?_)
    h.nodup h.posts h.finite (fun dir' => ?_) (fun dir' lookout' hlookout' => ?_)
  · rw [hholds]
    exact h.apart id target purpose hmem target' purpose'
  · refine Eq.trans ?_ (husers dir')
    unfold Outlook.users
    dsimp only
    rw [hget]
    by_cases hdir : dir = dir'
    · simp [hdir]
    · simp [hdir, Ne.symm hdir]
  · rw [hget] at hlookout'
    split at hlookout'
    · obtain rfl := Option.some.inj hlookout'
      exact hused
    · exact h.used dir' lookout' hlookout'

/-- The first project that waits in a directory takes a spare watch for it. -/
theorem enterLookout
    (h : Balanced o ((id, .directory (.ofPath dir) false, .lookout dir) :: spare) waiting)
    (hfree : o.lookouts.get? dir = none) :
    Balanced { o with lookouts := o.lookouts.insert dir ⟨id, 1⟩ } spare (dir :: waiting) := by
  have hget (dir' : Path) : (o.lookouts.insert dir ⟨id, 1⟩).get? dir' =
      if dir = dir' then some ⟨id, 1⟩ else o.lookouts.get? dir' :=
    Table.get?_insert ..
  have hholds (id' : WatchId) (target : WatchTarget) (purpose : WatchPurpose) :
      ({ o with lookouts := o.lookouts.insert dir ⟨id, 1⟩ } : Outlook).Holds id' target purpose ↔
        (o.Holds id' target purpose ∧ purpose ≠ .lookout dir) ∨
          (id = id' ∧ target = .directory (.ofPath dir) false ∧ purpose = .lookout dir) := by
    rw [holds_lookouts fun dir' hdir => (hget dir').trans (if_neg (Ne.symm hdir)), hget, if_pos rfl]
    simp
  have hunheld (id' : WatchId) (target : WatchTarget) : ¬o.Holds id' target (.lookout dir) := by
    simp [holds_lookout, hfree]
  refine h.rehold { o with lookouts := o.lookouts.insert dir ⟨id, 1⟩ } rfl rfl
    (fun id' target purpose => ?_) (fun id' target purpose hmem target' purpose' => ?_)
    (List.nodup_cons.mp h.nodup).2 h.posts h.finite (fun dir' => ?_)
    (fun dir' lookout hlookout => ?_)
  · rw [hholds]
    by_cases hpurpose : purpose = .lookout dir
    · subst purpose
      simp [hunheld, eq_comm]
    · simp [hpurpose]
  · rw [hholds]
    rintro (⟨hheld, -⟩ | ⟨rfl, -⟩)
    · exact h.apart id' target purpose (by simp [hmem]) _ _ hheld
    · exact (List.nodup_cons.mp h.nodup).1 (List.mem_map.mpr ⟨_, hmem, rfl⟩)
  · have hcount := h.users dir'
    unfold Outlook.users at hcount ⊢
    dsimp only
    rw [hget, List.count_cons]
    show _ = (o.waiters dir').ncard + _
    by_cases hdir : dir = dir'
    · subst dir'
      rw [hfree] at hcount
      simp only [Option.map_none, Option.getD_none] at hcount
      simp only [if_pos, beq_self_eq_true, Option.map_some, Option.getD_some]
      omega
    · simpa [hdir] using hcount
  · rw [hget] at hlookout
    split at hlookout
    · obtain rfl := Option.some.inj hlookout
      exact Nat.one_pos
    · exact h.used dir' lookout hlookout

/-- The last project that waits in a directory leaves a spare watch behind. -/
theorem quitLookout (h : Balanced o spare (dir :: waiting)) {lookout : Lookout}
    (hlookout : o.lookouts.get? dir = some lookout) (hlast : lookout.users ≤ 1) :
    Balanced { o with lookouts := o.lookouts.erase dir }
      ((lookout.watch, .directory (.ofPath dir) false, .lookout dir) :: spare) waiting := by
  have hget (dir' : Path) : (o.lookouts.erase dir).get? dir' =
      if dir = dir' then none else o.lookouts.get? dir' :=
    Table.get?_erase ..
  have hheld : o.Holds lookout.watch (.directory (.ofPath dir) false) (.lookout dir) :=
    .lookout hlookout
  have hholds (id' : WatchId) (target : WatchTarget) (purpose : WatchPurpose) :
      ({ o with lookouts := o.lookouts.erase dir } : Outlook).Holds id' target purpose ↔
        o.Holds id' target purpose ∧ purpose ≠ .lookout dir := by
    rw [holds_lookouts fun dir' hdir => (hget dir').trans (if_neg (Ne.symm hdir)), hget, if_pos rfl]
    simp
  refine h.rehold { o with lookouts := o.lookouts.erase dir } rfl rfl
    (fun id' target purpose => ?_) (fun id' target purpose hmem target' purpose' => ?_)
    ?_ h.posts h.finite (fun dir' => ?_) (fun dir' lookout' hlookout' => ?_)
  · rw [hholds]
    by_cases hpurpose : purpose = .lookout dir
    · subst purpose
      simp [holds_lookout, hlookout, eq_comm]
    · simp [hpurpose]
  · rw [hholds]
    rintro ⟨hheld', hne⟩
    rcases List.mem_cons.mp hmem with heq | hmem
    · obtain ⟨rfl, -⟩ := Prod.mk.inj heq
      exact hne (h.holds_inj hheld' hheld).2
    · exact h.apart id' target purpose hmem _ _ hheld'
  · refine List.nodup_cons.mpr ⟨fun hmem => ?_, h.nodup⟩
    obtain ⟨⟨id', target', purpose'⟩, hspare, rfl⟩ := List.mem_map.mp hmem
    exact h.apart _ target' purpose' hspare _ _ hheld
  · have hcount := h.users dir'
    unfold Outlook.users at hcount ⊢
    dsimp only
    rw [hget]
    rw [List.count_cons] at hcount
    show _ = (o.waiters dir').ncard + _
    by_cases hdir : dir = dir'
    · subst dir'
      rw [hlookout] at hcount
      simp only [if_pos, beq_self_eq_true, Option.map_some, Option.getD_some] at hcount
      simp only [if_pos, Option.map_none, Option.getD_none]
      omega
    · simpa [hdir] using hcount
  · rw [hget] at hlookout'
    split at hlookout'
    · simp at hlookout'
    · exact h.used dir' lookout' hlookout'

theorem join (h : Balanced o spare waiting) (dir : Path) :
    Balanced (o.join dir) spare (dir :: waiting) := by
  unfold Outlook.join
  cases hlookout : o.lookouts.get? dir with
  | some lookout =>
      refine h.recount hlookout (Nat.succ_pos _) fun dir' => ?_
      have hcount := h.users dir'
      rw [List.count_cons]
      by_cases hdir : dir' = dir
      · subst dir'
        have husers : o.users dir = lookout.users := by simp [Outlook.users, hlookout]
        simp only [if_pos, beq_self_eq_true]
        omega
      · simp [hdir, Ne.symm hdir, hcount]
  | none => exact (h.watch _ _).enterLookout hlookout

theorem leave (h : Balanced o spare (dir :: waiting)) :
    Balanced (o.leave dir) spare waiting := by
  have hcount := h.users dir
  rw [List.count_cons_self] at hcount
  unfold Outlook.leave
  cases hlookout : o.lookouts.get? dir with
  | none =>
      -- the project that leaves is counted
      have husers : o.users dir = 0 := by simp [Outlook.users, hlookout]
      omega
  | some lookout =>
      have husers : o.users dir = lookout.users := by simp [Outlook.users, hlookout]
      dsimp only
      split
      · exact (h.quitLookout hlookout ‹_›).release
      · refine h.recount hlookout (by omega) fun dir' => ?_
        have hcount' := h.users dir'
        rw [List.count_cons] at hcount'
        by_cases hdir : dir' = dir
        · subst dir'
          simp only [if_pos]
          omega
        · simpa [hdir, Ne.symm hdir] using hcount'

theorem joinAll (h : Balanced o spare waiting) (dirs : List Path) :
    Balanced (dirs.foldl Outlook.join o) spare (dirs ++ waiting) := by
  induction dirs generalizing o waiting with
  | nil => exact h
  | cons dir dirs ih => exact (ih (h.join dir)).perm (.refl _) List.perm_middle

theorem leaveAll (h : Balanced o spare (dirs ++ waiting)) :
    Balanced (dirs.foldl Outlook.leave o) spare waiting := by
  induction dirs generalizing o with
  | nil => exact h
  | cons dir dirs ih => exact ih h.leave

/-! ### Projects -/

theorem holds_setPost {post? : Option Post} :
    (o.setPost i post?).Holds id target purpose ↔
      (∃ post, post? = some post ∧
        (id, target, purpose) ∈ post.watches.zip (post.kind.targets i)) ∨
        (o.Holds id target purpose ∧ purpose ≠ .manifest i ∧ purpose ≠ .sourceTree i) := by
  by_cases hpurpose : purpose = .manifest i ∨ purpose = .sourceTree i
  · rw [holds_project hpurpose, or_iff_left fun h => hpurpose.elim h.2.1 h.2.2]
    simp [setPost]
  · rw [or_iff_right, and_iff_left (not_or.mp hpurpose)]
    · have hne {i' : ProjectId} {post : Post} (hwatch : (id, target, purpose) ∈
          post.watches.zip (post.kind.targets i')) : i' ≠ i := fun h =>
        hpurpose (h ▸ ProjectKind.purpose_of_mem_targets (List.of_mem_zip hwatch).2)
      constructor
      · rintro (hp | ⟨hpost, hwatch⟩ | hlookout)
        · exact .document hp
        · exact .project (by simpa [setPost, hne hwatch] using hpost) hwatch
        · exact .lookout hlookout
      · rintro (hp | ⟨hpost, hwatch⟩ | hlookout)
        · exact .document hp
        · exact .project (by simpa [setPost, hne hwatch] using hpost) hwatch
        · exact .lookout hlookout
    · rintro ⟨post, -, hwatch⟩
      exact hpurpose (ProjectKind.purpose_of_mem_targets (List.of_mem_zip hwatch).2)

/-- The watches of a project are different ones. -/
theorem nodup_watches (h : Balanced o spare waiting) {post : Post} (hpost : o.post? i = some post) :
    ((post.watches.zip (post.kind.targets i)).map (·.1)).Nodup := by
  have hlength := (h.posts i post hpost).1
  -- a watch has one purpose, and the purposes of a project are different
  have hpurposes : ((post.watches.zip (post.kind.targets i)).map (·.2.2)).Nodup := by
    have hmap := congrArg (List.map (·.2)) (List.map_snd_zip (Nat.le_of_eq hlength.symm))
    rw [List.map_map] at hmap
    exact hmap ▸ post.kind.nodup_purposes i
  refine List.Nodup.of_map o.purposes.get? ?_
  rw [List.map_map]
  have hsome := hpurposes.map (Option.some_injective _)
  rw [List.map_map] at hsome
  refine (List.map_congr_left fun entry hentry => ?_) ▸ hsome
  exact (h.purpose_eq (.project hpost hentry)).symm

theorem waiters_setPost {post? : Option Post} :
    (o.setPost i post?).waiters dir =
      { id | (id = i ∧ post?.any fun post => dir ∈ post.lookouts) ∨ (id ≠ i ∧ id ∈ o.waiters dir) } := by
  ext id
  by_cases hid : id = i
  · subst id
    cases post? <;> simp [Outlook.waiters, setPost]
  · simp [Outlook.waiters, setPost, hid]

theorem finite_waiters (h : Balanced o spare waiting) (dir : Path) : (o.waiters dir).Finite :=
  h.finite.subset fun id ⟨post, hpost, _⟩ => by simp [hpost]

/-- A project goes. Its watches are spare, and its directories count it yet. -/
theorem withdraw (h : Balanced o [] []) {post : Post} (hpost : o.post? i = some post) :
    Balanced (o.setPost i none) (post.watches.zip (post.kind.targets i)) post.lookouts := by
  have hheld {id : WatchId} {target : WatchTarget} {purpose : WatchPurpose}
      (hwatch : (id, target, purpose) ∈ post.watches.zip (post.kind.targets i)) :
      o.Holds id target purpose := .project hpost hwatch
  have hrest (id : ProjectId) (post' : Post) (hpost' : (o.setPost i none).post? id = some post') :
      o.post? id = some post' := by
    simp only [setPost] at hpost'
    split at hpost'
    · simp at hpost'
    · exact hpost'
  refine h.rehold (o.setPost i none) rfl rfl (fun id target purpose => ?_)
    (fun id target purpose hmem target' purpose' => ?_) (h.nodup_watches hpost)
    (fun id post' hpost' => h.posts id post' (hrest id post' hpost'))
    (h.finite.subset fun id hid => ?_) (fun dir => ?_) h.used
  · rw [holds_setPost]
    by_cases hpurpose : purpose = .manifest i ∨ purpose = .sourceTree i
    · rw [holds_project hpurpose]
      simp [hpost]
      tauto
    · have hnot : (id, target, purpose) ∉ post.watches.zip (post.kind.targets i) := fun hmem =>
        hpurpose (ProjectKind.purpose_of_mem_targets (List.of_mem_zip hmem).2)
      simp [hnot, not_or.mp hpurpose]
  · rw [holds_setPost]
    rintro (⟨_, hnone, -⟩ | ⟨hheld', hne⟩)
    · simp at hnone
    · obtain ⟨-, rfl⟩ := h.holds_inj (hheld hmem) hheld'
      exact (ProjectKind.purpose_of_mem_targets (List.of_mem_zip hmem).2).elim hne.1 hne.2
  · obtain ⟨post', hpost'⟩ := Option.isSome_iff_exists.mp hid
    exact Option.isSome_iff_exists.mpr ⟨post', hrest id post' hpost'⟩
  · have hcount := h.users dir
    have hnodup := (h.posts i post hpost).2
    rw [List.count_nil, Nat.add_zero] at hcount
    show o.users dir = _
    rw [hcount, waiters_setPost]
    by_cases hdir : dir ∈ post.lookouts
    · have hi : i ∈ o.waiters dir := ⟨post, hpost, hdir⟩
      have hset : { id | (id = i ∧ (none : Option Post).any fun post => dir ∈ post.lookouts) ∨
          (id ≠ i ∧ id ∈ o.waiters dir) } = o.waiters dir \ {i} := by
        ext id
        simp [and_comm]
      have hpos := (Set.ncard_pos (h.finite_waiters dir)).mpr ⟨i, hi⟩
      rw [hset, Set.ncard_sdiff_singleton_of_mem hi, List.count_eq_one_of_mem hnodup hdir]
      omega
    · rw [List.count_eq_zero_of_not_mem hdir]
      congr 1
      ext id
      simp only [Option.any_none, Bool.false_eq_true, and_false, false_or]
      refine ⟨fun hid => ⟨?_, hid⟩, And.right⟩
      rintro rfl
      obtain ⟨post', hpost', hdir'⟩ := hid
      obtain rfl : post = post' := Option.some.inj (hpost.symm.trans hpost')
      exact hdir hdir'

/-- A project comes. It takes spare watches, and its directories count it already. -/
theorem appoint {post : Post}
    (h : Balanced o (post.watches.zip (post.kind.targets i)) post.lookouts)
    (hfree : o.post? i = none) (hlength : post.watches.length = (post.kind.targets i).length)
    (hnodup : post.lookouts.Nodup) : Balanced (o.setPost i (some post)) [] [] := by
  have hget (id : ProjectId) (post' : Post)
      (hpost' : (o.setPost i (some post)).post? id = some post') :
      (id = i ∧ post' = post) ∨ o.post? id = some post' := by
    simp only [setPost] at hpost'
    split at hpost'
    · exact .inl ⟨‹_›, (Option.some.inj hpost').symm⟩
    · exact .inr hpost'
  refine h.rehold (o.setPost i (some post)) rfl rfl (fun id target purpose => ?_)
    (fun id target purpose hmem => absurd hmem List.not_mem_nil) List.Pairwise.nil
    (fun id post' hpost' => ?_) ((h.finite.insert i).subset fun id hid => ?_) (fun dir => ?_) h.used
  · rw [holds_setPost]
    by_cases hpurpose : purpose = .manifest i ∨ purpose = .sourceTree i
    · rw [holds_project hpurpose]
      simp [hfree]
    · have hnot : (id, target, purpose) ∉ post.watches.zip (post.kind.targets i) := fun hmem =>
        hpurpose (ProjectKind.purpose_of_mem_targets (List.of_mem_zip hmem).2)
      simp [hnot, not_or.mp hpurpose]
  · rcases hget id post' hpost' with ⟨rfl, rfl⟩ | hpost'
    · exact ⟨hlength, hnodup⟩
    · exact h.posts id post' hpost'
  · obtain ⟨post', hpost'⟩ := Option.isSome_iff_exists.mp hid
    rcases hget id post' hpost' with ⟨rfl, -⟩ | hpost'
    · exact .inl rfl
    · exact .inr (Option.isSome_iff_exists.mpr ⟨post', hpost'⟩)
  · have hcount := h.users dir
    show o.users dir = _
    rw [hcount, waiters_setPost, List.count_nil, Nat.add_zero]
    have hi : i ∉ o.waiters dir := fun ⟨post', hpost', _⟩ => by simp [hfree] at hpost'
    by_cases hdir : dir ∈ post.lookouts
    · have hset : { id | (id = i ∧ (some post).any fun post => dir ∈ post.lookouts) ∨
          (id ≠ i ∧ id ∈ o.waiters dir) } = insert i (o.waiters dir) := by
        ext id
        by_cases hid : id = i <;> simp [hid, hdir]
      rw [hset, Set.ncard_insert_of_notMem hi (h.finite_waiters dir),
        List.count_eq_one_of_mem hnodup hdir]
    · rw [List.count_eq_zero_of_not_mem hdir, Nat.add_zero]
      congr 1
      ext id
      by_cases hid : id = i <;> simp [hid, hdir, hi]

/-- A project that is removed releases its watches, and leaves the directories in which it waited. -/
theorem strike (h : Balanced o [] []) (id : ProjectId) : Balanced (o.strike id) [] [] := by
  unfold Outlook.strike
  cases hpost : o.post? id with
  | none => exact h
  | some post =>
      have hreleased := (h.withdraw hpost).releaseAll
      rw [List.map_fst_zip (Nat.le_of_eq (h.posts id post hpost).1)] at hreleased
      exact ((hreleased.perm (.refl _) (.of_eq (List.append_nil _).symm)).leaveAll :)

theorem enrollInferred (h : Balanced o [] []) (hfree : o.post? i = none) (hdirs : dirs.Nodup) :
    Balanced (o.enrollInferred i dirs) [] [] := by
  have hjoined := (h.joinAll dirs).perm (.refl _) (.of_eq (List.append_nil dirs))
  unfold Outlook.enrollInferred
  exact appoint hjoined (by rw [post?_foldl post?_join, hfree]) rfl hdirs

theorem enrollConfigured (h : Balanced o [] []) (hfree : o.post? i = none) (manifest : Path) :
    Balanced (o.enrollConfigured i manifest) [] [] := by
  have hmanifest := h.watch (.file (.ofPath manifest)) (.manifest i)
  unfold Outlook.enrollConfigured
  dsimp only
  cases hdir : manifest.parent? with
  | none =>
      have htargets : ProjectKind.targets i (.configured manifest) =
          [(.file (.ofPath manifest), .manifest i)] := by
        simp [ProjectKind.targets, hdir]
      refine appoint ?_ hfree (by rw [htargets]; rfl) List.nodup_nil
      rw [htargets]
      exact hmanifest
  | some dir =>
      have htargets : ProjectKind.targets i (.configured manifest) =
          [(.file (.ofPath manifest), .manifest i), (.directory (.ofPath dir) true, .sourceTree i)] := by
        simp [ProjectKind.targets, hdir]
      refine appoint ?_ hfree (by rw [htargets]; rfl) List.nodup_nil
      rw [htargets]
      exact (hmanifest.watch _ _).perm (.swap ..) (.refl _)

end Balanced

end Outlook

end ProjectTracker
