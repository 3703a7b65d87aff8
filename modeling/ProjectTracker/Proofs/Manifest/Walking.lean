import Mathlib
import ProjectTracker.Manifest.Basic
import ProjectTracker.Proofs.FileSystem.Directories

/-!
Walking down a directory. Among files in memory the walk comes to an end, and finds the files in pre-order: those just
in a directory, and then those below each directory in it. These are all the files below the directory, but for those
below which there are others.
-/

namespace ProjectTracker

/-! ### Ways down -/

namespace Path

/-- How many components a path goes on for below another one. -/
def stepsBelow (q p : Path) : Nat :=
  if q.startsWith p then q.components.length - p.components.length else 0

variable {p q : Path}

theorem stepsBelow_le_length (q p : Path) : q.stepsBelow p ≤ q.components.length := by
  unfold stepsBelow
  split
  · exact Nat.sub_le ..
  · exact Nat.zero_le _

theorem stepsBelow_of_append {rest : List Component} (h : q.components = p.components ++ rest) :
    q.stepsBelow p = rest.length := by
  unfold stepsBelow startsWith
  rw [if_pos (List.isPrefixOf_iff_prefix.mpr ⟨rest, h.symm⟩), h, List.length_append]
  omega

theorem stepsBelow_eq_zero (h : ¬ q.Below p) : q.stepsBelow p = 0 := by
  unfold stepsBelow
  split
  · rename_i hstarts
    have hsame : q = p := by
      by_contra hne
      exact h (below_iff.mpr (by simp [hstarts, hne]))
    rw [hsame, Nat.sub_self]
  · rfl

/-- There is one way down at most, and it is shorter from the next place on. -/
theorem sum_stepsBelow_le {ps : List Path} (hnodup : ps.Nodup) (hps : ∀ p' ∈ ps, p'.JustBelow p) :
    (ps.map q.stepsBelow).sum ≤ q.stepsBelow p ∧
      (q.Below p → (ps.map q.stepsBelow).sum < q.stepsBelow p) := by
  by_cases hbelow : q.Below p
  · obtain ⟨c, rest, hrest⟩ := hbelow
    let next : Path := ⟨p.components ++ [c]⟩
    have hnext : q.components = next.components ++ rest := by simp [next, hrest]
    -- the sum is over one place that the path goes through, if it is among them, and others that it does not
    have hothers : ∀ p', p' ≠ next → p' ∈ ps → q.stepsBelow p' = 0 := by
      intro p' hne hp'
      apply stepsBelow_eq_zero
      rintro ⟨d, below, hd⟩
      exact hne ((hps p' hp').eq_of_append ⟨c, rfl⟩ hd hnext)
    have hlt : (ps.map q.stepsBelow).sum < q.stepsBelow p := by
      rw [List.sum_map_eq_nsmul_single _ _ hothers, smul_eq_mul, stepsBelow_of_append hnext,
        stepsBelow_of_append hrest, List.length_cons]
      have hcount := List.nodup_iff_count_le_one.mp hnodup next
      exact Nat.lt_succ_of_le ((Nat.mul_le_mul_right _ hcount).trans_eq (Nat.one_mul _))
    exact ⟨Nat.le_of_lt hlt, fun _ => hlt⟩
  · have hnone : (ps.map q.stepsBelow).sum = 0 := by
      rw [List.sum_eq_zero_iff]
      intro steps hsteps
      obtain ⟨p', hp', rfl⟩ := List.mem_map.mp hsteps
      apply stepsBelow_eq_zero
      rintro ⟨d, below, hd⟩
      obtain ⟨c, hc⟩ := hps p' hp'
      exact hbelow ⟨c, d :: below, by rw [hd, hc, List.append_assoc]; rfl⟩
    exact ⟨hnone ▸ Nat.zero_le _, fun h => absurd h hbelow⟩

end Path

namespace MemoryFiles

variable {files : MemoryFiles} {p : Path}

/-- The lengths of all ways from a directory down to files. No fewer directories are there and below. -/
def stepsBelow (files : MemoryFiles) (p : Path) : Nat :=
  (files.keys.map (·.stepsBelow p)).sum

theorem stepsBelow_le (files : MemoryFiles) (p : Path) :
    files.stepsBelow p ≤ (files.keys.flatMap (·.components)).length := by
  rw [List.length_flatMap]
  exact List.sum_le_sum fun q _ => q.stepsBelow_le_length p

/-- From a directory there is more way to go than from all directories in it. -/
theorem sum_stepsBelow_lt {ps : List Path} (hnodup : ps.Nodup) (hps : ∀ p' ∈ ps, p'.JustBelow p)
    (hp : files.isDirectory p) :
    (ps.map files.stepsBelow).sum < files.stepsBelow p := by
  have hswap : (ps.map files.stepsBelow).sum = (files.keys.map fun q => (ps.map q.stepsBelow).sum).sum := by
    show (ps.map fun p' => (files.keys.map fun q => q.stepsBelow p').sum).sum = _
    simpa using Multiset.sum_map_sum_map (ps : Multiset Path) (files.keys : Multiset Path)
      (f := fun p' q => q.stepsBelow p')
  obtain ⟨q, hq, hbelow⟩ := isDirectory_iff.mp hp
  rw [hswap]
  exact List.sum_lt_sum _ _ (fun _ _ => (Path.sum_stepsBelow_le hnodup hps).1)
    ⟨q, hq, (Path.sum_stepsBelow_le hnodup hps).2 hbelow⟩

end MemoryFiles

namespace Manifest

variable {fs : FileSystem} {fuel depth : Nat} {dir file : Spelling} {files : MemoryFiles} {q : Path}
  {list : Spelling → List Spelling} {w : Walk}

/-- The files just in a directory. -/
def filesIn (fs : FileSystem) (dir : Spelling) : List Spelling :=
  (fs.entriesIn dir).filter fun entry => !fs.isDirectory entry && fs.isFile entry

/-- The directories just in a directory. -/
def directoriesIn (fs : FileSystem) (dir : Spelling) : List Spelling :=
  (fs.entriesIn dir).filter fs.isDirectory

/-! ### Steps -/

namespace Walk

theorem step_cons (fs : FileSystem) (dir : Spelling) (pending found : List Spelling) :
    step fs ⟨dir :: pending, found⟩ = ⟨directoriesIn fs dir ++ pending, found ++ filesIn fs dir⟩ := by
  unfold step directoriesIn filesIn FileSystem.entriesIn
  dsimp only
  cases fs.readDirectory dir with
  | error error => simp [Except.toOption]
  | ok entries => simp [Except.toOption]

theorem run_of_done (fs : FileSystem) (fuel : Nat) (found : List Spelling) :
    run fs fuel ⟨[], found⟩ = ⟨[], found⟩ := by
  cases fuel <;> rfl

theorem run_cons (fs : FileSystem) (fuel : Nat) (dir : Spelling) (pending found : List Spelling) :
    run fs (fuel + 1) ⟨dir :: pending, found⟩ =
      run fs fuel ⟨directoriesIn fs dir ++ pending, found ++ filesIn fs dir⟩ := by
  rw [run, if_neg (by simp), step_cons]

/-- A walk finds files only. -/
theorem isFile_of_mem_run (hw : ∀ file ∈ w.files, fs.isFile file) :
    ∀ file ∈ (run fs fuel w).files, fs.isFile file := by
  induction fuel generalizing w with
  | zero => exact hw
  | succ fuel ih =>
      obtain ⟨pending, found⟩ := w
      cases pending with
      | nil => exact hw
      | cons dir pending =>
          rw [run_cons]
          apply ih
          intro file hfile
          rcases List.mem_append.mp hfile with hold | hnew
          · exact hw file hold
          · exact (Bool.and_eq_true_iff.mp (List.mem_filter.mp hnew).2).2

end Walk

theorem isFile_of_mem_walk (h : file ∈ walk fs dir) : fs.isFile file :=
  Walk.isFile_of_mem_run (w := { pending := [dir] }) (fun _ h => absurd h List.not_mem_nil) file h

/-! ### Pre-order -/

/-- The files below directories in pre-order: those just in a directory, in their order, and then those below the
directories in it, one directory after the other. -/
def IsPreorder (fs : FileSystem) (list : Spelling → List Spelling) : Prop :=
  ∀ dir, list dir = filesIn fs dir ++ (directoriesIn fs dir).flatMap list

/-- The same down to some depth only. -/
def preorder (fs : FileSystem) : Nat → Spelling → List Spelling
  | 0, _ => []
  | depth + 1, dir => filesIn fs dir ++ (directoriesIn fs dir).flatMap (preorder fs depth)

theorem mem_preorder_succ : file ∈ preorder fs (depth + 1) dir ↔
    ∃ entry ∈ fs.entriesIn dir,
      if fs.isDirectory entry then file ∈ preorder fs depth entry else fs.isFile entry ∧ file = entry := by
  rw [preorder]
  simp only [filesIn, directoriesIn, List.mem_append, List.mem_filter, List.mem_flatMap]
  constructor
  · rintro (⟨hentry, hfile⟩ | ⟨entry, ⟨hentry, hdirectory⟩, hfile⟩)
    · obtain ⟨hdirectory, hfile⟩ := Bool.and_eq_true_iff.mp hfile
      refine ⟨file, hentry, ?_⟩
      rw [Bool.not_eq_true'] at hdirectory
      rw [hdirectory]
      exact ⟨hfile, rfl⟩
    · exact ⟨entry, hentry, by rwa [if_pos hdirectory]⟩
  · rintro ⟨entry, hentry, hfile⟩
    split at hfile
    · rename_i hdirectory
      exact .inr ⟨entry, ⟨hentry, hdirectory⟩, hfile⟩
    · rename_i hdirectory
      obtain ⟨hfile, rfl⟩ := hfile
      exact .inl ⟨hentry, by simp [hdirectory, hfile]⟩

section

variable (hstorage : fs.storage = .memory files) (hwritten : ∀ p ∈ files.keys, p.Written)

include hstorage

theorem entriesIn_of_not_isDirectory (hdir : ¬ fs.isDirectory dir) : fs.entriesIn dir = [] := by
  rw [FileSystem.isDirectory_of_memory hstorage] at hdir
  rw [FileSystem.entriesIn_of_memory hstorage, MemoryFiles.children_eq_nil_iff.mpr hdir, List.map_nil]

theorem filesIn_of_not_isDirectory (hdir : ¬ fs.isDirectory dir) : filesIn fs dir = [] := by
  rw [filesIn, entriesIn_of_not_isDirectory hstorage hdir, List.filter_nil]

theorem directoriesIn_of_not_isDirectory (hdir : ¬ fs.isDirectory dir) : directoriesIn fs dir = [] := by
  rw [directoriesIn, entriesIn_of_not_isDirectory hstorage hdir, List.filter_nil]

theorem length_le_maxDirectories (hq : q ∈ files.keys) : q.components.length ≤ fs.maxDirectories := by
  unfold FileSystem.maxDirectories
  rw [hstorage]
  have hpart : q.components.Sublist (files.keys.flatMap (·.components)) :=
    List.sublist_flatten_of_mem (List.mem_map_of_mem hq)
  exact Nat.le_succ_of_le hpart.length_le

include hwritten

/-- What a walk still has to do becomes less with every directory that is listed. -/
theorem sum_directoriesIn_lt (hdir : fs.isDirectory dir) :
    ((directoriesIn fs dir).map fun entry => files.stepsBelow entry.path).sum < files.stepsBelow dir.path := by
  have hnodup : ((directoriesIn fs dir).map (·.path)).Nodup :=
    (FileSystem.nodup_entriesIn hstorage hwritten dir).sublist (List.filter_sublist.map _)
  have hnext : ∀ p ∈ (directoriesIn fs dir).map (·.path), p.JustBelow dir.path := by
    intro p hp
    obtain ⟨entry, hentry, rfl⟩ := List.mem_map.mp hp
    exact FileSystem.justBelow_of_mem_entriesIn hstorage hwritten (List.mem_filter.mp hentry).1
  rw [FileSystem.isDirectory_of_memory hstorage] at hdir
  have hlt := MemoryFiles.sum_stepsBelow_lt hnodup hnext hdir
  rwa [List.map_map] at hlt

/-- A run that may take all steps which its directories need ends with none pending, and has found all that is below
them, in pre-order. -/
theorem Walk.run_eq (hlist : IsPreorder fs list) {pending : List Spelling}
    (hpending : ∀ dir ∈ pending, fs.isDirectory dir)
    (hfuel : (pending.map fun dir => files.stepsBelow dir.path).sum ≤ fuel) (found : List Spelling) :
    run fs fuel ⟨pending, found⟩ = ⟨[], found ++ pending.flatMap list⟩ := by
  -- one directory is replaced by those in it, for which less fuel is needed
  induction fuel generalizing pending found with
  | zero =>
      cases pending with
      | nil => simp [run]
      | cons dir pending =>
          have hlt := sum_directoriesIn_lt hstorage hwritten (hpending dir List.mem_cons_self)
          rw [List.map_cons, List.sum_cons] at hfuel
          omega
  | succ fuel ih =>
      cases pending with
      | nil => simp [run]
      | cons dir pending =>
          have hlt := sum_directoriesIn_lt hstorage hwritten (hpending dir List.mem_cons_self)
          rw [run_cons, ih, List.flatMap_append, List.flatMap_cons, hlist dir]
          · simp only [List.append_assoc]
          · intro next hnext
            rcases List.mem_append.mp hnext with hbelow | hrest
            · exact (List.mem_filter.mp hbelow).2
            · exact hpending next (List.mem_cons_of_mem _ hrest)
          · rw [List.map_cons, List.sum_cons] at hfuel
            rw [List.map_append, List.sum_append]
            omega

/-- The walk down from a directory is never cut short. -/
theorem Walk.run_singleton (hlist : IsPreorder fs list) (hfuel : fs.maxDirectories ≤ fuel) (dir : Spelling) :
    run fs fuel { pending := [dir] } = ⟨[], list dir⟩ := by
  have hbound : (files.keys.flatMap (·.components)).length + 1 ≤ fuel := by
    unfold FileSystem.maxDirectories at hfuel
    rwa [hstorage] at hfuel
  by_cases hdir : fs.isDirectory dir
  · rw [run_eq hstorage hwritten hlist (by simpa using hdir), List.nil_append, List.flatMap_singleton]
    have hsteps := files.stepsBelow_le dir.path
    rw [List.map_singleton, List.sum_singleton]
    omega
  · obtain ⟨fuel, rfl⟩ : ∃ more, fuel = more + 1 := ⟨fuel - 1, by omega⟩
    rw [run_cons, hlist dir, filesIn_of_not_isDirectory hstorage hdir,
      directoriesIn_of_not_isDirectory hstorage hdir]
    exact run_of_done ..

theorem preorder_succ (hdepth : ∀ q ∈ files.keys, q.components.length ≤ dir.path.components.length + depth) :
    preorder fs (depth + 1) dir = preorder fs depth dir := by
  induction depth generalizing dir with
  | zero =>
      have hdir : ¬ fs.isDirectory dir := by
        rw [FileSystem.isDirectory_of_memory hstorage, MemoryFiles.isDirectory_iff]
        rintro ⟨q, hq, c, rest, hrest⟩
        have hlength := hdepth q hq
        rw [hrest, List.length_append, List.length_cons] at hlength
        omega
      rw [preorder, preorder, filesIn_of_not_isDirectory hstorage hdir, directoriesIn_of_not_isDirectory hstorage hdir]
      rfl
  | succ depth ih =>
      have hbelow : (directoriesIn fs dir).flatMap (preorder fs (depth + 1)) =
          (directoriesIn fs dir).flatMap (preorder fs depth) := by
        apply List.flatMap_congr
        intro entry hentry
        obtain ⟨c, hpath⟩ :=
          FileSystem.justBelow_of_mem_entriesIn hstorage hwritten (List.mem_filter.mp hentry).1
        apply ih
        intro q hq
        have hlength := hdepth q hq
        rw [hpath, List.length_append, List.length_singleton]
        omega
      rw [preorder, hbelow, ← preorder]

theorem isPreorder_preorder : IsPreorder fs (preorder fs fs.maxDirectories) := by
  intro dir
  rw [← preorder, preorder_succ hstorage hwritten]
  exact fun q hq => Nat.le_add_left_of_le (length_le_maxDirectories hstorage hq)

theorem walk_eq (hlist : IsPreorder fs list) (dir : Spelling) : walk fs dir = list dir := by
  unfold walk
  rw [Walk.run_singleton hstorage hwritten hlist le_rfl]

/-- There is one pre-order, and it is what walks find. -/
theorem isPreorder_iff : IsPreorder fs list ↔ list = walk fs := by
  constructor
  · exact fun hlist => funext fun dir => (walk_eq hstorage hwritten hlist dir).symm
  · rintro rfl
    have hwalk : walk fs = preorder fs fs.maxDirectories :=
      funext (walk_eq hstorage hwritten (isPreorder_preorder hstorage hwritten))
    rw [hwalk]
    exact isPreorder_preorder hstorage hwritten

/-! ### What is found -/

/-- What the walk finds is below the directory, with no other file below it. -/
theorem below_of_mem_preorder (h : file ∈ preorder fs depth dir) :
    file.path ∈ files.keys ∧ file.path.Below dir.path ∧ ¬ files.isDirectory file.path := by
  induction depth generalizing dir with
  | zero => exact absurd h List.not_mem_nil
  | succ depth ih =>
      obtain ⟨entry, hentry, hfile⟩ := mem_preorder_succ.mp h
      obtain ⟨c, hpath⟩ := FileSystem.justBelow_of_mem_entriesIn hstorage hwritten hentry
      split at hfile
      · obtain ⟨hkey, ⟨d, rest, hbelow⟩, hnone⟩ := ih hfile
        refine ⟨hkey, ⟨c, d :: rest, ?_⟩, hnone⟩
        rw [hbelow, hpath, List.append_assoc]
        rfl
      · rename_i hnone
        obtain ⟨hkey, rfl⟩ := hfile
        rw [FileSystem.isDirectory_of_memory hstorage] at hnone
        exact ⟨(FileSystem.isFile_of_memory hstorage _).mp hkey, ⟨c, [], by rw [hpath]⟩, hnone⟩

/-- A walk finds such a file if it goes as deep as that is. -/
theorem exists_mem_preorder (hq : q ∈ files.keys) (hbelow : q.Below dir.path) (hnone : ¬ files.isDirectory q)
    (hdepth : q.components.length ≤ dir.path.components.length + depth) :
    ∃ file ∈ preorder fs depth dir, file.path = q := by
  induction depth generalizing dir with
  | zero =>
      obtain ⟨c, rest, hrest⟩ := hbelow
      rw [hrest, List.length_append, List.length_cons] at hdepth
      omega
  | succ depth ih =>
      obtain ⟨c, rest, hrest⟩ := hbelow
      have hc : c ∈ files.children dir.path := MemoryFiles.mem_children.mpr ⟨q, hq, rest, hrest⟩
      obtain ⟨entry, hentry, hpath⟩ := FileSystem.exists_mem_entriesIn hstorage hwritten hc
      cases rest with
      | nil =>
          have hfound : entry.path = q := by rw [hpath, ← hrest]
          refine ⟨entry, mem_preorder_succ.mpr ⟨_, hentry, ?_⟩, hfound⟩
          rw [FileSystem.isDirectory_of_memory hstorage, hfound, if_neg hnone]
          exact ⟨(FileSystem.isFile_of_memory hstorage _).mpr (hfound ▸ hq), rfl⟩
      | cons d rest =>
          have hdeeper : q.Below entry.path := by
            refine ⟨d, rest, ?_⟩
            rw [hrest, hpath, List.append_assoc]
            rfl
          have hdepth' : q.components.length ≤ entry.path.components.length + depth := by
            rw [hpath, List.length_append, List.length_singleton]
            omega
          obtain ⟨file, hfile, hfound⟩ := ih hdeeper hdepth'
          refine ⟨file, mem_preorder_succ.mpr ⟨_, hentry, ?_⟩, hfound⟩
          rw [FileSystem.isDirectory_of_memory hstorage,
            if_pos (MemoryFiles.isDirectory_iff.mpr ⟨q, hq, hdeeper⟩)]
          exact hfile

/-- Where all paths can be written, the walk finds all files below a directory, but for those below which there are
others. -/
theorem exists_mem_walk_iff :
    (∃ file ∈ walk fs dir, file.path = q) ↔ q ∈ files.keys ∧ q.Below dir.path ∧ ¬ files.isDirectory q := by
  rw [walk_eq hstorage hwritten (isPreorder_preorder hstorage hwritten)]
  constructor
  · rintro ⟨file, hfile, rfl⟩
    exact below_of_mem_preorder hstorage hwritten hfile
  · rintro ⟨hq, hbelow, hnone⟩
    exact exists_mem_preorder hstorage hwritten hq hbelow hnone
      (Nat.le_add_left_of_le (length_le_maxDirectories hstorage hq))

theorem exists_mem_walkFiles_iff (p : Path) : (∃ file ∈ walkFiles fs p, file.path = q) ↔
    q ∈ files.keys ∧ q.Below p ∧ ¬ files.isDirectory q :=
  exists_mem_walk_iff hstorage hwritten

end

end Manifest

end ProjectTracker
