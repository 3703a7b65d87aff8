import Mathlib.Logic.Function.Iterate
import ProjectTracker.FileSystem.Basic
import ProjectTracker.Path.Normalizer
/-!
A file system lists all files that can be read by normal paths. On a disk a relative path may climb above the
root, and lead to a file that has shorter paths. It is listed by all of them that are short enough to be read.
-/

namespace ProjectTracker

namespace Path

/-- An absolute path that goes down from the root, name by name. -/
def Descends (p : Path) : Prop :=
  ∃ names : List String, p.components = .root :: names.map .name

/-- What cleaning has gathered from an absolute path, the last component first. -/
def Descending (done : List Component) : Prop :=
  ∃ names : List String, done = names.map .name ++ [.root]

theorem descending_cleanStep {done : List Component} (h : Descending done) (c : Component) :
    Descending (cleanStep done c) := by
  obtain ⟨names, rfl⟩ := h
  cases c with
  | root => exact ⟨[], rfl⟩
  | here => exact ⟨names, rfl⟩
  | name text => exact ⟨text :: names, rfl⟩
  | parent =>
      cases names with
      | nil => exact ⟨[], rfl⟩
      | cons last rest => exact ⟨rest, rfl⟩

theorem descending_foldl {done : List Component} (h : Descending done)
    (components : List Component) : Descending (components.foldl cleanStep done) := by
  induction components generalizing done with
  | nil => exact h
  | cons c components ih => exact ih (descending_cleanStep h c)

theorem descends_clean {p : Path} (h : Descending (p.components.foldl cleanStep [])) :
    p.clean.Descends := by
  obtain ⟨names, hdone⟩ := h
  refine ⟨names.reverse, ?_⟩
  unfold clean
  rw [hdone]
  cases names <;> simp

/-- A relative path that goes up some steps and then down, name by name. -/
def Climbs (p : Path) : Prop :=
  ∃ (ups : Nat) (names : List String),
    p.components = List.replicate ups .parent ++ names.map .name

/-- What cleaning has gathered from a relative path, the last component first. -/
def Climbing (done : List Component) : Prop :=
  ∃ (names : List String) (ups : Nat), done = names.map .name ++ List.replicate ups .parent

theorem climbing_cleanStep {done : List Component} (h : Climbing done) (c : Component) :
    Descending (cleanStep done c) ∨ Climbing (cleanStep done c) := by
  obtain ⟨names, ups, rfl⟩ := h
  cases c with
  | root => exact .inl ⟨[], rfl⟩
  | here => exact .inr ⟨names, ups, rfl⟩
  | name text => exact .inr ⟨text :: names, ups, rfl⟩
  | parent =>
      cases names with
      | nil =>
          refine .inr ⟨[], ups + 1, ?_⟩
          cases ups <;> rfl
      | cons last rest => exact .inr ⟨rest, ups, rfl⟩

theorem climbing_foldl {done : List Component} (h : Climbing done) (components : List Component) :
    Descending (components.foldl cleanStep done) ∨ Climbing (components.foldl cleanStep done) := by
  induction components generalizing done with
  | nil => exact .inr h
  | cons c components ih =>
      rcases climbing_cleanStep h c with hroot | hrelative
      · exact .inl (descending_foldl hroot components)
      · exact ih hrelative

/-- A clean path goes down from the root, or up and down from where it is seen, or is that place itself. -/
theorem clean_cases (p : Path) : p.clean.Descends ∨ p.clean.Climbs ∨ p.clean = ⟨[.here]⟩ := by
  have hstart : Climbing [] := ⟨[], 0, rfl⟩
  rcases climbing_foldl hstart p.components with hroot | ⟨names, ups, hdone⟩
  · exact .inl (descends_clean hroot)
  · right
    unfold clean
    rw [hdone]
    split
    · exact .inr rfl
    · refine .inl ⟨ups, names.reverse, ?_⟩
      simp

end Path

namespace Normalizer

theorem descends_lower {p : Path} (h : p.Descends) :
    Path.Descends ⟨p.components.map lowerComponent⟩ := by
  obtain ⟨names, hnames⟩ := h
  refine ⟨names.map fun text => String.ofList (Text.toLower text.toList), ?_⟩
  simp [hnames, lowerComponent]

theorem climbs_lower {p : Path} (h : p.Climbs) : Path.Climbs ⟨p.components.map lowerComponent⟩ := by
  obtain ⟨ups, names, hnames⟩ := h
  refine ⟨ups, names.map fun text => String.ofList (Text.toLower text.toList), ?_⟩
  simp [hnames, lowerComponent]

theorem normalize_cases (n : Normalizer) (p : Path) : (n.normalize p).Descends ∨
    (n.normalize p).Climbs ∨ n.normalize p = ⟨[.here]⟩ := by
  unfold normalize
  dsimp only
  split
  · exact (n.base.join p).clean_cases
  · rcases (n.base.join p).clean_cases with hdescends | hclimbs | hhere
    · exact .inl (descends_lower hdescends)
    · exact .inr (.inl (climbs_lower hclimbs))
    · rw [hhere]
      exact .inr (.inr rfl)

end Normalizer

namespace Disk

/-- From a place on, names lead down, as far as they lead anywhere. -/
theorem foldlM_walkStep_names {disk : Disk} {names : List String} {start place : Path}
    (h : (names.map Component.name).foldlM disk.walkStep start = .ok place) :
    place.components = start.components ++ names.map .name := by
  induction names generalizing start with
  | nil =>
      obtain rfl : start = place := Except.ok.inj h
      simp
  | cons name names ih =>
      rw [List.map_cons, List.foldlM_cons] at h
      cases hstep : disk.walkStep start (.name name) with
      | error e => simp [hstep, bind, Except.bind] at h
      | ok next =>
          rw [hstep] at h
          have hnext : next.components = start.components ++ [.name name] := by
            unfold walkStep at hstep
            rw [if_neg (by simp)] at hstep
            split at hstep
            · simp at hstep
            · simp at hstep
            · dsimp only at hstep
              split at hstep
              · simp at hstep
              · rw [← Except.ok.inj hstep]
          rw [ih h, hnext]
          simp

theorem walk_of_descends {disk : Disk} {p place : Path} (hp : p.Descends)
    (h : disk.walk p = .ok place) : place = p := by
  obtain ⟨names, hnames⟩ := hp
  unfold walk at h
  split at h
  · simp at h
  · rw [hnames, List.foldlM_cons] at h
    have hplace : place.components = Path.root.components ++ names.map .name :=
      foldlM_walkStep_names h
    obtain ⟨components⟩ := place
    obtain ⟨components'⟩ := p
    have hnames' : components' = .root :: names.map .name := hnames
    have hplace' : components = .root :: names.map .name := hplace
    rw [hnames', hplace']

theorem find_eq_ok {disk : Disk} {s : Spelling} {place : Path} {entry : DiskEntry}
    (h : disk.find s = .ok (place, entry)) :
    disk.walk s.path = .ok place ∧ disk.get? place = some entry ∧
      s.text.utf8ByteSize ≤ maxPathLength := by
  unfold find at h
  simp only [bind, Except.bind, pure, Except.pure, throw, throwThe, MonadExceptOf.throw] at h
  split at h
  · simp at h
  · cases hwalk : disk.walk s.path with
    | error e =>
        rw [hwalk] at h
        split at h <;> simp at h
    | ok place' =>
        have hnul : hasNul s.path = false := by
          unfold walk at hwalk
          split at hwalk
          · simp at hwalk
          · exact Bool.eq_false_iff.mpr ‹_›
        rw [hwalk, hnul] at h
        split at h
        · simp at h
        · rename_i hlength
          have hlength : s.text.utf8ByteSize ≤ maxPathLength := by simpa using hlength
          dsimp only at h
          split at h
          · simp at h
          · split at h
            · simp at h
            · obtain ⟨rfl, rfl⟩ := Prod.mk.inj (Except.ok.inj h)
              exact ⟨rfl, ‹_›, hlength⟩
          · obtain ⟨rfl, rfl⟩ := Prod.mk.inj (Except.ok.inj h)
            exact ⟨rfl, ‹_›, hlength⟩

theorem mem_entries_of_get? {disk : Disk} {place : Path} {text? : Option Text}
    (h : disk.get? place = some (.file text?)) :
    (place, DiskEntry.file text?) ∈ disk.entries.entries := by
  unfold get? at h
  split at h
  · simp at h
  · exact Table.mem_entries_of_get? h

/-- A path of a file that can be read leads to the file, and is not too long. -/
theorem read_eq_ok {disk : Disk} {p : Path} {text : Text} (h : disk.read (.ofPath p) = .ok text) :
    ∃ place text?, disk.walk p = .ok place ∧ disk.get? place = some (.file text?) ∧
      p.render.utf8ByteSize ≤ maxPathLength := by
  unfold read at h
  cases hfind : disk.find (.ofPath p) with
  | error e => simp [hfind, bind, Except.bind] at h
  | ok found =>
      obtain ⟨place, entry⟩ := found
      obtain ⟨hwalk, hentry, hlength⟩ := find_eq_ok hfind
      rw [hfind] at h
      cases entry with
      | directory => simp [bind, Except.bind, throw, throwThe, MonadExceptOf.throw] at h
      | file text? => exact ⟨place, text?, hwalk, hentry, hlength⟩

theorem mem_filePaths_of_descends {disk : Disk} {p : Path} {text : Text} (hp : p.Descends)
    (h : disk.read (.ofPath p) = .ok text) : p ∈ disk.filePaths := by
  obtain ⟨place, text?, hwalk, hentry, -⟩ := read_eq_ok h
  obtain rfl := walk_of_descends hp hwalk
  exact List.mem_flatMap.mpr ⟨_, mem_entries_of_get? hentry, List.mem_cons_self ..⟩

/-! ### Relative paths -/

theorem foldlM_walkStep_parents {disk : Disk} {ups : Nat} {rest : List Component} {start place : Path}
    (h : (List.replicate ups Component.parent ++ rest).foldlM disk.walkStep start = .ok place) :
    rest.foldlM disk.walkStep (above^[ups] start) = .ok place := by
  induction ups generalizing start with
  | zero => exact h
  | succ ups ih =>
      rw [List.replicate_succ, List.cons_append, List.foldlM_cons] at h
      cases hstep : disk.walkStep start .parent with
      | error e => simp [hstep, bind, Except.bind] at h
      | ok next =>
          rw [hstep] at h
          have hnext : next = above start := by
            unfold walkStep at hstep
            rw [if_neg (by simp)] at hstep
            split at hstep
            · simp at hstep
            · simp at hstep
            · exact (Except.ok.inj hstep).symm
          exact ih (hnext ▸ h)

theorem iterate_above_root (count : Nat) : above^[count] Path.root = Path.root := by
  induction count with
  | zero => rfl
  | succ count ih => exact ih

theorem mem_climbing {count ups : Nat} (h : ups < count) (form : List Component) :
    ⟨List.replicate ups .parent ++ form⟩ ∈ climbing count form := by
  induction count generalizing ups form with
  | zero => omega
  | succ count ih =>
      unfold climbing
      cases ups with
      | zero => exact List.mem_cons_self ..
      | succ ups =>
          have hmem : ⟨List.replicate ups .parent ++ .parent :: form⟩ ∈ climbing count (.parent :: form) :=
            ih (Nat.lt_of_succ_lt_succ h) _
          rw [List.replicate_succ', List.append_assoc]
          exact List.mem_cons_of_mem _ hmem

/-- The steps up lead to a place, and the rest of the path below it to the file. -/
theorem mem_formsFrom {p place : Path} {count ups : Nat} {below : List Component} (h : ups < count)
    (hp : p.components = (above^[ups] place).components ++ below) (made : List Component) :
    ⟨List.replicate ups .parent ++ (made ++ below)⟩ ∈ formsFrom p count place made := by
  induction count generalizing ups place made with
  | zero => omega
  | succ count ih =>
      unfold formsFrom
      split
      · rename_i hroot
        rw [hroot, iterate_above_root] at hp
        have habsolute : p.isAbsolute := by
          apply decide_eq_true
          rw [hp]
          rfl
        have hbelow : p.components.drop 1 = below := by
          rw [hp]
          rfl
        rw [if_pos habsolute, hbelow]
        exact mem_climbing h _
      · dsimp only
        cases ups with
        | zero =>
            have hp : p.components = place.components ++ below := hp
            have hprefix : place.components.isPrefixOf p.components := by
              rw [List.isPrefixOf_iff_prefix, hp]
              exact List.prefix_append ..
            rw [if_pos hprefix, hp, List.drop_left]
            exact List.mem_cons_self ..
        | succ ups =>
            have hmem : ⟨List.replicate ups .parent ++ (.parent :: made ++ below)⟩ ∈
                formsFrom p count (above place) (.parent :: made) :=
              ih (Nat.lt_of_succ_lt_succ h) hp _
            have hform : List.replicate (ups + 1) Component.parent ++ (made ++ below) =
                List.replicate ups .parent ++ (.parent :: made ++ below) := by
              rw [List.replicate_succ', List.append_assoc]
              rfl
            rw [hform]
            split
            · exact List.mem_cons_of_mem _ hmem
            · exact hmem

/-- Every step up takes three bytes, but for the slash after the last one. -/
theorem le_utf8ByteSize_intercalate (ups : Nat) (texts : List String) :
    3 * ups ≤ ("/".intercalate (List.replicate ups ".." ++ texts)).utf8ByteSize + 1 := by
  induction ups with
  | zero => exact Nat.zero_le _
  | succ ups ih =>
      have hup : "..".utf8ByteSize = 2 := by decide
      have hslash : "/".utf8ByteSize = 1 := by decide
      rw [List.replicate_succ, List.cons_append]
      cases hrest : List.replicate ups ".." ++ texts with
      | nil =>
          rw [hrest] at ih
          have hnone : "".utf8ByteSize = 0 := by decide
          rw [String.intercalate_nil, hnone] at ih
          rw [String.intercalate_singleton, hup]
          omega
      | cons first rest =>
          rw [hrest] at ih
          rw [String.intercalate_cons_cons, String.utf8ByteSize_append, String.utf8ByteSize_append, hup,
            hslash]
          omega

theorem le_utf8ByteSize_render {p : Path} {ups : Nat} {names : List String}
    (hp : p.components = List.replicate ups .parent ++ names.map .name) :
    3 * ups ≤ p.render.utf8ByteSize + 1 := by
  have hrender : p.render = "/".intercalate (List.replicate ups ".." ++ names) := by
    have htexts : p.components.map Component.render = List.replicate ups ".." ++ names := by
      have hname : Component.render ∘ Component.name = id := rfl
      simp [hp, hname, Component.render]
    unfold Path.render
    split
    · rename_i hroot
      rw [hroot] at hp
      cases ups with
      | zero => cases names <;> simp at hp
      | succ ups => simp [List.replicate_succ] at hp
    · rw [htexts]
  rw [hrender]
  exact le_utf8ByteSize_intercalate ..

theorem mem_filePaths_of_climbs {disk : Disk} {p : Path} {text : Text} (hp : p.Climbs)
    (h : disk.read (.ofPath p) = .ok text) : p ∈ disk.filePaths := by
  obtain ⟨ups, names, hnames⟩ := hp
  obtain ⟨place, text?, hwalk, hentry, hlength⟩ := read_eq_ok h
  have hups : ups < maxPathLength / 3 + 1 := by
    have hsize := le_utf8ByteSize_render hnames
    unfold maxPathLength at hlength ⊢
    omega
  have hplace : place.components =
      (above^[ups] disk.workingDirectory).components ++ names.map .name := by
    unfold walk at hwalk
    split at hwalk
    · simp at hwalk
    · rw [hnames] at hwalk
      exact foldlM_walkStep_names (foldlM_walkStep_parents hwalk)
  have hform := mem_formsFrom hups hplace []
  refine List.mem_flatMap.mpr ⟨_, mem_entries_of_get? hentry, List.mem_cons_of_mem _ ?_⟩
  rwa [List.nil_append, ← hnames] at hform

/-- The place itself is a directory, or leads nowhere. -/
theorem read_here {disk : Disk} {text : Text} : disk.read (.ofPath ⟨[.here]⟩) ≠ .ok text := by
  intro h
  obtain ⟨place, text?, hwalk, hentry, -⟩ := read_eq_ok h
  have hstep : disk.walkStep disk.workingDirectory .here = .ok place := by
    unfold walk at hwalk
    split at hwalk
    · simp at hwalk
    · simpa using hwalk
  unfold walkStep at hstep
  rw [if_neg (by simp)] at hstep
  split at hstep
  · simp at hstep
  · simp at hstep
  · rename_i hdirectory
    obtain rfl := Except.ok.inj hstep
    simp [hdirectory] at hentry

end Disk

namespace FileSystem

theorem mem_filePaths_of_memory {fs : FileSystem} {files : MemoryFiles}
    (h : fs.storage = .memory files) {p : Path} (hread : (fs.text? p).isSome) :
    p ∈ fs.filePaths := by
  unfold text? read at hread
  unfold filePaths
  rw [h] at hread ⊢
  split at hread
  · simp [Except.toOption] at hread
  · dsimp only at hread ⊢
    rw [Table.mem_keys_iff]
    unfold MemoryFiles.read at hread
    cases hfile : files.get? p with
    | some text => rfl
    | none =>
        have hfile' : files.get? (Spelling.ofPath p).path = none := hfile
        simp [hfile', Except.toOption] at hread

/-- A normal path of a file that can be read is listed. -/
theorem normalize_mem_filePaths {fs : FileSystem} {n : Normalizer} {p : Path}
    (hread : (fs.text? (n.normalize p)).isSome) : n.normalize p ∈ fs.filePaths := by
  cases hstorage : fs.storage with
  | memory files => exact mem_filePaths_of_memory hstorage hread
  | disk disk =>
      unfold text? read at hread
      unfold filePaths
      rw [hstorage] at hread ⊢
      split at hread
      · simp [Except.toOption] at hread
      · dsimp only at hread ⊢
        cases htext : disk.read (.ofPath (n.normalize p)) with
        | error e => simp [htext, Except.toOption] at hread
        | ok text =>
            rcases n.normalize_cases p with hdescends | hclimbs | hhere
            · exact Disk.mem_filePaths_of_descends hdescends htext
            · exact Disk.mem_filePaths_of_climbs hclimbs htext
            · exact absurd (hhere ▸ htext) Disk.read_here

end FileSystem

end ProjectTracker
