import ProjectTracker.FileSystem.Basic
import ProjectTracker.Proofs.Path.Order
import ProjectTracker.Proofs.Path.Writing

/-!
Directories of files in memory. There is a directory wherever a file lies below, and it holds the files and directories
just below it, each once and in the order of paths.
-/

namespace ProjectTracker

namespace Path

/-- A path that goes on from another one. -/
def Below (q p : Path) : Prop :=
  ∃ c rest, q.components = p.components ++ c :: rest

theorem below_iff {p q : Path} : q.Below p ↔ (q.startsWith p && q ≠ p) = true := by
  rw [Bool.and_eq_true, decide_eq_true_iff]
  unfold Below startsWith
  rw [List.isPrefixOf_iff_prefix]
  constructor
  · rintro ⟨c, rest, h⟩
    refine ⟨⟨_, h.symm⟩, ?_⟩
    rintro rfl
    simp at h
  · rintro ⟨⟨below, h⟩, hne⟩
    cases below with
    | nil => exact absurd (congrArg Path.mk ((List.append_nil _).symm.trans h)).symm hne
    | cons c rest => exact ⟨c, rest, h.symm⟩

instance (q p : Path) : Decidable (q.Below p) :=
  decidable_of_iff _ below_iff.symm

/-- A path that goes on from another one by one component. -/
def JustBelow (q p : Path) : Prop :=
  ∃ c, q.components = p.components ++ [c]

/-- A path goes down through one place at every depth. -/
theorem JustBelow.eq_of_append {p p₁ p₂ q : Path} (h₁ : p₁.JustBelow p) (h₂ : p₂.JustBelow p)
    {rest₁ rest₂ : List Component} (hq₁ : q.components = p₁.components ++ rest₁)
    (hq₂ : q.components = p₂.components ++ rest₂) : p₁ = p₂ := by
  obtain ⟨c₁, hc₁⟩ := h₁
  obtain ⟨c₂, hc₂⟩ := h₂
  have hlength : p₁.components.length = p₂.components.length := by simp [hc₁, hc₂]
  have hcomponents := (List.append_inj (hq₁.symm.trans hq₂) hlength).1
  exact congrArg Path.mk hcomponents

theorem JustBelow.not_below {p p' q : Path} (h : q.JustBelow p) (h' : p'.JustBelow p) : ¬ q.Below p' := by
  obtain ⟨c, hc⟩ := h
  obtain ⟨c', hc'⟩ := h'
  rintro ⟨d, rest, hd⟩
  have hlength := congrArg List.length hd
  simp only [hc, hc', List.length_append, List.length_cons, List.length_nil] at hlength
  omega

end Path

namespace MemoryFiles

variable {files : MemoryFiles} {p q : Path} {c d : Component}

theorem mem_insertComponent {cs : List Component} : d ∈ insertComponent c cs ↔ d = c ∨ d ∈ cs := by
  induction cs with
  | nil => exact List.mem_singleton.trans (by simp)
  | cons first rest ih =>
      unfold insertComponent
      split
      · rename_i hfirst
        simp [hfirst]
      · split
        · exact List.mem_cons
        · rw [List.mem_cons, ih, List.mem_cons]
          exact or_left_comm

theorem pairwise_insertComponent {cs : List Component} (h : cs.Pairwise (· < ·)) :
    (insertComponent c cs).Pairwise (· < ·) := by
  induction cs with
  | nil => exact List.pairwise_singleton ..
  | cons first rest ih =>
      obtain ⟨hfirst, hrest⟩ := List.pairwise_cons.mp h
      unfold insertComponent
      split
      · exact h
      · rename_i hne
        split
        · rename_i hlt
          refine List.pairwise_cons.mpr ⟨fun d hd => ?_, h⟩
          rcases List.mem_cons.mp hd with rfl | hd
          · exact hlt
          · exact Component.lt_trans hlt (hfirst d hd)
        · rename_i hlt
          refine List.pairwise_cons.mpr ⟨fun d hd => ?_, ih hrest⟩
          rcases mem_insertComponent.mp hd with rfl | hd
          · exact Component.lt_of_not_lt hne hlt
          · exact hfirst d hd

theorem childOf_eq_some : childOf p q = some c ↔ ∃ rest, q.components = p.components ++ c :: rest := by
  unfold childOf Path.startsWith
  constructor
  · intro h
    split at h
    · rename_i hprefix
      obtain ⟨below, hbelow⟩ := List.isPrefixOf_iff_prefix.mp hprefix
      rw [← hbelow, List.drop_left, List.head?_eq_some_iff] at h
      obtain ⟨rest, rfl⟩ := h
      exact ⟨rest, hbelow.symm⟩
    · simp at h
  · rintro ⟨rest, hrest⟩
    rw [if_pos (List.isPrefixOf_iff_prefix.mpr ⟨_, hrest.symm⟩), hrest, List.drop_left]
    rfl

theorem mem_children : c ∈ files.children p ↔
    ∃ q ∈ files.keys, ∃ rest, q.components = p.components ++ c :: rest := by
  have hfold (cs : List Component) : c ∈ cs.foldr insertComponent [] ↔ c ∈ cs := by
    induction cs with
    | nil => rfl
    | cons d cs ih => rw [List.foldr_cons, mem_insertComponent, ih, List.mem_cons]
  unfold children
  rw [hfold, List.mem_filterMap]
  simp only [childOf_eq_some]

/-- The components just below a path stand in order, each once. -/
theorem pairwise_children (files : MemoryFiles) (p : Path) : (files.children p).Pairwise (· < ·) := by
  unfold children
  induction files.keys.filterMap (childOf p) with
  | nil => exact .nil
  | cons c cs ih => exact pairwise_insertComponent ih

theorem isDirectory_iff : files.isDirectory p ↔ ∃ q ∈ files.keys, q.Below p := by
  unfold isDirectory
  rw [List.any_eq_true]
  simp only [Path.below_iff]

theorem children_eq_nil_iff : files.children p = [] ↔ ¬ files.isDirectory p := by
  rw [isDirectory_iff, List.eq_nil_iff_forall_not_mem]
  constructor
  · rintro hnone ⟨q, hq, c, rest, hrest⟩
    exact hnone c (mem_children.mpr ⟨q, hq, rest, hrest⟩)
  · intro hnone c hc
    obtain ⟨q, hq, rest, hrest⟩ := mem_children.mp hc
    exact hnone ⟨q, hq, c, rest, hrest⟩

/-- A directory can be listed, and nothing else. -/
theorem exists_readDirectory_iff {dir : Spelling} :
    (∃ entries, files.readDirectory dir = .ok entries) ↔ files.isDirectory dir.path := by
  rw [← not_iff_not, ← children_eq_nil_iff]
  unfold readDirectory
  split
  · rename_i hnone
    simp [hnone]
  · rename_i hsome
    exact iff_of_false (by simp) hsome

theorem mem_children_iff : c ∈ files.children p ↔
    ⟨p.components ++ [c]⟩ ∈ files.keys ∨ files.isDirectory ⟨p.components ++ [c]⟩ := by
  rw [mem_children, isDirectory_iff]
  unfold Path.Below
  constructor
  · rintro ⟨⟨components⟩, hq, rest, rfl⟩
    cases rest with
    | nil => exact .inl hq
    | cons d rest => exact .inr ⟨_, hq, d, rest, by simp⟩
  · rintro (hq | ⟨q, hq, d, rest, hrest⟩)
    · exact ⟨_, hq, [], rfl⟩
    · exact ⟨q, hq, d :: rest, by simpa using hrest⟩

/-! ### Paths that can be written -/

theorem written_insert (h : ∀ q ∈ files.keys, q.Written) (hp : p.Written) (text : Text) :
    ∀ q ∈ (files.insert p text).keys, q.Written := by
  intro q hq
  rw [Table.mem_keys_iff, Table.get?_insert] at hq
  split at hq
  · rename_i hsame
    exact hsame ▸ hp
  · exact h q (Table.mem_keys_iff.mpr hq)

/-- Files stand under paths that can be written if they are put there under such paths. -/
theorem written_ofList {entries : List (Path × Text)} (h : ∀ entry ∈ entries, entry.1.Written) :
    ∀ q ∈ (Table.ofList entries).keys, q.Written := by
  have hfold (start : MemoryFiles) (hstart : ∀ q ∈ start.keys, q.Written) :
      ∀ q ∈ (entries.foldl (fun t entry => t.insert entry.1 entry.2) start).keys, q.Written := by
    induction entries generalizing start with
    | nil => exact hstart
    | cons entry entries ih =>
        refine ih (fun e he => h e (List.mem_cons_of_mem _ he)) _ ?_
        exact written_insert hstart (h entry List.mem_cons_self) entry.2
  exact hfold ∅ fun _ hq => absurd hq List.not_mem_nil

end MemoryFiles

namespace FileSystem

/-- What lies just in a directory: nothing where it cannot be listed. -/
def entriesIn (fs : FileSystem) (dir : Spelling) : List Spelling :=
  (fs.readDirectory dir).toOption.getD []

section

variable {fs : FileSystem} {files : MemoryFiles} (h : fs.storage = .memory files)

include h

theorem isFile_of_memory (s : Spelling) : fs.isFile s ↔ s.path ∈ files.keys := by
  unfold isFile
  rw [h, Table.mem_keys_iff]
  rfl

theorem isDirectory_of_memory (s : Spelling) : fs.isDirectory s = files.isDirectory s.path := by
  unfold isDirectory
  rw [h]

theorem readDirectory_of_memory (s : Spelling) : fs.readDirectory s = files.readDirectory s := by
  unfold readDirectory
  rw [h]

theorem entriesIn_of_memory (dir : Spelling) :
    fs.entriesIn dir = (files.children dir.path).map fun c => dir.join c.render := by
  unfold entriesIn
  rw [readDirectory_of_memory h]
  unfold MemoryFiles.readDirectory
  split
  · rename_i hnone
    rw [hnone]
    rfl
  · rfl

variable (hwritten : ∀ p ∈ files.keys, p.Written)

include hwritten

/-- Where all paths can be written, the entries of a directory are the paths one component longer. -/
theorem map_path_entriesIn (dir : Spelling) : (fs.entriesIn dir).map (·.path) =
    (files.children dir.path).map fun c => ⟨dir.path.components ++ [c]⟩ := by
  rw [entriesIn_of_memory h, List.map_map]
  apply List.map_congr_left
  intro c hc
  obtain ⟨p, hp, rest, hrest⟩ := MemoryFiles.mem_children.mp hc
  exact Spelling.path_join_render (hwritten p hp) hrest

theorem pairwise_entriesIn (dir : Spelling) : ((fs.entriesIn dir).map (·.path)).Pairwise (· < ·) := by
  rw [map_path_entriesIn h hwritten, List.pairwise_map]
  exact (files.pairwise_children dir.path).imp Path.append_lt_append.mpr

theorem nodup_entriesIn (dir : Spelling) : ((fs.entriesIn dir).map (·.path)).Nodup :=
  (pairwise_entriesIn h hwritten dir).imp Path.ne_of_lt

/-- In a directory there are just the files and directories one component below. -/
theorem mem_map_path_entriesIn {dir : Spelling} {q : Path} : q ∈ (fs.entriesIn dir).map (·.path) ↔
    q.JustBelow dir.path ∧ (q ∈ files.keys ∨ files.isDirectory q) := by
  rw [map_path_entriesIn h hwritten, List.mem_map]
  constructor
  · rintro ⟨c, hc, rfl⟩
    exact ⟨⟨c, rfl⟩, MemoryFiles.mem_children_iff.mp hc⟩
  · rintro ⟨⟨c, hc⟩, hq⟩
    obtain rfl : q = ⟨dir.path.components ++ [c]⟩ := congrArg Path.mk hc
    exact ⟨c, MemoryFiles.mem_children_iff.mpr hq, rfl⟩

theorem justBelow_of_mem_entriesIn {dir entry : Spelling} (hentry : entry ∈ fs.entriesIn dir) :
    entry.path.JustBelow dir.path :=
  ((mem_map_path_entriesIn h hwritten).mp (List.mem_map_of_mem hentry)).1

theorem exists_mem_entriesIn {dir : Spelling} {c : Component} (hc : c ∈ files.children dir.path) :
    ∃ entry ∈ fs.entriesIn dir, entry.path = ⟨dir.path.components ++ [c]⟩ := by
  have hpath : ⟨dir.path.components ++ [c]⟩ ∈ (fs.entriesIn dir).map (·.path) := by
    rw [map_path_entriesIn h hwritten]
    exact List.mem_map_of_mem hc
  exact List.mem_map.mp hpath

end

end FileSystem

end ProjectTracker
