import ProjectTracker.Proofs.Manifest.Walking

/-!
Files in memory as a tree. Where no file is below another one, directories and files are the inner nodes and the leaves
of a tree: just the directories can be listed, and a walk down from any of them is the pre-order of the files below it,
each of which it finds once.
-/

namespace ProjectTracker.Manifest

variable {fs : FileSystem} {files : MemoryFiles} (hstorage : fs.storage = .memory files)
  (hwritten : ∀ p ∈ files.keys, p.Written)

include hstorage hwritten

/-- No file is found twice. Those just in a directory are above all others, and different directories in it have
nothing in common. -/
theorem nodup_preorder (depth : Nat) (dir : Spelling) : ((preorder fs depth dir).map (·.path)).Nodup := by
  induction depth generalizing dir with
  | zero => exact .nil
  | succ depth ih =>
      have hentries := FileSystem.nodup_entriesIn hstorage hwritten dir
      have hplace {entry : Spelling} (hentry : entry ∈ fs.entriesIn dir) : entry.path.JustBelow dir.path :=
        FileSystem.justBelow_of_mem_entriesIn hstorage hwritten hentry
      have hdeeper {entry : Spelling} {p : Path} (hp : p ∈ (preorder fs depth entry).map (·.path)) :
          p.Below entry.path := by
        obtain ⟨file, hfile, rfl⟩ := List.mem_map.mp hp
        exact (below_of_mem_preorder hstorage hwritten hfile).2.1
      rw [preorder, List.map_append, List.map_flatMap, List.nodup_append, List.nodup_flatMap]
      refine ⟨hentries.sublist (List.filter_sublist.map _), ⟨fun entry _ => ih entry, ?_⟩, ?_⟩
      · have hdirectories := (List.pairwise_map.mp hentries).sublist
          (List.filter_sublist : (directoriesIn fs dir).Sublist (fs.entriesIn dir))
        refine hdirectories.imp_of_mem fun {a b} ha hb hne => ?_
        rw [Function.onFun, List.disjoint_left]
        intro p hpa hpb
        obtain ⟨c, rest, hc⟩ := hdeeper hpa
        obtain ⟨d, rest', hd⟩ := hdeeper hpb
        exact hne ((hplace (List.mem_filter.mp ha).1).eq_of_append (hplace (List.mem_filter.mp hb).1) hc hd)
      · intro p hp p' hp'
        obtain ⟨file, hfile, rfl⟩ := List.mem_map.mp hp
        obtain ⟨entry, hentry, hbelow⟩ := List.mem_flatMap.mp hp'
        rintro rfl
        exact (hplace (List.mem_filter.mp hfile).1).not_below (hplace (List.mem_filter.mp hentry).1)
          (hdeeper hbelow)

/-- Of files in memory none of which is below another one, whose paths all can be written, there is one pre-order, and
it is what walks find. A path can be listed just if it is a directory, and gives the files and directories just below it
in order, each once. The walk down from it comes to an end, however many more directories it could still list, and has
then found all files below it, each once. -/
theorem walk_traverses (hflat : ∀ p ∈ files.keys, ∀ q ∈ files.keys, ¬ q.Below p) :
    (∀ list, IsPreorder fs list ↔ list = walk fs) ∧
    ∀ dir : Spelling,
      ((∃ entries, fs.readDirectory dir = .ok entries) ↔ fs.isDirectory dir) ∧
      (∀ entries, fs.readDirectory dir = .ok entries →
        (entries.map (·.path)).Pairwise (· < ·) ∧ (entries.map (·.path)).Nodup ∧
          ∀ q, q ∈ entries.map (·.path) ↔ q.JustBelow dir.path ∧ (q ∈ files.keys ∨ files.isDirectory q)) ∧
      (∀ fuel, fs.maxDirectories ≤ fuel →
        Walk.run fs fuel { pending := [dir] } = { pending := [], files := walk fs dir }) ∧
      ((walk fs dir).map (·.path)).Nodup ∧
      ∀ q, q ∈ (walk fs dir).map (·.path) ↔ q ∈ files.keys ∧ q.Below dir.path := by
  have hwalk : IsPreorder fs (walk fs) := (isPreorder_iff hstorage hwritten).mpr rfl
  refine ⟨fun list => isPreorder_iff hstorage hwritten, fun dir => ⟨?_, ?_, ?_, ?_, ?_⟩⟩
  · rw [FileSystem.readDirectory_of_memory hstorage, FileSystem.isDirectory_of_memory hstorage]
    exact MemoryFiles.exists_readDirectory_iff
  · intro entries hread
    have hentries : fs.entriesIn dir = entries := by
      rw [FileSystem.entriesIn, hread]
      rfl
    subst hentries
    exact ⟨FileSystem.pairwise_entriesIn hstorage hwritten dir, FileSystem.nodup_entriesIn hstorage hwritten dir,
      fun q => FileSystem.mem_map_path_entriesIn hstorage hwritten⟩
  · exact fun fuel hfuel => Walk.run_singleton hstorage hwritten hwalk hfuel dir
  · rw [walk_eq hstorage hwritten (isPreorder_preorder hstorage hwritten)]
    exact nodup_preorder hstorage hwritten _ dir
  · intro q
    have hnone (hq : q ∈ files.keys) : ¬ files.isDirectory q := by
      rw [MemoryFiles.isDirectory_iff]
      rintro ⟨below, hbelow, h⟩
      exact hflat q hq below hbelow h
    rw [List.mem_map, exists_mem_walk_iff hstorage hwritten]
    exact ⟨fun ⟨hq, hbelow, _⟩ => ⟨hq, hbelow⟩, fun ⟨hq, hbelow⟩ => ⟨hq, hbelow, hnone hq⟩⟩

omit hstorage hwritten in
theorem walk_traverses_nested :
    let files : MemoryFiles := Table.ofList
      (["/w/src/b.txt", "/w/src/a/z.txt", "/w/notes", "/w/src/a/deep/y.txt", "/w/src/a.txt"].map fun text =>
        ((Spelling.parse text).path, []))
    let fs : FileSystem := { storage := .memory files }
    let dir := Spelling.parse "/w/src"
    let found := ["/w/src/a.txt", "/w/src/b.txt", "/w/src/a/z.txt", "/w/src/a/deep/y.txt"].map Spelling.parse
    ((∀ p ∈ files.keys, p.Written) ∧ ∀ p ∈ files.keys, ∀ q ∈ files.keys, ¬ q.Below p) ∧
      fs.isDirectory dir ∧
      Walk.run fs 100 { pending := [dir] } = { pending := [], files := found } ∧
      (found.map (·.path)).Nodup ∧
      ∀ q, q ∈ found.map (·.path) ↔ q ∈ files.keys ∧ q.Below dir.path := by
  intro files fs dir found
  have hwritten : ∀ p ∈ files.keys, p.Written := by
    refine MemoryFiles.written_ofList fun entry hentry => ?_
    obtain ⟨text, -, rfl⟩ := List.mem_map.mp hentry
    exact ⟨text, rfl⟩
  have hflat : ∀ p ∈ files.keys, ∀ q ∈ files.keys, ¬ q.Below p := by decide +kernel
  have hstorage : fs.storage = .memory files := rfl
  have hfound : walk fs dir = found := by decide +kernel
  have hall := (walk_traverses hstorage hwritten hflat).2 dir
  rw [hfound] at hall
  obtain ⟨hlisted, -, hrun, hnodup, hmem⟩ := hall
  have hentries : ∃ entries, fs.readDirectory dir = .ok entries := ⟨_, rfl⟩
  exact ⟨⟨hwritten, hflat⟩, hlisted.mp hentries, hrun 100 (by decide +kernel), hnodup, hmem⟩

end ProjectTracker.Manifest
