import ProjectTracker.CommandLine.Demand
/-!
The program: it reads the places of the disk that its arguments lead to, and prints the report.
-/

namespace ProjectTracker.Main

/-- The names in a directory, if a path is one. -/
def directoryNames? (path : String) : IO (Option (List String)) := do
  try
    let entries ← (System.mkFilePath [path]).readDir
    pure (some (entries.toList.map (·.fileName)))
  catch _ => pure none

/-- The content of a file, if a path is one. -/
def content? (path : String) : IO (Option ByteArray) := do
  try
    let bytes ← IO.FS.readBinFile path
    pure (some bytes)
  catch _ => pure none

/-- Learns what a place holds, and with `below` also all that lies below it. -/
partial def learn (below : Bool) (disk : Disk) (place : Path) : IO Disk := do
  match ← directoryNames? place.render with
  | some names =>
    let disk := disk.makeDirectories place
    if below then
      names.foldlM (fun disk name => learn true disk ⟨place.components ++ [.name name]⟩) disk
    else pure disk
  | none =>
    match ← content? place.render with
    | some bytes => pure (disk.write (.ofPath place) ((String.fromUTF8? bytes).map String.toList))
    | none => pure disk

/-- Learns what an answer depends on, until nothing more is named. -/
partial def learnAll (args : List String) (disk : Disk) (files trees : List Path) : IO Disk := do
  let demand := CommandLine.demand disk args
  let newFiles := ((demand.files.map disk.absolute).filter (· ∉ files)).eraseDups
  let newTrees := ((demand.trees.map disk.absolute).filter (· ∉ trees)).eraseDups
  if newFiles.isEmpty && newTrees.isEmpty then pure disk
  else
    let disk ← newFiles.foldlM (learn false) disk
    let disk ← newTrees.foldlM (learn true) disk
    learnAll args disk (newFiles ++ files) (newTrees ++ trees)

def run (args : List String) : IO UInt32 := do
  let workingDirectory := (Spelling.parse (← IO.currentDir).toString).path
  let empty : Disk := { workingDirectory, entries := ∅ }
  let disk ← learnAll args (empty.makeDirectories workingDirectory) [] []
  let report := CommandLine.respond { storage := .disk disk } workingDirectory args
  report.output.forM IO.println
  report.errors.forM IO.eprintln
  pure (UInt32.ofNat report.code)

end ProjectTracker.Main

def main (args : List String) : IO UInt32 :=
  ProjectTracker.Main.run args
