import ProjectTracker.FileSystem.Memory
/-!
A file system as a disk keeps it: files and directories are entries of their own, a relative path starts
at a working directory, and every step of a path but the last has to lead through a directory.
-/

namespace ProjectTracker

/-- What a path of a disk holds. The content of a file that is not valid UTF-8 is no text. -/
inductive DiskEntry where
  | directory
  | file (text? : Option Text)

structure Disk where
  workingDirectory : Path
  /-- The entries other than the root, by their absolute paths. -/
  entries : Table Path DiskEntry

namespace Disk

def get? (disk : Disk) (p : Path) : Option DiskEntry :=
  if p = Path.root then some .directory else disk.entries.get? p

/-- The greatest number of bytes that a name takes. -/
def maxNameLength : Nat := 255

/-- The greatest number of bytes that the text of a path takes. -/
def maxPathLength : Nat := 4095

/-- The directory above a place. The root is above itself. -/
def above (p : Path) : Path :=
  p.parent?.getD Path.root

/-- One step along a path: unless it goes to the root, the place reached so far has to be a directory. -/
def walkStep (disk : Disk) (at' : Path) (c : Component) : Except FileError Path :=
  if c = .root then .ok Path.root
  else
    match disk.get? at' with
    | none => .error .notFound
    | some (.file _) => .error .notADirectory
    | some .directory =>
      match c with
      | .parent => .ok (above at')
      | .name text =>
        if maxNameLength < text.utf8ByteSize then .error .nameTooLong
        else .ok ⟨at'.components ++ [.name text]⟩
      | _ => .ok at'

/-- Whether a name in a path holds the character that no name can hold. -/
def hasNul (p : Path) : Bool :=
  p.components.any fun
    | .name text => text.contains '\x00'
    | _ => false

/-- The place that a path leads to, whether or not anything is there. -/
def walk (disk : Disk) (p : Path) : Except FileError Path :=
  if hasNul p then .error .nameWithNul
  else p.components.foldlM disk.walkStep disk.workingDirectory

/-- Whether the text of a path asks for a directory. -/
def asksForDirectory (text : String) : Bool :=
  text.endsWith "/" || text.endsWith "/."

/-- The entry that a path leads to. -/
def find (disk : Disk) (s : Spelling) : Except FileError (Path × DiskEntry) := do
  if s.text = "" then throw .notFound
  if !hasNul s.path && maxPathLength < s.text.utf8ByteSize then throw .nameTooLong
  let place ← disk.walk s.path
  match disk.get? place with
  | none => throw .notFound
  | some (.file text) =>
    if asksForDirectory s.text then throw .notADirectory else pure (place, .file text)
  | some .directory => pure (place, .directory)

def isFile (disk : Disk) (s : Spelling) : Bool :=
  match disk.find s with
  | .ok (_, .file _) => true
  | _ => false

def isDirectory (disk : Disk) (s : Spelling) : Bool :=
  match disk.find s with
  | .ok (_, .directory) => true
  | _ => false

def read (disk : Disk) (s : Spelling) : Except FileError Text := do
  match ← disk.find s with
  | (_, .directory) => throw .isADirectory
  | (_, .file (some text)) => pure text
  | (_, .file none) => throw .invalidData

/-- What lies immediately in a directory, in order. -/
def readDirectory (disk : Disk) (dir : Spelling) : Except FileError (List Spelling) := do
  match ← disk.find dir with
  | (_, .file _) => throw .notADirectory
  | (place, .directory) =>
    let names := (disk.entries.keys.filterMap (MemoryFiles.childOf place)).foldr
      MemoryFiles.insertComponent []
    pure (names.map fun name => dir.join name.render)

/-- One step along a path that makes the directory it leads to, if nothing is there. After a step that fails
there are no more. -/
def makeStep (state : Disk × Option Path) (c : Component) : Disk × Option Path :=
  let (disk, at?) := state
  match at?.bind fun at' => (disk.walkStep at' c).toOption with
  | none => (disk, none)
  | some place =>
    match disk.get? place with
    | some _ => (disk, some place)
    | none => ({ disk with entries := disk.entries.insert place .directory }, some place)

/-- Makes the directories that a path passes through and the one it leads to, as far as no file stands in
the way. -/
def makeDirectories (disk : Disk) (p : Path) : Disk :=
  if hasNul p then disk else (p.components.foldl makeStep (disk, some disk.workingDirectory)).1

/-- The absolute path of a place, by the names alone. -/
def absolute (disk : Disk) (p : Path) : Path :=
  (disk.workingDirectory.join p).clean

/-- The place where a file can be written, if there is one: the path ends with its name, and no directory is
there. -/
def fileToWrite? (disk : Disk) (s : Spelling) : Option Path := do
  guard (!asksForDirectory s.text)
  let some (.name _) := s.path.components.getLast? | none
  let place ← (disk.walk s.path).toOption
  match disk.get? place with
  | some .directory => none
  | _ => pure place

/-- Puts a file at a place, with the directories above it. They are made even where the file cannot be. -/
def write (disk : Disk) (s : Spelling) (text? : Option Text) : Disk :=
  let disk := (s.path.parent?.map disk.makeDirectories).getD disk
  match disk.fileToWrite? s with
  | none => disk
  | some place => { disk with entries := disk.entries.insert place (.file text?) }

/-- Puts an entry at a place, with the directories above it. A directory is not made by a name for itself
inside it. -/
def put (disk : Disk) (s : Spelling) : DiskEntry → Disk
  | .file text? => disk.write s text?
  | .directory =>
    if s.text.endsWith "/." then (s.path.parent?.map disk.makeDirectories).getD disk
    else disk.makeDirectories s.path

/-- Removes a file. A directory stays. -/
def remove (disk : Disk) (s : Spelling) : Disk :=
  match disk.find s with
  | .ok (place, .file _) => { disk with entries := disk.entries.erase place }
  | _ => disk

/-- A relative path, and the same after more and more steps up. From the root these lead nowhere else. -/
def climbing : Nat → List Component → List Path
  | 0, _ => []
  | count + 1, form => ⟨form⟩ :: climbing count (.parent :: form)

/-- The ways to write a path as a relative one that begins with steps up, given those that were made so far and
the place that they lead to. -/
def formsFrom (p : Path) : Nat → Path → List Component → List Path
  | 0, _, _ => []
  | count + 1, place, ups =>
    if place = Path.root then
      if p.isAbsolute then climbing (count + 1) (ups ++ p.components.drop 1) else []
    else
      let below := p.components.drop place.components.length
      let rest := formsFrom p count (above place) (.parent :: ups)
      if place.components.isPrefixOf p.components then ⟨ups ++ below⟩ :: rest else rest

/-- The ways to write a path as one from the working directory. There is no room for a step up more often than
once in three bytes. -/
def relativeForms (disk : Disk) (p : Path) : List Path :=
  formsFrom p (maxPathLength / 3 + 1) disk.workingDirectory []

/-- The clean paths that a file can be read by. -/
def filePaths (disk : Disk) : List Path :=
  disk.entries.entries.flatMap fun entry =>
    match entry.2 with
    | .directory => []
    | .file _ => entry.1 :: disk.relativeForms entry.1

end Disk

end ProjectTracker
