import FontLayout.Disk.Basic
/-!
# File trees

A file tree is a disk in memory: the contents of files and the directories there are, all by the
names on the way from the root. Paths are walked name by name, so every directory on the way has
to exist, and each name on the way is looked up only in a directory.

Results:
* `FileTree.content?_put`: a file holds what was last written to it.
* `FileTree.hasDirectory_addDirectory`: a directory is there once it is made.
-/
namespace FontLayout

/-- A way down from the root. -/
abbrev Steps := List String

/-- Files with their contents, directories, and the one in which paths start; the root is always
there. -/
structure FileTree where
  files : List (Steps × ByteArray)
  directories : List Steps
  workingDirectory : Steps

namespace FileTree

/-- The content of a file. -/
def content? (t : FileTree) (place : Steps) : Option ByteArray := t.files.lookup place

/-- Whether there is a directory. -/
def hasDirectory (t : FileTree) (place : Steps) : Bool :=
  place.isEmpty || t.directories.contains place

/-- The tree with a directory added. -/
def addDirectory (t : FileTree) (place : Steps) : FileTree :=
  { t with directories := place :: t.directories }

/-- The tree with content put into a file. -/
def put (t : FileTree) (place : Steps) (content : ByteArray) : FileTree :=
  { t with files := (place, content) :: t.files.filter (·.1 != place) }

theorem content?_put (t : FileTree) (place : Steps) (content : ByteArray) :
    (t.put place content).content? place = some content := by
  simp [put, content?]

theorem hasDirectory_addDirectory (t : FileTree) (place : Steps) :
    (t.addDirectory place).hasDirectory place = true := by
  simp [addDirectory, hasDirectory]

/-! ## Walking -/

/-- The most bytes of a name. -/
def maxNameSize : Nat := 255

/-- The most bytes of a path. -/
def maxPathSize : Nat := 4095

/-- What is found under a name in a directory. -/
inductive Entry where
  | directory
  | file (content : ByteArray)
  | nothing

/-- Looks a name up in a directory. -/
def entry (t : FileTree) (place : Steps) (name : String) : Except DiskError Entry :=
  if maxNameSize < name.utf8ByteSize then .error .nameTooLong
  else if t.hasDirectory (place ++ [name]) then .ok .directory
  else match t.content? (place ++ [name]) with
    | some content => .ok (.file content)
    | none => .ok .nothing

/-- One step: up, or down into a directory, or none. -/
def enter (t : FileTree) (place : Steps) (name : String) : Except DiskError Steps :=
  if name = Path.same then .ok place
  else if name = Path.up then .ok place.dropLast
  else do
    match ← t.entry place name with
    | .directory => return place ++ [name]
    | .file _ => throw .notDirectory
    | .nothing => throw .missing

/-- What a path leads to: a directory in which it ends, or a name in a directory. After the name
there may be a slash. -/
inductive Destination where
  | directory
  | name (place : Steps) (name : String) (slash : Bool)

/-- Where a path leads, if all directories on the way exist. -/
def destination (t : FileTree) (path : String) : Except DiskError Destination := do
  if path.isEmpty then throw .missing
  if maxPathSize < path.utf8ByteSize then throw .nameTooLong
  let p := Path.ofString path
  match p.names.getLast? with
  | none => return .directory
  | some last =>
    let start := if p.fromRoot then [] else t.workingDirectory
    let place ← p.names.dropLast.foldlM t.enter start
    if last = Path.same ∨ last = Path.up then return .directory
    else return .name place last p.endsInSlash

/-! ## Operations -/

/-- The content of the file at a path. -/
def read (t : FileTree) (path : String) : Except DiskError ByteArray := do
  match ← t.destination path with
  | .directory => throw .isDirectory
  | .name place name slash =>
    match ← t.entry place name with
    | .directory => throw .isDirectory
    | .file content => if slash then throw .notDirectory else return content
    | .nothing => throw .missing

/-- The tree with content written to the file at a path. A path with a slash at its end is never
that of a file. -/
def write (t : FileTree) (path : String) (content : ByteArray) : Except DiskError FileTree := do
  match ← t.destination path with
  | .directory => throw .isDirectory
  | .name place name slash =>
    if slash then throw .isDirectory
    match ← t.entry place name with
    | .directory => throw .isDirectory
    | _ => return t.put (place ++ [name]) content

/-- The tree with a directory made at a path where nothing is yet. -/
def makeDirectory (t : FileTree) (path : String) : Except DiskError FileTree := do
  match ← t.destination path with
  | .directory => throw .alreadyExists
  | .name place name _ =>
    match ← t.entry place name with
    | .nothing => return t.addDirectory (place ++ [name])
    | _ => throw .alreadyExists

/-- Whether a path leads to a directory. -/
def isDirectory (t : FileTree) (path : String) : Bool :=
  match t.destination path with
  | .ok .directory => true
  | .ok (.name place name _) =>
    match t.entry place name with
    | .ok .directory => true
    | _ => false
  | .error _ => false

/-! ## Files of a run -/

/-- What a program finds on every machine: a null device, and a working directory among those for
temporary files. -/
def machine : FileTree where
  files := [(["dev", "null"], .empty)]
  directories := [["dev"], ["tmp"], ["tmp", "work"]]
  workingDirectory := ["tmp", "work"]

/-- The tree with a file in the working directory, and the directories on the way to it. -/
def addFile (t : FileTree) (path : String) (content : ByteArray) : FileTree :=
  let names := (Path.ofString path).names
  let ways := (List.range' 1 (names.length - 1)).map fun n => t.workingDirectory ++ names.take n
  (ways.foldl addDirectory t).put (t.workingDirectory ++ names) content

/-- A machine with these files in its working directory. -/
def ofFiles (files : List (String × ByteArray)) : FileTree :=
  files.foldl (fun t f => t.addFile f.1 f.2) machine

/-- The files below the working directory, by path. -/
def paths (t : FileTree) : List (String × ByteArray) :=
  t.files.filterMap fun f =>
    if t.workingDirectory.isPrefixOf f.1 then
      some (Path.join false (f.1.drop t.workingDirectory.length), f.2)
    else none

/-! ## The tree as a disk -/

/-- A file tree as the state of a computation. -/
abbrev OnTree := StateM FileTree

/-- Puts a changed tree in place of the old one, if the change succeeds. -/
def change (f : FileTree → Except DiskError FileTree) : OnTree (Except DiskError Unit) :=
  fun t =>
    match f t with
    | .ok t' => (.ok (), t')
    | .error e => (.error e, t)

/-- A file tree as a disk. -/
def disk : Disk OnTree where
  read path := fun t => (t.read path, t)
  write path content := change (·.write path content)
  makeDirectory path := change (·.makeDirectory path)
  isDirectory path := fun t => (t.isDirectory path, t)

end FileTree
end FontLayout
