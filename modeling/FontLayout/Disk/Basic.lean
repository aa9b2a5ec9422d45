import FontLayout.Disk.Path
/-!
# Disks

A disk is what the command line needs of a file system: to read and to write a file, to make a
directory, and to tell a directory from all else. Everything that uses one works on any disk, be
it that of the machine or a tree of files in memory.
-/
namespace FontLayout

/-- Why a file operation fails. -/
inductive DiskError where
  | missing
  | alreadyExists
  | notDirectory
  | isDirectory
  | nameTooLong
  | other (reason : String)
deriving DecidableEq

namespace DiskError

/-- The error in the words of the operating system. -/
def message : DiskError → String
  | .missing => "No such file or directory (os error 2)"
  | .alreadyExists => "File exists (os error 17)"
  | .notDirectory => "Not a directory (os error 20)"
  | .isDirectory => "Is a directory (os error 21)"
  | .nameTooLong => "File name too long (os error 36)"
  | .other reason => reason

end DiskError

/-- File operations on paths, as actions of some kind. -/
structure Disk (m : Type → Type) where
  read : String → m (Except DiskError ByteArray)
  write : String → ByteArray → m (Except DiskError Unit)
  makeDirectory : String → m (Except DiskError Unit)
  isDirectory : String → m Bool

namespace Disk
variable {m : Type → Type} [Monad m]

/-- The outcome of making a directory, where one that was there before is as good. -/
def settle (disk : Disk m) (path : String) (made : Except DiskError Unit) :
    m (Except DiskError Unit) := do
  match made with
  | .ok _ => return .ok ()
  | .error e => if ← disk.isDirectory path then return .ok () else return .error e

/-- Makes a directory. If one on the way is missing, the next path above is made first. -/
def makeWith (disk : Disk m) (path : String) : List String → m (Except DiskError Unit)
  | [] => do disk.settle path (← disk.makeDirectory path)
  | parent :: above => do
    match ← disk.makeDirectory path with
    | .error .missing =>
      match ← disk.makeWith parent above with
      | .ok _ => disk.settle path (← disk.makeDirectory path)
      | .error e => return .error e
    | made => disk.settle path made

/-- Makes the directory at a path, and those on the way that are missing. -/
def makeDirectories (disk : Disk m) (path : String) : m (Except DiskError Unit) :=
  if path.isEmpty then pure (.ok ()) else disk.makeWith path (Path.ofString path).parents

end Disk
end FontLayout
