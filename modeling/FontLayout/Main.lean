import FontLayout.CommandLine.Run
/-!
# The command line program

The program runs its command line on the disk of the machine and prints the response.
-/
namespace FontLayout

/-- An error of the machine as an error of a disk. -/
def diskErrorOf : IO.Error → DiskError
  | .noFileOrDirectory .. => .missing
  | .alreadyExists .. => .alreadyExists
  | .inappropriateType _ 20 _ => .notDirectory
  | .inappropriateType _ 21 _ => .isDirectory
  | .invalidArgument _ 36 _ => .nameTooLong
  | e => .other (toString e)

/-- An action on the machine, with its errors as values. -/
def attempt {α : Type} (action : IO α) : IO (Except DiskError α) := do
  try return .ok (← action)
  catch e => return .error (diskErrorOf e)

/-- The content of a file of the machine. -/
def readFile (path : String) : IO ByteArray := do
  let file ← IO.FS.Handle.mk path .read
  file.readBinToEnd

/-- Whether a path leads to a directory of the machine: only in a directory, the name that stays
in it is taken. -/
def leadsToDirectory (path : String) : IO Bool := do
  match ← attempt (IO.FS.createDir (joinPath path Path.same)) with
  | .error .alreadyExists => return true
  | _ => return false

/-- The disk of the machine. -/
def machineDisk : Disk IO where
  read path := attempt (readFile path)
  write path content := attempt (IO.FS.writeBinFile path content)
  makeDirectory path := attempt (IO.FS.createDir path)
  isDirectory := leadsToDirectory

end FontLayout

/-- Runs the command line. -/
def main (args : List String) : IO UInt32 := do
  let response ← FontLayout.run FontLayout.machineDisk args
  IO.eprint response.stderr
  IO.print response.stdout
  return response.exitCode
