import FontLayout.CommandLine.Arguments
import FontLayout.Document.Resolution
import FontLayout.FontFile
/-!
# Running a command line

A run reads a rule document, compiles it, prints what was found, and writes a font file; before
that it may write each table to a file of its own. It works on any disk.
-/
namespace FontLayout

/-- What a run prints, and how it ends. -/
structure Response where
  exitCode : UInt32
  stdout : String
  stderr : String
deriving DecidableEq

namespace Response

/-- Nothing printed so far, and nothing wrong. -/
def success : Response := ⟨0, "", ""⟩

/-- Prints a message as the last thing and ends as a failure. -/
def fail (r : Response) (message : String) : Response :=
  { r with exitCode := 1, stderr := r.stderr ++ message ++ "\n" }

end Response

/-! ## Writing -/

/-- A file or a directory that cannot be written. -/
structure WriteError where
  path : String
  error : DiskError
deriving DecidableEq

/-- The error in words. -/
def WriteError.message (e : WriteError) : String :=
  "Failed to write '" ++ e.path ++ "': " ++ e.error.message

variable {m : Type → Type} [Monad m]

/-- Writes a file. -/
def writeFile (disk : Disk m) (path : String) (bytes : ByteArray) :
    m (Except WriteError Unit) := do
  return (← disk.write path bytes).mapError fun e => ⟨path, e⟩

/-- Writes files in order, up to the first that cannot be written. -/
def writeFiles (disk : Disk m) : List (String × ByteArray) → m (Except WriteError Unit)
  | [] => return .ok ()
  | file :: rest => do
    match ← writeFile disk file.1 file.2 with
    | .ok _ => writeFiles disk rest
    | .error e => return .error e

/-- Writes each table to a file in a directory, which is made if it is not there. -/
def writeTables (disk : Disk m) (directory : String) (tables : List (Tag × ByteArray)) :
    m (Except WriteError Unit) := do
  match ← disk.makeDirectories directory with
  | .ok _ =>
    writeFiles disk (tables.map fun t => (joinPath directory (t.1.label ++ ".bin"), t.2))
  | .error e => return .error ⟨directory, e⟩

/-- Writes what a compilation brought, after a response to what was found. -/
def Invocation.deliver (i : Invocation) (disk : Disk m) (tables : List (Tag × ByteArray))
    (r : Response) : m Response := do
  let written ← match i.tablesDir with
    | some directory => writeTables disk directory tables
    | none => pure (.ok ())
  match written with
  | .error e => return r.fail e.message
  | .ok _ =>
    let font := FontFile.encode tables
    let r := { r with stdout :=
      "writing " ++ toString font.size ++ " bytes to " ++ i.outPath ++ "\n" }
    match ← writeFile disk i.outPath font with
    | .error e => return r.fail e.message
    | .ok _ => return r

/-! ## Runs -/

/-- Does what a command line asks for. -/
def Invocation.run (i : Invocation) (disk : Disk m) : m Response := do
  match loadFile (← disk.read i.input) with
  | .error e => return Response.success.fail (e.message i.input)
  | .ok (rules, glyphs) =>
    match compile rules glyphs i.options with
    | .error e => return Response.success.fail e.message
    | .ok c => i.deliver disk c.tables.toList { Response.success with stderr := c.report.render }

/-- Runs a command line. -/
def run (disk : Disk m) (args : List String) : m Response :=
  match Invocation.read args with
  | .error e => return ⟨2, "", e.message ++ "\n"⟩
  | .ok i => i.run disk

end FontLayout
