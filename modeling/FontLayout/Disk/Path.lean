/-!
# Paths

A path is text: names with slashes between them, from the root or from the working directory.
All names but the last lead from one directory to the next.
-/
namespace FontLayout

/-- A path taken apart. -/
structure Path where
  fromRoot : Bool
  names : List String
  endsInSlash : Bool
deriving DecidableEq

namespace Path

/-- The parts of a path; slashes that follow each other count as one. -/
def ofString (text : String) : Path where
  fromRoot := text.startsWith "/"
  names := (text.splitOn "/").filter (· != "")
  endsInSlash := text.endsWith "/"

/-- The name that stays in a directory. -/
def same : String := "."

/-- The name that leads to the directory above. -/
def up : String := ".."

/-- Names as the text of a path. -/
def join (fromRoot : Bool) (names : List String) : String :=
  (if fromRoot then "/" else "") ++ String.intercalate "/" names

/-- The paths above a path, the nearest first, without the place where it starts. Names that stay
in a directory do not count. -/
def parents (p : Path) : List String :=
  let names := p.names.filter (· != same)
  (List.range' 1 (names.length - 1)).reverse.map fun n => join p.fromRoot (names.take n)

end Path

/-- The path of a name in a directory. -/
def joinPath (directory name : String) : String :=
  if directory.endsWith "/" then directory ++ name else directory ++ "/" ++ name

end FontLayout
