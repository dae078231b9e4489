/-! File names of stage dumps.
A base path is split into the directory, the stem and the extension of its last component; the file
of a stage has the stage between stem and extension. Components are separated by slashes. Empty
components and single dots count for nothing, except for a dot at the very start.
-/

namespace StreamExpr.Dump

/-- A base path split for the insertion of stages. -/
structure BasePath where
  directory : String
  stem : String
  extension : String
deriving DecidableEq

namespace BasePath

/-- What stands before the components of a path: the root, or a dot at the start. -/
def leader (path : List Char) : List Char :=
  match path with
  | '/' :: _ => ['/']
  | ['.'] => ['.']
  | '.' :: '/' :: _ => ['.']
  | _ => []

/-- Whether a component counts for nothing. -/
def isIdle (component : String) : Bool :=
  component = "" || component = "."

/-- Split off the last component that counts, and drop what counts for nothing before it. Components
are given and answered last first. -/
def splitLast? (components : List String) : Option (String × List String) :=
  match components.dropWhile isIdle with
  | [] => none
  | last :: rest => some (last, rest.dropWhile isIdle)

/-- The stem and the extension of a file name. The extension starts after the last dot, unless the
dot comes first. -/
def splitExtension (name : String) : String × Option String :=
  let parts := name.splitOn "."
  let stem := ".".intercalate parts.dropLast
  if stem = "" then (name, none) else (stem, parts.getLast?)

/-- The stem and the extension of the last component; the parent directory is no file. -/
def ofComponent (directory last : String) : BasePath :=
  if last = ".." then
    { directory, stem := "", extension := "dot" }
  else
    let (stem, extension) := splitExtension last
    { directory, stem, extension := extension.getD "dot" }

/-- Split a path. Without an extension, that of Graphviz files is used. -/
def ofString (path : String) : BasePath :=
  let lead := leader path.toList
  let body := String.ofList (path.toList.drop lead.length)
  match splitLast? (body.splitOn "/").reverse with
  | some (last, rest) =>
      ofComponent (String.ofList lead ++ "/".intercalate rest.reverse) last
  | none => { directory := "", stem := "", extension := "dot" }

/-- A file in a directory; an absolute name stands for itself. -/
def join (directory file : String) : String :=
  if directory = "" || file.startsWith "/" then file
  else if directory.endsWith "/" then directory ++ file
  else directory ++ "/" ++ file

/-- The file that the dump of a stage is written to. -/
def stagePath (b : BasePath) (stage : String) : String :=
  join b.directory (b.stem ++ stage ++ "." ++ b.extension)

end BasePath

end StreamExpr.Dump
