import StreamExpr.Dump.StagePath

/-! A folder in memory that takes files by path.
A path is followed component by component, as a file system does it: a double dot leads to the
directory above the one that was reached, so every directory before it has to be there. Directories
that are missing are made on the way. A file in the way, a directory in place of the file, and names
or paths that are too long are obstacles; what was made before an obstacle was met stays.
-/

namespace StreamExpr.Dump

/-- Why a dump is not taken. -/
inductive Obstacle where
  | refused
  | leadsOutside
  | nullInPath
  | pathTooLong
  | nameTooLong
  | fileInTheWay
  | directoryInTheWay
deriving DecidableEq

/-! ## Directories -/

/-- The files and directories in a directory. No name occurs twice. -/
inductive Entries where
  | empty
  | file (name content : String) (others : Entries)
  | directory (name : String) (inside others : Entries)

namespace Entries

def hasFile (wanted : String) : Entries → Bool
  | empty => false
  | file name _ others => name = wanted || others.hasFile wanted
  | directory _ _ others => others.hasFile wanted

/-- What is in the directory of a name. -/
def directory? (wanted : String) : Entries → Option Entries
  | empty => none
  | file _ _ others => others.directory? wanted
  | directory name inside others =>
      if name = wanted then some inside else others.directory? wanted

/-- The entries under other names. -/
def erase (unwanted : String) : Entries → Entries
  | empty => empty
  | file name content others =>
      if name = unwanted then others else file name content (others.erase unwanted)
  | directory name inside others =>
      if name = unwanted then others else directory name inside (others.erase unwanted)

/-- All files, with the names on the way down to them. -/
def files : Entries → List (List String × String)
  | empty => []
  | file name content others => ([name], content) :: others.files
  | directory name inside others =>
      inside.files.map (fun (path, content) => (name :: path, content)) ++ others.files

end Entries

/-! ## Places -/

/-- A directory that was reached. Above it are the directories that lead to it, the nearest first,
each with the name that was followed and its entries under other names. -/
structure Place where
  here : Entries
  above : List (String × Entries)

namespace Place

/-- The top directory. -/
def top (entries : Entries) : Place :=
  { here := entries, above := [] }

/-- The directory above, if the place is not the top. -/
def up? (p : Place) : Option Place :=
  match p.above with
  | [] => none
  | (name, others) :: above => some { here := .directory name p.here others, above }

/-- A directory below, which is made if it is missing. -/
def down (p : Place) (name : String) : Place :=
  {
    here := (p.here.directory? name).getD .empty
    above := (name, p.here.erase name) :: p.above
  }

/-- The entries of the top directory, seen from below. -/
def rejoin (here : Entries) : List (String × Entries) → Entries
  | [] => here
  | (name, others) :: above => rejoin (.directory name here others) above

/-- The entries of the top directory. -/
def entries (p : Place) : Entries :=
  rejoin p.here p.above

end Place

/-- A walk goes from place to place. The place is kept if an obstacle ends the walk. -/
abbrev Walk := EStateM Obstacle Place

namespace Walk

/-- The length of the longest name, in bytes. -/
def nameLimit : Nat := 255

/-- The length of the longest path, in bytes. -/
def pathLimit : Nat := 4095

/-- Refuse a path that no file system takes. -/
def accept (path : String) : Walk Unit := do
  if path.toList.contains '\x00' then
    throw .nullInPath
  if pathLimit < path.utf8ByteSize then
    throw .pathTooLong

/-- Follow one component of a path. -/
def follow (component : String) : Walk Unit := do
  let place ← get
  if BasePath.isIdle component then
    return
  if component = ".." then
    match place.up? with
    | some place => set place
    | none => throw .leadsOutside
  else if nameLimit < component.utf8ByteSize then
    throw .nameTooLong
  else if place.here.hasFile component then
    throw .fileInTheWay
  else
    set (place.down component)

/-- Write a file in the directory that was reached, over what the file held before. -/
def write (name content : String) : Walk Unit := do
  let place ← get
  if nameLimit < name.utf8ByteSize then
    throw .nameTooLong
  if BasePath.isIdle name || name = ".." || (place.here.directory? name).isSome then
    throw .directoryInTheWay
  set { place with here := .file name content (place.here.erase name) }

end Walk

/-! ## Folders -/

/-- A folder with the path that leads to it. -/
structure Folder where
  path : String
  entries : Entries

namespace Folder

def empty (path : String) : Folder :=
  { path, entries := .empty }

/-- The components of a path, without those that count for nothing. -/
def components (path : String) : List String :=
  (path.splitOn "/").filter (!BasePath.isIdle ·)

/-- Follow a path from the top of the folder, to which the path has to lead first. -/
def enter (f : Folder) (path : String) : Walk Unit := do
  Walk.accept path
  let start := components f.path
  let steps := components path
  if start.isPrefixOf steps then
    (steps.drop start.length).forM Walk.follow
  else
    throw .leadsOutside

/-- Make the directory of a file and write the file. -/
def save (f : Folder) (path content : String) : Walk Unit := do
  let names := path.splitOn "/"
  f.enter ("/".intercalate names.dropLast)
  Walk.accept path
  Walk.write (names.getLastD "") content

/-- Take a file by its path. -/
def put (f : Folder) (path content : String) : Except Obstacle Unit × Folder :=
  match f.save path content (.top f.entries) with
  | .ok _ place => (.ok (), { f with entries := place.entries })
  | .error e place => (.error e, { f with entries := place.entries })

/-- The files with their paths as text, ordered by path. -/
def listing (f : Folder) : List (String × String) :=
  (f.entries.files.map fun (path, content) => ("/".intercalate path, content)).mergeSort
    fun a b => a.1 ≤ b.1

end Folder

end StreamExpr.Dump
