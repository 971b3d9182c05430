import SourceModel.FileSystem.Basic
/-!
# Editing a file system

Entries are written and removed by paths relative to a location. Directories on
the way are created as needed, and links on the way are followed.
-/

namespace SourceModel

namespace Entry

def putChild (name : String) (child : Entry) : List (String × Entry) → List (String × Entry)
  | [] => [(name, child)]
  | (n, e) :: rest => if n = name then (n, child) :: rest else (n, e) :: putChild name child rest

/-- Stores an entry at a location, creating the directories above it. -/
def put (new : Entry) : Location → Entry → Entry
  | [], _ => new
  | name :: rest, e =>
    .directory (putChild name (put new rest ((e.child? name).getD (.directory []))) e.entries)

/-- Removes the entry at a location, if there is one. -/
def erase (e : Entry) : Location → Entry
  | [] => e
  | [name] => match e with
    | .directory entries => .directory (entries.filter (·.1 ≠ name))
    | _ => e
  | name :: rest => match e with
    | .directory entries =>
      match entries.lookup name with
      | some child => .directory (putChild name (child.erase rest) entries)
      | none => e
    | _ => e

end Entry

namespace FileSystem

/-- Stores an entry at a location. -/
def putAt (fs : FileSystem) (location : Location) (entry : Entry) : FileSystem :=
  { fs with root := entry.put location fs.root }

/-- Enters a directory by name, creating it if it is missing. -/
def enter : FileSystem × Location → String → FileSystem × Location
  | (fs, here), name =>
    let there := here ++ [name]
    if name = "." then (fs, here)
    else if name = ".." then (fs, here.dropLast)
    else match fs.root.get? there with
      | none => (fs.putAt there (.directory []), there)
      | some (.link _) => (fs, (fs.resolveFrom maxLinks here [name]).toOption.getD there)
      | some _ => (fs, there)

/-- Creates the directories of a path below `base` and answers where it leads. -/
def makeDirs (fs : FileSystem) (base : Location) (path : Path) : FileSystem × Location :=
  path.segments.foldl enter (fs, base)

/-- Writes an entry at a path below `base`. Content goes through a link to the
file it leads to, and an existing directory is kept when one is asked for. -/
def write (fs : FileSystem) (base : Location) (path : Path) (entry : Entry) : FileSystem :=
  match path.segments.getLast? with
  | none => fs
  | some name =>
    let (fs, here) := path.segments.dropLast.foldl enter (fs, base)
    let there := here ++ [name]
    match entry, fs.root.get? there with
    | .file _, some (.link _) =>
      fs.putAt ((fs.resolveFrom maxLinks here [name]).toOption.getD there) entry
    | .directory [], some (.directory _) => fs
    | _, _ => fs.putAt there entry

/-- Removes what stands at a path below `base`: a file, a link itself, or a
directory with all it holds. The empty path is `base` itself. -/
def remove (fs : FileSystem) (base : Location) (path : Path) : FileSystem :=
  match path.segments.getLast? with
  | none => { fs with root := fs.root.erase base }
  | some name =>
    match fs.resolveFrom maxLinks base path.segments.dropLast with
    | .ok here => { fs with root := fs.root.erase (here ++ [name]) }
    | .error _ => fs

end FileSystem

end SourceModel
