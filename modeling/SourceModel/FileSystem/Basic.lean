import SourceModel.Failure
/-!
# File systems

A file system is a value: directories, files and symbolic links under one root,
with the working directory that relative paths start from and with what is not
permitted. A path is resolved name by name, following links, and every question
about a path goes through that resolution.
-/

namespace SourceModel

inductive Entry where
  | file (content : ByteArray)
  | link (target : Path)
  | directory (entries : List (String × Entry))

/-- The names from the root down to an entry, free of links and dots. -/
abbrev Location := List String

structure FileSystem where
  /-- What stands at the root. -/
  root : Entry := .directory []
  /-- Nothing when the working directory is gone. -/
  workingDir : Option Location := none
  /-- Files that may not be read, and directories that may not be listed. -/
  unreadable : List Location := []
  /-- Directories that may not be passed through. -/
  closed : List Location := []

namespace Entry

/-- What a directory holds; other entries hold nothing. -/
def entries : Entry → List (String × Entry)
  | .directory entries => entries
  | _ => []

def isDirectory : Entry → Bool
  | .directory _ => true
  | _ => false

def child? (e : Entry) (name : String) : Option Entry :=
  e.entries.lookup name

/-- The entry at a location below this one. -/
def get? (e : Entry) : Location → Option Entry
  | [] => some e
  | name :: rest => (e.child? name).bind (·.get? rest)

mutual

/-- How many directories lie one inside the other, this one included. -/
def height : Entry → Nat
  | .file _ => 0
  | .link _ => 0
  | .directory entries => heightOfAll entries + 1

def heightOfAll : List (String × Entry) → Nat
  | [] => 0
  | entry :: rest => max (heightOfPair entry) (heightOfAll rest)

def heightOfPair : String × Entry → Nat
  | (_, e) => e.height

end

end Entry

namespace FileSystem

/-- Links followed on the way to one entry. -/
def maxLinks : Nat := 40

/-- Bytes in one name. -/
def maxNameBytes : Nat := 255

/-- Bytes in a whole path. -/
def maxPathBytes : Nat := 4095

/-- The names a path asks for, one after the other. A trailing slash asks for a
directory, as a final dot does. -/
def requests (path : Path) : List String :=
  if path.hasTrailingSlash then path.segments ++ ["."] else path.segments

/-- Follows names from a location, with `links` more links to follow. -/
def resolveFrom (fs : FileSystem) (links : Nat) (here : Location) :
    List String → Except SystemError Location
  | [] => .ok here
  | name :: rest =>
    match fs.root.get? here with
    | some (.directory entries) =>
      if here ∈ fs.closed then .error .permissionDenied
      else if name = "." then fs.resolveFrom links here rest
      else if name = ".." then fs.resolveFrom links here.dropLast rest
      else if maxNameBytes < name.utf8ByteSize then .error .nameTooLong
      else match entries.lookup name with
        | none => .error .notFound
        | some (.link target) =>
          match links with
          | 0 => .error .tooManyLinks
          | links + 1 =>
            fs.resolveFrom links (if target.isAbsolute then [] else here) (requests target ++ rest)
        | some _ => fs.resolveFrom links (here ++ [name]) rest
    | _ => .error .notDirectory
termination_by names => (links, names.length)

/-- The location of the entry a path leads to. -/
def resolve (fs : FileSystem) (path : Path) : Except IoFailure Location :=
  if path.text.toList.contains '\x00' then .error .nulInPath
  else
    let found :=
      if path.text = "" then .error .notFound
      else if maxPathBytes < path.text.utf8ByteSize then .error .nameTooLong
      else if path.isAbsolute then fs.resolveFrom maxLinks [] (requests path)
      else match fs.workingDir with
        | none => .error .notFound
        | some here => fs.resolveFrom maxLinks here (requests path)
    found.mapError .system

/-- The absolute path of a location. -/
def pathOf (location : Location) : Path :=
  ⟨"/" ++ "/".intercalate location⟩

/-- The path itself, free of links and dots. -/
def canonical (fs : FileSystem) (path : Path) : Except IoFailure Path :=
  (fs.resolve path).map pathOf

def find? (fs : FileSystem) (path : Path) : Option Entry :=
  (fs.resolve path).toOption.bind fs.root.get?

def isDirectory (fs : FileSystem) (path : Path) : Bool :=
  (fs.find? path).any (·.isDirectory)

def isFile (fs : FileSystem) (path : Path) : Bool :=
  match fs.find? path with
  | some (.file _) => true
  | _ => false

/-- The names in a directory, in no particular order. -/
def names (fs : FileSystem) (path : Path) : Except IoFailure (List String) := do
  let location ← fs.resolve path
  match fs.root.get? location with
  | some (.directory entries) =>
    if location ∈ fs.unreadable then .error (.system .permissionDenied) else .ok (entries.map (·.1))
  | _ => .error (.system .notDirectory)

/-- The text of a file. -/
def readText (fs : FileSystem) (path : Path) : Except IoFailure String := do
  let location ← fs.resolve path
  if location ∈ fs.unreadable then .error (.system .permissionDenied)
  else match fs.root.get? location with
    | some (.file content) =>
      match String.fromUTF8? content with
      | some text => .ok text
      | none => .error .notUtf8
    | some (.directory _) => .error (.system .isDirectory)
    | _ => .error (.system .notFound)

/-- The working directory, unless it is gone. -/
def currentDir (fs : FileSystem) : Except IoFailure Path :=
  match fs.workingDir with
  | some here => .ok (pathOf here)
  | none => .error (.system .notFound)

end FileSystem

end SourceModel
