import SourceModel.Path
/-!
# Failures

Three kinds of trouble stay apart. An `IoFailure` is what the file system says.
A `FileError` is one source file that could not be read; it is collected while
the work goes on. An `Error` stops an operation. Causes are data, and the text
of each is written in one place.
-/

namespace SourceModel

/-- System errors by name. -/
inductive SystemError where
  | notFound
  | permissionDenied
  | notDirectory
  | isDirectory
  | nameTooLong
  | tooManyLinks
  deriving DecidableEq

namespace SystemError

def number : SystemError → Nat
  | .notFound => 2
  | .permissionDenied => 13
  | .notDirectory => 20
  | .isDirectory => 21
  | .nameTooLong => 36
  | .tooManyLinks => 40

def description : SystemError → String
  | .notFound => "No such file or directory"
  | .permissionDenied => "Permission denied"
  | .notDirectory => "Not a directory"
  | .isDirectory => "Is a directory"
  | .nameTooLong => "File name too long"
  | .tooManyLinks => "Too many levels of symbolic links"

def message (e : SystemError) : String :=
  s!"{e.description} (os error {e.number})"

end SystemError

/-- Broad kinds of failures that are not system errors. -/
inductive IoKind where
  | invalidData
  | notFound
  | permissionDenied
  | invalidInput
  | unexpectedEnd
  | other
  deriving DecidableEq

/-- A failure to reach or read a file. -/
inductive IoFailure where
  | system (error : SystemError)
  | reported (kind : IoKind) (message : String)
  deriving DecidableEq

namespace IoFailure

/-- Content that is not valid UTF-8. -/
def notUtf8 : IoFailure :=
  .reported .invalidData "stream did not contain valid UTF-8"

/-- A path with a NUL character names nothing. -/
def nulInPath : IoFailure :=
  .reported .invalidInput "file name contained an unexpected NUL byte"

def message : IoFailure → String
  | .system e => e.message
  | .reported _ text => text

def isInvalidData : IoFailure → Bool
  | .reported .invalidData _ => true
  | _ => false

end IoFailure

/-! ## Files that could not be read -/

inductive FileErrorKind where
  | io
  | encoding
  deriving DecidableEq

def FileErrorKind.display : FileErrorKind → String
  | .io => "I/O error"
  | .encoding => "encoding error"

structure FileError where
  path : Path
  kind : FileErrorKind
  message : String
  deriving BEq

namespace FileError

/-- Undecodable content gets a wording of its own; other failures keep theirs. -/
def ofIo (path : Path) (failure : IoFailure) : FileError :=
  if failure.isInvalidData then ⟨path, .encoding, "file is not valid UTF-8"⟩
  else ⟨path, .io, failure.message⟩

def display (e : FileError) : String :=
  s!"{e.path.text}: {e.message} ({e.kind.display})"

end FileError

/-! ## Errors that stop an operation -/

inductive ConfigError where
  /-- The file is no YAML, or not of the expected shape. -/
  | malformed
  /-- The source extension is empty, starts with a dot or holds a separator. -/
  | notBareExtension (extension : String)
  | reported (text : String)
  deriving DecidableEq

def ConfigError.message : ConfigError → String
  | .malformed => "<yaml>"
  | .notBareExtension extension =>
    s!"source-extension must be a bare extension like 'epoch', got '{extension}'"
  | .reported text => text

inductive WorkspaceError where
  | rootMissing (root : Path) (failure : IoFailure)
  | rootNotDirectory (root : Path)
  | reported (text : String)

def WorkspaceError.message : WorkspaceError → String
  | .rootMissing root failure => s!"workspace root not found: {root.text}: {failure.message}"
  | .rootNotDirectory root => s!"workspace root is not a directory: {root.text}"
  | .reported text => text

inductive Error where
  | io (failure : IoFailure)
  | config (error : ConfigError)
  | workspace (error : WorkspaceError)

namespace Error

def display : Error → String
  | .io failure => s!"I/O error: {failure.message}"
  | .config error => s!"configuration error: {error.message}"
  | .workspace error => s!"workspace error: {error.message}"

/-- What caused an error, outermost first. Only a failed read has a cause. -/
def causes : Error → List String
  | .io failure => [failure.message]
  | _ => []

end Error

end SourceModel
