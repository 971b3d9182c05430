import SourceModel.FileSystem.Edit
import SourceModel.Hex
/-!
# Images of file systems

An image is a text that lists what a file system holds, one entry per line with
tabs between the fields:

```text
dir   PATH
file  PATH  BYTES
link  PATH  TARGET
deny  PATH
cwd   PATH
```

Bytes are written as pairs of hexadecimal digits. What is denied may neither be
read nor passed through. The last kind of line sets the working directory. Both
need a path that leads somewhere by then.
-/

namespace SourceModel

namespace FileSystem

/-- Applies one line of an image. -/
def addLine (fs : FileSystem) (line : String) : Option FileSystem :=
  match line.splitOn "\t" with
  | [""] => some fs
  | ["dir", path] => some (fs.write [] ⟨path⟩ (.directory []))
  | ["file", path, hex] =>
    (Hex.bytes? hex.toList).map fun bytes => fs.write [] ⟨path⟩ (.file ⟨bytes.toArray⟩)
  | ["link", path, target] => some (fs.write [] ⟨path⟩ (.link ⟨target⟩))
  | ["deny", path] => (fs.resolve ⟨path⟩).toOption.map fun there =>
    { fs with unreadable := there :: fs.unreadable, closed := there :: fs.closed }
  | ["cwd", path] => (fs.resolve ⟨path⟩).toOption.map fun here => { fs with workingDir := some here }
  | _ => none

/-- The file system of an image, unless a line of it is malformed. -/
def ofImage? (lines : List String) : Option FileSystem :=
  lines.foldlM addLine {}

end FileSystem

end SourceModel
