import MessageKeys.FileTree
import MessageKeys.Path
import Std.Data.HashMap

/-! # Disks — the part of a disk that a command works on

    What stands on the disk is read into a file tree, and what changed in the tree is written
    back.  Symbolic links, and what cannot be read, are passed over. -/

namespace MessageKeys

/-- Entries that were read from the disk. -/
abbrev DiskEntries := Std.HashMap Location Entry

namespace DiskEntries

/-- The entries as a file tree. -/
def tree (es : DiskEntries) : FileTree := ⟨es.toList⟩

end DiskEntries

namespace Disk

/-- The text of a location. -/
def pathText (l : Location) : String := "/" ++ Text.join '/' l

/-- The location of what stands at a path, if there is something. -/
def locate? (p : Path) : IO (Option Location) := do
  match ← (IO.FS.realPath p.text).toBaseIO with
  | .ok real => return some (Path.mk real.toString).names
  | .error _ => return none

/-- The file must not be written. -/
def isReadOnly (l : Location) : IO Bool := do
  match ← (IO.FS.Handle.mk (pathText l) .append).toBaseIO with
  | .ok _ => return false
  | .error _ => return true

/-- What stands at a location. -/
def read? (l : Location) : IO (Option Entry) := do
  let path := (← IO.currentDir) / pathText l
  match ← path.symlinkMetadata.toBaseIO with
  | .error _ => return none
  | .ok found =>
    match found.type with
    | .dir => return some .directory
    | .file =>
      match ← (IO.FS.readBinFile path).toBaseIO with
      | .ok bytes => return some (.file bytes (← isReadOnly l))
      | .error _ => return none
    | _ => return none

/-- Reads what stands at a location. -/
def load (l : Location) (es : DiskEntries) : IO DiskEntries := do
  match ← read? l with
  | some e => return es.insert l e
  | none => return es

/-- Reads what stands at a location and all below it. -/
partial def loadBelow (l : Location) (es : DiskEntries) : IO DiskEntries := do
  let es ← load l es
  match es[l]? with
  | some .directory =>
    match ← ((← IO.currentDir) / pathText l).readDir.toBaseIO with
    | .ok children => children.foldlM (fun es child => loadBelow (l ++ [child.fileName]) es) es
    | .error _ => return es
  | _ => return es

/-- Reads the directories that lead to a location, each with some of its files. -/
def loadParents (names : List String) (l : Location) (es : DiskEntries) : IO DiskEntries :=
  (List.range (l.length + 1)).foldlM
    (fun es n => do
      let es ← load (l.take n) es
      names.foldlM (fun es name => load (l.take n ++ [name]) es) es)
    es

/-- Writes what changed in the tree since it was read. -/
def store (before : DiskEntries) (after : FileTree) : IO Unit := do
  let left : DiskEntries := Std.HashMap.ofList after.entries
  for (l, e) in after.entries do
    match e with
    | .file bytes _ => if before[l]? ≠ some e then IO.FS.writeBinFile (pathText l) bytes
    | .directory => pure ()
  for (l, e) in before.toList do
    match e with
    | .file _ _ => if !left.contains l then IO.FS.removeFile (pathText l)
    | .directory => pure ()

end Disk

end MessageKeys
