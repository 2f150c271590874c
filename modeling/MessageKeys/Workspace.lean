import MessageKeys.FileTree
import MessageKeys.Path

/-! # Workspaces — a file tree with a place to stand and a clock

    A workspace is all that an operation on files depends on: the tree, the directory that
    relative paths start from, and the readings of a clock that are still to come.  Paths are
    followed name by name; every name but the last must lead to a directory.  A path with a
    NUL character, without any character or too long as a whole leads nowhere. -/

namespace MessageKeys

/-- A file tree, the current directory and a clock. -/
structure Workspace where
  tree : FileTree
  here : Location
  /-- The readings of the clock. -/
  clock : Nat → String
  /-- How many readings were taken. -/
  ticks : Nat

namespace Workspace

/-- The longest name, in bytes. -/
def maxNameSize : Nat := 255

/-- The longest path, in bytes. -/
def maxPathSize : Nat := 4095

/-- Follows the segments of a path from a location. -/
def follow (t : FileTree) (l : Location) : List String → Except FileFault Location
  | [] => .ok l
  | s :: rest =>
    match t.get? l with
    | none => .error .notFound
    | some (.file _ _) => .error .notDirectory
    | some .directory =>
      if Path.isVoid s then follow t l rest
      else if s = ".." then follow t l.dropLast rest
      else if maxNameSize < s.utf8ByteSize then .error .nameTooLong
      else follow t (l ++ [s]) rest

/-- The location of a path; its last name need not be there. -/
def locate (w : Workspace) (p : Path) : Except FileFault Location :=
  if p.text.toList.contains (Char.ofNat 0) then .error .nulInPath
  else if p.text = "" then .error .notFound
  else if maxPathSize < p.text.utf8ByteSize then .error .nameTooLong
  else follow w.tree (if p.isAbsolute then [] else w.here) (Text.split '/' p.text)

/-- What stands at a path. -/
def entry (w : Workspace) (p : Path) : Except FileFault Entry :=
  match w.locate p with
  | .error fault => .error fault
  | .ok l =>
    match w.tree.get? l with
    | none => .error .notFound
    | some e => .ok e

/-- Something stands at the path. -/
def exists? (w : Workspace) (p : Path) : Bool := (w.entry p).isOk

/-- A file stands at the path. -/
def isFile (w : Workspace) (p : Path) : Bool :=
  match w.entry p with
  | .ok (.file _ _) => true
  | _ => false

/-- A directory stands at the path. -/
def isDirectory (w : Workspace) (p : Path) : Bool :=
  match w.entry p with
  | .ok .directory => true
  | _ => false

/-- A file stands at the path that must not be written. -/
def isReadOnly (w : Workspace) (p : Path) : Bool :=
  match w.entry p with
  | .ok (.file _ readOnly) => readOnly
  | _ => false

/-- The bytes of a file. -/
def readBytes (w : Workspace) (p : Path) : Except FileFault ByteArray :=
  match w.entry p with
  | .error fault => .error fault
  | .ok .directory => .error .isDirectory
  | .ok (.file bytes _) => .ok bytes

/-- The text of a file. -/
def readText (w : Workspace) (p : Path) : Except FileFault String :=
  match w.readBytes p with
  | .error fault => .error fault
  | .ok bytes =>
    match String.fromUTF8? bytes with
    | none => .error .notUtf8
    | some text => .ok text

/-- Puts an entry at a path where no directory stands. -/
def put (w : Workspace) (p : Path) (e : Option Entry → Entry) : Except FileFault Workspace :=
  match w.locate p with
  | .error fault => .error fault
  | .ok l =>
    match w.tree.get? l with
    | some .directory => .error .isDirectory
    | old => .ok { w with tree := w.tree.set l (e old) }

/-- Writes a file; one that is there may be written or not as before. -/
def write (w : Workspace) (p : Path) (bytes : ByteArray) : Except FileFault Workspace :=
  w.put p fun
    | some (.file _ readOnly) => .file bytes readOnly
    | _ => .file bytes false

/-- Writes a text as a file. -/
def writeText (w : Workspace) (p : Path) (text : String) : Except FileFault Workspace :=
  w.write p text.toUTF8

/-- Copies a file, with whether it may be written. -/
def copy (w : Workspace) (source target : Path) : Except FileFault Workspace :=
  match w.entry source with
  | .error fault => .error fault
  | .ok .directory => .error .notRegular
  | .ok (.file bytes readOnly) => w.put target fun _ => .file bytes readOnly

/-- Takes a file away; where there is none, nothing changes. -/
def remove (w : Workspace) (p : Path) : Workspace :=
  match w.locate p with
  | .error _ => w
  | .ok l =>
    match w.tree.get? l with
    | some (.file _ _) => { w with tree := w.tree.erase l }
    | _ => w

/-- The names in a directory, in order. -/
def names? (w : Workspace) (p : Path) : Option (List String) :=
  match w.locate p with
  | .error _ => none
  | .ok l =>
    match w.tree.get? l with
    | some .directory => some (w.tree.names l)
    | _ => none

/-- Takes a reading of the clock. -/
def tick (w : Workspace) : String × Workspace :=
  (w.clock w.ticks, { w with ticks := w.ticks + 1 })

/-- The path of the current directory. -/
def herePath (w : Workspace) : Path := ⟨"/" ++ Text.join '/' w.here⟩

/-! ## Walking -/

/-- All that lies below a path, each directory followed by what lies below it; `child` gives
    the path of a name in a directory. -/
def below (w : Workspace) (child : Path → String → Path) : Nat → Path → List Path
  | 0, _ => []
  | n + 1, p =>
    match w.names? p with
    | none => []
    | some names =>
      names.flatMap fun name => child p name :: below w child n (child p name)

/-- The path itself and all that lies below it; nothing if it does not exist. -/
def walk (w : Workspace) (p : Path) : List Path :=
  if w.exists? p then p :: w.below (fun q name => q.join ⟨name⟩) w.tree.height p else []

end Workspace

end MessageKeys
