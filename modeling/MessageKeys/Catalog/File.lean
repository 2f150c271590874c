import MessageKeys.Backup
import MessageKeys.Catalog.Editor

/-! # Catalog files — moving a message in a file

    A catalog file is read whole, changed as a tree and written through a backup, and only if
    the message was there and the move was verified. -/

namespace MessageKeys.Catalog

/-- The catalog of a file, with nothing lost. -/
def load (w : Workspace) (p : Path) : Except CatalogFault Catalog :=
  match w.readText p with
  | .error cause => .error (.read p cause)
  | .ok text => parse p text

/-- The flat messages of a file. -/
def loadMessages (w : Workspace) (p : Path) : Except CatalogFault Messages :=
  match w.readText p with
  | .error cause => .error (.read p cause)
  | .ok text => parseMessages p text

/-- The catalog fault of a write that did not happen. -/
def faultOfWrite (p : Path) : WriteFault → CatalogFault
  | .readOnly => .readOnly p
  | .backup cause => .backup p cause
  | .write cause => .write p cause

/-- Writes a catalog through a backup and reads the file again. -/
def save (w : Workspace) (p : Path) (c : Catalog) :
    Except CatalogFault (Backup × Workspace) :=
  match writeWithBackup w p c.render with
  | .error fault => .error (faultOfWrite p fault)
  | .ok (backup, w) =>
    match w.readText p with
    | .ok text => if text = c.render then .ok (backup, w) else .error (.differs p)
    | .error _ => .error (.differs p)

/-- Moves a message in a file; none if the file does not have it. -/
def moveInFile (w : Workspace) (p : Path) (source target : String) :
    Except CatalogFault (Option (Backup × Workspace)) :=
  match load w p with
  | .error fault => .error fault
  | .ok c =>
    match c.move source target with
    | .error fault => .error fault
    | .ok none => .ok none
    | .ok (some (_, next)) => (save w p next).map some

end MessageKeys.Catalog
