import MessageKeys.Backup
import MessageKeys.Reference.Renaming

/-! # Source files — renaming the references in a file

    A file without a reference to the old key is not written.  One that has some is written
    through a backup, so that a later step that fails can put back what it held. -/

namespace MessageKeys

/-- Why the references in a source file were not renamed. -/
inductive SourceFault where
  | read (path : Path) (cause : FileFault)
  | readOnly (path : Path)
  | backup (path : Path) (cause : FileFault)
  | write (path : Path) (cause : FileFault)
  deriving DecidableEq, Repr

/-- The wording of a fault. -/
def SourceFault.message : SourceFault → String
  | .read path cause => s!"failed to read {path.text}: {cause.message}"
  | .readOnly path => s!"{path.text} is read-only"
  | .backup path cause => s!"failed to back up {path.text}: {cause.message}"
  | .write path cause => s!"failed to write {path.text}: {cause.message}"

namespace Reference.Renaming

/-- The fault for a source file when its write did not happen. -/
def faultOfWrite (p : Path) : WriteFault → SourceFault
  | .readOnly => .readOnly p
  | .backup cause => .backup p cause
  | .write cause => .write p cause

/-- Renames the references in a file; none if it has no reference to the old key. -/
def applyToFile (r : Renaming) (w : Workspace) (p : Path) :
    Except SourceFault (Option (Backup × Workspace)) :=
  match w.readText p with
  | .error cause => .error (.read p cause)
  | .ok text =>
    match r.applyTo? text with
    | none => .ok none
    | some text =>
      match writeWithBackup w p text with
      | .error fault => .error (faultOfWrite p fault)
      | .ok written => .ok (some written)

end Reference.Renaming

end MessageKeys
