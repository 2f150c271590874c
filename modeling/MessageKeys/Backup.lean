import MessageKeys.Workspace

/-! # Backups — a copy of a file from before it is written

    `writeWithBackup` writes a file only after its bytes were copied to a new file beside it,
    `name.stamp.bak`.  A stamp that is taken gets a number, so no file is overwritten by a
    backup.  The copy stays until the change it guards is known to be good. -/

namespace MessageKeys

/-- A file and the copy of what it held. -/
structure Backup where
  file : Path
  copy : Path
  deriving DecidableEq, Repr

/-- Why a guarded write did not happen. -/
inductive WriteFault where
  | readOnly
  | backup (cause : FileFault)
  | write (cause : FileFault)
  deriving DecidableEq, Repr

namespace Backup

/-- The name of the copy of a file for a stamp. -/
def pathFor (p : Path) (stamp : String) : Path :=
  p.withFileName ((p.fileName?.getD "") ++ "." ++ stamp ++ ".bak")

/-- The names for a stamp: first the stamp alone, then with a number. -/
def candidates (p : Path) (stamp : String) (count : Nat) : List Path :=
  pathFor p stamp :: (List.range count).map fun n => pathFor p s!"{stamp}-{n + 1}"

/-- The first of the names that is not taken. -/
def freshPath (w : Workspace) (p : Path) (stamp : String) : Path :=
  ((candidates p stamp w.tree.height).find? fun q => !w.exists? q).getD (pathFor p stamp)

/-- Copies a file to a new name beside it. -/
def create (w : Workspace) (p : Path) : Except FileFault (Backup × Workspace) :=
  let (stamp, w) := w.tick
  let copy := freshPath w p stamp
  (w.copy p copy).map fun w => (⟨p, copy⟩, w)

/-- Puts back what the file held; the copy stays. -/
def restore (b : Backup) (w : Workspace) : Except FileFault Workspace := w.copy b.copy b.file

/-- Puts back what the file held, if that is possible. -/
def restoreIfPossible (b : Backup) (w : Workspace) : Workspace :=
  match b.restore w with
  | .ok w => w
  | .error _ => w

/-- Keeps the copy and tells its path, or takes it away. -/
def finish (b : Backup) (keep : Bool) (w : Workspace) : Option Path × Workspace :=
  if keep then (some b.copy, w) else (none, w.remove b.copy)

end Backup

/-- Writes a text to a file that may be written and was copied before. -/
def writeWithBackup (w : Workspace) (p : Path) (text : String) :
    Except WriteFault (Backup × Workspace) :=
  if w.isReadOnly p then .error .readOnly
  else
    match Backup.create w p with
    | .error cause => .error (.backup cause)
    | .ok (backup, w) =>
      match w.writeText p text with
      | .error cause => .error (.write cause)
      | .ok w => .ok (backup, w)

end MessageKeys
