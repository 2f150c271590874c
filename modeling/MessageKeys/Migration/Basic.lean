import MessageKeys.Catalog.File
import MessageKeys.KeyStore
import MessageKeys.Reference.Expression
import MessageKeys.Reference.SourceFile
import MessageKeys.Suggestion

/-! # Migrations — what becomes of accepted suggestions -/

namespace MessageKeys

/-- Where a suggestion stands. -/
inductive Stage where
  | pending
  | inProgress
  | completed
  | failed
  deriving DecidableEq, Repr

namespace Stage

/-- The name of a stage. -/
def text : Stage → String
  | pending => "pending"
  | inProgress => "in-progress"
  | completed => "completed"
  | failed => "failed"

/-- The stage of a name. -/
def ofText? (name : String) : Option Stage :=
  [pending, inProgress, completed, failed].find? fun s => s.text = name

/-- Nothing follows the stage. -/
def isFinal : Stage → Bool
  | completed | failed => true
  | _ => false

end Stage

/-- Why a suggestion failed. -/
inductive MigrationFault where
  /-- The key would become itself. -/
  | unchangedKey (key : String)
  | store (fault : StoreFault)
  | pattern (fault : Reference.PatternFault)
  | source (fault : SourceFault)
  | catalog (fault : CatalogFault)
  | notInCatalogs (key : String)
  | noCatalogChanged (key : String)

/-- The wording of a fault. -/
def MigrationFault.message : MigrationFault → String
  | .unchangedKey key => s!"'{key}' is already the target key"
  | .store fault => fault.message
  | .pattern fault => fault.message
  | .source fault => fault.message
  | .catalog fault => fault.message
  | .notInCatalogs key => s!"'{key}' is not in any catalog"
  | .noCatalogChanged key => s!"no catalog could be updated for '{key}'"

/-- A catalog that was passed over, and why. -/
structure Issue where
  path : Path
  fault : CatalogFault
  deriving DecidableEq, Repr

/-- A suggestion that failed, and the catalogs that were passed over on the way. -/
structure Failure where
  suggestion : Suggestion
  reason : MigrationFault
  issues : List Issue

/-- What a run did. -/
structure Outcome where
  applied : List Suggestion
  failed : List Failure
  /-- The files written for applied suggestions, in order and each once. -/
  modified : List Path
  updated : Nat
  /-- The catalogs passed over for applied suggestions. -/
  warnings : List Issue
  /-- The backups that are left, in the order of their writes. -/
  backups : List Path

namespace Outcome

/-- Nothing was done. -/
def empty : Outcome := ⟨[], [], [], 0, [], []⟩

/-- A suggestion failed. -/
def anyFailed (o : Outcome) : Bool := !o.failed.isEmpty

/-- The files to scan again; none if nothing was written. -/
def rescan? (o : Outcome) : Option (List Path) :=
  if o.modified.isEmpty then none else some o.modified

end Outcome

end MessageKeys
