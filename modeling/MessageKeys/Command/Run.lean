import MessageKeys.Command.Arguments
import MessageKeys.Migration.Run

/-! # Commands — what each one does

    `scan` and `suggest` only read.  `apply` reads too, unless it is told to write; then it
    migrates the suggestions that were asked for and scans the changed files again.  `init`
    writes a configuration file where there is none. -/

namespace MessageKeys.Command

/-- What `apply` found and did. -/
structure Application where
  suggestions : List Suggestion
  /-- Keys that were asked for and have no suggestion. -/
  withoutSuggestion : List String
  /-- The source files that reference the keys. -/
  sourceFiles : List String
  catalogCount : Nat
  /-- What was done; none if nothing was to be written. -/
  outcome : Option Outcome
  /-- The number of keys after the changed files were scanned again. -/
  keysAfter : Option Nat

/-- What a command found. -/
inductive Summary where
  | scan (index : Reference.Index)
  | suggest (suggestions : List Suggestion) (threshold : Float)
  | apply (application : Application)
  | init (created : Bool)

/-- The result of a command. -/
structure Result where
  summary : Summary
  scanFaults : List ScanFault
  sourceCount : Nat
  /-- Reports show paths relative to it. -/
  root : Path

/-- How a command ended. -/
inductive ExitStatus where
  | success
  | failure
  | error
  deriving DecidableEq, Repr

/-- The number of an exit status. -/
def ExitStatus.code : ExitStatus → Nat
  | success => 0
  | failure => 1
  | error => 2

/-- How a command with this result ended. -/
def Result.exitStatus (r : Result) : ExitStatus :=
  match r.summary with
  | .apply a =>
    match a.outcome with
    | some o => if o.anyFailed then .failure else .success
    | none => .success
  | .init false => .failure
  | _ => .success

/-! ## The commands -/

/-- The threshold that was given or configured. -/
def thresholdFor (o : Options) (p : Project) : Except CommandFault Float :=
  let t := (o.threshold.map Decimal.Reading.toFloat).getD p.config.confidenceThreshold
  if Config.isThreshold t then .ok (Suggestion.clampThreshold t) else .error (.threshold t)

/-- The suggestions for keys that were asked for, and the keys that have none; without keys,
    all suggestions. -/
def select (suggestions : List Suggestion) (keys : List String) :
    List Suggestion × List String :=
  if keys.isEmpty then (suggestions, [])
  else
    (suggestions.filter fun s => keys.contains s.key,
      keys.filter fun k => !suggestions.any fun s => s.key = k)

/-- The source files that reference the keys of suggestions. -/
def sourceFilesOf (ix : Reference.Index) (suggestions : List Suggestion) : List String :=
  (NameSet.ofNames (suggestions.flatMap fun s => s.files ++ ix.filesOf s.key)).names

/-- What a migration in a project works with. -/
def migrationSettings (p : Project) : Migration.Settings :=
  { catalogs := p.catalogPaths
    accessor := p.config.messageAccessor
    keepBackups := p.config.keepBackups
    sourceRoot := some p.sourceDirectory
    index := some p.index }

/-- Migrates suggestions: what was done, the number of keys afterwards, and the files. -/
def migrate (w : Workspace) (p : Project) (suggestions : List Suggestion) :
    Outcome × Option Nat × Workspace :=
  let st := Migration.run (migrationSettings p) w (p.keyStore w) suggestions
  let after := st.outcome.rescan?.map fun changed =>
    (p.refresh st.workspace changed).index.keys.length
  (st.outcome, after, st.workspace)

/-- The result of a command that works on a project. -/
def projectResult (p : Project) (summary : Summary) : Result :=
  ⟨summary, p.scanFaults, p.sourceCount, p.root⟩

/-- Scans the sources. -/
def runScan (w : Workspace) (o : Options) : Except CommandFault (Result × Workspace) :=
  match Project.load w o.project with
  | .error fault => .error fault
  | .ok p => .ok (projectResult p (.scan p.index), w)

/-- Finds suggestions. -/
def runSuggest (w : Workspace) (o : Options) : Except CommandFault (Result × Workspace) :=
  match Project.load w o.project with
  | .error fault => .error fault
  | .ok p =>
    match thresholdFor o p with
    | .error fault => .error fault
    | .ok t => .ok (projectResult p (.suggest (p.suggestions t) t), w)

/-- Finds the suggestions that were asked for, and migrates them if told to. -/
def runApply (w : Workspace) (o : Options) : Except CommandFault (Result × Workspace) :=
  match Project.load w o.project with
  | .error fault => .error fault
  | .ok p =>
    match thresholdFor o p with
    | .error fault => .error fault
    | .ok t =>
      let (suggestions, unmatched) := select (p.suggestions t) o.keys
      let files := sourceFilesOf p.index suggestions
      let count := p.catalogs.length
      if o.apply && !suggestions.isEmpty then
        let (outcome, after, w) := migrate w p suggestions
        .ok (projectResult p (.apply ⟨suggestions, unmatched, files, count, some outcome, after⟩),
          w)
      else .ok (projectResult p (.apply ⟨suggestions, unmatched, files, count, none, none⟩), w)

/-- Writes the default configuration to the current directory, unless there is one. -/
def runInit (w : Workspace) : Except CommandFault (Result × Workspace) :=
  let file := w.herePath.join ⟨Config.fileName⟩
  let result (created : Bool) : Result := ⟨.init created, [], 0, w.herePath⟩
  if w.exists? file then .ok (result false, w)
  else
    match w.writeText file Config.defaultText with
    | .error cause => .error (.writeConfig cause)
    | .ok w => .ok (result true, w)

/-- Runs a command line; none if it names no command. -/
def run? (w : Workspace) : Arguments → Option (Except CommandFault (Result × Workspace))
  | .nothing => none
  | .init => some (runInit w)
  | .project .scan o => some (runScan w o)
  | .project .suggest o => some (runSuggest w o)
  | .project .apply o => some (runApply w o)

/-- More output is asked for. -/
def Arguments.verbose : Arguments → Bool
  | .project _ o => o.verbose
  | _ => false

end MessageKeys.Command
