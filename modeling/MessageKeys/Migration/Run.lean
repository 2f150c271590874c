import MessageKeys.Migration.Basic

/-! # Running migrations — keys move in sources and catalogs together

    Each suggestion is taken on its own.  Its key is renamed in the store, then in the source
    files, then in the catalogs.  If any step before the catalogs fails, or no catalog could
    be changed, every file written for it gets back what it held and the store its key; what
    earlier suggestions did stays. -/

namespace MessageKeys.Migration

/-- What a run works with. -/
structure Settings where
  catalogs : List Path
  accessor : String
  keepBackups : Bool
  /-- Where relative source files are. -/
  sourceRoot : Option Path
  /-- Names further files that reference a key. -/
  index : Option Reference.Index

/-- The files as they are, the store as it is, and what was done for one suggestion. -/
structure Trail where
  workspace : Workspace
  store : KeyStore
  renamed : Bool
  sources : List Backup
  catalogs : List Backup
  issues : List Issue

namespace Trail

/-- Nothing was done yet. -/
def start (w : Workspace) (store : KeyStore) : Trail := ⟨w, store, false, [], [], []⟩

/-- All backups in the order of their writes. -/
def backups (p : Trail) : List Backup := p.sources ++ p.catalogs

end Trail

/-- Where a source file is. -/
def Settings.resolve (s : Settings) (file : String) : Path :=
  match s.sourceRoot with
  | some root => if (Path.mk file).isAbsolute then ⟨file⟩ else root.join ⟨file⟩
  | none => ⟨file⟩

/-- The source files of a suggestion: its own, and those that the index names for its key. -/
def Settings.sourceFiles (s : Settings) (suggestion : Suggestion) : List Path :=
  let indexed := match s.index with
    | some ix => ix.filesOf suggestion.key
    | none => []
  (NameSet.ofNames (suggestion.files ++ indexed)).names.map s.resolve

/-- Renames the references in source files in order, up to the first file that fails. -/
def renameInSources (r : Reference.Renaming) : List Path → Trail → Trail × Option SourceFault
  | [], p => (p, none)
  | file :: rest, p =>
    match r.applyToFile p.workspace file with
    | .error fault => (p, some fault)
    | .ok none => renameInSources r rest p
    | .ok (some (backup, w)) =>
      renameInSources r rest { p with workspace := w, sources := p.sources ++ [backup] }

/-- Moves a message in every catalog that has it; those that cannot be changed are noted. -/
def moveInFiles (source target : String) : List Path → Trail → Trail
  | [], p => p
  | file :: rest, p =>
    match Catalog.moveInFile p.workspace file source target with
    | .error fault =>
      moveInFiles source target rest { p with issues := p.issues ++ [⟨file, fault⟩] }
    | .ok none => moveInFiles source target rest p
    | .ok (some (backup, w)) =>
      moveInFiles source target rest
        { p with workspace := w, catalogs := p.catalogs ++ [backup] }

/-- Applies a suggestion as far as it goes. -/
def attempt (s : Settings) (suggestion : Suggestion) (p : Trail) :
    Trail × Option MigrationFault :=
  let source := suggestion.key
  let target := suggestion.newKey
  if source = target then (p, some (.unchangedKey source))
  else
    match p.store.rename source target with
    | .error fault => (p, some (.store fault))
    | .ok (_, store) =>
      let references := Reference.Renaming.ofKeys s.accessor source target
      match renameInSources references (s.sourceFiles suggestion)
          { p with store := store, renamed := true } with
      | (p, some fault) => (p, some (.source fault))
      | (p, none) =>
        let p := moveInFiles source target s.catalogs p
        if p.catalogs.isEmpty then
          if p.issues.isEmpty then (p, some (.notInCatalogs source))
          else (p, some (.noCatalogChanged source))
        else (p, none)

/-- Gives every written file back what it held, and the store its key. -/
def undo (suggestion : Suggestion) (p : Trail) : Trail :=
  let w := p.backups.foldl (fun w b => b.restoreIfPossible w) p.workspace
  let store :=
    if p.renamed then
      match p.store.rename suggestion.newKey suggestion.key with
      | .ok (_, store) => store
      | .error _ => p.store
    else p.store
  { p with workspace := w, store := store }

/-- Keeps or drops backups in order; those that are kept. -/
def finishBackups (keep : Bool) : List Backup → Workspace → List Path × Workspace
  | [], w => ([], w)
  | b :: rest, w =>
    let (kept, w) := b.finish keep w
    let (more, w) := finishBackups keep rest w
    (kept.toList ++ more, w)

/-- Files, store and outcome between two suggestions. -/
structure State where
  workspace : Workspace
  store : KeyStore
  outcome : Outcome

/-- Takes one suggestion. -/
def step (s : Settings) (st : State) (suggestion : Suggestion) : State :=
  let o := st.outcome
  match attempt s suggestion (Trail.start st.workspace st.store) with
  | (p, none) =>
    let (kept, w) := finishBackups s.keepBackups p.backups p.workspace
    { workspace := w
      store := p.store
      outcome :=
        { o with
          applied := o.applied ++ [suggestion]
          modified := p.backups.foldl (fun ps b => Path.insertOrdered b.file ps) o.modified
          updated := o.updated + 1
          warnings := o.warnings ++ p.issues
          backups := o.backups ++ kept } }
  | (p, some reason) =>
    let p := undo suggestion p
    { workspace := p.workspace
      store := p.store
      outcome :=
        { o with
          failed := o.failed ++ [⟨suggestion, reason, p.issues⟩]
          backups := o.backups ++ p.backups.map Backup.copy } }

/-- Takes suggestions in order. -/
def run (s : Settings) (w : Workspace) (store : KeyStore) (suggestions : List Suggestion) :
    State :=
  suggestions.foldl (step s) ⟨w, store, Outcome.empty⟩

end MessageKeys.Migration
