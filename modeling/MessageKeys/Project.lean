import MessageKeys.Config.Catalogs
import MessageKeys.Config.Discovery
import MessageKeys.KeyStore
import MessageKeys.Catalog.File
import MessageKeys.Route

/-! # Projects — configuration, sources and catalogs of one directory

    Loading a project finds its configuration, scans its source files and finds its catalogs.
    The index stays with the project and follows its files by `refresh`. -/

namespace MessageKeys

/-- Why a command did not run. -/
inductive CommandFault where
  | config (fault : ConfigFault)
  | patterns (fault : Reference.PatternFault)
  | catalogs (fault : ConfigFault)
  | threshold (t : Float)
  | writeConfig (cause : FileFault)

/-- The wording of a fault. -/
def CommandFault.message : CommandFault → String
  | .config fault => fault.message
  | .patterns _ => "Failed to compile reference patterns"
  | .catalogs _ => "Failed to resolve catalog files"
  | .threshold t =>
    "--threshold must be between " ++ Decimal.shortestText Suggestion.leastThreshold
      ++ " and 1, got " ++ Decimal.shortestText t
  | .writeConfig _ => "Failed to write " ++ Config.fileName

/-- Where a project is, and which of its settings are replaced. -/
structure ProjectArguments where
  path : Option String
  sourceRoot : Option String
  messagesRoot : Option String
  deriving DecidableEq, Repr

/-- A project that was loaded. -/
structure Project where
  config : Config
  root : Path
  sourceDirectory : Path
  table : List Reference.Pattern
  index : Reference.Index
  catalogs : List LocaleFile
  sourceCount : Nat
  scanFaults : List ScanFault

namespace Project

/-- The configuration with the settings that are replaced. -/
def configFor (a : ProjectArguments) (c : Config) : Config :=
  { c with
    sourceRoot := a.sourceRoot.getD c.sourceRoot
    messagesRoot := a.messagesRoot.getD c.messagesRoot }

/-- Loads the project of a directory; the current one unless another is named. -/
def load (w : Workspace) (a : ProjectArguments) : Except CommandFault Project :=
  let start := (a.path.map Path.mk).getD w.herePath
  match Config.load w start with
  | .error fault => .error (.config fault)
  | .ok loaded =>
    let config := configFor a loaded.config
    let sourceDirectory := config.sourceDirectory loaded.root
    match Reference.tableFor config.messageAccessor with
    | .error fault => .error (.patterns fault)
    | .ok table =>
      let names := (config.selection.collect w sourceDirectory).files
      let read := SourceFiles.read w sourceDirectory false names
      match config.catalogs w loaded.root with
      | .error fault => .error (.catalogs fault)
      | .ok catalogs =>
        .ok
          { config := config
            root := loaded.root
            sourceDirectory := sourceDirectory
            table := table
            index := Reference.Index.ofSources table read.files
            catalogs := catalogs
            sourceCount := read.files.length
            scanFaults := read.faults }

/-- The route that gives source files their namespace. -/
def route (p : Project) : Route := Route.ofPath p.config.routesRoot p.config.namespaceDepth

/-- The paths of the catalogs. -/
def catalogPaths (p : Project) : List Path := p.catalogs.map (·.path)

/-- The catalog of the primary locale. -/
def primaryCatalog? (p : Project) : Option LocaleFile :=
  p.catalogs.find? fun c => c.locale = p.config.primaryLocale

/-- The suggestions that do not lie below a threshold. -/
def suggestions (p : Project) (threshold : Float) : List Suggestion :=
  Suggestion.forIndex threshold p.route.namespaceOf? p.index

/-- The name of a changed file that is a source file of the project. -/
def sourceName? (p : Project) (file : Path) : Option String :=
  if p.config.selection.hasSourceExtension file then Path.relativeText? p.sourceDirectory file
  else none

/-- The project after files changed: they are read again, and those that cannot be read have
    no sites any more. -/
def refresh (p : Project) (w : Workspace) (changed : List Path) : Project :=
  let read := SourceFiles.read w p.sourceDirectory false (changed.filterMap p.sourceName?)
  { p with index := p.index.follow p.table read.files (read.faults.map ScanFault.path) }

/-- The catalogs, the one of the primary locale first. -/
def catalogsInOrder (p : Project) : List LocaleFile :=
  match p.primaryCatalog? with
  | none => p.catalogs
  | some primary => primary :: p.catalogs.filter fun c => c ≠ primary

/-- The store of all messages; the first catalog that has a key gives its message, and one
    that cannot be read gives none. -/
def keyStore (p : Project) (w : Workspace) : KeyStore :=
  p.catalogsInOrder.foldl
    (fun store c =>
      match Catalog.loadMessages w c.path with
      | .ok messages => store.addMissing messages
      | .error _ => store)
    KeyStore.empty

end Project

end MessageKeys
