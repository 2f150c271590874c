import MessageKeys.Dictionary.Basic
import MessageKeys.Glob.Walk
import MessageKeys.Reference.Site

/-! # Selections — which files of a directory are source files

    A selection names the directories that are searched, the files and directories that are
    left out, and the extensions of source files.  A name without wildcards is a path, and
    leaves out or takes in all below it; one with wildcards is a pattern.

    Files are named relative to the base directory, components joined by slashes, in order
    and each once, however often the searched directories overlap. -/

namespace MessageKeys

/-- Which files are source files. -/
structure Selection where
  /-- Directories to search; without any, the base directory is searched. -/
  includes : List String
  ignores : List String
  /-- Extensions without their point. -/
  extensions : List String
  skipTests : Bool
  deriving DecidableEq, Repr

/-- A source file that could not be read. -/
inductive ScanFault where
  | read (path : String) (cause : FileFault)
  /-- The file is no text. -/
  | decode (path : String)
  deriving DecidableEq, Repr

namespace ScanFault

/-- The file that could not be read. -/
def path : ScanFault → String
  | .read path _ => path
  | .decode path => path

/-- The wording of a fault. -/
def message : ScanFault → String
  | .read path cause => s!"failed to read {path}: {cause.message}"
  | .decode path => s!"{path} is not valid UTF-8"

end ScanFault

namespace Selection

/-- Patterns of files that hold tests and stories. -/
def testPatterns : List String :=
  ["**/*.test.ts", "**/*.test.js", "**/*.spec.ts", "**/*.spec.js", "**/*.test.tsx",
    "**/*.spec.tsx", "**/*.test.jsx", "**/*.spec.jsx", "**/*.stories.svelte", "**/__tests__/**"]

/-- The extensions that are source files unless others are named. -/
def usualExtensions : List String := ["svelte", "ts", "js", "tsx", "jsx"]

/-- The paths that are left out with all below them. -/
def ignoredPaths (s : Selection) (base : Path) : List Path :=
  (s.ignores.filter fun p => !Glob.isPattern p).map fun p => base.join ⟨p⟩

/-- The patterns that are left out; what is no pattern leaves nothing out. -/
def ignoredPatterns (s : Selection) : List (List Glob.Token) :=
  ((s.ignores.filter Glob.isPattern) ++ (if s.skipTests then testPatterns else [])).filterMap
    Glob.tokens?

/-- The directories that an include names; a file may be named too. -/
def expandInclude (w : Workspace) (base : Path) (include_ : String) : List Path :=
  let full := base.join ⟨include_⟩
  if Glob.isPattern include_ then ((Glob.expand? w full.text).getD []).filter w.isDirectory
  else if w.exists? full then [full]
  else []

/-- The places where the search starts. -/
def starts (s : Selection) (w : Workspace) (base : Path) : List Path :=
  if s.includes.isEmpty then [base] else s.includes.flatMap (expandInclude w base)

/-- The path has one of the extensions. -/
def hasSourceExtension (s : Selection) (p : Path) : Bool :=
  match p.extension? with
  | some e => s.extensions.contains e
  | none => false

/-- The name of a path that is a source file. -/
def select? (s : Selection) (w : Workspace) (base p : Path) : Option String :=
  if (s.ignoredPaths base).any p.startsWith then none
  else
    match Path.relativeText? base p with
    | none => none
    | some name =>
      if s.ignoredPatterns.any (Glob.isMatch · name) then none
      else if w.isFile p && s.hasSourceExtension p then some name
      else none

/-- Source files, and how many places could not be searched. -/
structure Collected where
  files : List String
  skipped : Nat
  deriving DecidableEq, Repr

/-- The source files of a base directory. -/
def collect (s : Selection) (w : Workspace) (base : Path) : Collected :=
  let starts := s.starts w base
  let found := (starts.flatMap w.walk).filterMap (s.select? w base)
  ⟨(NameSet.ofNames found).names, (starts.filter fun p => !w.exists? p).length⟩

end Selection

/-! ## Reading -/

/-- Source files that were read, and those that could not be. -/
structure SourceFiles where
  files : List Reference.Source
  faults : List ScanFault
  cancelled : Bool

namespace SourceFiles

/-- Reads a file below a base directory. -/
def readOne (w : Workspace) (base : Path) (name : String) : Except ScanFault Reference.Source :=
  match w.readBytes (base.join ⟨name⟩) with
  | .error cause => .error (.read name cause)
  | .ok bytes =>
    match String.fromUTF8? bytes with
    | none => .error (.decode name)
    | some text => .ok ⟨name, text⟩

/-- Reads files below a base directory, unless the work was cancelled. -/
def read (w : Workspace) (base : Path) (cancelled : Bool) (names : List String) : SourceFiles :=
  let results := if cancelled then [] else names.map (readOne w base)
  { files := results.filterMap Except.toOption
    faults := results.filterMap fun
      | .error fault => some fault
      | .ok _ => none
    cancelled }

end SourceFiles

end MessageKeys
