import MessageKeys.Decimal.Shortest
import MessageKeys.Glob.Pattern
import MessageKeys.Reference.Literal
import MessageKeys.Selection
import MessageKeys.Suggestion

/-! # Configuration — what a project says about itself

    A configuration has a default for each of its settings.  `validate` finds the first
    setting, in a fixed order, that cannot be used. -/

namespace MessageKeys

/-- The settings of a project. -/
structure Config where
  includes : List String
  ignores : List String
  extensions : List String
  ignoreTestFiles : Bool
  sourceRoot : String
  messagesRoot : String
  catalogPattern : String
  /-- Without any, all catalogs that match the pattern are used. -/
  locales : List String
  primaryLocale : String
  routesRoot : String
  namespaceDepth : Nat
  messageAccessor : String
  confidenceThreshold : Float
  keepBackups : Bool

/-- Why a configuration cannot be used. -/
inductive ConfigFault where
  | ignorePattern (pattern : String)
  | includePattern (pattern : String)
  | catalogPattern (pattern : String)
  /-- The catalogs were searched with a pattern that has no place for a locale. -/
  | catalogSearch
  | messageAccessor (accessor : String)
  | confidenceThreshold (threshold : Float)
  | namespaceDepth
  | unreadable (path : Path)
  | syntaxError (path : Path)

namespace Config

/-- The name of a configuration file. -/
def fileName : String := ".nestkeyrc.json"

/-- What stands for the locale in the pattern of catalog files. -/
def placeholder : String := "\x7blocale\x7d"

/-- The settings where nothing else is said. -/
def default : Config where
  includes := ["src"]
  ignores := []
  extensions := Selection.usualExtensions
  ignoreTestFiles := true
  sourceRoot := "./"
  messagesRoot := "./messages"
  catalogPattern := placeholder ++ ".json"
  locales := []
  primaryLocale := "en"
  routesRoot := "src/routes"
  namespaceDepth := 1
  messageAccessor := "m"
  confidenceThreshold := Suggestion.leastThreshold
  keepBackups := true

instance : Inhabited Config := ⟨default⟩

/-- The threshold lies in the range that is allowed. -/
def isThreshold (t : Float) : Bool := Suggestion.leastThreshold ≤ t && t ≤ 1.0

/-- The parts of a pattern of catalog files before and after the first place for the locale. -/
def splitAtPlaceholder? : List Char → Option (List Char × List Char)
  | [] => none
  | c :: cs =>
    match Text.after? placeholder.toList (c :: cs) with
    | some rest => some ([], rest)
    | none => (splitAtPlaceholder? cs).map fun (front, rest) => (c :: front, rest)

/-- The first setting that cannot be used. -/
def validate (c : Config) : Except ConfigFault Unit :=
  match c.ignores.find? fun p => (Glob.tokens? p).isNone with
  | some p => .error (.ignorePattern p)
  | none =>
    match c.includes.find? fun p => Glob.isPattern p && (Glob.tokens? p).isNone with
    | some p => .error (.includePattern p)
    | none =>
      if (splitAtPlaceholder? c.catalogPattern.toList).isNone then
        .error (.catalogPattern c.catalogPattern)
      else if ¬ Reference.isAccessor c.messageAccessor then
        .error (.messageAccessor c.messageAccessor)
      else if ¬ isThreshold c.confidenceThreshold then
        .error (.confidenceThreshold c.confidenceThreshold)
      else if c.namespaceDepth = 0 then .error .namespaceDepth
      else .ok ()

/-- Which files are source files. -/
def selection (c : Config) : Selection :=
  ⟨c.includes, c.ignores, c.extensions, c.ignoreTestFiles⟩

/-- The directory of the source files. -/
def sourceDirectory (c : Config) (root : Path) : Path := root.joinComponents ⟨c.sourceRoot⟩

/-- The directory of the catalogs. -/
def messagesDirectory (c : Config) (root : Path) : Path := root.joinComponents ⟨c.messagesRoot⟩

end Config

/-- The wording of a fault. -/
def ConfigFault.message : ConfigFault → String
  | .ignorePattern p => "Invalid glob pattern in 'ignores': \"" ++ p ++ "\""
  | .includePattern p => "Invalid glob pattern in 'includes': \"" ++ p ++ "\""
  | .catalogPattern p =>
    "'catalogPattern' must contain " ++ Config.placeholder ++ ": \"" ++ p ++ "\""
  | .catalogSearch => "'catalogPattern' must contain " ++ Config.placeholder
  | .messageAccessor a => "'messageAccessor' is not an identifier: \"" ++ a ++ "\""
  | .confidenceThreshold t =>
    "'confidenceThreshold' must be between " ++ Decimal.shortestText Suggestion.leastThreshold
      ++ " and 1, got " ++ Decimal.shortestText t
  | .namespaceDepth => "'namespaceDepth' must be at least 1"
  | .unreadable path => "Failed to read config file: " ++ path.quoted
  | .syntaxError path => "Failed to parse config file: " ++ path.quoted

end MessageKeys
