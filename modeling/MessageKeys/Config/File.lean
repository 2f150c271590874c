import MessageKeys.Config.Basic
import MessageKeys.Json.Printer

/-! # Configuration files — settings as JSON

    A configuration is an object whose members are settings, or an array of settings in
    their order.  A setting that is not there has its default; a setting that is there twice
    or has a value of the wrong kind makes the file useless.  Other members mean nothing and
    are not looked into: they may nest to any depth and hold numbers of any size. -/

namespace MessageKeys.Config

open Json (Document Value)

/-! ## Reading values -/

/-- A text. -/
def asText? : Document → Option String
  | .text q => Value.text? q
  | _ => none

/-- A list of texts. -/
def asTexts? : Document → Option (List String)
  | .array items => items.mapM asText?
  | _ => none

/-- A truth value. -/
def asBool? : Document → Option Bool
  | .bool b => some b
  | _ => none

/-- A whole number of 64 bits. -/
def asWord? : Document → Option Nat
  | .number n => n.toWord?
  | _ => none

/-- A number. -/
def asFloat? : Document → Option Float
  | .number n => n.toFloat?
  | _ => none

/-! ## Reading settings -/

/-- The settings in their order: the name of each, and how its value changes a
    configuration. -/
def settings : List (String × (Document → Config → Option Config)) :=
  [("includes", fun d c => (asTexts? d).map fun v => { c with includes := v }),
    ("ignores", fun d c => (asTexts? d).map fun v => { c with ignores := v }),
    ("extensions", fun d c => (asTexts? d).map fun v => { c with extensions := v }),
    ("ignoreTestFiles", fun d c => (asBool? d).map fun v => { c with ignoreTestFiles := v }),
    ("sourceRoot", fun d c => (asText? d).map fun v => { c with sourceRoot := v }),
    ("messagesRoot", fun d c => (asText? d).map fun v => { c with messagesRoot := v }),
    ("catalogPattern", fun d c => (asText? d).map fun v => { c with catalogPattern := v }),
    ("locales", fun d c => (asTexts? d).map fun v => { c with locales := v }),
    ("primaryLocale", fun d c => (asText? d).map fun v => { c with primaryLocale := v }),
    ("routesRoot", fun d c => (asText? d).map fun v => { c with routesRoot := v }),
    ("namespaceDepth", fun d c => (asWord? d).map fun v => { c with namespaceDepth := v }),
    ("messageAccessor", fun d c => (asText? d).map fun v => { c with messageAccessor := v }),
    ("confidenceThreshold",
      fun d c => (asFloat? d).map fun v => { c with confidenceThreshold := v }),
    ("keepBackups", fun d c => (asBool? d).map fun v => { c with keepBackups := v })]

/-- The escapes in the document's texts and names are well formed, whether or not they name
    characters. -/
def hasEscapes (quoted : List Char) : Bool := (Json.Quoted.pieces? quoted).isSome

mutual

/-- All texts and names of a document that means nothing are well formed. -/
def isWellFormed : Document → Bool
  | .text q => hasEscapes q
  | .array items => areWellFormed items
  | .object members => membersWellFormed members
  | _ => true

/-- All texts and names in the items are well formed. -/
def areWellFormed : List Document → Bool
  | [] => true
  | d :: rest => isWellFormed d && areWellFormed rest

/-- All texts and names in the members are well formed. -/
def membersWellFormed : List (List Char × Document) → Bool
  | [] => true
  | (q, d) :: rest => hasEscapes q && isWellFormed d && membersWellFormed rest

end

/-- Takes in the members of an object; `seen` are the settings that are set already. -/
def readMembers (c : Config) (seen : List String) :
    List (List Char × Document) → Option Config
  | [] => some c
  | (q, d) :: rest =>
    match Value.text? q with
    | none => none
    | some name =>
      match settings.lookup name with
      | none => if isWellFormed d then readMembers c seen rest else none
      | some set =>
        if seen.contains name then none
        else
          match set d c with
          | none => none
          | some c => readMembers c (name :: seen) rest

/-- Takes in the items of an array, setting by setting. -/
def readItems (c : Config) :
    List (String × (Document → Config → Option Config)) → List Document → Option Config
  | _, [] => some c
  | [], _ :: _ => none
  | (_, set) :: settings, d :: rest =>
    match set d c with
    | none => none
    | some c => readItems c settings rest

/-- The configuration of a document. -/
def ofDocument? : Document → Option Config
  | .object members => readMembers default [] members
  | .array items => readItems default settings items
  | _ => none

/-- The configuration of a file's text. -/
def parse? (text : String) : Option Config :=
  (Document.ofChars? text.toList).bind ofDocument?

/-! ## Writing -/

/-- A list of texts as a value. -/
def textsValue (texts : List String) : Value := .array (texts.map Value.string)

/-- The default settings as a value. -/
def defaultValue : Value :=
  .object
    [("includes", textsValue default.includes),
      ("ignores", textsValue default.ignores),
      ("extensions", textsValue default.extensions),
      ("ignoreTestFiles", .bool default.ignoreTestFiles),
      ("sourceRoot", .string default.sourceRoot),
      ("messagesRoot", .string default.messagesRoot),
      ("catalogPattern", .string default.catalogPattern),
      ("locales", textsValue default.locales),
      ("primaryLocale", .string default.primaryLocale),
      ("routesRoot", .string default.routesRoot),
      ("namespaceDepth", .number (.ofNat default.namespaceDepth)),
      ("messageAccessor", .string default.messageAccessor),
      ("confidenceThreshold", .number ⟨false, [0], [6], none⟩),
      ("keepBackups", .bool default.keepBackups)]

/-- The text of a configuration file with the default settings. -/
def defaultText : String := defaultValue.pretty

end MessageKeys.Config
