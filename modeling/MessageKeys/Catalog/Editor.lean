import MessageKeys.Catalog.Messages
import MessageKeys.Catalog.OfJson
import MessageKeys.FileTree
import MessageKeys.Path

/-! # Moving messages — one key of a catalog becomes another

    A move takes the message of a key out of the catalog, places it along the segments of
    the new key and checks the result before it counts: the new key resolves to the message
    and the old key no longer resolves.  It either yields the whole new catalog or leaves
    the old one.  Why a catalog was not read, changed or written is told by a
    `CatalogFault`. -/

namespace MessageKeys

/-! ## Faults -/

/-- Why one catalog could not be read, changed or written. -/
inductive CatalogFault where
  | read (path : Path) (cause : FileFault)
  | syntaxError (path : Path)
  | notAnObject (path : Path)
  /-- A value that is neither a text nor an object. -/
  | foreignValue (key : String)
  /-- A node in the way of a key. -/
  | blocked (key blocking : String)
  | notMoved (source target detail : String)
  | readOnly (path : Path)
  | backup (path : Path) (cause : FileFault)
  | write (path : Path) (cause : FileFault)
  /-- The file does not hold what was written to it. -/
  | differs (path : Path)
  deriving DecidableEq, Repr

/-- The wording of a fault. -/
def CatalogFault.message : CatalogFault → String
  | .read path cause => s!"failed to read catalog {path.text}: {cause.message}"
  | .syntaxError path => s!"failed to parse catalog {path.text}: <json error>"
  | .notAnObject path => s!"catalog {path.text} root is not an object"
  | .foreignValue key => s!"catalog value at '{key}' is neither a string nor an object"
  | .blocked key blocking => s!"cannot place '{key}': '{blocking}' is already a message"
  | .notMoved source target detail =>
    s!"verification failed for '{source}' -> '{target}': {detail}"
  | .readOnly path => s!"{path.text} is read-only"
  | .backup path cause => s!"failed to back up {path.text}: {cause.message}"
  | .write path cause => s!"failed to write {path.text}: {cause.message}"
  | .differs path => s!"{path.text} does not hold the written content"

namespace Catalog

/-! ## Moving -/

/-- The new key resolves to the message and the old one does not resolve. -/
def checkMoved (c : Catalog) (source target text : String) : Except CatalogFault Unit :=
  match c.resolve? target with
  | none => .error (.notMoved source target s!"'{target}' does not resolve")
  | some (found, _) =>
    if found ≠ text then
      .error (.notMoved source target s!"'{target}' resolves to '{found}'")
    else if (c.resolve? source).isSome then
      .error (.notMoved source target s!"'{source}' still resolves")
    else .ok ()

/-- The catalog without the message of a key, at the place where it was found. -/
def takeOut (c : Catalog) (key : String) : Place → Catalog
  | .literal => Entries.erase key c
  | .nested => (c.remove? key).elim c (·.2)

/-- The new key holds another message already. -/
def isTakenByOther (c : Catalog) (target text : String) : Bool :=
  match c.resolve? target with
  | some (existing, _) => existing ≠ text
  | none => false

/-- Moves the message of a key along the segments of another one: the message and the new
    catalog, or nothing if the key does not resolve. -/
def move (c : Catalog) (source target : String) :
    Except CatalogFault (Option (String × Catalog)) :=
  match c.resolve? source with
  | none => .ok none
  | some (text, place) =>
    if c.isTakenByOther target text then
      .error (.notMoved source target s!"'{target}' already holds a different message")
    else
      match (c.takeOut source place).insert target text with
      | .error blocking => .error (.blocked target blocking)
      | .ok (_, next) =>
        match next.checkMoved source target text with
        | .error fault => .error fault
        | .ok () => .ok (some (text, next))

/-! ## Reading -/

/-- The catalog of a file's text, with nothing lost. -/
def parse (path : Path) (text : String) : Except CatalogFault Catalog :=
  match Json.Value.parse? text with
  | none => .error (.syntaxError path)
  | some (.object members) => (ofMembersStrict "" members).mapError .foreignValue
  | some _ => .error (.notAnObject path)

/-- The flat messages of a file's text, with what is no message left out. -/
def parseMessages (path : Path) (text : String) : Except CatalogFault Messages :=
  match Json.Value.parse? text with
  | none => .error (.syntaxError path)
  | some v =>
    match ofJson? v with
    | none => .error (.notAnObject path)
    | some c => .ok c.messages

end Catalog

end MessageKeys
