import MessageKeys.Catalog.Tree
import MessageKeys.Dictionary.Basic

/-! # Flat messages — a catalog as a map from dotted keys

    `messages` lists every message under the dotted path that leads to it, `ofMessages` builds
    the tree back.  The reserved top-level name `$schema` is no message.

    Where a key is also the path to others, the longer keys win: in order of key they come
    later, and a group takes the place of a message. -/

namespace MessageKeys

/-- Messages by dotted key. -/
abbrev Messages := Dictionary String

namespace Catalog

/-- The top-level name that refers to a schema. -/
def schemaName : String := "$schema"

mutual

/-- Adds the messages of a node that stands at a key. -/
def addNode (key : String) (into : Messages) : Node → Messages
  | .message text => into.insert key text
  | .group entries => addEntries key into entries

/-- Adds the messages of a group that stands at a key. -/
def addEntries (key : String) (into : Messages) : List (String × Node) → Messages
  | [] => into
  | (name, node) :: rest =>
    addEntries key (addNode (Key.below key name) into node) rest

end

/-- The messages of a catalog by dotted key. -/
def messages (c : Catalog) : Messages :=
  (c.filter (·.1 ≠ schemaName)).foldl (fun into e => addNode e.1 into e.2) ∅

/-- Places a message at the end of a path, with groups in place of what was in the way. -/
def placeAt (c : Catalog) (text : String) : List String → Catalog
  | [] => c
  | [name] => Entries.insert name (.message text) c
  | name :: next :: rest =>
    match Entries.get? name c with
    | some (.group entries) =>
      Entries.insert name (.group (placeAt entries text (next :: rest))) c
    | _ => Entries.insert name (.group (placeAt [] text (next :: rest))) c

/-- The catalog of messages by dotted key. -/
def ofMessages (flat : Messages) : Catalog :=
  flat.toList.foldl (fun c e => placeAt c e.2 (Key.segments e.1)) []

end Catalog

end MessageKeys
