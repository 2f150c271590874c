import MessageKeys.Dictionary.Entries
import MessageKeys.Json.Printer
import MessageKeys.Key

/-! # Catalogs — trees of messages

    A catalog is a finite map from names to nodes; a node is a message or a group of nodes.
    Entries stand in order of name at every level (`Catalog.Ordered`), so equal catalogs
    are equal lists and have one written form.

    A message is found in two ways: under a top-level name that is the whole key
    (`literal?`), or along the segments of the key (`nested?`).  `resolve?` tries them in
    this order. -/

namespace MessageKeys

/-- A message or a group of named nodes. -/
inductive Node where
  | message (text : String)
  | group (entries : List (String × Node))

/-- The entries of a catalog or of one of its groups. -/
abbrev Catalog := List (String × Node)

namespace Catalog

mutual

/-- Every group of the node has its names in increasing order. -/
def NodeOrdered : Node → Prop
  | .message _ => True
  | .group entries => Entries.Increasing entries ∧ EntriesOrdered entries

/-- Every group below the entries has its names in increasing order. -/
def EntriesOrdered : List (String × Node) → Prop
  | [] => True
  | (_, n) :: rest => NodeOrdered n ∧ EntriesOrdered rest

end

/-- Names increase at every level. -/
def Ordered (c : Catalog) : Prop := Entries.Increasing c ∧ EntriesOrdered c

mutual

/-- Whether two nodes are the same tree. -/
def nodeSame : Node → Node → Bool
  | .message s, .message t => s = t
  | .group es, .group fs => same es fs
  | _, _ => false

/-- Whether two lists of entries are the same tree. -/
def same : List (String × Node) → List (String × Node) → Bool
  | [], [] => true
  | (k, m) :: es, (l, n) :: fs => k = l && nodeSame m n && same es fs
  | _, _ => false

end

/-! ## Look-ups -/

/-- The message under a top-level name that is the whole key. -/
def literal? (c : Catalog) (key : String) : Option String :=
  match Entries.get? key c with
  | some (.message text) => some text
  | _ => none

/-- The message at the end of a path of names. -/
def messageAt? (c : Catalog) : List String → Option String
  | [] => none
  | [name] => literal? c name
  | name :: next :: rest =>
    match Entries.get? name c with
    | some (.group entries) => messageAt? entries (next :: rest)
    | _ => none

/-- The message along the segments of a key. -/
def nested? (c : Catalog) (key : String) : Option String := messageAt? c (Key.segments key)

/-- Where a key was found. -/
inductive Place where
  | literal
  | nested
  deriving DecidableEq, Repr

/-- The message of a key and its place; a literal name comes before a path. -/
def resolve? (c : Catalog) (key : String) : Option (String × Place) :=
  match literal? c key with
  | some text => some (text, .literal)
  | none => (nested? c key).map fun text => (text, .nested)

/-! ## Removing -/

/-- Puts a changed group back under its name, or drops it when nothing is left in it. -/
def putGroup (name : String) (entries c : Catalog) : Catalog :=
  if entries.isEmpty then Entries.erase name c else Entries.insert name (.group entries) c

/-- Takes the message at the end of a path out of the catalog, and with it the groups that
    become empty. -/
def removeAt? (c : Catalog) : List String → Option (String × Catalog)
  | [] => none
  | [name] => (literal? c name).map fun text => (text, Entries.erase name c)
  | name :: next :: rest =>
    match Entries.get? name c with
    | some (.group entries) =>
      (removeAt? entries (next :: rest)).map fun (text, left) => (text, putGroup name left c)
    | _ => none

/-- Takes the message along the segments of a key out of the catalog. -/
def remove? (c : Catalog) (key : String) : Option (String × Catalog) :=
  removeAt? c (Key.segments key)

/-! ## Inserting -/

/-- Places a message at the end of a path, inside of new groups where there are none.
    A node in the way is reported by the path that leads to it: a message before the end
    of the path, or a group at its end. -/
def insertAt (c : Catalog) (text : String) :
    List String → Except (List String) (Option String × Catalog)
  | [] => .ok (none, c)
  | [name] =>
    match Entries.get? name c with
    | some (.group _) => .error [name]
    | some (.message previous) => .ok (some previous, Entries.insert name (.message text) c)
    | none => .ok (none, Entries.insert name (.message text) c)
  | name :: next :: rest =>
    match Entries.get? name c with
    | some (.message _) => .error [name]
    | some (.group entries) => within name c (insertAt entries text (next :: rest))
    | none => within name c (insertAt [] text (next :: rest))
where
  /-- The outcome inside of a group, seen from the catalog that holds the group. -/
  within (name : String) (c : Catalog) :
      Except (List String) (Option String × Catalog) →
        Except (List String) (Option String × Catalog)
    | .error path => .error (name :: path)
    | .ok (previous, entries) => .ok (previous, Entries.insert name (.group entries) c)

/-- Places a message along the segments of a key; the error is the key of the node in the
    way. -/
def insert (c : Catalog) (key text : String) : Except String (Option String × Catalog) :=
  (insertAt c text (Key.segments key)).mapError Key.join

/-! ## Written form -/

mutual

/-- A node as a JSON value. -/
def nodeToJson : Node → Json.Value
  | .message text => .string text
  | .group entries => .object (membersToJson entries)

/-- Entries as the members of an object. -/
def membersToJson : List (String × Node) → List (String × Json.Value)
  | [] => []
  | (name, node) :: rest => (name, nodeToJson node) :: membersToJson rest

end

/-- The catalog as a JSON object. -/
def toJson (c : Catalog) : Json.Value := .object (membersToJson c)

/-- The text of a catalog file: the pretty form and a line end. -/
def render (c : Catalog) : String := c.toJson.pretty ++ "\n"

end Catalog

end MessageKeys
