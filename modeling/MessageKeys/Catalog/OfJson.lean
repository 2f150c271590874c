import MessageKeys.Catalog.Tree

/-! # Catalogs from JSON — what of a value is a catalog

    Texts are messages and objects are groups; nothing else has a place in a catalog.
    `ofJson?` leaves the rest out.  `ofJsonStrict` refuses it, and names the first value, in
    document order and depth first, that would be lost. -/

namespace MessageKeys.Catalog

mutual

/-- The node of a value, with what has no place left out. -/
def nodeOfJson? : Json.Value → Option Node
  | .string text => some (.message text)
  | .object members => some (.group (ofMembers members))
  | .null => none
  | .bool _ => none
  | .number _ => none
  | .array _ => none

/-- The entries of an object's members. -/
def ofMembers : List (String × Json.Value) → Catalog
  | [] => []
  | (name, v) :: rest =>
    match nodeOfJson? v with
    | some node => Entries.insert name node (ofMembers rest)
    | none => ofMembers rest

end

/-- The catalog of a value, with what has no place left out; none unless it is an object. -/
def ofJson? : Json.Value → Option Catalog
  | .object members => some (ofMembers members)
  | _ => none

mutual

/-- The node of a value at a path; the error is the dotted path of the first value that
    has no place. -/
def nodeOfJsonStrict (path : String) : Json.Value → Except String Node
  | .string text => .ok (.message text)
  | .object members => (ofMembersStrict path members).map .group
  | .null => .error path
  | .bool _ => .error path
  | .number _ => .error path
  | .array _ => .error path

/-- The entries of the members of an object at a path. -/
def ofMembersStrict (path : String) : List (String × Json.Value) → Except String Catalog
  | [] => .ok []
  | (name, v) :: rest =>
    match nodeOfJsonStrict (Key.below path name) v with
    | .error p => .error p
    | .ok node => (ofMembersStrict path rest).map (Entries.insert name node)

end

/-- The catalog of a value that has nothing else in it; the error is the dotted path of the
    first value that is neither a text nor an object. -/
def ofJsonStrict : Json.Value → Except String Catalog
  | .object members => ofMembersStrict "" members
  | _ => .error ""

end MessageKeys.Catalog
