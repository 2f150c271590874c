import MessageKeys.Key
import MessageKeys.Path

/-! # Routes — the namespace a source file belongs to

    Files below the routes root belong to the namespace of the directories that lead to
    them.  Groups `(name)`, parameters `[id]` and directories that start with `+`, `_` or
    `@` lead nowhere in a route and are passed over. -/

namespace MessageKeys

/-- A routes root and how many directories below it make a namespace. -/
structure Route where
  root : List String
  depth : Nat
  deriving DecidableEq, Repr

namespace Route

/-- The route of a root path; at least one directory makes a namespace. -/
def ofPath (root : String) (depth : Nat) : Route := ⟨(Path.mk root).names, max depth 1⟩

/-- The directory is part of a route as it is. -/
def isStatic (name : String) : Bool :=
  match name.toList with
  | [] => false
  | c :: _ => !(c = '(' || c = '[' || c = '+' || c = '_' || c = '@')

/-- What follows a list of names at the front of another one. -/
def dropFront? : List String → List String → Option (List String)
  | [], ns => some ns
  | _ :: _, [] => none
  | r :: rs, n :: ns => if r = n then dropFront? rs ns else none

/-- What follows the first place where the root occurs. -/
def below? (root : List String) : List String → Option (List String)
  | [] => dropFront? root []
  | n :: ns =>
    match dropFront? root (n :: ns) with
    | some rest => some rest
    | none => below? root ns

/-- The namespace of the names of a path; the last one is the file. -/
def ofNames? (r : Route) (names : List String) : Option String :=
  match below? r.root names with
  | none => none
  | some below =>
    match (below.dropLast.filter isStatic).take r.depth with
    | [] => none
    | directories => some (Key.join directories)

/-- The namespace of a source file. -/
def namespaceOf? (r : Route) (file : String) : Option String := r.ofNames? (Path.mk file).names

end Route

end MessageKeys
