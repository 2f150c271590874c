import MessageKeys.Text.CharacterClass
import MessageKeys.Text.Split

/-! # Paths — slash-separated texts read by component

    A path keeps its spelling.  What it means is its list of components: repeated slashes
    and inner `.` segments mean nothing, a leading `.` is a component of its own, and `..`
    stays as it is.  Paths are compared and ordered by component, so two spellings of one
    list of components are the same path to `same` and `precedes`.

    `join` and `parent?` work on the spelling: joining an absolute path replaces the first
    one, joining an empty one adds a slash, and a parent loses its trailing slashes. -/

namespace MessageKeys

/-- A path by its spelling. -/
structure Path where
  text : String
  deriving DecidableEq, Repr

namespace Path

/-- One step of a path. -/
inductive Component where
  | root
  | here
  | up
  | name (n : String)
  deriving DecidableEq, Repr

/-- What a path starts from. -/
inductive Anchor where
  | root
  | here
  | none
  deriving DecidableEq, Repr

/-- The path starts at the root. -/
def isAbsolute (p : Path) : Bool := p.text.startsWith "/"

/-- What the path starts from: a leading slash, a leading `.` segment, or neither. -/
def anchor (p : Path) : Anchor :=
  match Text.split '/' p.text with
  | "" :: _ :: _ => .root
  | "." :: _ => .here
  | _ => .none

/-- The segments after the anchor, meaningless ones included. -/
def body (p : Path) : List String :=
  match Text.split '/' p.text with
  | "" :: s :: rest => s :: rest
  | "." :: rest => rest
  | segments => segments

/-- The segment means nothing inside of a path. -/
def isVoid (segment : String) : Bool := segment = "" || segment = "."

/-- The component a meaningful segment is. -/
def Component.ofSegment (segment : String) : Component :=
  if segment = ".." then .up else .name segment

/-- The component the anchor is. -/
def Anchor.components : Anchor → List Component
  | .root => [.root]
  | .here => [.here]
  | .none => []

/-- The components in order. -/
def components (p : Path) : List Component :=
  p.anchor.components ++ (p.body.filter fun s => !isVoid s).map Component.ofSegment

/-- The names among the components. -/
def names (p : Path) : List String :=
  p.components.filterMap fun
    | .name n => some n
    | _ => none

/-- The spelling of a component. -/
def Component.text : Component → String
  | .root => "/"
  | .here => "."
  | .up => ".."
  | .name n => n

/-! ## Comparison by component -/

/-- Both spell the same components. -/
def same (p q : Path) : Bool := p.components = q.components

/-- The rank of the kind of a component: the root, then `.`, then `..`, then names. -/
def Component.rank : Component → Nat
  | .root => 0
  | .here => 1
  | .up => 2
  | .name _ => 3

/-- The order of components: by kind, names by code point. -/
def Component.precedes : Component → Component → Bool
  | .name m, .name n => m < n
  | a, b => a.rank < b.rank

/-- The order of lists of components. -/
def componentsPrecede : List Component → List Component → Bool
  | _, [] => false
  | [], _ :: _ => true
  | a :: as, b :: bs => if a = b then componentsPrecede as bs else a.precedes b

/-- The order of paths, component by component. -/
def precedes (p q : Path) : Bool := componentsPrecede p.components q.components

/-- Adds a path to an ordered list without repetitions; a path in it keeps its spelling. -/
def insertOrdered (p : Path) : List Path → List Path
  | [] => [p]
  | q :: rest =>
    if p.same q then q :: rest
    else if p.precedes q then p :: q :: rest
    else q :: insertOrdered p rest

/-! ## Building -/

/-- The path seen from another one. -/
def join (p q : Path) : Path :=
  if q.isAbsolute then q
  else if p.text = "" ∨ p.text.endsWith "/" then ⟨p.text ++ q.text⟩
  else ⟨p.text ++ "/" ++ q.text⟩

/-- The path of a component below this one. -/
def push (p : Path) (c : Component) : Path := p.join ⟨c.text⟩

/-- Drops the segments at the end that mean nothing. -/
def trimEnd (segments : List String) : List String :=
  (segments.reverse.dropWhile isVoid).reverse

/-- The path with an anchor and segments after it. -/
def ofBody (a : Anchor) (segments : List String) : Path :=
  match a with
  | .root => ⟨"/" ++ Text.join '/' segments⟩
  | .here => if segments.isEmpty then ⟨"."⟩ else ⟨"./" ++ Text.join '/' segments⟩
  | .none => ⟨Text.join '/' segments⟩

/-- The path without its last component; none for the root and the empty path. -/
def parent? (p : Path) : Option Path :=
  match trimEnd p.body with
  | [] =>
    match p.anchor with
    | .here => some ⟨""⟩
    | _ => none
  | s :: rest => some (ofBody p.anchor (trimEnd (s :: rest).dropLast))

/-- The last component, if it is a name. -/
def fileName? (p : Path) : Option String :=
  match p.components.getLast? with
  | some (.name n) => some n
  | _ => none

/-- The path with another last name; one without a name gets it below. -/
def withFileName (p : Path) (name : String) : Path :=
  match p.fileName?, p.parent? with
  | some _, some parent => parent.join ⟨name⟩
  | _, _ => p.join ⟨name⟩

/-- What follows the last point of the file name; a name that only starts with one has no
    extension. -/
def extension? (p : Path) : Option String :=
  match p.fileName? with
  | none => none
  | some name =>
    match (Text.split '.' name).reverse with
    | last :: first :: rest => if first = "" ∧ rest = [] then none else some last
    | _ => none

/-! ## Prefixes -/

/-- The components of the other path start this one. -/
def startsWith (p base : Path) : Bool := base.components.isPrefixOf p.components

/-- Drops components from the front of segments, and what means nothing after them. -/
def dropSegments : Nat → List String → List String
  | 0, segments => segments.dropWhile isVoid
  | n + 1, segments => dropSegments n (segments.dropWhile isVoid).tail

/-- The path seen from one that its components start with. -/
def stripPrefix? (p base : Path) : Option Path :=
  if p.startsWith base then
    let n := base.components.length
    if n = 0 then some (ofBody p.anchor (trimEnd p.body))
    else
      some (ofBody .none (trimEnd (dropSegments (n - p.anchor.components.length) p.body)))
  else none

/-- The spelling of the components joined by slashes. -/
def slashed (components : List Component) : String :=
  Text.join '/' (components.map Component.text)

/-- The components below a base, joined by slashes. -/
def relativeText? (base p : Path) : Option String :=
  (p.stripPrefix? base).map fun r => slashed r.components

/-- A path joined component by component, `.` components left out. -/
def joinComponents (root p : Path) : Path :=
  (p.components.filter (· ≠ .here)).foldl push root

/-! ## Quoting -/

/-- The written form of a character inside of a quoted path: quotes and backslashes behind a
    backslash, some controls by a letter, all else that would not show by itself as its code
    point. -/
def escapeChar (c : Char) : List Char :=
  if c = '"' then ['\\', '"']
  else if c = '\\' then ['\\', '\\']
  else if c = '\n' then ['\\', 'n']
  else if c = '\r' then ['\\', 'r']
  else if c = '\t' then ['\\', 't']
  else if c.toNat = 0 then ['\\', '0']
  else if Text.isExtender c || !Text.isPrintable c then
    '\\' :: 'u' :: '\x7b' :: Nat.toDigits 16 c.toNat ++ ['\x7d']
  else [c]

/-- The path in quotes. -/
def quoted (p : Path) : String :=
  "\"" ++ String.ofList (p.text.toList.flatMap escapeChar) ++ "\""

end Path

end MessageKeys
