import MessageKeys.Json.Value

/-! # JSON texts — the two written forms of a value

    The compact form has no blanks.  The pretty form puts every item and member on a line
    of its own, two spaces deeper than its container, writes a blank after the colon, and
    keeps an empty container on its line. -/

namespace MessageKeys.Json.Value

/-- A text in quotes. -/
def quote (s : String) : List Char := '"' :: Quoted.encode s.toList ++ ['"']

/-- The text of a value that is no container. -/
def scalarChars : Value → List Char
  | .null => ['n', 'u', 'l', 'l']
  | .bool true => ['t', 'r', 'u', 'e']
  | .bool false => ['f', 'a', 'l', 's', 'e']
  | .number n => n.toChars
  | .string s => quote s
  | .array _ => []
  | .object _ => []

/-! ## Compact form -/

mutual

/-- The compact form of a value. -/
def compactChars : Value → List Char
  | .array items => '[' :: compactItems items ++ [']']
  | .object members => '\x7b' :: compactMembers members ++ ['\x7d']
  | .null => scalarChars .null
  | .bool b => scalarChars (.bool b)
  | .number n => scalarChars (.number n)
  | .string s => scalarChars (.string s)

/-- Items separated by commas. -/
def compactItems : List Value → List Char
  | [] => []
  | [v] => compactChars v
  | v :: w :: rest => compactChars v ++ ',' :: compactItems (w :: rest)

/-- Members separated by commas. -/
def compactMembers : List (String × Value) → List Char
  | [] => []
  | [(k, v)] => quote k ++ ':' :: compactChars v
  | (k, v) :: m :: rest => quote k ++ ':' :: compactChars v ++ ',' :: compactMembers (m :: rest)

end

/-- The compact form of a value. -/
def compact (v : Value) : String := String.ofList v.compactChars

/-! ## Pretty form -/

/-- The start of a line at a depth. -/
def lineStart (depth : Nat) : List Char := '\n' :: List.replicate (2 * depth) ' '

mutual

/-- The pretty form of a value whose container stands at a depth. -/
def prettyChars (depth : Nat) : Value → List Char
  | .array [] => ['[', ']']
  | .array (v :: rest) => '[' :: prettyItems (depth + 1) (v :: rest) ++ lineStart depth ++ [']']
  | .object [] => ['\x7b', '\x7d']
  | .object (m :: rest) =>
    '\x7b' :: prettyMembers (depth + 1) (m :: rest) ++ lineStart depth ++ ['\x7d']
  | .null => scalarChars .null
  | .bool b => scalarChars (.bool b)
  | .number n => scalarChars (.number n)
  | .string s => scalarChars (.string s)

/-- Items, each on a line of its own. -/
def prettyItems (depth : Nat) : List Value → List Char
  | [] => []
  | [v] => lineStart depth ++ prettyChars depth v
  | v :: w :: rest => lineStart depth ++ prettyChars depth v ++ ',' :: prettyItems depth (w :: rest)

/-- Members, each on a line of its own. -/
def prettyMembers (depth : Nat) : List (String × Value) → List Char
  | [] => []
  | [(k, v)] => lineStart depth ++ quote k ++ ':' :: ' ' :: prettyChars depth v
  | (k, v) :: m :: rest =>
    lineStart depth ++ quote k ++ ':' :: ' ' :: prettyChars depth v
      ++ ',' :: prettyMembers depth (m :: rest)

end

/-- The pretty form of a value. -/
def pretty (v : Value) : String := String.ofList (prettyChars 0 v)

end MessageKeys.Json.Value
