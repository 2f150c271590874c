import MessageKeys.Json.Token

/-! # JSON documents — texts that follow the grammar

    A document is the syntax tree of a text: quoted texts keep their escapes, numbers are
    numerals of any size, members stand in the order of the text, also when a name is
    repeated, and containers nest as deep as they like.

    The reader takes one token at a time.  Its state is the stack of the containers that
    are open and what may follow, so its memory of the text is exactly what is unfinished. -/

namespace MessageKeys.Json

/-- A syntax tree. -/
inductive Document where
  | null
  | bool (b : Bool)
  | number (n : Numeral)
  | text (quoted : List Char)
  | array (items : List Document)
  | object (members : List (List Char × Document))

namespace Document

/-- An open container with its finished parts, the last one first. -/
inductive Frame where
  | array (items : List Document)
  | object (members : List (List Char × Document))
  /-- An object whose next member has its name and waits for its value. -/
  | member (members : List (List Char × Document)) (name : List Char)

/-- What may follow, inside of the containers that are open, the innermost first. -/
inductive State where
  | value (stack : List Frame)
  | firstItem (stack : List Frame)
  | name (members : List (List Char × Document)) (stack : List Frame)
  | firstName (stack : List Frame)
  | colon (members : List (List Char × Document)) (name : List Char) (stack : List Frame)
  /-- A part is finished: a separator or the end of the innermost container follows. -/
  | next (stack : List Frame)
  | done (d : Document)

/-- A finished value becomes a part of the innermost container. -/
def deliver (d : Document) : List Frame → Option State
  | [] => some (.done d)
  | .array items :: stack => some (.next (.array (d :: items) :: stack))
  | .member members name :: stack => some (.next (.object ((name, d) :: members) :: stack))
  | .object _ :: _ => none

/-- The token as the start of a value. -/
def beginValue (t : Token) (stack : List Frame) : Option State :=
  match t with
  | .openArray => some (.firstItem stack)
  | .openObject => some (.firstName stack)
  | .quoted q => deliver (.text q) stack
  | .number n => deliver (.number n) stack
  | .bool b => deliver (.bool b) stack
  | .null => deliver .null stack
  | _ => none

/-- One token further. -/
def step : State → Token → Option State
  | .value stack, t => beginValue t stack
  | .firstItem stack, .closeArray => deliver (.array []) stack
  | .firstItem stack, t => beginValue t (.array [] :: stack)
  | .firstName stack, .closeObject => deliver (.object []) stack
  | .firstName stack, .quoted q => some (.colon [] q stack)
  | .name members stack, .quoted q => some (.colon members q stack)
  | .colon members q stack, .colon => some (.value (.member members q :: stack))
  | .next (.array items :: stack), .comma => some (.value (.array items :: stack))
  | .next (.array items :: stack), .closeArray => deliver (.array items.reverse) stack
  | .next (.object members :: stack), .comma => some (.name members stack)
  | .next (.object members :: stack), .closeObject => deliver (.object members.reverse) stack
  | _, _ => none

/-- The syntax tree of a list of tokens. -/
def ofTokens? (ts : List Token) : Option Document :=
  match ts.foldlM step (.value []) with
  | some (.done d) => some d
  | _ => none

/-- The syntax tree of a text. -/
def ofChars? (cs : List Char) : Option Document := (Token.scan cs).bind ofTokens?

mutual

/-- The number of containers around the innermost value, the value itself included. -/
def depth : Document → Nat
  | .array items => itemsDepth items + 1
  | .object members => membersDepth members + 1
  | _ => 0

/-- The depth of the deepest item. -/
def itemsDepth : List Document → Nat
  | [] => 0
  | d :: rest => max (depth d) (itemsDepth rest)

/-- The depth of the deepest member. -/
def membersDepth : List (List Char × Document) → Nat
  | [] => 0
  | (_, d) :: rest => max (depth d) (membersDepth rest)

end

end Document

end MessageKeys.Json
