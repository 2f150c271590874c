import MessageKeys.Json.Document

/-! # JSON values — what a document means

    A value has characters for its texts and one member for each name.  `Document.toValue?`
    gives a document its meaning: escapes must name characters, numbers must not exceed the
    largest double, and a repeated name keeps the place of its first member and the value
    of its last. -/

namespace MessageKeys.Json

/-- A JSON value; members stand in the order of the text. -/
inductive Value where
  | null
  | bool (b : Bool)
  | number (n : Numeral)
  | string (s : String)
  | array (items : List Value)
  | object (members : List (String × Value))

namespace Value

/-- The most containers that may enclose each other. -/
def maxDepth : Nat := 127

/-- Sets a member in the place of the one of that name, or after all others. -/
def setMember (name : String) (v : Value) : List (String × Value) → List (String × Value)
  | [] => [(name, v)]
  | (k, w) :: rest => if k = name then (k, v) :: rest else (k, w) :: setMember name v rest

/-- One member for each name: the place of the first, the value of the last. -/
def distinctMembers (members : List (String × Value)) : List (String × Value) :=
  members.foldl (fun ms m => setMember m.1 m.2 ms) []

/-- The text a quoted text stands for. -/
def text? (quoted : List Char) : Option String := (Quoted.decode? quoted).map String.ofList

end Value

namespace Document

mutual

/-- The meaning of a document, nested to any depth. -/
def meaning? : Document → Option Value
  | .null => some .null
  | .bool b => some (.bool b)
  | .number n => if n.toFloat?.isSome then some (.number n) else none
  | .text q => (Value.text? q).map .string
  | .array items => (itemsMeaning? items).map .array
  | .object members => (membersMeaning? members).map fun ms => .object (Value.distinctMembers ms)

/-- The meanings of items. -/
def itemsMeaning? : List Document → Option (List Value)
  | [] => some []
  | d :: rest =>
    match meaning? d, itemsMeaning? rest with
    | some v, some vs => some (v :: vs)
    | _, _ => none

/-- The meanings of members, repeated names included. -/
def membersMeaning? : List (List Char × Document) → Option (List (String × Value))
  | [] => some []
  | (q, d) :: rest =>
    match Value.text? q, meaning? d, membersMeaning? rest with
    | some name, some v, some vs => some ((name, v) :: vs)
    | _, _, _ => none

end

/-- The meaning of a document that does not nest too deep. -/
def toValue? (d : Document) : Option Value :=
  if d.depth ≤ Value.maxDepth then d.meaning? else none

end Document

/-- The value of a text. -/
def Value.parse? (text : String) : Option Value :=
  (Document.ofChars? text.toList).bind Document.toValue?

end MessageKeys.Json
