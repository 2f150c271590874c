import MessageKeys.Reference.Site
import MessageKeys.Text.CharacterClass
import MessageKeys.Text.Split

/-! # Reference literals — the grammar of references

    `Literal.front?` recognises a reference of one form at the front of a text and returns its
    key and what follows it.  A key is one or more identifiers joined by points and is read
    as far as it goes.

    All forms but the templates also need a boundary on their left: the start of the line, or
    a character that cannot belong to an expression that goes on. -/

namespace MessageKeys.Reference

open Text

/-! ## Accessors -/

/-- The character may start an accessor. -/
def isAccessorHead (c : Char) : Bool := c.isAlpha || c = '_' || c = '$'

/-- The character may follow in an accessor. -/
def isAccessorTail (c : Char) : Bool := c.isAlphanum || c = '_' || c = '$'

/-- The name can be the accessor of messages. -/
def isAccessor (name : String) : Bool :=
  match name.toList with
  | [] => false
  | c :: cs => isAccessorHead c && cs.all isAccessorTail

/-! ## Keys -/

/-- The character may start a segment of a key. -/
def isKeyHead (c : Char) : Bool := c.isAlpha || c = '_'

/-- The character may follow in a segment of a key. -/
def isKeyTail (c : Char) : Bool := c.isAlphanum || c = '_'

/-- A segment starts here. -/
def startsSegment : List Char → Bool
  | c :: _ => isKeyHead c
  | [] => false

/-- The rest of a key, from inside of a segment, and what follows it. -/
def keyRest : List Char → List Char × List Char
  | [] => ([], [])
  | c :: cs =>
    if isKeyTail c || (c = '.' && startsSegment cs) then
      let (key, rest) := keyRest cs
      (c :: key, rest)
    else ([], c :: cs)

/-- The longest key at the front, and what follows it. -/
def key? (cs : List Char) : Option (List Char × List Char) :=
  if startsSegment cs then some (keyRest cs) else none

/-! ## Parts of references -/

/-- The character ends whatever stood before it: neither a word character nor `.` nor `$`. -/
def isBoundary (c : Char) : Bool := !isWord c && c ≠ '.' && c ≠ '$'

/-- Either of the quotes. -/
def isQuote (c : Char) : Bool := c = '"' || c = '\''

/-- The text without the blanks at its front. -/
def skipBlanks (cs : List Char) : List Char := cs.dropWhile isBlank

/-- The text without some of the blanks at its front, from all of them to none. -/
def afterBlanks : List Char → List (List Char)
  | [] => [[]]
  | c :: cs => if isBlank c then afterBlanks cs ++ [c :: cs] else [c :: cs]

/-- What follows a given character at the front. -/
def skip? (expected : Char) : List Char → Option (List Char)
  | [] => none
  | c :: cs => if c = expected then some cs else none

/-- The accessor, a point and a key. -/
def member? (accessor cs : List Char) : Option (List Char × List Char) :=
  ((after? accessor cs).bind (skip? '.')).bind key?

/-- What follows the first closing parenthesis. -/
def afterParenthesis? (cs : List Char) : Option (List Char) :=
  match cs.dropWhile (· ≠ ')') with
  | _ :: rest => some rest
  | [] => none

/-- Arguments up to the closing parenthesis; there is at least one character of them. -/
def arguments? (cs : List Char) : Option (List Char) :=
  match cs with
  | c :: _ => if c = ')' then none else afterParenthesis? cs
  | [] => none

/-- A quote, a key, a quote, with blanks around, and a closing bracket. -/
def quotedKey? (cs : List Char) : Option (List Char × List Char) :=
  match skipBlanks cs with
  | [] => none
  | q :: cs =>
    if isQuote q then
      match key? cs with
      | some (key, q :: rest) =>
        if isQuote q then (skip? ']' (skipBlanks rest)).map fun rest => (key, rest) else none
      | _ => none
    else none

/-- Reads with a dollar at the front, or else without one. -/
def withDollar? {α : Type} (read? : List Char → Option α) (cs : List Char) :
    Option (Bool × α) :=
  match (skip? '$' cs).bind read? with
  | some a => some (true, a)
  | none => (read? cs).map fun a => (false, a)

/-! ## The six forms -/

namespace Literal

/-- The accessor, a key and empty parentheses. -/
def bareCall? (accessor cs : List Char) : Option (List Char × List Char) :=
  match member? accessor cs with
  | some (key, '(' :: ')' :: rest) => some (key, rest)
  | _ => none

/-- The accessor, a key and arguments in parentheses. -/
def callWithArgs? (accessor cs : List Char) : Option (List Char × List Char) :=
  match member? accessor cs with
  | some (key, '(' :: rest) => (arguments? rest).map fun rest => (key, rest)
  | _ => none

/-- A dollar, the accessor and a key. -/
def reactive? (accessor cs : List Char) : Option (List Char × List Char) :=
  (skip? '$' cs).bind (member? accessor)

/-- The end of a template: blanks and the closing brace. -/
def closeBrace? (cs : List Char) : Option (List Char) := skip? '\x7d' (skipBlanks cs)

/-- What stands in the braces of a template call. -/
def templateCallBody? (accessor cs : List Char) : Option (List Char × List Char) :=
  match member? accessor cs with
  | some (key, '(' :: rest) =>
    ((afterParenthesis? rest).bind closeBrace?).map fun rest => (key, rest)
  | _ => none

/-- What stands in the braces of a template reference. -/
def templateRefBody? (accessor cs : List Char) : Option (List Char × List Char) :=
  match member? accessor cs with
  | some (key, rest) => (closeBrace? rest).map fun rest => (key, rest)
  | none => none

/-- An opening brace, blanks and the body of a template. -/
def braced? (body? : List Char → Option (List Char × List Char)) (cs : List Char) :
    Option (List Char × List Char) :=
  match skip? '\x7b' cs with
  | some rest => (afterBlanks rest).findSome? body?
  | none => none

/-- The accessor and a quoted key in brackets. -/
def lookup? (accessor cs : List Char) : Option (List Char × List Char) :=
  ((after? accessor cs).bind (skip? '[')).bind quotedKey?

/-- The key of a reference of the form at the front of a text, and what follows the
    reference. -/
def front? (form : Form) (accessor cs : List Char) : Option (List Char × List Char) :=
  match form with
  | .bareCall => bareCall? accessor cs
  | .callWithArgs => callWithArgs? accessor cs
  | .reactive => reactive? accessor cs
  | .templateCall => braced? (templateCallBody? accessor) cs
  | .templateRef => braced? (templateRefBody? accessor) cs
  | .dynamicLookup => (withDollar? (lookup? accessor) cs).map (·.2)

end Literal

end MessageKeys.Reference
