import MessageKeys.Json.Numeral
import MessageKeys.Json.Quoted

/-! # JSON tokens — brackets, separators, quoted texts and bare words

    `Token.scan` cuts a text into tokens, one character at a time.  Outside of quotes the
    four blanks separate tokens and mean nothing; a run of letters, digits, points and
    signs is one bare word, which must be a number or one of the three constants.

    A quoted text keeps its escapes: whether they name characters is decided where the text
    is used. -/

namespace MessageKeys.Json

/-- A lexical unit. -/
inductive Token where
  | openArray
  | closeArray
  | openObject
  | closeObject
  | comma
  | colon
  /-- A text between quotes, its escapes not yet undone. -/
  | quoted (inside : List Char)
  | number (n : Numeral)
  | bool (b : Bool)
  | null
  deriving DecidableEq, Repr

namespace Token

/-- The token of a bare word. -/
def ofBare? (cs : List Char) : Option Token :=
  if cs = ['t', 'r', 'u', 'e'] then some (.bool true)
  else if cs = ['f', 'a', 'l', 's', 'e'] then some (.bool false)
  else if cs = ['n', 'u', 'l', 'l'] then some .null
  else (Numeral.ofChars? cs).map .number

/-- The character may stand in a bare word. -/
def isBare (c : Char) : Bool := c.isAlphanum || c = '+' || c = '-' || c = '.'

/-- The four characters that separate tokens. -/
def isSpace (c : Char) : Bool := c = ' ' || c = '\n' || c = '\r' || c = '\t'

/-- Where the reader stands: between tokens, or inside one with its characters so far in
    reverse. -/
inductive Mode where
  | between
  | quoted (before : List Char)
  | bare (before : List Char)

/-- What a character does between tokens: the token it is, and where it leads. -/
def enter? (c : Char) : Option (List Token × Mode) :=
  if isSpace c then some ([], .between)
  else if c = '"' then some ([], .quoted [])
  else if isBare c then some ([], .bare [c])
  else if c = '[' then some ([openArray], .between)
  else if c = ']' then some ([closeArray], .between)
  else if c = '\x7b' then some ([openObject], .between)
  else if c = '\x7d' then some ([closeObject], .between)
  else if c = ',' then some ([comma], .between)
  else if c = ':' then some ([colon], .between)
  else none

/-- The tokens of the rest of a text. -/
def scanFrom : Mode → List Char → Option (List Token)
  | .between, [] => some []
  | .quoted _, [] => none
  | .bare w, [] => (ofBare? w.reverse).map ([·])
  | .between, c :: rest =>
    match enter? c with
    | none => none
    | some (ts, mode) => (scanFrom mode rest).map (ts ++ ·)
  | .quoted w, '\\' :: c :: rest => scanFrom (.quoted (c :: '\\' :: w)) rest
  | .quoted w, c :: rest =>
    if c = '"' then (scanFrom .between rest).map (quoted w.reverse :: ·)
    else scanFrom (.quoted (c :: w)) rest
  | .bare w, c :: rest =>
    if isBare c then scanFrom (.bare (c :: w)) rest
    else
      match ofBare? w.reverse, enter? c with
      | some t, some (ts, mode) => (scanFrom mode rest).map (t :: ts ++ ·)
      | _, _ => none

/-- The tokens of a text. -/
def scan (cs : List Char) : Option (List Token) := scanFrom .between cs

end MessageKeys.Json.Token
