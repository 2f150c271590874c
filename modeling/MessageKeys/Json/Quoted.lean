/-! # Quoted text — the inside of a JSON string

    `encode` writes a text so that it can stand between quotes: the quote, the backslash
    and the characters below U+0020 are escaped, all others stand for themselves.

    Reading has two steps.  `pieces?` undoes the escapes, which fails on an unknown escape
    and on a raw control character; an escape may name one half of a surrogate pair, which
    is no character.  `joinPieces?` then puts the halves together and fails where one
    stands alone. -/

namespace MessageKeys.Json.Quoted

/-! ## Writing -/

/-- The hexadecimal digit of a value below 16. -/
def hexDigit (n : Nat) : Char := Nat.digitChar n

/-- The written form of a character. -/
def escape (c : Char) : List Char :=
  if c = '"' then ['\\', '"']
  else if c = '\\' then ['\\', '\\']
  else if c = '\x08' then ['\\', 'b']
  else if c = '\x0c' then ['\\', 'f']
  else if c = '\n' then ['\\', 'n']
  else if c = '\r' then ['\\', 'r']
  else if c = '\t' then ['\\', 't']
  else if c.toNat < 32 then
    ['\\', 'u', '0', '0', hexDigit (c.toNat / 16), hexDigit (c.toNat % 16)]
  else [c]

/-- The written form of a text. -/
def encode (cs : List Char) : List Char := cs.flatMap escape

/-! ## Reading -/

/-- What one written character or escape stands for. -/
inductive Piece where
  | char (c : Char)
  /-- One half of a surrogate pair, by its code. -/
  | half (code : Nat)
  deriving DecidableEq, Repr

/-- The value of a hexadecimal digit. -/
def hexValue? (c : Char) : Option Nat :=
  if c.isDigit then some (c.toNat - '0'.toNat)
  else if 'a' ≤ c ∧ c ≤ 'f' then some (c.toNat - 'a'.toNat + 10)
  else if 'A' ≤ c ∧ c ≤ 'F' then some (c.toNat - 'A'.toNat + 10)
  else none

/-- The code four hexadecimal digits name. -/
def code? (a b c d : Char) : Option Nat :=
  match hexValue? a, hexValue? b, hexValue? c, hexValue? d with
  | some a, some b, some c, some d => some (((a * 16 + b) * 16 + c) * 16 + d)
  | _, _, _, _ => none

/-- The code is the first half of a surrogate pair. -/
def isHighHalf (n : Nat) : Bool := 0xD800 ≤ n ∧ n ≤ 0xDBFF

/-- The code is the second half of a surrogate pair. -/
def isLowHalf (n : Nat) : Bool := 0xDC00 ≤ n ∧ n ≤ 0xDFFF

/-- What a four-digit code stands for. -/
def Piece.ofCode (n : Nat) : Piece :=
  if isHighHalf n ∨ isLowHalf n then .half n else .char (Char.ofNat n)

/-- What a backslash and one more character stand for. -/
def shortEscape? (c : Char) : Option Char :=
  if c = '"' then some '"'
  else if c = '\\' then some '\\'
  else if c = '/' then some '/'
  else if c = 'b' then some '\x08'
  else if c = 'f' then some '\x0c'
  else if c = 'n' then some '\n'
  else if c = 'r' then some '\r'
  else if c = 't' then some '\t'
  else none

/-- Undoes the escapes. -/
def pieces? : List Char → Option (List Piece)
  | [] => some []
  | '\\' :: 'u' :: a :: b :: c :: d :: rest =>
    match code? a b c d with
    | none => none
    | some n => (pieces? rest).map (Piece.ofCode n :: ·)
  | '\\' :: c :: rest =>
    match shortEscape? c with
    | none => none
    | some e => (pieces? rest).map (.char e :: ·)
  | c :: rest =>
    if c = '\\' ∨ c.toNat < 32 then none else (pieces? rest).map (.char c :: ·)

/-- The character of a surrogate pair. -/
def paired (high low : Nat) : Char :=
  Char.ofNat (0x10000 + (high - 0xD800) * 0x400 + (low - 0xDC00))

/-- Puts surrogate halves together. -/
def joinPieces? : List Piece → Option (List Char)
  | [] => some []
  | .char c :: rest => (joinPieces? rest).map (c :: ·)
  | .half h :: .half l :: rest =>
    if isHighHalf h ∧ isLowHalf l then (joinPieces? rest).map (paired h l :: ·) else none
  | .half _ :: _ => none

/-- The text a written form stands for. -/
def decode? (cs : List Char) : Option (List Char) := (pieces? cs).bind joinPieces?

end MessageKeys.Json.Quoted
