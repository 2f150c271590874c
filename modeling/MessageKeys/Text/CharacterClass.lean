import MessageKeys.Text.Alphabetic
import MessageKeys.Text.Extender
import MessageKeys.Text.Marks
import MessageKeys.Text.Unprintable

/-! # Character classes — word characters, alphanumerics, blanks and what is shown

    The classes cover all of Unicode.  On ASCII a word character is a letter, a digit or
    `_`, and an alphanumeric is a letter or a digit; beyond it the tables decide.  The two
    differ there: a mark and a joiner are word characters but no alphanumerics, a fraction
    is an alphanumeric but no word character.  Word characters are those of Unicode 16, all
    other classes those of Unicode 17. -/

namespace MessageKeys.Text

/-- The code point lies in one of the ranges. -/
def inRanges (ranges : List (Nat × Nat)) (n : Nat) : Bool :=
  ranges.any fun r => r.1 ≤ n && n ≤ r.2

/-- The character is ASCII. -/
def isAscii (c : Char) : Bool := c.toNat < 128

/-- Alphabetic characters, marks, decimal digits, connecting punctuation and the two
    joiners, as of Unicode 16. -/
def isWord (c : Char) : Bool :=
  if isAscii c then c.isAlphanum || c = '_'
  else
    inRanges alphabeticRanges c.toNat || inRanges markRanges c.toNat
      || inRanges digitRanges c.toNat || inRanges connectorRanges c.toNat
      || c = '\u200c' || c = '\u200d'

/-- Alphabetic characters and all kinds of numbers, as of Unicode 17. -/
def isAlphanumeric (c : Char) : Bool :=
  if isAscii c then c.isAlphanum
  else
    inRanges alphabeticRanges c.toNat || inRanges laterAlphabeticRanges c.toNat
      || inRanges digitRanges c.toNat || inRanges laterDigitRanges c.toNat
      || inRanges numberRanges c.toNat

/-- The character is shown as a part of the one before it. -/
def isExtender (c : Char) : Bool := !isAscii c && inRanges extenderRanges c.toNat

/-- The character shows something of its own: on ASCII all but the controls. -/
def isPrintable (c : Char) : Bool :=
  if isAscii c then 0x20 ≤ c.toNat && c.toNat < 0x7F
  else !inRanges unprintableRanges c.toNat

/-- White space. -/
def isBlank (c : Char) : Bool :=
  let n := c.toNat
  (9 ≤ n && n ≤ 13) || n = 0x20 || n = 0x85 || n = 0xA0 || n = 0x1680
    || (0x2000 ≤ n && n ≤ 0x200A) || n = 0x2028 || n = 0x2029 || n = 0x202F || n = 0x205F
    || n = 0x3000

/-- The text without blanks at its ends. -/
def trim (cs : List Char) : List Char :=
  ((cs.dropWhile isBlank).reverse.dropWhile isBlank).reverse

end MessageKeys.Text
