import MessageKeys.Json.Numeral

/-! # Reading decimals — the double nearest to a number text

    A number text is an optional sign and digits with at most one point, which may come
    first or last, and an optional exponent; `inf`, `infinity` and `nan` in any case are
    number texts too.  The double is the one nearest to the exact number.  What is read keeps
    the sign of a NaN, which the double does not show. -/

namespace MessageKeys.Decimal

open MessageKeys.Json.Numeral (digitValues value)

/-- The exponent beyond which a number with a given count of digits is not told apart. -/
def farExponent : Int := 400

/-- The double nearest to `digits * 10 ^ exponent`. -/
def nearest (digits : Nat) (exponent : Int) : Float :=
  let size : Int := (Nat.toDigits 10 digits).length
  if digits = 0 then 0.0
  else if farExponent < exponent + size then 1.0 / 0.0
  else if exponent + size < -farExponent then 0.0
  else Float.ofScientific digits (exponent < 0) exponent.natAbs

/-- The exponent that makes up the rest of a number text. -/
def readExponent? (cs : List Char) : Option Int :=
  match cs with
  | [] => some 0
  | c :: rest =>
    if c = 'e' ∨ c = 'E' then
      let (negative, digits) := match rest with
        | '-' :: ds => (true, ds)
        | '+' :: ds => (false, ds)
        | ds => (false, ds)
      if digits.isEmpty ∨ ¬ digits.all Char.isDigit then none
      else
        let n : Int := value (digitValues digits)
        some (if negative then -n else n)
    else none

/-- The double of digits, a point and an exponent. -/
def readUnsigned? (cs : List Char) : Option Float :=
  let whole := cs.takeWhile Char.isDigit
  let rest := cs.dropWhile Char.isDigit
  let (fraction, rest) := match rest with
    | '.' :: more => (more.takeWhile Char.isDigit, more.dropWhile Char.isDigit)
    | _ => ([], rest)
  if whole.isEmpty ∧ fraction.isEmpty then none
  else
    (readExponent? rest).map fun e =>
      nearest (value (digitValues (whole ++ fraction))) (e - fraction.length)

/-- What a number text stands for. -/
inductive Reading where
  | number (x : Float)
  | nan (negative : Bool)

/-- The double of a reading. -/
def Reading.toFloat : Reading → Float
  | .number x => x
  | .nan _ => 0.0 / 0.0

/-- The number with its sign. -/
def withSign (negative : Bool) (x : Float) : Float := if negative then -x else x

/-- The reading of a word after its sign. -/
def readWord? (negative : Bool) (cs : List Char) : Option Reading :=
  let word := String.ofList (cs.map Char.toLower)
  if word = "inf" ∨ word = "infinity" then some (.number (withSign negative (1.0 / 0.0)))
  else if word = "nan" then some (.nan negative)
  else none

/-- The reading of a number text. -/
def read? (text : String) : Option Reading :=
  let (negative, cs) := match text.toList with
    | '-' :: rest => (true, rest)
    | '+' :: rest => (false, rest)
    | cs => (false, cs)
  match readUnsigned? cs with
  | some x => some (.number (withSign negative x))
  | none => readWord? negative cs

end MessageKeys.Decimal
