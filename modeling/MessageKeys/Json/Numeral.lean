/-! # JSON numerals — number texts and the doubles they stand for

    A numeral is an optional minus, whole digits without a leading zero, digits after a
    point and an exponent.  `ofChars?` reads exactly this grammar.

    Its double is found in one multiplication: the leading digits that fit into 64 bits are
    the significand, the digits left out only shift the exponent, and the significand is
    multiplied or divided by one power of ten.  A numeral beyond the largest double has no
    double. -/

namespace MessageKeys.Json

/-- The parts of a number text; digits are values from 0 to 9. -/
structure Numeral where
  negative : Bool
  whole : List Nat
  /-- Digits after the point; none if there is no point. -/
  fraction : List Nat
  /-- The exponent's digits, and whether it is negative. -/
  exponent : Option (Bool × List Nat)
  deriving DecidableEq, Repr

namespace Numeral

/-- The values of a run of digits. -/
def digitValues (cs : List Char) : List Nat := cs.map fun c => c.toNat - '0'.toNat

/-- The number a run of digits names. -/
def value (digits : List Nat) : Nat := digits.foldl (fun n d => n * 10 + d) 0

/-- The numeral of a whole number. -/
def ofNat (n : Nat) : Numeral :=
  ⟨false, digitValues (Nat.toDigits 10 n), [], none⟩

/-- The digits after a point, and what follows them. -/
def fractionOf? (cs : List Char) : Option (List Nat × List Char) :=
  match cs with
  | '.' :: rest =>
    let digits := rest.takeWhile Char.isDigit
    if digits.isEmpty then none else some (digitValues digits, rest.dropWhile Char.isDigit)
  | _ => some ([], cs)

/-- The exponent that makes up the rest of a numeral. -/
def exponentOf? (cs : List Char) : Option (Option (Bool × List Nat)) :=
  match cs with
  | [] => some none
  | c :: rest =>
    if c = 'e' ∨ c = 'E' then
      let (negative, digits) := match rest with
        | '-' :: ds => (true, ds)
        | '+' :: ds => (false, ds)
        | ds => (false, ds)
      if digits.isEmpty ∨ ¬ digits.all Char.isDigit then none
      else some (some (negative, digitValues digits))
    else none

/-- Whole digits: a zero alone, or digits that start with another one. -/
def isWhole (digits : List Char) : Bool :=
  match digits with
  | [] => false
  | [_] => true
  | d :: _ => d ≠ '0'

/-- Reads a whole text as a numeral. -/
def ofChars? (cs : List Char) : Option Numeral :=
  let (negative, cs) := match cs with
    | '-' :: rest => (true, rest)
    | _ => (false, cs)
  let digits := cs.takeWhile Char.isDigit
  if isWhole digits then
    match fractionOf? (cs.dropWhile Char.isDigit) with
    | none => none
    | some (fraction, rest) =>
      (exponentOf? rest).map fun exponent => ⟨negative, digitValues digits, fraction, exponent⟩
  else none

/-- The text of a run of digits. -/
def digitChars (digits : List Nat) : List Char := digits.map Nat.digitChar

/-- The text of a numeral. -/
def toChars (n : Numeral) : List Char :=
  (if n.negative then ['-'] else []) ++ digitChars n.whole
    ++ (if n.fraction.isEmpty then [] else '.' :: digitChars n.fraction)
    ++ (match n.exponent with
      | none => []
      | some (negative, digits) => 'e' :: (if negative then ['-'] else []) ++ digitChars digits)

/-! ## Whole numbers -/

/-- The first whole number that does not fit into 64 bits. -/
def wordLimit : Nat := Nat.pow 2 64

/-- The number, if the numeral is one of 64 bits without sign, fraction and exponent. -/
def toWord? (n : Numeral) : Option Nat :=
  if n.negative ∨ ¬ n.fraction.isEmpty ∨ n.exponent.isSome then none
  else
    let v := value n.whole
    if v < wordLimit then some v else none

/-! ## Doubles -/

/-- Takes whole digits into a 64-bit significand; from the first that does not fit on they
    are counted instead. -/
def takeWhole : Nat → List Nat → Nat × Nat
  | s, [] => (s, 0)
  | s, d :: ds => if s * 10 + d < wordLimit then takeWhole (s * 10 + d) ds else (s, ds.length + 1)

/-- Takes fraction digits into a 64-bit significand as long as they fit, and counts those
    taken. -/
def takeFraction : Nat → List Nat → Nat × Nat
  | s, [] => (s, 0)
  | s, d :: ds =>
    if s * 10 + d < wordLimit then
      let (t, n) := takeFraction (s * 10 + d) ds
      (t, n + 1)
    else (s, 0)

/-- A power of ten up to the largest a double can hold. -/
def powerOfTen (n : Nat) : Float := Float.ofScientific 1 false n

/-- Divides by a power of ten, in steps where it is too large for a double. -/
def scaleDown (x : Float) (n : Nat) : Float :=
  if n ≤ 308 then x / powerOfTen n
  else if x == 0.0 then x
  else scaleDown (x / powerOfTen 308) (n - 308)
termination_by n

/-- Multiplies by a power of ten, as long as the result is finite. -/
def scaleUp? (x : Float) (n : Nat) : Option Float :=
  if n ≤ 308 then
    let y := x * powerOfTen n
    if y.isInf then none else some y
  else if x == 0.0 then some x
  else none

/-- The size of the largest exponent that is told apart from all larger ones. -/
def exponentLimit : Nat := 2147483647

/-- The double without its sign. -/
def magnitude? (n : Numeral) : Option Float :=
  let (s, dropped) := takeWhole 0 n.whole
  let (s, taken) := takeFraction s n.fraction
  let x := (UInt64.ofNat s).toFloat
  let shift : Int := dropped - taken
  match n.exponent with
  | none => scale x shift
  | some (negative, digits) =>
    let e := value digits
    if exponentLimit < e then
      if s ≠ 0 ∧ ¬ negative then none else some 0.0
    else scale x (if negative then shift - e else shift + e)
where
  scale (x : Float) (shift : Int) : Option Float :=
    if 0 ≤ shift then scaleUp? x shift.toNat else some (scaleDown x (-shift).toNat)

/-- The double the numeral stands for; none beyond the largest one. -/
def toFloat? (n : Numeral) : Option Float :=
  n.magnitude?.map fun x => if n.negative then -x else x

end MessageKeys.Json.Numeral
