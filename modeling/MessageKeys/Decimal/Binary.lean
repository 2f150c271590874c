/-! # Doubles as exact numbers

    A finite double is a whole number times a power of two.  `ofFloat` reads both from the
    bits, so what is printed of a double is computed exactly: `wholeText` rounds it to the
    nearest whole number, a half to the even neighbour. -/

namespace MessageKeys.Decimal

/-- What the bits of a double stand for. -/
inductive Binary where
  | nan
  | infinite (negative : Bool)
  /-- The number `significand * 2 ^ exponent` with its sign. -/
  | finite (negative : Bool) (significand : Nat) (exponent : Int)
  deriving DecidableEq, Repr

namespace Binary

/-- The exponent of the smallest doubles. -/
def leastExponent : Int := -1074

/-- The bit before the fraction, which is not stored. -/
def hiddenBit : Nat := Nat.pow 2 52

/-- The number of exponent fields. -/
def exponentCount : Nat := Nat.pow 2 11

/-- The bit of the sign. -/
def signBit : Nat := Nat.pow 2 63

/-- What the bits of a double stand for. -/
def ofFloat (x : Float) : Binary :=
  let bits := x.toBits.toNat
  let negative : Bool := signBit ≤ bits
  let field : Nat := bits / hiddenBit % exponentCount
  let fraction : Nat := bits % hiddenBit
  if field + 1 = exponentCount then
    if fraction = 0 then .infinite negative else .nan
  else if field = 0 then .finite negative fraction leastExponent
  else .finite negative (hiddenBit + fraction) (leastExponent + field - 1)

end Binary

/-- The text of a number with its sign. -/
def signed (negative : Bool) (magnitude : String) : String :=
  if negative then "-" ++ magnitude else magnitude

/-! ## Rounding to whole numbers -/

/-- The quotient rounded to the nearest whole number; a half goes to the even neighbour. -/
def roundDiv (numerator denominator : Nat) : Nat :=
  let q := numerator / denominator
  let twice := 2 * (numerator % denominator)
  if twice < denominator then q
  else if denominator < twice then q + 1
  else if q % 2 = 0 then q else q + 1

/-- The text of a double rounded to a whole number. -/
def wholeText (x : Float) : String :=
  match Binary.ofFloat x with
  | .nan => "NaN"
  | .infinite negative => signed negative "inf"
  | .finite negative m (.ofNat e) => signed negative (toString (m * Nat.pow 2 e))
  | .finite negative m (.negSucc e) => signed negative (toString (roundDiv m (Nat.pow 2 (e + 1))))

/-- The text of a share in per cent, rounded to a whole number. -/
def percentText (share : Float) : String := wholeText (share * 100.0) ++ "%"

end MessageKeys.Decimal
