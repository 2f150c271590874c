import MessageKeys.Decimal.Binary

/-! # Shortest decimals — the fewest digits that read back

    The real numbers that round to a double form an interval around it.  The shortest decimal
    is the first one found in it on ever finer decimal grids; of two on one grid the nearer
    counts, and of two as near the larger.  It is written out in full, without an exponent. -/

namespace MessageKeys.Decimal

/-- A double with the ends of the interval that rounds to it, over one denominator. -/
structure Interval where
  low : Nat
  value : Nat
  high : Nat
  denominator : Nat
  /-- The ends themselves round to the double. -/
  closed : Bool

namespace Interval

/-- The interval of a positive double. -/
def ofFinite (m : Nat) (e : Int) : Interval :=
  let scale := if 0 ≤ e then Nat.pow 2 e.toNat else 1
  let denominator := if 0 ≤ e then 4 else 4 * Nat.pow 2 (-e).toNat
  let below := if m = Binary.hiddenBit ∧ e ≠ Binary.leastExponent then 1 else 2
  ⟨(4 * m - below) * scale, 4 * m * scale, (4 * m + 2) * scale, denominator, m % 2 = 0⟩

/-- The fraction, over the interval's denominator times `unit`, lies in the interval. -/
def holds (i : Interval) (n unit : Nat) : Bool :=
  if i.closed then i.low * unit ≤ n && n ≤ i.high * unit
  else i.low * unit < n && n < i.high * unit

/-- The multiple of a power of ten in the interval that is nearest to the double, the larger
    one on a tie. -/
def onGrid? (i : Interval) (k : Int) : Option Nat :=
  let step := if 0 ≤ k then Nat.pow 10 k.toNat * i.denominator else i.denominator
  let unit := if 0 ≤ k then 1 else Nat.pow 10 (-k).toNat
  let d := i.value * unit / step
  match i.holds (d * step) unit, i.holds ((d + 1) * step) unit with
  | true, true =>
    let toLower := i.value * unit - d * step
    let toUpper := (d + 1) * step - i.value * unit
    if toLower < toUpper then some d else some (d + 1)
  | true, false => some d
  | false, true => some (d + 1)
  | false, false => none

/-- The largest power of ten that is tried first. -/
def coarsest : Int := 309

/-- The number of grids that are tried; the last one holds every double. -/
def gridCount : Nat := 1384

/-- The digits of the shortest decimal and the power of ten they count. -/
def shortest (i : Interval) : Nat × Int :=
  ((List.range gridCount).findSome? fun (n : Nat) =>
    (i.onGrid? (coarsest - n)).map fun d => (d, coarsest - n)).getD (0, 0)

end Interval

/-- A whole number times a power of ten, written out in full. -/
def positional (digits : Nat) (k : Int) : String :=
  let text := (Nat.toDigits 10 digits)
  if 0 ≤ k then String.ofList (text ++ List.replicate k.toNat '0')
  else
    let places := (-k).toNat
    let padded := List.replicate (places + 1 - text.length) '0' ++ text
    let split := padded.length - places
    String.ofList (padded.take split ++ '.' :: padded.drop split)

/-- The shortest decimal of a double. -/
def shortestText (x : Float) : String :=
  match Binary.ofFloat x with
  | .nan => "NaN"
  | .infinite negative => signed negative "inf"
  | .finite negative m e =>
    if m = 0 then signed negative "0"
    else
      let (digits, k) := (Interval.ofFinite m e).shortest
      signed negative (positional digits k)

end MessageKeys.Decimal
