import Deduction.Number.Double

/-!
# The shortest decimal text of a double

A finite double is written with the fewest decimal digits that read back as the same double, and
of several such numbers with the nearest one. `Double.shortest` finds these digits in exact
arithmetic: on coarser and then finer decimal grids it looks at the two neighbours of the number,
and takes the first that lies among the reals which round to the number.

`Double.text` writes the digits: positionally while the exponent of the first digit is between
`-4` and `15`, and with a power of ten otherwise.
-/

namespace Deduction

namespace Double

/-- A decimal number `digits * 10 ^ exponent`. -/
structure Decimal where
  /-- The significant digits, read as one number. -/
  digits : Nat
  /-- The power of ten of the last digit. -/
  exponent : Int
deriving DecidableEq

/-- The reals that round to a finite double, in quarters of its unit, with the double itself. The
upper end lies half a unit above. The lower end is half as near where the unit below the number is
half as large. Both ends belong to the interval exactly if the mantissa is even. -/
structure Rounding where
  /-- The lower end of the interval, in quarters of a unit. -/
  lower : Nat
  /-- The number itself, in quarters of a unit. -/
  middle : Nat
  /-- The upper end of the interval, in quarters of a unit. -/
  upper : Nat
  /-- The ends of the interval round to the number, too. -/
  closed : Bool
  /-- The power of two that a quarter of a unit stands for. -/
  exponent : Int

/-- The interval of the reals that round to `x`. -/
def rounding (x : Double) : Rounding :=
  let m := x.mantissa
  { lower := if m = leadingBit && -1074 < x.exponent then 4 * m - 1 else 4 * m - 2
    middle := 4 * m
    upper := 4 * m + 2
    closed := m % 2 = 0
    exponent := x.exponent - 2 }

namespace Rounding

/-- The factor by which quarters of a unit are multiplied when they are measured in steps of
`10 ^ k`, as a quotient of two whole numbers. -/
def scale (r : Rounding) (k : Int) : Nat × Nat :=
  (Nat.pow 2 r.exponent.toNat * Nat.pow 10 (-k).toNat,
    Nat.pow 2 (-r.exponent).toNat * Nat.pow 10 k.toNat)

/-- The multiple of `10 ^ k` that lies in the interval and is nearest to the number; of two equally
near ones the larger. -/
def nearest? (r : Rounding) (k : Int) : Option Nat :=
  let (num, den) := r.scale k
  let inside (c : Nat) : Bool :=
    if r.closed then r.lower * num ≤ c * den && c * den ≤ r.upper * num
    else r.lower * num < c * den && c * den < r.upper * num
  -- The number lies between these two multiples, or is the first of them.
  let below := r.middle * num / den
  let above := below + 1
  match inside below, inside above with
  | false, false => none
  | true, false => some below
  | false, true => some above
  | true, true =>
    if r.middle * num - below * den < above * den - r.middle * num then some below
    else some above

/-- The first decimal found on the grids `10 ^ k`, `10 ^ (k - 1)`, …, at most `fuel` of them. -/
def search (r : Rounding) : (fuel : Nat) → (k : Int) → Decimal
  | 0, k => ⟨0, k⟩
  | fuel + 1, k =>
    match r.nearest? k with
    | some digits => ⟨digits, k⟩
    | none => search r fuel (k - 1)

end Rounding

/-- The decimal with the fewest digits that rounds to the finite, non-zero number `x`, and of
several the nearest. The search starts on a grid wider than the number; eighteen grids further the
steps are smaller than the interval. -/
def shortest (x : Double) : Decimal :=
  let bits : Int := x.mantissa.log2 + x.exponent
  x.rounding.search 24 (bits * 30103 / 100000 + 2)

/-- The digits `ds`, of which the first stands for units of `10 ^ (point - 1)`, written without a
power of ten and with at least one digit on either side of the point. -/
def positional (ds : List Char) (point : Int) : List Char :=
  if point ≤ 0 then
    ['0', '.'] ++ List.replicate (-point).toNat '0' ++ ds
  else if ds.length ≤ point then
    ds ++ List.replicate (point.toNat - ds.length) '0' ++ ['.', '0']
  else
    ds.take point.toNat ++ '.' :: ds.drop point.toNat

/-- The digits `ds` with a point behind the first one, if there are more, and the power of ten of
the first digit. -/
def scientific (ds : List Char) (power : Int) : List Char :=
  let mantissa :=
    match ds with
    | d :: e :: rest => d :: '.' :: e :: rest
    | ds => ds
  mantissa ++ 'e' :: (toString power).toList

/-- The text of a finite number without its sign. -/
def unsignedText (x : Double) : List Char :=
  if x.isZero then ['0', '.', '0']
  else
    let decimal := x.shortest
    let ds := Nat.toDigits 10 decimal.digits
    let point := decimal.exponent + ds.length
    if -3 ≤ point && point ≤ 16 then positional ds point else scientific ds (point - 1)

/-- The text of a double. A value that is not a number has no sign; a negative zero has. -/
def text (x : Double) : String :=
  if x.isNaN then "NaN"
  else
    let digits := if x.isInfinite then ['i', 'n', 'f'] else x.unsignedText
    String.ofList (if x.isNegative then '-' :: digits else digits)

end Double

end Deduction
