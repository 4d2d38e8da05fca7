/-!
# Double-precision numbers

Binary floating-point numbers of 64 bits, kept as their bit patterns. Two of them are equal exactly
when their patterns are, so equality is decidable and lawful also for the two zeros and for values
that are not numbers; `Double.compareNumeric` is the comparison that ignores the sign of zero, and
`Double.rank` orders every pattern.

A pattern without its sign bit orders numbers by absolute value: the patterns above the one of
infinity are the ones that are not numbers.
-/

namespace Deduction

/-- A binary floating-point number of 64 bits. The two zeros are different values, and a value that
is not a number equals itself. -/
structure Double where
  /-- The sign, the exponent and the fraction, from the most significant bit on. -/
  bits : UInt64
deriving DecidableEq

namespace Double

/-- The place value of the sign bit. -/
def signBit : Nat :=
  0x8000000000000000

/-- The place value of the lowest bit of the exponent, and of the leading bit of a full mantissa. -/
def leadingBit : Nat :=
  0x0010000000000000

/-- The sign bit is set. -/
def isNegative (x : Double) : Bool :=
  signBit ≤ x.bits.toNat

/-- The pattern without its sign bit. -/
def magnitude (x : Double) : Nat :=
  x.bits.toNat % signBit

/-- The magnitude of the two infinities. -/
def infiniteMagnitude : Nat :=
  0x7ff0000000000000

/-- The value is not a number. -/
def isNaN (x : Double) : Bool :=
  infiniteMagnitude < x.magnitude

/-- The value is an infinity. -/
def isInfinite (x : Double) : Bool :=
  x.magnitude = infiniteMagnitude

/-- The value is a zero of either sign. -/
def isZero (x : Double) : Bool :=
  x.magnitude = 0

/-! ## Order -/

/-- The position of a pattern among all patterns: negative before positive, the negative zero just
before the positive one, and values that are not numbers outside the infinities. -/
def rank (x : Double) : Int :=
  if x.isNegative then -(x.magnitude : Int) - 1 else x.magnitude

instance : Ord Double :=
  ⟨fun x y => compare x.rank y.rank⟩

/-- The magnitude with the sign, which is one number for the two zeros. -/
def signedMagnitude (x : Double) : Int :=
  if x.isNegative then -(x.magnitude : Int) else x.magnitude

/-- The comparison of the numbers that two patterns stand for; a value that is not a number compares
with nothing. -/
def compareNumeric (x y : Double) : Option Ordering :=
  if x.isNaN || y.isNaN then none else some (compare x.signedMagnitude y.signedMagnitude)

/-! ## Whole multiples of powers of two -/

/-- The number `m` with `x = m * 2 ^ x.exponent` for a finite `x`, up to the sign. -/
def mantissa (x : Double) : Nat :=
  let fraction := x.magnitude % leadingBit
  if x.magnitude < leadingBit then fraction else fraction + leadingBit

/-- The power of two that one unit of the mantissa of a finite number stands for. -/
def exponent (x : Double) : Int :=
  if x.magnitude < leadingBit then -1074 else (x.magnitude / leadingBit : Nat) - 1075

/-- The pattern with a given sign and magnitude. -/
def ofMagnitude (negative : Bool) (magnitude : Nat) : Double :=
  ⟨UInt64.ofNat (if negative then magnitude + signBit else magnitude)⟩

/-- The number of absolute value `m * 2 ^ e`, which has to be one that a pattern stands for: the
mantissa is shifted to 53 bits, or to fewer where the exponent would become too small. -/
def ofMantissa (negative : Bool) (m : Nat) (e : Int) : Double :=
  -- The exponent of the last bit, in place of the one that `m` is given with.
  let unit := max (e + m.log2 - 52) (-1074)
  let m := if e ≤ unit then m >>> (unit - e).toNat else m <<< (e - unit).toNat
  ofMagnitude negative
    (if m < leadingBit then m else (unit + 1075).toNat * leadingBit + (m - leadingBit))

/-! ## Arithmetic -/

/-- The result of an operation that has none, such as subtracting infinity from itself. -/
def invalid : Double :=
  ⟨0xfff8000000000000⟩

/-- The same value with its quiet bit set. -/
def quiet (x : Double) : Double :=
  ⟨x.bits ||| 0x0008000000000000⟩

/-- The rounding of a whole number to the nearest double, ties to the even mantissa. -/
def ofInt (n : Int) : Double :=
  ⟨(Float.ofInt n).toBits⟩

/-- Lifts an operation on floating-point numbers to patterns. An operand that is not a number is
passed on, the left one first. -/
def lift (op : Float → Float → Float) (x y : Double) : Double :=
  if x.isNaN then x.quiet
  else if y.isNaN then y.quiet
  else
    let result := op (Float.ofBits x.bits) (Float.ofBits y.bits)
    if result.isNaN then invalid else ⟨result.toBits⟩

/-- The sum, rounded to nearest. -/
def add : Double → Double → Double :=
  lift (· + ·)

/-- The difference, rounded to nearest. -/
def sub : Double → Double → Double :=
  lift (· - ·)

/-- The product, rounded to nearest. -/
def mul : Double → Double → Double :=
  lift (· * ·)

/-- The quotient, rounded to nearest. -/
def div : Double → Double → Double :=
  lift (· / ·)

/-- The remainder of the division whose quotient is cut toward zero. It has the sign of the
dividend and is always exact. -/
def rem (x y : Double) : Double :=
  if x.isNaN then x.quiet
  else if y.isNaN then y.quiet
  else if x.isInfinite || y.isZero then invalid
  else if y.isInfinite then x
  else
    -- Both operands are whole multiples of the smaller unit.
    let unit := min x.exponent y.exponent
    let dividend := x.mantissa <<< (x.exponent - unit).toNat
    let divisor := y.mantissa <<< (y.exponent - unit).toNat
    ofMantissa x.isNegative (dividend % divisor) unit

end Double

end Deduction
