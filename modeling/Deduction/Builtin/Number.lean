import Deduction.Term

/-!
# Numbers in builtins

Builtins compute with integers of 64 bits and with doubles. Two integers are computed with exactly,
and a result that 64 bits cannot hold is an error; as soon as a double takes part, both numbers are
doubles.
-/

namespace Deduction

/-- A number. -/
inductive Number where
  /-- A whole number of 64 bits. -/
  | integer (n : Int64)
  /-- A floating-point number of 64 bits. -/
  | double (x : Double)
deriving DecidableEq

/-- An operation has no result. -/
inductive ArithmeticError where
  /-- The divisor is zero. -/
  | divisionByZero
  /-- The result does not fit into 64 bits. -/
  | overflow
deriving DecidableEq

namespace Number

/-- The number that a term is. -/
def ofTerm? : Term → Option Number
  | .const (.integer n) => some (integer n)
  | .const (.double x) => some (double x)
  | _ => none

/-- The term of a number. -/
def toTerm : Number → Term
  | integer n => .const (.integer n)
  | double x => .const (.double x)

/-- The number as a double, which rounds integers of more than 53 bits. -/
def toDouble : Number → Double
  | integer n => .ofInt n.toInt
  | double x => x

/-- A whole number, if it fits into 64 bits. -/
def ofInt (n : Int) : Except ArithmeticError Number :=
  if Int64.minValue.toInt ≤ n ∧ n ≤ Int64.maxValue.toInt then .ok (integer (.ofInt n))
  else .error .overflow

/-- The comparison of two numbers by value. -/
def compareNumeric : Number → Number → Option Ordering
  | integer m, integer n => some (compare m n)
  | a, b => a.toDouble.compareNumeric b.toDouble

/-- The numbers have the same value. -/
def sameValue (a b : Number) : Bool :=
  a.compareNumeric b = some .eq

/-- The sum. -/
def add : Number → Number → Except ArithmeticError Number
  | integer m, integer n => ofInt (m.toInt + n.toInt)
  | a, b => .ok (double (a.toDouble.add b.toDouble))

/-- The difference. -/
def sub : Number → Number → Except ArithmeticError Number
  | integer m, integer n => ofInt (m.toInt - n.toInt)
  | a, b => .ok (double (a.toDouble.sub b.toDouble))

/-- The product. -/
def mul : Number → Number → Except ArithmeticError Number
  | integer m, integer n => ofInt (m.toInt * n.toInt)
  | a, b => .ok (double (a.toDouble.mul b.toDouble))

/-- The quotient; of two integers the one that is cut toward zero. -/
def div : Number → Number → Except ArithmeticError Number
  | integer m, integer n =>
    if n = 0 then .error .divisionByZero else ofInt (m.toInt.tdiv n.toInt)
  | a, b =>
    if b.toDouble.isZero then .error .divisionByZero
    else .ok (double (a.toDouble.div b.toDouble))

/-- The remainder of the division that is cut toward zero. It overflows where the quotient does. -/
def rem : Number → Number → Except ArithmeticError Number
  | integer m, integer n =>
    if n = 0 then .error .divisionByZero
    else (ofInt (m.toInt.tdiv n.toInt)).bind fun _ => ofInt (m.toInt.tmod n.toInt)
  | a, b =>
    if b.toDouble.isZero then .error .divisionByZero
    else .ok (double (a.toDouble.rem b.toDouble))

/-- The quotient, if the division of two integers leaves no remainder. -/
def divExact? : Number → Number → Option Number
  | integer m, integer n =>
    if n = 0 ∨ m.toInt.tmod n.toInt ≠ 0 then none else (ofInt (m.toInt.tdiv n.toInt)).toOption
  | a, b => if b.toDouble.isZero then none else some (double (a.toDouble.div b.toDouble))

end Number

end Deduction
