import Deduction.Number.Shortest
import Deduction.Text.Quoted

/-!
# Constant values

The constants that terms and stored tuples are made of. Values are equal when they are of one kind
and have the same content; doubles are compared by their bit patterns. The order goes by kind first,
in the sequence of the constructors, and by content within a kind.
-/

namespace Deduction

/-- A constant. -/
inductive Value where
  /-- A whole number of 64 bits. -/
  | integer (n : Int64)
  /-- A floating-point number of 64 bits. -/
  | double (x : Double)
  /-- A truth value. -/
  | boolean (b : Bool)
  /-- A text. -/
  | string (s : String)
  /-- A name that stands for itself. -/
  | symbol (s : String)
deriving DecidableEq

namespace Value

/-- The place of a value's kind in the order of kinds. -/
def rank : Value → Nat
  | integer _ => 0
  | double _ => 1
  | boolean _ => 2
  | string _ => 3
  | symbol _ => 4

/-- The total order of values: by kind, then by content. -/
def order : Value → Value → Ordering
  | integer m, integer n => compare m n
  | double x, double y => compare x y
  | boolean a, boolean b => compare a b
  | string s, string t => compare s t
  | symbol s, symbol t => compare s t
  | v, w => compare v.rank w.rank

instance : Ord Value :=
  ⟨order⟩

/-- The text of a value: symbols are written bare, strings in quotes. -/
def text : Value → String
  | integer n => toString n.toInt
  | double x => x.text
  | boolean b => if b then "true" else "false"
  | string s => Text.quote s
  | symbol s => s

end Value

end Deduction
