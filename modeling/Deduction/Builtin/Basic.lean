import Deduction.Builtin.Number
import Deduction.Unification

/-!
# Builtins

A builtin is a predicate that is computed: equality, the comparisons, and the arithmetic relations.
It is given its arguments, of which some may be open, and completes them, finds that they cannot be
completed, or fails with an error.
-/

namespace Deduction

/-- Which arguments a builtin can compute from the others. -/
inductive Mode where
  /-- None: the builtin is a test. -/
  | check
  /-- Either of two arguments. -/
  | equality
  /-- Any single argument. -/
  | solvable
  /-- The last argument. -/
  | function
deriving DecidableEq

namespace Mode

/-- A call can be evaluated when exactly the marked arguments have values. -/
def canEvaluate (mode : Mode) (bound : List Bool) : Bool :=
  let unbound := bound.count false
  match mode with
  | check => unbound = 0
  | equality | solvable => unbound ≤ 1
  | function => unbound = 0 || (unbound = 1 && bound.getLast? = some false)

/-- The name of a mode. -/
def text : Mode → String
  | check => "Check"
  | equality => "Equality"
  | solvable => "Solvable"
  | function => "Function"

end Mode

/-- The tests of two terms. -/
inductive Comparison where
  /-- The terms differ. -/
  | notEqual
  /-- The first term is smaller. -/
  | less
  /-- The first term is smaller or equal. -/
  | lessEqual
  /-- The first term is greater. -/
  | greater
  /-- The first term is greater or equal. -/
  | greaterEqual
deriving DecidableEq

/-- The operations of arithmetic, read as `x op y = z`. -/
inductive Operation where
  /-- Addition. -/
  | add
  /-- Subtraction. -/
  | subtract
  /-- Multiplication. -/
  | multiply
  /-- Division. -/
  | divide
  /-- The remainder of division. -/
  | modulus
deriving DecidableEq

/-- A builtin with its own name. -/
inductive Builtin where
  /-- Two terms are equal; numbers are compared by value. -/
  | equality
  /-- Two terms stand in an order. -/
  | comparison (name : String) (op : Comparison)
  /-- Three numbers satisfy `x op y = z`. -/
  | arithmetic (name : String) (op : Operation)
deriving DecidableEq

/-- A builtin cannot be evaluated. -/
inductive BuiltinError where
  /-- A number is divided by zero. -/
  | divisionByZero (builtin : String)
  /-- A whole number does not fit into 64 bits. -/
  | overflow (builtin : String)
  /-- The call has the wrong number of arguments. -/
  | wrongArity (builtin : String) (expected found : Nat)
  /-- Too many arguments of the call are open. -/
  | unbound (builtin : String) (args : List Term)
deriving DecidableEq

/-- The text of the error. -/
def BuiltinError.message : BuiltinError → String
  | divisionByZero builtin => "division by zero in " ++ builtin
  | overflow builtin => "integer overflow in " ++ builtin
  | wrongArity builtin expected found =>
    builtin ++ " expects " ++ toString expected ++ " arguments, got " ++ toString found
  | unbound builtin args =>
    builtin ++ " cannot be evaluated with unbound arguments (" ++ Term.textAll args ++ ")"

namespace Comparison

/-- The order of two terms satisfies the comparison; terms without an order are different. -/
def holds : Comparison → Option Ordering → Bool
  | notEqual, o => o ≠ some .eq
  | less, o => o = some .lt
  | lessEqual, o => o = some .lt || o = some .eq
  | greater, o => o = some .gt
  | greaterEqual, o => o = some .gt || o = some .eq

/-- The order of two ground terms. Numbers are compared by value; strings, symbols and truth values
with their own kind; other terms are equal or have no order. -/
def order? (t u : Term) : Option Ordering :=
  match Number.ofTerm? t, Number.ofTerm? u with
  | some a, some b => a.compareNumeric b
  | _, _ =>
    match t, u with
    | .const (.string r), .const (.string s) => some (compare r s)
    | .const (.symbol r), .const (.symbol s) => some (compare r s)
    | .const (.boolean a), .const (.boolean b) => some (compare a b)
    | t, u => if t = u then some .eq else none

end Comparison

namespace Operation

/-- The result of the operation. -/
def result : Operation → Number → Number → Except ArithmeticError Number
  | add => Number.add
  | subtract => Number.sub
  | multiply => Number.mul
  | divide => Number.div
  | modulus => Number.rem

/-- A first operand that gives the result `z` with the second operand `y`. -/
def solveFirst (op : Operation) (y z : Number) : Except ArithmeticError (Option Number) :=
  match op with
  | add => (z.sub y).map some
  | subtract => (z.add y).map some
  | multiply => .ok (z.divExact? y)
  | divide => (z.mul y).map some
  | modulus => .ok none

/-- A second operand that gives the result `z` with the first operand `x`. -/
def solveSecond (op : Operation) (x z : Number) : Except ArithmeticError (Option Number) :=
  match op with
  | add => (z.sub x).map some
  | subtract => (x.sub z).map some
  | multiply => .ok (z.divExact? x)
  | divide => .ok (x.divExact? z)
  | modulus => .ok none

end Operation

namespace Builtin

/-- The name that a builtin is registered under and reports errors with. -/
def name : Builtin → String
  | equality => "EQUAL"
  | comparison name _ | arithmetic name _ => name

/-- The number of arguments. -/
def arity : Builtin → Nat
  | equality | comparison _ _ => 2
  | arithmetic _ _ => 3

/-- The arguments that can be computed. -/
def mode : Builtin → Mode
  | equality => .equality
  | comparison _ _ => .check
  | arithmetic _ .modulus => .function
  | arithmetic _ _ => .solvable

/-- The error that an arithmetic failure is reported as. -/
def error (b : Builtin) : ArithmeticError → BuiltinError
  | .divisionByZero => .divisionByZero b.name
  | .overflow => .overflow b.name

/-- Two terms are equal; numbers are compared by value. -/
def equal (t u : Term) : Bool :=
  match Number.ofTerm? t, Number.ofTerm? u with
  | some a, some b => a.sameValue b
  | _, _ => t = u

/-- Evaluates an equality: ground terms are compared, other terms are unified, which has to leave no
variable open. -/
def evaluateEquality (t u : Term) : Except BuiltinError (Option (List Term)) :=
  if t.isGround && u.isGround then .ok (if equal t u then some [t, u] else none)
  else
    match (Substitution.empty.unify t u).substitution? with
    | none => .ok none
    | some s =>
      let completed := s.applyAll [t, u]
      if Term.areGround completed then .ok (some completed)
      else .error (.unbound equality.name [t, u])

/-- Evaluates a comparison, which needs both terms. -/
def evaluateComparison (name : String) (op : Comparison) (t u : Term) :
    Except BuiltinError (Option (List Term)) :=
  if Term.areGround [t, u] then
    .ok (if op.holds (Comparison.order? t u) then some [t, u] else none)
  else .error (.unbound name [t, u])

/-- The arguments with the open one, `target`, made equal to a number. Without a number, or if the
argument cannot be that number, there is no completion. -/
def complete (args : List Term) (target : Term) (value : Option Number) : Option (List Term) := do
  let s ← (Substitution.empty.unify target (← value).toTerm).substitution?
  let completed := s.applyAll args
  if Term.areGround completed then some completed else none

/-- Evaluates an arithmetic relation. Three numbers are checked; otherwise the open argument is
computed from the other two. A ground argument that is not a number satisfies no relation. -/
def evaluateArithmetic (name : String) (op : Operation) (x y z : Term) :
    Except BuiltinError (Option (List Term)) :=
  let args := [x, y, z]
  let self := arithmetic name op
  if !self.mode.canEvaluate (args.map Term.isGround) then .error (.unbound name args)
  else if args.any fun t => t.isGround && (Number.ofTerm? t).isNone then .ok none
  else
    -- An argument is open if it has variables, even if it is not a variable itself.
    match Number.ofTerm? x, Number.ofTerm? y, Number.ofTerm? z with
    | some a, some b, some c =>
      ((op.result a b).mapError self.error).map fun r =>
        if r.sameValue c then some args else none
    | some a, some b, none =>
      ((op.result a b).mapError self.error).map fun r => complete args z (some r)
    | none, some b, some c =>
      ((op.solveFirst b c).mapError self.error).map (complete args x)
    | some a, none, some c =>
      ((op.solveSecond a c).mapError self.error).map (complete args y)
    | _, _, _ => .error (.unbound name args)

/-- Evaluates a call: the completed arguments, or nothing if the builtin does not hold. -/
def evaluate (b : Builtin) (args : List Term) : Except BuiltinError (Option (List Term)) :=
  match b, args with
  | equality, [t, u] => evaluateEquality t u
  | comparison name op, [t, u] => evaluateComparison name op t u
  | arithmetic name op, [x, y, z] => evaluateArithmetic name op x y z
  | b, args => .error (.wrongArity b.name b.arity args.length)

end Builtin

end Deduction
