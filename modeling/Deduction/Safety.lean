import Deduction.Builtin.Registry
import Deduction.Settle

/-!
# Safe rules

A variable of a rule is limited if its value is known once the body has been matched: it occurs in a
positive literal, or a builtin computes it from limited variables. A rule is safe if the variables
of its head, of its builtins and of its negated literals are limited; anonymous variables are
exempt.

`limitedVars` is a least fixpoint. A pass over the body that adds anything settles a builtin literal
which no earlier pass had settled, so there are never more such passes than literals.
-/

namespace Deduction

/-- What the safety check allows. -/
structure SafetyOptions where
  /-- Variables of negated literals need not be limited. -/
  allowUnlimitedInNegation : Bool := false
  /-- Arithmetic limits the argument that it computes. -/
  ternaryTargetsImplyLimited : Bool := true
deriving DecidableEq

/-- The part of a rule in which a variable occurs. -/
inductive Place where
  /-- The head. -/
  | head
  /-- A negated literal. -/
  | negation (atom : Atom)
  /-- A call of a builtin. -/
  | call (call : BuiltinCall)
deriving DecidableEq

/-- The text of a place. -/
def Place.text : Place → String
  | head => "the head"
  | negation atom => "negated literal " ++ (Literal.negative atom).text
  | call c => "builtin " ++ c.text

/-- A rule cannot be evaluated safely. -/
inductive SafetyError where
  /-- A variable is not limited. -/
  | unlimited (rule : Rule) (variableName : String) (place : Place)
  /-- A builtin is not registered. -/
  | unknownBuiltin (rule : Rule) (name : String)
  /-- A builtin is called with the wrong number of arguments. -/
  | builtinArity (rule : Rule) (name : String) (expected found : Nat)
deriving DecidableEq

/-- The text of the error. -/
def SafetyError.message : SafetyError → String
  | unlimited rule x place =>
    "unsafe rule '" ++ rule.text ++ "': variable " ++ x ++ " in " ++ place.text ++
      " is not limited"
  | unknownBuiltin rule name => "unknown builtin " ++ name ++ " in rule '" ++ rule.text ++ "'"
  | builtinArity rule name expected found =>
    "builtin " ++ name ++ " expects " ++ toString expected ++ " arguments, got " ++
      toString found ++ " in rule '" ++ rule.text ++ "'"

/-! ## Limited variables -/

/-- The builtins of a mode limit the variables that they compute. -/
def Mode.limits (options : SafetyOptions) : Mode → Bool
  | .check => false
  | .equality => true
  | .solvable | .function => options.ternaryTargetsImplyLimited

/-- A call of a builtin can be evaluated when the variables in `known` have values. -/
def BuiltinCall.canEvaluate (c : BuiltinCall) (b : Builtin) (known : List String) : Bool :=
  b.mode.canEvaluate (c.terms.map (·.isCoveredBy known))

/-- The variables that a literal limits when those in `limited` are. -/
def Literal.limits (registry : Registry) (options : SafetyOptions) (limited : List String) :
    Literal → List String
  | .builtin c =>
    match registry.get? c.name with
    | some b => if b.mode.limits options && c.canEvaluate b limited then c.vars else []
    | none => []
  | _ => []

/-- One pass over a body, which adds what each literal limits. -/
def limitPass (registry : Registry) (options : SafetyOptions) (body : List Literal)
    (limited : List String) : List String :=
  body.foldl (fun limited l =>
    limited ++ (l.limits registry options limited).filter (· ∉ limited)) limited

/-- The limited variables of a body. -/
def limitedVars (registry : Registry) (options : SafetyOptions) (body : List Literal) :
    List String :=
  settle (limitPass registry options body) body.length
    ((body.filter Literal.isPositive).flatMap Literal.vars).eraseDups

/-! ## The safety check -/

namespace Rule

/-- The builtin of a call is registered, and is called with as many arguments as it has. -/
def checkCall (rule : Rule) (registry : Registry) (c : BuiltinCall) : Except SafetyError Unit :=
  match registry.get? c.name with
  | none => .error (.unknownBuiltin rule c.name)
  | some b =>
    if b.arity = c.terms.length then .ok ()
    else .error (.builtinArity rule c.name b.arity c.terms.length)

/-- All calls in the body of a rule are well formed. -/
def checkBuiltins (rule : Rule) (registry : Registry) : Except SafetyError Unit :=
  rule.body.forM fun
    | .builtin c => rule.checkCall registry c
    | _ => .ok ()

/-- Every named variable of a part of a rule is limited. -/
def checkLimited (rule : Rule) (limited : List String) (place : Place) (names : List String) :
    Except SafetyError Unit :=
  match names.find? fun x => !isAnonymous x && x ∉ limited with
  | some x => .error (.unlimited rule x place)
  | none => .ok ()

/-- The named variables of the head, the negated literals and the builtins of a rule are limited,
and its builtins are well formed. -/
def checkSafety (rule : Rule) (registry : Registry) (options : SafetyOptions) :
    Except SafetyError Unit := do
  rule.checkBuiltins registry
  let limited := limitedVars registry options rule.body
  rule.checkLimited limited .head rule.head.vars
  rule.body.forM fun
    | .positive _ => .ok ()
    | .negative a =>
      if options.allowUnlimitedInNegation then .ok ()
      else rule.checkLimited limited (.negation a) a.vars
    | .builtin c => rule.checkLimited limited (.call c) c.vars

end Rule

/-- All rules of a program are safe. -/
def checkSafety (rules : List Rule) (registry : Registry) (options : SafetyOptions) :
    Except SafetyError Unit :=
  rules.forM (·.checkSafety registry options)

end Deduction
