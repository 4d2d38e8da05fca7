import Deduction.Database
import Deduction.Schedule
import Deduction.Settings
import Deduction.Strata

/-!
# Matching bodies against a database

The solutions of a scheduled body are found literal by literal: a positive literal extends a
solution by each stored tuple that it matches, a negated literal drops it if there is such a tuple,
and a builtin completes it or drops it.

`Matching.solutions` is told for each literal which database its tuples come from. The instances of
a rule that use a tuple of a smaller database, the delta, are found by letting each positive literal
in turn read the delta while the others read the whole database.
-/

namespace Deduction

/-- An evaluation fails. -/
inductive EvaluationError where
  /-- A rule is not safe. -/
  | safety (cause : SafetyError)
  /-- The program has no strata. -/
  | stratification (cause : StratificationError)
  /-- A tuple has the wrong number of terms. -/
  | arity (mismatch : ArityMismatch)
  /-- A call of a builtin fails. -/
  | builtin (call : BuiltinCall) (cause : BuiltinError)
  /-- A builtin is not registered. -/
  | unknownBuiltin (name : String)
  /-- A rule derives an atom with variables. -/
  | notGround (fact : Atom)
  /-- The evaluation takes too much time. -/
  | timeout (limitMs : Nat)
  /-- The evaluation derives too many tuples. -/
  | tupleLimit (limit : Nat)
deriving DecidableEq

/-- The text of the error. -/
def EvaluationError.message : EvaluationError → String
  | safety cause => cause.message
  | stratification cause => cause.message
  | arity mismatch => mismatch.message
  | builtin call cause => "evaluating " ++ call.text ++ " failed: " ++ cause.message
  | unknownBuiltin name => "unknown builtin " ++ name
  | notGround fact => "derived non-ground fact " ++ fact.text
  | timeout limitMs =>
    "evaluation exceeded its time limit of " ++ toString limitMs ++ " ms"
  | tupleLimit limit => "evaluation derived more than " ++ toString limit ++ " tuples"

/-- A fact that a rule derives cannot be stored. -/
def EvaluationError.ofFactError : FactError → EvaluationError
  | .arity mismatch => .arity mismatch
  | .notGround fact => .notGround fact

/-- The builtins and the settings of an evaluation. -/
structure Context where
  /-- The builtins. -/
  registry : Registry
  /-- The settings. -/
  settings : Settings

/-- A rule with its body in the order in which it is matched. -/
structure ScheduledRule where
  /-- The atom that the rule derives. -/
  head : Atom
  /-- The literals in the order in which they are matched. -/
  body : List Literal

namespace Context

/-- Schedules the body of a rule. -/
def scheduleRule (ctx : Context) (r : Rule) : ScheduledRule :=
  ⟨r.head, schedule ctx.registry ctx.settings.safety r.body⟩

/-- Evaluates a call. A division by zero may count as a failure of the builtin. -/
def evaluateCall (ctx : Context) (c : BuiltinCall) :
    Except EvaluationError (Option (List Term)) :=
  match ctx.registry.get? c.name with
  | none => .error (.unknownBuiltin c.name)
  | some b =>
    match b.evaluate c.terms, ctx.settings.zeroDivision with
    | .ok completed, _ => .ok completed
    | .error (.divisionByZero _), .discard => .ok none
    | .error cause, _ => .error (.builtin c cause)

end Context

namespace Matching

/-- The ways of extending a substitution so that a literal holds. Positive literals read `source`,
negated ones `full`. -/
def extensions (ctx : Context) (full source : Database) (s : Substitution) :
    Literal → Except EvaluationError (List Substitution)
  | .positive a => .ok (source.query a s)
  | .negative a => .ok (if full.matchesAny a s then [] else [s])
  | .builtin c => do
    let args := s.applyAll c.terms
    match ← ctx.evaluateCall ⟨c.name, args⟩ with
    | some completed => return (s.unifyAll args completed).substitution?.toList
    | none => return []

/-- The ways of extending a substitution so that all literals hold, each positive literal reading
the database beside it. -/
def solutions (ctx : Context) (full : Database) :
    List (Literal × Database) → Substitution → Except EvaluationError (List Substitution)
  | [], s => .ok [s]
  | (l, source) :: body, s => do
    let extended ← extensions ctx full source s l
    -- Depth first: an error ends the search where it occurs.
    let found ← extended.mapM (solutions ctx full body)
    return found.flatten

/-- The solutions of a scheduled body in a database. -/
def satisfy (ctx : Context) (db : Database) (body : List Literal) :
    Except EvaluationError (List Substitution) :=
  solutions ctx db (body.map (·, db)) Substitution.empty

/-- The solutions of a scheduled body in which the literal at a position reads the delta. -/
def satisfyAt (ctx : Context) (db delta : Database) (body : List Literal) (position : Nat) :
    Except EvaluationError (List Substitution) :=
  solutions ctx db (body.zipIdx.map fun (l, i) => (l, if i = position then delta else db))
    Substitution.empty

/-- The positions of the positive literals that may match tuples of the delta. -/
def deltaPositions (delta : Database) (body : List Literal) : List Nat :=
  body.zipIdx.filterMap fun
    | (.positive a, i) => if delta.hasTuples a.predicate then some i else none
    | _ => none

end Matching

namespace ScheduledRule

/-- The fact that a solution of the body derives. -/
def instantiate (r : ScheduledRule) (s : Substitution) : Except EvaluationError Atom :=
  let fact := s.applyAtom r.head
  if fact.isGround then .ok fact else .error (.notGround fact)

/-- The facts that the rule derives from a database, in the order in which they are found. -/
def derive (ctx : Context) (db : Database) (r : ScheduledRule) :
    Except EvaluationError (List Atom) := do
  let found ← Matching.satisfy ctx db r.body
  found.mapM r.instantiate

/-- The facts that the rule derives from a database with the help of the delta, which is a part of
it. -/
def deriveDelta (ctx : Context) (db delta : Database) (r : ScheduledRule) :
    Except EvaluationError (List Atom) := do
  let found ← (Matching.deltaPositions delta r.body).mapM fun i => do
    let found ← Matching.satisfyAt ctx db delta r.body i
    found.mapM r.instantiate
  return found.flatten

end ScheduledRule

end Deduction
