import Deduction.Safety
import Deduction.Settings.Document

/-!
# Settings of an evaluation

Every setting has a default value, so that a document needs to name only the settings that differ
from it. Fields that are not known are ignored; a known field with a value of the wrong form makes
the document invalid. Settings may also be listed without names, the first ones in their order.
-/

namespace Deduction

/-- How the fixpoint of a stratum is computed. -/
inductive Strategy where
  /-- Later rounds look only at derivations from tuples of the round before. -/
  | semiNaive
  /-- Every round looks at all derivations. -/
  | naive
deriving DecidableEq

/-- What a division by zero in the body of a rule does. -/
inductive ZeroDivision where
  /-- It ends the evaluation. -/
  | stop
  /-- It makes the builtin fail. -/
  | discard
deriving DecidableEq

/-- The settings of an evaluation. -/
structure Settings where
  /-- How fixpoints are computed. -/
  strategy : Strategy := .semiNaive
  /-- Queries are answered with magic sets where this is possible. -/
  magicSets : Bool := true
  /-- The largest number of tuples that one evaluation may derive. -/
  maxTuples : Option Nat := none
  /-- The number of milliseconds that one evaluation may take. -/
  timeoutMs : Option Nat := none
  /-- What a division by zero does. -/
  zeroDivision : ZeroDivision := .discard
  /-- What the safety check allows. -/
  safety : SafetyOptions := {}
deriving DecidableEq

/-- The names of the strategies. -/
def Strategy.choices : List (String × Strategy) :=
  [("semi_naive", .semiNaive), ("naive", .naive)]

/-- The name of a strategy. -/
def Strategy.text : Strategy → String
  | semiNaive => "semi_naive"
  | naive => "naive"

/-- The names of what a division by zero does. -/
def ZeroDivision.choices : List (String × ZeroDivision) :=
  [("stop", .stop), ("discard", .discard)]

/-- The name of what a division by zero does. -/
def ZeroDivision.text : ZeroDivision → String
  | stop => "stop"
  | discard => "discard"

/-- The largest number that limits can have. -/
def Settings.largestLimit : Nat :=
  UInt64.size - 1

namespace SafetyOptions

/-- The names of the options of the safety check, in their order. -/
def fieldNames : List String :=
  ["allow_unlimited_in_negation", "ternary_targets_imply_limited"]

/-- Reads the options of the safety check. -/
def ofDocument? (d : Document) : Option SafetyOptions := do
  let fields ← d.record? fieldNames
  let defaults : SafetyOptions := {}
  let allow ← Document.field? fields "allow_unlimited_in_negation" Document.boolean?
    defaults.allowUnlimitedInNegation
  let imply ← Document.field? fields "ternary_targets_imply_limited" Document.boolean?
    defaults.ternaryTargetsImplyLimited
  return ⟨allow, imply⟩

/-- Writes the options of the safety check, with all fields. -/
def toDocument (o : SafetyOptions) : Document :=
  .object [("allow_unlimited_in_negation", .boolean o.allowUnlimitedInNegation),
    ("ternary_targets_imply_limited", .boolean o.ternaryTargetsImplyLimited)]

end SafetyOptions

namespace Settings

/-- The names of the settings, in their order. -/
def fieldNames : List String :=
  ["strategy", "magic_sets", "max_tuples", "timeout_ms", "divide_by_zero", "safety"]

/-- Reads settings. -/
def ofDocument? (d : Document) : Option Settings := do
  let fields ← d.record? fieldNames
  let defaults : Settings := {}
  let limit := Document.optional? (Document.natural? largestLimit)
  let strategy ← Document.field? fields "strategy" (Document.choice? Strategy.choices)
    defaults.strategy
  let magicSets ← Document.field? fields "magic_sets" Document.boolean? defaults.magicSets
  let maxTuples ← Document.field? fields "max_tuples" limit defaults.maxTuples
  let timeoutMs ← Document.field? fields "timeout_ms" limit defaults.timeoutMs
  let zeroDivision ← Document.field? fields "divide_by_zero"
    (Document.choice? ZeroDivision.choices) defaults.zeroDivision
  let safety ← Document.field? fields "safety" SafetyOptions.ofDocument? defaults.safety
  return { strategy, magicSets, maxTuples, timeoutMs, zeroDivision, safety }

/-- Writes a limit. -/
def limitDocument : Option Nat → Document
  | some n => .integer n
  | none => .null

/-- Writes settings, with all fields. -/
def toDocument (s : Settings) : Document :=
  .object [("strategy", .text s.strategy.text), ("magic_sets", .boolean s.magicSets),
    ("max_tuples", limitDocument s.maxTuples), ("timeout_ms", limitDocument s.timeoutMs),
    ("divide_by_zero", .text s.zeroDivision.text), ("safety", s.safety.toDocument)]

end Settings

end Deduction
