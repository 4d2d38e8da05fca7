import Deduction.Answer
import Deduction.Fixpoint
import Deduction.Magic.Program

/-!
# Knowledge bases

A knowledge base has facts and rules, which are checked when it is made, and answers queries. A
query that has a magic program is answered from the facts that this program derives; any other is
answered from all facts that the rules derive, which are computed once and kept.

Queries do not change the facts and the rules.
-/

namespace Deduction

/-- Facts and rules with the means of answering queries about them. -/
structure KnowledgeBase where
  /-- The facts that are given. -/
  facts : Database
  /-- The rules. -/
  rules : List Rule
  /-- The builtins and the settings. -/
  context : Context
  /-- All facts that the rules derive, once they have been computed. -/
  model : Option Database
  /-- The last query was answered from its magic program. -/
  isOptimised : Bool

namespace KnowledgeBase

/-- A knowledge base whose rules are safe and have strata. -/
def create (context : Context) (facts : Database) (rules : List Rule) :
    Except EvaluationError KnowledgeBase := do
  (checkSafety rules context.registry context.settings.safety).mapError .safety
  let _ ← (stratify rules).mapError .stratification
  return { facts, rules, context, model := none, isOptimised := false }

/-- All facts that the rules derive, and the knowledge base that keeps them. -/
def fullModel (kb : KnowledgeBase) (rounds : Nat) : Outcome Database × KnowledgeBase :=
  match kb.model with
  | some db => (some (.ok db), kb)
  | none =>
    match kb.context.evaluate rounds kb.rules kb.facts with
    | some (.ok (db, _)) => (some (.ok db), { kb with model := some db })
    | some (.error e) => (some (.error e), kb)
    | none => (none, kb)

/-- Answers a query from all facts that the rules derive. -/
def executeDirectly (kb : KnowledgeBase) (rounds : Nat) (q : Query) :
    Outcome Answer × KnowledgeBase :=
  match { kb with isOptimised := false }.fullModel rounds with
  | (some (.ok db), kb) => (some (kb.context.answer q db), kb)
  | (some (.error e), kb) => (some (.error e), kb)
  | (none, kb) => (none, kb)

/-- Answers a query from the facts that its magic program derives. -/
def executeMagic (kb : KnowledgeBase) (rounds : Nat) (program : MagicProgram) :
    Outcome Answer × KnowledgeBase :=
  let rules := program.rules ++ bridgeRules program.rules kb.facts.hasTuples
  match kb.context.evaluate rounds rules kb.facts with
  | some (.ok (db, _)) =>
    (some (kb.context.answer program.query db), { kb with isOptimised := true })
  | some (.error e) => (some (.error e), kb)
  | none => (none, kb)

/-- Answers a query. -/
def execute (kb : KnowledgeBase) (rounds : Nat) (q : Query) : Outcome Answer × KnowledgeBase :=
  if kb.context.settings.magicSets then
    match MagicProgram.ofQuery kb.rules q with
    -- Errors of its evaluation are the outcome; the query is not tried again without it.
    | .ok program => kb.executeMagic rounds program
    | .error _ => kb.executeDirectly rounds q
  else kb.executeDirectly rounds q

/-- Answers queries one after the other, up to the first that fails. -/
def executeAll (kb : KnowledgeBase) (rounds : Nat) : List Query → Outcome (List Answer)
  | [] => some (.ok [])
  | q :: qs =>
    match kb.execute rounds q with
    | (some (.ok answer), kb) =>
      (executeAll kb rounds qs).map fun answers => answers.map (answer :: ·)
    | (some (.error e), _) => some (.error e)
    | (none, _) => none

end KnowledgeBase

/-- Facts and rules with the queries to be answered. -/
structure Program where
  /-- The facts. -/
  facts : Database
  /-- The rules. -/
  rules : List Rule
  /-- The queries. -/
  queries : List Query

namespace Program

/-- Adds a ground atom to the facts, and tells whether it is new. -/
def addFact (program : Program) (fact : Atom) : Except FactError Bool × Program :=
  let (result, facts) := program.facts.insertAtom fact
  (result, { program with facts })

/-- Answers the queries of a program, up to the first that fails. -/
def evaluate (program : Program) (context : Context) (rounds : Nat) : Outcome (List Answer) :=
  match KnowledgeBase.create context program.facts program.rules with
  | .error e => some (.error e)
  | .ok kb => kb.executeAll rounds program.queries

end Program

end Deduction
