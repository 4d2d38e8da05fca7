import Deduction.Matching

/-!
# Answers to queries

The answer to a query is a relation with a column for each of its variables. A query without
variables has the empty tuple as its answer if it holds, and no answer otherwise.
-/

namespace Deduction

/-- The answer to a query. -/
structure Answer where
  /-- The variables that the query asks for. -/
  vars : List String
  /-- The values of the variables, one tuple for each way in which the query holds. -/
  relation : Relation

namespace Answer

/-- The query holds in some way. -/
def holds (a : Answer) : Bool :=
  !a.relation.isEmpty

/-- The values of the variables in ascending order, each with its variable. -/
def bindings (a : Answer) : List (List (String × Term)) :=
  a.relation.sorted.map a.vars.zip

/-- The answer that a list of solutions gives: the distinct values of the variables, in the order in
which they are found. -/
def ofSolutions (names : List String) (found : List Substitution) : Answer where
  vars := names
  relation :=
    { arity := names.length
      tuples := (found.map fun s => names.map fun x => s.apply (.var x)).eraseDups
      nodup := Distinct.nodup_eraseDups _
      length_eq := by
        intro t ht
        obtain ⟨s, _, rfl⟩ := List.mem_map.1 (List.mem_eraseDups.1 ht)
        simp }

end Answer

/-- Answers a query from a database. The query has to be safe. -/
def Context.answer (ctx : Context) (q : Query) (db : Database) : Except EvaluationError Answer := do
  (q.toRule.checkSafety ctx.registry ctx.settings.safety).mapError .safety
  let found ← Matching.satisfy ctx db (schedule ctx.registry ctx.settings.safety q.body)
  return .ofSolutions q.vars found

end Deduction
