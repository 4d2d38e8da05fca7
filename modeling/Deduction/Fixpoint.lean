import Deduction.Matching

/-!
# Fixpoints

The rules of a program are applied layer by layer. Within a layer they are applied in rounds: a
round derives facts from the database as it was when the round began, and the new ones are merged at
its end. The layer is finished when a round derives nothing new.

The first round looks at all derivations. Later rounds do so, too, if fixpoints are computed
naively; otherwise they look only at derivations that use a fact of the round before.

With function symbols or arithmetic a program may go on deriving new facts for ever. All functions
here are therefore given the number of rounds that a layer may take, and the outcome is `none` if
they are not enough.
-/

namespace Deduction

/-- What an evaluation has done. -/
structure Statistics where
  /-- The number of layers. -/
  strata : Nat := 0
  /-- The number of rounds in all layers. -/
  iterations : Nat := 0
  /-- The number of times that a rule was applied. -/
  ruleApplications : Nat := 0
  /-- The number of facts that were derived and not known before. -/
  factsDerived : Nat := 0
deriving DecidableEq

/-- The outcome of a computation that takes rounds: its result or an error, or nothing while it has
not come to an end. -/
abbrev Outcome (α : Type) := Option (Except EvaluationError α)

/-- The state of an evaluation between two rounds. -/
structure Progress where
  /-- The facts that are known. -/
  database : Database
  /-- The facts that the last round of the layer has added; there are none before its first
  round. -/
  delta : Option Database
  /-- What has been done. -/
  statistics : Statistics

namespace Context

/-- Adds the facts that the database does not have to the new ones. -/
def collect (db new : Database) (facts : List Atom) : Except EvaluationError Database :=
  facts.foldlM (fun new fact =>
    if db.contains fact.predicate fact.terms then .ok new
    else
      match new.insertAtom fact with
      | (.ok _, new) => .ok new
      | (.error e, _) => .error (.ofFactError e)) new

/-- The facts that a rule derives in a round. -/
def deriveInRound (ctx : Context) (p : Progress) (r : ScheduledRule) :
    Except EvaluationError (List Atom) :=
  match p.delta, ctx.settings.strategy with
  | some delta, .semiNaive => r.deriveDelta ctx p.database delta
  | _, _ => r.derive ctx p.database

/-- The facts that a round adds. -/
def newFacts (ctx : Context) (rules : List ScheduledRule) (p : Progress) :
    Except EvaluationError Database :=
  rules.foldlM (fun new r => do collect p.database new (← ctx.deriveInRound p r)) Database.empty

/-- The limit that an evaluation exceeds after deriving a number of facts. Evaluation has no clock
and counts as taking no time, so a limit of no time at all is the only one that can run out. -/
def exceededLimit? (ctx : Context) (factsDerived : Nat) : Option EvaluationError :=
  match ctx.settings.maxTuples, ctx.settings.timeoutMs with
  | some limit, timeout =>
    if limit < factsDerived then some (.tupleLimit limit)
    else if timeout = some 0 then some (.timeout 0)
    else none
  | none, timeout => if timeout = some 0 then some (.timeout 0) else none

/-- Applies the rules of a layer until a round derives nothing new. -/
def saturate (ctx : Context) (rules : List ScheduledRule) : (rounds : Nat) → Progress →
    Outcome Progress
  | 0, _ => none
  | rounds + 1, p =>
    match ctx.newFacts rules p with
    | .error e => some (.error e)
    | .ok new =>
      let statistics :=
        { p.statistics with
          iterations := p.statistics.iterations + 1
          ruleApplications := p.statistics.ruleApplications + rules.length
          factsDerived := p.statistics.factsDerived + new.size }
      -- A round without new facts ends the layer, whatever the limits are.
      if new.isEmpty then some (.ok { p with statistics })
      else
        match ctx.exceededLimit? statistics.factsDerived with
        | some e => some (.error e)
        | none =>
          saturate ctx rules rounds
            { database := (p.database.merge new).2, delta := some new, statistics }

/-- Applies the rules of one layer after the other. -/
def saturateAll (ctx : Context) (rounds : Nat) : List (List Rule) → Database → Statistics →
    Outcome (Database × Statistics)
  | [], db, statistics => some (.ok (db, statistics))
  | layer :: layers, db, statistics =>
    match ctx.saturate (layer.map ctx.scheduleRule) rounds ⟨db, none, statistics⟩ with
    | none => none
    | some (.error e) => some (.error e)
    | some (.ok p) =>
      saturateAll ctx rounds layers p.database
        { p.statistics with strata := p.statistics.strata + 1 }

/-- The database of all facts that follow from the given ones by the rules, which have to be safe
and to have strata. -/
def evaluate (ctx : Context) (rounds : Nat) (rules : List Rule) (facts : Database) :
    Outcome (Database × Statistics) :=
  match checkSafety rules ctx.registry ctx.settings.safety with
  | .error e => some (.error (.safety e))
  | .ok () =>
    match stratify rules with
    | .error e => some (.error (.stratification e))
    | .ok s => ctx.saturateAll rounds s.layers facts {}

end Context

end Deduction
