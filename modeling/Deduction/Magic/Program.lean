import Deduction.FiniteGraph
import Deduction.Magic.Adornment

/-!
# Magic sets

Applied bottom-up, the rules of a program derive all facts, although a query may ask for a few. The
magic program of a query derives only the facts that answer it: a magic predicate holds the bound
arguments of the calls that are made, each rule is guarded by the magic predicate of its head, and
further rules derive which calls are made.

If a literal receives bindings from several nodes, there is a labeled predicate for each of these
nodes, and the call is made when all of them agree. Predicates that are used without a pattern, such
as the negated ones, keep their own rules.
-/

namespace Deduction

/-- A query has no magic program. -/
inductive MagicError where
  /-- No positive literal of the query has a ground argument. -/
  | noSeed (query : Query)
deriving DecidableEq

/-- The text of the error. -/
def MagicError.message : MagicError → String
  | noSeed query => "query '" ++ query.text ++ "' has no bound argument to seed magic sets"

/-- The rules that derive the answers to one query. -/
structure MagicProgram where
  /-- The rules. -/
  rules : List Rule
  /-- The query in terms of the predicates of the rules. -/
  query : Query

/-- The atom that holds the bound arguments of a call; there is none if nothing is bound. -/
def Atom.magic? (a : Atom) : Option Atom :=
  match a.predicate with
  | .adorned p => if p.isAllFree then none else some ⟨.magic p, p.select a.terms⟩
  | _ => none

/-- The condition that a call has been made, if its arguments restrict anything. -/
def Atom.guard (a : Atom) : List Literal :=
  a.magic?.toList.map .positive

/-- The call that a literal makes: the atom that holds its bound arguments, with the pattern and the
arguments of the call. -/
def Literal.magicCall? : Literal → Option (Atom × CallPattern × List Term)
  | .positive a =>
    match a.predicate.pattern?, a.magic? with
    | some p, some target => some (target, p, a.terms)
    | _, _ => none
  | _ => none

namespace AdornedRule

/-- What has to hold before a node passes its bindings on: its own literal, those that it depends
on, and the guard of the head, if the bindings come from there. -/
def bodyBefore (r : AdornedRule) (node : Nat) : List Literal :=
  let nodes := node :: r.graph.depends node
  (if 0 ∈ nodes then r.rule.head.guard else []) ++ PassingGraph.select r.rule.body nodes

/-- The part of a call's bound arguments that one edge provides. -/
def labelAtom (p : CallPattern) (terms : List Term) (e : PassingEdge) (label : Nat) : Atom :=
  let part := CallPattern.ofTerms p.name terms e.vars
  ⟨.labeled part label, part.select terms⟩

/-- The rules that derive the calls of the literal at a node, where `labels` is the last label in
use, with the last label in use afterwards. -/
def callRules (r : AdornedRule) (labels : Nat) (node : Nat) (l : Literal) : List Rule × Nat :=
  match l.magicCall? with
  | none => ([], labels)
  | some (target, p, terms) =>
    match r.graph.enteringBySource node with
    -- Nothing is passed: the bound arguments are ground, and the call is made whenever the rule is.
    | [] => ([⟨target, r.rule.head.guard⟩], labels)
    -- One node passes all the bindings.
    | [e] => ([⟨target, r.bodyBefore e.source⟩], labels)
    -- Every node fills a labeled predicate with its part, and the call joins the parts.
    | edges =>
      let parts := (edges.zipIdx (labels + 1)).map fun (e, label) =>
        (labelAtom p terms e label, r.bodyBefore e.source)
      (parts.map (fun part => ⟨part.1, part.2⟩) ++
        [⟨target, parts.map fun part => .positive part.1⟩], labels + edges.length)

/-- The rules that derive the calls of all literals of a body, and the last label in use. -/
def magicRules (r : AdornedRule) (labels : Nat) : List Rule × Nat :=
  (r.rule.body.zipIdx 1).foldl (fun (rules, labels) (l, node) =>
    let (more, labels) := r.callRules labels node l
    (rules ++ more, labels)) ([], labels)

/-- The rule itself, guarded by the calls of its head. -/
def guarded (r : AdornedRule) : Rule :=
  ⟨r.rule.head, r.rule.head.guard ++ r.rule.body⟩

end AdornedRule

namespace AdornedProgram

/-- The rules that derive the calls of the query. -/
def seedRules (program : AdornedProgram) (derived : List Predicate) : List Rule :=
  let body := program.queryGraph.adornedBody derived
  (body.zipIdx 1).filterMap fun (l, node) =>
    l.magicCall?.map fun call =>
      ⟨call.1, PassingGraph.select body (program.queryGraph.depends node)⟩

/-- The rules that answer calls, each after the rules that derive the calls which it makes. -/
def guardedRules (program : AdornedProgram) : List Rule :=
  (program.rules.foldl (fun (rules, labels) (r : AdornedRule) =>
    let (magic, labels) := r.magicRules labels
    (rules ++ magic ++ [r.guarded], labels)) ([], 0)).1

end AdornedProgram

/-- The plain predicates with rules that the literals of a body use without a pattern. -/
def plainUses (derived : List Predicate) (body : List Literal) : List Predicate :=
  body.filterMap fun l =>
    match l.atom? with
    | some a =>
      if a.predicate.isPlain && a.predicate ∈ derived then some a.predicate else none
    | none => none

/-- The rules of a program that the literals of a body use without a pattern, directly or through
other rules. -/
def usedRules (rules : List Rule) (body : List Literal) : List Rule :=
  let derived := derivedPredicates rules
  let g : FiniteGraph Predicate :=
    ⟨derived, fun p =>
      (rules.filter (·.head.predicate = p)).flatMap fun r => plainUses derived r.body⟩
  let used := (plainUses derived body).eraseDups.flatMap g.reachable
  rules.filter (·.head.predicate ∈ used)

/-- The magic program that rules have for a query. The query needs a positive literal with a ground
argument. -/
def MagicProgram.ofQuery (rules : List Rule) (q : Query) : Except MagicError MagicProgram :=
  let isSeed (l : Literal) : Bool := l.isPositive && l.terms.any Term.isGround
  if q.body.any isSeed then
    let program := AdornedProgram.ofQuery rules q
    let magic := program.seedRules (derivedPredicates rules) ++ program.guardedRules
    let kept := usedRules rules (program.query.body ++ magic.flatMap (·.body))
    .ok ⟨(magic ++ kept).eraseDups, program.query⟩
  else .error (.noSeed q)

/-- The rule that carries the stored facts of a plain predicate over to a pattern of it. -/
def CallPattern.bridge (p : CallPattern) : Rule :=
  let terms := (List.range' 1 p.arity).map fun i => Term.var ("X" ++ toString i)
  let head : Atom := ⟨.adorned p, terms⟩
  ⟨head, head.guard ++ [.positive ⟨p.plain, terms⟩]⟩

/-- The rules that carry stored facts over to the adorned predicates which rules are for, where
`hasFacts` tells which plain predicates have stored facts. -/
def bridgeRules (rules : List Rule) (hasFacts : Predicate → Bool) : List Rule :=
  (rules.filterMap fun r =>
    match r.head.predicate.pattern? with
    | some p => if hasFacts p.plain then some p.bridge else none
    | none => none).eraseDups

end Deduction
