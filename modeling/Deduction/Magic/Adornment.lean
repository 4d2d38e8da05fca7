import Deduction.Magic.Passing

/-!
# Adorned programs

A query asks for predicates under call patterns, and so do the rules that answer a call. The adorned
program has, for every pattern that is asked for, a copy of each rule for its predicate: the head is
adorned with the pattern, and every positive literal over a predicate that has rules is adorned with
the pattern under which it is called. Negated literals, builtins and literals over predicates
without rules stay as they are.

The query counts as the body of a rule that is called with nothing bound.
-/

namespace Deduction

/-- The pattern under which a literal is called when the variables in `known` have values. Only
positive literals over the plain predicates in `derived` are calls.

The pattern has a binding for each term of the literal. A literal with more or fewer terms than its
predicate has arguments holds of no stored tuple, and its pattern belongs to the predicate of the
same name that does have so many arguments: it is not meant to be called. -/
def Literal.call? (derived : List Predicate) (known : List String) : Literal → Option CallPattern
  | .positive ⟨.plain name arity, terms⟩ =>
    if .plain name arity ∈ derived then some (.ofTerms name terms known) else none
  | _ => none

/-- The pattern of a call belongs to the predicate that is called, if the literal has a term for
each argument. -/
theorem Literal.plain_of_call? {a : Atom} {derived : List Predicate} {known : List String}
    {p : CallPattern} (h : (Literal.positive a).call? derived known = some p)
    (hlength : a.terms.length = a.predicate.arity) : p.plain = a.predicate := by
  unfold call? at h
  split at h
  · next name arity terms heq =>
    split at h
    · obtain rfl := Literal.positive.inj heq
      obtain rfl := Option.some.inj h
      rw [CallPattern.plain, CallPattern.arity_ofTerms, hlength]
      rfl
    · cases h
  · cases h

/-- The literal with its predicate adorned, if it is a call. -/
def Literal.adorn (derived : List Predicate) (known : List String) (l : Literal) : Literal :=
  match l.call? derived known with
  | some p => .positive ⟨.adorned p, l.terms⟩
  | none => l

namespace PassingGraph

/-- The literals of the body with their calls adorned. -/
def adornedBody (g : PassingGraph) (derived : List Predicate) : List Literal :=
  g.order.map fun k => (g.literal k).adorn derived (g.boundAt k)

/-- The patterns that the literals of the body are called with. -/
def calls (g : PassingGraph) (derived : List Predicate) : List CallPattern :=
  g.order.filterMap fun k => (g.literal k).call? derived (g.boundAt k)

end PassingGraph

/-- A rule as it answers the calls of one pattern. -/
structure AdornedRule where
  /-- The rule with adorned literals, in the order of the passing graph. -/
  rule : Rule
  /-- The passing graph of the rule for the bindings of the pattern. -/
  graph : PassingGraph
  /-- The position of the rule in its program. -/
  source : Nat

/-- A program that answers the calls of one query. -/
structure AdornedProgram where
  /-- The patterns that are asked for, in the order in which they are first asked for. -/
  patterns : List CallPattern
  /-- The adorned rules, in the order of the patterns. -/
  rules : List AdornedRule
  /-- The query with adorned literals. -/
  query : Query
  /-- The passing graph of the query. -/
  queryGraph : PassingGraph

/-- The predicates that have rules. -/
def derivedPredicates (rules : List Rule) : List Predicate :=
  (rules.map (·.head.predicate)).eraseDups

/-- The passing graph of a rule that is called with a pattern. -/
def Rule.passingGraph (r : Rule) (p : CallPattern) : PassingGraph :=
  .ofRule r.head r.body (Term.occurrencesAll (p.select r.head.terms))

/-- The copy of a rule that answers the calls of a pattern. -/
def Rule.adorn (derived : List Predicate) (p : CallPattern) (r : Rule) (source : Nat) :
    AdornedRule :=
  let g := r.passingGraph p
  ⟨⟨⟨.adorned p, r.head.terms⟩, g.adornedBody derived⟩, g, source⟩

/-- The passing graph of a query. -/
def Query.passingGraph (q : Query) : PassingGraph :=
  .ofRule Query.head q.body []

/-- The patterns that the literals of a query are called with. -/
def Query.calls (derived : List Predicate) (q : Query) : List CallPattern :=
  let g := q.passingGraph
  q.body.zipIdx.filterMap fun (l, i) => l.call? derived (g.boundAt (g.nodeAt i))

/-- The patterns that are asked for while a program is adorned. -/
structure Worklist where
  /-- The patterns whose rules are still to be adorned, in the order of asking. -/
  pending : List CallPattern
  /-- All patterns that have been asked for. -/
  seen : List CallPattern

namespace Worklist

/-- Asks for a pattern, unless that has been done before. -/
def request (w : Worklist) (p : CallPattern) : Worklist :=
  if p ∈ w.seen then w else ⟨w.pending ++ [p], w.seen ++ [p]⟩

/-- Asks for some patterns in their order. -/
def requestAll (w : Worklist) (ps : List CallPattern) : Worklist :=
  ps.foldl request w

end Worklist

namespace AdornedProgram

/-- The copies of the rules for a predicate that answer the calls of a pattern. -/
def rulesFor (rules : List Rule) (p : CallPattern) : List AdornedRule :=
  rules.zipIdx.filterMap fun (r, i) =>
    if r.head.predicate = p.plain then some (r.adorn (derivedPredicates rules) p i) else none

/-- The patterns that answering the calls of a pattern asks for. -/
def callsFor (rules : List Rule) (p : CallPattern) : List CallPattern :=
  (rulesFor rules p).flatMap fun r => r.graph.calls (derivedPredicates rules)

/-- The number of patterns that the literals of a body can be called with. -/
def patternCount (body : List Literal) : Nat :=
  body.foldr (fun l n => Nat.pow 2 l.terms.length + n) 0

/-- How far a program has been adorned. -/
structure Progress where
  /-- The patterns that have been asked for. -/
  worklist : Worklist
  /-- The patterns whose rules have been adorned. -/
  patterns : List CallPattern
  /-- The adorned rules. -/
  rules : List AdornedRule

namespace Progress

/-- At first there is what the query asks for. -/
def start (rules : List Rule) (q : Query) : Progress :=
  ⟨.requestAll ⟨[], []⟩ (q.calls (derivedPredicates rules)), [], []⟩

/-- Adorns the rules for the next pattern. -/
def step (rules : List Rule) (s : Progress) : Progress :=
  match s.worklist.pending with
  | [] => s
  | p :: pending =>
    { worklist := .requestAll ⟨pending, s.worklist.seen⟩ (callsFor rules p)
      patterns := s.patterns ++ [p]
      rules := s.rules ++ rulesFor rules p }

/-- Takes steps until no pattern is waiting. -/
def run (rules : List Rule) : (fuel : Nat) → Progress → Progress
  | 0, s => s
  | fuel + 1, s => if s.worklist.pending.isEmpty then s else run rules fuel (s.step rules)

/-- In the end the rules for all patterns are adorned. The number of patterns that can be asked for
bounds the number of steps. -/
def last (rules : List Rule) (q : Query) : Progress :=
  (start rules q).run rules (patternCount (q.body ++ rules.flatMap (·.body)))

end Progress

/-- Adorns the rules that a query asks for. -/
def ofQuery (rules : List Rule) (q : Query) : AdornedProgram :=
  let derived := derivedPredicates rules
  let g := q.passingGraph
  { patterns := (Progress.last rules q).patterns
    rules := (Progress.last rules q).rules
    query := ⟨q.body.zipIdx.map fun (l, i) => l.adorn derived (g.boundAt (g.nodeAt i))⟩
    queryGraph := g }

end AdornedProgram

end Deduction
