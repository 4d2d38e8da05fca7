import Deduction.Clause
import Deduction.LowLink
import Deduction.Predecessors

/-!
# Stratification

A rule makes the predicate of its head depend on the predicates of its body. A program can be
evaluated layer by layer if no predicate depends on its own negation: then every predicate gets a
stratum, such that the rules of a stratum use predicates of the same or lower strata, and negate
predicates of lower strata only.

The strata are the smallest possible. Predicates that depend on each other share a stratum. Their
components come out of the dependency graph such that each of them follows those on which it
depends, so that one pass over the components is enough: the stratum of a component is the highest
one that its dependencies on earlier components ask for.
-/

namespace Deduction

/-- What a predicate depends on. -/
structure Dependency where
  /-- The predicate that is used. -/
  target : Predicate
  /-- The predicate is negated. -/
  isNegative : Bool
deriving DecidableEq

/-- The program cannot be stratified. -/
inductive StratificationError where
  /-- Each predicate of the cycle depends on the next one and the last one on the first; the first
  predicate negates the second. -/
  | negativeCycle (cycle : List Predicate)
deriving DecidableEq

/-- The text of the error. -/
def StratificationError.message : StratificationError → String
  | negativeCycle cycle =>
    "program is not stratifiable: cycle through negation " ++
      Text.join " -> " ((cycle ++ cycle.take 1).map Predicate.text)

/-- The dependency that a literal in the body of a rule causes. Builtins cause none. -/
def Literal.dependency? : Literal → Option Dependency
  | .positive a => some ⟨a.predicate, false⟩
  | .negative a => some ⟨a.predicate, true⟩
  | .builtin _ => none

/-- The dependencies of each predicate of a program. -/
structure DependencyGraph where
  /-- The predicates in the order of their first occurrences, each with its dependencies in the
  order of theirs. -/
  entries : List (Predicate × List Dependency)

namespace DependencyGraph

/-- The predicates of the rules in the order of their first occurrences. -/
def predicatesOf (rules : List Rule) : List Predicate :=
  (rules.flatMap fun r =>
    r.head.predicate :: (r.body.filterMap Literal.dependency?).map (·.target)).eraseDups

/-- What the rules for a predicate use. -/
def dependenciesOf (rules : List Rule) (p : Predicate) : List Dependency :=
  ((rules.filter (·.head.predicate = p)).flatMap fun r =>
    r.body.filterMap Literal.dependency?).eraseDups

/-- The dependency graph of a program. -/
def ofRules (rules : List Rule) : DependencyGraph :=
  ⟨(predicatesOf rules).map fun p => (p, dependenciesOf rules p)⟩

/-- The predicates of the graph. -/
def predicates (g : DependencyGraph) : List Predicate :=
  g.entries.map (·.1)

/-- The dependencies of a predicate. -/
def dependencies (g : DependencyGraph) (p : Predicate) : List Dependency :=
  (g.entries.lookup p).getD []

/-- The graph without the signs of its dependencies. -/
def graph (g : DependencyGraph) : FiniteGraph Predicate :=
  ⟨g.predicates, fun p => (g.dependencies p).map (·.target)⟩

/-! ## Cycles through negation -/

/-- The cycle that a negative dependency on `q` closes within a component of `p`: a shortest way
back from `q` to `p`, written from `p` on. -/
def cycleThrough (g : DependencyGraph) (component : List Predicate) (p q : Predicate) :
    List Predicate :=
  p :: ((g.graph.tracedPath? component q p).getD component).filter (· ≠ p)

/-- The cycle through the first negative dependency of a component on itself. -/
def negativeCycleIn? (g : DependencyGraph) (component : List Predicate) :
    Option (List Predicate) :=
  component.findSome? fun p =>
    ((g.dependencies p).find? fun d => d.isNegative && d.target ∈ component).map fun d =>
      g.cycleThrough component p d.target

/-- The predicates that depend on each other, each component after those on which it depends. -/
def components (g : DependencyGraph) : List (List Predicate) :=
  g.graph.lowLinkComponents

/-- A cycle through negation, if there is one. -/
def negativeCycle? (g : DependencyGraph) : Option (List Predicate) :=
  g.components.findSome? g.negativeCycleIn?

/-! ## Strata -/

/-- The stratum of the component to which a predicate belongs, out of components with strata. -/
def stratumIn (placed : List (List Predicate × Nat)) (p : Predicate) : Nat :=
  ((placed.find? fun c => p ∈ c.1).map (·.2)).getD 0

/-- The stratum that a component needs for its dependencies on components with strata. -/
def required (g : DependencyGraph) (placed : List (List Predicate × Nat))
    (component : List Predicate) : Nat :=
  ((component.flatMap g.dependencies).filter (·.target ∉ component)).foldl
    (fun k d => max k (stratumIn placed d.target + if d.isNegative then 1 else 0)) 0

/-- Gives a component its stratum, after the components on which it depends. -/
def place (g : DependencyGraph) (placed : List (List Predicate × Nat))
    (component : List Predicate) : List (List Predicate × Nat) :=
  placed ++ [(component, g.required placed component)]

/-- The components with their strata. -/
def componentStrata (g : DependencyGraph) : List (List Predicate × Nat) :=
  g.components.foldl g.place []

/-- The strata of all predicates. -/
def strata (g : DependencyGraph) : List (Predicate × Nat) :=
  let placed := g.componentStrata
  g.predicates.map fun p => (p, stratumIn placed p)

end DependencyGraph

/-- The strata of a program. -/
structure Stratification where
  /-- The stratum of each predicate of the program, from zero on. -/
  strata : List (Predicate × Nat)
  /-- The rules by the strata of their heads, each layer in the order of the program. -/
  layers : List (List Rule)

namespace Stratification

/-- The stratum of a predicate, if it belongs to the program. -/
def stratum? (s : Stratification) (p : Predicate) : Option Nat :=
  s.strata.lookup p

/-- The number of strata. -/
def count (s : Stratification) : Nat :=
  s.layers.length

end Stratification

/-- Assigns strata to the predicates of a program and splits its rules into layers. -/
def stratify (rules : List Rule) : Except StratificationError Stratification :=
  let g := DependencyGraph.ofRules rules
  match g.negativeCycle? with
  | some cycle => .error (.negativeCycle cycle)
  | none =>
    let strata := g.strata
    -- One more than the highest stratum, and none without predicates.
    let count := (strata.map (·.2 + 1)).foldl max 0
    .ok {
      strata
      layers := (List.range count).map fun k =>
        rules.filter fun r => (strata.lookup r.head.predicate).getD 0 = k }

end Deduction
