import Deduction.Clause
import Deduction.Table

/-!
# How bindings pass through a body

When a rule is called with some variables of its head bound, its literals pass bindings on to each
other. The head passes the variables that are bound on entry, a positive literal the named variables
that occur in it; negated literals and builtins only receive. A literal receives a variable from
everything before it that passes the variable.

The nodes of a passing graph are numbered: the head is node `0`, and the distinct literals of the
body, in the order in which they are called, are the nodes from `1` on, so that positions of the
body with equal literals share a node. As bindings only go from a node to nodes with larger numbers,
the graph has no cycles.
-/

namespace Deduction

/-! ## The order of calls -/

/-- The variables of a literal that need a value have one. -/
def Literal.isServedBy (l : Literal) (known : List String) : Bool :=
  l.namedVars.all (· ∈ known)

/-- The order in which literals are called if the variables in `known` have values and the literals
in `waiting` are still to be placed. -/
def orderFrom (known : List String) (waiting : List (Literal × Nat)) :
    List (Literal × Nat) → List (Literal × Nat)
  | [] => waiting
  | (l, i) :: body =>
    if l.isPositive then
      -- What it binds may serve literals that are waiting.
      let known := known ++ l.namedVars
      let (ready, waiting) := waiting.partition (·.1.isServedBy known)
      (l, i) :: ready ++ orderFrom known waiting body
    else if l.isServedBy known then (l, i) :: orderFrom known waiting body
    else orderFrom known (waiting ++ [(l, i)]) body

/-- The literals of a body with their positions in it, in the order in which they are called.
Positive literals keep their order. Other literals come when their named variables have values, and
if that never happens, at the end. -/
def orderLiterals (known : List String) (body : List Literal) : List (Literal × Nat) :=
  orderFrom known [] body.zipIdx

/-! ## The graph -/

/-- Bindings that one node passes to another. -/
structure PassingEdge where
  /-- The node that passes the bindings. -/
  source : Nat
  /-- The node that receives them. -/
  target : Nat
  /-- The variables whose bindings are passed. -/
  vars : List String
deriving DecidableEq

/-- The passing of bindings in a rule. -/
structure PassingGraph where
  /-- The head of the rule, which is node `0`. -/
  head : Atom
  /-- The variables that are bound on entry. -/
  known : List String
  /-- The distinct literals of the body in the order in which they are called. -/
  literals : List Literal
  /-- The node of each literal of the body. -/
  places : List Nat

namespace PassingGraph

/-- How far the literals of a body have been given nodes. -/
structure Placement where
  /-- The literals of the nodes from `1` on. -/
  literals : List Literal
  /-- The node of each literal of the body, or the head if it has none yet. -/
  places : List Nat

/-- Gives the literal at a position of the body its node, which is a new one if no node has the
literal. -/
def Placement.place (s : Placement) (l : Literal) (position : Nat) : Placement :=
  let literals := if l ∈ s.literals then s.literals else s.literals ++ [l]
  ⟨literals, s.places.set position (literals.idxOf l + 1)⟩

/-- The passing graph of a rule that is called with some variables bound. -/
def ofRule (head : Atom) (body : List Literal) (known : List String) : PassingGraph :=
  let start : Placement := ⟨[], List.replicate body.length 0⟩
  let placed := (orderLiterals known body).foldl (fun s (l, position) => s.place l position) start
  ⟨head, known, placed.literals, placed.places⟩

/-- The numbers of the literals. -/
def order (g : PassingGraph) : List Nat :=
  List.range' 1 g.literals.length

/-- The literal of a node; the head counts as a positive literal. -/
def literal (g : PassingGraph) : Nat → Literal
  | 0 => .positive g.head
  | k + 1 => g.literals.getD k (.positive g.head)

/-- The node of a literal of the body. -/
def node? (g : PassingGraph) (l : Literal) : Option Nat :=
  (g.literals.idxOf? l).map (· + 1)

/-- The node of a literal of the body, or the head if there is none. -/
def node (g : PassingGraph) (l : Literal) : Nat :=
  (g.node? l).getD 0

/-- The node of the literal at a position of the body. -/
def nodeAt (g : PassingGraph) (position : Nat) : Nat :=
  g.places.getD position 0

/-- The node passes bindings of the variable to later nodes. -/
def passes (g : PassingGraph) (k : Nat) (x : String) : Bool :=
  if k = 0 then x ∈ g.known
  else (g.literal k).isPositive && x ∈ (g.literal k).namedVars

/-- The nodes that a node receives bindings from, in the order of the variables of its literal. -/
def sources (g : PassingGraph) (k : Nat) : List Nat :=
  ((g.literal k).namedVars.flatMap fun x =>
    (List.range k).filter (g.passes · x)).eraseDups

/-- The edge from one node to another. -/
def edge (g : PassingGraph) (source target : Nat) : PassingEdge :=
  ⟨source, target, (g.literal target).namedVars.filter (g.passes source)⟩

/-- The edges that enter a node. -/
def entering (g : PassingGraph) (k : Nat) : List PassingEdge :=
  (g.sources k).map (g.edge · k)

/-- The place of a node in the order of calls, with the head first. -/
def rank (g : PassingGraph) (k : Nat) : Nat :=
  (0 :: g.order).idxOf k

/-- The edges that enter a node in the order of their sources. -/
def enteringBySource (g : PassingGraph) (k : Nat) : List PassingEdge :=
  (g.entering k).mergeSort fun e f => g.rank e.source ≤ g.rank f.source

/-- The edges with a further variable that one node passes to another, which get an edge if they had
none. -/
def addPassed (source target : Nat) (x : String) : List PassingEdge → List PassingEdge
  | [] => [⟨source, target, [x]⟩]
  | e :: edges =>
    if e.source = source ∧ e.target = target then
      { e with vars := if x ∈ e.vars then e.vars else e.vars ++ [x] } :: edges
    else e :: addPassed source target x edges

/-- How far the nodes of a graph have been connected. -/
structure Wiring where
  /-- The edges, in the order in which they were found. -/
  edges : List PassingEdge
  /-- The nodes that pass a variable on, in the order of calls. -/
  passers : Table String (List Nat)

/-- Connects a node with the nodes that pass a variable of its literal. If the literal is positive,
the node passes the variable on from then on. -/
def connect (g : PassingGraph) (k : Nat) (w : Wiring) (x : String) : Wiring :=
  let passing := (w.passers.get? x).getD []
  { edges := (passing.filter (· ≠ k)).foldl (fun edges j => addPassed j k x edges) w.edges
    passers :=
      if (g.literal k).isPositive ∧ k ∉ passing then w.passers.insert x (passing ++ [k])
      else w.passers }

/-- All edges, found by going through the nodes in the order of calls. At first it is the head that
passes variables on. -/
def edges (g : PassingGraph) : List PassingEdge :=
  let start : Wiring := ⟨[], .ofList (g.known.map fun x => (x, [0]))⟩
  (g.order.foldl (fun w k => (g.literal k).namedVars.foldl (g.connect k) w) start).edges

/-- The variables that are bound when a node is called. -/
def boundAt (g : PassingGraph) (k : Nat) : List String :=
  (g.literal k).namedVars.filter fun x => (List.range k).any (g.passes · x)

/-- Adds the sources of those nodes below `k` that have been found, from the last node on. -/
def addSources (g : PassingGraph) : (k : Nat) → List Nat → List Nat
  | 0, found => found
  | k + 1, found =>
    g.addSources k (if k ∈ found then found ++ (g.sources k).filter (· ∉ found) else found)

/-- The nodes that a node receives bindings from, directly or through other nodes. -/
def depends (g : PassingGraph) (k : Nat) : List Nat :=
  g.addSources k (g.sources k)

/-- Those members of a list, one for each literal of the body, whose nodes belong to a set. -/
def select {α : Type} (items : List α) (nodes : List Nat) : List α :=
  ((items.zipIdx 1).filter (·.2 ∈ nodes)).map (·.1)

end PassingGraph

end Deduction
