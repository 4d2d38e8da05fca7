import Deduction.Distinct

/-!
# Finite directed graphs

A graph has a list of nodes and a list of successors for each of them. A depth-first search with an
explicit stack of unfinished nodes yields the nodes in the order in which it finishes with them, and
from one node on it finds what can be reached from there (`FiniteGraph.reachable`).

Two nodes belong to one component if each can be reached from the other. `FiniteGraph.components`
lists the components by asking for each pair of nodes, in the order in which the search finishes
with them, so that a component comes after all components that can be reached from it.
`FiniteGraph.shortestPath?` looks for a path with a queue of paths.

These two say in the plainest way what is looked for. What is run instead is a single search by low
links (`FiniteGraph.lowLinkComponents`) and a search that notes predecessors
(`FiniteGraph.tracedPath?`), which have the same results.
-/

namespace Deduction

/-- A directed graph with finitely many nodes. Successors that are not nodes are not visited. -/
structure FiniteGraph (α : Type) where
  /-- The nodes. -/
  nodes : List α
  /-- The targets of the edges that leave a node. -/
  successors : α → List α

namespace FiniteGraph

variable {α : Type} [DecidableEq α]

/-! ## Depth-first search -/

/-- What has been found by a depth-first search. -/
structure Visit (α : Type) where
  /-- The nodes that were not visited. -/
  unseen : List α
  /-- The nodes that were visited and left for good, the last one first. -/
  finished : List α

/-- The number of steps that a search needs for nodes which it has not visited. -/
def unseenWork (g : FiniteGraph α) : (unseen : List α) → Nat
  | [] => 0
  | v :: unseen => (g.successors v).length + 1 + unseenWork g unseen

/-- The number of steps that a search needs for the nodes on its stack. -/
def stackWork : (stack : List (α × List α)) → Nat
  | [] => 0
  | frame :: stack => frame.2.length + 1 + stackWork stack

/-- Visiting a node moves its work from the unseen nodes to the stack. -/
theorem unseenWork_filter_le (g : FiniteGraph α) {unseen : List α} {w : α} (h : w ∈ unseen) :
    g.unseenWork (unseen.filter (· ≠ w)) + ((g.successors w).length + 1) ≤
      g.unseenWork unseen := by
  induction unseen with
  | nil => simp at h
  | cons v vs ih =>
    have le : ∀ us : List α, g.unseenWork (us.filter (· ≠ w)) ≤ g.unseenWork us := by
      intro us
      induction us with
      | nil => simp [unseenWork]
      | cons u us ih =>
        by_cases hu : u = w
        · simp_all [unseenWork]; omega
        · simp_all [unseenWork]
    by_cases hv : v = w
    · subst hv
      have := le vs
      simp only [unseenWork, ne_eq, not_true_eq_false, decide_false, Bool.false_eq_true,
        not_false_eq_true, List.filter_cons_of_neg] at this ⊢
      omega
    · have mem : w ∈ vs := by
        rcases List.mem_cons.1 h with h | h
        · exact absurd h.symm hv
        · exact h
      have := ih mem
      simp only [unseenWork, ne_eq, hv, not_false_eq_true, decide_true,
        List.filter_cons_of_pos] at this ⊢
      omega

/-- The nodes of a list other than `v`. -/
def others (nodes : List α) (v : α) : List α :=
  nodes.filter (· ≠ v)

/-- Searches on from the nodes of the stack, each with the successors that are still to be tried. -/
def search (g : FiniteGraph α) (unseen : List α) (stack : List (α × List α))
    (finished : List α) : Visit α :=
  match stack with
  | [] => ⟨unseen, finished⟩
  -- All successors have been tried.
  | (v, []) :: stack => search g unseen stack (v :: finished)
  | (v, w :: ws) :: stack =>
    if w ∈ unseen then
      -- The node waits below its successor until the search returns from there.
      search g (others unseen w) ((w, g.successors w) :: (v, ws) :: stack) finished
    else search g unseen ((v, ws) :: stack) finished
termination_by g.unseenWork unseen + stackWork stack
decreasing_by
  · simp [stackWork]
  · next h =>
    have := g.unseenWork_filter_le h
    simp only [stackWork, others, List.length_cons]
    omega
  · simp only [stackWork, List.length_cons]
    omega

/-- Searches on from one more node, if it is unseen. -/
def visit (g : FiniteGraph α) (found : Visit α) (v : α) : Visit α :=
  if v ∈ found.unseen then
    g.search (others found.unseen v) [(v, g.successors v)] found.finished
  else found

/-- The nodes that can be reached from a node, including itself. -/
def reachable (g : FiniteGraph α) (v : α) : List α :=
  (g.visit ⟨g.nodes, []⟩ v).finished

/-- The nodes in the order in which a search through the whole graph finishes with them. -/
def finishOrder (g : FiniteGraph α) : List α :=
  (g.nodes.foldl g.visit ⟨g.nodes, []⟩).finished.reverse

/-! ## Components -/

/-- Each of two nodes can be reached from the other. -/
def connected (reach : List (α × List α)) (v w : α) : Bool :=
  w ∈ (reach.lookup v).getD [] && v ∈ (reach.lookup w).getD []

/-- The members of a list that have no later member in the same class. -/
def lastOfEach (same : α → α → Bool) : List α → List α
  | [] => []
  | v :: vs => if vs.any (same v) then lastOfEach same vs else v :: lastOfEach same vs

/-- The sets of mutually reachable nodes, in the order in which a search finishes with their last
members. The nodes of a component come in the order of the graph. -/
def components (g : FiniteGraph α) : List (List α) :=
  let reach := g.nodes.map fun v => (v, g.reachable v)
  (lastOfEach (connected reach) g.finishOrder).map fun v => g.nodes.filter (connected reach v)

/-! ## Shortest paths -/

/-- The unseen successors of a node. -/
def unseenSuccessors (g : FiniteGraph α) (unseen : List α) (v : α) : List α :=
  ((g.successors v).filter (· ∈ unseen)).eraseDups

/-- The unseen nodes that are not successors of a node. -/
def unseenOthers (g : FiniteGraph α) (unseen : List α) (v : α) : List α :=
  unseen.filter (· ∉ g.successors v)

/-- The successors of a node are removed from the unseen nodes. -/
theorem length_unseenOthers_add_le (g : FiniteGraph α) (unseen : List α) (v : α) :
    (g.unseenOthers unseen v).length + (g.unseenSuccessors unseen v).length ≤ unseen.length := by
  have subset : g.unseenSuccessors unseen v ⊆ unseen.filter (· ∈ g.successors v) := by
    intro w hw
    simpa [unseenSuccessors, and_comm] using hw
  have nodup : (g.unseenSuccessors unseen v).Nodup := Distinct.nodup_eraseDups _
  have le := nodup.length_le_of_subset subset
  have split : (unseen.filter (· ∈ g.successors v)).length +
      (unseen.filter (· ∉ g.successors v)).length = unseen.length := by
    clear subset nodup le
    induction unseen with
    | nil => rfl
    | cons u us ih => by_cases hu : u ∈ g.successors v <;> simp_all <;> omega
  simp only [unseenOthers]
  omega

/-- Searches breadth-first for a path to `target` along unseen nodes. The queue holds the nodes at
which paths end, each with the nodes before it, the last one first. -/
def searchPath (g : FiniteGraph α) (target : α) (unseen : List α) (queue : List (α × List α)) :
    Option (List α) :=
  match queue with
  | [] => none
  | (v, before) :: queue =>
    if v = target then some (v :: before).reverse
    else
      let next := g.unseenSuccessors unseen v
      searchPath g target (g.unseenOthers unseen v) (queue ++ next.map (·, v :: before))
termination_by unseen.length + queue.length
decreasing_by
  have := g.length_unseenOthers_add_le unseen v
  simp only [List.length_append, List.length_map, List.length_cons]
  omega

/-- A shortest path between two nodes that does not leave the given nodes. -/
def shortestPath? (g : FiniteGraph α) (within : List α) (source target : α) : Option (List α) :=
  g.searchPath target (others within source) [(source, [])]

end FiniteGraph

end Deduction
