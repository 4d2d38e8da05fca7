import Deduction.FiniteGraph
import Deduction.Table

/-!
# Components by low links

The components of a graph come out of one depth-first search. The search numbers the nodes in the
order in which it enters them, and keeps them on a stack until their component is complete. The low
link of a node is the number of a node on the stack that can be reached from it: at first its own
number, later a smaller one if a node on the stack is met, or if the search returns from a node with
a smaller low link. When all successors of a node have been tried and its low link is still its own
number, no way leads to the nodes below it on the stack, and those from it upwards are a component.

`FiniteGraph.components` has the same components in the same order, but searches from each node.

Nothing recurses: the nodes whose successors are still being tried wait on a second stack, as they
do in `FiniteGraph.search`. Every step tries a successor or leaves a node, and no node is entered
twice, so that the search ends.
-/

namespace Deduction

namespace FiniteGraph

/-- What a search for components has found. -/
structure LowLinks (α : Type) where
  /-- The nodes that have not been entered. -/
  unseen : List α
  /-- The number of the next node that is entered. -/
  next : Nat
  /-- The numbers of the nodes that have been entered. -/
  index : Table α Nat
  /-- The low links of the nodes that have been entered. -/
  low : Table α Nat
  /-- The nodes whose component is not complete, the last one that was entered first. -/
  stack : List α
  /-- The components that are complete, the first one first. -/
  components : List (List α)

variable {α : Type} [DecidableEq α]

namespace LowLinks

/-- Nothing has been found before a search. -/
def start (nodes : List α) : LowLinks α :=
  ⟨nodes, 0, .empty, .empty, [], []⟩

/-- The number of a node. -/
def indexOf (s : LowLinks α) (v : α) : Nat :=
  (s.index.get? v).getD 0

/-- The low link of a node. -/
def lowOf (s : LowLinks α) (v : α) : Nat :=
  (s.low.get? v).getD 0

/-- Enters a node, which gets the next number and goes on the stack. -/
def enter (s : LowLinks α) (v : α) : LowLinks α :=
  { s with
    unseen := others s.unseen v
    next := s.next + 1
    index := s.index.insert v s.next
    low := s.low.insert v s.next
    stack := v :: s.stack }

/-- Lowers the low link of a node to a number, unless it is lower already. -/
def lower (s : LowLinks α) (v : α) (n : Nat) : LowLinks α :=
  { s with low := s.low.insert v (min (s.lowOf v) n) }

/-- Passes the low link of a node on to the node from which it was entered. -/
def passUp (s : LowLinks α) (v : α) (work : List (α × List α)) : LowLinks α :=
  match work with
  | (parent, _) :: _ => s.lower parent (s.lowOf v)
  | [] => s

/-- Takes a component off the stack if the node is the one of it that was entered first. The nodes
of a component are listed in the order of the graph. -/
def close (s : LowLinks α) (nodes : List α) (v : α) : LowLinks α :=
  if s.lowOf v = s.indexOf v then
    { s with
      stack := (s.stack.dropWhile (· ≠ v)).tail
      components :=
        s.components ++ [nodes.filter (· ∈ s.stack.takeWhile (· ≠ v) ++ [v])] }
  else s

@[simp]
theorem unseen_enter (s : LowLinks α) (v : α) : (s.enter v).unseen = others s.unseen v := rfl

@[simp]
theorem unseen_lower (s : LowLinks α) (v : α) (n : Nat) : (s.lower v n).unseen = s.unseen := rfl

@[simp]
theorem unseen_passUp (s : LowLinks α) (v : α) (work : List (α × List α)) :
    (s.passUp v work).unseen = s.unseen := by
  cases work <;> rfl

@[simp]
theorem unseen_close (s : LowLinks α) (nodes : List α) (v : α) :
    (s.close nodes v).unseen = s.unseen := by
  unfold close
  split <;> rfl

end LowLinks

/-- Searches on from the nodes of the work stack, each with the successors that are still to be
tried. -/
def connect (g : FiniteGraph α) (s : LowLinks α) (work : List (α × List α)) : LowLinks α :=
  match work with
  | [] => s
  | (v, w :: ws) :: work =>
    if w ∈ s.unseen then connect g (s.enter w) ((w, g.successors w) :: (v, ws) :: work)
    else if w ∈ s.stack then connect g (s.lower v (s.indexOf w)) ((v, ws) :: work)
    -- The component of the successor is complete.
    else connect g s ((v, ws) :: work)
  -- All successors have been tried.
  | (v, []) :: work => connect g ((s.passUp v work).close g.nodes v) work
termination_by g.unseenWork s.unseen + stackWork work
decreasing_by
  · next h =>
    have := g.unseenWork_filter_le h
    simp only [LowLinks.unseen_enter, stackWork, others, List.length_cons]
    omega
  · simp [stackWork]
  · simp [stackWork]
  · simp [stackWork]

/-- Searches on from one more node, if it has not been entered. -/
def connectFrom (g : FiniteGraph α) (s : LowLinks α) (v : α) : LowLinks α :=
  if v ∈ s.unseen then g.connect (s.enter v) [(v, g.successors v)] else s

/-- The components of a graph, in the order in which the search completes them. -/
def lowLinkComponents (g : FiniteGraph α) : List (List α) :=
  (g.nodes.foldl g.connectFrom (.start g.nodes)).components

end FiniteGraph

end Deduction
