import Deduction.FiniteGraph
import Deduction.Table

/-!
# Shortest paths by predecessors

A breadth-first search meets the nodes of a graph in the order of their distance from the source,
and notes for each of them the node from which it was met first, its predecessor. Once the target
has been reached, the way back from it along the predecessors leads to the source, and read forwards
it is a shortest path.

No queue of paths is needed as in `FiniteGraph.searchPath`. Every step of the search takes a node
from the queue, and no node is met twice, so that the search ends. The way back has at most as many
steps as there are nodes that can be met.
-/

namespace Deduction

namespace FiniteGraph

/-- How far a breadth-first search has come. -/
structure Frontier (α : Type) where
  /-- The predecessors of the nodes that have been met. The source has none. -/
  previous : Table α α
  /-- The nodes that are still to be searched from, in the order in which they were met. -/
  queue : List α

variable {α : Type} [DecidableEq α]

namespace Frontier

/-- The search starts from one node. -/
def start (source : α) : Frontier α :=
  ⟨.empty, [source]⟩

/-- The nodes that have not been met, out of those that can be met. -/
def unmet (s : Frontier α) (nodes : List α) : List α :=
  nodes.filter fun w => (s.previous.get? w).isNone

/-- Meets a successor of a node, which has to be searched from if it is met for the first time. -/
def meet (nodes : List α) (v : α) (s : Frontier α) (w : α) : Frontier α :=
  if w ∈ s.unmet nodes then ⟨s.previous.insert w v, s.queue ++ [w]⟩ else s

/-- Meets the successors of a node in their order. -/
def meetAll (nodes : List α) (v : α) (ws : List α) (s : Frontier α) : Frontier α :=
  ws.foldl (meet nodes v) s

theorem unmet_insert (s : Frontier α) (nodes queue : List α) (v w : α) :
    unmet ⟨s.previous.insert w v, queue⟩ nodes = others (s.unmet nodes) w := by
  rw [others, unmet, unmet, List.filter_filter]
  refine List.filter_congr fun u _ => ?_
  rw [Table.get?_insert]
  by_cases h : u = w <;> simp [h]

/-- A node that is met moves from the unmet nodes to the queue. -/
theorem length_meetAll_le (nodes : List α) (v : α) (ws : List α) (s : Frontier α) :
    ((s.meetAll nodes v ws).unmet nodes).length + (s.meetAll nodes v ws).queue.length ≤
      (s.unmet nodes).length + s.queue.length := by
  induction ws generalizing s with
  | nil => exact Nat.le_refl _
  | cons w ws ih =>
    refine Nat.le_trans (ih (s.meet nodes v w)) ?_
    rw [meet]
    split
    · next hw =>
      have hlt : (others (s.unmet nodes) w).length < (s.unmet nodes).length :=
        List.length_filter_lt_length_iff_exists.2 ⟨w, hw, by simp⟩
      rw [unmet_insert, List.length_append, List.length_singleton]
      omega
    · exact Nat.le_refl _

end Frontier

/-- The predecessors that have been noted when a search finds the target, or has no more nodes to
search from. -/
def findPredecessors (g : FiniteGraph α) (nodes : List α) (target : α) (s : Frontier α) :
    Table α α :=
  match s with
  | ⟨previous, []⟩ => previous
  | ⟨previous, v :: queue⟩ =>
    if v = target then previous
    else findPredecessors g nodes target (.meetAll nodes v (g.successors v) ⟨previous, queue⟩)
termination_by (s.unmet nodes).length + s.queue.length
decreasing_by
  have hle := Frontier.length_meetAll_le nodes v (g.successors v) ⟨previous, queue⟩
  simp only [Frontier.unmet, List.length_cons] at hle ⊢
  omega

/-- Goes back from a node to the source in at most `n` steps, and puts the nodes on the way in front
of a path. -/
def walkBack (previous : Table α α) (source : α) : (n : Nat) → α → List α → Option (List α)
  | 0, v, path => if v = source then some path else none
  | n + 1, v, path =>
    if v = source then some path
    else
      match previous.get? v with
      | some u => walkBack previous source n u (u :: path)
      | none => none

/-- The path between two nodes that a search along the given nodes finds by its predecessors. -/
def tracedPath? (g : FiniteGraph α) (within : List α) (source target : α) : Option (List α) :=
  let nodes := others within source
  walkBack (g.findPredecessors nodes target (.start source)) source nodes.length target [target]

end FiniteGraph

end Deduction
