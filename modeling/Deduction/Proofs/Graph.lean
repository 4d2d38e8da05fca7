import Mathlib.Logic.Relation
import Deduction.FiniteGraph
import Deduction.Proofs.Lists

/-!
# Reachability in finite graphs

The depth-first search visits exactly the nodes that can be reached, and the components are the
classes of mutual reachability:

* `mem_reachable`: a search from a node finds what can be reached from it.
* `mem_component_iff`, `exists_component`: every node lies in a component, and with it exactly the
  nodes that it can reach and be reached from.

While a search runs, an unseen successor of a visited node is still waiting on the stack (`Waits`).
When the stack is empty there is no such successor, so what was visited is closed under edges.
-/

namespace Deduction

namespace FiniteGraph

open Relation

variable {α : Type} {g : FiniteGraph α}

/-- There is an edge between two nodes. -/
def Edge (g : FiniteGraph α) (v w : α) : Prop :=
  w ∈ g.successors v ∧ w ∈ g.nodes

/-- There is a path from one node to another. -/
abbrev Reaches (g : FiniteGraph α) : α → α → Prop :=
  ReflTransGen g.Edge

/-! ## What a search visits -/

/-- An unseen successor of a visited node has not been tried yet: its source is not finished, and
waits on the stack for it. -/
def Waits (g : FiniteGraph α) (unseen : List α) (stack : List (α × List α))
    (finished : List α) : Prop :=
  ∀ v w, w ∈ g.successors v → w ∈ unseen →
    v ∉ finished ∧ ∀ frame ∈ stack, frame.1 = v → w ∈ frame.2

variable [DecidableEq α]

theorem mem_others {nodes : List α} {v w : α} : w ∈ others nodes v ↔ w ∈ nodes ∧ w ≠ v := by
  simp [others]

theorem unseen_search_subset (g : FiniteGraph α) (unseen : List α) (stack : List (α × List α))
    (finished : List α) {w : α} (h : w ∈ (g.search unseen stack finished).unseen) :
    w ∈ unseen := by
  fun_induction search g unseen stack finished with
  | case1 => exact h
  | case2 unseen finished v stack ih => exact ih h
  | case3 unseen finished v w ws stack hw ih => exact (mem_others.1 (ih h)).1
  | case4 unseen finished v w ws stack hw ih => exact ih h

/-- A search finishes with the nodes of its stack and with the nodes that it takes out of the unseen
ones. -/
theorem mem_finished_search (g : FiniteGraph α) (unseen : List α) (stack : List (α × List α))
    (finished : List α) {w : α} :
    w ∈ (g.search unseen stack finished).finished ↔
      w ∈ finished ∨ w ∈ stack.map (·.1) ∨
        (w ∈ unseen ∧ w ∉ (g.search unseen stack finished).unseen) := by
  fun_induction search g unseen stack finished with
  | case1 unseen finished => simp
  | case2 unseen finished v stack ih =>
    rw [ih]
    simp only [List.map_cons, List.mem_cons]
    tauto
  | case3 unseen finished v x xs stack hx ih =>
    rw [ih]
    -- The new node leaves the unseen ones for the stack, and is finished from there.
    have hsub := unseen_search_subset g (others unseen x)
      ((x, g.successors x) :: (v, xs) :: stack) finished (w := x)
    simp only [List.map_cons, List.mem_cons, mem_others] at hsub ⊢
    by_cases hwx : w = x
    · subst hwx
      tauto
    · tauto
  | case4 unseen finished v x xs stack hx ih =>
    rw [ih]
    simp

/-- When a search is over, no successor of a finished node is unseen. -/
theorem Waits.search {unseen : List α} {stack : List (α × List α)} {finished : List α}
    (h : g.Waits unseen stack finished) :
    ∀ v ∈ (g.search unseen stack finished).finished, ∀ w ∈ g.successors v,
      w ∉ (g.search unseen stack finished).unseen := by
  fun_induction FiniteGraph.search g unseen stack finished with
  | case1 unseen finished =>
    intro v hv w hw hu
    exact (h v w hw hu).1 hv
  | case2 unseen finished v stack ih =>
    refine ih fun u w hw hu => ?_
    obtain ⟨hfin, hstack⟩ := h u w hw hu
    -- The top of the stack is finished: an unseen successor would still be listed in its frame.
    refine ⟨fun hmem => ?_, fun frame hframe => hstack frame (.tail _ hframe)⟩
    rcases List.mem_cons.1 hmem with rfl | hmem
    · -- The node has no successor left to try.
      exact absurd (hstack (u, []) (.head _) rfl) (by simp)
    · exact hfin hmem
  | case3 unseen finished v x xs stack hx ih =>
    refine ih fun u w hw hu => ?_
    rw [mem_others] at hu
    obtain ⟨hfin, hstack⟩ := h u w hw hu.1
    refine ⟨hfin, ?_⟩
    intro frame hmem hframe
    simp only [List.mem_cons] at hmem
    -- The frame is the new one with all its successors, the one that has just been shortened, or
    -- an older one.
    rcases hmem with rfl | rfl | hmem
    · rw [← hframe] at hw
      exact hw
    · exact (List.mem_cons.1 (hstack (v, x :: xs) (.head _) hframe)).resolve_left hu.2
    · exact hstack frame (.tail _ hmem) hframe
  | case4 unseen finished v x xs stack hx ih =>
    refine ih fun u w hw hu => ?_
    obtain ⟨hfin, hstack⟩ := h u w hw hu
    refine ⟨hfin, ?_⟩
    intro frame hmem hframe
    rcases List.mem_cons.1 hmem with rfl | hmem
      -- What is dropped from the frame has been seen, so it is not the successor in question.
    · refine (List.mem_cons.1 (hstack (v, x :: xs) (.head _) hframe)).resolve_left ?_
      rintro rfl
      exact hx hu
    · exact hstack frame (.tail _ hmem) hframe

/-- A search stays within every set that contains the nodes of its stack and is closed under
edges. -/
theorem finished_search_of_closed {P : α → Prop} (hP : ∀ v w, P v → g.Edge v w → P w)
    {unseen : List α} {stack : List (α × List α)} {finished : List α}
    (hnodes : ∀ v ∈ unseen, v ∈ g.nodes)
    (hstack : ∀ frame ∈ stack, P frame.1 ∧ ∀ w ∈ frame.2, w ∈ g.successors frame.1)
    (hfinished : ∀ v ∈ finished, P v) :
    ∀ v ∈ (g.search unseen stack finished).finished, P v := by
  fun_induction search g unseen stack finished with
  | case1 => exact hfinished
  | case2 unseen finished v stack ih =>
    refine ih hnodes (fun frame hframe => hstack frame (.tail _ hframe)) ?_
    intro w hw
    rcases List.mem_cons.1 hw with rfl | hw
    · exact (hstack (w, []) (.head _)).1
    · exact hfinished w hw
  | case3 unseen finished v x xs stack hx ih =>
    have hv := hstack (v, x :: xs) (.head _)
    refine ih (fun w hw => hnodes w (mem_others.1 hw).1) ?_ hfinished
    intro frame hmem
    simp only [List.mem_cons] at hmem
    rcases hmem with rfl | rfl | hmem
    -- The new frame is entered along an edge of the set.
    · exact ⟨hP v x hv.1 ⟨hv.2 x (.head _), hnodes x hx⟩, fun w hw => hw⟩
    · exact ⟨hv.1, fun w hw => hv.2 w (.tail _ hw)⟩
    · exact hstack frame (.tail _ hmem)
  | case4 unseen finished v x xs stack hx ih =>
    have hv := hstack (v, x :: xs) (.head _)
    refine ih hnodes ?_ hfinished
    intro frame hmem
    rcases List.mem_cons.1 hmem with rfl | hmem
    · exact ⟨hv.1, fun w hw => hv.2 w (.tail _ hw)⟩
    · exact hstack frame (.tail _ hmem)

/-- A search from a node finds exactly what can be reached from it. -/
theorem mem_reachable {v w : α} (hv : v ∈ g.nodes) : w ∈ g.reachable v ↔ g.Reaches v w := by
  have hvisit : g.reachable v =
      (g.search (others g.nodes v) [(v, g.successors v)] []).finished := by
    simp [reachable, visit, hv]
  rw [hvisit]
  constructor
  · refine finished_search_of_closed (P := g.Reaches v) (fun u w => .tail) ?_ ?_ ?_ w
    · exact fun u hu => (mem_others.1 hu).1
    · simp [ReflTransGen.refl]
    · simp
  · intro hreach
    -- At the start only the root has been visited, and its frame lists all its successors.
    have hwaits : g.Waits (others g.nodes v) [(v, g.successors v)] [] := by
      intro u x hx _
      simp only [List.mem_singleton, List.not_mem_nil, not_false_eq_true, true_and]
      rintro frame rfl rfl
      exact hx
    induction hreach with
    | refl => simp [mem_finished_search]
    | @tail u x _ edge ih =>
      -- The search has seen the target of the edge, and there is nothing that it has not finished.
      have hseen := hwaits.search u ih x edge.1
      rw [mem_finished_search]
      by_cases hxv : x = v
      · simp [hxv]
      · exact .inr (.inr ⟨mem_others.2 ⟨edge.2, hxv⟩, hseen⟩)

/-! ## The order of finishing -/

/-- Visits go on until every node is finished or unseen. -/
theorem mem_finished_foldl_visit (g : FiniteGraph α) (nodes : List α) (found : Visit α)
    (h : ∀ v, v ∈ g.nodes ↔ v ∈ found.finished ∨ v ∈ found.unseen) :
    (∀ v, v ∈ g.nodes ↔
      v ∈ (nodes.foldl g.visit found).finished ∨ v ∈ (nodes.foldl g.visit found).unseen) ∧
    (∀ v ∈ nodes, v ∉ (nodes.foldl g.visit found).unseen) ∧
    (∀ v ∈ (nodes.foldl g.visit found).unseen, v ∈ found.unseen) := by
  induction nodes generalizing found with
  | nil => exact ⟨h, by simp, fun v hv => hv⟩
  | cons u us ih =>
    rw [List.foldl_cons]
    have hvisit : (∀ v, v ∈ g.nodes ↔
          v ∈ (g.visit found u).finished ∨ v ∈ (g.visit found u).unseen) ∧
        u ∉ (g.visit found u).unseen ∧
        ∀ v ∈ (g.visit found u).unseen, v ∈ found.unseen := by
      unfold visit
      split
      · next hu =>
        have hsub : ∀ {v}, v ∈ (g.search (others found.unseen u) [(u, g.successors u)]
            found.finished).unseen → v ∈ others found.unseen u :=
          unseen_search_subset g _ _ _
        refine ⟨fun v => ?_, fun hmem => (mem_others.1 (hsub hmem)).2 rfl,
          fun v hv => (mem_others.1 (hsub hv)).1⟩
        rw [h, mem_finished_search]
        specialize @hsub v
        simp only [mem_others, List.map_cons, List.map_nil, List.mem_singleton] at hsub ⊢
        -- The node that is visited goes from unseen to finished, the others as the search says.
        by_cases hvu : v = u
        · subst hvu
          tauto
        · tauto
      · next hu => exact ⟨h, hu, fun v hv => hv⟩
    obtain ⟨hnodes, hlater, hsub⟩ := ih (g.visit found u) hvisit.1
    refine ⟨hnodes, ?_, fun v hv => hvisit.2.2 v (hsub v hv)⟩
    intro v hv
    rcases List.mem_cons.1 hv with rfl | hv
    · exact fun hmem => hvisit.2.1 (hsub v hmem)
    · exact hlater v hv

/-- The search through the whole graph finishes with every node. -/
theorem mem_finishOrder {v : α} : v ∈ g.finishOrder ↔ v ∈ g.nodes := by
  obtain ⟨hnodes, hseen, -⟩ := mem_finished_foldl_visit g g.nodes ⟨g.nodes, []⟩ (by simp)
  rw [finishOrder, List.mem_reverse]
  constructor
  · exact fun hv => (hnodes v).2 (.inl hv)
  · exact fun hv => ((hnodes v).1 hv).resolve_right (hseen v hv)

/-! ## Components -/

/-- Two nodes can be reached from each other. -/
def Connected (g : FiniteGraph α) (v w : α) : Prop :=
  g.Reaches v w ∧ g.Reaches w v

omit [DecidableEq α] in
theorem Connected.refl (v : α) : g.Connected v v :=
  ⟨.refl, .refl⟩

omit [DecidableEq α] in
theorem Connected.symm {v w : α} (h : g.Connected v w) : g.Connected w v :=
  ⟨h.2, h.1⟩

omit [DecidableEq α] in
theorem Connected.trans {u v w : α} (h : g.Connected u v) (h' : g.Connected v w) :
    g.Connected u w :=
  ⟨h.1.trans h'.1, h'.2.trans h.2⟩

/-- The table of what each node reaches decides whether two nodes reach each other. -/
theorem connected_iff {v w : α} :
    connected (g.nodes.map fun u => (u, g.reachable u)) v w = true ↔
      v ∈ g.nodes ∧ w ∈ g.nodes ∧ g.Connected v w := by
  rw [connected, lookup_map_pair, lookup_map_pair]
  by_cases hv : v ∈ g.nodes
  · by_cases hw : w ∈ g.nodes
    · simp [hv, hw, mem_reachable, Connected]
    · simp [hv, hw]
  · simp [hv]

omit [DecidableEq α] in
/-- A member of a list has a representative among the members that have no later one in their
class. -/
theorem exists_mem_lastOfEach {same : α → α → Bool} {xs : List α} {x : α}
    (hrefl : ∀ y ∈ xs, same y y = true)
    (htrans : ∀ y z u, same y z = true → same z u = true → same y u = true) (hx : x ∈ xs) :
    ∃ y ∈ lastOfEach same xs, same x y = true := by
  induction xs generalizing x with
  | nil => simp at hx
  | cons y ys ih =>
    have hrefl' : ∀ z ∈ ys, same z z = true := fun z hz => hrefl z (.tail _ hz)
    rw [lastOfEach]
    split
    · next hany =>
      obtain ⟨z, hz, hyz⟩ := List.any_eq_true.1 hany
      rcases List.mem_cons.1 hx with rfl | hx
      -- The head is dropped for a later member of its class, whose representative is also its own.
      · obtain ⟨u, hu, hzu⟩ := ih hrefl' hz
        exact ⟨u, hu, htrans _ _ _ hyz hzu⟩
      · exact ih hrefl' hx
    · rcases List.mem_cons.1 hx with rfl | hx
      · exact ⟨x, .head _, hrefl x (.head _)⟩
      · obtain ⟨u, hu, hxu⟩ := ih hrefl' hx
        exact ⟨u, .tail _ hu, hxu⟩

/-- A component consists of the nodes that are connected with one of its members. -/
theorem mem_component_iff {c : List α} {v w : α} (hc : c ∈ g.components) (hv : v ∈ c) :
    w ∈ c ↔ w ∈ g.nodes ∧ g.Connected v w := by
  simp only [components, List.mem_map] at hc
  obtain ⟨u, -, rfl⟩ := hc
  simp only [List.mem_filter, connected_iff] at hv ⊢
  obtain ⟨-, hu, hvn, huv⟩ := hv
  constructor
  · rintro ⟨-, -, hw, huw⟩
    exact ⟨hw, huv.symm.trans huw⟩
  · rintro ⟨hw, hvw⟩
    exact ⟨hw, hu, hw, huv.trans hvw⟩

/-- Every node lies in a component. -/
theorem exists_component {v : α} (hv : v ∈ g.nodes) : ∃ c ∈ g.components, v ∈ c := by
  let same := connected (g.nodes.map fun u => (u, g.reachable u))
  have hrefl : ∀ y ∈ g.finishOrder, same y y = true := fun y hy =>
    connected_iff.2 ⟨mem_finishOrder.1 hy, mem_finishOrder.1 hy, .refl y⟩
  have htrans : ∀ y z u, same y z = true → same z u = true → same y u = true := by
    intro y z u hyz hzu
    rw [connected_iff] at hyz hzu ⊢
    exact ⟨hyz.1, hzu.2.1, hyz.2.2.trans hzu.2.2⟩
  obtain ⟨u, hu, hvu⟩ := exists_mem_lastOfEach hrefl htrans (mem_finishOrder.2 hv)
  rw [connected_iff] at hvu
  refine ⟨_, List.mem_map_of_mem hu, List.mem_filter.2 ⟨hv, connected_iff.2 ?_⟩⟩
  exact ⟨hvu.2.1, hv, hvu.2.2.symm⟩

end FiniteGraph

end Deduction
