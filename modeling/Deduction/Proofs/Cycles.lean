import Mathlib.Data.List.Chain
import Deduction.Proofs.Predecessors
import Deduction.Proofs.Stratification

/-!
# Reported cycles

A program without strata is rejected with a cycle through negation, which is found by a search for a
shortest path within a component of the dependency graph. The search by predecessors finds the same
paths as the one whose queue carries them, about which the following is shown.

* `FiniteGraph.isSimplePath_of_searchPath`: what the search finds is a path without repeats.
* `FiniteGraph.not_reachesIn_of_searchPath_eq_none`: it finds a path if there is one.
* `negativeCycle_spec`: the reported predicates are different from each other, the first one negates
  the second, each of the others depends on the next one and the last one on the first, and all of
  them lie in one component.

A path between members of a component does not leave it, so that the search never comes back without
one.
-/

namespace Deduction

/-! ## Shortest paths -/

namespace FiniteGraph

variable {α : Type} {g : FiniteGraph α} {within unseen trail path before : List α}
  {source target v w : α}

/-- There is an edge from a node into a list of nodes. -/
def EdgeInto (g : FiniteGraph α) (within : List α) (v w : α) : Prop :=
  w ∈ g.successors v ∧ w ∈ within

/-- There is a path from one node to another whose further nodes are among the given ones. -/
abbrev ReachesIn (g : FiniteGraph α) (within : List α) : α → α → Prop :=
  Relation.ReflTransGen (g.EdgeInto within)

/-- A path from one node to another that passes no node twice and does not leave the given nodes. -/
structure IsSimplePath (g : FiniteGraph α) (within : List α) (source target : α)
    (path : List α) : Prop where
  /-- Each node is a successor of the one before. -/
  chain : path.IsChain fun v w => w ∈ g.successors v
  /-- The path begins at its source. -/
  head : path.head? = some source
  /-- The path ends at its target. -/
  last : path.getLast? = some target
  /-- No node occurs twice. -/
  nodup : path.Nodup
  /-- The nodes are among the given ones. -/
  mem : ∀ v ∈ path, v ∈ within

/-- The way back from the end of a path to its source, along nodes that have been seen. -/
structure IsTrail (g : FiniteGraph α) (within unseen : List α) (source : α)
    (trail : List α) : Prop where
  /-- Each node is a successor of the one after it. -/
  chain : trail.IsChain fun v w => v ∈ g.successors w
  /-- The trail leads to the source. -/
  last : trail.getLast? = some source
  /-- No node occurs twice. -/
  nodup : trail.Nodup
  /-- The nodes are among the given ones. -/
  mem : ∀ v ∈ trail, v ∈ within
  /-- The nodes have been seen. -/
  seen : ∀ v ∈ trail, v ∉ unseen

theorem IsTrail.mono {unseen' : List α} (h : g.IsTrail within unseen source trail)
    (hsub : ∀ v ∈ unseen', v ∈ unseen) : g.IsTrail within unseen' source trail :=
  { h with seen := fun v hv hmem => h.seen v hv (hsub v hmem) }

theorem IsTrail.reverse (h : g.IsTrail within unseen source (target :: before)) :
    g.IsSimplePath within source target (target :: before).reverse where
  chain := List.isChain_reverse.2 h.chain
  head := by rw [List.head?_reverse, h.last]
  last := by rw [List.getLast?_reverse, List.head?_cons]
  nodup := List.nodup_reverse.2 h.nodup
  mem v hv := h.mem v (List.mem_reverse.1 hv)

/-- A path within some nodes stays within others, or does so after the last node that it passes
outside. -/
theorem reachesIn_or_exists_last (h : g.ReachesIn within v target)
    (inside : List α) :
    g.ReachesIn inside v target ∨
      ∃ w ∈ within, w ∉ inside ∧ g.ReachesIn inside w target := by
  induction h using Relation.ReflTransGen.head_induction_on with
  | refl => exact .inl .refl
  | @head u w edge _ ih =>
    rcases ih with hinside | hlast
    · by_cases hw : w ∈ inside
      · exact .inl (.head ⟨edge.1, hw⟩ hinside)
      · exact .inr ⟨w, edge.2, hw, hinside⟩
    · exact .inr hlast

variable [DecidableEq α]

theorem mem_unseenSuccessors :
    w ∈ g.unseenSuccessors unseen v ↔ w ∈ g.successors v ∧ w ∈ unseen := by
  simp [unseenSuccessors]

theorem mem_unseenOthers :
    w ∈ g.unseenOthers unseen v ↔ w ∈ unseen ∧ w ∉ g.successors v := by
  simp [unseenOthers]

/-- A trail goes on to an unseen successor of its end, which is not unseen any more. -/
theorem IsTrail.extend (h : g.IsTrail within unseen source (v :: before))
    (hunseen : ∀ u ∈ unseen, u ∈ within) (hw : w ∈ g.unseenSuccessors unseen v) :
    g.IsTrail within (g.unseenOthers unseen v) source (w :: v :: before) := by
  obtain ⟨hedge, hmem⟩ := mem_unseenSuccessors.1 hw
  refine ⟨List.isChain_cons_cons.2 ⟨hedge, h.chain⟩, ?_, ?_, ?_, ?_⟩
  · rw [List.getLast?_cons_cons, h.last]
  · exact List.nodup_cons.2 ⟨fun hseen => h.seen w hseen hmem, h.nodup⟩
  · exact List.forall_mem_cons.2 ⟨hunseen w hmem, h.mem⟩
  · refine List.forall_mem_cons.2 ⟨fun hother => (mem_unseenOthers.1 hother).2 hedge, ?_⟩
    exact fun u hu hother => h.seen u hu (mem_unseenOthers.1 hother).1

/-- A path that the search finds from trails is a path without repeats. -/
theorem isSimplePath_of_searchPath {queue : List (α × List α)}
    (hunseen : ∀ u ∈ unseen, u ∈ within)
    (hqueue : ∀ entry ∈ queue, g.IsTrail within unseen source (entry.1 :: entry.2))
    (h : g.searchPath target unseen queue = some path) :
    g.IsSimplePath within source target path := by
  fun_induction searchPath g target unseen queue with
  | case1 => cases h
  | case2 unseen before queue =>
    obtain rfl := Option.some.inj h
    exact (hqueue _ (.head _)).reverse
  | case3 unseen v before queue hv next ih =>
    refine ih (fun u hu => hunseen u (mem_unseenOthers.1 hu).1) (fun entry hentry => ?_) h
    -- An entry is an old one, or goes on from the first one to a successor.
    rcases List.mem_append.1 hentry with hentry | hentry
    · exact (hqueue entry (.tail _ hentry)).mono fun u hu => (mem_unseenOthers.1 hu).1
    · obtain ⟨w, hw, rfl⟩ := List.mem_map.1 hentry
      exact (hqueue _ (.head _)).extend hunseen hw

/-- When the search finds nothing, the target cannot be reached along unseen nodes. -/
theorem not_reachesIn_of_searchPath_eq_none {queue : List (α × List α)}
    (h : g.searchPath target unseen queue = none) :
    ∀ entry ∈ queue, ¬g.ReachesIn unseen entry.1 target := by
  fun_induction searchPath g target unseen queue with
  | case1 => exact List.forall_mem_nil _
  | case2 unseen before queue => cases h
  | case3 unseen v before queue hv next ih =>
    have hrest := ih h
    -- A path along unseen nodes that passes a successor of the first node goes on from the last one
    -- that it passes.
    have hlast : ∀ u, g.ReachesIn unseen u target →
        g.ReachesIn (g.unseenOthers unseen v) u target := by
      intro u hu
      refine (reachesIn_or_exists_last hu (g.unseenOthers unseen v)).resolve_right ?_
      rintro ⟨w, hw, hout, hreach⟩
      have hedge : w ∈ g.successors v := by
        by_contra hnot
        exact hout (mem_unseenOthers.2 ⟨hw, hnot⟩)
      have hnext : w ∈ next := mem_unseenSuccessors.2 ⟨hedge, hw⟩
      exact hrest _ (List.mem_append_right _ (List.mem_map_of_mem hnext)) hreach
    refine List.forall_mem_cons.2 ⟨fun hreach => ?_, fun entry hentry hreach => ?_⟩
    · -- The first step from the node would lead to one of its successors.
      rcases (hlast v hreach).cases_head with heq | ⟨w, hstep, -⟩
      · exact hv heq
      · exact (mem_unseenOthers.1 hstep.2).2 hstep.1
    · exact hrest entry (List.mem_append_left _ hentry) (hlast _ hreach)

/-- The search finds a path without repeats if there is a path. -/
theorem exists_shortestPath (hsource : source ∈ within)
    (h : g.ReachesIn within source target) :
    ∃ path, g.shortestPath? within source target = some path ∧
      g.IsSimplePath within source target path := by
  have hothers : g.ReachesIn (others within source) source target := by
    -- A path that returns to the source can begin there.
    rcases reachesIn_or_exists_last h (others within source) with h | ⟨w, hw, hout, h⟩
    · exact h
    · obtain rfl : w = source := by
        by_contra hne
        exact hout (mem_others.2 ⟨hw, hne⟩)
      exact h
  cases hpath : g.shortestPath? within source target with
  | none => exact absurd hothers (not_reachesIn_of_searchPath_eq_none hpath _ (.head _))
  | some path =>
    refine ⟨path, rfl, isSimplePath_of_searchPath (fun u hu => (mem_others.1 hu).1) ?_ hpath⟩
    intro entry hentry
    obtain rfl := List.mem_singleton.1 hentry
    exact ⟨.singleton _, rfl, List.nodup_singleton _, by simpa using hsource, by simp [others]⟩

/-- A path between members of a component does not leave it. -/
theorem reachesIn_component {c : List α} (hc : c ∈ g.components) (hv : v ∈ c) (hw : w ∈ c) :
    g.ReachesIn c v w := by
  have hreach := ((mem_component_iff hc hv).1 hw).2.1
  induction hreach using Relation.ReflTransGen.head_induction_on with
  | refl => exact .refl
  | @head u x edge hrest ih =>
    have hback := ((mem_component_iff hc hw).1 hv).2.1
    have hx : x ∈ c := (mem_component_iff hc hv).2 ⟨edge.2, .single edge, hrest.trans hback⟩
    exact .head ⟨edge.1, hx⟩ (ih hx)

end FiniteGraph

/-! ## Cycles through negation -/

namespace DependencyGraph

variable {g : DependencyGraph} {rules : List Rule} {c cycle : List Predicate} {p q : Predicate}

/-- The cycle that a dependency closes within a component leads from its target back to its
source. -/
theorem exists_cycleThrough (hc : c ∈ g.graph.components) (hp : p ∈ c) (hq : q ∈ c) :
    ∃ rest, g.cycleThrough c p q = p :: rest ∧ g.graph.IsSimplePath c q p (rest ++ [p]) := by
  obtain ⟨path, hpath, hsimple⟩ :=
    FiniteGraph.exists_shortestPath hq (FiniteGraph.reachesIn_component hc hq hp)
  obtain ⟨rest, rfl⟩ := List.getLast?_eq_some_iff.1 hsimple.last
  refine ⟨rest, ?_, hsimple⟩
  -- The source of the dependency occurs at the end of the path, and nowhere else.
  have hnot : ∀ x ∈ rest, x ≠ p := fun x hx heq =>
    (List.nodup_append.1 hsimple.nodup).2.2 x hx p (.head _) heq
  have hfilter : (rest ++ [p]).filter (· ≠ p) = rest := by
    rw [List.filter_append, List.filter_eq_self.2 (by simpa using hnot)]
    simp
  rw [cycleThrough, FiniteGraph.tracedPath?_eq_shortestPath?, hpath, Option.getD_some, hfilter]

/-- A reported cycle goes through a negative dependency within a component. -/
theorem exists_of_negativeCycle?_eq_some (h : g.negativeCycle? = some cycle) :
    ∃ c ∈ g.graph.components, ∃ p ∈ c, ∃ q ∈ c, ⟨q, true⟩ ∈ g.dependencies p ∧
      g.cycleThrough c p q = cycle := by
  rw [negativeCycle?, components_eq] at h
  obtain ⟨c, hc, h⟩ := List.exists_of_findSome?_eq_some h
  obtain ⟨p, hp, h⟩ := List.exists_of_findSome?_eq_some h
  obtain ⟨⟨q, isNegative⟩, hfind, hcycle⟩ := Option.map_eq_some_iff.1 h
  have hmarked := List.find?_some hfind
  simp only [Bool.and_eq_true, decide_eq_true_eq] at hmarked
  obtain ⟨rfl, hq⟩ := hmarked
  exact ⟨c, hc, p, hp, q, hq, List.mem_of_find?_eq_some hfind, hcycle⟩

/-- The members of a component are the predicates that depend on each other. -/
theorem mem_component_iff_walk (hc : c ∈ (ofRules rules).graph.components) (hp : p ∈ c) :
    q ∈ c ↔ (∃ ds, Walk rules p ds q) ∧ ∃ ds, Walk rules q ds p := by
  rw [FiniteGraph.mem_component_iff hc hp, FiniteGraph.Connected, reaches_graph, reaches_graph]
  refine and_iff_right_of_imp fun h => ?_
  -- Walks do not leave the graph.
  rcases (reaches_graph.2 h.1).cases_tail with rfl | ⟨x, -, edge⟩
  · exact ((FiniteGraph.mem_component_iff hc hp).1 hp).1
  · exact edge.2

theorem stratify_eq_negativeCycle_iff :
    stratify rules = .error (.negativeCycle cycle) ↔
      (ofRules rules).negativeCycle? = some cycle := by
  rw [stratify]
  cases (ofRules rules).negativeCycle? <;> simp

end DependencyGraph

open DependencyGraph

/-- The cycle with which a program is rejected is one through negation: its predicates are different
from each other, the first one negates the second, or itself if it is the only one, each of the
others depends on the next one, and the last one on the first. They lie in one component of the
dependency graph, which is a class of predicates that depend on each other. -/
theorem negativeCycle_spec {rules : List Rule} {cycle : List Predicate}
    (h : stratify rules = .error (.negativeCycle cycle)) :
    ∃ p rest, cycle = p :: rest ∧ cycle.Nodup ∧ Depends rules p ⟨rest.headD p, true⟩ ∧
      (rest ++ [p]).IsChain (fun q q' => ∃ b, Depends rules q ⟨q', b⟩) ∧
      ∃ c ∈ (ofRules rules).graph.components, (∀ q ∈ cycle, q ∈ c) ∧
        ∀ q, q ∈ c ↔ (∃ ds, Walk rules p ds q) ∧ ∃ ds, Walk rules q ds p := by
  obtain ⟨c, hc, p, hp, q, hq, hdep, rfl⟩ :=
    exists_of_negativeCycle?_eq_some (stratify_eq_negativeCycle_iff.1 h)
  obtain ⟨rest, heq, hpath⟩ := exists_cycleThrough hc hp hq
  have hperm : (rest ++ [p]).Perm (p :: rest) := List.perm_append_singleton p rest
  -- The path begins where the negative dependency leads.
  have hhead : rest.headD p = q := by
    have hsource := hpath.head
    cases rest with
    | nil => exact Option.some.inj hsource
    | cons x rest => exact Option.some.inj hsource
  rw [heq]
  refine ⟨p, rest, rfl, hperm.nodup_iff.1 hpath.nodup, ?_, ?_, c, hc, ?_,
    fun x => mem_component_iff_walk hc hp⟩
  · rw [hhead]
    exact mem_dependencies.1 hdep
  · refine hpath.chain.imp fun x y hxy => ?_
    obtain ⟨d, hd, rfl⟩ := List.mem_map.1 hxy
    exact ⟨d.isNegative, mem_dependencies.1 hd⟩
  · exact fun x hx => hpath.mem x (hperm.mem_iff.2 hx)

/-- Three predicates that depend on each other in a circle, one of them on the negation of the
next. -/
def circleRules : List Rule :=
  let atom (name : String) : Atom := ⟨.plain name 0, []⟩
  [⟨atom "a", [.positive (atom "b")]⟩,
    ⟨atom "b", [.positive (atom "d"), .negative (atom "c")]⟩,
    ⟨atom "c", [.positive (atom "a")]⟩]

theorem negativeCycle_spec_circle :
    stratify circleRules =
      .error (.negativeCycle [.plain "b" 0, .plain "c" 0, .plain "a" 0]) ∧
    ∃ p rest, [.plain "b" 0, .plain "c" 0, .plain "a" 0] = p :: rest ∧
      Depends circleRules p ⟨rest.headD p, true⟩ ∧
      (rest ++ [p]).IsChain (fun q q' => ∃ b, Depends circleRules q ⟨q', b⟩) := by
  have h := stratify_eq_negativeCycle_iff.2 (by decide +kernel :
    (ofRules circleRules).negativeCycle? = some [.plain "b" 0, .plain "c" 0, .plain "a" 0])
  obtain ⟨p, rest, hcycle, -, hnegates, hchain, -⟩ := negativeCycle_spec h
  exact ⟨h, p, rest, hcycle, hnegates, hchain⟩

end Deduction
