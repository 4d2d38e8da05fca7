import Deduction.Proofs.Lists
import Deduction.Proofs.Magic.Passing

/-!
# Edges of passing graphs

The edges of a passing graph are found in one pass over its nodes, during which labels grow
variable by variable. In the end they are, node by node, the edges from the nodes that the node
receives bindings from (`PassingGraph.edges_eq`). The invariant of the pass is
`PassingGraph.IsWired`.
-/

namespace Deduction

namespace Table

variable {κ ν : Type} [DecidableEq κ]

/-- A table in which all of the given keys have one value. -/
theorem get?_ofList_map (v : ν) (keys : List κ) (k : κ) :
    (ofList (keys.map fun l => (l, v))).get? k = if k ∈ keys then some v else none := by
  induction keys using List.reverseRecOn with
  | nil => rfl
  | append_singleton keys l ih =>
    rw [ofList] at ih ⊢
    rw [List.map_append, List.map_singleton, List.foldl_append, List.foldl_cons, List.foldl_nil,
      get?_insert, ih]
    by_cases h : k = l <;> simp [h]

end Table

namespace PassingGraph

variable {g : PassingGraph} {edges earlier : List PassingEdge} {j k n : Nat} {x : String}
  {sources passers : List Nat} {vars : List String}

/-! ## Labels -/

/-- Edges between other nodes stay as they are. -/
theorem addPassed_append (h : ∀ e ∈ earlier, ¬(e.source = j ∧ e.target = k)) :
    addPassed j k x (earlier ++ edges) = earlier ++ addPassed j k x edges := by
  induction earlier with
  | nil => rfl
  | cons e earlier ih =>
    rw [List.forall_mem_cons] at h
    rw [List.cons_append, addPassed, if_neg h.1, ih h.2, List.cons_append]

/-- The edges from some nodes to one node, with the labels that a function gives. -/
def edgesTo (k : Nat) (label : Nat → List String) (sources : List Nat) : List PassingEdge :=
  sources.map fun j => ⟨j, k, label j⟩

/-- A node that has an edge gets a longer label. -/
theorem addPassed_edgesTo_of_mem {label : Nat → List String} (hnodup : sources.Nodup)
    (hj : j ∈ sources) (hx : x ∉ label j) :
    addPassed j k x (edgesTo k label sources) =
      edgesTo k (fun i => if i = j then label i ++ [x] else label i) sources := by
  induction sources with
  | nil => cases hj
  | cons i sources ih =>
    rw [List.nodup_cons] at hnodup
    rw [edgesTo, List.map_cons, addPassed]
    by_cases hij : i = j
    · subst hij
      -- The other edges come from other nodes.
      have hrest : ∀ m ∈ sources, m ≠ i := fun m hm heq => hnodup.1 (heq ▸ hm)
      simp only [edgesTo, List.map_cons, and_self, if_true, hx, if_false]
      refine congrArg _ (List.map_congr_left fun m hm => ?_)
      rw [if_neg (hrest m hm)]
    · have hmem : j ∈ sources := (List.mem_cons.1 hj).resolve_left (Ne.symm hij)
      rw [if_neg (fun h => hij h.1)]
      refine (congrArg _ (ih hnodup.2 hmem)).trans ?_
      simp [edgesTo, hij]

/-- A node without an edge gets one. -/
theorem addPassed_edgesTo_of_not_mem {label : Nat → List String} (hj : j ∉ sources)
    (hlabel : label j = []) :
    addPassed j k x (edgesTo k label sources) =
      edgesTo k (fun i => if i = j then label i ++ [x] else label i) (sources ++ [j]) := by
  have hother : ∀ e ∈ edgesTo k label sources, ¬(e.source = j ∧ e.target = k) := by
    rintro e he ⟨rfl, -⟩
    obtain ⟨i, hi, rfl⟩ := List.mem_map.1 he
    exact hj hi
  have hnew : addPassed j k x (edgesTo k label sources ++ []) =
      edgesTo k label sources ++ [⟨j, k, [x]⟩] := addPassed_append hother
  rw [List.append_nil] at hnew
  rw [hnew, edgesTo, edgesTo, List.map_append, List.map_singleton, if_pos rfl, hlabel]
  refine congrArg (· ++ _) (List.map_congr_left fun i hi => ?_)
  have hij : i ≠ j := fun heq => hj (heq ▸ hi)
  rw [if_neg hij]

/-- Passing a variable on from one node, in whichever order the nodes have been found. -/
theorem addPassed_edgesTo {label : Nat → List String} (hx : x ∉ label j)
    (hlabel : j ∉ sources → label j = []) :
    addPassed j k x (edgesTo k label sources.eraseDups) =
      edgesTo k (fun i => if i = j then label i ++ [x] else label i)
        (sources ++ [j]).eraseDups := by
  rw [eraseDups_concat]
  split
  · next hj =>
    exact addPassed_edgesTo_of_mem (Distinct.nodup_eraseDups _) (List.mem_eraseDups.2 hj) hx
  · next hj => exact addPassed_edgesTo_of_not_mem (by rwa [List.mem_eraseDups]) (hlabel hj)

/-- Passing a variable on from several nodes, next to edges that enter other nodes. -/
theorem foldl_addPassed {label : Nat → List String} (hearlier : ∀ e ∈ earlier, e.target ≠ k)
    (hnodup : passers.Nodup) (hx : ∀ j ∈ passers, x ∉ label j)
    (hlabel : ∀ j ∈ passers, j ∉ sources → label j = []) :
    passers.foldl (fun edges j => addPassed j k x edges)
        (earlier ++ edgesTo k label sources.eraseDups) =
      earlier ++ edgesTo k (fun i => if i ∈ passers then label i ++ [x] else label i)
        (sources ++ passers).eraseDups := by
  induction passers generalizing sources label with
  | nil => simp
  | cons j passers ih =>
    rw [List.nodup_cons] at hnodup
    rw [List.forall_mem_cons] at hx hlabel
    have hne : ∀ i ∈ passers, i ≠ j := fun i hi heq => hnodup.1 (heq ▸ hi)
    rw [List.foldl_cons, addPassed_append fun e he h => hearlier e he h.2,
      addPassed_edgesTo hx.1 hlabel.1, ih hnodup.2, List.append_assoc, List.singleton_append]
    · refine congrArg (earlier ++ edgesTo k · _) (funext fun i => ?_)
      by_cases hij : i = j
      · subst hij
        simp [hnodup.1]
      · simp [hij]
    · intro i hi
      rw [if_neg (hne i hi)]
      exact hx.2 i hi
    · intro i hi hnot
      rw [if_neg (hne i hi)]
      exact hlabel.2 i hi fun hmem => hnot (List.mem_append_left _ hmem)

/-! ## The pass over the nodes -/

/-- The nodes up to a given one that pass a variable on. -/
def passersBelow (g : PassingGraph) (k : Nat) (x : String) : List Nat :=
  (List.range k).filter (g.passes · x)

theorem nodup_passersBelow (g : PassingGraph) (k : Nat) (x : String) :
    (g.passersBelow k x).Nodup :=
  List.nodup_range.filter _

theorem mem_passersBelow : j ∈ g.passersBelow k x ↔ j < k ∧ g.passes j x = true := by
  rw [passersBelow, List.mem_filter, List.mem_range]

theorem passersBelow_succ (k : Nat) :
    g.passersBelow (k + 1) x = g.passersBelow k x ++ if g.passes k x then [k] else [] := by
  rw [passersBelow, List.range_succ, List.filter_append, List.filter_singleton, passersBelow]
  cases g.passes k x <;> rfl

/-- What is wired when the first `n` nodes have been gone through, and those variables of the next
one that are in `vars`. -/
structure IsWired (g : PassingGraph) (n : Nat) (vars : List String) (w : Wiring) : Prop where
  /-- All edges that enter the first nodes have been found. Those that enter the next one come from
  the nodes that pass one of the variables, and their labels have those of the variables that the
  node passes. -/
  edges : w.edges = (List.range' 1 n).flatMap g.entering ++
    edgesTo (n + 1) (fun j => vars.filter (g.passes j))
      (vars.flatMap (g.passersBelow (n + 1))).eraseDups
  /-- A variable is passed on by the nodes so far that pass it, and by the next one if that is
  positive and the variable is one of `vars`. -/
  passers : ∀ x, (w.passers.get? x).getD [] = g.passersBelow (n + 1) x ++
    if (g.literal (n + 1)).isPositive ∧ x ∈ vars then [n + 1] else []

theorem isWired_start (g : PassingGraph) :
    g.IsWired 0 [] ⟨[], .ofList (g.known.map fun x => (x, [0]))⟩ where
  edges := rfl
  passers x := by
    rw [Table.get?_ofList_map]
    by_cases hx : x ∈ g.known <;> simp [passersBelow, passes, hx]

theorem target_ne_of_mem_entering {e : PassingEdge}
    (h : e ∈ (List.range' 1 n).flatMap g.entering) : e.target ≠ n + 1 := by
  obtain ⟨k, hk, he⟩ := List.mem_flatMap.1 h
  obtain ⟨j, -, rfl⟩ := mem_entering.1 he
  have hlt : k < 1 + n := (List.mem_range'_1.1 hk).2
  exact Nat.ne_of_lt (by rwa [Nat.add_comm])

/-- Nodes up to `n` pass a variable of the next node that has not been gone through. -/
theorem IsWired.get?_passers {w : Wiring} (h : g.IsWired n vars w) (hx : x ∉ vars) :
    (w.passers.get? x).getD [] = g.passersBelow (n + 1) x := by
  rw [h.passers, if_neg fun hmem => hx hmem.2, List.append_nil]

theorem lt_of_mem_flatMap_passersBelow (hj : j ∈ vars.flatMap (g.passersBelow k)) : j < k := by
  obtain ⟨x, -, hj⟩ := List.mem_flatMap.1 hj
  exact (mem_passersBelow.1 hj).1

/-- A node that has not been found passes none of the variables. -/
theorem filter_passes_eq_nil (hlt : j < k) (hj : j ∉ vars.flatMap (g.passersBelow k)) :
    vars.filter (g.passes j) = [] :=
  List.filter_eq_nil_iff.2 fun y hy hpasses =>
    hj (List.mem_flatMap.2 ⟨y, hy, mem_passersBelow.2 ⟨hlt, hpasses⟩⟩)

/-- A further variable makes the labels of the nodes longer that pass it. -/
theorem filter_passes_concat (hlt : j < k) :
    (vars ++ [x]).filter (g.passes j) =
      if j ∈ g.passersBelow k x then vars.filter (g.passes j) ++ [x]
      else vars.filter (g.passes j) := by
  rw [List.filter_append]
  by_cases hpasses : g.passes j x = true
  · rw [if_pos (mem_passersBelow.2 ⟨hlt, hpasses⟩), List.filter_cons_of_pos hpasses,
      List.filter_nil]
  · rw [if_neg fun hmem => hpasses (mem_passersBelow.1 hmem).2,
      List.filter_cons_of_neg hpasses, List.filter_nil, List.append_nil]

theorem IsWired.edges_connect {w : Wiring} (h : g.IsWired n vars w) (hx : x ∉ vars) :
    (g.connect (n + 1) w x).edges = (List.range' 1 n).flatMap g.entering ++
      edgesTo (n + 1) (fun j => (vars ++ [x]).filter (g.passes j))
        ((vars ++ [x]).flatMap (g.passersBelow (n + 1))).eraseDups := by
  have hself : (g.passersBelow (n + 1) x).filter (· ≠ n + 1) = g.passersBelow (n + 1) x :=
    List.filter_eq_self.2 fun j hj => by simpa using Nat.ne_of_lt (mem_passersBelow.1 hj).1
  have hearlier : ∀ e ∈ (List.range' 1 n).flatMap g.entering, e.target ≠ n + 1 := fun _ =>
    target_ne_of_mem_entering
  have hnone : ∀ j ∈ g.passersBelow (n + 1) x, j ∉ vars.flatMap (g.passersBelow (n + 1)) →
      vars.filter (g.passes j) = [] := fun j hj =>
    filter_passes_eq_nil (mem_passersBelow.1 hj).1
  have hfold := foldl_addPassed hearlier (g.nodup_passersBelow (n + 1) x)
    (fun j _ hmem => hx (List.mem_filter.1 hmem).1) hnone
  have hsources : vars.flatMap (g.passersBelow (n + 1)) ++ g.passersBelow (n + 1) x =
      (vars ++ [x]).flatMap (g.passersBelow (n + 1)) := by
    rw [List.flatMap_append, List.flatMap_singleton]
  rw [PassingGraph.connect, h.get?_passers hx]
  dsimp only
  rw [hself, h.edges, hfold, hsources]
  refine congrArg (_ ++ ·) (List.map_congr_left fun j hj => ?_)
  have hlt := lt_of_mem_flatMap_passersBelow (List.mem_eraseDups.1 hj)
  exact congrArg (PassingEdge.mk j (n + 1)) (filter_passes_concat hlt).symm

theorem IsWired.passers_connect {w : Wiring} (h : g.IsWired n vars w) (hx : x ∉ vars) (y : String) :
    ((g.connect (n + 1) w x).passers.get? y).getD [] = g.passersBelow (n + 1) y ++
      if (g.literal (n + 1)).isPositive ∧ y ∈ vars ++ [x] then [n + 1] else [] := by
  have hmem : n + 1 ∉ g.passersBelow (n + 1) x := fun hmem =>
    Nat.lt_irrefl _ (mem_passersBelow.1 hmem).1
  rw [PassingGraph.connect, h.get?_passers hx]
  dsimp only
  cases hl : (g.literal (n + 1)).isPositive with
  | false => simpa [hl] using h.passers y
  | true =>
    rw [if_pos ⟨rfl, hmem⟩, Table.get?_insert]
    by_cases hy : y = x
    · simp [hy]
    · rw [if_neg hy, h.passers y]
      simp [hl, hy]

/-- Going through a further variable of a node. -/
theorem IsWired.connect {w : Wiring} (h : g.IsWired n vars w) (hx : x ∉ vars) :
    g.IsWired n (vars ++ [x]) (g.connect (n + 1) w x) :=
  ⟨h.edges_connect hx, h.passers_connect hx⟩

theorem nodup_namedVars (l : Literal) : l.namedVars.Nodup :=
  (Distinct.nodup_eraseDups _).filter _

/-- Going through all variables of a node. -/
theorem IsWired.foldl_connect {w : Wiring} {more : List String} (h : g.IsWired n vars w)
    (hnodup : (vars ++ more).Nodup) :
    g.IsWired n (vars ++ more) (more.foldl (g.connect (n + 1)) w) := by
  induction more generalizing vars w with
  | nil => rwa [List.append_nil]
  | cons x more ih =>
    rw [List.append_cons] at hnodup ⊢
    refine ih (h.connect fun hx => ?_) hnodup
    exact (List.nodup_append'.1 (List.nodup_append'.1 hnodup).1).2.2 hx (.head _)

/-- A node that has been gone through passes its variables on if its literal is positive. -/
theorem IsWired.next {w : Wiring} (h : g.IsWired n (g.literal (n + 1)).namedVars w) :
    g.IsWired (n + 1) [] w where
  edges := by
    rw [h.edges, List.range'_1_concat, List.flatMap_append, List.flatMap_singleton,
      Nat.add_comm 1 n]
    exact (List.append_nil _).symm
  passers x := by
    rw [h.passers, passersBelow_succ (n + 1)]
    simp [passes]

theorem isWired_foldl {w : Wiring} {m : Nat} (h : g.IsWired n [] w) :
    g.IsWired (n + m) [] ((List.range' (n + 1) m).foldl
      (fun w k => (g.literal k).namedVars.foldl (g.connect k) w) w) := by
  induction m generalizing n w with
  | zero => exact h
  | succ m ih =>
    rw [List.range'_succ, List.foldl_cons, Nat.add_left_comm, Nat.add_comm m]
    have hnext := (h.foldl_connect (nodup_namedVars (g.literal (n + 1)))).next
    exact ih hnext

/-- The edges are those that enter the nodes, node by node. -/
theorem edges_eq (g : PassingGraph) : g.edges = g.order.flatMap g.entering := by
  have hedges := (isWired_foldl (m := g.literals.length) g.isWired_start).edges
  simp only [Nat.zero_add] at hedges
  exact hedges.trans (List.append_nil _)

theorem mem_edges_iff {e : PassingEdge} :
    e ∈ g.edges ↔ ∃ k ∈ g.order, ∃ j ∈ g.sources k, e = g.edge j k := by
  simp only [edges_eq, List.mem_flatMap, mem_entering]

theorem nodup_order (g : PassingGraph) : g.order.Nodup :=
  List.nodup_range'

/-- One node receives bindings from at most one edge of each other node. -/
theorem nodup_edges (g : PassingGraph) : (g.edges.map fun e => (e.source, e.target)).Nodup := by
  have hmap : (g.edges.map fun e => (e.source, e.target)) =
      g.order.flatMap fun k => (g.sources k).map fun j => (j, k) := by
    simp [edges_eq, List.map_flatMap, entering, edge, Function.comp_def]
  rw [hmap, List.nodup_flatMap]
  constructor
  · exact fun k _ => (Distinct.nodup_eraseDups _).map fun i j h => (Prod.mk.inj h).1
  · refine List.Pairwise.imp (fun {k m} hne pair hk hm => ?_) g.nodup_order
    obtain ⟨_, -, rfl⟩ := List.mem_map.1 hk
    obtain ⟨_, -, heq⟩ := List.mem_map.1 hm
    exact hne (Prod.mk.inj heq).2.symm

end PassingGraph

end Deduction
