import Mathlib.Logic.Relation
import Deduction.Proofs.Magic.Edges

/-!
# How bindings flow through a passing graph

The edges, the bound variables and the dependencies of a passing graph describe the same flow of
bindings, which goes from the head and the positive literals to literals that are called later
(`PassingGraph.isFlow_ofRule`): an edge is labeled with the variables that two nodes share, the
variables that are bound at a node are those that edges pass to it, and a node depends on the nodes
from which edges lead to it.
-/

namespace Deduction

namespace PassingGraph

variable {g : PassingGraph} {j k : Nat} {x : String}

/-! ## Dependencies -/

/-- There is an edge from one node to another. -/
def PassesTo (g : PassingGraph) (j k : Nat) : Prop :=
  ∃ e ∈ g.edges, e.source = j ∧ e.target = k

theorem passesTo_iff : g.PassesTo j k ↔ k ∈ g.order ∧ j ∈ g.sources k := by
  constructor
  · rintro ⟨e, he, rfl, rfl⟩
    obtain ⟨k, hk, j, hj, rfl⟩ := mem_edges_iff.1 he
    exact ⟨hk, hj⟩
  · rintro ⟨hk, hj⟩
    exact ⟨_, mem_edges_iff.2 ⟨k, hk, j, hj, rfl⟩, rfl, rfl⟩

/-- The search for dependencies keeps what holds of the nodes it starts with and carries over to
their sources. -/
theorem addSources_invariant {P : Nat → Prop} {found : List Nat} (hfound : ∀ i ∈ found, P i)
    (hstep : ∀ i, P i → ∀ j ∈ g.sources i, P j) : ∀ j ∈ g.addSources k found, P j := by
  induction k generalizing found with
  | zero => exact hfound
  | succ k ih =>
    rw [addSources]
    refine ih ?_
    split
    · next hk =>
      rw [List.forall_mem_append]
      exact ⟨hfound, fun j hj => hstep k (hfound k hk) j (List.mem_filter.1 hj).1⟩
    · exact hfound

/-- The search looks at each node below its bound that it finds. -/
theorem sources_subset_addSources {found : List Nat} {i : Nat} (hi : i ∈ g.addSources k found)
    (hlt : i < k) (hj : j ∈ g.sources i) : j ∈ g.addSources k found := by
  induction k generalizing found with
  | zero => exact absurd hlt (Nat.not_lt_zero i)
  | succ k ih =>
    rw [addSources] at hi ⊢
    rcases Nat.lt_or_eq_of_le (Nat.le_of_lt_succ hlt) with hlt | rfl
    · exact ih hi hlt
    · -- A node is found by the time it is looked at, as only later nodes lead to it.
      have hmem : i ∈ found := by
        rcases of_mem_addSources hi with hi | ⟨hlt, -⟩
        · split at hi
          · next h => exact h
          · next h => exact absurd hi h
        · exact absurd hlt (Nat.lt_irrefl i)
      rw [if_pos hmem]
      refine mem_addSources (List.mem_append.2 ?_)
      by_cases h : j ∈ found
      · exact .inl h
      · exact .inr (List.mem_filter.2 ⟨hj, by simpa using h⟩)

/-- Edges lead from nodes to later ones. -/
theorem lt_of_transGen (h : Relation.TransGen g.PassesTo j k) : j < k := by
  induction h with
  | single hpasses => exact (of_mem_sources (passesTo_iff.1 hpasses).2).1
  | tail _ hpasses ih =>
    exact Nat.lt_trans ih (of_mem_sources (passesTo_iff.1 hpasses).2).1

/-- The head receives nothing. -/
theorem sources_zero (g : PassingGraph) : g.sources 0 = [] :=
  List.eq_nil_iff_forall_not_mem.2 fun _ hj => Nat.not_lt_zero _ (of_mem_sources hj).1

/-- Nodes that pass bindings on to a node are nodes of the graph. -/
theorem mem_order_of_lt (hk : k ∈ g.order) (hlt : j < k) (hj : j ≠ 0) : j ∈ g.order := by
  rw [mem_order] at hk ⊢
  omega

/-- A node depends on the nodes from which edges lead to it, in one step or several. -/
theorem mem_depends_iff (hk : k ∈ 0 :: g.order) :
    j ∈ g.depends k ↔ Relation.TransGen g.PassesTo j k := by
  rcases List.mem_cons.1 hk with rfl | hk
  · -- Nothing comes before the head.
    exact iff_of_false (fun hj => Nat.not_lt_zero j (of_mem_depends hj).1)
      (fun h => Nat.not_lt_zero j (lt_of_transGen h))
  constructor
  · -- From the sources of the node, the search goes to the sources of what it has found.
    refine addSources_invariant (P := fun j => Relation.TransGen g.PassesTo j k) (fun j hj =>
      .single (passesTo_iff.2 ⟨hk, hj⟩)) (fun i hi j hj => .head (passesTo_iff.2 ⟨?_, hj⟩) hi) j
    refine mem_order_of_lt hk (lt_of_transGen hi) fun hzero => ?_
    rw [hzero, sources_zero] at hj
    cases hj
  · intro h
    induction h using Relation.TransGen.head_induction_on with
    | single hpasses => exact sources_subset_depends (passesTo_iff.1 hpasses).2
    | head hpasses htrans ih =>
      exact sources_subset_addSources ih (lt_of_transGen htrans) (passesTo_iff.1 hpasses).2

/-! ## The flow of bindings -/

/-- The node has the variable: it occurs in the literal of the node, or for the head, is bound on
entry. -/
def HasVar (g : PassingGraph) (j : Nat) (x : String) : Prop :=
  if j = 0 then x ∈ g.known else x ∈ (g.literal j).vars

/-- The named variables that a node has in common with a node that may pass them. -/
structure Shares (g : PassingGraph) (j k : Nat) (x : String) : Prop where
  /-- The variable occurs in the literal that receives it. -/
  occurs : x ∈ (g.literal k).vars
  /-- The variable is not anonymous. -/
  named : isAnonymous x = false
  /-- The node that passes the variable has it as well. -/
  has : g.HasVar j x

theorem passes_iff (hj : g.IsSource j) (hx : isAnonymous x = false) :
    g.passes j x = true ↔ g.HasVar j x := by
  rw [passes, HasVar]
  split
  · exact decide_eq_true_iff
  · next hne => simp [hj.resolve_left hne, mem_namedVars, hx]

theorem mem_namedVars_and_passes_iff (hj : g.IsSource j) :
    x ∈ (g.literal k).namedVars ∧ g.passes j x = true ↔ g.Shares j k x := by
  rw [mem_namedVars]
  constructor
  · rintro ⟨⟨hoccurs, hnamed⟩, hpasses⟩
    exact ⟨hoccurs, hnamed, (passes_iff hj hnamed).1 hpasses⟩
  · rintro ⟨hoccurs, hnamed, hhas⟩
    exact ⟨⟨hoccurs, hnamed⟩, (passes_iff hj hnamed).2 hhas⟩

theorem mem_sources_iff_shares :
    j ∈ g.sources k ↔ j < k ∧ g.IsSource j ∧ ∃ x, g.Shares j k x := by
  rw [mem_sources_iff]
  constructor
  · rintro ⟨hlt, x, hx, hpasses⟩
    have hj := isSource_of_passes hpasses
    exact ⟨hlt, hj, x, (mem_namedVars_and_passes_iff hj).1 ⟨hx, hpasses⟩⟩
  · rintro ⟨hlt, hj, x, hshares⟩
    exact ⟨hlt, x, (mem_namedVars_and_passes_iff hj).2 hshares⟩

theorem mem_vars_edge_iff (hj : g.IsSource j) : x ∈ (g.edge j k).vars ↔ g.Shares j k x := by
  rw [edge, List.mem_filter, mem_namedVars_and_passes_iff hj]

theorem mem_boundAt_iff_edges (hk : k ∈ g.order) :
    x ∈ g.boundAt k ↔ ∃ e ∈ g.edges, e.target = k ∧ x ∈ e.vars := by
  rw [mem_boundAt_iff]
  constructor
  · rintro ⟨j, hj, hx⟩
    exact ⟨_, mem_edges_iff.2 ⟨k, hk, j, hj, rfl⟩, rfl, hx⟩
  · rintro ⟨e, he, rfl, hx⟩
    obtain ⟨k, -, j, hj, rfl⟩ := mem_edges_iff.1 he
    exact ⟨j, hj, hx⟩

/-- What is bound at a node is bound on entry, or occurs in an earlier positive literal. -/
theorem mem_boundAt_iff_vars (hk : k ∈ g.order) :
    x ∈ g.boundAt k ↔ x ∈ (g.literal k).vars ∧ isAnonymous x = false ∧
      (x ∈ g.known ∨ ∃ j ∈ g.order, j < k ∧ (g.literal j).isPositive = true ∧
        x ∈ (g.literal j).vars) := by
  have hpos : 0 < k := (mem_order.1 hk).1
  simp only [boundAt, List.mem_filter, mem_namedVars, List.any_eq_true, List.mem_range, and_assoc]
  refine and_congr_right fun _ => and_congr_right fun hnamed => ?_
  constructor
  · rintro ⟨j, hlt, hpasses⟩
    have hj := isSource_of_passes hpasses
    have hhas := (passes_iff hj hnamed).1 hpasses
    rw [HasVar] at hhas
    split at hhas
    · exact .inl hhas
    · next hne =>
      exact .inr ⟨j, mem_order_of_lt hk hlt hne, hlt, hj.resolve_left hne, hhas⟩
  · rintro (hknown | ⟨j, hj, hlt, hpositive, hx⟩)
    · exact ⟨0, hpos, (passes_iff (.inl rfl) hnamed).2 (by rwa [HasVar, if_pos rfl])⟩
    · have hne : j ≠ 0 := Nat.ne_of_gt (mem_order.1 hj).1
      exact ⟨j, hlt, (passes_iff (.inr hpositive) hnamed).2 (by rwa [HasVar, if_neg hne])⟩

/-- Nodes are numbered in the order of calls. -/
theorem rank_eq (hk : k ∈ 0 :: g.order) : g.rank k = k := by
  have hnodes : 0 :: g.order = List.range' 0 (g.literals.length + 1) := by
    rw [List.range'_succ, Nat.zero_add, order]
  rw [hnodes] at hk
  have hlt : k < (List.range' 0 (g.literals.length + 1)).length := by
    rw [List.length_range']
    simpa using hk
  have hidx := (List.nodup_range' (s := 0) (n := g.literals.length + 1)).idxOf_getElem k hlt
  rwa [List.getElem_range', Nat.zero_add, Nat.one_mul, ← hnodes] at hidx

/-- The edges, the bound variables and the dependencies of a passing graph describe one flow of
bindings, through the literals of a body that is called with some variables bound. -/
structure IsFlow (g : PassingGraph) (head : Atom) (body : List Literal) (known : List String) :
    Prop where
  /-- The head is node `0`, and has the variables that are bound on entry. -/
  head : g.literal 0 = .positive head ∧ ∀ x, g.HasVar 0 x ↔ x ∈ known
  /-- The other nodes have the distinct literals of the body, in the order of calls. -/
  literals : g.order.map g.literal = calledLiterals known body
  /-- A position of the body has the node of its literal. -/
  nodeAt : ∀ i l, body[i]? = some l → g.nodeAt i ∈ g.order ∧ g.literal (g.nodeAt i) = l
  /-- Equal literals, and no others, share a node. -/
  nodeAt_inj : ∀ i j, i < body.length → j < body.length →
    (g.nodeAt i = g.nodeAt j ↔ body[i]? = body[j]?)
  /-- There are no further nodes. -/
  exists_nodeAt : ∀ k ∈ g.order, ∃ i < body.length, g.nodeAt i = k
  /-- An edge goes from the head or a positive node to a body node of higher rank. -/
  edges : ∀ e ∈ g.edges,
    (e.source = 0 ∨ e.source ∈ g.order ∧ (g.literal e.source).isPositive = true) ∧
      e.target ∈ g.order ∧ g.rank e.source < g.rank e.target
  /-- There is at most one edge from a node to another. -/
  unique : (g.edges.map fun e => (e.source, e.target)).Nodup
  /-- The label of an edge is not empty. -/
  labeled : ∀ e ∈ g.edges, e.vars ≠ []
  /-- The label has the named variables that both nodes have. -/
  labels : ∀ e ∈ g.edges, ∀ x, x ∈ e.vars ↔ g.Shares e.source e.target x
  /-- There is an edge wherever a variable can be passed. -/
  passesTo : ∀ j k, (j = 0 ∨ j ∈ g.order ∧ (g.literal j).isPositive = true) → k ∈ g.order →
    g.rank j < g.rank k → ∀ x, g.Shares j k x → g.PassesTo j k
  /-- What is bound at a node is bound on entry, or occurs in an earlier positive literal. -/
  boundAt : ∀ k ∈ g.order, ∀ x, x ∈ g.boundAt k ↔
    x ∈ (g.literal k).vars ∧ isAnonymous x = false ∧
      (x ∈ known ∨ ∃ j ∈ g.order, g.rank j < g.rank k ∧ (g.literal j).isPositive = true ∧
        x ∈ (g.literal j).vars)
  /-- What is bound at a node is what the edges that enter it pass. -/
  boundAt_edges : ∀ k ∈ g.order, ∀ x, x ∈ g.boundAt k ↔ ∃ e ∈ g.edges, e.target = k ∧ x ∈ e.vars
  /-- A node depends on those nodes from which edges lead to it, in one step or several. -/
  depends : ∀ k ∈ 0 :: g.order, ∀ j, j ∈ g.depends k ↔ Relation.TransGen g.PassesTo j k
  /-- Whatever a node depends on has a lower rank. -/
  rank_depends : ∀ k ∈ 0 :: g.order, ∀ j ∈ g.depends k, g.rank j < g.rank k

/-- Edges go from the head or a positive node to a later node that shares variables with it, which
make up the label. -/
theorem of_mem_edges {e : PassingEdge} (h : e ∈ g.edges) :
    e.target ∈ g.order ∧ e.source < e.target ∧ g.IsSource e.source ∧
      (∃ x, g.Shares e.source e.target x) ∧ ∀ x, x ∈ e.vars ↔ g.Shares e.source e.target x := by
  obtain ⟨k, hk, j, hj, rfl⟩ := mem_edges_iff.1 h
  obtain ⟨hlt, hsource, hshares⟩ := mem_sources_iff_shares.1 hj
  exact ⟨hk, hlt, hsource, hshares, fun x => mem_vars_edge_iff hsource⟩

theorem mem_order_of_isSource (hk : k ∈ g.order) (hlt : j < k) (hj : g.IsSource j) :
    j = 0 ∨ j ∈ g.order ∧ (g.literal j).isPositive = true := by
  by_cases hzero : j = 0
  · exact .inl hzero
  · exact .inr ⟨mem_order_of_lt hk hlt hzero, hj.resolve_left hzero⟩

/-- Ranks order nodes as their numbers do. -/
theorem rank_lt_rank_iff (hj : j = 0 ∨ j ∈ g.order) (hk : k ∈ g.order) :
    g.rank j < g.rank k ↔ j < k := by
  rw [rank_eq (List.mem_cons.2 hj), rank_eq (.tail _ hk)]

section OfRule

variable (head : Atom) (body : List Literal) (known : List String)

theorem literal_nodeAt_ofRule {i : Nat} {l : Literal} (h : body[i]? = some l) :
    (ofRule head body known).nodeAt i ∈ (ofRule head body known).order ∧
      (ofRule head body known).literal ((ofRule head body known).nodeAt i) = l := by
  rw [nodeAt_ofRule h]
  exact literal_node (mem_literals_ofRule.2 (List.mem_of_getElem? h))

theorem nodeAt_ofRule_inj {i j : Nat} (hi : i < body.length) (hj : j < body.length) :
    (ofRule head body known).nodeAt i = (ofRule head body known).nodeAt j ↔
      body[i]? = body[j]? := by
  have hi := List.getElem?_eq_getElem hi
  have hj := List.getElem?_eq_getElem hj
  rw [hi, hj]
  constructor
  · intro heq
    rw [← (literal_nodeAt_ofRule head body known hi).2, heq,
      (literal_nodeAt_ofRule head body known hj).2]
  · intro heq
    rw [nodeAt_ofRule hi, nodeAt_ofRule hj, Option.some.inj heq]

theorem exists_nodeAt_ofRule (hk : k ∈ (ofRule head body known).order) :
    ∃ i < body.length, (ofRule head body known).nodeAt i = k := by
  obtain ⟨i, hi⟩ := List.mem_iff_getElem?.1 (mem_literals_ofRule.1 (literal_mem hk))
  refine ⟨i, (List.getElem?_eq_some_iff.1 hi).1, ?_⟩
  rw [nodeAt_ofRule hi, node_literal (nodup_literals_ofRule head body known) hk]

/-- The bindings of a rule flow through its passing graph. -/
theorem isFlow_ofRule : (ofRule head body known).IsFlow head body known := by
  constructor
  case head => exact ⟨rfl, fun x => by rw [HasVar, if_pos rfl]; rfl⟩
  case literals => rw [map_literal_order, literals_ofRule]
  case nodeAt => exact fun i l => literal_nodeAt_ofRule head body known
  case nodeAt_inj => exact fun i j => nodeAt_ofRule_inj head body known
  case exists_nodeAt => exact fun k => exists_nodeAt_ofRule head body known
  case edges =>
    intro e he
    obtain ⟨htarget, hlt, hsource, -⟩ := of_mem_edges he
    have hsource := mem_order_of_isSource htarget hlt hsource
    exact ⟨hsource, htarget, (rank_lt_rank_iff (hsource.imp_right And.left) htarget).2 hlt⟩
  case unique => exact nodup_edges _
  case labeled =>
    intro e he hnil
    obtain ⟨-, -, -, ⟨x, hx⟩, hlabel⟩ := of_mem_edges he
    have hmem := (hlabel x).2 hx
    rw [hnil] at hmem
    cases hmem
  case labels => exact fun e he => (of_mem_edges he).2.2.2.2
  case passesTo =>
    intro j k hj hk hlt x hx
    have hlt := (rank_lt_rank_iff (hj.imp_right And.left) hk).1 hlt
    exact passesTo_iff.2 ⟨hk, mem_sources_iff_shares.2 ⟨hlt, hj.imp_right And.right, x, hx⟩⟩
  case boundAt =>
    intro k hk x
    -- Lower ranks are lower numbers.
    rw [mem_boundAt_iff_vars hk]
    refine and_congr_right fun _ => and_congr_right fun _ => or_congr_right ?_
    refine exists_congr fun j => and_congr_right fun hj => ?_
    rw [rank_lt_rank_iff (.inr hj) hk]
  case boundAt_edges => exact fun k hk x => mem_boundAt_iff_edges hk
  case depends => exact fun k hk j => mem_depends_iff hk
  case rank_depends =>
    intro k hk j hj
    obtain ⟨hlt, hsource⟩ := of_mem_depends hj
    rcases List.mem_cons.1 hk with rfl | hk
    · exact absurd hlt (Nat.not_lt_zero j)
    · have hsource := mem_order_of_isSource hk hlt hsource
      exact (rank_lt_rank_iff (hsource.imp_right And.left) hk).2 hlt

end OfRule

end PassingGraph

end Deduction
