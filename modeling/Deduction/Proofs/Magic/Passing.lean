import Mathlib.Data.List.GetD
import Mathlib.Data.List.Nodup
import Deduction.Distinct
import Deduction.Magic.Adornment
import Deduction.Proofs.Lists

/-!
# Nodes of passing graphs

The nodes of a passing graph are the distinct literals of a body (`literals_ofRule`), whose positions
have the nodes of their literals (`PassingGraph.nodeAt_ofRule`). Bindings only go from a node to later ones: what a node depends on comes before it, and is the head
or a positive literal (`PassingGraph.of_mem_sources`, `of_mem_depends`). Adorning a body keeps its
nodes (`mem_adornedBody`, `mem_select_adornedBody`).
-/

namespace Deduction

/-! ## The order of literals -/

theorem orderFrom_perm (known : List String) (waiting body : List (Literal × Nat)) :
    (orderFrom known waiting body).Perm (waiting ++ body) := by
  induction body generalizing known waiting with
  | nil => rw [orderFrom, List.append_nil]
  | cons x body ih =>
    obtain ⟨l, i⟩ := x
    rw [orderFrom]
    split
    · -- The literals that are released and those that go on waiting were waiting before.
      simp only [List.partition_eq_filter_filter]
      refine .trans (.cons (l, i) ?_) List.perm_middle.symm
      refine ((ih _ _).append_left _).trans ?_
      rw [← List.append_assoc]
      exact (List.filter_append_perm _ waiting).append_right body
    -- A literal that is not positive comes at once or waits.
    · split
      · exact ((ih _ _).cons (l, i)).trans List.perm_middle.symm
      · simpa using ih known (waiting ++ [(l, i)])

/-- Ordering a body keeps the positions of its literals. -/
theorem orderLiterals_perm (known : List String) (body : List Literal) :
    (orderLiterals known body).Perm body.zipIdx :=
  orderFrom_perm known [] body.zipIdx

/-- The distinct literals of a body in the order in which they are called. -/
def calledLiterals (known : List String) (body : List Literal) : List Literal :=
  ((orderLiterals known body).map (·.1)).eraseDups

/-! ## The nodes of a body -/

namespace PassingGraph

/-- Some literals of a body of the given length have their nodes. -/
structure Placement.Has (s : Placement) (length : Nat) (placed : List (Literal × Nat)) :
    Prop where
  /-- The nodes belong to the distinct literals, in the order in which they come first. -/
  literals : s.literals = (placed.map (·.1)).eraseDups
  /-- Every position of the body has a place. -/
  length_places : s.places.length = length
  /-- The place of a literal holds its node. -/
  places : ∀ x ∈ placed, s.places[x.2]? = some (s.literals.idxOf x.1 + 1)

theorem Placement.Has.place {s : Placement} {length i : Nat} {placed : List (Literal × Nat)}
    (h : s.Has length placed) (l : Literal) (hi : i < length) (hnew : ∀ x ∈ placed, x.2 ≠ i) :
    (s.place l i).Has length (placed ++ [(l, i)]) := by
  have hmem : ∀ m, m ∈ s.literals ↔ m ∈ placed.map (·.1) := fun m => by
    rw [h.literals, List.mem_eraseDups]
  -- A literal that has a node keeps it.
  have hkeep : ∀ m ∈ s.literals, (s.place l i).literals.idxOf m = s.literals.idxOf m := by
    intro m hm
    rw [Placement.place]
    split
    · rfl
    · exact List.idxOf_append_of_mem hm
  constructor
  · rw [List.map_append, List.map_singleton, eraseDups_concat, ← h.literals, Placement.place]
    simp only [hmem]
  · rw [Placement.place, List.length_set, h.length_places]
  · intro x hx
    rcases List.mem_append.1 hx with hx | hx
    · rw [hkeep _ ((hmem _).2 (List.mem_map_of_mem hx)), Placement.place,
        List.getElem?_set_ne (hnew x hx).symm, h.places x hx]
    · obtain rfl := List.mem_singleton.1 hx
      rw [Placement.place, List.getElem?_set_self (h.length_places ▸ hi)]

theorem Placement.has_foldl {length : Nat} {placed : List (Literal × Nat)}
    (hlt : ∀ x ∈ placed, x.2 < length) (hnodup : (placed.map (·.2)).Nodup) :
    (placed.foldl (fun s (l, i) => s.place l i)
      (⟨[], List.replicate length 0⟩ : Placement)).Has length placed := by
  induction placed using List.reverseRecOn with
  | nil => exact ⟨rfl, List.length_replicate, nofun⟩
  | append_singleton placed x ih =>
    rw [List.forall_mem_append, List.forall_mem_singleton] at hlt
    rw [List.map_append, List.nodup_append'] at hnodup
    rw [List.foldl_append]
    refine (ih hlt.1 hnodup.1).place x.1 hlt.2 fun y hy heq => ?_
    exact hnodup.2.2 (List.mem_map_of_mem hy) (List.mem_singleton.2 heq)

theorem has_ofRule (head : Atom) (body : List Literal) (known : List String) :
    (⟨(ofRule head body known).literals, (ofRule head body known).places⟩ : Placement).Has
      body.length (orderLiterals known body) := by
  have hperm := orderLiterals_perm known body
  refine Placement.has_foldl (fun x hx => ?_) ?_
  · exact (List.mem_zipIdx' (hperm.mem_iff.1 hx)).1
  · rw [(hperm.map _).nodup_iff, List.zipIdx_map_snd]
    exact List.nodup_range'

end PassingGraph

theorem literals_ofRule (head : Atom) (body : List Literal) (known : List String) :
    (PassingGraph.ofRule head body known).literals = calledLiterals known body :=
  (PassingGraph.has_ofRule head body known).literals

theorem mem_literals_ofRule {head : Atom} {body : List Literal} {known : List String}
    {l : Literal} : l ∈ (PassingGraph.ofRule head body known).literals ↔ l ∈ body := by
  have hperm := (orderLiterals_perm known body).map (·.1)
  rw [List.zipIdx_map_fst] at hperm
  rw [literals_ofRule, calledLiterals, List.mem_eraseDups]
  exact hperm.mem_iff

theorem nodup_literals_ofRule (head : Atom) (body : List Literal) (known : List String) :
    (PassingGraph.ofRule head body known).literals.Nodup := by
  rw [literals_ofRule]
  exact Distinct.nodup_eraseDups _

namespace PassingGraph

variable {g : PassingGraph} {i j k : Nat} {x : String} {l : Literal} {derived : List Predicate}
  {nodes : List Nat}

/-! ## Nodes and literals -/

theorem mem_order : k ∈ g.order ↔ 1 ≤ k ∧ k < 1 + g.literals.length :=
  List.mem_range'_1

/-- The literal at a position belongs to the next node. -/
theorem getElem?_literals_iff : g.literals[i]? = some l ↔ i + 1 ∈ g.order ∧ g.literal (i + 1) = l := by
  have hnode : i + 1 ∈ g.order ↔ i < g.literals.length := by
    rw [mem_order]
    omega
  rw [hnode, literal]
  constructor
  · intro h
    exact ⟨(List.getElem?_eq_some_iff.1 h).1, by rw [List.getD_eq_getElem?_getD, h]; rfl⟩
  · rintro ⟨hlt, rfl⟩
    rw [List.getD_eq_getElem _ _ hlt, List.getElem?_eq_getElem hlt]

theorem map_literal_order (g : PassingGraph) : g.order.map g.literal = g.literals := by
  refine List.ext_getElem (by rw [List.length_map, order, List.length_range']) fun i hi hi' => ?_
  have hlt : i < g.order.length := by rwa [List.length_map] at hi
  have hnode : g.order[i] = i + 1 := by simp [order, Nat.add_comm]
  rw [List.getElem_map, hnode, literal, List.getD_eq_getElem _ _ hi']

theorem literal_mem (h : k ∈ g.order) : g.literal k ∈ g.literals := by
  rw [← map_literal_order]
  exact List.mem_map_of_mem h

theorem node_eq (h : l ∈ g.literals) : g.node l = g.literals.idxOf l + 1 := by
  obtain ⟨i, hi⟩ := Option.isSome_iff_exists.1 (List.isSome_idxOf?.2 h)
  rw [node, node?, List.idxOf_eq_getD_idxOf?, hi, Option.map_some, Option.getD_some,
    Option.getD_some]

/-- A literal of the body is the literal of its node. -/
theorem literal_node (h : l ∈ g.literals) : g.node l ∈ g.order ∧ g.literal (g.node l) = l := by
  rw [node_eq h]
  exact getElem?_literals_iff.1 (List.getElem?_idxOf h)

/-- A position of the body has the node of its literal. -/
theorem nodeAt_ofRule {head : Atom} {body : List Literal} {known : List String}
    (h : body[i]? = some l) : (ofRule head body known).nodeAt i = (ofRule head body known).node l := by
  have hmem : (l, i) ∈ orderLiterals known body :=
    (orderLiterals_perm known body).mem_iff.2 (List.mem_zipIdx_iff_getElem?.2 h)
  have hplace := (has_ofRule head body known).places _ hmem
  rw [node_eq (mem_literals_ofRule.2 (List.mem_of_getElem? h)), nodeAt,
    List.getD_eq_getElem?_getD, hplace, Option.getD_some]

/-- The node of a literal is the only one that has it. -/
theorem node_literal (hnodup : g.literals.Nodup) (h : k ∈ g.order) : g.node (g.literal k) = k := by
  obtain ⟨i, rfl⟩ := Nat.exists_eq_add_of_le' (mem_order.1 h).1
  obtain ⟨hlt, hi⟩ := List.getElem?_eq_some_iff.1 (getElem?_literals_iff.2 ⟨h, rfl⟩)
  rw [node_eq (literal_mem h), ← hi, hnodup.idxOf_getElem]

/-- The literal of a node in the adorned body. -/
def adorned (g : PassingGraph) (derived : List Predicate) (k : Nat) : Literal :=
  (g.literal k).adorn derived (g.boundAt k)

theorem getElem?_adornedBody :
    (g.adornedBody derived)[i]? =
      g.literals[i]?.map fun l => l.adorn derived (g.boundAt (i + 1)) := by
  have hliterals : g.literals[i]? = g.order[i]?.map g.literal := by
    rw [← List.getElem?_map, map_literal_order]
  rw [adornedBody, List.getElem?_map, hliterals, Option.map_map]
  -- Nodes are counted from one, positions from zero.
  cases hi : g.order[i]? with
  | none => rfl
  | some k =>
    obtain ⟨hlt, hk⟩ := List.getElem?_eq_some_iff.1 hi
    obtain rfl : k = i + 1 := by simp [← hk, order, Nat.add_comm]
    rfl

theorem mem_zipIdx_adornedBody :
    (l, k) ∈ (g.adornedBody derived).zipIdx 1 ↔ k ∈ g.order ∧ l = g.adorned derived k := by
  rw [List.mk_mem_zipIdx_iff_le_and_getElem?_sub, getElem?_adornedBody, Option.map_eq_some_iff]
  simp only [getElem?_literals_iff]
  constructor
  · rintro ⟨hpos, m, ⟨hk, rfl⟩, rfl⟩
    rw [Nat.sub_add_cancel hpos] at hk ⊢
    exact ⟨hk, rfl⟩
  · rintro ⟨hk, rfl⟩
    have hpos : 1 ≤ k := (mem_order.1 hk).1
    refine ⟨hpos, g.literal k, ?_⟩
    rw [Nat.sub_add_cancel hpos]
    exact ⟨⟨hk, rfl⟩, rfl⟩

theorem mem_adornedBody :
    l ∈ g.adornedBody derived ↔ ∃ k ∈ g.order, l = g.adorned derived k := by
  rw [adornedBody, List.mem_map]
  exact exists_congr fun k => and_congr_right fun _ => eq_comm

theorem mem_select_adornedBody :
    l ∈ select (g.adornedBody derived) nodes ↔
      ∃ k ∈ g.order, k ∈ nodes ∧ l = g.adorned derived k := by
  simp only [select, List.mem_map, List.mem_filter, Prod.exists, mem_zipIdx_adornedBody,
    decide_eq_true_eq]
  constructor
  · rintro ⟨_, k, ⟨⟨hk, rfl⟩, hmem⟩, rfl⟩
    exact ⟨k, hk, hmem, rfl⟩
  · rintro ⟨k, hk, hmem, rfl⟩
    exact ⟨_, k, ⟨⟨hk, rfl⟩, hmem⟩, rfl⟩

/-! ## Sources -/

/-- A node that passes bindings is the head or a positive literal. -/
def IsSource (g : PassingGraph) (j : Nat) : Prop :=
  j = 0 ∨ (g.literal j).isPositive = true

theorem isSource_of_passes (h : g.passes j x = true) : g.IsSource j := by
  rw [passes] at h
  split at h
  · next hzero => exact .inl hzero
  · exact .inr (Bool.and_eq_true_iff.1 h).1

theorem mem_sources_iff :
    j ∈ g.sources k ↔ j < k ∧ ∃ x ∈ (g.literal k).namedVars, g.passes j x = true := by
  simp only [sources, List.mem_eraseDups, List.mem_flatMap, List.mem_filter, List.mem_range]
  exact ⟨fun ⟨x, hx, hlt, hpasses⟩ => ⟨hlt, x, hx, hpasses⟩,
    fun ⟨hlt, x, hx, hpasses⟩ => ⟨x, hx, hlt, hpasses⟩⟩

theorem of_mem_sources (h : j ∈ g.sources k) : j < k ∧ g.IsSource j := by
  obtain ⟨hlt, x, -, hpasses⟩ := mem_sources_iff.1 h
  exact ⟨hlt, isSource_of_passes hpasses⟩

theorem mem_addSources {found : List Nat} (h : j ∈ found) : j ∈ g.addSources k found := by
  induction k generalizing found with
  | zero => exact h
  | succ k ih =>
    rw [addSources]
    split
    · exact ih (List.mem_append_left _ h)
    · exact ih h

theorem sources_subset_depends (h : j ∈ g.sources k) : j ∈ g.depends k :=
  mem_addSources h

theorem of_mem_addSources {found : List Nat} (h : j ∈ g.addSources k found) :
    j ∈ found ∨ j < k ∧ g.IsSource j := by
  induction k generalizing found with
  | zero => exact .inl h
  -- Nodes are looked at from the last one down: what `k` adds comes before it.
  | succ k ih =>
    rw [addSources] at h
    rcases ih h with h | ⟨hlt, hsource⟩
    · split at h
      · rcases List.mem_append.1 h with h | h
        · exact .inl h
        · obtain ⟨hlt, hsource⟩ := of_mem_sources (List.mem_filter.1 h).1
          exact .inr ⟨Nat.lt_succ_of_lt hlt, hsource⟩
      · exact .inl h
    · exact .inr ⟨Nat.lt_succ_of_lt hlt, hsource⟩

/-- Whatever a node depends on comes before it. -/
theorem of_mem_depends (h : j ∈ g.depends k) : j < k ∧ g.IsSource j :=
  (of_mem_addSources h).elim of_mem_sources id

/-- The literals that a node waits for before it passes bindings on belong to earlier positive nodes
than the one that receives them. -/
theorem of_mem_select_source (hlt : j < k) (hsource : g.IsSource j)
    (h : l ∈ select (g.adornedBody derived) (j :: g.depends j)) :
    ∃ i ∈ g.order, i < k ∧ (g.literal i).isPositive = true ∧ l = g.adorned derived i := by
  obtain ⟨i, hi, hmem, rfl⟩ := mem_select_adornedBody.1 h
  have hbefore : i < k ∧ g.IsSource i := by
    rcases List.mem_cons.1 hmem with rfl | hmem
    · exact ⟨hlt, hsource⟩
    · obtain ⟨hlt', hsource'⟩ := of_mem_depends hmem
      exact ⟨Nat.lt_trans hlt' hlt, hsource'⟩
  -- The head is a source as well, but it is no node of the body.
  have hne : i ≠ 0 := by
    have := (mem_order.1 hi).1
    omega
  exact ⟨i, hi, hbefore.1, hbefore.2.resolve_left hne, rfl⟩

/-! ## Bound variables -/

theorem mem_namedVars : x ∈ l.namedVars ↔ x ∈ l.vars ∧ isAnonymous x = false := by
  rw [Literal.namedVars, List.mem_filter, Bool.not_eq_true']

theorem not_isAnonymous_of_mem_namedVars (h : x ∈ l.namedVars) : isAnonymous x = false :=
  (mem_namedVars.1 h).2

theorem not_isAnonymous_of_mem_boundAt (h : x ∈ g.boundAt k) : isAnonymous x = false :=
  not_isAnonymous_of_mem_namedVars (List.mem_filter.1 h).1

theorem mem_enteringBySource {e : PassingEdge} :
    e ∈ g.enteringBySource k ↔ e ∈ g.entering k :=
  List.mem_mergeSort

theorem mem_entering {e : PassingEdge} : e ∈ g.entering k ↔ ∃ j ∈ g.sources k, e = g.edge j k := by
  simp only [entering, List.mem_map, eq_comm]

/-- A variable is bound at a node if a node that it has bindings from passes it. -/
theorem mem_boundAt_iff : x ∈ g.boundAt k ↔ ∃ j ∈ g.sources k, x ∈ (g.edge j k).vars := by
  simp only [boundAt, edge, List.mem_filter, List.any_eq_true, mem_sources_iff, List.mem_range]
  constructor
  · rintro ⟨hx, j, hj, hpasses⟩
    exact ⟨j, ⟨hj, x, hx, hpasses⟩, hx, hpasses⟩
  · rintro ⟨j, ⟨hj, -⟩, hx, hpasses⟩
    exact ⟨hx, j, hj, hpasses⟩

/-- The edges that enter a node come from its sources, and pass named variables. -/
theorem of_mem_enteringBySource {e : PassingEdge} (h : e ∈ g.enteringBySource k) :
    (e.source < k ∧ g.IsSource e.source) ∧ ∀ x ∈ e.vars, isAnonymous x = false := by
  obtain ⟨j, hj, rfl⟩ := mem_entering.1 (mem_enteringBySource.1 h)
  exact ⟨of_mem_sources hj, fun x hx => not_isAnonymous_of_mem_namedVars (List.mem_filter.1 hx).1⟩

end PassingGraph

end Deduction
