import Deduction.Proofs.LowLink
import Deduction.Strata

/-!
# Correctness of the stratification

A program is rejected exactly if some predicate depends on its own negation, and otherwise gets the
least assignment of strata that its rules allow:

* `stratify_eq_error_iff`: rejection means a closed walk with a negative dependency.
* `isLevelling_stratum`, `stratum_le`: the strata respect the rules, and are the least that do.
* `isLayered_of_stratify`: no layer derives a predicate that an earlier one uses.
* `stratify_spec`: all that is known of the outcome.

The strata come from one pass over the components of the dependency graph. When the pass comes to a
component, those on which it depends have their strata, and keep them. So the strata solve the
equation by which the pass computes them (`DependencyGraph.stratumOf_le_iff`): a component gets the
least stratum that its dependencies on other components allow. What its members demand of each other
is met as well, since without a cycle through negation no dependency within a component is negative;
and an assignment that respects the rules gives the same value to all members of a component, so
that it is nowhere lower.
-/

namespace Deduction

/-! ## Walks along dependencies -/

/-- A rule for a predicate has a dependency in its body. -/
inductive Depends (rules : List Rule) : Predicate → Dependency → Prop
  | positive {r : Rule} {a : Atom} : r ∈ rules → .positive a ∈ r.body →
      Depends rules r.head.predicate ⟨a.predicate, false⟩
  | negative {r : Rule} {a : Atom} : r ∈ rules → .negative a ∈ r.body →
      Depends rules r.head.predicate ⟨a.predicate, true⟩

/-- The dependencies lead from one predicate to another. -/
inductive Walk (rules : List Rule) : Predicate → List Dependency → Predicate → Prop
  | nil (p : Predicate) : Walk rules p [] p
  | cons {p q : Predicate} {d : Dependency} {ds : List Dependency} :
      Depends rules p d → Walk rules d.target ds q → Walk rules p (d :: ds) q

/-- Some predicate depends on its own negation. -/
def HasNegativeCycle (rules : List Rule) : Prop :=
  ∃ p ds, Walk rules p ds p ∧ ∃ d ∈ ds, d.isNegative = true

/-- The rules use predicates of the same or lower levels, and negate predicates of lower ones. -/
def IsLevelling (rules : List Rule) (level : Predicate → Nat) : Prop :=
  ∀ r ∈ rules,
    (∀ a, .positive a ∈ r.body → level a.predicate ≤ level r.head.predicate) ∧
    (∀ a, .negative a ∈ r.body → level a.predicate < level r.head.predicate)

/-- A predicate occurs in a head or in a literal that is not a builtin. -/
def Mentions (rules : List Rule) (p : Predicate) : Prop :=
  ∃ r ∈ rules, r.head.predicate = p ∨
    ∃ a, a.predicate = p ∧ (.positive a ∈ r.body ∨ .negative a ∈ r.body)

/-- The steps that a dependency takes down: one if it is a negation. -/
def Dependency.weight (d : Dependency) : Nat :=
  if d.isNegative then 1 else 0

/-- The number of negations among dependencies. -/
def negations (ds : List Dependency) : Nat :=
  ds.foldr (fun d n => d.weight + n) 0

@[simp]
theorem negations_nil : negations [] = 0 := rfl

@[simp]
theorem negations_cons (d : Dependency) (ds : List Dependency) :
    negations (d :: ds) = d.weight + negations ds := rfl

@[simp]
theorem negations_append (ds es : List Dependency) :
    negations (ds ++ es) = negations ds + negations es := by
  induction ds with
  | nil => simp
  | cons d ds ih => simp [ih, Nat.add_assoc]

theorem negations_eq_zero_iff {ds : List Dependency} :
    negations ds = 0 ↔ ∀ d ∈ ds, d.isNegative = false := by
  induction ds with
  | nil => simp
  | cons d ds ih => simp [ih, Dependency.weight]

section Walks

variable {rules : List Rule} {p q : Predicate} {ds : List Dependency}

theorem Depends.mentions_left {d : Dependency} (h : Depends rules p d) : Mentions rules p := by
  cases h with
  | positive hr _ => exact ⟨_, hr, .inl rfl⟩
  | negative hr _ => exact ⟨_, hr, .inl rfl⟩

theorem Depends.mentions_right {d : Dependency} (h : Depends rules p d) :
    Mentions rules d.target := by
  cases h with
  | positive hr ha => exact ⟨_, hr, .inr ⟨_, rfl, .inl ha⟩⟩
  | negative hr ha => exact ⟨_, hr, .inr ⟨_, rfl, .inr ha⟩⟩

theorem Walk.append {r : Predicate} {es : List Dependency} (h : Walk rules p ds q)
    (h' : Walk rules q es r) : Walk rules p (ds ++ es) r := by
  induction h with
  | nil => exact h'
  | cons hd _ ih => exact .cons hd (ih h')

theorem Walk.of_append {es : List Dependency} (h : Walk rules p (ds ++ es) q) :
    ∃ x, Walk rules p ds x ∧ Walk rules x es q := by
  induction ds generalizing p with
  | nil => exact ⟨p, .nil p, h⟩
  | cons d ds ih =>
    obtain - | ⟨hd, hrest⟩ := h
    obtain ⟨x, hx, hx'⟩ := ih hrest
    exact ⟨x, .cons hd hx, hx'⟩

/-- A walk goes down a level at each of its negations. -/
theorem Walk.negations_add_le (h : Walk rules p ds q) {level : Predicate → Nat}
    (hlevel : IsLevelling rules level) : negations ds + level q ≤ level p := by
  induction h with
  | nil => simp
  | @cons p q d ds hd _ ih =>
    rw [negations_cons]
    cases hd with
    | positive hr ha =>
      have := (hlevel _ hr).1 _ ha
      simp only [Dependency.weight, Bool.false_eq_true, if_false] at ih ⊢
      omega
    | negative hr ha =>
      have := (hlevel _ hr).2 _ ha
      simp only [Dependency.weight, if_true] at ih ⊢
      omega

end Walks

/-! ## The dependency graph -/

namespace DependencyGraph

variable {rules : List Rule} {p q : Predicate} {d : Dependency}

theorem mem_predicatesOf : p ∈ predicatesOf rules ↔ Mentions rules p := by
  simp only [predicatesOf, List.mem_eraseDups, List.mem_flatMap, List.mem_cons, List.mem_map,
    List.mem_filterMap, Mentions]
  refine exists_congr fun r => and_congr_right fun _ => or_congr eq_comm ?_
  constructor
  · rintro ⟨_, ⟨l, hl, hd⟩, rfl⟩
    cases l with
    | positive a => obtain rfl := Option.some.inj hd; exact ⟨a, rfl, .inl hl⟩
    | negative a => obtain rfl := Option.some.inj hd; exact ⟨a, rfl, .inr hl⟩
    | builtin c => cases hd
  · rintro ⟨a, rfl, ha | ha⟩
    · exact ⟨_, ⟨_, ha, rfl⟩, rfl⟩
    · exact ⟨_, ⟨_, ha, rfl⟩, rfl⟩

theorem mem_dependenciesOf : d ∈ dependenciesOf rules p ↔ Depends rules p d := by
  simp only [dependenciesOf, List.mem_eraseDups, List.mem_flatMap, List.mem_filter,
    List.mem_filterMap, decide_eq_true_eq]
  constructor
  · rintro ⟨r, ⟨hr, rfl⟩, l, hl, hd⟩
    cases l with
    | positive a => obtain rfl := Option.some.inj hd; exact .positive hr hl
    | negative a => obtain rfl := Option.some.inj hd; exact .negative hr hl
    | builtin c => cases hd
  · rintro (⟨hr, ha⟩ | ⟨hr, ha⟩)
    · exact ⟨_, ⟨hr, rfl⟩, _, ha, rfl⟩
    · exact ⟨_, ⟨hr, rfl⟩, _, ha, rfl⟩

theorem mem_predicates : p ∈ (ofRules rules).predicates ↔ Mentions rules p := by
  rw [← mem_predicatesOf]
  simp [predicates, ofRules]

theorem mem_dependencies : d ∈ (ofRules rules).dependencies p ↔ Depends rules p d := by
  rw [dependencies, ofRules, lookup_map_pair]
  split
  · exact mem_dependenciesOf
  · next hp =>
    rw [mem_predicatesOf] at hp
    constructor
    · simp
    · exact fun h => absurd h.mentions_left hp

theorem edge_graph : (ofRules rules).graph.Edge p q ↔ ∃ b, Depends rules p ⟨q, b⟩ := by
  simp only [FiniteGraph.Edge, graph, List.mem_map, mem_dependencies, mem_predicates]
  constructor
  · rintro ⟨⟨d, hd, rfl⟩, -⟩
    exact ⟨d.isNegative, hd⟩
  · rintro ⟨b, hb⟩
    exact ⟨⟨_, hb, rfl⟩, hb.mentions_right⟩

theorem reaches_graph : (ofRules rules).graph.Reaches p q ↔ ∃ ds, Walk rules p ds q := by
  constructor
  · intro h
    induction h using Relation.ReflTransGen.head_induction_on with
    | refl => exact ⟨[], .nil q⟩
    | head edge _ ih =>
      obtain ⟨b, hb⟩ := edge_graph.1 edge
      obtain ⟨ds, hds⟩ := ih
      exact ⟨_, .cons hb hds⟩
  · rintro ⟨ds, h⟩
    induction h with
    | nil => exact .refl
    | cons hd _ ih => exact .head (edge_graph.2 ⟨_, hd⟩) ih

/-! ## Cycles through negation -/

/-- A cycle through negation has a negative dependency whose target leads back to its source. -/
theorem hasNegativeCycle_iff :
    HasNegativeCycle rules ↔
      ∃ p q, Depends rules p ⟨q, true⟩ ∧ (ofRules rules).graph.Reaches q p := by
  constructor
  · rintro ⟨p, ds, hwalk, d, hd, hneg⟩
    -- Turn the cycle so that it starts with the negative dependency.
    obtain ⟨before, after, rfl⟩ := List.append_of_mem hd
    obtain ⟨x, hbefore, hafter⟩ := hwalk.of_append
    obtain - | ⟨hdep, hback⟩ := hafter
    obtain ⟨target, isNegative⟩ := d
    obtain rfl : isNegative = true := hneg
    exact ⟨x, target, hdep, reaches_graph.2 ⟨_, hback.append hbefore⟩⟩
  · rintro ⟨p, q, hdep, hback⟩
    obtain ⟨ds, hds⟩ := reaches_graph.1 hback
    exact ⟨p, _, .cons hdep hds, _, .head _, rfl⟩

theorem components_eq (g : DependencyGraph) : g.components = g.graph.components :=
  g.graph.lowLinkComponents_eq_components

theorem isComponentOrder_components (g : DependencyGraph) :
    g.graph.IsComponentOrder g.components :=
  g.graph.isComponentOrder_lowLinkComponents

theorem negativeCycle?_eq_none_iff :
    (ofRules rules).negativeCycle? = none ↔ ¬HasNegativeCycle rules := by
  rw [hasNegativeCycle_iff, negativeCycle?, components_eq]
  simp only [negativeCycleIn?, List.findSome?_eq_none_iff, Option.map_eq_none_iff,
    List.find?_eq_none, Bool.and_eq_true, decide_eq_true_eq, mem_dependencies]
  constructor
  · rintro h ⟨p, q, hdep, hback⟩
    obtain ⟨c, hc, hp⟩ := FiniteGraph.exists_component (g := (ofRules rules).graph)
      (mem_predicates.2 hdep.mentions_left)
    refine h c hc p hp _ hdep ⟨rfl, ?_⟩
    rw [FiniteGraph.mem_component_iff hc hp]
    exact ⟨mem_predicates.2 hdep.mentions_right, .single (edge_graph.2 ⟨_, hdep⟩), hback⟩
  -- A negative dependency within a component leads back to its source.
  · rintro h c hc p hp ⟨q, isNegative⟩ hdep ⟨hneg, hq⟩
    obtain rfl : isNegative = true := hneg
    exact h ⟨p, q, hdep, ((FiniteGraph.mem_component_iff hc hp).1 hq).2.2⟩

/-! ## Strata along the components -/

section Placed

variable {placed more : List (List Predicate × Nat)}

/-- What comes later does not change the stratum of a predicate that has one. -/
theorem stratumIn_append_of_mem (h : ∃ c ∈ placed, p ∈ c.1) :
    stratumIn (placed ++ more) p = stratumIn placed p := by
  have hsome : (placed.find? fun c => p ∈ c.1).isSome := by simpa using h
  rw [stratumIn, stratumIn, List.find?_append, Option.or_of_isSome hsome]

theorem stratumIn_append_of_not_mem (h : ∀ c ∈ placed, p ∉ c.1) :
    stratumIn (placed ++ more) p = stratumIn more p := by
  have hnone : (placed.find? fun c => p ∈ c.1) = none := by simpa using h
  rw [stratumIn, stratumIn, List.find?_append, hnone, Option.none_or]

theorem stratumIn_eq_zero (h : ∀ c ∈ placed, p ∉ c.1) : stratumIn placed p = 0 := by
  have hnone : (placed.find? fun c => p ∈ c.1) = none := by simpa using h
  rw [stratumIn, hnone, Option.map_none, Option.getD_none]

/-- The pass gives strata to the components in their order. -/
theorem exists_foldl_place (g : DependencyGraph) (cs : List (List Predicate))
    (placed : List (List Predicate × Nat)) :
    ∃ more, cs.foldl g.place placed = placed ++ more ∧ more.map (·.1) = cs := by
  induction cs generalizing placed with
  | nil => exact ⟨[], by simp⟩
  | cons c cs ih =>
    obtain ⟨more, heq, hmore⟩ := ih (g.place placed c)
    refine ⟨(c, g.required placed c) :: more, ?_, by simp [hmore]⟩
    rw [List.foldl_cons, heq, place, List.append_assoc, List.singleton_append]

end Placed

/-- The stratum that the pass gives to the component of a predicate. -/
def stratumOf (g : DependencyGraph) (p : Predicate) : Nat :=
  stratumIn g.componentStrata p

theorem strata_eq (g : DependencyGraph) :
    g.strata = g.predicates.map fun p => (p, g.stratumOf p) := rfl

/-- The members of a component depend on each other. -/
theorem reaches_of_mem_component {c : List Predicate} (hc : c ∈ (ofRules rules).components)
    (hp : p ∈ c) (hq : q ∈ c) : (ofRules rules).graph.Reaches p q := by
  have horder := (ofRules rules).isComponentOrder_components
  exact ((horder.connected c hc p hp q ((horder.covers q).2 ⟨c, hc, hq⟩)).1 hq).1

/-- The pass comes to the component of each predicate. -/
theorem exists_components_eq (hp : Mentions rules p) :
    ∃ before c after, (ofRules rules).components = before ++ c :: after ∧ p ∈ c := by
  obtain ⟨c, hc, hmem⟩ :=
    ((ofRules rules).isComponentOrder_components.covers p).1 (mem_predicates.2 hp)
  obtain ⟨before, after, hsplit⟩ := List.append_of_mem hc
  exact ⟨before, c, after, hsplit, hmem⟩

section Split

variable {before after : List (List Predicate)} {c : List Predicate}
  (hsplit : (ofRules rules).components = before ++ c :: after)

include hsplit

/-- A dependency that leaves a component leads to an earlier one. -/
theorem exists_mem_before (hp : p ∈ c) (hd : Depends rules p d) (hnot : d.target ∉ c) :
    ∃ b ∈ before, d.target ∈ b :=
  (ofRules rules).isComponentOrder_components.sorted before c after hsplit p hp d.target hnot
    (edge_graph.2 ⟨_, hd⟩)

/-- When the pass comes to a component, the components before have their final strata. -/
theorem exists_componentStrata_eq :
    ∃ placed more, placed.map (·.1) = before ∧ (ofRules rules).componentStrata =
      placed ++ (c, (ofRules rules).required placed c) :: more := by
  obtain ⟨placed, hplaced, hbefore⟩ := (ofRules rules).exists_foldl_place before []
  obtain ⟨more, hmore, -⟩ := (ofRules rules).exists_foldl_place after
    ((ofRules rules).place placed c)
  refine ⟨placed, more, hbefore, ?_⟩
  rw [componentStrata, hsplit, List.foldl_append, List.foldl_cons, hplaced, List.nil_append, hmore,
    place, List.append_assoc, List.singleton_append]

/-- A component has the least stratum that its dependencies on other components allow. -/
theorem stratumOf_le_iff (hp : p ∈ c) {m : Nat} :
    (ofRules rules).stratumOf p ≤ m ↔ ∀ q ∈ c, ∀ d, Depends rules q d → d.target ∉ c →
      (ofRules rules).stratumOf d.target + d.weight ≤ m := by
  obtain ⟨placed, more, hbefore, hstrata⟩ := exists_componentStrata_eq hsplit
  have hfirst : ∀ e ∈ placed, p ∉ e.1 := by
    intro e he hmem
    have hdisjoint := (ofRules rules).isComponentOrder_components.disjoint
    rw [hsplit, List.pairwise_append] at hdisjoint
    exact hdisjoint.2.2 e.1 (hbefore ▸ List.mem_map_of_mem he) c (.head _) hmem hp
  have hvalue : (ofRules rules).stratumOf p = (ofRules rules).required placed c := by
    rw [stratumOf, hstrata, stratumIn_append_of_not_mem hfirst]
    simp [stratumIn, hp]
  -- A dependency that leaves the component leads to one that has its stratum already.
  have htarget : ∀ q ∈ c, ∀ d, Depends rules q d → d.target ∉ c →
      stratumIn placed d.target = (ofRules rules).stratumOf d.target := by
    intro q hq d hd hnot
    obtain ⟨b, hb, hmem⟩ := exists_mem_before hsplit hq hd hnot
    obtain ⟨e, he, rfl⟩ := List.mem_map.1 (hbefore ▸ hb)
    rw [stratumOf, hstrata, stratumIn_append_of_mem ⟨e, he, hmem⟩]
  rw [hvalue, required, foldl_max_le_iff]
  simp only [Nat.zero_le, true_and, List.mem_filter, List.mem_flatMap, decide_eq_true_eq,
    mem_dependencies]
  constructor
  · intro h q hq d hd hnot
    rw [← htarget q hq d hd hnot]
    exact h d ⟨⟨q, hq, hd⟩, hnot⟩
  · rintro h d ⟨⟨q, hq, hd⟩, hnot⟩
    have hle := h q hq d hd hnot
    rw [← htarget q hq d hd hnot] at hle
    exact hle

/-- If an assignment that respects the rules is nowhere lower than the strata of the components
before, it is so for the next one, whose members it gives the same value. -/
theorem stratumOf_le_of_before {level : Predicate → Nat} (hlevel : IsLevelling rules level)
    (hbefore : ∀ b ∈ before, ∀ q ∈ b, (ofRules rules).stratumOf q ≤ level q) (hp : p ∈ c) :
    (ofRules rules).stratumOf p ≤ level p := by
  rw [stratumOf_le_iff hsplit hp]
  intro q hq d hd hnot
  obtain ⟨b, hb, hmem⟩ := exists_mem_before hsplit hq hd hnot
  have htarget := hbefore b hb d.target hmem
  -- The level goes down from `p` through `q` to the target.
  have hc : c ∈ (ofRules rules).components := by simp [hsplit]
  obtain ⟨ds, hds⟩ := reaches_graph.1 (reaches_of_mem_component hc hp hq)
  have hwalk := (hds.append (.cons hd (.nil _))).negations_add_le hlevel
  rw [negations_append, negations_cons, negations_nil] at hwalk
  omega

end Split

theorem stratumOf_eq_zero (hp : ¬Mentions rules p) : (ofRules rules).stratumOf p = 0 := by
  obtain ⟨placed, hplaced, hcomponents⟩ :=
    (ofRules rules).exists_foldl_place (ofRules rules).components []
  rw [stratumOf, componentStrata, hplaced, List.nil_append]
  refine stratumIn_eq_zero fun e he hmem => hp (mem_predicates.1 ?_)
  exact ((ofRules rules).isComponentOrder_components.covers p).2
    ⟨e.1, hcomponents ▸ List.mem_map_of_mem he, hmem⟩

/-- Without a cycle through negation, the strata meet all dependencies. -/
theorem stratumOf_add_weight_le (hcycle : ¬HasNegativeCycle rules) (hd : Depends rules p d) :
    (ofRules rules).stratumOf d.target + d.weight ≤ (ofRules rules).stratumOf p := by
  obtain ⟨before, c, after, hsplit, hp⟩ := exists_components_eq hd.mentions_left
  have hmeets := (stratumOf_le_iff hsplit hp).1 (Nat.le_refl _)
  by_cases htarget : d.target ∈ c
  · -- Within a component there is one stratum, and no negation.
    have hback : (ofRules rules).graph.Reaches d.target p :=
      reaches_of_mem_component (by simp [hsplit]) htarget hp
    have hpositive : d.isNegative = false := by
      rw [← Bool.not_eq_true]
      intro hnegative
      obtain ⟨target, isNegative⟩ := d
      obtain rfl : isNegative = true := hnegative
      exact hcycle (hasNegativeCycle_iff.2 ⟨p, target, hd, hback⟩)
    simpa [Dependency.weight, hpositive] using (stratumOf_le_iff hsplit htarget).2 hmeets
  · exact hmeets p hp d hd htarget

/-- An assignment that respects the rules is nowhere lower than the strata. -/
theorem stratumOf_le_of_isLevelling {level : Predicate → Nat} (hlevel : IsLevelling rules level)
    (p : Predicate) : (ofRules rules).stratumOf p ≤ level p := by
  -- The induction follows the pass over the components.
  have hpass : ∀ before after, (ofRules rules).components = before ++ after →
      ∀ c ∈ before, ∀ p ∈ c, (ofRules rules).stratumOf p ≤ level p := by
    intro before
    induction before using List.reverseRecOn with
    | nil => exact fun _ _ _ hc => nomatch hc
    | append_singleton before c ih =>
      intro after hcomponents c' hc' p hp
      rw [List.append_assoc, List.singleton_append] at hcomponents
      have hbefore := ih (c :: after) hcomponents
      rcases List.mem_append.1 hc' with hc' | hc'
      · exact hbefore c' hc' p hp
      · obtain rfl := List.mem_singleton.1 hc'
        exact stratumOf_le_of_before hcomponents hlevel hbefore hp
  by_cases hp : Mentions rules p
  · obtain ⟨before, c, after, hsplit, hmem⟩ := exists_components_eq hp
    exact hpass (before ++ [c]) after (by simp [hsplit]) c (by simp) p hmem
  · rw [stratumOf_eq_zero hp]
    exact Nat.zero_le _

end DependencyGraph

/-! ## The outcome -/

open DependencyGraph

theorem stratify_eq_error_iff {rules : List Rule} :
    (∃ e, stratify rules = .error e) ↔ HasNegativeCycle rules := by
  rw [← not_iff_not, ← negativeCycle?_eq_none_iff, stratify]
  cases (ofRules rules).negativeCycle? <;> simp

/-- A program whose rules have levels is accepted. -/
theorem exists_stratify_of_isLevelling {rules : List Rule} {level : Predicate → Nat}
    (h : IsLevelling rules level) : ∃ s, stratify rules = .ok s := by
  cases hs : stratify rules with
  | ok s => exact ⟨s, rfl⟩
  | error e =>
    -- A cycle through negation would lead to a lower level.
    obtain ⟨p, ds, hwalk, d, hd, hnegative⟩ := stratify_eq_error_iff.1 ⟨e, hs⟩
    have hle := hwalk.negations_add_le h
    have hzero := negations_eq_zero_iff.1 (by omega : negations ds = 0) d hd
    simp [hnegative] at hzero

section Accepted

variable {rules : List Rule} {s : Stratification} (h : stratify rules = .ok s)

include h

theorem not_hasNegativeCycle : ¬HasNegativeCycle rules := by
  rw [← stratify_eq_error_iff, h]
  simp

/-- What an accepted program gets: the strata of its dependency graph, and the rules of each stratum
up to the highest. -/
theorem of_stratify :
    s.strata = (ofRules rules).strata ∧
    s.layers = (List.range ((s.strata.map (·.2 + 1)).foldl max 0)).map fun k =>
      rules.filter fun r => (s.stratum? r.head.predicate).getD 0 = k := by
  have hnone := negativeCycle?_eq_none_iff.2 (not_hasNegativeCycle h)
  rw [stratify, hnone] at h
  obtain rfl := Except.ok.inj h
  exact ⟨rfl, rfl⟩

theorem stratum?_eq (p : Predicate) :
    s.stratum? p = if p ∈ (ofRules rules).predicates then some ((ofRules rules).stratumOf p)
      else none := by
  rw [Stratification.stratum?, (of_stratify h).1, strata_eq, lookup_map_pair]

theorem isSome_stratum?_iff {p : Predicate} : (s.stratum? p).isSome ↔ Mentions rules p := by
  rw [stratum?_eq h, ← mem_predicates]
  split <;> simp_all

/-- The stratum of a predicate of an accepted program; predicates that it does not mention count as
being at the bottom. -/
theorem getD_stratum? (p : Predicate) :
    (s.stratum? p).getD 0 = (ofRules rules).stratumOf p := by
  rw [stratum?_eq h]
  split
  · rfl
  · next hp => exact (stratumOf_eq_zero fun hmentions => hp (mem_predicates.2 hmentions)).symm

/-- The strata respect the rules. -/
theorem isLevelling_stratum : IsLevelling rules fun p => (s.stratum? p).getD 0 := by
  have hstep : ∀ p d, Depends rules p d →
      (s.stratum? d.target).getD 0 + d.weight ≤ (s.stratum? p).getD 0 := by
    intro p d hd
    rw [getD_stratum? h, getD_stratum? h]
    exact stratumOf_add_weight_le (not_hasNegativeCycle h) hd
  exact fun r hr =>
    ⟨fun a ha => hstep _ _ (.positive hr ha), fun a ha => hstep _ _ (.negative hr ha)⟩

/-- The strata are the least that respect the rules. -/
theorem stratum_le {level : Predicate → Nat} (hlevel : IsLevelling rules level) (p : Predicate) :
    (s.stratum? p).getD 0 ≤ level p := by
  rw [getD_stratum? h]
  exact stratumOf_le_of_isLevelling hlevel p

theorem count_le_iff {n : Nat} : s.count ≤ n ↔ ∀ p k, s.stratum? p = some k → k < n := by
  have hcount : s.count = (s.strata.map (·.2 + 1)).foldl max 0 := by
    rw [Stratification.count, (of_stratify h).2, List.length_map, List.length_range]
  have hfold := foldl_max_le_iff (fun k : Nat => k) (s.strata.map (·.2 + 1)) 0 n
  rw [hcount, hfold, (of_stratify h).1, strata_eq]
  simp only [Nat.zero_le, true_and, List.mem_map, stratum?_eq h]
  constructor
  · intro hle p k hk
    split at hk
    · next hp =>
      obtain rfl := Option.some.inj hk
      exact hle _ ⟨_, ⟨p, hp, rfl⟩, rfl⟩
    · simp at hk
  · rintro hlt _ ⟨_, ⟨p, hp, rfl⟩, rfl⟩
    exact hlt p _ (if_pos hp)

theorem getD_stratum?_le_count (p : Predicate) : (s.stratum? p).getD 0 ≤ s.count := by
  cases hp : s.stratum? p with
  | none => exact Nat.zero_le _
  | some k => exact Nat.le_of_lt ((count_le_iff h).1 (Nat.le_refl _) p k hp)

theorem layers_of_stratify :
    s.layers = (List.range s.count).map fun k =>
      rules.filter fun r => s.stratum? r.head.predicate = some k := by
  have hlayers : s.layers = (List.range s.count).map fun k =>
      rules.filter fun r => (s.stratum? r.head.predicate).getD 0 = k := by
    rw [Stratification.count, (of_stratify h).2, List.length_map, List.length_range]
  rw [hlayers]
  refine List.map_congr_left fun k _ => List.filter_congr fun r hr => ?_
  -- The predicate of a head has a stratum, so none stands in for a missing one.
  have hsome := (isSome_stratum?_iff h (p := r.head.predicate)).2 ⟨r, hr, .inl rfl⟩
  obtain ⟨j, hj⟩ := Option.isSome_iff_exists.1 hsome
  simp [hj]

end Accepted

/-- No layer derives a predicate that it negates itself or that an earlier one uses. -/
structure IsLayered (layers : List (List Rule)) : Prop where
  /-- Later layers leave the predicates of a body alone. -/
  used : layers.Pairwise fun layer later => ∀ r ∈ layer, ∀ l ∈ r.body, ∀ a, l.atom? = some a →
    ∀ r' ∈ later, r'.head.predicate ≠ a.predicate
  /-- A layer leaves the predicates alone that it negates. -/
  negated : ∀ layer ∈ layers, ∀ r ∈ layer, ∀ a, .negative a ∈ r.body →
    ∀ r' ∈ layer, r'.head.predicate ≠ a.predicate

theorem isLayered_of_stratify {rules : List Rule} {s : Stratification}
    (h : stratify rules = .ok s) : IsLayered s.layers := by
  have hlevel := isLevelling_stratum h
  rw [layers_of_stratify h]
  constructor
  · rw [List.pairwise_map]
    refine List.pairwise_lt_range.imp fun {j k} hjk r hr l hl a ha r' hr' heq => ?_
    simp only [List.mem_filter, decide_eq_true_eq] at hr hr'
    -- Whatever the kind of the literal is, its predicate lies no higher than the head.
    have hle : (s.stratum? a.predicate).getD 0 ≤ (s.stratum? r.head.predicate).getD 0 := by
      cases l with
      | positive b =>
        obtain rfl := Option.some.inj ha
        exact (hlevel r hr.1).1 b hl
      | negative b =>
        obtain rfl := Option.some.inj ha
        exact Nat.le_of_lt ((hlevel r hr.1).2 b hl)
      | builtin c => cases ha
    -- A later layer has a higher stratum than the predicates that an earlier one uses.
    rw [← heq, hr.2, hr'.2, Option.getD_some, Option.getD_some] at hle
    omega
  · intro layer hlayer r hr a ha r' hr' heq
    obtain ⟨k, -, rfl⟩ := List.mem_map.1 hlayer
    simp only [List.mem_filter, decide_eq_true_eq] at hr hr'
    have hlt := (hlevel r hr.1).2 a ha
    simp [← heq, hr.2, hr'.2] at hlt

/-- Rules that are split by a rank below `n` are the same rules in another order. -/
theorem perm_flatten_filter_range {α : Type} (rank : α → Option Nat) (n : Nat) (xs : List α)
    (hrank : ∀ x ∈ xs, ∃ k < n, rank x = some k) :
    ((List.range n).map fun k => xs.filter fun x => rank x = some k).flatten.Perm xs := by
  induction n generalizing xs with
  | zero =>
    cases xs with
    | nil => simp
    | cons x xs =>
      obtain ⟨k, hk, -⟩ := hrank x (.head _)
      exact absurd hk (Nat.not_lt_zero k)
  | succ n ih =>
    rw [List.range_succ, List.map_append, List.flatten_append, List.map_singleton,
      List.flatten_singleton]
    -- The members of rank `n` are taken out of the list.
    have hlower : ((List.range n).map fun k => xs.filter fun x => rank x = some k) =
        (List.range n).map fun k =>
          (xs.filter fun x => !decide (rank x = some n)).filter fun x => rank x = some k := by
      refine List.map_congr_left fun k hk => ?_
      rw [List.filter_filter]
      refine List.filter_congr fun x _ => ?_
      have hkn : k ≠ n := Nat.ne_of_lt (List.mem_range.1 hk)
      by_cases hx : rank x = some k <;> simp [hx, hkn]
    rw [hlower]
    refine (List.Perm.append_right _ (ih _ fun x hx => ?_)).trans
      (List.perm_append_comm.trans (List.filter_append_perm _ xs))
    obtain ⟨hx, hn⟩ := List.mem_filter.1 hx
    obtain ⟨k, hk, hrk⟩ := hrank x hx
    refine ⟨k, Nat.lt_of_le_of_ne (Nat.le_of_lt_succ hk) ?_, hrk⟩
    rintro rfl
    simp [hrk] at hn

theorem stratify_layers_perm {rules : List Rule} {s : Stratification}
    (h : stratify rules = .ok s) : s.layers.flatten.Perm rules := by
  rw [layers_of_stratify h]
  refine perm_flatten_filter_range _ _ _ fun r hr => ?_
  obtain ⟨k, hk⟩ := Option.isSome_iff_exists.1
    ((isSome_stratum?_iff h (p := r.head.predicate)).2 ⟨r, hr, .inl rfl⟩)
  exact ⟨k, (count_le_iff h).1 (Nat.le_refl _) _ k hk, hk⟩

/-- The rules of the layers are those of the program. -/
theorem mem_rules_of_mem_layer {rules layer : List Rule} {s : Stratification} {r : Rule}
    (h : stratify rules = .ok s) (hlayer : layer ∈ s.layers) (hr : r ∈ layer) : r ∈ rules :=
  (stratify_layers_perm h).mem_iff.1 (List.mem_flatten.2 ⟨layer, hlayer, hr⟩)

/-! ## Rules in another order -/

section Perm

variable {rules rules' : List Rule} {s s' : Stratification} (hperm : rules.Perm rules')

include hperm

theorem isLevelling_congr {level : Predicate → Nat} :
    IsLevelling rules level ↔ IsLevelling rules' level := by
  simp only [IsLevelling, hperm.mem_iff]

theorem mentions_congr {p : Predicate} : Mentions rules p ↔ Mentions rules' p := by
  simp only [Mentions, hperm.mem_iff]

/-- The strata do not depend on the order of the rules: they are the least that respect them. -/
theorem stratum?_eq_of_perm (h : stratify rules = .ok s) (h' : stratify rules' = .ok s')
    (p : Predicate) : s.stratum? p = s'.stratum? p := by
  have hle : (s.stratum? p).getD 0 ≤ (s'.stratum? p).getD 0 :=
    stratum_le h ((isLevelling_congr hperm).2 (isLevelling_stratum h')) p
  have hge : (s'.stratum? p).getD 0 ≤ (s.stratum? p).getD 0 :=
    stratum_le h' ((isLevelling_congr hperm).1 (isLevelling_stratum h)) p
  have hsome : (s.stratum? p).isSome ↔ (s'.stratum? p).isSome := by
    rw [isSome_stratum?_iff h, isSome_stratum?_iff h', mentions_congr hperm]
  cases hs : s.stratum? p with
  | none =>
    cases hs' : s'.stratum? p with
    | none => rfl
    | some k' => simp [hs, hs'] at hsome
  | some k =>
    cases hs' : s'.stratum? p with
    | none => simp [hs, hs'] at hsome
    | some k' =>
      simp only [hs, hs', Option.getD_some] at hle hge
      rw [Nat.le_antisymm hle hge]

/-- Rules that are listed in another order have the same layers, in another order each. -/
theorem exists_stratify_of_perm (h : stratify rules = .ok s) :
    ∃ s', stratify rules' = .ok s' ∧ List.Forall₂ List.Perm s.layers s'.layers := by
  obtain ⟨s', h'⟩ :=
    exists_stratify_of_isLevelling ((isLevelling_congr hperm).1 (isLevelling_stratum h))
  have hstratum := stratum?_eq_of_perm hperm h h'
  have hcount : s.count = s'.count := by
    refine Nat.le_antisymm ((count_le_iff h).2 fun p k hk => ?_)
      ((count_le_iff h').2 fun p k hk => ?_)
    · exact (count_le_iff h').1 (Nat.le_refl _) p k (hstratum p ▸ hk)
    · exact (count_le_iff h).1 (Nat.le_refl _) p k (hstratum p ▸ hk)
  refine ⟨s', h', ?_⟩
  rw [layers_of_stratify h, layers_of_stratify h', ← hcount, List.forall₂_map_left_iff,
    List.forall₂_map_right_iff, List.forall₂_same]
  intro k _
  simp only [hstratum]
  exact hperm.filter _

/-- Rules that are listed in another order are rejected as well. -/
theorem stratify_isError_iff_of_perm :
    (∃ e, stratify rules = .error e) ↔ ∃ e, stratify rules' = .error e := by
  have hok : ∀ {rules}, (∃ s, stratify rules = .ok s) ↔ ¬∃ e, stratify rules = .error e := by
    intro rules
    cases stratify rules <;> simp
  rw [← not_iff_not, ← hok, ← hok]
  constructor
  · rintro ⟨s, h⟩
    obtain ⟨s', h', -⟩ := exists_stratify_of_perm hperm h
    exact ⟨s', h'⟩
  · rintro ⟨s', h'⟩
    obtain ⟨s, h, -⟩ := exists_stratify_of_perm hperm.symm h'
    exact ⟨s, h⟩

end Perm

/-- The outcome of the stratification of a program. It is rejected exactly if a closed walk along
its dependencies has a negative one. Otherwise every predicate that it mentions has a stratum; the
strata respect the rules, and no other assignment that does is lower anywhere; their number is one
more than the highest of them; and the layers are the rules of each stratum in program order, which
together are the rules of the program. -/
theorem stratify_spec (rules : List Rule) :
    ((∃ e, stratify rules = .error e) ↔
      ∃ p ds, Walk rules p ds p ∧ ∃ d ∈ ds, d.isNegative = true) ∧
    ∀ s, stratify rules = .ok s →
      (∀ p, (s.stratum? p).isSome ↔ Mentions rules p) ∧
      (IsLevelling rules fun p => (s.stratum? p).getD 0) ∧
      (∀ level, IsLevelling rules level → ∀ p, (s.stratum? p).getD 0 ≤ level p) ∧
      (rules = [] → s.count = 0) ∧
      (rules ≠ [] → (∃ p, s.stratum? p = some (s.count - 1)) ∧
        ∀ p k, s.stratum? p = some k → k + 1 ≤ s.count) ∧
      s.layers = ((List.range s.count).map fun k =>
        rules.filter fun r => s.stratum? r.head.predicate = some k) ∧
      s.layers.flatten.Perm rules := by
  refine ⟨stratify_eq_error_iff, fun s h => ⟨fun p => isSome_stratum?_iff h,
    isLevelling_stratum h, fun level hlevel => stratum_le h hlevel, ?_, ?_, layers_of_stratify h,
    stratify_layers_perm h⟩⟩
  · rintro rfl
    refine Nat.le_zero.1 ((count_le_iff h).2 fun p k hk => ?_)
    obtain ⟨r, hr, -⟩ := (isSome_stratum?_iff h).1 (Option.isSome_of_eq_some hk)
    cases hr
  · intro hrules
    have hlt := (count_le_iff h).1 (Nat.le_refl s.count)
    refine ⟨?_, hlt⟩
    -- If no predicate had the highest stratum, there would be fewer strata.
    by_contra hnone
    push Not at hnone
    have hle : s.count ≤ s.count - 1 :=
      (count_le_iff h).2 fun p k hk => by
        have := hlt p k hk
        have hne : k ≠ s.count - 1 := fun he => hnone p (he ▸ hk)
        omega
    obtain ⟨r, rs, rfl⟩ := List.exists_cons_of_ne_nil hrules
    obtain ⟨k, hk⟩ := Option.isSome_iff_exists.1
      ((isSome_stratum?_iff h (p := r.head.predicate)).2 ⟨r, .head _, .inl rfl⟩)
    have := hlt _ k hk
    omega

end Deduction
