import Deduction.Proofs.Magic.Program
import Deduction.Proofs.Safety

/-!
# The safety of magic programs

A magic program adds guards and rules that derive calls to a program. Guards are positive, so they
never make a safe rule unsafe. A rule that derives a call is safe if its body has values for the
variables of the bound arguments:

* If one node passes bindings to the call, the literals that the node waits for have them.
* If several do, each fills a labeled predicate with those arguments for which it has all values.
  A compound argument may need values from two of them, and then no label has it.

The rules that are evaluated to answer a query are therefore safe exactly if no call has such an
argument with a variable that is not in a label otherwise
(`MagicProgram.checkSafety_evaluated_iff`).
-/

namespace Deduction

variable {registry : Registry} {options : SafetyOptions} {x : String}

/-! ## Positive rules -/

theorem limitedVars_of_positive {body : List Literal} (h : ∀ l ∈ body, l.isPositive = true) :
    x ∈ limitedVars registry options body ↔ x ∈ positiveVars body := by
  refine ⟨mem_of_mem_limitedVars (fun y hy => hy) fun l hl y hy => ?_, mem_limitedVars_of_positive⟩
  obtain ⟨c, -, rfl, -⟩ := Literal.mem_limits_iff.1 hy
  cases h _ hl

/-- A rule whose body is positive is safe if the variables of its head occur in the body. -/
theorem Rule.checkSafety_of_positive {r : Rule} (h : ∀ l ∈ r.body, l.isPositive = true) :
    r.checkSafety registry options = .ok () ↔
      ∀ x ∈ r.head.vars, isAnonymous x = true ∨ x ∈ positiveVars r.body := by
  rw [checkSafety_eq_ok_iff_forall]
  simp only [limitedVars_of_positive h]
  refine and_iff_left fun l hl => ?_
  cases l with
  | positive a => trivial
  | negative a => cases h _ hl
  | builtin c => cases h _ hl

/-! ## What the nodes of a passing graph pass on -/

namespace PassingGraph

variable {g : PassingGraph} {j k : Nat} {derived : List Predicate}

/-- A variable that a positive node passes occurs in its literal, which is among the selected
ones. -/
theorem mem_positiveVars_select {nodes : List Nat} (hj : j ∈ nodes) (horder : j ∈ g.order)
    (hpasses : g.passes j x = true) : x ∈ positiveVars (select (g.adornedBody derived) nodes) := by
  have hne : j ≠ 0 := by
    have := (mem_order.1 horder).1
    omega
  rw [passes, if_neg hne, Bool.and_eq_true, decide_eq_true_eq] at hpasses
  refine mem_positiveVars_of_isPositive (mem_select_adornedBody.2 ⟨j, horder, hj, rfl⟩) ?_ ?_
  · rw [adorned, (Literal.kind_adorn _ _ _).1]
    exact hpasses.1
  · rw [adorned, Literal.vars_adorn]
    exact (List.mem_filter.1 hpasses.2).1

theorem isPositive_of_mem_select (hlt : j < k) (hsource : g.IsSource j) {l : Literal}
    (h : l ∈ select (g.adornedBody derived) (j :: g.depends j)) : l.isPositive = true := by
  obtain ⟨i, -, -, hpositive, rfl⟩ := of_mem_select_source hlt hsource h
  rw [adorned, (Literal.kind_adorn _ _ _).1]
  exact hpositive

theorem isPositive_of_mem_select_depends {l : Literal}
    (h : l ∈ select (g.adornedBody derived) (g.depends k)) : l.isPositive = true := by
  obtain ⟨j, hj, hdepends, rfl⟩ := mem_select_adornedBody.1 h
  obtain ⟨-, hzero | hpositive⟩ := of_mem_depends hdepends
  · -- The head is no node of the body.
    have := (mem_order.1 hj).1
    omega
  · rw [adorned, (Literal.kind_adorn _ _ _).1]
    exact hpositive

/-- If several edges enter the node of a call, then every variable of its bound arguments occurs in
an argument for which one of the edges passes all bindings. -/
def CarriesCall (g : PassingGraph) (derived : List Predicate) (k : Nat) : Prop :=
  ∀ p ∈ (g.literal k).call? derived (g.boundAt k), 2 ≤ (g.entering k).length →
    ∀ t ∈ p.select (g.literal k).terms, ∀ x ∈ t.occurrences,
      ∃ e ∈ g.entering k, ∃ u ∈ (g.literal k).terms,
        u.isCoveredBy e.vars = true ∧ x ∈ u.occurrences

instance (g : PassingGraph) (derived : List Predicate) (k : Nat) :
    Decidable (g.CarriesCall derived k) :=
  inferInstanceAs (Decidable (∀ p ∈ _, 2 ≤ _ → ∀ t ∈ _, ∀ x ∈ _, ∃ e ∈ _, ∃ u ∈ _, _ ∧ _))

end PassingGraph

/-! ## Guards -/

namespace CallPattern

variable {name : String} {known : List String} {p : CallPattern}

theorem select_eq_nil {α : Type} (h : p.isAllFree = true) (xs : List α) : p.select xs = [] := by
  have hbound : Binding.bound ∉ p.bindings := List.count_eq_zero.1 (of_decide_eq_true h)
  rw [select, List.map_eq_nil_iff, List.filter_eq_nil_iff]
  intro e he hb
  exact hbound (of_decide_eq_true hb ▸ (List.of_mem_zip he).2)

theorem mem_select_ofTerms_iff {t : Term} {ts : List Term} :
    t ∈ (ofTerms name ts known).select ts ↔ t ∈ ts ∧ t.isCoveredBy known = true := by
  induction ts with
  | nil => simp [select]
  | cons u ts ih =>
    rw [select_ofTerms_cons]
    split
    · next hu =>
      rw [List.mem_cons, List.mem_cons, ih, or_and_right]
      exact or_congr_left ⟨fun h => ⟨h, h ▸ hu⟩, fun h => h.1⟩
    · next hu =>
      rw [List.mem_cons, ih, or_and_right]
      refine (or_iff_right ?_).symm
      rintro ⟨rfl, ht⟩
      exact hu ht

end CallPattern

theorem Atom.isPositive_of_mem_guard {a : Atom} {l : Literal} (h : l ∈ a.guard) :
    l.isPositive = true := by
  obtain ⟨p, -, -, rfl⟩ := mem_guard_iff.1 h
  rfl

/-- The guard of an adorned atom has the variables of the bound arguments. -/
theorem Atom.mem_positiveVars_guard {a : Atom} {p : CallPattern} (ha : a.predicate = .adorned p)
    (hx : x ∈ Term.occurrencesAll (p.select a.terms)) : x ∈ positiveVars a.guard := by
  have hfree : p.isAllFree = false := by
    rw [← Bool.not_eq_true]
    intro hfree
    simp [CallPattern.select_eq_nil hfree, Term.occurrencesAll] at hx
  refine mem_positiveVars_of_isPositive (mem_guard_iff.2 ⟨p, ha, hfree, rfl⟩) rfl ?_
  exact List.mem_eraseDups.2 hx

/-! ## The rules of a call -/

section Calls

variable {rules : List Rule} {q : Query} {r : Rule} {p : CallPattern} {i j k labels : Nat}
  {derived : List Predicate} {l : Literal}

/-- What a source of a node waits for is positive, and has values for the variables that the source
passes. -/
theorem bodyBefore_spec {e : PassingEdge} (hk : k ∈ (r.passingGraph p).order)
    (he : e ∈ (r.passingGraph p).entering k) :
    (∀ l ∈ (r.adorn derived p i).bodyBefore e.source, l.isPositive = true) ∧
    ∀ x ∈ e.vars, x ∈ positiveVars ((r.adorn derived p i).bodyBefore e.source) := by
  obtain ⟨j, hj, rfl⟩ := PassingGraph.mem_entering.1 he
  obtain ⟨hlt, hsource⟩ := PassingGraph.of_mem_sources hj
  refine ⟨fun l hl => ?_, fun x hx => ?_⟩
  · rcases AdornedRule.mem_bodyBefore hl with hl | hl
    · exact Atom.isPositive_of_mem_guard hl
    · exact PassingGraph.isPositive_of_mem_select hlt hsource hl
  · have hpasses := (List.mem_filter.1 hx).2
    rw [AdornedRule.bodyBefore]
    -- The head passes what its guard has, a literal its own variables.
    by_cases hzero : j = 0
    · subst hzero
      rw [PassingGraph.passes, if_pos rfl] at hpasses
      obtain ⟨a, ha, hx⟩ := mem_positiveVars.1 (Atom.mem_positiveVars_guard
        (a := (r.adorn derived p i).rule.head) rfl (of_decide_eq_true hpasses))
      rw [if_pos (.head _)]
      exact mem_positiveVars.2 ⟨a, List.mem_append_left _ ha, hx⟩
    · have horder : j ∈ (r.passingGraph p).order := by
        have hk := PassingGraph.mem_order.1 hk
        rw [PassingGraph.mem_order]
        omega
      have hnode : j ∈ j :: (r.passingGraph p).depends j := .head _
      obtain ⟨a, ha, hx⟩ :=
        mem_positiveVars.1 (PassingGraph.mem_positiveVars_select hnode horder hpasses)
      exact mem_positiveVars.2 ⟨a, List.mem_append_right _ ha, hx⟩

/-- The variables of the bound arguments of a call are named, and a node passes them. -/
theorem exists_of_mem_vars_target {g : PassingGraph} {terms : List Term}
    (hplain : ∀ a ∈ (g.literal k).atom?, a.IsPlain)
    (hadorned : g.adorned derived k = .positive ⟨.adorned p, terms⟩)
    (hx : x ∈ Atom.vars ⟨.magic p, p.select terms⟩) :
    isAnonymous x = false ∧ ∃ e ∈ g.entering k, x ∈ e.vars := by
  rw [Literal.eq_ofTerms_of_adorn_eq hplain hadorned] at hx
  have hbound := CallPattern.mem_known_of_mem_vars hx
  obtain ⟨j, hj, hx⟩ := PassingGraph.mem_boundAt_iff.1 hbound
  exact ⟨PassingGraph.not_isAnonymous_of_mem_boundAt hbound, _,
    PassingGraph.mem_entering.2 ⟨j, hj, rfl⟩, hx⟩

/-- The parts of a call that the edges which enter its node provide, with what their sources wait
for. -/
abbrev AdornedRule.parts (r : AdornedRule) (labels : Nat) (p : CallPattern) (terms : List Term)
    (edges : List PassingEdge) : List (Atom × List Literal) :=
  (edges.zipIdx (labels + 1)).map fun (e, label) =>
    (labelAtom p terms e label, r.bodyBefore e.source)

/-- The labels of a call have the variables of those arguments for which an edge has all values. -/
theorem mem_positiveVars_parts {r : AdornedRule} {edges : List PassingEdge} {terms : List Term} :
    x ∈ positiveVars ((r.parts labels p terms edges).map fun part => .positive part.1) ↔
      ∃ e ∈ edges, ∃ u ∈ terms, u.isCoveredBy e.vars = true ∧ x ∈ u.occurrences := by
  have hvars : ∀ e label, x ∈ (AdornedRule.labelAtom p terms e label).vars ↔
      ∃ u ∈ terms, u.isCoveredBy e.vars = true ∧ x ∈ u.occurrences := by
    intro e label
    simp only [AdornedRule.labelAtom, Atom.vars, Term.mem_varsAll,
      CallPattern.mem_select_ofTerms_iff, and_assoc]
  simp only [mem_positiveVars, List.map_map, List.mem_map, Prod.exists, Function.comp_apply]
  constructor
  · rintro ⟨a, ⟨e, label, he, ha⟩, hx⟩
    obtain rfl := Literal.positive.inj ha
    exact ⟨e, List.fst_mem_of_mem_zipIdx he, (hvars e label).1 hx⟩
  · rintro ⟨e, he, hx⟩
    rw [← List.zipIdx_map_fst (labels + 1) edges] at he
    obtain ⟨⟨e, label⟩, hlabel, rfl⟩ := List.mem_map.1 he
    exact ⟨_, ⟨e, label, hlabel, rfl⟩, (hvars e label).2 hx⟩

/-- What the rules of a call wait for is positive. -/
theorem isPositive_of_mem_callRules {c : Rule} (hk : k ∈ (r.passingGraph p).order)
    (hc : c ∈ ((r.adorn derived p i).callRules labels k l).1) :
    ∀ l ∈ c.body, l.isPositive = true := by
  have hbefore : ∀ e ∈ (r.adorn derived p i).graph.enteringBySource k,
      ∀ l ∈ (r.adorn derived p i).bodyBefore e.source, l.isPositive = true := fun e he =>
    (bodyBefore_spec hk (PassingGraph.mem_enteringBySource.1 he)).1
  unfold AdornedRule.callRules at hc
  split at hc
  · cases hc
  · split at hc
    · obtain rfl := List.mem_singleton.1 hc
      exact fun l => Atom.isPositive_of_mem_guard
    · next e hentering =>
      obtain rfl := List.mem_singleton.1 hc
      exact hbefore e (by simp [hentering])
    · -- The parts wait for the sources of the edges, and the call for its parts.
      rcases List.mem_append.1 hc with hc | hc
      · obtain ⟨part, hpart, rfl⟩ := List.mem_map.1 hc
        obtain ⟨⟨e, label⟩, he, rfl⟩ := List.mem_map.1 hpart
        exact hbefore e (List.fst_mem_of_mem_zipIdx he)
      · obtain rfl := List.mem_singleton.1 hc
        rw [List.forall_mem_map]
        exact fun _ _ => rfl

/-- The rules that join the parts of a call are safe if every variable of its bound arguments occurs
in an argument that one edge provides. -/
theorem checkSafety_parts_iff {edges : List PassingEdge} {terms : List Term} {p' : CallPattern}
    (hbefore : ∀ e ∈ edges, (∀ l ∈ (r.adorn derived p i).bodyBefore e.source, l.isPositive = true) ∧
      ∀ x ∈ e.vars, x ∈ positiveVars ((r.adorn derived p i).bodyBefore e.source))
    (hnamed : ∀ x ∈ Atom.vars ⟨.magic p', p'.select terms⟩, isAnonymous x = false) :
    (∀ c ∈ ((r.adorn derived p i).parts labels p' terms edges).map (fun part => ⟨part.1, part.2⟩) ++
        [⟨⟨.magic p', p'.select terms⟩, ((r.adorn derived p i).parts labels p' terms edges).map
          fun part => .positive part.1⟩], Rule.checkSafety c registry options = .ok ()) ↔
      ∀ t ∈ p'.select terms, ∀ x ∈ t.occurrences,
        ∃ e ∈ edges, ∃ u ∈ terms, u.isCoveredBy e.vars = true ∧ x ∈ u.occurrences := by
  -- A label has values for its arguments, so that only the rule that joins them matters.
  have hlabels : ∀ c ∈ ((r.adorn derived p i).parts labels p' terms edges).map
      (fun part => ⟨part.1, part.2⟩), Rule.checkSafety c registry options = .ok () := by
    rw [List.forall_mem_map, List.forall_mem_map]
    rintro ⟨e, label⟩ he
    obtain ⟨hpositive, hvars⟩ := hbefore e (List.fst_mem_of_mem_zipIdx he)
    exact (Rule.checkSafety_of_positive hpositive).2 fun x hx =>
      .inr (hvars x (CallPattern.mem_known_of_mem_vars hx))
  rw [List.forall_mem_append, and_iff_right hlabels, List.forall_mem_singleton,
    Rule.checkSafety_of_positive (by rw [List.forall_mem_map]; exact fun _ _ => rfl)]
  simp only [mem_positiveVars_parts]
  constructor
  · intro h t ht x hx
    have hx := Term.mem_varsAll.2 ⟨t, ht, hx⟩
    exact (h x hx).resolve_left (by simp [hnamed x hx])
  · intro h x hx
    obtain ⟨t, ht, hx⟩ := Term.mem_varsAll.1 hx
    exact .inr (h t ht x hx)

/-- The rules that derive the call of a node are safe if labels carry the call, and only then. -/
theorem checkSafety_callRules_iff (hbody : ∀ l ∈ r.body, ∀ a ∈ l.atom?, a.IsPlain)
    (hk : k ∈ (r.passingGraph p).order) :
    (∀ c ∈ ((r.adorn derived p i).callRules labels k ((r.passingGraph p).adorned derived k)).1,
      c.checkSafety registry options = .ok ()) ↔ (r.passingGraph p).CarriesCall derived k := by
  have hplain : ∀ a ∈ ((r.passingGraph p).literal k).atom?, a.IsPlain :=
    hbody _ (mem_literals_ofRule.1 (PassingGraph.literal_mem hk))
  rw [PassingGraph.CarriesCall]
  unfold AdornedRule.callRules
  split
  -- A literal that makes no call has no rules, and nothing to be carried.
  · next hnone =>
    refine iff_of_true nofun fun p' hp' _ t ht => ?_
    cases hfree : p'.isAllFree with
    | true => simp [CallPattern.select_eq_nil hfree] at ht
    | false =>
      rw [PassingGraph.adorned, Literal.magicCall?_eq_some_iff.2
        ⟨Literal.adorn_eq_of_call? hp', hfree, rfl⟩] at hnone
      cases hnone
  · next target p' terms hmagic =>
    obtain ⟨hadorned, -, rfl⟩ := Literal.magicCall?_eq_some_iff.1 hmagic
    obtain ⟨hcall, rfl⟩ := Literal.call?_of_adorn_eq hplain hadorned
    have htarget := fun x hx => exists_of_mem_vars_target (x := x) hplain hadorned hx
    have hbefore : ∀ e ∈ (r.passingGraph p).entering k,
        (∀ l ∈ (r.adorn derived p i).bodyBefore e.source, l.isPositive = true) ∧
          ∀ x ∈ e.vars, x ∈ positiveVars ((r.adorn derived p i).bodyBefore e.source) :=
      fun _ => bodyBefore_spec hk
    have hgraph : (r.adorn derived p i).graph = r.passingGraph p := rfl
    have hlength : ((r.passingGraph p).entering k).length =
        ((r.passingGraph p).enteringBySource k).length := (List.length_mergeSort _).symm
    simp only [hgraph, hcall, hlength, Option.mem_def, Option.some.injEq, forall_eq',
      ← PassingGraph.mem_enteringBySource] at htarget hbefore ⊢
    generalize (r.passingGraph p).enteringBySource k = edges at htarget hbefore ⊢
    rcases edges with _ | ⟨e, _ | ⟨e', es⟩⟩
    -- Nothing is passed, so that the bound arguments are ground.
    · refine iff_of_true (List.forall_mem_singleton.2 ?_) fun hle => absurd hle (by simp)
      refine (Rule.checkSafety_of_positive fun l => Atom.isPositive_of_mem_guard).2 fun x hx => ?_
      obtain ⟨-, e, he, -⟩ := htarget x hx
      cases he
    -- One source has all the values.
    · obtain ⟨hpositive, hvars⟩ := hbefore e (.head _)
      refine iff_of_true (List.forall_mem_singleton.2 ?_) fun hle => absurd hle (by simp)
      refine (Rule.checkSafety_of_positive hpositive).2 fun x hx => ?_
      obtain ⟨-, e', he', hxe⟩ := htarget x hx
      obtain rfl := List.mem_singleton.1 he'
      exact .inr (hvars x hxe)
    · refine (checkSafety_parts_iff hbefore fun x hx => (htarget x hx).1).trans ?_
      exact ⟨fun h _ => h, fun h => h (Nat.le_add_left 2 es.length)⟩

end Calls

/-! ## The rules of a magic program -/

namespace MagicProgram

variable {rules : List Rule} {q : Query} {program : MagicProgram} {c r : Rule} {p : CallPattern}
  {hasFacts : Predicate → Bool}

/-- The rules that derive the calls of the query are safe: a query is called with nothing bound, so
that literals pass all the values. -/
theorem checkSafety_seed (hplain : ∀ r ∈ q.toRule :: rules, r.IsPlain)
    (hc : c ∈ (AdornedProgram.ofQuery rules q).seedRules (derivedPredicates rules)) :
    c.checkSafety registry options = .ok () := by
  obtain ⟨k, hk, target, p, terms, hcall, rfl⟩ := AdornedProgram.mem_seedRules.1 hc
  obtain ⟨hadorned, -, rfl⟩ := Literal.magicCall?_eq_some_iff.1 hcall
  have hg := isFor_queryGraph hplain
  refine (Rule.checkSafety_of_positive fun l =>
    PassingGraph.isPositive_of_mem_select_depends).2 fun x hx => .inr ?_
  obtain ⟨-, e, he, hxe⟩ := exists_of_mem_vars_target
    (isPlain_of_mem_body hplain hg (mem_body_of_mem_order hg hk)) hadorned hx
  obtain ⟨j, hj, rfl⟩ := PassingGraph.mem_entering.1 he
  have hpasses := (List.mem_filter.1 hxe).2
  refine PassingGraph.mem_positiveVars_select (PassingGraph.sources_subset_depends hj) ?_ hpasses
  have hk := PassingGraph.mem_order.1 hk
  have hlt := (PassingGraph.of_mem_sources hj).1
  have hne : j ≠ 0 := by
    rintro rfl
    cases hpasses
  exact PassingGraph.mem_order.2 ⟨Nat.pos_of_ne_zero hne, by omega⟩

/-- A rule stays safe when its literals are adorned and it is guarded. -/
theorem checkSafety_guarded {i : Nat} (hg : (r.passingGraph p).IsFor rules q r.body)
    (h : r.checkSafety registry options = .ok ()) :
    (r.adorn (derivedPredicates rules) p i).guarded.checkSafety registry options = .ok () := by
  have hmem : ∀ l ∈ (r.passingGraph p).adornedBody (derivedPredicates rules),
      l ∈ (r.adorn (derivedPredicates rules) p i).guarded.body := fun l hl =>
    List.mem_append_right _ hl
  refine Rule.checkSafety_of_body h rfl (fun y hy => ?_) (fun c hc => ?_) fun l hl => ?_
  · rw [← mem_positiveVars_adornedBody (derivedPredicates rules) hg] at hy
    obtain ⟨a, ha, hy⟩ := mem_positiveVars.1 hy
    exact mem_positiveVars.2 ⟨a, hmem _ ha, hy⟩
  -- Adorning leaves calls of builtins as they are.
  · obtain ⟨hk, hliteral⟩ := adorned_node hg hc
    refine hmem _ (PassingGraph.mem_adornedBody.2 ⟨_, hk, ?_⟩)
    rw [PassingGraph.adorned, hliteral]
    rfl
  · rcases List.mem_append.1 hl with hl | hl
    · exact .inl (Atom.isPositive_of_mem_guard hl)
    · obtain ⟨l', hl', -, -, hself⟩ := exists_of_mem_adornedBody hg hl
      cases hpositive : l.isPositive with
      | true => exact .inl rfl
      | false => exact .inr (hself hpositive ▸ hl')

theorem checkSafety_bridge (p : CallPattern) : p.bridge.checkSafety registry options = .ok () := by
  refine (Rule.checkSafety_of_positive fun l hl => ?_).2 fun x hx => .inr ?_
  · rcases List.mem_append.1 hl with hl | hl
    · exact Atom.isPositive_of_mem_guard hl
    · obtain rfl := List.mem_singleton.1 hl
      rfl
  · exact mem_positiveVars.2 ⟨⟨p.plain, p.bridge.head.terms⟩, List.mem_append_right _ (.head _), hx⟩

section Evaluated

variable (hsafe : checkSafety rules registry options = .ok ())
  (hplain : ∀ r ∈ q.toRule :: rules, r.IsPlain) (h : ofQuery rules q = .ok program)

include hsafe hplain h

/-- The magic program of a safe program is safe if its rules for the calls of literals are. -/
theorem checkSafety_evaluated_of_callRules
    (hcalls : ∀ c ∈ program.evaluated hasFacts, ∀ p ∈ (AdornedProgram.ofQuery rules q).patterns,
      ∀ r ∈ rules, r.head.predicate = p.plain → ∀ i, ∀ k ∈ (r.passingGraph p).order, ∀ labels,
        c ∈ ((r.adorn (derivedPredicates rules) p i).callRules labels k
          ((r.passingGraph p).adorned (derivedPredicates rules) k)).1 →
        c.checkSafety registry options = .ok ()) :
    checkSafety (program.evaluated hasFacts) registry options = .ok () := by
  have hrules := forM_eq_ok_iff.1 hsafe
  refine forM_eq_ok_iff.2 fun c hc => ?_
  rcases cases_of_mem_evaluated h hc with
    hseed | ⟨p, hp, r, hr, hhead, i, rfl | ⟨k, hk, labels, hcall⟩⟩ | ⟨hr, -⟩ | ⟨p, rfl⟩
  · exact checkSafety_seed hplain hseed
  · exact checkSafety_guarded (isFor_ruleGraph hplain hr hp hhead) (hrules r hr)
  · exact hcalls c hc p hp r hr hhead i k hk labels hcall
  · exact hrules c hr
  · exact checkSafety_bridge p

/-- The magic program of a safe program is safe if the bodies of rules that derive calls have values
for the variables of their heads. -/
theorem checkSafety_evaluated_of_head
    (hcalls : ∀ c ∈ program.evaluated hasFacts, c.head.predicate.isCall = true →
      ∀ x ∈ c.head.vars, x ∈ positiveVars c.body) :
    checkSafety (program.evaluated hasFacts) registry options = .ok () := by
  refine checkSafety_evaluated_of_callRules hsafe hplain h ?_
  intro c hc p _ r _ _ i k hk labels hcall
  refine (Rule.checkSafety_of_positive (isPositive_of_mem_callRules hk hcall)).2 fun x hx => ?_
  exact .inr (hcalls c hc (AdornedRule.isCall_head_of_mem_callRules hcall) x hx)

end Evaluated

/-- In a safe magic program the labels carry the calls. -/
theorem carriesCall_of_checkSafety_evaluated (hplain : ∀ r ∈ q.toRule :: rules, r.IsPlain)
    (h : ofQuery rules q = .ok program)
    (hevaluated : checkSafety (program.evaluated hasFacts) registry options = .ok ())
    (hp : p ∈ (AdornedProgram.ofQuery rules q).patterns) (hr : r ∈ rules)
    (hhead : r.head.predicate = p.plain) {k : Nat} (hk : k ∈ (r.passingGraph p).order) :
    (r.passingGraph p).CarriesCall (derivedPredicates rules) k := by
  obtain ⟨i, hi⟩ := List.mem_iff_getElem?.1 hr
  obtain ⟨-, hcomplete⟩ := AdornedProgram.guardedRules_complete
    (AdornedProgram.mem_rules_ofQuery.2 ⟨p, hp, r, i, hi, hhead, rfl⟩)
  obtain ⟨n, hn⟩ := hcomplete _ k (PassingGraph.mem_zipIdx_adornedBody.2 ⟨hk, rfl⟩)
  exact (checkSafety_callRules_iff (hplain r (.tail _ hr)).2 hk).1 fun c hc =>
    forM_eq_ok_iff.1 hevaluated c (mem_evaluated h (.inr (hn c hc)))

/-- The magic program of a safe program is safe if its labels carry the calls of all literals that
several nodes pass bindings to, and only then. -/
theorem checkSafety_evaluated_iff (hsafe : checkSafety rules registry options = .ok ())
    (hplain : ∀ r ∈ q.toRule :: rules, r.IsPlain) (h : ofQuery rules q = .ok program) :
    checkSafety (program.evaluated hasFacts) registry options = .ok () ↔
      ∀ p ∈ (AdornedProgram.ofQuery rules q).patterns, ∀ r ∈ rules, r.head.predicate = p.plain →
        ∀ k ∈ (r.passingGraph p).order,
          (r.passingGraph p).CarriesCall (derivedPredicates rules) k := by
  constructor
  · intro hevaluated p hp r hr hhead k hk
    exact carriesCall_of_checkSafety_evaluated hplain h hevaluated hp hr hhead hk
  · intro hcarries
    refine checkSafety_evaluated_of_callRules hsafe hplain h ?_
    intro c _ p hp r hr hhead i k hk labels hc
    exact (checkSafety_callRules_iff (hplain r (.tail _ hr)).2 hk).2
      (hcarries p hp r hr hhead k hk) c hc

end MagicProgram

/-- Rules of which the first calls the second with the given arguments, where the values of `X` and
`Y` come from two literals. -/
def joinRules (arguments : List Term) : List Rule :=
  let a (name : String) (terms : List Term) : Atom := ⟨.plain name terms.length, terms⟩
  [⟨a "r" [.var "Z"], [.positive (a "c" [.var "Z"]), .positive (a "a" [.var "X"]),
      .positive (a "b" [.var "Y"]), .positive (a "p" arguments)]⟩,
    ⟨a "p" (arguments.map fun _ => .var "W"), [.positive (a "d" [.var "W"])]⟩]

/-- A query that the first of these rules answers. -/
def joinQuery : Query :=
  ⟨[.positive ⟨.plain "r" 1, [.const (.integer 1)]⟩]⟩

theorem checkSafety_evaluated_joinRules :
    let rules := joinRules [.app "f" [.var "X"], .var "Y"]
    checkSafety rules .standard {} = .ok () ∧ (∀ r ∈ joinQuery.toRule :: rules, r.IsPlain) ∧
    ∃ program, MagicProgram.ofQuery rules joinQuery = .ok program ∧
      checkSafety (program.evaluated fun _ => false) .standard {} = .ok () := by
  have hsafe : checkSafety (joinRules [.app "f" [.var "X"], .var "Y"]) .standard {} = .ok () := by
    decide +kernel
  have hplain : ∀ r ∈ joinQuery.toRule :: joinRules [.app "f" [.var "X"], .var "Y"],
      r.IsPlain := by
    decide +kernel
  refine ⟨hsafe, hplain, _, rfl,
    (MagicProgram.checkSafety_evaluated_iff hsafe hplain rfl).2 (by decide +kernel)⟩

/-- No label has the values of a compound argument that come from two literals. -/
theorem checkSafety_evaluated_ne_ok :
    let rules := joinRules [.app "f" [.var "X", .var "Y"]]
    checkSafety rules .standard {} = .ok () ∧ (∀ r ∈ joinQuery.toRule :: rules, r.IsPlain) ∧
    ∃ program, MagicProgram.ofQuery rules joinQuery = .ok program ∧
      checkSafety (program.evaluated fun _ => false) .standard {} ≠ .ok () := by
  intro rules
  have hplain : ∀ r ∈ joinQuery.toRule :: rules, r.IsPlain := by decide +kernel
  refine ⟨by decide +kernel, hplain, _, rfl, fun hevaluated => ?_⟩
  -- The call of the last literal is the one that is not carried.
  have hcalls : ∃ p ∈ (AdornedProgram.ofQuery rules joinQuery).patterns, ∃ r ∈ rules,
      r.head.predicate = p.plain ∧ ∃ k ∈ (r.passingGraph p).order,
        ¬(r.passingGraph p).CarriesCall (derivedPredicates rules) k := by
    decide +kernel
  obtain ⟨p, hp, r, hr, hhead, k, hk, hcalls⟩ := hcalls
  exact hcalls (MagicProgram.carriesCall_of_checkSafety_evaluated hplain rfl hevaluated hp hr
    hhead hk)

end Deduction
