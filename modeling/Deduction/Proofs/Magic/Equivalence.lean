import Deduction.Proofs.Agreement
import Deduction.Proofs.Answers
import Deduction.Proofs.KnowledgeBase
import Deduction.Proofs.Magic.Soundness

/-!
# Magic sets keep the answers

A query has the same answer whether it is answered from all facts that the rules derive or from
those that its magic program derives (`magicSets_agree`).

The models of the two programs are compared. Predicates that keep their rules have the same facts in
both, which settles what negated literals mean. What the magic program derives for a pattern, the
rules derive for the predicate (`MagicModels.subset_supported`). Conversely, a fact that the rules
derive is found under every pattern that it has been called with (`MagicModels.subset_served`),
because the rules that derive it make their calls, each once the calls before it have been answered.
-/

namespace Deduction

/-! ## Two models -/

/-- The models of a program, and of the rules that are evaluated to answer a query, over the same
facts. -/
structure MagicModels (registry : Registry) (rules : List Rule) (q : Query) (program : MagicProgram)
    (facts : Database) (M M' : Set Atom) : Prop where
  /-- The atoms are plain, and nothing is computed. -/
  simple : ∀ r ∈ q.toRule :: rules, r.IsSimple registry
  /-- The variables of heads occur in positive literals. -/
  limited : ∀ r ∈ rules, ∀ x ∈ r.head.vars, x ∈ positiveVars r.body
  /-- The rules have levels. -/
  levels : ∃ level, IsLevelling rules level
  /-- The query has a magic program. -/
  rewritten : MagicProgram.ofQuery rules q = .ok program
  /-- The facts are over plain predicates. -/
  plain : facts.IsPlain
  /-- The facts are ground. -/
  ground : facts.IsGround
  /-- The model of the program. -/
  model : IsStableModel registry rules facts.atoms M
  /-- The model of the rules that are evaluated to answer the query. -/
  magicModel : IsStableModel registry (program.evaluated facts.hasTuples) facts.atoms M'

namespace MagicModels

variable {registry : Registry} {rules : List Rule} {q : Query} {program : MagicProgram}
  {facts : Database} {M M' : Set Atom} {g : PassingGraph} {body : List Literal} {l : Literal}
  {v : Valuation} {limited : List String} {p : CallPattern} {t : Tuple}

/-! ## Plain predicates -/

theorem isPlain (h : MagicModels registry rules q program facts M M') :
    ∀ r ∈ q.toRule :: rules, r.IsPlain :=
  isPlain_of_isSimple h.simple

theorem isMagicRule (h : MagicModels registry rules q program facts M M') {c : Rule}
    (hc : c ∈ program.evaluated facts.hasTuples) : IsMagicRule rules q program c :=
  isMagicRule_of_mem h.rewritten h.simple hc

/-- Predicates that keep their rules have the same facts in both models. -/
theorem agree (h : MagicModels registry rules q program facts M M') {k : Predicate}
    (hk : program.Keeps rules k) (t : Tuple) : ⟨k, t⟩ ∈ M ↔ ⟨k, t⟩ ∈ M' := by
  obtain ⟨level, hlevel⟩ := h.levels
  refine h.model.agree h.magicModel hlevel ⟨fun r hr => ⟨fun hmem => ?_, fun hmem => ?_⟩, ?_⟩ hk t
  · exact List.mem_append_left _ (hr.2 r hmem rfl)
  · -- No other rules of the magic program have plain heads.
    exact ((h.isMagicRule hmem).mem_of_isPlain_head hr.1).1
  · -- What the kept rules use without a pattern is kept as well.
    intro r hr hkeeps l hl a ha
    refine MagicProgram.keeps_of_mem_body h.rewritten (.inr ⟨r, hkeeps.2 r hr rfl, hl⟩) ha ?_
    exact ((h.simple r (.tail _ hr)).plain.2 l hl a ha).1

/-- Facts for plain predicates that the magic program derives are derived by the rules. -/
theorem mem_of_isPlain (h : MagicModels registry rules q program facts M M') {k : Predicate}
    (hk : k.isPlain = true) (ht : ⟨k, t⟩ ∈ M') : ⟨k, t⟩ ∈ M := by
  by_cases hhead : ∃ c ∈ program.evaluated facts.hasTuples, c.head.predicate = k
  · obtain ⟨c, hc, rfl⟩ := hhead
    exact (h.agree ((h.isMagicRule hc).mem_of_isPlain_head hk).2 t).2 ht
  · -- A predicate without rules has the given facts.
    push Not at hhead
    exact h.model.1.1 ((h.magicModel.mem_iff_of_not_head hhead t).1 ht)

/-! ## Soundness -/

/-- The facts that the magic program derives and that, where they are for a pattern, the rules
derive for the predicate. -/
def supported (M M' : Set Atom) : Set Atom :=
  {a ∈ M' | ∀ p, a.predicate = .adorned p → ⟨p.plain, a.terms⟩ ∈ M}

theorem isSound_supported (h : MagicModels registry rules q program facts M M') :
    IsSound M (supported M M') :=
  ⟨fun _ ha hplain => h.mem_of_isPlain hplain ha.1, fun _ ha => ha.2⟩

/-- A predicate that an adorned body negates keeps its rules. -/
theorem keeps_of_negative (h : MagicModels registry rules q program facts M M')
    (hg : g.IsFor rules q body) {a : Atom} (ha : .negative a ∈ body)
    (hused : ∀ l ∈ g.adornedBody (derivedPredicates rules),
      l ∈ program.query.body ∨ ∃ c ∈ program.rules, l ∈ c.body) :
    program.Keeps rules a.predicate := by
  obtain ⟨hk, hliteral⟩ := adorned_node hg ha
  have hadorned : g.adorned (derivedPredicates rules) (g.node (.negative a)) = .negative a := by
    rw [PassingGraph.adorned, hliteral]
    rfl
  have hmem := PassingGraph.mem_adornedBody.2 ⟨_, hk, hadorned.symm⟩
  exact MagicProgram.keeps_of_mem_body h.rewritten (hused _ hmem) rfl
    (isPlain_of_mem_body h.isPlain hg ha a rfl).1

/-- The magic program has a guarded copy of a rule for every pattern that its predicate is called
with. -/
theorem exists_guarded_mem (h : MagicModels registry rules q program facts M M') {r : Rule}
    (hr : r ∈ rules) (hp : p ∈ (AdornedProgram.ofQuery rules q).patterns)
    (hhead : r.head.predicate = p.plain) :
    ∃ i, r.adorn (derivedPredicates rules) p i ∈ (AdornedProgram.ofQuery rules q).rules ∧
      (r.adorn (derivedPredicates rules) p i).guarded ∈ program.rules := by
  obtain ⟨i, hi⟩ := List.mem_iff_getElem?.1 hr
  have hmem := AdornedProgram.mem_rules_ofQuery.2 ⟨p, hp, r, i, hi, hhead, rfl⟩
  obtain ⟨-, magic, hmagic, hrules⟩ := mem_rules_of_ofQuery h.rewritten
  exact ⟨i, hmem,
    (hrules _).2 (.inl ((hmagic _).2 (.inr (AdornedProgram.guardedRules_complete hmem).1)))⟩

theorem keeps_of_negative_rule (h : MagicModels registry rules q program facts M M') {r : Rule}
    (hr : r ∈ rules) (hp : p ∈ (AdornedProgram.ofQuery rules q).patterns)
    (hhead : r.head.predicate = p.plain) {a : Atom} (ha : .negative a ∈ r.body) :
    program.Keeps rules a.predicate := by
  obtain ⟨i, -, hguarded⟩ := h.exists_guarded_mem hr hp hhead
  exact h.keeps_of_negative (isFor_ruleGraph h.isPlain hr hp hhead) ha fun l hl =>
    .inr ⟨_, hguarded, List.mem_append_right _ hl⟩

/-- What the magic program derives for a pattern is derived for the predicate. -/
theorem subset_supported (h : MagicModels registry rules q program facts M M') :
    M' ⊆ supported M M' := by
  -- The supported facts are closed under the rules of the magic program.
  refine h.magicModel.2 ⟨fun a ha => ⟨h.magicModel.1.1 ha, fun p hp => ?_⟩,
    fun c hc v hv hbody => ⟨?_, fun p hp => ?_⟩⟩
  · -- The given facts are for no pattern.
    have hplain := h.plain a ha
    rw [hp] at hplain
    cases hplain
  · exact h.magicModel.1.2 c hc v hv fun l hl =>
      (hbody l hl).mono (fun _ _ _ ht => ht.1) fun _ _ _ ht => ht
  · refine ((h.isMagicRule hc).isSound_head h.simple h.limited h.isSound_supported h.model.1.2 hv
      fun l hl => (hbody l hl).mono (fun _ _ _ ht => ht) ?_).2 p hp
    -- Negated predicates keep their rules, and so have the same facts.
    rintro a rfl t ht
    exact (h.agree (IsMagicRule.keeps_of_negative h.simple h.rewritten hc hl) t).1 ht

/-! ## Calls -/

/-- Every call of an adorned body is made under a valuation once the positive literals before it are
stored. -/
def MakesCalls (g : PassingGraph) (rules : List Rule) (M' : Set Atom) (v : Valuation) : Prop :=
  ∀ k ∈ g.order, ∀ target p terms,
    (g.adorned (derivedPredicates rules) k).magicCall? = some (target, p, terms) →
    (∀ j ∈ g.order, j < k → (g.literal j).isPositive = true →
      (g.adorned (derivedPredicates rules) j).IsStored M' v) →
    target.replace v ∈ M'

/-- A rule that is called makes its calls. -/
theorem makesCalls_rule (h : MagicModels registry rules q program facts M M') {r : Rule}
    (hr : r ∈ rules) (hp : p ∈ (AdornedProgram.ofQuery rules q).patterns)
    (hhead : r.head.predicate = p.plain) (hv : ∀ x, (v x).isGround = true)
    (hcalled : p.Called M' (r.head.terms.map (Term.replace v))) :
    MakesCalls (r.passingGraph p) rules M' v := by
  intro k hk target p' terms hcall hstored
  obtain ⟨i, hi, -⟩ := h.exists_guarded_mem hr hp hhead
  -- The rules of the call are there, whatever labels they have.
  obtain ⟨n, hn⟩ := (AdornedProgram.guardedRules_complete hi).2 _ k
    (PassingGraph.mem_zipIdx_adornedBody.2 ⟨hk, rfl⟩)
  refine AdornedRule.target_mem (r := r.adorn (derivedPredicates rules) p i) (N := M')
    (fun c hc => h.magicModel.1.2 c (mem_evaluated h.rewritten (.inr (hn c hc)))) hv hcall
    (fun l hl => Atom.isStored_of_mem_guard (a := ⟨.adorned p, r.head.terms⟩) rfl
      (h.simple r (.tail _ hr)).named.head hcalled hl) ?_
  -- A source waits for literals that come before the call.
  intro e he l hl
  obtain ⟨⟨hlt, hsource⟩, -⟩ := PassingGraph.of_mem_enteringBySource he
  obtain ⟨j, hj, hjk, hpositive, rfl⟩ := PassingGraph.of_mem_select_source hlt hsource hl
  exact hstored j hj hjk hpositive

/-- The query makes its calls. -/
theorem makesCalls_query (h : MagicModels registry rules q program facts M M')
    (hv : ∀ x, (v x).isGround = true) : MakesCalls q.passingGraph rules M' v := by
  intro k hk target p terms hcall hstored
  have hseed : _ ∈ (AdornedProgram.ofQuery rules q).seedRules (derivedPredicates rules) :=
    AdornedProgram.mem_seedRules.2 ⟨k, hk, target, p, terms, hcall, rfl⟩
  refine h.magicModel.1.2 _ (mem_evaluated h.rewritten (.inl hseed)) v hv
    (bodyHolds_of_isStored fun l hl => ?_)
  obtain ⟨j, hj, hdepends, rfl⟩ := PassingGraph.mem_select_adornedBody.1 hl
  obtain ⟨hlt, hsource⟩ := PassingGraph.of_mem_depends hdepends
  -- Nothing comes from the head of a query, whose node is `0`.
  have hpos := (PassingGraph.mem_order.1 hj).1
  exact hstored j hj hlt (hsource.resolve_left (by omega))

/-! ## Completeness -/

/-- The facts that the magic program has found under all patterns that they have been called
with. -/
def served (rules : List Rule) (q : Query) (M' : Set Atom) : Set Atom :=
  {a | ∀ p ∈ (AdornedProgram.ofQuery rules q).patterns, p.plain = a.predicate →
    p.Called M' a.terms → ⟨.adorned p, a.terms⟩ ∈ M'}

/-- If positive literals are about facts that have been served, and make their calls, their adorned
forms are stored. -/
theorem isStored_adorned (h : MagicModels registry rules q program facts M M')
    (hg : g.IsFor rules q body) (hcalls : MakesCalls g rules M' v)
    (hbody : ∀ a, .positive a ∈ body →
      ∃ t, ⟨a.predicate, t⟩ ∈ M ∩ served rules q M' ∧ Term.MatchesAll v a.terms t)
    {k : Nat} (hk : k ∈ g.order) (hpositive : (g.literal k).isPositive = true) :
    (g.adorned (derivedPredicates rules) k).IsStored M' v := by
  -- By induction on the node: the literals before it are stored, so that its call is made, and
  -- being served the fact is found under the pattern of the call.
  induction k using Nat.strong_induction_on with
  | h k ih =>
    have hl := mem_body_of_mem_order hg hk
    have hplain := isPlain_of_mem_body h.isPlain hg hl
    have htarget := hcalls k hk
    have hpattern := hg.calls k hk
    rw [PassingGraph.adorned] at htarget ⊢
    obtain ⟨a, ha⟩ : ∃ a, g.literal k = .positive a := by
      cases hliteral : g.literal k with
      | positive a => exact ⟨a, rfl⟩
      | negative a => rw [hliteral] at hpositive; cases hpositive
      | builtin c => rw [hliteral] at hpositive; cases hpositive
    rw [ha] at hl hplain htarget hpattern ⊢
    obtain ⟨t, ⟨ht, hserved⟩, hmatches⟩ := hbody a hl
    cases hcall : (Literal.positive a).call? (derivedPredicates rules) (g.boundAt k) with
    | none =>
      -- Without rules the predicate keeps what there is of them.
      have hnot := Literal.not_mem_of_call?_eq_none hcall (hplain a rfl).1
      have hkeeps : program.Keeps rules a.predicate := ⟨(hplain a rfl).1, fun r hr hhead =>
        absurd (mem_derivedPredicates.2 ⟨r, hr, hhead⟩) hnot⟩
      rw [Literal.adorn_eq_self hcall]
      exact ⟨a, t, rfl, (h.agree hkeeps t).1 ht, hmatches⟩
    | some p =>
      obtain ⟨terms, heq, hp⟩ := Literal.exists_of_call?_of_isPlain hcall hplain
      obtain rfl := Literal.positive.inj heq
      rw [Literal.adorn_eq_of_call? hcall] at htarget ⊢
      have hknown : wildcard ∉ g.boundAt k := fun hmem =>
        Term.ne_wildcard_of_named (PassingGraph.not_isAnonymous_of_mem_boundAt hmem) rfl
      have hcalled : p.Called M' t := by
        -- The bound arguments of the call are those of the fact.
        by_cases hfree : p.isAllFree = true
        · exact .inl hfree
        · have hmade := htarget _ p terms
            (Literal.magicCall?_eq_some_iff.2 ⟨rfl, by simpa using hfree, rfl⟩)
            fun j hj hlt hpositive => ih j hlt hj hpositive
          have hselect : p.select t = (p.select terms).map (Term.replace v) := by
            rw [hp]
            exact CallPattern.select_of_matchesAll hknown hmatches
          exact .inr (by rw [hselect]; exact hmade)
      exact ⟨⟨.adorned p, terms⟩, t, rfl, hserved p (hpattern p hcall) rfl hcalled, hmatches⟩

/-- The adorned literals of a body hold if the body does for facts that have been served. -/
theorem holds_adorned (h : MagicModels registry rules q program facts M M')
    (hg : g.IsFor rules q body) (hcalls : MakesCalls g rules M' v)
    (hkeeps : ∀ a, .negative a ∈ body → program.Keeps rules a.predicate)
    (hbody : ∀ l ∈ body, l.Holds registry limited (M ∩ served rules q M') M v)
    (hl : l ∈ g.adornedBody (derivedPredicates rules)) : l.Holds registry limited M' M' v := by
  obtain ⟨k, hk, rfl⟩ := PassingGraph.mem_adornedBody.1 hl
  have hliteral := mem_body_of_mem_order hg hk
  cases hpositive : (g.literal k).isPositive with
  | true =>
    obtain ⟨a, t, ha, ht, hmatches⟩ :=
      h.isStored_adorned hg hcalls (fun a ha => hbody _ ha) hk hpositive
    rw [ha]
    exact ⟨t, ht, hmatches⟩
  | false =>
    rw [PassingGraph.adorned, (Literal.kind_adorn _ _ _).2 hpositive]
    refine (hbody _ hliteral).mono (fun a ha => ?_) fun a ha t ht => ?_
    · rw [ha] at hpositive
      cases hpositive
    · exact (h.agree (hkeeps a (ha ▸ hliteral)) t).2 ht

/-- The given facts are carried over to the patterns that they are called with. -/
theorem facts_subset_served (h : MagicModels registry rules q program facts M M') :
    facts.atoms ⊆ served rules q M' := by
  rintro ⟨k, t⟩ ha p hp rfl hcalled
  obtain ⟨v, hv, hvalues⟩ := exists_valuation_bridge (p := p)
    (Database.length_of_mem_atoms ha) (h.ground _ ha)
  have hnamed : ∀ x ∈ p.bridge.head.vars, isAnonymous x = false := fun x =>
    not_isAnonymous_of_mem_bridge
  -- The predicate has rules, so that one of them is there for the pattern.
  have hbridge : p.bridge ∈ program.evaluated facts.hasTuples := by
    obtain ⟨-, hderived, -⟩ := AdornedProgram.patterns_spec
      (fun r hr => (h.simple r (.tail _ hr)).plain) (h.simple q.toRule (.head _)).plain
    obtain ⟨r, hr, hhead⟩ := mem_derivedPredicates.1 (hderived p hp)
    obtain ⟨i, -, hguarded⟩ := h.exists_guarded_mem hr hp hhead
    exact List.mem_append_right _ (mem_bridgeRules.2
      ⟨p, rfl, Database.hasTuples_iff.2 ⟨_, ha, rfl⟩, _, hguarded, rfl⟩)
  have hhead : p.bridge.head.replace v = ⟨.adorned p, t⟩ := congrArg (Atom.mk _) hvalues
  rw [← hhead]
  refine h.magicModel.1.2 _ hbridge v hv (bodyHolds_of_isStored fun l hl => ?_)
  rcases List.mem_append.1 hl with hl | hl
  · exact Atom.isStored_of_mem_guard rfl hnamed (hvalues.symm ▸ hcalled) hl
  · obtain rfl := List.mem_singleton.1 hl
    exact ⟨_, t, rfl, h.magicModel.1.1 ha,
      (Term.matchesAll_iff_eq_map (not_mem_occurrences_of_named hnamed)).2 hvalues⟩

/-- The facts that the rules derive are served. -/
theorem subset_served (h : MagicModels registry rules q program facts M M') :
    M ⊆ served rules q M' := by
  -- The served facts of the model are closed under its rules.
  suffices hM : M ⊆ M ∩ served rules q M' from fun a ha => (hM ha).2
  refine h.model.2 ⟨fun a ha => ⟨h.model.1.1 ha, h.facts_subset_served ha⟩,
    fun r hr v hv hbody => ⟨?_, fun p hp hhead hcalled => ?_⟩⟩
  · exact h.model.1.2 r hr v hv fun l hl =>
      (hbody l hl).mono (fun _ _ _ ht => ht.1) fun _ _ _ ht => ht
  · have hg := isFor_ruleGraph h.isPlain hr hp hhead.symm
    obtain ⟨i, -, hguarded⟩ := h.exists_guarded_mem hr hp hhead.symm
    refine h.magicModel.1.2 _ (List.mem_append_left _ hguarded) v hv fun l hl => ?_
    rcases List.mem_append.1 hl with hl | hl
    · -- The guard holds because the head has been called.
      obtain ⟨a, t, rfl, ht, hmatches⟩ := Atom.isStored_of_mem_guard
        (a := ⟨.adorned p, r.head.terms⟩) rfl (h.simple r (.tail _ hr)).named.head hcalled hl
      exact ⟨t, ht, hmatches⟩
    · refine (h.holds_adorned hg (h.makesCalls_rule hr hp hhead.symm hv hcalled)
        (fun a ha => h.keeps_of_negative_rule hr hp hhead.symm ha) hbody hl).limited_congr
        fun x => (mem_positiveVars_guarded hg (h.limited r hr)).symm

/-! ## Queries -/

/-- A query holds under the same valuations in both models. -/
theorem query_holds_iff (h : MagicModels registry rules q program facts M M')
    (hv : ∀ x, (v x).isGround = true) :
    BodyHolds registry q.body M M v ↔ BodyHolds registry program.query.body M' M' v := by
  have hg := isFor_queryGraph h.isPlain
  have hquery : ∀ l, l ∈ program.query.body ↔
      l ∈ q.passingGraph.adornedBody (derivedPredicates rules) := fun l => by
    rw [(mem_rules_of_ofQuery h.rewritten).1, mem_query_body h.isPlain]
  have hkeeps : ∀ a, .negative a ∈ q.body → program.Keeps rules a.predicate := fun a ha =>
    h.keeps_of_negative hg ha fun l hl => .inl ((hquery l).2 hl)
  rw [bodyHolds_congr hquery]
  constructor
  · intro hbody l hl
    refine (h.holds_adorned hg (h.makesCalls_query hv) hkeeps (fun l hl => ?_) hl).limited_congr
      fun x => (mem_positiveVars_adornedBody _ hg).symm
    exact (hbody l hl).mono (fun _ _ _ ht => ⟨ht, h.subset_served ht⟩) fun _ _ _ ht => ht
  · intro hbody l hl
    have hadorned : ∀ l ∈ q.passingGraph.adornedBody (derivedPredicates rules),
        l.Holds registry (positiveVars q.body) (supported M M') M' v := fun l hl =>
      ((hbody l hl).mono (fun _ _ _ ht => h.subset_supported ht) fun _ _ _ ht => ht).limited_congr
        fun x => mem_positiveVars_adornedBody _ hg
    refine (holds_of_adorned h.isPlain h.isSound_supported hg hadorned hl).mono
      (fun _ _ _ ht => ht) ?_
    rintro a rfl t ht
    exact (h.agree (hkeeps a hl) t).1 ht

end MagicModels

/-! ## Answers -/

/-- The context with magic sets switched on or off. -/
def Context.withMagicSets (ctx : Context) (magicSets : Bool) : Context :=
  { ctx with settings := { ctx.settings with magicSets } }

section Answers

variable {ctx ctx' : Context} {facts : Database} {rules : List Rule} {q : Query}
  {rounds rounds' : Nat} {program : MagicProgram} {result result' : Database × Statistics}
  {a a' : Answer} (hregistry : ctx'.registry = ctx.registry) (hfacts : facts.IsGround)
  (hsimple : ∀ r ∈ q.toRule :: rules, r.IsSimple ctx.registry)

include hfacts hsimple in
/-- Evaluation yields the model of the rules. -/
theorem isStableModel_of_isSimple
    (h : ctx.evaluate rounds rules facts = some (.ok result)) :
    result.1.IsGround ∧ IsStableModel ctx.registry rules facts.atoms result.1.atoms :=
  Context.evaluate_isStableModel hfacts (fun r hr => (hsimple r (.tail _ hr)).compares)
    (fun r hr => (hsimple r (.tail _ hr)).named) h

include hregistry hfacts hsimple

/-- Two evaluations of the same rules give the same answers. -/
theorem answers_same_of_evaluate (hstrata : ∃ s, stratify rules = .ok s)
    (h : ctx.evaluate rounds rules facts = some (.ok result))
    (h' : ctx'.evaluate rounds' rules facts = some (.ok result'))
    (ha : ctx.answer q result.1 = .ok a) (ha' : ctx'.answer q result'.1 = .ok a') :
    a.vars = a'.vars ∧ a.relation.same a'.relation = true := by
  obtain ⟨s, hs⟩ := hstrata
  have hquery := hsimple q.toRule (.head _)
  obtain ⟨hground, hmodel⟩ := isStableModel_of_isSimple hfacts hsimple h
  obtain ⟨hground', hmodel'⟩ := isStableModel_of_isSimple hfacts (hregistry ▸ hsimple) h'
  rw [hregistry] at hmodel'
  refine answers_same hground hground' hquery.compares hquery.named (hregistry ▸ hquery.compares)
    hquery.named rfl (fun _ => Iff.rfl) (fun v hv => ?_) ha ha'
  rw [hmodel.unique hmodel' (isLevelling_stratum hs), hregistry]

/-- The answer from the magic program of a query is the one from its rules. -/
theorem answers_same_of_magic (hplain : facts.IsPlain)
    (hstrata : ∃ s, stratify rules = .ok s) (hprogram : MagicProgram.ofQuery rules q = .ok program)
    (h : ctx.evaluate rounds (program.evaluated facts.hasTuples) facts = some (.ok result))
    (h' : ctx'.evaluate rounds' rules facts = some (.ok result'))
    (ha : ctx.answer program.query result.1 = .ok a) (ha' : ctx'.answer q result'.1 = .ok a') :
    a.vars = a'.vars ∧ a.relation.same a'.relation = true := by
  obtain ⟨s, hs⟩ := hstrata
  have hquery := hsimple q.toRule (.head _)
  have hmagic := fun c (hc : c ∈ program.evaluated facts.hasTuples) =>
    isMagicRule_of_mem hprogram hsimple hc
  obtain ⟨hground, hmodel⟩ := Context.evaluate_isStableModel hfacts
    (fun c hc => (hmagic c hc).compares hsimple) (fun c hc => (hmagic c hc).named hsimple) h
  obtain ⟨hground', hmodel'⟩ := isStableModel_of_isSimple hfacts (hregistry ▸ hsimple) h'
  have hsafe := (Context.evaluate_eq_ok_iff.1 h').1
  have hmodels : MagicModels ctx.registry rules q program facts result'.1.atoms result.1.atoms :=
    { simple := hsimple
      limited := fun r hr x hx => (hsafe r hr).mem_positiveVars_of_head
        (hregistry ▸ (hsimple r (.tail _ hr)).compares) (hsimple r (.tail _ hr)).named hx
      levels := ⟨_, isLevelling_stratum hs⟩
      rewritten := hprogram
      plain := hplain
      ground := hfacts
      model := hregistry ▸ hmodel'
      magicModel := hmodel }
  obtain ⟨hvars, hpositive, hcompares, hnamed⟩ := query_simple hsimple hprogram
  refine answers_same hground hground' hcompares hnamed (hregistry ▸ hquery.compares) hquery.named
    hvars hpositive (fun v hv => ?_) ha ha'
  rw [hregistry]
  exact (hmodels.query_holds_iff hv).symm

end Answers

/-- Magic sets keep the answers. If a query is put to two knowledge bases about the same facts and
rules, one that uses magic sets and one that does not, whatever queries they have answered before,
and both have an answer, then the answers are the same. The facts are ground and over plain
predicates; the atoms of the rules and of the query are plain, their builtins are comparisons, and
their only anonymous variables are wildcards in positive and negated literals. -/
theorem magicSets_agree {ctx : Context} {facts : Database} {rules : List Rule} {q : Query}
    {rounds rounds' : Nat} {kb kb' : KnowledgeBase} {a a' : Answer} (hfacts : facts.IsGround)
    (hplain : facts.IsPlain)
    (hrules : ∀ r ∈ rules, r.IsSimple ctx.registry) (hquery : q.toRule.IsSimple ctx.registry)
    (hkb : KnowledgeBase.Reached (ctx.withMagicSets true) facts rules kb)
    (hkb' : KnowledgeBase.Reached (ctx.withMagicSets false) facts rules kb')
    (h : (kb.execute rounds q).1 = some (.ok a))
    (h' : (kb'.execute rounds' q).1 = some (.ok a')) :
    a.vars = a'.vars ∧ a.relation.same a'.relation = true := by
  have hsimple : ∀ r ∈ q.toRule :: rules, r.IsSimple ctx.registry :=
    List.forall_mem_cons.2 ⟨hquery, hrules⟩
  have hregistry : (ctx.withMagicSets false).registry = (ctx.withMagicSets true).registry := rfl
  obtain ⟨_, db', _, heval', ha'⟩ := hkb'.isAbout.of_direct (.inl rfl) h'
  cases hprogram : MagicProgram.ofQuery rules q with
  | ok program =>
    obtain ⟨db, _, heval, ha⟩ := hkb.isAbout.of_magic rfl hprogram h
    exact answers_same_of_magic hregistry hfacts hsimple hplain
      hkb.isAbout.strata hprogram heval heval' ha ha'
  | error e =>
    -- Both knowledge bases answer the query from all facts.
    obtain ⟨_, db, _, heval, ha⟩ := hkb.isAbout.of_direct (.inr ⟨e, hprogram⟩) h
    exact answers_same_of_evaluate hregistry hfacts hsimple
      hkb.isAbout.strata heval heval' ha ha'

/-- Where paths from a node lead to, and which nodes are apart from there. -/
def pathQuery : Query :=
  ⟨[.positive ⟨.plain "path" 2, [.const (.integer 1), .var "Y"]⟩,
    .positive ⟨.plain "apart" 2, [.var "Y", .var "Z"]⟩]⟩

/-- Node 4 is apart from both nodes to which node 1 has a path. -/
theorem magicSets_agree_paths :
    let int (n : Int64) : Term := .const (.integer n)
    ∃ kb kb' a a',
      KnowledgeBase.Reached (Context.withMagicSets ⟨.standard, {}⟩ true) edgeFacts pathRules kb ∧
      KnowledgeBase.Reached (Context.withMagicSets ⟨.standard, {}⟩ false) edgeFacts pathRules kb' ∧
      (kb.execute 9 pathQuery).1 = some (.ok a) ∧ (kb'.execute 9 pathQuery).1 = some (.ok a') ∧
      a.relation.tuples = [[int 2, int 4], [int 1, int 4]] ∧
      a.vars = a'.vars ∧ a.relation.same a'.relation = true := by
  intro int
  let make (magicSets : Bool) : KnowledgeBase :=
    ⟨edgeFacts, pathRules, Context.withMagicSets ⟨.standard, {}⟩ magicSets, none, false⟩
  have hkb : KnowledgeBase.Reached (Context.withMagicSets ⟨.standard, {}⟩ true) edgeFacts
      pathRules (make true) := .create (KnowledgeBase.create_eq_of_isSome (by decide +kernel))
  have hkb' : KnowledgeBase.Reached (Context.withMagicSets ⟨.standard, {}⟩ false) edgeFacts
      pathRules (make false) := .create (KnowledgeBase.create_eq_of_isSome (by decide +kernel))
  have hanswer : (((make true).execute 9 pathQuery).1.bind Except.toOption).any
      (fun a => a.relation.tuples = [[int 2, int 4], [int 1, int 4]]) = true := by
    decide +kernel
  obtain ⟨a, ha, htuples⟩ := Outcome.exists_ok_and hanswer
  obtain ⟨a', ha'⟩ : ∃ a, ((make false).execute 9 pathQuery).1 = some (.ok a) :=
    Outcome.exists_ok (by decide +kernel)
  exact ⟨_, _, a, a', hkb, hkb', ha, ha', htuples, magicSets_agree
    (Database.isGround_iff.2 (by decide +kernel)) (Database.isPlain_of_entries (by decide +kernel))
    (by decide +kernel) (by decide +kernel) hkb hkb' ha ha'⟩

end Deduction
