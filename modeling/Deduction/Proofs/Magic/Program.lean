import Mathlib.Logic.Function.Basic
import Deduction.Proofs.Graph
import Deduction.Proofs.Magic.Calls

/-!
# Magic programs

What the rules of a magic program are. Each of them derives calls, answers the calls of a pattern,
carries stored facts over to a pattern, or is a rule of the program itself (`IsMagicRule`). If the
program has plain atoms and computes nothing, so does its magic program (`IsMagicRule.compares`,
`IsMagicRule.named`).

Predicates that are used without a pattern keep all their rules (`MagicProgram.keeps_of_mem_body`).
-/

namespace Deduction

/-! ## Rules that are kept -/

section Used

variable {rules : List Rule} {derived : List Predicate} {body : List Literal} {p : Predicate}

theorem mem_derivedPredicates :
    p ∈ derivedPredicates rules ↔ ∃ r ∈ rules, r.head.predicate = p := by
  rw [derivedPredicates, List.mem_eraseDups, List.mem_map]

theorem mem_plainUses :
    p ∈ plainUses derived body ↔
      p.isPlain = true ∧ p ∈ derived ∧ ∃ l ∈ body, ∃ a, l.atom? = some a ∧ a.predicate = p := by
  rw [plainUses, List.mem_filterMap]
  constructor
  · rintro ⟨l, hl, hp⟩
    split at hp
    · next a ha =>
      split at hp
      · next huse =>
        obtain rfl := Option.some.inj hp
        obtain ⟨hplain, hderived⟩ := Bool.and_eq_true_iff.1 huse
        exact ⟨hplain, by simpa using hderived, l, hl, a, ha, rfl⟩
      · cases hp
    · cases hp
  · rintro ⟨hplain, hderived, l, hl, a, ha, rfl⟩
    refine ⟨l, hl, ?_⟩
    simp [ha, hplain, hderived]

/-- The predicates with rules, each with those that its rules use without a pattern. -/
def usesGraph (rules : List Rule) : FiniteGraph Predicate :=
  ⟨derivedPredicates rules, fun p =>
    (rules.filter (·.head.predicate = p)).flatMap fun r =>
      plainUses (derivedPredicates rules) r.body⟩

/-- The rules that a body uses are rules of the program. With them are all rules for the predicates
that the body or one of these rules uses. -/
theorem usedRules_spec (rules : List Rule) (body : List Literal) :
    (∀ r ∈ usedRules rules body, r ∈ rules) ∧
    ∀ p, (p ∈ plainUses (derivedPredicates rules) body ∨
        ∃ r ∈ usedRules rules body, p ∈ plainUses (derivedPredicates rules) r.body) →
      ∀ r ∈ rules, r.head.predicate = p → r ∈ usedRules rules body := by
  -- A rule is used if its head can be reached from a predicate that the body uses.
  have hused : ∀ r, r ∈ usedRules rules body ↔ r ∈ rules ∧
      ∃ s ∈ plainUses (derivedPredicates rules) body,
        (usesGraph rules).Reaches s r.head.predicate := by
    intro r
    rw [usedRules, List.mem_filter, decide_eq_true_eq, List.mem_flatMap]
    refine and_congr_right fun _ => exists_congr fun s => ?_
    rw [List.mem_eraseDups]
    exact and_congr_right fun hs => (usesGraph rules).mem_reachable (mem_plainUses.1 hs).2.1
  refine ⟨fun r hr => ((hused r).1 hr).1, fun p hp r hr hhead => (hused r).2 ⟨hr, ?_⟩⟩
  rw [hhead]
  rcases hp with hp | ⟨r', hr', hp⟩
  · exact ⟨p, hp, .refl⟩
  · -- The rule that uses the predicate is reached, and the use is one more edge.
    obtain ⟨hmem, s, hs, hreaches⟩ := (hused r').1 hr'
    refine ⟨s, hs, hreaches.tail ⟨?_, (mem_plainUses.1 hp).2.1⟩⟩
    exact List.mem_flatMap.2 ⟨r', List.mem_filter.2 ⟨hmem, by simp⟩, hp⟩

theorem mem_usedRules_of_head {r r' : Rule} (hr : r ∈ usedRules rules body) (hr' : r' ∈ rules)
    (h : r'.head.predicate = r.head.predicate) : r' ∈ usedRules rules body := by
  rw [usedRules, List.mem_filter] at hr ⊢
  exact ⟨hr', by rw [h]; exact hr.2⟩

end Used

/-! ## Adorned bodies -/

/-- A rule with plain atoms that computes nothing. -/
structure Rule.IsSimple (r : Rule) (registry : Registry) : Prop where
  /-- The atoms are plain. -/
  plain : r.IsPlain
  /-- The builtins are comparisons. -/
  compares : r.OnlyCompares registry
  /-- The anonymous variables are wildcards in positive or negated literals. -/
  named : r.WellNamed

theorem isPlain_of_isSimple {registry : Registry} {rules : List Rule}
    (h : ∀ r ∈ rules, r.IsSimple registry) : ∀ r ∈ rules, r.IsPlain :=
  fun r hr => (h r hr).plain

instance (r : Rule) (registry : Registry) : Decidable (r.IsSimple registry) :=
  decidable_of_iff (r.IsPlain ∧ r.OnlyCompares registry ∧ r.WellNamed)
    ⟨fun ⟨plain, compares, named⟩ => ⟨plain, compares, named⟩,
      fun ⟨plain, compares, named⟩ => ⟨plain, compares, named⟩⟩

/-- The passing graph of a body of the program, as it answers the calls of a query. -/
structure PassingGraph.IsFor (g : PassingGraph) (rules : List Rule) (q : Query)
    (body : List Literal) : Prop where
  /-- The body is the one of the query or of a rule. -/
  source : ∃ r ∈ q.toRule :: rules, body = r.body
  /-- The literals of the graph are those of the body. -/
  literals : ∀ l, l ∈ g.literals ↔ l ∈ body
  /-- The literals of the graph are distinct. -/
  nodup : g.literals.Nodup
  /-- The adorned program has the patterns of the calls. -/
  calls : ∀ k ∈ g.order, ∀ p,
    (g.literal k).call? (derivedPredicates rules) (g.boundAt k) = some p →
      p ∈ (AdornedProgram.ofQuery rules q).patterns

section Bodies

variable {rules : List Rule} {q : Query} {g : PassingGraph}
  {body : List Literal} {k : Nat} {l : Literal} {p : CallPattern}

theorem mem_body_of_mem_order (hg : g.IsFor rules q body) (hk : k ∈ g.order) : g.literal k ∈ body :=
  (hg.literals _).1 (PassingGraph.literal_mem hk)

theorem adorned_node (hg : g.IsFor rules q body) (hl : l ∈ body) :
    g.node l ∈ g.order ∧ g.literal (g.node l) = l :=
  PassingGraph.literal_node ((hg.literals l).2 hl)

variable (hplain : ∀ r ∈ q.toRule :: rules, r.IsPlain)

include hplain in
theorem isPlain_of_mem_body (hg : g.IsFor rules q body) (hl : l ∈ body) :
    ∀ a ∈ l.atom?, a.IsPlain := by
  obtain ⟨r, hr, rfl⟩ := hg.source
  exact (hplain r hr).2 l hl

include hplain in
theorem isFor_queryGraph : q.passingGraph.IsFor rules q q.body where
  source := ⟨q.toRule, .head _, rfl⟩
  literals _ := mem_literals_ofRule
  nodup := nodup_literals_ofRule _ _ _
  calls k hk p hp := by
    obtain ⟨hasked, -⟩ := AdornedProgram.patterns_spec
      (fun r hr => hplain r (.tail _ hr)) (hplain q.toRule (.head _))
    have hnode := PassingGraph.node_literal (nodup_literals_ofRule _ _ _) hk
    -- The node of a literal of the graph is the one that it was taken from.
    refine hasked _ (mem_literals_ofRule.1 (PassingGraph.literal_mem hk)) p ?_
    rwa [show q.passingGraph.node _ = k from hnode]

include hplain in
/-- The adorned query has the literals of the adorned body of its passing graph. -/
theorem mem_query_body :
    l ∈ (AdornedProgram.ofQuery rules q).query.body ↔
      l ∈ q.passingGraph.adornedBody (derivedPredicates rules) := by
  have hg := isFor_queryGraph hplain
  rw [PassingGraph.mem_adornedBody, AdornedProgram.query_ofQuery, List.mem_map]
  constructor
  · rintro ⟨l, hl, rfl⟩
    obtain ⟨hk, hliteral⟩ := adorned_node hg hl
    exact ⟨_, hk, by rw [PassingGraph.adorned, hliteral, AdornedProgram.boundInQuery]⟩
  · rintro ⟨k, hk, rfl⟩
    refine ⟨_, mem_body_of_mem_order hg hk, ?_⟩
    rw [PassingGraph.adorned, AdornedProgram.boundInQuery,
      PassingGraph.node_literal hg.nodup hk]

include hplain in
theorem isFor_ruleGraph {r : Rule} (hr : r ∈ rules)
    (hp : p ∈ (AdornedProgram.ofQuery rules q).patterns) (hhead : r.head.predicate = p.plain) :
    (r.passingGraph p).IsFor rules q r.body where
  source := ⟨r, .tail _ hr, rfl⟩
  literals _ := mem_literals_ofRule
  nodup := nodup_literals_ofRule _ _ _
  calls k hk p' hp' := by
    obtain ⟨-, -, hclosed⟩ := AdornedProgram.patterns_spec
      (fun r hr => hplain r (.tail _ hr)) (hplain q.toRule (.head _))
    refine hclosed p hp p' (AdornedProgram.mem_callsFor.2 ⟨r, hr, hhead, ?_⟩)
    exact List.mem_filterMap.2 ⟨k, hk, hp'⟩

include hplain in
/-- The bound arguments of the calls of an adorned body have named variables only. -/
theorem isCall_target {target : Atom} {terms : List Term} (hg : g.IsFor rules q body)
    (hk : k ∈ g.order)
    (hcall : (g.adorned (derivedPredicates rules) k).magicCall? = some (target, p, terms)) :
    target.IsCall := by
  obtain ⟨hadorned, -, rfl⟩ := Literal.magicCall?_eq_some_iff.1 hcall
  refine ⟨rfl, fun x hx => ?_⟩
  rw [Literal.eq_ofTerms_of_adorn_eq
    (isPlain_of_mem_body hplain hg (mem_body_of_mem_order hg hk)) hadorned] at hx
  exact PassingGraph.not_isAnonymous_of_mem_boundAt (CallPattern.mem_known_of_mem_vars hx)

end Bodies

/-! ## The rules of an adorned program -/

namespace AdornedRule

variable {r : AdornedRule} {c : Rule}

theorem exists_of_mem_magicRules {labels : Nat} (h : c ∈ (r.magicRules labels).1) :
    ∃ l k labels, (l, k) ∈ r.rule.body.zipIdx 1 ∧ c ∈ (r.callRules labels k l).1 := by
  rcases exists_of_mem_collect (g := fun n x => r.callRules n x.2 x.1) (fun _ _ _ => rfl) h with
    h | ⟨⟨l, k⟩, hmem, n, hc⟩
  · cases h
  · exact ⟨l, k, n, hmem, hc⟩

theorem callRules_subset_magicRules (labels : Nat) {l : Literal} {k : Nat}
    (h : (l, k) ∈ r.rule.body.zipIdx 1) :
    ∃ n, ∀ c ∈ (r.callRules n k l).1, c ∈ (r.magicRules labels).1 :=
  (collect_complete (g := fun n x => r.callRules n x.2 x.1) (fun _ _ _ => rfl) _ _ _).2 (l, k) h

/-- The rules for the calls that a rule makes, and the rule itself. -/
def answerRules (r : AdornedRule) (labels : Nat) : List Rule × Nat :=
  ((r.magicRules labels).1 ++ [r.guarded], (r.magicRules labels).2)

end AdornedRule

namespace AdornedProgram

variable {program : AdornedProgram} {c : Rule} {r : AdornedRule}

/-- The rules that answer calls are the guarded ones and those of the calls that they make. -/
theorem exists_of_mem_guardedRules (h : c ∈ program.guardedRules) :
    ∃ r ∈ program.rules, c = r.guarded ∨
      ∃ l k labels, (l, k) ∈ r.rule.body.zipIdx 1 ∧ c ∈ (r.callRules labels k l).1 := by
  rcases exists_of_mem_collect (g := fun n (r : AdornedRule) => r.answerRules n)
    (by simp [AdornedRule.answerRules]) h with h | ⟨r, hr, n, hc⟩
  · cases h
  · refine ⟨r, hr, ?_⟩
    rcases List.mem_append.1 hc with hc | hc
    · exact .inr (AdornedRule.exists_of_mem_magicRules hc)
    · exact .inl (List.mem_singleton.1 hc)

theorem guardedRules_complete (h : r ∈ program.rules) :
    r.guarded ∈ program.guardedRules ∧
    ∀ l k, (l, k) ∈ r.rule.body.zipIdx 1 →
      ∃ n, ∀ c ∈ (r.callRules n k l).1, c ∈ program.guardedRules := by
  -- The labels that are used up before do not matter.
  obtain ⟨n, hn⟩ : ∃ n, ∀ c ∈ (r.answerRules n).1, c ∈ program.guardedRules :=
    (collect_complete (g := fun n (r : AdornedRule) => r.answerRules n)
      (by simp [AdornedRule.answerRules]) _ _ _).2 r h
  refine ⟨hn _ (List.mem_append_right _ (.head _)), fun l k hl => ?_⟩
  obtain ⟨m, hm⟩ := AdornedRule.callRules_subset_magicRules n hl
  exact ⟨m, fun c hc => hn c (List.mem_append_left _ (hm c hc))⟩

theorem mem_seedRules {derived : List Predicate} :
    c ∈ program.seedRules derived ↔
      ∃ k ∈ program.queryGraph.order, ∃ target p terms,
        (program.queryGraph.adorned derived k).magicCall? = some (target, p, terms) ∧
        c = ⟨target, PassingGraph.select (program.queryGraph.adornedBody derived)
          (program.queryGraph.depends k)⟩ := by
  simp only [seedRules, List.mem_filterMap, Prod.exists, PassingGraph.mem_zipIdx_adornedBody,
    Option.map_eq_some_iff]
  constructor
  · rintro ⟨_, k, ⟨hk, rfl⟩, target, p, terms, hcall, rfl⟩
    exact ⟨k, hk, target, p, terms, hcall, rfl⟩
  · rintro ⟨k, hk, target, p, terms, hcall, rfl⟩
    exact ⟨_, k, ⟨hk, rfl⟩, target, p, terms, hcall, rfl⟩

theorem mem_rules_ofQuery {rules : List Rule} {q : Query} :
    r ∈ (ofQuery rules q).rules ↔ ∃ p ∈ (ofQuery rules q).patterns, ∃ (r' : Rule) (i : Nat),
      rules[i]? = some r' ∧ r'.head.predicate = p.plain ∧
        r = r'.adorn (derivedPredicates rules) p i := by
  rw [rules_ofQuery, List.mem_flatMap]
  exact exists_congr fun p => and_congr_right fun _ => mem_rulesFor

end AdornedProgram

/-! ## The rules of a magic program -/

/-- The rules that are evaluated to answer a query: those of its magic program, and those that carry
stored facts over to patterns. -/
def MagicProgram.evaluated (program : MagicProgram) (hasFacts : Predicate → Bool) : List Rule :=
  program.rules ++ bridgeRules program.rules hasFacts

/-- A predicate of the program whose rules all belong to the magic program. -/
def MagicProgram.Keeps (program : MagicProgram) (rules : List Rule) (p : Predicate) : Prop :=
  p.isPlain = true ∧ ∀ r ∈ rules, r.head.predicate = p → r ∈ program.rules

/-- What the rules that are evaluated to answer a query are for. -/
inductive IsMagicRule (rules : List Rule) (q : Query) (program : MagicProgram) : Rule → Prop where
  /-- Rules derive calls from the literals of an adorned body. -/
  | call {g : PassingGraph} {body : List Literal} {c : Rule} (hg : g.IsFor rules q body)
      (hc : c.DerivesCalls (g.adornedBody (derivedPredicates rules))) :
      IsMagicRule rules q program c
  /-- Rules answer the calls of a pattern. -/
  | guarded {r : Rule} {p : CallPattern} (hr : r ∈ rules)
      (hp : p ∈ (AdornedProgram.ofQuery rules q).patterns) (hhead : r.head.predicate = p.plain)
      (i : Nat) : IsMagicRule rules q program (r.adorn (derivedPredicates rules) p i).guarded
  /-- Rules carry stored facts over to a pattern. -/
  | bridge (p : CallPattern) : IsMagicRule rules q program p.bridge
  /-- Rules are those of the program for a predicate that keeps its rules. -/
  | kept {r : Rule} (hr : r ∈ rules) (hkeeps : program.Keeps rules r.head.predicate) :
    IsMagicRule rules q program r

section Program

variable {registry : Registry} {rules : List Rule} {q : Query} {program : MagicProgram} {c : Rule}
  {hasFacts : Predicate → Bool} (h : MagicProgram.ofQuery rules q = .ok program)

include h in
/-- The parts of a magic program. -/
theorem mem_rules_of_ofQuery :
    program.query = (AdornedProgram.ofQuery rules q).query ∧
    ∃ magic : List Rule, (∀ c, c ∈ magic ↔
        c ∈ (AdornedProgram.ofQuery rules q).seedRules (derivedPredicates rules) ∨
          c ∈ (AdornedProgram.ofQuery rules q).guardedRules) ∧
      ∀ c, c ∈ program.rules ↔
        c ∈ magic ∨ c ∈ usedRules rules (program.query.body ++ magic.flatMap (·.body)) := by
  simp only [MagicProgram.ofQuery] at h
  split at h
  · obtain rfl := Except.ok.inj h
    refine ⟨rfl, _, fun c => List.mem_append, fun c => ?_⟩
    rw [List.mem_eraseDups, List.mem_append]
  · cases h

/-- The rules that derive calls and answer them are evaluated. -/
theorem mem_evaluated
    (h : MagicProgram.ofQuery rules q = .ok program)
    (hc : c ∈ (AdornedProgram.ofQuery rules q).seedRules (derivedPredicates rules) ∨
      c ∈ (AdornedProgram.ofQuery rules q).guardedRules) : c ∈ program.evaluated hasFacts := by
  obtain ⟨-, magic, hmagic, hrules⟩ := mem_rules_of_ofQuery h
  exact List.mem_append_left _ ((hrules c).2 (.inl ((hmagic c).2 hc)))

theorem mem_bridgeRules :
    c ∈ bridgeRules rules hasFacts ↔ ∃ p : CallPattern, c = p.bridge ∧ hasFacts p.plain = true ∧
      ∃ r ∈ rules, r.head.predicate = .adorned p := by
  rw [bridgeRules, List.mem_eraseDups, List.mem_filterMap]
  constructor
  · rintro ⟨r, hr, hc⟩
    split at hc
    · next p hp =>
      split at hc
      · next hfacts =>
        refine ⟨p, (Option.some.inj hc).symm, hfacts, r, hr, ?_⟩
        cases hhead : r.head.predicate <;> simp_all [Predicate.pattern?]
      · cases hc
    · cases hc
  · rintro ⟨p, rfl, hfacts, r, hr, hhead⟩
    refine ⟨r, hr, ?_⟩
    simp [hhead, Predicate.pattern?, hfacts]

include h in
/-- The rules of a magic program derive the calls of the query, answer the calls of a pattern, derive
the calls that such a rule makes, or are kept. -/
theorem cases_of_mem_rules (hc : c ∈ program.rules) :
    c ∈ (AdornedProgram.ofQuery rules q).seedRules (derivedPredicates rules) ∨
    (∃ p ∈ (AdornedProgram.ofQuery rules q).patterns, ∃ r ∈ rules, r.head.predicate = p.plain ∧
      ∃ i, c = (r.adorn (derivedPredicates rules) p i).guarded ∨
        ∃ k ∈ (r.passingGraph p).order, ∃ labels,
          c ∈ ((r.adorn (derivedPredicates rules) p i).callRules labels k
            ((r.passingGraph p).adorned (derivedPredicates rules) k)).1) ∨
    c ∈ rules ∧ ∀ r ∈ rules, r.head.predicate = c.head.predicate → r ∈ program.rules := by
  obtain ⟨-, magic, hmagic, hrules⟩ := mem_rules_of_ofQuery h
  rcases (hrules c).1 hc with hc | hc
  · rcases (hmagic c).1 hc with hc | hc
    · exact .inl hc
    · obtain ⟨ar, har, hc⟩ := AdornedProgram.exists_of_mem_guardedRules hc
      obtain ⟨p, hp, r, i, hi, hhead, rfl⟩ := AdornedProgram.mem_rules_ofQuery.1 har
      refine .inr (.inl ⟨p, hp, r, List.mem_of_getElem? hi, hhead, i, hc.imp_right ?_⟩)
      rintro ⟨l, k, labels, hl, hc⟩
      obtain ⟨hk, rfl⟩ := PassingGraph.mem_zipIdx_adornedBody.1 hl
      exact ⟨k, hk, labels, hc⟩
  · -- Rules are kept for whole predicates.
    refine .inr (.inr ⟨(usedRules_spec _ _).1 c hc, fun r hr hhead => ?_⟩)
    exact (hrules r).2 (.inr (mem_usedRules_of_head hc hr hhead))

include h in
/-- The rules that are evaluated are those of the magic program, or carry stored facts over. -/
theorem cases_of_mem_evaluated (hc : c ∈ program.evaluated hasFacts) :
    c ∈ (AdornedProgram.ofQuery rules q).seedRules (derivedPredicates rules) ∨
    (∃ p ∈ (AdornedProgram.ofQuery rules q).patterns, ∃ r ∈ rules, r.head.predicate = p.plain ∧
      ∃ i, c = (r.adorn (derivedPredicates rules) p i).guarded ∨
        ∃ k ∈ (r.passingGraph p).order, ∃ labels,
          c ∈ ((r.adorn (derivedPredicates rules) p i).callRules labels k
            ((r.passingGraph p).adorned (derivedPredicates rules) k)).1) ∨
    (c ∈ rules ∧ ∀ r ∈ rules, r.head.predicate = c.head.predicate → r ∈ program.rules) ∨
    ∃ p : CallPattern, c = p.bridge := by
  rcases List.mem_append.1 hc with hc | hc
  · exact (cases_of_mem_rules h hc).imp_right (.imp_right .inl)
  · obtain ⟨p, rfl, -⟩ := mem_bridgeRules.1 hc
    exact .inr (.inr (.inr ⟨p, rfl⟩))

include h in
theorem isMagicRule_of_mem (hsimple : ∀ r ∈ q.toRule :: rules, r.IsSimple registry)
    (hc : c ∈ program.evaluated hasFacts) : IsMagicRule rules q program c := by
  have hplain := isPlain_of_isSimple hsimple
  rcases cases_of_mem_evaluated h hc with
    hc | ⟨p, hp, r, hr, hhead, i, rfl | ⟨k, hk, labels, hc⟩⟩ | ⟨hmem, hkept⟩ | ⟨p, rfl⟩
  · obtain ⟨k, hk, target, p, terms, hcall, rfl⟩ := AdornedProgram.mem_seedRules.1 hc
    have hg := isFor_queryGraph hplain
    exact .call hg ⟨isCall_target hplain hg hk hcall,
      fun l hl => .inl (AdornedRule.mem_of_mem_select hl)⟩
  · exact .guarded hr hp hhead i
  · -- The rule of a call belongs to a literal of the adorned body.
    have hg := isFor_ruleGraph hplain hr hp hhead
    refine .call hg (AdornedRule.derivesCalls_of_mem_callRules ?_ ?_ hc)
    · exact (hsimple r (.tail _ hr)).named.head
    · exact fun target p terms hcall => isCall_target hplain hg hk hcall
  · exact .kept hmem ⟨(hsimple c (.tail _ hmem)).plain.1.1, hkept⟩
  · exact .bridge p

include h in
/-- Predicates that are used without a pattern keep their rules. -/
theorem MagicProgram.keeps_of_mem_body {l : Literal} {a : Atom}
    (hl : l ∈ program.query.body ∨ ∃ c ∈ program.rules, l ∈ c.body) (ha : l.atom? = some a)
    (hplain : a.predicate.isPlain = true) : program.Keeps rules a.predicate := by
  obtain ⟨-, magic, hmagic, hrules⟩ := mem_rules_of_ofQuery h
  refine ⟨hplain, fun r hr hhead => (hrules r).2 (.inr ?_)⟩
  have huse : ∀ body : List Literal, l ∈ body →
      a.predicate ∈ plainUses (derivedPredicates rules) body := fun body hl =>
    mem_plainUses.2 ⟨hplain, mem_derivedPredicates.2 ⟨r, hr, hhead⟩, l, hl, a, ha, rfl⟩
  -- What the query and the rules for calls use is kept, and what kept rules use is kept with them.
  refine (usedRules_spec rules _).2 a.predicate ?_ r hr hhead
  rcases hl with hl | ⟨c, hc, hl⟩
  · exact .inl (huse _ (List.mem_append_left _ hl))
  · rcases (hrules c).1 hc with hc | hc
    · exact .inl (huse _ (List.mem_append_right _ (List.mem_flatMap.2 ⟨c, hc, hl⟩)))
    · exact .inr ⟨c, hc, huse _ hl⟩

end Program

/-! ## Magic programs compute nothing -/

section Simple

variable {registry : Registry} {rules : List Rule} {q : Query} {g : PassingGraph}
  {body : List Literal} {c : Rule} {l : Literal} {program : MagicProgram}
  (hsimple : ∀ r ∈ q.toRule :: rules, r.IsSimple registry)

/-- Literals of an adorned body come from literals of the body with the same variables. -/
theorem exists_of_mem_adornedBody {derived : List Predicate} (hg : g.IsFor rules q body)
    (hl : l ∈ g.adornedBody derived) :
    ∃ l' ∈ body, l.vars = l'.vars ∧ l.isPositive = l'.isPositive ∧
      (l.isPositive = false → l = l') := by
  obtain ⟨k, hk, rfl⟩ := PassingGraph.mem_adornedBody.1 hl
  obtain ⟨hkind, hself⟩ := Literal.kind_adorn (g.literal k) derived (g.boundAt k)
  exact ⟨g.literal k, mem_body_of_mem_order hg hk, Literal.vars_adorn _ _ _, hkind,
    fun hpositive => hself (hkind ▸ hpositive)⟩

/-- Adorning a body keeps the variables of its positive literals. -/
theorem mem_positiveVars_adornedBody (derived : List Predicate) (hg : g.IsFor rules q body)
    {x : String} : x ∈ positiveVars (g.adornedBody derived) ↔ x ∈ positiveVars body := by
  simp only [positiveVars, List.mem_flatMap, List.mem_filter]
  constructor
  · rintro ⟨l, ⟨hl, hpositive⟩, hx⟩
    obtain ⟨l', hl', hvars, hkind, -⟩ := exists_of_mem_adornedBody hg hl
    exact ⟨l', ⟨hl', hkind ▸ hpositive⟩, hvars ▸ hx⟩
  · -- A literal of the body occurs in the adorned body as the literal of its node.
    rintro ⟨l, ⟨hl, hpositive⟩, hx⟩
    obtain ⟨hk, hliteral⟩ := adorned_node hg hl
    refine ⟨_, ⟨PassingGraph.mem_adornedBody.2 ⟨_, hk, rfl⟩, ?_⟩, ?_⟩
    · rw [PassingGraph.adorned, (Literal.kind_adorn _ _ _).1, hliteral]
      exact hpositive
    · rw [PassingGraph.adorned, Literal.vars_adorn, hliteral]
      exact hx

/-- Guarding a rule and adorning its body keeps the variables of its positive literals, if the
variables of the head are among them. -/
theorem mem_positiveVars_guarded {r : Rule} {p : CallPattern} {i : Nat} {x : String}
    (hg : (r.passingGraph p).IsFor rules q r.body)
    (hlimited : ∀ x ∈ r.head.vars, x ∈ positiveVars r.body) :
    x ∈ positiveVars (r.adorn (derivedPredicates rules) p i).guarded.body ↔
      x ∈ positiveVars r.body := by
  rw [← mem_positiveVars_adornedBody (derivedPredicates rules) hg]
  simp only [positiveVars, List.mem_flatMap, List.mem_filter]
  constructor
  · rintro ⟨l, ⟨hl, hpositive⟩, hx⟩
    rcases List.mem_append.1 hl with hl | hl
    · -- A guard has variables of the head only.
      have hguard := Atom.mem_vars_of_mem_guard hl hx
      have hhead := hlimited x hguard
      rw [← mem_positiveVars_adornedBody (derivedPredicates rules) hg] at hhead
      simpa only [positiveVars, List.mem_flatMap, List.mem_filter] using hhead
    · exact ⟨l, ⟨hl, hpositive⟩, hx⟩
  · rintro ⟨l, ⟨hl, hpositive⟩, hx⟩
    exact ⟨l, ⟨List.mem_append_right _ hl, hpositive⟩, hx⟩

include hsimple in
/-- The names of the variables in a literal of a rule that is simple: anonymous variables are
wildcards, and there are none in builtins. -/
theorem named_of_mem_adornedBody (hg : g.IsFor rules q body)
    (hl : l ∈ g.adornedBody (derivedPredicates rules)) :
    (∀ x ∈ l.vars, isAnonymous x = true → x = wildcard) ∧
    (l.isBuiltin = true → ∀ x ∈ l.vars, isAnonymous x = false) := by
  obtain ⟨l', hl', hvars, -, hself⟩ := exists_of_mem_adornedBody hg hl
  obtain ⟨r, hr, rfl⟩ := hg.source
  have hnamed := (hsimple r hr).named
  rw [hvars]
  -- A builtin is not adorned.
  refine ⟨hnamed.body l' hl', fun hbuiltin => hnamed.builtin l' hl' ?_⟩
  rw [← hself (by cases l <;> simp_all [Literal.isBuiltin, Literal.isPositive])]
  exact hbuiltin

/-- The variables of the rule that carries stored facts over are named. -/
theorem not_isAnonymous_of_mem_bridge {p : CallPattern} {x : String}
    (hx : x ∈ p.bridge.head.vars) : isAnonymous x = false := by
  obtain ⟨t, ht, hxt⟩ := Term.mem_varsAll.1 hx
  obtain ⟨i, -, rfl⟩ := List.mem_map.1 ht
  obtain rfl := List.mem_singleton.1 hxt
  simp [isAnonymous]

include hsimple in
/-- The rules that are evaluated are those of the program, or have literals of adorned bodies and
positive literals with named variables. -/
theorem IsMagicRule.mem_or_named (hc : IsMagicRule rules q program c) :
    c ∈ rules ∨ (∀ x ∈ c.head.vars, isAnonymous x = false) ∧ ∀ l ∈ c.body,
      (∃ g body, PassingGraph.IsFor g rules q body ∧ l ∈ g.adornedBody (derivedPredicates rules)) ∨
        ∃ a, l = .positive a ∧ ∀ x ∈ a.vars, isAnonymous x = false := by
  -- Guards are calls, whose variables are those of the head.
  have hguard : ∀ {a : Atom} {l : Literal}, l ∈ a.guard → (∀ x ∈ a.vars, isAnonymous x = false) →
      ∃ b, l = .positive b ∧ ∀ x ∈ b.vars, isAnonymous x = false := fun hl hnamed => by
    obtain ⟨b, rfl, hb⟩ := Atom.isCall_of_mem_guard hl hnamed
    exact ⟨b, rfl, hb.named⟩
  cases hc with
  | @call g body _ hg hc =>
    refine .inr ⟨hc.head.named, fun l hl => ?_⟩
    rcases hc.body l hl with hl | ⟨a, rfl, ha⟩
    · exact .inl ⟨g, body, hg, hl⟩
    · exact .inr ⟨a, rfl, ha.named⟩
  | @guarded r p hr hp hhead i =>
    have hnamed := (hsimple r (.tail _ hr)).named.head
    refine .inr ⟨hnamed, fun l hl => ?_⟩
    rcases List.mem_append.1 hl with hl | hl
    · exact .inr (hguard hl hnamed)
    · exact .inl ⟨_, _, isFor_ruleGraph (isPlain_of_isSimple hsimple) hr hp hhead, hl⟩
  | bridge p =>
    refine .inr ⟨fun x => not_isAnonymous_of_mem_bridge, fun l hl => .inr ?_⟩
    rcases List.mem_append.1 hl with hl | hl
    · exact hguard hl fun x => not_isAnonymous_of_mem_bridge
    · obtain rfl := List.mem_singleton.1 hl
      exact ⟨_, rfl, fun x hx => not_isAnonymous_of_mem_bridge (p := p) hx⟩
  | kept hr _ => exact .inl hr

include hsimple in
theorem IsMagicRule.compares (hc : IsMagicRule rules q program c) : c.OnlyCompares registry := by
  rcases hc.mem_or_named hsimple with hc | ⟨-, hbody⟩
  · exact (hsimple c (.tail _ hc)).compares
  · intro call hcall
    rcases hbody _ hcall with ⟨g, body, hg, hl⟩ | ⟨a, ha, -⟩
    · obtain ⟨l, hl, -, -, hself⟩ := exists_of_mem_adornedBody hg hl
      obtain ⟨r, hr, rfl⟩ := hg.source
      obtain rfl := hself rfl
      exact (hsimple r hr).compares call hl
    · cases ha

include hsimple in
theorem IsMagicRule.named (hc : IsMagicRule rules q program c) : c.WellNamed := by
  rcases hc.mem_or_named hsimple with hc | ⟨hhead, hbody⟩
  · exact (hsimple c (.tail _ hc)).named
  · have hliteral : ∀ l ∈ c.body, (∀ x ∈ l.vars, isAnonymous x = true → x = wildcard) ∧
        (l.isBuiltin = true → ∀ x ∈ l.vars, isAnonymous x = false) := by
      intro l hl
      rcases hbody l hl with ⟨g, body, hg, hl⟩ | ⟨a, rfl, ha⟩
      · exact named_of_mem_adornedBody hsimple hg hl
      · refine ⟨fun x hx hanonymous => ?_, nofun⟩
        rw [ha x hx] at hanonymous
        cases hanonymous
    exact ⟨fun l hl => (hliteral l hl).1, fun l hl => (hliteral l hl).2, hhead⟩

include hsimple in
/-- The query of a magic program is about the same variables and computes nothing. -/
theorem query_simple (h : MagicProgram.ofQuery rules q = .ok program) :
    program.query.vars = q.vars ∧
    (∀ x, x ∈ positiveVars program.query.body ↔ x ∈ positiveVars q.body) ∧
    program.query.toRule.OnlyCompares registry ∧ program.query.toRule.WellNamed := by
  have hg := isFor_queryGraph (isPlain_of_isSimple hsimple)
  have hmem : ∀ l, l ∈ program.query.body ↔
      l ∈ q.passingGraph.adornedBody (derivedPredicates rules) := fun l => by
    rw [(mem_rules_of_ofQuery h).1, mem_query_body (isPlain_of_isSimple hsimple)]
  -- Adorning changes predicates only, so that the variables come in the same order.
  refine ⟨?_, fun x => ?_, fun c hc => ?_, ?_⟩
  · rw [(mem_rules_of_ofQuery h).1]
    simp only [Query.vars, AdornedProgram.query_ofQuery, List.flatMap_map, Literal.namedVars_adorn]
  · rw [mem_positiveVars_congr hmem, mem_positiveVars_adornedBody _ hg]
  · obtain ⟨l, hl, -, -, hself⟩ := exists_of_mem_adornedBody hg ((hmem _).1 hc)
    obtain rfl := hself rfl
    exact (hsimple q.toRule (.head _)).compares c hl
  · have hliteral := fun l (hl : l ∈ program.query.body) =>
      named_of_mem_adornedBody hsimple hg ((hmem l).1 hl)
    exact ⟨fun l hl => (hliteral l hl).1, fun l hl => (hliteral l hl).2, nofun⟩

/-- The rules for plain predicates are those that are kept. -/
theorem IsMagicRule.mem_of_isPlain_head (hc : IsMagicRule rules q program c)
    (hhead : c.head.predicate.isPlain = true) :
    c ∈ rules ∧ program.Keeps rules c.head.predicate := by
  cases hc with
  | @call g body _ hg hc =>
    have hcall := hc.head.predicate
    -- Predicates for calls are not plain.
    cases hpredicate : c.head.predicate <;> simp_all [Predicate.isPlain, Predicate.isCall]
  | guarded hr hp hhead' i => cases hhead
  | bridge p => cases hhead
  | kept hr hkeeps => exact ⟨hr, hkeeps⟩

end Simple

/-! ## Stored facts -/

theorem injective_bridge_name : Function.Injective fun i : Nat => "X" ++ toString i := by
  intro i j hij
  have hrepr : i.repr = j.repr := (String.append_right_inj "X").1 hij
  -- A number can be read back from its digits.
  have hdigits : Nat.toDigits 10 i = Nat.toDigits 10 j := by
    rw [← Nat.toList_repr, hrepr, Nat.toList_repr]
  rw [← Nat.ofDigitChars_ten_toDigits (n := i), hdigits, Nat.ofDigitChars_ten_toDigits]

/-- The variables of a rule that carries stored facts over take all values. -/
theorem exists_valuation_bridge {p : CallPattern} {t : Tuple} (hlength : t.length = p.arity)
    (hground : Term.areGround t = true) :
    ∃ v : Valuation, (∀ x, (v x).isGround = true) ∧
      p.bridge.head.terms.map (Term.replace v) = t := by
  -- A variable has the value at the position that its name tells.
  obtain ⟨position, hposition⟩ :
      ∃ position : String → Nat, ∀ i : Nat, position ("X" ++ i.repr) = i :=
    ⟨_, Function.leftInverse_invFun injective_bridge_name⟩
  let value (i : Nat) : Term := t.getD (i - 1) (.const (.boolean true))
  have hvalue : ∀ i, (value i).isGround = true := fun i => by
    rcases Nat.lt_or_ge (i - 1) t.length with hlt | hge
    · simp only [value, List.getD_eq_getElem _ _ hlt]
      exact Term.areGround_iff.1 hground _ (List.getElem_mem hlt)
    · simp only [value, List.getD_eq_default _ _ hge]
      rfl
  refine ⟨fun x => value (position x), fun x => hvalue _,
    List.ext_getElem (by simp [CallPattern.bridge, hlength]) fun i hi hi' => ?_⟩
  have hget : value (1 + i) = t[i] := by
    simp only [value, Nat.add_sub_cancel_left, List.getD_eq_getElem _ _ hi']
  simpa [CallPattern.bridge, Term.replace, hposition] using hget

end Deduction
