import Deduction.Proofs.Magic.Labels
import Deduction.Proofs.Magic.Stratification

/-!
# Magic programs are closed

A magic program lacks no rules, and its atoms fit their relations (`MagicProgram.isClosed`,
`MagicProgram.evaluate_ne_arity`). Where its bodies or its query are about a pattern, it has the
rules that answer the calls of the pattern; where they are about a predicate of the program, it has
the rules of the predicate; and where they wait for calls or for parts of calls, it has rules that
derive them.

Patterns and kept predicates are found by searches that are closed (`AdornedProgram.patterns_spec`,
`usedRules_spec`). That calls are derived is the converse: a pattern is only found because a literal
asks for it (`AdornedProgram.asked_of_mem_patterns`), and the literal then makes the call.
-/

namespace Deduction

/-! ## Atoms that fit their relations -/

/-- The atom has as many terms as the relation of its predicate has columns. -/
def Atom.HasArity (a : Atom) : Prop :=
  a.terms.length = a.predicate.arity

/-- The atoms of a rule have as many terms as their relations have columns. -/
def Rule.HasArities (r : Rule) : Prop :=
  r.head.HasArity ∧ ∀ l ∈ r.body, ∀ a ∈ l.atom?, a.HasArity

theorem CallPattern.hasArity_magic {p : CallPattern} {ts : List Term} (h : ts.length = p.arity) :
    (Atom.mk (.magic p) (p.select ts)).HasArity :=
  p.length_select ts h

theorem AdornedRule.hasArity_labelAtom (p : CallPattern) (terms : List Term) (e : PassingEdge)
    (label : Nat) : (labelAtom p terms e label).HasArity :=
  CallPattern.length_select _ _ (CallPattern.arity_ofTerms _ _ _).symm

theorem Atom.hasArity_of_mem_guard {a b : Atom} (h : .positive b ∈ a.guard) (ha : a.HasArity) :
    b.HasArity := by
  obtain ⟨p, hp, -, hb⟩ := mem_guard_iff.1 h
  obtain rfl := Literal.positive.inj hb
  refine CallPattern.hasArity_magic (ha.trans ?_)
  rw [hp]
  rfl

theorem Literal.hasArity_adorn {l : Literal} (h : ∀ a ∈ l.atom?, a.IsPlain)
    (derived : List Predicate) (known : List String) :
    ∀ a ∈ (l.adorn derived known).atom?, a.HasArity := by
  cases hcall : l.call? derived known with
  | none =>
    rw [adorn_eq_self hcall]
    exact fun a ha => (h a ha).2
  | some p =>
    rw [adorn_eq_of_call? hcall]
    intro a ha
    obtain rfl := Option.some.inj ha
    -- The pattern of a call has a binding for each of its arguments.
    obtain ⟨arity, terms, rfl, -, hp⟩ := exists_of_call? hcall
    rw [Atom.HasArity, Predicate.arity, hp, CallPattern.arity_ofTerms]
    rfl

/-! ## The literals of a magic program -/

/-- Where the literals of a magic program and of its query come from. -/
inductive IsMagicLiteral (rules : List Rule) (q : Query) : Literal → Prop where
  /-- Literals are those of an adorned body. -/
  | adorned {g : PassingGraph} {body : List Literal} {l : Literal} (hg : g.IsFor rules q body)
      (hl : l ∈ g.adornedBody (derivedPredicates rules)) : IsMagicLiteral rules q l
  /-- Guards wait for calls of a pattern. -/
  | guard {p : CallPattern} {ts : List Term} (hp : p ∈ (AdornedProgram.ofQuery rules q).patterns)
      (hfree : p.isAllFree = false) (hlength : ts.length = p.arity) :
      IsMagicLiteral rules q (.positive ⟨.magic p, p.select ts⟩)
  /-- Calls wait for their parts. -/
  | label (p : CallPattern) (terms : List Term) (e : PassingEdge) (n : Nat) :
      IsMagicLiteral rules q (.positive (AdornedRule.labelAtom p terms e n))
  /-- Literals are those of a rule that is kept. -/
  | kept {r : Rule} {l : Literal} (hr : r ∈ rules) (hl : l ∈ r.body) : IsMagicLiteral rules q l

section Literals

variable {rules : List Rule} {q : Query} {program : MagicProgram} {g : PassingGraph}
  {body : List Literal} {c : Rule} {l : Literal} {p : CallPattern} {n : Nat}
  (hplain : ∀ r ∈ q.toRule :: rules, r.IsPlain)

include hplain

/-- A literal of an adorned body is over a plain predicate, or over an adorned one whose pattern is
asked for. -/
theorem predicate_of_mem_adornedBody (hg : g.IsFor rules q body)
    (hl : l ∈ g.adornedBody (derivedPredicates rules)) :
    ∀ a ∈ l.atom?, a.predicate.isPlain = true ∨
      ∃ p ∈ (AdornedProgram.ofQuery rules q).patterns, a.predicate = .adorned p := by
  obtain ⟨k, hk, rfl⟩ := PassingGraph.mem_adornedBody.1 hl
  intro a ha
  rw [PassingGraph.adorned] at ha
  cases hcall : (g.literal k).call? (derivedPredicates rules) (g.boundAt k) with
  | none =>
    rw [Literal.adorn_eq_self hcall] at ha
    exact .inl (isPlain_of_mem_body hplain hg (mem_body_of_mem_order hg hk) a ha).1
  | some p =>
    rw [Literal.adorn_eq_of_call? hcall] at ha
    obtain rfl := Option.some.inj ha
    exact .inr ⟨p, hg.calls k hk p hcall, rfl⟩

theorem isUnlabeled_adornedBody (hg : g.IsFor rules q body) :
    IsUnlabeled (g.adornedBody (derivedPredicates rules)) := by
  intro p hp
  obtain ⟨l, hl, a, ha, rfl⟩ := mem_predicatesIn.1 hp
  rcases predicate_of_mem_adornedBody hplain hg hl a ha with hpredicate | ⟨p, -, hpredicate⟩
  · cases h : a.predicate <;> simp_all [Predicate.isPlain, Predicate.isLabeled]
  · rw [hpredicate]
    rfl

theorem IsMagicLiteral.hasArity (h : IsMagicLiteral rules q l) : ∀ a ∈ l.atom?, a.HasArity := by
  cases h with
  | adorned hg hl =>
    obtain ⟨k, hk, rfl⟩ := PassingGraph.mem_adornedBody.1 hl
    exact Literal.hasArity_adorn
      (isPlain_of_mem_body hplain hg (mem_body_of_mem_order hg hk)) _ _
  | guard hp hfree hlength =>
    intro a ha
    obtain rfl := Option.some.inj ha
    exact CallPattern.hasArity_magic hlength
  | label p terms e n =>
    intro a ha
    obtain rfl := Option.some.inj ha
    exact AdornedRule.hasArity_labelAtom p terms e n
  | kept hr hl => exact fun a ha => ((hplain _ (.tail _ hr)).2 _ hl a ha).2

/-- The guard of a rule that answers the calls of a pattern waits for calls of the pattern. -/
theorem isMagicLiteral_of_mem_guard {r : Rule} (hr : r ∈ rules)
    (hp : p ∈ (AdornedProgram.ofQuery rules q).patterns) (hhead : r.head.predicate = p.plain)
    (hl : l ∈ Atom.guard ⟨.adorned p, r.head.terms⟩) : IsMagicLiteral rules q l := by
  obtain ⟨p', hp', hfree, rfl⟩ := Atom.mem_guard_iff.1 hl
  obtain rfl := Predicate.adorned.inj hp'
  have hlength := (hplain r (.tail _ hr)).1.2
  rw [hhead] at hlength
  exact .guard hp hfree hlength

/-- What the rules of a call wait for is the guard of the rule that makes it, literals of the body,
or a part of the call. -/
theorem isMagicLiteral_of_mem_callRules {r : Rule} {i k labels : Nat} {l' : Literal} (hr : r ∈ rules)
    (hp : p ∈ (AdornedProgram.ofQuery rules q).patterns) (hhead : r.head.predicate = p.plain)
    (hc : c ∈ ((r.adorn (derivedPredicates rules) p i).callRules labels k l').1)
    (hl : l ∈ c.body) : IsMagicLiteral rules q l := by
  have hg := isFor_ruleGraph hplain hr hp hhead
  have hbefore : ∀ j, ∀ l ∈ (r.adorn (derivedPredicates rules) p i).bodyBefore j,
      IsMagicLiteral rules q l := by
    intro j l hl
    rcases AdornedRule.mem_bodyBefore hl with hl | hl
    · exact isMagicLiteral_of_mem_guard hplain hr hp hhead hl
    · exact .adorned hg (AdornedRule.mem_of_mem_select hl)
  unfold AdornedRule.callRules at hc
  split at hc
  · cases hc
  · split at hc
    · obtain rfl := List.mem_singleton.1 hc
      exact isMagicLiteral_of_mem_guard hplain hr hp hhead hl
    · next e _ =>
      obtain rfl := List.mem_singleton.1 hc
      exact hbefore e.source l hl
    · rcases List.mem_append.1 hc with hc | hc
      · obtain ⟨part, hpart, rfl⟩ := List.mem_map.1 hc
        obtain ⟨⟨e, label⟩, -, rfl⟩ := List.mem_map.1 hpart
        exact hbefore e.source l hl
      · obtain rfl := List.mem_singleton.1 hc
        obtain ⟨part, hpart, rfl⟩ := List.mem_map.1 hl
        obtain ⟨⟨e, label⟩, -, rfl⟩ := List.mem_map.1 hpart
        exact .label _ _ e label

/-- The literals of a magic program and of its query have one of the four origins. -/
theorem isMagicLiteral_of_mem (h : MagicProgram.ofQuery rules q = .ok program)
    (hl : l ∈ program.query.body ∨ ∃ c ∈ program.rules, l ∈ c.body) :
    IsMagicLiteral rules q l := by
  rcases hl with hl | ⟨c, hc, hl⟩
  · rw [(mem_rules_of_ofQuery h).1, mem_query_body hplain] at hl
    exact .adorned (isFor_queryGraph hplain) hl
  · rcases cases_of_mem_rules h hc with
      hc | ⟨p, hp, r, hr, hhead, i, rfl | ⟨k, hk, labels, hc⟩⟩ | ⟨hr, -⟩
    · obtain ⟨k, hk, target, p, terms, hcall, rfl⟩ := AdornedProgram.mem_seedRules.1 hc
      exact .adorned (isFor_queryGraph hplain) (AdornedRule.mem_of_mem_select hl)
    · rcases List.mem_append.1 hl with hl | hl
      · exact isMagicLiteral_of_mem_guard hplain hr hp hhead hl
      · exact .adorned (isFor_ruleGraph hplain hr hp hhead) hl
    · exact isMagicLiteral_of_mem_callRules hplain hr hp hhead hc hl
    · exact .kept hr hl

/-- The predicates of a magic program are those of the program, patterns that are asked for, their
calls and labels. -/
theorem IsMagicLiteral.predicate_cases (h : IsMagicLiteral rules q l) :
    ∀ a ∈ l.atom?, a.predicate.isPlain = true ∨ a.predicate.isLabeled = true ∨
      ∃ p ∈ (AdornedProgram.ofQuery rules q).patterns,
        a.predicate = .adorned p ∨ a.predicate = .magic p ∧ p.isAllFree = false := by
  intro a ha
  cases h with
  | adorned hg hl =>
    refine (predicate_of_mem_adornedBody hplain hg hl a ha).imp_right ?_
    rintro ⟨p, hp, hpredicate⟩
    exact .inr ⟨p, hp, .inl hpredicate⟩
  | guard hp hfree hlength =>
    obtain rfl := Option.some.inj ha
    exact .inr (.inr ⟨_, hp, .inr ⟨rfl, hfree⟩⟩)
  | label p terms e n =>
    obtain rfl := Option.some.inj ha
    exact .inr (.inl rfl)
  | kept hr hl => exact .inl ((hplain _ (.tail _ hr)).2 _ hl a ha).1

end Literals

/-! ## Rules for what is used -/

/-- A predicate occurs in the query of a magic program or in the body of one of its rules. -/
def MagicProgram.Uses (program : MagicProgram) (p : Predicate) : Prop :=
  p ∈ predicatesIn program.query.body ∨ ∃ c ∈ program.rules, p ∈ predicatesIn c.body

theorem MagicProgram.uses_iff {program : MagicProgram} {p : Predicate} :
    program.Uses p ↔ ∃ l, (l ∈ program.query.body ∨ ∃ c ∈ program.rules, l ∈ c.body) ∧
      ∃ a ∈ l.atom?, a.predicate = p := by
  simp only [Uses, mem_predicatesIn]
  constructor
  · rintro (⟨l, hl, ha⟩ | ⟨c, hc, l, hl, ha⟩)
    · exact ⟨l, .inl hl, ha⟩
    · exact ⟨l, .inr ⟨c, hc, hl⟩, ha⟩
  · rintro ⟨l, hl | ⟨c, hc, hl⟩, ha⟩
    · exact .inl ⟨l, hl, ha⟩
    · exact .inr ⟨c, hc, l, hl, ha⟩

theorem AdornedRule.exists_of_magicCall? {r : AdornedRule} {l : Literal} {target : Atom}
    {p : CallPattern} {terms : List Term} (h : l.magicCall? = some (target, p, terms))
    (labels node : Nat) : ∃ c ∈ (r.callRules labels node l).1, c.head = target := by
  simp only [callRules, h]
  split
  · exact ⟨_, .head _, rfl⟩
  · exact ⟨_, .head _, rfl⟩
  · exact ⟨_, List.mem_append_right _ (.head _), rfl⟩

section Rules

variable {rules : List Rule} {q : Query} {program : MagicProgram} {c : Rule} {p : CallPattern}
  (hplain : ∀ r ∈ q.toRule :: rules, r.IsPlain) (h : MagicProgram.ofQuery rules q = .ok program)

include h in
theorem mem_rules_of_mem_guardedRules (hc : c ∈ (AdornedProgram.ofQuery rules q).guardedRules) :
    c ∈ program.rules := by
  obtain ⟨-, magic, hmagic, hrules⟩ := mem_rules_of_ofQuery h
  exact (hrules c).2 (.inl ((hmagic c).2 (.inr hc)))

include h in
theorem nodup_rules_ofQuery : program.rules.Nodup := by
  simp only [MagicProgram.ofQuery] at h
  split at h
  · obtain rfl := Except.ok.inj h
    exact Distinct.nodup_eraseDups _
  · cases h

include h in
/-- A pattern that is asked for has the rules that answer its calls. -/
theorem guarded_mem_rules {r : Rule} {i : Nat}
    (hp : p ∈ (AdornedProgram.ofQuery rules q).patterns) (hi : rules[i]? = some r)
    (hhead : r.head.predicate = p.plain) :
    (r.adorn (derivedPredicates rules) p i).guarded ∈ program.rules :=
  mem_rules_of_mem_guardedRules h (AdornedProgram.guardedRules_complete
    (AdornedProgram.mem_rules_ofQuery.2 ⟨p, hp, r, i, hi, hhead, rfl⟩)).1

include hplain h in
/-- The calls of a pattern are derived: the literal that asks for the pattern makes them. -/
theorem exists_head_magic (hp : p ∈ (AdornedProgram.ofQuery rules q).patterns)
    (hfree : p.isAllFree = false) : ∃ c ∈ program.rules, c.head.predicate = .magic p := by
  have hmagicCall : ∀ {g : PassingGraph} {k}, (g.literal k).call? (derivedPredicates rules)
      (g.boundAt k) = some p → (g.adorned (derivedPredicates rules) k).magicCall? =
        some (⟨.magic p, p.select (g.literal k).terms⟩, p, (g.literal k).terms) := fun hcall => by
    rw [PassingGraph.adorned, Literal.adorn_eq_of_call? hcall]
    exact Literal.magicCall?_eq_some_iff.2 ⟨rfl, hfree, rfl⟩
  rcases AdornedProgram.asked_of_mem_patterns hp with ⟨l, hl, hcall⟩ | ⟨p', hp', hcalls⟩
  · -- The query asks for the pattern.
    obtain ⟨hk, hliteral⟩ := adorned_node (isFor_queryGraph hplain) hl
    have hmakes := hmagicCall (g := q.passingGraph) (k := q.passingGraph.node l) (by rwa [hliteral])
    obtain ⟨c, hc, hhead⟩ : ∃ c ∈ (AdornedProgram.ofQuery rules q).seedRules
        (derivedPredicates rules), c.head.predicate = .magic p :=
      ⟨_, AdornedProgram.mem_seedRules.2 ⟨_, hk, _, _, _, hmakes, rfl⟩, rfl⟩
    obtain ⟨-, magic, hmagic, hrules⟩ := mem_rules_of_ofQuery h
    exact ⟨c, (hrules c).2 (.inl ((hmagic c).2 (.inl hc))), hhead⟩
  · -- A rule for another pattern asks for it.
    obtain ⟨r, hr, hhead, hcalls⟩ := AdornedProgram.mem_callsFor.1 hcalls
    obtain ⟨k, hk, hcall⟩ := AdornedProgram.exists_call?_of_mem_calls hcalls
    obtain ⟨i, hi⟩ := List.mem_iff_getElem?.1 hr
    obtain ⟨-, hcomplete⟩ := AdornedProgram.guardedRules_complete
      (AdornedProgram.mem_rules_ofQuery.2 ⟨p', hp', r, i, hi, hhead, rfl⟩)
    obtain ⟨n, hn⟩ := hcomplete _ k (PassingGraph.mem_zipIdx_adornedBody.2 ⟨hk, rfl⟩)
    obtain ⟨c, hc, htarget⟩ := AdornedRule.exists_of_magicCall?
      (r := r.adorn (derivedPredicates rules) p' i) (hmagicCall hcall) n k
    exact ⟨c, mem_rules_of_mem_guardedRules h (hn c hc), by rw [htarget]⟩

include hplain in
theorem exists_isNumbered_ofQuery :
    ∃ last, IsNumbered (AdornedProgram.ofQuery rules q).guardedRules 0 last := by
  refine AdornedProgram.exists_isNumbered_guardedRules fun r hr => ?_
  obtain ⟨p, hp, r, i, hi, hhead, rfl⟩ := AdornedProgram.mem_rules_ofQuery.1 hr
  exact ⟨isUnlabeled_adornedBody hplain
    (isFor_ruleGraph hplain (List.mem_of_getElem? hi) hp hhead), rfl⟩

include hplain h in
/-- Labels only occur in the rules that answer calls and in those of the calls that they make. -/
theorem mem_guardedRules_of_isLabeled {P : Predicate} (hP : P.isLabeled = true)
    (hc : c ∈ program.rules) (huse : c.head.predicate = P ∨ P ∈ predicatesIn c.body) :
    c ∈ (AdornedProgram.ofQuery rules q).guardedRules := by
  obtain ⟨-, magic, hmagic, hrules⟩ := mem_rules_of_ofQuery h
  have hunlabeled : IsUnlabeled c.body → c.head.predicate.isLabeled = false → False := by
    intro hbody hhead
    rcases huse with rfl | huse
    · rw [hhead] at hP
      cases hP
    · rw [hbody P huse] at hP
      cases hP
  rcases (hrules c).1 hc with hc | hc
  · refine ((hmagic c).1 hc).resolve_left fun hc => ?_
    obtain ⟨k, hk, target, p, terms, hcall, rfl⟩ := AdornedProgram.mem_seedRules.1 hc
    obtain ⟨-, -, rfl⟩ := Literal.magicCall?_eq_some_iff.1 hcall
    refine hunlabeled ?_ rfl
    exact (isUnlabeled_adornedBody hplain (isFor_queryGraph hplain)).mono fun l =>
      AdornedRule.mem_of_mem_select
  · -- The rules that are kept are plain.
    have hr := hplain c (.tail _ ((usedRules_spec _ _).1 c hc))
    have isLabeled_of_isPlain : ∀ {P : Predicate}, P.isPlain = true → P.isLabeled = false :=
      fun {P} hP => by cases P <;> simp_all [Predicate.isPlain, Predicate.isLabeled]
    refine (hunlabeled (fun P hP => ?_) (isLabeled_of_isPlain hr.1.1)).elim
    obtain ⟨l, hl, a, ha, rfl⟩ := mem_predicatesIn.1 hP
    exact isLabeled_of_isPlain (hr.2 l hl a ha).1

include hplain h in
/-- A label that occurs has one rule that derives it and one that uses it. -/
theorem existsUnique_of_isLabeled {P : Predicate} (hP : P.isLabeled = true)
    (huse : ∃ c ∈ program.rules, c.head.predicate = P ∨ P ∈ predicatesIn c.body) :
    (∃! c, c ∈ program.rules ∧ c.head.predicate = P) ∧
      ∃! c, c ∈ program.rules ∧ P ∈ predicatesIn c.body := by
  obtain ⟨last, hlast⟩ := exists_isNumbered_ofQuery hplain
  have hguarded := fun c hc huse => mem_guardedRules_of_isLabeled (c := c) hplain h hP hc huse
  have hrules := fun c => mem_rules_of_mem_guardedRules (c := c) h
  -- The numbering has the label in a head and in a body.
  have hhead : ∃ c ∈ (AdornedProgram.ofQuery rules q).guardedRules, c.head.predicate = P := by
    obtain ⟨c, hc, huse⟩ := huse
    rcases huse with hhead | hbody
    · exact ⟨c, hguarded c hc (.inl hhead), hhead⟩
    · exact (hlast.exists_head_iff hP).2 ⟨c, hguarded c hc (.inr hbody), hbody⟩
  obtain ⟨d, hd, hbody⟩ := (hlast.exists_head_iff hP).1 hhead
  obtain ⟨c, hc, hhead⟩ := hhead
  refine ⟨⟨c, ⟨hrules c hc, hhead⟩, ?_⟩, d, ⟨hrules d hd, hbody⟩, ?_⟩
  · rintro c' ⟨hc', hhead'⟩
    exact hlast.head_unique hP (hguarded c' hc' (.inl hhead')) hc hhead' hhead
  · rintro d' ⟨hd', hbody'⟩
    exact hlast.use_unique hP (hguarded d' hd' (.inr hbody')) hd hbody' hbody

include hplain h in
/-- A head has as many terms as its relation has columns. -/
theorem hasArity_head_of_mem_rules (hc : c ∈ program.rules) : c.head.HasArity := by
  have htarget : ∀ {g : PassingGraph} {body : List Literal} {k target p terms},
      g.IsFor rules q body → k ∈ g.order →
      (g.adorned (derivedPredicates rules) k).magicCall? = some (target, p, terms) →
      target.HasArity := by
    intro g body k target p terms hg hk hcall
    obtain ⟨hadorned, -, rfl⟩ := Literal.magicCall?_eq_some_iff.1 hcall
    have harity := Literal.hasArity_adorn
      (isPlain_of_mem_body hplain hg (mem_body_of_mem_order hg hk)) (derivedPredicates rules)
      (g.boundAt k) ⟨.adorned p, terms⟩
    rw [PassingGraph.adorned] at hadorned
    exact CallPattern.hasArity_magic (harity (by rw [hadorned]; rfl))
  rcases cases_of_mem_rules h hc with
    hc | ⟨p, hp, r, hr, hhead, i, rfl | ⟨k, hk, labels, hc⟩⟩ | ⟨hr, -⟩
  · obtain ⟨k, hk, target, p, terms, hcall, rfl⟩ := AdornedProgram.mem_seedRules.1 hc
    exact htarget (isFor_queryGraph hplain) hk hcall
  · have hlength := (hplain r (.tail _ hr)).1.2
    rwa [hhead] at hlength
  · obtain ⟨target, p', terms, hcall, heq | ⟨e, label, heq⟩⟩ :=
      AdornedRule.head_of_mem_callRules hc
    · rw [heq]
      exact htarget (isFor_ruleGraph hplain hr hp hhead) hk hcall
    · rw [heq]
      exact AdornedRule.hasArity_labelAtom _ _ _ _
  · exact (hplain c (.tail _ hr)).1.2

theorem hasArities_bridge (p : CallPattern) : p.bridge.HasArities := by
  have hhead : p.bridge.head.HasArity := by
    simp [Atom.HasArity, CallPattern.bridge, Predicate.arity]
  refine ⟨hhead, fun l hl a ha => ?_⟩
  rcases List.mem_append.1 hl with hl | hl
  · obtain ⟨p', -, -, rfl⟩ := Atom.mem_guard_iff.1 hl
    obtain rfl := Option.some.inj ha
    exact Atom.hasArity_of_mem_guard hl hhead
  · obtain rfl := List.mem_singleton.1 hl
    obtain rfl := Option.some.inj ha
    simp [Atom.HasArity, CallPattern.plain, Predicate.arity]

include hplain h in
theorem hasArities_of_mem_evaluated {hasFacts : Predicate → Bool}
    (hc : c ∈ program.evaluated hasFacts) : c.HasArities := by
  rcases List.mem_append.1 hc with hc | hc
  · exact ⟨hasArity_head_of_mem_rules hplain h hc, fun l hl =>
      (isMagicLiteral_of_mem hplain h (.inr ⟨c, hc, hl⟩)).hasArity hplain⟩
  · obtain ⟨p, rfl, -⟩ := mem_bridgeRules.1 hc
    exact hasArities_bridge p

end Rules

/-- A magic program lacks no rules, and its atoms fit their relations. -/
structure MagicProgram.IsClosed (program : MagicProgram) (rules : List Rule) : Prop where
  /-- No rule is listed twice. -/
  nodup : program.rules.Nodup
  /-- A pattern that is used has a copy of each rule for its predicate. -/
  adorned : ∀ p : CallPattern, program.Uses (.adorned p) → ∀ (i : Nat) (r : Rule),
    rules[i]? = some r → r.head.predicate = p.plain →
      (r.adorn (derivedPredicates rules) p i).guarded ∈ program.rules
  /-- A predicate of the program that is used has all its rules. -/
  plain : ∀ p : Predicate, p.isPlain = true → program.Uses p →
    ∀ r ∈ rules, r.head.predicate = p → r ∈ program.rules
  /-- Calls and parts of calls that are used are derived. -/
  calls : ∀ p : Predicate, p.isCall = true → (∃ c ∈ program.rules, p ∈ predicatesIn c.body) →
    ∃ c ∈ program.rules, c.head.predicate = p
  /-- A label has one rule that derives it and one that uses it. -/
  labels : ∀ p : Predicate, p.isLabeled = true →
    (∃ c ∈ program.rules, c.head.predicate = p ∨ p ∈ predicatesIn c.body) →
      (∃! c, c ∈ program.rules ∧ c.head.predicate = p) ∧
      ∃! c, c ∈ program.rules ∧ p ∈ predicatesIn c.body
  /-- The atoms of the rules that are evaluated fit their relations. -/
  arities : ∀ (hasFacts : Predicate → Bool), ∀ c ∈ program.evaluated hasFacts, c.HasArities
  /-- The atoms of the query fit their relations. -/
  query : ∀ l ∈ program.query.body, ∀ a ∈ l.atom?, a.HasArity

theorem MagicProgram.isClosed_of_ofQuery {rules : List Rule} {q : Query} {program : MagicProgram}
    (hplain : ∀ r ∈ q.toRule :: rules, r.IsPlain) (h : MagicProgram.ofQuery rules q = .ok program) :
    program.IsClosed rules where
  nodup := nodup_rules_ofQuery h
  adorned p huse i r hi hhead := by
    obtain ⟨l, hl, a, ha, hp⟩ := uses_iff.1 huse
    rcases (isMagicLiteral_of_mem hplain h hl).predicate_cases hplain a ha with
      hplain' | hlabeled | ⟨p', hp', hadorned | ⟨hmagic, -⟩⟩
    · rw [hp] at hplain'
      cases hplain'
    · rw [hp] at hlabeled
      cases hlabeled
    · obtain rfl := Predicate.adorned.inj (hp.symm.trans hadorned)
      exact guarded_mem_rules h hp' hi hhead
    · cases hp.symm.trans hmagic
  plain p hp huse := by
    obtain ⟨l, hl, a, ha, rfl⟩ := uses_iff.1 huse
    exact (MagicProgram.keeps_of_mem_body h hl ha hp).2
  calls p hcall huse := by
    obtain ⟨l, hl, a, ha, rfl⟩ := uses_iff.1 (.inr huse)
    rcases (isMagicLiteral_of_mem hplain h hl).predicate_cases hplain a ha with
      hplain' | hlabeled | ⟨p, hp, hadorned | ⟨hmagic, hfree⟩⟩
    · rw [Predicate.isPlain_eq_false_of_isCall hcall] at hplain'
      cases hplain'
    · obtain ⟨c, hc, huse⟩ := huse
      obtain ⟨⟨c, ⟨hc, hhead⟩, -⟩, -⟩ :=
        existsUnique_of_isLabeled hplain h hlabeled ⟨c, hc, .inr huse⟩
      exact ⟨c, hc, hhead⟩
    · rw [hadorned] at hcall
      cases hcall
    · rw [hmagic]
      exact exists_head_magic hplain h hp hfree
  labels p hp huse := existsUnique_of_isLabeled hplain h hp huse
  arities hasFacts c hc := hasArities_of_mem_evaluated hplain h hc
  query l hl := (isMagicLiteral_of_mem hplain h (.inl hl)).hasArity hplain

/-- Rules whose heads fit their relations derive no fact that does not. -/
theorem Context.evaluate_ne_arity {ctx : Context} {rounds : Nat} {rules : List Rule}
    {facts : Database} (h : ∀ r ∈ rules, r.head.HasArity) (mismatch : ArityMismatch) :
    ctx.evaluate rounds rules facts ≠ some (.error (.arity mismatch)) := by
  intro heval
  rcases evaluate_eq_error heval with ⟨_, hsafety, -⟩ | ⟨_, hstrata, -⟩ | hfault
  · cases hsafety
  · cases hstrata
  · obtain ⟨r, hr, hlength⟩ := hfault.exists_of_arity
    exact hlength (h r hr)

/-- Answers are no facts, so that none has the wrong number of terms. -/
theorem Context.answer_ne_arity {ctx : Context} {q : Query} {db : Database}
    (mismatch : ArityMismatch) : ctx.answer q db ≠ .error (.arity mismatch) := by
  intro hanswer
  rcases answer_eq_error hanswer with ⟨_, hsafety⟩ | hfault
  · cases hsafety
  · obtain ⟨r, hr, hlength⟩ := hfault.exists_of_arity
    obtain rfl := List.mem_singleton.1 hr
    exact hlength rfl

/-- Magic programs are closed and well formed. If the atoms of the rules and of the query are plain,
then every pattern that the magic program uses has its rules, every plain predicate that it uses has
all its rules, every call that it waits for has a rule that derives it, every label has one such
rule and is used by one rule, and all atoms fit their relations, those of the rules that carry
stored facts over included. Therefore neither evaluating its rules nor answering its query ever
fails because a tuple has the wrong number of terms. -/
theorem magicProgram_closed {rules : List Rule} {q : Query} {program : MagicProgram}
    (hplain : ∀ r ∈ q.toRule :: rules, r.IsPlain) (h : MagicProgram.ofQuery rules q = .ok program) :
    program.IsClosed rules ∧
    ∀ (ctx : Context) (rounds : Nat) (hasFacts : Predicate → Bool) (db : Database) mismatch,
      ctx.evaluate rounds (program.evaluated hasFacts) db ≠ some (.error (.arity mismatch)) ∧
      ctx.answer program.query db ≠ .error (.arity mismatch) := by
  have hclosed := MagicProgram.isClosed_of_ofQuery hplain h
  exact ⟨hclosed, fun ctx rounds hasFacts db mismatch =>
    ⟨Context.evaluate_ne_arity (fun c hc => (hclosed.arities hasFacts c hc).1) mismatch,
      Context.answer_ne_arity mismatch⟩⟩

/-- The join of two literals, the paths of a graph and the nodes that have no paths. The paths are
answered under a pattern, and kept as they are for the literal that negates them. -/
theorem magicProgram_closed_joinPaths :
    let rules := joinRules [.app "f" [.var "X"], .var "Y"] ++ pathRules
    let q : Query := ⟨joinQuery.body ++ pathQuery.body⟩
    let path : CallPattern := ⟨"path", [.bound, .free]⟩
    let guarded : Rule := ⟨⟨.adorned path, [.var "X", .var "Z"]⟩,
      [.positive ⟨.magic path, [.var "X"]⟩, .positive ⟨.plain "edge" 2, [.var "X", .var "Y"]⟩,
        .positive ⟨.adorned path, [.var "Y", .var "Z"]⟩]⟩
    (∀ r ∈ q.toRule :: rules, r.IsPlain) ∧
    ∃ program, MagicProgram.ofQuery rules q = .ok program ∧
      guarded ∈ program.rules ∧ (∀ r ∈ pathRules.take 2, r ∈ program.rules) ∧
      program.IsClosed rules ∧
      ∀ (ctx : Context) (rounds : Nat) (hasFacts : Predicate → Bool) (db : Database) mismatch,
        ctx.evaluate rounds (program.evaluated hasFacts) db ≠ some (.error (.arity mismatch)) ∧
        ctx.answer program.query db ≠ .error (.arity mismatch) := by
  intro rules q path guarded
  let apart : CallPattern := ⟨"apart", [.bound, .free]⟩
  have hplain : ∀ r ∈ q.toRule :: rules, r.IsPlain := by decide +kernel
  obtain ⟨program, h, hquery⟩ : ∃ program, MagicProgram.ofQuery rules q = .ok program ∧
      ∀ p ∈ [path, apart], .adorned p ∈ predicatesIn program.query.body :=
    ⟨_, rfl, by decide +kernel⟩
  obtain ⟨hclosed, harities⟩ := magicProgram_closed hplain h
  have hpath := hclosed.adorned path (.inl (hquery path (by simp))) 3 _ rfl rfl
  have hapart := hclosed.adorned apart (.inl (hquery apart (by simp))) 4 _ rfl rfl
  refine ⟨hplain, program, h, ?_, fun r hr => ?_, hclosed, harities⟩
  · convert hpath
    decide +kernel
  · refine hclosed.plain (.plain "path" 2) rfl (.inr ⟨_, hapart, by decide +kernel⟩) r ?_ ?_
    · exact List.mem_append_right _ (List.mem_of_mem_take hr)
    · revert r
      decide +kernel

end Deduction
