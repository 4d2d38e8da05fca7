import Deduction.Proofs.Magic.Equivalence
import Deduction.Proofs.Magic.Flow

/-!
# Adorned programs

Adorning the rules that a query asks for comes to an end, and handles each pattern once
(`AdornedProgram.isAdornment_ofQuery`). The patterns of the adorned program are those that its
literals mention, and each of them has one copy of each rule for its predicate. The body of a copy
has the literals of the rule in the order of calls, and a pattern says which arguments of a literal
are bound when it is reached.
-/

namespace Deduction

/-! ## Adorned literals -/

/-- The variable has a value after some literals: it is not anonymous, and it had a value before or
occurs in a positive literal. -/
def BoundAfter (known : List String) (earlier : List Literal) (x : String) : Prop :=
  isAnonymous x = false ∧ (x ∈ known ∨ ∃ l ∈ earlier, l.isPositive = true ∧ x ∈ l.vars)

/-- The literal in an adorned program, where some variables are bound. -/
structure Literal.IsAdornedAs (rules : List Rule) (bound : String → Prop) (l l' : Literal) :
    Prop where
  /-- A positive literal over a predicate with rules has a pattern, in which the arguments are bound
  whose variables all are. -/
  derived : ∀ a, l = .positive a → (∃ r ∈ rules, r.head.predicate = a.predicate) →
    ∃ p : CallPattern, l' = .positive ⟨.adorned p, a.terms⟩ ∧ p.plain = a.predicate ∧
      p.bindings.length = a.terms.length ∧
      ∀ (i : Nat) (t : Term), a.terms[i]? = some t →
        (p.bindings[i]? = some Binding.bound ↔ ∀ x ∈ t.occurrences, bound x)
  /-- Any other literal stays as it is. -/
  other : (∀ a, l = .positive a → ¬∃ r ∈ rules, r.head.predicate = a.predicate) → l' = l

/-- The adorned body has the literals of a body without repetitions, in the order of calls, each of
them adorned as it is reached. -/
structure IsAdornedBody (rules : List Rule) (known : List String) (body adorned : List Literal) :
    Prop where
  /-- There is one literal for each of the body. -/
  length : adorned.length = (calledLiterals known body).length
  /-- What has a value when a literal is reached comes from the literals before. -/
  literals : ∀ (i : Nat) (l l' : Literal), (calledLiterals known body)[i]? = some l → adorned[i]? = some l' →
    l.IsAdornedAs rules (BoundAfter known ((calledLiterals known body).take i)) l'

/-- The copy of a rule, which stands at a position of a program, for the calls of a pattern. -/
structure Rule.IsCopy (rules : List Rule) (p : CallPattern) (x : Rule × Nat) (copy : AdornedRule) :
    Prop where
  /-- The copy has the position of the rule. -/
  source : copy.source = x.2
  /-- The head has the pattern. -/
  head : copy.rule.head = ⟨.adorned p, x.1.head.terms⟩
  /-- The body is adorned for a call in which the variables of the bound arguments have values. -/
  body : ∃ known : List String,
    (∀ y, y ∈ known ↔ ∃ (i : Nat) (t : Term), p.bindings[i]? = some Binding.bound ∧
      x.1.head.terms[i]? = some t ∧ y ∈ t.occurrences) ∧
    IsAdornedBody rules known x.1.body copy.rule.body

/-- A literal is over the adorned predicate of a pattern. -/
def Literal.Mentions (l : Literal) (p : CallPattern) : Prop :=
  ∃ a ∈ l.atom?, a.predicate = .adorned p

/-- The program consists of what a query asks for. -/
structure AdornedProgram.IsAdornment (program : AdornedProgram) (rules : List Rule) (q : Query) :
    Prop where
  /-- After finitely many steps no pattern is waiting, and the program is done. -/
  terminates : ∃ n, ((Progress.step rules)^[n] (.start rules q)).worklist.pending = [] ∧
    program.patterns = ((Progress.step rules)^[n] (.start rules q)).patterns ∧
    program.rules = ((Progress.step rules)^[n] (.start rules q)).rules
  /-- No pattern is handled twice. -/
  nodup : program.patterns.Nodup
  /-- The patterns are those that occur in the query or in the body of a rule. -/
  patterns : ∀ p, p ∈ program.patterns ↔
    ∃ l, (l ∈ program.query.body ∨ ∃ r ∈ program.rules, l ∈ r.rule.body) ∧ l.Mentions p
  /-- The rules answer the calls of the patterns. -/
  heads : ∀ r ∈ program.rules, ∃ p ∈ program.patterns, r.rule.head.predicate = .adorned p
  /-- For each pattern, the rules for its predicate have one copy each, in the order of the
  program. -/
  copies : ∀ p ∈ program.patterns,
    List.Forall₂ (Rule.IsCopy rules p) (rules.zipIdx.filter (·.1.head.predicate = p.plain))
      (program.rules.filter (·.rule.head.predicate = .adorned p))
  /-- The query keeps the places of its literals, which are adorned as they are reached. -/
  query : List.Forall₂ (fun l l' => ∃ i, (calledLiterals [] q.body)[i]? = some l ∧
      l.IsAdornedAs rules (BoundAfter [] ((calledLiterals [] q.body).take i)) l')
    q.body program.query.body

/-! ## Patterns of literals -/

namespace CallPattern

variable {name : String} {terms : List Term} {known : List String}

/-- An argument is bound if all of its variables have values. -/
theorem getElem?_bindings_ofTerms {i : Nat} {t : Term} (h : terms[i]? = some t) :
    (ofTerms name terms known).bindings[i]? = some Binding.bound ↔
      ∀ x ∈ t.occurrences, x ∈ known := by
  rw [ofTerms, List.getElem?_map, h, Option.map_some, Option.some.injEq, ← Term.isCoveredBy_iff]
  cases t.isCoveredBy known <;> simp

theorem mem_select_iff {α : Type} {p : CallPattern} {xs : List α} {x : α} :
    x ∈ p.select xs ↔ ∃ i : Nat, p.bindings[i]? = some Binding.bound ∧ xs[i]? = some x := by
  simp only [select, List.mem_map, List.mem_filter, decide_eq_true_eq, Prod.exists]
  constructor
  · rintro ⟨_, _, ⟨hmem, rfl⟩, rfl⟩
    obtain ⟨i, hi⟩ := List.mem_iff_getElem?.1 hmem
    obtain ⟨hx, hb⟩ := List.getElem?_zip_eq_some.1 hi
    exact ⟨i, hb, hx⟩
  · rintro ⟨i, hb, hx⟩
    have hi : (xs.zip p.bindings)[i]? = some (x, Binding.bound) :=
      List.getElem?_zip_eq_some.2 ⟨hx, hb⟩
    exact ⟨x, _, ⟨List.mem_of_getElem? hi, rfl⟩, rfl⟩

end CallPattern

variable {rules : List Rule} {q : Query} {p : CallPattern} {derived : List Predicate}
  {known : List String} {l : Literal} {x : String} {i : Nat}

namespace Literal

theorem isAdornedAs_adorn {bound : String → Prop} (hplain : ∀ a ∈ l.atom?, a.IsPlain)
    (hbound : ∀ x ∈ l.vars, x ∈ known ↔ bound x) :
    l.IsAdornedAs rules bound (l.adorn (derivedPredicates rules) known) := by
  cases hcall : l.call? (derivedPredicates rules) known with
  | none =>
    -- A positive literal that makes no call is over a predicate without rules.
    refine ⟨fun a ha hr => absurd (mem_derivedPredicates.2 hr) ?_, fun _ => adorn_eq_self hcall⟩
    subst ha
    exact not_mem_of_call?_eq_none hcall (hplain a rfl).1
  | some p =>
    obtain ⟨terms, rfl, hp⟩ := exists_of_call?_of_isPlain hcall hplain
    constructor
    · intro a ha hr
      obtain rfl := positive.inj ha
      refine ⟨p, adorn_eq_of_call? hcall, rfl, ?_, fun i t ht => ?_⟩
      · rw [hp, CallPattern.ofTerms, List.length_map]
      · rw [hp, CallPattern.getElem?_bindings_ofTerms ht]
        exact forall₂_congr fun x hx =>
          hbound x (Term.mem_varsAll.2 ⟨t, List.mem_of_getElem? ht, hx⟩)
    · -- A call is made of a predicate with rules.
      intro hother
      obtain ⟨arity, terms', heq, hmem, -⟩ := exists_of_call? hcall
      exact absurd (mem_derivedPredicates.1 hmem) (hother _ heq)

theorem mentions_adorn_iff (hplain : ∀ a ∈ l.atom?, a.IsPlain) :
    (l.adorn derived known).Mentions p ↔ l.call? derived known = some p := by
  constructor
  · rintro ⟨a, ha, hpredicate⟩
    cases hcall : l.call? derived known with
    | none =>
      -- A plain literal mentions no pattern.
      rw [adorn_eq_self hcall] at ha
      have hadorned := (hplain a ha).1
      rw [hpredicate] at hadorned
      cases hadorned
    | some p' =>
      rw [adorn_eq_of_call? hcall] at ha
      obtain rfl := Option.some.inj ha
      rw [Predicate.adorned.inj hpredicate]
  · intro hcall
    rw [adorn_eq_of_call? hcall]
    exact ⟨_, rfl, rfl⟩

end Literal

/-! ## Adorned bodies -/

namespace PassingGraph

variable {g : PassingGraph}

/-- What is bound at a node has a value after the literals of the nodes before. -/
theorem mem_boundAt_iff_boundAfter (hl : g.literals[i]? = some l) :
    x ∈ g.boundAt (i + 1) ↔ x ∈ l.vars ∧ BoundAfter g.known (g.literals.take i) x := by
  obtain ⟨hnode, rfl⟩ := getElem?_literals_iff.1 hl
  rw [mem_boundAt_iff_vars hnode, BoundAfter]
  refine and_congr_right fun _ => and_congr_right fun _ => or_congr_right ?_
  constructor
  · rintro ⟨j, hj, hlt, hpositive, hx⟩
    obtain ⟨j, rfl⟩ := Nat.exists_eq_add_of_le' (mem_order.1 hj).1
    refine ⟨_, ?_, hpositive, hx⟩
    have htake : (g.literals.take i)[j]? = some (g.literal (j + 1)) := by
      rw [List.getElem?_take_of_lt (Nat.lt_of_succ_lt_succ hlt)]
      exact getElem?_literals_iff.2 ⟨hj, rfl⟩
    exact List.mem_of_getElem? htake
  · rintro ⟨m, hm, hpositive, hx⟩
    obtain ⟨j, hj⟩ := List.mem_iff_getElem?.1 hm
    rw [List.getElem?_take, Option.ite_none_right_eq_some] at hj
    obtain ⟨hlt, hj⟩ := hj
    obtain ⟨hnode', rfl⟩ := getElem?_literals_iff.1 hj
    exact ⟨j + 1, hnode', Nat.succ_lt_succ hlt, hpositive, hx⟩

end PassingGraph

/-- The adorned body of a passing graph has the literals of the body as they are reached. -/
theorem isAdornedBody_adornedBody (head : Atom) {body : List Literal} (known : List String)
    (hplain : ∀ l ∈ body, ∀ a ∈ l.atom?, a.IsPlain) :
    IsAdornedBody rules known body
      ((PassingGraph.ofRule head body known).adornedBody (derivedPredicates rules)) where
  length := by
    rw [← literals_ofRule head, PassingGraph.adornedBody, List.length_map,
      PassingGraph.order, List.length_range']
  literals i l l' hl hl' := by
    rw [← literals_ofRule head] at hl ⊢
    rw [PassingGraph.getElem?_adornedBody, hl, Option.map_some, Option.some.injEq] at hl'
    subst hl'
    have hmem := mem_literals_ofRule.1 (List.mem_of_getElem? hl)
    refine Literal.isAdornedAs_adorn (hplain l hmem) fun x hx => ?_
    rw [PassingGraph.mem_boundAt_iff_boundAfter hl, and_iff_right hx]
    rfl

/-! ## Adorned programs -/

namespace AdornedProgram

theorem isCopy_adorn {r : Rule} (hr : r.IsPlain) :
    Rule.IsCopy rules p (r, i) (r.adorn (derivedPredicates rules) p i) where
  source := rfl
  head := rfl
  body := by
    refine ⟨Term.occurrencesAll (p.select r.head.terms), fun y => ?_,
      isAdornedBody_adornedBody r.head _ hr.2⟩
    have hknown : y ∈ Term.occurrencesAll (p.select r.head.terms) ↔
        ∃ t ∈ p.select r.head.terms, y ∈ t.occurrences :=
      List.mem_eraseDups.symm.trans Term.mem_varsAll
    simp only [hknown, CallPattern.mem_select_iff]
    constructor
    · rintro ⟨t, ⟨i, hb, ht⟩, hy⟩
      exact ⟨i, t, hb, ht, hy⟩
    · rintro ⟨i, t, hb, ht, hy⟩
      exact ⟨t, ⟨i, hb, ht⟩, hy⟩

theorem rulesFor_eq_map (rules : List Rule) (p : CallPattern) :
    rulesFor rules p = (rules.zipIdx.filter (·.1.head.predicate = p.plain)).map fun x =>
      x.1.adorn (derivedPredicates rules) p x.2 := by
  rw [← List.filterMap_eq_map, List.filterMap_filter, rulesFor]
  simp only [decide_eq_true_eq, Function.comp_apply]

theorem head_of_mem_rulesFor {ar : AdornedRule} (h : ar ∈ rulesFor rules p) :
    ar.rule.head.predicate = .adorned p := by
  obtain ⟨r, i, -, -, rfl⟩ := mem_rulesFor.1 h
  rfl

theorem nodup_patterns (rules : List Rule) (q : Query) : (ofQuery rules q).patterns.Nodup := by
  have hnodup := (isSound_last rules q).nodup
  rw [(isSound_last rules q).seen] at hnodup
  exact (List.nodup_append'.1 hnodup).1

/-- The rules for a pattern are those that were adorned for it. -/
theorem filter_rules_ofQuery (hp : p ∈ (ofQuery rules q).patterns) :
    (ofQuery rules q).rules.filter (·.rule.head.predicate = .adorned p) = rulesFor rules p := by
  rw [rules_ofQuery]
  refine filter_flatMap_of_nodup (nodup_patterns rules q) hp (fun ar har => ?_)
    fun p' _ hne ar har => ?_
  · simpa using head_of_mem_rulesFor har
  · simpa [head_of_mem_rulesFor har] using hne

theorem patterns_iff_mentions (hrules : ∀ r ∈ rules, r.IsPlain) (hquery : q.toRule.IsPlain) :
    p ∈ (ofQuery rules q).patterns ↔
      ∃ l, (l ∈ (ofQuery rules q).query.body ∨
        ∃ r ∈ (ofQuery rules q).rules, l ∈ r.rule.body) ∧ l.Mentions p := by
  obtain ⟨hasked, -, hclosed⟩ := patterns_spec hrules hquery
  constructor
  · intro hp
    rcases asked_of_mem_patterns hp with ⟨l, hl, hcall⟩ | ⟨p', hp', hcalls⟩
    · refine ⟨_, .inl ?_, (Literal.mentions_adorn_iff (hquery.2 l hl)).2 hcall⟩
      rw [query_ofQuery]
      exact List.mem_map_of_mem hl
    · obtain ⟨r, hr, hhead, hcalls⟩ := mem_callsFor.1 hcalls
      obtain ⟨k, hk, hcall⟩ := exists_call?_of_mem_calls hcalls
      obtain ⟨i, hi⟩ := List.mem_iff_getElem?.1 hr
      have hl := mem_literals_ofRule.1 (PassingGraph.literal_mem hk)
      refine ⟨_, .inr ⟨_, mem_rules_ofQuery.2 ⟨p', hp', r, i, hi, hhead, rfl⟩,
        PassingGraph.mem_adornedBody.2 ⟨k, hk, rfl⟩⟩, ?_⟩
      exact (Literal.mentions_adorn_iff ((hrules r hr).2 _ hl)).2 hcall
  · rintro ⟨l, hl | ⟨_, hr, hl⟩, hmentions⟩
    · rw [query_ofQuery] at hl
      obtain ⟨m, hm, rfl⟩ := List.mem_map.1 hl
      exact hasked m hm p ((Literal.mentions_adorn_iff (hquery.2 m hm)).1 hmentions)
    · obtain ⟨p', hp', r, i, hi, hhead, rfl⟩ := mem_rules_ofQuery.1 hr
      obtain ⟨k, hk, rfl⟩ := PassingGraph.mem_adornedBody.1 hl
      have hr := List.mem_of_getElem? hi
      have hl := mem_literals_ofRule.1 (PassingGraph.literal_mem hk)
      have hcall := (Literal.mentions_adorn_iff ((hrules r hr).2 _ hl)).1 hmentions
      -- What a rule asks for, its pattern asks for.
      refine hclosed p' hp' p (mem_callsFor.2 ⟨r, hr, hhead, ?_⟩)
      exact List.mem_filterMap.2 ⟨k, hk, hcall⟩

/-- The literals of the query are adorned in their places. -/
theorem forall₂_query_body (hquery : q.toRule.IsPlain) :
    List.Forall₂ (fun l l' => ∃ i : Nat, (calledLiterals [] q.body)[i]? = some l ∧
        l.IsAdornedAs rules (BoundAfter [] ((calledLiterals [] q.body).take i)) l')
      q.body (ofQuery rules q).query.body := by
  rw [query_ofQuery, List.forall₂_map_right_iff, List.forall₂_same]
  intro l hl
  have hmem : l ∈ q.passingGraph.literals := mem_literals_ofRule.2 hl
  have hidx := List.getElem?_idxOf hmem
  rw [boundInQuery, PassingGraph.node_eq hmem, ← literals_ofRule Query.head]
  refine ⟨_, hidx, Literal.isAdornedAs_adorn (hquery.2 l hl) fun x hx => ?_⟩
  rw [PassingGraph.mem_boundAt_iff_boundAfter hidx, and_iff_right hx]
  rfl

theorem forall₂_isCopy (hrules : ∀ r ∈ rules, r.IsPlain) (hp : p ∈ (ofQuery rules q).patterns) :
    List.Forall₂ (Rule.IsCopy rules p) (rules.zipIdx.filter (·.1.head.predicate = p.plain))
      ((ofQuery rules q).rules.filter (·.rule.head.predicate = .adorned p)) := by
  rw [filter_rules_ofQuery hp, rulesFor_eq_map, List.forall₂_map_right_iff, List.forall₂_same]
  intro x hx
  exact isCopy_adorn (hrules _ (List.fst_mem_of_mem_zipIdx (List.mem_filter.1 hx).1))

/-- Adorning a program over plain atoms ends with what the query asks for. -/
theorem isAdornment_ofQuery (hrules : ∀ r ∈ rules, r.IsPlain) (hquery : q.toRule.IsPlain) :
    (ofQuery rules q).IsAdornment rules q where
  terminates := by
    obtain ⟨n, -, hlast, hpending, -⟩ := exists_last_eq hrules hquery
    rw [hlast] at hpending
    exact ⟨n, hpending, congrArg Progress.patterns hlast, congrArg Progress.rules hlast⟩
  nodup := nodup_patterns rules q
  patterns _ := patterns_iff_mentions hrules hquery
  heads r hr := by
    obtain ⟨p, hp, r, i, -, -, rfl⟩ := mem_rules_ofQuery.1 hr
    exact ⟨p, hp, rfl⟩
  copies _ := forall₂_isCopy hrules
  query := forall₂_query_body hquery

/-- Paths from a node are asked for by the query and by the second rule for them, and adorned once. -/
theorem isAdornment_ofQuery_paths :
    (∀ r ∈ pathRules, r.IsPlain) ∧ pathQuery.toRule.IsPlain ∧
    (ofQuery pathRules pathQuery).IsAdornment pathRules pathQuery ∧
    (ofQuery pathRules pathQuery).patterns =
      [⟨"path", [.bound, .free]⟩, ⟨"apart", [.bound, .free]⟩] := by
  have hrules : ∀ r ∈ pathRules, r.IsPlain := by decide +kernel
  have hquery : pathQuery.toRule.IsPlain := by decide +kernel
  exact ⟨hrules, hquery, isAdornment_ofQuery hrules hquery, by decide +kernel⟩

end AdornedProgram

end Deduction
