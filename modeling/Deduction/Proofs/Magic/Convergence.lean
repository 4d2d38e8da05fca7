import Deduction.Proofs.Agreement
import Deduction.Proofs.Convergence
import Deduction.Proofs.Magic.Closure
import Deduction.Proofs.Magic.Soundness

/-!
# Magic programs that come to an end

The calls of a magic program are facts, and can grow: where `p(X)` needs `p(f(X))`, a call of `p(a)`
leads to calls for ever, even if there is no fact for `p`, so that the program itself comes to an
end at once (`EndlessCase.larger`). But if calls have levels, such that no call is built from the
arguments of calls of its own level (`MagicProgram.HasCallLevels`), then the magic program comes to
an end where the program does (`MagicProgram.converges`). Calls without compound terms are of one
level (`MagicProgram.hasCallLevels_of_flat`).

With levels the arguments of calls are from a finite set (`callTerms`), by induction on the level.
What holds for a pattern is a fact of the program, since magic sets are sound. Together these are
finitely many atoms (`IsDerivable`), and the rules lead from them to no others
(`isClosed_isDerivable`).

Builtins that compute do not keep convergence, nor do anonymous variables that a negated literal
shares with the head, since these tell the arguments of a call from the values that a rule finds
itself (`not_converges_evaluated`).
-/

namespace Deduction

/-! ## Terms of calls -/

/-- What the heads of rules have as arguments if their variables have values in a set. -/
def headTerms (rules : List Rule) (S : Set Term) : Set Term :=
  {u | ∃ r ∈ rules, ∃ t ∈ r.head.terms, ∃ v : Valuation,
    (∀ x ∈ t.occurrences, v x ∈ S) ∧ t.replace v = u}

section Terms

variable {S : Set Term} (hS : S.Finite)

include hS

/-- A term has finitely many instances with values in a finite set. -/
theorem finite_instances (t : Term) :
    {u | ∃ v : Valuation, (∀ x ∈ t.occurrences, v x ∈ S) ∧ t.replace v = u}.Finite := by
  induction t using Term.inductionOn with
  | var x =>
    refine hS.subset ?_
    rintro _ ⟨v, hv, rfl⟩
    exact hv x (.head _)
  | const c =>
    refine (Set.finite_singleton (Term.const c)).subset ?_
    rintro _ ⟨v, -, rfl⟩
    rfl
  | app k ts ih =>
    -- The arguments are instances of the arguments.
    refine ((finite_tuples ((List.finite_toSet ts).biUnion ih) ts.length).image
      (Term.app k)).subset ?_
    rintro _ ⟨v, hv, rfl⟩
    rw [Term.occurrences, Term.occurrencesAll_eq_flatMap] at hv
    rw [Term.replace, Term.replaceAll_eq_map]
    refine ⟨ts.map (Term.replace v), ⟨List.length_map _, ?_⟩, rfl⟩
    rw [List.forall_mem_map]
    refine fun t ht => Set.mem_biUnion ht ⟨v, fun x hx => hv x ?_, rfl⟩
    exact List.mem_flatMap.2 ⟨t, ht, hx⟩

theorem finite_headTerms (rules : List Rule) : (headTerms rules S).Finite := by
  refine ((List.finite_toSet rules).biUnion fun r _ =>
    (List.finite_toSet r.head.terms).biUnion fun t _ => finite_instances hS t).subset ?_
  rintro u ⟨r, hr, t, ht, hu⟩
  exact Set.mem_biUnion hr (Set.mem_biUnion ht hu)

end Terms

/-- The terms that occur in the calls of the levels below `n`: parts of the facts, and of what the
heads of rules have as arguments if their variables have values of the levels below. -/
def callTerms (rules : List Rule) (M : Set Atom) : Nat → Set Term
  | 0 => partsOf {t | ∃ a ∈ M, t ∈ a.terms}
  | n + 1 => callTerms rules M n ∪ partsOf (headTerms rules (callTerms rules M n))

section CallTerms

variable {rules : List Rule} {M : Set Atom} {m n : Nat} {t : Term}

theorem finite_callTerms (hM : M.Finite) (n : Nat) : (callTerms rules M n).Finite := by
  induction n with
  | zero => exact finite_partsOf (finite_terms hM)
  | succ n ih => exact ih.union (finite_partsOf (finite_headTerms ih rules))

theorem callTerms_mono (hle : m ≤ n) : callTerms rules M m ⊆ callTerms rules M n := by
  induction n, hle using Nat.le_induction with
  | base => exact Set.Subset.refl _
  | succ n _ ih => exact ih.trans Set.subset_union_left

theorem mem_callTerms_of_app {k : String} {us : List Term}
    (h : .app k us ∈ callTerms rules M n) : ∀ u ∈ us, u ∈ callTerms rules M n := by
  induction n with
  | zero => exact mem_partsOf_of_app h
  | succ n ih =>
    rcases h with h | h
    · exact fun u hu => .inl (ih h u hu)
    · exact fun u hu => .inr (mem_partsOf_of_app h u hu)

theorem mem_callTerms_of_fact {a : Atom} (ha : a ∈ M) (ht : t ∈ a.terms) :
    t ∈ callTerms rules M n :=
  callTerms_mono (Nat.zero_le n) ⟨t, ⟨a, ha, ht⟩, t.self_mem_parts⟩

theorem replace_mem_callTerms {r : Rule} {v : Valuation} (hr : r ∈ rules) (ht : t ∈ r.head.terms)
    (hv : ∀ x ∈ t.occurrences, v x ∈ callTerms rules M n) :
    t.replace v ∈ callTerms rules M (n + 1) :=
  .inr ⟨_, ⟨r, hr, t, ht, v, hv, rfl⟩, Term.self_mem_parts _⟩

end CallTerms

/-! ## Levels of calls -/

/-- The literal is positive, and about facts or about calls of a level below `n`. -/
def Literal.IsBelow (level : Predicate → Nat) (n : Nat) : Literal → Prop
  | .positive a => a.predicate.isCall = true → level a.predicate < n
  | _ => False

instance (level : Predicate → Nat) (n : Nat) : (l : Literal) → Decidable (l.IsBelow level n)
  | .positive a => inferInstanceAs (Decidable (_ → level a.predicate < n))
  | .negative _ | .builtin _ => isFalse id

/-- Every argument of the head occurs in a literal that is not above the head, or takes the values
of its variables from literals below the head. -/
def Rule.RespectsLevels (c : Rule) (level : Predicate → Nat) : Prop :=
  ∀ t ∈ c.head.terms,
    (∃ l ∈ c.body, l.IsBelow level (level c.head.predicate + 1) ∧ t ∈ Term.partsAll l.terms) ∨
    ∀ x ∈ t.occurrences, ∃ l ∈ c.body, l.IsBelow level (level c.head.predicate) ∧ x ∈ l.vars

/-- The calls of a program have levels such that no call has an argument that is built from the
arguments of calls of its own level. -/
def MagicProgram.HasCallLevels (program : MagicProgram) (level : Predicate → Nat) : Prop :=
  ∀ c ∈ program.rules, c.head.predicate.isCall = true → c.RespectsLevels level

instance (program : MagicProgram) (level : Predicate → Nat) :
    Decidable (program.HasCallLevels level) :=
  inferInstanceAs (Decidable (∀ c ∈ program.rules, _ → ∀ t ∈ c.head.terms,
    (∃ l ∈ c.body, _ ∧ _) ∨ ∀ x ∈ t.occurrences, ∃ l ∈ c.body, _ ∧ _))

theorem var_mem_partsAll_iff {ts : List Term} {x : String} :
    .var x ∈ Term.partsAll ts ↔ x ∈ Term.varsAll ts := by
  simp only [Term.mem_partsAll, Term.var_mem_parts_iff, Term.mem_varsAll]

theorem Literal.IsBelow.isPositive {level : Predicate → Nat} {n : Nat} {l : Literal}
    (h : l.IsBelow level n) : l.isPositive = true := by
  cases l with
  | positive a => rfl
  | negative a => cases h
  | builtin c => cases h

/-- A rule that respects levels has values for the variables of its head. -/
theorem Rule.RespectsLevels.mem_positiveVars {c : Rule} {level : Predicate → Nat} {x : String}
    (h : c.RespectsLevels level) (hx : x ∈ c.head.vars) : x ∈ positiveVars c.body := by
  obtain ⟨t, ht, hxt⟩ := Term.mem_varsAll.1 hx
  rcases h t ht with ⟨l, hl, hbelow, ht⟩ | hvars
  · obtain ⟨u, hu, ht⟩ := Term.mem_partsAll.1 ht
    exact mem_positiveVars_of_isPositive hl hbelow.isPositive
      (Term.mem_varsAll.2 ⟨u, hu, Term.occurrences_subset_of_mem_parts ht hxt⟩)
  · obtain ⟨l, hl, hbelow, hx⟩ := hvars x hxt
    exact mem_positiveVars_of_isPositive hl hbelow.isPositive hx

/-! ## What a magic program can derive -/

/-- A fact of the program, a fact for a pattern, or a call whose arguments its level allows. -/
structure IsDerivable (rules : List Rule) (level : Predicate → Nat) (M : Set Atom) (a : Atom) :
    Prop where
  /-- The predicate is one of the program's own, or heads a rule. -/
  head : a ∈ M ∨ ∃ c ∈ rules, c.head.predicate = a.predicate
  /-- Plain atoms are facts. -/
  plain : a.predicate.isPlain = true → a ∈ M
  /-- What holds for a pattern holds for the predicate. -/
  adorned : ∀ p, a.predicate = .adorned p → ⟨p.plain, a.terms⟩ ∈ M
  /-- The arguments of calls are terms of their level. -/
  call : a.predicate.isCall = true → a.terms.length = a.predicate.arity ∧
    ∀ t ∈ a.terms, t ∈ callTerms rules M (level a.predicate + 1)

section Derivable

variable {registry : Registry} {rules : List Rule} {level : Predicate → Nat} {M : Set Atom}

/-- The plain facts of a program are derivable. -/
theorem isDerivable_of_isPlain {a : Atom} (ha : a ∈ M) (hplain : a.predicate.isPlain = true) :
    IsDerivable rules level M a := by
  refine ⟨.inl ha, fun _ => ha, fun p hp => ?_, fun hcall => ?_⟩
  · rw [hp] at hplain
    cases hplain
  · cases hp : a.predicate <;> simp_all [Predicate.isPlain, Predicate.isCall]

theorem isSound_isDerivable : IsSound M {a | IsDerivable rules level M a} :=
  ⟨fun _ ha => ha.plain, fun _ ha => ha.adorned⟩

theorem finite_isDerivable (hM : M.Finite) : {a | IsDerivable rules level M a}.Finite := by
  -- The atoms over a predicate are given by finitely many lists of arguments.
  have hpredicate : ∀ p, {a | a.predicate = p ∧ IsDerivable rules level M a}.Finite := by
    intro p
    have hcall : p.isCall = true →
        {a | a.predicate = p ∧ IsDerivable rules level M a}.Finite := by
      intro hp
      have hterms : (callTerms rules M (level p + 1)).Finite := finite_callTerms hM _
      refine ((finite_tuples hterms p.arity).image (Atom.mk p)).subset ?_
      rintro a ⟨rfl, ha⟩
      exact ⟨a.terms, ha.call hp, rfl⟩
    cases p with
    | plain name arity =>
      refine hM.subset ?_
      rintro a ⟨ha, hderivable⟩
      exact hderivable.plain (by rw [ha]; rfl)
    | adorned p =>
      refine (hM.image fun b => ⟨.adorned p, b.terms⟩).subset ?_
      rintro ⟨_, terms⟩ ⟨rfl, ha⟩
      exact ⟨_, ha.adorned p rfl, rfl⟩
    | magic p => exact hcall rfl
    | labeled p label => exact hcall rfl
  refine (hM.union ((List.finite_toSet (rules.map (·.head.predicate))).biUnion
    fun p _ => hpredicate p)).subset fun a ha => ?_
  rcases ha.head with hmem | ⟨c, hc, heq⟩
  · exact .inl hmem
  · exact .inr (Set.mem_biUnion (List.mem_map.2 ⟨c, hc, heq⟩) ⟨rfl, ha⟩)

/-- The values of the parts of a literal are terms of the level that the literal is below. -/
theorem replace_mem_callTerms_of_holds {l : Literal} {n : Nat} {N : Set Atom} {v : Valuation}
    {limited : List String} {t : Term} (hl : l.IsBelow level n)
    (hholds : l.Holds registry limited {a | IsDerivable rules level M a} N v)
    (ht : t ∈ Term.partsAll l.terms) (hwild : wildcard ∉ t.occurrences) :
    t.replace v ∈ callTerms rules M n := by
  cases l with
  | negative a => cases hl
  | builtin c => cases hl
  | positive a =>
    obtain ⟨ts, hts, hmatches⟩ := hholds
    refine hmatches.of_mem_partsAll (P := (· ∈ callTerms rules M n))
      (fun _ _ => mem_callTerms_of_app) (fun u hu => ?_) ht hwild
    -- The arguments belong to a fact, or to a call of a lower level.
    cases hpredicate : a.predicate with
    | plain name arity =>
      exact mem_callTerms_of_fact (hts.plain (by rw [hpredicate]; rfl)) hu
    | adorned p => exact mem_callTerms_of_fact (hts.adorned p hpredicate) hu
    | magic p =>
      have hcall : a.predicate.isCall = true := by rw [hpredicate]; rfl
      exact callTerms_mono (hl hcall) ((hts.call hcall).2 u hu)
    | labeled p label =>
      have hcall : a.predicate.isCall = true := by rw [hpredicate]; rfl
      exact callTerms_mono (hl hcall) ((hts.call hcall).2 u hu)

/-- The rules for calls lead from terms of lower levels to terms of their own level. -/
theorem Rule.RespectsLevels.mem_callTerms {c : Rule} {N : Set Atom} {v : Valuation}
    (h : c.RespectsLevels level) (hc : c ∈ rules)
    (hnamed : ∀ x ∈ c.head.vars, isAnonymous x = false)
    (hbody : BodyHolds registry c.body {a | IsDerivable rules level M a} N v) :
    ∀ t ∈ (c.head.replace v).terms, t ∈ callTerms rules M (level c.head.predicate + 1) := by
  refine List.forall_mem_map.2 fun t ht => ?_
  have hwild : ∀ x ∈ t.occurrences, x ≠ wildcard := fun x hx =>
    Term.ne_wildcard_of_named (hnamed x (Term.mem_varsAll.2 ⟨t, ht, hx⟩))
  rcases h t ht with ⟨l, hl, hbelow, hmem⟩ | hvars
  · exact replace_mem_callTerms_of_holds hbelow (hbody l hl) hmem fun hx => hwild _ hx rfl
  · refine replace_mem_callTerms hc ht fun x hx => ?_
    obtain ⟨l, hl, hbelow, hxl⟩ := hvars x hx
    exact replace_mem_callTerms_of_holds (t := .var x) hbelow (hbody l hl)
      (var_mem_partsAll_iff.2 hxl) (by simpa [Term.occurrences, eq_comm] using hwild x hx)

end Derivable

/-! ## The rules of a magic program -/

section Evaluated

variable {registry : Registry} {rules : List Rule} {q : Query} {program : MagicProgram} {c : Rule}
  {hasFacts : Predicate → Bool}

/-- Rules for calls belong to the magic program itself. -/
theorem mem_rules_of_isCall (hc : c ∈ program.evaluated hasFacts)
    (hcall : c.head.predicate.isCall = true) : c ∈ program.rules := by
  refine (List.mem_append.1 hc).resolve_right fun hc => ?_
  obtain ⟨p, rfl, -⟩ := mem_bridgeRules.1 hc
  cases hcall

variable (h : MagicProgram.ofQuery rules q = .ok program)
  (hsimple : ∀ r ∈ q.toRule :: rules, r.IsSimple registry)

include h hsimple

/-- Calls without compound terms are of one level, if the magic program is safe. -/
theorem MagicProgram.hasCallLevels_of_flat {options : SafetyOptions}
    (hsafe : checkSafety (program.evaluated hasFacts) registry options = .ok ())
    (hflat : ∀ c ∈ program.rules, c.head.predicate.isCall = true →
      ∀ t ∈ c.head.terms, ∀ k us, t ≠ .app k us) :
    program.HasCallLevels fun _ => 0 := by
  intro c hc hcall t ht
  have hmem : c ∈ program.evaluated hasFacts := List.mem_append_left _ hc
  have hmagic := isMagicRule_of_mem h hsimple hmem
  cases t with
  | app k us => exact absurd rfl (hflat c hc hcall _ ht k us)
  | const c => exact .inr nofun
  | var x =>
    have hsafe : c.IsSafe ⟨registry, { safety := options }⟩ := forM_eq_ok_iff.1 hsafe c hmem
    have hx : x ∈ positiveVars c.body := hsafe.mem_positiveVars_of_head (hmagic.compares hsimple)
      (hmagic.named hsimple) (Term.mem_varsAll.2 ⟨_, ht, .head _⟩)
    obtain ⟨a, ha, hx⟩ := mem_positiveVars.1 hx
    exact .inl ⟨_, ha, fun _ => Nat.zero_lt_one, var_mem_partsAll_iff.2 hx⟩

/-- What the rules that are evaluated derive from derivable atoms is derivable, if the facts of the
program decide what negated literals mean. -/
theorem isClosed_isDerivable {level : Predicate → Nat} {M : Set Atom}
    (hlimited : ∀ r ∈ rules, ∀ x ∈ r.head.vars, x ∈ positiveVars r.body)
    (hlevels : program.HasCallLevels level) (hM : IsClosed registry rules M M M) :
    IsClosed registry (program.evaluated hasFacts)
      {a | IsDerivable (program.evaluated hasFacts) level M a} M
      {a | IsDerivable (program.evaluated hasFacts) level M a} := by
  intro c hc v hv hbody
  have hmagic := isMagicRule_of_mem h hsimple hc
  obtain ⟨hplain, hadorned⟩ :=
    hmagic.isSound_head hsimple hlimited isSound_isDerivable hM hv hbody
  refine ⟨.inr ⟨c, hc, rfl⟩, hplain, hadorned, fun hcall => ⟨?_, ?_⟩⟩
  · exact (List.length_map _).trans
      (hasArities_of_mem_evaluated (isPlain_of_isSimple hsimple) h hc).1
  · exact (hlevels c (mem_rules_of_isCall hc hcall) hcall).mem_callTerms hc
      (hmagic.named hsimple).head hbody

/-- Where a part of the magic program has all the rules for a predicate that is negated, its model
has the facts of the program for the predicate. -/
theorem mem_model_of_isLowerPart {facts M M' : Set Atom} {lower : List Rule}
    (hstrata : ∃ s, stratify rules = .ok s) (hM : IsStableModel registry rules facts M)
    (hlower : IsLowerPart lower (program.evaluated hasFacts))
    (hM' : IsStableModel registry lower facts M') (hc : c ∈ program.evaluated hasFacts) {a : Atom}
    (ha : .negative a ∈ c.body)
    (hall : ∀ c ∈ program.evaluated hasFacts, c.head.predicate = a.predicate → c ∈ lower)
    {t : Tuple} (ht : ⟨a.predicate, t⟩ ∈ M) : ⟨a.predicate, t⟩ ∈ M' := by
  obtain ⟨s, hs⟩ := hstrata
  -- The two share the rules for the predicates that are kept and settled.
  have hshare : ShareRules (fun p => program.Keeps rules p ∧
      ∀ c ∈ program.evaluated hasFacts, c.head.predicate = p → c ∈ lower) rules lower := by
    have hmem : ∀ r ∈ rules, program.Keeps rules r.head.predicate →
        r ∈ program.evaluated hasFacts := fun r hr hkeeps =>
      List.mem_append_left _ (hkeeps.2 r hr rfl)
    refine ⟨fun r hr => ⟨fun hrules => ?_, fun hr' => ?_⟩, fun r hr hK l hl b hb => ⟨?_, ?_⟩⟩
    · exact hr.2 r (hmem r hrules hr.1) rfl
    · exact ((isMagicRule_of_mem h hsimple (hlower.subset r hr')).mem_of_isPlain_head hr.1.1).1
    · exact MagicProgram.keeps_of_mem_body h (.inr ⟨r, hK.1.2 r hr rfl, hl⟩) hb
        ((hsimple r (.tail _ hr)).plain.2 l hl b hb).1
    · exact hlower.used r (hK.2 r (hmem r hr hK.1) rfl) l hl b hb
  exact (hM.agree hM' (isLevelling_stratum hs) hshare
    ⟨IsMagicRule.keeps_of_negative hsimple h hc ha, hall⟩ t).1 ht

end Evaluated

/-! ## Convergence -/

/-- Magic sets keep convergence. If the evaluation of a program over some facts comes to an end, so
does the evaluation of its magic program for a query, with the rules that carry stored facts over,
provided that no call is built from a call of its own level. Nothing is limited; the facts are
ground and over plain predicates; the atoms of the rules and of the query are plain, their builtins
are comparisons, and their only anonymous variables are wildcards in positive and negated
literals. -/
theorem MagicProgram.converges {ctx : Context} {facts : Database} {rules : List Rule}
    {q : Query} {program : MagicProgram} {level : Predicate → Nat}
    (htuples : ctx.settings.maxTuples = none) (htime : ctx.settings.timeoutMs = none)
    (hfacts : facts.IsGround) (hplain : facts.IsPlain)
    (hrules : ∀ r ∈ rules, r.IsSimple ctx.registry) (hquery : q.toRule.IsSimple ctx.registry)
    (h : ofQuery rules q = .ok program) (hlevels : program.HasCallLevels level)
    (hconverges : ctx.Converges rules facts) :
    ctx.Converges (program.evaluated facts.hasTuples) facts := by
  have hsimple : ∀ r ∈ q.toRule :: rules, r.IsSimple ctx.registry :=
    List.forall_mem_cons.2 ⟨hquery, hrules⟩
  obtain ⟨rounds, result, heval⟩ := hconverges
  obtain ⟨hsafe, s, hs, -⟩ := Context.evaluate_eq_ok_iff.1 heval
  obtain ⟨-, hM⟩ := Context.evaluate_isStableModel hfacts (fun r hr => (hrules r hr).compares)
    (fun r hr => (hrules r hr).named) heval
  have hmagic := fun c (hc : c ∈ program.evaluated facts.hasTuples) =>
    isMagicRule_of_mem h hsimple hc
  have hchecked : checkSafety (program.evaluated facts.hasTuples) ctx.registry
      ctx.settings.safety = .ok () :=
    checkSafety_evaluated_of_head (Rule.checkSafety_eq_ok_iff.2 hsafe)
      (isPlain_of_isSimple hsimple) h fun c hc hcall x hx =>
        (hlevels c (mem_rules_of_isCall hc hcall) hcall).mem_positiveVars hx
  refine Context.converges_of_finite
    (F := {a | IsDerivable (program.evaluated facts.hasTuples) level result.1.atoms a})
    (N := result.1.atoms) (fun n => by simp [Context.exceededLimit?, htuples, htime])
    (fun c hc => ⟨Rule.checkSafety_eq_ok_iff.1 hchecked c hc, (hmagic c hc).compares hsimple,
      (hmagic c hc).named hsimple⟩)
    (fun c hc => (hasArities_of_mem_evaluated (isPlain_of_isSimple hsimple) h hc).1)
    hfacts (finite_isDerivable (Database.finite_atoms _)) (fun a ha => ?_) ?_ ?_
    (exists_stratify_evaluated h (fun r hr => (hrules r hr).plain.hasPlainPredicates) ⟨s, hs⟩)
  · exact isDerivable_of_isPlain (hM.1.1 ha) (hplain a ha)
  · refine isClosed_isDerivable h hsimple (fun r hr x hx => ?_) hlevels hM.1.2
    exact (hsafe r hr).mem_positiveVars_of_head (hrules r hr).compares (hrules r hr).named hx
  · intro lower M' hlower hM' c hc a ha hall t ht
    exact mem_model_of_isLowerPart h hsimple ⟨s, hs⟩ hM hlower hM' hc ha hall ht

/-- Lines along links, from places with a stop, to places that are not closed. -/
def lineRules : List Rule :=
  let a (name : String) (terms : List Term) : Atom := ⟨.plain name terms.length, terms⟩
  [⟨a "stop" [.app "at" [.var "X"]], [.positive (a "station" [.var "X"])]⟩,
    ⟨a "line" [.var "X", .var "Y"],
      [.positive (a "stop" [.app "at" [.var "X"]]), .positive (a "link" [.var "X", .var "Y"])]⟩,
    ⟨a "line" [.var "X", .var "Z"],
      [.positive (a "link" [.var "X", .var "Y"]), .positive (a "line" [.var "Y", .var "Z"]),
        .negative (a "closed" [.var "Z"])]⟩]

/-- A circle of three links. -/
def lineFacts : Database :=
  let a (name : String) (ns : List Int64) : Atom :=
    ⟨.plain name ns.length, ns.map (.const ∘ .integer)⟩
  ((Database.ofFacts [a "link" [1, 2], a "link" [2, 3], a "link" [3, 1], a "station" [1],
    a "station" [2], a "closed" [3]]).toOption).getD .empty

/-- Where the lines from a place lead to. -/
def lineQuery : Query :=
  ⟨[.positive ⟨.plain "line" 2, [.const (.integer 1), .var "Z"]⟩]⟩

theorem converges_lineRules :
    let ctx : Context := ⟨.standard, {}⟩
    let level (p : Predicate) : Nat := if p.name = "stop" then 1 else 0
    lineFacts.IsGround ∧ lineFacts.IsPlain ∧
    (∀ r ∈ lineQuery.toRule :: lineRules, r.IsSimple ctx.registry) ∧
    ctx.Converges lineRules lineFacts ∧
    ∃ program, MagicProgram.ofQuery lineRules lineQuery = .ok program ∧
      program.HasCallLevels level ∧ ¬program.HasCallLevels (fun _ => 0) ∧
      ctx.Converges (program.evaluated lineFacts.hasTuples) lineFacts := by
  intro ctx level
  have hfacts : lineFacts.IsGround := Database.isGround_iff.2 (by decide +kernel)
  have hplain : lineFacts.IsPlain := Database.isPlain_of_entries (by decide +kernel)
  have hsimple : ∀ r ∈ lineQuery.toRule :: lineRules, r.IsSimple ctx.registry := by decide +kernel
  obtain ⟨hquery, hrules⟩ := List.forall_mem_cons.1 hsimple
  have hconverges : ctx.Converges lineRules lineFacts := ⟨9, Outcome.exists_ok (by decide +kernel)⟩
  -- With one level only, the place that a station is asked for by is built from a call.
  obtain ⟨program, h, hlevels, hnone⟩ : ∃ program,
      MagicProgram.ofQuery lineRules lineQuery = .ok program ∧ program.HasCallLevels level ∧
        ¬program.HasCallLevels fun _ => 0 :=
    ⟨_, rfl, by decide +kernel, by decide +kernel⟩
  exact ⟨hfacts, hplain, hsimple, hconverges, program, h, hlevels, hnone,
    MagicProgram.converges rfl rfl hfacts hplain hrules hquery h hlevels hconverges⟩

/-! ## Magic programs without an end -/

/-- A program whose evaluation comes to an end, and a query whose magic program has none: once some
conditions are met, one of its rules puts a function symbol around what it has derived, for ever. -/
structure EndlessCase where
  /-- The rules of the program. -/
  rules : List Rule
  /-- The query. -/
  query : Query
  /-- The predicate whose terms grow, beginning with the integer one. -/
  predicate : Predicate
  /-- What has to hold for that. -/
  conditions : List Atom
  /-- The stratum of the magic program in which that happens. -/
  stratum : Nat

namespace EndlessCase

/-- The facts for all the programs. -/
def facts : Database :=
  let fact (name : String) (n : Int64) : Atom := ⟨.plain name 1, [.const (.integer n)]⟩
  ((Database.ofFacts [fact "t" 1, fact "r" 0]).toOption).getD .empty

/-- The rule of the magic program that does not come to an end. -/
def rule (e : EndlessCase) : Rule :=
  ⟨⟨e.predicate, [.app "f" [.var "X"]]⟩,
    (⟨e.predicate, [.var "X"]⟩ :: e.conditions).map .positive⟩

/-- The rules that are evaluated for the query. -/
def evaluated (e : EndlessCase) : List Rule :=
  match MagicProgram.ofQuery e.rules e.query with
  | .ok program => program.evaluated facts.hasTuples
  | .error _ => []

/-- Each term needs a larger one, so that the calls grow. -/
def larger : EndlessCase where
  rules := [⟨⟨.plain "p" 1, [.var "X"]⟩, [.positive ⟨.plain "p" 1, [.app "f" [.var "X"]]⟩]⟩]
  query := ⟨[.positive ⟨.plain "p" 1, [.const (.integer 1)]⟩]⟩
  predicate := .magic ⟨"p", [.bound]⟩
  conditions := []
  stratum := 0

/-- Terms grow if the rule for `s` holds for a term, which it does only if it is called with it. -/
def called (x : String) (body : List Literal) (t : Term) (stratum : Nat) : EndlessCase where
  rules := [⟨⟨.plain "s" 1, [.var x]⟩, body⟩,
    ⟨⟨.plain "n" 1, [.app "f" [.var "X"]]⟩,
      [.positive ⟨.plain "n" 1, [.var "X"]⟩, .positive ⟨.plain "s" 1, [t]⟩]⟩,
    ⟨⟨.plain "n" 1, [.var "X"]⟩, [.positive ⟨.plain "t" 1, [.var "X"]⟩]⟩]
  query := ⟨[.positive ⟨.plain "t" 1, [.const (.integer 1)]⟩,
    .positive ⟨.plain "n" 1, [.var "Z"]⟩]⟩
  predicate := .adorned ⟨"n", [.free]⟩
  conditions := [⟨.adorned ⟨"s", [.bound]⟩, [t]⟩]
  stratum := stratum

/-- The call has a floating-point number, which equals the integer that the rule computes. -/
def computed (name : String) (operands : List Int64) : EndlessCase :=
  called "Y" [.positive ⟨.plain "t" 1, [.var "X"]⟩,
    .builtin ⟨name, .var "X" :: operands.map (.const ∘ .integer) ++ [.var "Y"]⟩]
    (.const (.double ⟨0x3ff0000000000000⟩)) 0

/-- Calls of their own level, each of the builtins that compute, and an anonymous variable that a
negated literal shares with the head. -/
def all : List EndlessCase :=
  [larger, computed "EQUAL" [], computed "ADD" [0], computed "SUBTRACT" [0],
    computed "MULTIPLY" [1], computed "DIVIDE" [1], computed "MODULUS" [2],
    called "_Y" [.negative ⟨.plain "r" 1, [.var "_Y"]⟩, .positive ⟨.plain "t" 1, [.var "_Y"]⟩]
      (.const (.integer 1)) 1]

end EndlessCase

/-- The programs of the cases come to an end, their magic programs do not. -/
theorem not_converges_evaluated :
    let ctx : Context := ⟨.standard, {}⟩
    EndlessCase.facts.IsGround ∧ EndlessCase.facts.IsPlain ∧
    ∀ e ∈ EndlessCase.all, (∀ r ∈ e.query.toRule :: e.rules, r.IsPlain) ∧
      ctx.Converges e.rules EndlessCase.facts ∧
      ∃ program, MagicProgram.ofQuery e.rules e.query = .ok program ∧
        ¬ctx.Converges (program.evaluated EndlessCase.facts.hasTuples) EndlessCase.facts := by
  intro ctx
  let one : Term := .const (.integer 1)
  have hfacts : EndlessCase.facts.IsGround := Database.isGround_iff.2 (by decide +kernel)
  have hplain : ∀ e ∈ EndlessCase.all, ∀ r ∈ e.query.toRule :: e.rules, r.IsPlain := by
    decide +kernel
  have hresult : ∀ e ∈ EndlessCase.all,
      ((ctx.evaluate 3 e.rules EndlessCase.facts).bind Except.toOption).isSome = true := by
    decide +kernel
  have hprogram : ∀ e ∈ EndlessCase.all,
      (MagicProgram.ofQuery e.rules e.query).toOption.isSome = true := by
    decide +kernel
  have hlayer : ∀ e ∈ EndlessCase.all,
      ((stratify e.evaluated).toOption.bind (·.layers[e.stratum]?)).any (e.rule ∈ ·) = true := by
    decide +kernel
  have hrule : ∀ e ∈ EndlessCase.all, e.rule.IsRelational ctx ∧
      ∀ a ∈ e.conditions, a.isGround = true := by
    decide +kernel
  have hfound : ∀ e ∈ EndlessCase.all, ∀ a ∈ ⟨e.predicate, [one]⟩ :: e.conditions, ∃ round < 3,
      ((ctx.newFactsAt 3 e.evaluated EndlessCase.facts e.stratum round).bind Except.toOption).any
        (fun db => (db.relation a.predicate).tuples.contains a.terms) = true := by
    decide +kernel
  refine ⟨hfacts, Database.isPlain_of_entries (by decide +kernel), fun e he => ?_⟩
  obtain ⟨program, h⟩ := Option.isSome_iff_exists.1 (hprogram e he)
  have h : MagicProgram.ofQuery e.rules e.query = .ok program := toOption_eq_some_iff.1 h
  refine ⟨hplain e he, ⟨3, Outcome.exists_ok (hresult e he)⟩, program, h, ?_⟩
  have hevaluated : e.evaluated = program.evaluated EndlessCase.facts.hasTuples := by
    rw [EndlessCase.evaluated, h]
  obtain ⟨layer, hlayer, hmem⟩ := (Option.any_eq_true _ _).1 (hlayer e he)
  obtain ⟨s, hs, hlayer⟩ := Option.bind_eq_some_iff.1 hlayer
  rw [← hevaluated]
  obtain ⟨hrelational, hconditions⟩ := hrule e he
  refine Context.not_converges_of_nest (t := one) hfacts
    (toOption_eq_some_iff.1 hs) hlayer (of_decide_eq_true hmem) hrelational hconditions
    fun a ha => ?_
  obtain ⟨round, -, hround⟩ := hfound e he a ha
  exact ⟨3, round, Context.exists_mem_of_outcome hround⟩

end Deduction
