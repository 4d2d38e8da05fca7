import Deduction.Proofs.Convergence
import Deduction.Proofs.Faults

/-!
# Datalog programs come to an end

Matching takes stored terms apart, and puts none together: a variable that a literal gives a value
to stands for a part of a stored term. Where heads have no compound terms, and builtins compute
nothing, rules therefore derive only tuples over the parts of the terms of the given facts and the
constants of heads (`activeTerms`). There are finitely many such tuples, so that every evaluation
comes to an end (`evaluate_terminates`).

It need not have a result, even if the rules are safe: the safety check leaves anonymous variables
alone, and an anonymous variable of a head or of a comparison may never get a value
(`strayRules`). What an evaluation can fail with, and because of which rule, is said by
`Rule.FailsWith`. Rules whose heads fit their relations, and in which positive literals have these
variables, have a result.
-/

namespace Deduction

open Matching

/-! ## Values of variables -/

namespace Matching

section Values

variable {ctx : Context} {full source : Database} {bound : List String} {s s' : Substitution}
  {l : Literal} {U : Set Term} (hU : ∀ k us, .app k us ∈ U → ∀ u ∈ us, u ∈ U)

include hU

/-- The values that matching a literal gives to variables are parts of stored terms, if the literal
computes nothing. -/
theorem values_of_extends (hs : Covers s bound) (hvalues : ∀ x t, s.get? x = some t → t ∈ U)
    (hground : source.IsGround) (hterms : ∀ a ∈ source.atoms, ∀ t ∈ a.terms, t ∈ U)
    (hl : ∀ c, l = .builtin c → ∃ name op, ctx.registry.get? c.name = some (.comparison name op))
    (h : Extends ctx full source l s s') : ∀ x t, s'.get? x = some t → t ∈ U := by
  intro x t hx
  cases l with
  | positive a =>
    obtain ⟨us, hus, hunify⟩ := extends_positive.1 h
    rcases Substitution.get?_of_unifyAll hs.grounded (hground _ hus) hunify hx with
      hold | ⟨⟨u, hu, hxu⟩, hne, v, hmatches, rfl⟩
    · exact hvalues x t hold
    · exact hmatches.hereditary hU (hterms _ hus) hu hxu hne
  | negative a =>
    obtain ⟨-, rfl⟩ := extends_negative.1 h
    exact hvalues x t hx
  | builtin c =>
    obtain ⟨completed, hcall, hunify⟩ := extends_builtin.1 h
    have hground := Context.areGround_of_evaluateCall hcall
    obtain ⟨name, op, hop⟩ := hl c rfl
    obtain ⟨b, hb, hevaluate⟩ := Context.evaluateCall_eq_some_iff.1 hcall
    obtain rfl := Option.some.inj (hop.symm.trans hb)
    obtain rfl := Builtin.eq_of_evaluate_comparison hevaluate
    rcases Substitution.get?_of_unifyAll hs.grounded hground hunify hx with
      hold | ⟨⟨u, hu, hxu⟩, -⟩
    · exact hvalues x t hold
    · -- The arguments of a comparison have no variables left.
      rw [Term.isGround_iff.1 (Term.areGround_iff.1 hground u hu)] at hxu
      cases hxu

/-- The values that matching a body gives to variables are parts of stored terms, if the body
computes nothing. -/
theorem values_of_run {body : List (Literal × Database)} (hs : Covers s bound)
    (hvalues : ∀ x t, s.get? x = some t → t ∈ U) (hground : ∀ y ∈ body, y.2.IsGround)
    (hterms : ∀ y ∈ body, ∀ a ∈ y.2.atoms, ∀ t ∈ a.terms, t ∈ U)
    (hbody : ∀ y ∈ body, ∀ c, y.1 = .builtin c →
      ∃ name op, ctx.registry.get? c.name = some (.comparison name op))
    (h : Run ctx full body s s') : ∀ x t, s'.get? x = some t → t ∈ U := by
  induction h generalizing bound with
  | nil s => exact hvalues
  | cons hext _ ih =>
    rw [List.forall_mem_cons] at hground hterms hbody
    exact ih (hs.of_extends hground.1 hext)
      (values_of_extends hU hs hvalues hground.1 hterms.1 hbody.1 hext) hground.2 hterms.2 hbody.2

end Values

end Matching

/-! ## The terms and the atoms of a program -/

/-- A variable or a constant. -/
def Term.isFlat : Term → Bool
  | .app _ _ => false
  | _ => true

/-- The head of a rule has no compound terms. -/
def Rule.HasFlatHead (r : Rule) : Prop :=
  ∀ t ∈ r.head.terms, t.isFlat = true

instance (r : Rule) : Decidable r.HasFlatHead :=
  inferInstanceAs (Decidable (∀ t ∈ r.head.terms, _))

/-- The parts of the terms of some facts, and the constants of the heads of rules. -/
def activeTerms (rules : List Rule) (facts : Database) : Set Term :=
  partsOf {t | ∃ a ∈ facts.atoms, t ∈ a.terms} ∪
    {t | ∃ r ∈ rules, t ∈ r.head.terms ∧ ∃ c, t = .const c}

/-- The atoms over such terms that are given, or have the form of the head of a rule. -/
def activeAtoms (rules : List Rule) (facts : Database) : Set Atom :=
  {a | (a ∈ facts.atoms ∨ ∃ r ∈ rules, r.head.predicate = a.predicate ∧
      a.terms.length = r.head.terms.length) ∧ ∀ t ∈ a.terms, t ∈ activeTerms rules facts}

/-- The facts of a database are ground active atoms. -/
structure Database.IsActive (rules : List Rule) (facts db : Database) : Prop where
  /-- The facts are ground. -/
  ground : db.IsGround
  /-- The facts are active. -/
  subset : db.atoms ⊆ activeAtoms rules facts

section Active

variable {rules : List Rule} {facts : Database}

theorem mem_activeTerms_of_app {k : String} {us : List Term}
    (h : .app k us ∈ activeTerms rules facts) : ∀ u ∈ us, u ∈ activeTerms rules facts := by
  rcases h with h | ⟨r, -, -, c, hc⟩
  · exact fun u hu => .inl (mem_partsOf_of_app h u hu)
  · cases hc

theorem finite_activeTerms : (activeTerms rules facts).Finite := by
  refine (finite_partsOf (finite_terms facts.finite_atoms)).union ?_
  refine ((List.finite_toSet rules).biUnion fun r _ =>
    List.finite_toSet r.head.terms).subset ?_
  rintro t ⟨r, hr, ht, -⟩
  exact Set.mem_biUnion hr ht

theorem finite_activeAtoms : (activeAtoms rules facts).Finite := by
  refine (facts.finite_atoms.union ((List.finite_toSet rules).biUnion fun r _ =>
    (finite_tuples (@finite_activeTerms rules facts) r.head.terms.length).image
      (Atom.mk r.head.predicate))).subset ?_
  rintro ⟨p, ts⟩ ⟨ha | ⟨r, hr, rfl, hlength⟩, hts⟩
  · exact .inl ha
  · exact .inr (Set.mem_biUnion hr ⟨ts, ⟨hlength, hts⟩, rfl⟩)

theorem atoms_subset_activeAtoms : facts.atoms ⊆ activeAtoms rules facts := fun a ha =>
  ⟨.inl ha, fun t ht => .inl ⟨t, ⟨a, ha, ht⟩, t.self_mem_parts⟩⟩

theorem Database.IsActive.refl (hfacts : facts.IsGround) : facts.IsActive rules facts :=
  ⟨hfacts, atoms_subset_activeAtoms⟩

end Active

/-! ## What rules derive -/

namespace Context

variable {ctx : Context} {rules : List Rule} {facts db : Database} {r : Rule} {a : Atom}

/-- Rules whose heads have no compound terms, and that compute nothing, lead from active atoms to
active atoms. -/
theorem mem_activeAtoms_of_derives (hr : r ∈ rules) (hflat : r.HasFlatHead)
    (hcompares : r.OnlyCompares ctx.registry) (hdb : db.IsGround)
    (hsub : db.atoms ⊆ activeAtoms rules facts) (ha : a.isGround = true)
    (h : (ctx.scheduleRule r).Derives ctx db (reading db (ctx.scheduleRule r).body) a) :
    a ∈ activeAtoms rules facts := by
  obtain ⟨s, hs, rfl⟩ := h
  have hground : ∀ y ∈ reading db (ctx.scheduleRule r).body, y.2.IsGround :=
    List.forall_mem_map.2 fun _ _ => hdb
  have hgrounded := (covers_empty.of_run hground hs).grounded
  have hvalues : ∀ x t, s.get? x = some t → t ∈ activeTerms rules facts := by
    refine values_of_run (fun _ _ => mem_activeTerms_of_app) covers_empty
      (by simp [Substitution.empty]) hground (List.forall_mem_map.2 fun _ _ b hb => (hsub hb).2)
      (List.forall_mem_map.2 ?_) hs
    rintro l hl c rfl
    exact hcompares c (mem_schedule.1 hl)
  refine ⟨.inr ⟨r, hr, rfl, Substitution.length_applyAll _ _⟩, List.forall_mem_map.2 fun t ht => ?_⟩
  have hopen := Term.isGround_iff.1 (Term.areGround_iff.1 ha _ (List.mem_map_of_mem ht))
  cases t with
  | var x =>
    -- A variable that has no value would have been left.
    rw [Substitution.apply_eq_replace hgrounded, Term.replace] at hopen ⊢
    cases hx : s.get? x with
    | none => simp [hx, Term.occurrences] at hopen
    | some u => exact hvalues x u hx
  | const c => exact .inr ⟨r, hr, ht, c, rfl⟩
  | app k us => cases hflat _ ht

section Rules

variable (hflat : ∀ r ∈ rules, r.HasFlatHead) (hcompares : ∀ r ∈ rules, r.OnlyCompares ctx.registry)
  {s : Stratification} (hs : stratify rules = .ok s)

include hflat hcompares hs

/-- The rounds of a stratum keep to ground active atoms. -/
theorem preserves_isActive : ∀ layer ∈ s.layers,
    ctx.Preserves (layer.map ctx.scheduleRule) (Database.IsActive rules facts) := by
  rintro layer hlayer db new ⟨hdb, hsub⟩ hnew
  refine ⟨preserves_isGround db new hdb hnew, ?_⟩
  rw [Database.atoms_merge]
  refine Set.union_subset hsub fun a ha => ?_
  obtain ⟨hground, x, hx, hderives⟩ := hnew a ha
  obtain ⟨r, hr, rfl⟩ := List.mem_map.1 hx
  have hr : r ∈ rules := mem_rules_of_mem_layer hs hlayer hr
  exact mem_activeAtoms_of_derives hr (hflat r hr) (hcompares r hr) hdb hsub hground hderives

variable (hfacts : facts.IsGround)

include hfacts

/-- Each round of each stratum adds active atoms. -/
theorem newFactsAt_subset_activeAtoms {rounds stratum round : Nat} {new : Database}
    (h : ctx.newFactsAt rounds rules facts stratum round = some (.ok new)) :
    new.atoms ⊆ activeAtoms rules facts := by
  obtain ⟨s', layer, middle, hs', hlayer, hbelow, h⟩ := newFactsAt_eq_some_iff.1 h
  obtain rfl := Except.ok.inj (hs.symm.trans hs')
  have hstep := @preserves_isActive ctx rules facts hflat hcompares s hs
  have hmiddle := saturateAll_invariant (fun layer hl => hstep layer (List.mem_of_mem_take hl))
    (fun layer hl => isLayer_of_stratify hs (List.mem_of_mem_take hl)) (.refl hfacts) hbelow
  -- The round begins with active atoms, and so would the next one.
  have hmem := List.mem_of_getElem? hlayer
  obtain ⟨p, hp, hI, hnew⟩ := exists_of_newInRound (hstep layer hmem) (isLayer_of_stratify hs hmem)
    (caughtUp_of_delta_eq_none rfl) hmiddle h
  obtain ⟨-, hsub⟩ := (hstep layer hmem).advance hp hI hnew
  rw [Progress.advance, Database.atoms_merge] at hsub
  exact Set.subset_union_right.trans hsub

/-- The result of an evaluation has active atoms only. -/
theorem evaluate_subset_activeAtoms {rounds : Nat} {result : Database × Statistics}
    (h : ctx.evaluate rounds rules facts = some (.ok result)) :
    result.1.atoms ⊆ activeAtoms rules facts := by
  obtain ⟨-, s', hs', hall⟩ := evaluate_eq_ok_iff.1 h
  obtain rfl := Except.ok.inj (hs.symm.trans hs')
  exact (saturateAll_invariant (preserves_isActive hflat hcompares hs)
    (fun layer hlayer => isLayer_of_stratify hs hlayer) (.refl hfacts) hall).subset

end Rules

/-! ## The end of an evaluation -/

theorem evaluate_eq_saturateAll {rounds : Nat} {s : Stratification}
    (hsafe : ∀ r ∈ rules, r.IsSafe ctx) (hs : stratify rules = .ok s) :
    ctx.evaluate rounds rules facts = ctx.saturateAll rounds s.layers facts {} := by
  rw [evaluate, Rule.checkSafety_eq_ok_iff.2 hsafe, hs]

/-- In an evaluation that has a result, each stratum comes to a round that adds nothing. -/
theorem exists_empty_newFactsAt {rounds stratum : Nat} {s : Stratification}
    {result : Database × Statistics} (hs : stratify rules = .ok s)
    (h : ctx.evaluate rounds rules facts = some (.ok result)) (hlt : stratum < s.layers.length) :
    ∃ round new, ctx.newFactsAt rounds rules facts stratum round = some (.ok new) ∧
      new.isEmpty = true := by
  obtain ⟨-, s', hs', hall⟩ := evaluate_eq_ok_iff.1 h
  obtain rfl := Except.ok.inj (hs.symm.trans hs')
  have hlayer := List.getElem?_eq_getElem hlt
  obtain ⟨middle, q, hmiddle, hq⟩ := exists_saturate_of_getElem? hlayer hall
  obtain ⟨round, new, hnew, hempty⟩ := exists_empty_round hq
  exact ⟨round, new, newFactsAt_eq_some_iff.2 ⟨s, _, middle, hs, hlayer, hmiddle, hnew⟩, hempty⟩

end Context

/-- What a safe rule that computes nothing can fail with. -/
inductive Rule.FailsWith (r : Rule) : EvaluationError → Prop where
  /-- An instance of the head is no fact, as not all variables that the rule needs have values. -/
  | notGround {s : Substitution} (hbinds : ¬r.BindsValues) :
      r.FailsWith (.notGround (s.applyAtom r.head))
  /-- The arguments of a comparison are open, as not all variables that the rule needs have
  values. -/
  | unbound {c : BuiltinCall} {s : Substitution} {name : String} (hc : .builtin c ∈ r.body)
      (hbinds : ¬r.BindsValues) :
      r.FailsWith (.builtin ⟨c.name, s.applyAll c.terms⟩ (.unbound name (s.applyAll c.terms)))
  /-- The head does not fit its relation. -/
  | arity (hlength : r.head.terms.length ≠ r.head.predicate.arity) :
      r.FailsWith (.arity ⟨some r.head.predicate, r.head.predicate.arity, r.head.terms.length⟩)

/-- The rule that an evaluation fails with needs a value that it does not get, or its head does not
fit its relation. -/
theorem Rule.FailsWith.cause {r : Rule} {e : EvaluationError} (h : r.FailsWith e) :
    ¬r.BindsValues ∨ r.head.terms.length ≠ r.head.predicate.arity := by
  cases h with
  | notGround hbinds => exact .inl hbinds
  | unbound _ hbinds => exact .inl hbinds
  | arity hlength => exact .inr hlength

namespace Context

variable {ctx : Context} {rules : List Rule} {facts : Database} {r : Rule} {e : EvaluationError}
  (hlimits : ∀ n, ctx.exceededLimit? n = none)

include hlimits

/-- A fault of a safe rule that computes nothing, and does not get all values that it needs. -/
theorem failsWith_of_isFault (hsafe : r.IsSafe ctx) (hcompares : r.OnlyCompares ctx.registry)
    (hbinds : ¬r.BindsValues) (h : IsFault ctx [r] e) : r.FailsWith e := by
  cases h with
  | @call _ c s _ hr hc he =>
    obtain rfl := List.mem_singleton.1 hr
    obtain ⟨name, op, t, u, hop, hterms⟩ := hsafe.exists_comparison hcompares hc
    rcases of_evaluateCall_eq_error he with ⟨hnone, -⟩ | ⟨b, cause, hb, hcause, rfl⟩
    · cases hop.symm.trans hnone
    · obtain rfl := Option.some.inj (hop.symm.trans hb)
      have hlength : (s.applyAll c.terms).length = 2 := by
        rw [Substitution.length_applyAll, hterms]
        rfl
      obtain rfl := Builtin.eq_unbound_of_evaluate_comparison hlength hcause
      exact .unbound hc hbinds
  | notGround hr hs =>
    obtain rfl := List.mem_singleton.1 hr
    exact .notGround hbinds
  | arity hr hlength =>
    obtain rfl := List.mem_singleton.1 hr
    exact .arity hlength
  | limit he => cases (hlimits _).symm.trans he

/-- An evaluation of safe rules that computes nothing fails without limits because one of the rules
does. -/
theorem exists_failsWith_of_evaluate {rounds : Nat} {s : Stratification}
    (hfacts : facts.IsGround) (hsafe : ∀ r ∈ rules, r.IsSafe ctx)
    (hcompares : ∀ r ∈ rules, r.OnlyCompares ctx.registry) (hs : stratify rules = .ok s)
    (h : ctx.evaluate rounds rules facts = some (.error e)) : ∃ r ∈ rules, r.FailsWith e := by
  rw [evaluate_eq_saturateAll hsafe hs] at h
  obtain ⟨layer, hlayer, p, hp, hdb, hfails⟩ := exists_of_saturateAll_eq_error
    (fun _ _ => preserves_isGround) (fun _ hlayer => isLayer_of_stratify hs hlayer) hfacts hlimits h
  obtain ⟨r, hr, hderive | ⟨hlength, rfl⟩⟩ := exists_of_newFacts_eq_error hfails
  · have hmem : r ∈ rules := mem_rules_of_mem_layer hs hlayer hr
    refine ⟨r, hmem, failsWith_of_isFault hlimits (hsafe r hmem) (hcompares r hmem) ?_
      (isFault_of_deriveInRound (List.mem_singleton_self r) hderive)⟩
    -- With all values that it needs, the rule would have succeeded.
    intro hbinds
    obtain ⟨new, hnew⟩ := (deriveInRound_isOk_iff hp (List.mem_map_of_mem hr)).2
      ((hsafe r hmem).succeeds_scheduleRule (hcompares r hmem) hbinds hdb)
    cases hderive.symm.trans hnew
  · exact ⟨r, mem_rules_of_mem_layer hs hlayer hr, .arity hlength⟩

end Context

/-- Datalog programs come to an end. Over ground facts and without limits, the evaluation of safe
rules that have strata, whose heads have no compound terms and whose builtins are comparisons, needs
only some number of rounds. If it has a result, each stratum has come to a round that adds nothing;
if it fails, there is a rule that needs the value of a variable which no positive literal has, or
whose head does not fit its relation. Whether it fails or not, all that its rounds add are tuples
over parts of the terms of the facts and constants of heads. -/
theorem evaluate_terminates {ctx : Context} {facts : Database} {rules : List Rule}
    {s : Stratification} (htuples : ctx.settings.maxTuples = none)
    (htime : ctx.settings.timeoutMs = none) (hfacts : facts.IsGround)
    (hsafe : ∀ r ∈ rules, r.IsSafe ctx) (hs : stratify rules = .ok s)
    (hflat : ∀ r ∈ rules, r.HasFlatHead)
    (hcompares : ∀ r ∈ rules, r.OnlyCompares ctx.registry) :
    (∃ rounds x, ctx.evaluate rounds rules facts = some x ∧
      (∀ e, x = .error e → ∃ r ∈ rules, r.FailsWith e) ∧
      ∀ result, x = .ok result →
        (∀ stratum < s.layers.length, ∃ round new,
          ctx.newFactsAt rounds rules facts stratum round = some (.ok new) ∧
            new.isEmpty = true) ∧
        ∀ a ∈ result.1.atoms, ∀ t ∈ a.terms, t ∈ activeTerms rules facts) ∧
    ∀ rounds stratum round new,
      ctx.newFactsAt rounds rules facts stratum round = some (.ok new) →
        ∀ a ∈ new.atoms, ∀ t ∈ a.terms, t ∈ activeTerms rules facts := by
  have hlimits : ∀ n, ctx.exceededLimit? n = none := fun n => by
    simp [Context.exceededLimit?, htuples, htime]
  refine ⟨?_, fun rounds stratum round new hnew a ha =>
    (Context.newFactsAt_subset_activeAtoms hflat hcompares hs hfacts hnew ha).2⟩
  obtain ⟨rounds, x, hx⟩ : ∃ rounds x, ctx.evaluate rounds rules facts = some x := by
    simp only [Context.evaluate_eq_saturateAll hsafe hs]
    exact Context.exists_saturateAll_of_finite hlimits finite_activeAtoms
      (Context.preserves_isActive hflat hcompares hs) (fun db hdb => hdb.subset)
      (fun layer hlayer => isLayer_of_stratify hs hlayer) (.refl hfacts)
  refine ⟨rounds, x, hx, ?_, ?_⟩
  · rintro e rfl
    exact Context.exists_failsWith_of_evaluate hlimits hfacts hsafe hcompares hs hx
  · rintro result rfl
    exact ⟨fun stratum hlt => Context.exists_empty_newFactsAt hs hx hlt, fun a ha =>
      (Context.evaluate_subset_activeAtoms hflat hcompares hs hfacts hx ha).2⟩

/-- Places that can be reached by legs of a journey, and pairs of places between which there is a way
but no leg. -/
def journeyRules : List Rule :=
  let a (name : String) (terms : List Term) : Atom := ⟨.plain name terms.length, terms⟩
  let leg : Atom := a "leg" [.app "from_to" [.var "X", .var "Y"]]
  [⟨a "way" [.var "X", .var "Y"], [.positive leg]⟩,
    ⟨a "way" [.var "X", .var "Z"], [.positive leg, .positive (a "way" [.var "Y", .var "Z"])]⟩,
    ⟨a "apart" [.var "X", .var "Y", .const (.symbol "changes")],
      [.positive (a "way" [.var "X", .var "Y"]), .negative leg,
        .builtin ⟨"LESS", [.var "X", .var "Y"]⟩]⟩]

/-- A circle of three legs. -/
def journeyFacts : Database :=
  let leg (m n : Int64) : Atom :=
    ⟨.plain "leg" 1, [.app "from_to" [.const (.integer m), .const (.integer n)]]⟩
  ((Database.ofFacts [leg 1 2, leg 2 3, leg 3 1]).toOption).getD .empty

theorem evaluate_terminates_journeys :
    journeyFacts.IsGround ∧ ∃ s, stratify journeyRules = .ok s ∧ s.layers.length = 2 ∧
      ∀ strategy, let ctx : Context := ⟨.standard, { strategy }⟩
        (∀ r ∈ journeyRules, r.IsSafe ctx ∧ r.HasFlatHead ∧ r.OnlyCompares ctx.registry) ∧
        ∃ rounds result, ctx.evaluate rounds journeyRules journeyFacts = some (.ok result) ∧
          (∀ stratum < 2, ∃ round new,
            ctx.newFactsAt rounds journeyRules journeyFacts stratum round = some (.ok new) ∧
              new.isEmpty = true) ∧
          ∀ a ∈ result.1.atoms, ∀ t ∈ a.terms, t ∈ activeTerms journeyRules journeyFacts := by
  have hfacts : journeyFacts.IsGround := Database.isGround_iff.2 (by decide +kernel)
  obtain ⟨s, hs, hlength⟩ : ∃ s, (stratify journeyRules).toOption = some s ∧
      decide (s.layers.length = 2) = true :=
    (Option.any_eq_true _ _).1 (by decide +kernel)
  replace hs : stratify journeyRules = .ok s := toOption_eq_some_iff.1 hs
  replace hlength : s.layers.length = 2 := of_decide_eq_true hlength
  refine ⟨hfacts, s, hs, hlength, fun strategy => ?_⟩
  intro ctx
  have hrules : ∀ r ∈ journeyRules,
      r.IsSafe ctx ∧ r.HasFlatHead ∧ r.OnlyCompares ctx.registry := by
    cases strategy <;> decide +kernel
  have hbinds : ∀ r ∈ journeyRules,
      r.BindsValues ∧ r.head.terms.length = r.head.predicate.arity := by
    decide +kernel
  obtain ⟨⟨rounds, x, hx, herror, hok⟩, -⟩ := evaluate_terminates rfl rfl hfacts
    (fun r hr => (hrules r hr).1) hs (fun r hr => (hrules r hr).2.1)
    (fun r hr => (hrules r hr).2.2)
  refine ⟨hrules, rounds, ?_⟩
  cases x with
  | error e =>
    obtain ⟨r, hr, hfails⟩ := herror e rfl
    obtain ⟨hvalues, hlength⟩ := hbinds r hr
    rcases hfails.cause with hnot | hne
    · exact absurd hvalues hnot
    · exact absurd hlength hne
  | ok result =>
    obtain ⟨hempty, hterms⟩ := hok result rfl
    exact ⟨result, hx, fun stratum hlt => hempty stratum (by omega), hterms⟩

/-! ## Evaluations that fail -/

/-- Rules that fail where they can be applied at all: with a variable in the head that has no value,
with one in a comparison, and with too few terms in the head. -/
def strayRules : List Rule :=
  let q : Literal := .positive ⟨.plain "q" 1, [.var "Y"]⟩
  [⟨⟨.plain "p" 1, [.var "_X"]⟩, [q]⟩,
    ⟨⟨.plain "p" 1, [.var "Y"]⟩, [q, .builtin ⟨"LESS", [.var "_X", .var "Y"]⟩]⟩,
    ⟨⟨.plain "p" 2, [.var "Y"]⟩, [q]⟩]

/-- One fact that the rules can be applied to. -/
def strayFacts : Database :=
  ((Database.ofFacts [⟨.plain "q" 1, [.const (.integer 1)]⟩]).toOption).getD .empty

/-- A safe rule need not come to a round that derives nothing, although its head has no compound
terms. -/
theorem newFactsAt_strayRules_ne :
    strayFacts.IsGround ∧ ∀ strategy, let ctx : Context := ⟨.standard, { strategy }⟩
      ∀ r ∈ strayRules, r.IsSafe ctx ∧ r.HasFlatHead ∧ r.OnlyCompares ctx.registry ∧
        (∃ s, stratify [r] = .ok s ∧ s.layers.length = 1) ∧
        (∀ rounds round new, ctx.newFactsAt rounds [r] strayFacts 0 round ≠ some (.ok new)) ∧
        ¬ctx.Converges [r] strayFacts := by
  have hfacts : strayFacts.IsGround := Database.isGround_iff.2 (by decide +kernel)
  refine ⟨hfacts, fun strategy => ?_⟩
  intro ctx r hr
  have hrules : ∀ r ∈ strayRules, r.IsSafe ctx ∧ r.HasFlatHead ∧ r.OnlyCompares ctx.registry := by
    cases strategy <;> decide +kernel
  have hstrata : ∀ r ∈ strayRules,
      (stratify [r]).toOption.any (fun s => decide (s.layers = [[r]])) = true := by
    decide +kernel
  have hfails : ∀ r ∈ strayRules,
      ∃ e, ctx.newFacts [ctx.scheduleRule r] ⟨strayFacts, none, {}⟩ = .error e := by
    have hnone : ∀ r ∈ strayRules,
        (ctx.newFacts [ctx.scheduleRule r] ⟨strayFacts, none, {}⟩).toOption = none := by
      cases strategy <;> decide +kernel
    exact fun r hr => toOption_eq_none_iff.1 (hnone r hr)
  obtain ⟨s, hs, hlayers⟩ := (Option.any_eq_true _ _).1 (hstrata r hr)
  replace hs : stratify [r] = .ok s := toOption_eq_some_iff.1 hs
  replace hlayers : s.layers = [[r]] := of_decide_eq_true hlayers
  obtain ⟨hsafe, hflat, hcompares⟩ := hrules r hr
  have hround : ∀ rounds round new,
      ctx.newFactsAt rounds [r] strayFacts 0 round ≠ some (.ok new) := by
    intro rounds round new h
    obtain ⟨s', layer, middle, hs', hlayer, hbelow, h⟩ := Context.newFactsAt_eq_some_iff.1 h
    obtain rfl := Except.ok.inj (hs.symm.trans hs')
    rw [hlayers] at hlayer hbelow
    obtain rfl := Option.some.inj hlayer
    obtain rfl := Except.ok.inj (Option.some.inj hbelow)
    obtain ⟨e, he⟩ := hfails r hr
    cases Context.newInRound_eq_error he h
  refine ⟨hsafe, hflat, hcompares, ⟨s, hs, by simp [hlayers]⟩, hround, ?_⟩
  rintro ⟨rounds, result, h⟩
  have hlt : 0 < s.layers.length := by simp [hlayers]
  obtain ⟨round, new, hnew, -⟩ := Context.exists_empty_newFactsAt hs h hlt
  exact hround rounds round new hnew

end Deduction
