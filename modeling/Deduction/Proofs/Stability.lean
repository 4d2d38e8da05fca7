import Deduction.Proofs.Model

/-!
# Evaluating again

What evaluation yields is stable: every rule succeeds on it and derives only what it stores, and
evaluating the rules once more, over the result of the first evaluation, adds nothing
(`evaluate_again`).

When a layer ends its rules are settled, because its last round is as good as one that looks at all
derivations. Later layers leave the predicates of its bodies alone, so its rules stay settled while
other facts come in (`Context.saturateAll_isSettled`). In the second evaluation these facts are
there from the start, and no layer has something to add to them (`Context.saturateAll_again`).
-/

namespace Deduction

open Matching

/-! ## Settled rules -/

section Settled

variable {ctx : Context} {r : ScheduledRule} {db db' : Database}

theorem ScheduledRule.isSettled_iff : r.IsSettled ctx db ↔
    ∃ facts, r.derive ctx db = .ok facts ∧ ∀ a ∈ facts, a ∈ db.atoms := by
  rw [IsSettled, ← derive_isOk_iff]
  constructor
  · rintro ⟨⟨facts, hfacts⟩, hstored⟩
    exact ⟨facts, hfacts, fun a ha => hstored a ((mem_derive hfacts).1 ha)⟩
  · rintro ⟨facts, hfacts, hstored⟩
    exact ⟨⟨facts, hfacts⟩, fun a ha => hstored a ((mem_derive hfacts).2 ha)⟩

/-- A rule stays settled when facts are added for predicates that its body does not read. -/
theorem ScheduledRule.IsSettled.of_agree (h : r.IsSettled ctx db) (hsub : db.atoms ⊆ db'.atoms)
    (hagree : AgreeOn db db' r.body) : r.IsSettled ctx db' := by
  obtain ⟨⟨hstuck, hground⟩, hstored⟩ := h
  refine ⟨⟨fun h => hstuck (h.congr hagree.symm), fun s hs => hground s (hs.congr hagree.symm)⟩, ?_⟩
  rintro a ⟨s, hs, ha⟩
  exact hsub (hstored a ⟨s, hs.congr hagree.symm, ha⟩)

end Settled

namespace Context

variable {ctx : Context} {rules : List ScheduledRule} {layers : List (List Rule)}
  {p q : Progress} {db : Database} {statistics : Statistics} {result : Database × Statistics}
  {n rounds : Nat}

/-! ## The first evaluation -/

/-- Layers that are evaluated one after the other leave alone the predicates that none of them
derives. -/
theorem saturateAll_onTheWay (hlayers : IsLayered layers) (hdb : db.IsGround)
    (h : ctx.saturateAll rounds layers db statistics = some (.ok result)) :
    OnTheWay layers.flatten db result.1 := by
  have hstep : ∀ layer ∈ layers,
      ctx.Preserves (layer.map ctx.scheduleRule) (OnTheWay layers.flatten db) := by
    intro layer hlayer db' new hdb' hnew
    have hnew' : ∀ a ∈ new.atoms, a.isGround = true ∧ ∃ r ∈ layers.flatten.map ctx.scheduleRule,
        r.Derives ctx db' (reading db' r.body) a := by
      intro a ha
      obtain ⟨hground, x, hx, hderives⟩ := hnew a ha
      obtain ⟨r, hr, rfl⟩ := List.mem_map.1 hx
      have hmem : r ∈ layers.flatten := List.mem_flatten.2 ⟨layer, hlayer, hr⟩
      exact ⟨hground, _, List.mem_map_of_mem hmem, hderives⟩
    exact hdb'.merge hnew'
  exact saturateAll_invariant hstep
    (fun layer hlayer => isLayer_map_scheduleRule (hlayers.negated layer hlayer)) (.refl hdb) h

/-- Layers that are evaluated one after the other end with all of their rules settled. -/
theorem saturateAll_isSettled (hlayers : IsLayered layers) (hdb : db.IsGround)
    (h : ctx.saturateAll rounds layers db statistics = some (.ok result)) :
    ∀ r ∈ layers.flatten, (ctx.scheduleRule r).IsSettled ctx result.1 := by
  induction layers generalizing db statistics with
  | nil => simp
  | cons layer layers ih =>
    obtain ⟨q, hq, hrest⟩ := saturateAll_cons_eq_ok_iff.1 h
    obtain ⟨hused, hpairwise⟩ := List.pairwise_cons.1 hlayers.used
    obtain ⟨hnegated, hnegated'⟩ := List.forall_mem_cons.1 hlayers.negated
    have hlayer : IsLayer (layer.map ctx.scheduleRule) := isLayer_map_scheduleRule hnegated
    have hstart : CaughtUp ctx (layer.map ctx.scheduleRule) ⟨db, none, statistics⟩ :=
      caughtUp_of_delta_eq_none rfl
    have hground : q.database.IsGround := saturate_invariant preserves_isGround hlayer hstart hdb hq
    have hway := saturateAll_onTheWay ⟨hpairwise, hnegated'⟩ hground hrest
    rw [List.flatten_cons, List.forall_mem_append]
    refine ⟨fun r hr => ?_, ih ⟨hpairwise, hnegated'⟩ hground hrest⟩
    have hsettled := saturate_isSettled hlayer hstart hq _ (List.mem_map_of_mem hr)
    refine hsettled.of_agree hway.subset fun l hl a ha => hway.agree _ fun later hlater => ?_
    obtain ⟨layer', hlayer', hlater⟩ := List.mem_flatten.1 hlater
    exact hused layer' hlayer' r hr l (mem_schedule.1 hl) a ha later hlater

/-- The rounds of a layer do not count strata. -/
theorem strata_saturate (h : ctx.saturate rules n p = some (.ok q)) :
    q.statistics.strata = p.statistics.strata := by
  induction n generalizing p with
  | zero => cases h
  | succ n ih =>
    obtain ⟨new, -, ⟨-, rfl⟩ | ⟨-, -, h⟩⟩ := saturate_succ_eq_ok_iff.1 h
    · rfl
    · rw [ih h]
      rfl

/-- Each layer counts as one stratum. -/
theorem strata_saturateAll
    (h : ctx.saturateAll rounds layers db statistics = some (.ok result)) :
    result.2.strata = statistics.strata + layers.length := by
  induction layers generalizing db statistics with
  | nil =>
    obtain rfl := Except.ok.inj (Option.some.inj h)
    rfl
  | cons layer layers ih =>
    obtain ⟨q, hq, hrest⟩ := saturateAll_cons_eq_ok_iff.1 h
    have hstrata : q.statistics.strata = statistics.strata := strata_saturate hq
    have hrest' : result.2.strata = q.statistics.strata + 1 + layers.length := ih hrest
    rw [List.length_cons]
    omega

/-! ## The second evaluation -/

/-- A layer whose rules are settled ends with its first round. -/
theorem saturate_of_isSettled (hrules : ∀ r ∈ rules, r.IsSettled ctx db) :
    ctx.saturate rules (n + 1) ⟨db, none, statistics⟩ =
      some (.ok ⟨db, none, statistics.afterRound rules.length 0⟩) := by
  have hstart : CaughtUp ctx rules ⟨db, none, statistics⟩ := caughtUp_of_delta_eq_none rfl
  obtain ⟨new, hnew⟩ := (newFacts_isOk_iff_of_caughtUp hstart).2 fun r hr =>
    ⟨(hrules r hr).1, fun a ha => .inl ((hrules r hr).2 a ha)⟩
  have hempty : new.isEmpty = true := by
    refine Database.isEmpty_iff.2 (Set.eq_empty_iff_forall_notMem.2 fun a ha => ?_)
    obtain ⟨hdb, r, hr, hderives⟩ := (mem_newFacts_of_caughtUp hstart hnew).1 ha
    exact hdb ((hrules r hr).2 a hderives)
  refine saturate_succ_eq_ok_iff.2 ⟨new, hnew, .inl ⟨hempty, ?_⟩⟩
  rw [Database.size_eq_zero hempty]

/-- Layers whose rules are settled take one round each. -/
theorem saturateAll_again (h : ∀ r ∈ layers.flatten, (ctx.scheduleRule r).IsSettled ctx db) :
    ctx.saturateAll (n + 1) layers db statistics = some (.ok (db, {
      strata := statistics.strata + layers.length
      iterations := statistics.iterations + layers.length
      ruleApplications := statistics.ruleApplications + layers.flatten.length
      factsDerived := statistics.factsDerived })) := by
  induction layers generalizing statistics with
  | nil => rfl
  | cons layer layers ih =>
    rw [List.flatten_cons, List.forall_mem_append] at h
    refine saturateAll_cons_eq_ok_iff.2
      ⟨_, saturate_of_isSettled (List.forall_mem_map.2 h.1), (ih h.2).trans ?_⟩
    simp only [Statistics.afterRound, List.length_map, List.length_cons, List.flatten_cons,
      List.length_append]
    congr 4 <;> omega

end Context

/-- The result of an evaluation is closed under the rules: each of them succeeds on it and derives
only what it stores. Evaluating the same rules over it ends after one round for each stratum, which
applies the rules of the stratum once, and leaves it as it is. -/
theorem evaluate_again {ctx : Context} {rounds : Nat} {rules : List Rule} {facts db : Database}
    {statistics : Statistics} (hfacts : facts.IsGround)
    (h : ctx.evaluate rounds rules facts = some (.ok (db, statistics))) :
    (∀ r ∈ rules, ∃ derived, (ctx.scheduleRule r).derive ctx db = .ok derived ∧
      ∀ a ∈ derived, a ∈ db.atoms) ∧
    ∀ n, ctx.evaluate (n + 1) rules db = some (.ok (db, {
      strata := statistics.strata
      iterations := statistics.strata
      ruleApplications := rules.length
      factsDerived := 0 })) := by
  obtain ⟨hsafe, s, hs, hall⟩ := Context.evaluate_eq_ok_iff.1 h
  have hperm : s.layers.flatten.Perm rules := stratify_layers_perm hs
  have hsettled := Context.saturateAll_isSettled (isLayered_of_stratify hs) hfacts hall
  refine ⟨fun r hr => ScheduledRule.isSettled_iff.1 (hsettled r (hperm.mem_iff.2 hr)), fun n => ?_⟩
  refine Context.evaluate_eq_ok_iff.2
    ⟨hsafe, s, hs, (Context.saturateAll_again hsettled).trans ?_⟩
  have hstrata : statistics.strata = s.layers.length := by
    simpa using Context.strata_saturateAll hall
  simp only [hstrata, hperm.length_eq, Nat.zero_add]

/-- The two nodes that have edges to each other have paths to themselves. -/
theorem evaluate_again_paths :
    let path (m n : Int64) : Atom := ⟨.plain "path" 2, [.const (.integer m), .const (.integer n)]⟩
    ∃ db statistics,
      Context.evaluate ⟨.standard, {}⟩ 5 pathRules edgeFacts = some (.ok (db, statistics)) ∧
      (∀ a ∈ [path 1 1, path 2 2], a ∈ db.atoms) ∧
      (∀ r ∈ pathRules, ∃ derived,
        (Context.scheduleRule ⟨.standard, {}⟩ r).derive ⟨.standard, {}⟩ db = .ok derived ∧
        ∀ a ∈ derived, a ∈ db.atoms) ∧
      ∀ n, Context.evaluate ⟨.standard, {}⟩ (n + 1) pathRules db = some (.ok (db, {
        strata := statistics.strata
        iterations := statistics.strata
        ruleApplications := pathRules.length
        factsDerived := 0 })) := by
  intro path
  have hderived : ((Context.evaluate ⟨.standard, {}⟩ 5 pathRules edgeFacts).bind
      Except.toOption).any (fun result => ∀ a ∈ [path 1 1, path 2 2],
        result.1.contains a.predicate a.terms) = true := by
    decide +kernel
  obtain ⟨⟨db, statistics⟩, h, hpaths⟩ := Outcome.exists_ok_and hderived
  exact ⟨db, statistics, h, hpaths,
    evaluate_again (Database.isGround_iff.2 (by decide +kernel)) h⟩

end Deduction
