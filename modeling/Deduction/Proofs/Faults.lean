import Deduction.Proofs.KnowledgeBase
import Deduction.Proofs.SemiNaive

/-!
# What can go wrong

Rules are checked before they are applied. What can go wrong afterwards (`IsFault`) is that a call in
the body of a rule cannot be evaluated, that an instance of a head has variables or the wrong number
of terms, or that a limit is exceeded. Every error of an evaluation is one of these, or one of the
two checks has failed (`Context.evaluate_eq_error`), and the same holds for every query that is put
to a knowledge base (`KnowledgeBase.execute_eq_error`).
-/

namespace Deduction

open Matching

/-- What can go wrong when rules are applied. -/
inductive IsFault (ctx : Context) (rules : List Rule) : EvaluationError → Prop where
  /-- A call in the body of a rule cannot be evaluated. -/
  | call {r : Rule} {c : BuiltinCall} {s : Substitution} {e : EvaluationError} (hr : r ∈ rules)
      (hc : .builtin c ∈ r.body) (he : ctx.evaluateCall ⟨c.name, s.applyAll c.terms⟩ = .error e) :
      IsFault ctx rules e
  /-- An instance of a head has variables. -/
  | notGround {r : Rule} {s : Substitution} (hr : r ∈ rules)
      (hs : (s.applyAtom r.head).isGround = false) :
      IsFault ctx rules (.notGround (s.applyAtom r.head))
  /-- A head has the wrong number of terms. -/
  | arity {r : Rule} (hr : r ∈ rules) (hlength : r.head.terms.length ≠ r.head.predicate.arity) :
      IsFault ctx rules
        (.arity ⟨some r.head.predicate, r.head.predicate.arity, r.head.terms.length⟩)
  /-- A limit is exceeded. -/
  | limit {n : Nat} {e : EvaluationError} (he : ctx.exceededLimit? n = some e) :
      IsFault ctx rules e

theorem IsFault.mono {ctx : Context} {rules rules' : List Rule} {e : EvaluationError}
    (h : IsFault ctx rules e) (hrules : ∀ r ∈ rules, r ∈ rules') : IsFault ctx rules' e := by
  cases h with
  | call hr hc he => exact .call (hrules _ hr) hc he
  | notGround hr hs => exact .notGround (hrules _ hr) hs
  | arity hr hlength => exact .arity (hrules _ hr) hlength
  | limit he => exact .limit he

/-- The error is that of a check which rules have to pass before they are applied. -/
def EvaluationError.isRefusal : EvaluationError → Bool
  | safety _ | stratification _ => true
  | _ => false

theorem Context.of_exceededLimit?_eq_some {ctx : Context} {n : Nat} {e : EvaluationError}
    (h : ctx.exceededLimit? n = some e) : e = .timeout 0 ∨ ∃ limit, e = .tupleLimit limit := by
  unfold exceededLimit? at h
  split at h
  · split at h
    · exact .inr ⟨_, (Option.some.inj h).symm⟩
    · split at h
      · exact .inl (Option.some.inj h).symm
      · cases h
  · split at h
    · exact .inl (Option.some.inj h).symm
    · cases h

/-- No check fails while rules are applied. -/
theorem IsFault.isRefusal_eq_false {ctx : Context} {rules : List Rule} {e : EvaluationError}
    (h : IsFault ctx rules e) : e.isRefusal = false := by
  cases h with
  | call hr hc he =>
    rcases Context.of_evaluateCall_eq_error he with ⟨-, rfl⟩ | ⟨b, cause, -, -, rfl⟩
    · rfl
    · rfl
  | notGround hr hs => rfl
  | arity hr hlength => rfl
  | limit he =>
    rcases Context.of_exceededLimit?_eq_some he with rfl | ⟨limit, rfl⟩
    · rfl
    · rfl

/-- A fact has the wrong number of terms because a head does. -/
theorem IsFault.exists_of_arity {ctx : Context} {rules : List Rule} {mismatch : ArityMismatch}
    (h : IsFault ctx rules (.arity mismatch)) :
    ∃ r ∈ rules, r.head.terms.length ≠ r.head.predicate.arity := by
  generalize he : EvaluationError.arity mismatch = e at h
  cases h with
  | call hr hc hcall =>
    subst he
    rcases Context.of_evaluateCall_eq_error hcall with ⟨-, h⟩ | ⟨b, cause, -, -, h⟩ <;> cases h
  | notGround hr hs => cases he
  | arity hr hlength => exact ⟨_, hr, hlength⟩
  | limit hlimit =>
    subst he
    rcases Context.of_exceededLimit?_eq_some hlimit with h | ⟨limit, h⟩ <;> cases h

section Rules

variable {ctx : Context} {rules : List Rule} {r : Rule} {e : EvaluationError}
  {full db new : Database} {p : Progress} {facts : List Atom} {a : Atom}

/-! ## One rule -/

/-- A search for solutions gets stuck at a call. -/
theorem isFault_of_solutions {body : List (Literal × Database)} {s : Substitution} (hr : r ∈ rules)
    (hbody : body.map (·.1) = (ctx.scheduleRule r).body)
    (h : solutions ctx full body s = .error e) : IsFault ctx rules e := by
  obtain ⟨xs, l, source, ys, s, rfl, -, hl⟩ := exists_of_solutions_eq_error h
  obtain ⟨c, rfl, hcall⟩ := extensions_eq_error_iff.1 hl
  have hc : .builtin c ∈ (ctx.scheduleRule r).body := by simp [← hbody]
  exact .call hr (mem_schedule.1 hc) hcall

theorem isFault_of_instances {body : List (Literal × Database)} (hr : r ∈ rules)
    (hbody : body.map (·.1) = (ctx.scheduleRule r).body)
    (h : (do (← solutions ctx full body .empty).mapM (ctx.scheduleRule r).instantiate) =
      Except.error e) : IsFault ctx rules e := by
  rcases bind_eq_error_iff.1 h with h | ⟨found, -, h⟩
  · exact isFault_of_solutions hr hbody h
  · obtain ⟨s, -, hs⟩ := exists_of_mapM_eq_error h
    rw [ScheduledRule.instantiate] at hs
    split at hs
    · cases hs
    · next hopen =>
      obtain rfl := Except.error.inj hs
      exact .notGround hr (Bool.eq_false_iff.2 hopen)

theorem isFault_of_deriveInRound (hr : r ∈ rules)
    (h : ctx.deriveInRound p (ctx.scheduleRule r) = .error e) : IsFault ctx rules e := by
  have hderive : (ctx.scheduleRule r).derive ctx p.database = .error e → IsFault ctx rules e :=
    isFault_of_instances hr (map_fst_reading _ _)
  rw [Context.deriveInRound] at h
  split at h
  · -- One of the positions of the delta fails.
    rw [ScheduledRule.deriveDelta] at h
    rcases bind_eq_error_iff.1 h with h | ⟨found, -, h⟩
    · obtain ⟨i, -, h⟩ := exists_of_mapM_eq_error h
      rw [satisfyAt_eq] at h
      exact isFault_of_instances hr (map_fst_readingAt _ _ _ _) h
    · cases h
  · exact hderive h

theorem ScheduledRule.exists_of_mem_deriveInRound {r : ScheduledRule}
    (h : ctx.deriveInRound p r = .ok facts) (ha : a ∈ facts) :
    a.isGround = true ∧ ∃ s : Substitution, a = s.applyAtom r.head := by
  refine ⟨isGround_of_mem_deriveInRound h ha, ?_⟩
  rw [Context.deriveInRound] at h
  split at h
  · obtain ⟨i, hi, s, hs, rfl⟩ := (mem_deriveDelta h).1 ha
    exact ⟨s, rfl⟩
  · obtain ⟨s, hs, rfl⟩ := (mem_derive h).1 ha
    exact ⟨s, rfl⟩

/-! ## Rounds and layers -/

namespace Context

theorem exists_of_collect_eq_error (h : collect db new facts = .error e) :
    ∃ f ∈ facts, ∃ new cause, (Database.insertAtom new f).1 = .error cause ∧
      e = .ofFactError cause := by
  induction facts generalizing new with
  | nil => cases h
  | cons f facts ih =>
    rw [collect, List.foldlM_cons, bind_eq_error_iff] at h
    rcases h with h | ⟨next, -, h⟩
    · split at h
      · cases h
      · rcases hins : new.insertAtom f with ⟨cause | b, db'⟩
        · rw [hins] at h
          exact ⟨f, .head _, new, cause, by rw [hins], (Except.error.inj h).symm⟩
        · rw [hins] at h
          cases h
    · obtain ⟨f', hf', hrest⟩ := ih h
      exact ⟨f', .tail _ hf', hrest⟩

theorem exists_of_collectAll_eq_error {rules : List ScheduledRule}
    (h : ctx.collectAll p rules new = .error e) :
    ∃ r ∈ rules, ctx.deriveInRound p r = .error e ∨
      ∃ facts new, ctx.deriveInRound p r = .ok facts ∧ collect p.database new facts = .error e := by
  induction rules generalizing new with
  | nil => cases h
  | cons r rules ih =>
    rw [collectAll, List.foldlM_cons, bind_eq_error_iff] at h
    rcases h with h | ⟨next, -, h⟩
    · rcases bind_eq_error_iff.1 h with h | ⟨facts, hfacts, h⟩
      · exact ⟨r, .head _, .inl h⟩
      · exact ⟨r, .head _, .inr ⟨facts, new, hfacts, h⟩⟩
    · obtain ⟨r', hr', hrest⟩ := ih h
      exact ⟨r', .tail _ hr', hrest⟩

/-- A round fails because a rule does, or because an instance of a head cannot be stored. -/
theorem exists_of_newFacts_eq_error
    (h : ctx.newFacts (rules.map ctx.scheduleRule) p = .error e) :
    ∃ r ∈ rules, ctx.deriveInRound p (ctx.scheduleRule r) = .error e ∨
      r.head.terms.length ≠ r.head.predicate.arity ∧
        e = .arity ⟨some r.head.predicate, r.head.predicate.arity, r.head.terms.length⟩ := by
  rw [newFacts_eq_collectAll] at h
  obtain ⟨x, hx, hfails⟩ := exists_of_collectAll_eq_error h
  obtain ⟨r, hr, rfl⟩ := List.mem_map.1 hx
  refine ⟨r, hr, hfails.imp_right ?_⟩
  -- A derived fact is ground, so that it can only have the wrong number of terms.
  rintro ⟨facts, new, hfacts, h⟩
  obtain ⟨f, hf, new', cause, hinsert, rfl⟩ := exists_of_collect_eq_error h
  obtain ⟨hground, s, rfl⟩ := ScheduledRule.exists_of_mem_deriveInRound hfacts hf
  rcases Database.insertAtom_eq_error_iff.1 hinsert with ⟨hopen, -⟩ | ⟨-, hlength, rfl⟩
  · rw [hground] at hopen
    cases hopen
  · simp only [Substitution.applyAtom, Substitution.length_applyAll] at hlength ⊢
    exact ⟨hlength, rfl⟩

theorem isFault_of_newFacts (h : ctx.newFacts (rules.map ctx.scheduleRule) p = .error e) :
    IsFault ctx rules e := by
  obtain ⟨r, hr, h | ⟨hlength, rfl⟩⟩ := exists_of_newFacts_eq_error h
  · exact isFault_of_deriveInRound hr h
  · exact .arity hr hlength

theorem isFault_of_saturate {n : Nat}
    (h : ctx.saturate (rules.map ctx.scheduleRule) n p = some (.error e)) :
    IsFault ctx rules e := by
  induction n generalizing p with
  | zero => cases h
  | succ n ih =>
    rcases saturate_succ_eq_error_iff.1 h with h | ⟨new, -, -, h | ⟨-, h⟩⟩
    · exact isFault_of_newFacts h
    · exact .limit h
    · exact ih h

theorem isFault_of_saturateAll {rounds : Nat} {layers : List (List Rule)} {statistics : Statistics}
    (hlayers : ∀ layer ∈ layers, ∀ r ∈ layer, r ∈ rules)
    (h : ctx.saturateAll rounds layers db statistics = some (.error e)) : IsFault ctx rules e := by
  induction layers generalizing db statistics with
  | nil => cases h
  | cons layer layers ih =>
    rw [List.forall_mem_cons] at hlayers
    rw [saturateAll] at h
    split at h
    · cases h
    · next hlayer =>
      obtain rfl := Except.error.inj (Option.some.inj h)
      exact (isFault_of_saturate hlayer).mono hlayers.1
    · exact ih hlayers.2 h

/-- The rules of an evaluation that fails do not pass one of the checks, or something goes wrong
while they are applied. -/
theorem evaluate_eq_error {rounds : Nat} (h : ctx.evaluate rounds rules db = some (.error e)) :
    (∃ cause, e = .safety cause ∧
      checkSafety rules ctx.registry ctx.settings.safety = .error cause) ∨
    (∃ cause, e = .stratification cause ∧ stratify rules = .error cause) ∨
    IsFault ctx rules e := by
  rw [evaluate] at h
  split at h
  · next cause hcause => exact .inl ⟨cause, (Except.error.inj (Option.some.inj h)).symm, hcause⟩
  · split at h
    · next cause hcause =>
      exact .inr (.inl ⟨cause, (Except.error.inj (Option.some.inj h)).symm, hcause⟩)
    · next s hs =>
      exact .inr (.inr (isFault_of_saturateAll
        (fun layer hlayer r hr => mem_rules_of_mem_layer hs hlayer hr) h))

/-- A query that has no answer is not safe, or something goes wrong while it is matched. -/
theorem answer_eq_error {q : Query} (h : ctx.answer q db = .error e) :
    (∃ cause, e = .safety cause) ∨ IsFault ctx [q.toRule] e := by
  rw [answer] at h
  rcases bind_eq_error_iff.1 h with h | ⟨_, -, h⟩
  · obtain ⟨cause, -, rfl⟩ := mapError_eq_error_iff.1 h
    exact .inl ⟨cause, rfl⟩
  · rcases bind_eq_error_iff.1 h with h | ⟨found, -, h⟩
    · rw [satisfy_eq] at h
      exact .inr (isFault_of_solutions (List.mem_singleton_self q.toRule) (map_fst_reading _ _) h)
    · cases h

end Context

end Rules

/-! ## Queries to a knowledge base -/

namespace KnowledgeBase

variable {kb : KnowledgeBase} {ctx : Context} {facts : Database} {rules : List Rule} {rounds : Nat}
  {q : Query} {e : EvaluationError} {program : MagicProgram}

theorem IsAbout.executeDirectly_eq_error (h : kb.IsAbout ctx facts rules)
    (he : (kb.executeDirectly rounds q).1 = some (.error e)) :
    ctx.evaluate rounds rules facts = some (.error e) ∨ ∃ db, ctx.answer q db = .error e := by
  obtain ⟨rfl, rfl, rfl, -, -, -⟩ := h
  simp only [KnowledgeBase.executeDirectly, KnowledgeBase.fullModel] at he
  cases hmodel : kb.model with
  | some db =>
    simp only [hmodel, Option.some.injEq] at he
    exact .inr ⟨db, he⟩
  | none =>
    simp only [hmodel] at he
    cases heval : kb.context.evaluate rounds kb.rules kb.facts with
    | none => simp [heval] at he
    | some x =>
      cases x with
      | error e' =>
        simp only [heval, Option.some.injEq, Except.error.injEq] at he
        exact .inl (by rw [he])
      | ok result =>
        simp only [heval, Option.some.injEq] at he
        exact .inr ⟨result.1, he⟩

theorem IsAbout.executeMagic_eq_error (h : kb.IsAbout ctx facts rules)
    (he : (kb.executeMagic rounds program).1 = some (.error e)) :
    ctx.evaluate rounds (program.rules ++ bridgeRules program.rules facts.hasTuples) facts =
        some (.error e) ∨
      ∃ db, ctx.answer program.query db = .error e := by
  obtain ⟨rfl, rfl, rfl, -, -, -⟩ := h
  simp only [KnowledgeBase.executeMagic] at he
  split at he
  · next db _ _ => exact .inr ⟨db, Option.some.inj he⟩
  · next e' heval =>
    obtain rfl := Except.error.inj (Option.some.inj he)
    exact .inl heval
  · cases he

/-- The error of a query comes from evaluating the rules, or those of the magic program of the
query, or from matching the query or that of its magic program. -/
theorem IsAbout.execute_eq_error (h : kb.IsAbout ctx facts rules)
    (he : (kb.execute rounds q).1 = some (.error e)) :
    (ctx.evaluate rounds rules facts = some (.error e) ∨ ∃ db, ctx.answer q db = .error e) ∨
    ∃ program, MagicProgram.ofQuery rules q = .ok program ∧
      (ctx.evaluate rounds (program.rules ++ bridgeRules program.rules facts.hasTuples) facts =
          some (.error e) ∨
        ∃ db, ctx.answer program.query db = .error e) := by
  rw [KnowledgeBase.execute] at he
  split at he
  · split at he
    · next program hprogram =>
      rw [h.rules_eq] at hprogram
      exact .inr ⟨program, hprogram, h.executeMagic_eq_error he⟩
    · exact .inl (h.executeDirectly_eq_error he)
  · exact .inl (h.executeDirectly_eq_error he)

end KnowledgeBase

end Deduction
