import Deduction.Proofs.Faults
import Deduction.Proofs.Magic.Equivalence
import Deduction.Proofs.Magic.Safety

/-!
# The strata of magic programs

A magic program has strata if its program has (`exists_stratify_evaluated`), so that no query fails
for want of them (`magicSets_stratifiable`).

Magic sets put new predicates above those of the program, and never lead back: the rules of a plain
predicate are its own, over plain predicates. The rules that derive calls are positive, and those
that answer calls negate what the rules of the program negate, which is plain. So the strata of the
program can be kept, with all other predicates in one stratum above them.
-/

namespace Deduction

/-- The predicates of a rule are those of a program. -/
def Rule.HasPlainPredicates (r : Rule) : Prop :=
  r.head.predicate.isPlain = true ∧ ∀ l ∈ r.body, ∀ a ∈ l.atom?, a.predicate.isPlain = true

instance (r : Rule) : Decidable r.HasPlainPredicates :=
  inferInstanceAs (Decidable (_ ∧ _))

theorem Rule.IsPlain.hasPlainPredicates {r : Rule} (h : r.IsPlain) : r.HasPlainPredicates :=
  ⟨h.1.1, fun l hl a ha => (h.2 l hl a ha).1⟩

theorem Predicate.isPlain_eq_false_of_isCall {p : Predicate} (h : p.isCall = true) :
    p.isPlain = false := by
  cases p <;> simp_all [isCall, isPlain]

section Strata

variable {rules : List Rule} {q : Query} {program : MagicProgram} {c : Rule} {a : Atom}
  {hasFacts : Predicate → Bool} (h : MagicProgram.ofQuery rules q = .ok program)
  (hplain : ∀ r ∈ rules, r.HasPlainPredicates)

include h hplain

/-- A rule that is evaluated is one of the program, or it is for another predicate and negates plain
predicates only. -/
theorem mem_or_of_mem_evaluated (hc : c ∈ program.evaluated hasFacts) :
    c ∈ rules ∨ c.head.predicate.isPlain = false ∧
      ∀ a, .negative a ∈ c.body → a.predicate.isPlain = true := by
  have of_positive : (∀ l ∈ c.body, l.isPositive = true) →
      ∀ a, .negative a ∈ c.body → a.predicate.isPlain = true := fun hpositive a ha => by
    cases hpositive _ ha
  rcases cases_of_mem_evaluated h hc with
    hseed | ⟨p, -, r, hr, -, i, rfl | ⟨k, hk, labels, hcall⟩⟩ | ⟨hr, -⟩ | ⟨p, rfl⟩
  · obtain ⟨k, -, target, p, terms, hcall, rfl⟩ := AdornedProgram.mem_seedRules.1 hseed
    obtain ⟨-, -, rfl⟩ := Literal.magicCall?_eq_some_iff.1 hcall
    exact .inr ⟨rfl, of_positive fun l => PassingGraph.isPositive_of_mem_select_depends⟩
  · refine .inr ⟨rfl, fun a ha => ?_⟩
    rcases List.mem_append.1 ha with ha | ha
    · cases Atom.isPositive_of_mem_guard ha
    · -- Adorning a body leaves its negated literals alone.
      obtain ⟨k, hk, hadorned⟩ := PassingGraph.mem_adornedBody.1 ha
      obtain ⟨hkind, hself⟩ := Literal.kind_adorn ((r.passingGraph p).literal k)
        (derivedPredicates rules) ((r.passingGraph p).boundAt k)
      rw [PassingGraph.adorned] at hadorned
      rw [hself (hkind.symm.trans (hadorned ▸ rfl))] at hadorned
      have hmem := mem_literals_ofRule.1 (PassingGraph.literal_mem hk)
      exact (hplain r hr).2 _ hmem a (hadorned ▸ rfl)
  · exact .inr ⟨Predicate.isPlain_eq_false_of_isCall
      (AdornedRule.isCall_head_of_mem_callRules hcall),
      of_positive (isPositive_of_mem_callRules hk hcall)⟩
  · exact .inl hr
  · refine .inr ⟨rfl, of_positive fun l hl => ?_⟩
    rcases List.mem_append.1 hl with hl | hl
    · exact Atom.isPositive_of_mem_guard hl
    · rw [List.mem_singleton.1 hl]
      rfl

/-- The magic program of a program with strata has strata. -/
theorem exists_stratify_evaluated (hstrata : ∃ s, stratify rules = .ok s) :
    ∃ s, stratify (program.evaluated hasFacts) = .ok s := by
  obtain ⟨s, hs⟩ := hstrata
  have hle : ∀ p, (s.stratum? p).getD 0 ≤ s.count := getD_stratum?_le_count hs
  -- Plain predicates keep their strata, and the others come above them.
  suffices hlevels : IsLevelling (program.evaluated hasFacts) fun p =>
      if p.isPlain then (s.stratum? p).getD 0 else s.count + 1 from
    exists_stratify_of_isLevelling hlevels
  intro c hc
  rcases mem_or_of_mem_evaluated h hplain hc with hr | ⟨hhead, hnegated⟩
  · obtain ⟨hhead, hbody⟩ := hplain c hr
    obtain ⟨hpositive, hnegative⟩ := isLevelling_stratum hs c hr
    refine ⟨fun a ha => ?_, fun a ha => ?_⟩
    · simpa only [hhead, hbody _ ha a rfl, if_true] using hpositive a ha
    · simpa only [hhead, hbody _ ha a rfl, if_true] using hnegative a ha
  · refine ⟨fun a _ => ?_, fun a ha => ?_⟩
    · have := hle a.predicate
      simp only [hhead, Bool.false_eq_true, if_false]
      split <;> omega
    · have := hle a.predicate
      simp only [hhead, hnegated a ha, if_true, Bool.false_eq_true, if_false]
      omega

end Strata

/-- Magic sets keep strata. If the rules of a program are over plain predicates and have strata,
then so have the rules of any of its magic programs, with the rules that carry stored facts over to
patterns, whichever predicates have facts. Therefore no query to a knowledge base about such rules
fails because there are no strata, whatever queries it has answered before. -/
theorem magicSets_stratifiable {rules : List Rule} (hplain : ∀ r ∈ rules, r.HasPlainPredicates) :
    ((∃ s, stratify rules = .ok s) → ∀ q program, MagicProgram.ofQuery rules q = .ok program →
      ∀ hasFacts, ∃ s, stratify (program.evaluated hasFacts) = .ok s) ∧
    ∀ ctx facts kb, KnowledgeBase.Reached ctx facts rules kb → ∀ rounds q cause,
      (kb.execute rounds q).1 ≠ some (.error (.stratification cause)) := by
  refine ⟨fun hstrata q program h hasFacts => exists_stratify_evaluated h hplain hstrata, ?_⟩
  intro ctx facts kb hkb rounds q cause he
  have hstrata := hkb.isAbout.strata
  -- Neither matching a query nor applying rules fails like this.
  have hanswer : ∀ q db, ctx.answer q db ≠ .error (.stratification cause) := by
    intro q db hanswer
    rcases Context.answer_eq_error hanswer with ⟨_, hsafety⟩ | hfault
    · cases hsafety
    · cases hfault.isRefusal_eq_false
  have hevaluate : ∀ rules', (∃ s, stratify rules' = .ok s) →
      ctx.evaluate rounds rules' facts ≠ some (.error (.stratification cause)) := by
    rintro rules' ⟨s, hs⟩ heval
    rcases Context.evaluate_eq_error heval with ⟨_, hsafety, -⟩ | ⟨_, -, herror⟩ | hfault
    · cases hsafety
    · rw [hs] at herror
      cases herror
    · cases hfault.isRefusal_eq_false
  rcases hkb.isAbout.execute_eq_error he with
    (heval | ⟨db, herror⟩) | ⟨program, h, heval | ⟨db, herror⟩⟩
  · exact hevaluate rules hstrata heval
  · exact hanswer q db herror
  · exact hevaluate _ (exists_stratify_evaluated h hplain hstrata) heval
  · exact hanswer program.query db herror

theorem magicSets_stratifiable_paths :
    (∀ r ∈ pathRules, r.HasPlainPredicates) ∧ (∃ s, stratify pathRules = .ok s) ∧
    (∃ program, MagicProgram.ofQuery pathRules pathQuery = .ok program ∧
      ∃ s, stratify (program.evaluated edgeFacts.hasTuples) = .ok s) ∧
    ∃ kb, KnowledgeBase.Reached ⟨.standard, {}⟩ edgeFacts pathRules kb ∧
      ∀ rounds cause,
        (kb.execute rounds pathQuery).1 ≠ some (.error (.stratification cause)) := by
  have hplain : ∀ r ∈ pathRules, r.HasPlainPredicates := by decide +kernel
  have hkb : KnowledgeBase.Reached ⟨.standard, {}⟩ edgeFacts pathRules
      ⟨edgeFacts, pathRules, ⟨.standard, {}⟩, none, false⟩ :=
    .create (KnowledgeBase.create_eq_of_isSome (by decide +kernel))
  have hstrata := hkb.isAbout.strata
  obtain ⟨hevaluated, hexecute⟩ := magicSets_stratifiable hplain
  exact ⟨hplain, hstrata, ⟨_, rfl, hevaluated hstrata pathQuery _ rfl _⟩, _, hkb,
    fun rounds cause => hexecute _ _ _ hkb rounds pathQuery cause⟩

end Deduction
