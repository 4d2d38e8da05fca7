import Deduction.Proofs.Model

/-!
# Evaluation does not depend on order

Rules and facts may be listed in any order: evaluation comes to the same facts, with the same
statistics, in the same rounds (`evaluate_agree_of_perm`).

The order of the facts is that in which relations list their tuples, so that databases of the same
facts are the same (`Database.same_of_perm`), and what a round adds depends on the facts alone
(`Context.newFacts_agree`). The strata are the least that respect the rules, so that they do not
depend on the order of the rules, and each layer has its rules in another order
(`exists_stratify_of_perm`).
-/

namespace Deduction

/-- Evaluation does not depend on how rules and facts are listed. A list of facts is accepted in any
order or in none, namely if all facts are ground and fit their relations. Over the databases of the
same facts, and under the same settings, evaluations of the same rules come to the same facts with
the same statistics, or both fail, or neither comes to an end within the rounds that it is given;
and in each round of each stratum they add the same facts. -/
theorem evaluate_agree_of_perm {rules rules' : List Rule} {facts facts' : List Atom}
    (hrules : rules.Perm rules') (hfacts : facts.Perm facts') :
    ((∃ db, Database.ofFacts facts = .ok db) ↔
      ∀ f ∈ facts, f.isGround = true ∧ f.terms.length = f.predicate.arity) ∧
    ((∃ db, Database.ofFacts facts = .ok db) ↔ ∃ db', Database.ofFacts facts' = .ok db') ∧
    ∀ db db', Database.ofFacts facts = .ok db → Database.ofFacts facts' = .ok db' →
      ∀ (ctx : Context) (rounds : Nat),
        Outcome.Agree SameResult (ctx.evaluate rounds rules db) (ctx.evaluate rounds rules' db') ∧
        ∀ stratum round, Outcome.Agree (fun new new' : Database => new.same new' = true)
          (ctx.newFactsAt rounds rules db stratum round)
          (ctx.newFactsAt rounds rules' db' stratum round) := by
  refine ⟨Database.ofFacts_isOk_iff, ?_, fun db db' hdb hdb' ctx rounds => ?_⟩
  · simp only [Database.ofFacts_isOk_iff, hfacts.mem_iff]
  · -- The settings include the strategy, which is the same on both sides.
    have hsame := Database.same_of_perm hfacts hdb hdb'
    exact ⟨@Context.evaluate_agree ctx ctx.settings.strategy ctx.settings.strategy rounds _ _ _ _
      hrules hsame, @Context.newFactsAt_agree ctx ctx.settings.strategy ctx.settings.strategy
      rounds _ _ _ _ hrules hsame⟩

theorem evaluate_agree_of_perm_paths :
    let edge (m n : Int64) : Atom := ⟨.plain "edge" 2, [.const (.integer m), .const (.integer n)]⟩
    let facts := [edge 1 2, edge 2 1, edge 3 4]
    ∃ db db' result result', Database.ofFacts facts = .ok db ∧
      Database.ofFacts facts.reverse = .ok db' ∧
      Context.evaluate ⟨.standard, {}⟩ 5 pathRules db = some (.ok result) ∧
      Context.evaluate ⟨.standard, {}⟩ 5 pathRules.reverse db' = some (.ok result') ∧
      SameResult result result' := by
  intro edge facts
  obtain ⟨-, haccepted, hagree⟩ := evaluate_agree_of_perm (List.reverse_perm pathRules).symm
    (List.reverse_perm facts).symm
  obtain ⟨db, hdb, result, hresult⟩ : ∃ db, Database.ofFacts facts = .ok db ∧
      ∃ result, Context.evaluate ⟨.standard, {}⟩ 5 pathRules db = some (.ok result) :=
    ⟨_, rfl, Outcome.exists_ok (by decide +kernel)⟩
  obtain ⟨db', hdb'⟩ := haccepted.1 ⟨db, hdb⟩
  obtain ⟨hevaluate, -⟩ := hagree db db' hdb hdb' ⟨.standard, {}⟩ 5
  obtain ⟨result', hresult', hsame⟩ := hevaluate.exists_ok hresult
  exact ⟨db, db', result, result', hdb, hdb', hresult, hresult', hsame⟩

end Deduction
