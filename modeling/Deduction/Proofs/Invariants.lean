import Deduction.Proofs.GroundUnification
import Deduction.Proofs.Safety
import Deduction.Proofs.SemiNaive

/-!
# What the rounds of an evaluation keep

A property of databases that is kept whenever ground facts are added which the rules derive
(`Context.Preserves`) holds of all databases on the way through a layer, if it holds of the first
one: of the last one (`Context.saturate_invariant`), and of those in which its rounds begin
(`Context.exists_of_newInRound`), also where a round fails. Layers that are evaluated one after the
other keep what each of them keeps (`Context.saturateAll_invariant`).
-/

namespace Deduction

open Matching

namespace Context

variable {ctx : Context} {rules : List ScheduledRule} {p q : Progress} {db : Database}
  {n rounds : Nat}

/-! ## One layer -/

/-- A property of databases is kept when ground facts that the rules derive are added. -/
def Preserves (ctx : Context) (rules : List ScheduledRule) (I : Database → Prop) : Prop :=
  ∀ db new, I db → (∀ a ∈ new.atoms, a.isGround = true ∧
    ∃ r ∈ rules, r.Derives ctx db (reading db r.body) a) → I (db.merge new).2

/-- What is added to ground facts is ground. -/
theorem preserves_isGround : ctx.Preserves rules Database.IsGround := fun db new hdb hnew a ha => by
  rw [Database.atoms_merge] at ha
  exact ha.elim (hdb a) fun ha => (hnew a ha).1

section Invariant

variable {I : Database → Prop} (hstep : ctx.Preserves rules I) (hlayer : IsLayer rules)
  (hp : CaughtUp ctx rules p) (hI : I p.database)

include hstep hp hI

theorem Preserves.advance {new : Database} (hnew : ctx.newFacts rules p = .ok new) :
    I (p.advance rules.length new).database := by
  refine hstep _ _ hI fun a ha => ⟨?_, ((mem_newFacts_of_caughtUp hp hnew).1 ha).2⟩
  obtain ⟨-, r, -, facts, hfacts, ha⟩ := ((newFacts_spec hnew).1 a).1 ha
  exact ScheduledRule.isGround_of_mem_deriveInRound hfacts ha

include hlayer

/-- What holds of the first database of a layer and is kept by adding derived facts holds of the
last one. -/
theorem saturate_invariant (h : ctx.saturate rules n p = some (.ok q)) : I q.database := by
  induction n generalizing p with
  | zero => cases h
  | succ n ih =>
    obtain ⟨new, hnew, ⟨-, rfl⟩ | ⟨-, -, h⟩⟩ := saturate_succ_eq_ok_iff.1 h
    · exact hI
    · exact ih (hp.advance hlayer hnew) (hstep.advance hp hI hnew) h

/-- What holds of the first database of a layer and is kept by adding derived facts holds of the
database in which a round begins. -/
theorem exists_of_newInRound {round : Nat} {x : Except EvaluationError Database}
    (h : ctx.newInRound rules round p = some x) :
    ∃ p', CaughtUp ctx rules p' ∧ I p'.database ∧ ctx.newFacts rules p' = x := by
  induction round generalizing p with
  | zero => exact ⟨p, hp, hI, Option.some.inj h⟩
  | succ round ih =>
    rw [newInRound] at h
    split at h
    · cases h
    · next new hnew =>
      split at h
      · cases h
      · split at h
        · cases h
        · exact ih (hp.advance hlayer hnew) (hstep.advance hp hI hnew) h

/-- A layer that fails without limits does so in a round whose database has what the rounds keep. -/
theorem exists_newFacts_eq_error {e : EvaluationError} (hlimits : ∀ n, ctx.exceededLimit? n = none)
    (h : ctx.saturate rules n p = some (.error e)) :
    ∃ p', CaughtUp ctx rules p' ∧ I p'.database ∧ ctx.newFacts rules p' = .error e := by
  obtain ⟨round, hround⟩ := exists_failing_round hlimits h
  exact exists_of_newInRound hstep hlayer hp hI hround

end Invariant

/-! ## All layers -/

theorem saturateAll_cons_eq_ok_iff {layer : List Rule} {layers : List (List Rule)}
    {statistics : Statistics} {result : Database × Statistics} :
    ctx.saturateAll rounds (layer :: layers) db statistics = some (.ok result) ↔
      ∃ q, ctx.saturate (layer.map ctx.scheduleRule) rounds ⟨db, none, statistics⟩ =
          some (.ok q) ∧
        ctx.saturateAll rounds layers q.database
          { q.statistics with strata := q.statistics.strata + 1 } = some (.ok result) := by
  rw [saturateAll]
  split <;> simp_all

theorem saturateAll_cons_eq_error_iff {layer : List Rule} {layers : List (List Rule)}
    {statistics : Statistics} {e : EvaluationError} :
    ctx.saturateAll rounds (layer :: layers) db statistics = some (.error e) ↔
      ctx.saturate (layer.map ctx.scheduleRule) rounds ⟨db, none, statistics⟩ =
        some (.error e) ∨
      ∃ q, ctx.saturate (layer.map ctx.scheduleRule) rounds ⟨db, none, statistics⟩ =
          some (.ok q) ∧
        ctx.saturateAll rounds layers q.database
          { q.statistics with strata := q.statistics.strata + 1 } = some (.error e) := by
  rw [saturateAll]
  split <;> simp_all

section Invariant

variable {I : Database → Prop} {layers : List (List Rule)} {statistics : Statistics}
  (hstep : ∀ layer ∈ layers, ctx.Preserves (layer.map ctx.scheduleRule) I)
  (hlayers : ∀ layer ∈ layers, IsLayer (layer.map ctx.scheduleRule)) (hI : I db)

include hstep hlayers hI

/-- What holds of the given facts and is kept by adding what the layers derive holds of the
result. -/
theorem saturateAll_invariant {result : Database × Statistics}
    (h : ctx.saturateAll rounds layers db statistics = some (.ok result)) : I result.1 := by
  induction layers generalizing db statistics with
  | nil =>
    obtain rfl := Except.ok.inj (Option.some.inj h)
    exact hI
  | cons layer layers ih =>
    rw [List.forall_mem_cons] at hstep hlayers
    obtain ⟨q, hq, h⟩ := saturateAll_cons_eq_ok_iff.1 h
    exact ih hstep.2 hlayers.2
      (saturate_invariant hstep.1 hlayers.1 (caughtUp_of_delta_eq_none rfl) hI hq) h

/-- Layers that fail without limits do so in a round of one of them, whose database has what the
layers keep. -/
theorem exists_of_saturateAll_eq_error {e : EvaluationError}
    (hlimits : ∀ n, ctx.exceededLimit? n = none)
    (h : ctx.saturateAll rounds layers db statistics = some (.error e)) :
    ∃ layer ∈ layers, ∃ p, CaughtUp ctx (layer.map ctx.scheduleRule) p ∧ I p.database ∧
      ctx.newFacts (layer.map ctx.scheduleRule) p = .error e := by
  induction layers generalizing db statistics with
  | nil => cases h
  | cons layer layers ih =>
    rw [List.forall_mem_cons] at hstep hlayers
    have hstart : CaughtUp ctx (layer.map ctx.scheduleRule) ⟨db, none, statistics⟩ :=
      caughtUp_of_delta_eq_none rfl
    rcases saturateAll_cons_eq_error_iff.1 h with h | ⟨q, hq, h⟩
    · exact ⟨layer, .head _, exists_newFacts_eq_error hstep.1 hlayers.1 hstart hI hlimits h⟩
    · obtain ⟨layer', hlayer', hfails⟩ := ih hstep.2 hlayers.2
        (saturate_invariant hstep.1 hlayers.1 hstart hI hq) h
      exact ⟨layer', .tail _ hlayer', hfails⟩

end Invariant

/-! ## Programs -/

theorem evaluate_eq_ok_iff {rules : List Rule} {facts : Database}
    {result : Database × Statistics} :
    ctx.evaluate rounds rules facts = some (.ok result) ↔
      (∀ r ∈ rules, r.IsSafe ctx) ∧ ∃ s, stratify rules = .ok s ∧
        ctx.saturateAll rounds s.layers facts {} = some (.ok result) := by
  rw [evaluate, ← Rule.checkSafety_eq_ok_iff]
  cases checkSafety rules ctx.registry ctx.settings.safety with
  | error e => simp
  | ok _ =>
    cases stratify rules with
    | error e => simp
    | ok s => simp

end Context

end Deduction
