import Deduction.Proofs.Rounds
import Deduction.Proofs.Scheduling
import Deduction.Proofs.Stratification

/-!
# Semi-naive evaluation

After the first round of a layer it is enough to look at derivations that use a fact of the round
before:

* `CaughtUp` is the invariant of the rounds of a layer: what the rules derive from the facts before
  the last round has been stored.
* `newFacts_isOk_iff_of_caughtUp`, `mem_newFacts_of_caughtUp`: with it, a round is described by all
  derivations from the database, whatever the strategy is.
* `strategies_agree`: evaluation has the same outcome, the same statistics and the same facts in
  each round under both strategies.

The rules of a layer negate predicates of lower strata, so that a negated literal holds alike in all
rounds.
-/

namespace Deduction

open Matching

/-! ## Outcomes that agree -/

/-- Neither computation comes to an end, or both fail, or their results are related. -/
inductive Outcome.Agree {α β : Type} (R : α → β → Prop) : Outcome α → Outcome β → Prop
  | none : Agree R .none .none
  | error (e e' : EvaluationError) : Agree R (some (.error e)) (some (.error e'))
  | ok {a : α} {b : β} : R a b → Agree R (some (.ok a)) (some (.ok b))

theorem Outcome.Agree.exists_ok {α β : Type} {R : α → β → Prop} {x : Outcome α} {y : Outcome β}
    {a : α} (h : Agree R x y) (hx : x = some (.ok a)) : ∃ b, y = some (.ok b) ∧ R a b := by
  cases h with
  | none | error => cases hx
  | @ok a' b hab =>
    obtain rfl := Except.ok.inj (Option.some.inj hx)
    exact ⟨b, rfl, hab⟩

theorem Outcome.exists_ok {α : Type} {x : Outcome α} (h : (x.bind Except.toOption).isSome = true) :
    ∃ a, x = some (.ok a) := by
  rcases x with _ | e | a
  · cases h
  · cases h
  · exact ⟨a, rfl⟩

theorem Outcome.exists_ok_and {α : Type} {x : Outcome α} {P : α → Prop} [DecidablePred P]
    (h : (x.bind Except.toOption).any (P ·) = true) : ∃ a, x = some (.ok a) ∧ P a := by
  rcases x with _ | e | a
  · cases h
  · cases h
  · exact ⟨a, rfl, of_decide_eq_true h⟩

theorem Outcome.exists_error {α : Type} {x : Outcome α}
    (h : (x.map fun r => r.toOption.isNone) = some true) : ∃ e, x = some (.error e) := by
  rcases x with _ | e | a
  · cases h
  · exact ⟨e, rfl⟩
  · cases h

/-- An evaluation has derived the same facts, and done as much for it. -/
def SameResult (x y : Database × Statistics) : Prop :=
  x.1.same y.1 = true ∧ x.2 = y.2

/-! ## The rounds of a layer -/

/-- The statistics after one more round. -/
def Statistics.afterRound (statistics : Statistics) (applied added : Nat) : Statistics :=
  { statistics with
    iterations := statistics.iterations + 1
    ruleApplications := statistics.ruleApplications + applied
    factsDerived := statistics.factsDerived + added }

/-- The state after a round that has applied a number of rules and adds some facts. -/
def Progress.advance (p : Progress) (applied : Nat) (new : Database) : Progress :=
  ⟨(p.database.merge new).2, some new, p.statistics.afterRound applied new.size⟩

/-- The rules derive no predicate that one of them negates. -/
def IsLayer (rules : List ScheduledRule) : Prop :=
  ∀ r ∈ rules, ∀ a, .negative a ∈ r.body → ∀ r' ∈ rules, r'.head.predicate ≠ a.predicate

theorem isLayer_map_scheduleRule {ctx : Context} {layer : List Rule}
    (h : ∀ r ∈ layer, ∀ a, .negative a ∈ r.body →
      ∀ r' ∈ layer, r'.head.predicate ≠ a.predicate) : IsLayer (layer.map ctx.scheduleRule) := by
  intro x hx a ha y hy
  obtain ⟨r, hr, rfl⟩ := List.mem_map.1 hx
  obtain ⟨r', hr', rfl⟩ := List.mem_map.1 hy
  exact h r hr a (mem_schedule.1 ha) r' hr'

theorem isLayer_of_stratify {ctx : Context} {rules layer : List Rule} {s : Stratification}
    (h : stratify rules = .ok s) (hlayer : layer ∈ s.layers) :
    IsLayer (layer.map ctx.scheduleRule) :=
  isLayer_map_scheduleRule ((isLayered_of_stratify h).negated layer hlayer)

theorem IsLayer.perm {rules rules' : List ScheduledRule} (h : IsLayer rules)
    (hrules : rules.Perm rules') : IsLayer rules' := fun r hr a ha r' hr' =>
  h r (hrules.mem_iff.2 hr) a ha r' (hrules.mem_iff.2 hr')

namespace Context

variable {ctx : Context} {rules rules' : List ScheduledRule} {r : ScheduledRule} {a : Atom}
  {p q : Progress} {db old delta new : Database}

theorem saturate_succ (ctx : Context) (rules : List ScheduledRule) (n : Nat) (p : Progress) :
    ctx.saturate rules (n + 1) p =
      match ctx.newFacts rules p with
      | .error e => some (.error e)
      | .ok new =>
        if new.isEmpty then
          some (.ok { p with statistics := p.statistics.afterRound rules.length new.size })
        else
          match ctx.exceededLimit? (p.statistics.afterRound rules.length new.size).factsDerived with
          | some e => some (.error e)
          | none => ctx.saturate rules n (p.advance rules.length new) := rfl

/-- A layer that ends does so in its first round, which adds nothing, or goes on from what the round
has added. -/
theorem saturate_succ_eq_ok_iff {n : Nat} :
    ctx.saturate rules (n + 1) p = some (.ok q) ↔
      ∃ new, ctx.newFacts rules p = .ok new ∧
        ((new.isEmpty = true ∧
            q = { p with statistics := p.statistics.afterRound rules.length new.size }) ∨
          (new.isEmpty = false ∧
            ctx.exceededLimit? (p.statistics.afterRound rules.length new.size).factsDerived =
              none ∧
            ctx.saturate rules n (p.advance rules.length new) = some (.ok q))) := by
  rw [saturate_succ]
  cases ctx.newFacts rules p with
  | error e => simp
  | ok new =>
    cases hempty : new.isEmpty with
    | true =>
      simp only [hempty, if_true, Option.some.injEq, Except.ok.injEq, exists_eq_left', true_and,
        Bool.true_eq_false, false_and, or_false]
      exact eq_comm
    | false =>
      cases hlimit : ctx.exceededLimit?
          (p.statistics.afterRound rules.length new.size).factsDerived with
      | none => simp [hempty, hlimit]
      | some e => simp [hempty, hlimit]

/-- A layer that fails does so in its first round, or exceeds a limit there, or fails later. -/
theorem saturate_succ_eq_error_iff {n : Nat} {e : EvaluationError} :
    ctx.saturate rules (n + 1) p = some (.error e) ↔
      ctx.newFacts rules p = .error e ∨
      ∃ new, ctx.newFacts rules p = .ok new ∧ new.isEmpty = false ∧
        (ctx.exceededLimit? (p.statistics.afterRound rules.length new.size).factsDerived = some e ∨
          (ctx.exceededLimit? (p.statistics.afterRound rules.length new.size).factsDerived = none ∧
            ctx.saturate rules n (p.advance rules.length new) = some (.error e))) := by
  rw [saturate_succ]
  cases ctx.newFacts rules p with
  | error e => simp
  | ok new =>
    cases hempty : new.isEmpty with
    | true => simp [hempty]
    | false =>
      cases hlimit : ctx.exceededLimit?
          (p.statistics.afterRound rules.length new.size).factsDerived with
      | none => simp [hempty, hlimit]
      | some e => simp [hempty, hlimit]

/-! ## Derivations that use a new fact -/

section Union

variable (hunion : db.atoms = old.atoms ∪ delta.atoms) (hneg : AgreeOnNegated db old r.body)
  (hold : r.Succeeds ctx old (reading old r.body))

include hunion hneg hold

/-- A rule that succeeds on the old facts succeeds on all facts if it does so wherever it uses a new
one. -/
theorem succeeds_iff_readingAt :
    r.Succeeds ctx db (reading db r.body) ↔
      ∀ i ∈ deltaPositions delta r.body, r.Succeeds ctx db (readingAt db delta r.body i) := by
  have hdelta : delta.atoms ⊆ db.atoms := hunion ▸ Set.subset_union_right
  have hself : ∀ body, AgreeOnNegated db db body := AgreeOnNegated.of_atoms_eq rfl
  constructor
  · rintro ⟨hstuck, hground⟩ i -
    -- A run that reads the delta somewhere is also one over all facts.
    have hgrows := grows_readingAt_reading hdelta r.body i
    exact ⟨fun h => hstuck (h.mono hgrows (hself _)),
      fun s hs => hground s (hs.mono hgrows (hself _))⟩
  · intro hnew
    refine ⟨fun h => ?_, fun s hs => ?_⟩
    · rcases h.of_union hunion.subset hneg with h | ⟨i, hi, h⟩
      · exact hold.1 h
      · exact (hnew i hi).1 h
    · rcases hs.of_union hunion.subset hneg with hs | ⟨i, hi, hs⟩
      · exact hold.2 s hs
      · exact (hnew i hi).2 s hs

omit hold in
/-- A rule derives from all facts what it derives from the old ones, and what it derives with the
use of a new one. -/
theorem derives_iff_readingAt :
    r.Derives ctx db (reading db r.body) a ↔
      r.Derives ctx old (reading old r.body) a ∨
      ∃ i ∈ deltaPositions delta r.body, r.Derives ctx db (readingAt db delta r.body i) a := by
  have hdelta : delta.atoms ⊆ db.atoms := hunion ▸ Set.subset_union_right
  have hsub : old.atoms ⊆ db.atoms := hunion ▸ Set.subset_union_left
  constructor
  · rintro ⟨s, hs, ha⟩
    rcases hs.of_union hunion.subset hneg with hs | ⟨i, hi, hs⟩
    · exact .inl ⟨s, hs, ha⟩
    · exact .inr ⟨i, hi, s, hs, ha⟩
  · rintro (⟨s, hs, ha⟩ | ⟨i, -, s, hs, ha⟩)
    · exact ⟨s, hs.mono (grows_reading hsub r.body) (by simpa using hneg.symm), ha⟩
    · exact ⟨s, hs.mono (grows_readingAt_reading hdelta r.body i) (.of_atoms_eq rfl _), ha⟩

end Union

/-! ## The invariant of a layer -/

/-- What the rules derive from the facts before the last round has been stored. -/
def CaughtUp (ctx : Context) (rules : List ScheduledRule) (p : Progress) : Prop :=
  ∀ delta, p.delta = some delta → ∃ old : Database,
    p.database.atoms = old.atoms ∪ delta.atoms ∧
    ∀ r ∈ rules, AgreeOnNegated p.database old r.body ∧
      r.Succeeds ctx old (reading old r.body) ∧
      ∀ a, r.Derives ctx old (reading old r.body) a → a ∈ p.database.atoms

theorem caughtUp_of_delta_eq_none (h : p.delta = none) : CaughtUp ctx rules p := fun delta hdelta =>
  by rw [h] at hdelta; cases hdelta

section Round

variable (h : CaughtUp ctx rules p)

include h

theorem deriveInRound_isOk_iff (hr : r ∈ rules) :
    (∃ facts, ctx.deriveInRound p r = .ok facts) ↔
      r.Succeeds ctx p.database (reading p.database r.body) := by
  rw [deriveInRound]
  split
  · next delta hdelta _ =>
    obtain ⟨old, hunion, hrules⟩ := h delta hdelta
    obtain ⟨hneg, hold, -⟩ := hrules r hr
    rw [ScheduledRule.deriveDelta_isOk_iff, succeeds_iff_readingAt hunion hneg hold]
  · exact ScheduledRule.derive_isOk_iff

theorem mem_deriveInRound (hr : r ∈ rules) {facts : List Atom}
    (hfacts : ctx.deriveInRound p r = .ok facts) (ha : a ∉ p.database.atoms) :
    a ∈ facts ↔ r.Derives ctx p.database (reading p.database r.body) a := by
  rw [deriveInRound] at hfacts
  split at hfacts
  · next delta hdelta _ =>
    obtain ⟨old, hunion, hrules⟩ := h delta hdelta
    obtain ⟨hneg, -, hknown⟩ := hrules r hr
    rw [ScheduledRule.mem_deriveDelta hfacts, derives_iff_readingAt hunion hneg]
    -- What follows from the old facts has been stored.
    exact (or_iff_right fun h => ha (hknown a h)).symm
  · exact ScheduledRule.mem_derive hfacts

/-- A round succeeds if all rules do and every derived fact can be stored. -/
theorem newFacts_isOk_iff_of_caughtUp :
    (∃ new, ctx.newFacts rules p = .ok new) ↔
      ∀ r ∈ rules, r.Succeeds ctx p.database (reading p.database r.body) ∧
        ∀ a, r.Derives ctx p.database (reading p.database r.body) a → Storable p.database a := by
  rw [newFacts_isOk_iff]
  refine forall₂_congr fun r hr => ?_
  rw [← deriveInRound_isOk_iff h hr]
  constructor
  · rintro ⟨facts, hfacts, hstorable⟩
    refine ⟨⟨facts, hfacts⟩, fun a ha => ?_⟩
    by_cases hdb : a ∈ p.database.atoms
    · exact .inl hdb
    · exact hstorable a ((mem_deriveInRound h hr hfacts hdb).2 ha)
  · rintro ⟨⟨facts, hfacts⟩, hstorable⟩
    refine ⟨facts, hfacts, fun a ha => ?_⟩
    by_cases hdb : a ∈ p.database.atoms
    · exact .inl hdb
    · exact hstorable a ((mem_deriveInRound h hr hfacts hdb).1 ha)

/-- A round adds what the rules derive from the database and is not stored. -/
theorem mem_newFacts_of_caughtUp (hnew : ctx.newFacts rules p = .ok new) :
    a ∈ new.atoms ↔ a ∉ p.database.atoms ∧
      ∃ r ∈ rules, r.Derives ctx p.database (reading p.database r.body) a := by
  rw [(newFacts_spec hnew).1]
  refine and_congr_right fun ha => exists_congr fun r => and_congr_right fun hr => ?_
  -- All rules have succeeded, so that there is a list of facts to speak of.
  obtain ⟨facts, hfacts, -⟩ := newFacts_isOk_iff.1 ⟨new, hnew⟩ r hr
  rw [← mem_deriveInRound h hr hfacts ha]
  simp [hfacts]

/-- A round keeps the invariant. -/
theorem CaughtUp.advance (hlayer : IsLayer rules) (hnew : ctx.newFacts rules p = .ok new) :
    CaughtUp ctx rules (p.advance rules.length new) := by
  intro delta hdelta
  obtain rfl := Option.some.inj hdelta
  -- The facts before this round are those of the state that it starts from.
  refine ⟨p.database, Database.atoms_merge _ _, fun r hr => ⟨fun b hb t => ?_,
    ((newFacts_isOk_iff_of_caughtUp h).1 ⟨_, hnew⟩ r hr).1, fun a ha => ?_⟩⟩
  · -- A round adds facts for the heads of the layer only.
    rw [Progress.advance, Database.atoms_merge, Set.mem_union, or_iff_left]
    intro ht
    obtain ⟨-, r', hr', hderives⟩ := (mem_newFacts_of_caughtUp h hnew).1 ht
    exact hlayer r hr b hb r' hr' hderives.predicate_eq.symm
  · rw [Progress.advance, Database.atoms_merge, Set.mem_union]
    by_cases hdb : a ∈ p.database.atoms
    · exact .inl hdb
    · exact .inr ((mem_newFacts_of_caughtUp h hnew).2 ⟨hdb, r, hr, ha⟩)

end Round

/-! ## Changing the strategy -/

/-- The context with another strategy. -/
def withStrategy (ctx : Context) (strategy : Strategy) : Context :=
  { ctx with settings := { ctx.settings with strategy } }

variable {st st' : Strategy} {full source : Database} {s s' : Substitution}
  {body : List (Literal × Database)} {l : Literal}

theorem extends_withStrategy :
    Extends (ctx.withStrategy st) full source l s s' ↔ Extends ctx full source l s s' := by
  cases l <;> exact Iff.rfl

theorem fails_withStrategy :
    Fails (ctx.withStrategy st) full source l s ↔ Fails ctx full source l s := by
  cases l <;> exact Iff.rfl

theorem run_withStrategy :
    Run (ctx.withStrategy st) full body s s' ↔ Run ctx full body s s' :=
  ⟨.imp extends_withStrategy.1, .imp extends_withStrategy.2⟩

theorem stuck_withStrategy :
    Stuck (ctx.withStrategy st) full body s ↔ Stuck ctx full body s :=
  ⟨.imp extends_withStrategy.1 fails_withStrategy.1,
    .imp extends_withStrategy.2 fails_withStrategy.2⟩

@[simp]
theorem succeeds_withStrategy :
    r.Succeeds (ctx.withStrategy st) full body ↔ r.Succeeds ctx full body := by
  simp only [ScheduledRule.Succeeds, stuck_withStrategy, run_withStrategy]

@[simp]
theorem derives_withStrategy :
    r.Derives (ctx.withStrategy st) full body a ↔ r.Derives ctx full body a := by
  simp only [ScheduledRule.Derives, run_withStrategy]

@[simp]
theorem caughtUp_withStrategy : CaughtUp (ctx.withStrategy st) rules p ↔ CaughtUp ctx rules p := by
  simp only [CaughtUp, succeeds_withStrategy, derives_withStrategy]

/-! ## Two evaluations side by side -/

theorem succeeds_congr (h : p.database.atoms = q.database.atoms) :
    r.Succeeds ctx p.database (reading p.database r.body) ↔
      r.Succeeds ctx q.database (reading q.database r.body) := by
  have hmono : ∀ {db db' : Database}, db.atoms = db'.atoms →
      r.Succeeds ctx db (reading db r.body) → r.Succeeds ctx db' (reading db' r.body) := by
    intro db db' heq hok
    exact ⟨fun hstuck => hok.1 (hstuck.mono (grows_reading heq.ge _) (.of_atoms_eq heq.symm _)),
      fun s hs => hok.2 s (hs.mono (grows_reading heq.ge _) (.of_atoms_eq heq.symm _))⟩
  exact ⟨hmono h, hmono h.symm⟩

theorem derives_congr (h : p.database.atoms = q.database.atoms) :
    r.Derives ctx p.database (reading p.database r.body) a ↔
      r.Derives ctx q.database (reading q.database r.body) a := by
  have hmono : ∀ {db db' : Database}, db.atoms = db'.atoms →
      r.Derives ctx db (reading db r.body) a → r.Derives ctx db' (reading db' r.body) a := by
    rintro db db' heq ⟨s, hs, ha⟩
    exact ⟨s, hs.mono (grows_reading heq.le _) (.of_atoms_eq heq _), ha⟩
  exact ⟨hmono h, hmono h.symm⟩

/-- States with the same facts and the same history. -/
structure SameState (p q : Progress) : Prop where
  /-- The facts are the same. -/
  database : p.database.same q.database = true
  /-- As much has been done. -/
  statistics : p.statistics = q.statistics

theorem SameState.advance (h : SameState p q) {new new' : Database} (hnew : new.same new' = true)
    (n : Nat) : SameState (p.advance n new) (q.advance n new') := by
  obtain ⟨hkeys, hatoms⟩ := Database.same_iff.1 h.database
  obtain ⟨hkeys', hatoms'⟩ := Database.same_iff.1 hnew
  constructor
  · refine Database.same_iff.2 ⟨fun k => ?_, ?_⟩
    · simp only [Progress.advance, (Database.merge_spec _ _).2, hkeys, hkeys']
    · simp only [Progress.advance, Database.atoms_merge, hatoms, hatoms']
  · simp only [Progress.advance, h.statistics, Database.size_eq_of_same hnew]

/-- Rounds that add the same facts to the same state are the last ones together, and end with the
same statistics. -/
theorem SameState.round_eq (h : SameState p q) {new new' : Database} (hnew : new.same new' = true)
    (n : Nat) : new.isEmpty = new'.isEmpty ∧
      p.statistics.afterRound n new.size = q.statistics.afterRound n new'.size := by
  refine ⟨?_, by rw [h.statistics, Database.size_eq_of_same hnew]⟩
  rw [Bool.eq_iff_iff, Database.isEmpty_iff, Database.isEmpty_iff, (Database.same_iff.1 hnew).2]

/-- Rounds of the same rules from the same state fail together or add the same facts. -/
theorem newFacts_agree (st st' : Strategy) (hrules : rules.Perm rules')
    (hp : CaughtUp ctx rules p) (hq : CaughtUp ctx rules' q)
    (h : p.database.same q.database = true) :
    Outcome.Agree (fun new new' : Database => new.same new' = true)
      (some ((ctx.withStrategy st).newFacts rules p))
      (some ((ctx.withStrategy st').newFacts rules' q)) := by
  have hatoms := (Database.same_iff.1 h).2
  have hp' : CaughtUp (ctx.withStrategy st) rules p := caughtUp_withStrategy.2 hp
  have hq' : CaughtUp (ctx.withStrategy st') rules' q := caughtUp_withStrategy.2 hq
  -- Under the invariant, success and what is derived depend on the stored facts only.
  have hok : (∃ new, (ctx.withStrategy st).newFacts rules p = .ok new) ↔
      ∃ new, (ctx.withStrategy st').newFacts rules' q = .ok new := by
    rw [newFacts_isOk_iff_of_caughtUp hp', newFacts_isOk_iff_of_caughtUp hq']
    simp only [succeeds_withStrategy, derives_withStrategy, succeeds_congr hatoms,
      derives_congr hatoms, Storable, hatoms, hrules.mem_iff]
  cases hnew : (ctx.withStrategy st).newFacts rules p with
  | error e =>
    cases hnew' : (ctx.withStrategy st').newFacts rules' q with
    | error e' => exact .error e e'
    | ok new' => simp [hnew, hnew'] at hok
  | ok new =>
    cases hnew' : (ctx.withStrategy st').newFacts rules' q with
    | error e' => simp [hnew, hnew'] at hok
    | ok new' =>
      -- The relations follow, as there are none without a fact.
      have hmem : new.atoms = new'.atoms := by
        ext a
        rw [mem_newFacts_of_caughtUp hp' hnew, mem_newFacts_of_caughtUp hq' hnew', hatoms]
        simp only [derives_withStrategy, derives_congr hatoms, hrules.mem_iff]
      refine .ok (Database.same_iff.2 ⟨fun k => ?_, hmem⟩)
      rw [(newFacts_spec hnew).2, (newFacts_spec hnew').2, hmem]

/-- Layers that start from the same state come to the same end. -/
theorem saturate_agree (st st' : Strategy) (hrules : rules.Perm rules') (hlayer : IsLayer rules)
    (rounds : Nat) (hp : CaughtUp ctx rules p) (hq : CaughtUp ctx rules' q) (h : SameState p q) :
    Outcome.Agree SameState ((ctx.withStrategy st).saturate rules rounds p)
      ((ctx.withStrategy st').saturate rules' rounds q) := by
  induction rounds generalizing p q with
  | zero => exact .none
  | succ n ih =>
    rw [saturate_succ, saturate_succ]
    have hagree := newFacts_agree st st' hrules hp hq h.database
    -- The first rounds fail together or add the same facts, and then the same happens next.
    generalize hnew : (ctx.withStrategy st).newFacts rules p = x,
      hnew' : (ctx.withStrategy st').newFacts rules' q = x' at hagree ⊢
    cases hagree with
    | error e e' => exact .error e e'
    | @ok new new' hsame =>
      obtain ⟨hempty, hstatistics⟩ := h.round_eq hsame rules.length
      have hlimit : (ctx.withStrategy st).exceededLimit? = (ctx.withStrategy st').exceededLimit? :=
        rfl
      have hp' := (caughtUp_withStrategy.2 hp).advance hlayer hnew
      have hq' := (caughtUp_withStrategy.2 hq).advance (hlayer.perm hrules) hnew'
      simp only [← hrules.length_eq, ← hempty, ← hstatistics, ← hlimit] at hq' ⊢
      split
      · exact .ok ⟨h.database, rfl⟩
      · split
        · exact .error _ _
        · exact ih (caughtUp_withStrategy.1 hp') (caughtUp_withStrategy.1 hq') (h.advance hsame _)

/-- Programs that start from the same facts come to the same end. -/
theorem saturateAll_agree (st st' : Strategy) (rounds : Nat) {layers layers' : List (List Rule)}
    (hperm : List.Forall₂ List.Perm layers layers')
    (hlayers : ∀ layer ∈ layers, IsLayer (layer.map ctx.scheduleRule)) {db db' : Database}
    (h : db.same db' = true) (statistics : Statistics) :
    Outcome.Agree SameResult ((ctx.withStrategy st).saturateAll rounds layers db statistics)
      ((ctx.withStrategy st').saturateAll rounds layers' db' statistics) := by
  induction hperm generalizing db db' statistics with
  | nil => exact .ok ⟨h, rfl⟩
  | @cons layer layer' layers layers' hlayer _ ih =>
    rw [List.forall_mem_cons] at hlayers
    -- Each layer starts without a delta, so that the invariant holds at its start.
    have hagree := saturate_agree st st' (hlayer.map ctx.scheduleRule) hlayers.1 rounds
      (caughtUp_of_delta_eq_none rfl : CaughtUp ctx _ ⟨db, none, statistics⟩)
      (caughtUp_of_delta_eq_none rfl : CaughtUp ctx _ ⟨db', none, statistics⟩) ⟨h, rfl⟩
    have hschedule : ∀ st, (ctx.withStrategy st).scheduleRule = ctx.scheduleRule := fun _ => rfl
    rw [saturateAll, saturateAll, hschedule, hschedule]
    generalize (ctx.withStrategy st).saturate _ rounds _ = x,
      (ctx.withStrategy st').saturate _ rounds _ = x' at hagree ⊢
    cases hagree with
    | none => exact .none
    | error e e' => exact .error e e'
    | ok hstate =>
      simp only [hstate.statistics]
      exact ih hlayers.2 hstate.database _

/-! ## Round by round -/

/-- The facts that a round of a layer adds, where the rounds are counted from zero; there is no such
round if the layer has come to an end before. -/
def newInRound (ctx : Context) (rules : List ScheduledRule) : Nat → Progress → Outcome Database
  | 0, p => some (ctx.newFacts rules p)
  | round + 1, p =>
    match ctx.newFacts rules p with
    | .error _ => none
    | .ok new =>
      if new.isEmpty then none
      else
        match ctx.exceededLimit? (p.statistics.afterRound rules.length new.size).factsDerived with
        | some _ => none
        | none => ctx.newInRound rules round (p.advance rules.length new)

/-- The facts that a round of a stratum adds when rules are evaluated, where strata and rounds are
counted from zero; there is no such round if the evaluation has come to an end before. -/
def newFactsAt (ctx : Context) (rounds : Nat) (rules : List Rule) (facts : Database)
    (stratum round : Nat) : Outcome Database :=
  match stratify rules with
  | .error _ => none
  | .ok s =>
    match s.layers[stratum]? with
    | none => none
    | some layer =>
      match ctx.saturateAll rounds (s.layers.take stratum) facts {} with
      | some (.ok (db, statistics)) =>
        ctx.newInRound (layer.map ctx.scheduleRule) round ⟨db, none, statistics⟩
      | _ => none

theorem newFactsAt_eq_some_iff {rules : List Rule} {facts : Database} {rounds stratum round : Nat}
    {x : Except EvaluationError Database} :
    ctx.newFactsAt rounds rules facts stratum round = some x ↔
      ∃ s layer middle, stratify rules = .ok s ∧ s.layers[stratum]? = some layer ∧
        ctx.saturateAll rounds (s.layers.take stratum) facts {} = some (.ok middle) ∧
        ctx.newInRound (layer.map ctx.scheduleRule) round ⟨middle.1, none, middle.2⟩ = some x := by
  constructor
  · intro h
    rw [newFactsAt] at h
    split at h
    · cases h
    · next s hs =>
      split at h
      · cases h
      · next layer hlayer =>
        split at h
        · next db statistics hbelow => exact ⟨s, layer, (db, statistics), hs, hlayer, hbelow, h⟩
        · cases h
  · rintro ⟨s, layer, middle, hs, hlayer, hbelow, h⟩
    simp only [newFactsAt, hs, hlayer, hbelow]
    exact h

/-- A layer whose first round fails has no other rounds. -/
theorem newInRound_eq_error {round : Nat} {e : EvaluationError} {x : Except EvaluationError Database}
    (hfails : ctx.newFacts rules p = .error e) (h : ctx.newInRound rules round p = some x) :
    x = .error e := by
  cases round with
  | zero => exact (Option.some.inj h).symm.trans hfails
  | succ round => simp [newInRound, hfails] at h

theorem newInRound_succ (hnew : ctx.newFacts rules p = .ok new) (hempty : new.isEmpty = false)
    (hlimit : ctx.exceededLimit? (p.statistics.afterRound rules.length new.size).factsDerived = none)
    (round : Nat) : ctx.newInRound rules (round + 1) p =
      ctx.newInRound rules round (p.advance rules.length new) := by
  simp [newInRound, hnew, hempty, hlimit]

/-- A layer that ends has added to its facts what its rounds add. -/
theorem atoms_saturate {rounds : Nat} (h : ctx.saturate rules rounds p = some (.ok q)) :
    a ∈ q.database.atoms ↔
      a ∈ p.database.atoms ∨
        ∃ round new, ctx.newInRound rules round p = some (.ok new) ∧ a ∈ new.atoms := by
  induction rounds generalizing p with
  | zero => cases h
  | succ n ih =>
    obtain ⟨new, hnew, ⟨hempty, rfl⟩ | ⟨hempty, hlimit, h⟩⟩ := saturate_succ_eq_ok_iff.1 h
    · -- The layer is over: its only round adds nothing.
      refine (or_iff_left ?_).symm
      rintro ⟨round, new', hround, ha⟩
      cases round with
      | zero =>
        obtain rfl : new = new' := Except.ok.inj (hnew.symm.trans (Option.some.inj hround))
        simp [Database.isEmpty_iff.1 hempty] at ha
      | succ round => simp [newInRound, hnew, hempty] at hround
    · -- The first round adds what is new now, the others what is new later.
      have hzero : ctx.newInRound rules 0 p = some (.ok new) := congrArg some hnew
      have hsucc := newInRound_succ hnew hempty hlimit
      rw [ih h, Progress.advance, Database.atoms_merge, Set.mem_union, or_assoc]
      refine or_congr_right ?_
      constructor
      · rintro (ha | ⟨round, new', hround, ha⟩)
        · exact ⟨0, new, hzero, ha⟩
        · exact ⟨round + 1, new', (hsucc round).trans hround, ha⟩
      · rintro ⟨round, new', hround, ha⟩
        cases round with
        | zero =>
          obtain rfl := Except.ok.inj (Option.some.inj (hzero.symm.trans hround))
          exact .inl ha
        | succ round => exact .inr ⟨round, new', (hsucc round).symm.trans hround, ha⟩

/-- A layer that ends does so in a round that adds nothing. -/
theorem exists_empty_round {rounds : Nat} (h : ctx.saturate rules rounds p = some (.ok q)) :
    ∃ round new, ctx.newInRound rules round p = some (.ok new) ∧ new.isEmpty = true := by
  induction rounds generalizing p with
  | zero => cases h
  | succ n ih =>
    obtain ⟨new, hnew, ⟨hempty, -⟩ | ⟨hempty, hlimit, h⟩⟩ := saturate_succ_eq_ok_iff.1 h
    · exact ⟨0, new, congrArg some hnew, hempty⟩
    · obtain ⟨round, last, hround, hlast⟩ := ih h
      exact ⟨round + 1, last, (newInRound_succ hnew hempty hlimit round).trans hround, hlast⟩

/-- A layer that fails without limits does so in one of its rounds. -/
theorem exists_failing_round {rounds : Nat} {e : EvaluationError}
    (hlimits : ∀ n, ctx.exceededLimit? n = none)
    (h : ctx.saturate rules rounds p = some (.error e)) :
    ∃ round, ctx.newInRound rules round p = some (.error e) := by
  induction rounds generalizing p with
  | zero => cases h
  | succ n ih =>
    rcases saturate_succ_eq_error_iff.1 h with hfails | ⟨new, hnew, hempty, hlimit | ⟨hlimit, h⟩⟩
    · exact ⟨0, congrArg some hfails⟩
    · rw [hlimits] at hlimit
      cases hlimit
    · obtain ⟨round, hround⟩ := ih h
      exact ⟨round + 1, (newInRound_succ hnew hempty hlimit round).trans hround⟩

/-- Layers that start from the same state add the same facts in each round. -/
theorem newInRound_agree (st st' : Strategy) (hrules : rules.Perm rules') (hlayer : IsLayer rules)
    (round : Nat) (hp : CaughtUp ctx rules p) (hq : CaughtUp ctx rules' q) (h : SameState p q) :
    Outcome.Agree (fun new new' : Database => new.same new' = true)
      ((ctx.withStrategy st).newInRound rules round p)
      ((ctx.withStrategy st').newInRound rules' round q) := by
  induction round generalizing p q with
  | zero => exact newFacts_agree st st' hrules hp hq h.database
  | succ n ih =>
    rw [newInRound, newInRound]
    have hagree := newFacts_agree st st' hrules hp hq h.database
    generalize hnew : (ctx.withStrategy st).newFacts rules p = x,
      hnew' : (ctx.withStrategy st').newFacts rules' q = x' at hagree ⊢
    cases hagree with
    | error e e' => exact .none
    | @ok new new' hsame =>
      obtain ⟨hempty, hstatistics⟩ := h.round_eq hsame rules.length
      have hlimit : (ctx.withStrategy st).exceededLimit? = (ctx.withStrategy st').exceededLimit? :=
        rfl
      have hp' := (caughtUp_withStrategy.2 hp).advance hlayer hnew
      have hq' := (caughtUp_withStrategy.2 hq).advance (hlayer.perm hrules) hnew'
      simp only [← hrules.length_eq, ← hempty, ← hstatistics, ← hlimit] at hq' ⊢
      split
      · exact .none
      · split
        · exact .none
        · exact ih (caughtUp_withStrategy.1 hp') (caughtUp_withStrategy.1 hq') (h.advance hsame _)

/-! ## Whole evaluations -/

/-- Rules are checked one by one, so that it does not matter which comes first. -/
theorem checkSafety_isOk_iff_of_perm {rules rules' : List Rule} (hrules : rules.Perm rules')
    (registry : Registry) (options : SafetyOptions) :
    checkSafety rules registry options = .ok () ↔ checkSafety rules' registry options = .ok () := by
  simp only [checkSafety, forM_eq_ok_iff, hrules.mem_iff]

/-- Evaluations of the same rules over the same facts come to the same end, however the rules are
listed and whatever the strategies are. -/
theorem evaluate_agree (st st' : Strategy) (rounds : Nat) {rules rules' : List Rule}
    {facts facts' : Database} (hrules : rules.Perm rules') (hfacts : facts.same facts' = true) :
    Outcome.Agree SameResult ((ctx.withStrategy st).evaluate rounds rules facts)
      ((ctx.withStrategy st').evaluate rounds rules' facts') := by
  -- The checks before evaluation do not depend on the strategy.
  have hchecks : ∀ rules st, checkSafety rules (ctx.withStrategy st).registry
      (ctx.withStrategy st).settings.safety =
        checkSafety rules ctx.registry ctx.settings.safety := fun _ _ => rfl
  have hsafe := checkSafety_isOk_iff_of_perm hrules ctx.registry ctx.settings.safety
  rw [evaluate, evaluate, hchecks, hchecks]
  cases hcheck : checkSafety rules ctx.registry ctx.settings.safety with
  | error e =>
    cases hcheck' : checkSafety rules' ctx.registry ctx.settings.safety with
    | error e' => exact .error _ _
    | ok _ => simp [hcheck, hcheck'] at hsafe
  | ok _ =>
    rw [hsafe.1 hcheck]
    cases hs : stratify rules with
    | error e =>
      obtain ⟨e', he'⟩ := (stratify_isError_iff_of_perm hrules).1 ⟨e, hs⟩
      rw [he']
      exact .error _ _
    | ok s =>
      obtain ⟨s', hs', hperm⟩ := exists_stratify_of_perm hrules hs
      rw [hs']
      exact saturateAll_agree _ _ rounds hperm (fun layer hlayer => isLayer_of_stratify hs hlayer)
        hfacts {}

/-- Evaluations of the same rules over the same facts add the same facts in each round of each
stratum. -/
theorem newFactsAt_agree (st st' : Strategy) (rounds : Nat) {rules rules' : List Rule}
    {facts facts' : Database} (hrules : rules.Perm rules') (hfacts : facts.same facts' = true)
    (stratum round : Nat) :
    Outcome.Agree (fun new new' : Database => new.same new' = true)
      ((ctx.withStrategy st).newFactsAt rounds rules facts stratum round)
      ((ctx.withStrategy st').newFactsAt rounds rules' facts' stratum round) := by
  rw [newFactsAt, newFactsAt]
  cases hs : stratify rules with
  | error e =>
    obtain ⟨e', he'⟩ := (stratify_isError_iff_of_perm hrules).1 ⟨e, hs⟩
    rw [he']
    exact .none
  | ok s =>
    obtain ⟨s', hs', hperm⟩ := exists_stratify_of_perm hrules hs
    rw [hs']
    have hlayers : ∀ layer ∈ s.layers, IsLayer (layer.map ctx.scheduleRule) :=
      fun layer hlayer => isLayer_of_stratify hs hlayer
    have htake : ∀ layer ∈ s.layers.take stratum, IsLayer (layer.map ctx.scheduleRule) :=
      fun layer hlayer => hlayers layer (List.mem_of_mem_take hlayer)
    -- The lower strata come to the same end, where the rounds of this one begin.
    have hagree := saturateAll_agree st st' rounds (List.forall₂_take stratum hperm) htake hfacts {}
    cases hlayer : s.layers[stratum]? with
    | none =>
      have hlayer' : s'.layers[stratum]? = none := by
        rw [List.getElem?_eq_none_iff] at hlayer ⊢
        rwa [← hperm.length_eq]
      simpa only [hlayer, hlayer'] using .none
    | some layer =>
      obtain ⟨layer', hlayer', hmatch⟩ := exists_getElem?_of_forall₂ hperm hlayer
      simp only [hlayer, hlayer']
      generalize (ctx.withStrategy st).saturateAll _ _ _ _ = x,
        (ctx.withStrategy st').saturateAll _ _ _ _ = x' at hagree ⊢
      cases hagree with
      | none => exact .none
      | error e e' => exact .none
      | @ok x x' hresult =>
        obtain ⟨hdb, hstatistics⟩ := hresult
        exact newInRound_agree _ _ (p := ⟨x.1, none, x.2⟩) (q := ⟨x'.1, none, x'.2⟩)
          (hmatch.map ctx.scheduleRule) (hlayers layer (List.mem_of_getElem? hlayer)) round
          (caughtUp_of_delta_eq_none rfl) (caughtUp_of_delta_eq_none rfl) ⟨hdb, hstatistics⟩

end Context

/-- Semi-naive and naive evaluation of rules come to the same facts with the same statistics, or
both fail, or neither comes to an end within the rounds that it is given; and in each round of each
stratum they add the same facts. -/
theorem strategies_agree (ctx : Context) (rounds : Nat) (rules : List Rule) (facts : Database) :
    Outcome.Agree SameResult ((ctx.withStrategy .semiNaive).evaluate rounds rules facts)
      ((ctx.withStrategy .naive).evaluate rounds rules facts) ∧
    ∀ stratum round, Outcome.Agree (fun new new' : Database => new.same new' = true)
      ((ctx.withStrategy .semiNaive).newFactsAt rounds rules facts stratum round)
      ((ctx.withStrategy .naive).newFactsAt rounds rules facts stratum round) := by
  have hfacts : facts.same facts = true := Database.same_iff.2 ⟨fun _ => Iff.rfl, rfl⟩
  refine ⟨Context.evaluate_agree _ _ rounds (.refl rules) hfacts, fun stratum round => ?_⟩
  exact Context.newFactsAt_agree _ _ rounds (.refl rules) hfacts stratum round

end Deduction
