import Deduction.Fixpoint
import Deduction.Proofs.Known

/-!
# What a round derives

A rule derives the instances of its head that the runs through its body give, and fails if a run
gets stuck or leaves a variable of the head open (`ScheduledRule.derive_isOk_iff`, `mem_derive`, and
the same for derivations from a delta). Over ground facts these are the instances under the
valuations to which the runs lead (`ScheduledRule.Succeeds.derives_iff`). A round adds the derived
facts that are new (`Context.newFacts_isOk_iff`, `newFacts_spec`).
-/

namespace Deduction

open Matching

variable {ctx : Context} {db delta full : Database} {a : Atom}

/-! ## Rules -/

namespace ScheduledRule

variable {r : ScheduledRule} {facts : List Atom}

/-- No run through the body gets stuck, and those that end give values to the variables of the
head. -/
def Succeeds (r : ScheduledRule) (ctx : Context) (full : Database)
    (body : List (Literal × Database)) : Prop :=
  ¬Stuck ctx full body .empty ∧
    ∀ s, Run ctx full body .empty s → (s.applyAtom r.head).isGround = true

/-- A run through the body gives an atom as the instance of the head. -/
def Derives (r : ScheduledRule) (ctx : Context) (full : Database)
    (body : List (Literal × Database)) (a : Atom) : Prop :=
  ∃ s, Run ctx full body .empty s ∧ s.applyAtom r.head = a

theorem Derives.predicate_eq {body : List (Literal × Database)} (h : r.Derives ctx full body a) :
    a.predicate = r.head.predicate := by
  obtain ⟨s, -, rfl⟩ := h
  rfl

theorem instantiate_eq_ok_iff {s : Substitution} :
    r.instantiate s = .ok a ↔ (s.applyAtom r.head).isGround = true ∧ s.applyAtom r.head = a := by
  rw [instantiate]
  split <;> simp_all

theorem instances_isOk_iff {body : List (Literal × Database)} :
    (∃ facts, (do (← solutions ctx full body .empty).mapM r.instantiate) =
      Except.ok (ε := EvaluationError) facts) ↔ r.Succeeds ctx full body := by
  rw [Succeeds, ← solutions_isOk_iff]
  simp only [bind_eq_ok_iff]
  constructor
  · rintro ⟨facts, found, hfound, hfacts⟩
    refine ⟨⟨found, hfound⟩, fun s hs => ?_⟩
    obtain ⟨a, ha⟩ := mapM_isOk_iff.1 ⟨facts, hfacts⟩ s ((mem_solutions hfound).2 hs)
    exact (instantiate_eq_ok_iff.1 ha).1
  · rintro ⟨⟨found, hfound⟩, hground⟩
    obtain ⟨facts, hfacts⟩ := mapM_isOk_iff.2 fun s hs =>
      ⟨_, instantiate_eq_ok_iff.2 ⟨hground s ((mem_solutions hfound).1 hs), rfl⟩⟩
    exact ⟨facts, found, hfound, hfacts⟩

theorem mem_instances {body : List (Literal × Database)}
    (h : (do (← solutions ctx full body .empty).mapM r.instantiate) =
      Except.ok (ε := EvaluationError) facts) :
    a ∈ facts ↔ r.Derives ctx full body a := by
  have hground := (instances_isOk_iff.1 ⟨facts, h⟩).2
  obtain ⟨found, hfound, hfacts⟩ := bind_eq_ok_iff.1 h
  rw [mem_of_mapM_eq_ok hfacts]
  constructor
  · rintro ⟨s, hs, ha⟩
    exact ⟨s, (mem_solutions hfound).1 hs, (instantiate_eq_ok_iff.1 ha).2⟩
  · rintro ⟨s, hs, ha⟩
    exact ⟨s, (mem_solutions hfound).2 hs, instantiate_eq_ok_iff.2 ⟨hground s hs, ha⟩⟩

theorem derive_isOk_iff :
    (∃ facts, r.derive ctx db = .ok facts) ↔ r.Succeeds ctx db (reading db r.body) :=
  instances_isOk_iff

theorem mem_derive (h : r.derive ctx db = .ok facts) :
    a ∈ facts ↔ r.Derives ctx db (reading db r.body) a :=
  mem_instances h

theorem deriveDelta_isOk_iff :
    (∃ facts, r.deriveDelta ctx db delta = .ok facts) ↔
      ∀ i ∈ deltaPositions delta r.body, r.Succeeds ctx db (readingAt db delta r.body i) := by
  -- One position fails on its own, as a derivation over its own choice of databases.
  have hok : (∃ found, ((deltaPositions delta r.body).mapM fun i => do
        (← satisfyAt ctx db delta r.body i).mapM r.instantiate) =
          Except.ok (ε := EvaluationError) found) ↔
      ∀ i ∈ deltaPositions delta r.body, r.Succeeds ctx db (readingAt db delta r.body i) := by
    simp only [mapM_isOk_iff, satisfyAt_eq, instances_isOk_iff]
  rw [← hok, deriveDelta]
  simp only [bind_eq_ok_iff]
  constructor
  · rintro ⟨_, found, hfound, -⟩
    exact ⟨found, hfound⟩
  · rintro ⟨found, hfound⟩
    exact ⟨_, found, hfound, rfl⟩

theorem mem_deriveDelta (h : r.deriveDelta ctx db delta = .ok facts) :
    a ∈ facts ↔ ∃ i ∈ deltaPositions delta r.body,
      r.Derives ctx db (readingAt db delta r.body i) a := by
  rw [deriveDelta] at h
  obtain ⟨found, hfound, h⟩ := bind_eq_ok_iff.1 h
  obtain rfl := Except.ok.inj h
  simp only [List.mem_flatten, mem_of_mapM_eq_ok hfound]
  constructor
  · rintro ⟨facts, ⟨i, hi, hfacts⟩, ha⟩
    exact ⟨i, hi, (mem_instances hfacts).1 ha⟩
  · rintro ⟨i, hi, ha⟩
    obtain ⟨facts, hfacts⟩ := mapM_isOk_iff.1 ⟨found, hfound⟩ i hi
    exact ⟨facts, ⟨i, hi, hfacts⟩, (mem_instances hfacts).2 ha⟩

/-- A rule that succeeds over ground facts derives the instances of its head under the valuations to
which the runs through its body lead. -/
theorem Succeeds.derives_iff {body : List (Literal × Database)} (h : r.Succeeds ctx full body)
    (hbody : ∀ x ∈ body, x.2.IsGround) :
    r.Derives ctx full body a ↔ ∃ v : Valuation, (∀ x, (v x).isGround = true) ∧
      (∃ s, Run ctx full body .empty s ∧ s.Fits v) ∧ r.head.replace v = a := by
  have hcovers : ∀ s, Run ctx full body .empty s → Covers s (body.flatMap fun x =>
      Schedule.gives x.1) := fun s hrun => covers_empty.of_run hbody hrun
  constructor
  · rintro ⟨s, hrun, rfl⟩
    obtain ⟨v, hv, hground⟩ := Substitution.exists_fits (hcovers s hrun).grounded
    exact ⟨v, hground, ⟨s, hrun, hv⟩, ((hcovers s hrun).applyAtom_eq hv (h.2 s hrun)).symm⟩
  · rintro ⟨v, -, ⟨s, hrun, hv⟩, rfl⟩
    exact ⟨s, hrun, (hcovers s hrun).applyAtom_eq hv (h.2 s hrun)⟩

theorem isGround_of_mem_deriveInRound {p : Progress} (h : ctx.deriveInRound p r = .ok facts)
    (ha : a ∈ facts) : a.isGround = true := by
  have hderive : ∀ {facts}, r.derive ctx p.database = .ok facts → a ∈ facts →
      a.isGround = true := by
    intro facts h ha
    obtain ⟨s, hs, rfl⟩ := (mem_derive h).1 ha
    exact (derive_isOk_iff.1 ⟨facts, h⟩).2 s hs
  rw [Context.deriveInRound] at h
  split at h
  · obtain ⟨i, hi, s, hs, rfl⟩ := (mem_deriveDelta h).1 ha
    exact (deriveDelta_isOk_iff.1 ⟨facts, h⟩ i hi).2 s hs
  · exact hderive h ha

end ScheduledRule

/-! ## Rounds -/

namespace Context

variable {new new' : Database} {facts : List Atom} {p : Progress} {rules : List ScheduledRule}

/-- A derived fact has been stored before, or its relation takes it. -/
def Storable (db : Database) (f : Atom) : Prop :=
  f ∈ db.atoms ∨ f.isGround = true ∧ f.terms.length = f.predicate.arity

theorem collect_cons_eq_ok_iff {f : Atom} :
    collect db new (f :: facts) = .ok new' ↔
      (f ∈ db.atoms ∧ collect db new facts = .ok new') ∨
      (f ∉ db.atoms ∧ ∃ b, (new.insertAtom f).1 = .ok b ∧
        collect db (new.insertAtom f).2 facts = .ok new') := by
  rw [collect, List.foldlM_cons, bind_eq_ok_iff]
  -- A stored fact is skipped; any other has to be taken by its relation.
  by_cases hf : f ∈ db.atoms
  · simp only [hf, Database.contains_iff_mem_atoms, if_true, Except.ok.injEq, exists_eq_left',
      true_and, not_true, false_and, or_false]
    rfl
  · simp only [hf, Database.contains_iff_mem_atoms, if_false, false_and, not_false_iff, true_and,
      false_or]
    rcases hins : new.insertAtom f with ⟨e | b, db'⟩
    · simp
    · simp [collect]

theorem collect_isOk_iff (new : Database) :
    (∃ new', collect db new facts = .ok new') ↔ ∀ f ∈ facts, Storable db f := by
  induction facts generalizing new with
  | nil => exact iff_of_true ⟨new, rfl⟩ (by simp)
  | cons f facts ih =>
    rw [List.forall_mem_cons, Storable]
    by_cases hf : f ∈ db.atoms
    · simp only [collect_cons_eq_ok_iff, hf, true_and, not_true, false_and, or_false, true_or, ih]
    · simp only [collect_cons_eq_ok_iff, hf, false_and, false_or, not_false_iff, true_and]
      rw [← new.insertAtom_isOk_iff, ← ih (new.insertAtom f).2]
      constructor
      · rintro ⟨new', b, hb, h⟩
        exact ⟨⟨b, hb⟩, new', h⟩
      · rintro ⟨⟨b, hb⟩, new', h⟩
        exact ⟨new', b, hb, h⟩

/-- Collecting adds those facts that the database does not store. -/
theorem collect_spec (h : collect db new facts = .ok new') :
    (∀ a, a ∈ new'.atoms ↔ a ∈ new.atoms ∨ (a ∈ facts ∧ a ∉ db.atoms)) ∧
    ∀ q, (new'.relation? q).isSome ↔
      (new.relation? q).isSome ∨ ∃ a ∈ facts, a ∉ db.atoms ∧ a.predicate = q := by
  induction facts generalizing new with
  | nil =>
    obtain rfl := Except.ok.inj h
    simp
  | cons f facts ih =>
    rcases collect_cons_eq_ok_iff.1 h with ⟨hf, h⟩ | ⟨hf, b, hb, h⟩
    · obtain ⟨hatoms, hkeys⟩ := ih h
      refine ⟨fun a => ?_, fun q => ?_⟩
      · rw [hatoms, List.mem_cons]
        by_cases ha : a = f <;> simp [ha, hf]
      · rw [hkeys]
        simp [hf]
    · obtain ⟨hatoms, hkeys⟩ := ih h
      refine ⟨fun a => ?_, fun q => ?_⟩
      · rw [hatoms, Database.mem_atoms_insertAtom hb, List.mem_cons]
        by_cases ha : a = f <;> simp [ha, hf]
      · rw [hkeys, Database.isSome_relation?_insertAtom hb]
        simp only [List.exists_mem_cons_iff, hf, not_false_iff, true_and, eq_comm (a := q)]
        tauto

/-- The loop of a round over a part of the rules. -/
def collectAll (ctx : Context) (p : Progress) (rules : List ScheduledRule) (new : Database) :
    Except EvaluationError Database :=
  rules.foldlM (fun new r => do collect p.database new (← ctx.deriveInRound p r)) new

theorem newFacts_eq_collectAll : ctx.newFacts rules p = ctx.collectAll p rules .empty := rfl

theorem collectAll_cons_eq_ok_iff {r : ScheduledRule} :
    ctx.collectAll p (r :: rules) new = .ok new' ↔
      ∃ facts, ctx.deriveInRound p r = .ok facts ∧
        ∃ next, collect p.database new facts = .ok next ∧
          ctx.collectAll p rules next = .ok new' := by
  rw [collectAll, List.foldlM_cons, bind_eq_ok_iff]
  simp only [bind_eq_ok_iff]
  constructor
  · rintro ⟨next, ⟨facts, hfacts, hnext⟩, h⟩
    exact ⟨facts, hfacts, next, hnext, h⟩
  · rintro ⟨facts, hfacts, next, hnext, h⟩
    exact ⟨next, ⟨facts, hfacts, hnext⟩, h⟩

theorem newFacts_isOk_iff :
    (∃ new, ctx.newFacts rules p = .ok new) ↔
      ∀ r ∈ rules, ∃ facts, ctx.deriveInRound p r = .ok facts ∧
        ∀ f ∈ facts, Storable p.database f := by
  -- Whether the loop fails does not depend on what has been collected so far.
  have hloop : ∀ new, (∃ new', ctx.collectAll p rules new = .ok new') ↔
      ∀ r ∈ rules, ∃ facts, ctx.deriveInRound p r = .ok facts ∧
        ∀ f ∈ facts, Storable p.database f := by
    induction rules with
    | nil => exact fun new => iff_of_true ⟨new, rfl⟩ (by simp)
    | cons r rules ih =>
      intro new
      simp only [collectAll_cons_eq_ok_iff, List.forall_mem_cons]
      constructor
      · rintro ⟨new', facts, hfacts, next, hnext, h⟩
        exact ⟨⟨facts, hfacts, (collect_isOk_iff new).1 ⟨next, hnext⟩⟩, (ih next).1 ⟨new', h⟩⟩
      · rintro ⟨⟨facts, hfacts, hstorable⟩, hrest⟩
        obtain ⟨next, hnext⟩ := (collect_isOk_iff new).2 hstorable
        obtain ⟨new', h⟩ := (ih next).2 hrest
        exact ⟨new', facts, hfacts, next, hnext, h⟩
  simp only [newFacts_eq_collectAll]
  exact hloop .empty

/-- A round adds those derived facts that have not been stored, and makes relations for their
predicates only. -/
theorem newFacts_spec (h : ctx.newFacts rules p = .ok new) :
    (∀ a, a ∈ new.atoms ↔ a ∉ p.database.atoms ∧
      ∃ r ∈ rules, ∃ facts, ctx.deriveInRound p r = .ok facts ∧ a ∈ facts) ∧
    ∀ q, (new.relation? q).isSome ↔ ∃ a ∈ new.atoms, a.predicate = q := by
  -- The loop is generalised over the collected facts. It never makes a relation without a fact.
  have hloop : ∀ acc, ctx.collectAll p rules acc = .ok new →
      (∀ q, (acc.relation? q).isSome → ∃ a ∈ acc.atoms, a.predicate = q) →
      (∀ a, a ∈ new.atoms ↔ a ∈ acc.atoms ∨ (a ∉ p.database.atoms ∧
        ∃ r ∈ rules, ∃ facts, ctx.deriveInRound p r = .ok facts ∧ a ∈ facts)) ∧
      ∀ q, (new.relation? q).isSome → ∃ a ∈ new.atoms, a.predicate = q := by
    clear h
    induction rules with
    | nil =>
      intro acc h hkeys
      obtain rfl := Except.ok.inj h
      exact ⟨by simp, hkeys⟩
    | cons r rules ih =>
      intro acc h hkeys
      obtain ⟨facts, hfacts, next, hnext, h⟩ := collectAll_cons_eq_ok_iff.1 h
      obtain ⟨hatoms', hkeys'⟩ := collect_spec hnext
      obtain ⟨hatoms, hrest⟩ := ih next h fun q hq => by
        rcases (hkeys' q).1 hq with hq | ⟨a, ha, hdb, rfl⟩
        · obtain ⟨a, ha, rfl⟩ := hkeys q hq
          exact ⟨a, (hatoms' a).2 (.inl ha), rfl⟩
        · exact ⟨a, (hatoms' a).2 (.inr ⟨ha, hdb⟩), rfl⟩
      refine ⟨fun a => ?_, hrest⟩
      rw [hatoms, hatoms', or_assoc]
      refine or_congr_right ?_
      simp only [List.exists_mem_cons_iff, hfacts, Except.ok.injEq, exists_eq_left']
      tauto
  rw [newFacts_eq_collectAll] at h
  obtain ⟨hatoms, hkeys⟩ := hloop .empty h (by simp [Database.relation?_empty])
  refine ⟨by simpa using hatoms, fun q => ⟨hkeys q, ?_⟩⟩
  rintro ⟨a, ha, rfl⟩
  exact Database.isSome_relation?_of_mem_atoms ha

end Context

end Deduction
