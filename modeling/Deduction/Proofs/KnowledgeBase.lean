import Deduction.KnowledgeBase
import Deduction.Proofs.Semantics

/-!
# Knowledge bases that answer queries

Answering a query leaves the facts, the rules and the context of a knowledge base alone, and what it
keeps beyond them is what evaluation yields (`KnowledgeBase.IsAbout`). Therefore a knowledge base
that has answered any queries answers the next one from an evaluation of its rules
(`IsAbout.of_direct`), or of those of its magic program (`of_magic`).
-/

namespace Deduction

namespace KnowledgeBase

/-- The knowledge bases that are made of facts and rules, and those that are left when queries have
been answered. -/
inductive Reached (ctx : Context) (facts : Database) (rules : List Rule) :
    KnowledgeBase → Prop where
  /-- A knowledge base is made. -/
  | create {kb : KnowledgeBase} (h : KnowledgeBase.create ctx facts rules = .ok kb) :
    Reached ctx facts rules kb
  /-- A query is put to a knowledge base. -/
  | execute {kb : KnowledgeBase} (h : Reached ctx facts rules kb) (rounds : Nat) (q : Query) :
    Reached ctx facts rules (kb.execute rounds q).2

/-- A knowledge base has the given facts and rules, which have been checked, and keeps nothing but
what their evaluation yields. -/
structure IsAbout (kb : KnowledgeBase) (ctx : Context) (facts : Database) (rules : List Rule) :
    Prop where
  /-- The facts are the given ones. -/
  facts_eq : kb.facts = facts
  /-- The rules are the given ones. -/
  rules_eq : kb.rules = rules
  /-- The context is the given one. -/
  context_eq : kb.context = ctx
  /-- The rules are safe. -/
  safe : ∀ r ∈ rules, r.IsSafe ctx
  /-- The rules have strata. -/
  strata : ∃ s, stratify rules = .ok s
  /-- All facts that are kept are those that the rules derive. -/
  model : ∀ db, kb.model = some db →
    ∃ rounds statistics, ctx.evaluate rounds rules facts = some (.ok (db, statistics))

variable {kb : KnowledgeBase} {ctx : Context} {facts : Database} {rules : List Rule} {rounds : Nat}
  {q : Query} {a : Answer} {program : MagicProgram}

/-- A knowledge base is made of safe rules with strata. -/
theorem create_eq_ok_iff :
    create ctx facts rules = .ok kb ↔ (∀ r ∈ rules, r.IsSafe ctx) ∧ (∃ s, stratify rules = .ok s) ∧
      kb = ⟨facts, rules, ctx, none, false⟩ := by
  rw [create, ← Rule.checkSafety_eq_ok_iff]
  cases checkSafety rules ctx.registry ctx.settings.safety with
  | error e => simp [bind, Except.bind, Except.mapError]
  | ok _ =>
    cases stratify rules with
    | error e => simp [bind, Except.bind, Except.mapError]
    | ok s => simp [bind, Except.bind, Except.mapError, pure, Except.pure, eq_comm]

theorem create_eq_of_isSome (h : (create ctx facts rules).toOption.isSome = true) :
    create ctx facts rules = .ok ⟨facts, rules, ctx, none, false⟩ := by
  cases hcreate : create ctx facts rules with
  | error e =>
    rw [hcreate] at h
    cases h
  | ok kb => rw [(create_eq_ok_iff.1 hcreate).2.2]

theorem isAbout_of_create (h : create ctx facts rules = .ok kb) : kb.IsAbout ctx facts rules := by
  obtain ⟨hsafe, hstrata, rfl⟩ := create_eq_ok_iff.1 h
  exact ⟨rfl, rfl, rfl, hsafe, hstrata, nofun⟩

/-- The mark of the last query is no part of what a knowledge base is about. -/
theorem IsAbout.unmark (h : kb.IsAbout ctx facts rules) :
    { kb with isOptimised := false }.IsAbout ctx facts rules :=
  ⟨h.facts_eq, h.rules_eq, h.context_eq, h.safe, h.strata, h.model⟩

/-- The facts that the rules derive are computed by evaluation, now or before. -/
theorem IsAbout.fullModel (h : kb.IsAbout ctx facts rules) (rounds : Nat) :
    (kb.fullModel rounds).2.IsAbout ctx facts rules ∧
    ∀ db, (kb.fullModel rounds).1 = some (.ok db) →
      ∃ rounds statistics, ctx.evaluate rounds rules facts = some (.ok (db, statistics)) := by
  obtain ⟨rfl, rfl, rfl, hsafe, hstrata, hmodel⟩ := h
  unfold KnowledgeBase.fullModel
  split
  · next db hdb =>
    -- The facts have been computed before.
    refine ⟨⟨rfl, rfl, rfl, hsafe, hstrata, hmodel⟩, fun db' hdb' => hmodel db' ?_⟩
    rw [hdb, Except.ok.inj (Option.some.inj hdb')]
  -- They are computed now, and kept if there are any.
  · split
    · next db statistics heval =>
      refine ⟨⟨rfl, rfl, rfl, hsafe, hstrata, fun db' hdb' => ?_⟩, fun db' hdb' => ?_⟩
      · obtain rfl := Option.some.inj hdb'
        exact ⟨rounds, statistics, heval⟩
      · obtain rfl := Except.ok.inj (Option.some.inj hdb')
        exact ⟨rounds, statistics, heval⟩
    · exact ⟨⟨rfl, rfl, rfl, hsafe, hstrata, hmodel⟩, nofun⟩
    · exact ⟨⟨rfl, rfl, rfl, hsafe, hstrata, hmodel⟩, nofun⟩

theorem IsAbout.executeDirectly (h : kb.IsAbout ctx facts rules) (rounds : Nat) (q : Query) :
    (kb.executeDirectly rounds q).2.IsAbout ctx facts rules ∧
    ∀ a, (kb.executeDirectly rounds q).1 = some (.ok a) →
      ∃ rounds db statistics, ctx.evaluate rounds rules facts = some (.ok (db, statistics)) ∧
        ctx.answer q db = .ok a := by
  obtain ⟨habout, hdb⟩ := h.unmark.fullModel rounds
  unfold KnowledgeBase.executeDirectly
  split
  · next db kb' hfull =>
    rw [hfull] at habout hdb
    refine ⟨habout, fun a ha => ?_⟩
    obtain ⟨rounds, statistics, heval⟩ := hdb db rfl
    rw [habout.context_eq] at ha
    exact ⟨rounds, db, statistics, heval, Option.some.inj ha⟩
  · next hfull =>
    rw [hfull] at habout
    exact ⟨habout, nofun⟩
  · next hfull =>
    rw [hfull] at habout
    exact ⟨habout, nofun⟩

theorem IsAbout.executeMagic (h : kb.IsAbout ctx facts rules) (rounds : Nat)
    (program : MagicProgram) :
    (kb.executeMagic rounds program).2.IsAbout ctx facts rules ∧
    ∀ a, (kb.executeMagic rounds program).1 = some (.ok a) →
      ∃ db statistics, ctx.evaluate rounds
          (program.rules ++ bridgeRules program.rules facts.hasTuples) facts =
            some (.ok (db, statistics)) ∧
        ctx.answer program.query db = .ok a := by
  obtain ⟨rfl, rfl, rfl, hsafe, hstrata, hmodel⟩ := h
  simp only [KnowledgeBase.executeMagic]
  split
  · next db statistics heval =>
    refine ⟨⟨rfl, rfl, rfl, hsafe, hstrata, hmodel⟩, fun a ha => ?_⟩
    exact ⟨db, statistics, heval, Option.some.inj ha⟩
  · exact ⟨⟨rfl, rfl, rfl, hsafe, hstrata, hmodel⟩, nofun⟩
  · exact ⟨⟨rfl, rfl, rfl, hsafe, hstrata, hmodel⟩, nofun⟩

/-- Answering a query keeps what a knowledge base is about. -/
theorem IsAbout.execute (h : kb.IsAbout ctx facts rules) (rounds : Nat) (q : Query) :
    (kb.execute rounds q).2.IsAbout ctx facts rules := by
  unfold KnowledgeBase.execute
  split
  · split
    · exact (h.executeMagic rounds _).1
    · exact (h.executeDirectly rounds q).1
  · exact (h.executeDirectly rounds q).1

/-- Whatever queries have been answered, a knowledge base is about its facts and rules. -/
theorem Reached.isAbout (h : Reached ctx facts rules kb) : kb.IsAbout ctx facts rules := by
  induction h with
  | create h => exact isAbout_of_create h
  | execute _ rounds q ih => exact ih.execute rounds q

/-- Without magic sets, or for a query without a magic program, the answer comes from all facts that
the rules derive. -/
theorem IsAbout.of_direct (h : kb.IsAbout ctx facts rules)
    (hdirect : ctx.settings.magicSets = false ∨ ∃ e, MagicProgram.ofQuery rules q = .error e)
    (ha : (kb.execute rounds q).1 = some (.ok a)) :
    ∃ rounds db statistics, ctx.evaluate rounds rules facts = some (.ok (db, statistics)) ∧
      ctx.answer q db = .ok a := by
  refine (h.executeDirectly rounds q).2 a ?_
  rw [KnowledgeBase.execute, h.context_eq, h.rules_eq] at ha
  -- Without a magic program the query itself is answered.
  rcases hdirect with hoff | ⟨e, he⟩
  · rwa [hoff] at ha
  · rw [he] at ha
    split at ha <;> exact ha

/-- With magic sets, the answer comes from the facts that the magic program of the query derives. -/
theorem IsAbout.of_magic (h : kb.IsAbout ctx facts rules) (hon : ctx.settings.magicSets = true)
    (hprogram : MagicProgram.ofQuery rules q = .ok program)
    (ha : (kb.execute rounds q).1 = some (.ok a)) :
    ∃ db statistics, ctx.evaluate rounds
        (program.rules ++ bridgeRules program.rules facts.hasTuples) facts =
          some (.ok (db, statistics)) ∧
      ctx.answer program.query db = .ok a := by
  refine (h.executeMagic rounds program).2 a ?_
  rwa [KnowledgeBase.execute, h.context_eq, h.rules_eq, hon, if_pos rfl, hprogram] at ha

end KnowledgeBase

end Deduction
