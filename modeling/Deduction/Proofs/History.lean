import Deduction.Proofs.Convergence
import Deduction.Proofs.KnowledgeBase
import Deduction.Proofs.Magic.Program
import Deduction.Proofs.Model

/-!
# Queries one after the other

A knowledge base keeps two things from the queries that it has answered: all facts that its rules
derive, once a query needed them, and a mark whether the last query was answered from its magic
program. What a query does with these, whatever number of rounds it takes, is described by a
relation (`KnowledgeBase.Step`), which has one case for each way through `KnowledgeBase.execute`.

The results of a step do not depend on what is kept, so that a query has the same result whatever
queries came before (`history_irrelevant`). The mark is set by all queries but those whose magic
program fails, which leave it as it is (`mark_of_history`); after one of these it describes an
earlier query (`isOptimised_history_ne`).
-/

namespace Deduction

/-- Results of evaluations that have come to an end agree, however many rounds they were given. -/
theorem Context.evaluate_unique {ctx : Context} {rules : List Rule} {facts : Database} {m n : Nat}
    {x y : Except EvaluationError (Database × Statistics)}
    (hx : ctx.evaluate m rules facts = some x) (hy : ctx.evaluate n rules facts = some y) :
    x = y := by
  have hx' := Context.evaluate_mono hx (Nat.le_max_left m n)
  rw [Context.evaluate_mono hy (Nat.le_max_right m n)] at hx'
  exact (Option.some.inj hx').symm

namespace KnowledgeBase

/-! ## What queries do -/

/-- A query is answered with its magic program. -/
def IsRewritten (ctx : Context) (rules : List Rule) (q : Query) (program : MagicProgram) : Prop :=
  ctx.settings.magicSets = true ∧ MagicProgram.ofQuery rules q = .ok program

/-- What a knowledge base about some facts and rules does with a query: its result, and the
knowledge base that it leaves. -/
inductive Step (ctx : Context) (facts : Database) (rules : List Rule) (kb : KnowledgeBase)
    (q : Query) : Except EvaluationError Answer → KnowledgeBase → Prop where
  /-- The magic program derives the facts from which the query is answered. -/
  | magic {program : MagicProgram} {rounds : Nat} {db : Database} {statistics : Statistics}
    (hq : IsRewritten ctx rules q program)
    (heval : ctx.evaluate rounds (program.evaluated facts.hasTuples) facts =
      some (.ok (db, statistics))) :
    Step ctx facts rules kb q (ctx.answer program.query db) { kb with isOptimised := true }
  /-- The magic program fails. -/
  | magicError {program : MagicProgram} {rounds : Nat} {e : EvaluationError}
    (hq : IsRewritten ctx rules q program)
    (heval : ctx.evaluate rounds (program.evaluated facts.hasTuples) facts = some (.error e)) :
    Step ctx facts rules kb q (.error e) kb
  /-- The rules derive the facts from which the query is answered, now or before. -/
  | direct {rounds : Nat} {db : Database} {statistics : Statistics}
    (hq : ∀ program, ¬IsRewritten ctx rules q program)
    (heval : ctx.evaluate rounds rules facts = some (.ok (db, statistics))) :
    Step ctx facts rules kb q (ctx.answer q db)
      { kb with model := some db, isOptimised := false }
  /-- The rules fail. -/
  | directError {rounds : Nat} {e : EvaluationError}
    (hq : ∀ program, ¬IsRewritten ctx rules q program)
    (heval : ctx.evaluate rounds rules facts = some (.error e)) :
    Step ctx facts rules kb q (.error e) { kb with isOptimised := false }

/-- A query comes to a result, and leaves a knowledge base. -/
def Executes (kb : KnowledgeBase) (q : Query) (r : Except EvaluationError Answer)
    (kb' : KnowledgeBase) : Prop :=
  ∃ rounds, kb.execute rounds q = (some r, kb')

/-- A query comes to a result. -/
def Returns (kb : KnowledgeBase) (q : Query) (r : Except EvaluationError Answer) : Prop :=
  ∃ kb', kb.Executes q r kb'

/-- Queries have been put to a knowledge base one after the other, each with its result, and have
left a knowledge base. -/
inductive History (kb : KnowledgeBase) :
    List (Query × Except EvaluationError Answer) → KnowledgeBase → Prop where
  /-- No query has been put to it. -/
  | nil : History kb [] kb
  /-- After some queries, another one is put to what they have left. -/
  | concat {steps : List (Query × Except EvaluationError Answer)} {kb' kb'' : KnowledgeBase}
    {q : Query} {r : Except EvaluationError Answer} (h : History kb steps kb')
    (hq : kb'.Executes q r kb'') : History kb (steps ++ [(q, r)]) kb''

variable {ctx : Context} {facts : Database} {rules : List Rule}
  {kb kb' other other' : KnowledgeBase} {q : Query} {r r' : Except EvaluationError Answer}
  {rounds : Nat}

theorem not_isRewritten_iff : (∀ program, ¬IsRewritten ctx rules q program) ↔
    ctx.settings.magicSets = false ∨ ∃ e, MagicProgram.ofQuery rules q = .error e := by
  cases hon : ctx.settings.magicSets <;> cases hq : MagicProgram.ofQuery rules q <;>
    simp [IsRewritten, hon, hq]

theorem IsRewritten.unique {program program' : MagicProgram} (h : IsRewritten ctx rules q program)
    (h' : IsRewritten ctx rules q program') : program = program' :=
  Except.ok.inj (h.2.symm.trans h'.2)

theorem execute_of_isRewritten {program : MagicProgram}
    (hq : IsRewritten kb.context kb.rules q program) (rounds : Nat) :
    kb.execute rounds q = kb.executeMagic rounds program := by
  simp [execute, hq.1, hq.2]

theorem execute_of_not_isRewritten (hq : ∀ program, ¬IsRewritten kb.context kb.rules q program)
    (rounds : Nat) : kb.execute rounds q = kb.executeDirectly rounds q := by
  rcases not_isRewritten_iff.1 hq with hoff | ⟨e, he⟩
  · simp [execute, hoff]
  · simp [execute, he]

/-- Putting a query to a knowledge base is a step. -/
theorem IsAbout.step_of_executes (h : kb.IsAbout ctx facts rules) (hq : kb.Executes q r kb') :
    Step ctx facts rules kb q r kb' := by
  obtain ⟨rfl, rfl, rfl, -, -, hmodel⟩ := h
  obtain ⟨rounds, hq⟩ := hq
  by_cases hrewritten : ∃ program, IsRewritten kb.context kb.rules q program
  · obtain ⟨program, hrewritten⟩ := hrewritten
    rw [execute_of_isRewritten hrewritten] at hq
    simp only [KnowledgeBase.executeMagic] at hq
    split at hq
    · next heval =>
      obtain ⟨rfl, rfl⟩ : _ ∧ _ := by simpa using hq
      exact .magic hrewritten heval
    · next heval =>
      obtain ⟨rfl, rfl⟩ : _ ∧ _ := by simpa using hq
      exact .magicError hrewritten heval
    · simp at hq
  · have hdirect := not_exists.1 hrewritten
    rw [execute_of_not_isRewritten hdirect] at hq
    obtain ⟨facts, rules, ctx, model, mark⟩ := kb
    simp only [KnowledgeBase.executeDirectly, KnowledgeBase.fullModel] at hq
    cases model with
    | some db =>
      -- The facts have been computed before.
      obtain ⟨rfl, rfl⟩ : _ ∧ _ := by simpa using hq
      obtain ⟨n, statistics, heval⟩ := hmodel db rfl
      exact .direct hdirect heval
    | none =>
      cases heval : ctx.evaluate rounds rules facts with
      | none => simp [heval] at hq
      | some x =>
        cases x with
        | error e =>
          obtain ⟨rfl, rfl⟩ : _ ∧ _ := by simpa [heval] using hq
          exact .directError hdirect heval
        | ok result =>
          obtain ⟨rfl, rfl⟩ : _ ∧ _ := by simpa [heval] using hq
          exact .direct hdirect heval

/-- What is kept, or else computed, are the facts that the rules derive. -/
theorem IsAbout.fullModel_of_ok {m : Nat} {db : Database} {statistics : Statistics}
    (h : kb.IsAbout ctx facts rules)
    (heval : ctx.evaluate rounds rules facts = some (.ok (db, statistics))) (hm : rounds ≤ m) :
    kb.fullModel m = (some (.ok db), { kb with model := some db }) := by
  obtain ⟨rfl, rfl, rfl, -, -, hmodel⟩ := h
  obtain ⟨facts, rules, ctx, model, mark⟩ := kb
  cases model with
  | some db' =>
    obtain ⟨n, statistics', heval'⟩ := hmodel db' rfl
    obtain ⟨rfl, -⟩ : db' = db ∧ _ := by simpa using Context.evaluate_unique heval' heval
    rfl
  | none => simp [KnowledgeBase.fullModel, Context.evaluate_mono heval hm]

/-- Rules that fail have not derived anything that could be kept. -/
theorem IsAbout.fullModel_of_error {m : Nat} {e : EvaluationError} (h : kb.IsAbout ctx facts rules)
    (heval : ctx.evaluate rounds rules facts = some (.error e)) (hm : rounds ≤ m) :
    kb.fullModel m = (some (.error e), kb) := by
  obtain ⟨rfl, rfl, rfl, -, -, hmodel⟩ := h
  obtain ⟨facts, rules, ctx, model, mark⟩ := kb
  cases model with
  | some db' =>
    obtain ⟨n, statistics', heval'⟩ := hmodel db' rfl
    cases Context.evaluate_unique heval' heval
  | none => simp [KnowledgeBase.fullModel, Context.evaluate_mono heval hm]

/-- A step is taken by putting the query to the knowledge base, if there are enough rounds. -/
theorem IsAbout.execute_of_step (h : kb.IsAbout ctx facts rules)
    (hstep : Step ctx facts rules kb q r kb') :
    ∃ n, ∀ m, n ≤ m → kb.execute m q = (some r, kb') := by
  have hunmarked := h.unmark
  obtain ⟨rfl, rfl, rfl, -, -, -⟩ := h
  cases hstep with
  | @magic program rounds db statistics hq heval =>
    refine ⟨rounds, fun m hm => ?_⟩
    have heval' := Context.evaluate_mono heval hm
    rw [MagicProgram.evaluated] at heval'
    simp [execute_of_isRewritten hq, KnowledgeBase.executeMagic, heval']
  | @magicError program rounds e hq heval =>
    refine ⟨rounds, fun m hm => ?_⟩
    have heval' := Context.evaluate_mono heval hm
    rw [MagicProgram.evaluated] at heval'
    simp [execute_of_isRewritten hq, KnowledgeBase.executeMagic, heval']
  | @direct rounds db statistics hq heval =>
    refine ⟨rounds, fun m hm => ?_⟩
    rw [execute_of_not_isRewritten hq, KnowledgeBase.executeDirectly,
      hunmarked.fullModel_of_ok heval hm]
  | @directError rounds e hq heval =>
    refine ⟨rounds, fun m hm => ?_⟩
    rw [execute_of_not_isRewritten hq, KnowledgeBase.executeDirectly,
      hunmarked.fullModel_of_error heval hm]

theorem IsAbout.executes_iff (h : kb.IsAbout ctx facts rules) :
    kb.Executes q r kb' ↔ Step ctx facts rules kb q r kb' := by
  refine ⟨h.step_of_executes, fun hstep => ?_⟩
  obtain ⟨n, hn⟩ := h.execute_of_step hstep
  exact ⟨n, hn n (Nat.le_refl n)⟩

/-! ## Results do not depend on what is kept -/

/-- The rules from which a query is answered, and the query in terms of their predicates. -/
inductive IsAnsweredFrom (ctx : Context) (facts : Database) (rules : List Rule) (q : Query) :
    List Rule → Query → Prop where
  /-- A query that has a magic program is answered from its rules. -/
  | magic {program : MagicProgram} (hq : IsRewritten ctx rules q program) :
    IsAnsweredFrom ctx facts rules q (program.evaluated facts.hasTuples) program.query
  /-- Any other query is answered from the rules of the knowledge base. -/
  | direct (hq : ∀ program, ¬IsRewritten ctx rules q program) :
    IsAnsweredFrom ctx facts rules q rules q

theorem IsAnsweredFrom.unique {used used' : List Rule} {asked asked' : Query}
    (h : IsAnsweredFrom ctx facts rules q used asked)
    (h' : IsAnsweredFrom ctx facts rules q used' asked') : used = used' ∧ asked = asked' := by
  cases h with
  | magic hq =>
    cases h' with
    | magic hq' =>
      obtain rfl := hq.unique hq'
      exact ⟨rfl, rfl⟩
    | direct hq' => exact absurd hq (hq' _)
  | direct hq =>
    cases h' with
    | magic hq' => exact absurd hq' (hq _)
    | direct hq' => exact ⟨rfl, rfl⟩

/-- The result of a step is determined by the evaluation of the rules from which the query is
answered. -/
theorem Step.exists_evaluate (h : Step ctx facts rules kb q r kb') :
    ∃ used asked n x, IsAnsweredFrom ctx facts rules q used asked ∧
      ctx.evaluate n used facts = some x ∧
      r = x.bind fun result => ctx.answer asked result.1 := by
  cases h with
  | magic hq heval | magicError hq heval => exact ⟨_, _, _, _, .magic hq, heval, rfl⟩
  | direct hq heval | directError hq heval => exact ⟨_, _, _, _, .direct hq, heval, rfl⟩

/-- A query has one result, for all knowledge bases about the same facts and rules. -/
theorem Step.result_unique (h : Step ctx facts rules kb q r kb')
    (h' : Step ctx facts rules other q r' other') : r = r' := by
  obtain ⟨used, asked, n, x, hfrom, hx, rfl⟩ := h.exists_evaluate
  obtain ⟨used', asked', n', x', hfrom', hx', rfl⟩ := h'.exists_evaluate
  obtain ⟨rfl, rfl⟩ := hfrom.unique hfrom'
  obtain rfl := Context.evaluate_unique hx hx'
  rfl

/-- A query that has a result for one knowledge base has it for all that are about the same. -/
theorem Step.exists_step (h : Step ctx facts rules kb q r kb') (other : KnowledgeBase) :
    ∃ other', Step ctx facts rules other q r other' := by
  cases h with
  | magic hq heval => exact ⟨_, .magic hq heval⟩
  | magicError hq heval => exact ⟨_, .magicError hq heval⟩
  | direct hq heval => exact ⟨_, .direct hq heval⟩
  | directError hq heval => exact ⟨_, .directError hq heval⟩

theorem IsAbout.returns_unique (h : kb.IsAbout ctx facts rules) (hr : kb.Returns q r)
    (hr' : kb.Returns q r') : r = r' := by
  obtain ⟨after, hr⟩ := hr
  obtain ⟨after', hr'⟩ := hr'
  exact (h.executes_iff.1 hr).result_unique (h.executes_iff.1 hr')

theorem IsAbout.returns_of_returns (h : kb.IsAbout ctx facts rules)
    (h' : other.IsAbout ctx facts rules) (hr : kb.Returns q r) : other.Returns q r := by
  obtain ⟨after, hr⟩ := hr
  obtain ⟨after', hstep⟩ := (h.executes_iff.1 hr).exists_step other
  exact ⟨after', h'.executes_iff.2 hstep⟩

theorem IsAbout.of_executes (h : kb.IsAbout ctx facts rules) (hq : kb.Executes q r kb') :
    kb'.IsAbout ctx facts rules := by
  obtain ⟨rounds, hq⟩ := hq
  have habout := h.execute rounds q
  rwa [hq] at habout

theorem IsAbout.of_history {steps : List (Query × Except EvaluationError Answer)}
    (h : kb.IsAbout ctx facts rules) (hhistory : kb.History steps kb') :
    kb'.IsAbout ctx facts rules := by
  induction hhistory with
  | nil => exact h
  | concat _ hq ih => exact ih.of_executes hq

/-! ## Lists of queries -/

/-- Queries are answered one by one, up to the first one that fails. -/
inductive OneByOne (returns : Query → Except EvaluationError Answer → Prop) :
    List Query → Except EvaluationError (List Answer) → Prop where
  /-- No query is left. -/
  | nil : OneByOne returns [] (.ok [])
  /-- The first query has an answer. -/
  | answer {q : Query} {a : Answer} {qs : List Query} {x : Except EvaluationError (List Answer)}
    (hq : returns q (.ok a)) (hqs : OneByOne returns qs x) :
    OneByOne returns (q :: qs) (x.map (a :: ·))
  /-- The first query fails. -/
  | error {q : Query} {e : EvaluationError} {qs : List Query} (hq : returns q (.error e)) :
    OneByOne returns (q :: qs) (.error e)

theorem IsAbout.oneByOne_of_executeAll {qs : List Query} {x : Except EvaluationError (List Answer)}
    (h : kb.IsAbout ctx facts rules) (h' : other.IsAbout ctx facts rules)
    (hx : kb.executeAll rounds qs = some x) : OneByOne other.Returns qs x := by
  induction qs generalizing kb x with
  | nil =>
    obtain rfl := Option.some.inj hx
    exact .nil
  | cons q qs ih =>
    rw [executeAll] at hx
    split at hx
    · next a after hq =>
      obtain ⟨x, hqs, rfl⟩ := Option.map_eq_some_iff.1 hx
      have hstep : kb.Executes q (.ok a) after := ⟨rounds, hq⟩
      exact .answer (h.returns_of_returns h' ⟨after, hstep⟩) (ih (h.of_executes hstep) hqs)
    · next e after hq =>
      obtain rfl := Option.some.inj hx
      exact .error (h.returns_of_returns h' ⟨after, rounds, hq⟩)
    · cases hx

theorem IsAbout.executeAll_of_oneByOne {qs : List Query} {x : Except EvaluationError (List Answer)}
    (h : kb.IsAbout ctx facts rules) (h' : other.IsAbout ctx facts rules)
    (hx : OneByOne other.Returns qs x) : ∃ n, ∀ m, n ≤ m → kb.executeAll m qs = some x := by
  induction hx generalizing kb with
  | nil => exact ⟨0, fun _ _ => rfl⟩
  | @answer q a qs x hq _ ih =>
    obtain ⟨after, hq⟩ := h'.returns_of_returns h hq
    obtain ⟨n, hn⟩ := h.execute_of_step (h.executes_iff.1 hq)
    obtain ⟨n', hn'⟩ := ih (h.of_executes hq)
    refine ⟨max n n', fun m hm => ?_⟩
    simp [executeAll, hn m (by omega), hn' m (by omega)]
  | @error q e qs hq =>
    obtain ⟨after, hq⟩ := h'.returns_of_returns h hq
    obtain ⟨n, hn⟩ := h.execute_of_step (h.executes_iff.1 hq)
    refine ⟨n, fun m hm => ?_⟩
    rw [executeAll, hn m hm]

/-- Queries do not depend on those that came before. Whatever queries a knowledge base has been
asked, its facts, rules and context are those that it was made of, what it keeps is nothing or what
evaluating the rules over the facts yields, and each of the queries has had the result that it has
for the new knowledge base, which is the only one. It is the result that any further query has, too.
So a program answers its queries one by one as a new knowledge base does, up to the first that
fails. -/
theorem history_irrelevant (hkb : create ctx facts rules = .ok kb) :
    (∀ steps kb', kb.History steps kb' →
      kb'.facts = facts ∧ kb'.rules = rules ∧ kb'.context = ctx ∧
      (kb'.model = none ∨ ∃ db rounds statistics, kb'.model = some db ∧
        ctx.evaluate rounds rules facts = some (.ok (db, statistics))) ∧
      (∀ step ∈ steps, kb.Returns step.1 step.2) ∧
      ∀ q r, kb'.Returns q r ↔ kb.Returns q r) ∧
    (∀ q r r', kb.Returns q r → kb.Returns q r' → r = r') ∧
    ∀ queries x, (∃ rounds, Program.evaluate ⟨facts, rules, queries⟩ ctx rounds = some x) ↔
      OneByOne kb.Returns queries x := by
  have habout := isAbout_of_create hkb
  refine ⟨fun steps kb' hhistory => ?_, fun q r r' => habout.returns_unique, fun queries x => ?_⟩
  · have habout' := habout.of_history hhistory
    refine ⟨habout'.facts_eq, habout'.rules_eq, habout'.context_eq, ?_, ?_, fun q r =>
      ⟨habout'.returns_of_returns habout, habout.returns_of_returns habout'⟩⟩
    · cases hmodel : kb'.model with
      | none => exact .inl rfl
      | some db =>
        obtain ⟨n, statistics, heval⟩ := habout'.model db hmodel
        exact .inr ⟨db, n, statistics, rfl, heval⟩
    · clear habout'
      induction hhistory with
      | nil => nofun
      | @concat steps before after q r hhistory hq ih =>
        refine List.forall_mem_append.2 ⟨ih, List.forall_mem_singleton.2 ?_⟩
        exact (habout.of_history hhistory).returns_of_returns habout ⟨after, hq⟩
  · simp only [Program.evaluate, hkb]
    constructor
    · rintro ⟨rounds, hx⟩
      exact habout.oneByOne_of_executeAll habout hx
    · intro hx
      obtain ⟨n, hn⟩ := habout.executeAll_of_oneByOne habout hx
      exact ⟨n, hn n (Nat.le_refl n)⟩

/-- To which nodes there is a path from a node. -/
def pathsFrom (n : Int64) : Query :=
  ⟨[.positive ⟨.plain "path" 2, [.const (.integer n), .var "Y"]⟩]⟩

/-- Between which nodes there is a path. -/
def allPaths : Query :=
  ⟨[.positive ⟨.plain "path" 2, [.var "X", .var "Y"]⟩]⟩

theorem history_irrelevant_paths :
    ∃ kb r r' kb', create ⟨.standard, {}⟩ edgeFacts pathRules = .ok kb ∧
      kb.History [(pathsFrom 1, .ok r), (allPaths, .ok r')] kb' ∧
      kb.Returns (pathsFrom 1) (.ok r) ∧ kb.Returns allPaths (.ok r') ∧
      (∀ q x, kb'.Returns q x ↔ kb.Returns q x) ∧
      ∃ rounds, Program.evaluate ⟨edgeFacts, pathRules, [pathsFrom 1, allPaths]⟩ ⟨.standard, {}⟩
        rounds = some (.ok [r, r']) := by
  have hkb : create ⟨.standard, {}⟩ edgeFacts pathRules =
      .ok ⟨edgeFacts, pathRules, ⟨.standard, {}⟩, none, false⟩ :=
    create_eq_of_isSome (by decide +kernel)
  obtain ⟨hhistories, -, hprogram⟩ := history_irrelevant hkb
  -- The first query is answered with its magic program, the second one has none.
  generalize hnew : KnowledgeBase.mk edgeFacts pathRules ⟨.standard, {}⟩ none false = kb at *
  obtain ⟨r, hr⟩ : ∃ r, (kb.execute 9 (pathsFrom 1)).1 = some (.ok r) := by
    subst hnew
    exact Outcome.exists_ok (by decide +kernel)
  obtain ⟨r', hr'⟩ : ∃ r, ((kb.execute 9 (pathsFrom 1)).2.execute 9 allPaths).1 = some (.ok r) := by
    subst hnew
    exact Outcome.exists_ok (by decide +kernel)
  have hhistory : kb.History [(pathsFrom 1, .ok r), (allPaths, .ok r')]
      ((kb.execute 9 (pathsFrom 1)).2.execute 9 allPaths).2 :=
    .concat (.concat .nil ⟨9, Prod.ext hr rfl⟩) ⟨9, Prod.ext hr' rfl⟩
  obtain ⟨-, -, -, -, hreturns, hafter⟩ := hhistories _ _ hhistory
  have hfirst : kb.Returns (pathsFrom 1) (.ok r) := hreturns _ (.head _)
  have hsecond : kb.Returns allPaths (.ok r') := hreturns _ (.tail _ (.head _))
  exact ⟨kb, r, r', _, hkb, hhistory, hfirst, hsecond, hafter,
    (hprogram _ _).2 (.answer hfirst (.answer hsecond .nil))⟩

/-! ## The mark of the last query -/

/-- Evaluating the magic program with which a query is answered has this outcome. -/
def RunsMagic (ctx : Context) (facts : Database) (rules : List Rule) (q : Query)
    (x : Except EvaluationError (Database × Statistics)) : Prop :=
  ∃ program rounds, IsRewritten ctx rules q program ∧
    ctx.evaluate rounds (program.evaluated facts.hasTuples) facts = some x

theorem RunsMagic.unique {x y : Except EvaluationError (Database × Statistics)}
    (hx : RunsMagic ctx facts rules q x) (hy : RunsMagic ctx facts rules q y) : x = y := by
  obtain ⟨program, m, hq, hx⟩ := hx
  obtain ⟨program', n, hq', hy⟩ := hy
  obtain rfl := hq.unique hq'
  exact Context.evaluate_unique hx hy

/-- A query marks the knowledge base if its magic program has a result, leaves the mark if it fails,
and takes the mark away if there is none. -/
theorem Step.isOptimised_iff (h : Step ctx facts rules kb q r kb') :
    kb'.isOptimised = true ↔ (∃ result, RunsMagic ctx facts rules q (.ok result)) ∨
      (∃ e, RunsMagic ctx facts rules q (.error e)) ∧ kb.isOptimised = true := by
  cases h with
  | @magic program rounds db statistics hq heval =>
    exact iff_of_true rfl (.inl ⟨_, program, rounds, hq, heval⟩)
  | @magicError program rounds e hq heval =>
    have hruns : RunsMagic ctx facts rules q (.error e) := ⟨program, rounds, hq, heval⟩
    rw [or_iff_right, and_iff_right ⟨e, hruns⟩]
    rintro ⟨result, hok⟩
    cases hruns.unique hok
  | direct hq | directError hq =>
    refine iff_of_false Bool.false_ne_true ?_
    rintro (⟨_, program, _, hq', -⟩ | ⟨⟨_, program, _, hq', -⟩, -⟩) <;> exact hq program hq'

/-- A knowledge base is marked if the magic program of one of its queries had a result, and those of
all later ones failed. -/
theorem IsAbout.isOptimised_of_history {steps : List (Query × Except EvaluationError Answer)}
    (h : kb.IsAbout ctx facts rules) (hnew : kb.isOptimised = false)
    (hhistory : kb.History steps kb') :
    kb'.isOptimised = true ↔ ∃ before step after, steps = before ++ step :: after ∧
      (∃ result, RunsMagic ctx facts rules step.1 (.ok result)) ∧
      ∀ later ∈ after, ∃ e, RunsMagic ctx facts rules later.1 (.error e) := by
  induction hhistory with
  | nil => simp [hnew]
  | @concat steps last next q r hhistory hq ih =>
    rw [((h.of_history hhistory).step_of_executes hq).isOptimised_iff, ih]
    constructor
    · rintro (hok | ⟨hfails, before, step, after, rfl, hok, hafter⟩)
      · exact ⟨steps, (q, r), [], rfl, hok, nofun⟩
      · refine ⟨before, step, after ++ [(q, r)], by simp, hok, ?_⟩
        exact List.forall_mem_append.2 ⟨hafter, List.forall_mem_singleton.2 hfails⟩
    · rintro ⟨before, step, after, hsteps, hok, hafter⟩
      -- The query that set the mark is the last one, or the last one comes after it.
      rcases List.eq_nil_or_concat after with rfl | ⟨after, later, rfl⟩
      · obtain ⟨-, hlast⟩ := List.append_inj' hsteps rfl
        obtain rfl := (List.cons.inj hlast).1
        exact .inl hok
      · rw [List.concat_eq_append] at hsteps hafter
        rw [← List.cons_append, ← List.append_assoc] at hsteps
        obtain ⟨rfl, hlast⟩ := List.append_inj' hsteps rfl
        obtain rfl := (List.cons.inj hlast).1
        rw [List.forall_mem_append, List.forall_mem_singleton] at hafter
        exact .inr ⟨hafter.2, before, step, after, rfl, hok, hafter.1⟩

/-- The last query of a history is put to what the queries before it have left. -/
theorem History.exists_executes {steps : List (Query × Except EvaluationError Answer)}
    (h : kb.History (steps ++ [(q, r)]) kb') : ∃ before, kb.History steps before ∧
      before.Executes q r kb' := by
  generalize hall : steps ++ [(q, r)] = all at h
  cases h with
  | nil => simp at hall
  | @concat steps' before _ q' r' hbefore hq =>
    obtain ⟨rfl, hlast⟩ := List.append_inj' hall rfl
    obtain ⟨rfl, rfl⟩ := Prod.mk.inj (List.cons.inj hlast).1
    exact ⟨before, hbefore, hq⟩

/-- What the mark says. After any queries, a knowledge base is marked if the magic program of one of
them had a result and those of all later ones failed. So it is marked, after a query whose magic
program does not fail, if this query was answered from its magic program, whatever queries came
before; after a query whose magic program fails, the mark is about an earlier query. -/
theorem mark_of_history (hkb : create ctx facts rules = .ok kb) :
    (∀ steps kb', kb.History steps kb' →
      (kb'.isOptimised = true ↔ ∃ before step after, steps = before ++ step :: after ∧
        (∃ result, RunsMagic ctx facts rules step.1 (.ok result)) ∧
        ∀ later ∈ after, ∃ e, RunsMagic ctx facts rules later.1 (.error e))) ∧
    ∀ steps q r kb', kb.History (steps ++ [(q, r)]) kb' →
      (∀ e, ¬RunsMagic ctx facts rules q (.error e)) →
      (kb'.isOptimised = true ↔ ∃ result, RunsMagic ctx facts rules q (.ok result)) := by
  have habout := isAbout_of_create hkb
  obtain ⟨-, -, rfl⟩ := create_eq_ok_iff.1 hkb
  refine ⟨fun steps kb' hhistory => habout.isOptimised_of_history rfl hhistory, ?_⟩
  intro steps q r kb' hhistory hfails
  obtain ⟨before, hbefore, hq⟩ := hhistory.exists_executes
  rw [((habout.of_history hbefore).step_of_executes hq).isOptimised_iff, or_iff_left]
  rintro ⟨⟨e, he⟩, -⟩
  exact hfails e he

/-- Evaluations derive at most three tuples. -/
def tightContext : Context :=
  ⟨.standard, { maxTuples := some 3 }⟩

/-- More than three facts are to be derived for the paths from one of the nodes. -/
theorem exists_runsMagic_error :
    ∃ e, RunsMagic tightContext edgeFacts pathRules (pathsFrom 1) (.error e) := by
  obtain ⟨program, hq, heval⟩ : ∃ program,
      MagicProgram.ofQuery pathRules (pathsFrom 1) = .ok program ∧
      ((tightContext.evaluate 9 (program.evaluated edgeFacts.hasTuples) edgeFacts).map
        fun r => r.toOption.isNone) = some true := ⟨_, rfl, by decide +kernel⟩
  obtain ⟨e, heval⟩ := Outcome.exists_error heval
  exact ⟨e, program, 9, ⟨rfl, hq⟩, heval⟩

/-- There are three for the paths from another one. -/
theorem exists_runsMagic_ok :
    ∃ result, RunsMagic tightContext edgeFacts pathRules (pathsFrom 3) (.ok result) := by
  obtain ⟨program, hq, heval⟩ : ∃ program,
      MagicProgram.ofQuery pathRules (pathsFrom 3) = .ok program ∧
      ((tightContext.evaluate 9 (program.evaluated edgeFacts.hasTuples) edgeFacts).bind
        Except.toOption).isSome = true := ⟨_, rfl, by decide +kernel⟩
  obtain ⟨result, heval⟩ := Outcome.exists_ok heval
  exact ⟨result, program, 9, ⟨rfl, hq⟩, heval⟩

theorem mark_of_history_paths :
    ∃ kb r r' kb', create tightContext edgeFacts pathRules = .ok kb ∧
      kb.History [(pathsFrom 1, r), (pathsFrom 3, r')] kb' ∧
      (∀ e, ¬RunsMagic tightContext edgeFacts pathRules (pathsFrom 3) (.error e)) ∧
      kb'.isOptimised = true := by
  have hkb := create_eq_of_isSome
    (show (create tightContext edgeFacts pathRules).toOption.isSome = true by decide +kernel)
  have habout := isAbout_of_create hkb
  obtain ⟨e, program, n, hq, heval⟩ := exists_runsMagic_error
  obtain ⟨result, program', n', hq', heval'⟩ := exists_runsMagic_ok
  have hsucceeds : ∀ e, ¬RunsMagic tightContext edgeFacts pathRules (pathsFrom 3) (.error e) := by
    rintro e he
    cases he.unique ⟨program', n', hq', heval'⟩
  have hfirst := habout.executes_iff.2 (.magicError hq heval)
  have hsecond := habout.executes_iff.2 (.magic hq' heval')
  have hhistory := (History.nil.concat hfirst).concat hsecond
  exact ⟨_, _, _, _, hkb, hhistory, hsucceeds, ((mark_of_history hkb).2 [_] _ _ _ hhistory
    hsucceeds).2 ⟨result, program', n', hq', heval'⟩⟩

/-- The mark after a query whose magic program fails depends on the queries before. -/
theorem isOptimised_history_ne :
    ∃ kb r r' kb₁ kb₂, create tightContext edgeFacts pathRules = .ok kb ∧
      kb.History [(pathsFrom 1, r)] kb₁ ∧ kb.History [(pathsFrom 3, r'), (pathsFrom 1, r)] kb₂ ∧
      kb₁.isOptimised = false ∧ kb₂.isOptimised = true := by
  have hkb := create_eq_of_isSome
    (show (create tightContext edgeFacts pathRules).toOption.isSome = true by decide +kernel)
  have habout := isAbout_of_create hkb
  obtain ⟨e, program, n, hq, heval⟩ := exists_runsMagic_error
  obtain ⟨result, program', n', hq', heval'⟩ := exists_runsMagic_ok
  have hfails := habout.executes_iff.2 (.magicError hq heval)
  have hsucceeds := habout.executes_iff.2 (.magic hq' heval')
  have hstale := (habout.of_executes hsucceeds).executes_iff.2 (.magicError hq heval)
  exact ⟨_, _, _, _, _, hkb, History.nil.concat hfails,
    (History.nil.concat hsucceeds).concat hstale, rfl, rfl⟩

end KnowledgeBase

end Deduction
