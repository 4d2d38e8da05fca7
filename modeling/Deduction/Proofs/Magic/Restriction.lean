import Deduction.Proofs.Guards
import Deduction.Proofs.Invariants
import Deduction.Proofs.Magic.Soundness

/-!
# What magic programs derive has been called

A rule for an adorned predicate waits for the guard of its head, whose arguments are those of the
head at the bound positions of the pattern (`Rule.IsGuarded`). However the body is matched and
whatever its builtins compute, the values that the guard finds are the ones that the derived fact
has at these positions (`Rule.IsGuarded.called`). So no round of an evaluation derives anything that
has not been called before (`preserves_answersCalls`).

All rules of a magic program are guarded, so that it derives no more for a pattern than has been
asked for (`MagicProgram.answers_called`).
-/

namespace Deduction

open Matching Context

/-! ## Guarded rules -/

/-- All facts for a pattern have arguments at its bound positions with which it has been called. -/
def AnswersCalls (X : Set Atom) : Prop :=
  ∀ a ∈ X, ∀ p, a.predicate = .adorned p → p.Called X a.terms

theorem CallPattern.Called.mono {p : CallPattern} {X Y : Set Atom} {t : Tuple} (h : p.Called X t)
    (hsub : X ⊆ Y) : p.Called Y t :=
  h.imp_right fun hcall => hsub hcall

/-- The rule waits for the calls that its head answers. -/
def Rule.IsGuarded (r : Rule) : Prop :=
  ∀ l ∈ r.head.guard, l ∈ r.body

section Rules

variable {ctx : Context} {db facts : Database} {r : Rule} {rules : List Rule} {a b : Atom}
  {p : CallPattern} {rounds : Nat}

/-- Rules for other than adorned predicates have no guard to wait for. -/
theorem Rule.isGuarded_of_head (h : ∀ p, r.head.predicate ≠ .adorned p) : r.IsGuarded := by
  intro l hl
  obtain ⟨p, hp, -⟩ := Atom.mem_guard_iff.1 hl
  exact absurd hp (h p)

/-- A literal that has no other terms than the head of its rule has been found with the values that
the derived fact has. -/
theorem exists_replace_of_derives (hdb : db.IsGround) (ha : a.isGround = true)
    (h : (ctx.scheduleRule r).Derives ctx db (reading db (ctx.scheduleRule r).body) a)
    (hb : .positive b ∈ r.body) (hterms : ∀ t ∈ b.terms, t ∈ r.head.terms) :
    ∃ v : Valuation, r.head.replace v = a ∧ b.replace v ∈ db.atoms := by
  obtain ⟨s, hrun, rfl⟩ := h
  have hcovers := covers_of_run_scheduleRule hdb hrun
  obtain ⟨v, hv, -⟩ := Substitution.exists_fits hcovers.grounded
  obtain ⟨known, hturn⟩ : ∃ known, (known, _) ∈ ctx.turns r := exists_mem_turns hb
  obtain ⟨t, ht, hmatches⟩ := (run_empty_iff_holdsAt hdb).1 ⟨s, hrun, hv⟩ _ hturn
  -- The head has become ground, so that it has no wildcards.
  have hwild : ∀ t ∈ b.terms, wildcard ∉ t.occurrences := fun t ht hmem =>
    ((hcovers.isSome_iff _).1 (hcovers.isSome_of_isGround ha t (hterms t ht) _ hmem)).2 rfl
  refine ⟨v, (hcovers.applyAtom_eq hv ha).symm, ?_⟩
  rwa [Atom.replace, (Term.matchesAll_iff_eq_map hwild).1 hmatches]

/-- What a guarded rule derives for a pattern has been called. -/
theorem Rule.IsGuarded.called (hr : r.IsGuarded) (hdb : db.IsGround) (ha : a.isGround = true)
    (h : (ctx.scheduleRule r).Derives ctx db (reading db (ctx.scheduleRule r).body) a)
    (hp : a.predicate = .adorned p) : p.Called db.atoms a.terms := by
  by_cases hfree : p.isAllFree = true
  · exact .inl hfree
  · have hguard : .positive ⟨.magic p, p.select r.head.terms⟩ ∈ r.body :=
      hr _ (Atom.mem_guard_iff.2 ⟨p, h.predicate_eq.symm.trans hp, by simpa using hfree, rfl⟩)
    obtain ⟨v, rfl, hcall⟩ := exists_replace_of_derives hdb ha h hguard
      fun t ht => CallPattern.mem_of_mem_select ht
    rw [Atom.replace, ← CallPattern.select_map] at hcall
    exact .inr hcall

/-! ## Evaluations -/

/-- Rounds of guarded rules derive only what has been called. -/
theorem preserves_answersCalls (hrules : ∀ r ∈ rules, r.IsGuarded) :
    ctx.Preserves (rules.map ctx.scheduleRule) fun db =>
      db.IsGround ∧ AnswersCalls db.atoms := by
  rintro db new ⟨hdb, hcalled⟩ hnew
  refine ⟨preserves_isGround db new hdb hnew, fun a ha p hp => ?_⟩
  rw [Database.atoms_merge] at ha ⊢
  have hbefore : p.Called db.atoms a.terms := by
    rcases ha with ha | ha
    · exact hcalled a ha p hp
    · obtain ⟨hground, x, hx, hderives⟩ := hnew a ha
      obtain ⟨r, hr, rfl⟩ := List.mem_map.1 hx
      exact (hrules r hr).called hdb hground hderives hp
  exact hbefore.mono Set.subset_union_left

/-- An evaluation of guarded rules derives only what has been called. -/
theorem answersCalls_of_evaluate {result : Database × Statistics}
    (hrules : ∀ r ∈ rules, r.IsGuarded) (hfacts : facts.IsGround)
    (hcalled : AnswersCalls facts.atoms)
    (h : ctx.evaluate rounds rules facts = some (.ok result)) : AnswersCalls result.1.atoms := by
  obtain ⟨-, s, hs, hall⟩ := evaluate_eq_ok_iff.1 h
  have hstep : ∀ layer ∈ s.layers, ctx.Preserves (layer.map ctx.scheduleRule) fun db =>
      db.IsGround ∧ AnswersCalls db.atoms := fun layer hlayer =>
    preserves_answersCalls fun r hr => hrules r (mem_rules_of_mem_layer hs hlayer hr)
  exact (saturateAll_invariant hstep (fun layer hlayer => isLayer_of_stratify hs hlayer)
    ⟨hfacts, hcalled⟩ hall).2

end Rules

/-! ## Magic programs -/

section Program

variable {rules : List Rule} {q : Query} {program : MagicProgram} {c : Rule}
  {hasFacts : Predicate → Bool}

theorem AdornedRule.isGuarded_guarded (r : AdornedRule) : r.guarded.IsGuarded :=
  fun _ hl => List.mem_append_left _ hl

theorem CallPattern.isGuarded_bridge (p : CallPattern) : p.bridge.IsGuarded :=
  fun _ hl => List.mem_append_left _ hl

theorem Rule.isGuarded_of_isCall (h : c.head.predicate.isCall = true) : c.IsGuarded := by
  refine isGuarded_of_head fun p hp => ?_
  rw [hp] at h
  cases h

/-- The rules that are evaluated to answer a query wait for the calls that their heads answer. -/
theorem isGuarded_of_mem_evaluated (hplain : ∀ r ∈ rules, r.head.predicate.isPlain = true)
    (h : MagicProgram.ofQuery rules q = .ok program) (hc : c ∈ program.evaluated hasFacts) :
    c.IsGuarded := by
  rcases cases_of_mem_evaluated h hc with
    hc | ⟨p, -, r, -, -, i, rfl | ⟨k, -, labels, hc⟩⟩ | ⟨hmem, -⟩ | ⟨p, rfl⟩
  · obtain ⟨k, -, target, p, terms, hcall, rfl⟩ := AdornedProgram.mem_seedRules.1 hc
    obtain ⟨-, -, rfl⟩ := Literal.magicCall?_eq_some_iff.1 hcall
    exact Rule.isGuarded_of_isCall rfl
  · exact AdornedRule.isGuarded_guarded _
  · exact Rule.isGuarded_of_isCall (AdornedRule.isCall_head_of_mem_callRules hc)
  · refine Rule.isGuarded_of_head fun p hp => ?_
    have hhead := hplain c hmem
    rw [hp] at hhead
    cases hhead
  · exact p.isGuarded_bridge

end Program

/-- Magic programs derive only what has been called. The rules of a program are for plain predicates,
and so are its facts, which are ground. If the rules of the magic program of a query, and those that
carry stored facts over, are evaluated over the facts, then every fact for a pattern with a bound
position has values at its bound positions with which the pattern has been called, whatever the
rules compute and whatever terms their heads have. -/
theorem MagicProgram.answers_called {ctx : Context} {rounds : Nat} {rules : List Rule} {q : Query}
    {program : MagicProgram} {facts : Database} {result : Database × Statistics}
    (hplain : ∀ r ∈ rules, r.head.predicate.isPlain = true) (hfacts : facts.IsGround)
    (hstored : facts.IsPlain) (h : MagicProgram.ofQuery rules q = .ok program)
    (heval : ctx.evaluate rounds (program.evaluated facts.hasTuples) facts = some (.ok result)) :
    ∀ p : CallPattern, p.isAllFree = false →
      ∀ t ∈ (result.1.relation (.adorned p)).tuples,
        p.select t ∈ (result.1.relation (.magic p)).tuples := by
  intro p hfree t ht
  have hstart : AnswersCalls facts.atoms := fun a ha p hp => by
    have hhead := hstored a ha
    rw [hp] at hhead
    cases hhead
  have hcalled := answersCalls_of_evaluate
    (fun c hc => isGuarded_of_mem_evaluated hplain h hc) hfacts hstart heval
  rcases hcalled ⟨.adorned p, t⟩ (Database.mem_atoms.2 ht) p rfl with hall | hcall
  · simp [hfree] at hall
  · exact Database.mem_atoms.1 hcall

/-- The depth of terms, from the one that is stored. There is no end to what the rule derives. -/
def depthRules : List Rule :=
  let depth (t u : Term) : Atom := ⟨.plain "depth" 2, [t, u]⟩
  [⟨depth (.app "s" [.var "X"]) (.var "N"), [.positive (depth (.var "X") (.var "M")),
    .builtin ⟨"ADD", [.var "M", .const (.integer 1), .var "N"]⟩]⟩]

/-- The depth of the innermost term. -/
def depthFacts : Database :=
  let depth (t u : Term) : Atom := ⟨.plain "depth" 2, [t, u]⟩
  ((Database.ofFacts [depth (.const (.symbol "z")) (.const (.integer 0))]).toOption).getD .empty

/-- How deep one term is. -/
def depthQuery : Query :=
  ⟨[.positive ⟨.plain "depth" 2, [.app "s" [.app "s" [.const (.symbol "z")]], .var "N"]⟩]⟩

/-- The depth of a term is called for, and so are those of the terms in it, down to the stored
one. -/
theorem MagicProgram.answers_called_depth :
    let ctx : Context := ⟨.standard, {}⟩
    let p : CallPattern := ⟨"depth", [.bound, .free]⟩
    let z : Term := .const (.symbol "z")
    let answers : List Tuple := [[.app "s" [.app "s" [z]], .const (.integer 2)],
      [.app "s" [z], .const (.integer 1)], [z, .const (.integer 0)]]
    (∀ r ∈ depthRules, r.head.predicate.isPlain = true) ∧ depthFacts.IsGround ∧
    depthFacts.IsPlain ∧ p.isAllFree = false ∧
    ∃ program result, MagicProgram.ofQuery depthRules depthQuery = .ok program ∧
      ctx.evaluate 9 (program.evaluated depthFacts.hasTuples) depthFacts = some (.ok result) ∧
      (∀ t ∈ answers, t ∈ (result.1.relation (.adorned p)).tuples) ∧
      ∀ t ∈ answers, p.select t ∈ (result.1.relation (.magic p)).tuples := by
  intro ctx p z answers
  have hplain : ∀ r ∈ depthRules, r.head.predicate.isPlain = true := by decide +kernel
  have hfacts : depthFacts.IsGround := Database.isGround_iff.2 (by decide +kernel)
  have hstored : depthFacts.IsPlain := Database.isPlain_of_entries (by decide +kernel)
  obtain ⟨program, h, hderived⟩ : ∃ program,
      MagicProgram.ofQuery depthRules depthQuery = .ok program ∧
      ((ctx.evaluate 9 (program.evaluated depthFacts.hasTuples) depthFacts).bind
        Except.toOption).any (fun result =>
          ∀ t ∈ answers, t ∈ (result.1.relation (.adorned p)).tuples) = true :=
    ⟨_, rfl, by decide +kernel⟩
  obtain ⟨result, heval, hanswers⟩ := Outcome.exists_ok_and hderived
  have hcalled := answers_called hplain hfacts hstored h heval p rfl
  exact ⟨hplain, hfacts, hstored, rfl, program, result, h, heval, hanswers,
    fun t ht => hcalled t (hanswers t ht)⟩

end Deduction
