import Deduction.Answer
import Deduction.Proofs.Semantics

/-!
# The meaning of answers

The columns of an answer are those of the named variables of the query, and what they hold is ground
wherever the body gives values to the variable (`columns_of_answer`). A variable to which the body
gives none, which only a negated literal may mention and only if the settings allow it, stands for
itself.

The answer to a query that computes nothing has a tuple for every valuation under which the query
holds (`mem_tuples_of_answer`). Two such queries about two databases have the same answer if they
ask for the same variables and hold under the same valuations (`answers_same`).
-/

namespace Deduction

open Matching

/-- The variables of a query where they occur, from left to right. -/
def Query.occurrences (q : Query) : List String :=
  q.body.flatMap fun l => Term.occurrencesAll l.terms

/-- What an answer shows for a variable: its value, if the body determines one. -/
def shown (body : List Literal) (v : Valuation) (x : String) : Term :=
  if x ∈ positiveVars body then v x else .var x

section Answers

variable {ctx ctx' : Context} {q q' : Query} {db db' : Database} {a a' : Answer}

/-- A query that has an answer is safe. -/
theorem isSafe_of_answer (h : ctx.answer q db = .ok a) : q.toRule.IsSafe ctx := by
  rw [Context.answer] at h
  obtain ⟨_, hsafe, -⟩ := bind_eq_ok_iff.1 h
  rw [Rule.IsSafe]
  cases hcheck : q.toRule.checkSafety ctx.registry ctx.settings.safety with
  | error e =>
    rw [hcheck] at hsafe
    cases hsafe
  | ok _ => rfl

theorem exists_solutions_of_answer (h : ctx.answer q db = .ok a) :
    ∃ found, solutions ctx db (reading db (ctx.scheduleRule q.toRule).body) .empty = .ok found ∧
      a = .ofSolutions q.vars found := by
  rw [Context.answer] at h
  obtain ⟨_, -, h⟩ := bind_eq_ok_iff.1 h
  obtain ⟨found, hfound, ha⟩ := bind_eq_ok_iff.1 h
  rw [satisfy_eq] at hfound
  exact ⟨found, hfound, (Except.ok.inj ha).symm⟩

theorem vars_of_answer (h : ctx.answer q db = .ok a) :
    a.vars = q.vars ∧ a.relation.arity = q.vars.length := by
  obtain ⟨found, -, rfl⟩ := exists_solutions_of_answer h
  exact ⟨rfl, rfl⟩

theorem Query.mem_vars_iff {x : String} :
    x ∈ q.vars ↔ ∃ l ∈ q.body, x ∈ l.vars ∧ isAnonymous x = false := by
  simp only [Query.vars, List.mem_eraseDups, List.mem_flatMap, Literal.namedVars, List.mem_filter,
    Bool.not_eq_true']

/-- Variables that are asked for are not wildcards. -/
theorem ne_wildcard_of_mem_vars {x : String} (hx : x ∈ q.vars) : x ≠ wildcard := by
  obtain ⟨l, -, -, hnamed⟩ := Query.mem_vars_iff.1 hx
  exact Term.ne_wildcard_of_named hnamed

/-- A query asks for the first occurrences of its named variables. -/
theorem vars_eq (q : Query) : q.vars = q.occurrences.eraseDups.filter (!isAnonymous ·) := by
  have hvars : (q.body.flatMap Literal.namedVars).eraseDups =
      (q.body.flatMap fun l =>
        (Term.occurrencesAll l.terms).filter (!isAnonymous ·)).eraseDups := by
    refine eraseDups_flatMap fun l _ => ?_
    rw [Literal.namedVars, Literal.vars, Term.varsAll, ← eraseDups_filter, eraseDups_eraseDups]
  rw [Query.vars, hvars, ← eraseDups_filter, Query.occurrences, List.filter_flatMap]

theorem mem_occurrences_iff {x : String} : x ∈ q.occurrences ↔ ∃ l ∈ q.body, x ∈ l.vars := by
  simp [Query.occurrences, Literal.vars, Term.varsAll]

/-- A solution has ground values for the variables to which the body gives values, and none for the
others. -/
theorem apply_var_of_run {s : Substitution} {x : String} (hdb : db.IsGround) (hx : x ≠ wildcard)
    (h : Run ctx db (reading db (ctx.scheduleRule q.toRule).body) .empty s) :
    if x ∈ q.body.flatMap Schedule.gives then (s.apply (.var x)).isGround = true
    else s.apply (.var x) = .var x := by
  have hcovers := covers_of_run_scheduleRule hdb h
  obtain ⟨v, hv, hground⟩ := Substitution.exists_fits hcovers.grounded
  rw [hcovers.apply_eq hv, Term.replace, Valuation.known]
  by_cases hmem : x ∈ q.body.flatMap Schedule.gives
  · rw [if_pos hmem, if_pos ⟨hmem, hx⟩]
    exact hground x
  · rw [if_neg hmem, if_neg fun h => hmem h.1]

/-- Unless the settings allow variables that only negated literals mention, the body gives values to
all variables that a query with an answer asks for. -/
theorem mem_gives_of_answer {x : String} (h : ctx.answer q db = .ok a)
    (hallow : ctx.settings.safety.allowUnlimitedInNegation = false) (hx : x ∈ q.occurrences)
    (hnamed : isAnonymous x = false) : x ∈ q.body.flatMap Schedule.gives := by
  obtain ⟨l, hl, hx⟩ := mem_occurrences_iff.1 hx
  cases l with
  | positive b => exact List.mem_flatMap.2 ⟨_, hl, hx⟩
  | builtin c => exact List.mem_flatMap.2 ⟨_, hl, hx⟩
  | negative b =>
    have hcheck := (Rule.checkSafety_eq_ok_iff_forall.1 (isSafe_of_answer h)).2 _ hl
    have hlimited := (hcheck.resolve_left (by simp [hallow]) x hx).resolve_left (by simp [hnamed])
    exact mem_gives_of_mem_limitedVars hlimited

/-- The columns of an answer are those of the named variables of the query, in the order of their
first occurrences. What a column holds is ground if the variable occurs in a positive literal or in
a call of a builtin. Any other variable has no value and stands for itself; unless the settings
allow variables that only negated literals mention, there are none, and all tuples are ground. -/
theorem columns_of_answer (hdb : db.IsGround) (h : ctx.answer q db = .ok a) :
    (∀ x, x ∈ a.vars ↔ x ∈ q.occurrences ∧ isAnonymous x = false) ∧
    a.vars.Pairwise (fun x y => q.occurrences.idxOf x < q.occurrences.idxOf y) ∧
    a.relation.arity = a.vars.length ∧
    (∀ t ∈ a.relation.tuples, List.Forall₂ (fun x u =>
      if x ∈ q.body.flatMap Schedule.gives then u.isGround = true else u = .var x) a.vars t) ∧
    (ctx.settings.safety.allowUnlimitedInNegation = false →
      ∀ t ∈ a.relation.tuples, Term.areGround t = true) := by
  obtain ⟨found, hfound, rfl⟩ := exists_solutions_of_answer h
  have hvars : ∀ x, x ∈ q.vars ↔ x ∈ q.occurrences ∧ isAnonymous x = false := fun x => by
    simp [vars_eq]
  -- A tuple shows what some solution has for the variables.
  have htuples : ∀ t ∈ (Answer.ofSolutions q.vars found).relation.tuples,
      ∃ s, Run ctx db (reading db (ctx.scheduleRule q.toRule).body) .empty s ∧
        t = q.vars.map fun x => s.apply (.var x) := by
    intro t ht
    obtain ⟨s, hs, rfl⟩ := List.mem_map.1 (List.mem_eraseDups.1 ht)
    exact ⟨s, (mem_solutions hfound).1 hs, rfl⟩
  refine ⟨hvars, ?_, rfl, fun t ht => ?_, fun hallow t ht => ?_⟩
  · rw [Answer.ofSolutions, vars_eq]
    exact (pairwise_eraseDups q.occurrences).filter _
  · obtain ⟨s, hrun, rfl⟩ := htuples t ht
    refine List.forall₂_map_right_iff.2 (List.forall₂_same.2 fun x hx => ?_)
    exact apply_var_of_run hdb (ne_wildcard_of_mem_vars hx) hrun
  · obtain ⟨s, hrun, rfl⟩ := htuples t ht
    rw [Term.areGround_iff, List.forall_mem_map]
    intro x hx
    obtain ⟨hmem, hnamed⟩ := (hvars x).1 hx
    have hvalue := apply_var_of_run hdb (ne_wildcard_of_mem_vars hx) hrun
    rwa [if_pos (mem_gives_of_answer h hallow hmem hnamed)] at hvalue

/-- The edges of a chain. -/
def chainFacts : Database :=
  let edge (m n : Int64) : Atom := ⟨.plain "edge" 2, [.const (.integer m), .const (.integer n)]⟩
  ((Database.ofFacts [edge 1 2, edge 2 3]).toOption).getD .empty

/-- Which edges lead to a node that no edge leaves, and the double of that node. -/
def lastEdgeQuery : Query :=
  ⟨[.positive ⟨.plain "edge" 2, [.var "X", .var "Y"]⟩,
    .negative ⟨.plain "edge" 2, [.var "Y", .var "_"]⟩,
    .builtin ⟨"MULTIPLY", [.var "Y", .const (.integer 2), .var "Z"]⟩]⟩

theorem columns_of_answer_lastEdge :
    ∃ a, Context.answer ⟨.standard, {}⟩ lastEdgeQuery chainFacts = .ok a ∧
      a.vars.Pairwise
        (fun x y => lastEdgeQuery.occurrences.idxOf x < lastEdgeQuery.occurrences.idxOf y) ∧
      a.relation.arity = a.vars.length ∧ ∀ t ∈ a.relation.tuples, Term.areGround t = true := by
  obtain ⟨a, ha⟩ := Option.isSome_iff_exists.1 (by decide +kernel :
    (Context.answer ⟨.standard, {}⟩ lastEdgeQuery chainFacts).toOption.isSome = true)
  have h := toOption_eq_some_iff.1 ha
  obtain ⟨-, horder, harity, -, hground⟩ :=
    columns_of_answer (Database.isGround_iff.2 (by decide +kernel)) h
  exact ⟨a, h, horder, harity, hground rfl⟩

/-- Where the settings allow it, a query may ask for a variable that only a negated literal
mentions. The answer is that no edge leaves the last node, for which there is no other end to
show. -/
theorem answer_not_areGround :
    ∃ a, Context.answer ⟨.standard, { safety := { allowUnlimitedInNegation := true } }⟩
        ⟨[.positive ⟨.plain "edge" 2, [.var "X", .var "Y"]⟩,
          .negative ⟨.plain "edge" 2, [.var "Y", .var "Z"]⟩]⟩ chainFacts = .ok a ∧
      chainFacts.IsGround ∧ ∃ t ∈ a.relation.tuples, Term.areGround t = false := by
  have htuples : (Context.answer ⟨.standard, { safety := { allowUnlimitedInNegation := true } }⟩
      ⟨[.positive ⟨.plain "edge" 2, [.var "X", .var "Y"]⟩,
        .negative ⟨.plain "edge" 2, [.var "Y", .var "Z"]⟩]⟩ chainFacts).toOption.map
        (fun a => a.relation.tuples) =
      some [[.const (.integer 2), .const (.integer 3), .var "Z"]] := by
    decide +kernel
  obtain ⟨a, ha, htuples⟩ := Option.map_eq_some_iff.1 htuples
  refine ⟨a, toOption_eq_some_iff.1 ha, Database.isGround_iff.2 (by decide +kernel), ?_⟩
  exact ⟨_, htuples ▸ List.mem_singleton_self _, rfl⟩

/-- The tuples of an answer are what it shows for the valuations under which the query holds. -/
theorem mem_tuples_of_answer (hdb : db.IsGround) (hcompares : q.toRule.OnlyCompares ctx.registry)
    (hnamed : q.toRule.WellNamed) (h : ctx.answer q db = .ok a) {t : Tuple} :
    t ∈ a.relation.tuples ↔
      ∃ v : Valuation, (∀ x, (v x).isGround = true) ∧
        BodyHolds ctx.registry q.body db.atoms db.atoms v ∧ t = q.vars.map (shown q.body v) := by
  obtain ⟨-, hcovers, hholds⟩ :=
    run_schedule_spec ⟨isSafe_of_answer h, hcompares, hnamed⟩ hdb
  obtain ⟨found, hfound, rfl⟩ := exists_solutions_of_answer h
  -- A run has values for the variables of positive literals, and only for them.
  have hshown : ∀ s v, Run ctx db (reading db (ctx.scheduleRule q.toRule).body) .empty s →
      s.Fits v → (q.vars.map fun x => s.apply (.var x)) = q.vars.map (shown q.body v) := by
    intro s v hs hv
    refine List.map_congr_left fun x hx => ?_
    rw [(hcovers s hs).apply_eq hv, Term.replace, Valuation.known, shown]
    exact if_congr (and_iff_left (ne_wildcard_of_mem_vars hx)) rfl rfl
  simp only [Answer.ofSolutions, List.mem_eraseDups, List.mem_map]
  constructor
  -- The values of a solution extend to a ground valuation.
  · rintro ⟨s, hs, rfl⟩
    have hrun := (mem_solutions hfound).1 hs
    obtain ⟨v, hv, hground⟩ := Substitution.exists_fits (hcovers s hrun).grounded
    exact ⟨v, hground, (hholds v hground).1 ⟨s, hrun, hv⟩, hshown s v hrun hv⟩
  · rintro ⟨v, hground, hbody, rfl⟩
    obtain ⟨s, hrun, hv⟩ := (hholds v hground).2 hbody
    exact ⟨s, (mem_solutions hfound).2 hrun, hshown s v hrun hv⟩

/-- Queries that ask for the same variables and hold under the same valuations have the same
answer. -/
theorem answers_same (hdb : db.IsGround) (hdb' : db'.IsGround)
    (hcompares : q.toRule.OnlyCompares ctx.registry) (hnamed : q.toRule.WellNamed)
    (hcompares' : q'.toRule.OnlyCompares ctx'.registry) (hnamed' : q'.toRule.WellNamed)
    (hvars : q.vars = q'.vars) (hpositive : ∀ x, x ∈ positiveVars q.body ↔ x ∈ positiveVars q'.body)
    (hholds : ∀ v : Valuation, (∀ x, (v x).isGround = true) →
      (BodyHolds ctx.registry q.body db.atoms db.atoms v ↔
        BodyHolds ctx'.registry q'.body db'.atoms db'.atoms v))
    (h : ctx.answer q db = .ok a) (h' : ctx'.answer q' db' = .ok a') :
    a.vars = a'.vars ∧ a.relation.same a'.relation = true := by
  obtain ⟨hv, harity⟩ := vars_of_answer h
  obtain ⟨hv', harity'⟩ := vars_of_answer h'
  have hshown : ∀ v x, shown q.body v x = shown q'.body v x := fun v x => by
    simp only [shown, hpositive]
  refine ⟨by rw [hv, hv', hvars], Relation.same_iff.2 ⟨by rw [harity, harity', hvars], fun t => ?_⟩⟩
  rw [mem_tuples_of_answer hdb hcompares hnamed h, mem_tuples_of_answer hdb' hcompares' hnamed' h']
  refine exists_congr fun v => and_congr_right fun hground => and_congr (hholds v hground) ?_
  rw [hvars, funext (hshown v)]

end Answers

end Deduction
