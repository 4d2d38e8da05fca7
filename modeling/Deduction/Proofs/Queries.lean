import Deduction.Proofs.Answers

/-!
# Queries and what they mean

A query of positive literals, negated literals and comparisons asks for the valuations under which
it is true: every positive literal matches a stored tuple, no negated literal does, and every
comparison holds (`Query.IsTrue`). If the variables of its negated literals have to be limited,
this meaning needs no word on which variables these are (`Query.isTrue_iff_bodyHolds`).

* `Query.satisfy_spec`: matching the scheduled body succeeds, with what the valuations under which
  the query is true give to the variables of its positive literals.
* `Query.answer_spec`: the answer holds what they give to the variables that are asked for.
* `Query.answers_isTrue` says both, and that the order of the literals does not matter.
-/

namespace Deduction

open Matching

/-! ## The meaning of a query -/

/-- A literal is true under a valuation: a stored tuple matches it, no stored tuple matches the atom
that it negates, or the values that it compares stand in the order that it tests. -/
def Literal.IsTrue (registry : Registry) (facts : Set Atom) (v : Valuation) : Literal → Prop
  | .positive a => ∃ t, ⟨a.predicate, t⟩ ∈ facts ∧ Term.MatchesAll v a.terms t
  | .negative a => ¬∃ t, ⟨a.predicate, t⟩ ∈ facts ∧ Term.MatchesAll v a.terms t
  | .builtin c => ∃ name op t u, registry.get? c.name = some (.comparison name op) ∧
      c.terms = [t, u] ∧ op.holds (Comparison.order? (t.replace v) (u.replace v)) = true

/-- All literals of a query are true under a valuation. -/
def Query.IsTrue (registry : Registry) (facts : Set Atom) (v : Valuation) (q : Query) : Prop :=
  ∀ l ∈ q.body, l.IsTrue registry facts v

/-- The context in which the variables of negated literals have to be limited. -/
def Context.strict (ctx : Context) : Context :=
  { ctx with settings := { ctx.settings with
      safety := { ctx.settings.safety with allowUnlimitedInNegation := false } } }

variable {ctx : Context} {q q' : Query} {db : Database} {registry : Registry} {facts : Set Atom}
  {v w : Valuation} {x : String}

/-- Whether a literal is true depends on the values of its variables, where those of the wildcard
count in comparisons only. -/
theorem Literal.isTrue_congr {l : Literal}
    (h : ∀ x ∈ l.vars, l.isBuiltin = true ∨ x ≠ wildcard → v x = w x) :
    l.IsTrue registry facts v ↔ l.IsTrue registry facts w := by
  have hterms : ∀ t ∈ l.terms, ∀ x ∈ t.occurrences, l.isBuiltin = true ∨ x ≠ wildcard →
      v x = w x := fun t ht x hx => h x (Term.mem_varsAll.2 ⟨t, ht, hx⟩)
  cases l with
  | positive a =>
    exact exists_congr fun t => and_congr_right fun _ =>
      Term.matchesAll_congr fun t ht x hx hne => hterms t ht x hx (.inr hne)
  | negative a =>
    exact not_congr <| exists_congr fun t => and_congr_right fun _ =>
      Term.matchesAll_congr fun t ht x hx hne => hterms t ht x hx (.inr hne)
  | builtin c =>
    refine exists₄_congr fun name op t u => and_congr_right fun _ => and_congr_right fun htu => ?_
    have hreplace : ∀ t ∈ c.terms, t.replace v = t.replace w := fun t ht =>
      Term.replace_congr fun x hx => hterms t ht x hx (.inl rfl)
    rw [hreplace t (by simp [htu]), hreplace u (by simp [htu])]

namespace Query

theorem isTrue_of_perm (h : q'.body.Perm q.body) :
    q'.IsTrue registry facts v ↔ q.IsTrue registry facts v := by
  simp only [IsTrue, h.mem_iff]

theorem nodup_vars (q : Query) : q.vars.Nodup :=
  Distinct.nodup_eraseDups _

/-- Queries with the same literals ask for the same variables. -/
theorem vars_perm (h : q'.body.Perm q.body) : q'.vars.Perm q.vars :=
  (List.perm_ext_iff_of_nodup q'.nodup_vars q.nodup_vars).2 fun x => by
    simp only [mem_vars_iff, h.mem_iff]

/-- Whether a query is true depends on the values of the variables that are asked for. -/
theorem isTrue_congr (hnamed : q.toRule.WellNamed) (h : ∀ x ∈ q.vars, v x = w x) :
    q.IsTrue registry facts v ↔ q.IsTrue registry facts w := by
  refine forall₂_congr fun l hl => Literal.isTrue_congr fun x hx hcounts => ?_
  refine h x (mem_vars_iff.2 ⟨l, hl, hx, ?_⟩)
  rcases hcounts with hbuiltin | hne
  · exact hnamed.builtin l hl hbuiltin x hx
  · exact Bool.eq_false_iff.2 fun hanonymous => hne (hnamed.body l hl x hx hanonymous)

/-- The order of the literals makes no difference to what is asked of them. -/
theorem isRelational_of_perm (h : q'.body.Perm q.body) (hq : q.toRule.IsRelational ctx) :
    q'.toRule.IsRelational ctx where
  safe := Rule.checkSafety_of_body hq.safe rfl
    (fun _ => (mem_positiveVars_congr fun _ => h.mem_iff).2) (fun _ => h.mem_iff.2)
    fun _ hl => .inr (h.mem_iff.1 hl)
  compares c hc := hq.compares c (h.mem_iff.1 hc)
  named :=
    { body := fun l hl => hq.named.body l (h.mem_iff.1 hl)
      builtin := fun l hl => hq.named.builtin l (h.mem_iff.1 hl)
      head := hq.named.head }

section Strict

variable (hq : q.toRule.IsRelational ctx.strict)

include hq

/-- Comparisons limit nothing, so that a query which passes the strict check passes any other. -/
theorem isRelational_of_strict : q.toRule.IsRelational ctx := by
  refine ⟨Rule.checkSafety_eq_ok_iff_forall.2 ⟨nofun, fun l hl => ?_⟩, hq.compares, hq.named⟩
  have hcompares : q.toRule.OnlyCompares ctx.registry := hq.compares
  have hlimited : ∀ x, x ∈ limitedVars ctx.registry ctx.strict.settings.safety q.body ↔
      x ∈ limitedVars ctx.registry ctx.settings.safety q.body := fun x =>
    hcompares.mem_limitedVars.trans hcompares.mem_limitedVars.symm
  have hpasses := (Rule.checkSafety_eq_ok_iff_forall.1 hq.safe).2 l hl
  cases l with
  | positive a => trivial
  | negative a =>
    exact .inr fun x hx => (hpasses.resolve_left nofun x hx).imp_right (hlimited x).1
  | builtin c => exact hpasses.imp_right fun hvars x hx => (hvars x hx).imp_right (hlimited x).1

/-- The strict check asks for positive literals with the variables of all literals. -/
theorem mem_positiveVars_of_strict {l : Literal} (hl : l ∈ q.body) (hx : x ∈ l.vars)
    (hnamed : isAnonymous x = false) : x ∈ positiveVars q.body := by
  cases l with
  | positive a => exact mem_positiveVars.2 ⟨a, hl, hx⟩
  | negative a =>
    have hpasses := (Rule.checkSafety_eq_ok_iff_forall.1 hq.safe).2 _ hl
    exact hq.compares.mem_limitedVars.1
      ((hpasses.resolve_left nofun x hx).resolve_left (by simp [hnamed]))
  | builtin c => exact (hq.bindsValues.builtin _ hl rfl x hx).1

theorem mem_positiveVars_of_mem_vars (hx : x ∈ q.vars) : x ∈ positiveVars q.body := by
  obtain ⟨l, hl, hx, hnamed⟩ := mem_vars_iff.1 hx
  exact mem_positiveVars_of_strict hq hl hx hnamed

/-- Where all variables of negated literals have values, it does not matter which valuations are
compared with theirs. -/
theorem isTrue_iff_bodyHolds :
    q.IsTrue ctx.registry facts v ↔ BodyHolds ctx.registry q.body facts facts v := by
  refine forall₂_congr fun l hl => ?_
  cases l with
  | positive a => exact Iff.rfl
  | builtin c => exact Iff.rfl
  | negative a =>
    refine not_congr (exists_congr fun t => and_congr_right fun _ => ?_)
    refine ⟨fun hmatches => ⟨v, fun x _ => rfl, hmatches⟩, ?_⟩
    rintro ⟨w, hw, hmatches⟩
    refine (Term.matchesAll_congr fun t ht x hx hne => hw x ?_).1 hmatches
    have hvars : x ∈ (Literal.negative a).vars := Term.mem_varsAll.2 ⟨t, ht, hx⟩
    exact mem_positiveVars_of_strict hq hl hvars
      (Bool.eq_false_iff.2 fun hanonymous => hne (hq.named.body _ hl x hvars hanonymous))

end Strict

end Query

/-! ## Solutions and answers -/

namespace Query

variable (hdb : db.IsGround) (hq : q.toRule.IsRelational ctx.strict)

include hdb hq

/-- Matching the scheduled body of a query finds what the valuations under which the query is true
give to the variables of its positive literals. -/
theorem satisfy_spec :
    ∃ found, satisfy ctx db (schedule ctx.registry ctx.settings.safety q.body) = .ok found ∧
      (∀ s ∈ found, ∀ x ∈ positiveVars q.body, x ≠ wildcard →
        (s.apply (.var x)).isGround = true) ∧
      ∀ v : Valuation, (∀ x, (v x).isGround = true) →
        ((∃ s ∈ found, ∀ x ∈ positiveVars q.body, x ≠ wildcard → s.apply (.var x) = v x) ↔
          q.IsTrue ctx.registry db.atoms v) := by
  obtain ⟨hstuck, hcovers, hholds⟩ := run_schedule_spec (isRelational_of_strict hq) hdb
  obtain ⟨found, hfound⟩ := solutions_isOk_iff.2 hstuck
  have hrun : ∀ s, s ∈ found ↔ Run ctx db (reading db (ctx.scheduleRule q.toRule).body) .empty s :=
    fun s => mem_solutions hfound
  refine ⟨found, hfound, fun s hs x hx hne => ?_, fun v hground => ?_⟩
  · have hwild : wildcard ∉ (Term.var x).occurrences := by
      simpa [Term.occurrences] using hne.symm
    rw [(hcovers s ((hrun s).1 hs)).isGround_apply_iff hwild]
    exact Term.isCoveredBy_iff.2 fun y hy => List.mem_singleton.1 hy ▸ hx
  · rw [isTrue_iff_bodyHolds hq]
    refine Iff.trans (exists_congr fun s => ?_) (hholds v hground)
    rw [hrun]
    exact and_congr_right fun hs => (hcovers s hs).fits_iff.symm

/-- The answer to a query holds what the valuations under which it is true give to the variables
that are asked for. -/
theorem answer_spec :
    ∃ a, ctx.answer q db = .ok a ∧ a.vars = q.vars ∧
      ∀ t, t ∈ a.relation.tuples ↔ ∃ v : Valuation, (∀ x, (v x).isGround = true) ∧
        q.IsTrue ctx.registry db.atoms v ∧ t = q.vars.map v := by
  have hrelational := isRelational_of_strict hq
  obtain ⟨found, hfound, -⟩ := satisfy_spec hdb hq
  have hanswer : ctx.answer q db = .ok (.ofSolutions q.vars found) := by
    rw [Context.answer, hrelational.safe, hfound]
    rfl
  refine ⟨_, hanswer, rfl, fun t => ?_⟩
  rw [mem_tuples_of_answer hdb hrelational.compares hrelational.named hanswer]
  simp only [isTrue_iff_bodyHolds hq]
  -- All variables that are asked for occur in positive literals, and are shown with their values.
  have hshown : ∀ v, q.vars.map (shown q.body v) = q.vars.map v := fun v =>
    List.map_congr_left fun x hx => if_pos (mem_positiveVars_of_mem_vars hq hx)
  simp only [hshown]

/-- A query without variables that are asked for is true or not, and its answer says which. -/
theorem nil_mem_answer_iff {a : Answer} (ha : ctx.answer q db = .ok a) (hvars : q.vars = [])
    (v : Valuation) : [] ∈ a.relation.tuples ↔ q.IsTrue ctx.registry db.atoms v := by
  obtain ⟨a', ha', -, htuples⟩ := answer_spec hdb hq
  obtain rfl : a' = a := Except.ok.inj (ha'.symm.trans ha)
  have hcongr : ∀ w : Valuation,
      q.IsTrue ctx.registry db.atoms w ↔ q.IsTrue ctx.registry db.atoms v :=
    fun w => isTrue_congr hq.named (by simp [hvars])
  rw [htuples]
  constructor
  · rintro ⟨w, -, hw, -⟩
    exact (hcongr w).1 hw
  · intro hv
    exact ⟨fun _ => .const (.boolean true), fun _ => rfl, (hcongr _).2 hv,
      by rw [hvars, List.map_nil]⟩

end Query

/-! ## Answers as bindings -/

theorem Answer.mem_bindings_iff {a : Answer} {b : List (String × Term)} :
    b ∈ a.bindings ↔ ∃ t ∈ a.relation.tuples, a.vars.zip t = b := by
  simp only [Answer.bindings, Relation.sorted, List.mem_map, List.mem_mergeSort]

namespace Query

section Bindings

variable (hdb : db.IsGround) (hq : q.toRule.IsRelational ctx.strict)

include hdb hq

/-- The bindings of an answer pair the variables that are asked for with their values. -/
theorem mem_bindings_answer_iff {a : Answer} (ha : ctx.answer q db = .ok a)
    {b : List (String × Term)} :
    b ∈ a.bindings ↔ ∃ v : Valuation, (∀ x, (v x).isGround = true) ∧
      q.IsTrue ctx.registry db.atoms v ∧ b = q.vars.map fun x => (x, v x) := by
  obtain ⟨a', ha', hvars, htuples⟩ := answer_spec hdb hq
  obtain rfl : a' = a := Except.ok.inj (ha'.symm.trans ha)
  have hzip : ∀ v : Valuation, q.vars.zip (q.vars.map v) = q.vars.map fun x => (x, v x) :=
    fun v => by rw [← List.zip_map', List.map_id']
  simp only [Answer.mem_bindings_iff, htuples, hvars]
  constructor
  · rintro ⟨t, ⟨v, hground, hv, rfl⟩, rfl⟩
    exact ⟨v, hground, hv, hzip v⟩
  · rintro ⟨v, hground, hv, rfl⟩
    exact ⟨_, ⟨v, hground, hv, rfl⟩, hzip v⟩

/-- A query with the same literals in another order has an answer with the same bindings, up to the
order in which they list the variables. -/
theorem exists_answer_of_perm {a : Answer} (ha : ctx.answer q db = .ok a)
    (hperm : q'.body.Perm q.body) :
    ∃ a', ctx.answer q' db = .ok a' ∧ ∀ b, (∃ c ∈ a'.bindings, c.Perm b) ↔
      ∃ c ∈ a.bindings, c.Perm b := by
  have hq' := isRelational_of_perm hperm hq
  obtain ⟨a', ha', -⟩ := answer_spec hdb hq'
  refine ⟨a', ha', fun b => ?_⟩
  simp only [mem_bindings_answer_iff hdb hq ha, mem_bindings_answer_iff hdb hq' ha',
    isTrue_of_perm hperm]
  have hmap : ∀ v : Valuation,
      (q'.vars.map fun x => (x, v x)).Perm (q.vars.map fun x => (x, v x)) :=
    fun v => (vars_perm hperm).map _
  constructor
  · rintro ⟨_, ⟨v, hground, hv, rfl⟩, hb⟩
    exact ⟨_, ⟨v, hground, hv, rfl⟩, (hmap v).symm.trans hb⟩
  · rintro ⟨_, ⟨v, hground, hv, rfl⟩, hb⟩
    exact ⟨_, ⟨v, hground, hv, rfl⟩, (hmap v).trans hb⟩

end Bindings

/-- Matching a query of positive literals, negated literals and comparisons finds the valuations
under which it is true, the answer holds their values of the variables that are asked for, each
once, and another order of the literals leads to the same bindings. -/
theorem answers_isTrue (hdb : db.IsGround) (hq : q.toRule.IsRelational ctx.strict) :
    (∃ found, satisfy ctx db (schedule ctx.registry ctx.settings.safety q.body) = .ok found ∧
      (∀ s ∈ found, ∀ x ∈ positiveVars q.body, x ≠ wildcard →
        (s.apply (.var x)).isGround = true) ∧
      ∀ v : Valuation, (∀ x, (v x).isGround = true) →
        ((∃ s ∈ found, ∀ x ∈ positiveVars q.body, x ≠ wildcard → s.apply (.var x) = v x) ↔
          q.IsTrue ctx.registry db.atoms v)) ∧
    ∃ a, ctx.answer q db = .ok a ∧ a.vars = q.vars ∧ a.relation.tuples.Nodup ∧
      (∀ t, t ∈ a.relation.tuples ↔ ∃ v : Valuation, (∀ x, (v x).isGround = true) ∧
        q.IsTrue ctx.registry db.atoms v ∧ t = q.vars.map v) ∧
      (q.vars = [] → ∀ v, [] ∈ a.relation.tuples ↔ q.IsTrue ctx.registry db.atoms v) ∧
      ∀ q' : Query, q'.body.Perm q.body → ∃ a', ctx.answer q' db = .ok a' ∧
        ∀ b, (∃ c ∈ a'.bindings, c.Perm b) ↔ ∃ c ∈ a.bindings, c.Perm b := by
  refine ⟨satisfy_spec hdb hq, ?_⟩
  obtain ⟨a, ha, hvars, htuples⟩ := answer_spec hdb hq
  exact ⟨a, ha, hvars, a.relation.nodup, htuples, nil_mem_answer_iff hdb hq ha,
    fun q' hperm => exists_answer_of_perm hdb hq ha hperm⟩

/-- Which edges lead to a larger node that no edge leaves. -/
def sinkQuery : Query :=
  ⟨[.builtin ⟨"LESS", [.var "X", .var "Y"]⟩,
    .negative ⟨.plain "edge" 2, [.var "Y", .var "_"]⟩,
    .positive ⟨.plain "edge" 2, [.var "X", .var "Y"]⟩]⟩

theorem answers_isTrue_sink :
    chainFacts.IsGround ∧ sinkQuery.toRule.IsRelational (Context.strict ⟨.standard, {}⟩) ∧
      ∃ v : Valuation, (∀ x, (v x).isGround = true) ∧
        sinkQuery.IsTrue .standard chainFacts.atoms v ∧
        sinkQuery.vars.map v = [.const (.integer 2), .const (.integer 3)] := by
  have hdb : chainFacts.IsGround := Database.isGround_iff.2 (by decide +kernel)
  have hq : sinkQuery.toRule.IsRelational (Context.strict ⟨.standard, {}⟩) := by decide +kernel
  obtain ⟨-, a, ha, -, -, htuples, -⟩ := answers_isTrue hdb hq
  have hfound : (Context.answer ⟨.standard, {}⟩ sinkQuery chainFacts).toOption.map
      (fun a => a.relation.tuples) = some [[.const (.integer 2), .const (.integer 3)]] := by
    decide +kernel
  obtain ⟨a', ha', hedge⟩ := Option.map_eq_some_iff.1 hfound
  obtain rfl : a' = a := Except.ok.inj ((toOption_eq_some_iff.1 ha').symm.trans ha)
  have hmem : [.const (.integer 2), .const (.integer 3)] ∈ a'.relation.tuples :=
    hedge ▸ List.mem_singleton_self _
  obtain ⟨v, hground, hv, hvalues⟩ := (htuples _).1 hmem
  exact ⟨hdb, hq, v, hground, hv, hvalues.symm⟩

end Query

end Deduction
