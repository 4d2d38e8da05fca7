import Deduction.Proofs.Known
import Deduction.Proofs.Rounds
import Deduction.Proofs.Safety

/-!
# The meaning of rules

For rules whose builtins are all comparisons, matching a body amounts to finding the valuations
under which its literals hold:

* `Literal.Holds`: a literal holds under a valuation, given the facts that its kind of literal
  reads.
* `Matching.run_schedule_spec`: a safe body never gets stuck, and its runs end in the valuations
  under which it holds.
* `Rule.derives_iff`: a safe rule derives the instances of its head under these valuations.
* `Rule.IsSafe.succeeds_scheduleRule`: it never fails, whatever its anonymous variables are, if
  positive literals have those whose values it needs.

Matching binds the variables of the literals one after the other, and a literal is only matched when
its limited variables have values, so that the bound values decide whether it holds.
-/

namespace Deduction

open Matching

/-! ## Literals under a valuation -/

/-- A literal holds under a valuation: an instance of a positive one is among the facts in `pos`, no
fact in `neg` is an instance of a negated one, whatever the values of its variables outside
`limited` are, and the values of the terms of a comparison stand in the order that it tests. -/
def Literal.Holds (registry : Registry) (limited : List String) (pos neg : Set Atom)
    (v : Valuation) : Literal → Prop
  | .positive a => ∃ t, ⟨a.predicate, t⟩ ∈ pos ∧ Term.MatchesAll v a.terms t
  | .negative a => ¬∃ t, ⟨a.predicate, t⟩ ∈ neg ∧
      ∃ w : Valuation, (∀ x ∈ limited, w x = v x) ∧ Term.MatchesAll w a.terms t
  | .builtin c => ∃ name op t u, registry.get? c.name = some (.comparison name op) ∧
      c.terms = [t, u] ∧ op.holds (Comparison.order? (t.replace v) (u.replace v)) = true

/-- All literals of a body hold under a valuation. -/
def BodyHolds (registry : Registry) (body : List Literal) (pos neg : Set Atom)
    (v : Valuation) : Prop :=
  ∀ l ∈ body, l.Holds registry (positiveVars body) pos neg v

theorem Literal.Holds.mono {registry : Registry} {limited : List String}
    {pos pos' neg neg' : Set Atom} {v : Valuation} {l : Literal}
    (h : l.Holds registry limited pos neg v)
    (hpos : ∀ a, l = .positive a → ∀ t, ⟨a.predicate, t⟩ ∈ pos → ⟨a.predicate, t⟩ ∈ pos')
    (hneg : ∀ a, l = .negative a → ∀ t, ⟨a.predicate, t⟩ ∈ neg' → ⟨a.predicate, t⟩ ∈ neg) :
    l.Holds registry limited pos' neg' v := by
  cases l with
  | positive a =>
    obtain ⟨t, ht, hmatches⟩ := h
    exact ⟨t, hpos a rfl t ht, hmatches⟩
  | negative a =>
    rintro ⟨t, ht, hmatches⟩
    exact h ⟨t, hneg a rfl t ht, hmatches⟩
  | builtin c => exact h

/-- Which variables are limited counts, not how they are listed. -/
theorem Literal.Holds.limited_congr {registry : Registry} {limited limited' : List String}
    {pos neg : Set Atom} {v : Valuation} {l : Literal} (h : l.Holds registry limited pos neg v)
    (hlimited : ∀ x, x ∈ limited ↔ x ∈ limited') : l.Holds registry limited' pos neg v := by
  cases l with
  | positive a => exact h
  | negative a =>
    rintro ⟨t, ht, w, hw, hmatches⟩
    exact h ⟨t, ht, w, fun x hx => hw x ((hlimited x).1 hx), hmatches⟩
  | builtin c => exact h

/-- A body is a set of literals. -/
theorem bodyHolds_congr {registry : Registry} {xs ys : List Literal} {pos neg : Set Atom}
    {v : Valuation} (h : ∀ l, l ∈ xs ↔ l ∈ ys) :
    BodyHolds registry xs pos neg v ↔ BodyHolds registry ys pos neg v := by
  constructor
  · exact fun hbody l hl => (hbody l ((h l).2 hl)).limited_congr fun _ => mem_positiveVars_congr h
  · exact fun hbody l hl => (hbody l ((h l).1 hl)).limited_congr fun _ =>
      (mem_positiveVars_congr h).symm

/-! ## Rules that only compare -/

/-- The literal is not a builtin, or it is a comparison. -/
def Literal.onlyCompares (registry : Registry) : Literal → Bool
  | .builtin c =>
    match registry.get? c.name with
    | some (.comparison _ _) => true
    | _ => false
  | _ => true

namespace Rule

/-- The builtins of a rule are comparisons. -/
def OnlyCompares (r : Rule) (registry : Registry) : Prop :=
  ∀ c, .builtin c ∈ r.body → ∃ name op, registry.get? c.name = some (.comparison name op)

/-- The only anonymous variable of a rule is the wildcard, in literals that are not builtins. -/
structure WellNamed (r : Rule) : Prop where
  /-- Anonymous variables are wildcards. -/
  body : ∀ l ∈ r.body, ∀ x ∈ l.vars, isAnonymous x = true → x = wildcard
  /-- Builtins have no anonymous variables. -/
  builtin : ∀ l ∈ r.body, l.isBuiltin = true → ∀ x ∈ l.vars, isAnonymous x = false
  /-- Heads have no anonymous variables. -/
  head : ∀ x ∈ r.head.vars, isAnonymous x = false

instance (r : Rule) : Decidable r.WellNamed :=
  decidable_of_iff ((∀ l ∈ r.body, ∀ x ∈ l.vars, isAnonymous x = true → x = wildcard) ∧
      (∀ l ∈ r.body, l.isBuiltin = true → ∀ x ∈ l.vars, isAnonymous x = false) ∧
      ∀ x ∈ r.head.vars, isAnonymous x = false)
    ⟨fun ⟨body, builtin, head⟩ => ⟨body, builtin, head⟩,
      fun ⟨body, builtin, head⟩ => ⟨body, builtin, head⟩⟩

instance (r : Rule) (registry : Registry) : Decidable (r.OnlyCompares registry) :=
  decidable_of_iff (∀ l ∈ r.body, l.onlyCompares registry = true) <| by
    refine ⟨fun h c hc => ?_, fun h l hl => ?_⟩
    · have hc' := h _ hc
      rw [Literal.onlyCompares] at hc'
      split at hc'
      · next name op hop => exact ⟨name, op, hop⟩
      · cases hc'
    · cases l with
      | positive a => rfl
      | negative a => rfl
      | builtin c =>
        obtain ⟨name, op, hop⟩ := h c hl
        rw [Literal.onlyCompares, hop]

variable {r : Rule} {ctx : Context} {x : String} {c : BuiltinCall}

/-- A rule without builtins that compute limits the variables of its positive literals. -/
theorem OnlyCompares.mem_limitedVars (h : r.OnlyCompares ctx.registry) {options : SafetyOptions} :
    x ∈ limitedVars ctx.registry options r.body ↔ x ∈ positiveVars r.body := by
  refine ⟨mem_of_mem_limitedVars (fun y hy => hy) fun l hl y hy => ?_, mem_limitedVars_of_positive⟩
  -- Comparisons limit nothing, so the variables of the positive literals are a closed set.
  obtain ⟨c, b, rfl, hb, hlimits, -⟩ := Literal.mem_limits_iff.1 hy
  obtain ⟨name, op, hop⟩ := h c hl
  obtain rfl := Option.some.inj (hop.symm.trans hb)
  cases hlimits

/-- The arguments of a comparison are two terms. -/
theorem IsSafe.exists_comparison (h : r.IsSafe ctx) (hcompares : r.OnlyCompares ctx.registry)
    (hc : .builtin c ∈ r.body) :
    ∃ name op t u, ctx.registry.get? c.name = some (.comparison name op) ∧ c.terms = [t, u] := by
  obtain ⟨name, op, hop⟩ := hcompares c hc
  obtain ⟨b, hb, harity⟩ := h.exists_builtin hc
  obtain rfl := Option.some.inj (hop.symm.trans hb)
  obtain ⟨t, u, htu⟩ := List.length_eq_two.1 harity.symm
  exact ⟨name, op, t, u, hop, htu⟩

/-- Where a rule needs the value of a variable, in its head or in a builtin, the variable has one
from a positive literal. -/
structure BindsValues (r : Rule) : Prop where
  /-- The variables of the head occur in positive literals. -/
  head : ∀ x ∈ r.head.vars, x ∈ positiveVars r.body ∧ x ≠ wildcard
  /-- The variables of builtins occur in positive literals. -/
  builtin : ∀ l ∈ r.body, l.isBuiltin = true → ∀ x ∈ l.vars, x ∈ positiveVars r.body ∧ x ≠ wildcard

instance (r : Rule) : Decidable r.BindsValues :=
  decidable_of_iff ((∀ x ∈ r.head.vars, x ∈ positiveVars r.body ∧ x ≠ wildcard) ∧
      ∀ l ∈ r.body, l.isBuiltin = true → ∀ x ∈ l.vars, x ∈ positiveVars r.body ∧ x ≠ wildcard)
    ⟨fun ⟨head, builtin⟩ => ⟨head, builtin⟩, fun ⟨head, builtin⟩ => ⟨head, builtin⟩⟩

/-- The variables that a literal gives values to occur in positive literals. -/
theorem BindsValues.mem_positiveVars_of_gives (h : r.BindsValues) {l : Literal} (hl : l ∈ r.body)
    (hx : x ∈ Schedule.gives l) : x ∈ positiveVars r.body := by
  cases l with
  | positive a => exact mem_positiveVars.2 ⟨a, hl, hx⟩
  | negative a => cases hx
  | builtin c => exact (h.builtin _ hl rfl x hx).1

/-- The variables of the head occur in positive literals. -/
theorem IsSafe.mem_positiveVars_of_head (h : r.IsSafe ctx) (hcompares : r.OnlyCompares ctx.registry)
    (hnamed : r.WellNamed) (hx : x ∈ r.head.vars) : x ∈ positiveVars r.body :=
  hcompares.mem_limitedVars.1 (h.limited_of_head hx (hnamed.head x hx))

/-- A rule is safe, computes nothing, and has no anonymous variables that count. -/
structure IsRelational (r : Rule) (ctx : Context) : Prop where
  /-- The rule is safe. -/
  safe : r.IsSafe ctx
  /-- The builtins of the rule are comparisons. -/
  compares : r.OnlyCompares ctx.registry
  /-- The anonymous variables of the rule are wildcards in positive or negated literals. -/
  named : r.WellNamed

instance (r : Rule) (ctx : Context) : Decidable (r.IsRelational ctx) :=
  decidable_of_iff (r.IsSafe ctx ∧ r.OnlyCompares ctx.registry ∧ r.WellNamed)
    ⟨fun ⟨safe, compares, named⟩ => ⟨safe, compares, named⟩,
      fun ⟨safe, compares, named⟩ => ⟨safe, compares, named⟩⟩

/-- The safety check leaves the values of anonymous variables alone, and of no others. -/
theorem IsSafe.bindsValues_iff (h : r.IsSafe ctx) (hcompares : r.OnlyCompares ctx.registry) :
    r.BindsValues ↔
      (∀ x ∈ r.head.vars, isAnonymous x = true → x ∈ positiveVars r.body ∧ x ≠ wildcard) ∧
      ∀ l ∈ r.body, l.isBuiltin = true → ∀ x ∈ l.vars, isAnonymous x = true →
        x ∈ positiveVars r.body ∧ x ≠ wildcard := by
  refine ⟨fun hbinds => ⟨fun x hx _ => hbinds.head x hx,
    fun l hl hbuiltin x hx _ => hbinds.builtin l hl hbuiltin x hx⟩, ?_⟩
  rintro ⟨hhead, hbuiltins⟩
  refine ⟨fun x hx => ?_, fun l hl hbuiltin x hx => ?_⟩
  · cases hnamed : isAnonymous x with
    | true => exact hhead x hx hnamed
    | false =>
      exact ⟨hcompares.mem_limitedVars.1 (h.limited_of_head hx hnamed),
        Term.ne_wildcard_of_named hnamed⟩
  · cases hnamed : isAnonymous x with
    | true => exact hbuiltins l hl hbuiltin x hx hnamed
    | false =>
      refine ⟨?_, Term.ne_wildcard_of_named hnamed⟩
      cases l with
      | positive a => cases hbuiltin
      | negative a => cases hbuiltin
      | builtin c => exact hcompares.mem_limitedVars.1 (h.limited_of_call hl hx hnamed)

theorem IsRelational.bindsValues (h : r.IsRelational ctx) : r.BindsValues :=
  (h.safe.bindsValues_iff h.compares).2
    ⟨fun x hx hanonymous => absurd hanonymous (by simp [h.named.head x hx]),
      fun l hl hbuiltin x hx hanonymous =>
        absurd hanonymous (by simp [h.named.builtin l hl hbuiltin x hx])⟩

end Rule

/-! ## Single literals -/

namespace Matching

variable {ctx : Context} {db : Database} {limited bound : List String} {a : Atom}
  {c : BuiltinCall} {v : Valuation}

/-- A negated literal is matched when its limited variables have values, so that the values settle
which instances it has. -/
theorem holdsAt_negative_iff (hbound : ∀ x ∈ bound, x ∈ limited)
    (hready : ∀ x ∈ a.vars, x ≠ wildcard → x ∈ limited → x ∈ bound) :
    (Literal.negative a).HoldsAt ctx db db bound v ↔
      (Literal.negative a).Holds ctx.registry limited db.atoms db.atoms v := by
  refine not_congr (exists_congr fun t => and_congr_right fun _ => ?_)
  constructor
  · -- Take the values of the limited variables from one valuation, the others from the other.
    rintro ⟨w, hw, hmatches⟩
    refine ⟨fun x => if x ∈ limited then v x else w x, fun x hx => if_pos hx, ?_⟩
    refine (Term.matchesAll_congr fun u hu x hx hne => ?_).1 hmatches
    by_cases hlimited : x ∈ limited
    · rw [if_pos hlimited, hw x (hready x (Term.mem_varsAll.2 ⟨u, hu, hx⟩) hne hlimited) hne]
    · rw [if_neg hlimited]
  · rintro ⟨w, hw, hmatches⟩
    exact ⟨w, fun x hx _ => hw x (hbound x hx), hmatches⟩

/-- The call of a comparison with ground arguments tests the order of their values, and returns them
as they are. -/
theorem evaluateCall_comparison {name : String} {op : Comparison} {t u : Term}
    (hop : ctx.registry.get? c.name = some (.comparison name op))
    (hground : Term.areGround [t, u] = true) :
    ctx.evaluateCall ⟨c.name, [t, u]⟩ =
      .ok (if op.holds (Comparison.order? t u) then some [t, u] else none) := by
  simp only [Context.evaluateCall, hop, Builtin.evaluate, Builtin.evaluateComparison]
  rw [if_pos hground]

section Comparison

variable {name : String} {op : Comparison} {t u : Term} (hv : ∀ x, (v x).isGround = true)
  (hop : ctx.registry.get? c.name = some (.comparison name op)) (hterms : c.terms = [t, u])
  (hready : ∀ x ∈ c.vars, x ∈ bound ∧ x ≠ wildcard)

include hv hop hterms hready

theorem evaluateCall_given_comparison : ctx.evaluateCall (c.given v bound) =
    .ok (if op.holds (Comparison.order? (t.replace v) (u.replace v)) then
      some [t.replace v, u.replace v] else none) := by
  rw [BuiltinCall.given_eq hready, hterms]
  exact evaluateCall_comparison hop (by simp [Term.areGround, Term.isGround_replace_iff, hv])

/-- A comparison does not fail when all its variables have values. -/
theorem not_failsAt_comparison : ¬(Literal.builtin c).FailsAt ctx bound v := by
  rintro ⟨c', e, hc', he⟩
  obtain rfl := Literal.builtin.inj hc'
  rw [evaluateCall_given_comparison hv hop hterms hready] at he
  cases he

/-- A comparison is matched when all its variables have values. -/
theorem holdsAt_comparison_iff : (Literal.builtin c).HoldsAt ctx db db bound v ↔
    (Literal.builtin c).Holds ctx.registry limited db.atoms db.atoms v := by
  have hwild : ∀ t ∈ c.terms, wildcard ∉ t.occurrences := fun t ht hx =>
    (hready _ (Term.mem_varsAll.2 ⟨t, ht, hx⟩)).2 rfl
  simp only [Literal.HoldsAt, evaluateCall_given_comparison hv hop hterms hready,
    Except.ok.injEq, Option.ite_none_right_eq_some, Option.some.injEq]
  constructor
  · rintro ⟨_, ⟨hholds, -⟩, -⟩
    exact ⟨name, op, t, u, hop, hterms, hholds⟩
  · rintro ⟨name', op', t', u', hop', hterms', hholds⟩
    obtain ⟨rfl, rfl⟩ := Builtin.comparison.inj (Option.some.inj (hop.symm.trans hop'))
    obtain ⟨rfl, rfl⟩ : t = t' ∧ u = u' := by simpa using hterms.symm.trans hterms'
    -- The values are an instance of themselves.
    exact ⟨_, ⟨hholds, rfl⟩, (Term.matchesAll_iff_eq_map hwild).2 (by simp [hterms])⟩

end Comparison

/-! ## Whole bodies -/

/-- All variables of a comparison that is ready have values. -/
theorem mem_of_isReady_comparison {name : String} {op : Comparison} {x : String}
    (hop : ctx.registry.get? c.name = some (.comparison name op))
    (hready : Schedule.isReady ⟨ctx.registry, limited⟩ bound (.builtin c) = true)
    (hx : x ∈ c.vars) : x ∈ bound := by
  simp only [Schedule.isReady, hop, BuiltinCall.canEvaluate, Builtin.mode, Mode.canEvaluate,
    decide_eq_true_eq, List.count_eq_zero, List.mem_map, not_exists, not_and,
    Bool.not_eq_false, Term.isCoveredBy, List.all_eq_true] at hready
  obtain ⟨t, ht, hxt⟩ := Term.mem_varsAll.1 hx
  exact hready t ht x hxt

section Safe

variable {r : Rule} (h : r.IsSafe ctx) (hcompares : r.OnlyCompares ctx.registry)
  (hbinds : r.BindsValues) (hdb : db.IsGround)

include h hcompares hbinds

/-- When its turn comes, a literal is ready, and the variables that have values are among those of
positive literals. -/
theorem isReady_of_mem_turns {l : Literal}
    (hturn : (bound, l) ∈ Schedule.turns [] (ctx.scheduleRule r).body) :
    l ∈ r.body ∧ (∀ x ∈ bound, x ∈ positiveVars r.body) ∧ Schedule.isReady
      ⟨ctx.registry, limitedVars ctx.registry ctx.settings.safety r.body⟩ bound l = true := by
  obtain ⟨xs, ys, heq, rfl⟩ := Schedule.mem_turns_iff.1 hturn
  have hbody : ∀ m ∈ xs ++ l :: ys, m ∈ r.body := fun m hm => mem_schedule.1 (heq ▸ hm)
  refine ⟨hbody l (List.mem_append_right _ (.head _)), fun x hx => ?_, ?_⟩
  · obtain ⟨m, hm, hx⟩ := List.mem_flatMap.1 hx
    exact hbinds.mem_positiveVars_of_gives (hbody m (List.mem_append_left _ hm)) hx
  · refine (heq ▸ h.inOrder_schedule_of_limited fun m hm hbuiltin x hx => ?_).isReady
    exact hcompares.mem_limitedVars.2 (hbinds.builtin m hm hbuiltin x hx).1

include hdb

/-- Matching the body of a rule never gets stuck. -/
theorem not_stuck_schedule : ¬Stuck ctx db (reading db (ctx.scheduleRule r).body) .empty := by
  refine not_stuck_of_turns covers_empty hdb ?_
  rintro ⟨known, l⟩ hturn v hv
  obtain ⟨hl, -, hready⟩ := isReady_of_mem_turns h hcompares hbinds hturn
  cases l with
  | positive a => nofun
  | negative a => nofun
  | builtin c =>
    obtain ⟨name, op, t, u, hop, hterms⟩ := h.exists_comparison hcompares hl
    exact not_failsAt_comparison hv hop hterms fun x hx =>
      ⟨mem_of_isReady_comparison hop hready hx, (hbinds.builtin _ hl rfl x hx).2⟩

omit h hcompares in
/-- Matching the body of a rule gives values to the variables of its positive literals. -/
theorem covers_of_run_schedule {s : Substitution}
    (hs : Run ctx db (reading db (ctx.scheduleRule r).body) .empty s) :
    Covers s (positiveVars r.body) := by
  obtain ⟨hgrounded, hdomain⟩ := covers_of_run_scheduleRule hdb hs
  refine ⟨hgrounded, fun x => ?_⟩
  rw [hdomain, List.mem_flatMap]
  -- What the literals give values to together are the variables of the positive ones.
  refine and_congr_left fun _ => ⟨?_, fun hx => ?_⟩
  · rintro ⟨l, hl, hx⟩
    exact hbinds.mem_positiveVars_of_gives hl hx
  · obtain ⟨a, ha, hx⟩ := mem_positiveVars.1 hx
    exact ⟨_, ha, hx⟩

end Safe

section Relational

variable {r : Rule} (h : r.IsRelational ctx) (hdb : db.IsGround)

include h

/-- A literal that is ready holds if it does under the whole valuation. -/
theorem holdsAt_iff_holds {l : Literal} (hl : l ∈ r.body) (hv : ∀ x, (v x).isGround = true)
    (hbound : ∀ x ∈ bound, x ∈ positiveVars r.body)
    (hready : Schedule.isReady
      ⟨ctx.registry, limitedVars ctx.registry ctx.settings.safety r.body⟩ bound l = true) :
    l.HoldsAt ctx db db bound v ↔
      l.Holds ctx.registry (positiveVars r.body) db.atoms db.atoms v := by
  cases l with
  | positive a => exact Iff.rfl
  | negative a =>
    refine holdsAt_negative_iff hbound fun x hx hne hlimited => ?_
    have hnamed : isAnonymous x = false :=
      Bool.not_eq_true _ ▸ fun hanonymous => hne (h.named.body _ hl x hx hanonymous)
    exact Schedule.isReady_negative_iff.1 hready x hx hnamed (h.compares.mem_limitedVars.2 hlimited)
  | builtin c =>
    obtain ⟨name, op, t, u, hop, hterms⟩ := h.safe.exists_comparison h.compares hl
    exact holdsAt_comparison_iff hv hop hterms fun x hx =>
      ⟨mem_of_isReady_comparison hop hready hx, (h.bindsValues.builtin _ hl rfl x hx).2⟩

include hdb

/-- Matching the body of a rule never gets stuck, gives values to the variables of its positive
literals, and leads to the valuations under which the body holds. -/
theorem run_schedule_spec :
    ¬Stuck ctx db (reading db (ctx.scheduleRule r).body) .empty ∧
    (∀ s, Run ctx db (reading db (ctx.scheduleRule r).body) .empty s →
      Covers s (positiveVars r.body)) ∧
    ∀ v : Valuation, (∀ x, (v x).isGround = true) →
      ((∃ s, Run ctx db (reading db (ctx.scheduleRule r).body) .empty s ∧ s.Fits v) ↔
        BodyHolds ctx.registry r.body db.atoms db.atoms v) := by
  have hmem : ∀ l, l ∈ (ctx.scheduleRule r).body ↔ l ∈ r.body := fun l => mem_schedule
  refine ⟨not_stuck_schedule h.safe h.compares h.bindsValues hdb,
    fun s hs => covers_of_run_schedule h.bindsValues hdb hs, fun v hv => ?_⟩
  rw [run_empty_iff_holdsAt hdb, BodyHolds]
  simp only [← hmem]
  refine Iff.trans (forall₂_congr ?_) Schedule.forall_mem_turns_iff
  rintro ⟨known, l⟩ hturn
  obtain ⟨hl, hbound, hready⟩ :=
    isReady_of_mem_turns h.safe h.compares h.bindsValues hturn
  exact holdsAt_iff_holds h hl hv hbound hready

end Relational

end Matching

/-! ## Rules -/

namespace Rule

variable {r : Rule} {ctx : Context} {db : Database}

/-- A safe rule over ground facts never fails if positive literals have all the variables whose
values it needs. -/
theorem IsSafe.succeeds_scheduleRule (h : r.IsSafe ctx) (hcompares : r.OnlyCompares ctx.registry)
    (hbinds : r.BindsValues) (hdb : db.IsGround) :
    (ctx.scheduleRule r).Succeeds ctx db (reading db (ctx.scheduleRule r).body) := by
  refine ⟨not_stuck_schedule h hcompares hbinds hdb, fun s hs => ?_⟩
  obtain ⟨hgrounded, hdomain⟩ := covers_of_run_schedule hbinds hdb hs
  refine Substitution.areGround_applyAll hgrounded fun t ht x hx => ?_
  exact (hdomain x).2 (hbinds.head x (Term.mem_varsAll.2 ⟨t, ht, hx⟩))

variable (h : r.IsRelational ctx) (hdb : db.IsGround)

include h hdb

/-- A rule derives the instances of its head under the valuations under which its body holds. -/
theorem derives_iff {a : Atom} :
    (ctx.scheduleRule r).Derives ctx db (reading db (ctx.scheduleRule r).body) a ↔
      ∃ v : Valuation, (∀ x, (v x).isGround = true) ∧
        BodyHolds ctx.registry r.body db.atoms db.atoms v ∧ r.head.replace v = a := by
  obtain ⟨-, -, hholds⟩ := run_schedule_spec h hdb
  rw [(h.safe.succeeds_scheduleRule h.compares h.bindsValues hdb).derives_iff
    (List.forall_mem_map.2 fun _ _ => hdb)]
  exact exists_congr fun v => and_congr_right fun hv => and_congr_left fun _ => hholds v hv

end Rule

end Deduction
