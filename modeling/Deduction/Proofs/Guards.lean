import Mathlib.Data.Set.Insert
import Deduction.Magic.Program
import Deduction.Proofs.Known
import Deduction.Proofs.Magic.Patterns
import Deduction.Proofs.Relations
import Deduction.Proofs.Rounds

/-!
# Guarded rules

A guard is a positive literal before the body of a rule that lets through certain arguments of the
head. With it, some variables have values from the start, so that calls check what they would have
computed, and negated literals come earlier. This makes no difference to a literal that is
indifferent to what is known (`Literal.IsIndifferent`):

* A negated literal of a safe rule waits for its limited variables anyway. Only anonymous variables
  that it shares with other literals may or may not have values when its turn comes.
* A call has the same meaning if it computes exactly, and only what the other arguments determine.

If all literals are indifferent, a guard only filters what the rule derives
(`Rule.IsSafe.mem_derive_guardedBy_iff`).
-/

namespace Deduction

open Matching

/-! ## Literals that are indifferent to what is known -/

/-- The operands that a call has to compute are determined by its other arguments. -/
def BuiltinCall.IsReversible (c : BuiltinCall) (bound : List String) : Builtin → Prop
  | .arithmetic _ op =>
    match c.terms with
    | [x, y, _] => (x.isCoveredBy bound = true ∨ op.DeterminesOperand y) ∧
        (y.isCoveredBy bound = true ∨ op.DeterminesOperand x)
    | _ => True
  | _ => True

/-- It makes no difference which of two lists of variables have values when the turn of a literal
comes, where `exact` tells that there are no floating-point numbers. -/
def Literal.IsIndifferent (registry : Registry) (exact : Prop) (bound bound' : List String) :
    Literal → Prop
  | .positive _ => True
  | .negative a =>
    ∀ x ∈ a.vars, isAnonymous x = true → x ≠ wildcard → (x ∈ bound ↔ x ∈ bound')
  | .builtin c =>
    (∀ x ∈ c.vars, x ≠ wildcard → (x ∈ bound ↔ x ∈ bound')) ∨
      ∃ b, registry.get? c.name = some b ∧ (b.mode = .check ∨ exact) ∧
        c.IsReversible bound b ∧ c.IsReversible bound' b

instance (c : BuiltinCall) (bound : List String) : (b : Builtin) →
    Decidable (c.IsReversible bound b)
  | .equality | .comparison _ _ => isTrue trivial
  | .arithmetic _ op =>
    match hterms : c.terms with
    | [x, y, _] => decidable_of_iff ((x.isCoveredBy bound = true ∨ op.DeterminesOperand y) ∧
        (y.isCoveredBy bound = true ∨ op.DeterminesOperand x))
        (by simp only [BuiltinCall.IsReversible, hterms])
    | [] | [_] | [_, _] | _ :: _ :: _ :: _ :: _ =>
      isTrue (by simp only [BuiltinCall.IsReversible, hterms])

instance (registry : Registry) (exact : Prop) [Decidable exact] (bound bound' : List String) :
    (l : Literal) → Decidable (l.IsIndifferent registry exact bound bound')
  | .positive _ => isTrue trivial
  | .negative a => inferInstanceAs (Decidable (∀ x ∈ a.vars, _ → _ → _))
  | .builtin c =>
    inferInstanceAs (Decidable (_ ∨ ∃ b ∈ registry.get? c.name, (_ ∨ _) ∧ _ ∧ _))

/-- No floating-point number occurs in a call, or in the facts that a positive literal reads. -/
def Literal.IsExactOver (db : Database) : Literal → Prop
  | .positive a => ∀ t, ⟨a.predicate, t⟩ ∈ db.atoms → ∀ u ∈ t, u.isExact = true
  | .negative _ => True
  | .builtin c => ∀ t ∈ c.terms, t.isExact = true

/-- No floating-point number occurs in the calls of a rule or in what its positive literals read. -/
def Rule.IsExactOver (r : Rule) (db : Database) : Prop :=
  ∀ l ∈ r.body, l.IsExactOver db

instance (db : Database) : (l : Literal) → Decidable (l.IsExactOver db)
  | .positive a => decidable_of_iff
      (∀ t ∈ (db.relation a.predicate).tuples, ∀ u ∈ t, u.isExact = true)
      (by simp only [Literal.IsExactOver, Database.mem_atoms])
  | .negative _ => isTrue trivial
  | .builtin c => inferInstanceAs (Decidable (∀ t ∈ c.terms, _))

instance (r : Rule) (db : Database) : Decidable (r.IsExactOver db) :=
  inferInstanceAs (Decidable (∀ l ∈ r.body, _))

section Literals

variable {ctx : Context} {db full source : Database} {bound bound' : List String} {v : Valuation}
  {a : Atom} {c : BuiltinCall} {l : Literal} {exact : Prop} {b : Builtin} {t : Term}

/-- The known variables other than the wildcard have exact values. -/
def Valuation.IsExactOn (v : Valuation) (bound : List String) : Prop :=
  ∀ x ∈ bound, x ≠ wildcard → (v x).isExact = true

theorem Valuation.isExact_replace_known (hv : v.IsExactOn bound) (ht : t.isExact = true) :
    (t.replace (v.known bound)).isExact = true := by
  refine Term.isExact_replace_iff.2 ⟨ht, fun x _ => ?_⟩
  rw [known]
  split
  · next h => exact hv x h.1 h.2
  · rfl

/-- What is known is a part of the valuation. -/
theorem Valuation.replace_replace_known (hv : ∀ x, (v x).isGround = true) (t : Term) :
    (t.replace (v.known bound)).replace v = t.replace v := by
  rw [Term.replace_replace]
  refine Term.replace_congr fun x _ => ?_
  rw [known]
  split
  · exact Term.replace_eq_self (hv x)
  · rfl

/-- A term without the wildcard is ground with what is known in it if its variables are known. -/
theorem Valuation.isGround_replace_known_iff (hv : ∀ x, (v x).isGround = true)
    (hwild : wildcard ∉ t.occurrences) :
    (t.replace (v.known bound)).isGround = true ↔ t.isCoveredBy bound = true := by
  rw [Term.isGround_replace_iff, Term.isCoveredBy_iff]
  refine forall₂_congr fun x hx => ?_
  have hne : x ≠ wildcard := fun h => hwild (h ▸ hx)
  rw [known]
  split
  · next h => exact iff_of_true (hv x) h.1
  · next h => exact iff_of_false Bool.false_ne_true fun hmem => h ⟨hmem, hne⟩

/-- What a call leaves open is determined by what it is given. -/
theorem BuiltinCall.IsReversible.given (h : c.IsReversible bound b)
    (hv : ∀ x, (v x).isGround = true) (hwild : ∀ t ∈ c.terms, wildcard ∉ t.occurrences) :
    b.IsReversible (c.given v bound).terms := by
  have hdetermines : ∀ (op : Operation) (t : Term), op.DeterminesOperand t →
      op.DeterminesOperand (t.replace (v.known bound)) := by
    intro op t ht
    cases op with
    | multiply =>
      obtain ⟨n, rfl, hn⟩ := ht
      exact ⟨n, rfl, hn⟩
    | add | subtract | divide | modulus => exact ht
  obtain ⟨name, terms⟩ := c
  cases b with
  | equality => trivial
  | comparison name op => trivial
  | arithmetic name op =>
    rcases terms with _ | ⟨x, _ | ⟨y, _ | ⟨z, _ | ⟨_, _⟩⟩⟩⟩
    case cons.cons.cons.nil =>
      have hground : ∀ t ∈ [x, y, z], t.isCoveredBy bound = true →
          (t.replace (v.known bound)).isGround = true := fun t ht =>
        (Valuation.isGround_replace_known_iff hv (hwild t ht)).2
      exact ⟨h.1.imp (hground x (by simp)) (hdetermines op y),
        h.2.imp (hground y (by simp)) (hdetermines op x)⟩
    all_goals trivial

/-- A call has the wildcards of its terms, whatever is known. -/
theorem Valuation.wildcard_mem_replace_known_iff (hv : ∀ x, (v x).isGround = true) :
    wildcard ∈ (t.replace (v.known bound)).occurrences ↔ wildcard ∈ t.occurrences := by
  rw [Term.mem_occurrences_replace]
  constructor
  · rintro ⟨x, hx, hwild⟩
    rw [known] at hwild
    split at hwild
    · rw [Term.isGround_iff.1 (hv x)] at hwild
      cases hwild
    · rwa [List.mem_singleton.1 hwild]
  · intro hwild
    refine ⟨wildcard, hwild, ?_⟩
    rw [known, if_neg fun h => h.2 rfl]
    exact .head _

/-- A call that holds has no wildcards. -/
theorem Literal.HoldsAt.wildcard_not_mem (hv : ∀ x, (v x).isGround = true)
    (h : (Literal.builtin c).HoldsAt ctx full source bound v) : wildcard ∉ c.vars := by
  obtain ⟨completed, hcall, -⟩ := h
  obtain ⟨b, -, hevaluate⟩ := Context.evaluateCall_eq_some_iff.1 hcall
  intro hmem
  obtain ⟨t, ht, hmem⟩ := Term.mem_varsAll.1 hmem
  exact Builtin.wildcard_not_mem_of_evaluate hevaluate _ (List.mem_map_of_mem ht)
    ((Valuation.wildcard_mem_replace_known_iff hv).2 hmem)

/-- A call that computes exactly succeeds with one part of a valuation known if it does with
another, unless it fails. -/
theorem holdsAt_builtin_of_isReversible (hv : ∀ x, (v x).isGround = true)
    (hb : ctx.registry.get? c.name = some b) (hexact : b.IsExactOn (c.given v bound).terms)
    (hexact' : b.IsExactOn (c.given v bound').terms) (hreverse : c.IsReversible bound b)
    (hreverse' : c.IsReversible bound' b) (hfails : ¬(Literal.builtin c).FailsAt ctx bound v)
    (hholds : (Literal.builtin c).HoldsAt ctx full source bound' v) :
    (Literal.builtin c).HoldsAt ctx full source bound v := by
  have hwild : ∀ t ∈ c.terms, wildcard ∉ t.occurrences := fun t ht hmem =>
    hholds.wildcard_not_mem hv (Term.mem_varsAll.2 ⟨t, ht, hmem⟩)
  obtain ⟨completed, hcall, hmatches⟩ := hholds
  obtain ⟨b', hb', hevaluate⟩ := Context.evaluateCall_eq_some_iff.1 hcall
  obtain rfl := Option.some.inj (hb.symm.trans hb')
  -- The values are related, and so are found from what is known here.
  rw [Term.matchesAll_iff_eq_map hwild] at hmatches
  have hvalues : ((c.given v bound).terms.map (Term.replace v)) = completed := by
    rw [← hmatches, BuiltinCall.given, List.map_map]
    exact List.map_congr_left fun t _ => Valuation.replace_replace_known hv t
  have hrelates := Builtin.relates_of_evaluate hexact' (hreverse'.given hv hwild) hevaluate
  rw [← hvalues] at hrelates
  rcases Builtin.evaluate_of_relates hexact (by
      rw [BuiltinCall.given, List.forall_mem_map]
      exact fun t ht hmem =>
        hwild t ht ((Valuation.wildcard_mem_replace_known_iff hv).1 hmem))
    (hreverse.given hv hwild) hrelates with hok | ⟨name, herror⟩
  · rw [hvalues] at hok
    exact ⟨completed, Context.evaluateCall_eq_some_iff.2 ⟨b, hb, hok⟩,
      (Term.matchesAll_iff_eq_map hwild).2 hmatches⟩
  · refine absurd ⟨c, .builtin (c.given v bound) (.unbound name (c.given v bound).terms), rfl, ?_⟩
      hfails
    have hb' : ctx.registry.get? (c.given v bound).name = some b := hb
    simp [Context.evaluateCall, hb', herror]

/-- An indifferent literal holds with one part of a valuation known if it does with another, unless
it fails. -/
theorem Literal.IsIndifferent.holdsAt (h : l.IsIndifferent ctx.registry exact bound bound')
    (hv : ∀ x, (v x).isGround = true)
    (hexact : exact → v.IsExactOn bound ∧ v.IsExactOn bound' ∧ l.IsExactOver source)
    (hnamed : ∀ a, l = .negative a →
      ∀ x ∈ a.vars, isAnonymous x = false → (x ∈ bound ↔ x ∈ bound'))
    (hfails : ¬l.FailsAt ctx bound v) (hholds : l.HoldsAt ctx full source bound' v) :
    l.HoldsAt ctx full source bound v := by
  cases l with
  | positive a => exact hholds
  | negative a =>
    refine hholds.congr (fun _ _ _ => rfl) fun x hx hne => Iff.symm ?_
    cases hanonymous : isAnonymous x with
    | true => exact h x hx hanonymous hne
    | false => exact hnamed a rfl x hx hanonymous
  | builtin c =>
    rcases h with hsame | ⟨b, hb, hcompute, hreverse, hreverse'⟩
    · exact hholds.congr (fun _ _ _ => rfl) fun x hx hne => (hsame x hx hne).symm
    · have hall : ∀ bound, (exact → v.IsExactOn bound) →
          b.IsExactOn (c.given v bound).terms := fun bound hbound =>
        hcompute.imp_right fun hE => List.forall_mem_map.2 fun t ht =>
          Valuation.isExact_replace_known (hbound hE) ((hexact hE).2.2 t ht)
      exact holdsAt_builtin_of_isReversible hv hb (hall bound fun hE => (hexact hE).1)
        (hall bound' fun hE => (hexact hE).2.1) hreverse hreverse' hfails hholds

/-- A literal that holds gives exact values to its variables, if those that are known are exact and
so is what it reads. -/
theorem Valuation.IsExactOn.of_holdsAt (h : v.IsExactOn bound) (hl : l.IsExactOver source)
    (hholds : l.HoldsAt ctx full source bound v) : v.IsExactOn (bound ++ Schedule.gives l) := by
  have hgives : ∀ x ∈ Schedule.gives l, x ≠ wildcard → (v x).isExact = true := by
    intro x hx hne
    cases l with
    | positive a =>
      obtain ⟨t, ht, hmatches⟩ := hholds
      obtain ⟨u, hu, hx⟩ := Term.mem_varsAll.1 hx
      exact hmatches.isExact (hl t ht) hu hx hne
    | negative a => cases hx
    | builtin c =>
      obtain ⟨completed, hcall, hmatches⟩ := hholds
      obtain ⟨b, -, hevaluate⟩ := Context.evaluateCall_eq_some_iff.1 hcall
      obtain ⟨u, hu, hx⟩ := Term.mem_varsAll.1 hx
      refine hmatches.isExact (Builtin.isExact_of_evaluate hevaluate ?_) hu hx hne
      exact List.forall_mem_map.2 fun t ht => isExact_replace_known h (hl t ht)
  exact fun x hx hne => (List.mem_append.1 hx).elim (h x · hne) (hgives x · hne)

end Literals

/-! ## Rules that are matched alike -/

/-- The literals of a rule in the order in which they are matched, each with the variables that have
values when its turn comes. -/
def Context.turns (ctx : Context) (r : Rule) : List (List String × Literal) :=
  Schedule.turns [] (ctx.scheduleRule r).body

/-- The literals that a rule shares with another one are indifferent to whether their turn comes as
in the one or as in the other. -/
def Rule.IsMatchedAs (r r' : Rule) (ctx : Context) (exact : Prop) : Prop :=
  ∀ turn ∈ ctx.turns r, turn.2 ∈ r'.body → ∃ turn' ∈ ctx.turns r', turn'.2 = turn.2 ∧
    turn.2.IsIndifferent ctx.registry exact turn.1 turn'.1

instance (r r' : Rule) (ctx : Context) (exact : Prop) [Decidable exact] :
    Decidable (r.IsMatchedAs r' ctx exact) :=
  inferInstanceAs (Decidable (∀ turn ∈ _, _ → ∃ turn' ∈ _, _ ∧ _))

section Rules

variable {ctx : Context} {db db' : Database} {r r' : Rule} {v : Valuation} {known : List String}
  {l : Literal} {a : Atom} {exact : Prop} {x : String}

theorem mem_body_of_mem_turns (h : (known, l) ∈ ctx.turns r) : l ∈ r.body := by
  obtain ⟨xs, ys, heq, -⟩ := Schedule.mem_turns_iff.1 h
  exact mem_schedule.1 (heq ▸ List.mem_append_right _ (.head _))

/-- When the turn of a negated literal comes, all of its named variables that ever get a value have
one. -/
theorem Rule.IsSafe.mem_turn_negative_iff (h : r.IsSafe ctx)
    (hturn : (known, .negative a) ∈ ctx.turns r) (hx : x ∈ a.vars)
    (hnamed : isAnonymous x = false) : x ∈ known ↔ x ∈ r.body.flatMap Schedule.gives := by
  obtain ⟨xs, ys, heq, rfl⟩ := Schedule.mem_turns_iff.1 hturn
  have hready := Schedule.isReady_negative_iff.1 (isReady_negative heq) x hx hnamed
  rw [List.nil_append]
  constructor
  · intro hmem
    obtain ⟨l, hl, hx⟩ := List.mem_flatMap.1 hmem
    exact List.mem_flatMap.2 ⟨l, mem_schedule.1 (heq ▸ List.mem_append_left _ hl), hx⟩
  · exact fun hmem => hready (h.limited_of_gives hmem hnamed)

theorem exists_mem_turns (h : l ∈ r.body) : ∃ known, (known, l) ∈ ctx.turns r := by
  have hmem : l ∈ schedule ctx.registry ctx.settings.safety r.body := mem_schedule.2 h
  obtain ⟨xs, ys, heq⟩ := List.append_of_mem hmem
  exact ⟨_, Schedule.mem_turns_iff.2 ⟨xs, ys, heq, rfl⟩⟩

/-- A rule succeeds if its search does not get stuck, and if its literals, where they hold when
their turn comes, give values to the variables of its head. -/
theorem derive_isOk_iff_turns (hdb : db.IsGround) :
    (∃ facts, (ctx.scheduleRule r).derive ctx db = .ok facts) ↔
      ¬Stuck ctx db (reading db (ctx.scheduleRule r).body) .empty ∧
      ((∃ v : Valuation, (∀ x, (v x).isGround = true) ∧
        ∀ turn ∈ ctx.turns r, turn.2.HoldsAt ctx db db turn.1 v) →
          ∀ x ∈ r.head.vars, x ∈ r.body.flatMap Schedule.gives ∧ x ≠ wildcard) := by
  rw [ScheduledRule.derive_isOk_iff, ScheduledRule.Succeeds]
  refine and_congr_right fun _ => ⟨?_, fun hhead s hrun => ?_⟩
  · rintro hground ⟨v, -, hholds⟩ x hx
    obtain ⟨s, hrun, -⟩ := (run_empty_iff_holdsAt hdb).2 hholds
    obtain ⟨t, ht, hx⟩ := Term.mem_varsAll.1 hx
    have hcovers := covers_of_run_scheduleRule hdb hrun
    exact (hcovers.isSome_iff x).1 (hcovers.isSome_of_isGround (hground s hrun) t ht x hx)
  · have hcovers := covers_of_run_scheduleRule hdb hrun
    obtain ⟨v, hv, hground⟩ := Substitution.exists_fits hcovers.grounded
    have hvalues := hhead ⟨v, hground, (run_empty_iff_holdsAt hdb).1 ⟨s, hrun, hv⟩⟩
    refine Substitution.areGround_applyAll hcovers.grounded fun t ht x hx => ?_
    exact (hcovers.isSome_iff x).2 (hvalues x (Term.mem_varsAll.2 ⟨t, ht, hx⟩))

/-- A rule that succeeds derives the instances of its head under which its literals hold when their
turn comes. The head has no wildcards then. -/
theorem mem_derive_iff_turns {facts : List Atom} (hdb : db.IsGround)
    (h : (ctx.scheduleRule r).derive ctx db = .ok facts) :
    (a ∈ facts ↔ ∃ v : Valuation, (∀ x, (v x).isGround = true) ∧
      (∀ turn ∈ ctx.turns r, turn.2.HoldsAt ctx db db turn.1 v) ∧ r.head.replace v = a) ∧
    ((∃ v : Valuation, (∀ x, (v x).isGround = true) ∧
      ∀ turn ∈ ctx.turns r, turn.2.HoldsAt ctx db db turn.1 v) →
        ∀ t ∈ r.head.terms, wildcard ∉ t.occurrences) := by
  refine ⟨?_, fun hholds t ht hmem => ?_⟩
  · rw [ScheduledRule.mem_derive h, (ScheduledRule.derive_isOk_iff.1 ⟨facts, h⟩).derives_iff
      (List.forall_mem_map.2 fun _ _ => hdb)]
    exact exists_congr fun v => and_congr_right fun _ =>
      and_congr_left fun _ => run_empty_iff_holdsAt hdb
  · have hvalues := ((derive_isOk_iff_turns hdb).1 ⟨facts, h⟩).2 hholds
    exact (hvalues wildcard (Term.mem_varsAll.2 ⟨t, ht, hmem⟩)).2 rfl

/-- What a literal reads is all that counts of a database. -/
theorem holdsAt_iff_of_agree (h : ∀ a ∈ l.atom?, Agree db db' a.predicate) :
    l.HoldsAt ctx db db known v ↔ l.HoldsAt ctx db' db' known v := by
  cases l with
  | positive a => exact exists_congr fun t => and_congr_left fun _ => h a rfl t
  | negative a => exact not_congr (exists_congr fun t => and_congr_left fun _ => h a rfl t)
  | builtin c => exact Iff.rfl

/-- The literals of a rule that hold give exact values to their variables. -/
theorem isExactOn_of_turns (hexact : r.IsExactOver db)
    (hholds : ∀ turn ∈ ctx.turns r, turn.2.HoldsAt ctx db db turn.1 v) :
    ∀ turn ∈ ctx.turns r, v.IsExactOn turn.1 := by
  refine forall_turns (P := fun bound => v.IsExactOn bound) nofun fun turn hturn hbound => ?_
  exact hbound.of_holdsAt (hexact _ (mem_body_of_mem_turns hturn)) (hholds turn hturn)

/-- If the literals of one rule hold, so do those of a rule that is matched as the first, unless its
search gets stuck. -/
theorem holdsAt_of_isMatchedAs (hsucceeds :
      ¬Stuck ctx db (reading db (ctx.scheduleRule r).body) .empty)
    (hdb : db.IsGround) (hv : ∀ x, (v x).isGround = true) (halike : r.IsMatchedAs r' ctx exact)
    (hexact : exact → r.IsExactOver db ∧ r'.IsExactOver db')
    (hnamed : ∀ a known known', (known, .negative a) ∈ ctx.turns r →
      (known', .negative a) ∈ ctx.turns r' →
        ∀ x ∈ a.vars, isAnonymous x = false → (x ∈ known ↔ x ∈ known'))
    (hagree : ∀ l ∈ r.body, l ∈ r'.body → ∀ known,
      l.HoldsAt ctx db' db' known v → l.HoldsAt ctx db db known v)
    (hother : ∀ l ∈ r.body, l ∉ r'.body → ∀ known, l.HoldsAt ctx db db known v)
    (hholds : ∀ turn ∈ ctx.turns r', turn.2.HoldsAt ctx db' db' turn.1 v) :
    ∀ turn ∈ ctx.turns r, turn.2.HoldsAt ctx db db turn.1 v := by
  refine (run_empty_iff_holdsAt hdb).1 ?_
  refine exists_run_of_turns (P := fun bound => exact → v.IsExactOn bound) covers_empty hdb
    (Substitution.fits_empty v) hsucceeds (fun _ => nofun) ?_
  rintro ⟨known, l⟩ hturn hknown hfails
  have hbody := mem_body_of_mem_turns hturn
  have hl : l.HoldsAt ctx db db known v := by
    by_cases hmem : l ∈ r'.body
    · obtain ⟨⟨known', l'⟩, hturn', heq, hindifferent⟩ := halike _ hturn hmem
      obtain rfl : l = l' := heq.symm
      refine hindifferent.holdsAt hv (fun hE => ⟨hknown hE, ?_, (hexact hE).1 l hbody⟩) ?_ hfails
        (hagree l hbody hmem known' (hholds _ hturn'))
      · exact isExactOn_of_turns (hexact hE).2 hholds _ hturn'
      · rintro a rfl
        exact hnamed a known known' hturn hturn'
    · exact hother l hbody hmem known
  exact ⟨hl, fun hE => (hknown hE).of_holdsAt ((hexact hE).1 l hbody) hl⟩

end Rules

/-! ## Guards -/

/-- The rule with a guard before its body, a positive literal that holds if the arguments of the
head at the bound positions of a pattern are stored. -/
def Rule.guardedBy (r : Rule) (g : Predicate) (p : CallPattern) : Rule :=
  ⟨r.head, .positive ⟨g, p.select r.head.terms⟩ :: r.body⟩

/-- The guard of a call that binds something is put before the body of an adorned rule. -/
theorem AdornedRule.guarded_eq_guardedBy {r : AdornedRule} {p : CallPattern}
    (hhead : r.rule.head.predicate = .adorned p) (hfree : p.isAllFree = false) :
    r.guarded = r.rule.guardedBy (.magic p) p := by
  simp [guarded, Rule.guardedBy, Atom.guard, Atom.magic?, hhead, hfree]

section Guards

variable {ctx : Context} {db db' : Database} {r : Rule} {g : Predicate} {p : CallPattern}
  {c : Tuple} {facts facts' : List Atom} {v : Valuation}

theorem Rule.IsSafe.guardedBy (h : r.IsSafe ctx) : (r.guardedBy g p).IsSafe ctx := by
  refine checkSafety_of_body h rfl (fun y hy => ?_) (fun c hc => .tail _ hc) fun l hl => ?_
  · obtain ⟨a, ha, hy⟩ := mem_positiveVars.1 hy
    exact mem_positiveVars.2 ⟨a, .tail _ ha, hy⟩
  · rcases List.mem_cons.1 hl with rfl | hl
    · exact .inl rfl
    · exact .inr hl

/-- A guard gives values to named variables only that the rule gives values to. -/
theorem Rule.IsSafe.mem_gives_guardedBy_iff (h : r.IsSafe ctx) {x : String}
    (hnamed : isAnonymous x = false) :
    x ∈ (r.guardedBy g p).body.flatMap Schedule.gives ↔ x ∈ r.body.flatMap Schedule.gives := by
  rw [Rule.guardedBy, List.flatMap_cons, List.mem_append, or_iff_right_of_imp]
  intro hx
  obtain ⟨t, ht, hx⟩ := Term.mem_varsAll.1 hx
  exact mem_gives_of_mem_limitedVars
    (h.limited_of_head (Term.mem_varsAll.2 ⟨t, CallPattern.mem_of_mem_select ht, hx⟩) hnamed)

section Stored

variable (hdb' : db'.atoms = insert ⟨g, c⟩ db.atoms) (hfresh : ∀ t, ⟨g, t⟩ ∉ db.atoms)

include hdb' hfresh in
/-- A guard holds if the arguments that it lets through are those that are stored. -/
theorem holdsAt_guard_iff {known : List String}
    (hwild : ∀ t ∈ r.head.terms, wildcard ∉ t.occurrences) :
    (Literal.positive ⟨g, p.select r.head.terms⟩).HoldsAt ctx db' db' known v ↔
      p.select (r.head.replace v).terms = c := by
  have hselect : Term.MatchesAll v (p.select r.head.terms) c ↔
      (p.select r.head.terms).map (Term.replace v) = c :=
    Term.matchesAll_iff_eq_map fun t ht => hwild t (CallPattern.mem_of_mem_select ht)
  rw [Atom.replace, CallPattern.select_map, ← hselect]
  constructor
  · rintro ⟨t, ht, hmatches⟩
    rw [hdb'] at ht
    rcases ht with heq | ht
    · exact (Atom.mk.inj heq).2 ▸ hmatches
    · exact absurd ht (hfresh t)
  · exact fun hmatches => ⟨c, hdb' ▸ Set.mem_insert _ _, hmatches⟩

include hdb' in
theorem isGround_of_atoms_eq_insert (hdb : db.IsGround) (hc : Term.areGround c = true) :
    db'.IsGround := by
  intro b hb
  rw [hdb'] at hb
  rcases hb with rfl | hb
  · exact hc
  · exact hdb b hb

include hdb' in
theorem Rule.IsExactOver.of_guardedBy (h : (r.guardedBy g p).IsExactOver db') :
    r.IsExactOver db := by
  intro l hl
  have hexact := h l (.tail _ hl)
  cases l with
  | positive a => exact fun t ht => hexact t (hdb' ▸ Set.mem_insert_of_mem _ ht)
  | negative a => trivial
  | builtin c => exact hexact

end Stored

/-- Guarding a safe rule only filters its results. The guard is over a fresh predicate with one
stored fact, the ground arguments `c`; the literals of the rule are indifferent to whether the guard
is there; and the rule succeeds with the guard and without. Then the guarded rule derives those
facts of the rule that have `c` as their arguments at the bound positions. -/
theorem Rule.IsSafe.mem_derive_guardedBy_iff (h : r.IsSafe ctx) (hdb : db.IsGround)
    (hc : Term.areGround c = true) (hdb' : db'.atoms = insert ⟨g, c⟩ db.atoms)
    (hfresh : ∀ t, ⟨g, t⟩ ∉ db.atoms) (hunused : ∀ l ∈ r.body, ∀ a ∈ l.atom?, a.predicate ≠ g)
    (halike : r.IsMatchedAs (r.guardedBy g p) ctx ((r.guardedBy g p).IsExactOver db'))
    (halike' : (r.guardedBy g p).IsMatchedAs r ctx ((r.guardedBy g p).IsExactOver db'))
    (hfacts : (ctx.scheduleRule r).derive ctx db = .ok facts)
    (hfacts' : (ctx.scheduleRule (r.guardedBy g p)).derive ctx db' = .ok facts') (a : Atom) :
    a ∈ facts' ↔ a ∈ facts ∧ p.select a.terms = c := by
  have hground := isGround_of_atoms_eq_insert hdb' hdb hc
  have hstuck := (ScheduledRule.derive_isOk_iff.1 ⟨facts, hfacts⟩).1
  have hstuck' := (ScheduledRule.derive_isOk_iff.1 ⟨facts', hfacts'⟩).1
  have hagree : ∀ l ∈ r.body, ∀ b ∈ l.atom?, Agree db db' b.predicate := by
    intro l hl b hb t
    rw [hdb', Set.mem_insert_iff, or_iff_right]
    exact fun heq => hunused l hl b hb (Atom.mk.inj heq).1
  -- Negated literals wait for the same variables, as a guard gives no new ones with names.
  have hnamed : ∀ b known known', (known, .negative b) ∈ ctx.turns r →
      (known', .negative b) ∈ ctx.turns (r.guardedBy g p) →
        ∀ x ∈ b.vars, isAnonymous x = false → (x ∈ known ↔ x ∈ known') :=
    fun b known known' hturn hturn' x hx hnamed => by
      rw [h.mem_turn_negative_iff hturn hx hnamed,
        h.guardedBy.mem_turn_negative_iff hturn' hx hnamed, h.mem_gives_guardedBy_iff hnamed]
  obtain ⟨hmem, hhead⟩ := mem_derive_iff_turns (a := a) hdb hfacts
  obtain ⟨hmem', hhead'⟩ := mem_derive_iff_turns (a := a) hground hfacts'
  rw [hmem, hmem']
  constructor
  · rintro ⟨v, hv, hholds, rfl⟩
    obtain ⟨known, hturn⟩ : ∃ known, (known, _) ∈ ctx.turns (r.guardedBy g p) :=
      exists_mem_turns (.head _)
    refine ⟨⟨v, hv, ?_, rfl⟩,
      (holdsAt_guard_iff hdb' hfresh (hhead' ⟨v, hv, hholds⟩)).1 (hholds _ hturn)⟩
    exact holdsAt_of_isMatchedAs hstuck hdb hv halike (fun hE => ⟨hE.of_guardedBy hdb', hE⟩)
      hnamed (fun l hl _ known => (holdsAt_iff_of_agree (hagree l hl)).2)
      (fun l hl hnot => absurd (.tail _ hl) hnot) hholds
  · rintro ⟨⟨v, hv, hholds, rfl⟩, hselect⟩
    refine ⟨v, hv, ?_, rfl⟩
    refine holdsAt_of_isMatchedAs hstuck' hground hv halike'
      (fun hE => ⟨hE, hE.of_guardedBy hdb'⟩)
      (fun b known known' hturn hturn' x hx hname =>
        (hnamed b known' known hturn' hturn x hx hname).symm)
      (fun l _ hl known => (holdsAt_iff_of_agree (hagree l hl)).1)
      (fun l hl hnot known => ?_) hholds
    -- The guard is the only literal that is new.
    obtain rfl := (List.mem_cons.1 hl).resolve_right hnot
    exact (holdsAt_guard_iff hdb' hfresh (hhead ⟨v, hv, hholds⟩)).2 hselect

end Guards

/-- What goods cost with a surcharge, unless they are reserved. -/
def priceRule : Rule :=
  ⟨⟨.plain "price" 2, [.var "X", .var "P"]⟩,
    [.positive ⟨.plain "cost" 2, [.var "X", .var "C"]⟩,
      .builtin ⟨"ADD", [.var "C", .const (.integer 5), .var "P"]⟩,
      .negative ⟨.plain "reserved" 2, [.var "X", .var "_"]⟩]⟩

/-- Goods with their costs, of which one is reserved. -/
def costFacts : Database :=
  let cost (x : String) (n : Int64) : Atom :=
    ⟨.plain "cost" 2, [.const (.symbol x), .const (.integer n)]⟩
  let reserved : Atom := ⟨.plain "reserved" 2, [.const (.symbol "a"), .const (.symbol "b")]⟩
  ((Database.ofFacts [cost "a" 2, cost "b" 2, cost "c" 3, reserved]).toOption).getD .empty

theorem mem_derive_guardedBy_priceRule :
    let ctx : Context := ⟨.standard, {}⟩
    let g : Predicate := .plain "wanted" 1
    let p : CallPattern := ⟨"price", [.free, .bound]⟩
    let c : Tuple := [.const (.integer 7)]
    let db' := (costFacts.insertAtom ⟨g, c⟩).2
    let price (x : String) (n : Int64) : Atom :=
      ⟨.plain "price" 2, [.const (.symbol x), .const (.integer n)]⟩
    priceRule.IsSafe ctx ∧ costFacts.IsGround ∧ Term.areGround c = true ∧
    db'.atoms = insert ⟨g, c⟩ costFacts.atoms ∧ (∀ t, ⟨g, t⟩ ∉ costFacts.atoms) ∧
    (∀ l ∈ priceRule.body, ∀ a ∈ l.atom?, a.predicate ≠ g) ∧
    priceRule.IsMatchedAs (priceRule.guardedBy g p) ctx
      ((priceRule.guardedBy g p).IsExactOver db') ∧
    (priceRule.guardedBy g p).IsMatchedAs priceRule ctx
      ((priceRule.guardedBy g p).IsExactOver db') ∧
    (ctx.scheduleRule priceRule).derive ctx costFacts = .ok [price "b" 7, price "c" 8] ∧
    (ctx.scheduleRule (priceRule.guardedBy g p)).derive ctx db' = .ok [price "b" 7] ∧
    ∀ a, a ∈ [price "b" 7] ↔ a ∈ [price "b" 7, price "c" 8] ∧ p.select a.terms = c := by
  intro ctx g p c db' price
  have hsafe : priceRule.IsSafe ctx := by decide +kernel
  have hdb : costFacts.IsGround := Database.isGround_iff.2 (by decide +kernel)
  have hc : Term.areGround c = true := by decide +kernel
  have hdb' : db'.atoms = insert ⟨g, c⟩ costFacts.atoms := by
    obtain ⟨b, hb⟩ := (Database.insertAtom_isOk_iff costFacts).2
      (⟨by decide, by decide⟩ : Atom.isGround ⟨g, c⟩ = true ∧ c.length = g.arity)
    exact Set.ext fun a => Database.mem_atoms_insertAtom hb
  have hfresh : ∀ t, ⟨g, t⟩ ∉ costFacts.atoms := by
    have hempty : (costFacts.relation g).tuples = [] := by decide +kernel
    intro t ht
    rw [Database.mem_atoms, hempty] at ht
    cases ht
  have hunused : ∀ l ∈ priceRule.body, ∀ a ∈ l.atom?, a.predicate ≠ g := by decide +kernel
  have halike : priceRule.IsMatchedAs (priceRule.guardedBy g p) ctx
      ((priceRule.guardedBy g p).IsExactOver db') := by decide +kernel
  have halike' : (priceRule.guardedBy g p).IsMatchedAs priceRule ctx
      ((priceRule.guardedBy g p).IsExactOver db') := by decide +kernel
  have hfacts : (ctx.scheduleRule priceRule).derive ctx costFacts =
      .ok [price "b" 7, price "c" 8] := by decide +kernel
  have hfacts' : (ctx.scheduleRule (priceRule.guardedBy g p)).derive ctx db' =
      .ok [price "b" 7] := by decide +kernel
  exact ⟨hsafe, hdb, hc, hdb', hfresh, hunused, halike, halike', hfacts, hfacts',
    hsafe.mem_derive_guardedBy_iff hdb hc hdb' hfresh hunused halike halike' hfacts hfacts'⟩

/-- The facts that a rule derives from the given ones, unless it fails. -/
def Rule.derivedFrom (r : Rule) (facts : List Atom) : Option (List Atom) :=
  let ctx : Context := ⟨.standard, {}⟩
  match Database.ofFacts facts with
  | .ok db => ((ctx.scheduleRule r).derive ctx db).toOption
  | .error _ => none

/-- Rules from which a guard lets more be derived, each with facts, an argument that the guard lets
through, and what the rule derives without the guard. -/
def guardCases : List (Rule × List Atom × Term × List Term) :=
  let rule (x : String) (body : List Literal) : Rule := ⟨⟨.plain "p" 1, [.var x]⟩, body⟩
  let atom (name : String) (terms : List Term) : Atom := ⟨.plain name terms.length, terms⟩
  let one : Term := .const (.double ⟨0x3ff0000000000000⟩)
  let int (n : Int64) : Term := .const (.integer n)
  let symbol (s : String) : Term := .const (.symbol s)
  -- Equal values that are different terms.
  [(rule "Y" [.positive (atom "q" [.var "X"]), .builtin ⟨"EQUAL", [.var "X", .var "Y"]⟩],
      [atom "q" [int 1]], one, [int 1]),
    -- A quotient, which leaves the remainder open.
    (rule "X" [.positive (atom "q" [.var "Y", .var "Z"]),
        .builtin ⟨"DIVIDE", [.var "X", .var "Y", .var "Z"]⟩],
      [atom "q" [int 2, int 3]], int 7, [int 6]),
    -- A product with zero, which leaves the other factor open.
    (rule "Z" [.positive (atom "q" [.var "Y"]),
        .builtin ⟨"MULTIPLY", [.var "Y", .var "Z", int 0]⟩],
      [atom "q" [int 0]], int 5, []),
    -- An anonymous variable that a negated literal shares with the head.
    (rule "_Y" [.negative (atom "r" [.var "_Y"]), .positive (atom "q" [.var "_Y"])],
      [atom "q" [symbol "a"], atom "r" [symbol "b"]], symbol "a", [])]

theorem derivedFrom_guardedBy_ne :
    (∀ e ∈ guardCases, e.1.IsSafe ⟨.standard, {}⟩) ∧
    ∀ e ∈ guardCases,
      e.1.derivedFrom e.2.1 = some (e.2.2.2.map fun t => ⟨.plain "p" 1, [t]⟩) ∧
      (e.1.guardedBy (.plain "g" 1) ⟨"p", [.bound]⟩).derivedFrom
          (e.2.1 ++ [⟨.plain "g" 1, [e.2.2.1]⟩]) = some [⟨.plain "p" 1, [e.2.2.1]⟩] ∧
      e.2.2.1 ∉ e.2.2.2 := by
  decide +kernel

end Deduction
