import Deduction.Proofs.Builtins
import Deduction.Proofs.Matching
import Deduction.Proofs.Scheduling

/-!
# What is known when a literal is matched

The variables that have values when a literal is matched are those of the positive literals and of
the builtins before it, whatever tuples have been chosen (`Matching.Run.covers`). Whether the
literal can be matched is therefore a matter of the values of these variables:

* `Literal.HoldsAt`: a literal holds under a valuation of which a part is known.
* `Matching.extends_iff_holdsAt`: matching a literal leads to the valuations under which it holds.
* `Matching.run_iff_holdsAt`: matching a body leads to the valuations under which its literals hold,
  each with what is known when its turn comes.
* `Matching.run_readingAt_iff_holdsAt`: if one positive literal reads a part of the database, it has
  to have an instance in this part, and nothing else changes.
-/

namespace Deduction

/-- What is known of a valuation when some variables have values: the wildcard never has one. -/
def Valuation.known (v : Valuation) (bound : List String) : String → Term := fun x =>
  if x ∈ bound ∧ x ≠ wildcard then v x else .var x

/-- The values that a valuation gives the variables of an atom are put in their place. -/
def Atom.replace (v : Valuation) (a : Atom) : Atom :=
  ⟨a.predicate, a.terms.map (Term.replace v)⟩

/-- The call with what is known put in the place of variables. -/
def BuiltinCall.given (c : BuiltinCall) (v : Valuation) (bound : List String) : BuiltinCall :=
  ⟨c.name, c.terms.map (Term.replace (v.known bound))⟩

theorem BuiltinCall.given_eq {c : BuiltinCall} {v : Valuation} {bound : List String}
    (h : ∀ x ∈ c.vars, x ∈ bound ∧ x ≠ wildcard) :
    c.given v bound = ⟨c.name, c.terms.map (Term.replace v)⟩ := by
  refine congrArg (BuiltinCall.mk c.name) (List.map_congr_left fun t ht => ?_)
  exact Term.replace_congr fun x hx => if_pos (h x (Term.mem_varsAll.2 ⟨t, ht, hx⟩))

/-- A call is given what is known of its own variables. -/
theorem BuiltinCall.given_congr {c : BuiltinCall} {v w : Valuation} {bound bound' : List String}
    (hv : ∀ x ∈ c.vars, x ≠ wildcard → v x = w x)
    (hbound : ∀ x ∈ c.vars, x ≠ wildcard → (x ∈ bound ↔ x ∈ bound')) :
    c.given v bound = c.given w bound' := by
  refine congrArg (BuiltinCall.mk c.name) (List.map_congr_left fun t ht => ?_)
  refine Term.replace_congr fun x hx => ?_
  have hx' := Term.mem_varsAll.2 ⟨t, ht, hx⟩
  simp only [Valuation.known, and_congr_left (hbound x hx')]
  split
  · next h => exact hv x hx' h.2
  · rfl

namespace Context

variable {ctx : Context} {c : BuiltinCall} {completed : List Term} {e : EvaluationError}

theorem evaluateCall_eq_some_iff :
    ctx.evaluateCall c = .ok (some completed) ↔
      ∃ b, ctx.registry.get? c.name = some b ∧ b.evaluate c.terms = .ok (some completed) := by
  rw [evaluateCall]
  cases hb : ctx.registry.get? c.name with
  | none => simp
  | some b =>
    simp only [Option.some.injEq, exists_eq_left']
    split <;> simp_all

/-- A call fails because its builtin is unknown, or with the error of its builtin. -/
theorem of_evaluateCall_eq_error (h : ctx.evaluateCall c = .error e) :
    (ctx.registry.get? c.name = none ∧ e = .unknownBuiltin c.name) ∨
    ∃ b cause, ctx.registry.get? c.name = some b ∧ b.evaluate c.terms = .error cause ∧
      e = .builtin c cause := by
  rw [evaluateCall] at h
  split at h
  · next hnone => exact .inl ⟨hnone, (Except.error.inj h).symm⟩
  · next b hb =>
    refine .inr ⟨b, ?_⟩
    split at h
    · cases h
    · cases h
    · next cause hcause _ => exact ⟨cause, hb, hcause, (Except.error.inj h).symm⟩

/-- A call whose builtin is not an equality fails if too many of its arguments are open. -/
theorem exists_evaluateCall_eq_error (h : ∀ b, ctx.registry.get? c.name = some b →
    b ≠ .equality ∧ b.mode.canEvaluate (c.terms.map Term.isGround) = false) :
    ∃ e, ctx.evaluateCall c = .error e := by
  rw [evaluateCall]
  cases hb : ctx.registry.get? c.name with
  | none => exact ⟨_, rfl⟩
  | some b =>
    obtain ⟨e, he, hnot⟩ := Builtin.exists_error_of_canEvaluate_eq_false (h b hb).1 (h b hb).2
    simp only [he]
    cases e with
    | divisionByZero name => exact absurd trivial hnot
    | overflow name => exact absurd trivial hnot
    | wrongArity name expected found => exact ⟨_, rfl⟩
    | unbound name args => exact ⟨_, rfl⟩

theorem areGround_of_evaluateCall (h : ctx.evaluateCall c = .ok (some completed)) :
    Term.areGround completed = true := by
  obtain ⟨b, -, h⟩ := evaluateCall_eq_some_iff.1 h
  exact Builtin.areGround_of_evaluate h

end Context

namespace Matching

variable {ctx : Context} {db full source : Database} {bound : List String} {s s' : Substitution}
  {l : Literal} {a : Atom} {c : BuiltinCall} {v : Valuation}

theorem extends_builtin :
    Extends ctx full source (.builtin c) s s' ↔ ∃ completed,
      ctx.evaluateCall ⟨c.name, s.applyAll c.terms⟩ = .ok (some completed) ∧
        (s.unifyAll (s.applyAll c.terms) completed).substitution? = some s' := by
  simp only [Extends, extensions, bind_eq_ok_iff]
  constructor
  · rintro ⟨found, ⟨completed, hcall, hfound⟩, hs'⟩
    cases completed with
    | none =>
      obtain rfl := Except.ok.inj hfound
      cases hs'
    | some completed =>
      obtain rfl := Except.ok.inj hfound
      exact ⟨completed, hcall, by simpa using hs'⟩
  · rintro ⟨completed, hcall, hs'⟩
    exact ⟨_, ⟨some completed, hcall, rfl⟩, by simp [hs']⟩

/-- Only calls fail. -/
theorem extensions_eq_error_iff {e : EvaluationError} :
    extensions ctx full source s l = .error e ↔
      ∃ c, l = .builtin c ∧ ctx.evaluateCall ⟨c.name, s.applyAll c.terms⟩ = .error e := by
  cases l with
  | positive a => simp [extensions]
  | negative a => simp [extensions]
  | builtin c =>
    simp only [extensions, bind_eq_error_iff, Literal.builtin.injEq, exists_eq_left']
    refine or_iff_left ?_
    rintro ⟨completed, -, h⟩
    cases completed <;> cases h

/-! ## The variables with values -/

/-- Exactly the variables in `bound` have values, apart from the wildcard. -/
structure Covers (s : Substitution) (bound : List String) : Prop where
  /-- The values are ground. -/
  grounded : s.Grounded
  /-- The variables with values. -/
  isSome_iff : ∀ x, (s.get? x).isSome ↔ x ∈ bound ∧ x ≠ wildcard

theorem covers_empty : Covers .empty [] :=
  ⟨Substitution.grounded_empty, by simp [Substitution.empty]⟩

/-- A literal that has been matched has given values to its variables. -/
theorem Covers.of_extends (hs : Covers s bound) (hsource : source.IsGround)
    (h : Extends ctx full source l s s') : Covers s' (bound ++ Schedule.gives l) := by
  cases l with
  | positive a =>
    obtain ⟨t, ht, hunify⟩ := extends_positive.1 h
    obtain ⟨hgrounded, -, hdomain⟩ :=
      Substitution.unifyAll_eq_some hs.grounded (hsource _ ht) hunify
    refine ⟨hgrounded, fun x => ?_⟩
    rw [hdomain, hs.isSome_iff, List.mem_append, Schedule.gives, Atom.vars, Term.mem_varsAll,
      or_and_right]
  | negative a =>
    obtain ⟨-, rfl⟩ := extends_negative.1 h
    simpa [Schedule.gives, Schedule.binds] using hs
  | builtin c =>
    obtain ⟨completed, hcall, hunify⟩ := extends_builtin.1 h
    obtain ⟨hgrounded, -, hdomain⟩ := Substitution.unifyAll_eq_some hs.grounded
      (Context.areGround_of_evaluateCall hcall) hunify
    refine ⟨hgrounded, fun x => ?_⟩
    -- The completed arguments give values to the variables that were open.
    have hopen : (∃ t ∈ s.applyAll c.terms, x ∈ t.occurrences) ↔
        x ∈ c.vars ∧ s.get? x = none := by
      rw [BuiltinCall.vars, Term.mem_varsAll]
      constructor
      · rintro ⟨_, hu, hx⟩
        obtain ⟨t, ht, rfl⟩ := List.mem_map.1 hu
        obtain ⟨hx, hnone⟩ := (Substitution.mem_occurrences_apply_iff hs.grounded).1 hx
        exact ⟨⟨t, ht, hx⟩, hnone⟩
      · rintro ⟨⟨t, ht, hx⟩, hnone⟩
        exact ⟨_, List.mem_map_of_mem ht,
          (Substitution.mem_occurrences_apply_iff hs.grounded).2 ⟨hx, hnone⟩⟩
    have hgives : Schedule.gives (.builtin c) = c.vars := rfl
    rw [hdomain, hopen, hs.isSome_iff, List.mem_append, hgives]
    have hnone : s.get? x = none ↔ ¬(x ∈ bound ∧ x ≠ wildcard) := by
      rw [← hs.isSome_iff, Option.not_isSome_iff_eq_none]
    tauto

/-- A run gives values to the variables of its literals. -/
theorem Covers.of_run {body : List (Literal × Database)} (hs : Covers s bound)
    (hbody : ∀ x ∈ body, x.2.IsGround) (h : Run ctx full body s s') :
    Covers s' (bound ++ body.flatMap fun x => Schedule.gives x.1) := by
  induction h generalizing bound with
  | nil s => simpa using hs
  | cons hext _ ih =>
    rw [List.forall_mem_cons] at hbody
    have hcovers := ih (hs.of_extends hbody.1 hext) hbody.2
    rwa [List.flatMap_cons, ← List.append_assoc]

/-- The terms of a literal are matched with what is known put in the place of variables. -/
theorem Covers.apply_eq (hs : Covers s bound) (hv : s.Fits v) (t : Term) :
    s.apply t = t.replace (v.known bound) := by
  rw [Substitution.apply_eq_replace hs.grounded]
  refine Term.replace_congr fun x _ => ?_
  rw [Valuation.known]
  cases hx : s.get? x with
  | none => rw [if_neg ((hs.isSome_iff x).not.1 (by simp [hx])), Option.getD_none]
  | some u => rw [if_pos ((hs.isSome_iff x).1 (by simp [hx])), hv x u hx, Option.getD_some]

theorem Covers.applyAll_eq (hs : Covers s bound) (hv : s.Fits v) (ts : List Term) :
    s.applyAll ts = ts.map (Term.replace (v.known bound)) :=
  List.map_congr_left fun t _ => hs.apply_eq hv t

/-- A valuation fits a substitution if the two give the same values to the variables that the
substitution binds. -/
theorem Covers.fits_iff (hs : Covers s bound) :
    s.Fits v ↔ ∀ x ∈ bound, x ≠ wildcard → s.apply (.var x) = v x := by
  constructor
  · intro hv x hx hne
    rw [hs.apply_eq hv, Term.replace, Valuation.known, if_pos ⟨hx, hne⟩]
  · intro h x u hu
    obtain ⟨hx, hne⟩ := (hs.isSome_iff x).1 (by rw [hu]; rfl)
    rw [← h x hx hne, Substitution.apply_eq_replace hs.grounded, Term.replace, hu, Option.getD_some]

/-- All variables of an atom that has become ground have values. -/
theorem Covers.isSome_of_isGround (hs : Covers s bound)
    (hground : (s.applyAtom a).isGround = true) :
    ∀ t ∈ a.terms, ∀ x ∈ t.occurrences, (s.get? x).isSome := by
  intro t ht x hx
  have hopen := Term.isGround_iff.1 (Term.areGround_iff.1 hground _ (List.mem_map_of_mem ht))
  rw [← Option.ne_none_iff_isSome]
  intro hnone
  have hmem := (Substitution.mem_occurrences_apply_iff hs.grounded).2 ⟨hx, hnone⟩
  rw [hopen] at hmem
  cases hmem

/-- An atom that has become ground has the values of its variables. -/
theorem Covers.applyAtom_eq (hs : Covers s bound) (hv : s.Fits v)
    (hground : (s.applyAtom a).isGround = true) : s.applyAtom a = a.replace v := by
  rw [Substitution.applyAtom, Atom.replace, Substitution.applyAll]
  refine congrArg (Atom.mk _) (List.map_congr_left fun t ht => ?_)
  exact Substitution.apply_eq_replace_of_fits hs.grounded hv (hs.isSome_of_isGround hground t ht)

theorem Covers.isGround_apply_iff (hs : Covers s bound) {t : Term}
    (hwild : wildcard ∉ t.occurrences) :
    (s.apply t).isGround = t.isCoveredBy bound := by
  rw [Bool.eq_iff_iff, Term.isGround_iff, List.eq_nil_iff_forall_not_mem, Term.isCoveredBy,
    List.all_eq_true]
  simp only [Substitution.mem_occurrences_apply_iff hs.grounded, not_and, decide_eq_true_eq]
  refine forall₂_congr fun x hx => ?_
  rw [← ne_eq, Option.ne_none_iff_isSome, hs.isSome_iff]
  exact and_iff_left fun heq => hwild (heq ▸ hx)

end Matching

/-! ## Literals at their turn -/

/-- A literal holds under a valuation of which the variables in `bound` are known when its turn
comes: an instance of a positive one is stored, no stored fact is an instance of a negated one
whatever the other variables stand for, and a builtin completes the arguments to their values. -/
def Literal.HoldsAt (ctx : Context) (full source : Database) (bound : List String)
    (v : Valuation) : Literal → Prop
  | .positive a => ∃ t, ⟨a.predicate, t⟩ ∈ source.atoms ∧ Term.MatchesAll v a.terms t
  | .negative a => ¬∃ t, ⟨a.predicate, t⟩ ∈ full.atoms ∧
      ∃ w : Valuation, (∀ x ∈ bound, x ≠ wildcard → w x = v x) ∧ Term.MatchesAll w a.terms t
  | .builtin c => ∃ completed,
      ctx.evaluateCall (c.given v bound) = .ok (some completed) ∧
        Term.MatchesAll v c.terms completed

/-- Matching a literal fails when its turn comes. -/
def Literal.FailsAt (ctx : Context) (bound : List String) (v : Valuation) (l : Literal) : Prop :=
  ∃ c e, l = .builtin c ∧ ctx.evaluateCall (c.given v bound) = .error e

/-- A literal that fails does not hold. -/
theorem Literal.FailsAt.not_holdsAt {ctx : Context} {full source : Database}
    {bound : List String} {v : Valuation} {l : Literal} (h : l.FailsAt ctx bound v) :
    ¬l.HoldsAt ctx full source bound v := by
  obtain ⟨c, e, rfl, he⟩ := h
  rintro ⟨completed, hcompleted, -⟩
  rw [he] at hcompleted
  cases hcompleted

section Congr

variable {ctx : Context} {full source : Database} {bound bound' : List String} {l : Literal}
  {v w : Valuation}

/-- Whether a literal holds at its turn depends on the values of its own variables, and on which of
them are known. -/
theorem Literal.HoldsAt.congr (hv : ∀ x ∈ l.vars, x ≠ wildcard → v x = w x)
    (hbound : ∀ x ∈ l.vars, x ≠ wildcard → (x ∈ bound ↔ x ∈ bound'))
    (h : l.HoldsAt ctx full source bound v) : l.HoldsAt ctx full source bound' w := by
  have hterms : ∀ t ∈ l.terms, ∀ x ∈ t.occurrences, x ∈ l.vars := fun t ht x hx =>
    Term.mem_varsAll.2 ⟨t, ht, hx⟩
  cases l with
  | positive a =>
    obtain ⟨t, ht, hmatches⟩ := h
    exact ⟨t, ht, (Term.matchesAll_congr fun u hu x hx => hv x (hterms u hu x hx)).1 hmatches⟩
  | negative a =>
    rintro ⟨t, ht, w', hw', hmatches⟩
    refine h ⟨t, ht, fun x => if x ∈ bound then v x else w' x, fun x hx _ => if_pos hx, ?_⟩
    refine (Term.matchesAll_congr fun u hu x hx hne => ?_).1 hmatches
    have hx' := hterms u hu x hx
    split
    · next hmem => rw [hw' x ((hbound x hx' hne).1 hmem) hne, hv x hx' hne]
    · rfl
  | builtin c =>
    obtain ⟨completed, hcall, hmatches⟩ := h
    rw [BuiltinCall.given_congr hv hbound] at hcall
    exact ⟨completed, hcall,
      (Term.matchesAll_congr fun u hu x hx => hv x (hterms u hu x hx)).1 hmatches⟩

theorem Literal.failsAt_congr (hv : ∀ x ∈ l.vars, x ≠ wildcard → v x = w x)
    (hbound : ∀ x ∈ l.vars, x ≠ wildcard → (x ∈ bound ↔ x ∈ bound')) :
    l.FailsAt ctx bound v ↔ l.FailsAt ctx bound' w := by
  refine exists_congr fun c => exists_congr fun e => and_congr_right ?_
  rintro rfl
  rw [BuiltinCall.given_congr hv hbound]

end Congr

namespace Matching

variable {ctx : Context} {db full source : Database} {bound : List String}
  {s s' : Substitution} {l : Literal} {a : Atom} {c : BuiltinCall} {v : Valuation}

theorem fails_iff_failsAt (hs : Covers s bound) (hv : s.Fits v) :
    Fails ctx full source l s ↔ l.FailsAt ctx bound v := by
  simp only [Fails, extensions_eq_error_iff, hs.applyAll_eq hv, Literal.FailsAt,
    BuiltinCall.given]
  exact exists_comm

/-- A stored tuple matches an atom if it is an instance for some values of what is not known. -/
theorem Covers.matchesAny_iff (hs : Covers s bound) (hfull : full.IsGround) (hv : s.Fits v) :
    full.matchesAny a s = true ↔ ∃ t, ⟨a.predicate, t⟩ ∈ full.atoms ∧
      ∃ w : Valuation, (∀ x ∈ bound, x ≠ wildcard → w x = v x) ∧
        Term.MatchesAll w a.terms t := by
  rw [Database.matchesAny_iff hfull hs.grounded]
  refine exists_congr fun t => and_congr_right fun _ => exists_congr fun w =>
    and_congr_left fun _ => ⟨fun hw x hx hne => ?_, fun hw x u hu => ?_⟩
  · obtain ⟨u, hu⟩ := Option.isSome_iff_exists.1 ((hs.isSome_iff x).2 ⟨hx, hne⟩)
    rw [hw x u hu, hv x u hu]
  · obtain ⟨hx, hne⟩ := (hs.isSome_iff x).1 (Option.isSome_of_eq_some hu)
    rw [hw x hx hne, hv x u hu]

/-- Matching a literal leads to the valuations under which it holds at its turn. -/
theorem extends_iff_holdsAt (hs : Covers s bound) (hfull : full.IsGround)
    (hsource : source.IsGround) :
    (∃ s', Extends ctx full source l s s' ∧ s'.Fits v) ↔
      s.Fits v ∧ l.HoldsAt ctx full source bound v := by
  cases l with
  | positive a =>
    simp only [extends_positive, Literal.HoldsAt]
    constructor
    · rintro ⟨s', ⟨t, ht, hunify⟩, hv⟩
      obtain ⟨hv, hmatches⟩ :=
        (Substitution.exists_unifyAll_iff hs.grounded (hsource _ ht)).1 ⟨s', hunify, hv⟩
      exact ⟨hv, t, ht, hmatches⟩
    · rintro ⟨hv, t, ht, hmatches⟩
      obtain ⟨s', hunify, hv⟩ :=
        (Substitution.exists_unifyAll_iff hs.grounded (hsource _ ht)).2 ⟨hv, hmatches⟩
      exact ⟨s', ⟨t, ht, hunify⟩, hv⟩
  | negative a =>
    simp only [extends_negative, Literal.HoldsAt]
    constructor
    · rintro ⟨s', ⟨hnot, rfl⟩, hv⟩
      exact ⟨hv, (hs.matchesAny_iff hfull hv).not.1 hnot⟩
    · rintro ⟨hv, hnot⟩
      exact ⟨s, ⟨(hs.matchesAny_iff hfull hv).not.2 hnot, rfl⟩, hv⟩
  | builtin c =>
    simp only [extends_builtin, Literal.HoldsAt, BuiltinCall.given]
    constructor
    · rintro ⟨s', ⟨completed, hcall, hunify⟩, hv⟩
      obtain ⟨hv, hmatches⟩ := (Substitution.exists_unifyAll_iff hs.grounded
        (Context.areGround_of_evaluateCall hcall)).1 ⟨s', hunify, hv⟩
      rw [Substitution.matchesAll_applyAll_iff hs.grounded hv] at hmatches
      exact ⟨hv, completed, by rwa [← hs.applyAll_eq hv], hmatches⟩
    · rintro ⟨hv, completed, hcall, hmatches⟩
      rw [← hs.applyAll_eq hv] at hcall
      rw [← Substitution.matchesAll_applyAll_iff hs.grounded hv] at hmatches
      obtain ⟨s', hunify, hv⟩ := (Substitution.exists_unifyAll_iff hs.grounded
        (Context.areGround_of_evaluateCall hcall)).2 ⟨hv, hmatches⟩
      exact ⟨s', ⟨completed, hcall, hunify⟩, hv⟩

end Matching

/-! ## Bodies in order -/

/-- The literals of a body in the order in which they are matched, each with the variables that have
values when its turn comes. -/
def Schedule.turns : (bound : List String) → List Literal → List (List String × Literal)
  | _, [] => []
  | bound, l :: body => (bound, l) :: turns (bound ++ gives l) body

theorem Schedule.map_snd_turns (bound : List String) (body : List Literal) :
    (turns bound body).map (·.2) = body := by
  induction body generalizing bound with
  | nil => rfl
  | cons l body ih => rw [turns, List.map_cons, ih]

theorem Schedule.forall_mem_turns_iff {bound : List String} {body : List Literal}
    {P : Literal → Prop} : (∀ turn ∈ turns bound body, P turn.2) ↔ ∀ l ∈ body, P l := by
  rw [← List.forall_mem_map, map_snd_turns]

theorem Schedule.mem_turns_iff {bound known : List String} {body : List Literal} {l : Literal} :
    (known, l) ∈ turns bound body ↔
      ∃ xs ys, body = xs ++ l :: ys ∧ known = bound ++ xs.flatMap gives := by
  induction body generalizing bound with
  | nil => simp [turns]
  | cons m body ih =>
    rw [turns, List.mem_cons, ih]
    constructor
    · rintro (heq | ⟨xs, ys, rfl, rfl⟩)
      · obtain ⟨rfl, rfl⟩ := Prod.mk.inj heq
        exact ⟨[], body, rfl, by simp⟩
      · exact ⟨m :: xs, ys, rfl, by simp⟩
    · rintro ⟨_ | ⟨x, xs⟩, ys, hbody, rfl⟩
      · obtain ⟨rfl, rfl⟩ := List.cons.inj hbody
        exact .inl (by simp)
      · obtain ⟨rfl, rfl⟩ := List.cons.inj hbody
        exact .inr ⟨xs, ys, rfl, by simp⟩

namespace Matching

variable {ctx : Context} {db : Database} {bound : List String} {s : Substitution}
  {body : List Literal} {v : Valuation} {P : List String → Prop}

/-- Matching a literal and then others leads to the valuations under which the literal holds at its
turn, of those to which the others lead. -/
theorem run_cons_iff_holdsAt {full source : Database} {l : Literal}
    {rest : List (Literal × Database)} {Rest : Prop} (hs : Covers s bound) (hfull : full.IsGround)
    (hsource : source.IsGround)
    (hrest : ∀ s₁, Covers s₁ (bound ++ Schedule.gives l) →
      ((∃ s', Run ctx full rest s₁ s' ∧ s'.Fits v) ↔ s₁.Fits v ∧ Rest)) :
    (∃ s', Run ctx full ((l, source) :: rest) s s' ∧ s'.Fits v) ↔
      s.Fits v ∧ l.HoldsAt ctx full source bound v ∧ Rest := by
  rw [← and_assoc, ← extends_iff_holdsAt hs hfull hsource]
  constructor
  · rintro ⟨s', hrun, hv⟩
    obtain - | ⟨hs₁, hrun⟩ := hrun
    obtain ⟨hfits, hholds⟩ := (hrest _ (hs.of_extends hsource hs₁)).1 ⟨s', hrun, hv⟩
    exact ⟨⟨_, hs₁, hfits⟩, hholds⟩
  · rintro ⟨⟨s₁, hs₁, hfits⟩, hholds⟩
    obtain ⟨s', hrun, hv⟩ := (hrest _ (hs.of_extends hsource hs₁)).2 ⟨hfits, hholds⟩
    exact ⟨s', .cons hs₁ hrun, hv⟩

/-- Matching a body leads to the valuations under which its literals hold when their turn comes. -/
theorem run_iff_holdsAt (hs : Covers s bound) (hdb : db.IsGround) :
    (∃ s', Run ctx db (reading db body) s s' ∧ s'.Fits v) ↔
      s.Fits v ∧ ∀ turn ∈ Schedule.turns bound body, turn.2.HoldsAt ctx db db turn.1 v := by
  induction body generalizing bound s with
  | nil =>
    constructor
    · rintro ⟨s', ⟨⟩, hv⟩
      exact ⟨hv, nofun⟩
    · rintro ⟨hv, -⟩
      exact ⟨s, .nil s, hv⟩
  | cons l body ih =>
    rw [Schedule.turns, List.forall_mem_cons]
    exact run_cons_iff_holdsAt hs hdb hdb fun s₁ hs₁ => ih hs₁

theorem run_empty_iff_holdsAt (hdb : db.IsGround) :
    (∃ s, Run ctx db (reading db body) .empty s ∧ s.Fits v) ↔
      ∀ turn ∈ Schedule.turns [] body, turn.2.HoldsAt ctx db db turn.1 v :=
  (run_iff_holdsAt covers_empty hdb).trans (and_iff_right (Substitution.fits_empty v))

/-- Matching a body in which one positive literal reads a part of the database leads to those
valuations, of the ones to which the whole database leads, under which a fact of the part is an
instance of this literal. -/
theorem run_readingAt_iff_holdsAt {delta : Database} {a : Atom} {i : Nat} (hs : Covers s bound)
    (hdb : db.IsGround) (hdelta : delta.atoms ⊆ db.atoms) (hi : body[i]? = some (.positive a)) :
    (∃ s', Run ctx db (readingAt db delta body i) s s' ∧ s'.Fits v) ↔
      s.Fits v ∧ (∀ turn ∈ Schedule.turns bound body, turn.2.HoldsAt ctx db db turn.1 v) ∧
        ∃ t, ⟨a.predicate, t⟩ ∈ delta.atoms ∧ Term.MatchesAll v a.terms t := by
  induction body generalizing bound s i with
  | nil => cases hi
  | cons l body ih =>
    rw [Schedule.turns, List.forall_mem_cons]
    cases i with
    | zero =>
      obtain rfl : l = .positive a := Option.some.inj hi
      have hground : delta.IsGround := fun b hb => hdb b (hdelta hb)
      rw [readingAt_cons_zero,
        run_cons_iff_holdsAt hs hdb hground fun s₁ hs₁ => run_iff_holdsAt hs₁ hdb]
      refine and_congr_right fun _ => ?_
      constructor
      · rintro ⟨⟨t, ht, hmatches⟩, hrest⟩
        exact ⟨⟨⟨t, hdelta ht, hmatches⟩, hrest⟩, t, ht, hmatches⟩
      · rintro ⟨⟨-, hrest⟩, hnew⟩
        exact ⟨hnew, hrest⟩
    | succ i =>
      rw [readingAt_cons_succ, run_cons_iff_holdsAt hs hdb hdb fun s₁ hs₁ => ih hs₁ hi, and_assoc]

/-- A search gets stuck if a literal fails when its turn comes, and those before it hold. -/
theorem stuck_iff_turns (hs : Covers s bound) (hdb : db.IsGround) :
    Stuck ctx db (reading db body) s ↔
      ∃ v : Valuation, (∀ x, (v x).isGround = true) ∧ s.Fits v ∧
        ∃ before turn after, Schedule.turns bound body = before ++ turn :: after ∧
          (∀ turn' ∈ before, turn'.2.HoldsAt ctx db db turn'.1 v) ∧
          turn.2.FailsAt ctx turn.1 v := by
  induction body generalizing bound s with
  | nil =>
    refine iff_of_false nofun ?_
    rintro ⟨v, -, -, before, turn, after, heq, -⟩
    simp [Schedule.turns] at heq
  | cons l body ih =>
    constructor
    · intro h
      obtain ⟨hfails⟩ | ⟨hs', hstuck⟩ := h
      · obtain ⟨v, hv, hground⟩ := Substitution.exists_fits hs.grounded
        exact ⟨v, hground, hv, [], (bound, l), _, rfl, nofun, (fails_iff_failsAt hs hv).1 hfails⟩
      · obtain ⟨v, hground, hv, before, turn, after, heq, hbefore, hfails⟩ :=
          (ih (hs.of_extends hdb hs')).1 hstuck
        obtain ⟨hv, hholds⟩ := (extends_iff_holdsAt hs hdb hdb).1 ⟨_, hs', hv⟩
        exact ⟨v, hground, hv, (bound, l) :: before, turn, after,
          congrArg ((bound, l) :: ·) heq, List.forall_mem_cons.2 ⟨hholds, hbefore⟩, hfails⟩
    · rintro ⟨v, hground, hv, before, turn, after, heq, hbefore, hfails⟩
      rw [Schedule.turns] at heq
      cases before with
      | nil =>
        obtain ⟨rfl, -⟩ := List.cons.inj heq
        exact .here ((fails_iff_failsAt hs hv).2 hfails)
      | cons first before =>
        obtain ⟨rfl, hrest⟩ := List.cons.inj heq
        rw [List.forall_mem_cons] at hbefore
        obtain ⟨s₁, hs₁, hv⟩ := (extends_iff_holdsAt hs hdb hdb).2 ⟨hv, hbefore.1⟩
        exact .later hs₁ ((ih (hs.of_extends hdb hs₁)).2
          ⟨v, hground, hv, before, turn, after, hrest, hbefore.2, hfails⟩)

/-- A search does not get stuck if no literal can fail when its turn comes. -/
theorem not_stuck_of_turns (hs : Covers s bound) (hdb : db.IsGround)
    (hturn : ∀ turn ∈ Schedule.turns bound body, ∀ v : Valuation,
      (∀ x, (v x).isGround = true) → ¬turn.2.FailsAt ctx turn.1 v) :
    ¬Stuck ctx db (reading db body) s := by
  intro hstuck
  obtain ⟨v, hground, -, before, turn, after, heq, -, hfails⟩ :=
    (stuck_iff_turns hs hdb).1 hstuck
  exact hturn turn (heq ▸ List.mem_append_right _ (.head _)) v hground hfails

/-- What the literals that hold preserve is the case at every turn. -/
theorem forall_turns (hbound : P bound)
    (hstep : ∀ turn ∈ Schedule.turns bound body, P turn.1 → P (turn.1 ++ Schedule.gives turn.2)) :
    ∀ turn ∈ Schedule.turns bound body, P turn.1 := by
  induction body generalizing bound with
  | nil => nofun
  | cons l body ih =>
    rw [Schedule.turns, List.forall_mem_cons] at hstep ⊢
    exact ⟨hbound, ih (hstep.1 hbound) hstep.2⟩

/-- A search that cannot get stuck leads to a valuation if its literals hold when their turn comes,
given that matching them does not fail. What the literals preserve is known at every turn. -/
theorem exists_run_of_turns (hs : Covers s bound) (hdb : db.IsGround) (hv : s.Fits v)
    (hstuck : ¬Stuck ctx db (reading db body) s) (hbound : P bound)
    (hturn : ∀ turn ∈ Schedule.turns bound body, P turn.1 → ¬turn.2.FailsAt ctx turn.1 v →
      turn.2.HoldsAt ctx db db turn.1 v ∧ P (turn.1 ++ Schedule.gives turn.2)) :
    ∃ s', Run ctx db (reading db body) s s' ∧ s'.Fits v := by
  induction body generalizing bound s with
  | nil => exact ⟨s, .nil s, hv⟩
  | cons l body ih =>
    rw [Schedule.turns, List.forall_mem_cons] at hturn
    have hfails : ¬l.FailsAt ctx bound v := fun hfails =>
      hstuck (.here ((fails_iff_failsAt hs hv).2 hfails))
    obtain ⟨hholds, hnext⟩ := hturn.1 hbound hfails
    obtain ⟨s₁, hs₁, hfits⟩ := (extends_iff_holdsAt hs hdb hdb).2 ⟨hv, hholds⟩
    obtain ⟨s', hrun, hv⟩ := ih (hs.of_extends hdb hs₁) hfits
      (fun hstuck' => hstuck (.later hs₁ hstuck')) hnext hturn.2
    exact ⟨s', .cons hs₁ hrun, hv⟩

/-- A run through the body of a rule gives values to the variables of its literals. -/
theorem covers_of_run_scheduleRule {r : Rule} (hdb : db.IsGround)
    (h : Run ctx db (reading db (ctx.scheduleRule r).body) .empty s) :
    Covers s (r.body.flatMap Schedule.gives) := by
  have hcovers := covers_empty.of_run (List.forall_mem_map.2 fun _ _ => hdb) h
  refine ⟨hcovers.grounded, fun x => (hcovers.isSome_iff x).trans (and_congr_left fun _ => ?_)⟩
  simp [Context.scheduleRule, mem_schedule]

end Matching

end Deduction
