import Deduction.Proofs.Unifiers
import Deduction.Proofs.GroundUnification

/-!
# Looking up stored facts

A lookup unifies a pattern with the tuples of a relation, under bindings that earlier unifications
have made. Such bindings (`Substitution.Reachable`) are free of cycles and leave the wildcard alone,
so they may be applied to the pattern first: what they bind has no part in the unification
(`Substitution.unifyAll_eq_over`). Of a tuple without variables this says all that there is to know:

* `Substitution.solved_unifyAll_iff`: the unification succeeds if the tuple is an instance of what
  the pattern stands for.
* `Substitution.isMatch_unifyAll`: the bindings that it makes are the least with which the pattern
  matches the tuple.
* `Database.query_exact`: a lookup returns one substitution for each instance, and the test for a
  match agrees with it.
-/

namespace Deduction

namespace Unifier

variable {eqs : List Equation} {s r base : Substitution}

/-- What is bound already has no part in solving equations: it may as well be added afterwards. -/
theorem solve_over (h : ∀ x, s.get? x = (r.get? x).or (base.get? x)) :
    (solve eqs s).solved = (solve eqs r).solved ∧
      ∀ x, (solve eqs s).bindings.get? x = ((solve eqs r).bindings.get? x).or (base.get? x) := by
  fun_induction solve eqs s generalizing r with
  | case1 eqs s hsolved =>
    rw [solve]
    split <;> simp_all
  | case2 eqs s hclash =>
    rw [solve]
    split <;> simp_all
  | case3 eqs s x t rest hbinding _ ih =>
    rw [solve.eq_def eqs r]
    split
    · simp_all
    · simp_all
    · next x' t' rest' hbinding' =>
      obtain ⟨rfl, rfl, rfl⟩ := Equation.Progress.binding.inj (hbinding.symm.trans hbinding')
      refine ih fun y => ?_
      rw [Substitution.get?_bind, Substitution.get?_bind, h y]
      split <;> rfl

/-- Each variable that is bound has not been bound before, and does not occur in what it is bound
to. -/
theorem triangular_solve (hs : s.Triangular)
    (hfree : ∀ x ∈ Equation.occurrences eqs, s.get? x = none) :
    (solve eqs s).bindings.Triangular := by
  fun_induction solve eqs s with
  | case1 eqs s _ => exact hs
  | case2 eqs s _ => exact hs
  | case3 eqs s x t rest hbinding _ ih =>
    obtain ⟨hx, ht, -, hxt⟩ := Equation.occurrences_of_advance hbinding
    refine ih (.bind hs (hfree x hx) hxt fun y hy => hfree y (ht y hy)) fun y hy => ?_
    obtain ⟨hy, hne⟩ := Equation.mem_occurrences_of_mem_eliminate hbinding hy
    rw [Substitution.get?_bind, if_neg hne, hfree y hy]

end Unifier

namespace Substitution

variable {s s' : Substitution} {v : Valuation} {ts us : List Term} {x : String}

/-! ## Runs of unifications -/

/-- The substitutions to which unifications lead, whether they succeed or not. -/
inductive Reachable : Substitution → Prop
  /-- Nothing is bound before the first unification. -/
  | empty : Reachable empty
  /-- Two terms are unified. -/
  | unify {s : Substitution} (hs : Reachable s) (t u : Term) : Reachable (s.unify t u).bindings
  /-- Two lists of terms are unified. -/
  | unifyAll {s : Substitution} (hs : Reachable s) (ts us : List Term) :
    Reachable (s.unifyAll ts us).bindings
  /-- Two atoms are unified. -/
  | unifyAtoms {s : Substitution} (hs : Reachable s) (a b : Atom) :
    Reachable (s.unifyAtoms a b).bindings

/-- What every unification of lists of terms keeps, every unification keeps. -/
theorem Reachable.induction {P : Substitution → Prop} (hempty : P Substitution.empty)
    (hstep : ∀ {s : Substitution} (ts us : List Term), P s → P (s.unifyAll ts us).bindings)
    (h : s.Reachable) : P s := by
  induction h with
  | empty => exact hempty
  | unify _ t u ih => exact hstep [t] [u] ih
  | unifyAll _ ts us ih => exact hstep ts us ih
  | unifyAtoms _ a b ih =>
    rw [Substitution.unifyAtoms]
    split
    · exact hstep a.terms b.terms ih
    · exact ih

theorem Triangular.unifyAll (hs : s.Triangular) : (s.unifyAll ts us).bindings.Triangular := by
  rw [Substitution.unifyAll]
  split
  · refine Unifier.triangular_solve hs fun x hx => ?_
    obtain ⟨t, -, hx⟩ := mem_occurrences_zip_applyAll hx
    exact hs.get?_of_mem_apply x hx
  · exact hs

theorem get?_unifyAll_wildcard (hs : s.get? wildcard = none) :
    (s.unifyAll ts us).bindings.get? wildcard = none := by
  have hne : ∀ x t, s.get? x = some t → x ≠ wildcard ∧ True := by
    rintro x t hx
    refine ⟨?_, trivial⟩
    rintro rfl
    simp [hs] at hx
  rw [Substitution.unifyAll]
  split
  · refine Option.eq_none_iff_forall_ne_some.2 fun t ht => ?_
    exact (Unifier.of_get?_solve (P := fun _ => True) (fun _ _ _ _ _ => trivial)
      (fun _ _ _ _ _ => trivial) (fun _ _ => ⟨trivial, trivial⟩) hne _ t ht).1 rfl
  · exact hs

/-- The bindings that unifications make are free of cycles, and none of them is for the wildcard. -/
theorem Reachable.triangular (h : s.Reachable) : s.Triangular ∧ s.get? wildcard = none :=
  h.induction (P := fun s => s.Triangular ∧ s.get? wildcard = none) ⟨.empty, rfl⟩
    fun _ _ hs => ⟨hs.1.unifyAll, get?_unifyAll_wildcard hs.2⟩

/-! ## Matches -/

/-- Matching a tuple with terms is matching it, with nothing bound, with what they stand for. -/
theorem unifyAll_eq_over (s : Substitution) (ts : List Term) (hus : Term.areGround us = true) :
    (s.unifyAll ts us).solved = (empty.unifyAll (s.applyAll ts) us).solved ∧
      ∀ x, (s.unifyAll ts us).bindings.get? x =
        ((empty.unifyAll (s.applyAll ts) us).bindings.get? x).or (s.get? x) := by
  have happly : s.applyAll us = us := Term.map_replace_eq_self hus
  have hempty (ws : List Term) : empty.applyAll ws = ws :=
    (List.map_congr_left fun w _ => apply_empty w).trans (List.map_id ws)
  rw [unifyAll, unifyAll, length_applyAll, happly, hempty, hempty]
  split
  · exact Unifier.solve_over fun x => rfl
  · exact ⟨rfl, fun x => rfl⟩

/-- The bindings extend others so that terms match a tuple. -/
structure IsMatch (s' s : Substitution) (ts us : List Term) : Prop where
  /-- What is bound stays as it is. -/
  keeps : ∀ x t, s.get? x = some t → s'.get? x = some t
  /-- The variables that the terms still have become bound, except for the wildcard, and no
  others. -/
  isSome_iff : ∀ x, s.get? x = none →
    ((s'.get? x).isSome ↔ x ≠ wildcard ∧ ∃ t ∈ s.applyAll ts, x ∈ t.occurrences)
  /-- The terms become the tuple, up to wildcards. -/
  matchesAll : ∀ v, Term.MatchesAll v (s'.applyAll ts) us

/-- Once a valuation has put values in place of all variables but the wildcard, no other valuation
makes a difference. -/
theorem matchesAll_map_replace {v w : Valuation} (hwild : w wildcard = .var wildcard)
    (hground : ∀ t ∈ ts, ∀ x ∈ t.occurrences, x ≠ wildcard → (w x).isGround = true)
    (h : Term.MatchesAll w ts us) : Term.MatchesAll v (ts.map (Term.replace w)) us := by
  have hself : Term.MatchesAll w (ts.map (Term.replace w)) us := by
    rw [Term.matchesAll_iff] at h ⊢
    rw [List.forall₂_map_left_iff]
    refine (forall₂_congr_left fun t ht u => Term.matches_replace_iff fun x hx => ?_).2 h
    by_cases hxw : x = wildcard
    · exact .inl (hxw ▸ hwild)
    · exact .inr ⟨hxw, rfl, hground t ht x hx hxw⟩
  refine (Term.matchesAll_congr fun t ht x hx hxw => ?_).1 hself
  -- No variable but the wildcard is left.
  obtain ⟨u, hu, rfl⟩ := List.mem_map.1 ht
  obtain ⟨y, hy, hx⟩ := (Term.mem_occurrences_replace u).1 hx
  by_cases hyw : y = wildcard
  · rw [hyw, hwild] at hx
    exact absurd (List.mem_singleton.1 hx) hxw
  · simp [Term.isGround_iff.1 (hground u hu y hy hyw)] at hx

/-- Bindings to values with which terms match a tuple may be added to others that the terms no longer
mention. -/
theorem matchesAll_applyAll_of_values {values : Substitution} (hs' : s'.Triangular)
    (hwild : s'.get? wildcard = none) (hkeeps : ∀ x t, s.get? x = some t → s'.get? x = some t)
    (hadds : ∀ x t, values.get? x = some t → s'.get? x = some t) (hground : values.Grounded)
    (hbound : ∀ t ∈ s.applyAll ts, ∀ x ∈ t.occurrences, x ≠ wildcard → (values.get? x).isSome)
    (hmatches : ∀ w, values.Fits w → Term.MatchesAll w (s.applyAll ts) us) (v : Valuation) :
    Term.MatchesAll v (s'.applyAll ts) us := by
  -- What the variables stand for is a solution of all bindings, the old ones and the values.
  have hself := hs'.solvedBy_resolve
  have hwildcard := resolve_of_get?_eq_none hwild s'.size
  have happly : s'.applyAll ts = (s.applyAll ts).map (Term.replace (s'.resolve s'.size)) := by
    have hold : s.SolvedBy (s'.resolve s'.size) := fun x t hx => hself x t (hkeeps x t hx)
    rw [applyAll, applyAll, List.map_map]
    exact List.map_congr_left fun t _ => (hold.replace_apply t).symm
  generalize s'.resolve s'.size = w at hself hwildcard happly
  have hfits : values.Fits w := fun x t hx => by
    rw [hself x t (hadds x t hx), Term.replace_eq_self (hground.value hx)]
  rw [happly]
  refine matchesAll_map_replace hwildcard (fun t ht x hx hxw => ?_) (hmatches w hfits)
  obtain ⟨u, hu⟩ := Option.isSome_iff_exists.1 (hbound t ht x hx hxw)
  rw [hfits x u hu]
  exact hground.value hu

/-- A unification with a tuple that succeeds makes the least bindings with which the terms match
it. -/
theorem isMatch_unifyAll (hs : s.Triangular) (hwild : s.get? wildcard = none)
    (hus : Term.areGround us = true) (h : (s.unifyAll ts us).solved = true) :
    (s.unifyAll ts us).bindings.IsMatch s ts us := by
  obtain ⟨hsolved, hget⟩ := unifyAll_eq_over s ts hus
  have hnew := Unifier.substitution?_of_solved (hsolved ▸ h)
  obtain ⟨hground, hfits, hdomain⟩ := unifyAll_eq_some grounded_empty hus hnew
  have hempty : ∀ x, (empty.get? x).isSome = false := fun _ => rfl
  refine ⟨fun x t => hs.get?_unifyAll_of_get?, fun x hx => ?_, ?_⟩
  · rw [hget, hx, Option.or_none, hdomain, hempty]
    simp [and_comm]
  · refine matchesAll_applyAll_of_values hs.unifyAll (get?_unifyAll_wildcard hwild)
      (fun x t => hs.get?_unifyAll_of_get?) (fun x t hx => ?_) hground
      (fun t ht x hx hxw => (hdomain x).2 (.inr ⟨⟨t, ht, hx⟩, hxw⟩))
      fun w hw => ((hfits w).1 hw).2
    rw [hget, hx, Option.some_or]

/-- A unification with a tuple succeeds if the tuple is an instance of what the terms stand for. -/
theorem solved_unifyAll_iff (hus : Term.areGround us = true) :
    (s.unifyAll ts us).solved = true ↔ ∃ v, Term.MatchesAll v (s.applyAll ts) us := by
  rw [(unifyAll_eq_over s ts hus).1, solved_unifyAll_empty_iff hus]

end Substitution

namespace Database

variable {db : Database} {s : Substitution} {pattern : Atom}

/-- There is a result if a stored tuple is an instance of what the pattern stands for. -/
theorem query_ne_nil_iff (hdb : db.IsGround) : db.query pattern s ≠ [] ↔
    ∃ t, ⟨pattern.predicate, t⟩ ∈ db.atoms ∧
      ∃ v, Term.MatchesAll v (s.applyAll pattern.terms) t := by
  rw [query, Ne, List.filterMap_eq_nil_iff]
  push Not
  refine exists_congr fun t => ?_
  rw [mem_tuples_iff]
  refine and_congr_right fun ht => ?_
  rw [← Substitution.solved_unifyAll_iff (hdb _ ht), Ne, Unifier.substitution?_eq_none_iff, not_not]

open scoped Classical in
/-- A lookup in a database of ground facts is exact, whatever unifications have bound before. It
returns one substitution for each stored tuple that is an instance of what the pattern stands for,
in the order of the tuples; each of them keeps what was bound, binds the variables that the pattern
still had, and with it the pattern matches the tuple. The test for a match succeeds if the lookup
has a result. -/
theorem query_exact (hdb : db.IsGround) (hs : s.Reachable) (pattern : Atom) :
    List.Forall₂ (fun t s' => s'.IsMatch s pattern.terms t)
      ((db.relation pattern.predicate).tuples.filter fun t =>
        ∃ v, Term.MatchesAll v (s.applyAll pattern.terms) t)
      (db.query pattern s) ∧
    (db.matchesAny pattern s = true ↔ db.query pattern s ≠ []) := by
  obtain ⟨htriangular, hwild⟩ := hs.triangular
  have hground : ∀ t ∈ (db.relation pattern.predicate).tuples, Term.areGround t = true :=
    fun t ht => hdb _ (mem_tuples_iff.1 ht)
  constructor
  · refine forall₂_filterMap (fun t ht s' hs' => ?_) fun t ht hnone => ?_
    · obtain ⟨hsolved, rfl⟩ := Unifier.substitution?_eq_some_iff.1 hs'
      exact ⟨(Substitution.solved_unifyAll_iff (hground t ht)).1 hsolved,
        Substitution.isMatch_unifyAll htriangular hwild (hground t ht) hsolved⟩
    · rw [← Substitution.solved_unifyAll_iff (hground t ht)]
      exact Unifier.substitution?_eq_none_iff.1 hnone
  · rw [matchesAny_iff_exists_instance hdb, query_ne_nil_iff hdb]

/-- A variable stands for a term with a further variable, and the pattern has both of them and a
wildcard. Of three tuples two are instances. -/
theorem query_exact_nested :
    let symbol (s : String) : Term := .const (.symbol s)
    let f (t : Term) : Term := .app "f" [t]
    let fact (t u w : Term) : Atom := ⟨.plain "p" 3, [t, u, w]⟩
    let facts := [fact (f (symbol "a")) (symbol "a") (symbol "c"),
      fact (f (symbol "a")) (symbol "b") (symbol "c"),
      fact (f (symbol "b")) (symbol "b") (f (symbol "c"))]
    let db := ((ofFacts facts).toOption).getD .empty
    let s := (Substitution.empty.unify (.var "X") (f (.var "Y"))).bindings
    let pattern := fact (.var "X") (.var "Y") (.var wildcard)
    db.IsGround ∧ s.Reachable ∧ db.matchesAny pattern s = true ∧ (db.query pattern s).length = 2 ∧
      ∃ s' ∈ db.query pattern s,
        s'.IsMatch s pattern.terms [f (symbol "b"), symbol "b", f (symbol "c")] := by
  intro symbol f fact facts db s pattern
  have hdb : db.IsGround := isGround_iff.2 (by decide +kernel)
  have hs : s.Reachable := .unify .empty _ _
  obtain ⟨hmatches, htest⟩ := query_exact hdb hs pattern
  have hlength : (db.query pattern s).length = 2 := by decide +kernel
  have hinstance : ∃ v, Term.MatchesAll v (s.applyAll pattern.terms)
      [f (symbol "b"), symbol "b", f (symbol "c")] :=
    (Substitution.solved_unifyAll_iff rfl).1 (by decide +kernel)
  refine ⟨hdb, hs, htest.2 (List.ne_nil_of_length_pos (by omega)), hlength, ?_⟩
  refine exists_of_forall₂ hmatches (List.mem_filter.2 ⟨by decide +kernel, ?_⟩)
  simpa using hinstance

end Database

end Deduction
