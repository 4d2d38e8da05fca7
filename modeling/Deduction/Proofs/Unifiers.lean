import Deduction.Proofs.Unification

/-!
# Unifications one after the other

A unification extends the bindings that earlier ones have made. What these are worth is said by the
valuations that absorb them (`Valuation.Absorbs`): a valuation absorbs a substitution if it makes no
difference to it whether variables are first replaced by what they stand for.

Successful unifications of terms without the wildcard lead to substitutions that are solved and have
no wildcards (`Substitution.Unified.triangular_and_wildcardFree`). From there on a unification
succeeds if some valuation absorbs what is bound and makes the terms equal, and then the bindings
are the most general such solution (`unify_mostGeneral`).
-/

namespace Deduction

/-- Replacing variables by what they stand for makes no difference to a valuation. -/
def Valuation.Absorbs (v : Valuation) (s : Substitution) : Prop :=
  ∀ x, (s.apply (.var x)).replace v = v x

theorem Unifier.substitution?_of_solved {u : Unifier} (h : u.solved = true) :
    u.substitution? = some u.bindings :=
  if_pos h

theorem Unifier.substitution?_eq_some_iff {u : Unifier} {s : Substitution} :
    u.substitution? = some s ↔ u.solved = true ∧ u.bindings = s := by
  rw [substitution?, Option.ite_none_right_eq_some, Option.some.injEq]

theorem Unifier.substitution?_eq_none_iff {u : Unifier} :
    u.substitution? = none ↔ ¬u.solved = true := by
  rw [substitution?, ite_eq_right_iff]
  simp

/-- Bindings that are there are kept, as they are made for other variables. -/
theorem Unifier.get?_solve_of_get? {eqs : List Equation} {s : Substitution} {y : String} {u : Term}
    (hfree : ∀ x ∈ Equation.occurrences eqs, s.get? x = none) (hy : s.get? y = some u) :
    (solve eqs s).bindings.get? y = some u := by
  fun_induction solve eqs s with
  | case1 eqs s _ => exact hy
  | case2 eqs s _ => exact hy
  | case3 eqs s x t rest hbinding _ ih =>
    have hx := hfree x (Equation.occurrences_of_advance hbinding).1
    have hne : y ≠ x := by
      rintro rfl
      simp [hx] at hy
    refine ih (fun z hz => ?_) (by rw [Substitution.get?_bind, if_neg hne, hy])
    obtain ⟨hz, hzx⟩ := Equation.mem_occurrences_of_mem_eliminate hbinding hz
    rw [Substitution.get?_bind, if_neg hzx, hfree z hz]

namespace Substitution

variable {s : Substitution} {v : Valuation} {t u : Term} {ts us : List Term} {x : String}

/-! ## Absorption -/

/-- Absorbing solved bindings is agreeing with each of them. -/
theorem Triangular.absorbs_iff (hs : s.Triangular) : v.Absorbs s ↔ s.SolvedBy v := by
  constructor
  · intro h x t hx
    have hself : s.apply (.var x) = s.apply t := hs.solvedBy_resolve x t hx
    calc v x = (s.apply (.var x)).replace v := (h x).symm
      _ = (s.apply t).replace v := by rw [hself]
      _ = t.replace v := by
        rw [apply, Term.replace_replace]
        exact Term.replace_congr fun y _ => h y
  · exact fun h x => h.replace_apply (.var x)

/-- Unification keeps the bindings that are there. -/
theorem Triangular.get?_unifyAll_of_get? (hs : s.Triangular) (hx : s.get? x = some t) :
    (s.unifyAll ts us).bindings.get? x = some t := by
  rw [unifyAll]
  split
  · refine Unifier.get?_solve_of_get? (fun y hy => ?_) hx
    obtain ⟨u, -, hy⟩ := mem_occurrences_zip_applyAll hy
    exact hs.get?_of_mem_apply y hy
  · exact hx

/-! ## Wildcards -/

/-- The wildcard is not bound, and does not occur in what is bound to variables. -/
def WildcardFree (s : Substitution) : Prop :=
  ∀ x t, s.get? x = some t → x ≠ wildcard ∧ wildcard ∉ t.occurrences

theorem wildcardFree_empty : empty.WildcardFree :=
  fun x t h => by simp [empty] at h

theorem WildcardFree.resolve (hs : s.WildcardFree) (hx : x ≠ wildcard) (n : Nat) :
    wildcard ∉ (s.resolve n x).occurrences := by
  induction n generalizing x with
  | zero => exact fun hmem => hx (List.mem_singleton.1 hmem).symm
  | succ n ih =>
    rw [Substitution.resolve]
    cases hget : s.get? x with
    | none => exact fun hmem => hx (List.mem_singleton.1 hmem).symm
    | some t =>
      intro hmem
      obtain ⟨y, hy, hmem⟩ := (Term.mem_occurrences_replace t).1 hmem
      exact ih (fun heq => (hs x t hget).2 (heq ▸ hy)) hmem

/-- No wildcards come in when variables are replaced by what they stand for. -/
theorem WildcardFree.apply (hs : s.WildcardFree) (ht : wildcard ∉ t.occurrences) :
    wildcard ∉ (s.apply t).occurrences := by
  intro hmem
  obtain ⟨x, hx, hmem⟩ := (Term.mem_occurrences_replace t).1 hmem
  exact hs.resolve (fun heq => ht (heq ▸ hx)) _ hmem

/-- A unification of terms without the wildcard makes no bindings with it, whether it succeeds or
not. -/
theorem WildcardFree.unifyAll (hs : s.WildcardFree)
    (hwild : ∀ t ∈ ts ++ us, wildcard ∉ t.occurrences) :
    (s.unifyAll ts us).bindings.WildcardFree := by
  rw [Substitution.unifyAll]
  split
  · refine Unifier.of_get?_solve (P := fun t => wildcard ∉ t.occurrences) ?_ ?_ ?_ hs
    · intro k ts hts t ht hmem
      rw [Term.occurrences, Term.occurrencesAll_eq_flatMap] at hts
      exact hts (List.mem_flatMap.2 ⟨t, ht, hmem⟩)
    · intro x t u ht hu hmem
      obtain ⟨y, hy, hmem⟩ := (Term.mem_occurrences_replace u).1 hmem
      rw [single] at hmem
      split at hmem
      · exact ht hmem
      · exact hu (List.mem_singleton.1 hmem ▸ hy)
    · rintro ⟨l, r⟩ he
      obtain ⟨hl, hr⟩ := List.of_mem_zip he
      obtain ⟨t, ht, rfl⟩ := List.mem_map.1 hl
      obtain ⟨u, hu, rfl⟩ := List.mem_map.1 hr
      exact ⟨hs.apply (hwild t (List.mem_append_left _ ht)),
        hs.apply (hwild u (List.mem_append_right _ hu))⟩
  · exact hs

/-! ## Runs of unifications -/

/-- The substitutions to which successful unifications of terms without the wildcard lead. -/
inductive Unified : Substitution → Prop where
  /-- Nothing is bound before the first unification. -/
  | empty : Unified empty
  /-- Two terms are unified. -/
  | unify {s : Substitution} {t u : Term} (hs : Unified s) (ht : wildcard ∉ t.occurrences)
    (hu : wildcard ∉ u.occurrences) (h : (s.unify t u).solved = true) :
    Unified (s.unify t u).bindings
  /-- Two lists of terms are unified. -/
  | unifyAll {s : Substitution} {ts us : List Term} (hs : Unified s)
    (hwild : ∀ t ∈ ts ++ us, wildcard ∉ t.occurrences) (h : (s.unifyAll ts us).solved = true) :
    Unified (s.unifyAll ts us).bindings
  /-- Two atoms are unified. -/
  | unifyAtoms {s : Substitution} {a b : Atom} (hs : Unified s)
    (hwild : ∀ t ∈ a.terms ++ b.terms, wildcard ∉ t.occurrences)
    (h : (s.unifyAtoms a b).solved = true) : Unified (s.unifyAtoms a b).bindings

/-- Atoms that can be unified are unified by their terms. -/
theorem unifyAtoms_eq_of_solved {a b : Atom} (h : (s.unifyAtoms a b).solved = true) :
    s.unifyAtoms a b = s.unifyAll a.terms b.terms := by
  rw [Substitution.unifyAtoms] at h ⊢
  split
  · rfl
  · next hne =>
    rw [if_neg hne] at h
    cases h

/-- What all successful unifications of lists of terms keep, all successful unifications keep. -/
theorem Unified.induction {P : Substitution → Prop} (hempty : P Substitution.empty)
    (hstep : ∀ {s : Substitution} {ts us : List Term}, P s →
      (∀ t ∈ ts ++ us, wildcard ∉ t.occurrences) → (s.unifyAll ts us).solved = true →
      P (s.unifyAll ts us).bindings) (h : s.Unified) : P s := by
  induction h with
  | empty => exact hempty
  | @unify s t u _ ht hu h ih =>
    have hwild : ∀ w ∈ [t] ++ [u], wildcard ∉ w.occurrences := by simpa using ⟨ht, hu⟩
    exact hstep ih hwild h
  | unifyAll _ hwild h ih => exact hstep ih hwild h
  | unifyAtoms _ hwild h ih =>
    have heq := unifyAtoms_eq_of_solved h
    rw [heq] at h ⊢
    exact hstep ih hwild h

/-- Bindings that unifications have made are solved and have no wildcards. -/
theorem Unified.triangular_and_wildcardFree (h : s.Unified) : s.Triangular ∧ s.WildcardFree := by
  refine h.induction (P := fun s => s.Triangular ∧ s.WildcardFree) ⟨.empty, wildcardFree_empty⟩ ?_
  intro s ts us hs hwild hsolved
  have hspec := unifyAll_equates hs.1 fun t ht => hs.2.apply (hwild t ht)
  rw [Unifier.substitution?_of_solved hsolved] at hspec
  exact ⟨hspec.1, hs.2.unifyAll hwild⟩

/-- The bindings of one substitution extend those of another, and are a most general solution of the
equations between the members of two lists. -/
structure IsMostGeneralUnifier (s' s : Substitution) (ts us : List Term) : Prop where
  /-- The terms become equal. -/
  unifies : s'.applyAll ts = s'.applyAll us
  /-- The bindings are kept. -/
  keeps : ∀ x t, s.get? x = some t → s'.get? x = some t
  /-- The bindings are a solution of those that are kept. -/
  absorbs : Valuation.Absorbs (fun x => s'.apply (.var x)) s
  /-- Every solution is an instance of the bindings. -/
  general : ∀ v : Valuation, v.Absorbs s →
    ts.map (Term.replace v) = us.map (Term.replace v) → v.Absorbs s'

section Unified

variable (hs : s.Unified) (hwild : ∀ t ∈ ts ++ us, wildcard ∉ t.occurrences)

include hs hwild

theorem Unified.isMostGeneralUnifier (h : (s.unifyAll ts us).solved = true) :
    (s.unifyAll ts us).bindings.IsMostGeneralUnifier s ts us := by
  obtain ⟨htriangular, hfree⟩ := hs.triangular_and_wildcardFree
  have hspec := unifyAll_equates htriangular fun t ht => hfree.apply (hwild t ht)
  rw [Unifier.substitution?_of_solved h] at hspec
  obtain ⟨htriangular', hsolved⟩ := hspec
  obtain ⟨hself, hequal⟩ := (hsolved _).1 htriangular'.solvedBy_resolve
  refine ⟨hequal, fun x t => htriangular.get?_unifyAll_of_get?, htriangular.absorbs_iff.2 hself,
    fun v hv heq => ?_⟩
  exact htriangular'.absorbs_iff.2 ((hsolved v).2 ⟨htriangular.absorbs_iff.1 hv, heq⟩)

/-- A unification succeeds if there is a solution. -/
theorem Unified.solved_iff : (s.unifyAll ts us).solved = true ↔
    ∃ v : Valuation, v.Absorbs s ∧ ts.map (Term.replace v) = us.map (Term.replace v) := by
  constructor
  · intro h
    have hgeneral := hs.isMostGeneralUnifier hwild h
    exact ⟨_, hgeneral.absorbs, hgeneral.unifies⟩
  · rintro ⟨v, hv, heq⟩
    obtain ⟨htriangular, hfree⟩ := hs.triangular_and_wildcardFree
    have hspec := unifyAll_equates htriangular fun t ht => hfree.apply (hwild t ht)
    by_contra hnot
    rw [Unifier.substitution?, if_neg hnot] at hspec
    exact hspec v (htriangular.absorbs_iff.1 hv) heq

end Unified

end Substitution

/-- Unification finds most general unifiers. After any successful unifications of terms without the
wildcard, the unification of two such terms succeeds if and only if there is a valuation that
absorbs what is bound and makes the terms equal. If it succeeds, the terms are equal under the
extended bindings, those that were there are kept, and every such valuation absorbs the extended
bindings, too. The same holds for two lists of terms, and lists of different lengths are never
unified. -/
theorem unify_mostGeneral {s : Substitution} (hs : s.Unified) :
    (∀ t u : Term, wildcard ∉ t.occurrences → wildcard ∉ u.occurrences →
      ((s.unify t u).solved = true ↔
        ∃ v : Valuation, v.Absorbs s ∧ t.replace v = u.replace v) ∧
      ((s.unify t u).solved = true →
        (s.unify t u).bindings.IsMostGeneralUnifier s [t] [u])) ∧
    (∀ ts us : List Term, (∀ t ∈ ts ++ us, wildcard ∉ t.occurrences) →
      ((s.unifyAll ts us).solved = true ↔
        ∃ v : Valuation, v.Absorbs s ∧ ts.map (Term.replace v) = us.map (Term.replace v)) ∧
      ((s.unifyAll ts us).solved = true →
        (s.unifyAll ts us).bindings.IsMostGeneralUnifier s ts us)) ∧
    ∀ ts us : List Term, ts.length ≠ us.length → (s.unifyAll ts us).solved = false := by
  refine ⟨fun t u ht hu => ?_, fun ts us hwild => ?_, fun ts us hlength => ?_⟩
  · have hwild : ∀ w ∈ [t] ++ [u], wildcard ∉ w.occurrences := by simpa using ⟨ht, hu⟩
    have hsolved := hs.solved_iff hwild
    refine ⟨?_, hs.isMostGeneralUnifier hwild⟩
    simpa [Substitution.unify_eq_unifyAll] using hsolved
  · exact ⟨hs.solved_iff hwild, hs.isMostGeneralUnifier hwild⟩
  · rw [Substitution.unifyAll, if_neg hlength]

/-- A variable has been bound to a term. Then a pair of terms is unified whose solution goes on from
there, but the variable of that term is not unified with the bound one, in which it occurs. -/
theorem unify_mostGeneral_nested :
    let x : Term := .var "X"
    let f (t : Term) : Term := .app "f" [t]
    let pair (t u : Term) : Term := .app "pair" [t, u]
    let s := (Substitution.empty.unify x (f (.var "Y"))).bindings
    let nested := s.unify (pair x (.var "Z")) (pair (f (.var "W")) (f x))
    s.Unified ∧ nested.solved = true ∧
      nested.bindings.IsMostGeneralUnifier s [pair x (.var "Z")] [pair (f (.var "W")) (f x)] ∧
      ¬∃ v : Valuation, v.Absorbs s ∧ (Term.var "Y").replace v = x.replace v := by
  intro x f pair s nested
  have hs : s.Unified := .unify .empty (by decide) (by decide) (by decide +kernel)
  have hnested : nested.solved = true := by decide +kernel
  obtain ⟨hunify, -, -⟩ := unify_mostGeneral hs
  refine ⟨hs, hnested, (hunify _ _ (by decide) (by decide)).2 hnested, fun hsolution => ?_⟩
  have hsolved := (hunify (.var "Y") x (by decide) (by decide)).1.2 hsolution
  exact absurd hsolved (by decide +kernel)

end Deduction
