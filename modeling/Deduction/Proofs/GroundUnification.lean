import Deduction.Proofs.Instances
import Deduction.Proofs.Storage

/-!
# Unification with ground terms

Matching a literal unifies its terms with a stored tuple, which is ground. The bindings that result
are the least that make the tuple an instance of the terms:

* `Equation.advance_spec`, `Unifier.solve_spec`: what solving equations with ground right sides
  does.
* `Substitution.unifyAll_eq_some`, `unifyAll_eq_none`: a valuation fits the bindings exactly if it
  fitted them before and makes the tuple an instance; if there is no such valuation, unification
  fails.
* `Database.matchesAny_iff`: a stored tuple matches an atom under some valuation that fits.
-/

namespace Deduction

/-! ## Substitutions with ground values -/

namespace Substitution

/-- All bound terms are ground, and the wildcard is not bound. -/
structure Grounded (s : Substitution) : Prop where
  /-- Bound terms are ground. -/
  value : ∀ {x t}, s.get? x = some t → t.isGround = true
  /-- The wildcard is not bound. -/
  wildcard : s.get? wildcard = none

/-- A valuation gives the bound variables the values that they are bound to. -/
def Fits (s : Substitution) (v : Valuation) : Prop :=
  ∀ x t, s.get? x = some t → v x = t

variable {s : Substitution} {v : Valuation} {x : String} {t u : Term} {ts us : List Term}

theorem grounded_empty : empty.Grounded :=
  ⟨fun h => by simp [empty] at h, rfl⟩

theorem fits_empty (v : Valuation) : empty.Fits v := fun x t h => by simp [empty] at h

theorem Grounded.bind (hs : s.Grounded) (hx : x ≠ Deduction.wildcard) (ht : t.isGround = true) :
    (s.bind x t).Grounded := by
  refine ⟨fun {y u} h => ?_, ?_⟩
  · rw [get?_bind] at h
    split at h
    · obtain rfl := Option.some.inj h
      exact ht
    · exact hs.value h
  · rw [get?_bind, if_neg (Ne.symm hx)]
    exact hs.wildcard

theorem fits_bind (hx : s.get? x = none) : (s.bind x t).Fits v ↔ s.Fits v ∧ v x = t := by
  constructor
  · intro h
    refine ⟨fun y u hy => h y u ?_, h x t (by rw [get?_bind, if_pos rfl])⟩
    -- A fresh variable does not hide an older binding.
    have hne : y ≠ x := by
      rintro rfl
      simp [hx] at hy
    rw [get?_bind, if_neg hne, hy]
  · rintro ⟨h, hv⟩ y u hy
    rw [get?_bind] at hy
    split at hy
    · next hyx => rw [hyx, hv, Option.some.inj hy]
    · exact h y u hy

/-- A variable stands for what it is bound to, or for itself. -/
theorem apply_eq_replace (hs : s.Grounded) (t : Term) :
    s.apply t = t.replace fun x => (s.get? x).getD (.var x) := by
  refine Term.replace_congr fun x _ => ?_
  -- The fuel is the number of bindings: with none nothing is bound, and with one step a ground
  -- value is reached.
  cases hn : s.size with
  | zero =>
    have hnil : s.entries = [] := List.length_eq_zero_iff.1 hn
    simp [resolve, Table.get?, hnil]
  | succ n =>
    rw [resolve]
    cases hx : s.get? x with
    | none => rfl
    | some u => simp [Term.replace_eq_self (hs.value hx)]

theorem apply_eq_replace_of_fits (hs : s.Grounded) (hv : s.Fits v)
    (h : ∀ x ∈ t.occurrences, (s.get? x).isSome) : s.apply t = t.replace v := by
  rw [apply_eq_replace hs]
  refine Term.replace_congr fun x hx => ?_
  obtain ⟨u, hu⟩ := Option.isSome_iff_exists.1 (h x hx)
  rw [hu, Option.getD_some, hv x u hu]

/-- Every grounded substitution has a ground valuation that fits it. -/
theorem exists_fits (hs : s.Grounded) : ∃ v : Valuation, s.Fits v ∧ ∀ x, (v x).isGround = true := by
  -- Any constant will do for the variables that are not bound.
  refine ⟨fun x => (s.get? x).getD (.const (.boolean true)), fun x t h => by simp [h], fun x => ?_⟩
  cases h : s.get? x with
  | none => simp [h, Term.isGround]
  | some t => simpa [h] using hs.value h

theorem matches_apply_iff (hs : s.Grounded) (hv : s.Fits v) :
    Term.Matches v (s.apply t) u ↔ Term.Matches v t u := by
  rw [apply_eq_replace hs]
  refine Term.matches_replace_iff fun x _ => ?_
  cases h : s.get? x with
  | none => exact .inl rfl
  | some t =>
    refine .inr ⟨?_, (hv x t h).symm, (hv x t h).symm ▸ hs.value h⟩
    rintro rfl
    simp [hs.wildcard] at h

theorem matchesAll_applyAll_iff (hs : s.Grounded) (hv : s.Fits v) :
    Term.MatchesAll v (s.applyAll ts) us ↔ Term.MatchesAll v ts us := by
  rw [Term.matchesAll_iff, Term.matchesAll_iff, applyAll, List.forall₂_map_left_iff]
  exact forall₂_congr_left fun t _ u => matches_apply_iff hs hv

theorem applyAll_eq_self (hs : s.Grounded) (h : Term.areGround ts = true) : s.applyAll ts = ts := by
  rw [applyAll, List.map_congr_left fun t _ => apply_eq_replace hs t]
  exact Term.map_replace_eq_self h

/-- The variables that are left in a term are those that are not bound. -/
theorem mem_occurrences_apply_iff (hs : s.Grounded) :
    x ∈ (s.apply t).occurrences ↔ x ∈ t.occurrences ∧ s.get? x = none := by
  rw [apply_eq_replace hs, Term.mem_occurrences_replace]
  constructor
  · rintro ⟨y, hy, hx⟩
    cases hget : s.get? y with
    | none =>
      obtain rfl : x = y := by simpa [hget, Term.occurrences] using hx
      exact ⟨hy, hget⟩
    | some u => simp [hget, Term.isGround_iff.1 (hs.value hget)] at hx
  · rintro ⟨hx, hget⟩
    exact ⟨x, hx, by simp [hget, Term.occurrences]⟩

/-- Terms are ground when their variables have been replaced by values. -/
theorem areGround_applyAll (hs : s.Grounded)
    (h : ∀ t ∈ ts, ∀ x ∈ t.occurrences, (s.get? x).isSome) :
    Term.areGround (s.applyAll ts) = true := by
  rw [Term.areGround_iff, applyAll, List.forall_mem_map]
  intro t ht
  rw [Term.isGround_iff, List.eq_nil_iff_forall_not_mem]
  intro x hx
  obtain ⟨hx, hnone⟩ := (mem_occurrences_apply_iff hs).1 hx
  simpa [hnone] using h t ht x hx

end Substitution

/-! ## Equations with ground right sides -/

namespace Equation

variable {eqs rest : List Equation} {v : Valuation} {x : String} {t : Term}

/-- The right sides of the equations are instances of the left sides under a valuation. -/
def Solves (v : Valuation) (eqs : List Equation) : Prop :=
  ∀ e ∈ eqs, Term.Matches v e.1 e.2

/-- The right sides of the equations are ground. -/
def GroundRight (eqs : List Equation) : Prop :=
  ∀ e ∈ eqs, e.2.isGround = true

theorem solves_cons {e : Equation} : Solves v (e :: eqs) ↔ Term.Matches v e.1 e.2 ∧ Solves v eqs :=
  List.forall_mem_cons

theorem solves_append {more : List Equation} :
    Solves v (eqs ++ more) ↔ Solves v eqs ∧ Solves v more :=
  List.forall_mem_append

theorem solves_zip_iff {ts us : List Term} (h : ts.length = us.length) :
    Solves v (ts.zip us) ↔ Term.MatchesAll v ts us := by
  rw [Term.matchesAll_iff, List.forall₂_iff_zip, Solves]
  exact ⟨fun hall => ⟨h, fun hmem => hall _ hmem⟩, fun hall e he => hall.2 he⟩

/-- What taking equations apart says about the valuations that solve them. -/
def AdvanceSpec (eqs : List Equation) : Progress → Prop
  | .solved => (∀ v, Solves v eqs) ∧ ∀ x ∈ occurrences eqs, x = wildcard
  | .clash => ∀ v, ¬Solves v eqs
  | .binding x t rest => x ≠ wildcard ∧ t.isGround = true ∧ GroundRight rest ∧
      (∀ v, Solves v eqs ↔ v x = t ∧ Solves v rest) ∧
      ∀ y ∈ occurrences eqs, y = wildcard ∨ y = x ∨ y ∈ occurrences rest

theorem AdvanceSpec.of_iff {eqs' : List Equation} {progress : Progress}
    (h : AdvanceSpec eqs' progress) (hsolves : ∀ v, Solves v eqs ↔ Solves v eqs')
    (hvars : ∀ y ∈ occurrences eqs, y = wildcard ∨ y ∈ occurrences eqs') :
    AdvanceSpec eqs progress := by
  cases progress with
  | solved => exact ⟨fun v => (hsolves v).2 (h.1 v), fun x hx => (hvars x hx).elim id (h.2 x)⟩
  | clash => exact fun v hv => h v ((hsolves v).1 hv)
  | binding x t rest =>
    obtain ⟨hx, ht, hrest, hv, hocc⟩ := h
    exact ⟨hx, ht, hrest, fun v => (hsolves v).trans (hv v),
      fun y hy => (hvars y hy).elim .inl (hocc y)⟩

theorem occurrences_cons_of_isGround {t u : Term} (hu : u.isGround = true) :
    occurrences ((t, u) :: eqs) = t.occurrences ++ occurrences eqs := by
  simp [occurrences, Term.isGround_iff.1 hu]

theorem groundRight_zip {us : List Term} (ts : List Term) (hus : Term.areGround us = true) :
    GroundRight (ts.zip us) :=
  fun e he => Term.areGround_iff.1 hus e.2 (List.of_mem_zip he).2

theorem occurrences_zip {ts us : List Term} (hus : Term.areGround us = true)
    (h : ts.length = us.length) : occurrences (ts.zip us) = ts.flatMap Term.occurrences := by
  calc
    occurrences (ts.zip us) = (ts.zip us).flatMap fun e => e.1.occurrences :=
      List.flatMap_congr fun e he => by
        rw [Term.isGround_iff.1 (groundRight_zip ts hus e he), List.append_nil]
    _ = ts.flatMap Term.occurrences := by rw [← List.flatMap_map, List.map_fst_zip h.le]

theorem advance_spec (h : GroundRight eqs) : AdvanceSpec eqs (advance eqs) := by
  fun_induction advance eqs with
  | case1 => exact ⟨fun v e he => by simp at he, fun x hx => by simp [occurrences] at hx⟩
  -- An equation is skipped for the wildcard; the other two reasons need a variable on the right.
  | case2 y u eqs hskip ih =>
    obtain ⟨hu, hrest⟩ := List.forall_mem_cons.1 h
    have hy : y = wildcard := by
      rcases hskip with hy | rfl | rfl
      · exact hy
      · cases hu
      · cases hu
    refine (ih hrest).of_iff (fun v => ?_) fun z hz => ?_
    · rw [solves_cons, and_iff_right]
      exact .inl hy
    · rw [occurrences_cons_of_isGround hu] at hz
      rcases List.mem_cons.1 hz with rfl | hz
      · exact .inl hy
      · exact .inr hz
  -- The occurs check cannot fail against a ground term.
  | case3 y u eqs _ hmem =>
    have hu := (List.forall_mem_cons.1 h).1
    simp [Term.isGround_iff.1 hu] at hmem
  -- A variable other than the wildcard gets the right side as its value.
  | case4 y u eqs hskip _ =>
    obtain ⟨hu, hrest⟩ := List.forall_mem_cons.1 h
    have hy : y ≠ wildcard := fun hy => hskip (.inl hy)
    refine ⟨hy, hu, hrest, fun v => ?_, fun z hz => ?_⟩
    · rw [solves_cons, Term.Matches, or_iff_right hy, eq_comm]
    · rw [occurrences_cons_of_isGround hu] at hz
      exact .inr (List.mem_cons.1 hz)
  -- A variable on the right is not ground.
  | case5 | case6 | case7 => exact absurd (List.forall_mem_cons.1 h).1 Bool.false_ne_true
  -- Constants match exactly if they are equal.
  | case8 c eqs ih =>
    refine (ih (List.forall_mem_cons.1 h).2).of_iff (fun v => ?_) fun z hz => .inr ?_
    · rw [solves_cons, and_iff_right (by simp [Term.Matches])]
    · simpa [occurrences, Term.occurrences] using hz
  | case9 c d eqs hne =>
    intro v hv
    have hcd := (solves_cons.1 hv).1
    simp only [Term.Matches, Term.const.injEq] at hcd
    exact hne hcd.symm
  -- Compound terms with the same head and length are taken apart argument by argument.
  | case10 f ts g us eqs hfg ih =>
    obtain ⟨rfl, hlength⟩ := hfg
    obtain ⟨hus, hrest⟩ := List.forall_mem_cons.1 h
    have hzip := groundRight_zip ts hus
    refine (ih (List.forall_mem_append.2 ⟨hzip, hrest⟩)).of_iff (fun v => ?_) fun z hz => .inr ?_
    · rw [solves_cons, solves_append, solves_zip_iff hlength]
      simp [Term.Matches]
    · rw [occurrences_cons_of_isGround hus, Term.occurrences, Term.occurrencesAll_eq_flatMap] at hz
      rwa [occurrences, List.flatMap_append, ← occurrences, ← occurrences,
        occurrences_zip hus hlength]
  -- Terms of different shape have no common instance.
  | case11 f ts g us eqs hne =>
    intro v hv
    have hfg := (solves_cons.1 hv).1
    rw [Term.Matches, Term.matchesAll_iff] at hfg
    exact hne ⟨hfg.1, hfg.2.length_eq⟩
  | case12 c g us eqs =>
    intro v hv
    have hc := (solves_cons.1 hv).1
    simp [Term.Matches] at hc
  | case13 f ts c eqs =>
    intro v hv
    exact (solves_cons.1 hv).1

/-- A variable that gets a value may be replaced by it. -/
theorem solves_eliminate_iff (hx : x ≠ wildcard) (ht : t.isGround = true) (hv : v x = t)
    (h : GroundRight eqs) : Solves v (eliminate x t eqs) ↔ Solves v eqs := by
  rw [Solves, Solves, eliminate, List.forall_mem_map]
  refine forall₂_congr fun e he => ?_
  simp only [Term.replace_eq_self (h e he)]
  refine Term.matches_replace_iff fun y _ => ?_
  by_cases hyx : y = x
  · rw [if_pos hyx, hyx, hv]
    exact .inr ⟨hx, rfl, ht⟩
  · exact .inl (if_neg hyx)

theorem groundRight_eliminate (h : GroundRight eqs) : GroundRight (eliminate x t eqs) := by
  rw [GroundRight, eliminate, List.forall_mem_map]
  intro e he
  simp only [Term.replace_eq_self (h e he)]
  exact h e he

theorem mem_occurrences_eliminate_iff {y : String} (ht : t.isGround = true) :
    y ∈ occurrences (eliminate x t eqs) ↔ y ∈ occurrences eqs ∧ y ≠ x := by
  constructor
  · intro h
    simpa [Term.isGround_iff.1 ht] using mem_occurrences_eliminate h
  · rintro ⟨h, hne⟩
    rw [occurrences, List.mem_flatMap] at h
    rw [occurrences, eliminate, List.flatMap_map, List.mem_flatMap]
    obtain ⟨e, he, hy⟩ := h
    rw [List.mem_append] at hy
    have hkeep : ∀ u : Term, y ∈ u.occurrences →
        y ∈ (u.replace fun z => if z = x then t else .var z).occurrences := fun u hu =>
      (Term.mem_occurrences_replace u).2 ⟨y, hu, by simp [hne, Term.occurrences]⟩
    exact ⟨e, he, List.mem_append.2 (hy.imp (hkeep _) (hkeep _))⟩

end Equation

namespace Unifier

variable {eqs : List Equation} {s : Substitution}

/-- What solving equations says about valuations: the resulting bindings fit those that fit the
given ones and solve the equations; without a result there are no solutions. -/
def SolveSpec (eqs : List Equation) (s : Substitution) : Option Substitution → Prop
  | some s' => s'.Grounded ∧ (∀ v, s'.Fits v ↔ s.Fits v ∧ Equation.Solves v eqs) ∧
      ∀ x, (s'.get? x).isSome ↔
        (s.get? x).isSome ∨ (x ∈ Equation.occurrences eqs ∧ x ≠ wildcard)
  | none => ∀ v, ¬Equation.Solves v eqs

theorem solve_spec (hs : s.Grounded) (h : Equation.GroundRight eqs)
    (hfree : ∀ x ∈ Equation.occurrences eqs, s.get? x = none) :
    SolveSpec eqs s (solve eqs s).substitution? := by
  have hadvance := Equation.advance_spec h
  fun_induction solve eqs s with
  -- Nothing is left but wildcards, which bind nothing.
  | case1 eqs s hsolved =>
    rw [hsolved] at hadvance
    obtain ⟨hsolves, hvars⟩ := hadvance
    refine ⟨hs, fun v => (and_iff_left (hsolves v)).symm, fun x => ?_⟩
    exact (or_iff_left fun hx => hx.2 (hvars x hx.1)).symm
  | case2 eqs s hclash =>
    rw [hclash] at hadvance
    exact hadvance
  -- A binding is recorded and put into the rest. The invariant that carries the induction is that
  -- no variable of the equations is bound yet.
  | case3 eqs s x t rest hbinding _ ih =>
    rw [hbinding] at hadvance
    obtain ⟨hx, ht, hrest, hsolves, hvars⟩ := hadvance
    obtain ⟨hxmem, -, hsub, -⟩ := Equation.occurrences_of_advance hbinding
    have hground := Equation.groundRight_eliminate (x := x) (t := t) hrest
    have hih := ih (hs.bind hx ht) hground (fun y hy => by
      obtain ⟨hy, hne⟩ := (Equation.mem_occurrences_eliminate_iff ht).1 hy
      rw [Substitution.get?_bind, if_neg hne]
      exact hfree y (hsub y hy)) (Equation.advance_spec hground)
    have hsolves' : ∀ v : Valuation, v x = t →
        (Equation.Solves v (Equation.eliminate x t rest) ↔ Equation.Solves v rest) :=
      fun v hv => Equation.solves_eliminate_iff hx ht hv hrest
    -- The value of the variable is fixed by the equation, so elimination loses no solution.
    generalize (solve (Equation.eliminate x t rest) (s.bind x t)).substitution? = result at hih ⊢
    cases result with
    | none =>
      intro v hv
      obtain ⟨hvx, hv⟩ := (hsolves v).1 hv
      exact hih v ((hsolves' v hvx).2 hv)
    | some s' =>
      obtain ⟨hgrounded, hfits, hdomain⟩ := hih
      refine ⟨hgrounded, fun v => ?_, fun y => ?_⟩
      · rw [hfits, Substitution.fits_bind (hfree x hxmem), hsolves, and_assoc]
        exact and_congr_right fun _ => and_congr_right fun hv => hsolves' v hv
      -- The new binding accounts for its own variable, the rest for the others.
      · rw [hdomain, Equation.mem_occurrences_eliminate_iff ht, Substitution.get?_bind]
        by_cases hyx : y = x
        · simp [hyx, hxmem, hx]
        · simp only [hyx, if_false, not_false_iff, and_true, ne_eq]
          refine or_congr_right (and_congr_left fun hy => ⟨hsub y, fun h => ?_⟩)
          rcases hvars y h with h | h | h
          · exact absurd h hy
          · exact absurd h hyx
          · exact h

end Unifier

/-! ## Tuples -/

namespace Substitution

variable {s s' : Substitution} {v : Valuation} {ts us : List Term} {x : String}

theorem length_applyAll (s : Substitution) (ts : List Term) : (s.applyAll ts).length = ts.length :=
  List.length_map _

theorem solveSpec_unifyAll (hs : s.Grounded) (hus : Term.areGround us = true)
    (hlength : ts.length = us.length) :
    Unifier.SolveSpec ((s.applyAll ts).zip us) s (s.unifyAll ts us).substitution? := by
  rw [unifyAll, if_pos hlength, applyAll_eq_self hs hus]
  -- After the given bindings have been applied, only variables that they leave open occur.
  refine Unifier.solve_spec hs (Equation.groundRight_zip _ hus) fun x hx => ?_
  rw [Equation.occurrences_zip hus (by rw [length_applyAll, hlength]), applyAll,
    List.flatMap_map, List.mem_flatMap] at hx
  obtain ⟨t, -, hx⟩ := hx
  exact ((mem_occurrences_apply_iff hs).1 hx).2

/-- Unification with a ground tuple gives values to the variables of the terms, and nothing but the
values that make the tuple an instance of the terms. -/
theorem unifyAll_eq_some (hs : s.Grounded) (hus : Term.areGround us = true)
    (h : (s.unifyAll ts us).substitution? = some s') :
    s'.Grounded ∧ (∀ v, s'.Fits v ↔ s.Fits v ∧ Term.MatchesAll v ts us) ∧
    ∀ x, (s'.get? x).isSome ↔
      (s.get? x).isSome ∨ ((∃ t ∈ ts, x ∈ t.occurrences) ∧ x ≠ wildcard) := by
  -- Unification gives up at once when the lengths differ.
  have hlength : ts.length = us.length := by
    by_contra hne
    rw [unifyAll, if_neg hne] at h
    cases h
  have hzip : (s.applyAll ts).length = us.length := by rw [length_applyAll, hlength]
  have hspec := solveSpec_unifyAll hs hus hlength
  rw [h] at hspec
  obtain ⟨hgrounded, hfits, hdomain⟩ := hspec
  refine ⟨hgrounded, fun v => ?_, fun x => ?_⟩
  · rw [hfits, Equation.solves_zip_iff hzip]
    exact and_congr_right fun hv => matchesAll_applyAll_iff hs hv
  · rw [hdomain, Equation.occurrences_zip hus hzip, applyAll, List.flatMap_map, List.mem_flatMap]
    simp only [mem_occurrences_apply_iff hs]
    cases hx : s.get? x with
    | none => simp
    | some u => simp

/-- A variable that gets a value from unification with a ground tuple occurs in the terms, and has
its value under a valuation under which the tuple is an instance of them. -/
theorem get?_of_unifyAll {x : String} {t : Term} (hs : s.Grounded)
    (hus : Term.areGround us = true) (h : (s.unifyAll ts us).substitution? = some s')
    (hx : s'.get? x = some t) :
    s.get? x = some t ∨ (∃ u ∈ ts, x ∈ u.occurrences) ∧ x ≠ wildcard ∧
      ∃ v : Valuation, Term.MatchesAll v ts us ∧ v x = t := by
  obtain ⟨hgrounded, hfits, hdomain⟩ := unifyAll_eq_some hs hus h
  obtain ⟨v, hv, -⟩ := exists_fits hgrounded
  obtain ⟨hold, hmatches⟩ := (hfits v).1 hv
  rcases (hdomain x).1 (Option.isSome_of_eq_some hx) with hsome | ⟨hmem, hne⟩
  · obtain ⟨u, hu⟩ := Option.isSome_iff_exists.1 hsome
    refine .inl ?_
    rw [hu, ← hold x u hu, hv x t hx]
  · exact .inr ⟨hmem, hne, v, hmatches, hv x t hx⟩

/-- Unification with a ground tuple fails if no values make the tuple an instance of the terms. -/
theorem unifyAll_eq_none (hs : s.Grounded) (hus : Term.areGround us = true)
    (h : (s.unifyAll ts us).substitution? = none) (hv : s.Fits v) : ¬Term.MatchesAll v ts us := by
  intro hmatches
  have hlength := (Term.matchesAll_iff.1 hmatches).length_eq
  have hzip : (s.applyAll ts).length = us.length := by rw [length_applyAll, hlength]
  have hspec := solveSpec_unifyAll hs hus hlength
  rw [h] at hspec
  refine hspec v ((Equation.solves_zip_iff hzip).2 ?_)
  exact (matchesAll_applyAll_iff hs hv).2 hmatches

/-- Unification with a ground tuple leads to the valuations under which it is an instance. -/
theorem exists_unifyAll_iff (hs : s.Grounded) (hus : Term.areGround us = true) :
    (∃ s', (s.unifyAll ts us).substitution? = some s' ∧ s'.Fits v) ↔
      s.Fits v ∧ Term.MatchesAll v ts us := by
  constructor
  · rintro ⟨s', hunify, hv⟩
    obtain ⟨-, hfits, -⟩ := unifyAll_eq_some hs hus hunify
    exact (hfits v).1 hv
  · rintro ⟨hv, hmatches⟩
    -- A valuation that makes the tuple an instance keeps unification from failing.
    cases hunify : (s.unifyAll ts us).substitution? with
    | none => exact absurd hmatches (unifyAll_eq_none hs hus hunify hv)
    | some s' =>
      obtain ⟨-, hfits, -⟩ := unifyAll_eq_some hs hus hunify
      exact ⟨s', rfl, (hfits v).2 ⟨hv, hmatches⟩⟩

theorem solved_unifyAll_empty_iff (hus : Term.areGround us = true) :
    (empty.unifyAll ts us).solved = true ↔ ∃ v, Term.MatchesAll v ts us := by
  have hsolved : (empty.unifyAll ts us).solved = true ↔
      ∃ s, (empty.unifyAll ts us).substitution? = some s := by
    rw [Unifier.substitution?]
    split <;> simp_all
  rw [hsolved]
  constructor
  · rintro ⟨s, hs⟩
    obtain ⟨hgrounded, hfits, -⟩ := unifyAll_eq_some grounded_empty hus hs
    obtain ⟨v, hv, -⟩ := exists_fits hgrounded
    exact ⟨v, ((hfits v).1 hv).2⟩
  · rintro ⟨v, hv⟩
    rw [← Option.isSome_iff_exists, ← Option.ne_none_iff_isSome]
    exact fun hnone => unifyAll_eq_none grounded_empty hus hnone (fits_empty v) hv

/-- The values of variables that a substitution binds are settled. -/
theorem exists_matchesAll_applyAll_iff (hs : s.Grounded) :
    (∃ v, Term.MatchesAll v (s.applyAll ts) us) ↔
      ∃ v, s.Fits v ∧ Term.MatchesAll v ts us := by
  constructor
  · rintro ⟨v, hv⟩
    -- The valuation is overridden by the bindings, which the applied terms no longer mention.
    have hfits : s.Fits fun x => (s.get? x).getD (v x) := fun x t h => by simp [h]
    refine ⟨_, hfits, (matchesAll_applyAll_iff hs hfits).1 ?_⟩
    refine (Term.matchesAll_congr fun t ht x hx _ => ?_).1 hv
    obtain ⟨t, -, rfl⟩ := List.mem_map.1 ht
    simp [((mem_occurrences_apply_iff hs).1 hx).2]
  · rintro ⟨v, hfits, hv⟩
    exact ⟨v, (matchesAll_applyAll_iff hs hfits).2 hv⟩

end Substitution

namespace Database

variable {db : Database} {a : Atom} {s : Substitution}

/-- All stored facts are ground. -/
def IsGround (db : Database) : Prop :=
  ∀ a ∈ db.atoms, a.isGround = true

theorem isGround_iff :
    db.IsGround ↔ ∀ e ∈ db.relations.entries, ∀ t ∈ e.2.tuples, Term.areGround t = true := by
  constructor
  · rintro h ⟨p, r⟩ he t ht
    refine h ⟨p, t⟩ (mem_atoms.2 ?_)
    rwa [relation, mem_entries_iff.1 he]
  · intro h a ha
    obtain ⟨r, hr⟩ := Option.isSome_iff_exists.1 (isSome_relation?_of_mem_atoms ha)
    rw [mem_atoms, relation, hr] at ha
    exact h (_, r) (mem_entries_iff.2 hr) _ ha

/-- A stored tuple matches an atom if it is an instance of what the atom stands for. -/
theorem matchesAny_iff_exists_instance (hdb : db.IsGround) :
    db.matchesAny a s = true ↔
      ∃ t, ⟨a.predicate, t⟩ ∈ db.atoms ∧ ∃ v, Term.MatchesAll v (s.applyAll a.terms) t := by
  rw [matchesAny]
  split
  -- A ground atom is looked up; any other is compared with every stored tuple.
  · next hground =>
    rw [Relation.contains_iff, mem_tuples_iff]
    simp only [Term.matchesAll_iff_of_areGround hground]
    constructor
    · exact fun h => ⟨_, h, .var, rfl⟩
    · rintro ⟨_, h, _, rfl⟩
      exact h
  · rw [List.any_eq_true]
    refine exists_congr fun t => ?_
    rw [mem_tuples_iff]
    exact and_congr_right fun ht => Substitution.solved_unifyAll_empty_iff (hdb _ ht)

/-- A stored tuple matches an atom if it is an instance of it for some values of the variables that
are not bound. -/
theorem matchesAny_iff (hdb : db.IsGround) (hs : s.Grounded) :
    db.matchesAny a s = true ↔
      ∃ t, ⟨a.predicate, t⟩ ∈ db.atoms ∧ ∃ v, s.Fits v ∧ Term.MatchesAll v a.terms t := by
  simp only [matchesAny_iff_exists_instance hdb, Substitution.exists_matchesAll_applyAll_iff hs]

end Database

end Deduction
