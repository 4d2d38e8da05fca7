import Deduction.Proofs.Acyclicity

/-!
# Unification from left to right

The solver of equations puts all of them on one list, and replaces a variable in the equations that
are left as soon as it is bound. Unification can be described without such a list: terms are looked
at with bound variables replaced, and the members of two lists are unified one after the other,
each pair with the bindings of those before it, up to the first pair that fails.

Both make the same bindings, and fail at the same pair:

* `Unifier.solve_append`: equations at the end of a list wait until the others are solved, and are
  solved under the bindings that these have made.
* `Substitution.unifyAll_cons`: two lists are unified member by member.
* `Substitution.unify_eq_unifyOpen`: two terms are unified by the kinds of terms that they stand
  for, two applications by their arguments.
-/

namespace Deduction

/-! ## Taking equations apart -/

namespace Equation

variable {eqs more : List Equation} {s s' : Substitution} {x : String} {t : Term}

/-- The equations with every bound variable replaced by what it stands for. -/
def applyEach (s : Substitution) (eqs : List Equation) : List Equation :=
  eqs.map fun e => (s.apply e.1, s.apply e.2)

/-- What is known when the first equations have been taken apart, if `more` follows them. -/
def Progress.followedBy (more : List Equation) : Progress → Progress
  | .solved => advance more
  | .clash => .clash
  | .binding x t rest => .binding x t (rest ++ more)

/-- Equations are taken apart without a look at those behind them. -/
theorem advance_append (eqs more : List Equation) :
    advance (eqs ++ more) = (advance eqs).followedBy more := by
  fun_induction advance eqs with
  | case1 => rfl
  | case2 x t rest hskip ih => rw [List.cons_append, advance, if_pos hskip, ih]
  | case3 x t rest hskip hmem =>
    rw [List.cons_append, advance, if_neg hskip, if_pos hmem, Progress.followedBy]
  | case4 x t rest hskip hmem =>
    rw [List.cons_append, advance, if_neg hskip, if_neg hmem, Progress.followedBy]
  | case5 t rest ht ih =>
    rw [List.cons_append, advance, if_pos rfl, ih]
    exact ht
  | case6 t x rest ht hx hmem =>
    rw [List.cons_append, advance, if_neg hx, if_pos hmem, Progress.followedBy]
    exact ht
  | case7 t x rest ht hx hmem =>
    rw [List.cons_append, advance, if_neg hx, if_neg hmem, Progress.followedBy]
    exact ht
  | case8 v rest ih => rw [List.cons_append, advance, if_pos rfl, ih]
  | case9 v w rest hne => rw [List.cons_append, advance, if_neg hne, Progress.followedBy]
  | case10 f ts g us rest hfg ih =>
    rw [List.cons_append, advance, if_pos hfg, ← List.append_assoc, ih]
  | case11 f ts g us rest hne =>
    rw [List.cons_append, advance, if_neg hne, Progress.followedBy]
  | case12 => rw [List.cons_append, advance, Progress.followedBy]
  | case13 => rw [List.cons_append, advance, Progress.followedBy]

theorem eliminate_append :
    eliminate x t (eqs ++ more) = eliminate x t eqs ++ eliminate x t more :=
  List.map_append

/-- Where nothing is bound, nothing is replaced. -/
theorem applyEach_eq_self (h : ∀ x ∈ occurrences eqs, s.get? x = none) : applyEach s eqs = eqs := by
  refine (List.map_congr_left fun e he => ?_).trans (List.map_id eqs)
  have hmem : ∀ x ∈ e.1.occurrences ++ e.2.occurrences, s.get? x = none := fun x hx =>
    h x (List.mem_flatMap.2 ⟨e, he, hx⟩)
  obtain ⟨hleft, hright⟩ := List.forall_mem_append.1 hmem
  rw [Substitution.apply_eq_self hleft, Substitution.apply_eq_self hright]
  rfl

/-- A variable that is bound may be replaced by its term beforehand. -/
theorem applyEach_eliminate (hs : s.Triangular) (hx : s.get? x = some t) (eqs : List Equation) :
    applyEach s (eliminate x t eqs) = applyEach s eqs := by
  have happly : ∀ u : Term, s.apply (u.replace (Substitution.single x t)) = s.apply u :=
    Substitution.replace_replace_single (hs.solvedBy_resolve x t hx)
  rw [applyEach, eliminate, List.map_map]
  exact List.map_congr_left fun e _ => Prod.ext (happly e.1) (happly e.2)

/-- Terms may be looked at with earlier bindings before they are looked at with later ones. -/
theorem applyEach_zip (hs' : s'.Triangular) (h : ∀ x t, s.get? x = some t → s'.get? x = some t)
    (ts us : List Term) :
    applyEach s' ((s.applyAll ts).zip (s.applyAll us)) = (s'.applyAll ts).zip (s'.applyAll us) := by
  have hsolved : s.SolvedBy (s'.resolve s'.size) := fun x t hx =>
    hs'.solvedBy_resolve x t (h x t hx)
  have happly : ∀ ts : List Term, (s.applyAll ts).map s'.apply = s'.applyAll ts := fun ts => by
    rw [Substitution.applyAll, Substitution.applyAll, List.map_map]
    exact List.map_congr_left fun t _ => hsolved.replace_apply t
  rw [← happly ts, ← happly us, List.zip_map]
  rfl

end Equation

/-! ## Solving equations -/

namespace Unifier

variable {eqs more : List Equation} {s : Substitution} {x : String} {t : Term}
  {rest : List Equation}

theorem solve_of_solved (h : Equation.advance eqs = .solved) : solve eqs s = ⟨true, s⟩ := by
  rw [solve]
  split <;> simp_all

theorem solve_of_clash (h : Equation.advance eqs = .clash) : solve eqs s = ⟨false, s⟩ := by
  rw [solve]
  split <;> simp_all

theorem solve_of_binding (h : Equation.advance eqs = .binding x t rest) :
    solve eqs s = solve (Equation.eliminate x t rest) (s.bind x t) := by
  rw [solve]
  split <;> simp_all

/-- Solving equations asks for nothing but what taking them apart yields. -/
theorem solve_congr (h : Equation.advance eqs = Equation.advance more) :
    solve eqs s = solve more s := by
  cases hmore : Equation.advance more with
  | solved => rw [solve_of_solved (h.trans hmore), solve_of_solved hmore]
  | clash => rw [solve_of_clash (h.trans hmore), solve_of_clash hmore]
  | binding x t rest => rw [solve_of_binding (h.trans hmore), solve_of_binding hmore]

/-- The first equations are solved before those behind them, which are then solved with the bindings
that were made. -/
theorem solve_append (hs : s.Triangular) (heqs : ∀ x ∈ Equation.occurrences eqs, s.get? x = none)
    (hmore : ∀ x ∈ Equation.occurrences more, s.get? x = none) :
    solve (eqs ++ more) s =
      if (solve eqs s).solved then
        solve (Equation.applyEach (solve eqs s).bindings more) (solve eqs s).bindings
      else solve eqs s := by
  have happend := Equation.advance_append eqs more
  fun_induction solve eqs s generalizing more with
  | case1 eqs s hsolved =>
    rw [hsolved] at happend
    rw [if_pos rfl, Equation.applyEach_eq_self hmore]
    exact solve_congr happend
  | case2 eqs s hclash =>
    rw [hclash] at happend
    exact solve_of_clash happend
  | case3 eqs s x t rest hbinding _ ih =>
    obtain ⟨hx, ht, -, hxt⟩ := Equation.occurrences_of_advance hbinding
    rw [hbinding] at happend
    have hbind : (s.bind x t).Triangular :=
      .bind hs (heqs x hx) hxt fun y hy => heqs y (ht y hy)
    -- Neither the variable nor what was bound before it is left.
    have hleft : ∀ y ∈ Equation.occurrences (Equation.eliminate x t rest),
        (s.bind x t).get? y = none := fun y hy => by
      obtain ⟨hy, hne⟩ := Equation.mem_occurrences_of_mem_eliminate hbinding hy
      rw [Substitution.get?_bind, if_neg hne, heqs y hy]
    have hleft' : ∀ y ∈ Equation.occurrences (Equation.eliminate x t more),
        (s.bind x t).get? y = none := fun y hy => by
      rw [Substitution.get?_bind]
      rcases Equation.mem_occurrences_eliminate hy with hy | ⟨hy, hne⟩
      · have hne : y ≠ x := fun hyx => hxt (hyx ▸ hy)
        rw [if_neg hne, heqs y (ht y hy)]
      · rw [if_neg hne, hmore y hy]
    have hvalue : (solve (Equation.eliminate x t rest) (s.bind x t)).bindings.get? x = some t :=
      get?_solve_of_get? hleft (by rw [Substitution.get?_bind, if_pos rfl])
    rw [solve_of_binding happend, Equation.eliminate_append,
      ih hbind hleft hleft' (Equation.advance_append _ _),
      Equation.applyEach_eliminate (triangular_solve hbind hleft) hvalue]

end Unifier

/-! ## Unifying terms -/

namespace Substitution

variable {s : Substitution} {t u : Term} {ts us : List Term}

theorem unifyAll_nil (s : Substitution) : s.unifyAll [] [] = ⟨true, s⟩ :=
  Unifier.solve_of_solved (by simp [Equation.advance, applyAll])

/-- Lists of the same length are unified member by member. -/
theorem unifyAll_cons (hs : s.Triangular) (h : ts.length = us.length) :
    s.unifyAll (t :: ts) (u :: us) =
      if (s.unify t u).solved then (s.unify t u).bindings.unifyAll ts us else s.unify t u := by
  have hfree : ∀ ts us : List Term, ∀ x ∈ Equation.occurrences
      ((s.applyAll ts).zip (s.applyAll us)), s.get? x = none := fun ts us x hx => by
    obtain ⟨t, -, hx⟩ := mem_occurrences_zip_applyAll hx
    exact hs.get?_of_mem_apply x hx
  have htriangular : (s.unify t u).bindings.Triangular := by
    rw [unify_eq_unifyAll]
    exact hs.unifyAll
  have hkeeps : ∀ x w, s.get? x = some w → (s.unify t u).bindings.get? x = some w := by
    intro x w
    rw [unify_eq_unifyAll]
    exact hs.get?_unifyAll_of_get?
  calc s.unifyAll (t :: ts) (u :: us)
      = Unifier.solve ([(s.apply t, s.apply u)] ++ (s.applyAll ts).zip (s.applyAll us)) s := by
        rw [unifyAll, if_pos (by simp [h])]
        rfl
    _ = if (s.unify t u).solved then
          Unifier.solve (Equation.applyEach (s.unify t u).bindings
            ((s.applyAll ts).zip (s.applyAll us))) (s.unify t u).bindings
        else s.unify t u :=
      Unifier.solve_append hs (hfree [t] [u]) (hfree ts us)
    _ = _ := by rw [Equation.applyEach_zip htriangular hkeeps, unifyAll, if_pos h]

/-- The arguments of an application without bound variables stand for themselves. -/
theorem applyAll_args_eq_self {f : String}
    (h : ∀ x ∈ (Term.app f ts).occurrences, s.get? x = none) : s.applyAll ts = ts := by
  refine (List.map_congr_left fun t ht => apply_eq_self fun x hx => h x ?_).trans (List.map_id ts)
  rw [Term.occurrences, Term.occurrencesAll_eq_flatMap]
  exact List.mem_flatMap.2 ⟨t, ht, hx⟩

/-- Unifies two terms in which bound variables have been replaced, by cases on what kinds of terms
they are. -/
def unifyOpen (s : Substitution) : Term → Term → Unifier
  | .const v, .const w => ⟨v = w, s⟩
  | .var x, u =>
    if x = wildcard ∨ u = .var wildcard ∨ u = .var x then ⟨true, s⟩
    else if x ∈ u.occurrences then ⟨false, s⟩
    else ⟨true, s.bind x u⟩
  | t, .var x =>
    if x = wildcard then ⟨true, s⟩
    else if x ∈ t.occurrences then ⟨false, s⟩
    else ⟨true, s.bind x t⟩
  | .app f ts, .app g us => if f = g then s.unifyAll ts us else ⟨false, s⟩
  | _, _ => ⟨false, s⟩

/-- Two terms are unified by what kinds of terms they stand for. -/
theorem unify_eq_unifyOpen (hs : s.Triangular) (t u : Term) :
    s.unify t u = s.unifyOpen (s.apply t) (s.apply u) := by
  have ht := hs.get?_of_mem_apply (u := t)
  have hu := hs.get?_of_mem_apply (u := u)
  rw [unify]
  generalize s.apply t = t, s.apply u = u at ht hu
  fun_cases unifyOpen s t u with
  | case1 v w =>
    by_cases hvw : v = w
    · rw [Unifier.solve_of_solved (by simp [Equation.advance, hvw]), decide_eq_true hvw]
    · rw [Unifier.solve_of_clash (by simp [Equation.advance, hvw]), decide_eq_false hvw]
  | case2 u x hskip =>
    exact Unifier.solve_of_solved (by rw [Equation.advance, if_pos hskip, Equation.advance])
  | case3 u x hskip hmem =>
    exact Unifier.solve_of_clash (by rw [Equation.advance, if_neg hskip, if_pos hmem])
  | case4 u x hskip hmem =>
    rw [Unifier.solve_of_binding (by rw [Equation.advance, if_neg hskip, if_neg hmem])]
    exact Unifier.solve_of_solved (by simp [Equation.eliminate, Equation.advance])
  | case5 t hvar =>
    refine Unifier.solve_of_solved ?_
    rw [Equation.advance, if_pos rfl, Equation.advance]
    exact hvar
  | case6 t x hvar hx hmem =>
    refine Unifier.solve_of_clash ?_
    rw [Equation.advance, if_neg hx, if_pos hmem]
    exact hvar
  | case7 t x hvar hx hmem =>
    have hadvance : Equation.advance [(t, .var x)] = .binding x t [] := by
      rw [Equation.advance, if_neg hx, if_neg hmem]
      exact hvar
    rw [Unifier.solve_of_binding hadvance]
    exact Unifier.solve_of_solved (by simp [Equation.eliminate, Equation.advance])
  | case8 ts g us =>
    by_cases hlength : ts.length = us.length
    -- The arguments have no bound variables either, so that they stand for themselves.
    · rw [unifyAll, if_pos hlength, applyAll_args_eq_self ht, applyAll_args_eq_self hu]
      exact Unifier.solve_congr (by rw [Equation.advance, if_pos ⟨rfl, hlength⟩, List.append_nil])
    · rw [unifyAll, if_neg hlength]
      exact Unifier.solve_of_clash (by rw [Equation.advance, if_neg fun h => hlength h.2])
  | case9 f ts g us hfg =>
    exact Unifier.solve_of_clash (by rw [Equation.advance, if_neg fun h => hfg h.1])
  | case10 t u hconst hleft hright happ =>
    -- A constant meets an application.
    refine Unifier.solve_of_clash ?_
    cases t with
    | var x => exact (hleft x rfl).elim
    | const v =>
      cases u with
      | var y => exact (hright y rfl).elim
      | const w => exact (hconst v w rfl rfl).elim
      | app g us => rw [Equation.advance]
    | app f ts =>
      cases u with
      | var y => exact (hright y rfl).elim
      | const w => rw [Equation.advance]
      | app g us => exact (happ f ts g us rfl rfl).elim

end Substitution

end Deduction
