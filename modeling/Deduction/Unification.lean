import Deduction.Distinct
import Deduction.Substitution

/-!
# Unification

Unification looks for bindings of variables that make pairs of terms equal. The pairs, called
equations, are solved from left to right. `Equation.advance` drops equations that hold and takes
applications apart until an equation asks for a binding; `Unifier.solve` makes the binding, replaces
the variable in the equations that are left, and goes on.

A variable is not bound to a term in which it occurs, and the wildcard matches every term without
being bound. If an equation cannot be solved, the bindings made before it stay.

Taking an equation apart makes the equations smaller; a binding removes its variable from them.
-/

namespace Deduction

/-- Two terms that have to become equal. -/
abbrev Equation := Term × Term

namespace Equation

/-- The number of symbols in a list of equations. -/
def sizeAll : List Equation → Nat
  | [] => 0
  | e :: eqs => e.1.size + e.2.size + sizeAll eqs

theorem sizeAll_append (eqs more : List Equation) :
    sizeAll (eqs ++ more) = sizeAll eqs + sizeAll more := by
  induction eqs with
  | nil => simp [sizeAll]
  | cons e eqs ih => simp [sizeAll, ih, Nat.add_assoc]

/-- The occurrences of variables in a list of equations. -/
def occurrences (eqs : List Equation) : List String :=
  eqs.flatMap fun e => e.1.occurrences ++ e.2.occurrences

/-- The equations between the members of two lists have the symbols of the lists. -/
theorem sizeAll_zip_le (ts us : List Term) :
    sizeAll (ts.zip us) ≤ Term.sizeAll ts + Term.sizeAll us := by
  induction ts generalizing us with
  | nil => simp [sizeAll]
  | cons t ts ih =>
    cases us with
    | nil => simp [sizeAll]
    | cons u us =>
      have := ih us
      simp only [sizeAll, List.zip_cons_cons, Term.sizeAll]
      omega

/-- How far a list of equations can be solved without binding a variable. -/
inductive Progress where
  /-- All equations hold. -/
  | solved
  /-- An equation has no solution. -/
  | clash
  /-- The variable `x` has to be bound to `t`, and `rest` is left to be solved. -/
  | binding (x : String) (t : Term) (rest : List Equation)

/-- Takes equations apart from left to right until one of them asks for a binding or cannot be
solved. -/
def advance : List Equation → Progress
  | [] => .solved
  | (.var x, t) :: rest =>
    -- The wildcard on either side matches, and so does a variable with itself.
    if x = wildcard ∨ t = .var wildcard ∨ t = .var x then advance rest
    else if x ∈ t.occurrences then .clash
    else .binding x t rest
  | (t, .var x) :: rest =>
    -- The first side is no variable here.
    if x = wildcard then advance rest
    else if x ∈ t.occurrences then .clash
    else .binding x t rest
  | (.const v, .const w) :: rest => if v = w then advance rest else .clash
  | (.app f ts, .app g us) :: rest =>
    if f = g ∧ ts.length = us.length then advance (ts.zip us ++ rest) else .clash
  | (.const _, .app _ _) :: _ => .clash
  | (.app _ _, .const _) :: _ => .clash
termination_by eqs => sizeAll eqs
decreasing_by
  all_goals simp only [sizeAll, sizeAll_append, Term.size]
  · omega
  · have := Term.size_pos t; omega
  · omega
  · have := sizeAll_zip_le ts us
    omega

/-- The equations with the variable `x` replaced by `t`. -/
def eliminate (x : String) (t : Term) (eqs : List Equation) : List Equation :=
  let f (y : String) : Term := if y = x then t else .var y
  eqs.map fun e => (e.1.replace f, e.2.replace f)

/-- What a binding is made of comes from the equations, and the bound variable does not occur in its
term. -/
theorem occurrences_of_advance {eqs rest : List Equation} {x : String} {t : Term}
    (h : advance eqs = .binding x t rest) :
    x ∈ occurrences eqs ∧ (∀ y ∈ t.occurrences, y ∈ occurrences eqs) ∧
      (∀ y ∈ occurrences rest, y ∈ occurrences eqs) ∧ x ∉ t.occurrences := by
  fun_induction advance eqs with
  | case1 => simp at h
  | case2 y u eqs _ ih =>
    obtain ⟨h₁, h₂, h₃, h₄⟩ := ih h
    simp only [occurrences, List.flatMap_cons, List.mem_append] at *
    exact ⟨.inr h₁, fun z hz => .inr (h₂ z hz), fun z hz => .inr (h₃ z hz), h₄⟩
  | case3 => simp at h
  | case4 y u eqs _ not_mem =>
    injection h with hx ht hr
    subst hx ht hr
    simp only [occurrences, List.flatMap_cons, List.mem_append, Term.occurrences,
      List.mem_singleton]
    exact ⟨.inl (.inl trivial), fun z hz => .inl (.inr hz), fun z hz => .inr hz, not_mem⟩
  | case5 u eqs _ ih =>
    obtain ⟨h₁, h₂, h₃, h₄⟩ := ih h
    simp only [occurrences, List.flatMap_cons, List.mem_append] at *
    exact ⟨.inr h₁, fun z hz => .inr (h₂ z hz), fun z hz => .inr (h₃ z hz), h₄⟩
  | case6 => simp at h
  | case7 u y eqs _ _ not_mem =>
    injection h with hx ht hr
    subst hx ht hr
    simp only [occurrences, List.flatMap_cons, List.mem_append, Term.occurrences,
      List.mem_singleton]
    exact ⟨.inl (.inr trivial), fun z hz => .inl (.inl hz), fun z hz => .inr hz, not_mem⟩
  | case8 v eqs ih =>
    obtain ⟨h₁, h₂, h₃, h₄⟩ := ih h
    simp only [occurrences, List.flatMap_cons, List.mem_append] at *
    exact ⟨.inr h₁, fun z hz => .inr (h₂ z hz), fun z hz => .inr (h₃ z hz), h₄⟩
  | case9 => simp at h
  | case10 f ts g us eqs hfg ih =>
    have sub : ∀ y ∈ occurrences (ts.zip us ++ eqs),
        y ∈ occurrences ((Term.app f ts, Term.app g us) :: eqs) := by
      intro y hy
      simp only [occurrences, List.flatMap_append, List.flatMap_cons, List.mem_append,
        List.mem_flatMap, Term.occurrences, Term.occurrencesAll_eq_flatMap] at hy ⊢
      rcases hy with ⟨⟨l, r⟩, mem, hl | hr⟩ | hy
      · exact .inl (.inl ⟨l, (List.of_mem_zip mem).1, hl⟩)
      · exact .inl (.inr ⟨r, (List.of_mem_zip mem).2, hr⟩)
      · exact .inr hy
    obtain ⟨h₁, h₂, h₃, h₄⟩ := ih h
    exact ⟨sub x h₁, fun z hz => sub z (h₂ z hz), fun z hz => sub z (h₃ z hz), h₄⟩
  | case11 => simp at h
  | case12 => simp at h
  | case13 => simp at h

end Equation

mutual

/-- The variables of a term whose variables have been replaced come from the replacements. -/
theorem Term.mem_occurrences_replace {f : String → Term} {y : String} :
    (t : Term) → (y ∈ (t.replace f).occurrences ↔ ∃ x ∈ t.occurrences, y ∈ (f x).occurrences)
  | .var x => by simp [Term.replace, Term.occurrences]
  | .const v => by simp [Term.replace, Term.occurrences]
  | .app g ts => by
    simpa [Term.replace, Term.occurrences] using Term.mem_occurrencesAll_replaceAll ts

/-- The variables of terms whose variables have been replaced come from the replacements. -/
theorem Term.mem_occurrencesAll_replaceAll {f : String → Term} {y : String} :
    (ts : List Term) → (y ∈ Term.occurrencesAll (Term.replaceAll f ts) ↔
      ∃ x ∈ Term.occurrencesAll ts, y ∈ (f x).occurrences)
  | [] => by simp [Term.replaceAll, Term.occurrencesAll]
  | t :: ts => by
    simp only [Term.replaceAll, Term.occurrencesAll, List.mem_append,
      Term.mem_occurrences_replace t, Term.mem_occurrencesAll_replaceAll ts]
    constructor
    · rintro (⟨x, hx, hy⟩ | ⟨x, hx, hy⟩)
      · exact ⟨x, .inl hx, hy⟩
      · exact ⟨x, .inr hx, hy⟩
    · rintro ⟨x, hx | hx, hy⟩
      · exact .inl ⟨x, hx, hy⟩
      · exact .inr ⟨x, hx, hy⟩

end

namespace Equation

/-- A variable of a term in which `x` was replaced by `t` is one of `t`, or one of the term other
than `x`. -/
theorem mem_occurrences_eliminate {x y : String} {t : Term} {eqs : List Equation}
    (h : y ∈ occurrences (eliminate x t eqs)) :
    y ∈ t.occurrences ∨ (y ∈ occurrences eqs ∧ y ≠ x) := by
  simp only [occurrences, eliminate, List.mem_flatMap, List.mem_map, List.mem_append] at h
  obtain ⟨_, ⟨⟨l, r⟩, mem, rfl⟩, h⟩ := h
  have key : ∀ u : Term, (u = l ∨ u = r) →
      y ∈ (u.replace fun z => if z = x then t else .var z).occurrences →
      y ∈ t.occurrences ∨ (y ∈ occurrences eqs ∧ y ≠ x) := by
    intro u hu hy
    obtain ⟨z, hz, hy⟩ := (Term.mem_occurrences_replace u).1 hy
    by_cases hzx : z = x
    · exact .inl (by simpa [hzx] using hy)
    · have hyz : y = z := by simpa [hzx, Term.occurrences] using hy
      subst hyz
      refine .inr ⟨?_, hzx⟩
      simp only [occurrences, List.mem_flatMap, List.mem_append]
      rcases hu with rfl | rfl
      · exact ⟨_, mem, .inl hz⟩
      · exact ⟨_, mem, .inr hz⟩
  rcases h with h | h
  · exact key l (.inl rfl) h
  · exact key r (.inr rfl) h

/-- A binding takes its variable out of the equations. -/
theorem distinct_eliminate_lt {eqs rest : List Equation} {x : String} {t : Term}
    (h : advance eqs = .binding x t rest) :
    (occurrences (eliminate x t rest)).eraseDups.length < (occurrences eqs).eraseDups.length := by
  obtain ⟨mem, sub, sub_rest, not_mem⟩ := occurrences_of_advance h
  refine Distinct.length_eraseDups_lt (fun y hy => ?_) mem fun hx => ?_
  · rcases mem_occurrences_eliminate hy with hy | ⟨hy, _⟩
    · exact sub y hy
    · exact sub_rest y hy
  · rcases mem_occurrences_eliminate hx with hx | ⟨_, hx⟩
    · exact not_mem hx
    · exact hx rfl

end Equation

/-- The outcome of an attempt to solve equations. -/
structure Unifier where
  /-- All equations were solved. -/
  solved : Bool
  /-- The bindings that were made, also if an equation could not be solved. -/
  bindings : Substitution

namespace Unifier

/-- Solves equations to which the substitution has been applied, and extends it. -/
def solve (eqs : List Equation) (s : Substitution) : Unifier :=
  match h : Equation.advance eqs with
  | .solved => ⟨true, s⟩
  | .clash => ⟨false, s⟩
  | .binding x t rest =>
    have := Equation.distinct_eliminate_lt h
    solve (Equation.eliminate x t rest) (s.bind x t)
termination_by (Equation.occurrences eqs).eraseDups.length

/-- The substitution of a successful attempt. -/
def substitution? (u : Unifier) : Option Substitution :=
  if u.solved then some u.bindings else none

end Unifier

namespace Substitution

/-- Extends the substitution so that two terms become equal. -/
def unify (s : Substitution) (t u : Term) : Unifier :=
  Unifier.solve [(s.apply t, s.apply u)] s

/-- Extends the substitution so that two lists of terms become equal. Lists of different lengths
never do. -/
def unifyAll (s : Substitution) (ts us : List Term) : Unifier :=
  if ts.length = us.length then Unifier.solve ((s.applyAll ts).zip (s.applyAll us)) s
  else ⟨false, s⟩

/-- Extends the substitution so that two atoms become equal. Atoms over different predicates never
do. -/
def unifyAtoms (s : Substitution) (a b : Atom) : Unifier :=
  if a.predicate = b.predicate then s.unifyAll a.terms b.terms else ⟨false, s⟩

end Substitution

end Deduction
