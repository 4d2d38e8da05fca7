import Mathlib.Order.WellFounded
import Deduction.Proofs.Lookup

/-!
# Unification makes no cycles

To replace the bound variables in a term, one goes on from a bound variable to its term, and from an
application to its arguments (`Substitution.Calls`). Nothing needs to get smaller on the way, so
that this comes to an end only if no variable leads back to itself. Unifications make such bindings,
whether they succeed or not (`Substitution.isAcyclic_of_reachable`): each of them is of a fresh
variable to a term without bound variables, so that a variable leads to variables that are bound
later.
-/

namespace Deduction

namespace Substitution

variable {s : Substitution} {x y : String} {t u : Term}

/-! ## Chains of bindings -/

/-- The variable `y` occurs in what `x` is bound to. -/
def LeadsTo (s : Substitution) (y x : String) : Prop :=
  ∃ t, s.get? x = some t ∧ y ∈ t.occurrences

/-- To replace the bound variables in the second term, one goes on with the first. -/
inductive Calls (s : Substitution) : Term → Term → Prop
  /-- A bound variable stands for its term. -/
  | bound {x : String} {t : Term} (h : s.get? x = some t) : Calls s t (.var x)
  /-- An application has arguments. -/
  | argument {f : String} {ts : List Term} {t : Term} (h : t ∈ ts) : Calls s t (.app f ts)

/-- A function follows the bindings: its value at a bound variable is the one at the term of the
variable, and apart from that it leaves terms as they are. -/
structure Follows (s : Substitution) (f : Term → Term) : Prop where
  /-- A bound variable has the value of its term. -/
  bound : ∀ x t, s.get? x = some t → f (.var x) = f t
  /-- Other variables are left. -/
  free : ∀ x, s.get? x = none → f (.var x) = .var x
  /-- Constants are left. -/
  const : ∀ c, f (.const c) = .const c
  /-- The arguments of an application are replaced. -/
  app : ∀ k ts, f (.app k ts) = .app k (ts.map f)

theorem acc_leadsTo_of_get?_eq_none (hx : s.get? x = none) : Acc s.LeadsTo x := by
  constructor
  rintro y ⟨t, ht, -⟩
  rw [hx] at ht
  cases ht

/-- A variable leads to variables that are bound later. -/
theorem Triangular.wellFounded_leadsTo (hs : s.Triangular) : WellFounded s.LeadsTo := by
  induction hs with
  | empty => exact ⟨fun x => acc_leadsTo_of_get?_eq_none rfl⟩
  | @bind s x t _ hx hxt ht ih =>
    constructor
    intro y
    induction y using ih.induction with
    | h y ih =>
      constructor
      rintro z ⟨u, hu, hz⟩
      rw [get?_bind] at hu
      split at hu
      -- The last binding leads to free variables.
      · obtain rfl := Option.some.inj hu
        have hzx : z ≠ x := fun h => hxt (h ▸ hz)
        exact acc_leadsTo_of_get?_eq_none (by rw [get?_bind, if_neg hzx, ht z hz])
      · exact ih z ⟨u, hu, hz⟩

/-- Where no chain of bindings goes on for ever, following them ends. -/
theorem wellFounded_calls (h : WellFounded s.LeadsTo) : WellFounded s.Calls := by
  -- Arguments are smaller terms, so that the variables of a term decide about it.
  have hterm : ∀ t : Term, (∀ x ∈ t.occurrences, Acc s.Calls (.var x)) → Acc s.Calls t := by
    intro t ht
    induction t using Term.inductionOn with
    | var x => exact ht x (.head _)
    | const c => exact ⟨_, fun u hu => nomatch hu⟩
    | app f ts ih =>
      refine ⟨_, fun u hu => ?_⟩
      cases hu with
      | argument hu =>
        rw [Term.occurrences, Term.occurrencesAll_eq_flatMap] at ht
        exact ih u hu fun x hx => ht x (List.mem_flatMap.2 ⟨u, hu, hx⟩)
  have hvar : ∀ x, Acc s.Calls (.var x) := by
    intro x
    induction x using h.induction with
    | h x ih =>
      refine ⟨_, fun u hu => ?_⟩
      cases hu with
      | bound hx => exact hterm u fun y hy => ih y ⟨u, hx, hy⟩
  exact ⟨fun t => hterm t fun x _ => hvar x⟩

/-! ## What terms stand for -/

theorem apply_eq_self (h : ∀ x ∈ t.occurrences, s.get? x = none) : s.apply t = t :=
  (Term.replace_congr fun x hx => resolve_of_get?_eq_none (h x hx) _).trans t.replace_var

theorem Triangular.follows_apply (hs : s.Triangular) : s.Follows s.apply where
  bound x t hx := hs.solvedBy_resolve x t hx
  free x hx := resolve_of_get?_eq_none hx _
  const c := rfl
  app k ts := by rw [apply, Term.replace, Term.replaceAll_eq_map]; rfl

/-- Where the recursion ends, it has one result. -/
theorem Follows.unique {f g : Term → Term} (h : WellFounded s.Calls) (hf : s.Follows f)
    (hg : s.Follows g) : f = g := by
  funext t
  induction t using h.induction with
  | h t ih =>
    cases t with
    | var x =>
      cases hx : s.get? x with
      | none => rw [hf.free x hx, hg.free x hx]
      | some t => rw [hf.bound x t hx, hg.bound x t hx, ih t (.bound hx)]
    | const c => rw [hf.const, hg.const]
    | app k ts =>
      rw [hf.app, hg.app]
      congr 1
      exact List.map_congr_left fun t ht => ih t (.argument ht)

/-- The bindings have no cycle, so that following them ends, with terms that have no bound
variables. -/
structure IsAcyclic (s : Substitution) : Prop where
  /-- No chain of bindings leads from a variable back to itself. -/
  irrefl : ∀ x, ¬Relation.TransGen s.LeadsTo x x
  /-- The wildcard is not bound. -/
  wildcard : s.get? wildcard = none
  /-- A bound variable does not occur in what it stands for in the end. -/
  not_mem : ∀ x t, s.get? x = some t → x ∉ (s.apply t).occurrences
  /-- Following the bindings from a term comes to an end on every way. -/
  wellFounded : WellFounded s.Calls
  /-- The result is the one of `Substitution.apply`. -/
  follows_iff : ∀ f, s.Follows f ↔ f = s.apply
  /-- The result has no bound variables. -/
  free : ∀ t, ∀ x ∈ (s.apply t).occurrences, s.get? x = none
  /-- Following the bindings once more changes nothing. -/
  idempotent : ∀ t, s.apply (s.apply t) = s.apply t

theorem Triangular.isAcyclic (hs : s.Triangular) (hwild : s.get? Deduction.wildcard = none) :
    s.IsAcyclic where
  irrefl x h := hs.wellFounded_leadsTo.transGen.irrefl.irrefl x h
  wildcard := hwild
  not_mem x t hx hmem := by
    rw [hs.get?_of_mem_apply x hmem] at hx
    cases hx
  wellFounded := wellFounded_calls hs.wellFounded_leadsTo
  follows_iff f := by
    have hcalls := wellFounded_calls hs.wellFounded_leadsTo
    constructor
    · exact fun hf => hf.unique hcalls hs.follows_apply
    · rintro rfl
      exact hs.follows_apply
  free t := fun x => hs.get?_of_mem_apply x
  idempotent t := apply_eq_self fun x => hs.get?_of_mem_apply x

/-- Unifications make no cycles. Whatever terms, lists of terms and atoms are unified one after the
other, from no bindings on and with success or without, no variable leads back to itself and the
wildcard is not bound. -/
theorem isAcyclic_of_reachable (hs : s.Reachable) : s.IsAcyclic :=
  hs.triangular.1.isAcyclic hs.triangular.2

/-- A unification that fails at the occurs check leaves a binding behind, and a later one binds the
variable to which it leads, to a term with the wildcard. -/
theorem isAcyclic_of_reachable_failed :
    let f (t : Term) : Term := .app "f" [t]
    let pair (t u : Term) : Term := .app "pair" [t, u]
    let x : Term := .var "X"
    let y : Term := .var "Y"
    let failed := empty.unify (pair x y) (pair (f y) (f x))
    let s := (failed.bindings.unifyAll [y] [pair (.var Deduction.wildcard) (.var "Z")]).bindings
    failed.solved = false ∧ s.Reachable ∧ s.LeadsTo "Y" "X" ∧
      s.apply x = f (pair (.var Deduction.wildcard) (.var "Z")) ∧
      ¬Relation.TransGen s.LeadsTo "X" "X" ∧ s.apply (s.apply x) = s.apply x := by
  intro f pair x y failed s
  have hs : s.Reachable := .unifyAll (.unify .empty _ _) _ _
  have hacyclic := isAcyclic_of_reachable hs
  exact ⟨by decide +kernel, hs, ⟨f y, by decide +kernel, by decide⟩, by decide +kernel,
    hacyclic.irrefl "X", hacyclic.idempotent x⟩

end Substitution

end Deduction
