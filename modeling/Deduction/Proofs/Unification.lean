import Deduction.Proofs.Instances
import Deduction.Proofs.Storage
import Deduction.Unification

/-!
# Unification computes most general unifiers

The bindings that unification makes are solved: following them from a variable comes to an end, and
leads to a term without bound variables (`Substitution.Triangular`). A valuation agrees with the
bindings exactly if it makes the unified terms equal (`Unifier.solve_equates`), so that the bindings
themselves make them equal (`Substitution.apply_eq_of_unify`), and every other solution is an
instance of theirs.

Terms with the wildcard are left out: it stands for a different term wherever it occurs.
-/

namespace Deduction

namespace Term

variable {f g : String → Term} {t : Term} {x : String}

theorem replace_replace (t : Term) :
    (t.replace f).replace g = t.replace fun x => (f x).replace g := by
  induction t using inductionOn with
  | var x => rfl
  | const c => rfl
  | app k ts ih =>
    simp only [replace, replaceAll_eq_map, List.map_map]
    congr 1
    exact List.map_congr_left ih

theorem size_le_sizeAll {ts : List Term} (h : t ∈ ts) : t.size ≤ sizeAll ts := by
  induction ts with
  | nil => cases h
  | cons u us ih =>
    rw [sizeAll]
    rcases List.mem_cons.1 h with rfl | h
    · exact Nat.le_add_right _ _
    · exact Nat.le_trans (ih h) (Nat.le_add_left _ _)

/-- What replaces a variable is not larger than the whole. -/
theorem size_le_size_replace (h : x ∈ t.occurrences) : (f x).size ≤ (t.replace f).size := by
  induction t using inductionOn with
  | var y =>
    obtain rfl := List.mem_singleton.1 h
    exact Nat.le_refl _
  | const c => cases h
  | app k ts ih =>
    rw [occurrences, occurrencesAll_eq_flatMap] at h
    obtain ⟨t, ht, hx⟩ := List.mem_flatMap.1 h
    rw [replace, replaceAll_eq_map, size]
    exact Nat.le_succ_of_le
      (Nat.le_trans (ih t ht hx) (size_le_sizeAll (List.mem_map_of_mem ht)))

/-- No valuation makes a variable equal to a larger term in which it occurs. -/
theorem ne_replace_of_mem (h : x ∈ t.occurrences) (hne : t ≠ .var x) : f x ≠ t.replace f := by
  intro heq
  cases t with
  | var y =>
    obtain rfl := List.mem_singleton.1 h
    exact hne rfl
  | const c => cases h
  | app k ts =>
    rw [occurrences, occurrencesAll_eq_flatMap] at h
    obtain ⟨t, ht, hx⟩ := List.mem_flatMap.1 h
    have hle : (f x).size ≤ sizeAll (ts.map (replace f)) :=
      Nat.le_trans (size_le_size_replace hx) (size_le_sizeAll (List.mem_map_of_mem ht))
    rw [heq, replace, replaceAll_eq_map, size] at hle
    omega

end Term

/-! ## Solved bindings -/

namespace Substitution

variable {s s' : Substitution} {v : Valuation} {x y : String} {t u : Term}

/-- The bindings were made one after the other, each of a fresh variable to a term without bound
variables. -/
inductive Triangular : Substitution → Prop
  | empty : Triangular empty
  | bind {s : Substitution} {x : String} {t : Term} : Triangular s → s.get? x = none →
      x ∉ t.occurrences → (∀ y ∈ t.occurrences, s.get? y = none) → Triangular (s.bind x t)

/-- A valuation agrees with the bindings. -/
def SolvedBy (s : Substitution) (v : Valuation) : Prop :=
  ∀ x t, s.get? x = some t → v x = t.replace v

theorem solvedBy_empty (v : Valuation) : empty.SolvedBy v := fun x t h => by simp [empty] at h

theorem solvedBy_bind (hx : s.get? x = none) :
    (s.bind x t).SolvedBy v ↔ s.SolvedBy v ∧ v x = t.replace v := by
  constructor
  · intro h
    refine ⟨fun y u hy => h y u ?_, h x t (by rw [get?_bind, if_pos rfl])⟩
    have hne : y ≠ x := by
      rintro rfl
      simp [hx] at hy
    rw [get?_bind, if_neg hne, hy]
  · rintro ⟨h, hv⟩ y u hy
    rw [get?_bind] at hy
    split at hy
    · next hyx => rw [hyx, hv, Option.some.inj hy]
    · exact h y u hy

theorem resolve_of_get?_eq_none (h : s.get? x = none) (n : Nat) : s.resolve n x = .var x := by
  cases n with
  | zero => rfl
  | succ n => rw [resolve, h]

theorem size_bind (hx : s.get? x = none) : (s.bind x t).size = s.size + 1 := by
  have hfilter : s.entries.filter (·.1 ≠ x) = s.entries := by
    refine List.filter_eq_self.2 fun e he => decide_eq_true ?_
    rintro rfl
    simp [Table.get?_eq_some_iff.2 he] at hx
  simp only [bind, Table.insert, Table.size, hfilter, List.length_cons]

/-- One variable gives way to a term. -/
def single (x : String) (t : Term) : String → Term :=
  fun y => if y = x then t else .var y

/-- A valuation that gives a variable the value of a term does not see whether one stands for the
other. -/
theorem replace_replace_single (h : v x = t.replace v) (u : Term) :
    (u.replace (single x t)).replace v = u.replace v := by
  rw [Term.replace_replace]
  refine Term.replace_congr fun y _ => ?_
  by_cases hyx : y = x
  · rw [single, if_pos hyx, hyx, h]
  · rw [single, if_neg hyx, Term.replace]

theorem apply_empty (t : Term) : empty.apply t = t :=
  t.replace_var

/-- A further binding is made in the terms that variables stand for. -/
theorem resolve_bind (hx : s.get? x = none) (hxt : x ∉ t.occurrences)
    (ht : ∀ y ∈ t.occurrences, s.get? y = none) {n : Nat}
    (hy : ∀ z ∈ (s.resolve n y).occurrences, s.get? z = none) :
    (s.bind x t).resolve (n + 1) y = (s.resolve n y).replace (single x t) := by
  have hopen : ∀ m y, s.get? y = none →
      (s.bind x t).resolve (m + 1) y = (Term.var y).replace (single x t) := by
    intro m y hy
    rw [resolve, get?_bind, Term.replace, single]
    by_cases hyx : y = x
    · simp only [if_pos hyx]
      refine (Term.replace_congr fun z hz => ?_).trans t.replace_var
      have hzx : z ≠ x := fun h => hxt (h ▸ hz)
      exact resolve_of_get?_eq_none (by rw [get?_bind, if_neg hzx, ht z hz]) m
    · simp only [if_neg hyx, hy]
  induction n generalizing y with
  | zero => exact hopen 0 y (hy y (.head _))
  | succ n ih =>
    cases hget : s.get? y with
    | none =>
      rw [hopen _ _ hget, resolve_of_get?_eq_none hget]
    | some u =>
      have hyx : y ≠ x := by
        rintro rfl
        simp [hx] at hget
      rw [resolve, get?_bind, if_neg hyx, hget, resolve, hget]
      simp only [resolve, hget] at hy
      simp only [Term.replace_replace]
      refine Term.replace_congr fun z hz => ih fun w hw => hy w ?_
      exact Term.mem_occurrences_replace u |>.2 ⟨z, hz, hw⟩

/-- Following the bindings ends in terms without bound variables. -/
theorem Triangular.get?_of_mem_resolve (h : s.Triangular) :
    ∀ z ∈ (s.resolve s.size y).occurrences, s.get? z = none := by
  induction h generalizing y with
  | empty => exact fun z _ => rfl
  | @bind s x t _ hx hxt ht ih =>
    intro z hz
    rw [size_bind hx, resolve_bind hx hxt ht ih, Term.mem_occurrences_replace] at hz
    obtain ⟨w, hw, hz⟩ := hz
    rw [single] at hz
    split at hz
    · have hzx : z ≠ x := fun h => hxt (h ▸ hz)
      rw [get?_bind, if_neg hzx, ht z hz]
    · next hwx =>
      obtain rfl := List.mem_singleton.1 hz
      rw [get?_bind, if_neg hwx, ih z hw]

theorem Triangular.get?_of_mem_apply (h : s.Triangular) :
    ∀ z ∈ (s.apply u).occurrences, s.get? z = none := by
  intro z hz
  obtain ⟨y, -, hz⟩ := (Term.mem_occurrences_replace u).1 hz
  exact h.get?_of_mem_resolve z hz

theorem Triangular.apply_bind (h : s.Triangular) (hx : s.get? x = none) (hxt : x ∉ t.occurrences)
    (ht : ∀ y ∈ t.occurrences, s.get? y = none) (u : Term) :
    (s.bind x t).apply u = (s.apply u).replace (single x t) := by
  rw [apply, apply, Term.replace_replace, size_bind hx]
  exact Term.replace_congr fun y _ => resolve_bind hx hxt ht h.get?_of_mem_resolve

/-- The bindings are a solution of themselves. -/
theorem Triangular.solvedBy_resolve (h : s.Triangular) : s.SolvedBy (s.resolve s.size) := by
  intro x t hx
  induction h generalizing x t with
  | empty => simp [Substitution.empty] at hx
  | @bind s y u hs hy hyu hu ih =>
    have happly := fun w => hs.apply_bind hy hyu hu w
    have hvalue : (s.bind y u).resolve (s.bind y u).size x =
        (s.resolve s.size x).replace (single y u) := happly (.var x)
    have hterm : t.replace ((s.bind y u).resolve (s.bind y u).size) =
        (s.apply t).replace (single y u) := happly t
    rw [hvalue, hterm]
    rw [get?_bind] at hx
    split at hx
    -- The new variable stands for its term, which has no bound variables.
    · next hxy =>
      subst hxy
      obtain rfl := Option.some.inj hx
      have hself : s.apply u = u := (Term.replace_congr fun z hz =>
        resolve_of_get?_eq_none (hu z hz) _).trans u.replace_var
      have hopen : (s.resolve s.size x).replace (single x u) = u := by
        rw [resolve_of_get?_eq_none hy, Term.replace, single, if_pos rfl]
      rw [hself, hopen]
      refine ((Term.replace_congr fun z hz => ?_).trans u.replace_var).symm
      exact if_neg fun hzx : z = x => hyu (hzx ▸ hz)
    · rw [ih x t hx]
      rfl

/-- Valuations that agree with the bindings do not see them. -/
theorem SolvedBy.replace_apply (h : s.SolvedBy v) (u : Term) :
    (s.apply u).replace v = u.replace v := by
  have hresolve : ∀ n x, (s.resolve n x).replace v = v x := by
    intro n
    induction n with
    | zero => exact fun x => rfl
    | succ n ih =>
      intro x
      rw [resolve]
      cases hx : s.get? x with
      | none => rfl
      | some t =>
        simp only [Term.replace_replace]
        rw [h x t hx]
        exact Term.replace_congr fun y _ => ih y
  rw [apply, Term.replace_replace]
  exact Term.replace_congr fun x _ => hresolve _ x

end Substitution

/-! ## Equations -/

namespace Equation

variable {eqs rest more : List Equation} {v : Valuation} {x : String} {t : Term}

/-- A valuation makes the sides of all equations equal. -/
def Equates (v : Valuation) (eqs : List Equation) : Prop :=
  ∀ e ∈ eqs, e.1.replace v = e.2.replace v

/-- The wildcard does not occur in the equations. -/
def NoWildcard (eqs : List Equation) : Prop :=
  wildcard ∉ occurrences eqs

theorem equates_cons {e : Equation} :
    Equates v (e :: eqs) ↔ e.1.replace v = e.2.replace v ∧ Equates v eqs :=
  List.forall_mem_cons

theorem equates_append : Equates v (eqs ++ more) ↔ Equates v eqs ∧ Equates v more :=
  List.forall_mem_append

theorem equates_zip_iff {ts us : List Term} (h : ts.length = us.length) :
    Equates v (ts.zip us) ↔ ts.map (Term.replace v) = us.map (Term.replace v) := by
  induction ts generalizing us with
  | nil => cases us <;> simp_all [Equates]
  | cons t ts ih =>
    cases us with
    | nil => cases h
    | cons u us =>
      rw [List.zip_cons_cons, equates_cons, ih (Nat.succ.inj h), List.map_cons, List.map_cons,
        List.cons.injEq]

theorem equates_eliminate_iff (h : v x = t.replace v) :
    Equates v (eliminate x t eqs) ↔ Equates v eqs := by
  have hreplace : ∀ u : Term, (u.replace fun y => if y = x then t else .var y).replace v =
      u.replace v := Substitution.replace_replace_single h
  rw [Equates, Equates, eliminate, List.forall_mem_map]
  simp only [hreplace]

/-- Taking applications apart leaves their variables. -/
theorem mem_occurrences_of_mem_zip {f g : String} {ts us : List Term} {y : String}
    (h : y ∈ occurrences (ts.zip us ++ rest)) :
    y ∈ occurrences ((.app f ts, .app g us) :: rest) := by
  simp only [occurrences, List.flatMap_append, List.flatMap_cons, List.mem_append,
    List.mem_flatMap, Term.occurrences, Term.occurrencesAll_eq_flatMap] at h ⊢
  rcases h with ⟨⟨t, u⟩, he, hy | hy⟩ | hy
  · exact .inl (.inl ⟨t, (List.of_mem_zip he).1, hy⟩)
  · exact .inl (.inr ⟨u, (List.of_mem_zip he).2, hy⟩)
  · exact .inr hy

/-- When a variable has been bound, the equations that are left are about others. -/
theorem mem_occurrences_of_mem_eliminate {y : String} (h : advance eqs = .binding x t rest)
    (hy : y ∈ occurrences (eliminate x t rest)) : y ∈ occurrences eqs ∧ y ≠ x := by
  obtain ⟨-, ht, hrest, hxt⟩ := occurrences_of_advance h
  rcases mem_occurrences_eliminate hy with hy | ⟨hy, hne⟩
  · exact ⟨ht y hy, fun heq => hxt (heq ▸ hy)⟩
  · exact ⟨hrest y hy, hne⟩

/-- A binding is never one of the wildcard, and its parts have what the terms of the equations pass
on to their arguments. -/
theorem of_advance_eq_binding {P : Term → Prop} (happ : ∀ k ts, P (.app k ts) → ∀ t ∈ ts, P t)
    (heqs : ∀ e ∈ eqs, P e.1 ∧ P e.2) (h : advance eqs = .binding x t rest) :
    x ≠ wildcard ∧ P t ∧ ∀ e ∈ rest, P e.1 ∧ P e.2 := by
  fun_induction advance eqs with
  | case2 y u eqs _ ih | case5 u eqs _ ih | case8 c eqs ih =>
    exact ih (List.forall_mem_cons.1 heqs).2 h
  | case4 y u eqs hskip _ =>
    obtain ⟨rfl, rfl, rfl⟩ := Progress.binding.inj h
    obtain ⟨⟨-, hu⟩, hrest⟩ := List.forall_mem_cons.1 heqs
    exact ⟨fun hy => hskip (.inl hy), hu, hrest⟩
  | case7 u y eqs _ hy _ =>
    obtain ⟨rfl, rfl, rfl⟩ := Progress.binding.inj h
    obtain ⟨⟨hu, -⟩, hrest⟩ := List.forall_mem_cons.1 heqs
    exact ⟨hy, hu, hrest⟩
  | case10 f ts g us eqs _ ih =>
    obtain ⟨⟨hts, hus⟩, hrest⟩ := List.forall_mem_cons.1 heqs
    refine ih (List.forall_mem_append.2 ⟨fun e he => ?_, hrest⟩) h
    obtain ⟨ht, hu⟩ := List.of_mem_zip he
    exact ⟨happ f ts hts _ ht, happ g us hus _ hu⟩
  | case1 | case3 | case6 | case9 | case11 | case12 | case13 => cases h

/-- What taking equations apart says about the valuations that equate them. -/
def EquateSpec (eqs : List Equation) : Progress → Prop
  | .solved => ∀ v, Equates v eqs
  | .clash => ∀ v, ¬Equates v eqs
  | .binding x t rest => ∀ v, Equates v eqs ↔ v x = t.replace v ∧ Equates v rest

theorem EquateSpec.of_iff {eqs' : List Equation} {progress : Progress}
    (h : EquateSpec eqs' progress) (heq : ∀ v, Equates v eqs ↔ Equates v eqs') :
    EquateSpec eqs progress := by
  cases progress with
  | solved => exact fun v => (heq v).2 (h v)
  | clash => exact fun v hv => h v ((heq v).1 hv)
  | binding x t rest => exact fun v => (heq v).trans (h v)

theorem not_mem_of_noWildcard_cons {e : Equation} (h : NoWildcard (e :: eqs)) :
    wildcard ∉ e.1.occurrences ∧ wildcard ∉ e.2.occurrences ∧ NoWildcard eqs := by
  simp only [NoWildcard, occurrences, List.flatMap_cons, List.mem_append, not_or] at h ⊢
  exact ⟨h.1.1, h.1.2, h.2⟩

theorem advance_equates (h : NoWildcard eqs) : EquateSpec eqs (advance eqs) := by
  fun_induction advance eqs with
  | case1 => exact fun v e he => by simp at he
  -- Without wildcards an equation is skipped because its sides are the same variable.
  | case2 y u eqs hskip ih =>
    obtain ⟨hy, hu, hrest⟩ := not_mem_of_noWildcard_cons h
    refine (ih hrest).of_iff fun v => ?_
    rw [equates_cons, and_iff_right]
    rcases hskip with rfl | rfl | rfl
    · exact absurd (.head _) hy
    · exact absurd (.head _) hu
    · rfl
  -- The occurs check: a variable is not equal to a larger term in which it occurs.
  | case3 y u eqs hskip hmem =>
    intro v hv
    exact Term.ne_replace_of_mem hmem (fun hu => hskip (.inr (.inr hu))) (equates_cons.1 hv).1
  | case4 y u eqs hskip _ => exact fun v => equates_cons
  | case5 u eqs hu ih => exact absurd (.head _) (not_mem_of_noWildcard_cons h).2.1
  | case6 u y eqs hu hy hmem =>
    intro v hv
    refine Term.ne_replace_of_mem hmem (fun hu' => hu _ hu') (equates_cons.1 hv).1.symm
  | case7 u y eqs hu hy hmem =>
    intro v
    rw [equates_cons, Term.replace, eq_comm]
  | case8 c eqs ih =>
    refine (ih (not_mem_of_noWildcard_cons h).2.2).of_iff fun v => ?_
    rw [equates_cons, and_iff_right rfl]
  | case9 c d eqs hne =>
    intro v hv
    exact hne (Term.const.inj (equates_cons.1 hv).1)
  | case10 f ts g us eqs hfg ih =>
    obtain ⟨rfl, hlength⟩ := hfg
    refine (ih ?_).of_iff fun v => ?_
    · exact fun hmem => h (mem_occurrences_of_mem_zip hmem)
    · rw [equates_cons, equates_append, equates_zip_iff hlength]
      simp [Term.replace, Term.replaceAll_eq_map]
  | case11 f ts g us eqs hne =>
    intro v hv
    have hfg := (equates_cons.1 hv).1
    rw [Term.replace, Term.replace, Term.replaceAll_eq_map, Term.replaceAll_eq_map] at hfg
    obtain ⟨hf, hts⟩ := Term.app.inj hfg
    exact hne ⟨hf, by simpa using congrArg List.length hts⟩
  | case12 c g us eqs =>
    intro v hv
    simpa [Term.replace] using (equates_cons.1 hv).1
  | case13 f ts c eqs =>
    intro v hv
    simpa [Term.replace] using (equates_cons.1 hv).1

end Equation

namespace Unifier

variable {eqs : List Equation} {s : Substitution}

/-- What solving equations says about valuations: those that agree with the resulting bindings are
those that agree with the given ones and equate the equations; without a result there are none. -/
def EquateSpec (eqs : List Equation) (s : Substitution) : Option Substitution → Prop
  | some s' => s'.Triangular ∧ ∀ v, s'.SolvedBy v ↔ s.SolvedBy v ∧ Equation.Equates v eqs
  | none => ∀ v, ¬Equation.Equates v eqs

theorem solve_equates (hs : s.Triangular) (h : Equation.NoWildcard eqs)
    (hfree : ∀ x ∈ Equation.occurrences eqs, s.get? x = none) :
    EquateSpec eqs s (solve eqs s).substitution? := by
  have hadvance := Equation.advance_equates h
  fun_induction solve eqs s with
  | case1 eqs s hsolved =>
    rw [hsolved] at hadvance
    exact ⟨hs, fun v => (and_iff_left (hadvance v)).symm⟩
  | case2 eqs s hclash =>
    rw [hclash] at hadvance
    exact hadvance
  | case3 eqs s x t rest hbinding _ ih =>
    rw [hbinding] at hadvance
    obtain ⟨hx, ht, -, hxt⟩ := Equation.occurrences_of_advance hbinding
    -- The variable is fresh, and so is every variable that is left.
    have hleft : ∀ y ∈ Equation.occurrences (Equation.eliminate x t rest),
        y ∈ Equation.occurrences eqs ∧ y ≠ x :=
      fun y hy => Equation.mem_occurrences_of_mem_eliminate hbinding hy
    have hwild : Equation.NoWildcard (Equation.eliminate x t rest) := fun hmem => h (hleft _ hmem).1
    have hspec := ih (.bind hs (hfree x hx) hxt fun y hy => hfree y (ht y hy)) hwild
      (fun y hy => by rw [Substitution.get?_bind, if_neg (hleft y hy).2, hfree y (hleft y hy).1])
      (Equation.advance_equates hwild)
    -- Eliminating the variable makes no difference to valuations that give it the term.
    cases hresult : (solve (Equation.eliminate x t rest) (s.bind x t)).substitution? with
    | none =>
      rw [hresult] at hspec
      intro v hv
      obtain ⟨hvx, hv⟩ := (hadvance v).1 hv
      exact hspec v ((Equation.equates_eliminate_iff hvx).2 hv)
    | some s' =>
      rw [hresult] at hspec
      refine ⟨hspec.1, fun v => ?_⟩
      rw [hspec.2, Substitution.solvedBy_bind (hfree x hx), hadvance, and_assoc]
      exact and_congr_right fun _ => and_congr_right Equation.equates_eliminate_iff

/-- Bindings are never made for the wildcard, and have what the terms of the equations pass on to
their arguments and keep when variables are replaced. -/
theorem of_get?_solve {P : Term → Prop} (happ : ∀ k ts, P (.app k ts) → ∀ t ∈ ts, P t)
    (hreplace : ∀ x t u, P t → P u → P (u.replace (Substitution.single x t)))
    (heqs : ∀ e ∈ eqs, P e.1 ∧ P e.2)
    (hs : ∀ x t, s.get? x = some t → x ≠ wildcard ∧ P t) :
    ∀ x t, (solve eqs s).bindings.get? x = some t → x ≠ wildcard ∧ P t := by
  fun_induction solve eqs s with
  | case1 eqs s _ => exact hs
  | case2 eqs s _ => exact hs
  | case3 eqs s x t rest hbinding _ ih =>
    obtain ⟨hx, ht, hrest⟩ := Equation.of_advance_eq_binding happ heqs hbinding
    refine ih ?_ fun y u hu => ?_
    · rw [Equation.eliminate, List.forall_mem_map]
      exact fun e he => ⟨hreplace x t _ ht (hrest e he).1, hreplace x t _ ht (hrest e he).2⟩
    · rw [Substitution.get?_bind] at hu
      split at hu
      · next hyx => exact ⟨hyx ▸ hx, Option.some.inj hu ▸ ht⟩
      · exact hs y u hu

end Unifier

/-! ## Lists of terms, and two terms -/

namespace Substitution

variable {s : Substitution} {t u : Term} {ts us : List Term} {v : Valuation}

/-- The equations that a unification solves are those between its terms, for valuations that agree
with the bindings. -/
theorem SolvedBy.equates_zip_iff (h : s.SolvedBy v) (hlength : ts.length = us.length) :
    Equation.Equates v ((s.applyAll ts).zip (s.applyAll us)) ↔
      ts.map (Term.replace v) = us.map (Term.replace v) := by
  have hreplace : ∀ ws : List Term, (s.applyAll ws).map (Term.replace v) =
      ws.map (Term.replace v) := fun ws => by
    rw [applyAll, List.map_map]
    exact List.map_congr_left fun w _ => h.replace_apply w
  rw [Equation.equates_zip_iff (by simpa [applyAll] using hlength), hreplace, hreplace]

/-- The variables of the equations that a unification solves come from its terms. -/
theorem mem_occurrences_zip_applyAll {x : String}
    (hx : x ∈ Equation.occurrences ((s.applyAll ts).zip (s.applyAll us))) :
    ∃ t ∈ ts ++ us, x ∈ (s.apply t).occurrences := by
  obtain ⟨⟨l, r⟩, he, hx⟩ := List.mem_flatMap.1 hx
  obtain ⟨hl, hr⟩ := List.of_mem_zip he
  obtain ⟨t, ht, rfl⟩ := List.mem_map.1 hl
  obtain ⟨u, hu, rfl⟩ := List.mem_map.1 hr
  rcases List.mem_append.1 hx with hx | hx
  · exact ⟨t, List.mem_append_left _ ht, hx⟩
  · exact ⟨u, List.mem_append_right _ hu, hx⟩

/-- The solutions of a unification are those of the bindings that are there which make the lists of
terms equal. -/
theorem unifyAll_equates (hs : s.Triangular)
    (hwild : ∀ t ∈ ts ++ us, wildcard ∉ (s.apply t).occurrences) :
    match (s.unifyAll ts us).substitution? with
    | some s' => s'.Triangular ∧ ∀ v, s'.SolvedBy v ↔
        s.SolvedBy v ∧ ts.map (Term.replace v) = us.map (Term.replace v)
    | none => ∀ v, s.SolvedBy v → ts.map (Term.replace v) ≠ us.map (Term.replace v) := by
  by_cases hlength : ts.length = us.length
  · have hnowild : Equation.NoWildcard ((s.applyAll ts).zip (s.applyAll us)) := fun hmem => by
      obtain ⟨t, ht, hmem⟩ := mem_occurrences_zip_applyAll hmem
      exact hwild t ht hmem
    have hspec := Unifier.solve_equates hs hnowild fun x hx => by
      obtain ⟨t, -, hx⟩ := mem_occurrences_zip_applyAll hx
      exact hs.get?_of_mem_apply x hx
    rw [unifyAll, if_pos hlength]
    cases hresult : (Unifier.solve ((s.applyAll ts).zip (s.applyAll us)) s).substitution? with
    | none =>
      rw [hresult] at hspec
      exact fun v hv heq => hspec v ((hv.equates_zip_iff hlength).2 heq)
    | some s' =>
      rw [hresult] at hspec
      refine ⟨hspec.1, fun v => ?_⟩
      rw [hspec.2]
      exact and_congr_right fun hv => hv.equates_zip_iff hlength
  · rw [unifyAll, if_neg hlength]
    exact fun v _ heq => hlength (by simpa using congrArg List.length heq)

/-- Two terms are unified as lists of one term each. -/
theorem unify_eq_unifyAll (s : Substitution) (t u : Term) : s.unify t u = s.unifyAll [t] [u] :=
  rfl

/-- The solutions of a unification are those of the bindings that are there which make the terms
equal. -/
theorem unify_equates (hs : s.Triangular) (ht : wildcard ∉ (s.apply t).occurrences)
    (hu : wildcard ∉ (s.apply u).occurrences) :
    match (s.unify t u).substitution? with
    | some s' => s'.Triangular ∧ ∀ v, s'.SolvedBy v ↔ s.SolvedBy v ∧ t.replace v = u.replace v
    | none => ∀ v, s.SolvedBy v → t.replace v ≠ u.replace v := by
  have hwild : ∀ w ∈ [t] ++ [u], wildcard ∉ (s.apply w).occurrences := by simpa using ⟨ht, hu⟩
  have hspec := unifyAll_equates hs hwild
  simpa [unify_eq_unifyAll] using hspec

/-- The bindings of unified terms are never made for the wildcard, and have what the terms pass on
to their arguments and keep when variables are replaced. -/
theorem of_unify_empty {P : Term → Prop} (happ : ∀ k ts, P (.app k ts) → ∀ t ∈ ts, P t)
    (hreplace : ∀ x t u, P t → P u → P (u.replace (single x t))) (ht : P t) (hu : P u)
    (h : (empty.unify t u).substitution? = some s) :
    ∀ x t, s.get? x = some t → x ≠ wildcard ∧ P t := by
  rw [Unifier.substitution?] at h
  split at h
  · obtain rfl := Option.some.inj h
    refine Unifier.of_get?_solve happ hreplace ?_ fun x t hx => by simp [empty] at hx
    rw [List.forall_mem_singleton, apply_empty, apply_empty]
    exact ⟨ht, hu⟩
  · cases h

/-- Unified terms are equal. -/
theorem apply_eq_of_unify {s' : Substitution} (hs : s.Triangular)
    (ht : wildcard ∉ (s.apply t).occurrences) (hu : wildcard ∉ (s.apply u).occurrences)
    (h : (s.unify t u).substitution? = some s') : s'.apply t = s'.apply u := by
  have hspec := unify_equates hs ht hu
  rw [h] at hspec
  exact ((hspec.2 _).1 hspec.1.solvedBy_resolve).2

end Substitution

end Deduction
