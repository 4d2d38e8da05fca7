import Deduction.Builtin.Registry
import Deduction.Proofs.Exact
import Deduction.Proofs.GroundUnification

/-!
# What builtins return

A builtin that succeeds puts values into its arguments (`Builtin.completes_of_evaluate`): the result
is ground, and exact if the arguments are. A call whose open arguments are those that the builtin
can compute fails for arithmetic reasons only (`Builtin.isArithmetic_of_evaluate`): a divisor is
zero, or a number does not fit into 64 bits.
-/

namespace Deduction

theorem Number.isGround_of_ofTerm? {t : Term} {a : Number} (h : Number.ofTerm? t = some a) :
    t.isGround = true := by
  cases t with
  | const c => rfl
  | var x => cases h
  | app f ts => cases h

/-- The error of a builtin is one of arithmetic: a divisor is zero, or a number does not fit into 64
bits. -/
def BuiltinError.IsArithmetic : BuiltinError → Prop
  | .divisionByZero _ | .overflow _ => True
  | .wrongArity _ _ _ | .unbound _ _ => False

namespace Builtin

variable {b : Builtin} {args completed : List Term} {t u x y z : Term} {e : BuiltinError}
  {name : String}

theorem isArithmetic_error (b : Builtin) (e : ArithmeticError) : (b.error e).IsArithmetic := by
  cases e <;> trivial

theorem isArithmetic_of_map {α β : Type} {r : Except ArithmeticError α} {f : α → β}
    (h : (r.mapError b.error).map f = .error e) : e.IsArithmetic := by
  rw [map_eq_error_iff, mapError_eq_error_iff] at h
  obtain ⟨e', -, rfl⟩ := h
  exact isArithmetic_error b e'

/-! ## Results -/

/-- A completion puts bindings into the arguments, which are exact if the arguments are. -/
def Completes (args : List Term) (s : Substitution) (completed : List Term) : Prop :=
  completed = s.applyAll args ∧ Term.areGround completed = true ∧
    ∀ x t, s.get? x = some t →
      x ≠ wildcard ∧ ((∀ u ∈ args, u.isExact = true) → t.isExact = true)

/-- Ground arguments may be returned as they are. -/
theorem completes_self (h : Term.areGround args = true) : Completes args .empty args := by
  refine ⟨?_, h, fun x t hx => by simp [Substitution.empty] at hx⟩
  rw [Substitution.applyAll, List.map_congr_left fun t _ => Substitution.apply_empty t]
  exact (List.map_id args).symm

theorem completes_of_complete {target : Term} {value : Option Number} (htarget : target ∈ args)
    (hvalue : ∀ n, value = some n → (∀ u ∈ args, u.isExact = true) → ∃ i, n = .integer i)
    (h : complete args target value = some completed) : ∃ s, Completes args s completed := by
  obtain ⟨n, hn, h⟩ := Option.bind_eq_some_iff.1 h
  obtain ⟨s, hs, h⟩ := Option.bind_eq_some_iff.1 h
  simp only at h
  split at h
  · next hground =>
    obtain rfl := Option.some.inj h
    refine ⟨s, rfl, hground, Substitution.isExact_of_unify_empty (fun h => h _ htarget) ?_ hs⟩
    intro hexact
    obtain ⟨i, rfl⟩ := hvalue n hn hexact
    rfl
  · cases h

theorem completes_of_evaluateEquality (h : evaluateEquality t u = .ok (some completed)) :
    ∃ s, Completes [t, u] s completed := by
  rw [evaluateEquality] at h
  split at h
  · next hground =>
    simp only [Except.ok.injEq, Option.ite_none_right_eq_some, Option.some.injEq] at h
    obtain ⟨-, rfl⟩ := h
    exact ⟨_, completes_self (by simpa [Term.areGround] using hground)⟩
  · split at h
    · cases h
    · next s hs =>
      simp only at h
      split at h
      · next hground =>
        obtain rfl := Option.some.inj (Except.ok.inj h)
        exact ⟨s, rfl, hground, Substitution.isExact_of_unify_empty (fun h => h t (by simp))
          (fun h => h u (by simp)) hs⟩
      · cases h

theorem completes_of_evaluateArithmetic {op : Operation}
    (h : evaluateArithmetic name op x y z = .ok (some completed)) :
    ∃ s, Completes [x, y, z] s completed := by
  -- Numbers among exact arguments are integers.
  have hinteger : ∀ t ∈ [x, y, z], ∀ n, Number.ofTerm? t = some n →
      (∀ u ∈ [x, y, z], u.isExact = true) → ∃ i, n = .integer i := fun t ht n hn hexact =>
    (Number.exists_integer_of_isExact hn (hexact t ht)).imp fun _ => And.left
  rw [evaluateArithmetic] at h
  split at h
  · cases h
  split at h
  · cases h
  split at h
  -- Three numbers are returned as they are.
  · next a b c hx hy hz =>
    obtain ⟨r, -, h⟩ := map_eq_ok_iff.1 h
    simp only [Option.ite_none_right_eq_some, Option.some.injEq] at h
    obtain ⟨-, rfl⟩ := h
    exact ⟨_, completes_self (by simp [Term.areGround, Number.isGround_of_ofTerm? hx,
      Number.isGround_of_ofTerm? hy, Number.isGround_of_ofTerm? hz])⟩
  -- What is computed from integers is an integer.
  · next a b hx hy _ =>
    obtain ⟨r, hr, h⟩ := map_eq_ok_iff.1 h
    refine completes_of_complete (by simp) (fun n hn hexact => ?_) h
    obtain ⟨i, rfl⟩ := hinteger x (by simp) a hx hexact
    obtain ⟨j, rfl⟩ := hinteger y (by simp) b hy hexact
    obtain rfl := Option.some.inj hn
    exact Operation.exists_of_result_eq_ok (mapError_eq_ok_iff.1 hr)
  · next b c _ hy hz =>
    obtain ⟨r, hr, h⟩ := map_eq_ok_iff.1 h
    refine completes_of_complete (by simp) (fun n hn hexact => ?_) h
    obtain ⟨j, rfl⟩ := hinteger y (by simp) b hy hexact
    obtain ⟨k, rfl⟩ := hinteger z (by simp) c hz hexact
    exact (Operation.result_of_solveFirst (hn ▸ mapError_eq_ok_iff.1 hr)).imp fun _ => And.left
  · next a c hx _ hz =>
    obtain ⟨r, hr, h⟩ := map_eq_ok_iff.1 h
    refine completes_of_complete (by simp) (fun n hn hexact => ?_) h
    obtain ⟨i, rfl⟩ := hinteger x (by simp) a hx hexact
    obtain ⟨k, rfl⟩ := hinteger z (by simp) c hz hexact
    exact (Operation.result_of_solveSecond (hn ▸ mapError_eq_ok_iff.1 hr)).imp fun _ => And.left
  · cases h

/-- A builtin that succeeds completes its arguments. -/
theorem completes_of_evaluate (h : b.evaluate args = .ok (some completed)) :
    ∃ s, Completes args s completed := by
  unfold evaluate at h
  split at h
  · exact completes_of_evaluateEquality h
  · rw [evaluateComparison] at h
    split at h
    · next hground =>
      simp only [Except.ok.injEq, Option.ite_none_right_eq_some, Option.some.injEq] at h
      obtain ⟨-, rfl⟩ := h
      exact ⟨_, completes_self hground⟩
    · cases h
  · exact completes_of_evaluateArithmetic h
  · cases h

/-- A builtin that succeeds returns ground arguments. -/
theorem areGround_of_evaluate (h : b.evaluate args = .ok (some completed)) :
    Term.areGround completed = true := by
  obtain ⟨s, -, hground, -⟩ := completes_of_evaluate h
  exact hground

/-- A comparison that holds returns its arguments as they are. -/
theorem eq_of_evaluate_comparison {name : String} {op : Comparison}
    (h : (comparison name op).evaluate args = .ok (some completed)) : completed = args := by
  obtain _ | ⟨t, _ | ⟨u, _ | ⟨w, args⟩⟩⟩ := args
  · cases h
  · cases h
  · rw [evaluate, evaluateComparison] at h
    split at h
    · simp only [Except.ok.injEq, Option.ite_none_right_eq_some, Option.some.injEq] at h
      exact h.2.symm
    · cases h
  · cases h

/-- A comparison of two terms only fails because they have open variables. -/
theorem eq_unbound_of_evaluate_comparison {op : Comparison} (hlength : args.length = 2)
    (h : (comparison name op).evaluate args = .error e) : e = .unbound name args := by
  obtain ⟨t, u, rfl⟩ := List.length_eq_two.1 hlength
  rw [evaluate, evaluateComparison] at h
  split at h
  · cases h
  · exact (Except.error.inj h).symm

/-- A builtin never completes a wildcard. -/
theorem wildcard_not_mem_of_evaluate (h : b.evaluate args = .ok (some completed)) :
    ∀ t ∈ args, wildcard ∉ t.occurrences := by
  obtain ⟨s, rfl, hground, hs⟩ := completes_of_evaluate h
  intro t ht hwild
  have hnone : s.get? wildcard = none := Option.eq_none_iff_forall_ne_some.2 fun u hu =>
    (hs _ u hu).1 rfl
  have hmem := Substitution.mem_occurrences_apply_of_get?_eq_none hwild hnone
  rw [Term.isGround_iff.1 (Term.areGround_iff.1 hground _ (List.mem_map_of_mem ht))] at hmem
  cases hmem

/-- A builtin completes exact arguments to exact ones. -/
theorem isExact_of_evaluate (h : b.evaluate args = .ok (some completed))
    (hexact : ∀ t ∈ args, t.isExact = true) : ∀ t ∈ completed, t.isExact = true := by
  obtain ⟨s, rfl, -, hs⟩ := completes_of_evaluate h
  rw [Substitution.applyAll, List.forall_mem_map]
  exact fun t ht => Substitution.isExact_apply (fun x u hu => (hs x u hu).2 hexact) (hexact t ht)

/-! ## Errors -/

/-- A term that is unified with a ground one becomes ground, so that the equality is decided. -/
theorem evaluateEquality_ne_error (hwild : ∀ s ∈ [t, u], wildcard ∉ s.occurrences)
    (hground : t.isGround = true ∨ u.isGround = true) : evaluateEquality t u ≠ .error e := by
  intro h
  rw [evaluateEquality] at h
  split at h
  · cases h
  split at h
  · cases h
  · next s hs =>
    have heq : s.apply t = s.apply u := Substitution.apply_eq_of_unify .empty
      (by rw [Substitution.apply_empty]; exact hwild t (by simp))
      (by rw [Substitution.apply_empty]; exact hwild u (by simp)) hs
    simp only at h
    split at h
    · cases h
    · next hnot =>
      refine hnot ?_
      have hself : ∀ w : Term, w.isGround = true → (s.apply w).isGround = true := fun w hw => by
        rw [Substitution.apply, Term.replace_eq_self hw, hw]
      rw [Term.areGround_iff, Substitution.applyAll, List.forall_mem_map]
      rcases hground with ht | hu
      · simp [← heq, hself t ht]
      · simp [heq, hself u hu]

/-- The arguments that are open are those that the operation computes from the others. -/
theorem isArithmetic_of_evaluateArithmetic {op : Operation}
    (hmode : (arithmetic name op).mode.canEvaluate ([x, y, z].map Term.isGround) = true)
    (h : evaluateArithmetic name op x y z = .error e) : e.IsArithmetic := by
  rw [evaluateArithmetic] at h
  split at h
  · next hnot =>
    rw [hmode] at hnot
    cases hnot
  split at h
  · cases h
  next hnumbers =>
  split at h
  · exact isArithmetic_of_map h
  · exact isArithmetic_of_map h
  · exact isArithmetic_of_map h
  · exact isArithmetic_of_map h
  · next hnone₁ hnone₂ hnone₃ hnone₄ =>
    have hsome : ∀ t ∈ [x, y, z], t.isGround = (Number.ofTerm? t).isSome := by
      intro t ht
      cases hn : Number.ofTerm? t with
      | some a => exact Number.isGround_of_ofTerm? hn
      | none =>
        cases hground : t.isGround with
        | false => rfl
        | true => exact absurd (List.any_eq_true.2 ⟨t, ht, by simp [hground, hn]⟩) hnumbers
    -- At least two arguments are open, or one that the operation does not compute.
    rw [List.map_congr_left hsome] at hmode
    cases hx : Number.ofTerm? x <;> cases hy : Number.ofTerm? y <;> cases hz : Number.ofTerm? z
    case some.some.some => exact absurd hz (hnone₁ _ _ _ hx hy)
    case some.some.none => exact absurd hz (hnone₂ _ _ hx hy)
    case none.some.some => exact absurd hz (hnone₃ _ _ hx hy)
    case some.none.some => exact absurd hz (hnone₄ _ _ hx hy)
    all_goals
      rw [List.map_cons, List.map_cons, List.map_cons, List.map_nil, hx, hy, hz] at hmode
      cases op <;> cases hmode

/-- With too many open arguments a call fails, unless it is an equality. -/
theorem exists_error_of_canEvaluate_eq_false (hb : b ≠ equality)
    (h : b.mode.canEvaluate (args.map Term.isGround) = false) :
    ∃ e, b.evaluate args = .error e ∧ ¬e.IsArithmetic := by
  unfold evaluate
  split
  · exact absurd rfl hb
  · next name op t u =>
    refine ⟨.unbound name [t, u], if_neg fun hground => ?_, id⟩
    rw [Term.areGround_iff] at hground
    simp [mode, Mode.canEvaluate, hground] at h
  · next name op x y z =>
    refine ⟨.unbound name [x, y, z], ?_, id⟩
    rw [evaluateArithmetic]
    exact if_pos (by rw [h, Bool.not_false])
  · exact ⟨_, rfl, id⟩

/-- A call that can be evaluated fails for arithmetic reasons only. -/
theorem isArithmetic_of_evaluate (hlength : b.arity = args.length)
    (hwild : ∀ t ∈ args, wildcard ∉ t.occurrences)
    (hmode : b.mode.canEvaluate (args.map Term.isGround) = true)
    (h : b.evaluate args = .error e) : e.IsArithmetic := by
  cases b with
  | equality =>
    obtain ⟨t, u, rfl⟩ := List.length_eq_two.1 hlength.symm
    refine absurd h (evaluateEquality_ne_error hwild ?_)
    -- At most one of the two sides is open.
    cases ht : t.isGround <;> cases hu : u.isGround <;>
      simp [mode, Mode.canEvaluate, ht, hu] at hmode ⊢
  | comparison name op =>
    obtain ⟨t, u, rfl⟩ := List.length_eq_two.1 hlength.symm
    have hground : Term.areGround [t, u] = true := by
      cases ht : t.isGround <;> cases hu : u.isGround <;>
        simp [mode, Mode.canEvaluate, Term.areGround, ht, hu] at hmode ⊢
    rw [evaluate, evaluateComparison, if_pos hground] at h
    cases h
  | arithmetic name op =>
    obtain ⟨x, y, z, rfl⟩ := List.length_eq_three.1 hlength.symm
    exact isArithmetic_of_evaluateArithmetic hmode h

end Builtin

end Deduction
