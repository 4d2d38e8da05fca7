import Deduction.Proofs.Builtins
import Deduction.Proofs.Safety

/-!
# The relations of builtins

A builtin that is given all its arguments checks them, and one that is given fewer computes what is
missing. On exact arguments both come to the same relation, if the operand that is computed is
determined by what is given:

* `Builtin.relates_of_evaluate`: completed arguments are related.
* `Builtin.evaluate_of_relates`: related values are found, whichever of them are given, unless too
  few are.
-/

namespace Deduction

namespace Substitution

variable {s : Substitution} {v : Valuation} {ts : List Term}

/-- Terms that have become ground have the values that agree with the bindings. -/
theorem SolvedBy.applyAll_eq (h : s.SolvedBy v) (hground : Term.areGround (s.applyAll ts) = true) :
    s.applyAll ts = ts.map (Term.replace v) := by
  refine List.map_congr_left fun t ht => ?_
  rw [← h.replace_apply t,
    Term.replace_eq_self (Term.areGround_iff.1 hground _ (List.mem_map_of_mem ht))]

end Substitution

namespace Builtin

variable {b : Builtin} {args completed : List Term} {t u x y z target : Term} {name : String}
  {op : Operation} {v : Valuation} {n : Number}

/-- What a builtin says of ground arguments: that they are the same, that their order is the one
that it tests, or that two integers have the third as the result of an operation. -/
def Relates : Builtin → List Term → Prop
  | equality, [t, u] => t = u
  | comparison _ op, [t, u] => op.holds (Comparison.order? t u) = true
  | arithmetic _ op, [x, y, z] => ∃ a b c : Int64, x = .const (.integer a) ∧
      y = .const (.integer b) ∧ z = .const (.integer c) ∧
        op.result (.integer a) (.integer b) = .ok (.integer c)
  | _, _ => False

/-- An operand that has to be computed is determined by the other arguments. -/
def IsReversible : Builtin → List Term → Prop
  | arithmetic _ op, [x, y, _] => (x.isGround = true ∨ op.DeterminesOperand y) ∧
      (y.isGround = true ∨ op.DeterminesOperand x)
  | _, _ => True

/-- The evaluation of a call has no use for floating-point numbers, or is given none. -/
def IsExactOn (b : Builtin) (args : List Term) : Prop :=
  b.mode = .check ∨ ∀ t ∈ args, t.isExact = true

/-- Exact terms are equal if they are the same. -/
theorem equal_iff (ht : t.isExact = true) (hu : u.isExact = true) : equal t u = true ↔ t = u := by
  rw [equal]
  split
  · next a b ha hb =>
    obtain ⟨i, rfl, rfl⟩ := Number.exists_integer_of_isExact ha ht
    obtain ⟨j, rfl, rfl⟩ := Number.exists_integer_of_isExact hb hu
    simp [Number.sameValue_integer_iff]
  · exact decide_eq_true_iff

theorem isGround_toTerm (n : Number) : n.toTerm.isGround = true := by
  cases n <;> rfl

/-! ## Completed arguments are related -/

theorem relates_of_evaluateEquality (hexact : ∀ t' ∈ [t, u], t'.isExact = true)
    (hwild : ∀ t' ∈ [t, u], wildcard ∉ t'.occurrences)
    (h : evaluateEquality t u = .ok (some completed)) : equality.Relates completed := by
  rw [evaluateEquality] at h
  split at h
  · simp only [Except.ok.injEq, Option.ite_none_right_eq_some, Option.some.injEq] at h
    obtain ⟨hequal, rfl⟩ := h
    exact (equal_iff (hexact t (by simp)) (hexact u (by simp))).1 hequal
  · split at h
    · cases h
    · next s hs =>
      simp only at h
      split at h
      · obtain rfl := Option.some.inj (Except.ok.inj h)
        exact Substitution.apply_eq_of_unify .empty
          (by rw [Substitution.apply_empty]; exact hwild t (by simp))
          (by rw [Substitution.apply_empty]; exact hwild u (by simp)) hs
      · cases h

/-- An argument that is completed becomes the number that was computed. -/
theorem of_complete_eq_some (hwild : wildcard ∉ target.occurrences)
    (h : complete args target (some n) = some completed) :
    ∃ s : Substitution, completed = s.applyAll args ∧ s.apply target = n.toTerm := by
  obtain ⟨s, hs, h⟩ := Option.bind_eq_some_iff.1 h
  simp only at h
  split at h
  · obtain rfl := Option.some.inj h
    have heq := Substitution.apply_eq_of_unify .empty
      (by rwa [Substitution.apply_empty])
      (by rw [Substitution.apply_empty, Term.isGround_iff.1 (isGround_toTerm n)]; simp) hs
    refine ⟨s, rfl, heq.trans ?_⟩
    exact Term.replace_eq_self (isGround_toTerm n)
  · cases h

/-- An argument that is not a number is open if the call goes on. -/
theorem isGround_eq_false_of_not_any
    (hnumbers : ¬(args.any fun t => t.isGround && (Number.ofTerm? t).isNone) = true)
    (ht : t ∈ args) (hnone : Number.ofTerm? t = none) : t.isGround = false := by
  rw [← Bool.not_eq_true]
  intro hground
  exact hnumbers (List.any_eq_true.2 ⟨t, ht, by simp [hground, hnone]⟩)

/-- The remainder is computed from both operands. -/
theorem ne_modulus_of_canEvaluate
    (hmode : (arithmetic name op).mode.canEvaluate ([x, y, z].map Term.isGround) = true)
    (hopen : x.isGround = false ∨ y.isGround = false) : op ≠ .modulus := by
  rintro rfl
  have hdrop := Mode.canEvaluate_function_iff.1 hmode
  simp only [List.map_cons, List.map_nil, List.dropLast_cons_cons, List.dropLast_singleton,
    List.forall_mem_cons] at hdrop
  rcases hopen with hx | hy
  · simp [hx] at hdrop
  · simp [hy] at hdrop

/-- Completed arguments of an operation are related, or a quotient of which an operand was open has
been completed to a division by zero. -/
theorem relates_or_divide_of_evaluateArithmetic (hexact : ∀ t ∈ [x, y, z], t.isExact = true)
    (hwild : ∀ t ∈ [x, y, z], wildcard ∉ t.occurrences)
    (h : evaluateArithmetic name op x y z = .ok (some completed)) :
    (arithmetic name op).Relates completed ∨
      op = .divide ∧ (x.isGround = false ∨ y.isGround = false) ∧
        ∃ a c : Int64, completed =
          [.const (.integer a), .const (.integer 0), .const (.integer c)] := by
  have hinteger : ∀ t ∈ [x, y, z], ∀ n, Number.ofTerm? t = some n →
      ∃ i, n = .integer i ∧ t = .const (.integer i) := fun t ht n hn =>
    Number.exists_integer_of_isExact hn (hexact t ht)
  rw [evaluateArithmetic] at h
  split at h
  · cases h
  split at h
  · cases h
  next hnumbers =>
  split at h
  · next a b c hx hy hz =>
    obtain ⟨i, rfl, rfl⟩ := hinteger x (by simp) a hx
    obtain ⟨j, rfl, rfl⟩ := hinteger y (by simp) b hy
    obtain ⟨k, rfl, rfl⟩ := hinteger z (by simp) c hz
    obtain ⟨r, hr, h⟩ := map_eq_ok_iff.1 h
    have hresult := mapError_eq_ok_iff.1 hr
    obtain ⟨r, rfl⟩ := Operation.exists_of_result_eq_ok hresult
    simp only [Option.ite_none_right_eq_some, Option.some.injEq,
      Number.sameValue_integer_iff] at h
    obtain ⟨rfl, rfl⟩ := h
    exact .inl ⟨i, j, r, rfl, rfl, rfl, hresult⟩
  · next a b hx hy _ =>
    obtain ⟨i, rfl, rfl⟩ := hinteger x (by simp) a hx
    obtain ⟨j, rfl, rfl⟩ := hinteger y (by simp) b hy
    obtain ⟨r, hr, h⟩ := map_eq_ok_iff.1 h
    have hresult := mapError_eq_ok_iff.1 hr
    obtain ⟨r, rfl⟩ := Operation.exists_of_result_eq_ok hresult
    obtain ⟨s, rfl, hz⟩ := of_complete_eq_some (hwild z (by simp)) h
    exact .inl ⟨i, j, r, rfl, rfl, hz, hresult⟩
  -- An operand that is computed gives the result, unless the divisor is zero.
  · next b c hnone hy hz =>
    obtain ⟨j, rfl, rfl⟩ := hinteger y (by simp) b hy
    obtain ⟨k, rfl, rfl⟩ := hinteger z (by simp) c hz
    obtain ⟨value, hvalue, h⟩ := map_eq_ok_iff.1 h
    obtain ⟨n, rfl, -⟩ := Option.bind_eq_some_iff.1 h
    obtain ⟨i, rfl, hresult⟩ := Operation.result_of_solveFirst (mapError_eq_ok_iff.1 hvalue)
    obtain ⟨s, rfl, hx⟩ := of_complete_eq_some (hwild x (by simp)) h
    refine hresult.imp (fun hresult => ⟨i, j, k, hx, rfl, rfl, hresult⟩) ?_
    rintro ⟨hop, rfl⟩
    refine ⟨hop, .inl (isGround_eq_false_of_not_any hnumbers (by simp) hnone), i, k, ?_⟩
    exact congrArg (· :: _) hx
  · next a c hx hnone hz =>
    obtain ⟨i, rfl, rfl⟩ := hinteger x (by simp) a hx
    obtain ⟨k, rfl, rfl⟩ := hinteger z (by simp) c hz
    obtain ⟨value, hvalue, h⟩ := map_eq_ok_iff.1 h
    obtain ⟨n, rfl, -⟩ := Option.bind_eq_some_iff.1 h
    obtain ⟨j, rfl, hresult⟩ := Operation.result_of_solveSecond (mapError_eq_ok_iff.1 hvalue)
    obtain ⟨s, rfl, hy⟩ := of_complete_eq_some (hwild y (by simp)) h
    refine hresult.imp (fun hresult => ⟨i, j, k, rfl, hy, rfl, hresult⟩) ?_
    rintro ⟨hop, rfl⟩
    refine ⟨hop, .inr (isGround_eq_false_of_not_any hnumbers (by simp) hnone), i, k, ?_⟩
    exact congrArg (fun t => _ :: t :: _) hy
  · cases h

theorem relates_of_evaluateArithmetic (hexact : ∀ t ∈ [x, y, z], t.isExact = true)
    (hwild : ∀ t ∈ [x, y, z], wildcard ∉ t.occurrences)
    (hreverse : (arithmetic name op).IsReversible [x, y, z])
    (h : evaluateArithmetic name op x y z = .ok (some completed)) :
    (arithmetic name op).Relates completed := by
  refine (relates_or_divide_of_evaluateArithmetic hexact hwild h).resolve_right ?_
  -- A quotient does not determine its operands.
  rintro ⟨rfl, hopen, -⟩
  have hx := hreverse.1.resolve_right id
  have hy := hreverse.2.resolve_right id
  simp [hx, hy] at hopen

/-- Completed arguments are related. -/
theorem relates_of_evaluate (hexact : b.IsExactOn args) (hreverse : b.IsReversible args)
    (h : b.evaluate args = .ok (some completed)) : b.Relates completed := by
  have hwild := wildcard_not_mem_of_evaluate h
  unfold evaluate at h
  split at h
  · exact relates_of_evaluateEquality (hexact.resolve_left nofun) hwild h
  · rw [evaluateComparison] at h
    split at h
    · simp only [Except.ok.injEq, Option.ite_none_right_eq_some, Option.some.injEq] at h
      obtain ⟨hholds, rfl⟩ := h
      exact hholds
    · cases h
  · next name op x y z =>
    refine relates_of_evaluateArithmetic (hexact.resolve_left ?_) hwild hreverse h
    cases op <;> simp [mode]
  · cases h

/-! ## Related values are found -/

/-- A number is put in the place of the argument that has it as its value. -/
theorem complete_eq_some (hv : target.replace v = n.toTerm) (hwild : wildcard ∉ target.occurrences)
    (hargs : ∀ t ∈ args, t = target ∨ t.isGround = true) :
    complete args target (some n) = some (args.map (Term.replace v)) := by
  have hground := isGround_toTerm n
  have htarget : wildcard ∉ (Substitution.empty.apply target).occurrences := by
    rwa [Substitution.apply_empty]
  have hnumber : wildcard ∉ (Substitution.empty.apply n.toTerm).occurrences := by
    rw [Substitution.apply_empty, Term.isGround_iff.1 hground]
    exact List.not_mem_nil
  have hequal : target.replace v = n.toTerm.replace v := by rw [hv, Term.replace_eq_self hground]
  have hspec := Substitution.unify_equates .empty htarget hnumber
  cases hunify : (Substitution.empty.unify target n.toTerm).substitution? with
  | none =>
    rw [hunify] at hspec
    exact absurd hequal (hspec v (Substitution.solvedBy_empty v))
  | some s =>
    rw [hunify] at hspec
    have hsolved := (hspec.2 v).2 ⟨Substitution.solvedBy_empty v, hequal⟩
    have happly := Substitution.apply_eq_of_unify .empty htarget hnumber hunify
    have hall : Term.areGround (s.applyAll args) = true := by
      rw [Term.areGround_iff, Substitution.applyAll, List.forall_mem_map]
      intro t ht
      rcases hargs t ht with rfl | ht
      · rwa [happly, Substitution.apply, Term.replace_eq_self hground]
      · rwa [Substitution.apply, Term.replace_eq_self ht]
    simp [complete, hunify, hall, ← hsolved.applyAll_eq hall]

theorem evaluateEquality_of_relates (hexact : ∀ t' ∈ [t, u], t'.isExact = true)
    (hwild : ∀ t' ∈ [t, u], wildcard ∉ t'.occurrences) (h : t.replace v = u.replace v) :
    evaluateEquality t u = .ok (some ([t, u].map (Term.replace v))) ∨
      evaluateEquality t u = .error (.unbound equality.name [t, u]) := by
  rw [evaluateEquality]
  split
  · next hground =>
    rw [Bool.and_eq_true] at hground
    rw [Term.replace_eq_self hground.1, Term.replace_eq_self hground.2] at h
    refine .inl ?_
    rw [if_pos ((equal_iff (hexact t (by simp)) (hexact u (by simp))).2 h)]
    simp [Term.replace_eq_self hground.1, Term.replace_eq_self hground.2]
  · have hspec := Substitution.unify_equates .empty
      (by rw [Substitution.apply_empty]; exact hwild t (by simp))
      (by rw [Substitution.apply_empty]; exact hwild u (by simp))
    split
    · next hunify =>
      rw [hunify] at hspec
      exact absurd h (hspec v (Substitution.solvedBy_empty v))
    · next s hunify =>
      rw [hunify] at hspec
      have hsolved := (hspec.2 v).2 ⟨Substitution.solvedBy_empty v, h⟩
      by_cases hground : Term.areGround (s.applyAll [t, u]) = true
      · rw [← hsolved.applyAll_eq hground]
        exact .inl (if_pos hground)
      · exact .inr (if_neg hground)

/-- A term whose value is a constant is the constant, or a variable. -/
theorem eq_const_or_var {c : Value} (h : t.replace v = .const c) :
    t = .const c ∨ ∃ x, t = .var x := by
  cases t with
  | var x => exact .inr ⟨x, rfl⟩
  | const d => exact .inl h
  | app f ts => cases h

theorem evaluateArithmetic_of_relates (hwild : ∀ t ∈ [x, y, z], wildcard ∉ t.occurrences)
    (hreverse : (arithmetic name op).IsReversible [x, y, z])
    (h : (arithmetic name op).Relates ([x, y, z].map (Term.replace v))) :
    evaluateArithmetic name op x y z = .ok (some ([x, y, z].map (Term.replace v))) ∨
      evaluateArithmetic name op x y z = .error (.unbound name [x, y, z]) := by
  obtain ⟨a, b, c, hx, hy, hz, hresult⟩ := h
  rw [evaluateArithmetic]
  cases hmode : (arithmetic name op).mode.canEvaluate ([x, y, z].map Term.isGround) with
  | false => exact .inr rfl
  | true =>
    -- The arguments are numbers, or variables that have numbers as their values.
    have hnumbers : ¬([x, y, z].any fun t => t.isGround && (Number.ofTerm? t).isNone) = true := by
      have hvalue : ∀ t ∈ [x, y, z], ∃ n : Int64, t.replace v = .const (.integer n) := by
        simp [hx, hy, hz]
      rw [List.any_eq_true]
      rintro ⟨t, ht, hnot⟩
      obtain ⟨hground, hnone⟩ := Bool.and_eq_true_iff.1 hnot
      obtain ⟨n, hn⟩ := hvalue t ht
      rw [Term.replace_eq_self hground] at hn
      rw [hn] at hnone
      cases hnone
    refine .inl ?_
    rw [Bool.not_true, if_neg Bool.false_ne_true, if_neg hnumbers]
    rcases eq_const_or_var hx with rfl | ⟨x, rfl⟩ <;>
      rcases eq_const_or_var hy with rfl | ⟨y, rfl⟩ <;>
      rcases eq_const_or_var hz with rfl | ⟨z, rfl⟩
    case inl.inl.inl =>
      simp [Number.ofTerm?, hresult, Except.mapError, Except.map, Number.sameValue_integer_iff,
        Term.replace]
    case inl.inl.inr =>
      simp only [Number.ofTerm?, hresult, Except.mapError, Except.map]
      rw [complete_eq_some (n := .integer c) hz (hwild _ (by simp)) (by simp [Term.isGround])]
    case inl.inr.inl =>
      have hsolve := (Operation.solveSecond_eq_ok_iff (hreverse.2.resolve_left Bool.false_ne_true)
        (ne_modulus_of_canEvaluate hmode (.inr rfl))).2 ⟨b, rfl, hresult⟩
      simp only [Number.ofTerm?, hsolve, Except.mapError, Except.map]
      rw [complete_eq_some (n := .integer b) hy (hwild _ (by simp)) (by simp [Term.isGround])]
    case inr.inl.inl =>
      have hsolve := (Operation.solveFirst_eq_ok_iff (hreverse.1.resolve_left Bool.false_ne_true)
        (ne_modulus_of_canEvaluate hmode (.inl rfl))).2 ⟨a, rfl, hresult⟩
      simp only [Number.ofTerm?, hsolve, Except.mapError, Except.map]
      rw [complete_eq_some (n := .integer a) hx (hwild _ (by simp)) (by simp [Term.isGround])]
    -- No operation computes two arguments.
    all_goals cases op <;> cases hmode

theorem length_of_relates (h : b.Relates args) : args.length = b.arity := by
  unfold Relates at h
  split at h
  · rfl
  · rfl
  · rfl
  · exact h.elim

/-- Related values are found, whichever of them are given, unless too few are. -/
theorem evaluate_of_relates (hexact : b.IsExactOn args)
    (hwild : ∀ t ∈ args, wildcard ∉ t.occurrences) (hreverse : b.IsReversible args)
    (h : b.Relates (args.map (Term.replace v))) :
    b.evaluate args = .ok (some (args.map (Term.replace v))) ∨
      ∃ name, b.evaluate args = .error (.unbound name args) := by
  have hlength := length_of_relates h
  rw [List.length_map] at hlength
  cases b with
  | equality =>
    obtain ⟨t, u, rfl⟩ := List.length_eq_two.1 hlength
    exact (evaluateEquality_of_relates (hexact.resolve_left nofun) hwild h).imp_right
      fun h => ⟨_, h⟩
  | comparison name op =>
    obtain ⟨t, u, rfl⟩ := List.length_eq_two.1 hlength
    rw [evaluate, evaluateComparison]
    split
    · next hground =>
      rw [Term.map_replace_eq_self hground] at h ⊢
      exact .inl (congrArg Except.ok (if_pos h))
    · exact .inr ⟨name, rfl⟩
  | arithmetic name op =>
    obtain ⟨x, y, z, rfl⟩ := List.length_eq_three.1 hlength
    exact (evaluateArithmetic_of_relates hwild hreverse h).imp_right fun h => ⟨_, h⟩

end Builtin

end Deduction
