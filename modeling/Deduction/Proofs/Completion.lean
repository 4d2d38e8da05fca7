import Deduction.Proofs.Relations

/-!
# Evaluating completed calls

A builtin that completes exact arguments returns an instance of them on which it has nothing left to
compute, so that evaluating it once more is a check. The check is passed, except for quotients
(`Builtin.evaluate_completed`): a quotient is solved for its operands as if it were a product, which
does not rule out a divisor of zero, and dividing by zero fails.
-/

namespace Deduction

namespace Builtin

variable {b : Builtin} {args completed : List Term}

/-- The call is a quotient whose divisor is the integer zero. -/
def dividesByZero : Builtin → List Term → Bool
  | arithmetic _ .divide, [_, y, _] => y = .const (.integer 0)
  | _, _ => false

/-- Related arguments are no division by zero. -/
theorem dividesByZero_eq_false (h : b.Relates args) : b.dividesByZero args = false := by
  unfold dividesByZero
  split
  · next name x y z =>
    obtain ⟨i, j, k, rfl, rfl, rfl, hresult⟩ := h
    refine decide_eq_false fun hzero => ?_
    obtain rfl : j = 0 := by simpa using hzero
    cases hresult
  · rfl

/-- Exact arguments are completed to related ones, or to a division by zero. -/
theorem relates_or_divide_of_evaluate (hexact : ∀ t ∈ args, t.isExact = true)
    (h : b.evaluate args = .ok (some completed)) :
    b.Relates completed ∨ ∃ (name : String) (a c : Int64), b = .arithmetic name .divide ∧
      completed = [.const (.integer a), .const (.integer 0), .const (.integer c)] := by
  cases b with
  | equality => exact .inl (relates_of_evaluate (.inr hexact) trivial h)
  | comparison name op => exact .inl (relates_of_evaluate (.inr hexact) trivial h)
  | arithmetic name op =>
    have hwild := wildcard_not_mem_of_evaluate h
    unfold evaluate at h
    split at h
    · next heq => cases heq
    · next heq => cases heq
    · next x y z heq =>
      cases heq
      refine (relates_or_divide_of_evaluateArithmetic hexact hwild h).imp_right ?_
      rintro ⟨rfl, -, a, c, hcompleted⟩
      exact ⟨name, a, c, rfl, hcompleted⟩
    · cases h

/-- Ground arguments that are related pass the check. -/
theorem evaluate_eq_self (hexact : ∀ t ∈ args, t.isExact = true)
    (hground : Term.areGround args = true) (h : b.Relates args) :
    b.evaluate args = .ok (some args) := by
  have hwild : ∀ t ∈ args, wildcard ∉ t.occurrences := fun t ht => by
    simp [Term.isGround_iff.1 (Term.areGround_iff.1 hground t ht)]
  have hreverse : b.IsReversible args := by
    unfold IsReversible
    split
    · next x y z =>
      have hground := Term.areGround_iff.1 hground
      exact ⟨.inl (hground x (by simp)), .inl (hground y (by simp))⟩
    · trivial
  have hmap : args.map (Term.replace .var) = args := Term.map_replace_eq_self hground
  rcases evaluate_of_relates (.inr hexact) hwild hreverse (v := .var) (by rwa [hmap]) with
    hok | ⟨name, herror⟩
  · rwa [hmap] at hok
  · -- With all its arguments given, a call does not complain about open ones.
    have hmode : b.mode.canEvaluate (args.map Term.isGround) = true := by
      refine Mode.canEvaluate_of_forall fun bound hbound => ?_
      obtain ⟨t, ht, rfl⟩ := List.mem_map.1 hbound
      exact Term.areGround_iff.1 hground t ht
    exact (isArithmetic_of_evaluate (length_of_relates h).symm hwild hmode herror).elim

/-- A division of integers by zero fails. -/
theorem evaluate_divide_zero (name : String) (a c : Int64) :
    (arithmetic name .divide).evaluate
        [.const (.integer a), .const (.integer 0), .const (.integer c)] =
      .error (.divisionByZero name) := rfl

/-- A builtin that succeeds on arguments without floating-point numbers returns ground arguments
which are an instance of those given. They pass the check, unless they divide by zero; then the
check fails. -/
theorem evaluate_completed (hexact : ∀ t ∈ args, t.isExact = true)
    (h : b.evaluate args = .ok (some completed)) :
    Term.areGround completed = true ∧
    (Substitution.empty.unifyAll args completed).solved = true ∧
    b.evaluate completed =
      if b.dividesByZero completed then .error (.divisionByZero b.name)
      else .ok (some completed) := by
  have hground := areGround_of_evaluate h
  refine ⟨hground, (Substitution.solved_unifyAll_empty_iff hground).2 ?_, ?_⟩
  · obtain ⟨s, hcompleted, -, -⟩ := completes_of_evaluate h
    exact ⟨s.resolve s.size,
      (Term.matchesAll_iff_eq_map (wildcard_not_mem_of_evaluate h)).2 hcompleted.symm⟩
  · rcases relates_or_divide_of_evaluate hexact h with hrelates | ⟨name, a, c, rfl, rfl⟩
    · rw [dividesByZero_eq_false hrelates]
      exact evaluate_eq_self (isExact_of_evaluate h hexact) hground hrelates
    · exact evaluate_divide_zero name a c

/-- Solving a product for a factor, and a quotient for its dividend with a divisor of zero. -/
theorem evaluate_completed_solved :
    (∃ completed, (arithmetic "MULTIPLY" .multiply).evaluate
        [.var "X", .const (.integer 3), .const (.integer 6)] = .ok (some completed) ∧
      Term.areGround completed = true ∧
      (arithmetic "MULTIPLY" .multiply).evaluate completed = .ok (some completed)) ∧
    ∃ completed, (arithmetic "DIVIDE" .divide).evaluate
        [.var "X", .const (.integer 0), .const (.integer 5)] = .ok (some completed) ∧
      Term.areGround completed = true ∧
      (arithmetic "DIVIDE" .divide).evaluate completed = .error (.divisionByZero "DIVIDE") := by
  constructor
  · have h : (arithmetic "MULTIPLY" .multiply).evaluate
        [.var "X", .const (.integer 3), .const (.integer 6)] =
        .ok (some [.const (.integer 2), .const (.integer 3), .const (.integer 6)]) := by
      decide +kernel
    obtain ⟨hground, -, hcheck⟩ := evaluate_completed (by decide) h
    exact ⟨_, h, hground, hcheck⟩
  · have h : (arithmetic "DIVIDE" .divide).evaluate
        [.var "X", .const (.integer 0), .const (.integer 5)] =
        .ok (some [.const (.integer 0), .const (.integer 0), .const (.integer 5)]) := by
      decide +kernel
    obtain ⟨hground, -, hcheck⟩ := evaluate_completed (by decide) h
    exact ⟨_, h, hground, hcheck⟩

/-- A quotient is solved for either operand, even where the divisor is zero and the completed call
is a division by zero. -/
theorem evaluate_divide_ne :
    (∃ completed, (arithmetic "DIVIDE" .divide).evaluate
        [.var "X", .const (.integer 0), .const (.integer 5)] = .ok (some completed) ∧
      (arithmetic "DIVIDE" .divide).evaluate completed ≠ .ok (some completed)) ∧
    ∃ completed, (arithmetic "DIVIDE" .divide).evaluate
        [.const (.integer 0), .var "Y", .const (.integer 5)] = .ok (some completed) ∧
      (arithmetic "DIVIDE" .divide).evaluate completed ≠ .ok (some completed) := by
  have hfails : (arithmetic "DIVIDE" .divide).evaluate
      [.const (.integer 0), .const (.integer 0), .const (.integer 5)] ≠
        .ok (some [.const (.integer 0), .const (.integer 0), .const (.integer 5)]) := by
    rw [evaluate_divide_zero]
    exact nofun
  exact ⟨⟨_, by decide +kernel, hfails⟩, _, by decide +kernel, hfails⟩

end Builtin

end Deduction
