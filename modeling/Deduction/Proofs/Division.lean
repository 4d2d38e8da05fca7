import Deduction.Proofs.Equations

/-!
# Division of integers

The quotient of two integers is cut toward zero, so that the remainder is smaller than the divisor
and has the sign of the dividend (`IsDivision`). These conditions leave one quotient and one
remainder for every divisor but zero (`isDivision_iff`).

The builtins compute both exactly, and fail if the divisor is zero
(`Builtin.evaluate_division`). One quotient does not fit into 64 bits: the smallest integer divided
by minus one. The remainder of this division is zero, but it is found along with the quotient, and
fails with it (`Builtin.evaluate_remainder_ne`).
-/

namespace Deduction

/-- Dividing `x` by `y` gives the quotient `q`, cut toward zero, and leaves the remainder `r`. -/
structure IsDivision (x y q r : Int) : Prop where
  /-- Nothing of the dividend is lost. -/
  eq_add : x = q * y + r
  /-- What is left is smaller than the divisor. -/
  natAbs_lt : r.natAbs < y.natAbs
  /-- The quotient goes toward zero, and not beyond the dividend. -/
  sign_eq : r = 0 ∨ r.sign = x.sign

section IsDivision

variable {x y q r : Int}

theorem isDivision_tdiv (hy : y ≠ 0) : IsDivision x y (x.tdiv y) (x.tmod y) := by
  refine ⟨?_, ?_, ?_⟩
  · rw [Int.tdiv_mul_add_tmod]
  · rw [Int.natAbs_tmod]
    exact Nat.mod_lt _ (Int.natAbs_pos.2 hy)
  · by_cases hdvd : y ∣ x
    · exact .inl (Int.tmod_eq_zero_of_dvd hdvd)
    · exact .inr ((Int.sign_tmod x y).trans (if_neg hdvd))

/-- There is one quotient, and one remainder. -/
theorem isDivision_iff (hy : y ≠ 0) : IsDivision x y q r ↔ q = x.tdiv y ∧ r = x.tmod y := by
  constructor
  · rintro ⟨heq, hlt, hsign⟩
    have hadd : r + y * q = x := by rw [heq, Int.mul_comm, Int.add_comm]
    rcases Int.le_total 0 x with hx | hx
    · have hr : 0 ≤ r := by
        rcases hsign with rfl | hsign
        · exact Int.le_refl 0
        · rwa [← Int.sign_nonneg_iff, hsign, Int.sign_nonneg_iff]
      have hdiv := (Int.tdiv_tmod_unique hx hy).2 ⟨hadd, hr, by omega⟩
      exact ⟨hdiv.1.symm, hdiv.2.symm⟩
    · have hr : r ≤ 0 := by
        rcases hsign with rfl | hsign
        · exact Int.le_refl 0
        · rwa [← Int.sign_nonpos_iff, hsign, Int.sign_nonpos_iff]
      have hdiv := (Int.tdiv_tmod_unique' hx hy).2 ⟨hadd, by omega, hr⟩
      exact ⟨hdiv.1.symm, hdiv.2.symm⟩
  · rintro ⟨rfl, rfl⟩
    exact isDivision_tdiv hy

end IsDivision

/-! ## Quotients and remainders of 64 bits -/

section Int64

variable {x y : Int64}

theorem Number.ofInt_toInt (v : Int64) : ofInt v.toInt = .ok (integer v) :=
  Operation.ofInt_eq_ok_integer_iff.2 rfl

theorem toInt_div (h : ¬(x = Int64.minValue ∧ y = -1)) :
    (x / y).toInt = x.toInt.tdiv y.toInt := by
  by_cases hx : x = Int64.minValue
  · exact Int64.toInt_div_of_ne_right x y fun hy => h ⟨hx, hy⟩
  · exact Int64.toInt_div_of_ne_left x y hx

/-- Dividing by minus one changes the sign, for which the positive side has one number too few. -/
theorem toInt_ne_tdiv_minValue (v : Int64) :
    v.toInt ≠ Int64.minValue.toInt.tdiv (-1 : Int64).toInt := by
  have hquotient : Int64.minValue.toInt.tdiv (-1 : Int64).toInt = 2 ^ 63 := by decide
  have hlt := v.toInt_lt
  omega

end Int64

namespace Operation

variable {op : Operation} {x y : Int64}

theorem result_divide (hy : y ≠ 0) :
    divide.result (.integer x) (.integer y) = Number.ofInt (x.toInt.tdiv y.toInt) :=
  if_neg hy

/-- The remainder comes with the quotient, and is not computed if the quotient does not fit. -/
theorem result_modulus (hy : y ≠ 0) : modulus.result (.integer x) (.integer y) =
    (divide.result (.integer x) (.integer y)).bind fun _ => Number.ofInt (x.toInt.tmod y.toInt) := by
  rw [result_divide hy]
  exact if_neg hy

theorem result_divide_eq_ok (hy : y ≠ 0) (hfits : ¬(x = Int64.minValue ∧ y = -1)) :
    divide.result (.integer x) (.integer y) = .ok (.integer (x / y)) := by
  rw [result_divide hy, ← toInt_div hfits, Number.ofInt_toInt]

theorem result_modulus_eq_ok (hy : y ≠ 0) (hfits : ¬(x = Int64.minValue ∧ y = -1)) :
    modulus.result (.integer x) (.integer y) = .ok (.integer (x % y)) := by
  rw [result_modulus hy, result_divide_eq_ok hy hfits, ← Int64.toInt_mod]
  exact Number.ofInt_toInt (x % y)

theorem result_divide_minValue :
    divide.result (.integer Int64.minValue) (.integer (-1)) = .error .overflow := by
  rw [result_divide (by decide), Number.ofInt_eq_overflow toInt_ne_tdiv_minValue]

theorem result_modulus_minValue :
    modulus.result (.integer Int64.minValue) (.integer (-1)) = .error .overflow := by
  rw [result_modulus (by decide), result_divide_minValue]
  rfl

theorem result_zero (h : op = .divide ∨ op = .modulus) :
    op.result (.integer x) (.integer 0) = .error .divisionByZero := by
  rcases h with rfl | rfl <;> rfl

end Operation

/-! ## Calls with an open result -/

namespace Builtin

open Operation

variable {name z : String} {op : Operation} {x y v : Int64}

/-- A call whose last argument is open goes by the result of the operation. -/
theorem evaluate_openResult : (arithmetic name op).evaluate
    [.const (.integer x), .const (.integer y), .var z] =
      (((op.result (.integer x) (.integer y)).map some).mapError (arithmetic name op).error).map
        (complete (integersBut 2 z ![x, y, 0]) (.var z)) := by
  change (arithmetic name op).evaluate (integersBut 2 z ![x, y, 0]) = _
  exact evaluate_integersBut fun _ => rfl

theorem evaluate_of_result_eq_ok (hz : z ≠ wildcard)
    (h : op.result (.integer x) (.integer y) = .ok (.integer v)) :
    (arithmetic name op).evaluate [.const (.integer x), .const (.integer y), .var z] =
      .ok (some [.const (.integer x), .const (.integer y), .const (.integer v)]) := by
  rw [evaluate_openResult, h]
  exact congrArg Except.ok (complete_integersBut hz)

theorem evaluate_of_result_eq_error {e : ArithmeticError}
    (h : op.result (.integer x) (.integer y) = .error e) :
    (arithmetic name op).evaluate [.const (.integer x), .const (.integer y), .var z] =
      .error ((arithmetic name op).error e) := by
  rw [evaluate_openResult, h]
  rfl

/-- The quotient and the remainder of two integers are computed exactly. Both fail if the divisor is
zero, and both overflow if the smallest integer is divided by minus one. There the quotient does not
fit into 64 bits, but the remainder, which is zero, does. -/
theorem evaluate_division (quotient remainder : String) (x y : Int64) (hz : z ≠ wildcard) :
    let call (name : String) (op : Operation) := (arithmetic name op).evaluate
      [.const (.integer x), .const (.integer y), .var z]
    let completed (v : Int64) : List Term :=
      [.const (.integer x), .const (.integer y), .const (.integer v)]
    (y = 0 → call quotient .divide = .error (.divisionByZero quotient) ∧
      call remainder .modulus = .error (.divisionByZero remainder)) ∧
    (y ≠ 0 → ¬(x = Int64.minValue ∧ y = -1) → ∃ q r : Int64,
      IsDivision x.toInt y.toInt q.toInt r.toInt ∧
      call quotient .divide = .ok (some (completed q)) ∧
      call remainder .modulus = .ok (some (completed r))) ∧
    (x = Int64.minValue ∧ y = -1 → call quotient .divide = .error (.overflow quotient) ∧
      call remainder .modulus = .error (.overflow remainder) ∧
      ∀ q r, IsDivision x.toInt y.toInt q r → (∀ v : Int64, v.toInt ≠ q) ∧ r = 0) := by
  intro call completed
  refine ⟨?_, fun hy hfits => ⟨x / y, x % y, ?_, ?_, ?_⟩, ?_⟩
  · rintro rfl
    exact ⟨evaluate_of_result_eq_error (result_zero (.inl rfl)),
      evaluate_of_result_eq_error (result_zero (.inr rfl))⟩
  · rw [toInt_div hfits, Int64.toInt_mod]
    exact isDivision_tdiv (toInt_ne_zero hy)
  · exact evaluate_of_result_eq_ok hz (result_divide_eq_ok hy hfits)
  · exact evaluate_of_result_eq_ok hz (result_modulus_eq_ok hy hfits)
  · rintro ⟨rfl, rfl⟩
    refine ⟨evaluate_of_result_eq_error result_divide_minValue,
      evaluate_of_result_eq_error result_modulus_minValue, fun q r h => ?_⟩
    obtain ⟨rfl, rfl⟩ := (isDivision_iff (by decide)).1 h
    exact ⟨toInt_ne_tdiv_minValue, by decide⟩

/-- Minus seven is divided by three, toward zero, and not by zero. -/
theorem evaluate_division_negative :
    (arithmetic "DIVIDE" .divide).evaluate
        [.const (.integer (-7)), .const (.integer 3), .var "Z"] =
      .ok (some [.const (.integer (-7)), .const (.integer 3), .const (.integer (-2))]) ∧
    (arithmetic "MODULUS" .modulus).evaluate
        [.const (.integer (-7)), .const (.integer 3), .var "Z"] =
      .ok (some [.const (.integer (-7)), .const (.integer 3), .const (.integer (-1))]) ∧
    (arithmetic "DIVIDE" .divide).evaluate
        [.const (.integer (-7)), .const (.integer 0), .var "Z"] =
      .error (.divisionByZero "DIVIDE") := by
  have hz : "Z" ≠ wildcard := by decide
  obtain ⟨-, hdivision, -⟩ := evaluate_division "DIVIDE" "MODULUS" (-7) 3 hz
  obtain ⟨q, r, hqr, hquotient, hremainder⟩ := hdivision (by decide) (by decide)
  obtain ⟨hq, hr⟩ := (isDivision_iff (by decide)).1 hqr
  obtain rfl : q = -2 := Int64.toInt_inj.1 hq
  obtain rfl : r = -1 := Int64.toInt_inj.1 hr
  exact ⟨hquotient, hremainder, ((evaluate_division _ "MODULUS" (-7) 0 hz).1 rfl).1⟩

/-- The smallest integer is a multiple of minus one, but asking for the remainder overflows. -/
theorem evaluate_remainder_ne :
    (∃ q, IsDivision Int64.minValue.toInt (-1 : Int64).toInt q (0 : Int64).toInt) ∧
    (arithmetic "MODULUS" .modulus).evaluate
        [.const (.integer Int64.minValue), .const (.integer (-1)), .var "Z"] ≠
      .ok (some [.const (.integer Int64.minValue), .const (.integer (-1)),
        .const (.integer 0)]) := by
  refine ⟨⟨2 ^ 63, (isDivision_iff (by decide)).2 (by decide)⟩, ?_⟩
  rw [evaluate_of_result_eq_error result_modulus_minValue]
  exact nofun

end Builtin

end Deduction
