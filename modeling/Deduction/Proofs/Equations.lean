import Mathlib.Data.Fin.VecNotation
import Mathlib.Data.List.OfFn
import Deduction.Proofs.Relations

/-!
# Equations between integers

A sum, a difference or a product of which two of the three numbers are given is an equation for the
third. A call of the builtin with a variable in its place returns the solution if there is exactly
one that 64 bits hold (`Builtin.evaluate_equation`); otherwise it overflows, or does not hold, if a
factor was to be found.

A sum, a difference and a product whose factors are given have one solution in the integers, so that
all depends on whether it fits into 64 bits (`Operation.exists_solution`). A product with an open
factor is divided by the other one, which may be zero or leave a remainder
(`Operation.isOnlySolution_factor_iff`).
-/

namespace Deduction

/-! ## Calls with an open argument -/

/-- Integers as arguments. -/
def integers (ns : Fin 3 → Int64) : List Term :=
  List.ofFn fun j => .const (.integer (ns j))

/-- Integers as arguments, except for a variable at one position. -/
def integersBut (i : Fin 3) (x : String) (ns : Fin 3 → Int64) : List Term :=
  List.ofFn fun j => if j = i then .var x else .const (.integer (ns j))

namespace Operation

/-- The operation on unbounded integers, if it is one in which no integer is cut off. -/
def onIntegers? : Operation → Option (Int → Int → Int)
  | add => some (· + ·)
  | subtract => some (· - ·)
  | multiply => some (· * ·)
  | divide | modulus => none

/-- The equation `x op y = z` holds with a number at one position and the given ones at the
others. -/
def Solves (f : Int → Int → Int) (ns : Fin 3 → Int64) (i : Fin 3) (v : Int64) : Prop :=
  let m := Function.update ns i v
  f (m 0).toInt (m 1).toInt = (m 2).toInt

/-- The equation holds with this number of 64 bits, and with no other. -/
def IsOnlySolution (f : Int → Int → Int) (ns : Fin 3 → Int64) (i : Fin 3) (v : Int64) : Prop :=
  Solves f ns i v ∧ ∀ w, Solves f ns i w → w = v

/-- The number that is computed for a position from those at the others. -/
def solve (op : Operation) (ns : Fin 3 → Int64) :
    Fin 3 → Except ArithmeticError (Option Number)
  | 0 => op.solveFirst (.integer (ns 1)) (.integer (ns 2))
  | 1 => op.solveSecond (.integer (ns 0)) (.integer (ns 2))
  | 2 => (op.result (.integer (ns 0)) (.integer (ns 1))).map some

end Operation

namespace Builtin

variable {name x : String} {op : Operation} {ns : Fin 3 → Int64} {i : Fin 3} {v w : Int64}

theorem integers_update_injective :
    Function.Injective fun v => integers (Function.update ns i v) := by
  intro v w h
  have hi := congrFun (List.ofFn_injective h) i
  simpa using hi

/-- An open argument that is a variable is completed to any number. -/
theorem complete_integersBut (hx : x ≠ wildcard) :
    complete (integersBut i x ns) (.var x) (some (.integer v)) =
      some (integers (Function.update ns i v)) := by
  have hwild : wildcard ∉ (Term.var x).occurrences := by
    simpa [Term.occurrences, eq_comm] using hx
  have hargs : ∀ t ∈ integersBut i x ns, t = .var x ∨ t.isGround = true := by
    intro t ht
    obtain ⟨j, rfl⟩ := (List.mem_ofFn' _ _).1 ht
    by_cases hj : j = i
    · exact .inl (if_pos hj)
    · exact .inr (by simp [hj, Term.isGround])
  have hmap : (integersBut i x ns).map (Term.replace fun _ => .const (.integer v)) =
      integers (Function.update ns i v) := by
    rw [integersBut, integers, List.map_ofFn]
    refine congrArg List.ofFn (funext fun j => ?_)
    by_cases hj : j = i
    · subst hj
      simp [Term.replace]
    · simp [Term.replace, hj]
  rw [← hmap]
  exact complete_eq_some rfl hwild hargs

/-- A call with one open argument computes it from the others; the remainder of a division is only
computed for the last argument. -/
theorem evaluate_integersBut (hmode : op = .modulus → i = 2) :
    (arithmetic name op).evaluate (integersBut i x ns) =
      ((op.solve ns i).mapError (arithmetic name op).error).map
        (complete (integersBut i x ns) (.var x)) := by
  match i with
  | 0 =>
    cases op with
    | modulus => cases hmode rfl
    | _ => rfl
  | 1 =>
    cases op with
    | modulus => cases hmode rfl
    | _ => rfl
  | 2 =>
    have hforward : (arithmetic name op).evaluate (integersBut 2 x ns) =
        ((op.result (.integer (ns 0)) (.integer (ns 1))).mapError (arithmetic name op).error).map
          fun r => complete (integersBut 2 x ns) (.var x) (some r) := by
      cases op <;> rfl
    rw [hforward, Operation.solve]
    cases op.result (.integer (ns 0)) (.integer (ns 1)) <;> rfl

end Builtin

/-! ## Solutions -/

theorem Number.ofInt_eq_overflow {k : Int} (h : ∀ v : Int64, v.toInt ≠ k) :
    ofInt k = .error .overflow := by
  cases hk : ofInt k with
  | ok a =>
    obtain ⟨v, -, hv⟩ := ofInt_eq_ok_iff.1 hk
    exact absurd hv (h v)
  | error e =>
    rw [ofInt] at hk
    split at hk
    · cases hk
    · exact congrArg Except.error (Except.error.inj hk).symm

namespace Operation

variable {op : Operation} {f : Int → Int → Int} {ns : Fin 3 → Int64} {i : Fin 3} {v : Int64}
  {n : Number}

/-- Without an open factor, an equation has one solution in the integers, which is computed if it
fits into 64 bits. -/
theorem exists_solution (ns : Fin 3 → Int64) (hf : op.onIntegers? = some f)
    (hforward : op = .multiply → i = 2) :
    ∃ k, op.solve ns i = (Number.ofInt k).map some ∧ ∀ v, Solves f ns i v ↔ v.toInt = k := by
  cases op with
  | add =>
    obtain rfl := Option.some.inj hf
    match i with
    | 0 => exact ⟨(ns 2).toInt - (ns 1).toInt, rfl, fun v => by simp [Solves]; omega⟩
    | 1 => exact ⟨(ns 2).toInt - (ns 0).toInt, rfl, fun v => by simp [Solves]; omega⟩
    | 2 => exact ⟨(ns 0).toInt + (ns 1).toInt, rfl, fun v => by simp [Solves]; omega⟩
  | subtract =>
    obtain rfl := Option.some.inj hf
    match i with
    | 0 => exact ⟨(ns 2).toInt + (ns 1).toInt, rfl, fun v => by simp [Solves]; omega⟩
    | 1 => exact ⟨(ns 0).toInt - (ns 2).toInt, rfl, fun v => by simp [Solves]; omega⟩
    | 2 => exact ⟨(ns 0).toInt - (ns 1).toInt, rfl, fun v => by simp [Solves]; omega⟩
  | multiply =>
    obtain rfl := Option.some.inj hf
    obtain rfl := hforward rfl
    exact ⟨(ns 0).toInt * (ns 1).toInt, rfl, fun v => by simp [Solves, eq_comm]⟩
  | divide => cases hf
  | modulus => cases hf

theorem solves_first_factor :
    Solves (· * ·) ns 0 v ↔ v.toInt * (ns 1).toInt = (ns 2).toInt := by
  simp [Solves]

/-- An open factor of a product is the one that the other factor multiplies to the product. -/
theorem exists_factor (ns : Fin 3 → Int64) (hi : i ≠ 2) :
    ∃ b, multiply.solve ns i = .ok ((Number.integer (ns 2)).divExact? (.integer b)) ∧
      ∀ v, Solves (· * ·) ns i v ↔ v.toInt * b.toInt = (ns 2).toInt := by
  match i with
  | 0 => exact ⟨ns 1, rfl, fun v => solves_first_factor⟩
  | 1 => exact ⟨ns 0, rfl, fun v => by simp [Solves, Int.mul_comm]⟩
  | 2 => exact absurd rfl hi

/-- Zero is multiplied to zero by all numbers, and to nothing else by any; other factors determine
the first one. -/
theorem isOnlySolution_factor_iff {b c : Int64}
    (h : ∀ v, Solves f ns i v ↔ v.toInt * b.toInt = c.toInt) :
    IsOnlySolution f ns i v ↔ b ≠ 0 ∧ v.toInt * b.toInt = c.toInt := by
  simp only [IsOnlySolution, h]
  constructor
  · rintro ⟨hv, honly⟩
    refine ⟨?_, hv⟩
    rintro rfl
    -- Zero and one would both be the only factor.
    rw [Int64.toInt_zero, Int.mul_zero] at hv
    have hzero := honly 0 (by simp [← hv])
    have hone := honly 1 (by simp [← hv])
    exact absurd (hzero.trans hone.symm) (by decide)
  · rintro ⟨hb, hv⟩
    refine ⟨hv, fun w hw => Int64.toInt_inj.1 (Int.eq_of_mul_eq_mul_right (toInt_ne_zero hb) ?_)⟩
    rw [hw, hv]

variable (hf : op.onIntegers? = some f)

include hf

/-- What is computed is the only solution. -/
theorem solve_eq_ok_some_iff :
    op.solve ns i = .ok (some n) ↔ ∃ v, n = .integer v ∧ IsOnlySolution f ns i v := by
  by_cases hforward : op = .multiply → i = 2
  · obtain ⟨k, hsolve, hsolves⟩ := exists_solution ns hf hforward
    rw [hsolve, map_some_ofInt_eq_ok_iff]
    refine exists_congr fun v => and_congr_right fun _ => ?_
    simp only [IsOnlySolution, hsolves]
    exact ⟨fun hv => ⟨hv, fun w hw => Int64.toInt_inj.1 (hw.trans hv.symm)⟩, And.left⟩
  · push Not at hforward
    obtain ⟨rfl, hi⟩ := hforward
    obtain rfl := Option.some.inj hf
    obtain ⟨b, hsolve, hsolves⟩ := exists_factor ns hi
    rw [hsolve, Except.ok.injEq, divExact?_eq_some_iff]
    simp only [isOnlySolution_factor_iff hsolves]
    exact ⟨fun ⟨hb, v, hn, hv⟩ => ⟨v, hn, hb, hv⟩, fun ⟨v, hn, hb, hv⟩ => ⟨hb, v, hn, hv⟩⟩

/-- Without an only solution, there is an overflow, or nothing where a factor is to be found. -/
theorem solve_eq_of_forall_not (h : ∀ v, ¬IsOnlySolution f ns i v) :
    op.solve ns i = if op = .multiply ∧ i ≠ 2 then .ok none else .error .overflow := by
  by_cases hforward : op = .multiply → i = 2
  · obtain ⟨k, hsolve, hsolves⟩ := exists_solution ns hf hforward
    rw [if_neg (by tauto), hsolve, Number.ofInt_eq_overflow fun v hv => ?_]
    · rfl
    · refine h v ⟨(hsolves v).2 hv, fun w hw => Int64.toInt_inj.1 ?_⟩
      rw [(hsolves w).1 hw, hv]
  · push Not at hforward
    obtain ⟨rfl, hi⟩ := hforward
    obtain rfl := Option.some.inj hf
    obtain ⟨b, hsolve, hsolves⟩ := exists_factor ns hi
    rw [if_pos ⟨rfl, hi⟩, hsolve]
    refine congrArg Except.ok (Option.eq_none_iff_forall_ne_some.2 fun n hn => ?_)
    obtain ⟨hb, v, -, hv⟩ := divExact?_eq_some_iff.1 hn
    exact h v ((isOnlySolution_factor_iff hsolves).2 ⟨hb, hv⟩)

end Operation

namespace Builtin

open Operation

variable {name x : String} {op : Operation} {f : Int → Int → Int} {ns : Fin 3 → Int64} {i : Fin 3}

/-- A sum, a difference or a product of which two numbers are given is completed with the third if
there is exactly one of 64 bits that satisfies the equation in the integers. Otherwise it overflows,
or does not hold, if a factor was to be found. -/
theorem evaluate_equation (hf : op.onIntegers? = some f) (hx : x ≠ wildcard) :
    (∀ v, (arithmetic name op).evaluate (integersBut i x ns) =
        .ok (some (integers (Function.update ns i v))) ↔ IsOnlySolution f ns i v) ∧
    ((∀ v, ¬IsOnlySolution f ns i v) → (arithmetic name op).evaluate (integersBut i x ns) =
      if op = .multiply ∧ i ≠ 2 then .ok none else .error (.overflow name)) := by
  have hmode : op = .modulus → i = 2 := by
    rintro rfl
    cases hf
  rw [evaluate_integersBut hmode]
  constructor
  · intro v
    simp only [map_eq_ok_iff, mapError_eq_ok_iff]
    constructor
    · rintro ⟨value, hvalue, hcomplete⟩
      cases value with
      | none => cases hcomplete
      | some n =>
        obtain ⟨w, rfl, hw⟩ := (solve_eq_ok_some_iff hf).1 hvalue
        rw [complete_integersBut hx] at hcomplete
        obtain rfl := integers_update_injective (Option.some.inj hcomplete)
        exact hw
    · intro hv
      exact ⟨_, (solve_eq_ok_some_iff hf).2 ⟨v, rfl, hv⟩, complete_integersBut hx⟩
  · intro hnone
    rw [solve_eq_of_forall_not hf hnone]
    split <;> rfl

/-- Two is what three is multiplied with to get six, every number is a factor of zero with zero, and
the number before the smallest one does not fit into 64 bits. -/
theorem evaluate_equation_factor :
    (arithmetic "MULTIPLY" .multiply).evaluate (integersBut 0 "X" ![0, 3, 6]) =
      .ok (some (integers ![2, 3, 6])) ∧
    (arithmetic "MULTIPLY" .multiply).evaluate (integersBut 0 "X" ![0, 0, 0]) = .ok none ∧
    (arithmetic "SUBTRACT" .subtract).evaluate (integersBut 2 "X" ![Int64.minValue, 1, 0]) =
      .error (.overflow "SUBTRACT") := by
  have hx : "X" ≠ wildcard := by decide
  have htwo : IsOnlySolution (· * ·) ![0, 3, 6] 0 2 :=
    (isOnlySolution_factor_iff fun v => solves_first_factor).2 ⟨by decide, by decide⟩
  have hzero : ∀ v, ¬IsOnlySolution (· * ·) ![0, 0, 0] 0 v := fun v hv =>
    ((isOnlySolution_factor_iff fun v => solves_first_factor).1 hv).1 rfl
  have hsmall : ∀ v, ¬IsOnlySolution (· - ·) ![Int64.minValue, 1, 0] 2 v := fun v hv => by
    have hv : Int64.minValue.toInt - (1 : Int64).toInt = v.toInt := hv.1
    have hle := v.minValue_le_toInt
    rw [Int64.toInt_one] at hv
    omega
  refine ⟨?_, ?_, ?_⟩
  · have hupdate : integers (Function.update ![0, 3, 6] 0 2) = integers ![2, 3, 6] := rfl
    rw [← hupdate]
    exact ((evaluate_equation rfl hx).1 2).2 htwo
  · rw [(evaluate_equation rfl hx).2 hzero, if_pos (by decide)]
  · rw [(evaluate_equation rfl hx).2 hsmall, if_neg (by decide)]

end Builtin

end Deduction
