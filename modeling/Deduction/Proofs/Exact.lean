import Deduction.Builtin.Basic
import Deduction.Proofs.Unification

/-!
# Exact terms

Two integers are computed with exactly, while floating-point numbers are rounded, and have values
that other terms have as well. A term is exact if no floating-point number occurs in it
(`Term.isExact`). Unification and integer arithmetic lead from exact terms to exact ones.

The operand that an operation computes from its result and from the other operand is the one that
gives this result, unless the operation is a division, or a multiplication by zero
(`Operation.solveFirst_eq_ok_iff`, `Operation.solveSecond_eq_ok_iff`).
-/

namespace Deduction

mutual

/-- No floating-point number occurs in the term. -/
def Term.isExact : Term → Bool
  | .var _ => true
  | .const (.double _) => false
  | .const _ => true
  | .app _ ts => Term.areExact ts

/-- No floating-point number occurs in the terms. -/
def Term.areExact : List Term → Bool
  | [] => true
  | t :: ts => t.isExact && Term.areExact ts

end

namespace Term

variable {f : String → Term} {t u : Term} {ts us : List Term} {v : Valuation} {x k : String}

theorem areExact_iff : areExact ts = true ↔ ∀ t ∈ ts, t.isExact = true := by
  induction ts with
  | nil => simp [areExact]
  | cons t ts ih => simp [areExact, ih]

theorem isExact_app_iff : (app k ts).isExact = true ↔ ∀ t ∈ ts, t.isExact = true :=
  areExact_iff

theorem isExact_replace_iff :
    (t.replace f).isExact = true ↔
      t.isExact = true ∧ ∀ x ∈ t.occurrences, (f x).isExact = true := by
  induction t using inductionOn with
  | var x => simp [replace, occurrences, isExact]
  | const c => simp [replace, occurrences]
  | app k ts ih =>
    rw [replace, replaceAll_eq_map, isExact_app_iff, isExact_app_iff, List.forall_mem_map,
      occurrences, occurrencesAll_eq_flatMap]
    constructor
    · intro h
      refine ⟨fun t ht => ((ih t ht).1 (h t ht)).1, fun x hx => ?_⟩
      obtain ⟨t, ht, hx⟩ := List.mem_flatMap.1 hx
      exact ((ih t ht).1 (h t ht)).2 x hx
    · rintro ⟨hts, hf⟩ t ht
      exact (ih t ht).2 ⟨hts t ht, fun x hx => hf x (List.mem_flatMap.2 ⟨t, ht, hx⟩)⟩

/-- The values of the variables that occur in a pattern with an exact instance are exact. -/
theorem MatchesAll.isExact (h : MatchesAll v ts us) (hus : ∀ u ∈ us, u.isExact = true)
    (ht : t ∈ ts) (hx : x ∈ t.occurrences) (hne : x ≠ wildcard) : (v x).isExact = true :=
  h.hereditary (P := fun t => t.isExact = true) (fun _ _ => isExact_app_iff.1) hus ht hx hne

end Term

namespace Substitution

variable {s : Substitution} {t u : Term}

theorem isExact_apply (hs : ∀ x t, s.get? x = some t → t.isExact = true) (ht : t.isExact = true) :
    (s.apply t).isExact = true := by
  have hresolve : ∀ n x, (s.resolve n x).isExact = true := by
    intro n
    induction n with
    | zero => exact fun x => rfl
    | succ n ih =>
      intro x
      rw [resolve]
      split
      · next u hu => exact Term.isExact_replace_iff.2 ⟨hs x u hu, fun y _ => ih y⟩
      · rfl
  exact Term.isExact_replace_iff.2 ⟨ht, fun x _ => hresolve _ x⟩

/-- A variable without a binding stays where it is. -/
theorem mem_occurrences_apply_of_get?_eq_none {x : String} (hx : x ∈ t.occurrences)
    (h : s.get? x = none) : x ∈ (s.apply t).occurrences :=
  (Term.mem_occurrences_replace t).2 ⟨x, hx, by simp [resolve_of_get?_eq_none h, Term.occurrences]⟩

/-- Unification never binds the wildcard, and binds variables of exact terms to exact terms. -/
theorem isExact_of_unify_empty {E : Prop} (ht : E → t.isExact = true) (hu : E → u.isExact = true)
    (h : (empty.unify t u).substitution? = some s) :
    ∀ x t, s.get? x = some t → x ≠ wildcard ∧ (E → t.isExact = true) := by
  refine of_unify_empty (P := fun t => E → t.isExact = true)
    (fun _ _ happ t ht hE => Term.isExact_app_iff.1 (happ hE) t ht)
    (fun y u w hu hw hE => Term.isExact_replace_iff.2 ⟨hw hE, fun z _ => ?_⟩) ht hu h
  rw [single]
  split
  · exact hu hE
  · rfl

end Substitution

/-! ## Integers -/

namespace Number

variable {a : Number} {t : Term}

theorem ofInt_eq_ok_iff {n : Int} : ofInt n = .ok a ↔ ∃ m : Int64, a = integer m ∧ m.toInt = n := by
  rw [ofInt]
  split
  · next h =>
    have htoInt : (Int64.ofInt n).toInt = n := by
      rw [Int64.toInt_minValue, Int64.toInt_maxValue] at h
      exact Int64.toInt_ofInt_of_le h.1 (by omega)
    constructor
    · intro ha
      exact ⟨_, (Except.ok.inj ha).symm, htoInt⟩
    · rintro ⟨m, rfl, rfl⟩
      rw [Int64.ofInt_toInt]
  · next h =>
    refine iff_of_false nofun ?_
    rintro ⟨m, -, rfl⟩
    exact h ⟨m.minValue_le_toInt, m.toInt_le⟩

/-- An exact number is an integer. -/
theorem exists_integer_of_isExact (h : ofTerm? t = some a) (ht : t.isExact = true) :
    ∃ n, a = integer n ∧ t = .const (.integer n) := by
  rcases t with x | c | ⟨f, ts⟩
  · cases h
  · cases c with
    | integer n => exact ⟨n, (Option.some.inj h).symm, rfl⟩
    | double x => cases ht
    | boolean b => cases h
    | string s => cases h
    | symbol s => cases h
  · cases h

theorem sameValue_integer_iff {m n : Int64} : (integer m).sameValue (integer n) = true ↔ m = n := by
  simp [sameValue, compareNumeric]

end Number

namespace Operation

variable {op : Operation} {a b c : Int64} {n : Number} {t : Term}

/-- The result of an operation and one operand, given by a term, determine the other operand. -/
def DeterminesOperand : Operation → Term → Prop
  | add, _ | subtract, _ | modulus, _ => True
  | multiply, t => ∃ n, t = .const (.integer n) ∧ n ≠ 0
  | divide, _ => False

instance : (op : Operation) → (t : Term) → Decidable (op.DeterminesOperand t)
  | add, _ | subtract, _ | modulus, _ => isTrue trivial
  | divide, _ => isFalse id
  | multiply, .const (.integer n) => decidable_of_iff (n ≠ 0) (by simp [DeterminesOperand])
  | multiply, .const (.double _) | multiply, .const (.boolean _) | multiply, .const (.string _)
  | multiply, .const (.symbol _) | multiply, .var _ | multiply, .app _ _ =>
    isFalse (by simp [DeterminesOperand])

/-- Integers have integer results. -/
theorem exists_of_result_eq_ok (h : op.result (.integer a) (.integer b) = .ok n) :
    ∃ c, n = .integer c := by
  have hofInt : ∀ {i : Int}, Number.ofInt i = .ok n → ∃ c, n = .integer c := fun h =>
    (Number.ofInt_eq_ok_iff.1 h).imp fun _ => And.left
  cases op with
  | add | subtract | multiply => exact hofInt h
  | divide =>
    simp only [result, Number.div] at h
    split at h
    · cases h
    · exact hofInt h
  | modulus =>
    simp only [result, Number.rem] at h
    split at h
    · cases h
    · obtain ⟨_, -, h⟩ := bind_eq_ok_iff.1 h
      exact hofInt h

theorem ofInt_eq_ok_integer_iff {i : Int} : Number.ofInt i = .ok (.integer c) ↔ c.toInt = i := by
  simp [Number.ofInt_eq_ok_iff]

theorem map_some_ofInt_eq_ok_iff {i : Int} :
    (Number.ofInt i).map some = .ok (some n) ↔ ∃ a : Int64, n = .integer a ∧ a.toInt = i := by
  simp only [map_eq_ok_iff, Option.some.injEq, exists_eq_right, Number.ofInt_eq_ok_iff]

theorem toInt_ne_zero (hb : b ≠ 0) : b.toInt ≠ 0 := fun hzero =>
  hb (Int64.toInt_inj.1 (hzero.trans Int64.toInt_zero.symm))

theorem divExact?_eq_some_iff :
    (Number.integer c).divExact? (.integer b) = some n ↔
      b ≠ 0 ∧ ∃ a : Int64, n = .integer a ∧ a.toInt * b.toInt = c.toInt := by
  rw [Number.divExact?]
  split
  · next h =>
    refine iff_of_false nofun ?_
    rintro ⟨hb, a, -, hc⟩
    exact (h.resolve_left hb) (Int.tmod_eq_zero_of_dvd (hc ▸ Int.dvd_mul_left _ _))
  · next h =>
    push Not at h
    have hdvd := Int.dvd_of_tmod_eq_zero h.2
    rw [and_iff_right h.1, toOption_eq_some_iff, Number.ofInt_eq_ok_iff]
    refine exists_congr fun a => and_congr_right fun _ => ⟨fun ha => ?_, fun hc => ?_⟩
    · rw [ha, Int.tdiv_mul_cancel hdvd]
    · rw [← hc, Int.mul_tdiv_cancel _ (toInt_ne_zero h.1)]

/-- A product divided by one of its factors is the other one, unless that factor is zero. -/
theorem result_divide_of_mul (hb : b ≠ 0) (h : a.toInt = c.toInt * b.toInt) :
    divide.result (.integer a) (.integer b) = .ok (.integer c) := by
  rw [result, Number.div, if_neg hb, ofInt_eq_ok_integer_iff, h,
    Int.mul_tdiv_cancel _ (toInt_ne_zero hb)]

/-- An operand that is computed from integers is an integer, with which the operation has the given
result, or the call is a division by zero. -/
theorem result_of_solveFirst (h : op.solveFirst (.integer b) (.integer c) = .ok (some n)) :
    ∃ a, n = .integer a ∧
      (op.result (.integer a) (.integer b) = .ok (.integer c) ∨ op = .divide ∧ b = 0) := by
  cases op with
  | add | subtract =>
    obtain ⟨a, rfl, ha⟩ := map_some_ofInt_eq_ok_iff.1 h
    exact ⟨a, rfl, .inl (ofInt_eq_ok_integer_iff.2 (by omega))⟩
  | multiply =>
    obtain ⟨-, a, rfl, ha⟩ := divExact?_eq_some_iff.1 (Except.ok.inj h)
    exact ⟨a, rfl, .inl (ofInt_eq_ok_integer_iff.2 ha.symm)⟩
  | divide =>
    obtain ⟨a, rfl, ha⟩ := map_some_ofInt_eq_ok_iff.1 h
    by_cases hb : b = 0
    · exact ⟨a, rfl, .inr ⟨rfl, hb⟩⟩
    · exact ⟨a, rfl, .inl (result_divide_of_mul hb ha)⟩
  | modulus => cases h

theorem result_of_solveSecond (h : op.solveSecond (.integer a) (.integer c) = .ok (some n)) :
    ∃ b, n = .integer b ∧
      (op.result (.integer a) (.integer b) = .ok (.integer c) ∨ op = .divide ∧ b = 0) := by
  cases op with
  | add | subtract =>
    obtain ⟨b, rfl, hb⟩ := map_some_ofInt_eq_ok_iff.1 h
    exact ⟨b, rfl, .inl (ofInt_eq_ok_integer_iff.2 (by omega))⟩
  | multiply =>
    obtain ⟨-, b, rfl, hb⟩ := divExact?_eq_some_iff.1 (Except.ok.inj h)
    exact ⟨b, rfl, .inl (ofInt_eq_ok_integer_iff.2 (by rw [Int.mul_comm, hb]))⟩
  | divide =>
    obtain ⟨-, b, rfl, hb⟩ := divExact?_eq_some_iff.1 (Except.ok.inj h)
    by_cases hzero : b = 0
    · exact ⟨b, rfl, .inr ⟨rfl, hzero⟩⟩
    · exact ⟨b, rfl, .inl (result_divide_of_mul hzero (by rw [Int.mul_comm, hb]))⟩
  | modulus => cases h

/-- The first operand that is computed is the one that gives the result. -/
theorem solveFirst_eq_ok_iff (h : op.DeterminesOperand (.const (.integer b)))
    (hop : op ≠ .modulus) :
    op.solveFirst (.integer b) (.integer c) = .ok (some n) ↔
      ∃ a, n = .integer a ∧ op.result (.integer a) (.integer b) = .ok (.integer c) := by
  cases op with
  | add | subtract =>
    simp only [solveFirst, result, Number.sub, Number.add, map_some_ofInt_eq_ok_iff,
      ofInt_eq_ok_integer_iff]
    exact exists_congr fun a => and_congr_right fun _ => ⟨by omega, by omega⟩
  | multiply =>
    obtain ⟨b', hb', hne⟩ := h
    obtain rfl : b = b' := by simpa using hb'
    simp only [solveFirst, result, Number.mul, Except.ok.injEq, divExact?_eq_some_iff,
      and_iff_right hne, ofInt_eq_ok_integer_iff]
    exact exists_congr fun a => and_congr_right fun _ => eq_comm
  | divide => cases h
  | modulus => exact absurd rfl hop

/-- The second operand that is computed is the one that gives the result. -/
theorem solveSecond_eq_ok_iff (h : op.DeterminesOperand (.const (.integer a)))
    (hop : op ≠ .modulus) :
    op.solveSecond (.integer a) (.integer c) = .ok (some n) ↔
      ∃ b, n = .integer b ∧ op.result (.integer a) (.integer b) = .ok (.integer c) := by
  cases op with
  | add | subtract =>
    simp only [solveSecond, result, Number.sub, Number.add, map_some_ofInt_eq_ok_iff,
      ofInt_eq_ok_integer_iff]
    exact exists_congr fun b => and_congr_right fun _ => ⟨by omega, by omega⟩
  | multiply =>
    obtain ⟨a', ha', hne⟩ := h
    obtain rfl : a = a' := by simpa using ha'
    simp only [solveSecond, result, Number.mul, Except.ok.injEq, divExact?_eq_some_iff,
      and_iff_right hne, ofInt_eq_ok_integer_iff]
    exact exists_congr fun b => and_congr_right fun _ => by rw [Int.mul_comm, eq_comm]
  | divide => cases h
  | modulus => exact absurd rfl hop

end Operation

end Deduction
