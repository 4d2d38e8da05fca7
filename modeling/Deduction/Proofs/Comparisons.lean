import Deduction.Proofs.Instances
import Deduction.Builtin.Basic

/-!
# Equality and the comparisons

Equality tests ground terms on a path of its own, while the five comparisons go by a partial order
of terms. The two agree: terms are equal if the order calls them so
(`Comparison.order?_eq_some_eq_iff`). What cannot be compared, such as a number with a text or a
value that is not a number with itself, is therefore different, and neither smaller nor greater.

Floating-point numbers apart, the order of terms is the one of values of the same kind
(`Comparison.order?_eq_some_iff`), which is the order of their contents
(`Value.order_eq_compareLex`). So smaller and greater are each other's converse, and strict orders
that are total on each kind (`Builtin.comparisons_coherent`).
-/

namespace Deduction

/-! ## The order of values -/

namespace Value

/-- The content of a value of a kind that is ordered by numbers. -/
def number : Value → Int
  | integer n => n.toInt
  | double x => x.rank
  | boolean b => b.toNat
  | string _ | symbol _ => 0

/-- The content of a value of a kind that is ordered by texts. -/
def letters : Value → String
  | integer _ | double _ | boolean _ => ""
  | string s | symbol s => s

theorem compare_toInt (m n : Int64) : compare m n = compare m.toInt n.toInt := by
  simp only [compare, compareOfLessAndEq, Int64.lt_iff_toInt_lt, Int64.toInt_inj]

/-- Values are ordered by their kinds, then by their contents. -/
theorem order_eq_compareLex :
    order = compareLex (compareOn rank) (compareLex (compareOn number) (compareOn letters)) := by
  funext v w
  cases v <;> cases w
  case integer.integer m n =>
    simp [order, compareLex, compareOn, rank, number, letters, compare_toInt]
  case double.double x y =>
    simp only [order, compareLex, compareOn, rank, number, letters, Std.ReflOrd.compare_self,
      Ordering.then_eq, Ordering.eq_then]
    rfl
  case boolean.boolean a b => cases a <;> cases b <;> decide
  case string.string s t => simp [order, compareLex, compareOn, rank, number, letters]
  case symbol.symbol s t => simp [order, compareLex, compareOn, rank, number, letters]
  -- The ranks of different kinds decide.
  all_goals rfl

instance : Std.TransOrd Value := by
  change Std.TransCmp order
  rw [order_eq_compareLex]
  infer_instance

end Value

/-! ## The order of terms -/

/-- The term is a floating-point number. -/
def Term.isDouble : Term → Bool
  | .const (.double _) => true
  | _ => false

/-- The terms are constants of the same kind. -/
def Term.SameKind : Term → Term → Prop
  | .const c, .const d => c.rank = d.rank
  | _, _ => False

theorem Term.sameKind_iff {t u : Term} :
    t.SameKind u ↔ ∃ c d, t = .const c ∧ u = .const d ∧ c.rank = d.rank := by
  cases t <;> cases u <;> simp [SameKind]

namespace Comparison

variable {t u w : Term} {o : Ordering}

/-- The order calls terms equal that the test for equality calls so. -/
theorem order?_eq_some_eq_iff : order? t u = some .eq ↔ Builtin.equal t u = true := by
  cases t <;> cases u
  case const.const c d =>
    cases c <;> cases d <;> simp [order?, Builtin.equal, Number.ofTerm?, Number.sameValue]
  all_goals simp [order?, Builtin.equal, Number.ofTerm?]

/-- Floating-point numbers apart, constants are ordered as values if they are of the same kind, and
not ordered otherwise. -/
theorem order?_const {c d : Value} (hc : (Term.const c).isDouble = false)
    (hd : (Term.const d).isDouble = false) :
    order? (.const c) (.const d) = if c.rank = d.rank then some (compare c d) else none := by
  cases c <;> cases d
  case integer.integer m n => rfl
  case boolean.boolean a b => rfl
  case string.string r s => rfl
  case symbol.symbol r s => rfl
  all_goals simp_all [order?, Number.ofTerm?, Value.rank, Term.isDouble]

theorem order?_eq_some_iff (ht : t.isDouble = false) (hu : u.isDouble = false) (ho : o ≠ .eq) :
    order? t u = some o ↔
      ∃ c d, t = .const c ∧ u = .const d ∧ c.rank = d.rank ∧ compare c d = o := by
  cases t <;> cases u
  case const.const c d =>
    rw [order?_const ht hu]
    simp
  -- Two terms of which one is no constant are the same, or have no order.
  all_goals simp [order?, Number.ofTerm?, ho.symm]

/-- Exchanging two terms turns their order around. -/
theorem order?_eq_some_gt_iff (ht : t.isDouble = false) (hu : u.isDouble = false) :
    order? t u = some .gt ↔ order? u t = some .lt := by
  rw [order?_eq_some_iff ht hu (by decide), order?_eq_some_iff hu ht (by decide), exists_comm]
  refine exists_congr fun d => exists_congr fun c => ?_
  rw [Std.OrientedCmp.gt_iff_lt, eq_comm (a := c.rank)]
  tauto

theorem order?_self_ne_lt (ht : t.isDouble = false) : order? t t ≠ some .lt := by
  rw [Ne, order?_eq_some_iff ht ht (by decide)]
  rintro ⟨c, d, hc, hd, -, hlt⟩
  obtain rfl := Term.const.inj (hc.symm.trans hd)
  rw [Std.ReflOrd.compare_self] at hlt
  cases hlt

theorem order?_trans (ht : t.isDouble = false) (hu : u.isDouble = false) (hw : w.isDouble = false)
    (htu : order? t u = some .lt) (huw : order? u w = some .lt) : order? t w = some .lt := by
  obtain ⟨c, d, rfl, rfl, hrank, hlt⟩ := (order?_eq_some_iff ht hu (by decide)).1 htu
  obtain ⟨d', e, hd, rfl, hrank', hlt'⟩ := (order?_eq_some_iff hu hw (by decide)).1 huw
  obtain rfl := Term.const.inj hd
  exact (order?_eq_some_iff ht hw (by decide)).2
    ⟨c, e, rfl, rfl, hrank.trans hrank', Std.TransCmp.lt_trans hlt hlt'⟩

/-- Constants of the same kind have an order. -/
theorem exists_order? (ht : t.isDouble = false) (hu : u.isDouble = false) (h : t.SameKind u) :
    ∃ o, order? t u = some o := by
  obtain ⟨c, d, rfl, rfl, hrank⟩ := Term.sameKind_iff.1 h
  exact ⟨compare c d, (order?_const ht hu).trans (if_pos hrank)⟩

/-- Terms that are no constants of the same kind are neither smaller nor greater. -/
theorem eq_of_order? (ht : t.isDouble = false) (hu : u.isDouble = false) (h : ¬t.SameKind u)
    (ho : order? t u = some o) : o = .eq := by
  by_contra hne
  obtain ⟨c, d, rfl, rfl, hrank, -⟩ := (order?_eq_some_iff ht hu hne).1 ho
  exact h hrank

end Comparison

/-! ## Calls -/

namespace Builtin

variable {b : Builtin} {name : String} {op : Comparison} {t u : Term}

/-- The call of a builtin with two arguments succeeds. -/
def Succeeds (b : Builtin) (t u : Term) : Prop :=
  ∃ completed, b.evaluate [t, u] = .ok (some completed)

section Ground

variable (ht : t.isGround = true) (hu : u.isGround = true)

include ht hu

theorem evaluate_equality_of_isGround :
    equality.evaluate [t, u] = .ok (if equal t u then some [t, u] else none) := by
  rw [evaluate, evaluateEquality, if_pos (by rw [ht, hu]; rfl)]

theorem evaluate_comparison_of_isGround : (comparison name op).evaluate [t, u] =
    .ok (if op.holds (Comparison.order? t u) then some [t, u] else none) := by
  rw [evaluate, evaluateComparison, if_pos (by simp [Term.areGround, ht, hu])]

theorem succeeds_equality_iff : equality.Succeeds t u ↔ Comparison.order? t u = some .eq := by
  rw [Succeeds, evaluate_equality_of_isGround ht hu, Comparison.order?_eq_some_eq_iff]
  simp

theorem succeeds_comparison_iff :
    (comparison name op).Succeeds t u ↔ op.holds (Comparison.order? t u) = true := by
  rw [Succeeds, evaluate_comparison_of_isGround ht hu]
  simp

/-- A test of two ground terms does not fail. -/
theorem exists_evaluate (hb : b.arity = 2) : ∃ result, b.evaluate [t, u] = .ok result := by
  cases b with
  | equality => exact ⟨_, evaluate_equality_of_isGround ht hu⟩
  | comparison name op => exact ⟨_, evaluate_comparison_of_isGround ht hu⟩
  | arithmetic name op => cases hb

end Ground

/-- Ground terms are different if they are not equal, smaller or equal if they are one or the other,
and likewise greater or equal, and no such call fails with an error. Floating-point numbers apart,
greater is the converse of smaller, which is irreflexive and transitive; constants of the same kind
are either smaller or equal or greater; and other terms are neither smaller nor greater. -/
theorem comparisons_coherent (name : Comparison → String) :
    let holds (op : Comparison) (t u : Term) := (comparison (name op) op).Succeeds t u
    let equals (t u : Term) := equality.Succeeds t u
    (∀ t u : Term, t.isGround = true → u.isGround = true →
      (∀ b : Builtin, b.arity = 2 → ∃ result, b.evaluate [t, u] = .ok result) ∧
      (holds .notEqual t u ↔ ¬equals t u) ∧
      (holds .lessEqual t u ↔ holds .less t u ∨ equals t u) ∧
      (holds .greaterEqual t u ↔ holds .greater t u ∨ equals t u)) ∧
    ∀ t u : Term, t.isGround = true → u.isGround = true →
      t.isDouble = false → u.isDouble = false →
      (holds .greater t u ↔ holds .less u t) ∧
      ¬holds .less t t ∧
      (∀ w : Term, w.isGround = true → w.isDouble = false →
        holds .less t u → holds .less u w → holds .less t w) ∧
      (t.SameKind u →
        holds .less t u ∧ ¬equals t u ∧ ¬holds .greater t u ∨
        ¬holds .less t u ∧ equals t u ∧ ¬holds .greater t u ∨
        ¬holds .less t u ∧ ¬equals t u ∧ holds .greater t u) ∧
      (¬t.SameKind u → ¬holds .less t u ∧ ¬holds .greater t u) := by
  intro holds equals
  refine ⟨fun t u ht hu => ⟨fun b hb => exists_evaluate ht hu hb, ?_⟩, fun t u ht hu htd hud => ?_⟩
  · simp only [holds, equals, succeeds_comparison_iff ht hu, succeeds_equality_iff ht hu,
      Comparison.holds, Bool.or_eq_true, decide_eq_true_eq, ne_eq, and_self]
  · simp only [holds, equals, succeeds_comparison_iff ht hu, succeeds_comparison_iff hu ht,
      succeeds_comparison_iff ht ht, succeeds_equality_iff ht hu, Comparison.holds,
      decide_eq_true_eq]
    refine ⟨Comparison.order?_eq_some_gt_iff htd hud, Comparison.order?_self_ne_lt htd, ?_, ?_, ?_⟩
    · intro w hw hwd
      rw [succeeds_comparison_iff hu hw, succeeds_comparison_iff ht hw]
      simpa only [Comparison.holds, decide_eq_true_eq] using Comparison.order?_trans htd hud hwd
    · intro hkind
      obtain ⟨o, ho⟩ := Comparison.exists_order? htd hud hkind
      rw [ho]
      cases o <;> simp
    · intro hkind
      constructor
      · exact fun hlt => absurd (Comparison.eq_of_order? htd hud hkind hlt) (by decide)
      · exact fun hgt => absurd (Comparison.eq_of_order? htd hud hkind hgt) (by decide)

/-- A value that is not a number differs from itself and is not at most itself, a text is greater than
its beginning, and a number is neither smaller nor greater than a compound term. -/
theorem comparisons_coherent_mixed :
    let nan : Term := .const (.double ⟨0x7ff8000000000000⟩)
    let text (s : String) : Term := .const (.string s)
    let two : Term := .const (.integer 2)
    (comparison "TEST" .notEqual).Succeeds nan nan ∧
      ¬(comparison "TEST" .lessEqual).Succeeds nan nan ∧
      (comparison "TEST" .greater).Succeeds (text "ab") (text "a") ∧
      ¬(comparison "TEST" .less).Succeeds two (.app "f" [nan]) := by
  intro nan text two
  obtain ⟨hall, hexact⟩ := comparisons_coherent fun _ => "TEST"
  have hequal : ¬equality.Succeeds nan nan := by
    rw [succeeds_equality_iff rfl rfl]
    decide
  have hless (t u : Term) (ht : t.isGround = true) (hu : u.isGround = true) :
      (comparison "TEST" .less).Succeeds t u ↔ Comparison.order? t u = some .lt := by
    rw [succeeds_comparison_iff ht hu, Comparison.holds, decide_eq_true_eq]
  obtain ⟨-, hnotEqual, hlessEqual, -⟩ := hall nan nan rfl rfl
  refine ⟨hnotEqual.2 hequal, fun h => ?_, ?_, ?_⟩
  · rcases hlessEqual.1 h with h | h
    · exact absurd ((hless nan nan rfl rfl).1 h) (by decide)
    · exact hequal h
  · obtain ⟨hgreater, -⟩ := hexact (text "ab") (text "a") rfl rfl rfl rfl
    exact hgreater.2 ((hless (text "a") (text "ab") rfl rfl).2 (by decide))
  · obtain ⟨-, -, -, -, hkinds⟩ := hexact two (.app "f" [nan]) rfl rfl rfl rfl
    exact (hkinds id).1

end Builtin

end Deduction
