import Deduction.Proofs.Comparisons
import Deduction.Relation

/-!
# Sorted relations

Terms are ordered by their kinds, then by their contents: variables by their names, constants as
values, and applications by their function symbols and then by their arguments, from the first to
the last (`Term.Before`). This is a total order, in which two terms are level only if they are the
same, so that a set of tuples can be written in ascending order in one way. Two relations of one
arity are therefore the same exactly if they are sorted into the same list, in whatever order their
tuples have been inserted (`Relation.same_iff_sorted`).
-/

namespace Deduction

/-! ## The order of values -/

namespace Double

/-- The order of patterns: those with the sign bit before those without, with the sign bit from the
largest on, and without it from the smallest on. -/
def Before (x y : Double) : Prop :=
  x.isNegative = true ∧ y.isNegative = false ∨
  x.isNegative = true ∧ y.isNegative = true ∧ y.bits < x.bits ∨
  x.isNegative = false ∧ y.isNegative = false ∧ x.bits < y.bits

theorem isNegative_iff {x : Double} : x.isNegative = true ↔ signBit ≤ x.bits.toNat :=
  decide_eq_true_iff

/-- The ranks of patterns with the sign bit go down from minus one. -/
theorem rank_of_isNegative {x : Double} (h : x.isNegative = true) :
    x.rank = (signBit : Int) - 1 - x.bits.toNat := by
  have hle := isNegative_iff.1 h
  have hlt := x.bits.toNat_lt
  rw [rank, if_pos h, magnitude]
  rw [signBit] at hle ⊢
  omega

/-- Patterns without the sign bit are their own ranks. -/
theorem rank_of_isNegative_eq_false {x : Double} (h : x.isNegative = false) :
    x.rank = x.bits.toNat := by
  have hlt : x.bits.toNat < signBit := by
    rw [← Nat.not_le, ← isNegative_iff, h]
    exact Bool.false_ne_true
  rw [rank, if_neg (by simp [h]), magnitude, Nat.mod_eq_of_lt hlt]

/-- There are no gaps between the ranks of patterns with the sign bit and of those without. -/
theorem rank_neg_iff {x : Double} : x.rank < 0 ↔ x.isNegative = true := by
  cases h : x.isNegative with
  | true =>
    have hle := isNegative_iff.1 h
    simp only [rank_of_isNegative h, iff_true]
    omega
  | false =>
    simp [rank_of_isNegative_eq_false h]

theorem rank_lt_rank_iff {x y : Double} : x.rank < y.rank ↔ x.Before y := by
  have hx := rank_neg_iff (x := x)
  have hy := rank_neg_iff (x := y)
  rw [Before, UInt64.lt_iff_toNat_lt, UInt64.lt_iff_toNat_lt]
  cases hxneg : x.isNegative <;> cases hyneg : y.isNegative
  case false.false =>
    simp [rank_of_isNegative_eq_false hxneg, rank_of_isNegative_eq_false hyneg]
  case true.true =>
    simp [rank_of_isNegative hxneg, rank_of_isNegative hyneg]
  -- The sign bits decide.
  all_goals
    simp only [hxneg, hyneg, iff_true, Bool.false_eq_true, iff_false] at hx hy
    simp
    omega

theorem rank_injective {x y : Double} (h : x.rank = y.rank) : x = y := by
  have hneg : x.isNegative = y.isNegative := by
    rw [Bool.eq_iff_iff, ← rank_neg_iff, ← rank_neg_iff, h]
  have hbits : x.bits.toNat = y.bits.toNat := by
    cases hx : x.isNegative with
    | true =>
      rw [rank_of_isNegative hx, rank_of_isNegative (hneg ▸ hx)] at h
      omega
    | false =>
      rw [rank_of_isNegative_eq_false hx, rank_of_isNegative_eq_false (hneg ▸ hx)] at h
      omega
  cases x
  cases y
  exact congrArg Double.mk (UInt64.toNat_inj.1 hbits)

end Double

namespace Value

/-- The order of values: by their kinds, and within a kind by their contents. -/
inductive Before : Value → Value → Prop
  /-- Whole numbers, doubles, truth values, strings and symbols follow each other. -/
  | kind {v w : Value} (h : v.rank < w.rank) : Before v w
  /-- Whole numbers are ordered by size. -/
  | integer {m n : Int64} (h : m < n) : Before (.integer m) (.integer n)
  /-- Doubles are ordered by their patterns. -/
  | double {x y : Double} (h : x.Before y) : Before (.double x) (.double y)
  /-- What is false comes before what is true. -/
  | boolean : Before (.boolean false) (.boolean true)
  /-- Strings are ordered letter by letter. -/
  | string {s t : String} (h : s < t) : Before (.string s) (.string t)
  /-- Symbols are ordered letter by letter. -/
  | symbol {s t : String} (h : s < t) : Before (.symbol s) (.symbol t)

theorem compare_eq_lt_iff {v w : Value} : compare v w = .lt ↔ v.Before w := by
  constructor
  · intro h
    cases v <;> cases w
    case integer.integer m n => exact .integer (Std.compare_eq_lt.1 h)
    case double.double x y => exact .double (Double.rank_lt_rank_iff.1 (Int.compare_eq_lt.1 h))
    case boolean.boolean a b =>
      cases a <;> cases b
      case false.true => exact .boolean
      all_goals cases h
    case string.string s t => exact .string (compareOfLessAndEq_eq_lt.1 h)
    case symbol.symbol s t => exact .symbol (compareOfLessAndEq_eq_lt.1 h)
    -- Of different kinds, the ranks have been compared.
    all_goals exact .kind (Nat.compare_eq_lt.1 h)
  · intro h
    cases h with
    | kind h =>
      change order v w = .lt
      rw [order_eq_compareLex, compareLex, compareOn, Nat.compare_eq_lt.2 h]
      rfl
    | integer h => exact Std.compare_eq_lt (α := Int64).2 h
    | double h => exact Int.compare_eq_lt.2 (Double.rank_lt_rank_iff.2 h)
    | boolean => rfl
    | string h => exact compareOfLessAndEq_eq_lt.2 h
    | symbol h => exact compareOfLessAndEq_eq_lt.2 h

theorem eq_of_compare {v w : Value} (h : compare v w = .eq) : v = w := by
  cases v <;> cases w
  case integer.integer m n => exact congrArg integer (Std.compare_eq_iff_eq (α := Int64).1 h)
  case double.double x y => exact congrArg double (Double.rank_injective (Int.compare_eq_eq.1 h))
  case boolean.boolean a b => exact congrArg boolean (Std.compare_eq_iff_eq (α := Bool).1 h)
  case string.string s t => exact congrArg string (Std.compare_eq_iff_eq (α := String).1 h)
  case symbol.symbol s t => exact congrArg symbol (Std.compare_eq_iff_eq (α := String).1 h)
  all_goals cases h

instance : Std.LawfulEqOrd Value where
  eq_of_compare := eq_of_compare

end Value

/-! ## The order of terms -/

namespace Term

/-- The order of terms: variables, constants, applications, and within a kind by the contents. -/
inductive Before : Term → Term → Prop
  /-- Variables are ordered by their names. -/
  | var {x y : String} (h : x < y) : Before (.var x) (.var y)
  /-- Variables come before constants. -/
  | var_const (x : String) (c : Value) : Before (.var x) (.const c)
  /-- Variables come before applications. -/
  | var_app (x f : String) (ts : List Term) : Before (.var x) (.app f ts)
  /-- Constants are ordered as values. -/
  | const {c d : Value} (h : c.Before d) : Before (.const c) (.const d)
  /-- Constants come before applications. -/
  | const_app (c : Value) (f : String) (ts : List Term) : Before (.const c) (.app f ts)
  /-- Applications are ordered by their function symbols. -/
  | functor {f g : String} (h : f < g) (ts us : List Term) : Before (.app f ts) (.app g us)
  /-- Applications of one function symbol are ordered by the first argument in which they differ;
  one that ends before comes first. -/
  | args {f : String} {ts us : List Term} (h : ts.Lex Before us) : Before (.app f ts) (.app f us)

/-- Lists of arguments are compared from the first member to the last. -/
theorem orderAll_eq_compare (ts us : List Term) : orderAll ts us = compare ts us := by
  induction ts generalizing us with
  | nil => cases us <;> rfl
  | cons t ts ih =>
    cases us with
    | nil => rfl
    | cons u us =>
      rw [orderAll, ih, List.compare_cons_cons]
      rfl

theorem compare_var {x y : String} : compare (var x) (var y) = compare x y :=
  rfl

theorem compare_const {c d : Value} : compare (const c) (const d) = compare c d :=
  rfl

theorem compare_app {f g : String} {ts us : List Term} :
    compare (app f ts) (app g us) = (compare f g).then (compare ts us) := by
  rw [← orderAll_eq_compare]
  rfl

mutual

/-- Only a term itself is level with it. -/
theorem compare_eq_eq_iff : (t u : Term) → (compare t u = .eq ↔ t = u)
  | .var x, .var y => by rw [compare_var, Std.compare_eq_iff_eq, var.injEq]
  | .const c, .const d => by rw [compare_const, Std.compare_eq_iff_eq, const.injEq]
  | .app f ts, .app g us => by
    rw [compare_app, Ordering.then_eq_eq, Std.compare_eq_iff_eq, compareAll_eq_eq_iff ts us,
      app.injEq]
  | .var _, .const _ | .var _, .app _ _ | .const _, .var _ | .const _, .app _ _
  | .app _ _, .var _ | .app _ _, .const _ => iff_of_false nofun nofun

/-- Only a list of terms itself is level with it. -/
theorem compareAll_eq_eq_iff : (ts us : List Term) → (compare ts us = .eq ↔ ts = us)
  | [], [] => by simp
  | [], _ :: _ | _ :: _, [] => by simp
  | t :: ts, u :: us => by
    rw [List.compare_cons_cons, Ordering.then_eq_eq, compare_eq_eq_iff t u,
      compareAll_eq_eq_iff ts us, List.cons.injEq]

end

mutual

/-- Exchanging two terms turns their order around. -/
theorem compare_eq_swap : (t u : Term) → compare t u = (compare u t).swap
  | .var x, .var y => by
    rw [compare_var, compare_var]
    exact Std.OrientedCmp.eq_swap
  | .const c, .const d => by
    rw [compare_const, compare_const]
    exact Std.OrientedCmp.eq_swap
  | .app f ts, .app g us => by
    rw [compare_app, compare_app, Ordering.swap_then, ← compareAll_eq_swap ts us,
      ← Std.OrientedCmp.eq_swap]
  | .var _, .const _ | .var _, .app _ _ | .const _, .var _ | .const _, .app _ _
  | .app _ _, .var _ | .app _ _, .const _ => rfl

/-- Exchanging two lists of terms turns their order around. -/
theorem compareAll_eq_swap : (ts us : List Term) → compare ts us = (compare us ts).swap
  | [], [] => by simp
  | [], _ :: _ | _ :: _, [] => by simp
  | t :: ts, u :: us => by
    rw [List.compare_cons_cons, List.compare_cons_cons, Ordering.swap_then,
      ← compare_eq_swap t u, ← compareAll_eq_swap ts us]

end

mutual

/-- The comparison of terms goes by their order. -/
theorem compare_eq_lt_iff : (t u : Term) → (compare t u = .lt ↔ t.Before u)
  | .var x, .var y => by
    constructor
    · exact fun h => .var (compareOfLessAndEq_eq_lt.1 h)
    · exact fun (.var h) => compareOfLessAndEq_eq_lt.2 h
  | .const c, .const d => by
    constructor
    · exact fun h => .const (Value.compare_eq_lt_iff.1 h)
    · exact fun (.const h) => Value.compare_eq_lt_iff.2 h
  | .app f ts, .app g us => by
    rw [compare_app, Ordering.then_eq_lt, Std.compare_eq_iff_eq, compareAll_eq_lt_iff ts us]
    constructor
    · rintro (h | ⟨rfl, h⟩)
      · exact .functor (compareOfLessAndEq_eq_lt.1 h) ts us
      · exact .args h
    · intro h
      cases h with
      | functor h => exact .inl (compareOfLessAndEq_eq_lt.2 h)
      | args h => exact .inr ⟨rfl, h⟩
  | .var x, .const c => iff_of_true rfl (.var_const x c)
  | .var x, .app f ts => iff_of_true rfl (.var_app x f ts)
  | .const c, .app f ts => iff_of_true rfl (.const_app c f ts)
  | .const _, .var _ | .app _ _, .var _ | .app _ _, .const _ => iff_of_false nofun nofun

/-- The comparison of lists of terms goes by the order of their members. -/
theorem compareAll_eq_lt_iff : (ts us : List Term) → (compare ts us = .lt ↔ ts.Lex Before us)
  | [], [] => by simp
  | [], u :: us => iff_of_true (by simp) .nil
  | t :: ts, [] => by simp
  | t :: ts, u :: us => by
    rw [List.compare_cons_cons, Ordering.then_eq_lt, compare_eq_eq_iff,
      compare_eq_lt_iff t u, compareAll_eq_lt_iff ts us, List.cons_lex_cons_iff]

end

mutual

/-- What comes before a term comes before all that the term comes before. -/
theorem compare_trans : (t u w : Term) → compare t u = .lt → compare u w = .lt → compare t w = .lt
  | .var x, .var y, .var z => by
    rw [compare_var, compare_var, compare_var]
    exact Std.TransCmp.lt_trans
  | .const c, .const d, .const e => by
    rw [compare_const, compare_const, compare_const]
    exact Std.TransCmp.lt_trans
  | .app f ts, .app g us, .app k ws => by
    simp only [compare_app, Ordering.then_eq_lt, Std.compare_eq_iff_eq]
    rintro (h | ⟨rfl, h⟩) (h' | ⟨rfl, h'⟩)
    · exact .inl (Std.TransCmp.lt_trans h h')
    · exact .inl h
    · exact .inl h'
    · exact .inr ⟨rfl, compareAll_trans ts us ws h h'⟩
  | .var _, _, .const _ | .var _, _, .app _ _ | .const _, _, .app _ _ => fun _ _ => rfl
  | _, .const _, .var _ | _, .app _ _, .var _ | _, .app _ _, .const _ => fun _ h => nomatch h
  | .const _, .var _, _ | .app _ _, .var _, _ | .app _ _, .const _, _ => fun h => nomatch h

/-- What comes before a list comes before all that the list comes before. -/
theorem compareAll_trans : (ts us ws : List Term) → compare ts us = .lt → compare us ws = .lt →
    compare ts ws = .lt
  | [], _, _ :: _ => by simp
  | _ :: _, [], _ => by simp
  | _, [], [] | _, _ :: _, [] => by simp
  | t :: ts, u :: us, w :: ws => by
    simp only [List.compare_cons_cons, Ordering.then_eq_lt, compare_eq_eq_iff]
    rintro (h | ⟨rfl, h⟩) (h' | ⟨rfl, h'⟩)
    · exact .inl (compare_trans t u w h h')
    · exact .inl h
    · exact .inl h'
    · exact .inr ⟨rfl, compareAll_trans ts us ws h h'⟩

end

instance : Std.TransOrd Term where
  eq_swap := compare_eq_swap _ _
  isLE_trans := by
    intro t u w htu huw
    rw [Ordering.isLE_iff_eq_lt_or_eq_eq, compare_eq_eq_iff] at htu huw
    rcases htu with htu | rfl
    · rcases huw with huw | rfl
      · rw [compare_trans t u w htu huw]
        rfl
      · rw [htu]
        rfl
    · rwa [Ordering.isLE_iff_eq_lt_or_eq_eq, compare_eq_eq_iff]

instance : Std.LawfulEqOrd Term where
  eq_of_compare := (compare_eq_eq_iff _ _).1

theorem compare_eq_gt_iff {t u : Term} : compare t u = .gt ↔ u.Before t := by
  rw [Std.OrientedCmp.gt_iff_lt, compare_eq_lt_iff]

theorem Before.trans {t u w : Term} (htu : t.Before u) (huw : u.Before w) : t.Before w :=
  (compare_eq_lt_iff t w).1
    (compare_trans t u w ((compare_eq_lt_iff t u).2 htu) ((compare_eq_lt_iff u w).2 huw))

end Term

/-! ## Sorted relations -/

namespace Relation

/-- The tuples that are sorted are those of the relation. -/
theorem sorted_perm (r : Relation) : r.sorted.Perm r.tuples :=
  List.mergeSort_perm _ _

theorem pairwise_sorted (r : Relation) : r.sorted.Pairwise fun t u => (compare t u).isLE = true := by
  refine List.pairwise_mergeSort (fun t u w => Std.TransCmp.isLE_trans) (fun t u => ?_) _
  rw [Bool.or_eq_true, or_iff_not_imp_left]
  exact fun h => Ordering.isLE_of_eq_lt (Std.OrientedCmp.lt_of_not_isLE h)

/-- Relations with the same tuples are sorted into the same list. -/
theorem sorted_eq_sorted_iff {r s : Relation} :
    r.sorted = s.sorted ↔ ∀ t, t ∈ r.tuples ↔ t ∈ s.tuples := by
  constructor
  · intro h t
    rw [← r.sorted_perm.mem_iff, ← s.sorted_perm.mem_iff, h]
  · intro h
    have hperm : r.tuples.Perm s.tuples := (List.perm_ext_iff_of_nodup r.nodup s.nodup).2 h
    refine List.Perm.eq_of_pairwise ?_ r.pairwise_sorted s.pairwise_sorted
      ((r.sorted_perm.trans hperm).trans s.sorted_perm.symm)
    intro t u _ _ htu hut
    exact Std.LawfulEqCmp.eq_of_compare (Std.OrientedCmp.isLE_antisymm htu hut)

theorem insert_eq_ok {r : Relation} {t : Tuple} (h : t.length = r.arity) :
    (r.insert t).map (·.2) = .ok (r.add t h) := by
  rw [insert, dif_pos h]
  rfl

/-- Tuples of the right length are stored one after the other. -/
theorem exists_foldlM_insert {ts : List Tuple} {r : Relation} (h : ∀ t ∈ ts, t.length = r.arity) :
    ∃ s, ts.foldlM (fun r t => (r.insert t).map (·.2)) r = .ok s ∧ s.arity = r.arity ∧
      ∀ t, t ∈ s.tuples ↔ t ∈ r.tuples ∨ t ∈ ts := by
  induction ts generalizing r with
  | nil => exact ⟨r, rfl, rfl, by simp⟩
  | cons u ts ih =>
    obtain ⟨hu, hts⟩ := List.forall_mem_cons.1 h
    obtain ⟨s, hs, harity, hmem⟩ := ih (r := r.add u hu) (by rwa [arity_add])
    refine ⟨s, ?_, by rw [harity, arity_add], fun t => ?_⟩
    · rw [List.foldlM_cons, insert_eq_ok hu]
      exact hs
    · rw [hmem, mem_tuples_add, List.mem_cons]
      tauto

theorem exists_ofTuples {arity : Nat} {ts : List Tuple} (h : ∀ t ∈ ts, t.length = arity) :
    ∃ r, ofTuples arity ts = .ok r ∧ r.arity = arity ∧ ∀ t, t ∈ r.tuples ↔ t ∈ ts := by
  obtain ⟨r, hr, harity, hmem⟩ := exists_foldlM_insert (r := empty arity) h
  exact ⟨r, hr, harity, fun t => by simp [hmem, empty]⟩

/-- Sorted tuples are a canonical form. The comparison of terms is total, calls terms level only if
they are the same, and otherwise goes by the transitive order `Term.Before`. Two relations are
therefore the same exactly if they have the same arity and are sorted into the same list. So are
relations into which tuples have been inserted exactly if the tuples are the same, in whatever order
and however often they come. -/
theorem same_iff_sorted :
    (∀ t u : Term, (compare t u = .lt ↔ t.Before u) ∧ (compare t u = .eq ↔ t = u) ∧
      (compare t u = .gt ↔ u.Before t)) ∧
    (∀ t u w : Term, t.Before u → u.Before w → t.Before w) ∧
    (∀ r s : Relation, r.same s = true ↔ r.arity = s.arity ∧ r.sorted = s.sorted) ∧
    ∀ (arity : Nat) (ts us : List Tuple), (∀ t ∈ ts ++ us, t.length = arity) →
      ∃ r s, ofTuples arity ts = .ok r ∧ ofTuples arity us = .ok s ∧
        (r.same s = true ↔ ∀ t, t ∈ ts ↔ t ∈ us) := by
  refine ⟨fun t u => ?_, fun t u w => Term.Before.trans, fun r s => ?_, fun arity ts us h => ?_⟩
  · exact ⟨Term.compare_eq_lt_iff t u, Term.compare_eq_eq_iff t u, Term.compare_eq_gt_iff⟩
  · rw [same_iff, sorted_eq_sorted_iff]
  · obtain ⟨hts, hus⟩ := List.forall_mem_append.1 h
    obtain ⟨r, hr, hrarity, hrmem⟩ := exists_ofTuples hts
    obtain ⟨s, hs, hsarity, hsmem⟩ := exists_ofTuples hus
    refine ⟨r, s, hr, hs, ?_⟩
    rw [same_iff, hrarity, hsarity, eq_self, true_and]
    simp only [hrmem, hsmem]

/-- Both zeros, a symbol, and applications with one argument and with two: relations of them are
sorted into the same list when the tuples come in another order and more than once. -/
theorem same_iff_sorted_zeros :
    let row (t : Term) : Tuple := [t]
    let zero : Term := .const (.double ⟨0⟩)
    let negativeZero : Term := .const (.double ⟨0x8000000000000000⟩)
    let short : Term := .app "f" [zero]
    let long : Term := .app "f" [zero, negativeZero]
    let ts := [row long, row zero, row (.const (.symbol "a")), row negativeZero, row short]
    (∃ r s, ofTuples 1 ts = .ok r ∧ ofTuples 1 (ts.reverse ++ ts) = .ok s ∧
      r.sorted = s.sorted) ∧
    negativeZero.Before long ∧ compare zero negativeZero = .gt := by
  intro row zero negativeZero short long ts
  obtain ⟨hcompare, htrans, hsame, hinsert⟩ := same_iff_sorted
  obtain ⟨r, s, hr, hs, hiff⟩ := hinsert 1 ts (ts.reverse ++ ts) (by decide)
  have hzeros : negativeZero.Before zero := (hcompare _ _).1.1 (by decide)
  refine ⟨⟨r, s, hr, hs, ?_⟩, ?_, (hcompare _ _).2.2.2 hzeros⟩
  · exact ((hsame r s).1 (hiff.2 fun t => by simp)).2
  · exact htrans _ _ _ hzeros ((hcompare _ _).1.1 (by decide))

end Relation

end Deduction
