import Mathlib.Order.Bounds.Basic
import Deduction.Proofs.Safety

/-!
# Limited variables are a least fixpoint

The loop that computes the limited variables of a body goes on as long as a pass adds something
(`Settles`). It comes to an end, with the least of the sets that contain the variables of the
positive literals and, together with what a call needs, all variables of the call (`LimitsAll`).
This set does not depend on how often and in which order the body lists its literals, and grows
with them (`limitedVars_isLeast`).
-/

namespace Deduction

/-! ## Loops -/

/-- A step that is repeated as long as it changes something leads from one value to another. -/
inductive Settles {α : Type} (step : α → α) : α → α → Prop where
  /-- The step changes nothing. -/
  | stop {x : α} (h : step x = x) : Settles step x x
  /-- The step has changed something, and is repeated. -/
  | again {x y : α} (h : step x ≠ x) (hrest : Settles step (step x) y) : Settles step x y

/-- A bounded loop whose result a further step would not change has run to its end. -/
theorem settles_settle {α : Type} [DecidableEq α] {step : α → α} {n : Nat} {x : α}
    (h : step (settle step n x) = settle step n x) : Settles step x (settle step n x) := by
  induction n generalizing x with
  | zero => exact .stop h
  | succ n ih =>
    rw [settle] at h ⊢
    split
    · next hx => exact .stop hx
    · next hx =>
      rw [if_neg hx] at h
      exact .again hx (ih h)

/-! ## Sets of limited variables -/

variable {registry : Registry} {options : SafetyOptions} {body body' : List Literal}
  {names : Set String} {x : String}

open scoped Classical in
/-- A set contains the variables of the positive literals of a body, and all variables of a call as
soon as the call can be evaluated from it, if builtins of its mode limit what they compute. -/
structure LimitsAll (registry : Registry) (options : SafetyOptions) (body : List Literal)
    (names : Set String) : Prop where
  /-- The variables of positive literals belong to the set. -/
  positive : ∀ a, .positive a ∈ body → ∀ x ∈ a.vars, x ∈ names
  /-- If a call can be evaluated when exactly the terms whose variables belong to the set have
  values, then all its variables belong to the set. -/
  call : ∀ c b, .builtin c ∈ body → registry.get? c.name = some b →
    (b.mode = .equality ∨
      (b.mode = .solvable ∨ b.mode = .function) ∧ options.ternaryTargetsImplyLimited = true) →
    b.mode.canEvaluate (c.terms.map fun t => decide (∀ x ∈ t.occurrences, x ∈ names)) = true →
    ∀ x ∈ c.vars, x ∈ names

/-- The limited variables of a body. -/
def limitedSet (registry : Registry) (options : SafetyOptions) (body : List Literal) :
    Set String :=
  {x | x ∈ limitedVars registry options body}

theorem Mode.limits_iff {mode : Mode} :
    mode.limits options = true ↔ mode = .equality ∨
      (mode = .solvable ∨ mode = .function) ∧ options.ternaryTargetsImplyLimited = true := by
  cases mode <;> simp [limits]

open scoped Classical in
/-- Whether a call can be evaluated depends on which of its own variables are known. -/
theorem BuiltinCall.canEvaluate_iff_of_mem_iff {c : BuiltinCall} {b : Builtin}
    {known : List String} (h : ∀ x ∈ c.vars, x ∈ known ↔ x ∈ names) :
    c.canEvaluate b known = true ↔
      b.mode.canEvaluate (c.terms.map fun t => decide (∀ x ∈ t.occurrences, x ∈ names)) = true := by
  have hterms : c.terms.map (·.isCoveredBy known) =
      c.terms.map fun t => decide (∀ x ∈ t.occurrences, x ∈ names) := by
    refine List.map_congr_left fun t ht => ?_
    rw [Bool.eq_iff_iff, Term.isCoveredBy_iff, decide_eq_true_eq]
    exact forall₂_congr fun x hx => h x (Term.mem_varsAll.2 ⟨t, ht, hx⟩)
  rw [canEvaluate, hterms]

/-- What the loop returns is such a set. -/
theorem limitsAll_limitedSet :
    LimitsAll registry options body (limitedSet registry options body) where
  positive a ha x hx := mem_limitedVars_of_positive (mem_positiveVars.2 ⟨a, ha, hx⟩)
  call c b hc hb hmode hevaluate x hx := by
    have hknown := (BuiltinCall.canEvaluate_iff_of_mem_iff fun _ _ => Iff.rfl).2 hevaluate
    exact isLimitClosed_limitedVars _ hc x
      (Literal.mem_limits_iff.2 ⟨c, b, rfl, hb, Mode.limits_iff.2 hmode, hknown, hx⟩)

open scoped Classical in
/-- The loop stays within every such set. -/
theorem LimitsAll.limitedSet_subset (h : LimitsAll registry options body names) :
    limitedSet registry options body ⊆ names := by
  -- Only the variables of the body matter, and they can be listed.
  let closed := (body.flatMap Literal.vars).filter (· ∈ names)
  have hclosed : ∀ l ∈ body, ∀ y ∈ l.vars, y ∈ closed ↔ y ∈ names := by
    intro l hl y hy
    simp only [closed, List.mem_filter, decide_eq_true_eq, and_iff_right_iff_imp]
    exact fun _ => List.mem_flatMap.2 ⟨l, hl, hy⟩
  intro x hx
  have hmem : x ∈ closed := by
    refine mem_of_mem_limitedVars (fun y hy => ?_) (fun l hl y hy => ?_) hx
    · obtain ⟨a, ha, hy⟩ := mem_positiveVars.1 hy
      exact (hclosed _ ha y hy).2 (h.positive a ha y hy)
    · obtain ⟨c, b, rfl, hb, hlimits, hevaluate, hy⟩ := Literal.mem_limits_iff.1 hy
      refine (hclosed _ hl y hy).2 (h.call c b hl hb (Mode.limits_iff.1 hlimits) ?_ y hy)
      exact (BuiltinCall.canEvaluate_iff_of_mem_iff (hclosed _ hl)).1 hevaluate
  exact of_decide_eq_true (List.mem_filter.1 hmem).2

theorem settles_limitedVars : Settles (limitPass registry options body)
    (positiveVars body).eraseDups (limitedVars registry options body) :=
  settles_settle (limitPass_eq_self isLimitClosed_limitedVars)

/-! ## Other bodies and options -/

/-- Less is asked of a set by fewer literals, and by options under which builtins limit less. -/
theorem LimitsAll.mono {options' : SafetyOptions} (hbody : ∀ l ∈ body, l ∈ body')
    (hoptions : options.ternaryTargetsImplyLimited = true →
      options'.ternaryTargetsImplyLimited = true)
    (h : LimitsAll registry options' body' names) : LimitsAll registry options body names where
  positive a ha := h.positive a (hbody _ ha)
  call c b hc hb hmode := by
    refine h.call c b (hbody _ hc) hb ?_
    exact hmode.imp_right fun hternary => ⟨hternary.1, hoptions hternary.2⟩

theorem limitedSet_mono {options' : SafetyOptions} (hbody : ∀ l ∈ body, l ∈ body')
    (hoptions : options.ternaryTargetsImplyLimited = true →
      options'.ternaryTargetsImplyLimited = true) :
    limitedSet registry options body ⊆ limitedSet registry options' body' :=
  (limitsAll_limitedSet.mono hbody hoptions).limitedSet_subset

/-- Limited variables are a least fixpoint. The loop over the body ends, and returns the least set
that contains the variables of the positive literals and, as soon as a call can be evaluated from
it, all variables of the call. Bodies with the same literals, listed in any order and any number of
times, have the same limited variables. More literals limit at least as many variables, and so do
the same literals when arithmetic limits the argument that it computes. -/
theorem limitedVars_isLeast (registry : Registry) (options : SafetyOptions)
    (body : List Literal) :
    Settles (limitPass registry options body) (positiveVars body).eraseDups
      (limitedVars registry options body) ∧
    IsLeast {names | LimitsAll registry options body names} (limitedSet registry options body) ∧
    (∀ body' : List Literal, (∀ l, l ∈ body' ↔ l ∈ body) →
      limitedSet registry options body' = limitedSet registry options body) ∧
    (∀ body' : List Literal, (∀ l ∈ body, l ∈ body') →
      limitedSet registry options body ⊆ limitedSet registry options body') ∧
    limitedSet registry options body ⊆
      limitedSet registry { options with ternaryTargetsImplyLimited := true } body := by
  refine ⟨settles_limitedVars, ⟨limitsAll_limitedSet, fun names h => h.limitedSet_subset⟩,
    fun body' h => ?_, fun body' h => limitedSet_mono h id, ?_⟩
  · exact Set.Subset.antisymm (limitedSet_mono (fun l => (h l).1) id)
      (limitedSet_mono (fun l => (h l).2) id)
  · exact limitedSet_mono (fun _ => id) fun _ => rfl

/-- A chain of calls that is written from its end to its beginning limits all its variables, as it
does when it is turned around. Without arithmetic only equalities carry on from literal to
literal. -/
theorem limitedVars_isLeast_chain :
    let one : Term := .const (.integer 1)
    let sum : Literal := .builtin ⟨"ADD", [.var "Z", one, .var "W"]⟩
    let equal (x : String) (t : Term) : Literal := .builtin ⟨"EQUAL", [.var x, t]⟩
    let body := [sum, equal "Z" (.var "Y"), equal "Y" (.app "f" [.var "X", one]),
      .positive ⟨.plain "p" 1, [.var "X"]⟩]
    let equalities : SafetyOptions := { ternaryTargetsImplyLimited := false }
    (∀ names, LimitsAll .standard {} body names → "W" ∈ names) ∧
      "W" ∈ limitedSet .standard {} body.reverse ∧
      "Z" ∈ limitedSet .standard equalities (sum :: body) ∧
      "W" ∉ limitedSet .standard equalities body := by
  intro one sum equal body equalities
  have hsum : "W" ∈ limitedSet .standard {} body := by
    change "W" ∈ limitedVars .standard {} body
    decide +kernel
  have hequal : "Z" ∈ limitedSet .standard equalities body := by
    change "Z" ∈ limitedVars .standard equalities body
    decide +kernel
  obtain ⟨-, hleast, hsame, -⟩ := limitedVars_isLeast .standard {} body
  obtain ⟨-, -, -, hmore, -⟩ := limitedVars_isLeast .standard equalities body
  refine ⟨fun names h => hleast.2 h hsum, ?_, hmore (sum :: body) ?_ hequal, ?_⟩
  · rw [hsame body.reverse fun l => List.mem_reverse]
    exact hsum
  · exact fun l => .tail sum
  · change "W" ∉ limitedVars .standard equalities body
    decide +kernel

end Deduction
