import Mathlib.Data.Nat.Find
import Mathlib.Order.Bounds.Basic
import Deduction.Proofs.Lists
import Deduction.Proofs.Magic.Passing

/-!
# The order of calls

The literals of a body are called in an order in which positive literals keep their places, and each
other literal comes as early as its variables allow: after the shortest part of the positive
literals that binds them, but not before it is reached (`isCallOrder_orderLiterals`).

When a part of the body has been looked at, the literals that wait are those of its literals that
the positive ones among them do not serve (`waitingAfter`). What the next literal adds to the order
is itself or nothing, and what waits for it (`calledAt`, `callsAfter_cons`); each fact about the
order is an induction over these steps.
-/

namespace Deduction

variable {known : List String} {body before rest : List Literal} {l m : Literal} {i n : Nat}

/-! ## When literals are served -/

/-- The variables of a literal that need a value have one once the first positive literals of a body
have been called. -/
def Literal.IsServedAfter (known : List String) (body : List Literal) (n : Nat) (l : Literal) :
    Prop :=
  ∀ x ∈ l.namedVars, x ∈ known ∨ ∃ m ∈ (body.filter Literal.isPositive).take n, x ∈ m.vars

instance (known : List String) (body : List Literal) (n : Nat) (l : Literal) :
    Decidable (l.IsServedAfter known body n) :=
  inferInstanceAs (Decidable (∀ _ ∈ _, _ ∨ ∃ _ ∈ _, _))

/-- The variables of a literal that need a value are known or occur in positive literals of a
body. -/
def Literal.CanBeServed (known : List String) (body : List Literal) (l : Literal) : Prop :=
  ∀ x ∈ l.namedVars, x ∈ known ∨ ∃ m ∈ body, m.isPositive = true ∧ x ∈ m.vars

instance (known : List String) (body : List Literal) (l : Literal) :
    Decidable (l.CanBeServed known body) :=
  inferInstanceAs (Decidable (∀ _ ∈ _, _ ∨ ∃ _ ∈ _, _ ∧ _))

theorem Literal.IsServedAfter.mono {k : Nat} (h : l.IsServedAfter known body n) (hle : n ≤ k) :
    l.IsServedAfter known body k := fun x hx =>
  (h x hx).imp_right fun ⟨m, hm, hxm⟩ => ⟨m, List.take_subset_take_left _ hle hm, hxm⟩

/-- The positive literals of the first part of a body are the first ones. -/
theorem Literal.isServedAfter_append_iff :
    l.IsServedAfter known (before ++ rest) (before.countP Literal.isPositive) ↔
      l.CanBeServed known before := by
  rw [IsServedAfter, List.filter_append, List.countP_eq_length_filter, List.take_left]
  simp only [List.mem_filter, and_assoc, CanBeServed]

/-- The named variables of the positive literals of a body. -/
def passedBy (body : List Literal) : List String :=
  (body.filter Literal.isPositive).flatMap Literal.namedVars

theorem Literal.isServedBy_iff :
    l.isServedBy (known ++ passedBy body) = true ↔ l.CanBeServed known body := by
  simp only [isServedBy, List.all_eq_true, decide_eq_true_eq, List.mem_append, passedBy,
    List.mem_flatMap, List.mem_filter, and_assoc]
  refine forall₂_congr fun x hx => or_congr_right ?_
  -- A variable that needs a value is a named one.
  have hnamed : ∀ m : Literal, x ∈ m.namedVars ↔ x ∈ m.vars := fun m => by
    have hx := PassingGraph.not_isAnonymous_of_mem_namedVars hx
    rw [PassingGraph.mem_namedVars, and_iff_left hx]
  simp only [hnamed]

/-! ## One literal after the other -/

/-- The literals of a body, with their positions, that are still waiting when its positive literals
have been called. -/
def waitingAfter (known : List String) (body : List Literal) : List (Literal × Nat) :=
  body.zipIdx.filter fun x => !x.1.isPositive && !x.1.isServedBy (known ++ passedBy body)

/-- What is called when a literal is reached after a part of the body: a positive literal with those
that have been waiting for it, and any other one if it does not have to wait. -/
def calledAt (known : List String) (before : List Literal) (l : Literal) : List (Literal × Nat) :=
  if l.isPositive then
    (l, before.length) :: (waitingAfter known before).filter
      (·.1.isServedBy (known ++ passedBy (before ++ [l])))
  else if l.isServedBy (known ++ passedBy before) then [(l, before.length)]
  else []

/-- The order of the calls that are made after a part of the body has been looked at. -/
def callsAfter (known : List String) (before rest : List Literal) : List (Literal × Nat) :=
  orderFrom (known ++ passedBy before) (waitingAfter known before) (rest.zipIdx before.length)

theorem orderLiterals_eq_callsAfter : orderLiterals known body = callsAfter known [] body := by
  simp [orderLiterals, callsAfter, passedBy, waitingAfter]

theorem callsAfter_nil : callsAfter known before [] = waitingAfter known before :=
  rfl

theorem passedBy_concat_of_pos (hl : l.isPositive = true) :
    passedBy (before ++ [l]) = passedBy before ++ l.namedVars := by
  simp [passedBy, List.filter_append, hl]

theorem passedBy_concat_of_neg (hl : l.isPositive = false) :
    passedBy (before ++ [l]) = passedBy before := by
  simp [passedBy, List.filter_append, hl]

/-- Those that a further positive literal does not serve go on waiting. -/
theorem waitingAfter_concat_of_pos (hl : l.isPositive = true) :
    waitingAfter known (before ++ [l]) = (waitingAfter known before).filter
      fun x => !x.1.isServedBy (known ++ passedBy (before ++ [l])) := by
  have hmono : ∀ m : Literal, m.isServedBy (known ++ passedBy before) = true →
      m.isServedBy (known ++ passedBy (before ++ [l])) = true := by
    simp only [Literal.isServedBy_iff]
    exact fun m hm x hx => (hm x hx).imp_right fun ⟨m', hm', h⟩ =>
      ⟨m', List.mem_append_left _ hm', h⟩
  have hlast : ([l].zipIdx (0 + before.length)).filter (fun x => !x.1.isPositive &&
      !x.1.isServedBy (known ++ passedBy (before ++ [l]))) = [] := by
    simp [hl]
  rw [waitingAfter, waitingAfter, List.filter_filter, List.zipIdx_append, List.filter_append, hlast,
    List.append_nil]
  refine List.filter_congr fun x _ => ?_
  -- What has been served before is still served.
  cases hserved : x.1.isServedBy (known ++ passedBy before) with
  | false => simp [Bool.and_comm]
  | true => simp [hmono _ hserved]

/-- Any other literal waits if it is not served when it is reached. -/
theorem waitingAfter_concat_of_neg (hl : l.isPositive = false) :
    waitingAfter known (before ++ [l]) = waitingAfter known before ++
      if l.isServedBy (known ++ passedBy before) then [] else [(l, before.length)] := by
  rw [waitingAfter, waitingAfter, passedBy_concat_of_neg hl, List.zipIdx_append,
    List.filter_append]
  cases hserved : l.isServedBy (known ++ passedBy before) <;> simp [hl, hserved]

/-- The calls are made literal by literal. -/
theorem callsAfter_cons :
    callsAfter known before (l :: rest) =
      calledAt known before l ++ callsAfter known (before ++ [l]) rest := by
  rw [callsAfter, List.zipIdx_cons, orderFrom, callsAfter, List.length_append,
    List.length_singleton, calledAt]
  cases hl : l.isPositive with
  | true =>
    simp only [if_true, List.partition_eq_filter_filter, List.append_assoc,
      ← passedBy_concat_of_pos hl, waitingAfter_concat_of_pos hl]
    rfl
  | false =>
    rw [waitingAfter_concat_of_neg hl, passedBy_concat_of_neg hl]
    cases hserved : l.isServedBy (known ++ passedBy before) <;> simp

/-! ## The order -/

/-- Literals that wait are not positive. -/
theorem isPositive_of_mem_waitingAfter {x : Literal × Nat} (h : x ∈ waitingAfter known body) :
    x.1.isPositive = false := by
  simpa using (Bool.and_eq_true_iff.1 (List.mem_filter.1 h).2).1

theorem mem_waitingAfter_iff :
    (l, i) ∈ waitingAfter known body ↔
      body[i]? = some l ∧ l.isPositive = false ∧ ¬l.CanBeServed known body := by
  rw [waitingAfter, List.mem_filter, List.mem_zipIdx_iff_getElem?, ← Literal.isServedBy_iff]
  simp

/-- A literal is called with its own position among the positive ones. -/
theorem filter_isPositive_calledAt :
    (calledAt known before l).filter (·.1.isPositive) =
      if l.isPositive then [(l, before.length)] else [] := by
  have hnone : ((waitingAfter known before).filter
      (·.1.isServedBy (known ++ passedBy (before ++ [l])))).filter (·.1.isPositive) = [] := by
    refine List.filter_eq_nil_iff.2 fun x hx => ?_
    simp [isPositive_of_mem_waitingAfter (List.mem_filter.1 hx).1]
  rw [calledAt]
  cases hl : l.isPositive with
  | true => rw [if_pos rfl, if_pos rfl, List.filter_cons_of_pos (by simpa using hl), hnone]
  | false =>
    simp only [Bool.false_eq_true, if_false]
    split <;> simp [hl]

theorem filter_isPositive_callsAfter :
    (callsAfter known before rest).filter (·.1.isPositive) =
      (rest.zipIdx before.length).filter (·.1.isPositive) := by
  induction rest generalizing before with
  | nil =>
    exact List.filter_eq_nil_iff.2 fun x hx => by simp [isPositive_of_mem_waitingAfter hx]
  | cons l rest ih =>
    rw [callsAfter_cons, List.filter_append, filter_isPositive_calledAt, ih, List.zipIdx_cons,
      List.filter_cons, List.length_append, List.length_singleton]
    split <;> rfl

/-- The literals that are never served come last. -/
theorem exists_callsAfter_eq_append (known : List String) (before rest : List Literal) :
    ∃ early, callsAfter known before rest = early ++ waitingAfter known (before ++ rest) := by
  induction rest generalizing before with
  | nil => exact ⟨[], by rw [callsAfter_nil, List.append_nil, List.nil_append]⟩
  | cons l rest ih =>
    obtain ⟨early, heq⟩ := ih (before ++ [l])
    refine ⟨calledAt known before l ++ early, ?_⟩
    rw [callsAfter_cons, heq, ← List.append_cons, List.append_assoc]

/-- The number of positive literals after which a literal is called: those that stand before it in
the body, or the least number of positive literals that give values to its variables, whichever is
greater. -/
def Literal.IsDueAfter (known : List String) (body : List Literal) (i count : Nat) (l : Literal) :
    Prop :=
  ∃ n, IsLeast {n | l.IsServedAfter known body n} n ∧
    count = max ((body.take i).countP Literal.isPositive) n

/-- A literal that does not wait is called where it stands. -/
theorem isDueAfter_of_served (h : l.CanBeServed known before) :
    l.IsDueAfter known (before ++ l :: rest) before.length
      (before.countP Literal.isPositive) := by
  have hserved : l.IsServedAfter known (before ++ l :: rest) (before.countP Literal.isPositive) :=
    Literal.isServedAfter_append_iff.2 h
  have hexists : ∃ n, l.IsServedAfter known (before ++ l :: rest) n := ⟨_, hserved⟩
  refine ⟨Nat.find hexists, ⟨Nat.find_spec hexists, fun n hn => Nat.find_min' hexists hn⟩, ?_⟩
  rw [List.take_left, max_eq_left (Nat.find_min' hexists hserved)]

/-- A literal that waits is called after the positive literal that serves it. -/
theorem isDueAfter_of_waiting (hl : (l, i) ∈ waitingAfter known before)
    (hm : m.isPositive = true) (h : l.CanBeServed known (before ++ [m])) :
    l.IsDueAfter known (before ++ m :: rest) i (before.countP Literal.isPositive + 1) := by
  obtain ⟨hi, -, hnot⟩ := mem_waitingAfter_iff.1 hl
  have hcount : (before ++ [m]).countP Literal.isPositive =
      before.countP Literal.isPositive + 1 := by
    rw [List.countP_append, List.countP_singleton, if_pos hm]
  refine ⟨before.countP Literal.isPositive + 1, ⟨?_, fun n hn => ?_⟩, ?_⟩
  · rw [List.append_cons, Set.mem_ofPred, ← hcount]
    exact Literal.isServedAfter_append_iff.2 h
  · -- Fewer positive literals are those before it, which do not serve it.
    by_contra hlt
    exact hnot (Literal.isServedAfter_append_iff.1 (Literal.IsServedAfter.mono hn (by omega)))
  · have hlength : i < before.length := (List.getElem?_eq_some_iff.1 hi).1
    rw [List.take_append_of_le_length (Nat.le_of_lt hlength)]
    have := (List.take_sublist i before).countP_le (p := Literal.isPositive)
    omega

/-- A literal that is not positive is called after as many positive literals as it needs, or as stand
before it. -/
theorem isDueAfter_of_calledAt {xs ys : List (Literal × Nat)}
    (h : calledAt known before m = xs ++ (l, i) :: ys) (hl : l.isPositive = false) :
    l.IsDueAfter known (before ++ m :: rest) i
      (before.countP Literal.isPositive + xs.countP (·.1.isPositive)) := by
  rw [calledAt] at h
  split at h
  · next hm =>
    rcases List.cons_eq_append_iff.1 h with ⟨-, h⟩ | ⟨xs, rfl, hwaiting⟩
    · obtain ⟨heq, -⟩ := List.cons.inj h
      obtain ⟨rfl, -⟩ := Prod.mk.inj heq
      rw [hm] at hl
      cases hl
    · -- None of the literals that have waited is positive.
      have hmem : ∀ x ∈ xs ++ (l, i) :: ys, x ∈ waitingAfter known before ∧
          x.1.isServedBy (known ++ passedBy (before ++ [m])) = true := fun x hx =>
        List.mem_filter.1 (hwaiting ▸ hx)
      have hxs : xs.countP (·.1.isPositive) = 0 := List.countP_eq_zero.2 fun x hx => by
        simp [isPositive_of_mem_waitingAfter (hmem x (List.mem_append_left _ hx)).1]
      obtain ⟨hlwaiting, hserved⟩ := hmem (l, i) (List.mem_append_right _ (.head _))
      rw [List.countP_cons, hxs, if_pos hm]
      exact isDueAfter_of_waiting hlwaiting hm (Literal.isServedBy_iff.1 hserved)
  · split at h
    · next hserved =>
      obtain ⟨rfl, hlast⟩ | ⟨-, hnil⟩ := List.singleton_eq_append_iff.1 h
      · obtain ⟨heq, -⟩ := List.cons.inj hlast
        obtain ⟨rfl, rfl⟩ := Prod.mk.inj heq
        exact isDueAfter_of_served (Literal.isServedBy_iff.1 hserved)
      · cases hnil
    · exact absurd h (by simp)

theorem isDueAfter_of_callsAfter {xs ys : List (Literal × Nat)}
    (h : callsAfter known before rest = xs ++ (l, i) :: ys) (hl : l.isPositive = false)
    (hserved : l.CanBeServed known (before ++ rest)) :
    l.IsDueAfter known (before ++ rest) i
      (before.countP Literal.isPositive + xs.countP (·.1.isPositive)) := by
  induction rest generalizing before xs with
  | nil =>
    -- What has waited until the end is not served.
    have hmem : (l, i) ∈ waitingAfter known before := by
      rw [← callsAfter_nil, h]
      exact List.mem_append_right _ (.head _)
    rw [List.append_nil] at hserved
    exact absurd hserved (mem_waitingAfter_iff.1 hmem).2.2
  | cons m rest ih =>
    rw [callsAfter_cons] at h
    rcases cases_of_append_eq h with ⟨ys, h⟩ | ⟨xs, rfl, hrest⟩
    · exact isDueAfter_of_calledAt h hl
    · rw [List.append_cons] at hserved ⊢
      have hcount : (calledAt known before m).countP (·.1.isPositive) =
          [m].countP Literal.isPositive := by
        rw [List.countP_eq_length_filter, filter_isPositive_calledAt, List.countP_singleton]
        split <;> rfl
      have := ih hrest hserved
      rwa [List.countP_append, Nat.add_assoc, ← hcount, ← List.countP_append] at this

/-- An order of the literals of a body, with their positions, in which each comes as early as its
variables allow. -/
structure IsCallOrder (known : List String) (body : List Literal)
    (order : List (Literal × Nat)) : Prop where
  /-- Every position of the body occurs once, with its literal. -/
  perm : order.Perm body.zipIdx
  /-- Positive literals stand in the order of the body. -/
  positive : order.filter (·.1.isPositive) = body.zipIdx.filter (·.1.isPositive)
  /-- Any other literal whose named variables are known or occur in positive literals comes when it
  is due. -/
  due : ∀ before l i after, order = before ++ (l, i) :: after → l.isPositive = false →
    l.CanBeServed known body → l.IsDueAfter known body i (before.countP (·.1.isPositive))
  /-- The remaining literals stand at the end, in the order of the body. -/
  last : ∃ early, order = early ++
    body.zipIdx.filter fun x => !x.1.isPositive && !decide (x.1.CanBeServed known body)

/-- Every literal is called as early as its variables allow. -/
theorem isCallOrder_orderLiterals (known : List String) (body : List Literal) :
    IsCallOrder known body (orderLiterals known body) where
  perm := orderLiterals_perm known body
  positive := by
    rw [orderLiterals_eq_callsAfter]
    exact filter_isPositive_callsAfter
  due before l i after h hl hserved := by
    rw [orderLiterals_eq_callsAfter] at h
    simpa using isDueAfter_of_callsAfter h hl hserved
  last := by
    obtain ⟨early, heq⟩ := exists_callsAfter_eq_append known [] body
    refine ⟨early, ?_⟩
    rw [orderLiterals_eq_callsAfter, heq]
    simp only [List.nil_append, waitingAfter, ← Literal.isServedBy_iff, Bool.decide_eq_true]

end Deduction
