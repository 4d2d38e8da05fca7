import Deduction.Safety

/-!
# Scheduling the literals of a body

A body is matched from left to right. Positive literals keep their order. A builtin comes as soon as
it can be evaluated, and a negated literal as soon as its limited variables have values; literals
for which this never happens come last.
-/

namespace Deduction

/-- The first member of a list that satisfies a test, with the list without it. -/
def takeFirst {α : Type} (p : α → Bool) : List α → Option (α × List α)
  | [] => none
  | x :: xs => if p x then some (x, xs) else (takeFirst p xs).map fun r => (r.1, x :: r.2)

/-- Taking a member out makes the list shorter by one. -/
theorem length_of_takeFirst {α : Type} {p : α → Bool} {xs rest : List α} {x : α}
    (h : takeFirst p xs = some (x, rest)) : xs.length = rest.length + 1 := by
  induction xs generalizing rest with
  | nil => simp [takeFirst] at h
  | cons y ys ih =>
    rw [takeFirst] at h
    split at h
    · simp_all
    · obtain ⟨r, hr, e⟩ := Option.map_eq_some_iff.1 h
      injection e with hx hrest
      subst hx hrest
      simp [ih hr]

/-- The conditions under which literals can be matched. -/
structure Schedule where
  /-- The builtins. -/
  registry : Registry
  /-- The limited variables of the body. -/
  limited : List String

namespace Schedule

/-- A literal can be matched when the variables in `bound` have values. -/
def isReady (s : Schedule) (bound : List String) : Literal → Bool
  | .positive _ => true
  | .negative a => a.vars.all fun x => isAnonymous x || x ∉ s.limited || x ∈ bound
  | .builtin c =>
    match s.registry.get? c.name with
    | some b => c.canEvaluate b bound
    | none => false

/-- The variables that a waiting literal gives values to when it is matched. -/
def binds : Literal → List String
  | .builtin c => c.vars
  | _ => []

/-- What becomes of waiting literals. -/
structure Release where
  /-- The literals that have become ready, in the order in which they are matched. -/
  ready : List Literal
  /-- The variables that have values afterwards. -/
  bound : List String
  /-- The literals that are still waiting. -/
  waiting : List Literal

/-- Takes out the first waiting literal that is ready, again and again until there is none. -/
def release (s : Schedule) (bound : List String) (waiting : List Literal) : Release :=
  match h : takeFirst (s.isReady bound) waiting with
  | none => ⟨[], bound, waiting⟩
  | some (l, rest) =>
    have := length_of_takeFirst h
    let later := release s (bound ++ binds l) rest
    { later with ready := l :: later.ready }
termination_by waiting.length

/-- The order in which a body is matched when the variables in `bound` have values and the literals
in `waiting` are still to be placed. -/
def arrange (s : Schedule) (bound : List String) (waiting : List Literal) :
    List Literal → List Literal
  | [] => waiting
  | l :: body =>
    if l.isPositive then
      -- Its variables have values from here on, which may release waiting literals.
      let r := s.release (bound ++ l.vars) waiting
      l :: r.ready ++ arrange s r.bound r.waiting body
    else
      -- The last of the waiting literals; it is released at once if it is ready.
      let r := s.release bound (waiting ++ [l])
      r.ready ++ arrange s r.bound r.waiting body

end Schedule

/-- The literals of a body in the order in which they are matched. -/
def schedule (registry : Registry) (options : SafetyOptions) (body : List Literal) :
    List Literal :=
  Schedule.arrange ⟨registry, limitedVars registry options body⟩ [] [] body

end Deduction
