/-!
# Repeating a step until nothing changes

A step is repeated a bounded number of times, and no further once it changes nothing.
-/

namespace Deduction

/-- The result of at most `n` steps, of which the last one is the first that changes nothing. -/
def settle {α : Type} [DecidableEq α] (step : α → α) : (n : Nat) → α → α
  | 0, x => x
  | n + 1, x =>
    let y := step x
    if y = x then x else settle step n y

/-- Steps that change nothing lead nowhere. -/
theorem repeat_of_eq {α : Type} {step : α → α} {x : α} (h : step x = x) (n : Nat) :
    Nat.repeat step n x = x := by
  induction n with
  | zero => rfl
  | succ n ih => exact (congrArg step ih).trans h

/-- A step may be taken before the others. -/
theorem repeat_succ' {α : Type} (step : α → α) (n : Nat) (x : α) :
    Nat.repeat step (n + 1) x = Nat.repeat step n (step x) := by
  induction n with
  | zero => rfl
  | succ n ih => exact congrArg step ih

/-- Stopping early makes no difference. -/
theorem settle_eq_repeat {α : Type} [DecidableEq α] (step : α → α) (n : Nat) (x : α) :
    settle step n x = Nat.repeat step n x := by
  induction n generalizing x with
  | zero => rfl
  | succ n ih =>
    rw [settle, repeat_succ']
    split
    · next h => rw [h, repeat_of_eq h]
    · exact ih _

end Deduction
