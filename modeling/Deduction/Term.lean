import Deduction.Value

/-!
# Terms

A term is a variable, a constant, or a function symbol applied to terms. A term without variables is
ground. Tuples, the rows of relations and the argument lists of atoms, are lists of terms.

Functions on terms come in pairs, one on a term and one on the list of its arguments, and recurse on
the structure of both.
-/

namespace Deduction

/-- A term. -/
inductive Term where
  /-- A variable, which stands for any term. -/
  | var (name : String)
  /-- A constant. -/
  | const (value : Value)
  /-- A function symbol applied to arguments. -/
  | app (functor : String) (args : List Term)

/-- The terms of one atom or of one row of a relation. -/
abbrev Tuple := List Term

/-- A variable whose name starts with an underscore: nothing asks for its value. -/
def isAnonymous (name : String) : Bool :=
  name.toList.head? = some '_'

/-- The name of the variable that matches any term and is never bound. -/
def wildcard : String :=
  "_"

/-! ## Equality -/

mutual

/-- Decides the equality of two terms. -/
def Term.decideEq : (t u : Term) → Decidable (t = u)
  | .var x, .var y =>
    if h : x = y then isTrue (h ▸ rfl) else isFalse fun e => h (Term.var.inj e)
  | .const v, .const w =>
    if h : v = w then isTrue (h ▸ rfl) else isFalse fun e => h (Term.const.inj e)
  | .app f ts, .app g us =>
    if h : f = g then
      match Term.decideEqAll ts us with
      | isTrue h' => isTrue (h ▸ h' ▸ rfl)
      | isFalse h' => isFalse fun e => h' (Term.app.inj e).2
    else isFalse fun e => h (Term.app.inj e).1
  | .var _, .const _ | .var _, .app _ _ | .const _, .var _ | .const _, .app _ _
  | .app _ _, .var _ | .app _ _, .const _ => isFalse nofun

/-- Decides the equality of two lists of terms. -/
def Term.decideEqAll : (ts us : List Term) → Decidable (ts = us)
  | [], [] => isTrue rfl
  | t :: ts, u :: us =>
    match Term.decideEq t u, Term.decideEqAll ts us with
    | isTrue h, isTrue h' => isTrue (h ▸ h' ▸ rfl)
    | isFalse h, _ => isFalse fun e => h (List.cons.inj e).1
    | _, isFalse h => isFalse fun e => h (List.cons.inj e).2
  | [], _ :: _ | _ :: _, [] => isFalse nofun

end

instance : DecidableEq Term :=
  Term.decideEq

/-! ## Size, variables and groundness -/

mutual

/-- The number of variables, constants and function symbols of a term. -/
def Term.size : Term → Nat
  | .var _ => 1
  | .const _ => 1
  | .app _ ts => Term.sizeAll ts + 1

/-- The number of variables, constants and function symbols of a list of terms. -/
def Term.sizeAll : List Term → Nat
  | [] => 0
  | t :: ts => t.size + Term.sizeAll ts

end

mutual

/-- The occurrences of variables in a term, from left to right. -/
def Term.occurrences : Term → List String
  | .var x => [x]
  | .const _ => []
  | .app _ ts => Term.occurrencesAll ts

/-- The occurrences of variables in a list of terms, from left to right. -/
def Term.occurrencesAll : List Term → List String
  | [] => []
  | t :: ts => t.occurrences ++ Term.occurrencesAll ts

end

mutual

/-- The term has no variables. -/
def Term.isGround : Term → Bool
  | .var _ => false
  | .const _ => true
  | .app _ ts => Term.areGround ts

/-- None of the terms has variables. -/
def Term.areGround : List Term → Bool
  | [] => true
  | t :: ts => t.isGround && Term.areGround ts

end

namespace Term

/-- The term is a variable. -/
def isVar : Term → Bool
  | var _ => true
  | _ => false

/-- The variables of a term in the order of their first occurrences. -/
def vars (t : Term) : List String :=
  t.occurrences.eraseDups

/-- The variables of a list of terms in the order of their first occurrences. -/
def varsAll (ts : List Term) : List String :=
  (occurrencesAll ts).eraseDups

/-- Every variable of the term is one of `names`. -/
def isCoveredBy (t : Term) (names : List String) : Bool :=
  t.occurrences.all (· ∈ names)

end Term

/-! ## Replacing variables -/

mutual

/-- The term with every variable replaced by the term that `f` gives for it. -/
def Term.replace (f : String → Term) : Term → Term
  | .var x => f x
  | .const v => .const v
  | .app g ts => .app g (Term.replaceAll f ts)

/-- The terms with every variable replaced by the term that `f` gives for it. -/
def Term.replaceAll (f : String → Term) : List Term → List Term
  | [] => []
  | t :: ts => t.replace f :: Term.replaceAll f ts

end

/-! ## Order -/

mutual

/-- The total order of terms: variables before constants before applications; applications by their
function symbols, then by their arguments. -/
def Term.order : Term → Term → Ordering
  | .var x, .var y => compare x y
  | .var _, _ => .lt
  | .const _, .var _ => .gt
  | .const v, .const w => compare v w
  | .const _, .app _ _ => .lt
  | .app f ts, .app g us => (compare f g).then (Term.orderAll ts us)
  | .app _ _, _ => .gt

/-- The lexicographic order of lists of terms. -/
def Term.orderAll : List Term → List Term → Ordering
  | [], [] => .eq
  | [], _ :: _ => .lt
  | _ :: _, [] => .gt
  | t :: ts, u :: us => (Term.order t u).then (Term.orderAll ts us)

end

instance : Ord Term :=
  ⟨Term.order⟩

/-! ## Text -/

mutual

/-- The text of a term: a function symbol is followed by its arguments in brackets. -/
def Term.text : Term → String
  | .var x => x
  | .const v => v.text
  | .app f ts => f ++ "(" ++ Text.join ", " (Term.texts ts) ++ ")"

/-- The texts of a list of terms. -/
def Term.texts : List Term → List String
  | [] => []
  | t :: ts => t.text :: Term.texts ts

end

namespace Term

/-- The text of a list of terms, separated by commas. -/
def textAll (ts : List Term) : String :=
  Text.join ", " (texts ts)

/-! ## Lists of terms, term by term -/

theorem areGround_eq_all (ts : List Term) : areGround ts = ts.all isGround := by
  induction ts with
  | nil => rfl
  | cons t ts ih => simp [areGround, ih]

theorem occurrencesAll_eq_flatMap (ts : List Term) :
    occurrencesAll ts = ts.flatMap occurrences := by
  induction ts with
  | nil => rfl
  | cons t ts ih => simp [occurrencesAll, ih]

theorem replaceAll_eq_map (f : String → Term) (ts : List Term) :
    replaceAll f ts = ts.map (replace f) := by
  induction ts with
  | nil => rfl
  | cons t ts ih => simp [replaceAll, ih]

@[simp]
theorem mem_vars {x : String} {t : Term} : x ∈ t.vars ↔ x ∈ t.occurrences := by
  simp [vars]

@[simp]
theorem mem_varsAll {x : String} {ts : List Term} :
    x ∈ varsAll ts ↔ ∃ t ∈ ts, x ∈ t.occurrences := by
  simp [varsAll, occurrencesAll_eq_flatMap]

/-- Every term has a symbol. -/
theorem size_pos (t : Term) : 0 < t.size := by
  cases t <;> simp [size]

end Term

end Deduction
