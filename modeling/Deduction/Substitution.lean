import Deduction.Clause
import Deduction.Table

/-!
# Substitutions

A substitution binds variables to terms. Bound terms may mention further bound variables; applying a
substitution follows such chains to their end.

The length of a chain is bounded by the number of bindings: without a cycle no variable occurs twice
in it. `Substitution.resolve` therefore recurses on that number.
-/

namespace Deduction

/-- A finite map from variables to terms. -/
abbrev Substitution := Table String Term

namespace Substitution

/-- The substitution that binds nothing. -/
def empty : Substitution :=
  Table.empty

/-- Binds a variable, in place of its present binding if it has one. -/
def bind (s : Substitution) (x : String) (t : Term) : Substitution :=
  s.insert x t

/-- The bindings in ascending order of the variables. -/
def toSortedList (s : Substitution) : List (String × Term) :=
  s.entries.mergeSort fun b c => (compare b.1 c.1).isLE

/-- The term that a variable stands for, along chains of at most `n` bindings. -/
def resolve (s : Substitution) : (n : Nat) → String → Term
  | 0, x => .var x
  | n + 1, x =>
    match s.get? x with
    | some t => t.replace (resolve s n)
    | none => .var x

/-- The term with every bound variable replaced by what it stands for. -/
def apply (s : Substitution) (t : Term) : Term :=
  t.replace (s.resolve s.size)

/-- The terms with every bound variable replaced by what it stands for. -/
def applyAll (s : Substitution) (ts : List Term) : List Term :=
  ts.map s.apply

/-- The atom with every bound variable replaced by what it stands for. -/
def applyAtom (s : Substitution) (a : Atom) : Atom :=
  ⟨a.predicate, s.applyAll a.terms⟩

/-- A binding replaces what was known of its variable, and nothing else. -/
theorem get?_bind (s : Substitution) (x y : String) (t : Term) :
    (s.bind x t).get? y = if y = x then some t else s.get? y :=
  Table.get?_insert s x y t

end Substitution

end Deduction
