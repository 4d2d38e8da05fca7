import Deduction.Builtin.Basic

/-!
# Registries of builtins

A registry says which builtin a name stands for. Several names may stand for one builtin.
-/

namespace Deduction

/-- The builtins by the names that they are called with. -/
abbrev Registry := Table String Builtin

namespace Registry

/-- The registry without builtins. -/
def empty : Registry :=
  Table.empty

/-- Registers a builtin under its own name, in place of the one that had the name. -/
def register (registry : Registry) (b : Builtin) : Registry :=
  registry.insert b.name b

/-- Makes another name stand for a registered builtin. Nothing happens if there is none of the given
name. -/
def addName (registry : Registry) (other name : String) : Registry :=
  match registry.get? name with
  | some b => registry.insert other b
  | none => registry

/-- Equality, the comparisons and the arithmetic relations under their long names, and short names
for equality and the comparisons. -/
def standard : Registry :=
  let builtins : List Builtin :=
    [.equality,
      .comparison "NOT_EQUAL" .notEqual, .comparison "LESS" .less,
      .comparison "LESS_EQUAL" .lessEqual, .comparison "GREATER" .greater,
      .comparison "GREATER_EQUAL" .greaterEqual,
      .arithmetic "ADD" .add, .arithmetic "SUBTRACT" .subtract,
      .arithmetic "MULTIPLY" .multiply, .arithmetic "DIVIDE" .divide,
      .arithmetic "MODULUS" .modulus]
  let aliases :=
    [("EQ", "EQUAL"), ("NE", "NOT_EQUAL"), ("LT", "LESS"), ("LE", "LESS_EQUAL"),
      ("GT", "GREATER"), ("GE", "GREATER_EQUAL")]
  aliases.foldl (fun registry a => registry.addName a.1 a.2) (builtins.foldl register empty)

/-- The text of a registry: the registered names in ascending order. -/
def text (registry : Registry) : String :=
  "BuiltinRegistry \x7b builtins: [" ++
    Text.join ", " ((sortNames registry.keys).map Text.quote) ++ "] \x7d"

end Registry

end Deduction
