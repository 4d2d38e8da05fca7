/-!
# Documents

The values that settings are read from and written to: absent values, truth values, numbers, texts,
lists, and objects with named fields.

A record is read from an object, or from a list of the values of its fields in their order. Fields
may be left out, in a list from the end.
-/

namespace Deduction

/-- A structured value. -/
inductive Document where
  /-- An absent value. -/
  | null
  /-- A truth value. -/
  | boolean (b : Bool)
  /-- A whole number. -/
  | integer (n : Int)
  /-- A number that is not written as a whole number. -/
  | fraction
  /-- A text. -/
  | text (s : String)
  /-- A list of values. -/
  | list (items : List Document)
  /-- Values by the names of their fields. -/
  | object (fields : List (String × Document))

namespace Document

instance : Inhabited Document :=
  ⟨null⟩

/-- The truth value that a document is. -/
def boolean? : Document → Option Bool
  | boolean b => some b
  | _ => none

/-- The whole number from zero to `limit` that a document is. -/
def natural? (limit : Nat) : Document → Option Nat
  | integer n => if 0 ≤ n ∧ n ≤ limit then some n.toNat else none
  | _ => none

/-- A value that may be absent. -/
def optional? {α : Type} (read : Document → Option α) : Document → Option (Option α)
  | null => some none
  | d => (read d).map some

/-- One of several named values: its name, or an object whose only field has this name and no
value. -/
def choice? {α : Type} (choices : List (String × α)) : Document → Option α
  | text s => choices.lookup s
  | object [(s, null)] => choices.lookup s
  | _ => none

/-- The fields of a record by name, where `names` are the names that it has. An object may have
further fields, a list may not. -/
def record? (names : List String) : Document → Option (List (String × Document))
  | object fields => some fields
  | list items => if items.length ≤ names.length then some (names.zip items) else none
  | _ => none

/-- The value of a field, or a default value if there is no such field. -/
def field? {α : Type} (fields : List (String × Document)) (name : String)
    (read : Document → Option α) (default : α) : Option α :=
  match fields.lookup name with
  | some d => read d
  | none => some default

end Document

end Deduction
