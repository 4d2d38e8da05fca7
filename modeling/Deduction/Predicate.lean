import Deduction.Term

/-!
# Predicates

A plain predicate is known by its name and its arity. Answering a query top-down asks for a
predicate under a *call pattern*, which says for each argument whether it is bound when the call is
made. Three further kinds of predicates belong to a call pattern: the adorned predicate, which is
the plain one as seen through the pattern; the magic predicate, which holds the bound arguments of
the calls that are made; and labeled predicates, each of which holds a part of these arguments.

Magic and labeled predicates keep the bound arguments only, so their relations have as many columns
as the pattern has bound positions.
-/

namespace Deduction

/-- Whether an argument has a value when a predicate is called. -/
inductive Binding where
  /-- The argument has a value. -/
  | bound
  /-- The argument is asked for. -/
  | free
deriving DecidableEq

namespace Binding

/-- The place of a binding in the order of bindings. -/
def rank : Binding → Nat
  | bound => 0
  | free => 1

instance : Ord Binding :=
  ⟨compareOn rank⟩

/-- The letter of a binding. -/
def text : Binding → String
  | bound => "b"
  | free => "f"

end Binding

/-- The name of a predicate with one binding for each of its arguments. The number of arguments is
not kept beside the bindings, so that there are no patterns with too many or too few of them. -/
structure CallPattern where
  /-- The name of the predicate that is called. -/
  name : String
  /-- The binding of each argument. -/
  bindings : List Binding
deriving DecidableEq

namespace CallPattern

/-- The number of arguments of a call. -/
def arity (p : CallPattern) : Nat :=
  p.bindings.length

/-- The number of bound arguments of a call. -/
def boundCount (p : CallPattern) : Nat :=
  p.bindings.count .bound

/-- No argument of the call is bound. -/
def isAllFree (p : CallPattern) : Bool :=
  p.boundCount = 0

/-- The pattern of a call whose variables in `known` have values: an argument is bound if all of its
variables have one. -/
def ofTerms (name : String) (terms : List Term) (known : List String) : CallPattern :=
  ⟨name, terms.map fun t => if t.isCoveredBy known then .bound else .free⟩

/-- The members of a list that stand at the bound positions of the pattern. -/
def select {α : Type} (p : CallPattern) (xs : List α) : List α :=
  ((xs.zip p.bindings).filter (·.2 = .bound)).map (·.1)

/-- The order of call patterns: by name, arity and bindings. -/
instance : Ord CallPattern :=
  ⟨compareLex (compareOn name) (compareLex (compareOn arity) (compareOn bindings))⟩

/-- The name, a caret and the letters of the bindings. -/
def text (p : CallPattern) : String :=
  p.name ++ "^" ++ String.join (p.bindings.map Binding.text)

end CallPattern

/-- The identity of a relation. -/
inductive Predicate where
  /-- A predicate of the program. -/
  | plain (name : String) (arity : Nat)
  /-- A predicate restricted to the calls of one pattern. -/
  | adorned (pattern : CallPattern)
  /-- The bound arguments of the calls of one pattern. -/
  | magic (pattern : CallPattern)
  /-- A part of the bound arguments of the calls of one pattern. -/
  | labeled (pattern : CallPattern) (label : Nat)
deriving DecidableEq

namespace Predicate

/-- The name of the plain predicate that a predicate belongs to. -/
def name : Predicate → String
  | plain name _ => name
  | adorned p | magic p | labeled p _ => p.name

/-- The arity of the plain predicate that a predicate belongs to. -/
def plainArity : Predicate → Nat
  | plain _ arity => arity
  | adorned p | magic p | labeled p _ => p.arity

/-- The number of columns of the relation that a predicate names. -/
def arity : Predicate → Nat
  | plain _ arity => arity
  | adorned p => p.arity
  | magic p | labeled p _ => p.boundCount

/-- The predicate is one of the program's own. -/
def isPlain : Predicate → Bool
  | plain _ _ => true
  | _ => false

/-- The call pattern of an adorned predicate. -/
def pattern? : Predicate → Option CallPattern
  | adorned p => some p
  | _ => none

/-- The place of a predicate's kind in the order of kinds. -/
def rank : Predicate → Nat
  | plain _ _ => 0
  | adorned _ => 1
  | magic _ => 2
  | labeled _ _ => 3

/-- The order of predicates of one kind, and of kinds otherwise. -/
def order : Predicate → Predicate → Ordering
  | plain s m, plain t n => (compare s t).then (compare m n)
  | adorned p, adorned q => compare p q
  | magic p, magic q => compare p q
  | labeled p i, labeled q j => (compare p q).then (compare i j)
  | p, q => compare p.rank q.rank

instance : Ord Predicate :=
  ⟨order⟩

/-- The text of a predicate. -/
def text : Predicate → String
  | plain name _ => name
  | adorned p => p.text
  | magic p => "magic_" ++ p.text
  | labeled p label =>
    "label_" ++ CallPattern.text ⟨p.name ++ "_" ++ toString label, p.bindings⟩

/-- The name and the arity of the plain predicate that a predicate belongs to. -/
def signature (p : Predicate) : String :=
  p.name ++ "/" ++ toString p.plainArity

end Predicate

namespace CallPattern

/-- The plain predicate that a call asks for. -/
def plain (p : CallPattern) : Predicate :=
  .plain p.name p.arity

/-- A pattern has a binding for each argument of the call that it was made for. -/
@[simp]
theorem arity_ofTerms (name : String) (terms : List Term) (known : List String) :
    (ofTerms name terms known).arity = terms.length := by
  simp [arity, ofTerms]

/-- There are as many selected arguments as there are bound positions. -/
theorem length_select {α : Type} (p : CallPattern) (xs : List α) (h : xs.length = p.arity) :
    (p.select xs).length = p.boundCount := by
  obtain ⟨name, bindings⟩ := p
  simp only [arity] at h
  simp only [select, boundCount, List.length_map]
  induction xs generalizing bindings with
  | nil => cases bindings <;> simp_all
  | cons x xs ih =>
    cases bindings with
    | nil => simp at h
    | cons b bs =>
      have := ih bs (by simpa using h)
      cases b <;> simp_all

end CallPattern

end Deduction
