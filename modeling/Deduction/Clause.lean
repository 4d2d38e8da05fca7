import Deduction.Predicate

/-!
# Atoms, literals, rules and queries

An atom applies a predicate to terms. The body of a rule and a query are lists of literals: atoms
that have to hold, atoms that have to fail, and calls of builtins, which are computed instead of
looked up. Equality and order are structural.
-/

namespace Deduction

/-- A predicate applied to terms. -/
structure Atom where
  /-- The predicate. -/
  predicate : Predicate
  /-- The arguments. -/
  terms : List Term
deriving DecidableEq

/-- A builtin applied to terms. The name is looked up when the call is evaluated. -/
structure BuiltinCall where
  /-- The name under which the builtin is registered. -/
  name : String
  /-- The arguments. -/
  terms : List Term
deriving DecidableEq

/-- A condition in the body of a rule or in a query. -/
inductive Literal where
  /-- The atom has to match a stored tuple. -/
  | positive (atom : Atom)
  /-- The atom must not match a stored tuple. -/
  | negative (atom : Atom)
  /-- The builtin has to succeed. -/
  | builtin (call : BuiltinCall)
deriving DecidableEq

/-- A head that holds wherever every literal of the body does. -/
structure Rule where
  /-- The atom that the rule derives. -/
  head : Atom
  /-- The conditions of the rule. -/
  body : List Literal
deriving DecidableEq

/-- A list of literals whose solutions are asked for. -/
structure Query where
  /-- The conditions of the query. -/
  body : List Literal
deriving DecidableEq

/-- The names in ascending order and without repeats. -/
def sortNames (names : List String) : List String :=
  names.eraseDups.mergeSort fun x y => (compare x y).isLE

namespace Atom

/-- The variables of an atom in the order of their first occurrences. -/
def vars (a : Atom) : List String :=
  Term.varsAll a.terms

/-- The atom has no variables. -/
def isGround (a : Atom) : Bool :=
  Term.areGround a.terms

/-- The order of atoms: by predicate, then by terms. -/
instance : Ord Atom :=
  ⟨compareLex (compareOn predicate) (compareOn terms)⟩

/-- The text of an atom. -/
def text (a : Atom) : String :=
  a.predicate.text ++ "(" ++ Term.textAll a.terms ++ ")"

end Atom

namespace BuiltinCall

/-- The variables of a call in the order of their first occurrences. -/
def vars (c : BuiltinCall) : List String :=
  Term.varsAll c.terms

/-- The order of calls: by name, then by terms. -/
instance : Ord BuiltinCall :=
  ⟨compareLex (compareOn name) (compareOn terms)⟩

/-- The text of a call. -/
def text (c : BuiltinCall) : String :=
  c.name ++ "(" ++ Term.textAll c.terms ++ ")"

end BuiltinCall

namespace Literal

/-- The atom of a literal that is not a builtin. -/
def atom? : Literal → Option Atom
  | positive a | negative a => some a
  | builtin _ => none

/-- The literal is an atom that has to hold. -/
def isPositive : Literal → Bool
  | positive _ => true
  | _ => false

/-- The literal is an atom that has to fail. -/
def isNegative : Literal → Bool
  | negative _ => true
  | _ => false

/-- The literal calls a builtin. -/
def isBuiltin : Literal → Bool
  | builtin _ => true
  | _ => false

/-- The arguments of a literal. -/
def terms : Literal → List Term
  | positive a | negative a => a.terms
  | builtin c => c.terms

/-- The variables of a literal in the order of their first occurrences. -/
def vars (l : Literal) : List String :=
  Term.varsAll l.terms

/-- The variables of a literal that are not anonymous, in the order of their first occurrences. -/
def namedVars (l : Literal) : List String :=
  l.vars.filter (!isAnonymous ·)

/-- The place of a literal's kind in the order of kinds. -/
def rank : Literal → Nat
  | positive _ => 0
  | negative _ => 1
  | builtin _ => 2

/-- The order of literals of one kind, and of kinds otherwise. -/
def order : Literal → Literal → Ordering
  | positive a, positive b => compare a b
  | negative a, negative b => compare a b
  | builtin c, builtin d => compare c d
  | l, m => compare l.rank m.rank

instance : Ord Literal :=
  ⟨order⟩

/-- The text of a literal. -/
def text : Literal → String
  | positive a => a.text
  | negative a => "not " ++ a.text
  | builtin c => c.text

/-- The text of a list of literals, separated by commas. -/
def textAll (body : List Literal) : String :=
  Text.join ", " (body.map text)

end Literal

namespace Rule

/-- The variables of a rule in ascending order. -/
def vars (r : Rule) : List String :=
  sortNames (r.head.vars ++ r.body.flatMap Literal.vars)

/-- The order of rules: by head, then by body. -/
instance : Ord Rule :=
  ⟨compareLex (compareOn head) (compareOn body)⟩

/-- The text of a rule; a rule without a body is written as a fact. -/
def text (r : Rule) : String :=
  if r.body.isEmpty then r.head.text ++ "."
  else r.head.text ++ " :- " ++ Literal.textAll r.body ++ "."

end Rule

namespace Query

/-- The variables that a query asks for, in the order of their first occurrences. Anonymous
variables are not asked for. -/
def vars (q : Query) : List String :=
  (q.body.flatMap Literal.namedVars).eraseDups

/-- The order of queries, which is the one of their bodies. -/
instance : Ord Query :=
  ⟨compareOn body⟩

/-- The head of a query that is read as a rule: it has no arguments. -/
def head : Atom :=
  ⟨.plain "?-" 0, []⟩

/-- The query as a rule with a head of its own. -/
def toRule (q : Query) : Rule :=
  ⟨head, q.body⟩

/-- The text of a query. -/
def text (q : Query) : String :=
  "?- " ++ Literal.textAll q.body ++ "."

end Query

end Deduction
