import Deduction.Relation
import Deduction.Unification

/-!
# Databases

A database keeps a relation for each of finitely many predicates. Lookups match an atom, whose
variables may be bound by a substitution, against the stored tuples.
-/

namespace Deduction

/-- A fact cannot be stored. -/
inductive FactError where
  /-- The fact has the wrong number of terms. -/
  | arity (mismatch : ArityMismatch)
  /-- The fact has variables. -/
  | notGround (fact : Atom)
deriving DecidableEq

/-- The text of the error. -/
def FactError.message : FactError → String
  | arity mismatch => mismatch.message
  | notGround fact => "fact '" ++ fact.text ++ "' is not ground"

/-- A relation for each of finitely many predicates. -/
structure Database where
  /-- The relations by predicate. -/
  relations : Table Predicate Relation
  /-- A relation has the arity of its predicate. -/
  arity_eq : ∀ e ∈ relations.entries, e.2.arity = e.1.arity

namespace Database

/-- The database without relations. -/
def empty : Database :=
  ⟨Table.empty, by simp [Table.empty]⟩

/-- The relation of a predicate, if there is one. -/
def relation? (db : Database) (p : Predicate) : Option Relation :=
  db.relations.get? p

/-- The relation of a predicate, or the empty one. -/
def relation (db : Database) (p : Predicate) : Relation :=
  (db.relation? p).getD (.empty p.arity)

/-- A predicate's relation has its arity. -/
theorem arity_relation (db : Database) (p : Predicate) : (db.relation p).arity = p.arity := by
  unfold relation
  cases h : db.relation? p with
  | none => rfl
  | some r => exact db.arity_eq (p, r) (Table.mem_of_get? h)

/-- Puts a relation in place of the one of a predicate. -/
def set (db : Database) (p : Predicate) (r : Relation) (h : r.arity = p.arity) : Database where
  relations := db.relations.insert p r
  arity_eq := by
    intro e he
    simp only [Table.insert, List.mem_cons] at he
    rcases he with rfl | he
    · exact h
    · exact db.arity_eq e ((List.mem_filter.1 he).1)

/-- The tuple is stored for the predicate. -/
def contains (db : Database) (p : Predicate) (t : Tuple) : Bool :=
  (db.relation p).contains t

/-- The predicate has tuples. -/
def hasTuples (db : Database) (p : Predicate) : Bool :=
  !(db.relation p).isEmpty

/-- The number of tuples of all relations. -/
def size (db : Database) : Nat :=
  db.relations.entries.foldr (fun e n => e.2.size + n) 0

/-- No relation has tuples. -/
def isEmpty (db : Database) : Bool :=
  db.relations.entries.all (·.2.isEmpty)

/-- The relations in ascending order of their predicates. -/
def toSortedList (db : Database) : List (Predicate × Relation) :=
  db.relations.entries.mergeSort fun e f => (compare e.1 f.1).isLE

/-- The databases have relations for the same predicates, and these have the same tuples. -/
def same (db other : Database) : Bool :=
  db.relations.size = other.relations.size &&
    db.relations.entries.all fun e =>
      match other.relation? e.1 with
      | some r => e.2.same r
      | none => false

/-! ## Insertion -/

/-- Stores a tuple, and tells whether it is new. The predicate has a relation afterwards even if the
tuple is refused. -/
def insert (db : Database) (p : Predicate) (t : Tuple) : Except ArityMismatch Bool × Database :=
  let r := db.relation p
  if h : t.length = r.arity then
    (.ok (!r.contains t), db.set p (r.add t h) (by simp [r, arity_relation]))
  else (.error ⟨some p, r.arity, t.length⟩, db.set p r (arity_relation db p))

/-- Stores a ground atom, and tells whether it is new. -/
def insertAtom (db : Database) (fact : Atom) : Except FactError Bool × Database :=
  if fact.isGround then
    let (result, db) := db.insert fact.predicate fact.terms
    (result.mapError .arity, db)
  else (.error (.notGround fact), db)

/-- The database of the given facts. -/
def ofFacts (facts : List Atom) : Except FactError Database :=
  facts.foldlM (fun db fact =>
    match db.insertAtom fact with
    | (.ok _, db) => .ok db
    | (.error e, _) => .error e) empty

/-- The number of tuples of a relation that are new for the predicate, and the database that has
them. -/
def union (db : Database) (p : Predicate) (r : Relation) (h : r.arity = p.arity) :
    Nat × Database :=
  let old := db.relation p
  ((old.missing r).length,
    db.set p (old.union r (h.trans (arity_relation db p).symm)) (arity_relation db p))

/-- Stores the tuples of a relation, and tells how many are new. -/
def insertRelation (db : Database) (p : Predicate) (r : Relation) :
    Except ArityMismatch (Nat × Database) :=
  if h : r.arity = p.arity then .ok (db.union p r h) else .error ⟨some p, p.arity, r.arity⟩

/-- Stores the tuples of all relations of another database, and tells how many are new. -/
def merge (db other : Database) : Nat × Database :=
  other.relations.entries.attach.foldl (fun (added, db) e =>
    let (n, db) := db.union e.1.1 e.1.2 (other.arity_eq e.1 e.2)
    (added + n, db)) (0, db)

/-! ## Lookup -/

/-- The ways of extending a substitution so that the atom becomes a stored tuple, in the order of
the tuples. -/
def query (db : Database) (pattern : Atom) (s : Substitution) : List Substitution :=
  (db.relation pattern.predicate).tuples.filterMap fun t =>
    (s.unifyAll pattern.terms t).substitution?

/-- A stored tuple matches the atom. The variables that the substitution leaves open are not bound:
a ground atom is looked up, any other is compared with each tuple on its own. -/
def matchesAny (db : Database) (pattern : Atom) (s : Substitution) : Bool :=
  let r := db.relation pattern.predicate
  let terms := s.applyAll pattern.terms
  if Term.areGround terms then r.contains terms
  else r.tuples.any fun t => (Substitution.empty.unifyAll terms t).solved

end Database

end Deduction
