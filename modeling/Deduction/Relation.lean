import Deduction.Predicate

/-!
# Relations

A relation is a finite set of tuples of one length. The tuples keep the order in which they were
inserted, so that answers come in the same order whenever a computation is repeated; equality of
relations ignores it.
-/

namespace Deduction

/-- A tuple, or a whole relation, does not have the number of terms that was expected. -/
structure ArityMismatch where
  /-- The predicate whose relation was addressed, if it is known. -/
  predicate : Option Predicate
  /-- The number of terms that the relation holds. -/
  expected : Nat
  /-- The number of terms that was given. -/
  found : Nat
deriving DecidableEq

/-- The text of the error. -/
def ArityMismatch.message (e : ArityMismatch) : String :=
  "arity mismatch for " ++ (e.predicate.map Predicate.text).getD "relation" ++ ": expected " ++
    toString e.expected ++ " terms, got " ++ toString e.found

/-- A set of tuples of one length. -/
structure Relation where
  /-- The length of the tuples. -/
  arity : Nat
  /-- The tuples, the oldest first. -/
  tuples : List Tuple
  /-- No tuple is stored twice. -/
  nodup : tuples.Nodup
  /-- All tuples have the length of the relation. -/
  length_eq : ∀ t ∈ tuples, t.length = arity

namespace Relation

/-- The relation without tuples. -/
def empty (arity : Nat) : Relation :=
  ⟨arity, [], by simp, by simp⟩

/-- The tuple is stored. -/
def contains (r : Relation) (t : Tuple) : Bool :=
  t ∈ r.tuples

/-- The number of tuples. -/
def size (r : Relation) : Nat :=
  r.tuples.length

/-- No tuple is stored. -/
def isEmpty (r : Relation) : Bool :=
  r.tuples.isEmpty

/-- Stores a tuple of the right length behind the others, unless it is there already. -/
def add (r : Relation) (t : Tuple) (h : t.length = r.arity) : Relation :=
  if mem : t ∈ r.tuples then r
  else
    { arity := r.arity
      tuples := r.tuples ++ [t]
      nodup := by
        rw [List.nodup_append]
        refine ⟨r.nodup, by simp, ?_⟩
        intro u hu v hv
        simp only [List.mem_singleton] at hv
        rintro rfl
        exact mem (hv ▸ hu)
      length_eq := by
        intro u hu
        rcases List.mem_append.1 hu with hu | hu
        · exact r.length_eq u hu
        · simpa [List.mem_singleton.1 hu] using h }

/-- Stores a tuple, and tells whether it is new. -/
def insert (r : Relation) (t : Tuple) : Except ArityMismatch (Bool × Relation) :=
  if h : t.length = r.arity then .ok (!r.contains t, r.add t h)
  else .error ⟨none, r.arity, t.length⟩

/-- The relation of the given tuples. -/
def ofTuples (arity : Nat) (tuples : List Tuple) : Except ArityMismatch Relation :=
  tuples.foldlM (fun r t => (r.insert t).map (·.2)) (empty arity)

/-- The tuples of another relation that are not stored yet. -/
def missing (r s : Relation) : List Tuple :=
  s.tuples.filter (!r.contains ·)

/-- Stores the tuples of a relation of the same arity that are not there yet. -/
def union (r s : Relation) (h : s.arity = r.arity) : Relation where
  arity := r.arity
  tuples := r.tuples ++ r.missing s
  nodup := by
    rw [List.nodup_append]
    refine ⟨r.nodup, s.nodup.sublist List.filter_sublist, ?_⟩
    intro t ht u hu
    rintro rfl
    simp [missing, contains, ht] at hu
  length_eq := by
    intro t ht
    rcases List.mem_append.1 ht with ht | ht
    · exact r.length_eq t ht
    · rw [← h]
      exact s.length_eq t ((List.mem_filter.1 ht).1)

/-- Stores the tuples of another relation, and tells how many are new. Relations of different
arities cannot be combined, unless the other one is empty. -/
def extend (r s : Relation) : Except ArityMismatch (Nat × Relation) :=
  if h : s.arity = r.arity then .ok ((r.missing s).length, r.union s h)
  -- Without tuples there is nothing of the wrong length.
  else if s.isEmpty then .ok (0, r)
  else .error ⟨none, r.arity, s.arity⟩

/-- The tuples in ascending order. -/
def sorted (r : Relation) : List Tuple :=
  r.tuples.mergeSort fun t u => (compare t u).isLE

/-- The relations have the same arity and the same tuples. -/
def same (r s : Relation) : Bool :=
  r.arity = s.arity && r.tuples.all s.contains && s.tuples.all r.contains

@[simp]
theorem contains_iff {r : Relation} {t : Tuple} : r.contains t = true ↔ t ∈ r.tuples := by
  simp [contains]

@[simp]
theorem arity_empty (arity : Nat) : (empty arity).arity = arity := rfl

@[simp]
theorem arity_add (r : Relation) (t : Tuple) (h : t.length = r.arity) :
    (r.add t h).arity = r.arity := by
  unfold add
  split <;> rfl

@[simp]
theorem arity_union (r s : Relation) (h : s.arity = r.arity) : (r.union s h).arity = r.arity := rfl

/-- Adding a tuple stores it and keeps the others. -/
@[simp]
theorem mem_tuples_add {r : Relation} {t u : Tuple} {h : t.length = r.arity} :
    u ∈ (r.add t h).tuples ↔ u = t ∨ u ∈ r.tuples := by
  unfold add
  split
  · next mem =>
    constructor
    · exact .inr
    · rintro (rfl | hu)
      · exact mem
      · exact hu
  · simp [or_comm]

/-- A union stores the tuples of both relations. -/
@[simp]
theorem mem_tuples_union {r s : Relation} {h : s.arity = r.arity} {t : Tuple} :
    t ∈ (r.union s h).tuples ↔ t ∈ r.tuples ∨ t ∈ s.tuples := by
  simp only [union, missing, List.mem_append, List.mem_filter]
  by_cases ht : t ∈ r.tuples <;> simp [contains, ht]

/-- Two relations are the same exactly if they have the same arity and the same members. -/
theorem same_iff {r s : Relation} :
    r.same s = true ↔ r.arity = s.arity ∧ ∀ t, t ∈ r.tuples ↔ t ∈ s.tuples := by
  simp only [same, Bool.and_eq_true, decide_eq_true_eq, List.all_eq_true, contains_iff]
  constructor
  · rintro ⟨⟨h, h₁⟩, h₂⟩
    exact ⟨h, fun t => ⟨h₁ t, h₂ t⟩⟩
  · rintro ⟨h, h'⟩
    exact ⟨⟨h, fun t => (h' t).1⟩, fun t => (h' t).2⟩

end Relation

end Deduction
