import Mathlib.Data.Finset.Lattice.Lemmas
import Deduction.Proofs.Storage

/-!
# Relations in two containers

A relation is stored in a list, which keeps the order of its tuples, and in a set, in which tuples are
looked up. Nothing in `TupleStore` ties the two together, or to the arity: that they agree is what
its operations keep. They go from one tuple to the next and end with the first failure, in the state
that has been reached.

* `TupleStore.wellFormed_iff`: the containers agree exactly in the store of a relation,
  `Relation.toStore`.
* `Relation.add_toStore`, `Relation.extend_toStore`, `Relation.ofTuples_toStore`: the operations on
  stores are those on relations. A failure leaves no trace.
* `Relation.exists_extend_eq_ok`: what a relation gains from another one.
-/

namespace Deduction

variable {α ε ρ σ : Type}

/-- Takes a step for each member of a list, and adds up what the steps yield. The first failure ends
the loop; the steps before it are not taken back. -/
def runAll (step : σ → α → Except ε Nat × σ) (added : Nat) (s : σ) : List α → Except ε Nat × σ
  | [] => (.ok added, s)
  | x :: xs =>
    match step s x with
    | (.ok n, s) => runAll step (added + n) s xs
    | (.error e, s) => (.error e, s)

theorem runAll_cons_of_ok {step : σ → α → Except ε Nat × σ} {s s' : σ} {x : α} {n : Nat}
    (h : step s x = (.ok n, s')) (added : Nat) (xs : List α) :
    runAll step added s (x :: xs) = runAll step (added + n) s' xs := by
  rw [runAll, h]

theorem runAll_cons_of_error {step : σ → α → Except ε Nat × σ} {s s' : σ} {x : α} {e : ε}
    (h : step s x = (.error e, s')) (added : Nat) (xs : List α) :
    runAll step added s (x :: xs) = (.error e, s') := by
  rw [runAll, h]

/-- A loop that has succeeded takes a further step. -/
theorem runAll_concat_of_ok {step : σ → α → Except ε Nat × σ} {s s' s'' : σ} {x : α} {xs : List α}
    {added n m : Nat} (hxs : runAll step added s xs = (.ok n, s')) (hx : step s' x = (.ok m, s'')) :
    runAll step added s (xs ++ [x]) = (.ok (n + m), s'') := by
  induction xs generalizing added s with
  | nil =>
    obtain ⟨rfl, rfl⟩ : added = n ∧ s = s' := by simpa [runAll] using hxs
    rw [List.nil_append, runAll_cons_of_ok hx, runAll]
  | cons y ys ih =>
    rw [List.cons_append]
    rcases hy : step s y with ⟨e | k, t⟩
    · rw [runAll_cons_of_error hy] at hxs
      cases hxs
    · rw [runAll_cons_of_ok hy] at hxs ⊢
      exact ih hxs

/-- What becomes of a store if an operation replaces its contents as a whole, or else fails. -/
def outcome (toStore : ρ → σ) (old : ρ) : Except ε (α × ρ) → Except ε α × σ
  | .ok (a, new) => (.ok a, toStore new)
  | .error e => (.error e, toStore old)

/-- The tuples of a relation in two containers. -/
structure TupleStore where
  /-- The length that tuples have to have. -/
  arity : Nat
  /-- The tuples, the oldest first. -/
  tuples : List Tuple
  /-- The tuples, in no order. -/
  members : Finset Tuple

namespace TupleStore

/-- The store without tuples. -/
def empty (arity : Nat) : TupleStore :=
  ⟨arity, [], ∅⟩

/-- The set has the tuple. -/
def contains (s : TupleStore) (t : Tuple) : Bool :=
  t ∈ s.members

/-- The number of listed tuples. -/
def size (s : TupleStore) : Nat :=
  s.tuples.length

/-- No tuple is listed. -/
def isEmpty (s : TupleStore) : Bool :=
  s.tuples.isEmpty

/-- Puts a tuple into both containers. -/
def push (s : TupleStore) (t : Tuple) : TupleStore :=
  { s with members := insert t s.members, tuples := s.tuples ++ [t] }

/-- Those of the tuples that the set does not have. -/
def fresh (s : TupleStore) (ts : List Tuple) : List Tuple :=
  ts.filter (!s.contains ·)

/-- Puts the tuples that the set does not have into both containers. -/
def pushAll (s : TupleStore) (ts : List Tuple) : TupleStore :=
  { s with members := s.members ∪ ts.toFinset, tuples := s.tuples ++ s.fresh ts }

/-- Stores a tuple unless the set has it, and tells whether it is new. -/
def add (s : TupleStore) (t : Tuple) : Except ArityMismatch Bool × TupleStore :=
  if t.length ≠ s.arity then (.error ⟨none, s.arity, t.length⟩, s)
  else if s.contains t then (.ok false, s)
  else (.ok true, s.push t)

/-- Adds a tuple, and counts it if it is new. -/
def addCounted (s : TupleStore) (t : Tuple) : Except ArityMismatch Nat × TupleStore :=
  ((s.add t).1.map Bool.toNat, (s.add t).2)

/-- Adds one tuple after the other, and tells how many are new. -/
def addAll (s : TupleStore) (ts : List Tuple) : Except ArityMismatch Nat × TupleStore :=
  runAll addCounted 0 s ts

/-- The store of the given tuples. -/
def ofTuples (arity : Nat) (ts : List Tuple) : Except ArityMismatch TupleStore :=
  ((empty arity).addAll ts).1.map fun _ => ((empty arity).addAll ts).2

/-- Adds the tuples that another store lists. -/
def extend (s o : TupleStore) : Except ArityMismatch Nat × TupleStore :=
  s.addAll o.tuples

/-- The two containers have the same tuples, and these are as they should be. -/
structure WellFormed (s : TupleStore) : Prop where
  /-- No tuple is listed twice. -/
  nodup : s.tuples.Nodup
  /-- The set has exactly the listed tuples. -/
  mem_members : ∀ t, t ∈ s.members ↔ t ∈ s.tuples
  /-- All tuples have the length of the relation. -/
  length_eq : ∀ t ∈ s.tuples, t.length = s.arity

/-- A store has been given tuples: it lists those that it lacked behind the ones that it had, and
they have been counted. -/
structure Gains (s : TupleStore) (ts : List Tuple) (n : Nat) (s' : TupleStore) : Prop where
  arity_eq : s'.arity = s.arity
  tuples_eq : s'.tuples = s.tuples ++ ts.filter (· ∉ s.tuples)
  contains_iff : ∀ t, s'.contains t = true ↔ s.contains t = true ∨ t ∈ ts
  size_eq : s'.size = s.size + n

/-! ## Adding tuples -/

section Add

variable {s : TupleStore} {t : Tuple} {ts : List Tuple}

theorem add_of_length_ne (h : t.length ≠ s.arity) :
    s.add t = (.error ⟨none, s.arity, t.length⟩, s) :=
  if_pos h

theorem add_of_contains (hlength : t.length = s.arity) (h : s.contains t = true) :
    s.add t = (.ok false, s) := by
  rw [add, if_neg (not_not.2 hlength), if_pos h]

theorem add_of_not_contains (hlength : t.length = s.arity) (h : s.contains t = false) :
    s.add t = (.ok true, s.push t) := by
  rw [add, if_neg (not_not.2 hlength), h, if_neg Bool.false_ne_true]

theorem fresh_cons_of_contains (h : s.contains t = true) : s.fresh (t :: ts) = s.fresh ts :=
  List.filter_cons_of_neg (by simp [h])

theorem pushAll_cons_of_contains (h : s.contains t = true) :
    s.pushAll (t :: ts) = s.pushAll ts := by
  have hmem : t ∈ s.members := by simpa [contains] using h
  rw [pushAll, pushAll, fresh_cons_of_contains h, List.toFinset_cons, Finset.union_insert,
    Finset.insert_eq_of_mem (Finset.mem_union_left _ hmem)]

/-- A tuple that does not come again leaves the others as new as they are. -/
theorem fresh_cons_of_not_contains (h : s.contains t = false) (ht : t ∉ ts) :
    s.fresh (t :: ts) = t :: (s.push t).fresh ts := by
  rw [fresh, List.filter_cons_of_pos (by simp [h])]
  refine congrArg (t :: ·) (List.filter_congr fun u hu => ?_)
  have hne : u ≠ t := fun heq => ht (heq ▸ hu)
  simp [contains, push, hne]

theorem pushAll_cons_of_not_contains (h : s.contains t = false) (ht : t ∉ ts) :
    s.pushAll (t :: ts) = (s.push t).pushAll ts := by
  rw [pushAll, pushAll, fresh_cons_of_not_contains h ht]
  simp [push]

/-- If the tuples have the right length and none comes twice, the loop stores those that are new. -/
theorem runAll_addCounted (hnodup : ts.Nodup) (hlength : ∀ t ∈ ts, t.length = s.arity)
    (added : Nat) :
    runAll addCounted added s ts = (.ok (added + (s.fresh ts).length), s.pushAll ts) := by
  induction ts generalizing s added with
  | nil => simp [runAll, fresh, pushAll, Finset.union_empty]
  | cons t ts ih =>
    obtain ⟨ht, hnodup⟩ := List.nodup_cons.1 hnodup
    obtain ⟨hlength, hlengths⟩ := List.forall_mem_cons.1 hlength
    cases h : s.contains t with
    | true =>
      have hstep : s.addCounted t = (.ok 0, s) := by
        rw [addCounted, add_of_contains hlength h]
        rfl
      rw [runAll_cons_of_ok hstep, ih hnodup hlengths, fresh_cons_of_contains h,
        pushAll_cons_of_contains h, Nat.add_zero]
    | false =>
      have hstep : s.addCounted t = (.ok 1, s.push t) := by
        rw [addCounted, add_of_not_contains hlength h]
        rfl
      rw [runAll_cons_of_ok hstep, ih (s := s.push t) hnodup hlengths,
        fresh_cons_of_not_contains h ht, pushAll_cons_of_not_contains h ht, List.length_cons,
        Nat.add_assoc, Nat.add_comm 1]

end Add

end TupleStore

namespace Relation

variable {r o : Relation} {t : Tuple}

/-- The relation in two containers. -/
def toStore (r : Relation) : TupleStore :=
  ⟨r.arity, r.tuples, r.tuples.toFinset⟩

@[simp]
theorem arity_toStore (r : Relation) : r.toStore.arity = r.arity := rfl

@[simp]
theorem tuples_toStore (r : Relation) : r.toStore.tuples = r.tuples := rfl

@[simp]
theorem size_toStore (r : Relation) : r.toStore.size = r.size := rfl

@[simp]
theorem isEmpty_toStore (r : Relation) : r.toStore.isEmpty = r.isEmpty := rfl

@[simp]
theorem contains_toStore (r : Relation) (t : Tuple) : r.toStore.contains t = r.contains t := by
  simp [TupleStore.contains, contains, toStore]

end Relation

/-- The containers agree exactly in the stores of relations. -/
theorem TupleStore.wellFormed_iff {s : TupleStore} :
    s.WellFormed ↔ ∃ r : Relation, r.toStore = s := by
  constructor
  · rintro ⟨hnodup, hmembers, hlength⟩
    refine ⟨⟨s.arity, s.tuples, hnodup, hlength⟩, ?_⟩
    have hset : s.tuples.toFinset = s.members := by
      ext t
      rw [List.mem_toFinset, hmembers]
    rw [Relation.toStore, hset]
  · rintro ⟨r, rfl⟩
    exact ⟨r.nodup, fun t => List.mem_toFinset, r.length_eq⟩

namespace Relation

variable {r o : Relation} {t : Tuple} {ts : List Tuple}

/-! ## Adding tuples -/

theorem toStore_add (h : t.length = r.arity) (hnew : r.contains t = false) :
    (r.add t h).toStore = r.toStore.push t := by
  have hmem : t ∉ r.tuples := by simpa [contains] using hnew
  have hset : (r.tuples ++ [t]).toFinset = Insert.insert t r.tuples.toFinset := by
    rw [List.toFinset_append, List.toFinset_cons, List.toFinset_nil, Finset.union_insert,
      Finset.union_empty]
  simp [toStore, add, hmem, TupleStore.push, hset]

theorem add_eq_self (h : t.length = r.arity) (hold : r.contains t = true) : r.add t h = r := by
  rw [add, dif_pos (contains_iff.1 hold)]

/-- A tuple is added to a store as it is inserted into the relation. -/
theorem add_toStore (r : Relation) (t : Tuple) :
    r.toStore.add t = outcome toStore r (r.insert t) := by
  rw [insert]
  split
  · next h =>
    rw [outcome]
    cases hcontains : r.contains t with
    | true =>
      rw [TupleStore.add_of_contains h (by simpa using hcontains), add_eq_self h hcontains]
      rfl
    | false =>
      rw [TupleStore.add_of_not_contains h (by simpa using hcontains), toStore_add h hcontains]
      rfl
  · next h => exact TupleStore.add_of_length_ne h

/-- A list of tuples makes the store of the relation that it makes, or is refused as it is there. -/
theorem ofTuples_toStore (arity : Nat) (ts : List Tuple) :
    TupleStore.ofTuples arity ts = (ofTuples arity ts).map toStore := by
  have hloop : ∀ (r : Relation) (n : Nat),
      let result := runAll TupleStore.addCounted n r.toStore ts
      result.1.map (fun _ => result.2) =
        (ts.foldlM (fun (r : Relation) t => (r.insert t).map (·.2)) r).map toStore := by
    induction ts with
    | nil => exact fun _ _ => rfl
    | cons t ts ih =>
      intro r n
      rw [List.foldlM_cons, runAll, TupleStore.addCounted, add_toStore]
      rcases r.insert t with e | ⟨b, r'⟩
      · rfl
      · exact ih r' (n + b.toNat)
  exact hloop (empty arity) 0

theorem fresh_toStore (r o : Relation) : r.toStore.fresh o.tuples = r.missing o :=
  List.filter_congr fun t _ => by rw [contains_toStore]

theorem toStore_union (h : o.arity = r.arity) :
    (r.union o h).toStore = r.toStore.pushAll o.tuples := by
  have hset : (r.tuples ++ r.missing o).toFinset = r.tuples.toFinset ∪ o.tuples.toFinset := by
    ext t
    simp only [Finset.mem_union, List.mem_toFinset, List.mem_append, mem_missing]
    tauto
  rw [toStore, union, hset, TupleStore.pushAll, fresh_toStore]
  rfl

/-- A store is extended as the relation is. -/
theorem extend_toStore (r o : Relation) :
    r.toStore.extend o.toStore = outcome toStore r (r.extend o) := by
  rw [TupleStore.extend, TupleStore.addAll, extend, tuples_toStore]
  split
  · next h =>
    rw [TupleStore.runAll_addCounted o.nodup fun t ht => (o.length_eq t ht).trans h,
      fresh_toStore, ← toStore_union h, Nat.zero_add]
    rfl
  · next h =>
    -- The first tuple of the other relation, if there is one, is refused.
    cases htuples : o.tuples with
    | nil => simp [isEmpty, htuples, runAll, outcome]
    | cons t ts =>
      have hlength : t.length = o.arity := o.length_eq t (by simp [htuples])
      have hstep : r.toStore.addCounted t = (.error ⟨none, r.arity, o.arity⟩, r.toStore) := by
        rw [TupleStore.addCounted, TupleStore.add_of_length_ne (by simpa [hlength] using h), hlength]
        rfl
      rw [runAll_cons_of_error hstep]
      simp [isEmpty, htuples, outcome]

/-! ## Taking in another relation -/

theorem missing_eq_filter (r o : Relation) :
    r.missing o = o.tuples.filter (· ∉ r.tuples) :=
  List.filter_congr fun _ _ => decide_not.symm

theorem missing_eq_nil (h : ∀ t ∈ o.tuples, t ∈ r.tuples) : r.missing o = [] :=
  List.eq_nil_iff_forall_not_mem.2 fun t ht => (mem_missing.1 ht).2 (h t (mem_missing.1 ht).1)

theorem extend_eq_self (harity : o.arity = r.arity) (h : ∀ t ∈ o.tuples, t ∈ r.tuples) :
    r.extend o = .ok (0, r) := by
  obtain ⟨arity, tuples, nodup, length_eq⟩ := r
  simp [extend, dif_pos harity, union, missing_eq_nil h]

/-- What a relation misses is what it gains. -/
theorem gains_union (h : o.arity = r.arity) :
    r.toStore.Gains o.tuples (r.missing o).length (r.union o h).toStore where
  arity_eq := rfl
  tuples_eq := congrArg (r.tuples ++ ·) (missing_eq_filter r o)
  contains_iff t := by simp
  size_eq := by simp [size, union]

/-- Unless it has tuples of another length, the other relation is taken in as a whole. To do so again
changes nothing. -/
theorem exists_extend_eq_ok (h : o.arity = r.arity ∨ o.tuples = []) :
    ∃ n r', r.extend o = .ok (n, r') ∧ r.toStore.Gains o.tuples n r'.toStore ∧
      r'.extend o = .ok (0, r') := by
  by_cases harity : o.arity = r.arity
  · refine ⟨_, r.union o harity, by rw [extend, dif_pos harity], gains_union harity, ?_⟩
    exact extend_eq_self harity fun t ht => mem_tuples_union.2 (.inr ht)
  · have htuples := h.resolve_left harity
    have hself : r.extend o = .ok (0, r) := by simp [extend, harity, isEmpty, htuples]
    exact ⟨0, r, hself, ⟨rfl, by simp [htuples], by simp [htuples], rfl⟩, hself⟩

theorem extend_eq_error (harity : o.arity ≠ r.arity) (h : o.tuples ≠ []) :
    r.extend o = .error ⟨none, r.arity, o.arity⟩ := by
  simp [extend, harity, isEmpty, h]

end Relation

theorem exists_snd_outcome (toStore : ρ → σ) (old : ρ) (result : Except ε (α × ρ)) :
    ∃ new, toStore new = (outcome toStore old result).2 := by
  rcases result with e | ⟨a, new⟩
  · exact ⟨old, rfl⟩
  · exact ⟨new, rfl⟩

end Deduction
