import Deduction.Proofs.TupleStore

/-!
# Databases of relations in two containers

A database whose relations are `TupleStore`s, with operations that take one step after the other: a
relation is made before a tuple is refused, and merging goes through the relations of the other
database, in whatever order their table has, until one of them fails.

* `FactStore.wellFormed_iff`: all is as it should be exactly in the store of a database,
  `Database.toStore`.
* `Database.insert_toStore`, `Database.insertAtom_toStore`, `Database.insertRelation_toStore`,
  `Database.merge_toStore`, `Database.answers_toStore`: the operations on stores and the lookups in
  them are those of databases.
* `TupleStore.Reachable.exists_toStore`, `FactStore.Reachable.exists_toStore`: no other stores are
  built.
* `stores_coherent`: what follows for failures, for what is gained, and for the older tuples.
-/

namespace Deduction

namespace Table

variable {κ ν ω : Type}

/-- The table with other values for the same keys. -/
def mapValues (f : ν → ω) (m : Table κ ν) : Table κ ω where
  entries := m.entries.map fun e => (e.1, f e.2)
  nodup := by simpa [Function.comp_def] using m.nodup

theorem mapValues_mapValues_eq_self {f : ν → ω} {g : ω → ν} {m : Table κ ν}
    (h : ∀ e ∈ m.entries, g (f e.2) = e.2) : (m.mapValues f).mapValues g = m := by
  obtain ⟨entries, nodup⟩ := m
  have hentries : (entries.map fun e => (e.1, f e.2)).map (fun e => (e.1, g e.2)) = entries := by
    rw [List.map_map]
    calc entries.map _ = entries.map id := List.map_congr_left fun e he => by simp [h e he]
      _ = entries := List.map_id entries
  simp [mapValues, hentries]

variable [DecidableEq κ]

theorem get?_mapValues (f : ν → ω) (m : Table κ ν) (k : κ) :
    (m.mapValues f).get? k = (m.get? k).map f := by
  obtain ⟨entries, nodup⟩ := m
  simp only [get?, mapValues]
  clear nodup
  induction entries with
  | nil => rfl
  | cons e es ih =>
    rw [List.map_cons, List.lookup_cons, List.lookup_cons]
    cases k == e.1
    · exact ih
    · rfl

theorem mapValues_insert (f : ν → ω) (m : Table κ ν) (k : κ) (v : ν) :
    (m.insert k v).mapValues f = (m.mapValues f).insert k (f v) := by
  simp [mapValues, insert, List.filter_map, Function.comp_def]

end Table

/-- The error names the predicate whose relation was addressed. -/
def ArityMismatch.forPredicate (e : ArityMismatch) (p : Predicate) : ArityMismatch :=
  { e with predicate := some p }

/-- What lookups find. -/
structure Answers where
  /-- A tuple is stored. -/
  contains : Predicate → Tuple → Bool
  /-- A predicate has tuples. -/
  hasTuples : Predicate → Bool
  /-- The number of all tuples. -/
  size : Nat
  /-- The ways to match an atom. -/
  query : Atom → Substitution → List Substitution
  /-- There is a way to match an atom. -/
  matchesAny : Atom → Substitution → Bool

/-- Stores for the relations of finitely many predicates. -/
structure FactStore where
  /-- The stores by predicate. -/
  relations : Table Predicate TupleStore

namespace FactStore

/-- No predicate has a relation. -/
def empty : FactStore :=
  ⟨Table.empty⟩

/-- The store of a predicate's relation, which is empty if there is none. -/
def relation (st : FactStore) (p : Predicate) : TupleStore :=
  (st.relations.get? p).getD (.empty p.arity)

/-- Puts a store in place of the one of a predicate. -/
def set (st : FactStore) (p : Predicate) (s : TupleStore) : FactStore :=
  ⟨st.relations.insert p s⟩

/-- Adds a tuple to the relation of a predicate, which is made first if need be. -/
def insert (st : FactStore) (p : Predicate) (t : Tuple) : Except ArityMismatch Bool × FactStore :=
  let (result, s) := (st.relation p).add t
  (result.mapError (·.forPredicate p), st.set p s)

/-- Adds a ground atom. -/
def insertAtom (st : FactStore) (fact : Atom) : Except FactError Bool × FactStore :=
  if fact.isGround then
    let (result, st) := st.insert fact.predicate fact.terms
    (result.mapError .arity, st)
  else (.error (.notGround fact), st)

/-- Adds the tuples of a store to the relation of a predicate, which is made first if need be. A store
of the wrong arity is refused before that. -/
def insertRelation (st : FactStore) (p : Predicate) (s : TupleStore) :
    Except ArityMismatch Nat × FactStore :=
  if s.arity ≠ p.arity then (.error ⟨some p, p.arity, s.arity⟩, st)
  else
    let (result, target) := (st.relation p).extend s
    (result.mapError (·.forPredicate p), st.set p target)

/-- Adds the relations of another store, one after the other. -/
def merge (st other : FactStore) : Except ArityMismatch Nat × FactStore :=
  runAll (fun st e => st.insertRelation e.1 e.2) 0 st other.relations.entries

/-- What lookups find: ground atoms are looked up in the sets, and all others compared with what is
listed. -/
def answers (st : FactStore) : Answers where
  contains p t := (st.relation p).contains t
  hasTuples p := !(st.relation p).isEmpty
  size := st.relations.entries.foldr (fun e n => e.2.size + n) 0
  query pattern s := (st.relation pattern.predicate).tuples.filterMap fun t =>
    (s.unifyAll pattern.terms t).substitution?
  matchesAny pattern s :=
    let r := st.relation pattern.predicate
    let terms := s.applyAll pattern.terms
    if Term.areGround terms then r.contains terms
    else r.tuples.any fun t => (Substitution.empty.unifyAll terms t).solved

/-- All relations are as they should be. -/
structure WellFormed (st : FactStore) : Prop where
  /-- The two containers of each relation agree. -/
  wellFormed : ∀ e ∈ st.relations.entries, e.2.WellFormed
  /-- A relation has the arity of its predicate. -/
  arity_eq : ∀ e ∈ st.relations.entries, e.2.arity = e.1.arity

/-- A store has been given tuples for each predicate: it lists those that it lacked behind the ones
that it had, and they have been counted. -/
structure Gains (st : FactStore) (ts : Predicate → List Tuple) (n : Nat) (st' : FactStore) :
    Prop where
  tuples_eq : ∀ p, (st'.relation p).tuples =
    (st.relation p).tuples ++ (ts p).filter (· ∉ (st.relation p).tuples)
  contains_iff : ∀ p t,
    st'.answers.contains p t = true ↔ st.answers.contains p t = true ∨ t ∈ ts p
  size_eq : st'.answers.size = st.answers.size + n

end FactStore

mutual

/-- The stores of relations to which operations lead, whether they succeed or not. -/
inductive TupleStore.Reachable : TupleStore → Prop
  | empty (arity : Nat) : TupleStore.Reachable (.empty arity)
  | ofTuples {arity : Nat} {ts : List Tuple} {s : TupleStore}
    (h : TupleStore.ofTuples arity ts = .ok s) : TupleStore.Reachable s
  | add {s : TupleStore} (hs : TupleStore.Reachable s) (t : Tuple) :
    TupleStore.Reachable (s.add t).2
  | extend {s o : TupleStore} (hs : TupleStore.Reachable s) (ho : TupleStore.Reachable o) :
    TupleStore.Reachable (s.extend o).2
  | relation {st : FactStore} (hst : FactStore.Reachable st) (p : Predicate) :
    TupleStore.Reachable (st.relation p)

/-- The stores of databases to which operations lead, whether they succeed or not. The entries of a
table are in no particular order. -/
inductive FactStore.Reachable : FactStore → Prop
  | empty : FactStore.Reachable .empty
  | insert {st : FactStore} (hst : FactStore.Reachable st) (p : Predicate) (t : Tuple) :
    FactStore.Reachable (st.insert p t).2
  | insertAtom {st : FactStore} (hst : FactStore.Reachable st) (fact : Atom) :
    FactStore.Reachable (st.insertAtom fact).2
  | insertRelation {st : FactStore} {s : TupleStore} (hst : FactStore.Reachable st)
    (p : Predicate) (hs : TupleStore.Reachable s) :
    FactStore.Reachable (st.insertRelation p s).2
  | merge {st other : FactStore} (hst : FactStore.Reachable st)
    (hother : FactStore.Reachable other) : FactStore.Reachable (st.merge other).2
  | reorder {st : FactStore} {relations : Table Predicate TupleStore}
    (hst : FactStore.Reachable st) (h : relations.entries.Perm st.relations.entries) :
    FactStore.Reachable ⟨relations⟩

end

namespace Database

variable {db other : Database} {p : Predicate} {r : Relation}

/-- The database with its relations in two containers. -/
def toStore (db : Database) : FactStore :=
  ⟨db.relations.mapValues Relation.toStore⟩

/-- What lookups find. -/
def answers (db : Database) : Answers :=
  ⟨db.contains, db.hasTuples, db.size, db.query, db.matchesAny⟩

theorem relation_toStore (db : Database) (p : Predicate) :
    db.toStore.relation p = (db.relation p).toStore := by
  rw [FactStore.relation, relation, toStore, Table.get?_mapValues, relation?]
  cases db.relations.get? p <;> rfl

theorem toStore_set (h : r.arity = p.arity) :
    (db.set p r h).toStore = db.toStore.set p r.toStore := by
  rw [toStore, set, Table.mapValues_insert]
  rfl

/-- Lookups in a store have the answers of lookups in the database. -/
theorem answers_toStore (db : Database) : db.toStore.answers = db.answers := by
  have hsize : db.toStore.answers.size = db.size := by
    rw [FactStore.answers, toStore, Table.mapValues, List.foldr_map]
    rfl
  simp only [FactStore.answers] at hsize ⊢
  simp only [relation_toStore, Relation.contains_toStore, Relation.isEmpty_toStore,
    Relation.tuples_toStore, hsize]
  rfl

/-! ## Operations -/

theorem insert_toStore (db : Database) (p : Predicate) (t : Tuple) :
    db.toStore.insert p t = ((db.insert p t).1, (db.insert p t).2.toStore) := by
  rw [FactStore.insert, relation_toStore, Relation.add_toStore, Relation.insert, insert]
  by_cases h : t.length = (db.relation p).arity
  · simp only [dif_pos h, toStore_set]
    rfl
  · simp only [dif_neg h, toStore_set]
    rfl

theorem insertAtom_toStore (db : Database) (fact : Atom) :
    db.toStore.insertAtom fact = ((db.insertAtom fact).1, (db.insertAtom fact).2.toStore) := by
  rw [FactStore.insertAtom, insertAtom, insert_toStore]
  split <;> rfl

theorem insertRelation_toStore (db : Database) (p : Predicate) (r : Relation) :
    db.toStore.insertRelation p r.toStore = outcome toStore db (db.insertRelation p r) := by
  rw [FactStore.insertRelation, insertRelation, Relation.arity_toStore]
  by_cases h : r.arity = p.arity
  · have harity : r.arity = (db.relation p).arity := h.trans (arity_relation db p).symm
    rw [if_neg (not_not.2 h), dif_pos h, relation_toStore, Relation.extend_toStore,
      Relation.extend, dif_pos harity, outcome, outcome, union_snd, toStore_set]
    rfl
  · rw [if_pos h, dif_neg h]
    rfl

/-- Merging does not fail, since every relation has the arity of its predicate. -/
theorem merge_toStore (db other : Database) :
    db.toStore.merge other.toStore = (.ok (db.merge other).1, (db.merge other).2.toStore) := by
  refine merge_induction db other (P := fun es n db' =>
    runAll (fun st e => FactStore.insertRelation st e.1 e.2) 0 db.toStore
      (es.map fun e => (e.1, e.2.toStore)) = (.ok n, db'.toStore)) rfl ?_
  intro es e n db' _ harity hes
  rw [List.map_append]
  refine runAll_concat_of_ok hes ?_
  rw [insertRelation_toStore, insertRelation, dif_pos harity]
  rfl

end Database

/-! ## The containers of reachable stores -/

namespace FactStore

variable {st other : FactStore}

open scoped Classical in
/-- All relations are as they should be exactly in the stores of databases. -/
theorem wellFormed_iff : st.WellFormed ↔ ∃ db : Database, db.toStore = st := by
  constructor
  · rintro ⟨hrelations, harity⟩
    let relationOf (s : TupleStore) : Relation :=
      if h : ∃ r : Relation, r.toStore = s then h.choose else .empty s.arity
    have hstore : ∀ e ∈ st.relations.entries, (relationOf e.2).toStore = e.2 := fun e he => by
      have h := TupleStore.wellFormed_iff.1 (hrelations e he)
      simp only [relationOf, dif_pos h, h.choose_spec]
    refine ⟨⟨st.relations.mapValues relationOf, ?_⟩, ?_⟩
    · intro e' he'
      obtain ⟨e, he, rfl⟩ := List.mem_map.1 he'
      rw [← Relation.arity_toStore, hstore e he]
      exact harity e he
    · exact congrArg FactStore.mk (Table.mapValues_mapValues_eq_self hstore)
  · rintro ⟨db, rfl⟩
    constructor
    · intro e he
      obtain ⟨e, -, rfl⟩ := List.mem_map.1 he
      exact TupleStore.wellFormed_iff.2 ⟨e.2, rfl⟩
    · intro e' he'
      obtain ⟨e, he, rfl⟩ := List.mem_map.1 he'
      exact db.arity_eq e he

end FactStore

mutual

/-- Whatever operations have been applied, a store is that of a relation. -/
theorem TupleStore.Reachable.exists_toStore {s : TupleStore} :
    s.Reachable → ∃ r : Relation, r.toStore = s
  | .empty arity => ⟨.empty arity, rfl⟩
  | .ofTuples h => by
    rw [Relation.ofTuples_toStore] at h
    obtain ⟨r, -, hr⟩ := map_eq_ok_iff.1 h
    exact ⟨r, hr⟩
  | .add hs t => by
    obtain ⟨r, rfl⟩ := hs.exists_toStore
    rw [Relation.add_toStore]
    exact exists_snd_outcome _ _ _
  | .extend hs ho => by
    obtain ⟨r, rfl⟩ := hs.exists_toStore
    obtain ⟨q, rfl⟩ := ho.exists_toStore
    rw [Relation.extend_toStore]
    exact exists_snd_outcome _ _ _
  | .relation hst p => by
    obtain ⟨db, rfl⟩ := hst.exists_toStore
    exact ⟨db.relation p, (db.relation_toStore p).symm⟩

/-- Whatever operations have been applied, a store is that of a database. -/
theorem FactStore.Reachable.exists_toStore {st : FactStore} :
    st.Reachable → ∃ db : Database, db.toStore = st
  | .empty => ⟨.empty, rfl⟩
  | .insert hst p t => by
    obtain ⟨db, rfl⟩ := hst.exists_toStore
    rw [Database.insert_toStore]
    exact ⟨_, rfl⟩
  | .insertAtom hst fact => by
    obtain ⟨db, rfl⟩ := hst.exists_toStore
    rw [Database.insertAtom_toStore]
    exact ⟨_, rfl⟩
  | .insertRelation hst p hs => by
    obtain ⟨db, rfl⟩ := hst.exists_toStore
    obtain ⟨r, rfl⟩ := hs.exists_toStore
    rw [Database.insertRelation_toStore]
    exact exists_snd_outcome _ _ _
  | .merge hst hother => by
    obtain ⟨db, rfl⟩ := hst.exists_toStore
    obtain ⟨db', rfl⟩ := hother.exists_toStore
    rw [Database.merge_toStore]
    exact ⟨_, rfl⟩
  | .reorder hst hperm => by
    obtain ⟨hrelations, harity⟩ := FactStore.wellFormed_iff.2 hst.exists_toStore
    exact FactStore.wellFormed_iff.1 ⟨fun e he => hrelations e (hperm.mem_iff.1 he),
      fun e he => harity e (hperm.mem_iff.1 he)⟩

end

/-! ## What operations leave behind -/

namespace Database

variable {db db' other : Database} {p : Predicate} {r : Relation}

theorem size_congr (h : ∀ p, (db'.relation p).tuples = (db.relation p).tuples) :
    db'.size = db.size := by
  rw [← length_facts db]
  refine size_eq_length db.nodup_facts fun a => ?_
  rw [mem_facts, mem_atoms, mem_atoms, h]

/-- An operation that leaves the relations of all predicates as they are makes no difference to
lookups, even if it has made a relation. -/
theorem answers_congr (h : ∀ p, db'.relation p = db.relation p) : db'.answers = db.answers := by
  have hsize : db'.size = db.size := size_congr fun p => by rw [h]
  unfold answers contains hasTuples query matchesAny
  simp only [h, hsize]

theorem answers_insert_of_error {t : Tuple} {e : ArityMismatch} (h : (db.insert p t).1 = .error e) :
    (db.insert p t).2.answers = db.answers := by
  refine answers_congr fun q => ?_
  rw [insert] at h ⊢
  split at h
  · cases h
  · next hlength =>
    rw [dif_neg hlength, relation_set]
    split
    · next hq => rw [hq]
    · rfl

theorem answers_insertAtom_of_error {fact : Atom} {e : FactError}
    (h : (db.insertAtom fact).1 = .error e) : (db.insertAtom fact).2.answers = db.answers := by
  rw [insertAtom] at h ⊢
  split at h
  · next hground =>
    obtain ⟨mismatch, hmismatch, -⟩ := mapError_eq_error_iff.1 h
    rw [if_pos hground]
    exact answers_insert_of_error hmismatch
  · next hopen => rw [if_neg hopen]

/-- What comes behind the tuples that were stored has been gained. -/
theorem gains_of_tuples_eq {ts : Predicate → List Tuple} {n : Nat}
    (htuples : ∀ p, (db'.relation p).tuples =
      (db.relation p).tuples ++ (ts p).filter (· ∉ (db.relation p).tuples))
    (hsize : db'.size = db.size + n) : db.toStore.Gains ts n db'.toStore where
  tuples_eq p := by simpa [relation_toStore] using htuples p
  contains_iff p t := by
    rw [answers_toStore, answers_toStore]
    simp only [answers, contains, Relation.contains_iff, htuples, List.mem_append,
      List.mem_filter, decide_eq_true_eq]
    tauto
  size_eq := by
    rw [answers_toStore, answers_toStore]
    exact hsize

theorem gains_union (h : r.arity = p.arity) :
    db.toStore.Gains (fun q => if q = p then r.tuples else []) (db.union p r h).1
      (db.union p r h).2.toStore := by
  refine gains_of_tuples_eq (fun q => ?_) (size_union h)
  rw [tuples_union]
  split
  · next hq => rw [Relation.missing_eq_filter]
  · rfl

theorem gains_merge (db other : Database) :
    db.toStore.Gains (fun p => (other.relation p).tuples) (db.merge other).1
      (db.merge other).2.toStore := by
  refine gains_of_tuples_eq (fun p => ?_) (size_merge_snd db other)
  rw [tuples_merge, Relation.missing_eq_filter]

/-- To merge again brings nothing. -/
theorem merge_merge_fst (db other : Database) : ((db.merge other).2.merge other).1 = 0 := by
  have hsize := size_merge_snd (db.merge other).2 other
  have hsame : ((db.merge other).2.merge other).2.size = (db.merge other).2.size := by
    refine size_congr fun p => ?_
    rw [tuples_merge, Relation.missing_eq_nil fun t ht => ?_, List.append_nil]
    rw [tuples_merge, List.mem_append, Relation.mem_missing]
    tauto
  omega

end Database

/-- Whatever operations have been applied, the two containers of every relation agree, and a relation
has the arity of its predicate. So a relation is extended by all tuples of another one, or else is
left as it is, and the same goes for a relation that is inserted; merging does not fail. What is
gained comes behind the older tuples, and its number is told; a second time there is nothing to gain.
An insertion that fails changes no answer. The stores are those of relations and databases, and the
operations do to them what they do there. -/
theorem stores_coherent {s o : TupleStore} (hs : s.Reachable) (ho : o.Reachable)
    {st other : FactStore} (hst : st.Reachable) (hother : other.Reachable) :
    (s.WellFormed ∧ st.WellFormed) ∧
    (o.arity ≠ s.arity → o.tuples ≠ [] →
      s.extend o = (.error ⟨none, s.arity, o.arity⟩, s)) ∧
    (o.arity = s.arity ∨ o.tuples = [] → ∃ n s', s.extend o = (.ok n, s') ∧
      s.Gains o.tuples n s' ∧ s'.extend o = (.ok 0, s')) ∧
    (∀ p, s.arity ≠ p.arity →
      st.insertRelation p s = (.error ⟨some p, p.arity, s.arity⟩, st)) ∧
    (∀ p, s.arity = p.arity → ∃ n st', st.insertRelation p s = (.ok n, st') ∧
      st.Gains (fun q => if q = p then s.tuples else []) n st') ∧
    (∃ n st', st.merge other = (.ok n, st') ∧
      st.Gains (fun p => (other.relation p).tuples) n st' ∧ (st'.merge other).1 = .ok 0) ∧
    (∀ p t e, (st.insert p t).1 = .error e → (st.insert p t).2.answers = st.answers) ∧
    (∀ fact e, (st.insertAtom fact).1 = .error e →
      (st.insertAtom fact).2.answers = st.answers) ∧
    ∃ (r q : Relation) (db db' : Database),
      (r.toStore = s ∧ q.toStore = o ∧ db.toStore = st ∧ db'.toStore = other) ∧
      db.answers = st.answers ∧
      (∀ t, s.add t = outcome Relation.toStore r (r.insert t)) ∧
      s.extend o = outcome Relation.toStore r (r.extend q) ∧
      (∀ p t, st.insert p t = ((db.insert p t).1, (db.insert p t).2.toStore)) ∧
      (∀ fact, st.insertAtom fact = ((db.insertAtom fact).1, (db.insertAtom fact).2.toStore)) ∧
      (∀ p, st.insertRelation p s = outcome Database.toStore db (db.insertRelation p r)) ∧
      st.merge other = (.ok (db.merge db').1, (db.merge db').2.toStore) := by
  obtain ⟨r, rfl⟩ := hs.exists_toStore
  obtain ⟨q, rfl⟩ := ho.exists_toStore
  obtain ⟨db, rfl⟩ := hst.exists_toStore
  obtain ⟨db', rfl⟩ := hother.exists_toStore
  refine ⟨⟨TupleStore.wellFormed_iff.2 ⟨r, rfl⟩, FactStore.wellFormed_iff.2 ⟨db, rfl⟩⟩,
    ?_, ?_, ?_, ?_, ?_, ?_, ?_, ?_⟩
  · intro harity htuples
    rw [Relation.extend_toStore, Relation.extend_eq_error harity htuples]
    rfl
  · intro h
    obtain ⟨n, r', hextend, hgains, hagain⟩ := Relation.exists_extend_eq_ok h
    refine ⟨n, r'.toStore, ?_, hgains, ?_⟩
    · rw [Relation.extend_toStore, hextend]
      rfl
    · rw [Relation.extend_toStore, hagain]
      rfl
  · exact fun p h => if_pos h
  · intro p h
    change r.arity = p.arity at h
    refine ⟨_, _, ?_, Database.gains_union h⟩
    rw [Database.insertRelation_toStore, Database.insertRelation, dif_pos h]
    rfl
  · refine ⟨_, _, Database.merge_toStore db db', ?_, ?_⟩
    · simp only [Database.relation_toStore, Relation.tuples_toStore]
      exact Database.gains_merge db db'
    · rw [Database.merge_toStore, Database.merge_merge_fst]
  · intro p t e h
    rw [Database.insert_toStore] at h ⊢
    rw [Database.answers_toStore, Database.answers_toStore]
    exact Database.answers_insert_of_error h
  · intro fact e h
    rw [Database.insertAtom_toStore] at h ⊢
    rw [Database.answers_toStore, Database.answers_toStore]
    exact Database.answers_insertAtom_of_error h
  · exact ⟨r, q, db, db', ⟨rfl, rfl, rfl, rfl⟩, (Database.answers_toStore db).symm,
      r.add_toStore, r.extend_toStore q, db.insert_toStore, db.insertAtom_toStore,
      fun p => db.insertRelation_toStore p r, db.merge_toStore db'⟩

/-- The guard of a predicate with two columns has one. Two databases store a part of it each; a pair
does not belong there. -/
theorem stores_coherent_guard :
    let a : Term := .const (.symbol "a")
    let b : Term := .const (.symbol "b")
    let guard : Predicate := .magic ⟨"path", [.bound, .free]⟩
    let s := ((TupleStore.empty 1).add [a]).2
    let o := (((TupleStore.empty 1).add [b]).2.add [a]).2
    let st := (FactStore.empty.insert guard [a]).2
    let other := ((FactStore.empty.insert (.plain "edge" 2) [a, b]).2.insertRelation guard o).2
    (s.Reachable ∧ o.Reachable ∧ st.Reachable ∧ other.Reachable) ∧
    (s.extend o).1 = .ok 1 ∧ (s.extend o).2.tuples = [[a], [b]] ∧
    (st.insertRelation (.plain "edge" 2) s).2 = st ∧
    (st.merge other).1 = .ok 2 ∧ ((st.merge other).2.merge other).1 = .ok 0 ∧
    (st.insert guard [a, b]).2.answers = st.answers := by
  intro a b guard s o st other
  have hs : s.Reachable := .add (.empty 1) _
  have ho : o.Reachable := .add (.add (.empty 1) _) _
  have hst : st.Reachable := .insert .empty _ _
  have hother : other.Reachable := .insertRelation (.insert .empty _ _) _ ho
  obtain ⟨-, -, -, hrefused, -, ⟨n, st', hmerge, -, hagain⟩, hinsert, -⟩ :=
    stores_coherent hs ho hst hother
  refine ⟨⟨hs, ho, hst, hother⟩, rfl, rfl, ?_, rfl, ?_, ?_⟩
  · rw [hrefused (.plain "edge" 2) (by decide)]
  · rw [hmerge]
    exact hagain
  · exact hinsert guard [a, b] ⟨some guard, 1, 2⟩ rfl

end Deduction
