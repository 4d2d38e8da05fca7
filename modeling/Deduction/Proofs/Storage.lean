import Mathlib.Data.List.Basic
import Mathlib.Data.List.Perm.Subperm
import Mathlib.Data.Set.Basic
import Deduction.Database
import Deduction.Proofs.Lists

/-!
# What databases store

A database is seen as the set of the facts that it stores, `Database.atoms`. Every operation is
described by its effect on that set and on the predicates that have a relation:

* `mem_atoms_insertAtom`, `insertAtom_isOk_iff`: a fact is stored if it is ground and of the right
  length.
* `ofFacts_isOk_iff`, `ofFacts_spec`: so is a list of facts.
* `atoms_merge`: merging is union. What is new comes behind what was stored (`tuples_merge`) and is
  counted (`size_merge_snd`); sizes add up if nothing is stored twice (`size_merge`).
* `same_iff`: databases are the same if they store the same facts, and have relations for the same
  predicates. Such databases have the same size (`size_eq_of_same`).
-/

namespace Deduction

namespace Table

variable {κ ν : Type} [DecidableEq κ]

theorem get?_eq_some_iff {m : Table κ ν} {k : κ} {v : ν} :
    m.get? k = some v ↔ (k, v) ∈ m.entries := by
  refine ⟨mem_of_get?, fun h => ?_⟩
  obtain ⟨entries, nodup⟩ := m
  simp only [get?] at h ⊢
  induction entries with
  | nil => cases h
  | cons e es ih =>
    rw [List.map_cons, List.nodup_cons] at nodup
    rw [List.lookup_cons]
    rcases List.mem_cons.1 h with rfl | h
    · simp
    -- The key of the head does not occur again, so the lookup goes on to the tail.
    · have hne : k ≠ e.1 := by
        rintro rfl
        exact nodup.1 (List.mem_map.2 ⟨_, h, rfl⟩)
      have hbeq : (k == e.1) = false := by simpa using hne
      rw [hbeq]
      exact ih nodup.2 h

theorem isSome_get?_iff {m : Table κ ν} {k : κ} : (m.get? k).isSome ↔ k ∈ m.keys := by
  rw [Option.isSome_iff_exists, keys, List.mem_map]
  constructor
  · rintro ⟨v, hv⟩
    exact ⟨(k, v), get?_eq_some_iff.1 hv, rfl⟩
  · rintro ⟨⟨_, v⟩, hmem, rfl⟩
    exact ⟨v, get?_eq_some_iff.2 hmem⟩

end Table

theorem Relation.mem_missing {r s : Relation} {t : Tuple} :
    t ∈ r.missing s ↔ t ∈ s.tuples ∧ t ∉ r.tuples := by
  simp [missing, contains]

namespace Database

variable {db other : Database} {a f : Atom} {p q : Predicate}

/-- The facts that a database stores. -/
def atoms (db : Database) : Set Atom :=
  {a | db.contains a.predicate a.terms = true}

theorem mem_atoms : a ∈ db.atoms ↔ a.terms ∈ (db.relation a.predicate).tuples := by
  rw [atoms, Set.mem_ofPred_eq, contains, Relation.contains_iff]

theorem contains_iff_mem_atoms {t : Tuple} : db.contains p t = true ↔ ⟨p, t⟩ ∈ db.atoms := Iff.rfl

theorem mem_tuples_iff {t : Tuple} : t ∈ (db.relation p).tuples ↔ ⟨p, t⟩ ∈ db.atoms :=
  (mem_atoms (a := ⟨p, t⟩)).symm

/-- Stored facts have as many terms as their predicates have columns. -/
theorem length_of_mem_atoms (h : a ∈ db.atoms) : a.terms.length = a.predicate.arity := by
  rw [(db.relation a.predicate).length_eq _ (mem_atoms.1 h), arity_relation]

theorem isSome_relation?_of_mem_atoms (h : a ∈ db.atoms) :
    (db.relation? a.predicate).isSome := by
  rw [mem_atoms, relation] at h
  cases hr : db.relation? a.predicate with
  | none => simp [hr, Relation.empty] at h
  | some r => rfl

@[simp]
theorem atoms_empty : empty.atoms = ∅ := by
  ext a
  simp only [mem_atoms, Set.mem_empty_iff_false, iff_false]
  exact List.not_mem_nil

theorem relation?_empty : empty.relation? p = none := rfl

theorem hasTuples_iff : db.hasTuples p = true ↔ ∃ a ∈ db.atoms, a.predicate = p := by
  rw [hasTuples, Relation.isEmpty, Bool.not_eq_true', List.isEmpty_eq_false_iff_exists_mem]
  constructor
  · rintro ⟨t, ht⟩
    exact ⟨⟨p, t⟩, mem_atoms.2 ht, rfl⟩
  · rintro ⟨a, ha, rfl⟩
    exact ⟨a.terms, mem_atoms.1 ha⟩

/-! ## Replacing relations -/

theorem relation?_set {r : Relation} {h : r.arity = p.arity} :
    (db.set p r h).relation? q = if q = p then some r else db.relation? q :=
  Table.get?_insert _ _ _ _

theorem relation_set {r : Relation} {h : r.arity = p.arity} :
    (db.set p r h).relation q = if q = p then r else db.relation q := by
  rw [relation, relation?_set]
  split <;> rfl

theorem mem_atoms_set {r : Relation} {h : r.arity = p.arity} :
    a ∈ (db.set p r h).atoms ↔
      (a.predicate = p ∧ a.terms ∈ r.tuples) ∨ (a.predicate ≠ p ∧ a ∈ db.atoms) := by
  rw [mem_atoms, mem_atoms, relation_set]
  split <;> simp_all

/-! ## Insertion -/

theorem insertAtom_isOk_iff (db : Database) :
    (∃ b, (db.insertAtom f).1 = .ok b) ↔
      f.isGround = true ∧ f.terms.length = f.predicate.arity := by
  rw [insertAtom]
  split
  · next hground =>
    simp only [insert, hground, true_and, ← arity_relation db f.predicate]
    split
    · next hlength => exact iff_of_true ⟨_, rfl⟩ hlength
    · next hlength => simp [Except.mapError, hlength]
  · simp_all

/-- An atom with variables is refused, and so is a ground atom with the wrong number of terms. -/
theorem insertAtom_eq_error_iff {e : FactError} :
    (db.insertAtom f).1 = .error e ↔
      (f.isGround = false ∧ e = .notGround f) ∨
      (f.isGround = true ∧ f.terms.length ≠ f.predicate.arity ∧
        e = .arity ⟨some f.predicate, f.predicate.arity, f.terms.length⟩) := by
  rw [insertAtom]
  split
  · next hground =>
    simp only [insert, hground, true_and, ← arity_relation db f.predicate]
    split
    · next hlength => simp [Except.mapError, hlength]
    · next hlength => simp [Except.mapError, hlength, eq_comm]
  · next hopen => simp [hopen, eq_comm]

theorem insertAtom_snd_of_ok {b : Bool} (h : (db.insertAtom f).1 = .ok b) :
    ∃ hf hr, (db.insertAtom f).2 =
      db.set f.predicate ((db.relation f.predicate).add f.terms hf) hr := by
  obtain ⟨hground, hlength⟩ := (db.insertAtom_isOk_iff).1 ⟨b, h⟩
  have hf : f.terms.length = (db.relation f.predicate).arity := by rw [arity_relation, hlength]
  refine ⟨hf, by rw [Relation.arity_add, arity_relation], ?_⟩
  simp only [insertAtom, hground, if_true, insert, hf, dite_true]

theorem mem_atoms_insertAtom {b : Bool} (h : (db.insertAtom f).1 = .ok b) :
    a ∈ (db.insertAtom f).2.atoms ↔ a = f ∨ a ∈ db.atoms := by
  obtain ⟨hf, hr, heq⟩ := insertAtom_snd_of_ok h
  rw [heq, mem_atoms_set, Relation.mem_tuples_add, mem_atoms]
  obtain ⟨p, t⟩ := a
  obtain ⟨q, u⟩ := f
  simp only [Atom.mk.injEq]
  by_cases hp : p = q
  · subst hp
    simp
  · simp [hp]

theorem isSome_relation?_insertAtom {b : Bool} (h : (db.insertAtom f).1 = .ok b) :
    ((db.insertAtom f).2.relation? p).isSome ↔ p = f.predicate ∨ (db.relation? p).isSome := by
  obtain ⟨hf, hr, heq⟩ := insertAtom_snd_of_ok h
  rw [heq, relation?_set]
  split <;> simp_all

/-- The loop that stores a list of facts, from any database on. -/
def insertAll (db : Database) (facts : List Atom) : Except FactError Database :=
  facts.foldlM (fun db fact =>
    match db.insertAtom fact with
    | (.ok _, db) => .ok db
    | (.error e, _) => .error e) db

theorem ofFacts_eq_insertAll (facts : List Atom) : ofFacts facts = empty.insertAll facts := rfl

theorem insertAll_cons_eq_ok_iff {facts : List Atom} {result : Database} :
    db.insertAll (f :: facts) = .ok result ↔
      (∃ b, (db.insertAtom f).1 = .ok b) ∧ (db.insertAtom f).2.insertAll facts = .ok result := by
  rw [insertAll, List.foldlM_cons, bind_eq_ok_iff]
  rcases db.insertAtom f with ⟨e | b, db'⟩
  · simp
  · simp [insertAll]

/-- A list of facts is accepted if they are all ground and have as many terms as their predicates
have columns. -/
theorem ofFacts_isOk_iff {facts : List Atom} :
    (∃ db, ofFacts facts = .ok db) ↔
      ∀ f ∈ facts, f.isGround = true ∧ f.terms.length = f.predicate.arity := by
  rw [ofFacts_eq_insertAll]
  generalize empty = db
  induction facts generalizing db with
  | nil => exact iff_of_true ⟨db, rfl⟩ (by simp)
  | cons f facts ih =>
    rw [List.forall_mem_cons, ← ih (db.insertAtom f).2, ← db.insertAtom_isOk_iff]
    simp only [insertAll_cons_eq_ok_iff, exists_and_left]

theorem insertAll_spec {facts : List Atom} {result : Database}
    (h : db.insertAll facts = .ok result) :
    (∀ a, a ∈ result.atoms ↔ a ∈ db.atoms ∨ a ∈ facts) ∧
    ∀ p, (result.relation? p).isSome ↔
      (db.relation? p).isSome ∨ ∃ f ∈ facts, f.predicate = p := by
  induction facts generalizing db with
  | nil =>
    obtain rfl := Except.ok.inj h
    simp
  | cons f facts ih =>
    obtain ⟨⟨b, hb⟩, h⟩ := insertAll_cons_eq_ok_iff.1 h
    obtain ⟨hatoms, hkeys⟩ := ih h
    refine ⟨fun a => ?_, fun p => ?_⟩
    · rw [hatoms, mem_atoms_insertAtom hb, List.mem_cons]
      tauto
    · rw [hkeys, isSome_relation?_insertAtom hb, List.exists_mem_cons_iff, eq_comm]
      tauto

/-- The database of a list of facts stores these facts, and has relations for their predicates. -/
theorem ofFacts_spec {facts : List Atom} (h : ofFacts facts = .ok db) :
    (∀ a, a ∈ db.atoms ↔ a ∈ facts) ∧
    ∀ p, (db.relation? p).isSome ↔ ∃ f ∈ facts, f.predicate = p := by
  simpa [relation?_empty] using insertAll_spec h

/-! ## Merging -/

theorem union_snd {r : Relation} (h : r.arity = p.arity) :
    (db.union p r h).2 =
      db.set p ((db.relation p).union r (h.trans (arity_relation db p).symm))
        (by rw [Relation.arity_union, arity_relation]) := rfl

theorem mem_atoms_union {r : Relation} {h : r.arity = p.arity} :
    a ∈ (db.union p r h).2.atoms ↔ a ∈ db.atoms ∨ (a.predicate = p ∧ a.terms ∈ r.tuples) := by
  rw [union_snd, mem_atoms_set, Relation.mem_tuples_union]
  by_cases hp : a.predicate = p
  · subst hp
    simp [mem_atoms]
  · simp [hp]

theorem isSome_relation?_union {r : Relation} {h : r.arity = p.arity} :
    ((db.union p r h).2.relation? q).isSome ↔ (db.relation? q).isSome ∨ q = p := by
  rw [union_snd, relation?_set]
  split <;> simp_all

theorem mem_entries_iff {r : Relation} :
    (p, r) ∈ db.relations.entries ↔ db.relation? p = some r :=
  Table.get?_eq_some_iff.symm

/-- What holds before merging, and is kept by taking in one relation after the other, holds after it.
The relations are those of the part of the other database that has been gone through. -/
theorem merge_induction (db other : Database)
    {P : List (Predicate × Relation) → Nat → Database → Prop} (hnil : P [] 0 db)
    (hstep : ∀ es e n db', es ++ [e] <+: other.relations.entries →
      ∀ h : e.2.arity = e.1.arity, P es n db' →
        P (es ++ [e]) (n + (db'.union e.1 e.2 h).1) (db'.union e.1 e.2 h).2) :
    P other.relations.entries (db.merge other).1 (db.merge other).2 := by
  have hloop : ∀ es : List {e // e ∈ other.relations.entries},
      es.map (·.1) <+: other.relations.entries →
      let result := es.foldl (fun (acc : Nat × Database) e =>
        (acc.1 + (acc.2.union e.1.1 e.1.2 (other.arity_eq e.1 e.2)).1,
          (acc.2.union e.1.1 e.1.2 (other.arity_eq e.1 e.2)).2)) (0, db)
      P (es.map (·.1)) result.1 result.2 := by
    intro es
    induction es using List.reverseRecOn with
    | nil => exact fun _ => hnil
    | append_singleton es e ih =>
      intro hfirst
      rw [List.map_append] at hfirst ⊢
      rw [List.foldl_append]
      exact hstep _ _ _ _ hfirst _ (ih ((List.prefix_append _ _).trans hfirst))
  have hall := hloop other.relations.entries.attach
  rw [List.attach_map_subtype_val] at hall
  exact hall (List.prefix_refl _)

/-- Merging stores the facts of both databases, and makes relations for the predicates of both. -/
theorem merge_spec (db other : Database) :
    (∀ a, a ∈ (db.merge other).2.atoms ↔ a ∈ db.atoms ∨ a ∈ other.atoms) ∧
    ∀ p, ((db.merge other).2.relation? p).isSome ↔
      (db.relation? p).isSome ∨ (other.relation? p).isSome := by
  obtain ⟨hatoms, hkeys⟩ := merge_induction db other
    (P := fun es _ db' =>
      (∀ a, a ∈ db'.atoms ↔ a ∈ db.atoms ∨ ∃ e ∈ es, a.predicate = e.1 ∧ a.terms ∈ e.2.tuples) ∧
      ∀ p, (db'.relation? p).isSome ↔ (db.relation? p).isSome ∨ ∃ e ∈ es, p = e.1)
    (by simp) (by
      rintro es e n db' - h ⟨hatoms, hkeys⟩
      refine ⟨fun a => ?_, fun p => ?_⟩
      · rw [mem_atoms_union, hatoms, or_assoc]
        simp [or_and_right, exists_or]
      · rw [isSome_relation?_union, hkeys, or_assoc]
        simp [or_and_right, exists_or])
  refine ⟨fun a => (hatoms a).trans (or_congr_right ?_),
    fun p => (hkeys p).trans (or_congr_right ?_)⟩
  -- The facts of `other` are the tuples of its entries, and its predicates their keys.
  · constructor
    · rintro ⟨⟨p, r⟩, hmem, rfl, ht⟩
      rw [mem_atoms, relation, mem_entries_iff.1 hmem]
      exact ht
    · intro ha
      obtain ⟨r, hr⟩ := Option.isSome_iff_exists.1 (isSome_relation?_of_mem_atoms ha)
      rw [mem_atoms, relation, hr] at ha
      exact ⟨(_, r), mem_entries_iff.2 hr, rfl, ha⟩
  · constructor
    · rintro ⟨⟨p, r⟩, hmem, rfl⟩
      rw [mem_entries_iff.1 hmem]
      rfl
    · intro hp
      obtain ⟨r, hr⟩ := Option.isSome_iff_exists.1 hp
      exact ⟨(p, r), mem_entries_iff.2 hr, rfl⟩

theorem atoms_merge (db other : Database) :
    (db.merge other).2.atoms = db.atoms ∪ other.atoms :=
  Set.ext (merge_spec db other).1

/-- A relation that is taken in comes after the tuples that are stored already. -/
theorem tuples_union {r : Relation} (h : r.arity = p.arity) (q : Predicate) :
    ((db.union p r h).2.relation q).tuples =
      (db.relation q).tuples ++ if q = p then (db.relation q).missing r else [] := by
  rw [union_snd, relation_set]
  split
  · next hq => rw [hq, Relation.union]
  · rw [List.append_nil]

/-- Merging puts the tuples that a relation misses behind those that it has. -/
theorem tuples_merge (db other : Database) (p : Predicate) :
    ((db.merge other).2.relation p).tuples =
      (db.relation p).tuples ++ (db.relation p).missing (other.relation p) := by
  have hmerge := merge_induction db other
    (P := fun es _ db' => ∀ p, (db'.relation p).tuples =
      (db.relation p).tuples ++ (es.lookup p).elim [] (db.relation p).missing)
    (fun p => (List.append_nil _).symm) (by
      rintro es ⟨q, r⟩ n db' hfirst h hdb' p
      rw [tuples_union, hdb', List.append_assoc, List.lookup_append]
      congr 1
      -- Each predicate has its turn once.
      have hq : es.lookup q = none := by
        have hnodup := other.relations.nodup.sublist (hfirst.sublist.map (·.1))
        rw [List.map_append, List.nodup_append] at hnodup
        refine List.lookup_eq_none_iff.2 fun e he => ?_
        simpa using (hnodup.2.2 e.1 (List.mem_map_of_mem he) q (by simp)).symm
      by_cases hp : p = q
      · subst hp
        have hrelation := hdb' p
        rw [hq, Option.elim_none, List.append_nil] at hrelation
        simp [hq, Relation.missing, Relation.contains, hrelation]
      · have hbeq : (p == q) = false := by simpa using hp
        simp [hp, List.lookup_cons, hbeq])
  have hother : other.relation p = (other.relations.entries.lookup p).getD (.empty p.arity) := rfl
  rw [hmerge p, hother]
  cases other.relations.entries.lookup p <;> rfl

/-! ## Sameness -/

theorem keys_perm_of_isSome_iff
    (h : ∀ p, (db.relation? p).isSome ↔ (other.relation? p).isSome) :
    db.relations.keys.Perm other.relations.keys := by
  refine (List.perm_ext_iff_of_nodup db.relations.nodup other.relations.nodup).2 fun p => ?_
  have hp := h p
  rwa [relation?, relation?, Table.isSome_get?_iff, Table.isSome_get?_iff] at hp

theorem relation_same_of_atoms_eq (h : db.atoms = other.atoms) (p : Predicate) :
    (db.relation p).same (other.relation p) = true := by
  rw [Relation.same_iff, arity_relation, arity_relation]
  refine ⟨rfl, fun t => ?_⟩
  rw [mem_tuples_iff, mem_tuples_iff, h]

/-- The relations of a database have counterparts with the same tuples in a database that is the
same. -/
theorem exists_relation?_of_same (h : db.same other = true) {r : Relation}
    (hr : db.relation? p = some r) :
    ∃ r', other.relation? p = some r' ∧ ∀ t, t ∈ r.tuples ↔ t ∈ r'.tuples := by
  simp only [same, Bool.and_eq_true, decide_eq_true_eq, List.all_eq_true] at h
  have hsame := h.2 (p, r) (mem_entries_iff.2 hr)
  cases hr' : other.relation? p with
  | none => simp [hr'] at hsame
  | some r' =>
    simp only [hr', Relation.same_iff] at hsame
    exact ⟨r', rfl, hsame.2⟩

theorem isSome_relation?_iff_of_same (h : db.same other = true) (p : Predicate) :
    (db.relation? p).isSome ↔ (other.relation? p).isSome := by
  have hsub : db.relations.keys ⊆ other.relations.keys := by
    intro p hp
    obtain ⟨r, hr⟩ := Option.isSome_iff_exists.1 (Table.isSome_get?_iff.2 hp)
    obtain ⟨r', hr', -⟩ := exists_relation?_of_same h hr
    exact Table.isSome_get?_iff.1 (Option.isSome_of_eq_some hr')
  -- There are as many predicates on both sides, so those of `other` are all in `db`.
  have hperm : db.relations.keys.Perm other.relations.keys := by
    simp only [same, Bool.and_eq_true, decide_eq_true_eq] at h
    refine (List.subperm_of_subset db.relations.nodup hsub).perm_of_length_le ?_
    simpa [Table.keys, Table.size] using h.1.ge
  rw [relation?, relation?, Table.isSome_get?_iff, Table.isSome_get?_iff, hperm.mem_iff]

theorem atoms_eq_of_same (h : db.same other = true) : db.atoms = other.atoms := by
  ext a
  rw [mem_atoms, mem_atoms, relation, relation]
  cases hr : db.relation? a.predicate with
  | none =>
    -- A predicate without a relation on one side has none on the other, and no facts.
    have hnone : other.relation? a.predicate = none := by
      rw [← Option.not_isSome_iff_eq_none, ← isSome_relation?_iff_of_same h, hr]
      simp
    rw [hnone]
  | some r =>
    obtain ⟨r', hr', hmem⟩ := exists_relation?_of_same h hr
    rw [hr']
    exact hmem _

/-- Databases are the same if they store the same facts and have relations for the same
predicates. -/
theorem same_iff :
    db.same other = true ↔
      (∀ p, (db.relation? p).isSome ↔ (other.relation? p).isSome) ∧ db.atoms = other.atoms := by
  refine ⟨fun h => ⟨isSome_relation?_iff_of_same h, atoms_eq_of_same h⟩, ?_⟩
  rintro ⟨hkeys, hatoms⟩
  simp only [same, Bool.and_eq_true, decide_eq_true_eq, List.all_eq_true]
  refine ⟨?_, fun e he => ?_⟩
  · simpa [Table.keys, Table.size] using (keys_perm_of_isSome_iff hkeys).length_eq
  · obtain ⟨p, r⟩ := e
    have hr := mem_entries_iff.1 he
    obtain ⟨r', hr'⟩ := Option.isSome_iff_exists.1
      ((hkeys p).1 (Option.isSome_of_eq_some hr))
    have hsame := relation_same_of_atoms_eq hatoms p
    rw [relation, relation, hr, hr'] at hsame
    simpa [hr'] using hsame

/-- Databases of the same facts are the same, however the facts are listed. -/
theorem same_of_perm {facts facts' : List Atom} (hperm : facts.Perm facts')
    (h : ofFacts facts = .ok db) (h' : ofFacts facts' = .ok other) : db.same other = true := by
  obtain ⟨hatoms, hkeys⟩ := ofFacts_spec h
  obtain ⟨hatoms', hkeys'⟩ := ofFacts_spec h'
  refine same_iff.2 ⟨fun p => ?_, Set.ext fun a => ?_⟩
  · simp only [hkeys, hkeys', hperm.mem_iff]
  · rw [hatoms, hatoms', hperm.mem_iff]

/-! ## Sizes -/

/-- The facts that a database stores, one relation after the other. -/
def facts (db : Database) : List Atom :=
  db.relations.entries.flatMap fun e => e.2.tuples.map (Atom.mk e.1)

theorem mem_facts : a ∈ db.facts ↔ a ∈ db.atoms := by
  simp only [facts, List.mem_flatMap, List.mem_map]
  constructor
  · rintro ⟨⟨p, r⟩, he, t, ht, rfl⟩
    rwa [mem_atoms, relation, mem_entries_iff.1 he]
  · intro ha
    obtain ⟨r, hr⟩ := Option.isSome_iff_exists.1 (isSome_relation?_of_mem_atoms ha)
    rw [mem_atoms, relation, hr] at ha
    exact ⟨(_, r), mem_entries_iff.2 hr, _, ha, rfl⟩

theorem nodup_facts (db : Database) : db.facts.Nodup := by
  refine List.nodup_flatMap.2 ⟨fun e _ => e.2.nodup.map fun t u h => (Atom.mk.inj h).2, ?_⟩
  -- Facts of different relations have different predicates.
  refine (List.pairwise_map.1 db.relations.nodup).imp fun {e e'} hne a ha ha' => hne ?_
  obtain ⟨t, -, rfl⟩ := List.mem_map.1 ha
  obtain ⟨t', -, heq⟩ := List.mem_map.1 ha'
  exact (Atom.mk.inj heq).1.symm

theorem length_facts (db : Database) : db.facts.length = db.size := by
  rw [facts, size]
  induction db.relations.entries with
  | nil => rfl
  | cons e entries ih =>
    rw [List.flatMap_cons, List.length_append, List.length_map, ih, List.foldr_cons, Relation.size]

/-- A database has as many facts as any list of them without repeats. -/
theorem size_eq_length {as : List Atom} (hnodup : as.Nodup) (h : ∀ a, a ∈ as ↔ a ∈ db.atoms) :
    db.size = as.length := by
  rw [← length_facts]
  refine ((List.perm_ext_iff_of_nodup db.nodup_facts hnodup).2 fun a => ?_).length_eq
  rw [mem_facts, h]

/-- Databases that are the same have as many facts. -/
theorem size_eq_of_same (h : db.same other = true) : db.size = other.size := by
  rw [size_eq_length other.nodup_facts fun a => ?_, length_facts]
  rw [mem_facts, (same_iff.1 h).2]

/-- Databases that have no facts in common add up. -/
theorem size_merge (h : ∀ a ∈ other.atoms, a ∉ db.atoms) :
    (db.merge other).2.size = db.size + other.size := by
  have hnodup : (db.facts ++ other.facts).Nodup :=
    List.nodup_append.2 ⟨db.nodup_facts, other.nodup_facts, fun a ha b hb heq =>
      h b (mem_facts.1 hb) (heq ▸ mem_facts.1 ha)⟩
  rw [size_eq_length hnodup fun a => ?_, List.length_append, length_facts, length_facts]
  rw [List.mem_append, mem_facts, mem_facts, atoms_merge, Set.mem_union]

/-- The relation that is taken in brings as many facts as are counted. -/
theorem size_union {r : Relation} (h : r.arity = p.arity) :
    (db.union p r h).2.size = db.size + (db.union p r h).1 := by
  have hnodup : (db.facts ++ ((db.relation p).missing r).map (Atom.mk p)).Nodup := by
    refine List.nodup_append.2 ⟨db.nodup_facts,
      (r.nodup.sublist List.filter_sublist).map fun t u htu => (Atom.mk.inj htu).2, ?_⟩
    rintro a ha b hb rfl
    obtain ⟨t, ht, rfl⟩ := List.mem_map.1 hb
    exact (Relation.mem_missing.1 ht).2 (mem_tuples_iff.2 (mem_facts.1 ha))
  rw [size_eq_length hnodup fun a => ?_, List.length_append, length_facts, List.length_map]
  · rfl
  · obtain ⟨q, t⟩ := a
    rw [List.mem_append, mem_facts, mem_atoms_union, List.mem_map]
    simp only [Relation.mem_missing, mem_tuples_iff, Atom.mk.injEq]
    by_cases ha : ⟨q, t⟩ ∈ db.atoms
    · simp [ha]
    · constructor
      · rintro (h | ⟨u, hu, rfl, rfl⟩)
        · exact .inl h
        · exact .inr ⟨rfl, hu.1⟩
      · rintro (h | ⟨rfl, ht⟩)
        · exact .inl h
        · exact .inr ⟨t, ⟨ht, ha⟩, rfl, rfl⟩

/-- Merging brings as many facts as are counted. -/
theorem size_merge_snd (db other : Database) :
    (db.merge other).2.size = db.size + (db.merge other).1 := by
  refine merge_induction db other (P := fun _ n db' => db'.size = db.size + n) rfl ?_
  intro es e n db' _ h hdb'
  rw [size_union, hdb', Nat.add_assoc]

theorem isEmpty_iff : db.isEmpty = true ↔ db.atoms = ∅ := by
  rw [isEmpty, List.all_eq_true, Set.eq_empty_iff_forall_notMem]
  constructor
  · intro h a ha
    obtain ⟨r, hr⟩ := Option.isSome_iff_exists.1 (isSome_relation?_of_mem_atoms ha)
    have hempty := h (_, r) (mem_entries_iff.2 hr)
    rw [mem_atoms, relation, hr] at ha
    exact List.ne_nil_of_mem ha (List.isEmpty_iff.1 hempty)
  · rintro h ⟨p, r⟩ he
    rw [Relation.isEmpty, List.isEmpty_iff, List.eq_nil_iff_forall_not_mem]
    intro t ht
    refine h ⟨p, t⟩ (mem_atoms.2 ?_)
    rw [relation, mem_entries_iff.1 he]
    exact ht

theorem size_eq_zero (h : db.isEmpty = true) : db.size = 0 := by
  rw [size_eq_length List.nodup_nil fun a => ?_, List.length_nil]
  simp [isEmpty_iff.1 h]

end Database

end Deduction
