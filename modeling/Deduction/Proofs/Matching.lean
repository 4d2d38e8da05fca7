import Deduction.Matching
import Deduction.Proofs.Storage

/-!
# Runs of a match

A scheduled body is matched by a search that may meet an error. The search is described by two
relations: `Run` says that a choice of tuples leads through the whole body, and `Stuck` that one
leads to a builtin that fails. A search succeeds if it cannot get stuck, and then finds the ends of
the runs (`solutions_isOk_iff`, `mem_solutions`).

Both relations read the databases through the facts that they store. They grow with the databases of
the positive literals (`Run.mono`, `Stuck.mono`), and a run over the union of two databases is one
over the first, or uses a tuple of the second at some position (`Run.of_union`, `Stuck.of_union`).
The last is what allows later rounds to look at new tuples only.
-/

namespace Deduction

namespace Matching

variable {ctx : Context} {full full' old delta source : Database} {s s' s'' : Substitution}
  {body xs ys : List (Literal × Database)} {a : Atom} {l : Literal}

/-! ## Single literals -/

/-- A literal can be matched in a way that extends one substitution to another. -/
def Extends (ctx : Context) (full source : Database) (l : Literal) (s s' : Substitution) : Prop :=
  ∃ found, extensions ctx full source s l = .ok found ∧ s' ∈ found

/-- Matching a literal fails with an error. -/
def Fails (ctx : Context) (full source : Database) (l : Literal) (s : Substitution) : Prop :=
  ∃ e, extensions ctx full source s l = .error e

/-- The databases store the same facts for a predicate. -/
def Agree (db db' : Database) (p : Predicate) : Prop :=
  ∀ t, ⟨p, t⟩ ∈ db.atoms ↔ ⟨p, t⟩ ∈ db'.atoms

theorem Agree.of_atoms_eq {p : Predicate} (h : full.atoms = full'.atoms) : Agree full full' p :=
  fun t => by rw [h]

theorem extends_positive :
    Extends ctx full source (.positive a) s s' ↔
      ∃ t, ⟨a.predicate, t⟩ ∈ source.atoms ∧ (s.unifyAll a.terms t).substitution? = some s' := by
  simp only [Extends, extensions, Except.ok.injEq, exists_eq_left', Database.query,
    List.mem_filterMap, Database.mem_tuples_iff]

theorem extends_negative :
    Extends ctx full source (.negative a) s s' ↔ ¬full.matchesAny a s = true ∧ s' = s := by
  simp only [Extends, extensions, Except.ok.injEq, exists_eq_left']
  split <;> simp_all

theorem matchesAny_congr (h : Agree full full' a.predicate) (s : Substitution) :
    full.matchesAny a s = full'.matchesAny a s := by
  have hmem : ∀ t, t ∈ (full.relation a.predicate).tuples ↔
      t ∈ (full'.relation a.predicate).tuples := fun t => by
    rw [Database.mem_tuples_iff, Database.mem_tuples_iff, h t]
  simp only [Database.matchesAny]
  split
  · rw [Bool.eq_iff_iff, Relation.contains_iff, Relation.contains_iff, hmem]
  · rw [Bool.eq_iff_iff, List.any_eq_true, List.any_eq_true]
    simp only [hmem]

/-- A literal is matched alike in databases with the same facts for its predicate; more facts in the
database of a positive literal give more ways to match it. -/
theorem Extends.mono {source' : Database} (h : Extends ctx full source l s s')
    (hsub : source.atoms ⊆ source'.atoms)
    (hneg : ∀ a, l = .negative a → Agree full full' a.predicate) :
    Extends ctx full' source' l s s' := by
  cases l with
  | positive a =>
    rw [extends_positive] at h ⊢
    obtain ⟨t, ht, hs'⟩ := h
    exact ⟨t, hsub ht, hs'⟩
  | negative a =>
    rw [extends_negative] at h ⊢
    rwa [← matchesAny_congr (hneg a rfl)]
  | builtin c => exact h

/-- A literal is matched alike in databases with the same facts for its predicate. -/
theorem Extends.congr (h : Extends ctx full full l s s')
    (hagree : ∀ a, l.atom? = some a → Agree full full' a.predicate) :
    Extends ctx full' full' l s s' := by
  cases l with
  | positive a =>
    rw [extends_positive] at h ⊢
    obtain ⟨t, ht, hs'⟩ := h
    exact ⟨t, (hagree a rfl t).1 ht, hs'⟩
  | negative a =>
    rw [extends_negative] at h ⊢
    rwa [← matchesAny_congr (hagree a rfl)]
  | builtin c => exact h

/-- Only builtins fail, and they read no database. -/
theorem Fails.mono {source' : Database} (h : Fails ctx full source l s) :
    Fails ctx full' source' l s := by
  cases l with
  | positive a => simp [Fails, extensions] at h
  | negative a => simp [Fails, extensions] at h
  | builtin c => exact h

/-! ## Whole bodies -/

/-- Matching the literals one after the other leads from one substitution to another. -/
inductive Run (ctx : Context) (full : Database) :
    List (Literal × Database) → Substitution → Substitution → Prop
  | nil (s : Substitution) : Run ctx full [] s s
  | cons {l : Literal} {source : Database} {body : List (Literal × Database)}
      {s s' s'' : Substitution} : Extends ctx full source l s s' → Run ctx full body s' s'' →
      Run ctx full ((l, source) :: body) s s''

/-- Matching the literals one after the other leads to one that fails. -/
inductive Stuck (ctx : Context) (full : Database) :
    List (Literal × Database) → Substitution → Prop
  | here {l : Literal} {source : Database} {body : List (Literal × Database)}
      {s : Substitution} : Fails ctx full source l s → Stuck ctx full ((l, source) :: body) s
  | later {l : Literal} {source : Database} {body : List (Literal × Database)}
      {s s' : Substitution} : Extends ctx full source l s s' → Stuck ctx full body s' →
      Stuck ctx full ((l, source) :: body) s

/-- Runs carry over to contexts in which single literals can be matched in the same ways. -/
theorem Run.imp {ctx' : Context}
    (hext : ∀ {source l s s'}, Extends ctx full source l s s' → Extends ctx' full source l s s')
    (h : Run ctx full body s s') : Run ctx' full body s s' := by
  induction h with
  | nil s => exact .nil s
  | cons hs _ ih => exact .cons (hext hs) ih

theorem Stuck.imp {ctx' : Context}
    (hext : ∀ {source l s s'}, Extends ctx full source l s s' → Extends ctx' full source l s s')
    (hfails : ∀ {source l s}, Fails ctx full source l s → Fails ctx' full source l s)
    (h : Stuck ctx full body s) : Stuck ctx' full body s := by
  induction h with
  | here hs => exact .here (hfails hs)
  | later hs _ ih => exact .later (hext hs) ih

/-- Matching a body succeeds if no run gets stuck. -/
theorem solutions_isOk_iff :
    (∃ found, solutions ctx full body s = .ok found) ↔ ¬Stuck ctx full body s := by
  induction body generalizing s with
  | nil =>
    refine iff_of_true ⟨[s], rfl⟩ ?_
    rintro ⟨⟩
  | cons x body ih =>
    obtain ⟨l, source⟩ := x
    rw [solutions]
    simp only [bind_eq_ok_iff]
    constructor
    -- A run that gets stuck does so here, or further on after one of the extensions found.
    · rintro ⟨_, found, hfound, hrest, hmap, -⟩ (⟨e, he⟩ | ⟨⟨found', hfound', hs'⟩, hstuck⟩)
      · rw [he] at hfound
        cases hfound
      · obtain rfl : found = found' := Except.ok.inj (hfound.symm.trans hfound')
        exact ih.1 (mapM_isOk_iff.1 ⟨hrest, hmap⟩ _ hs') hstuck
    · intro hstuck
      cases hext : extensions ctx full source s l with
      | error e => exact absurd (.here ⟨e, hext⟩) hstuck
      | ok found =>
        obtain ⟨rest, hrest⟩ := mapM_isOk_iff.2 fun s' hs' =>
          ih.2 fun h => hstuck (.later ⟨found, hext, hs'⟩ h)
        exact ⟨_, found, rfl, rest, hrest, rfl⟩

/-- The solutions of a body are the ends of its runs. -/
theorem mem_solutions {found : List Substitution} (h : solutions ctx full body s = .ok found) :
    s' ∈ found ↔ Run ctx full body s s' := by
  induction body generalizing s found with
  | nil =>
    obtain rfl := Except.ok.inj h
    rw [List.mem_singleton]
    constructor
    · rintro rfl
      exact .nil s'
    · rintro ⟨⟩
      rfl
  | cons x body ih =>
    obtain ⟨l, source⟩ := x
    rw [solutions] at h
    obtain ⟨ext, hext, h⟩ := bind_eq_ok_iff.1 h
    obtain ⟨rest, hrest, h⟩ := bind_eq_ok_iff.1 h
    obtain rfl := Except.ok.inj h
    simp only [List.mem_flatten, mem_of_mapM_eq_ok hrest]
    constructor
    · rintro ⟨found, ⟨s₁, hs₁, hfound⟩, hs'⟩
      exact .cons ⟨ext, hext, hs₁⟩ ((ih hfound).1 hs')
    · rintro (- | ⟨⟨ext', hext', hs₁⟩, hrun⟩)
      -- The search went on from every extension, so also from the one that the run takes.
      obtain rfl : ext = ext' := Except.ok.inj (hext.symm.trans hext')
      obtain ⟨found, hfound⟩ := mapM_isOk_iff.1 ⟨rest, hrest⟩ _ hs₁
      exact ⟨found, ⟨_, hs₁, hfound⟩, (ih hfound).2 hrun⟩

/-- The error of a search is that of a literal to which a run leads. -/
theorem exists_of_solutions_eq_error {e : EvaluationError}
    (h : solutions ctx full body s = .error e) :
    ∃ xs l source ys s', body = xs ++ (l, source) :: ys ∧ Run ctx full xs s s' ∧
      extensions ctx full source s' l = .error e := by
  induction body generalizing s with
  | nil => cases h
  | cons x body ih =>
    obtain ⟨l, source⟩ := x
    rw [solutions, bind_eq_error_iff] at h
    rcases h with h | ⟨ext, hext, h⟩
    · exact ⟨[], l, source, body, s, rfl, .nil s, h⟩
    rcases bind_eq_error_iff.1 h with h | ⟨found, -, h⟩
    · -- The search went wrong after one of the extensions.
      obtain ⟨s₁, hs₁, h⟩ := exists_of_mapM_eq_error h
      obtain ⟨xs, l', source', ys, s', rfl, hrun, he⟩ := ih h
      exact ⟨(l, source) :: xs, l', source', ys, s', rfl, .cons ⟨ext, hext, hs₁⟩ hrun, he⟩
    · cases h

/-! ## Growing databases -/

/-- The bodies have the same literals, and those of the second read at least the facts that those of
the first read. -/
abbrev Grows (xs ys : List (Literal × Database)) : Prop :=
  List.Forall₂ (fun x y => x.1 = y.1 ∧ x.2.atoms ⊆ y.2.atoms) xs ys

/-- The databases agree on the negated predicates of a body. -/
def AgreeOnNegated (db db' : Database) (body : List Literal) : Prop :=
  ∀ a, .negative a ∈ body → Agree db db' a.predicate

theorem AgreeOnNegated.of_atoms_eq (h : full.atoms = full'.atoms) (body : List Literal) :
    AgreeOnNegated full full' body :=
  fun _ _ => .of_atoms_eq h

theorem AgreeOnNegated.symm {body : List Literal} (h : AgreeOnNegated full full' body) :
    AgreeOnNegated full' full body :=
  fun a ha t => (h a ha t).symm

theorem Run.mono (h : Run ctx full xs s s') (hgrows : Grows xs ys)
    (hneg : AgreeOnNegated full full' (xs.map (·.1))) : Run ctx full' ys s s' := by
  induction h generalizing ys with
  | nil s =>
    obtain - | _ := hgrows
    exact .nil s
  | cons hext _ ih =>
    obtain - | ⟨⟨hl, hsub⟩, hrest⟩ := hgrows
    subst hl
    rw [List.map_cons] at hneg
    exact .cons (hext.mono hsub fun a ha => hneg a (ha ▸ List.mem_cons_self))
      (ih hrest fun a ha => hneg a (List.mem_cons_of_mem _ ha))

theorem Stuck.mono (h : Stuck ctx full xs s) (hgrows : Grows xs ys)
    (hneg : AgreeOnNegated full full' (xs.map (·.1))) : Stuck ctx full' ys s := by
  induction h generalizing ys with
  | here hfails =>
    obtain - | ⟨⟨hl, -⟩, -⟩ := hgrows
    subst hl
    exact .here hfails.mono
  | later hext _ ih =>
    obtain - | ⟨⟨hl, hsub⟩, hrest⟩ := hgrows
    subst hl
    rw [List.map_cons] at hneg
    exact .later (hext.mono hsub fun a ha => hneg a (ha ▸ List.mem_cons_self))
      (ih hrest fun a ha => hneg a (List.mem_cons_of_mem _ ha))

/-! ## Bodies that read one database, and bodies that read a delta at one position -/

/-- All literals read the same database. -/
def reading (db : Database) (body : List Literal) : List (Literal × Database) :=
  body.map (·, db)

/-- The literal at one position reads the delta, the others the database. -/
def readingAt (db delta : Database) (body : List Literal) (position : Nat) :
    List (Literal × Database) :=
  body.zipIdx.map fun (l, i) => (l, if i = position then delta else db)

theorem satisfy_eq (db : Database) (body : List Literal) :
    satisfy ctx db body = solutions ctx db (reading db body) Substitution.empty := rfl

theorem satisfyAt_eq (db delta : Database) (body : List Literal) (position : Nat) :
    satisfyAt ctx db delta body position =
      solutions ctx db (readingAt db delta body position) Substitution.empty := rfl

@[simp]
theorem map_fst_reading (db : Database) (body : List Literal) :
    (reading db body).map (·.1) = body := by
  exact List.ext_getElem (by simp [reading]) (by simp [reading])

theorem readingAt_eq_mapIdx (db delta : Database) (body : List Literal) (position : Nat) :
    readingAt db delta body position =
      body.mapIdx fun i l => (l, if i = position then delta else db) := by
  rw [readingAt, List.mapIdx_eq_zipIdx_map]

theorem readingAt_cons_zero (db delta : Database) (l : Literal) (body : List Literal) :
    readingAt db delta (l :: body) 0 = (l, delta) :: reading db body := by
  rw [readingAt_eq_mapIdx, List.mapIdx_cons, if_pos rfl, List.cons_inj_right, reading]
  exact List.ext_getElem (by simp) (by simp)

theorem readingAt_cons_succ (db delta : Database) (l : Literal) (body : List Literal) (i : Nat) :
    readingAt db delta (l :: body) (i + 1) = (l, db) :: readingAt db delta body i := by
  simp [readingAt_eq_mapIdx, List.mapIdx_cons]

@[simp]
theorem map_fst_readingAt (db delta : Database) (body : List Literal) (position : Nat) :
    (readingAt db delta body position).map (·.1) = body := by
  rw [readingAt_eq_mapIdx]
  exact List.ext_getElem (by simp) (by simp)

/-- The literals read the database and the delta, and nothing else. -/
theorem forall_mem_readingAt {P : Database → Prop} {db : Database} (hdb : P db) (hdelta : P delta)
    (body : List Literal) (position : Nat) : ∀ x ∈ readingAt db delta body position, P x.2 := by
  rw [readingAt, List.forall_mem_map]
  rintro ⟨l, i⟩ -
  dsimp only
  split
  · exact hdelta
  · exact hdb

theorem grows_reading {db db' : Database} (h : db.atoms ⊆ db'.atoms) (body : List Literal) :
    Grows (reading db body) (reading db' body) := by
  induction body with
  | nil => exact .nil
  | cons l body ih => exact .cons ⟨rfl, h⟩ ih

theorem grows_readingAt_reading {db : Database} (h : delta.atoms ⊆ db.atoms)
    (body : List Literal) (i : Nat) : Grows (readingAt db delta body i) (reading db body) := by
  induction body generalizing i with
  | nil => exact .nil
  | cons l body ih =>
    cases i with
    | zero =>
      rw [readingAt_cons_zero]
      exact .cons ⟨rfl, h⟩ (grows_reading (Set.Subset.refl _) body)
    | succ i =>
      rw [readingAt_cons_succ]
      exact .cons ⟨rfl, Set.Subset.refl _⟩ (ih i)

theorem mem_deltaPositions {body : List Literal} {i : Nat} :
    i ∈ deltaPositions delta body ↔
      ∃ a, body[i]? = some (.positive a) ∧ delta.hasTuples a.predicate = true := by
  -- A position is kept for a positive literal over a predicate with new tuples.
  simp only [deltaPositions, List.mem_filterMap, List.mem_zipIdx_iff_getElem?, Prod.exists]
  constructor
  · rintro ⟨l, j, hj, h⟩
    split at h
    · next a k heq =>
      obtain ⟨rfl, rfl⟩ := Prod.mk.inj heq
      split at h
      · next hdelta =>
        obtain rfl := Option.some.inj h
        exact ⟨a, hj, hdelta⟩
      · cases h
    · cases h
  · rintro ⟨a, ha, hdelta⟩
    exact ⟨.positive a, i, ha, by simp [hdelta]⟩

theorem zero_mem_deltaPositions {body : List Literal} {t : Tuple}
    (h : ⟨a.predicate, t⟩ ∈ delta.atoms) : 0 ∈ deltaPositions delta (.positive a :: body) :=
  mem_deltaPositions.2 ⟨a, rfl, Database.hasTuples_iff.2 ⟨_, h, rfl⟩⟩

theorem succ_mem_deltaPositions {body : List Literal} {i : Nat}
    (h : i ∈ deltaPositions delta body) : i + 1 ∈ deltaPositions delta (l :: body) := by
  rw [mem_deltaPositions] at h ⊢
  simpa using h

/-! ## Databases that agree on a body -/

/-- The databases agree on the predicates that a body reads. -/
def AgreeOn (db db' : Database) (body : List Literal) : Prop :=
  ∀ l ∈ body, ∀ a, l.atom? = some a → Agree db db' a.predicate

theorem AgreeOn.symm {body : List Literal} (h : AgreeOn full full' body) :
    AgreeOn full' full body :=
  fun l hl a ha t => (h l hl a ha t).symm

theorem Run.congr {body : List Literal} (h : Run ctx full (reading full body) s s')
    (hagree : AgreeOn full full' body) : Run ctx full' (reading full' body) s s' := by
  induction body generalizing s with
  | nil =>
    obtain - | _ := h
    exact .nil _
  | cons l body ih =>
    obtain - | ⟨hext, hrest⟩ := h
    exact .cons (hext.congr (hagree l (.head _))) (ih hrest fun l hl => hagree l (.tail _ hl))

theorem Stuck.congr {body : List Literal} (h : Stuck ctx full (reading full body) s)
    (hagree : AgreeOn full full' body) : Stuck ctx full' (reading full' body) s := by
  induction body generalizing s with
  | nil => cases h
  | cons l body ih =>
    obtain ⟨hfails⟩ | ⟨hext, hrest⟩ := h
    · exact .here hfails.mono
    · exact .later (hext.congr (hagree l (.head _))) (ih hrest fun l hl => hagree l (.tail _ hl))

section Union

variable (hunion : full.atoms ⊆ old.atoms ∪ delta.atoms)

include hunion

/-- A literal over the union of two databases is matched by a fact of the first, or is a positive
one that is matched by a fact of the second. -/
theorem Extends.of_union (h : Extends ctx full full l s s')
    (hneg : ∀ a, l = .negative a → Agree full old a.predicate) :
    Extends ctx old old l s s' ∨
      ∃ a t, l = .positive a ∧ ⟨a.predicate, t⟩ ∈ delta.atoms ∧ Extends ctx full delta l s s' := by
  cases l with
  | positive a =>
    simp only [extends_positive] at h ⊢
    obtain ⟨t, ht, hs'⟩ := h
    -- The tuple is an old one or a new one.
    rcases hunion ht with ht | ht
    · exact .inl ⟨t, ht, hs'⟩
    · exact .inr ⟨a, t, rfl, ht, t, ht, hs'⟩
  | negative a =>
    rw [extends_negative] at h ⊢
    exact .inl (by rwa [← matchesAny_congr (hneg a rfl)])
  | builtin c => exact .inl h

/-- A run over the union of two databases is one over the first, or reads the second at some
position. -/
theorem Run.of_union {body : List Literal} (h : Run ctx full (reading full body) s s')
    (hneg : AgreeOnNegated full old body) :
    Run ctx old (reading old body) s s' ∨
      ∃ i ∈ deltaPositions delta body, Run ctx full (readingAt full delta body i) s s' := by
  induction body generalizing s with
  | nil => exact .inl (h.mono .nil (by simp [AgreeOnNegated, reading]))
  | cons l body ih =>
    obtain - | ⟨hext, hrest⟩ := h
    rcases hext.of_union hunion (fun a ha => hneg a (ha ▸ .head _)) with
      hold | ⟨a, t, rfl, ht, hnew⟩
    -- The first tuple is an old one, so the position comes from the rest of the run, if at all.
    · rcases ih hrest fun a ha => hneg a (.tail _ ha) with hrun | ⟨i, hi, hrun⟩
      · exact .inl (.cons hold hrun)
      · refine .inr ⟨i + 1, succ_mem_deltaPositions hi, ?_⟩
        rw [readingAt_cons_succ]
        exact .cons hext hrun
    · -- The first tuple is a new one, and the others come from anywhere.
      refine .inr ⟨0, zero_mem_deltaPositions ht, ?_⟩
      rw [readingAt_cons_zero]
      exact .cons hnew hrest

/-- A run over the union of two databases that gets stuck does so over the first, or reads the
second at some position. -/
theorem Stuck.of_union {body : List Literal} (h : Stuck ctx full (reading full body) s)
    (hneg : AgreeOnNegated full old body) :
    Stuck ctx old (reading old body) s ∨
      ∃ i ∈ deltaPositions delta body, Stuck ctx full (readingAt full delta body i) s := by
  induction body generalizing s with
  | nil => cases h
  | cons l body ih =>
    -- What fails is a builtin, and it fails over the first database as well.
    obtain ⟨hfails⟩ | ⟨hext, hrest⟩ := h
    · exact .inl (.here hfails.mono)
    rcases hext.of_union hunion (fun a ha => hneg a (ha ▸ .head _)) with
      hold | ⟨a, t, rfl, ht, hnew⟩
    · rcases ih hrest fun a ha => hneg a (.tail _ ha) with hstuck | ⟨i, hi, hstuck⟩
      · exact .inl (.later hold hstuck)
      · refine .inr ⟨i + 1, succ_mem_deltaPositions hi, ?_⟩
        rw [readingAt_cons_succ]
        exact .later hext hstuck
    · refine .inr ⟨0, zero_mem_deltaPositions ht, ?_⟩
      rw [readingAt_cons_zero]
      exact .later hnew hrest

end Union

end Matching

end Deduction
