import Deduction.Proofs.Rounds

/-!
# Derivations that use new tuples

A match of a scheduled body pairs every positive literal with a stored tuple that is an instance of
it, under values of the variables for which the other literals hold when their turn comes
(`BodyMatch`). Runs lead to values of the variables, not to tuples: several tuples may be instances
of a literal with a wildcard under the same values. The tuples are therefore chosen when the values
are known (`BodyMatch.exists_iff_run`), and a tuple of the delta can be chosen if a run reads the
delta at some position (`BodyMatch.exists_uses_iff_run`).

`ScheduledRule.deriveDelta_exact`: when its positive literals take turns in reading the delta, a rule
derives the instances of its head under the matches that use a tuple of the delta, and no others.
-/

namespace Deduction

open Matching

/-! ## Matches -/

/-- The atom of a literal that is matched with stored tuples. -/
def Literal.pattern? : Literal → Option Atom
  | .positive a => some a
  | _ => none

theorem mem_filterMap_pattern? {body : List Literal} {a : Atom} :
    a ∈ body.filterMap Literal.pattern? ↔ .positive a ∈ body := by
  rw [List.mem_filterMap]
  constructor
  · rintro ⟨l, hl, heq⟩
    cases l with
    | positive b => exact Option.some.inj heq ▸ hl
    | negative b => cases heq
    | builtin c => cases heq
  · exact fun ha => ⟨_, ha, rfl⟩

/-- A match of a scheduled body in a database. -/
structure BodyMatch (ctx : Context) (db : Database) (body : List Literal) where
  /-- The values of the variables. -/
  values : Valuation
  /-- All values are ground. -/
  ground : ∀ x, (values x).isGround = true
  /-- The atoms of the positive literals, each with the tuple that it is matched with. -/
  pairs : List (Atom × Tuple)
  /-- Every positive literal has its pair, in the order of the body. -/
  patterns : pairs.map (·.1) = body.filterMap Literal.pattern?
  /-- The tuples are stored. -/
  stored : ∀ p ∈ pairs, ⟨p.1.predicate, p.2⟩ ∈ db.atoms
  /-- The tuples are instances of the atoms, where a wildcard stands for anything. -/
  instances : ∀ p ∈ pairs, Term.MatchesAll values p.1.terms p.2
  /-- Negated literals and builtins hold with what is known when their turn comes. -/
  holds : ∀ turn ∈ Schedule.turns [] body, turn.2.isPositive = false →
    turn.2.HoldsAt ctx db db turn.1 values

namespace BodyMatch

variable {ctx : Context} {db delta : Database} {body : List Literal} {v : Valuation} {a : Atom}

/-- A positive literal is matched with a tuple of the delta. -/
def Uses (m : BodyMatch ctx db body) (delta : Database) : Prop :=
  ∃ p ∈ m.pairs, ⟨p.1.predicate, p.2⟩ ∈ delta.atoms

/-- All literals hold when their turn comes. -/
theorem holdsAt (m : BodyMatch ctx db body) :
    ∀ turn ∈ Schedule.turns [] body, turn.2.HoldsAt ctx db db turn.1 m.values := by
  rintro ⟨known, l⟩ hturn
  have hl : l ∈ body := Schedule.map_snd_turns [] body ▸ List.mem_map_of_mem hturn
  cases l with
  | positive a =>
    have ha : a ∈ m.pairs.map (·.1) := m.patterns ▸ mem_filterMap_pattern?.2 hl
    obtain ⟨p, hp, rfl⟩ := List.mem_map.1 ha
    exact ⟨p.2, m.stored p hp, m.instances p hp⟩
  | negative a => exact m.holds _ hturn rfl
  | builtin c => exact m.holds _ hturn rfl

/-- Where all literals hold, each positive one has a stored instance. -/
theorem exists_instance
    (hholds : ∀ turn ∈ Schedule.turns [] body, turn.2.HoldsAt ctx db db turn.1 v) :
    ∀ a ∈ body.filterMap Literal.pattern?, ∃ t, ⟨a.predicate, t⟩ ∈ db.atoms ∧
      Term.MatchesAll v a.terms t := by
  intro a ha
  -- What a positive literal is matched with does not depend on when its turn comes.
  obtain ⟨⟨known, l⟩, hturn, rfl⟩ := List.mem_map.1
    ((Schedule.map_snd_turns [] body).symm ▸ mem_filterMap_pattern?.1 ha)
  exact hholds _ hturn

/-- Where all literals hold, any stored instances of the positive ones make a match. -/
theorem exists_of_pairs {ps : List (Atom × Tuple)} (hground : ∀ x, (v x).isGround = true)
    (hholds : ∀ turn ∈ Schedule.turns [] body, turn.2.HoldsAt ctx db db turn.1 v)
    (hpatterns : ps.map (·.1) = body.filterMap Literal.pattern?)
    (hps : ∀ p ∈ ps, ⟨p.1.predicate, p.2⟩ ∈ db.atoms ∧ Term.MatchesAll v p.1.terms p.2) :
    ∃ m : BodyMatch ctx db body, m.values = v ∧ m.pairs = ps :=
  ⟨{ values := v
     ground := hground
     pairs := ps
     patterns := hpatterns
     stored := fun p hp => (hps p hp).1
     instances := fun p hp => (hps p hp).2
     holds := fun turn hturn _ => hholds turn hturn }, rfl, rfl⟩

/-- There is a match with given values if all literals hold when their turn comes. -/
theorem exists_iff :
    (∃ m : BodyMatch ctx db body, m.values = v) ↔ (∀ x, (v x).isGround = true) ∧
      ∀ turn ∈ Schedule.turns [] body, turn.2.HoldsAt ctx db db turn.1 v := by
  constructor
  · rintro ⟨m, rfl⟩
    exact ⟨m.ground, m.holdsAt⟩
  · rintro ⟨hground, hholds⟩
    obtain ⟨ps, hpatterns, hps⟩ := exists_pairs (exists_instance hholds)
    obtain ⟨m, hm, -⟩ := exists_of_pairs hground hholds hpatterns hps
    exact ⟨m, hm⟩

/-- There is a match with given values that uses the delta if, besides, the delta has an instance of
a positive literal. -/
theorem exists_uses_iff (hdelta : delta.atoms ⊆ db.atoms) :
    (∃ m : BodyMatch ctx db body, m.Uses delta ∧ m.values = v) ↔ (∀ x, (v x).isGround = true) ∧
      (∀ turn ∈ Schedule.turns [] body, turn.2.HoldsAt ctx db db turn.1 v) ∧
      ∃ a t, .positive a ∈ body ∧ ⟨a.predicate, t⟩ ∈ delta.atoms ∧ Term.MatchesAll v a.terms t := by
  constructor
  · rintro ⟨m, ⟨p, hp, hnew⟩, rfl⟩
    have ha : p.1 ∈ body.filterMap Literal.pattern? := m.patterns ▸ List.mem_map_of_mem hp
    exact ⟨m.ground, m.holdsAt, p.1, p.2, mem_filterMap_pattern?.1 ha, hnew, m.instances p hp⟩
  · rintro ⟨hground, hholds, a, t, ha, hnew, hmatches⟩
    -- This literal is paired with the new tuple, the others with any instances.
    obtain ⟨ps, hpatterns, hps, hmem⟩ := exists_pairs_mem (exists_instance hholds)
      (mem_filterMap_pattern?.2 ha) ⟨hdelta hnew, hmatches⟩
    obtain ⟨m, hm, rfl⟩ := exists_of_pairs hground hholds hpatterns hps
    exact ⟨m, ⟨_, hmem, hnew⟩, hm⟩

/-! ## Matches and runs -/

section Runs

variable (hdb : db.IsGround)

include hdb

/-- There is a match with given values if a run leads to them. -/
theorem exists_iff_run :
    (∃ m : BodyMatch ctx db body, m.values = v) ↔ (∀ x, (v x).isGround = true) ∧
      ∃ s, Run ctx db (reading db body) .empty s ∧ s.Fits v := by
  rw [exists_iff, run_empty_iff_holdsAt hdb]

/-- There is a match with given values that uses the delta if a run that reads the delta at some
position leads to them. -/
theorem exists_uses_iff_run (hdelta : delta.atoms ⊆ db.atoms) :
    (∃ m : BodyMatch ctx db body, m.Uses delta ∧ m.values = v) ↔ (∀ x, (v x).isGround = true) ∧
      ∃ i ∈ deltaPositions delta body,
        ∃ s, Run ctx db (readingAt db delta body i) .empty s ∧ s.Fits v := by
  rw [exists_uses_iff hdelta]
  refine and_congr_right fun _ => ?_
  constructor
  · rintro ⟨hholds, a, t, ha, hnew, hmatches⟩
    -- The literal stands somewhere, and its predicate has new tuples, so that it takes a turn.
    obtain ⟨i, hi⟩ := List.getElem?_of_mem ha
    refine ⟨i, mem_deltaPositions.2 ⟨a, hi, Database.hasTuples_iff.2 ⟨_, hnew, rfl⟩⟩, ?_⟩
    exact (run_readingAt_iff_holdsAt covers_empty hdb hdelta hi).2
      ⟨Substitution.fits_empty v, hholds, t, hnew, hmatches⟩
  · rintro ⟨i, hi, hrun⟩
    obtain ⟨a, hi, -⟩ := mem_deltaPositions.1 hi
    obtain ⟨-, hholds, t, hnew, hmatches⟩ :=
      (run_readingAt_iff_holdsAt covers_empty hdb hdelta hi).1 hrun
    exact ⟨hholds, a, t, List.mem_of_getElem? hi, hnew, hmatches⟩

end Runs

end BodyMatch

/-! ## Derivations -/

namespace ScheduledRule

variable {ctx : Context} {db delta : Database} {r : ScheduledRule} {facts : List Atom} {a : Atom}

/-- A rule derives the instances of its head under the matches of its body. -/
theorem mem_derive_iff_match (hdb : db.IsGround) (h : r.derive ctx db = .ok facts) :
    a ∈ facts ↔ ∃ m : BodyMatch ctx db r.body, r.head.replace m.values = a := by
  have hsucceeds := derive_isOk_iff.1 ⟨facts, h⟩
  rw [mem_derive h, hsucceeds.derives_iff (List.forall_mem_map.2 fun _ _ => hdb)]
  constructor
  · rintro ⟨v, hground, hrun, rfl⟩
    obtain ⟨m, rfl⟩ := (BodyMatch.exists_iff_run hdb).2 ⟨hground, hrun⟩
    exact ⟨m, rfl⟩
  · rintro ⟨m, rfl⟩
    obtain ⟨hground, hrun⟩ := (BodyMatch.exists_iff_run hdb).1 ⟨m, rfl⟩
    exact ⟨m.values, hground, hrun, rfl⟩

/-- If a rule over ground facts reads a part of them in turns and succeeds, it derives the instances
of its head under exactly those matches of its body that use a tuple of this part. The matches are
those of the rule over all facts: if it succeeds on them, it derives the instances under all. -/
theorem deriveDelta_exact (hdb : db.IsGround) (hdelta : delta.atoms ⊆ db.atoms)
    (h : r.deriveDelta ctx db delta = .ok facts) :
    (∀ a, a ∈ facts ↔
      ∃ m : BodyMatch ctx db r.body, m.Uses delta ∧ r.head.replace m.values = a) ∧
    ∀ all, r.derive ctx db = .ok all →
      ∀ a, a ∈ all ↔ ∃ m : BodyMatch ctx db r.body, r.head.replace m.values = a := by
  refine ⟨fun a => ?_, fun all hall a => mem_derive_iff_match hdb hall⟩
  -- Each turn succeeds on its own, and derives what the runs that read the delta there lead to.
  have hturn : ∀ i ∈ deltaPositions delta r.body,
      (r.Derives ctx db (readingAt db delta r.body i) a ↔ ∃ v : Valuation,
        (∀ x, (v x).isGround = true) ∧
        (∃ s, Run ctx db (readingAt db delta r.body i) .empty s ∧ s.Fits v) ∧
        r.head.replace v = a) := fun i hi =>
    (deriveDelta_isOk_iff.1 ⟨facts, h⟩ i hi).derives_iff
      (forall_mem_readingAt hdb (fun b hb => hdb b (hdelta hb)) r.body i)
  rw [mem_deriveDelta h]
  constructor
  · rintro ⟨i, hi, ha⟩
    obtain ⟨v, hground, hrun, rfl⟩ := (hturn i hi).1 ha
    obtain ⟨m, huses, rfl⟩ :=
      (BodyMatch.exists_uses_iff_run hdb hdelta).2 ⟨hground, i, hi, hrun⟩
    exact ⟨m, huses, rfl⟩
  · rintro ⟨m, huses, rfl⟩
    obtain ⟨hground, i, hi, hrun⟩ :=
      (BodyMatch.exists_uses_iff_run hdb hdelta).1 ⟨m, huses, rfl⟩
    exact ⟨i, hi, (hturn i hi).2 ⟨m.values, hground, hrun, rfl⟩⟩

/-- Where two roads in a row lead if they end in an open town, with one more than the length of the
first. The length of the second does not matter. -/
def onwardRule : Rule :=
  let road (names : List String) : Literal := .positive ⟨.plain "road" 3, names.map .var⟩
  ⟨⟨.plain "onward" 3, ["X", "Z", "S"].map .var⟩,
    [.negative ⟨.plain "closed" 1, [.var "Z"]⟩,
      .builtin ⟨"ADD", [.var "D", .const (.integer 1), .var "S"]⟩,
      road ["X", "Y", "D"], road ["Y", "Z", wildcard]]⟩

/-- A road from one town to another. -/
def roadFact (x y : String) (km : Int64) : Atom :=
  ⟨.plain "road" 3, [.const (.symbol x), .const (.symbol y), .const (.integer km)]⟩

/-- The roads that have been built last. -/
def newRoads : Database :=
  ((Database.ofFacts [roadFact "b" "c" 5, roadFact "c" "d" 4]).toOption).getD .empty

/-- All roads, and a town that is closed. -/
def allRoads : Database :=
  ((Database.ofFacts [roadFact "a" "b" 1, roadFact "b" "c" 2, roadFact "b" "e" 3, roadFact "b" "f" 1,
    ⟨.plain "closed" 1, [.const (.symbol "f")]⟩, roadFact "b" "c" 5,
    roadFact "c" "d" 4]).toOption).getD .empty

/-- From `b` to `d` leads a way of two new roads and one that begins with an old road. From `a` to `c`
leads a way with a new road beside one of old roads, with the same values, and from `a` to `e` one
of old roads only. -/
theorem deriveDelta_exact_onward :
    let ctx : Context := ⟨.standard, {}⟩
    let r := ctx.scheduleRule onwardRule
    let onward (x z : String) (n : Int64) : Atom :=
      ⟨.plain "onward" 3, [.const (.symbol x), .const (.symbol z), .const (.integer n)]⟩
    let facts := [onward "b" "d" 6, onward "a" "c" 2, onward "b" "d" 3, onward "b" "d" 6]
    allRoads.IsGround ∧ newRoads.atoms ⊆ allRoads.atoms ∧
      r.deriveDelta ctx allRoads newRoads = .ok facts ∧
      (∀ a ∈ facts, ∃ m : BodyMatch ctx allRoads r.body, m.Uses newRoads ∧
        r.head.replace m.values = a) ∧
      (∃ m : BodyMatch ctx allRoads r.body, r.head.replace m.values = onward "a" "e" 2) ∧
      ¬∃ m : BodyMatch ctx allRoads r.body, m.Uses newRoads ∧
        r.head.replace m.values = onward "a" "e" 2 := by
  intro ctx r onward facts
  have hdb : allRoads.IsGround := Database.isGround_iff.2 (by decide +kernel)
  have hdelta : newRoads.atoms ⊆ allRoads.atoms := fun a ha => Database.mem_facts.1
    ((by decide +kernel : ∀ a ∈ newRoads.facts, a ∈ allRoads.facts) a (Database.mem_facts.2 ha))
  have hfacts : r.deriveDelta ctx allRoads newRoads = .ok facts :=
    toOption_eq_some_iff.1 (by decide +kernel)
  have hall : r.derive ctx allRoads = .ok [onward "a" "c" 2, onward "a" "e" 2, onward "a" "c" 2,
      onward "b" "d" 3, onward "b" "d" 6] := toOption_eq_some_iff.1 (by decide +kernel)
  obtain ⟨hnew, hevery⟩ := deriveDelta_exact hdb hdelta hfacts
  refine ⟨hdb, hdelta, hfacts, fun a ha => (hnew a).1 ha, (hevery _ hall _).1 (by decide), ?_⟩
  rw [← hnew]
  decide

end ScheduledRule

end Deduction
