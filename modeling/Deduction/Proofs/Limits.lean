import Deduction.Proofs.Model

/-!
# Limits on the number of facts

An evaluation counts the facts that its rounds add. A round leaves out the facts that are stored
already, and takes in a fact that it derives more than once only once, so that the count says by how
much the database has grown (`Context.counted_of_saturateAll`).

The count only ever grows. An evaluation with a limit therefore goes on like one without as long as
the count is within the limit, and fails as soon as it is not: it has the same result if the final
count is within the limit, and fails with the error of the limit otherwise
(`evaluate_limitedTo`).
-/

namespace Deduction

open Matching

/-- From one database to another as many facts have been added as have been counted. -/
def Counted (db db' : Database) (statistics statistics' : Statistics) : Prop :=
  ∃ k, db'.size = db.size + k ∧ statistics'.factsDerived = statistics.factsDerived + k

namespace Counted

variable {db db' db'' : Database} {st st' st'' : Statistics}

theorem refl (db : Database) (st : Statistics) : Counted db db st st := ⟨0, rfl, rfl⟩

theorem trans (h : Counted db db' st st') (h' : Counted db' db'' st' st'') :
    Counted db db'' st st'' := by
  obtain ⟨k, hsize, hcount⟩ := h
  obtain ⟨k', hsize', hcount'⟩ := h'
  exact ⟨k + k', by omega, by omega⟩

theorem le (h : Counted db db' st st') : st.factsDerived ≤ st'.factsDerived := by
  obtain ⟨k, -, hcount⟩ := h
  omega

end Counted

namespace Context

variable {ctx : Context} {rules : List ScheduledRule} {p q : Progress} {db new : Database}
  {limit n rounds : Nat} {layers : List (List Rule)} {statistics : Statistics}
  {result : Database × Statistics}

/-! ## Counting -/

/-- What a round adds has not been stored, and each fact is added once. -/
theorem counted_advance (h : ctx.newFacts rules p = .ok new) :
    Counted p.database (p.advance rules.length new).database p.statistics
      (p.advance rules.length new).statistics :=
  ⟨new.size, Database.size_merge fun a ha => (((newFacts_spec h).1 a).1 ha).1, rfl⟩

theorem counted_of_saturate (h : ctx.saturate rules n p = some (.ok q)) :
    Counted p.database q.database p.statistics q.statistics := by
  induction n generalizing p with
  | zero => cases h
  | succ n ih =>
    obtain ⟨new, hnew, ⟨hempty, rfl⟩ | ⟨-, -, h⟩⟩ := saturate_succ_eq_ok_iff.1 h
    · exact ⟨0, rfl, congrArg (p.statistics.factsDerived + ·) (Database.size_eq_zero hempty)⟩
    · exact (counted_advance hnew).trans (ih h)

theorem counted_of_saturateAll
    (h : ctx.saturateAll rounds layers db statistics = some (.ok result)) :
    Counted db result.1 statistics result.2 := by
  induction layers generalizing db statistics with
  | nil =>
    obtain rfl := Except.ok.inj (Option.some.inj h)
    exact .refl db statistics
  | cons layer layers ih =>
    obtain ⟨q, hq, h⟩ := saturateAll_cons_eq_ok_iff.1 h
    have hrest := ih h
    exact (counted_of_saturate hq).trans hrest

/-! ## Changing the limit -/

/-- The context with a limit on the number of derived facts, and with no other one. -/
def limitedTo (ctx : Context) (limit : Nat) : Context :=
  { ctx with settings := { ctx.settings with maxTuples := some limit, timeoutMs := none } }

theorem exceededLimit?_limitedTo (count : Nat) :
    (ctx.limitedTo limit).exceededLimit? count =
      if limit < count then some (.tupleLimit limit) else none := by
  simp [exceededLimit?, limitedTo]

theorem solutions_limitedTo {full : Database} :
    solutions (ctx.limitedTo limit) full = solutions ctx full := by
  funext body
  induction body with
  | nil => rfl
  | cons x body ih =>
    funext s
    obtain ⟨l, source⟩ := x
    rw [solutions, solutions, ih]
    cases l <;> rfl

/-- Limits play no part within a round. -/
theorem newFacts_limitedTo : (ctx.limitedTo limit).newFacts rules p = ctx.newFacts rules p := by
  have hderive : ∀ r, (ctx.limitedTo limit).deriveInRound p r = ctx.deriveInRound p r := by
    intro r
    simp only [deriveInRound, ScheduledRule.derive, ScheduledRule.deriveDelta, satisfy_eq,
      satisfyAt_eq, solutions_limitedTo]
    rfl
  simp only [newFacts, hderive]

/-- A layer that comes to an end does so with a limit, too, if what has been counted then is within
it, and exceeds the limit otherwise. -/
theorem saturate_limitedTo (h : ctx.saturate rules n p = some (.ok q))
    (hp : p.statistics.factsDerived ≤ limit) :
    (ctx.limitedTo limit).saturate rules n p =
      some (if q.statistics.factsDerived ≤ limit then .ok q else .error (.tupleLimit limit)) := by
  induction n generalizing p with
  | zero => cases h
  | succ n ih =>
    obtain ⟨new, hnew, ⟨hempty, rfl⟩ | ⟨hempty, -, h⟩⟩ := saturate_succ_eq_ok_iff.1 h
    · have hcount : p.statistics.factsDerived + new.size ≤ limit := by
        rwa [Database.size_eq_zero hempty]
      simp [saturate_succ, newFacts_limitedTo, hnew, hempty, Statistics.afterRound, hcount]
    · have hstep : (ctx.limitedTo limit).saturate rules (n + 1) p =
          if limit < (p.advance rules.length new).statistics.factsDerived then
            some (.error (.tupleLimit limit))
          else (ctx.limitedTo limit).saturate rules n (p.advance rules.length new) := by
        rw [saturate_succ, newFacts_limitedTo, hnew]
        simp only [hempty, Bool.false_eq_true, if_false, exceededLimit?_limitedTo]
        split <;> simp_all [Progress.advance]
      -- The count after this round is at most the final one.
      have hle := (counted_of_saturate h).le
      rw [hstep]
      split
      · next hlimit => rw [if_neg (by omega)]
      · next hlimit => exact ih h (by omega)

theorem saturateAll_limitedTo
    (h : ctx.saturateAll rounds layers db statistics = some (.ok result))
    (hstart : statistics.factsDerived ≤ limit) :
    (ctx.limitedTo limit).saturateAll rounds layers db statistics =
      some (if result.2.factsDerived ≤ limit then .ok result else .error (.tupleLimit limit)) := by
  induction layers generalizing db statistics with
  | nil =>
    obtain rfl := Except.ok.inj (Option.some.inj h)
    rw [if_pos hstart]
    rfl
  | cons layer layers ih =>
    obtain ⟨q, hq, h⟩ := saturateAll_cons_eq_ok_iff.1 h
    have hlayer : (ctx.limitedTo limit).saturate (layer.map (ctx.limitedTo limit).scheduleRule)
        rounds ⟨db, none, statistics⟩ = _ := saturate_limitedTo hq hstart
    have hle : q.statistics.factsDerived ≤ result.2.factsDerived := (counted_of_saturateAll h).le
    by_cases hlimit : q.statistics.factsDerived ≤ limit
    · rw [if_pos hlimit] at hlayer
      rw [saturateAll, hlayer]
      exact ih h hlimit
    · rw [if_neg hlimit] at hlayer
      rw [if_neg (by omega), saturateAll, hlayer]

end Context

/-- An evaluation that comes to an end has counted the facts by which the database has grown. With a
limit on what it may derive it comes to the same end if this count is within the limit, and fails
otherwise. -/
theorem evaluate_limitedTo {ctx : Context} {rounds : Nat} {rules : List Rule} {facts db : Database}
    {statistics : Statistics}
    (h : ctx.evaluate rounds rules facts = some (.ok (db, statistics))) :
    db.size = facts.size + statistics.factsDerived ∧
    ∀ limit, (ctx.limitedTo limit).evaluate rounds rules facts =
      some (if statistics.factsDerived ≤ limit then .ok (db, statistics)
        else .error (.tupleLimit limit)) := by
  obtain ⟨hsafe, s, hs, hall⟩ := Context.evaluate_eq_ok_iff.1 h
  constructor
  · obtain ⟨k, hsize, hcount⟩ := Context.counted_of_saturateAll hall
    have hcount : statistics.factsDerived = 0 + k := hcount
    rw [hsize, hcount, Nat.zero_add]
  · intro limit
    have hchecked : checkSafety rules (ctx.limitedTo limit).registry
        (ctx.limitedTo limit).settings.safety = .ok () := Rule.checkSafety_eq_ok_iff.2 hsafe
    rw [Context.evaluate, hchecked, hs]
    exact Context.saturateAll_limitedTo hall (Nat.zero_le limit)

/-- The paths between the nodes of the graph, and the pairs of nodes without one, are seven. -/
theorem evaluate_limitedTo_paths :
    ∃ db statistics,
      Context.evaluate ⟨.standard, {}⟩ 5 pathRules edgeFacts = some (.ok (db, statistics)) ∧
      db.size = edgeFacts.size + 7 ∧
      (Context.limitedTo ⟨.standard, {}⟩ 7).evaluate 5 pathRules edgeFacts =
        some (.ok (db, statistics)) ∧
      (Context.limitedTo ⟨.standard, {}⟩ 6).evaluate 5 pathRules edgeFacts =
        some (.error (.tupleLimit 6)) := by
  obtain ⟨⟨db, statistics⟩, h, hseven⟩ : ∃ result : Database × Statistics,
      Context.evaluate ⟨.standard, {}⟩ 5 pathRules edgeFacts = some (.ok result) ∧
        result.2.factsDerived = 7 :=
    Outcome.exists_ok_and (by decide +kernel)
  obtain ⟨hsize, hlimited⟩ := evaluate_limitedTo h
  have hseven : statistics.factsDerived = 7 := hseven
  refine ⟨db, statistics, h, hseven ▸ hsize, ?_, ?_⟩
  · rw [hlimited, if_pos hseven.le]
  · rw [hlimited, if_neg (by omega)]

end Deduction
