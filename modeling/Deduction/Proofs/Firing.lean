import Deduction.Proofs.Known
import Deduction.Proofs.Rounds
import Deduction.Proofs.Safety

/-!
# Safe rules can be applied

A rule that passes the safety check, and has no anonymous variables where values are needed, can be
applied to any ground facts. The only errors left are those of arithmetic, and what the rule derives
is ground (`Rule.IsSafe.fires`).

When the turn of a call comes, the arguments that it needs have values; at the end of the body, so
have the variables of the head.
-/

namespace Deduction

open Matching

/-- The evaluation of a call fails for an arithmetic reason. -/
def EvaluationError.IsArithmetic : EvaluationError → Prop
  | .builtin _ cause => cause.IsArithmetic
  | _ => False

variable {r : Rule} {ctx : Context} {db delta full : Database} {e : EvaluationError}
  {s : Substitution}

/-- No anonymous variable stands where a value is needed: in the head or in a call. -/
structure Rule.NamesValues (r : Rule) : Prop where
  /-- Heads have no anonymous variables. -/
  head : ∀ x ∈ r.head.vars, isAnonymous x = false
  /-- Builtins have no anonymous variables. -/
  calls : ∀ l ∈ r.body, l.isBuiltin = true → ∀ x ∈ l.vars, isAnonymous x = false

instance (r : Rule) : Decidable r.NamesValues :=
  decidable_of_iff ((∀ x ∈ r.head.vars, isAnonymous x = false) ∧
      ∀ l ∈ r.body, l.isBuiltin = true → ∀ x ∈ l.vars, isAnonymous x = false)
    ⟨fun ⟨head, calls⟩ => ⟨head, calls⟩, fun ⟨head, calls⟩ => ⟨head, calls⟩⟩

section Body

variable {body : List (Literal × Database)} (h : r.IsSafe ctx) (hnamed : r.NamesValues)
  (hliterals : body.map (·.1) = (ctx.scheduleRule r).body) (hground : ∀ x ∈ body, x.2.IsGround)

include h hnamed hliterals hground

/-- A search through the body of a rule only fails when a call fails for an arithmetic reason. -/
theorem isArithmetic_of_solutions (herror : solutions ctx full body .empty = .error e) :
    e.IsArithmetic := by
  obtain ⟨xs, l, source, ys, s, rfl, hrun, herror⟩ := exists_of_solutions_eq_error herror
  obtain ⟨c, rfl, hcall⟩ := extensions_eq_error_iff.1 herror
  rw [List.map_append, List.map_cons] at hliterals
  have hmem : .builtin c ∈ r.body :=
    mem_schedule.1 (hliterals ▸ List.mem_append_right _ (.head _))
  have hcovers := covers_empty.of_run (fun x hx => hground x (List.mem_append_left _ hx)) hrun
  obtain ⟨b, hb, harity⟩ := h.exists_builtin hmem
  have hwild : ∀ t ∈ c.terms, wildcard ∉ t.occurrences := fun t ht hx =>
    Term.ne_wildcard_of_named (hnamed.calls _ hmem rfl _ (Term.mem_varsAll.2 ⟨t, ht, hx⟩)) rfl
  -- The call is ready when its turn comes: the arguments that it needs have values.
  have hready := (hliterals ▸ h.inOrder_schedule hnamed.calls).isReady
  simp only [Schedule.isReady, hb, BuiltinCall.canEvaluate, List.flatMap_map] at hready
  have hmode : b.mode.canEvaluate ((s.applyAll c.terms).map Term.isGround) = true := by
    rw [Substitution.applyAll, List.map_map]
    rwa [← List.map_congr_left fun t ht => hcovers.isGround_apply_iff (hwild t ht)] at hready
  rcases Context.of_evaluateCall_eq_error hcall with ⟨hnone, -⟩ | ⟨b', cause, hb', hcause, rfl⟩
  · rw [hb] at hnone
    cases hnone
  · obtain rfl := Option.some.inj (hb.symm.trans hb')
    refine Builtin.isArithmetic_of_evaluate ?_ ?_ hmode hcause
    · rw [harity, Substitution.length_applyAll]
    · rw [Substitution.applyAll, List.forall_mem_map]
      exact fun t ht hx =>
        hwild t ht ((Substitution.mem_occurrences_apply_iff hcovers.grounded).1 hx).1

/-- At the end of the body the variables of the head have values. -/
theorem isGround_head_of_run (hrun : Run ctx full body .empty s) :
    (s.applyAtom r.head).isGround = true := by
  have hcovers := covers_empty.of_run hground hrun
  refine Substitution.areGround_applyAll hcovers.grounded fun t ht x hx => ?_
  have hhead : x ∈ r.head.vars := Term.mem_varsAll.2 ⟨t, ht, hx⟩
  have hgives := mem_gives_of_mem_limitedVars (h.limited_of_head hhead (hnamed.head x hhead))
  refine (hcovers.isSome_iff x).2 ⟨?_, Term.ne_wildcard_of_named (hnamed.head x hhead)⟩
  obtain ⟨l, hl, hx⟩ := List.mem_flatMap.1 hgives
  have hbody : l ∈ body.map (·.1) := by
    rw [hliterals]
    exact mem_schedule.2 hl
  obtain ⟨p, hp, rfl⟩ := List.mem_map.1 hbody
  exact List.mem_flatMap.2 ⟨p, hp, hx⟩

variable (full) in
/-- Deriving from the solutions of the body only fails when a call fails for an arithmetic reason,
and gives ground facts. -/
theorem instances_spec :
    (∀ e, (do (← solutions ctx full body .empty).mapM (ctx.scheduleRule r).instantiate) =
      Except.error e → e.IsArithmetic) ∧
    ∀ facts, (do (← solutions ctx full body .empty).mapM (ctx.scheduleRule r).instantiate) =
      Except.ok facts → ∀ a ∈ facts, a.isGround = true := by
  constructor
  · intro e herror
    rcases bind_eq_error_iff.1 herror with herror | ⟨found, hfound, herror⟩
    · exact isArithmetic_of_solutions h hnamed hliterals hground herror
    · -- The instances of the head are ground, so that they are never refused.
      obtain ⟨s, hs, herror⟩ := exists_of_mapM_eq_error herror
      have hhead := isGround_head_of_run h hnamed hliterals hground ((mem_solutions hfound).1 hs)
      rw [ScheduledRule.instantiate_eq_ok_iff.2 ⟨hhead, rfl⟩] at herror
      cases herror
  · intro facts hfacts a ha
    obtain ⟨s, hs, rfl⟩ := (ScheduledRule.mem_instances hfacts).1 ha
    exact isGround_head_of_run h hnamed hliterals hground hs

end Body

namespace Rule

/-- A safe rule over ground facts, or over a part of them that is new, only fails when a call fails
for an arithmetic reason, and derives ground facts. -/
theorem IsSafe.fires (h : r.IsSafe ctx) (hnamed : r.NamesValues) (hdb : db.IsGround)
    (hdelta : delta.atoms ⊆ db.atoms) :
    (∀ e, (ctx.scheduleRule r).derive ctx db = .error e → e.IsArithmetic) ∧
    (∀ e, (ctx.scheduleRule r).deriveDelta ctx db delta = .error e → e.IsArithmetic) ∧
    (∀ facts, (ctx.scheduleRule r).derive ctx db = .ok facts → ∀ a ∈ facts, a.isGround = true) ∧
    ∀ facts, (ctx.scheduleRule r).deriveDelta ctx db delta = .ok facts →
      ∀ a ∈ facts, a.isGround = true := by
  have hall := instances_spec db h hnamed (map_fst_reading db _) (by
    rw [reading, List.forall_mem_map]
    exact fun _ _ => hdb)
  have hat := fun i => instances_spec db h hnamed (map_fst_readingAt db delta _ i)
    (forall_mem_readingAt hdb (fun a ha => hdb a (hdelta ha)) _ i)
  refine ⟨hall.1, fun e herror => ?_, hall.2, fun facts hfacts a ha => ?_⟩
  · rcases bind_eq_error_iff.1 herror with herror | ⟨found, -, herror⟩
    · obtain ⟨i, -, herror⟩ := exists_of_mapM_eq_error herror
      exact (hat i).1 e herror
    · cases herror
  · obtain ⟨found, hfound, hfacts⟩ := bind_eq_ok_iff.1 hfacts
    obtain rfl := Except.ok.inj hfacts
    obtain ⟨facts, hfacts, ha⟩ := List.mem_flatten.1 ha
    obtain ⟨i, -, hi⟩ := (mem_of_mapM_eq_ok hfound).1 hfacts
    exact (hat i).2 facts hi a ha

end Rule

/-- The towns that can be reached from open towns by way of another, with the length of the way. -/
def tripRule : Rule :=
  let road (names : List String) : Atom := ⟨.plain "road" 3, names.map .var⟩
  ⟨⟨.plain "trip" 3, [.var "X", .var "Z", .app "km" [.var "S"]]⟩,
    [.negative ⟨.plain "closed" 1, [.var "X"]⟩, .builtin ⟨"ADD", ["D", "E", "S"].map .var⟩,
      .positive (road ["X", "Y", "D"]), .positive (road ["Y", "Z", "E"])]⟩

/-- Two roads, one after the other. -/
def roadFacts : Database :=
  let road (x y : String) (km : Int64) : Atom :=
    ⟨.plain "road" 3, [.const (.symbol x), .const (.symbol y), .const (.integer km)]⟩
  ((Database.ofFacts [road "a" "b" 1, road "b" "c" 2]).toOption).getD .empty

theorem fires_tripRule :
    let ctx : Context := ⟨.standard, {}⟩
    tripRule.IsSafe ctx ∧ tripRule.NamesValues ∧ roadFacts.IsGround ∧
    (∀ e, (ctx.scheduleRule tripRule).derive ctx roadFacts = .error e → e.IsArithmetic) ∧
    (∀ e, (ctx.scheduleRule tripRule).deriveDelta ctx roadFacts roadFacts = .error e →
      e.IsArithmetic) ∧
    (∀ facts, (ctx.scheduleRule tripRule).derive ctx roadFacts = .ok facts →
      ∀ a ∈ facts, a.isGround = true) ∧
    ∀ facts, (ctx.scheduleRule tripRule).deriveDelta ctx roadFacts roadFacts = .ok facts →
      ∀ a ∈ facts, a.isGround = true := by
  have hsafe : tripRule.IsSafe ⟨.standard, {}⟩ := by decide +kernel
  have hnamed : tripRule.NamesValues := by decide +kernel
  have hground : roadFacts.IsGround := Database.isGround_iff.2 (by decide +kernel)
  exact ⟨hsafe, hnamed, hground, hsafe.fires hnamed hground (Set.Subset.refl _)⟩

end Deduction
