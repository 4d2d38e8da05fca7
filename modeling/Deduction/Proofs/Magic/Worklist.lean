import Mathlib.Data.List.Nodup
import Mathlib.Logic.Function.Iterate
import Deduction.Magic.Adornment

/-!
# The worklist of an adorned program

While a program is adorned, the patterns that have been asked for are those whose rules have been
adorned and those that are waiting, each of them once (`AdornedProgram.Progress.IsSound`). Each step
takes a pattern that is waiting, so that the patterns that can be asked for bound the number of
steps: no pattern is waiting in the end (`AdornedProgram.Progress.exists_run_eq`).
-/

namespace Deduction

variable {rules : List Rule} {p p' : CallPattern} {calls ps : List CallPattern}

/-! ## Asking for patterns -/

namespace Worklist

variable {w : Worklist}

theorem requestAll_cons (w : Worklist) (p : CallPattern) (ps : List CallPattern) :
    w.requestAll (p :: ps) = (w.request p).requestAll ps :=
  rfl

/-- Asking for patterns adds those that are new, each of them once. -/
theorem exists_requestAll_eq (w : Worklist) (ps : List CallPattern) :
    ∃ new, w.requestAll ps = ⟨w.pending ++ new, w.seen ++ new⟩ ∧ new.Nodup ∧
      ∀ p, p ∈ new ↔ p ∈ ps ∧ p ∉ w.seen := by
  induction ps generalizing w with
  | nil => exact ⟨[], by simp [requestAll], List.nodup_nil, by simp⟩
  | cons p ps ih =>
    rw [requestAll_cons, request]
    split
    · next hp =>
      obtain ⟨new, heq, hnodup, hmem⟩ := ih w
      refine ⟨new, heq, hnodup, fun p' => (hmem p').trans ?_⟩
      -- A pattern that is not new adds nothing.
      refine and_congr_left fun hp' => ⟨.tail p, fun h => ?_⟩
      exact (List.mem_cons.1 h).resolve_left fun heq => hp' (heq ▸ hp)
    · next hp =>
      obtain ⟨new, heq, hnodup, hmem⟩ := ih ⟨w.pending ++ [p], w.seen ++ [p]⟩
      have hnew : p ∉ new := fun h => ((hmem p).1 h).2 (by simp)
      refine ⟨p :: new, by simpa using heq, List.nodup_cons.2 ⟨hnew, hnodup⟩, fun p' => ?_⟩
      rw [List.mem_cons, hmem, List.mem_cons, List.mem_append, List.mem_singleton]
      by_cases heq : p' = p
      · simp [heq, hp]
      · simp [heq]

end Worklist

namespace AdornedProgram

namespace Progress

/-! ## Steps -/

variable {s : Progress}

/-- What holds while a program is adorned that is first asked for the given calls. -/
structure IsSound (rules : List Rule) (calls : List CallPattern) (s : Progress) : Prop where
  /-- The patterns that have been asked for are those that are done and those that are waiting. -/
  seen : s.worklist.seen = s.patterns ++ s.worklist.pending
  /-- No pattern is asked for twice. -/
  nodup : s.worklist.seen.Nodup
  /-- The rules are those for the patterns that are done. -/
  adorned : s.rules = s.patterns.flatMap (rulesFor rules)
  /-- What was to be asked for at first has been asked for. -/
  start : ∀ p ∈ calls, p ∈ s.worklist.seen
  /-- What the patterns that are done ask for has been asked for. -/
  closed : ∀ p ∈ s.patterns, ∀ p' ∈ callsFor rules p, p' ∈ s.worklist.seen
  /-- Nothing else has been asked for. -/
  asked : ∀ p ∈ s.worklist.seen, p ∈ calls ∨ ∃ p' ∈ s.patterns, p ∈ callsFor rules p'

theorem isSound_start (rules : List Rule) (q : Query) :
    (start rules q).IsSound rules (q.calls (derivedPredicates rules)) := by
  obtain ⟨new, heq, hnodup, hmem⟩ :=
    Worklist.exists_requestAll_eq ⟨[], []⟩ (q.calls (derivedPredicates rules))
  have hmem : ∀ p, p ∈ new ↔ p ∈ q.calls (derivedPredicates rules) := by simpa using hmem
  rw [start, heq]
  exact {
    seen := rfl
    nodup := hnodup
    adorned := rfl
    start := fun p hp => (hmem p).2 hp
    closed := nofun
    asked := fun p hp => .inl ((hmem p).1 hp) }

theorem step_of_pending_eq {pending : List CallPattern} (h : s.worklist.pending = p :: pending) :
    s.step rules =
      { worklist := .requestAll ⟨pending, s.worklist.seen⟩ (callsFor rules p)
        patterns := s.patterns ++ [p]
        rules := s.rules ++ rulesFor rules p } := by
  rw [step, h]

theorem IsSound.step (h : s.IsSound rules calls) {pending : List CallPattern}
    (hpending : s.worklist.pending = p :: pending) : (s.step rules).IsSound rules calls := by
  obtain ⟨new, heq, hnodup, hmem⟩ :=
    Worklist.exists_requestAll_eq ⟨pending, s.worklist.seen⟩ (callsFor rules p)
  rw [step_of_pending_eq hpending, heq]
  have hseen := h.seen
  rw [hpending] at hseen
  constructor
  case seen => simp [hseen]
  case nodup =>
    exact List.nodup_append'.2 ⟨h.nodup, hnodup, fun p' hp' hnew => ((hmem p').1 hnew).2 hp'⟩
  case adorned => simp [h.adorned]
  case start => exact fun p' hp' => List.mem_append_left _ (h.start p' hp')
  case closed =>
    intro p' hp' p'' hp''
    rcases List.mem_append.1 hp' with hp' | hp'
    · exact List.mem_append_left _ (h.closed p' hp' p'' hp'')
    -- What the pattern asks for has been asked for before, or is new.
    · obtain rfl := List.mem_singleton.1 hp'
      by_cases hold : p'' ∈ s.worklist.seen
      · exact List.mem_append_left _ hold
      · exact List.mem_append_right _ ((hmem p'').2 ⟨hp'', hold⟩)
  case asked =>
    intro p' hp'
    rcases List.mem_append.1 hp' with hp' | hp'
    · refine (h.asked p' hp').imp_right ?_
      rintro ⟨p'', hp'', hcalls⟩
      exact ⟨p'', List.mem_append_left _ hp'', hcalls⟩
    · exact .inr ⟨p, by simp, ((hmem p').1 hp').1⟩

/-- A step keeps patterns within a list that has what its members ask for. -/
theorem seen_step_subset {U pending : List CallPattern}
    (hU : ∀ p ∈ U, ∀ p' ∈ callsFor rules p, p' ∈ U) (hseen : s.worklist.seen ⊆ U)
    (hpending : s.worklist.pending = p :: pending) (hp : p ∈ s.worklist.seen) :
    (s.step rules).worklist.seen ⊆ U := by
  obtain ⟨new, heq, -, hmem⟩ :=
    Worklist.exists_requestAll_eq ⟨pending, s.worklist.seen⟩ (callsFor rules p)
  rw [step_of_pending_eq hpending, heq]
  exact List.append_subset.2
    ⟨hseen, fun p' hp' => hU p (hseen hp) p' ((hmem p').1 hp').1⟩

/-! ## Runs -/

theorem IsSound.run {fuel : Nat} (h : s.IsSound rules calls) :
    (s.run rules fuel).IsSound rules calls := by
  induction fuel generalizing s with
  | zero => exact h
  | succ fuel ih =>
    rw [Progress.run]
    cases hpending : s.worklist.pending with
    | nil => exact h
    | cons p pending => exact ih (h.step hpending)

/-- If all patterns that can be asked for belong to a list, and there are enough steps for all of
them, a run takes as many steps as it needs to leave no pattern waiting. -/
theorem exists_run_eq {U : List CallPattern} {fuel : Nat}
    (hU : ∀ p ∈ U, ∀ p' ∈ callsFor rules p, p' ∈ U) (h : s.IsSound rules calls)
    (hseen : s.worklist.seen ⊆ U) (hfuel : U.length ≤ fuel + s.patterns.length) :
    ∃ n ≤ fuel, s.run rules fuel = (step rules)^[n] s ∧
      (s.run rules fuel).worklist.pending = [] ∧ (s.run rules fuel).worklist.seen ⊆ U := by
  induction fuel generalizing s with
  | zero =>
    -- All patterns of the list are done, and no pattern is asked for twice.
    have hlength := h.nodup.length_le_of_subset hseen
    rw [h.seen, List.length_append] at hlength
    have hpending : s.worklist.pending = [] := List.length_eq_zero_iff.1 (by omega)
    exact ⟨0, Nat.le_refl 0, rfl, hpending, hseen⟩
  | succ fuel ih =>
    rw [run]
    cases hpending : s.worklist.pending with
    | nil => exact ⟨0, Nat.zero_le _, rfl, hpending, hseen⟩
    | cons p pending =>
      rw [List.isEmpty_cons, if_neg Bool.false_ne_true]
      have hp : p ∈ s.worklist.seen := by simp [h.seen, hpending]
      have hdone : (s.step rules).patterns.length = s.patterns.length + 1 := by
        rw [step_of_pending_eq hpending, List.length_append, List.length_singleton]
      obtain ⟨n, hle, hn, hrest⟩ :=
        ih (h.step hpending) (seen_step_subset hU hseen hpending hp) (by omega)
      exact ⟨n + 1, Nat.succ_le_succ hle, hn, hrest⟩

end Progress

end AdornedProgram

end Deduction
