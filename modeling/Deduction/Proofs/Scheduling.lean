import Mathlib.Data.List.Perm.Basic
import Deduction.Schedule

/-!
# Scheduled bodies

Scheduling a body rearranges its literals and does nothing else (`schedule_perm`). The literals come
in an order in which each is ready when its turn comes, except for some at the end that never become
ready (`exists_schedule_eq_append`).
-/

namespace Deduction

section TakeFirst

variable {α : Type} {p : α → Bool} {xs rest : List α} {x : α}

theorem perm_of_takeFirst (h : takeFirst p xs = some (x, rest)) : (x :: rest).Perm xs := by
  induction xs generalizing rest with
  | nil => cases h
  | cons y ys ih =>
    rw [takeFirst] at h
    split at h
    · obtain ⟨rfl, rfl⟩ := Prod.mk.inj (Option.some.inj h)
      exact .refl _
    · obtain ⟨⟨z, zs⟩, hz, heq⟩ := Option.map_eq_some_iff.1 h
      obtain ⟨rfl, rfl⟩ := Prod.mk.inj heq
      -- What is found further on moves past the head.
      exact (List.Perm.swap y z zs).trans ((ih hz).cons y)

theorem of_takeFirst (h : takeFirst p xs = some (x, rest)) : p x = true := by
  induction xs generalizing rest with
  | nil => cases h
  | cons y ys ih =>
    rw [takeFirst] at h
    split at h
    · next hy =>
      obtain ⟨rfl, -⟩ := Prod.mk.inj (Option.some.inj h)
      exact hy
    · obtain ⟨⟨z, zs⟩, hz, heq⟩ := Option.map_eq_some_iff.1 h
      obtain ⟨rfl, -⟩ := Prod.mk.inj heq
      exact ih hz

theorem not_of_takeFirst_eq_none (h : takeFirst p xs = none) : ∀ y ∈ xs, ¬p y = true := by
  induction xs with
  | nil => simp
  | cons y ys ih =>
    rw [takeFirst] at h
    split at h
    · cases h
    · next hy =>
      rw [Option.map_eq_none_iff] at h
      exact List.forall_mem_cons.2 ⟨hy, ih h⟩

theorem takeFirst_eq_none (h : ∀ y ∈ xs, ¬p y = true) : takeFirst p xs = none := by
  induction xs with
  | nil => rfl
  | cons y ys ih =>
    rw [List.forall_mem_cons] at h
    rw [takeFirst, if_neg h.1, ih h.2, Option.map_none]

theorem takeFirst_map {β : Type} {q : β → Bool} {f : α → β} (h : ∀ x ∈ xs, q (f x) = p x) :
    takeFirst q (xs.map f) = (takeFirst p xs).map fun r => (f r.1, r.2.map f) := by
  induction xs with
  | nil => rfl
  | cons y ys ih =>
    rw [List.forall_mem_cons] at h
    rw [List.map_cons, takeFirst, takeFirst, h.1, ih h.2]
    cases p y with
    | true => rfl
    | false => cases takeFirst p ys <;> rfl

end TakeFirst

namespace Schedule

/-- The variables that have values because a literal has been matched. -/
def gives : Literal → List String
  | .positive a => a.vars
  | l => binds l

/-- Each literal can be matched when its turn comes. -/
inductive InOrder (s : Schedule) : List String → List Literal → Prop
  | nil (bound : List String) : InOrder s bound []
  | cons {bound : List String} {l : Literal} {body : List Literal} : s.isReady bound l = true →
      InOrder s (bound ++ gives l) body → InOrder s bound (l :: body)

variable {s : Schedule} {bound : List String} {waiting body : List Literal}

theorem InOrder.append {xs ys : List Literal} (h : InOrder s bound xs)
    (h' : InOrder s (bound ++ xs.flatMap gives) ys) : InOrder s bound (xs ++ ys) := by
  induction h with
  | nil bound => simpa using h'
  | cons hready _ ih => exact .cons hready (ih (by simpa using h'))

theorem InOrder.isReady {xs ys : List Literal} {l : Literal}
    (h : InOrder s bound (xs ++ l :: ys)) : s.isReady (bound ++ xs.flatMap gives) l = true := by
  induction xs generalizing bound with
  | nil =>
    obtain - | ⟨hready, -⟩ := h
    simpa using hready
  | cons x xs ih =>
    obtain - | ⟨-, hrest⟩ := h
    simpa using ih hrest

/-- A positive literal gives values to all its variables. -/
theorem gives_eq_vars {l : Literal} (h : l.isPositive = true) : gives l = l.vars := by
  cases l with
  | positive a => rfl
  | negative a => cases h
  | builtin c => cases h

theorem isReady_of_isPositive {l : Literal} (h : l.isPositive = true) :
    s.isReady bound l = true := by
  cases l with
  | positive a => rfl
  | negative a => cases h
  | builtin c => cases h

/-- A call is ready if its builtin can be evaluated. -/
theorem isReady_builtin_iff {c : BuiltinCall} :
    s.isReady bound (.builtin c) = true ↔
      ∃ b, s.registry.get? c.name = some b ∧ c.canEvaluate b bound = true := by
  rw [isReady]
  cases s.registry.get? c.name <;> simp

/-- A negated literal is ready if those of its named variables that are limited have values. -/
theorem isReady_negative_iff {a : Atom} :
    s.isReady bound (.negative a) = true ↔
      ∀ x ∈ a.vars, isAnonymous x = false → x ∈ s.limited → x ∈ bound := by
  simp only [isReady, List.all_eq_true, Bool.or_eq_true, decide_eq_true_eq]
  refine forall₂_congr fun x _ => ?_
  cases isAnonymous x <;> simp [or_iff_not_imp_left]

/-- A literal that waits gives values to what it binds. -/
theorem gives_eq_binds {l : Literal} (h : l.isPositive = false) : gives l = binds l := by
  cases l with
  | positive a => cases h
  | negative a => rfl
  | builtin c => rfl

theorem release_of_none (h : takeFirst (s.isReady bound) waiting = none) :
    s.release bound waiting = ⟨[], bound, waiting⟩ := by
  rw [release]
  split
  · rfl
  · next hsome =>
    rw [h] at hsome
    cases hsome

theorem release_of_some {l : Literal} {rest : List Literal}
    (h : takeFirst (s.isReady bound) waiting = some (l, rest)) :
    s.release bound waiting =
      { s.release (bound ++ binds l) rest with
        ready := l :: (s.release (bound ++ binds l) rest).ready } := by
  rw [release]
  split
  · next hnone =>
    rw [h] at hnone
    cases hnone
  · next l' rest' hsome =>
    obtain ⟨rfl, rfl⟩ := Prod.mk.inj (Option.some.inj (h.symm.trans hsome))
    rfl

/-- Releasing takes literals out of the waiting ones as long as one is ready. -/
theorem release_spec (s : Schedule) (bound : List String) (waiting : List Literal)
    (h : ∀ l ∈ waiting, l.isPositive = false) :
    ((s.release bound waiting).ready ++ (s.release bound waiting).waiting).Perm waiting ∧
    InOrder s bound (s.release bound waiting).ready ∧
    (s.release bound waiting).bound =
      bound ++ (s.release bound waiting).ready.flatMap gives ∧
    ∀ l ∈ (s.release bound waiting).waiting,
      ¬s.isReady (s.release bound waiting).bound l = true := by
  fun_induction release s bound waiting with
  | case1 bound waiting hnone =>
    exact ⟨.refl _, .nil bound, by simp, not_of_takeFirst_eq_none hnone⟩
  -- The first ready literal goes to the front; with its variables bound, others may be ready.
  | case2 bound waiting l rest hsome hlength later ih =>
    have hperm := perm_of_takeFirst hsome
    have hl : gives l = binds l := gives_eq_binds (h l (hperm.subset (.head _)))
    obtain ⟨ihperm, ihorder, ihbound, ihwaiting⟩ := ih fun m hm => h m (hperm.subset (.tail _ hm))
    refine ⟨(ihperm.cons l).trans hperm, .cons (of_takeFirst hsome) (by rwa [hl]), ?_, ihwaiting⟩
    rw [List.flatMap_cons, hl, ← List.append_assoc]
    exact ihbound

theorem release_subset (s : Schedule) (bound : List String)
    (h : ∀ l ∈ waiting, l.isPositive = false) :
    ∀ l ∈ (s.release bound waiting).waiting, l.isPositive = false := fun l hl =>
  h l ((release_spec s bound waiting h).1.subset (List.mem_append_right _ hl))

/-- The arranged literals are those of the body and those that were waiting. -/
theorem arrange_perm (s : Schedule) (bound : List String)
    (h : ∀ l ∈ waiting, l.isPositive = false) :
    (s.arrange bound waiting body).Perm (waiting ++ body) := by
  induction body generalizing bound waiting with
  | nil => simp [arrange]
  | cons l body ih =>
    rw [arrange]
    split
    -- A positive literal comes at once, then what it makes ready.
    · have hperm := (release_spec s (bound ++ l.vars) waiting h).1
      have hrest := ih (s.release (bound ++ l.vars) waiting).bound
        (release_subset s (bound ++ l.vars) h)
      refine .trans (.cons l ?_) List.perm_middle.symm
      refine (hrest.append_left _).trans ?_
      rw [← List.append_assoc]
      exact hperm.append_right body
    · next hl =>
      have hwaiting : ∀ m ∈ waiting ++ [l], m.isPositive = false := by
        rw [List.forall_mem_append, List.forall_mem_singleton]
        exact ⟨h, Bool.not_eq_true _ ▸ hl⟩
      -- Any other joins the waiting ones, and may be released together with them.
      have hperm := (release_spec s bound (waiting ++ [l]) hwaiting).1
      have hrest := ih (s.release bound (waiting ++ [l])).bound (release_subset s bound hwaiting)
      refine (hrest.append_left _).trans ?_
      rw [← List.append_assoc, List.append_cons waiting l body]
      exact hperm.append_right body

/-- The arranged literals are in order, except for some at the end that are not ready even there. -/
theorem exists_arrange_eq_append (h : ∀ l ∈ waiting, l.isPositive = false)
    (hready : ∀ l ∈ waiting, ¬s.isReady bound l = true) :
    ∃ xs rest, s.arrange bound waiting body = xs ++ rest ∧ InOrder s bound xs ∧
      ∀ l ∈ rest, l.isPositive = false ∧ ¬s.isReady (bound ++ xs.flatMap gives) l = true := by
  induction body generalizing bound waiting with
  -- What still waits at the end is never ready.
  | nil => exact ⟨[], waiting, rfl, .nil bound, fun l hl => ⟨h l hl, by simpa using hready l hl⟩⟩
  | cons l body ih =>
    rw [arrange]
    split
    · next hl =>
      obtain ⟨-, horder, hbound, hlater⟩ := release_spec s (bound ++ l.vars) waiting h
      obtain ⟨xs, rest, heq, hxs, hrest⟩ := ih (release_subset s _ h) hlater
      rw [hbound] at hxs hrest
      refine ⟨l :: (s.release (bound ++ l.vars) waiting).ready ++ xs, rest, ?_, ?_, ?_⟩
      · simp only [heq, List.cons_append, List.append_assoc]
      · refine .cons (isReady_of_isPositive hl) ?_
        rw [gives_eq_vars hl]
        exact horder.append hxs
      · simpa [gives_eq_vars hl] using hrest
    · next hl =>
      have hwaiting : ∀ m ∈ waiting ++ [l], m.isPositive = false := by
        rw [List.forall_mem_append, List.forall_mem_singleton]
        exact ⟨h, Bool.not_eq_true _ ▸ hl⟩
      obtain ⟨-, horder, hbound, hlater⟩ := release_spec s bound (waiting ++ [l]) hwaiting
      obtain ⟨xs, rest, heq, hxs, hrest⟩ := ih (release_subset s _ hwaiting) hlater
      rw [hbound] at hxs hrest
      refine ⟨(s.release bound (waiting ++ [l])).ready ++ xs, rest, ?_, horder.append hxs, ?_⟩
      · simp only [heq, List.append_assoc]
      · simpa using hrest

end Schedule

variable {registry : Registry} {options : SafetyOptions} {body : List Literal}

theorem schedule_perm (registry : Registry) (options : SafetyOptions) (body : List Literal) :
    (schedule registry options body).Perm body :=
  Schedule.arrange_perm _ _ (by simp)

theorem mem_schedule {l : Literal} : l ∈ schedule registry options body ↔ l ∈ body :=
  (schedule_perm registry options body).mem_iff

/-- The literals of a scheduled body are in order, except for some at the end that never become
ready. -/
theorem exists_schedule_eq_append (registry : Registry) (options : SafetyOptions)
    (body : List Literal) :
    ∃ xs rest, schedule registry options body = xs ++ rest ∧
      Schedule.InOrder ⟨registry, limitedVars registry options body⟩ [] xs ∧
      ∀ l ∈ rest, l.isPositive = false ∧
        ¬Schedule.isReady ⟨registry, limitedVars registry options body⟩
          (xs.flatMap Schedule.gives) l = true :=
  Schedule.exists_arrange_eq_append (by simp) (by simp)

end Deduction
