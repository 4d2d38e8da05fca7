import Deduction.Proofs.Safety

/-!
# Plans

Scheduling a body makes a plan of it (`isPlan_schedule`): its literals in an order in which positive
literals keep theirs, every literal is ready when its turn comes, and what is left over at the end
are calls that cannot be evaluated even there. A plan is its own schedule: a literal that is ready
when it is reached does not wait (`Schedule.arrange_of_inOrder`), and what is never ready stays at
the end in its order (`Schedule.arrange_of_not_isReady`).
-/

namespace Deduction

namespace Schedule

variable {s s' : Schedule} {bound : List String} {waiting body xs ys : List Literal}

/-! ## Positive literals -/

/-- Arranging a body keeps its positive literals in their order. -/
theorem filter_isPositive_arrange (s : Schedule) (bound : List String)
    (h : ∀ l ∈ waiting, l.isPositive = false) :
    (s.arrange bound waiting body).filter Literal.isPositive =
      body.filter Literal.isPositive := by
  -- Literals that have waited are not positive.
  have hready : ∀ (bound : List String) (waiting : List Literal),
      (∀ l ∈ waiting, l.isPositive = false) →
      (s.release bound waiting).ready.filter Literal.isPositive = [] := by
    intro bound waiting h
    rw [List.filter_eq_nil_iff]
    intro l hl
    rw [h l ((release_spec s bound waiting h).1.subset (List.mem_append_left _ hl))]
    exact Bool.false_ne_true
  induction body generalizing bound waiting with
  | nil => simpa [arrange, List.filter_eq_nil_iff] using h
  | cons l body ih =>
    rw [arrange]
    split
    · next hl =>
      rw [List.cons_append, List.filter_cons_of_pos hl, List.filter_append, hready _ _ h,
        List.nil_append, ih _ (release_subset s _ h), List.filter_cons_of_pos hl]
    · next hl =>
      have hwaiting : ∀ m ∈ waiting ++ [l], m.isPositive = false := by
        rw [List.forall_mem_append, List.forall_mem_singleton]
        exact ⟨h, Bool.not_eq_true _ ▸ hl⟩
      rw [List.filter_append, hready _ _ hwaiting, List.nil_append,
        ih _ (release_subset s _ hwaiting), List.filter_cons_of_neg hl]

/-! ## Arranging what is in order -/

/-- A literal alone is released if it is ready. -/
theorem release_singleton {l : Literal} (h : s.isReady bound l = true) :
    s.release bound [l] = ⟨[l], bound ++ binds l, []⟩ := by
  have hsome : takeFirst (s.isReady bound) [l] = some (l, []) := by rw [takeFirst, if_pos h]
  rw [release_of_some hsome, release_of_none rfl]

/-- Literals that are in order are not rearranged. -/
theorem arrange_of_inOrder (h : InOrder s bound xs) :
    s.arrange bound [] (xs ++ ys) = xs ++ s.arrange (bound ++ xs.flatMap gives) [] ys := by
  induction h with
  | nil bound => simp
  | @cons bound l xs hready _ ih =>
    rw [List.cons_append, arrange]
    split
    · next hl =>
      -- No literal waits that the positive one could release.
      rw [release_of_none rfl, ← gives_eq_vars hl]
      simp [ih]
    · next hl =>
      rw [List.nil_append, release_singleton hready,
        ← gives_eq_binds (Bool.not_eq_true _ ▸ hl)]
      simp [ih]

/-- Literals that are never ready stay where they are. -/
theorem arrange_of_not_isReady (hbody : ∀ l ∈ body, l.isPositive = false)
    (h : ∀ l ∈ waiting ++ body, ¬s.isReady bound l = true) :
    s.arrange bound waiting body = waiting ++ body := by
  induction body generalizing waiting with
  | nil => rw [arrange, List.append_nil]
  | cons l body ih =>
    rw [List.forall_mem_cons] at hbody
    rw [List.append_cons] at h
    have hnone : takeFirst (s.isReady bound) (waiting ++ [l]) = none :=
      takeFirst_eq_none fun m hm => h m (List.mem_append_left _ hm)
    rw [arrange, if_neg (by simp [hbody.1]), release_of_none hnone, List.nil_append,
      ih hbody.2 h, ← List.append_cons]

theorem InOrder.congr (hready : ∀ known l, s.isReady known l = s'.isReady known l)
    (h : InOrder s bound xs) : InOrder s' bound xs := by
  induction h with
  | nil bound => exact .nil bound
  | cons hl _ ih => exact .cons (hready _ _ ▸ hl) ih

/-- Whether a literal is ready depends on which variables are limited, not on how they are
listed. -/
theorem isReady_congr {registry : Registry} {limited limited' : List String}
    (h : ∀ x, x ∈ limited ↔ x ∈ limited') (known : List String) (l : Literal) :
    isReady ⟨registry, limited⟩ known l = isReady ⟨registry, limited'⟩ known l := by
  cases l with
  | positive a => rfl
  | negative a => simp only [isReady, h]
  | builtin c => rfl

end Schedule

/-! ## Schedules are plans -/

variable {registry : Registry} {options : SafetyOptions} {body : List Literal}

/-- A plan of a body has the literals of the body: first those that come when they are ready, then
those that are left over. -/
structure IsPlan (registry : Registry) (options : SafetyOptions)
    (body scheduled leftOver : List Literal) : Prop where
  /-- The literals are those of the body. -/
  perm : (scheduled ++ leftOver).Perm body
  /-- Positive literals stand in the order of the body. -/
  positive : (scheduled ++ leftOver).filter Literal.isPositive = body.filter Literal.isPositive
  /-- A call can be evaluated with the variables of the positive literals and calls before it. -/
  call : ∀ before c after, scheduled = before ++ .builtin c :: after →
    ∃ b, registry.get? c.name = some b ∧ c.canEvaluate b (before.flatMap Schedule.gives) = true
  /-- The named variables of a negated literal that are limited occur in positive literals or calls
  before it. -/
  negation : ∀ before a after, scheduled = before ++ .negative a :: after → ∀ x ∈ a.vars,
    isAnonymous x = false → x ∈ limitedVars registry options body →
      x ∈ before.flatMap Schedule.gives
  /-- What is left over are calls that cannot be evaluated with the variables of all positive
  literals and calls that are scheduled. -/
  leftOver : ∀ l ∈ leftOver, ∃ c, l = .builtin c ∧ ∀ b, registry.get? c.name = some b →
    c.canEvaluate b (scheduled.flatMap Schedule.gives) = false

/-- A schedule is a plan of its body. -/
theorem exists_isPlan (registry : Registry) (options : SafetyOptions) (body : List Literal) :
    ∃ scheduled leftOver, schedule registry options body = scheduled ++ leftOver ∧
      IsPlan registry options body scheduled leftOver := by
  obtain ⟨scheduled, leftOver, heq, horder, -, hleft⟩ :=
    exists_schedule_limited registry options body
  refine ⟨scheduled, leftOver, heq, ?_⟩
  -- A literal is ready when its turn comes.
  have hready : ∀ before l after, scheduled = before ++ l :: after →
      Schedule.isReady ⟨registry, limitedVars registry options body⟩
        (before.flatMap Schedule.gives) l = true := by
    rintro before l after rfl
    exact horder.isReady
  exact {
    perm := heq ▸ schedule_perm registry options body
    positive := by
      rw [← heq]
      exact Schedule.filter_isPositive_arrange _ _ (by simp)
    call := fun before c after h => Schedule.isReady_builtin_iff.1 (hready before _ after h)
    negation := fun before a after h => Schedule.isReady_negative_iff.1 (hready before _ after h)
    leftOver := fun l hl => by
      obtain ⟨hbuiltin, hnot⟩ := hleft l hl
      cases l with
      | positive a => cases hbuiltin
      | negative a => cases hbuiltin
      | builtin c =>
        refine ⟨c, rfl, fun b hb => Bool.not_eq_true _ ▸ fun hevaluate => ?_⟩
        exact hnot (Schedule.isReady_builtin_iff.2 ⟨b, hb, hevaluate⟩) }

/-- Scheduling a schedule changes nothing. -/
theorem schedule_schedule :
    schedule registry options (schedule registry options body) =
      schedule registry options body := by
  obtain ⟨scheduled, leftOver, heq, horder, hleft⟩ :=
    exists_schedule_eq_append registry options body
  -- The schedule limits the same variables, so that its literals are ready when they were before.
  have hready : ∀ known l,
      Schedule.isReady ⟨registry, limitedVars registry options body⟩ known l =
      Schedule.isReady ⟨registry, limitedVars registry options (schedule registry options body)⟩
        known l :=
    Schedule.isReady_congr fun x =>
      (mem_limitedVars_of_perm (schedule_perm registry options body)).symm
  rw [heq] at hready ⊢
  rw [schedule, Schedule.arrange_of_inOrder (horder.congr hready), List.nil_append,
    Schedule.arrange_of_not_isReady (fun l hl => (hleft l hl).1), List.nil_append]
  exact fun l hl => hready _ l ▸ (hleft l hl).2

/-- The schedule of a body is a plan of it, and a plan that is scheduled again stays as it is. -/
theorem isPlan_schedule (registry : Registry) (options : SafetyOptions) (body : List Literal) :
    (∃ scheduled leftOver, schedule registry options body = scheduled ++ leftOver ∧
      IsPlan registry options body scheduled leftOver) ∧
    schedule registry options (schedule registry options body) =
      schedule registry options body :=
  ⟨exists_isPlan registry options body, schedule_schedule⟩

end Deduction
