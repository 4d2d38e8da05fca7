import Deduction.Matching
import Deduction.Proofs.Lists
import Deduction.Proofs.Scheduling

/-!
# Limited variables and safe rules

The loop that computes the limited variables of a body reaches its goal within the passes that it is
given: the result is closed under what the literals limit (`limits_subset_limitedVars`), and it is
contained in every closed set (`mem_of_mem_limitedVars`).

A safe rule can be matched in the order of its schedule (`Rule.IsSafe.inOrder_schedule`). This is
where the two loops meet, the one that accepts a rule and the one that arranges its body: the
variables that have values at the end of the schedule are closed under what the literals limit.
-/

namespace Deduction

variable {registry : Registry} {options : SafetyOptions} {body xs ys : List Literal} {x : String}

/-! ## Evaluable calls -/

namespace Mode

/-- The only open argument of a function, if there is one, is the last. -/
theorem canEvaluate_function_iff {bound : List Bool} :
    Mode.function.canEvaluate bound = true ↔ ∀ b ∈ bound.dropLast, b = true := by
  rcases List.eq_nil_or_concat bound with rfl | ⟨front, last, rfl⟩
  · simp [canEvaluate]
  · rw [List.concat_eq_append, List.dropLast_concat]
    have hcount : front.count false = 0 ↔ ∀ b ∈ front, b = true := by
      simp only [List.count_eq_zero, ← Bool.not_eq_false, ← ne_eq]
      exact ⟨fun h b hb hfalse => h (hfalse ▸ hb), fun h hmem => h false hmem rfl⟩
    rw [← hcount]
    cases last <;> simp [canEvaluate, List.count_append]

/-- A call that can be evaluated can be evaluated with more arguments given. -/
theorem canEvaluate_map_mono {α : Type} {mode : Mode} {f g : α → Bool} {ts : List α}
    (hfg : ∀ t ∈ ts, f t = true → g t = true) (h : mode.canEvaluate (ts.map f) = true) :
    mode.canEvaluate (ts.map g) = true := by
  have hcount : (ts.map g).count false ≤ (ts.map f).count false := by
    rw [List.count_eq_countP, List.count_eq_countP, List.countP_map, List.countP_map]
    refine List.countP_mono_left fun t ht hg => ?_
    cases hf : f t with
    | false => simp [hf]
    | true => simp [hfg t ht hf] at hg
  cases mode with
  | check | equality | solvable =>
    simp only [canEvaluate, decide_eq_true_eq] at h ⊢
    exact (by omega)
  | function =>
    rw [canEvaluate_function_iff, ← List.map_dropLast, List.forall_mem_map] at h ⊢
    exact fun t ht => hfg t (List.dropLast_subset ts ht) (h t ht)

/-- A call with no open argument can be evaluated. -/
theorem canEvaluate_of_forall {mode : Mode} {bound : List Bool} (h : ∀ b ∈ bound, b = true) :
    mode.canEvaluate bound = true := by
  have hcount : bound.count false = 0 := List.count_eq_zero.2 fun hfalse => nomatch h _ hfalse
  cases mode <;> simp [canEvaluate, hcount]

end Mode

theorem Term.isCoveredBy_iff {t : Term} {known : List String} :
    t.isCoveredBy known = true ↔ ∀ x ∈ t.occurrences, x ∈ known := by
  simp [isCoveredBy]

theorem BuiltinCall.canEvaluate_mono {c : BuiltinCall} {b : Builtin} {known known' : List String}
    (hsub : ∀ x ∈ known, x ∈ known') (h : c.canEvaluate b known = true) :
    c.canEvaluate b known' = true :=
  Mode.canEvaluate_map_mono (fun _ _ ht => Term.isCoveredBy_iff.2 fun x hx =>
    hsub x (Term.isCoveredBy_iff.1 ht x hx)) h

theorem BuiltinCall.canEvaluate_of_covered {c : BuiltinCall} {b : Builtin} {known : List String}
    (h : ∀ x ∈ c.vars, x ∈ known) : c.canEvaluate b known = true := by
  refine Mode.canEvaluate_of_forall (List.forall_mem_map.2 fun t ht => ?_)
  exact Term.isCoveredBy_iff.2 fun x hx => h x (Term.mem_varsAll.2 ⟨t, ht, hx⟩)

/-! ## Limited variables -/

/-- The variables of the positive literals of a body. -/
def positiveVars (body : List Literal) : List String :=
  (body.filter Literal.isPositive).flatMap Literal.vars

theorem mem_positiveVars : x ∈ positiveVars body ↔ ∃ a, .positive a ∈ body ∧ x ∈ a.vars := by
  simp only [positiveVars, List.mem_flatMap, List.mem_filter]
  constructor
  · rintro ⟨_ | _ | _, ⟨hl, hpos⟩, hx⟩
    · exact ⟨_, hl, hx⟩
    · cases hpos
    · cases hpos
  · rintro ⟨a, ha, hx⟩
    exact ⟨.positive a, ⟨ha, rfl⟩, hx⟩

theorem mem_positiveVars_of_isPositive {l : Literal} (hl : l ∈ body) (h : l.isPositive = true)
    (hx : x ∈ l.vars) : x ∈ positiveVars body :=
  List.mem_flatMap.2 ⟨l, List.mem_filter.2 ⟨hl, h⟩, hx⟩

theorem mem_positiveVars_congr (h : ∀ l, l ∈ xs ↔ l ∈ ys) :
    x ∈ positiveVars xs ↔ x ∈ positiveVars ys := by
  simp only [mem_positiveVars, h]

namespace Literal

theorem mem_limits_iff {known : List String} {l : Literal} :
    x ∈ l.limits registry options known ↔ ∃ c b, l = .builtin c ∧ registry.get? c.name = some b ∧
      b.mode.limits options = true ∧ c.canEvaluate b known = true ∧ x ∈ c.vars := by
  cases l with
  | positive a => simp [limits]
  | negative a => simp [limits]
  | builtin c =>
    rw [limits]
    cases hb : registry.get? c.name with
    | none => simp [hb]
    | some b =>
      simp only [Literal.builtin.injEq, exists_and_left, exists_eq_left', Option.some.injEq, hb]
      by_cases hlimits : b.mode.limits options = true <;>
        by_cases hevaluate : c.canEvaluate b known = true <;> simp [hlimits, hevaluate]

theorem limits_mono {known known' : List String} {l : Literal} (hsub : ∀ x ∈ known, x ∈ known')
    (hx : x ∈ l.limits registry options known) : x ∈ l.limits registry options known' := by
  obtain ⟨c, b, rfl, hb, hlimits, hevaluate, hx⟩ := mem_limits_iff.1 hx
  exact mem_limits_iff.2 ⟨c, b, rfl, hb, hlimits, BuiltinCall.canEvaluate_mono hsub hevaluate, hx⟩

end Literal

/-- Whatever the literals limit is known. -/
def IsLimitClosed (registry : Registry) (options : SafetyOptions) (body : List Literal)
    (known : List String) : Prop :=
  ∀ l ∈ body, ∀ x ∈ l.limits registry options known, x ∈ known

section Pass

variable {known : List String}

theorem limitPass_cons (l : Literal) :
    limitPass registry options (l :: body) known =
      limitPass registry options body
        (known ++ (l.limits registry options known).filter (· ∉ known)) :=
  rfl

/-- Leaving out what is there already makes no difference to the members. -/
theorem mem_append_filter {xs ys : List String} :
    x ∈ xs ++ ys.filter (· ∉ xs) ↔ x ∈ xs ++ ys := by
  simp only [List.mem_append, List.mem_filter, decide_eq_true_eq]
  tauto

theorem mem_limitPass_of_mem (hx : x ∈ known) : x ∈ limitPass registry options body known := by
  induction body generalizing known with
  | nil => exact hx
  | cons l body ih =>
    rw [limitPass_cons]
    exact ih (List.mem_append_left _ hx)

/-- A pass adds what the literals limit, and perhaps more. -/
theorem limits_subset_limitPass {l : Literal} (hl : l ∈ body)
    (hx : x ∈ l.limits registry options known) : x ∈ limitPass registry options body known := by
  induction body generalizing known with
  | nil => cases hl
  | cons m body ih =>
    rw [limitPass_cons]
    rcases List.mem_cons.1 hl with rfl | hl
    · exact mem_limitPass_of_mem (mem_append_filter.2 (List.mem_append_right _ hx))
    · exact ih hl (Literal.limits_mono (fun y hy => List.mem_append_left _ hy) hx)

/-- A pass over a closed set adds nothing. -/
theorem limitPass_eq_self (h : IsLimitClosed registry options body known) :
    limitPass registry options body known = known := by
  induction body with
  | nil => rfl
  | cons l body ih =>
    obtain ⟨hl, hbody⟩ := List.forall_mem_cons.1 h
    have hfilter : (l.limits registry options known).filter (· ∉ known) = [] := by
      simpa [List.filter_eq_nil_iff] using hl
    rw [limitPass_cons, hfilter, List.append_nil]
    exact ih hbody

/-- A closed set that contains what is known before a pass contains what is known after it. -/
theorem limitPass_subset {closed : List String} (h : IsLimitClosed registry options body closed)
    (hsub : ∀ y ∈ known, y ∈ closed) (hx : x ∈ limitPass registry options body known) :
    x ∈ closed := by
  induction body generalizing known with
  | nil => exact hsub x hx
  | cons l body ih =>
    obtain ⟨hl, hbody⟩ := List.forall_mem_cons.1 h
    rw [limitPass_cons] at hx
    refine ih hbody (fun y hy => ?_) hx
    rcases List.mem_append.1 hy with hy | hy
    · exact hsub y hy
    · exact hl y (Literal.limits_mono hsub (List.mem_filter.1 hy).1)

/-- A pass that adds something makes the variables of one more literal known. -/
theorem countP_limitPass_lt (h : ¬IsLimitClosed registry options body known) :
    body.countP (fun l => l.vars.all (· ∈ known)) <
      body.countP (fun l => l.vars.all (· ∈ limitPass registry options body known)) := by
  rw [IsLimitClosed] at h
  push Not at h
  obtain ⟨l, hl, x, hx, hnot⟩ := h
  obtain ⟨c, b, rfl, hb, hlimits, hevaluate, hxvars⟩ := Literal.mem_limits_iff.1 hx
  refine countP_lt_countP (fun m _ hm => ?_) hl ?_ ?_
  · simp only [List.all_eq_true, decide_eq_true_eq] at hm ⊢
    exact fun y hy => mem_limitPass_of_mem (hm y hy)
  · simp only [List.all_eq_false, decide_eq_true_eq]
    exact ⟨x, hxvars, hnot⟩
  -- A call limits all of its variables at once.
  · simp only [List.all_eq_true, decide_eq_true_eq]
    exact fun y hy => limits_subset_limitPass hl
      (Literal.mem_limits_iff.2 ⟨c, b, rfl, hb, hlimits, hevaluate, hy⟩)

/-- There are never more passes that add something than literals with unknown variables. -/
theorem isLimitClosed_repeat {n : Nat}
    (h : body.length ≤ n + body.countP (fun l => l.vars.all (· ∈ known))) :
    IsLimitClosed registry options body
      (Nat.repeat (limitPass registry options body) n known) := by
  induction n generalizing known with
  | zero =>
    -- All variables of the body are known.
    have hall := List.countP_eq_length.1 (Nat.le_antisymm List.countP_le_length (by simpa using h))
    intro l hl x hx
    obtain ⟨c, b, rfl, -, -, -, hx⟩ := Literal.mem_limits_iff.1 hx
    exact of_decide_eq_true (List.all_eq_true.1 (hall _ hl) x hx)
  | succ n ih =>
    rw [repeat_succ']
    by_cases hclosed : IsLimitClosed registry options body known
    · rw [limitPass_eq_self hclosed, repeat_of_eq (limitPass_eq_self hclosed)]
      exact hclosed
    · exact ih (by have := countP_limitPass_lt hclosed; omega)

theorem mem_repeat_limitPass_of_mem {n : Nat} (hx : x ∈ known) :
    x ∈ Nat.repeat (limitPass registry options body) n known := by
  induction n with
  | zero => exact hx
  | succ n ih => exact mem_limitPass_of_mem ih

end Pass

theorem limitedVars_eq_repeat :
    limitedVars registry options body =
      Nat.repeat (limitPass registry options body) body.length (positiveVars body).eraseDups :=
  settle_eq_repeat _ _ _

theorem mem_limitedVars_of_positive (hx : x ∈ positiveVars body) :
    x ∈ limitedVars registry options body := by
  rw [limitedVars_eq_repeat]
  exact mem_repeat_limitPass_of_mem (List.mem_eraseDups.2 hx)

/-- The loop of as many passes as there are literals reaches a closed set. -/
theorem isLimitClosed_limitedVars :
    IsLimitClosed registry options body (limitedVars registry options body) := by
  rw [limitedVars_eq_repeat]
  exact isLimitClosed_repeat (Nat.le_add_right _ _)

/-- The limited variables belong to every closed set that contains those of the positive
literals. -/
theorem mem_of_mem_limitedVars {closed : List String}
    (hpositive : ∀ y ∈ positiveVars body, y ∈ closed)
    (hclosed : IsLimitClosed registry options body closed)
    (hx : x ∈ limitedVars registry options body) : x ∈ closed := by
  rw [limitedVars_eq_repeat] at hx
  -- The passes stay within the closed set one after the other.
  have hsub : ∀ n, ∀ y ∈ Nat.repeat (limitPass registry options body) n
      (positiveVars body).eraseDups, y ∈ closed := by
    intro n
    induction n with
    | zero => exact fun y hy => hpositive y (List.mem_eraseDups.1 hy)
    | succ n ih => exact fun y hy => limitPass_subset hclosed ih hy
  exact hsub _ x hx

/-- A body limits what another one does if it limits the variables of its positive literals and has
its calls. -/
theorem limitedVars_subset (hpositive : ∀ y ∈ positiveVars xs, y ∈ limitedVars registry options ys)
    (hcalls : ∀ c, .builtin c ∈ xs → .builtin c ∈ ys) (hx : x ∈ limitedVars registry options xs) :
    x ∈ limitedVars registry options ys := by
  refine mem_of_mem_limitedVars hpositive (fun l hl y hy => ?_) hx
  obtain ⟨c, -, rfl, -⟩ := Literal.mem_limits_iff.1 hy
  exact isLimitClosed_limitedVars _ (hcalls c hl) y hy

/-- The order of a body makes no difference to its limited variables. -/
theorem mem_limitedVars_of_perm (h : xs.Perm ys) :
    x ∈ limitedVars registry options xs ↔ x ∈ limitedVars registry options ys := by
  have hsub : ∀ {xs ys : List Literal}, xs.Perm ys → ∀ {x}, x ∈ limitedVars registry options xs →
      x ∈ limitedVars registry options ys := fun h _ =>
    limitedVars_subset (fun y hy => mem_limitedVars_of_positive
      ((mem_positiveVars_congr fun _ => h.mem_iff).1 hy)) fun _ => h.mem_iff.1
  exact ⟨hsub h, hsub h.symm⟩

/-- Limited variables are given values by the literals of the body. -/
theorem mem_gives_of_mem_limitedVars (hx : x ∈ limitedVars registry options body) :
    x ∈ body.flatMap Schedule.gives := by
  refine mem_of_mem_limitedVars (fun y hy => ?_) (fun l hl y hy => ?_) hx
  · obtain ⟨a, ha, hy⟩ := mem_positiveVars.1 hy
    exact List.mem_flatMap.2 ⟨_, ha, hy⟩
  · obtain ⟨c, b, rfl, -, -, -, hy⟩ := Literal.mem_limits_iff.1 hy
    exact List.mem_flatMap.2 ⟨_, hl, hy⟩

/-! ## Safe rules -/

namespace Rule

variable {r : Rule} {c : BuiltinCall}

theorem checkLimited_eq_ok_iff {limited names : List String} {place : Place} :
    r.checkLimited limited place names = .ok () ↔
      ∀ x ∈ names, isAnonymous x = true ∨ x ∈ limited := by
  rw [checkLimited]
  split
  · next y hfind =>
    have hy := List.find?_some hfind
    simp only [reduceCtorEq, false_iff, not_forall]
    exact ⟨y, List.mem_of_find?_eq_some hfind, by simpa using hy⟩
  · next hfind => simpa [List.find?_eq_none, or_iff_not_imp_left] using hfind

theorem checkCall_eq_ok_iff :
    r.checkCall registry c = .ok () ↔
      ∃ b, registry.get? c.name = some b ∧ b.arity = c.terms.length := by
  rw [checkCall]
  cases registry.get? c.name with
  | none => simp
  | some b => by_cases h : b.arity = c.terms.length <;> simp [h]

/-- What the safety check asks of the literals in the body of a rule. -/
def PassesCheck (registry : Registry) (options : SafetyOptions) (limited : List String) :
    Literal → Prop
  | .positive _ => True
  | .negative a =>
    options.allowUnlimitedInNegation = true ∨ ∀ x ∈ a.vars, isAnonymous x = true ∨ x ∈ limited
  | .builtin c =>
    (∃ b, registry.get? c.name = some b ∧ b.arity = c.terms.length) ∧
      ∀ x ∈ c.vars, isAnonymous x = true ∨ x ∈ limited

/-- A rule passes the safety check if its head and its literals do. -/
theorem checkSafety_eq_ok_iff_forall :
    r.checkSafety registry options = .ok () ↔
      (∀ x ∈ r.head.vars, isAnonymous x = true ∨ x ∈ limitedVars registry options r.body) ∧
      ∀ l ∈ r.body, PassesCheck registry options (limitedVars registry options r.body) l := by
  rw [checkSafety]
  simp only [bind_eq_ok_iff, checkBuiltins]
  constructor
  · rintro ⟨_, hbuiltins, _, hhead, hbody⟩
    replace hbuiltins := forM_eq_ok_iff.1 hbuiltins
    replace hbody := forM_eq_ok_iff.1 hbody
    refine ⟨checkLimited_eq_ok_iff.1 hhead, fun l hl => ?_⟩
    cases l with
    | positive a => trivial
    | negative a =>
      have ha := hbody _ hl
      simp only at ha
      split at ha
      · next hallow => exact .inl hallow
      · exact .inr (checkLimited_eq_ok_iff.1 ha)
    | builtin c =>
      exact ⟨checkCall_eq_ok_iff.1 (hbuiltins _ hl), checkLimited_eq_ok_iff.1 (hbody _ hl)⟩
  · rintro ⟨hhead, hbody⟩
    refine ⟨(), forM_eq_ok_iff.2 fun l hl => ?_, (), checkLimited_eq_ok_iff.2 hhead,
      forM_eq_ok_iff.2 fun l hl => ?_⟩
    · cases l with
      | positive a => rfl
      | negative a => rfl
      | builtin c => exact checkCall_eq_ok_iff.2 (hbody _ hl).1
    · cases l with
      | positive a => rfl
      | negative a =>
        simp only
        split
        · rfl
        · next hallow => exact checkLimited_eq_ok_iff.2 ((hbody _ hl).resolve_left hallow)
      | builtin c => exact checkLimited_eq_ok_iff.2 (hbody _ hl).2

/-- A rule passes the safety check. -/
def IsSafe (r : Rule) (ctx : Context) : Prop :=
  r.checkSafety ctx.registry ctx.settings.safety = .ok ()

instance (r : Rule) (ctx : Context) : Decidable (r.IsSafe ctx) :=
  inferInstanceAs (Decidable (_ = _))

variable {ctx : Context}

theorem checkSafety_eq_ok_iff {rules : List Rule} :
    Deduction.checkSafety rules ctx.registry ctx.settings.safety = .ok () ↔
      ∀ r ∈ rules, r.IsSafe ctx :=
  forM_eq_ok_iff

/-- The named variables of the head of a safe rule are limited. -/
theorem IsSafe.limited_of_head (h : r.IsSafe ctx) (hx : x ∈ r.head.vars)
    (hnamed : isAnonymous x = false) :
    x ∈ limitedVars ctx.registry ctx.settings.safety r.body :=
  ((checkSafety_eq_ok_iff_forall.1 h).1 x hx).resolve_left (by simp [hnamed])

/-- The named variables of the calls of a safe rule are limited. -/
theorem IsSafe.limited_of_call (h : r.IsSafe ctx) (hc : .builtin c ∈ r.body) (hx : x ∈ c.vars)
    (hnamed : isAnonymous x = false) :
    x ∈ limitedVars ctx.registry ctx.settings.safety r.body :=
  (((checkSafety_eq_ok_iff_forall.1 h).2 _ hc).2 x hx).resolve_left (by simp [hnamed])

/-- The calls of a safe rule have as many arguments as their builtins. -/
theorem IsSafe.exists_builtin (h : r.IsSafe ctx) (hc : .builtin c ∈ r.body) :
    ∃ b, ctx.registry.get? c.name = some b ∧ b.arity = c.terms.length :=
  ((checkSafety_eq_ok_iff_forall.1 h).2 _ hc).1

/-- The named variables that the literals of a safe rule give values to are limited. -/
theorem IsSafe.limited_of_gives (h : r.IsSafe ctx) (hx : x ∈ r.body.flatMap Schedule.gives)
    (hnamed : isAnonymous x = false) :
    x ∈ limitedVars ctx.registry ctx.settings.safety r.body := by
  obtain ⟨l, hl, hx⟩ := List.mem_flatMap.1 hx
  cases l with
  | positive a => exact mem_limitedVars_of_positive (mem_positiveVars.2 ⟨a, hl, hx⟩)
  | negative a => cases hx
  | builtin c => exact h.limited_of_call hl hx hnamed

/-- A rule stays safe with another body that has its calls and limits the variables of its positive
literals, if all that is new are positive literals. -/
theorem checkSafety_of_body {r' : Rule} (h : r.checkSafety registry options = .ok ())
    (hhead : r'.head.vars = r.head.vars)
    (hpositive : ∀ y ∈ positiveVars r.body, y ∈ positiveVars r'.body)
    (hcalls : ∀ c, .builtin c ∈ r.body → .builtin c ∈ r'.body)
    (hbody : ∀ l ∈ r'.body, l.isPositive = true ∨ l ∈ r.body) :
    r'.checkSafety registry options = .ok () := by
  obtain ⟨hlimited, hpasses⟩ := checkSafety_eq_ok_iff_forall.1 h
  have hsub : ∀ x ∈ limitedVars registry options r.body,
      x ∈ limitedVars registry options r'.body := fun x =>
    limitedVars_subset (fun y hy => mem_limitedVars_of_positive (hpositive y hy)) hcalls
  refine checkSafety_eq_ok_iff_forall.2
    ⟨fun x hx => (hlimited x (hhead ▸ hx)).imp_right (hsub x), fun l hl => ?_⟩
  cases l with
  | positive a => trivial
  | negative a =>
    exact (hpasses _ ((hbody _ hl).resolve_left nofun)).imp_right
      fun hvars x hx => (hvars x hx).imp_right (hsub x)
  | builtin c =>
    have hc := hpasses _ ((hbody _ hl).resolve_left nofun)
    exact ⟨hc.1, fun x hx => (hc.2 x hx).imp_right (hsub x)⟩

end Rule

/-! ## Schedules -/

/-- The literals of a scheduled body are in order, and together give values to the limited
variables, except for some calls at the end that never become ready. -/
theorem exists_schedule_limited (registry : Registry) (options : SafetyOptions)
    (body : List Literal) :
    ∃ xs rest, schedule registry options body = xs ++ rest ∧
      Schedule.InOrder ⟨registry, limitedVars registry options body⟩ [] xs ∧
      (∀ x ∈ limitedVars registry options body, x ∈ xs.flatMap Schedule.gives) ∧
      ∀ l ∈ rest, l.isBuiltin = true ∧
        ¬Schedule.isReady ⟨registry, limitedVars registry options body⟩
          (xs.flatMap Schedule.gives) l = true := by
  obtain ⟨xs, rest, heq, horder, hrest⟩ := exists_schedule_eq_append registry options body
  have hmem : ∀ l, l ∈ xs ++ rest ↔ l ∈ body := fun l => by rw [← heq, mem_schedule]
  -- Positive literals are never left over, and neither are calls that can be evaluated.
  have hlimited : ∀ x ∈ limitedVars registry options body, x ∈ xs.flatMap Schedule.gives := by
    refine fun x => mem_of_mem_limitedVars (fun y hy => ?_) fun l hl y hy => ?_
    · obtain ⟨a, ha, hy⟩ := mem_positiveVars.1 hy
      rcases List.mem_append.1 ((hmem _).2 ha) with ha | ha
      · exact List.mem_flatMap.2 ⟨_, ha, hy⟩
      · cases (hrest _ ha).1
    · obtain ⟨c, b, rfl, hb, -, hevaluate, hy⟩ := Literal.mem_limits_iff.1 hy
      rcases List.mem_append.1 ((hmem _).2 hl) with hl | hl
      · exact List.mem_flatMap.2 ⟨_, hl, hy⟩
      · exact absurd (Schedule.isReady_builtin_iff.2 ⟨b, hb, hevaluate⟩) (hrest _ hl).2
  refine ⟨xs, rest, heq, horder, hlimited, fun l hl => ?_⟩
  obtain ⟨hnot, hready⟩ := hrest l hl
  cases l with
  | positive a => cases hnot
  | negative a =>
    -- The limited variables have values at the end.
    exact absurd (Schedule.isReady_negative_iff.2 fun x _ _ hx => hlimited x hx) hready
  | builtin c => exact ⟨rfl, hready⟩

/-- A negated literal is ready when its turn comes. -/
theorem isReady_negative {a : Atom}
    (h : schedule registry options body = xs ++ .negative a :: ys) :
    Schedule.isReady ⟨registry, limitedVars registry options body⟩ (xs.flatMap Schedule.gives)
      (.negative a) = true := by
  obtain ⟨zs, rest, heq, horder, -, hrest⟩ := exists_schedule_limited registry options body
  have hnot : .negative a ∉ rest := fun hmem => nomatch (hrest _ hmem).1
  rw [heq] at h
  -- What is left over at the end are calls, so that the literal comes before.
  rcases cases_of_append_eq h with ⟨us, rfl⟩ | ⟨us, -, rfl⟩
  · exact horder.isReady
  · exact absurd (List.mem_append_right _ (.head _)) hnot

namespace Rule

variable {r : Rule} {ctx : Context}

/-- The literals of a safe rule come in an order in which each is ready when its turn comes, if the
variables of its builtins are limited. -/
theorem IsSafe.inOrder_schedule_of_limited (h : r.IsSafe ctx)
    (hlimited : ∀ l ∈ r.body, l.isBuiltin = true → ∀ x ∈ l.vars,
      x ∈ limitedVars ctx.registry ctx.settings.safety r.body) :
    Schedule.InOrder ⟨ctx.registry, limitedVars ctx.registry ctx.settings.safety r.body⟩ []
      (ctx.scheduleRule r).body := by
  obtain ⟨xs, rest, heq, horder, hgiven, hrest⟩ :=
    exists_schedule_limited ctx.registry ctx.settings.safety r.body
  -- A call that never became ready would have a limited variable without a value.
  obtain rfl : rest = [] := by
    rw [List.eq_nil_iff_forall_not_mem]
    intro l hl
    obtain ⟨hbuiltin, hready⟩ := hrest l hl
    cases l with
    | positive a => cases hbuiltin
    | negative a => cases hbuiltin
    | builtin c =>
      have hbody : .builtin c ∈ r.body := mem_schedule.1 (heq ▸ List.mem_append_right _ hl)
      obtain ⟨b, hb, -⟩ := h.exists_builtin hbody
      exact hready (Schedule.isReady_builtin_iff.2 ⟨b, hb,
        BuiltinCall.canEvaluate_of_covered fun x hx => hgiven x (hlimited _ hbody rfl x hx)⟩)
  rw [List.append_nil] at heq
  rw [Context.scheduleRule, heq]
  exact horder

/-- The named variables of builtins are limited, so that the literals of a safe rule whose builtins
have no anonymous variables come in such an order. -/
theorem IsSafe.inOrder_schedule (h : r.IsSafe ctx)
    (hnamed : ∀ l ∈ r.body, l.isBuiltin = true → ∀ x ∈ l.vars, isAnonymous x = false) :
    Schedule.InOrder ⟨ctx.registry, limitedVars ctx.registry ctx.settings.safety r.body⟩ []
      (ctx.scheduleRule r).body :=
  h.inOrder_schedule_of_limited fun l hl hbuiltin x hx => by
    cases l with
    | positive a => cases hbuiltin
    | negative a => cases hbuiltin
    | builtin c => exact h.limited_of_call hl hx (hnamed _ hl rfl x hx)

end Rule

end Deduction
