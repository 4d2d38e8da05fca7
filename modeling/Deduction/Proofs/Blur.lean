import Deduction.Proofs.Instances
import Deduction.Proofs.Safety

/-!
# Wildcards in the place of variables

A wildcard stands for any term. Putting wildcards in the place of variables that occur once
(`Term.blur`) does not change which terms match a pattern (`Term.Matches.blur`,
`Term.exists_matches_of_blur`). It does not change the order in which a body is matched either
(`schedule_blur`), as long as it spares the literals (`Literal.Spares`): the schedule takes a
wildcard for a variable, which the wildcards of all literals share.
-/

namespace Deduction

/-! ## Terms -/

namespace Term

variable {names : List String} {v w : Valuation} {t u : Term} {ts us : List Term} {x : String}

/-- The term with wildcards in the place of the variables in `names`. -/
def blur (names : List String) (t : Term) : Term :=
  t.replace fun x => if x ∈ names then .var wildcard else .var x

theorem mem_occurrences_blur_iff (hx : x ≠ wildcard) :
    x ∈ (t.blur names).occurrences ↔ x ∈ t.occurrences ∧ x ∉ names := by
  rw [blur, mem_occurrences_replace]
  constructor
  · rintro ⟨y, hy, hxy⟩
    split at hxy
    · exact absurd (List.mem_singleton.1 hxy) hx
    · next hnames =>
      obtain rfl := List.mem_singleton.1 hxy
      exact ⟨hy, hnames⟩
  · rintro ⟨hmem, hnames⟩
    exact ⟨x, hmem, by rw [if_neg hnames]; exact .head _⟩

theorem wildcard_mem_blur_iff : wildcard ∈ (t.blur names).occurrences ↔
    wildcard ∈ t.occurrences ∨ ∃ x ∈ names, x ∈ t.occurrences := by
  rw [blur, mem_occurrences_replace]
  constructor
  · rintro ⟨y, hy, hwild⟩
    split at hwild
    · next hnames => exact .inr ⟨y, hnames, hy⟩
    · exact .inl (List.mem_singleton.1 hwild ▸ hy)
  · rintro (hmem | ⟨y, hnames, hmem⟩)
    · exact ⟨wildcard, hmem, by split <;> exact .head _⟩
    · exact ⟨y, hmem, by rw [if_pos hnames]; exact .head _⟩

theorem blur_eq_self (h : ∀ x ∈ names, x ∉ t.occurrences) : t.blur names = t :=
  (replace_congr fun x hx => if_neg fun hnames => h x hnames hx).trans (replace_var t)

/-- What matches a term matches it with wildcards in the place of variables. -/
theorem Matches.blur (h : Matches v t u) : Matches v (t.blur names) u := by
  induction t using inductionOn generalizing u with
  | var x =>
    rw [Term.blur, replace]
    split
    · exact .inl rfl
    · exact h
  | const c => exact h
  | app k ts ih =>
    obtain ⟨us, rfl, hargs⟩ := matches_app_iff.1 h
    rw [Term.blur, replace, replaceAll_eq_map, matches_app_iff]
    refine ⟨us, rfl, List.forall₂_map_left_iff.2 ?_⟩
    exact forall₂_imp_left (fun t ht u => ih t ht) hargs

/-- Variables that occur once in a list of things occur once in each, and not in two of them. -/
theorem nodup_filter_flatMap {α : Type} {f : α → List String} {as : List α}
    (h : ((as.flatMap f).filter (· ∈ names)).Nodup) :
    (∀ a ∈ as, ((f a).filter (· ∈ names)).Nodup) ∧
      as.Pairwise fun a a' => ∀ x ∈ names, x ∈ f a → x ∉ f a' := by
  rw [List.filter_flatMap, List.nodup_flatMap] at h
  refine ⟨h.1, h.2.imp fun {a a'} hdisjoint x hnames hx hx' => ?_⟩
  exact hdisjoint (by simpa using ⟨hx, hnames⟩) (by simpa using ⟨hx', hnames⟩)

/-- Patterns that share none of the variables in `names` match under one valuation if each of them
does under a valuation with values of its own for them. -/
theorem exists_common {α β : Type} {f : α → List String} {P : α → β → Valuation → Prop}
    {as : List α} {bs : List β}
    (hdisjoint : as.Pairwise fun a a' => ∀ x ∈ names, x ∈ f a → x ∉ f a')
    (hlocal : ∀ a ∈ as, ∀ b (w w' : Valuation), (∀ x ∈ f a, x ≠ wildcard → w x = w' x) →
      P a b w → P a b w')
    (h : List.Forall₂ (fun a b => ∃ w : Valuation,
      (∀ x, (x ∈ names → x ∉ f a) → w x = v x) ∧ P a b w) as bs) :
    ∃ w : Valuation, (∀ x, (x ∈ names → ∀ a ∈ as, x ∉ f a) → w x = v x) ∧
      List.Forall₂ (fun a b => P a b w) as bs := by
  induction h with
  | nil => exact ⟨v, fun _ _ => rfl, .nil⟩
  | @cons a b as bs ha _ ih =>
    obtain ⟨hfirst, hrest⟩ := List.pairwise_cons.1 hdisjoint
    rw [List.forall_mem_cons] at hlocal
    obtain ⟨w₁, hw₁, h₁⟩ := ha
    obtain ⟨w₂, hw₂, h₂⟩ := ih hrest hlocal.2
    -- The first pattern has its own variables to itself.
    refine ⟨fun x => if x ∈ names ∧ x ∈ f a then w₁ x else w₂ x, fun x hx => ?_, .cons ?_ ?_⟩
    · refine (if_neg fun hx' => hx hx'.1 a (.head _) hx'.2).trans (hw₂ x ?_)
      exact fun hnames a' ha' => hx hnames a' (.tail _ ha')
    · refine hlocal.1 b w₁ _ (fun x hx _ => ?_) h₁
      split
      · rfl
      · next hnot =>
        have hnames : x ∉ names := fun hnames => hnot ⟨hnames, hx⟩
        rw [hw₁ x fun h => absurd h hnames, hw₂ x fun h => absurd h hnames]
    · refine forall₂_imp_left (fun a' ha' b' => hlocal.2 a' ha' b' w₂ _ fun x hx _ => ?_) h₂
      exact (if_neg fun hx' => hfirst a' ha' x hx'.1 hx'.2 hx).symm

/-- Patterns whose variables in `names` occur once match together if each of them can match what
it matches with wildcards in their place. -/
theorem exists_forall₂_of_blur (hnodup : ((occurrencesAll ts).filter (· ∈ names)).Nodup)
    (hterm : ∀ t ∈ ts, ∀ u, (t.occurrences.filter (· ∈ names)).Nodup → Matches v (t.blur names) u →
      ∃ w : Valuation, (∀ x, (x ∈ names → x ∉ t.occurrences) → w x = v x) ∧ Matches w t u)
    (h : List.Forall₂ (Matches v) (ts.map (blur names)) us) :
    ∃ w : Valuation, (∀ x, (x ∈ names → x ∉ occurrencesAll ts) → w x = v x) ∧
      List.Forall₂ (Matches w) ts us := by
  rw [occurrencesAll_eq_flatMap] at hnodup
  obtain ⟨heach, hdisjoint⟩ := nodup_filter_flatMap hnodup
  have hone := forall₂_imp_left (fun t ht u => hterm t ht u (heach t ht))
    (List.forall₂_map_left_iff.1 h)
  obtain ⟨w, hw, hmatches⟩ := exists_common (f := occurrences) (P := fun t u w => Matches w t u)
    hdisjoint (fun t _ u w w' hww' => (matches_congr hww').1) hone
  refine ⟨w, fun x hx => hw x fun hnames t ht hmem => hx hnames ?_, hmatches⟩
  rw [occurrencesAll_eq_flatMap]
  exact List.mem_flatMap.2 ⟨t, ht, hmem⟩

/-- Variables that occur once take the values that wildcards match. -/
theorem exists_matches_of_blur (hnodup : (t.occurrences.filter (· ∈ names)).Nodup)
    (h : Matches v (t.blur names) u) :
    ∃ w : Valuation, (∀ x, (x ∈ names → x ∉ t.occurrences) → w x = v x) ∧ Matches w t u := by
  induction t using inductionOn generalizing u with
  | var x =>
    rw [blur, replace] at h
    by_cases hx : x ∈ names
    · refine ⟨fun y => if y = x then u else v y, fun y hy => if_neg fun hyx => ?_, .inr ?_⟩
      · exact hy (hyx ▸ hx) (hyx ▸ .head _)
      · exact (if_pos rfl).symm
    · rw [if_neg hx] at h
      exact ⟨v, fun _ _ => rfl, h⟩
  | const c => exact ⟨v, fun _ _ => rfl, h⟩
  | app k ts ih =>
    rw [blur, replace, replaceAll_eq_map, matches_app_iff] at h
    obtain ⟨us, rfl, hargs⟩ := h
    obtain ⟨w, hw, hmatches⟩ :=
      exists_forall₂_of_blur hnodup (fun t ht u hnodup => ih t ht hnodup) hargs
    exact ⟨w, hw, matches_app_iff.2 ⟨us, rfl, hmatches⟩⟩

theorem exists_matchesAll_of_blur (hnodup : ((occurrencesAll ts).filter (· ∈ names)).Nodup)
    (h : MatchesAll v (ts.map (blur names)) us) :
    ∃ w : Valuation, (∀ x, (x ∈ names → x ∉ occurrencesAll ts) → w x = v x) ∧
      MatchesAll w ts us := by
  rw [matchesAll_iff] at h
  obtain ⟨w, hw, hmatches⟩ :=
    exists_forall₂_of_blur hnodup (fun t _ u => exists_matches_of_blur) h
  exact ⟨w, hw, matchesAll_iff.2 hmatches⟩

end Term

/-! ## Literals -/

/-- The call is not evaluated as long as its wildcards are open: they are arguments that its builtin
does not compute. Equalities are not among these calls, as they compute parts of arguments. -/
def BuiltinCall.IsIdle (registry : Registry) (c : BuiltinCall) : Prop :=
  ∀ b, registry.get? c.name = some b → b ≠ .equality ∧
    b.mode.canEvaluate (c.terms.map fun t => wildcard ∉ t.occurrences) = false

namespace Literal

/-- The literal with wildcards in the place of the variables in `names`, which negated literals do
not have. -/
def blur (names : List String) : Literal → Literal
  | positive a => positive ⟨a.predicate, a.terms.map (Term.blur names)⟩
  | negative a => negative a
  | builtin c => builtin ⟨c.name, c.terms.map (Term.blur names)⟩

/-- With wildcards in the place of the variables in `names`, the literal is matched as before. Either
no call has any of these variables, or positive literals have none of them and calls with some are
idle (`idle`). -/
def Spares (registry : Registry) (names : List String) (idle : Prop) : Literal → Prop
  | positive a => wildcard ∉ a.vars ∧ (idle → ∀ x ∈ names, x ∉ a.vars)
  | negative a => ∀ x ∈ names, x ∉ a.vars
  | builtin c => wildcard ∉ c.vars ∧ ((∀ x ∈ names, x ∉ c.vars) ∨
      idle ∧ BuiltinCall.IsIdle registry ⟨c.name, c.terms.map (Term.blur names)⟩)

end Literal

/-- Lists of variables, before and after wildcards take the place of the variables in `names`, have
the same other members; and none of these variables is among them if they belong to idle calls. -/
structure Alike (names : List String) (idle : Prop) (known' known : List String) : Prop where
  /-- The other variables are the same. -/
  mem_iff : ∀ x ∉ names, x ≠ wildcard → (x ∈ known' ↔ x ∈ known)
  /-- The variables of idle calls do not occur. -/
  fresh : idle → (∀ x ∈ names, x ∉ known') ∧ wildcard ∉ known

namespace Alike

variable {names xs xs' ys ys' : List String} {idle : Prop}

theorem nil : Alike names idle [] [] :=
  ⟨fun _ _ _ => Iff.rfl, fun _ => ⟨fun _ _ => List.not_mem_nil, List.not_mem_nil⟩⟩

theorem append (h : Alike names idle xs' xs) (h' : Alike names idle ys' ys) :
    Alike names idle (xs' ++ ys') (xs ++ ys) := by
  refine ⟨fun x hx hne => ?_, fun hidle => ⟨fun x hx => ?_, ?_⟩⟩
  · rw [List.mem_append, List.mem_append, h.mem_iff x hx hne, h'.mem_iff x hx hne]
  · rw [List.mem_append, not_or]
    exact ⟨(h.fresh hidle).1 x hx, (h'.fresh hidle).1 x hx⟩
  · rw [List.mem_append, not_or]
    exact ⟨(h.fresh hidle).2, (h'.fresh hidle).2⟩

/-- Only the members count. -/
theorem congr (h : Alike names idle xs' xs) (h' : ∀ x, x ∈ ys' ↔ x ∈ xs')
    (h'' : ∀ x, x ∈ ys ↔ x ∈ xs) : Alike names idle ys' ys := by
  refine ⟨fun x hx hne => ?_, fun hidle => ?_⟩
  · rw [h', h'', h.mem_iff x hx hne]
  · simpa only [h', h''] using h.fresh hidle

end Alike

section Blur

variable {registry : Registry} {options : SafetyOptions} {names known known' : List String}
  {idle : Prop} {l : Literal} {c : BuiltinCall} {b : Builtin} {ts : List Term} {x : String}

theorem mem_varsAll_blur_iff (hx : x ≠ wildcard) :
    x ∈ Term.varsAll (ts.map (Term.blur names)) ↔ x ∈ Term.varsAll ts ∧ x ∉ names := by
  rw [Term.mem_varsAll, Term.mem_varsAll]
  constructor
  · rintro ⟨_, hu, hmem⟩
    obtain ⟨t, ht, rfl⟩ := List.mem_map.1 hu
    obtain ⟨hmem, hnames⟩ := (Term.mem_occurrences_blur_iff hx).1 hmem
    exact ⟨⟨t, ht, hmem⟩, hnames⟩
  · rintro ⟨⟨t, ht, hmem⟩, hnames⟩
    exact ⟨_, List.mem_map_of_mem ht, (Term.mem_occurrences_blur_iff hx).2 ⟨hmem, hnames⟩⟩

theorem wildcard_mem_varsAll_blur (hx : x ∈ names) (hmem : x ∈ Term.varsAll ts) :
    wildcard ∈ Term.varsAll (ts.map (Term.blur names)) := by
  obtain ⟨t, ht, hmem⟩ := Term.mem_varsAll.1 hmem
  exact Term.mem_varsAll.2
    ⟨_, List.mem_map_of_mem ht, Term.wildcard_mem_blur_iff.2 (.inr ⟨x, hx, hmem⟩)⟩

theorem map_blur_eq_self (h : ∀ x ∈ names, x ∉ Term.varsAll ts) :
    ts.map (Term.blur names) = ts := by
  refine (List.map_congr_left fun t ht => Term.blur_eq_self fun x hx hmem => ?_).trans
    (List.map_id _)
  exact h x hx (Term.mem_varsAll.2 ⟨t, ht, hmem⟩)

theorem Literal.blur_eq_self (h : ∀ x ∈ names, x ∉ l.vars) : l.blur names = l := by
  cases l with
  | positive a => exact congrArg (fun ts => positive ⟨a.predicate, ts⟩) (map_blur_eq_self h)
  | negative a => rfl
  | builtin c => exact congrArg (fun ts => builtin ⟨c.name, ts⟩) (map_blur_eq_self h)

/-- The variables of terms before and after. -/
theorem alike_varsAll (hwild : wildcard ∉ Term.varsAll ts)
    (hnames : idle → ∀ x ∈ names, x ∉ Term.varsAll ts) :
    Alike names idle (Term.varsAll ts) (Term.varsAll (ts.map (Term.blur names))) := by
  refine ⟨fun x hx hne => ?_, fun hidle => ⟨hnames hidle, ?_⟩⟩
  · rw [mem_varsAll_blur_iff hne, and_iff_left hx]
  · rwa [map_blur_eq_self (hnames hidle)]

/-! ## When literals can be matched -/

/-- An idle call cannot be evaluated when the terms with wildcards are open. -/
theorem BuiltinCall.IsIdle.canEvaluate_eq_false {name : String} {f : Term → Bool} {g : Term → Term}
    (h : BuiltinCall.IsIdle registry ⟨name, ts.map g⟩) (hb : registry.get? name = some b)
    (hopen : ∀ t ∈ ts, f t = true → wildcard ∉ (g t).occurrences) :
    b.mode.canEvaluate (ts.map f) = false := by
  rw [← Bool.not_eq_true]
  intro hevaluate
  have hidle := (h b hb).2
  rw [List.map_map, Mode.canEvaluate_map_mono (fun t ht hf => ?_) hevaluate] at hidle
  · cases hidle
  · exact decide_eq_true (hopen t ht hf)

/-- A term that keeps its variables is known after if it is known before. -/
theorem Alike.isCoveredBy_iff (h : Alike names idle known' known) {t : Term}
    (hwild : wildcard ∉ t.occurrences) (hnames : ∀ x ∈ names, x ∉ t.occurrences) :
    t.isCoveredBy known' = t.isCoveredBy known := by
  rw [Bool.eq_iff_iff, Term.isCoveredBy_iff, Term.isCoveredBy_iff]
  exact forall₂_congr fun x hx =>
    h.mem_iff x (fun hmem => hnames x hmem hx) fun heq => hwild (heq ▸ hx)

/-- An idle call can be evaluated neither before nor after. -/
theorem canEvaluate_eq_false_of_isIdle (h : Alike names idle known' known) (hidle : idle)
    (hc : wildcard ∉ c.vars)
    (hcall : BuiltinCall.IsIdle registry ⟨c.name, c.terms.map (Term.blur names)⟩)
    (hb : registry.get? c.name = some b) :
    c.canEvaluate b known' = false ∧
      BuiltinCall.canEvaluate ⟨c.name, c.terms.map (Term.blur names)⟩ b known = false := by
  obtain ⟨hnames, hwild⟩ := h.fresh hidle
  constructor
  · refine hcall.canEvaluate_eq_false hb fun t ht hcovered hmem => ?_
    rw [Term.isCoveredBy_iff] at hcovered
    rcases Term.wildcard_mem_blur_iff.1 hmem with hmem | ⟨x, hx, hmem⟩
    · exact hc (Term.mem_varsAll.2 ⟨t, ht, hmem⟩)
    · exact hnames x hx (hcovered x hmem)
  · rw [BuiltinCall.canEvaluate, List.map_map]
    refine hcall.canEvaluate_eq_false hb fun t ht hcovered hmem => ?_
    exact hwild (Term.isCoveredBy_iff.1 hcovered _ hmem)

/-- A call that can be evaluated has no wildcards afterwards. -/
theorem not_mem_of_canEvaluate (h : Alike names idle known' known)
    (hc : (Literal.builtin c).Spares registry names idle) (hb : registry.get? c.name = some b)
    (hevaluate : c.canEvaluate b known' = true) : ∀ x ∈ names, x ∉ c.vars := by
  refine hc.2.resolve_right ?_
  rintro ⟨hidle, hcall⟩
  rw [(canEvaluate_eq_false_of_isIdle h hidle hc.1 hcall hb).1] at hevaluate
  cases hevaluate

theorem canEvaluate_blur (h : Alike names idle known' known)
    (hc : (Literal.builtin c).Spares registry names idle) (hb : registry.get? c.name = some b) :
    BuiltinCall.canEvaluate ⟨c.name, c.terms.map (Term.blur names)⟩ b known =
      c.canEvaluate b known' := by
  rcases hc.2 with hnames | ⟨hidle, hcall⟩
  · rw [map_blur_eq_self hnames, BuiltinCall.canEvaluate, BuiltinCall.canEvaluate]
    refine congrArg b.mode.canEvaluate (List.map_congr_left fun t ht => Eq.symm ?_)
    exact h.isCoveredBy_iff (fun hmem => hc.1 (Term.mem_varsAll.2 ⟨t, ht, hmem⟩))
      fun x hx hmem => hnames x hx (Term.mem_varsAll.2 ⟨t, ht, hmem⟩)
  · obtain ⟨hbefore, hafter⟩ := canEvaluate_eq_false_of_isIdle h hidle hc.1 hcall hb
    rw [hbefore, hafter]

/-- What a call that can be evaluated gives values to. -/
theorem alike_of_canEvaluate (h : Alike names idle known' known)
    (hc : (Literal.builtin c).Spares registry names idle) (hb : registry.get? c.name = some b)
    (hevaluate : c.canEvaluate b known' = true) :
    Alike names idle c.vars (Term.varsAll (c.terms.map (Term.blur names))) :=
  alike_varsAll hc.1 fun _ => not_mem_of_canEvaluate h hc hb hevaluate

/-- What a literal limits. -/
theorem alike_limits (h : Alike names idle known' known) (hl : l.Spares registry names idle) :
    Alike names idle (l.limits registry options known')
      ((l.blur names).limits registry options known) := by
  cases l with
  | positive a => exact .nil
  | negative a => exact .nil
  | builtin c =>
    rw [Literal.blur, Literal.limits, Literal.limits]
    cases hb : registry.get? c.name with
    | none => exact .nil
    | some b =>
      simp only [canEvaluate_blur h hl hb]
      split
      · next hlimits => exact alike_of_canEvaluate h hl hb (Bool.and_eq_true_iff.1 hlimits).2
      · exact .nil

variable {body : List Literal}

theorem alike_limitPass (h : Alike names idle known' known)
    (hbody : ∀ l ∈ body, l.Spares registry names idle) :
    Alike names idle (limitPass registry options body known')
      (limitPass registry options (body.map (Literal.blur names)) known) := by
  induction body generalizing known known' with
  | nil => exact h
  | cons l body ih =>
    rw [List.forall_mem_cons] at hbody
    have hlimits : Alike names idle (l.limits registry options known')
        ((l.blur names).limits registry options known) := alike_limits h hbody.1
    rw [List.map_cons, limitPass_cons, limitPass_cons]
    exact ih ((h.append hlimits).congr (fun _ => mem_append_filter) fun _ => mem_append_filter) hbody.2

/-- The limited variables of a body. -/
theorem alike_limitedVars (hbody : ∀ l ∈ body, l.Spares registry names idle) :
    Alike names idle (limitedVars registry options body)
      (limitedVars registry options (body.map (Literal.blur names))) := by
  have hpositive : Alike names idle (positiveVars body)
      (positiveVars (body.map (Literal.blur names))) := by
    induction body with
    | nil => exact .nil
    | cons l body ih =>
      rw [List.forall_mem_cons] at hbody
      cases l with
      | positive a => exact (alike_varsAll hbody.1.1 hbody.1.2).append (ih hbody.2)
      | negative a => exact ih hbody.2
      | builtin c => exact ih hbody.2
  have hpasses : ∀ n, Alike names idle
      (Nat.repeat (limitPass registry options body) n (positiveVars body).eraseDups)
      (Nat.repeat (limitPass registry options (body.map (Literal.blur names))) n
        (positiveVars (body.map (Literal.blur names))).eraseDups) := by
    intro n
    induction n with
    | zero => exact hpositive.congr (fun x => List.mem_eraseDups) fun x => List.mem_eraseDups
    | succ n ih => exact alike_limitPass ih hbody
  rw [limitedVars_eq_repeat, limitedVars_eq_repeat, List.length_map]
  exact hpasses _

/-! ## Schedules -/

variable {limited limited' bound bound' : List String} {waiting : List Literal}

/-- A literal becomes ready as before. -/
theorem isReady_blur (hlimited : Alike names idle limited' limited)
    (h : Alike names idle bound' bound) (hl : l.Spares registry names idle) :
    Schedule.isReady ⟨registry, limited⟩ bound (l.blur names) =
      Schedule.isReady ⟨registry, limited'⟩ bound' l := by
  cases l with
  | positive a => rfl
  | negative a =>
    simp only [Literal.blur, Schedule.isReady]
    rw [Bool.eq_iff_iff, List.all_eq_true, List.all_eq_true]
    refine forall₂_congr fun x hx => ?_
    rcases eq_or_ne x wildcard with rfl | hne
    · exact iff_of_true rfl rfl
    · simp only [hlimited.mem_iff x (fun hmem => hl x hmem hx) hne,
        h.mem_iff x (fun hmem => hl x hmem hx) hne]
  | builtin c =>
    simp only [Literal.blur, Schedule.isReady]
    cases hb : registry.get? c.name with
    | none => rfl
    | some b => exact canEvaluate_blur h hl hb

/-- A literal that is ready gives values to what it did before. -/
theorem alike_binds (h : Alike names idle bound' bound) (hl : l.Spares registry names idle)
    (hready : Schedule.isReady ⟨registry, limited'⟩ bound' l = true) :
    Alike names idle (Schedule.binds l) (Schedule.binds (l.blur names)) := by
  cases l with
  | positive a => exact .nil
  | negative a => exact .nil
  | builtin c =>
    rw [Schedule.isReady] at hready
    cases hb : registry.get? c.name with
    | none => simp [hb] at hready
    | some b =>
      rw [hb] at hready
      exact alike_of_canEvaluate h hl hb hready

/-- The waiting literals are released as before. -/
theorem release_blur (hlimited : Alike names idle limited' limited)
    (h : Alike names idle bound' bound) (hwaiting : ∀ l ∈ waiting, l.Spares registry names idle) :
    ∃ known,
      Schedule.release ⟨registry, limited⟩ bound (waiting.map (Literal.blur names)) =
        ⟨(Schedule.release ⟨registry, limited'⟩ bound' waiting).ready.map (Literal.blur names),
          known,
          (Schedule.release ⟨registry, limited'⟩ bound' waiting).waiting.map (Literal.blur names)⟩ ∧
      Alike names idle (Schedule.release ⟨registry, limited'⟩ bound' waiting).bound known ∧
      ∀ l ∈ (Schedule.release ⟨registry, limited'⟩ bound' waiting).waiting,
        l.Spares registry names idle := by
  induction bound', waiting using Schedule.release.induct ⟨registry, limited'⟩
    generalizing bound with
  | case1 bound' waiting hnone =>
    have htake := takeFirst_map fun l hl => isReady_blur hlimited h (hwaiting l hl)
    rw [hnone, Option.map_none] at htake
    rw [Schedule.release_of_none hnone]
    exact ⟨bound, Schedule.release_of_none htake, h, hwaiting⟩
  | case2 bound' waiting l rest hsome _ ih =>
    rw [Schedule.release_of_some hsome]
    have htake := takeFirst_map fun l hl => isReady_blur hlimited h (hwaiting l hl)
    rw [hsome, Option.map_some] at htake
    have hperm := perm_of_takeFirst hsome
    have hbinds := alike_binds h (hwaiting l (hperm.subset (.head _))) (of_takeFirst hsome)
    obtain ⟨known, heq, hknown, hlater⟩ :=
      ih (h.append hbinds) fun m hm => hwaiting m (hperm.subset (.tail _ hm))
    refine ⟨known, ?_, hknown, hlater⟩
    rw [Schedule.release_of_some htake, heq]
    rfl

/-- A body is arranged as before. -/
theorem arrange_blur (hlimited : Alike names idle limited' limited)
    (h : Alike names idle bound' bound) (hwaiting : ∀ l ∈ waiting, l.Spares registry names idle)
    (hbody : ∀ l ∈ body, l.Spares registry names idle) :
    Schedule.arrange ⟨registry, limited⟩ bound (waiting.map (Literal.blur names))
        (body.map (Literal.blur names)) =
      (Schedule.arrange ⟨registry, limited'⟩ bound' waiting body).map (Literal.blur names) := by
  induction body generalizing bound bound' waiting with
  | nil => rfl
  | cons l body ih =>
    rw [List.forall_mem_cons] at hbody
    have hpositive : (l.blur names).isPositive = l.isPositive := by cases l <;> rfl
    rw [List.map_cons, Schedule.arrange, Schedule.arrange, hpositive]
    split
    · next hl =>
      have hvars : Alike names idle l.vars (l.blur names).vars := by
        cases l with
        | positive a => exact alike_varsAll hbody.1.1 hbody.1.2
        | negative a => cases hl
        | builtin c => cases hl
      obtain ⟨known, heq, hknown, hspares⟩ := release_blur hlimited (h.append hvars) hwaiting
      simp only [heq, ih hknown hspares hbody.2, List.map_append, List.map_cons]
    · have hwaiting' : ∀ m ∈ waiting ++ [l], m.Spares registry names idle := by
        rw [List.forall_mem_append, List.forall_mem_singleton]
        exact ⟨hwaiting, hbody.1⟩
      obtain ⟨known, heq, hknown, hspares⟩ := release_blur hlimited h hwaiting'
      rw [List.map_append, List.map_singleton] at heq
      simp only [heq, ih hknown hspares hbody.2, List.map_append]

/-- A body is scheduled as before. -/
theorem schedule_blur (hbody : ∀ l ∈ body, l.Spares registry names idle) :
    schedule registry options (body.map (Literal.blur names)) =
      (schedule registry options body).map (Literal.blur names) :=
  arrange_blur (alike_limitedVars hbody) .nil (List.forall_mem_nil _) hbody

end Blur

end Deduction
