import Deduction.Proofs.Blur
import Deduction.Proofs.Guards

/-!
# Wildcards and fresh variables

A wildcard of a positive literal matches any term, as does a variable that occurs nowhere else. A
rule is compared with one that has fresh variables in the place of the wildcards
(`Rule.IsFreshened`):

* The literals of the two rules come in the same order, with the same things known
  (`Rule.IsFreshened.exists_turnsAlike`). At its turn a literal holds with the wildcards if it does
  for some values of the fresh variables (`TurnsAlike.holdsAt`, `TurnsAlike.exists_holdsAt`).
* In calls the two differ. A call has to give its open argument a value, which a fresh variable
  takes and a wildcard does not: the value that was computed is lost, and the call with it
  (`eq_nil_of_wildcard_mem`). A wildcard of a positive literal counts as known all the same, and a
  call with wildcards may come too early. The rules still behave alike if no call has wildcards, or
  if those that have some cannot be evaluated with fresh variables either and no positive literal
  has one (`Rule.SparesWildcards`).
-/

namespace Deduction

open Matching

section Turns

variable {ctx : Context} {registry : Registry} {db : Database} {names bound bound' : List String}
  {idle : Prop} {body : List Literal} {l : Literal} {v w : Valuation} {x : String}

/-! ## Turns -/

/-- The turn of a literal, and that of the literal with wildcards in the place of the variables in
`names`: these occur once and are new, and the same of the other variables are known. -/
structure TurnsAlike (registry : Registry) (names : List String) (idle : Prop)
    (turn' turn : List String × Literal) : Prop where
  /-- The literal has wildcards in their place. -/
  literal_eq : turn.2 = turn'.2.blur names
  /-- The literal is matched as before. -/
  spares : turn'.2.Spares registry names idle
  /-- They occur once in the literal. -/
  nodup : ((Term.occurrencesAll turn'.2.terms).filter (· ∈ names)).Nodup
  /-- They are not known yet. -/
  fresh : ∀ x ∈ names, x ∈ turn'.2.vars → x ∉ turn'.1
  /-- The same of the other variables are known. -/
  mem_iff : ∀ x ∉ names, x ≠ wildcard → (x ∈ turn'.1 ↔ x ∈ turn.1)

theorem mem_gives_blur_iff (hnames : x ∉ names) (hx : x ≠ wildcard) :
    x ∈ Schedule.gives (l.blur names) ↔ x ∈ Schedule.gives l := by
  cases l with
  | positive a => exact (mem_varsAll_blur_iff hx).trans (and_iff_left hnames)
  | negative a => exact Iff.rfl
  | builtin c => exact (mem_varsAll_blur_iff hx).trans (and_iff_left hnames)

theorem mem_vars_of_mem_gives (hx : x ∈ Schedule.gives l) : x ∈ l.vars := by
  cases l with
  | positive a => exact hx
  | negative a => cases hx
  | builtin c => exact hx

/-- Where variables occur once, the literals of a body come with the same things known. -/
theorem forall₂_turnsAlike (hbody : ∀ l ∈ body, l.Spares registry names idle)
    (hnodup : ∀ l ∈ body, ((Term.occurrencesAll l.terms).filter (· ∈ names)).Nodup)
    (hdisjoint : body.Pairwise fun l m => ∀ x ∈ names, x ∈ l.vars → x ∉ m.vars)
    (hfresh : ∀ l ∈ body, ∀ x ∈ names, x ∈ l.vars → x ∉ bound')
    (hbound : ∀ x ∉ names, x ≠ wildcard → (x ∈ bound' ↔ x ∈ bound)) :
    List.Forall₂ (TurnsAlike registry names idle) (Schedule.turns bound' body)
      (Schedule.turns bound (body.map (Literal.blur names))) := by
  induction body generalizing bound bound' with
  | nil => exact .nil
  | cons l body ih =>
    rw [List.forall_mem_cons] at hbody hnodup hfresh
    rw [List.pairwise_cons] at hdisjoint
    refine .cons ⟨rfl, hbody.1, hnodup.1, hfresh.1, hbound⟩
      (ih hbody.2 hnodup.2 hdisjoint.2 ?_ ?_)
    · intro m hm x hx hmem
      rw [List.mem_append, not_or]
      exact ⟨hfresh.2 m hm x hx hmem,
        fun hgives => hdisjoint.1 m hm x hx (mem_vars_of_mem_gives hgives) hmem⟩
    · intro x hx hne
      rw [List.mem_append, List.mem_append, hbound x hx hne, mem_gives_blur_iff hx hne]

/-! ## Literals at their turn -/

/-- An idle call fails whatever else is known. -/
theorem BuiltinCall.IsIdle.exists_error {name : String} {ts : List Term} {f g : Term → Term}
    (h : BuiltinCall.IsIdle ctx.registry ⟨name, ts.map g⟩)
    (hopen : ∀ t ∈ ts, (f t).isGround = true → wildcard ∉ (g t).occurrences) :
    ∃ e, ctx.evaluateCall ⟨name, ts.map f⟩ = .error e := by
  refine Context.exists_evaluateCall_eq_error fun b hb => ⟨(h b hb).1, ?_⟩
  rw [List.map_map]
  exact h.canEvaluate_eq_false hb hopen

/-- A variable is known if something ground is put in its place. -/
theorem Valuation.mem_of_isGround_known (h : (v.known bound x).isGround = true) :
    x ∈ bound ∧ x ≠ wildcard := by
  by_contra hnot
  rw [known, if_neg hnot] at h
  cases h

variable {turn turn' : List String × Literal}

/-- An idle call fails with wildcards and with variables that are not known. -/
theorem BuiltinCall.IsIdle.failsAt {c : BuiltinCall}
    (h : BuiltinCall.IsIdle ctx.registry ⟨c.name, c.terms.map (Term.blur names)⟩)
    (hwild : wildcard ∉ c.vars) (hfresh : ∀ x ∈ names, x ∈ c.vars → x ∉ bound') :
    (Literal.builtin c).FailsAt ctx bound' w ∧
      ((Literal.builtin c).blur names).FailsAt ctx bound v := by
  constructor
  · have hcall : ∃ e, ctx.evaluateCall (c.given w bound') = .error e := by
      refine h.exists_error fun t ht hground hmem => ?_
      rw [Term.isGround_replace_iff] at hground
      rcases Term.wildcard_mem_blur_iff.1 hmem with hmem | ⟨x, hx, hmem⟩
      · exact hwild (Term.mem_varsAll.2 ⟨t, ht, hmem⟩)
      · exact hfresh x hx (Term.mem_varsAll.2 ⟨t, ht, hmem⟩)
          (Valuation.mem_of_isGround_known (hground x hmem)).1
    obtain ⟨e, he⟩ := hcall
    exact ⟨c, e, rfl, he⟩
  · have hcall : ∃ e, ctx.evaluateCall
        (BuiltinCall.given ⟨c.name, c.terms.map (Term.blur names)⟩ v bound) = .error e := by
      rw [BuiltinCall.given, List.map_map]
      refine h.exists_error fun t _ hground hmem => ?_
      rw [Function.comp, Term.isGround_replace_iff] at hground
      exact (Valuation.mem_of_isGround_known (hground _ hmem)).2 rfl
    obtain ⟨e, he⟩ := hcall
    exact ⟨_, e, rfl, he⟩

namespace TurnsAlike

/-- A literal is positive, or has no wildcards in the place of variables, or fails. -/
theorem cases (h : TurnsAlike ctx.registry names idle turn' turn) :
    (∃ a, turn'.2 = .positive a) ∨
    ((∀ x ∈ names, x ∉ turn'.2.vars) ∧ turn.2 = turn'.2) ∨
    ∀ v w : Valuation, turn'.2.FailsAt ctx turn'.1 w ∧ turn.2.FailsAt ctx turn.1 v := by
  obtain ⟨known', l⟩ := turn'
  obtain ⟨heq, hspares, -, hfresh, -⟩ := h
  have hsame : (∀ x ∈ names, x ∉ l.vars) → (∀ x ∈ names, x ∉ l.vars) ∧ turn.2 = l := fun hnames =>
    ⟨hnames, heq.trans (Literal.blur_eq_self hnames)⟩
  cases l with
  | positive a => exact .inl ⟨a, rfl⟩
  | negative a => exact .inr (.inl (hsame hspares))
  | builtin c =>
    obtain ⟨hwild, hnames | ⟨-, hidle⟩⟩ := hspares
    · exact .inr (.inl (hsame hnames))
    · refine .inr (.inr fun v w => ?_)
      rw [heq]
      exact hidle.failsAt hwild hfresh

/-- A literal that holds does so with wildcards in the place of variables. -/
theorem holdsAt (h : TurnsAlike ctx.registry names idle turn' turn)
    (hholds : turn'.2.HoldsAt ctx db db turn'.1 v) : turn.2.HoldsAt ctx db db turn.1 v := by
  rcases h.cases with ⟨a, ha⟩ | ⟨hnames, heq⟩ | hfails
  · rw [h.literal_eq]
    rw [ha] at hholds ⊢
    obtain ⟨t, ht, hmatches⟩ := hholds
    refine ⟨t, ht, Term.matchesAll_iff.2 (List.forall₂_map_left_iff.2 ?_)⟩
    exact (Term.matchesAll_iff.1 hmatches).imp fun _ _ hmatch => hmatch.blur
  · rw [heq]
    exact hholds.congr (fun _ _ _ => rfl) fun x hx => h.mem_iff x fun hmem => hnames x hmem hx
  · exact absurd hholds (hfails v v).1.not_holdsAt

/-- A literal that holds with wildcards in the place of variables holds for some values of these. -/
theorem exists_holdsAt (h : TurnsAlike ctx.registry names idle turn' turn) (hdb : db.IsGround)
    (hv : ∀ x, (v x).isGround = true) (hholds : turn.2.HoldsAt ctx db db turn.1 v) :
    ∃ w : Valuation, (∀ x, (x ∈ names → x ∉ turn'.2.vars) → w x = v x) ∧
      turn'.2.HoldsAt ctx db db turn'.1 w ∧
      ∀ x ∈ turn'.2.vars, x ≠ wildcard → (w x).isGround = true := by
  rcases h.cases with ⟨a, ha⟩ | ⟨hnames, heq⟩ | hfails
  · have hnodup := h.nodup
    rw [h.literal_eq, ha] at hholds
    rw [ha] at hnodup ⊢
    obtain ⟨t, ht, hmatches⟩ := hholds
    obtain ⟨w, hw, hmatches⟩ := Term.exists_matchesAll_of_blur hnodup hmatches
    refine ⟨w, fun x hx => hw x fun hnames hmem => hx hnames (List.mem_eraseDups.2 hmem),
      ⟨t, ht, hmatches⟩, fun x hx hne => ?_⟩
    obtain ⟨u, hu, hx⟩ := Term.mem_varsAll.1 hx
    exact hmatches.hereditary (fun _ _ => Term.areGround_iff.1) (Term.areGround_iff.1 (hdb _ ht))
      hu hx hne
  · refine ⟨v, fun _ _ => rfl, ?_, fun x _ _ => hv x⟩
    rw [heq] at hholds
    exact hholds.congr (fun _ _ _ => rfl) fun x hx hne =>
      (h.mem_iff x (fun hmem => hnames x hmem hx) hne).symm
  · exact absurd hholds (hfails v v).2.not_holdsAt

/-- Literals fail alike, whatever the values of the variables in `names`. -/
theorem failsAt_iff (h : TurnsAlike ctx.registry names idle turn' turn)
    (hw : ∀ x ∉ names, w x = v x) :
    turn'.2.FailsAt ctx turn'.1 w ↔ turn.2.FailsAt ctx turn.1 v := by
  rcases h.cases with ⟨a, ha⟩ | ⟨hnames, heq⟩ | hfails
  · rw [h.literal_eq, ha]
    exact iff_of_false (fun ⟨_, _, heq, _⟩ => nomatch heq) fun ⟨_, _, heq, _⟩ => nomatch heq
  · rw [heq]
    exact Literal.failsAt_congr (fun x hx _ => hw x fun hmem => hnames x hmem hx)
      fun x hx => h.mem_iff x fun hmem => hnames x hmem hx
  · exact iff_of_true (hfails v w).1 (hfails v w).2

end TurnsAlike

variable {turns turns' : List (List String × Literal)}

theorem forall_holdsAt (h : List.Forall₂ (TurnsAlike ctx.registry names idle) turns' turns)
    (hholds : ∀ turn ∈ turns', turn.2.HoldsAt ctx db db turn.1 v) :
    ∀ turn ∈ turns, turn.2.HoldsAt ctx db db turn.1 v := by
  intro turn hturn
  obtain ⟨turn', hturn', halike⟩ := exists_of_forall₂ h.flip hturn
  exact halike.holdsAt (hholds turn' hturn')

/-- Literals that hold with wildcards in the place of variables hold for some values of these. -/
theorem exists_forall_holdsAt
    (h : List.Forall₂ (TurnsAlike ctx.registry names idle) turns' turns)
    (hdisjoint : turns'.Pairwise fun a b => ∀ x ∈ names, x ∈ a.2.vars → x ∉ b.2.vars)
    (hwild : wildcard ∉ names) (hdb : db.IsGround) (hv : ∀ x, (v x).isGround = true)
    (hholds : ∀ turn ∈ turns, turn.2.HoldsAt ctx db db turn.1 v) :
    ∃ w : Valuation, (∀ x, (w x).isGround = true) ∧ (∀ x ∉ names, w x = v x) ∧
      ∀ turn ∈ turns', turn.2.HoldsAt ctx db db turn.1 w := by
  have hone := (forall₂_imp_left (fun turn hturn turn' (halike : TurnsAlike _ _ _ turn' turn) =>
    halike.exists_holdsAt hdb hv (hholds turn hturn)) h.flip).flip
  have hlocal : ∀ turn' ∈ turns', ∀ (_ : List String × Literal) (w w' : Valuation),
      (∀ x ∈ turn'.2.vars, x ≠ wildcard → w x = w' x) →
      (turn'.2.HoldsAt ctx db db turn'.1 w ∧
        ∀ x ∈ turn'.2.vars, x ≠ wildcard → (w x).isGround = true) →
      turn'.2.HoldsAt ctx db db turn'.1 w' ∧
        ∀ x ∈ turn'.2.vars, x ≠ wildcard → (w' x).isGround = true := by
    rintro turn' - _ w w' hww' ⟨hholds, hground⟩
    exact ⟨hholds.congr hww' fun _ _ _ => Iff.rfl,
      fun x hx hne => hww' x hx hne ▸ hground x hx hne⟩
  obtain ⟨w, hw, hmatches⟩ := Term.exists_common hdisjoint hlocal hone
  refine ⟨w, fun x => ?_, fun x hx => hw x fun hnames => absurd hnames hx, fun turn hturn => ?_⟩
  · by_cases hx : x ∈ names ∧ ∃ turn ∈ turns', x ∈ turn.2.vars
    · obtain ⟨hnames, turn, hturn, hx⟩ := hx
      obtain ⟨_, _, -, hground⟩ := exists_of_forall₂ hmatches hturn
      exact hground x hx fun heq => hwild (heq ▸ hnames)
    · rw [hw x fun hnames turn hturn hmem => hx ⟨hnames, turn, hturn, hmem⟩]
      exact hv x
  · obtain ⟨_, _, hholds, -⟩ := exists_of_forall₂ hmatches hturn
    exact hholds

end Turns

/-! ## Rules -/

/-- A rule is another one with fresh variables, the ones in `names`, in the place of the wildcards
of its positive literals and calls, each in one place. -/
structure Rule.IsFreshened (r r' : Rule) (names : List String) : Prop where
  /-- The heads are the same. -/
  head_eq : r'.head = r.head
  /-- The wildcards are where the fresh variables are. -/
  body_eq : r'.body.map (Literal.blur names) = r.body
  /-- The variables are fresh. -/
  fresh : ∀ x ∈ names, x ≠ wildcard ∧ x ∉ r.head.vars ∧ ∀ l ∈ r.body, x ∉ l.vars
  /-- Each occurs once. -/
  nodup : ((r'.body.flatMap fun l => Term.occurrencesAll l.terms).filter (· ∈ names)).Nodup
  /-- No wildcards are left in positive literals and calls. -/
  wildcard_not_mem : wildcard ∉ r'.body.flatMap Schedule.gives

instance (r r' : Rule) (names : List String) : Decidable (r.IsFreshened r' names) :=
  decidable_of_iff (r'.head = r.head ∧ r'.body.map (Literal.blur names) = r.body ∧
      (∀ x ∈ names, x ≠ wildcard ∧ x ∉ r.head.vars ∧ ∀ l ∈ r.body, x ∉ l.vars) ∧
      ((r'.body.flatMap fun l => Term.occurrencesAll l.terms).filter (· ∈ names)).Nodup ∧
      wildcard ∉ r'.body.flatMap Schedule.gives)
    ⟨fun ⟨hhead, hbody, hfresh, hnodup, hwild⟩ => ⟨hhead, hbody, hfresh, hnodup, hwild⟩,
      fun h => ⟨h.head_eq, h.body_eq, h.fresh, h.nodup, h.wildcard_not_mem⟩⟩

/-- The wildcards of a rule stand for values of facts: calls have none; or those that have some are
not evaluated as long as these are open, and positive literals have none, which would count as
known. -/
def Rule.SparesWildcards (registry : Registry) (r : Rule) : Prop :=
  (∀ c, .builtin c ∈ r.body → wildcard ∉ c.vars) ∨
    (∀ a, .positive a ∈ r.body → wildcard ∉ a.vars) ∧
      ∀ c, .builtin c ∈ r.body → wildcard ∈ c.vars → c.IsIdle registry

section Rules

variable {ctx : Context} {registry : Registry} {db : Database} {r r' : Rule} {names : List String}
  {l : Literal} {facts facts' : List Atom} {a : Atom} {x : String} {v : Valuation}

namespace Rule.IsFreshened

theorem blur_mem (h : r.IsFreshened r' names) (hl : l ∈ r'.body) : l.blur names ∈ r.body :=
  h.body_eq ▸ List.mem_map_of_mem hl

theorem wildcard_not_mem_gives (h : r.IsFreshened r' names) (hl : l ∈ r'.body) :
    wildcard ∉ Schedule.gives l :=
  fun hmem => h.wildcard_not_mem (List.mem_flatMap.2 ⟨l, hl, hmem⟩)

/-- The literals of a rule are matched as those with fresh variables are. -/
theorem exists_spares (h : r.IsFreshened r' names) (hspares : r.SparesWildcards registry) :
    ∃ idle, ∀ l ∈ r'.body, l.Spares registry names idle := by
  have hnegative : ∀ a, .negative a ∈ r'.body → ∀ x ∈ names, x ∉ a.vars := fun a ha x hx =>
    (h.fresh x hx).2.2 _ (h.blur_mem ha)
  rcases hspares with hcalls | ⟨hpositive, hcalls⟩
  · refine ⟨False, fun l hl => ?_⟩
    have hwild := h.wildcard_not_mem_gives hl
    cases l with
    | positive a => exact ⟨hwild, False.elim⟩
    | negative a => exact hnegative a hl
    | builtin c =>
      refine ⟨hwild, .inl fun x hx hmem => ?_⟩
      exact hcalls _ (h.blur_mem hl) (wildcard_mem_varsAll_blur hx hmem)
  · refine ⟨True, fun l hl => ?_⟩
    have hwild := h.wildcard_not_mem_gives hl
    cases l with
    | positive a =>
      refine ⟨hwild, fun _ x hx hmem => ?_⟩
      exact hpositive _ (h.blur_mem hl) (wildcard_mem_varsAll_blur hx hmem)
    | negative a => exact hnegative a hl
    | builtin c =>
      refine ⟨hwild, or_iff_not_imp_left.2 fun hsome => ⟨trivial, ?_⟩⟩
      push Not at hsome
      obtain ⟨x, hx, hmem⟩ := hsome
      exact hcalls _ (h.blur_mem hl) (wildcard_mem_varsAll_blur hx hmem)

/-- The literals of the two rules are matched in the same order, with the same things known. -/
theorem exists_turnsAlike (h : r.IsFreshened r' names) (hspares : r.SparesWildcards ctx.registry) :
    ∃ idle, List.Forall₂ (TurnsAlike ctx.registry names idle) (ctx.turns r') (ctx.turns r) ∧
      (ctx.turns r').Pairwise fun a b => ∀ x ∈ names, x ∈ a.2.vars → x ∉ b.2.vars := by
  obtain ⟨idle, hbody⟩ := h.exists_spares hspares
  have hperm := schedule_perm ctx.registry ctx.settings.safety r'.body
  obtain ⟨hnodup, hdisjoint⟩ := Term.nodup_filter_flatMap
    (((hperm.flatMap_right _).filter _).nodup_iff.2 h.nodup)
  have hdisjoint' : (ctx.scheduleRule r').body.Pairwise
      fun l m => ∀ x ∈ names, x ∈ l.vars → x ∉ m.vars :=
    hdisjoint.imp fun hlm x hx hl hm =>
      hlm x hx (List.mem_eraseDups.1 hl) (List.mem_eraseDups.1 hm)
  have hscheduled : (ctx.scheduleRule r).body =
      (ctx.scheduleRule r').body.map (Literal.blur names) := by
    rw [Context.scheduleRule, Context.scheduleRule, ← h.body_eq]
    exact schedule_blur hbody
  refine ⟨idle, ?_, ?_⟩
  · rw [Context.turns, Context.turns, hscheduled]
    exact forall₂_turnsAlike (fun l hl => hbody l (hperm.subset hl)) hnodup hdisjoint'
      (fun _ _ _ _ _ => List.not_mem_nil) fun _ _ _ => Iff.rfl
  · rw [← Schedule.map_snd_turns [] (ctx.scheduleRule r').body, List.pairwise_map] at hdisjoint'
    exact hdisjoint'

/-- Rules whose literals are matched alike get stuck alike. -/
theorem stuck_iff (h : r.IsFreshened r' names) (hspares : r.SparesWildcards ctx.registry)
    (hdb : db.IsGround) :
    Stuck ctx db (reading db (ctx.scheduleRule r).body) .empty ↔
      Stuck ctx db (reading db (ctx.scheduleRule r').body) .empty := by
  obtain ⟨idle, halike, hdisjoint⟩ := h.exists_turnsAlike hspares
  rw [stuck_iff_turns covers_empty hdb, stuck_iff_turns covers_empty hdb]
  change (∃ v : Valuation, _ ∧ _ ∧ ∃ before turn after, ctx.turns r = _ ∧ _) ↔
    ∃ v : Valuation, _ ∧ _ ∧ ∃ before turn after, ctx.turns r' = _ ∧ _
  constructor
  · rintro ⟨v, hv, -, before, turn, after, heq, hbefore, hfails⟩
    rw [heq] at halike
    obtain ⟨before', turn', after', heq', hbefore', hturn⟩ := exists_of_forall₂_append halike.flip
    rw [heq'] at hdisjoint
    obtain ⟨w, hw, hwv, hholds⟩ := exists_forall_holdsAt hbefore'.flip
      (List.pairwise_append.1 hdisjoint).1 (fun hwild => (h.fresh _ hwild).1 rfl) hdb hv hbefore
    exact ⟨w, hw, Substitution.fits_empty w, before', turn', after', heq', hholds,
      (hturn.failsAt_iff hwv).2 hfails⟩
  · rintro ⟨v, hv, hfits, before, turn, after, heq, hbefore, hfails⟩
    rw [heq] at halike
    obtain ⟨before', turn', after', heq', hbefore', hturn⟩ := exists_of_forall₂_append halike
    exact ⟨v, hv, hfits, before', turn', after', heq', forall_holdsAt hbefore' hbefore,
      (hturn.failsAt_iff fun _ _ => rfl).1 hfails⟩

/-- The literals of the two rules hold under the same valuations, apart from the values of the fresh
variables. -/
theorem exists_holdsAt (h : r.IsFreshened r' names) (hspares : r.SparesWildcards ctx.registry)
    (hdb : db.IsGround) (hv : ∀ x, (v x).isGround = true)
    (hholds : ∀ turn ∈ ctx.turns r, turn.2.HoldsAt ctx db db turn.1 v) :
    ∃ w : Valuation, (∀ x, (w x).isGround = true) ∧ (∀ x ∉ names, w x = v x) ∧
      ∀ turn ∈ ctx.turns r', turn.2.HoldsAt ctx db db turn.1 w := by
  obtain ⟨idle, halike, hdisjoint⟩ := h.exists_turnsAlike hspares
  exact exists_forall_holdsAt halike hdisjoint (fun hwild => (h.fresh _ hwild).1 rfl) hdb hv hholds

theorem holdsAt (h : r.IsFreshened r' names) (hspares : r.SparesWildcards ctx.registry)
    (hholds : ∀ turn ∈ ctx.turns r', turn.2.HoldsAt ctx db db turn.1 v) :
    ∀ turn ∈ ctx.turns r, turn.2.HoldsAt ctx db db turn.1 v := by
  obtain ⟨idle, halike, -⟩ := h.exists_turnsAlike hspares
  exact forall_holdsAt halike hholds

/-- The two rules give values to the same variables, apart from the fresh ones. -/
theorem mem_gives_iff (h : r.IsFreshened r' names) (hnames : x ∉ names) (hx : x ≠ wildcard) :
    x ∈ r'.body.flatMap Schedule.gives ↔ x ∈ r.body.flatMap Schedule.gives := by
  rw [← h.body_eq, List.flatMap_map, List.mem_flatMap, List.mem_flatMap]
  exact exists_congr fun l => and_congr_right fun _ => (mem_gives_blur_iff hnames hx).symm

/-- Rules whose literals are matched alike succeed alike. -/
theorem derive_isOk_iff (h : r.IsFreshened r' names) (hspares : r.SparesWildcards ctx.registry)
    (hdb : db.IsGround) :
    (∃ facts, (ctx.scheduleRule r).derive ctx db = .ok facts) ↔
      ∃ facts, (ctx.scheduleRule r').derive ctx db = .ok facts := by
  rw [derive_isOk_iff_turns hdb, derive_isOk_iff_turns hdb, h.stuck_iff hspares hdb, h.head_eq]
  refine and_congr_right fun _ => imp_congr ⟨?_, ?_⟩ (forall₂_congr fun x hx => ?_)
  · rintro ⟨v, hv, hholds⟩
    obtain ⟨w, hw, -, hholds⟩ := h.exists_holdsAt hspares hdb hv hholds
    exact ⟨w, hw, hholds⟩
  · rintro ⟨v, hv, hholds⟩
    exact ⟨v, hv, h.holdsAt hspares hholds⟩
  · have hnames : x ∉ names := fun hmem => (h.fresh x hmem).2.1 hx
    exact and_congr_left fun hne => (h.mem_gives_iff hnames hne).symm

/-- Rules whose literals are matched alike derive the same facts. -/
theorem mem_derive_iff (h : r.IsFreshened r' names) (hspares : r.SparesWildcards ctx.registry)
    (hdb : db.IsGround) (hfacts : (ctx.scheduleRule r).derive ctx db = .ok facts)
    (hfacts' : (ctx.scheduleRule r').derive ctx db = .ok facts') : a ∈ facts ↔ a ∈ facts' := by
  rw [(mem_derive_iff_turns hdb hfacts).1, (mem_derive_iff_turns hdb hfacts').1, h.head_eq]
  constructor
  · rintro ⟨v, hv, hholds, rfl⟩
    obtain ⟨w, hw, hwv, hholds⟩ := h.exists_holdsAt hspares hdb hv hholds
    refine ⟨w, hw, hholds, congrArg (Atom.mk _) (List.map_congr_left fun t ht => ?_)⟩
    refine Term.replace_congr fun x hx => hwv x fun hmem => ?_
    exact (h.fresh x hmem).2.1 (Term.mem_varsAll.2 ⟨t, ht, hx⟩)
  · rintro ⟨v, hv, hholds, rfl⟩
    exact ⟨v, hv, h.holdsAt hspares hholds, rfl⟩

end Rule.IsFreshened

/-- What a call computes for a wildcard is lost, and with it all that the rule would derive. -/
theorem eq_nil_of_wildcard_mem {c : BuiltinCall} (hdb : db.IsGround) (hc : .builtin c ∈ r.body)
    (hwild : wildcard ∈ c.vars) (hfacts : (ctx.scheduleRule r).derive ctx db = .ok facts) :
    facts = [] := by
  refine List.eq_nil_iff_forall_not_mem.2 fun a ha => ?_
  obtain ⟨v, hv, hholds, -⟩ := (mem_derive_iff_turns hdb hfacts).1.1 ha
  obtain ⟨known, hturn⟩ : ∃ known, (known, _) ∈ ctx.turns r := exists_mem_turns hc
  exact (hholds _ hturn).wildcard_not_mem hv hwild

/-- Wildcards behave like fresh variables in rules whose calls do not depend on them: with fresh
variables in their place the rule fails over the same databases, and derives the same facts over the
others. In other rules a wildcard of a call is no fresh variable: what the call computes for it is
lost, so that the rule fails or derives nothing. -/
theorem Rule.IsFreshened.derives_same (h : r.IsFreshened r' names) (hdb : db.IsGround) :
    (r.SparesWildcards ctx.registry →
      ((∃ facts, (ctx.scheduleRule r).derive ctx db = .ok facts) ↔
        ∃ facts, (ctx.scheduleRule r').derive ctx db = .ok facts) ∧
      ∀ facts facts', (ctx.scheduleRule r).derive ctx db = .ok facts →
        (ctx.scheduleRule r').derive ctx db = .ok facts' → ∀ a, a ∈ facts ↔ a ∈ facts') ∧
    ((∃ c, .builtin c ∈ r.body ∧ wildcard ∈ c.vars) →
      ∀ facts, (ctx.scheduleRule r).derive ctx db = .ok facts → facts = []) := by
  refine ⟨fun hspares => ⟨h.derive_isOk_iff hspares hdb, ?_⟩, ?_⟩
  · exact fun _ _ hfacts hfacts' _ => h.mem_derive_iff hspares hdb hfacts hfacts'
  · rintro ⟨c, hc, hwild⟩ facts hfacts
    exact eq_nil_of_wildcard_mem hdb hc hwild hfacts

end Rules

/-- Light roots of a graph. Where an edge leads to, and what it is made of, does not matter. -/
def rootRule (x y : String) : Rule :=
  ⟨⟨.plain "root" 1, [.var "X"]⟩,
    [.positive ⟨.plain "edge" 2, [.var "X", .var x]⟩,
      .negative ⟨.plain "edge" 2, [.var "_", .var "X"]⟩,
      .positive ⟨.plain "weight" 2, [.var "X", .app "of" [.var y, .var "W"]]⟩,
      .builtin ⟨"LESS", [.var "W", .const (.integer 5)]⟩]⟩

/-- A graph with two roots, one of them light. -/
def weightFacts : Database :=
  let edge (m n : Int64) : Atom := ⟨.plain "edge" 2, [.const (.integer m), .const (.integer n)]⟩
  let weight (m n : Int64) : Atom :=
    ⟨.plain "weight" 2, [.const (.integer m), .app "of" [.const (.symbol "iron"),
      .const (.integer n)]]⟩
  let facts := [edge 1 3, edge 1 4, edge 2 3, weight 1 2, weight 2 7, weight 3 1]
  ((Database.ofFacts facts).toOption).getD .empty

theorem derives_same_rootRule :
    let ctx : Context := ⟨.standard, {}⟩
    let root : Atom := ⟨.plain "root" 1, [.const (.integer 1)]⟩
    (rootRule "_" "_").IsFreshened (rootRule "_A" "_B") ["_A", "_B"] ∧ weightFacts.IsGround ∧
    (rootRule "_" "_").SparesWildcards ctx.registry ∧
    (ctx.scheduleRule (rootRule "_" "_")).derive ctx weightFacts = .ok [root, root] ∧
    ∃ facts, (ctx.scheduleRule (rootRule "_A" "_B")).derive ctx weightFacts = .ok facts ∧
      ∀ a, a ∈ [root, root] ↔ a ∈ facts := by
  intro ctx root
  have hfreshened : (rootRule "_" "_").IsFreshened (rootRule "_A" "_B") ["_A", "_B"] := by
    decide +kernel
  have hdb : weightFacts.IsGround := Database.isGround_iff.2 (by decide +kernel)
  have hspares : (rootRule "_" "_").SparesWildcards ctx.registry := by
    refine .inl fun c hc => ?_
    obtain rfl : c = ⟨"LESS", [.var "W", .const (.integer 5)]⟩ := by simpa [rootRule] using hc
    decide
  have hfacts : (ctx.scheduleRule (rootRule "_" "_")).derive ctx weightFacts =
      .ok [root, root] := by
    decide +kernel
  obtain ⟨hsucceeds, hsame⟩ := (hfreshened.derives_same hdb).1 hspares
  obtain ⟨facts, hfacts'⟩ := hsucceeds.1 ⟨_, hfacts⟩
  exact ⟨hfreshened, hdb, hspares, hfacts, facts, hfacts', hsame _ _ hfacts hfacts'⟩

/-- Rules with wildcards, or fresh variables, in calls. Each comes with facts, and with what it
derives with wildcards and with fresh variables, unless it fails. -/
def openCalls :
    List ((String → String → Rule) × List Atom × Option (List Atom) × Option (List Atom)) :=
  let atom (name : String) (terms : List Term) : Atom := ⟨.plain name terms.length, terms⟩
  let int (n : Int64) : Term := .const (.integer n)
  let rule (name : String) (terms : String → String → List Term) (x y : String) : Rule :=
    ⟨atom "p" [.var "X"], [.positive (atom "q" [.var "X"]), .builtin ⟨name, terms x y⟩]⟩
  let p : List Atom := [atom "p" [int 1]]
  let q : List Atom := [atom "q" [int 1]]
  -- An equality fails, as no value stands for the wildcard.
  let equalities :=
    [(rule "EQUAL" fun x _ => [.var "X", .var x], q, none, some p),
      (rule "EQUAL" fun x y => [.app "f" [.var x, int 1], .app "f" [.var "X", .var y]],
        q, none, some p)]
  -- The result of arithmetic is dropped.
  let results := ["ADD", "SUBTRACT", "MULTIPLY", "DIVIDE", "MODULUS"].map fun name =>
    (rule name fun x _ => [.var "X", int 2, .var x], q, some [], some p)
  -- A wildcard of a positive literal counts as known, so that the comparison comes too early.
  let comparison (x y : String) : Rule :=
    ⟨atom "p" [.var "X"], [.positive (atom "q" [.var x]), .positive (atom "q" [.var "X"]),
      .builtin ⟨"LESS", [.var y, .var "X"]⟩, .positive (atom "r" [.var "X"])]⟩
  equalities ++ results ++ [(comparison, q, none, some [])]

/-- Wildcards in calls do not behave like fresh variables. -/
theorem derivedFrom_openCalls_ne :
    (∀ e ∈ openCalls,
      (e.1 "_" "_").IsSafe ⟨.standard, {}⟩ ∧ (e.1 "_A" "_B").IsSafe ⟨.standard, {}⟩ ∧
      (e.1 "_" "_").IsFreshened (e.1 "_A" "_B") ["_A", "_B"]) ∧
    ∀ e ∈ openCalls,
      (e.1 "_" "_").derivedFrom e.2.1 = e.2.2.1 ∧ (e.1 "_A" "_B").derivedFrom e.2.1 = e.2.2.2 ∧
      (e.2.2.1.isSome ≠ e.2.2.2.isSome ∨ ∃ a ∈ e.2.2.2.getD [], a ∉ e.2.2.1.getD []) := by
  decide +kernel

end Deduction
