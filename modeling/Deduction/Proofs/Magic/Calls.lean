import Deduction.Magic.Program
import Deduction.Proofs.Magic.Patterns
import Deduction.Proofs.Model

/-!
# Calls

The literals of an adorned body make calls, and each call has rules of its own, which derive it from
the literals that pass bindings to it. Such rules derive nothing but calls
(`AdornedRule.DerivesCalls`), and they do derive a call once the literals that come before it hold
(`AdornedRule.target_mem`), whether its bindings come from no literal, from one or from several.
-/

namespace Deduction

/-! ## Adorned literals -/

namespace Literal

variable {l : Literal} {derived : List Predicate} {known : List String} {p : CallPattern}

@[simp]
theorem terms_adorn (l : Literal) (derived : List Predicate) (known : List String) :
    (l.adorn derived known).terms = l.terms := by
  unfold adorn
  split <;> rfl

@[simp]
theorem vars_adorn (l : Literal) (derived : List Predicate) (known : List String) :
    (l.adorn derived known).vars = l.vars := by
  rw [vars, terms_adorn, vars]

@[simp]
theorem namedVars_adorn (l : Literal) (derived : List Predicate) (known : List String) :
    (l.adorn derived known).namedVars = l.namedVars := by
  rw [namedVars, vars_adorn, namedVars]

theorem adorn_eq_self (h : l.call? derived known = none) : l.adorn derived known = l := by
  rw [adorn, h]

theorem adorn_eq_of_call? (h : l.call? derived known = some p) :
    l.adorn derived known = .positive ⟨.adorned p, l.terms⟩ := by
  rw [adorn, h]

/-- The pattern of a call belongs to the predicate that is called. -/
theorem exists_of_call?_of_isPlain (h : l.call? derived known = some p)
    (hplain : ∀ a ∈ l.atom?, a.IsPlain) :
    ∃ terms, l = .positive ⟨p.plain, terms⟩ ∧ p = .ofTerms p.name terms known := by
  obtain ⟨arity, terms, rfl, -, hp⟩ := exists_of_call? h
  exact ⟨terms, by rw [plain_of_call? h (hplain _ rfl).2], hp⟩

/-- A plain positive literal that makes no call is about a predicate without rules. -/
theorem not_mem_of_call?_eq_none {a : Atom} (h : (positive a).call? derived known = none)
    (ha : a.predicate.isPlain = true) : a.predicate ∉ derived := by
  obtain ⟨name | _ | _ | _, terms⟩ := a
  · intro hmem
    simp only [call?] at h
    rw [if_pos hmem] at h
    cases h
  all_goals cases ha

/-- Adorning a literal keeps its kind. -/
theorem kind_adorn (l : Literal) (derived : List Predicate) (known : List String) :
    (l.adorn derived known).isPositive = l.isPositive ∧
    (l.isPositive = false → l.adorn derived known = l) := by
  cases h : l.call? derived known with
  | none =>
    rw [adorn_eq_self h]
    exact ⟨rfl, fun _ => rfl⟩
  | some p =>
    obtain ⟨arity, terms, rfl, -⟩ := exists_of_call? h
    rw [adorn_eq_of_call? h]
    exact ⟨rfl, nofun⟩

/-- What a call is made for: the bound arguments of an adorned literal, if there are any. -/
theorem magicCall?_eq_some_iff {target : Atom} {terms : List Term} :
    l.magicCall? = some (target, p, terms) ↔
      l = .positive ⟨.adorned p, terms⟩ ∧ p.isAllFree = false ∧
        target = ⟨.magic p, p.select terms⟩ := by
  constructor
  · intro h
    rcases l with ⟨⟨_ | q | _ | _, ts⟩⟩ | _ | _
    · cases h
    · simp only [magicCall?, Predicate.pattern?, Atom.magic?] at h
      by_cases hfree : q.isAllFree = true
      · simp [hfree] at h
      · simp only [hfree, Bool.false_eq_true, if_false, Option.some.injEq, Prod.mk.injEq] at h
        obtain ⟨rfl, rfl, rfl⟩ := h
        exact ⟨rfl, by simpa using hfree, rfl⟩
    all_goals cases h
  · rintro ⟨rfl, hfree, rfl⟩
    simp [magicCall?, Predicate.pattern?, Atom.magic?, hfree]

/-- An adorned literal over plain atoms makes the call that it is adorned with. -/
theorem call?_of_adorn_eq {terms : List Term} (hplain : ∀ a ∈ l.atom?, a.IsPlain)
    (h : l.adorn derived known = .positive ⟨.adorned p, terms⟩) :
    l.call? derived known = some p ∧ l.terms = terms := by
  cases hcall : l.call? derived known with
  | none =>
    -- Plain literals are not over adorned predicates to begin with.
    rw [adorn_eq_self hcall] at h
    have hadorned := (hplain ⟨.adorned p, terms⟩ (by rw [h]; rfl)).1
    cases hadorned
  | some q =>
    rw [adorn_eq_of_call? hcall] at h
    obtain ⟨hpredicate, rfl⟩ := Atom.mk.inj (positive.inj h)
    exact ⟨congrArg some (Predicate.adorned.inj hpredicate), rfl⟩

/-- The pattern that an adorned literal is called with has a binding for each of its arguments. -/
theorem eq_ofTerms_of_adorn_eq {terms : List Term} (hplain : ∀ a ∈ l.atom?, a.IsPlain)
    (h : l.adorn derived known = .positive ⟨.adorned p, terms⟩) :
    p = .ofTerms p.name terms known := by
  obtain ⟨hcall, rfl⟩ := call?_of_adorn_eq hplain h
  obtain ⟨arity, terms, rfl, -, hp⟩ := exists_of_call? hcall
  exact hp

end Literal

/-! ## Atoms for calls -/

/-- The predicate holds calls or parts of calls. -/
def Predicate.isCall : Predicate → Bool
  | .magic _ | .labeled _ _ => true
  | _ => false

/-- The atom holds a call or a part of one, with named variables only. -/
structure Atom.IsCall (a : Atom) : Prop where
  /-- The predicate is for calls. -/
  predicate : a.predicate.isCall = true
  /-- No variable is anonymous. -/
  named : ∀ x ∈ a.vars, isAnonymous x = false

/-- The rule derives calls from the literals of a body and from other calls. -/
structure Rule.DerivesCalls (c : Rule) (body : List Literal) : Prop where
  /-- The head is a call. -/
  head : c.head.IsCall
  /-- The literals are those of the body or calls. -/
  body : ∀ l ∈ c.body, l ∈ body ∨ ∃ a : Atom, l = .positive a ∧ a.IsCall

/-- An instance of a positive literal under a valuation belongs to a set. -/
def Literal.IsStored (M : Set Atom) (v : Valuation) (l : Literal) : Prop :=
  ∃ a t, l = .positive a ∧ ⟨a.predicate, t⟩ ∈ M ∧ Term.MatchesAll v a.terms t

section Stored

variable {registry : Registry} {M N : Set Atom} {v : Valuation}

theorem bodyHolds_of_isStored {body : List Literal} (h : ∀ l ∈ body, l.IsStored M v) :
    BodyHolds registry body M N v := by
  intro l hl
  obtain ⟨a, t, rfl, ht, hmatches⟩ := h l hl
  exact ⟨t, ht, hmatches⟩

/-- The variables of the bound arguments of a call have values. -/
theorem CallPattern.mem_known_of_mem_vars {name : String} {known : List String} {terms : List Term}
    {predicate : Predicate} {x : String}
    (hx : x ∈ Atom.vars ⟨predicate, (ofTerms name terms known).select terms⟩) : x ∈ known := by
  obtain ⟨t, ht, hxt⟩ := Term.mem_varsAll.1 hx
  exact mem_known_of_mem_select ht hxt

theorem not_mem_occurrences_of_named {a : Atom} (h : ∀ x ∈ a.vars, isAnonymous x = false) :
    ∀ t ∈ a.terms, wildcard ∉ t.occurrences := by
  intro t ht hmem
  exact Term.ne_wildcard_of_named (h wildcard (Term.mem_varsAll.2 ⟨t, ht, hmem⟩)) rfl

/-- A call is stored if its only instance belongs to the set. -/
theorem Atom.IsCall.isStored_iff {a : Atom} (h : a.IsCall) :
    (Literal.positive a).IsStored M v ↔ a.replace v ∈ M := by
  -- Without wildcards there is one instance only.
  have hinstance : ∀ t, Term.MatchesAll v a.terms t ↔ a.terms.map (Term.replace v) = t :=
    fun t => Term.matchesAll_iff_eq_map (not_mem_occurrences_of_named h.named)
  constructor
  · rintro ⟨b, t, hb, ht, hmatches⟩
    obtain rfl := Literal.positive.inj hb
    rw [Atom.replace, (hinstance t).1 hmatches]
    exact ht
  · exact fun hmem => ⟨a, _, rfl, hmem, (hinstance _).2 rfl⟩

end Stored

/-! ## Guards -/

theorem Atom.mem_guard_iff {a : Atom} {l : Literal} :
    l ∈ a.guard ↔ ∃ p, a.predicate = .adorned p ∧ p.isAllFree = false ∧
      l = .positive ⟨.magic p, p.select a.terms⟩ := by
  rw [guard, magic?]
  split
  -- A pattern without bound arguments asks for everything and has no guard.
  · next p hp => by_cases hfree : p.isAllFree = true <;> simp [hfree, hp]
  · next hp =>
    refine iff_of_false (by simp) ?_
    rintro ⟨p, hadorned, -⟩
    exact hp p hadorned

/-- A guard has variables of its atom only. -/
theorem Atom.mem_vars_of_mem_guard {a : Atom} {l : Literal} {x : String} (h : l ∈ a.guard)
    (hx : x ∈ l.vars) : x ∈ a.vars := by
  obtain ⟨p, -, -, rfl⟩ := mem_guard_iff.1 h
  obtain ⟨t, ht, hxt⟩ := Term.mem_varsAll.1 hx
  exact Term.mem_varsAll.2 ⟨t, CallPattern.mem_of_mem_select ht, hxt⟩

theorem Atom.isCall_of_mem_guard {a : Atom} {l : Literal} (h : l ∈ a.guard)
    (hnamed : ∀ x ∈ a.vars, isAnonymous x = false) : ∃ b : Atom, l = .positive b ∧ b.IsCall := by
  have hvars := fun x (hx : x ∈ l.vars) => hnamed x (mem_vars_of_mem_guard h hx)
  obtain ⟨p, -, -, rfl⟩ := mem_guard_iff.1 h
  exact ⟨_, rfl, rfl, hvars⟩

/-- A call with the given arguments has been made, if its arguments restrict anything. -/
def CallPattern.Called (p : CallPattern) (M : Set Atom) (t : Tuple) : Prop :=
  p.isAllFree = true ∨ ⟨.magic p, p.select t⟩ ∈ M

/-- The guard of an adorned atom holds if its instance has been called. -/
theorem Atom.isStored_of_mem_guard {a : Atom} {l : Literal} {p : CallPattern} {M : Set Atom}
    {v : Valuation} (hp : a.predicate = .adorned p) (hnamed : ∀ x ∈ a.vars, isAnonymous x = false)
    (hcalled : p.Called M (a.terms.map (Term.replace v))) (hl : l ∈ a.guard) : l.IsStored M v := by
  obtain ⟨b, rfl, hb⟩ := isCall_of_mem_guard hl hnamed
  obtain ⟨p', hp', hfree, heq⟩ := mem_guard_iff.1 hl
  obtain rfl := Predicate.adorned.inj (hp.symm.trans hp')
  obtain rfl := Literal.positive.inj heq
  rw [hb.isStored_iff, Atom.replace, ← CallPattern.select_map]
  refine hcalled.resolve_left ?_
  simp [hfree]

/-! ## The rules of a call -/

namespace AdornedRule

variable {r : AdornedRule} {c : Rule} {labels node : Nat} {l : Literal} {p : CallPattern}
  {target : Atom} {terms : List Term} {e : PassingEdge}

theorem isCall_labelAtom (p : CallPattern) (terms : List Term) (label : Nat)
    (hvars : ∀ x ∈ e.vars, isAnonymous x = false) : (labelAtom p terms e label).IsCall :=
  ⟨rfl, fun x hx => hvars x (CallPattern.mem_known_of_mem_vars hx)⟩

theorem mem_bodyBefore (h : l ∈ r.bodyBefore node) :
    l ∈ r.rule.head.guard ∨ l ∈ PassingGraph.select r.rule.body (node :: r.graph.depends node) := by
  rw [bodyBefore] at h
  rcases List.mem_append.1 h with h | h
  · split at h
    · exact .inl h
    · cases h
  · exact .inr h

theorem mem_of_mem_select {body : List Literal} {nodes : List Nat}
    (h : l ∈ PassingGraph.select body nodes) : l ∈ body := by
  obtain ⟨⟨l, k⟩, hmem, rfl⟩ := List.mem_map.1 h
  exact List.fst_mem_of_mem_zipIdx (List.mem_filter.1 hmem).1

/-- The head of a rule of a call is the call or a part of it. -/
theorem head_of_mem_callRules (h : c ∈ (r.callRules labels node l).1) :
    ∃ target p terms, l.magicCall? = some (target, p, terms) ∧
      (c.head = target ∨ ∃ e label, c.head = labelAtom p terms e label) := by
  unfold callRules at h
  split at h
  · cases h
  · next target p terms hcall =>
    refine ⟨target, p, terms, hcall, ?_⟩
    split at h
    · exact .inl (by rw [List.mem_singleton.1 h])
    · exact .inl (by rw [List.mem_singleton.1 h])
    · rcases List.mem_append.1 h with h | h
      · obtain ⟨part, hpart, rfl⟩ := List.mem_map.1 h
        obtain ⟨⟨e, label⟩, -, rfl⟩ := List.mem_map.1 hpart
        exact .inr ⟨e, label, rfl⟩
      · exact .inl (by rw [List.mem_singleton.1 h])

theorem isCall_head_of_mem_callRules (h : c ∈ (r.callRules labels node l).1) :
    c.head.predicate.isCall = true := by
  obtain ⟨target, p, terms, hcall, hhead | ⟨e, label, hhead⟩⟩ := head_of_mem_callRules h
  · obtain ⟨-, -, rfl⟩ := Literal.magicCall?_eq_some_iff.1 hcall
    rw [hhead]
    rfl
  · rw [hhead]
    rfl

/-- The rules of a call derive calls from the literals of the rule that makes the call. -/
theorem derivesCalls_of_mem_callRules (hnamed : ∀ x ∈ r.rule.head.vars, isAnonymous x = false)
    (htarget : ∀ target p terms, l.magicCall? = some (target, p, terms) → target.IsCall)
    (h : c ∈ (r.callRules labels node l).1) : c.DerivesCalls r.rule.body := by
  -- What the rules of a call wait for: the guard of the head, and literals of the body.
  have hguard : ∀ l ∈ r.rule.head.guard, l ∈ r.rule.body ∨ ∃ a : Atom, l = .positive a ∧ a.IsCall :=
    fun l hl => .inr (Atom.isCall_of_mem_guard hl hnamed)
  have hbefore : ∀ k, ∀ l ∈ r.bodyBefore k,
      l ∈ r.rule.body ∨ ∃ a : Atom, l = .positive a ∧ a.IsCall := fun k l hl =>
    (mem_bodyBefore hl).elim (hguard l) fun hl => .inl (mem_of_mem_select hl)
  unfold callRules at h
  split at h
  · cases h
  · next target p terms hcall =>
    split at h
    -- No edge enters the node, so that the guard alone makes the call.
    · obtain rfl := List.mem_singleton.1 h
      exact ⟨htarget _ _ _ hcall, hguard⟩
    -- One edge enters it, and its source has to be done.
    · next e hentering =>
      obtain rfl := List.mem_singleton.1 h
      exact ⟨htarget _ _ _ hcall, hbefore e.source⟩
    · -- The parts come from the edges that enter the node, which pass named variables.
      have hpart : ∀ part ∈ ((r.graph.enteringBySource node).zipIdx (labels + 1)).map
          (fun x => (labelAtom p terms x.1 x.2, r.bodyBefore x.1.source)),
          part.1.IsCall ∧ ∃ k, part.2 = r.bodyBefore k := by
        intro part hpart
        obtain ⟨⟨e, label⟩, he, rfl⟩ := List.mem_map.1 hpart
        have hvars := (PassingGraph.of_mem_enteringBySource (List.fst_mem_of_mem_zipIdx he)).2
        exact ⟨isCall_labelAtom p terms label hvars, e.source, rfl⟩
      rcases List.mem_append.1 h with h | h
      · obtain ⟨part, hmem, rfl⟩ := List.mem_map.1 h
        obtain ⟨hcall, k, hbody⟩ := hpart part hmem
        refine ⟨hcall, ?_⟩
        simpa only [hbody] using hbefore k
      · -- The call itself is derived from its parts.
        obtain rfl := List.mem_singleton.1 h
        refine ⟨htarget _ _ _ hcall, fun l hl => ?_⟩
        obtain ⟨part, hmem, rfl⟩ := List.mem_map.1 hl
        exact .inr ⟨part.1, rfl, (hpart part hmem).1⟩

/-- A call is made once the guard of the head holds and, for every edge that enters its node, the
literals that the source of the edge waits for. -/
theorem target_mem {registry : Registry} {M N : Set Atom} {v : Valuation}
    (hclosed : IsClosed registry (r.callRules labels node l).1 M N M)
    (hv : ∀ x, (v x).isGround = true) (hcall : l.magicCall? = some (target, p, terms))
    (hguard : ∀ l ∈ r.rule.head.guard, l.IsStored M v)
    (hbefore : ∀ e ∈ r.graph.enteringBySource node,
      ∀ l ∈ PassingGraph.select r.rule.body (e.source :: r.graph.depends e.source),
        l.IsStored M v) : target.replace v ∈ M := by
  have hbody : ∀ e ∈ r.graph.enteringBySource node, ∀ l ∈ r.bodyBefore e.source, l.IsStored M v :=
    fun e he l hl => (mem_bodyBefore hl).elim (hguard l) (hbefore e he l)
  have hfires : ∀ c ∈ (r.callRules labels node l).1, (∀ l ∈ c.body, l.IsStored M v) →
      c.head.replace v ∈ M := fun c hc hstored =>
    hclosed c hc v hv (bodyHolds_of_isStored hstored)
  -- The rules of a call depend on how many edges enter its node.
  simp only [callRules, hcall] at hfires
  split at hfires
  · exact hfires _ (.head _) hguard
  · next e hentering => exact hfires _ (.head _) (hbody e (by simp [hentering]))
  · -- First the parts of the call are derived, then the call joins them.
    have hpart : ∀ e label, (e, label) ∈ (r.graph.enteringBySource node).zipIdx (labels + 1) →
        (Literal.positive (labelAtom p terms e label)).IsStored M v := by
      intro e label he
      have hmem := List.fst_mem_of_mem_zipIdx he
      rw [(isCall_labelAtom p terms label
        (PassingGraph.of_mem_enteringBySource hmem).2).isStored_iff]
      refine hfires ⟨_, r.bodyBefore e.source⟩ ?_ (hbody e hmem)
      exact List.mem_append_left _
        (List.mem_map_of_mem (List.mem_map.2 ⟨(e, label), he, rfl⟩))
    refine hfires _ (List.mem_append_right _ (.head _)) fun l hl => ?_
    obtain ⟨part, hmem, rfl⟩ := List.mem_map.1 hl
    obtain ⟨⟨e, label⟩, he, rfl⟩ := List.mem_map.1 hmem
    exact hpart e label he

end AdornedRule

end Deduction
