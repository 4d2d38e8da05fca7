import Deduction.Proofs.Magic.Program

/-!
# What magic programs derive is derived by the rules

Adorning the literals of a body and guarding a rule only restricts what it derives, whatever calls
have been made. A set of atoms over the predicates of a magic program is sound for the facts `M` of
the program if its plain atoms are in `M`, and its adorned atoms are for facts of `M` (`IsSound`).
The rules of the magic program lead from sound sets to sound sets (`IsMagicRule.isSound_head`).
-/

namespace Deduction

/-! ## Plain facts -/

/-- The stored facts are over predicates of the program. -/
def Database.IsPlain (db : Database) : Prop :=
  ∀ a ∈ db.atoms, a.predicate.isPlain = true

theorem Database.isPlain_of_entries {db : Database}
    (h : ∀ e ∈ db.relations.entries, e.1.isPlain = true) : db.IsPlain := by
  intro a ha
  obtain ⟨r, hr⟩ := Option.isSome_iff_exists.1 (isSome_relation?_of_mem_atoms ha)
  exact h _ (mem_entries_iff.2 hr)

/-! ## Sound sets -/

/-- The plain atoms of a set are facts of a program, and its adorned atoms are for such facts. -/
structure IsSound (M X : Set Atom) : Prop where
  /-- Plain atoms are facts of the program. -/
  plain : ∀ a ∈ X, a.predicate.isPlain = true → a ∈ M
  /-- What holds for a pattern holds for the predicate. -/
  adorned : ∀ a ∈ X, ∀ p, a.predicate = .adorned p → ⟨p.plain, a.terms⟩ ∈ M

section Bodies

variable {registry : Registry} {rules : List Rule} {q : Query} {program : MagicProgram} {c : Rule}
  {g : PassingGraph} {body : List Literal} {l : Literal} {M N X : Set Atom} {v : Valuation}
  {limited : List String} {hasFacts : Predicate → Bool}

/-- A body holds if its adorned literals do, provided that they read a sound set. -/
theorem holds_of_adorned (hplain : ∀ r ∈ q.toRule :: rules, r.IsPlain) (hX : IsSound M X)
    (hg : g.IsFor rules q body)
    (hbody : ∀ l ∈ g.adornedBody (derivedPredicates rules), l.Holds registry limited X N v)
    (hl : l ∈ body) : l.Holds registry limited M N v := by
  obtain ⟨hk, hliteral⟩ := adorned_node hg hl
  have hatoms := isPlain_of_mem_body hplain hg hl
  have hadorned := hbody _ (PassingGraph.mem_adornedBody.2 ⟨_, hk, rfl⟩)
  rw [PassingGraph.adorned, hliteral] at hadorned
  cases hcall : l.call? (derivedPredicates rules) (g.boundAt (g.node l)) with
  | none =>
    rw [Literal.adorn_eq_self hcall] at hadorned
    refine hadorned.mono ?_ fun _ _ _ ht => ht
    rintro a rfl t ht
    exact hX.plain _ ht (hatoms a rfl).1
  | some p =>
    rw [Literal.adorn_eq_of_call? hcall] at hadorned
    obtain ⟨terms, rfl, -⟩ := Literal.exists_of_call?_of_isPlain hcall hatoms
    obtain ⟨t, ht, hmatches⟩ := hadorned
    exact ⟨t, hX.adorned _ ht p rfl, hmatches⟩

variable (hsimple : ∀ r ∈ q.toRule :: rules, r.IsSimple registry)

include hsimple

/-- The rules of a magic program lead from sound sets to sound sets. -/
theorem IsMagicRule.isSound_head
    (hlimited : ∀ r ∈ rules, ∀ x ∈ r.head.vars, x ∈ positiveVars r.body)
    (hc : IsMagicRule rules q program c) (hX : IsSound M X) (hM : IsClosed registry rules M N M)
    (hv : ∀ x, (v x).isGround = true) (hbody : BodyHolds registry c.body X N v) :
    (c.head.predicate.isPlain = true → c.head.replace v ∈ M) ∧
    ∀ p, c.head.predicate = .adorned p → ⟨p.plain, (c.head.replace v).terms⟩ ∈ M := by
  cases hc with
  | @call g body _ hg hderives =>
    -- Calls have predicates of their own.
    have hcall := hderives.head.predicate
    constructor
    · intro hplain
      cases hpredicate : c.head.predicate <;> simp_all [Predicate.isPlain, Predicate.isCall]
    · intro p hp
      rw [hp] at hcall
      cases hcall
  | @guarded r p hr hp hhead i =>
    have hg := isFor_ruleGraph (isPlain_of_isSimple hsimple) hr hp hhead
    refine ⟨fun hplain => absurd hplain Bool.false_ne_true, fun p' hp' => ?_⟩
    obtain rfl : p = p' := Predicate.adorned.inj hp'
    rw [← hhead]
    refine hM r hr v hv fun l hl => ?_
    refine holds_of_adorned (isPlain_of_isSimple hsimple) hX hg (fun l hl => ?_) hl
    -- The guard adds no variables to those of the positive literals.
    exact (hbody l (List.mem_append_right _ hl)).limited_congr fun x =>
      mem_positiveVars_guarded hg (hlimited r hr)
  | bridge p =>
    refine ⟨fun hplain => absurd hplain Bool.false_ne_true, fun p' hp' => ?_⟩
    -- The fact that is carried over is plain, and it is an instance of the head.
    obtain rfl : p = p' := Predicate.adorned.inj hp'
    obtain ⟨t, ht, hmatches⟩ := hbody _ (List.mem_append_right _ (.head _))
    have hnamed := not_mem_occurrences_of_named (a := p.bridge.head)
      fun x => not_isAnonymous_of_mem_bridge
    rw [Atom.replace, (Term.matchesAll_iff_eq_map hnamed).1 hmatches]
    exact hX.plain _ ht rfl
  | kept hr hkeeps =>
    have hplain := (hsimple c (.tail _ hr)).plain
    refine ⟨fun _ => hM c hr v hv fun l hl => (hbody l hl).mono ?_ fun _ _ _ ht => ht, ?_⟩
    · rintro a rfl t ht
      exact hX.plain _ ht (hplain.2 _ hl a rfl).1
    · intro p hp
      have hhead := hkeeps.1
      rw [hp] at hhead
      cases hhead

/-- The predicates that a magic program negates are plain, and keep their rules. -/
theorem IsMagicRule.keeps_of_negative (h : MagicProgram.ofQuery rules q = .ok program)
    (hc : c ∈ program.evaluated hasFacts) {a : Atom} (ha : .negative a ∈ c.body) :
    program.Keeps rules a.predicate := by
  have hplain : a.predicate.isPlain = true := by
    rcases (isMagicRule_of_mem h hsimple hc).mem_or_named hsimple with hc | ⟨-, hbody⟩
    · exact ((hsimple c (.tail _ hc)).plain.2 _ ha a rfl).1
    · rcases hbody _ ha with ⟨g, body, hg, hl⟩ | ⟨b, hb, -⟩
      · -- Negated literals are not adorned.
        obtain ⟨l, hl, -, -, hself⟩ := exists_of_mem_adornedBody hg hl
        obtain rfl := hself rfl
        exact (isPlain_of_mem_body (isPlain_of_isSimple hsimple) hg hl a rfl).1
      · cases hb
  rcases List.mem_append.1 hc with hc | hc
  · exact MagicProgram.keeps_of_mem_body h (.inr ⟨c, hc, ha⟩) rfl hplain
  · obtain ⟨p, rfl, -⟩ := mem_bridgeRules.1 hc
    rcases List.mem_append.1 ha with ha | ha
    · obtain ⟨_, _, _, heq⟩ := Atom.mem_guard_iff.1 ha
      cases heq
    · cases List.mem_singleton.1 ha

end Bodies

end Deduction
