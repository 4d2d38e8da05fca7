import Deduction.Distinct
import Deduction.Proofs.Instances
import Deduction.Proofs.Magic.Passing
import Deduction.Proofs.Magic.Worklist

/-!
# Call patterns

The bound arguments of a call are those whose variables all have values, so that an instance of the
call has the values of the bound arguments at the bound positions
(`CallPattern.select_of_matchesAll`).

Adorning a program goes through the patterns that are asked for. There are at most as many as the
literals of the program can be called with, so that the worklist is empty before the steps run out
(`AdornedProgram.exists_last_eq`). The outcome is closed: it has the patterns that the query asks
for, and with a pattern those that answering its calls asks for (`AdornedProgram.patterns_spec`).
-/

namespace Deduction

/-! ## Plain programs -/

/-- An atom over a predicate of the program has as many terms as the predicate has arguments. -/
def Atom.IsPlain (a : Atom) : Prop :=
  a.predicate.isPlain = true ∧ a.terms.length = a.predicate.arity

/-- The atoms of a rule are plain. -/
def Rule.IsPlain (r : Rule) : Prop :=
  r.head.IsPlain ∧ ∀ l ∈ r.body, ∀ a ∈ l.atom?, a.IsPlain

instance (a : Atom) : Decidable a.IsPlain :=
  inferInstanceAs (Decidable (_ ∧ _))

instance (r : Rule) : Decidable r.IsPlain :=
  inferInstanceAs (Decidable (_ ∧ _))

/-! ## Bound arguments -/

namespace CallPattern

variable {α β : Type} {name : String} {known : List String} {ts us : List Term}

theorem select_cons (b : Binding) (bs : List Binding) (x : α) (xs : List α) :
    select ⟨name, b :: bs⟩ (x :: xs) =
      if b = .bound then x :: select ⟨name, bs⟩ xs else select ⟨name, bs⟩ xs := by
  cases b <;> simp [select]

theorem select_map (p : CallPattern) (f : α → β) (xs : List α) :
    p.select (xs.map f) = (p.select xs).map f := by
  obtain ⟨name, bs⟩ := p
  induction xs generalizing bs with
  | nil => simp [select]
  | cons x xs ih =>
    cases bs with
    | nil => simp [select]
    | cons b bs =>
      rw [List.map_cons, select_cons, select_cons, ih]
      split <;> rfl

theorem mem_of_mem_select {p : CallPattern} {xs : List α} {x : α} (h : x ∈ p.select xs) :
    x ∈ xs := by
  obtain ⟨y, hy, rfl⟩ := List.mem_map.1 h
  exact (List.of_mem_zip (List.mem_filter.1 hy).1).1

theorem select_ofTerms_cons (t : Term) (x : α) (xs : List α) :
    (ofTerms name (t :: ts) known).select (x :: xs) =
      if t.isCoveredBy known then x :: (ofTerms name ts known).select xs
      else (ofTerms name ts known).select xs := by
  refine (select_cons _ (ofTerms name ts known).bindings x xs).trans ?_
  by_cases hcovered : t.isCoveredBy known = true
  · simp [hcovered, ofTerms]
  · simp [hcovered, ofTerms]

/-- The variables of bound arguments have values. -/
theorem mem_known_of_mem_select {t : Term} {x : String}
    (h : t ∈ (ofTerms name ts known).select ts) (hx : x ∈ t.occurrences) : x ∈ known := by
  induction ts with
  | nil => simp [select] at h
  | cons u ts ih =>
    rw [select_ofTerms_cons] at h
    split at h
    · next hcovered =>
      rcases List.mem_cons.1 h with rfl | h
      · simpa using List.all_eq_true.1 hcovered x hx
      · exact ih h
    · exact ih h

/-- An instance of a call has the values of the bound arguments at the bound positions. -/
theorem select_of_matchesAll {v : Valuation} (hknown : wildcard ∉ known)
    (h : Term.MatchesAll v ts us) :
    (ofTerms name ts known).select us =
      ((ofTerms name ts known).select ts).map (Term.replace v) := by
  rw [Term.matchesAll_iff] at h
  induction h with
  | nil => rfl
  | @cons t u ts us htu _ ih =>
    rw [select_ofTerms_cons, select_ofTerms_cons]
    split
    · next hcovered =>
      -- A bound argument has no wildcard, so that its value is its only instance.
      have hnamed : wildcard ∉ t.occurrences := fun hmem =>
        hknown (by simpa using List.all_eq_true.1 hcovered _ hmem)
      rw [List.map_cons, (Term.matches_iff_eq_replace hnamed).1 htu, ih]
    · exact ih

end CallPattern

/-! ## The patterns of a body -/

/-- All lists of bindings of a length. -/
def allBindings : Nat → List (List Binding)
  | 0 => [[]]
  | n + 1 => (allBindings n).flatMap fun bs => [.bound :: bs, .free :: bs]

theorem length_allBindings (n : Nat) : (allBindings n).length = Nat.pow 2 n := by
  induction n with
  | zero => rfl
  | succ n ih => simp [allBindings, List.length_flatMap, ih, Nat.pow_succ]

theorem mem_allBindings (bs : List Binding) : bs ∈ allBindings bs.length := by
  induction bs with
  | nil => exact .head _
  | cons b bs ih => cases b <;> simp [allBindings, ih]

/-- The patterns that a literal may be called with. -/
def Literal.patterns : Literal → List CallPattern
  | .positive ⟨.plain name _, terms⟩ => (allBindings terms.length).map (⟨name, ·⟩)
  | _ => []

/-- A call is made by a positive literal over a plain predicate with rules. -/
theorem Literal.exists_of_call? {l : Literal} {derived : List Predicate} {known : List String}
    {p : CallPattern} (h : l.call? derived known = some p) :
    ∃ arity terms, l = .positive ⟨.plain p.name arity, terms⟩ ∧ .plain p.name arity ∈ derived ∧
      p = .ofTerms p.name terms known := by
  unfold call? at h
  split at h
  · next name arity terms =>
    split at h
    · next hmem =>
      obtain rfl := Option.some.inj h
      exact ⟨arity, terms, rfl, hmem, rfl⟩
    · cases h
  · cases h

theorem Literal.mem_patterns_of_call? {l : Literal} {derived : List Predicate}
    {known : List String} {p : CallPattern} (h : l.call? derived known = some p) :
    p ∈ l.patterns := by
  obtain ⟨arity, terms, rfl, -, hp⟩ := exists_of_call? h
  refine List.mem_map.2 ⟨p.bindings, ?_, rfl⟩
  rw [hp]
  simpa [CallPattern.ofTerms] using mem_allBindings
    (terms.map fun t => if t.isCoveredBy known then .bound else .free)

/-- A call is made of a predicate with rules. -/
theorem Literal.plain_mem_of_call? {l : Literal} {derived : List Predicate}
    {known : List String} {p : CallPattern} (h : l.call? derived known = some p)
    (hplain : ∀ a ∈ l.atom?, a.IsPlain) : p.plain ∈ derived := by
  obtain ⟨arity, terms, rfl, hmem, -⟩ := exists_of_call? h
  rwa [plain_of_call? h (hplain _ rfl).2]

namespace AdornedProgram

variable {rules : List Rule} {p p' : CallPattern}

theorem length_patterns_le (body : List Literal) :
    (body.flatMap Literal.patterns).length ≤ patternCount body := by
  induction body with
  | nil => exact Nat.le_refl 0
  | cons l body ih =>
    rw [List.flatMap_cons, List.length_append, patternCount, List.foldr_cons]
    refine Nat.add_le_add ?_ ih
    unfold Literal.patterns
    split
    · rw [List.length_map, length_allBindings]
      exact Nat.le_refl _
    · exact Nat.zero_le _

/-! ## The search for patterns -/

theorem mem_rulesFor {ar : AdornedRule} :
    ar ∈ rulesFor rules p ↔ ∃ (r : Rule) (i : Nat), rules[i]? = some r ∧
      r.head.predicate = p.plain ∧ ar = r.adorn (derivedPredicates rules) p i := by
  simp only [rulesFor, List.mem_filterMap, Prod.exists, List.mem_zipIdx_iff_getElem?,
    Option.ite_none_right_eq_some, Option.some.injEq, eq_comm (a := ar)]

theorem mem_callsFor :
    p' ∈ callsFor rules p ↔ ∃ r ∈ rules, r.head.predicate = p.plain ∧
      p' ∈ (r.passingGraph p).calls (derivedPredicates rules) := by
  simp only [callsFor, List.mem_flatMap, mem_rulesFor]
  constructor
  · rintro ⟨_, ⟨r, i, hi, hhead, rfl⟩, hp'⟩
    exact ⟨r, List.mem_of_getElem? hi, hhead, hp'⟩
  · rintro ⟨r, hr, hhead, hp'⟩
    obtain ⟨i, hi⟩ := List.mem_iff_getElem?.1 hr
    exact ⟨_, ⟨r, i, hi, hhead, rfl⟩, hp'⟩

theorem exists_call?_of_mem_calls {g : PassingGraph} {derived : List Predicate}
    (h : p ∈ g.calls derived) : ∃ k ∈ g.order, (g.literal k).call? derived (g.boundAt k) = some p :=
  List.mem_filterMap.1 h

/-! ## The patterns of a program -/

section Query

variable (rules : List Rule) (q : Query)

/-- The variables that are bound when a literal of the query is called. -/
def boundInQuery (l : Literal) : List String :=
  q.passingGraph.boundAt (q.passingGraph.node l)

theorem boundAt_nodeAt {x : Literal × Nat} (h : x ∈ q.body.zipIdx) :
    q.passingGraph.boundAt (q.passingGraph.nodeAt x.2) = boundInQuery q x.1 :=
  congrArg _ (PassingGraph.nodeAt_ofRule (List.mem_zipIdx_iff_getElem?.1 h))

theorem calls_query (derived : List Predicate) :
    q.calls derived = q.body.filterMap fun l => l.call? derived (boundInQuery q l) := by
  calc q.body.zipIdx.filterMap (fun x => x.1.call? derived
        (q.passingGraph.boundAt (q.passingGraph.nodeAt x.2)))
    _ = q.body.zipIdx.filterMap ((fun l => l.call? derived (boundInQuery q l)) ∘ Prod.fst) :=
      List.filterMap_congr fun x hx => by rw [boundAt_nodeAt q hx]; rfl
    _ = q.body.filterMap (fun l => l.call? derived (boundInQuery q l)) := by
      rw [← List.filterMap_map, List.zipIdx_map_fst]

theorem query_ofQuery :
    (ofQuery rules q).query =
      ⟨q.body.map fun l => l.adorn (derivedPredicates rules) (boundInQuery q l)⟩ := by
  refine congrArg Query.mk ?_
  calc q.body.zipIdx.map (fun x => x.1.adorn (derivedPredicates rules)
        (q.passingGraph.boundAt (q.passingGraph.nodeAt x.2)))
    _ = q.body.zipIdx.map ((fun l => l.adorn (derivedPredicates rules) (boundInQuery q l)) ∘
          Prod.fst) :=
      List.map_congr_left fun x hx => by rw [boundAt_nodeAt q hx]; rfl
    _ = q.body.map (fun l => l.adorn (derivedPredicates rules) (boundInQuery q l)) := by
      rw [← List.map_map, List.zipIdx_map_fst]

theorem isSound_last :
    (Progress.last rules q).IsSound rules (q.calls (derivedPredicates rules)) :=
  (Progress.isSound_start rules q).run

theorem rules_ofQuery :
    (ofQuery rules q).rules = (ofQuery rules q).patterns.flatMap (rulesFor rules) :=
  (isSound_last rules q).adorned

/-- The patterns that the literals of a program can be called with, as far as they ask for
predicates with rules. -/
def possiblePatterns : List CallPattern :=
  ((q.body ++ rules.flatMap (·.body)).flatMap Literal.patterns).filter
    (·.plain ∈ derivedPredicates rules)

variable {rules q} (hrules : ∀ r ∈ rules, r.IsPlain) (hquery : q.toRule.IsPlain)

include hrules hquery

theorem mem_possiblePatterns {l : Literal} {known : List String}
    (hl : l ∈ q.body ∨ ∃ r ∈ rules, l ∈ r.body)
    (h : l.call? (derivedPredicates rules) known = some p) : p ∈ possiblePatterns rules q := by
  refine List.mem_filter.2 ⟨List.mem_flatMap.2 ⟨l, ?_, l.mem_patterns_of_call? h⟩, ?_⟩
  · rcases hl with hl | ⟨r, hr, hl⟩
    · exact List.mem_append_left _ hl
    · exact List.mem_append_right _ (List.mem_flatMap.2 ⟨r, hr, hl⟩)
  · refine decide_eq_true (l.plain_mem_of_call? h ?_)
    rcases hl with hl | ⟨r, hr, hl⟩
    · exact hquery.2 l hl
    · exact (hrules r hr).2 l hl

/-- No pattern is waiting when the program has been adorned. -/
theorem exists_last_eq :
    ∃ n ≤ patternCount (q.body ++ rules.flatMap (·.body)),
      Progress.last rules q = (Progress.step rules)^[n] (Progress.start rules q) ∧
      (Progress.last rules q).worklist.pending = [] ∧
      (Progress.last rules q).worklist.seen ⊆ possiblePatterns rules q := by
  have hU : ∀ p ∈ possiblePatterns rules q, ∀ p' ∈ callsFor rules p,
      p' ∈ possiblePatterns rules q := by
    intro p _ p' hp'
    obtain ⟨r, hr, -, hp'⟩ := mem_callsFor.1 hp'
    obtain ⟨k, hk, hcall⟩ := exists_call?_of_mem_calls hp'
    -- Calls are made by literals of the rules.
    refine mem_possiblePatterns hrules hquery (.inr ⟨r, hr, ?_⟩) hcall
    exact mem_literals_ofRule.1 (PassingGraph.literal_mem hk)
  have hstart : (Progress.start rules q).worklist.seen ⊆ possiblePatterns rules q := by
    intro p hp
    -- Nothing is done at first, so that what has been asked for comes from the query.
    have hcalls := ((Progress.isSound_start rules q).asked p hp).resolve_right nofun
    rw [calls_query] at hcalls
    obtain ⟨l, hl, hcall⟩ := List.mem_filterMap.1 hcalls
    exact mem_possiblePatterns hrules hquery (.inl hl) hcall
  -- There are enough steps for all patterns that are possible.
  have hlength : (possiblePatterns rules q).length ≤
      patternCount (q.body ++ rules.flatMap (·.body)) :=
    Nat.le_trans (List.length_filter_le _ _) (length_patterns_le _)
  exact Progress.exists_run_eq hU (Progress.isSound_start rules q) hstart hlength

/-- What has been asked for has been looked at. -/
theorem seen_last : (Progress.last rules q).worklist.seen = (ofQuery rules q).patterns := by
  obtain ⟨-, -, -, hpending, -⟩ := exists_last_eq hrules hquery
  rw [(isSound_last rules q).seen, hpending, List.append_nil]
  rfl

theorem patterns_spec :
    (∀ l ∈ q.body, ∀ p, l.call? (derivedPredicates rules)
      (q.passingGraph.boundAt (q.passingGraph.node l)) = some p → p ∈ (ofQuery rules q).patterns) ∧
    (∀ p ∈ (ofQuery rules q).patterns, p.plain ∈ derivedPredicates rules) ∧
    ∀ p ∈ (ofQuery rules q).patterns, ∀ p' ∈ callsFor rules p, p' ∈ (ofQuery rules q).patterns := by
  obtain ⟨-, -, -, -, hpossible⟩ := exists_last_eq hrules hquery
  have hsound := isSound_last rules q
  have hseen := seen_last hrules hquery
  rw [hseen] at hpossible
  refine ⟨fun l hl p hp => hseen ▸ hsound.start p ?_, fun p hp => ?_, fun p hp p' hp' => ?_⟩
  · rw [calls_query]
    exact List.mem_filterMap.2 ⟨l, hl, hp⟩
  · -- Possible patterns belong to predicates with rules.
    simpa using (List.mem_filter.1 (hpossible hp)).2
  · exact hseen ▸ hsound.closed p hp p' hp'

omit hrules hquery in
/-- The patterns of a program are those that the query asks for, and those that answering the calls
of another one asks for. -/
theorem asked_of_mem_patterns (h : p ∈ (ofQuery rules q).patterns) :
    (∃ l ∈ q.body, l.call? (derivedPredicates rules)
      (q.passingGraph.boundAt (q.passingGraph.node l)) = some p) ∨
    ∃ p' ∈ (ofQuery rules q).patterns, p ∈ callsFor rules p' := by
  have hsound := isSound_last rules q
  refine (hsound.asked p (hsound.seen ▸ List.mem_append_left _ h)).imp_left fun hcalls => ?_
  rw [calls_query] at hcalls
  exact List.mem_filterMap.1 hcalls

end Query

end AdornedProgram

end Deduction
