import Mathlib.Order.Bounds.Basic
import Deduction.Proofs.Invariants
import Deduction.Proofs.Semantics

/-!
# The model of a program

Evaluating rules that compute nothing yields the facts that they call for, and no others:

* `IsStableModel`: a set of facts is the least one that has the given facts and is closed under the
  rules, where negated literals are about the set itself.
* `evaluate_isStableModel`: evaluation yields such a set.
* `evaluate_isLeast`: stratum by stratum it is the least set that is closed under the rules of the
  stratum, when the lower strata are taken as they are.

A layer ends when all that its rules derive is stored, which makes it closed. Whatever is added on
the way is in every closed set, because the facts that negated literals are about have been settled
by then: later rounds and layers do not touch them.
-/

namespace Deduction

open Matching

/-! ## Closed sets -/

/-- The instances of the heads of rules under the ground valuations under which their bodies hold
belong to a set. -/
def IsClosed (registry : Registry) (rules : List Rule) (pos neg S : Set Atom) : Prop :=
  ∀ r ∈ rules, ∀ v : Valuation, (∀ x, (v x).isGround = true) →
    BodyHolds registry r.body pos neg v → r.head.replace v ∈ S

/-- A set of facts is the least one with the given facts that is closed under the rules, where
negated literals read the set itself. -/
def IsStableModel (registry : Registry) (rules : List Rule) (facts M : Set Atom) : Prop :=
  IsLeast {S | facts ⊆ S ∧ IsClosed registry rules S M S} M

/-- Which rules there are counts, not how they are listed. -/
theorem IsStableModel.congr {registry : Registry} {rules rules' : List Rule} {facts M : Set Atom}
    (h : ∀ r, r ∈ rules ↔ r ∈ rules') :
    IsStableModel registry rules facts M ↔ IsStableModel registry rules' facts M := by
  simp only [IsStableModel, IsClosed, h]

/-- A rule succeeds on a database and derives only what it stores. -/
def ScheduledRule.IsSettled (r : ScheduledRule) (ctx : Context) (db : Database) : Prop :=
  r.Succeeds ctx db (reading db r.body) ∧
    ∀ a, r.Derives ctx db (reading db r.body) a → a ∈ db.atoms

namespace Context

variable {ctx : Context} {rules : List ScheduledRule} {p q : Progress} {db M : Database}
  {n rounds : Nat}

/-! ## One layer -/

/-- At the end of a layer its rules succeed and derive only what is stored. -/
theorem saturate_isSettled (hlayer : IsLayer rules) (hp : CaughtUp ctx rules p)
    (h : ctx.saturate rules n p = some (.ok q)) : ∀ r ∈ rules, r.IsSettled ctx q.database := by
  induction n generalizing p with
  | zero => cases h
  | succ n ih =>
    obtain ⟨new, hnew, ⟨hempty, rfl⟩ | ⟨-, -, h⟩⟩ := saturate_succ_eq_ok_iff.1 h
    · intro r hr
      refine ⟨((newFacts_isOk_iff_of_caughtUp hp).1 ⟨new, hnew⟩ r hr).1, fun a ha => ?_⟩
      -- The last round would have added what is not stored.
      by_contra hdb
      have hmem := (mem_newFacts_of_caughtUp hp hnew).2 ⟨hdb, r, hr, ha⟩
      rw [Database.isEmpty_iff.1 hempty] at hmem
      exact hmem
    · exact ih (hp.advance hlayer hnew) h

/-- A database on the way through a layer that starts from another one: facts for the heads of the
layer may have been added, and nothing else. -/
structure OnTheWay (layer : List Rule) (db db' : Database) : Prop where
  /-- The facts are ground. -/
  ground : db'.IsGround
  /-- No fact is lost. -/
  subset : db.atoms ⊆ db'.atoms
  /-- Predicates that head no rule of the layer are left alone. -/
  agree : ∀ p, (∀ r ∈ layer, r.head.predicate ≠ p) → Agree db db' p

theorem OnTheWay.refl {layer : List Rule} (hdb : db.IsGround) : OnTheWay layer db db :=
  ⟨hdb, Set.Subset.refl _, fun _ _ _ => Iff.rfl⟩

theorem OnTheWay.merge {layer : List Rule} {db' new : Database} (h : OnTheWay layer db db')
    (hnew : ∀ a ∈ new.atoms, a.isGround = true ∧
      ∃ r ∈ layer.map ctx.scheduleRule, r.Derives ctx db' (reading db' r.body) a) :
    OnTheWay layer db (db'.merge new).2 := by
  have hatoms := Database.atoms_merge db' new
  refine ⟨fun a ha => ?_, ?_, fun p hp t => ?_⟩
  · rw [hatoms] at ha
    exact ha.elim (h.ground a) fun ha => (hnew a ha).1
  · rw [hatoms]
    exact h.subset.trans Set.subset_union_left
  · rw [hatoms, Set.mem_union, or_iff_left]
    · exact h.agree p hp t
    · intro ht
      obtain ⟨-, x, hx, hderives⟩ := hnew _ ht
      obtain ⟨r, hr, rfl⟩ := List.mem_map.1 hx
      exact hp r hr hderives.predicate_eq.symm

/-- What a layer of rules that compute nothing makes of its facts `db`: it stores the heads of its
rules whose bodies hold, and what it stores beyond `db` is derived from facts on the way, in which
the other predicates are as in `db`. -/
theorem saturate_layer {layer : List Rule} {statistics : Statistics}
    (hrules : ∀ r ∈ layer, r.IsRelational ctx)
    (hnegated : ∀ r ∈ layer, ∀ a, .negative a ∈ r.body →
      ∀ r' ∈ layer, r'.head.predicate ≠ a.predicate) (hdb : db.IsGround)
    (h : ctx.saturate (layer.map ctx.scheduleRule) n ⟨db, none, statistics⟩ = some (.ok q)) :
    OnTheWay layer db q.database ∧
    IsClosed ctx.registry layer q.database.atoms q.database.atoms q.database.atoms ∧
    ∀ S, db.atoms ⊆ S → IsClosed ctx.registry layer S db.atoms S → q.database.atoms ⊆ S := by
  have hlayer : IsLayer (layer.map ctx.scheduleRule) := isLayer_map_scheduleRule hnegated
  have hp : CaughtUp ctx (layer.map ctx.scheduleRule) ⟨db, none, statistics⟩ :=
    caughtUp_of_delta_eq_none rfl
  have hway : OnTheWay layer db q.database :=
    saturate_invariant (fun _ _ hdb' hnew => hdb'.merge hnew) hlayer hp (.refl hdb) h
  refine ⟨hway, fun r hr v hv hbody => ?_, fun S hS hclosed => ?_⟩
  · exact (saturate_isSettled hlayer hp h _ (List.mem_map_of_mem hr)).2 _
      ((Rule.derives_iff (hrules r hr) hway.ground).2 ⟨v, hv, hbody, rfl⟩)
  · refine (saturate_invariant (I := fun db' => OnTheWay layer db db' ∧ db'.atoms ⊆ S) ?_ hlayer hp
      ⟨.refl hdb, hS⟩ h).2
    rintro db' new ⟨hdb', hsub⟩ hnew
    refine ⟨hdb'.merge hnew, ?_⟩
    rw [Database.atoms_merge]
    refine Set.union_subset hsub fun a ha => ?_
    obtain ⟨-, x, hx, hderives⟩ := hnew a ha
    obtain ⟨r, hr, rfl⟩ := List.mem_map.1 hx
    obtain ⟨v, hv, hbody, rfl⟩ := (Rule.derives_iff (hrules r hr) hdb'.ground).1 hderives
    refine hclosed r hr v hv fun l hl => (hbody l hl).mono (fun _ _ _ ht => hsub ht) ?_
    -- The predicates that the layer negates are as they were at its start.
    rintro b rfl t ht
    exact (hdb'.agree _ (hnegated r hr b hl) t).1 ht

/-! ## All layers -/

/-- Layers that are evaluated one after the other settle the facts that the bodies of their rules
are about, and together make a set that is closed and the least one. -/
theorem saturateAll_layers {layers : List (List Rule)} {statistics : Statistics}
    {result : Database × Statistics}
    (hrules : ∀ layer ∈ layers, ∀ r ∈ layer, r.IsRelational ctx) (hlayers : IsLayered layers)
    (hdb : db.IsGround)
    (h : ctx.saturateAll rounds layers db statistics = some (.ok result)) :
    result.1.IsGround ∧ db.atoms ⊆ result.1.atoms ∧
    (∀ p, (∀ layer ∈ layers, ∀ r ∈ layer, r.head.predicate ≠ p) → Agree db result.1 p) ∧
    (∀ layer ∈ layers,
      IsClosed ctx.registry layer result.1.atoms result.1.atoms result.1.atoms) ∧
    ∀ S, db.atoms ⊆ S → (∀ layer ∈ layers, IsClosed ctx.registry layer S result.1.atoms S) →
      result.1.atoms ⊆ S := by
  induction layers generalizing db statistics with
  | nil =>
    obtain rfl := Except.ok.inj (Option.some.inj h)
    exact ⟨hdb, Set.Subset.refl _, fun _ _ _ => Iff.rfl, by simp, fun S hS _ => hS⟩
  | cons layer layers ih =>
    obtain ⟨q, hq, hrest⟩ := saturateAll_cons_eq_ok_iff.1 h
    rw [List.forall_mem_cons] at hrules
    obtain ⟨hused, hpairwise⟩ := List.pairwise_cons.1 hlayers.used
    obtain ⟨hnegated, hnegated'⟩ := List.forall_mem_cons.1 hlayers.negated
    obtain ⟨⟨hground, hsub, hagree⟩, hclosed, hleast⟩ :=
      saturate_layer hrules.1 hnegated hdb hq
    obtain ⟨hground', hsub', hagree', hclosed', hleast'⟩ :=
      ih hrules.2 ⟨hpairwise, hnegated'⟩ hground hrest
    -- The later layers leave alone what the rules of this one are about.
    have hsettled : ∀ r ∈ layer, ∀ l ∈ r.body, ∀ a, l.atom? = some a →
        Agree q.database result.1 a.predicate := fun r hr l hl a ha =>
      hagree' _ fun later hlater => hused later hlater r hr l hl a ha
    refine ⟨hground', hsub.trans hsub', fun p hp t => ?_, ?_, fun S hS hS' => ?_⟩
    · rw [List.forall_mem_cons] at hp
      exact (hagree p hp.1 t).trans (hagree' p hp.2 t)
    · refine List.forall_mem_cons.2 ⟨fun r hr v hv hbody => hsub' (hclosed r hr v hv ?_), hclosed'⟩
      refine fun l hl => (hbody l hl).mono ?_ ?_
      · rintro a rfl t ht
        exact (hsettled r hr _ hl a rfl t).2 ht
      · rintro a rfl t ht
        exact (hsettled r hr _ hl a rfl t).1 ht
    · rw [List.forall_mem_cons] at hS'
      refine hleast' S (hleast S hS fun r hr v hv hbody => hS'.1 r hr v hv ?_) hS'.2
      refine fun l hl => (hbody l hl).mono (fun _ _ _ ht => ht) ?_
      rintro a rfl t ht
      exact (hagree _ (hnegated r hr a hl) t).2 ((hsettled r hr _ hl a rfl t).2 ht)

/-- Layers that are evaluated one after the other yield the model of their rules. -/
theorem saturateAll_isStableModel {layers : List (List Rule)} {statistics : Statistics}
    {result : Database × Statistics}
    (hrules : ∀ r ∈ layers.flatten, r.IsRelational ctx) (hlayers : IsLayered layers)
    (hdb : db.IsGround)
    (h : ctx.saturateAll rounds layers db statistics = some (.ok result)) :
    result.1.IsGround ∧ IsStableModel ctx.registry layers.flatten db.atoms result.1.atoms := by
  obtain ⟨hground, hsub, -, hclosed, hleast⟩ := saturateAll_layers
    (fun layer hl r hr => hrules r (List.mem_flatten.2 ⟨layer, hl, hr⟩)) hlayers hdb h
  refine ⟨hground, ⟨hsub, fun r hr => ?_⟩, fun S hS => hleast S hS.1 fun layer hl r hr => ?_⟩
  · obtain ⟨layer, hl, hr⟩ := List.mem_flatten.1 hr
    exact hclosed layer hl r hr
  · exact hS.2 r (List.mem_flatten.2 ⟨layer, hl, hr⟩)

/-! ## Programs -/

section Evaluate

variable {rules : List Rule} {facts : Database} {result : Database × Statistics}
  (hfacts : facts.IsGround) (hcompares : ∀ r ∈ rules, r.OnlyCompares ctx.registry)
  (hnamed : ∀ r ∈ rules, r.WellNamed)
  (h : ctx.evaluate rounds rules facts = some (.ok result))

include hcompares hnamed h in
theorem isRelational_of_evaluate : ∀ r ∈ rules, r.IsRelational ctx := fun r hr =>
  ⟨(evaluate_eq_ok_iff.1 h).1 r hr, hcompares r hr, hnamed r hr⟩

include hfacts hcompares hnamed h

/-- Evaluation yields ground facts, the least set that has the given ones and is closed under the
rules. -/
theorem evaluate_isStableModel :
    result.1.IsGround ∧ IsStableModel ctx.registry rules facts.atoms result.1.atoms := by
  have hrules := isRelational_of_evaluate hcompares hnamed h
  obtain ⟨-, s, hs, hall⟩ := evaluate_eq_ok_iff.1 h
  have hmem : ∀ r, r ∈ s.layers.flatten ↔ r ∈ rules := fun r => (stratify_layers_perm hs).mem_iff
  rw [← IsStableModel.congr hmem]
  exact saturateAll_isStableModel (fun r hr => hrules r ((hmem r).1 hr)) (isLayered_of_stratify hs)
    hfacts hall

end Evaluate

end Context

/-! ## Models stratum by stratum -/

/-- A set has the given facts of a stratum and is closed under the rules of the stratum, whose
positive literals read the set itself and the lower strata of `M`, and whose negated literals read
`M`. -/
structure IsClosedStratum (registry : Registry) (rules : List Rule) (s : Stratification)
    (facts M : Set Atom) (k : Nat) (S : Set Atom) : Prop where
  /-- The set has the given facts of the stratum. -/
  facts : ∀ a ∈ facts, s.stratum? a.predicate = some k → a ∈ S
  /-- The set is closed under the rules of the stratum. -/
  rules : IsClosed registry (rules.filter fun r => s.stratum? r.head.predicate = some k)
    (S ∪ {a ∈ M | ∃ j < k, s.stratum? a.predicate = some j}) M S

section Strata

variable {registry : Registry} {rules : List Rule} {facts M : Set Atom}

/-- A predicate that heads no rule has the given facts only. -/
theorem IsStableModel.mem_iff_of_not_head (h : IsStableModel registry rules facts M)
    {p : Predicate} (hp : ∀ r ∈ rules, r.head.predicate ≠ p) (t : Tuple) :
    ⟨p, t⟩ ∈ M ↔ ⟨p, t⟩ ∈ facts := by
  refine ⟨fun ht => ?_, fun ht => h.1.1 ht⟩
  -- Without the other facts for the predicate the set is still closed.
  have hleast : M ⊆ {a ∈ M | a.predicate = p → a ∈ facts} := by
    refine h.2 ⟨fun a ha => ⟨h.1.1 ha, fun _ => ha⟩, fun r hr v hv hbody => ⟨?_, ?_⟩⟩
    · exact h.1.2 r hr v hv fun l hl => (hbody l hl).mono (fun _ _ _ ht => ht.1) fun _ _ _ ht => ht
    · exact fun heq => absurd heq (hp r hr)
  exact (hleast ht).2 rfl

/-- In a model of a program with strata, the facts of a stratum are the least set that is closed
under the rules of the stratum, when the facts of the lower strata are given. -/
theorem IsStableModel.isLeast_stratum (h : IsStableModel registry rules facts M)
    {s : Stratification} (hs : stratify rules = .ok s) (k : Nat) :
    IsLeast {S | IsClosedStratum registry rules s facts M k S}
      {a ∈ M | s.stratum? a.predicate = some k} := by
  constructor
  · refine ⟨fun a ha hk => ⟨h.1.1 ha, hk⟩, fun r hr v hv hbody => ?_⟩
    simp only [List.mem_filter, decide_eq_true_eq] at hr
    refine ⟨h.1.2 r hr.1 v hv fun l hl => (hbody l hl).mono ?_ fun _ _ _ ht => ht, hr.2⟩
    rintro a rfl t (ht | ht)
    · exact ht.1
    · exact ht.1
  · rintro S ⟨hfacts, hclosed⟩ a ⟨ha, hk⟩
    -- The rest of the model, and of the stratum what is in `S`.
    have hleast : M ⊆ {a ∈ M | s.stratum? a.predicate = some k → a ∈ S} := by
      refine h.2 ⟨fun a ha => ⟨h.1.1 ha, hfacts a ha⟩, fun r hr v hv hbody => ⟨?_, fun hk => ?_⟩⟩
      · exact h.1.2 r hr v hv fun l hl =>
          (hbody l hl).mono (fun _ _ _ ht => ht.1) fun _ _ _ ht => ht
      · refine hclosed r (by simpa using ⟨hr, hk⟩) v hv fun l hl =>
          (hbody l hl).mono ?_ fun _ _ _ ht => ht
        rintro b rfl t ht
        -- A positive literal of the rule is about the stratum itself or a lower one.
        obtain ⟨j, hj⟩ := Option.isSome_iff_exists.1 ((isSome_stratum?_iff hs).2
          ⟨r, hr, .inr ⟨b, rfl, .inl hl⟩⟩ : (s.stratum? b.predicate).isSome)
        have hle := (isLevelling_stratum hs r hr).1 b hl
        have hhead : s.stratum? r.head.predicate = some k := hk
        simp only [hj, hhead, Option.getD_some] at hle
        rcases Nat.lt_or_eq_of_le hle with hlt | rfl
        · exact .inr ⟨ht.1, j, hlt, hj⟩
        · exact .inl (ht.2 hj)
    exact (hleast ha).2 hk

end Strata

/-- What evaluation yields. The facts of each stratum are the least set that has the given facts of
the stratum and is closed under the ground instances of its rules, where a positive literal holds if
an instance of it belongs to the set or to a lower stratum, a negated literal if no fact is an
instance of it, and a comparison if the values of its terms stand in the order that it tests. A
predicate that heads no rule keeps the given facts. -/
theorem evaluate_isLeast {ctx : Context} {rounds : Nat} {rules : List Rule} {facts : Database}
    {result : Database × Statistics} (hfacts : facts.IsGround)
    (hcompares : ∀ r ∈ rules, r.OnlyCompares ctx.registry) (hnamed : ∀ r ∈ rules, r.WellNamed)
    (h : ctx.evaluate rounds rules facts = some (.ok result)) :
    ∃ s, stratify rules = .ok s ∧
      (∀ k, IsLeast {S | IsClosedStratum ctx.registry rules s facts.atoms result.1.atoms k S}
        {a ∈ result.1.atoms | s.stratum? a.predicate = some k}) ∧
      ∀ p, (∀ r ∈ rules, r.head.predicate ≠ p) →
        ∀ t, ⟨p, t⟩ ∈ result.1.atoms ↔ ⟨p, t⟩ ∈ facts.atoms := by
  obtain ⟨-, hmodel⟩ := Context.evaluate_isStableModel hfacts hcompares hnamed h
  obtain ⟨-, s, hs, -⟩ := Context.evaluate_eq_ok_iff.1 h
  exact ⟨s, hs, fun k => hmodel.isLeast_stratum hs k, fun p hp t => hmodel.mem_iff_of_not_head hp t⟩

/-- Which nodes of a graph have a path to which others, and which pairs of nodes in ascending order
have none. -/
def pathRules : List Rule :=
  let atom (name : String) (names : List String) : Atom :=
    ⟨.plain name names.length, names.map .var⟩
  [⟨atom "path" ["X", "Y"], [.positive (atom "edge" ["X", "Y"])]⟩,
    ⟨atom "path" ["X", "Z"],
      [.positive (atom "edge" ["X", "Y"]), .positive (atom "path" ["Y", "Z"])]⟩,
    ⟨atom "apart" ["X", "Y"],
      [.positive (atom "edge" ["X", "_"]), .positive (atom "edge" ["_", "Y"]),
        .negative (atom "path" ["X", "Y"]), .builtin ⟨"LT", [.var "X", .var "Y"]⟩]⟩]

/-- The edges of two components. -/
def edgeFacts : Database :=
  let edge (m n : Int64) : Atom := ⟨.plain "edge" 2, [.const (.integer m), .const (.integer n)]⟩
  ((Database.ofFacts [edge 1 2, edge 2 1, edge 3 4]).toOption).getD .empty

theorem evaluate_isLeast_paths :
    ∃ result s, Context.evaluate ⟨.standard, {}⟩ 5 pathRules edgeFacts = some (.ok result) ∧
      stratify pathRules = .ok s ∧
      (∀ k, IsLeast {S | IsClosedStratum .standard pathRules s edgeFacts.atoms result.1.atoms k S}
        {a ∈ result.1.atoms | s.stratum? a.predicate = some k}) ∧
      ∀ p, (∀ r ∈ pathRules, r.head.predicate ≠ p) →
        ∀ t, ⟨p, t⟩ ∈ result.1.atoms ↔ ⟨p, t⟩ ∈ edgeFacts.atoms := by
  obtain ⟨result, h⟩ : ∃ result,
      Context.evaluate ⟨.standard, {}⟩ 5 pathRules edgeFacts = some (.ok result) :=
    Outcome.exists_ok (by decide +kernel)
  obtain ⟨s, hs, hleast, hkeeps⟩ := evaluate_isLeast
    (Database.isGround_iff.2 (by decide +kernel)) (by decide +kernel) (by decide +kernel) h
  exact ⟨result, s, h, hs, hleast, hkeeps⟩

end Deduction
