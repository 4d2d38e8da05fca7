import Mathlib.Data.Set.Card
import Mathlib.Data.Set.Finite.Lattice
import Mathlib.Data.Set.Finite.List
import Deduction.Proofs.Model

/-!
# Evaluations that come to an end

With function symbols rules may derive new facts for ever. They do not if all that they derive is in
a finite set: each round but the last one of a layer stores a new fact of the set, whether its rules
succeed in the end or fail (`Context.exists_saturateAll_of_finite`). They succeed if they compute
nothing (`Context.converges_of_finite`). The set has to be closed under the rules then, and as what
negated literals mean is settled by the lower layers, it is enough to know which negated facts these
derive.

An evaluation that has come to an end comes to the same end if it is given more rounds
(`Context.evaluate_mono`).
-/

namespace Deduction

open Matching

/-! ## Finite sets -/

/-- The parts of the terms of a set. -/
def partsOf (S : Set Term) : Set Term :=
  {u | ∃ t ∈ S, u ∈ t.parts}

theorem mem_partsOf_of_app {S : Set Term} {k : String} {us : List Term}
    (h : .app k us ∈ partsOf S) : ∀ u ∈ us, u ∈ partsOf S := by
  obtain ⟨t, ht, hmem⟩ := h
  exact fun u hu => ⟨t, ht, Term.mem_parts_of_app hmem u hu⟩

theorem finite_partsOf {S : Set Term} (hS : S.Finite) : (partsOf S).Finite := by
  refine (hS.biUnion fun t _ => List.finite_toSet t.parts).subset ?_
  rintro u ⟨t, ht, hu⟩
  exact Set.mem_biUnion ht hu

theorem finite_tuples {S : Set Term} (hS : S.Finite) (n : Nat) :
    {ts : List Term | ts.length = n ∧ ∀ t ∈ ts, t ∈ S}.Finite := by
  have : Finite S := hS
  refine ((List.finite_length_eq S n).image (List.map Subtype.val)).subset ?_
  rintro ts ⟨hlength, hts⟩
  exact ⟨ts.attachWith (· ∈ S) hts, by simpa using hlength, by simp⟩

/-- Finitely many atoms have finitely many terms. -/
theorem finite_terms {M : Set Atom} (hM : M.Finite) : {t | ∃ a ∈ M, t ∈ a.terms}.Finite := by
  refine (hM.biUnion fun a _ => List.finite_toSet a.terms).subset ?_
  rintro t ⟨a, ha, ht⟩
  exact Set.mem_biUnion ha ht

theorem Database.finite_atoms (db : Database) : db.atoms.Finite := by
  refine ((List.finite_toSet db.relations.entries).biUnion fun e _ =>
    (List.finite_toSet e.2.tuples).image (Atom.mk e.1)).subset fun a ha => ?_
  obtain ⟨r, hr⟩ := Option.isSome_iff_exists.1 (isSome_relation?_of_mem_atoms ha)
  rw [mem_atoms, relation, hr] at ha
  exact Set.mem_biUnion (mem_entries_iff.2 hr) ⟨a.terms, ha, rfl⟩

namespace Context

variable {ctx : Context} {p q : Progress} {db : Database} {m n : Nat}

/-! ## More rounds -/

theorem saturate_mono {rules : List ScheduledRule} {x : Except EvaluationError Progress}
    (h : ctx.saturate rules n p = some x) (hle : n ≤ m) : ctx.saturate rules m p = some x := by
  induction n generalizing p m with
  | zero => cases h
  | succ n ih =>
    obtain ⟨m, rfl⟩ : ∃ k, m = k + 1 := ⟨m - 1, by omega⟩
    rw [saturate_succ] at h ⊢
    cases hnew : ctx.newFacts rules p with
    | error e => rwa [hnew] at h
    | ok new =>
      simp only [hnew] at h ⊢
      split
      · next hempty => rwa [if_pos hempty] at h
      · next hempty =>
        rw [if_neg hempty] at h
        cases hlimit : ctx.exceededLimit?
            (p.statistics.afterRound rules.length new.size).factsDerived with
        | some e => rwa [hlimit] at h
        | none =>
          simp only [hlimit] at h ⊢
          exact ih h (by omega)

theorem saturateAll_mono {layers : List (List Rule)} {statistics : Statistics}
    {x : Except EvaluationError (Database × Statistics)}
    (h : ctx.saturateAll n layers db statistics = some x) (hle : n ≤ m) :
    ctx.saturateAll m layers db statistics = some x := by
  induction layers generalizing db statistics with
  | nil => exact h
  | cons layer layers ih =>
    rw [saturateAll] at h ⊢
    cases hlayer : ctx.saturate (layer.map ctx.scheduleRule) n ⟨db, none, statistics⟩ with
    | none =>
      rw [hlayer] at h
      cases h
    | some y =>
      rw [saturate_mono hlayer hle]
      rw [hlayer] at h
      cases y with
      | error e => exact h
      | ok p => exact ih h

/-- An evaluation that has come to an end does not need the rounds that are left. -/
theorem evaluate_mono {rules : List Rule} {facts : Database}
    {x : Except EvaluationError (Database × Statistics)}
    (h : ctx.evaluate n rules facts = some x) (hle : n ≤ m) :
    ctx.evaluate m rules facts = some x := by
  rw [evaluate] at h ⊢
  split
  · next e he => rwa [he] at h
  · next hsafe =>
    simp only [hsafe] at h
    split
    · next e he => rwa [he] at h
    · next s hs =>
      simp only [hs] at h
      exact saturateAll_mono h hle

theorem saturateAll_append_eq_ok_iff {xs ys : List (List Rule)} {statistics : Statistics}
    {result : Database × Statistics} :
    ctx.saturateAll n (xs ++ ys) db statistics = some (.ok result) ↔
      ∃ middle, ctx.saturateAll n xs db statistics = some (.ok middle) ∧
        ctx.saturateAll n ys middle.1 middle.2 = some (.ok result) := by
  induction xs generalizing db statistics with
  | nil => simp [saturateAll]
  | cons layer xs ih =>
    rw [List.cons_append, saturateAll_cons_eq_ok_iff]
    simp only [ih, saturateAll_cons_eq_ok_iff]
    constructor
    · rintro ⟨q, hq, middle, hmiddle, h⟩
      exact ⟨middle, ⟨q, hq, hmiddle⟩, h⟩
    · rintro ⟨middle, ⟨q, hq, hmiddle⟩, h⟩
      exact ⟨q, hq, middle, hmiddle, h⟩

/-- Layers that end have come to an end before and in each of them. -/
theorem exists_saturate_of_getElem? {layers : List (List Rule)} {layer : List Rule} {k : Nat}
    {statistics : Statistics} {result : Database × Statistics} (hlayer : layers[k]? = some layer)
    (h : ctx.saturateAll n layers db statistics = some (.ok result)) :
    ∃ middle q, ctx.saturateAll n (layers.take k) db statistics = some (.ok middle) ∧
      ctx.saturate (layer.map ctx.scheduleRule) n ⟨middle.1, none, middle.2⟩ = some (.ok q) := by
  obtain ⟨hlt, rfl⟩ := List.getElem?_eq_some_iff.1 hlayer
  rw [← List.take_append_drop k layers, List.drop_eq_getElem_cons hlt] at h
  obtain ⟨middle, hmiddle, hrest⟩ := saturateAll_append_eq_ok_iff.1 h
  obtain ⟨q, hq, -⟩ := saturateAll_cons_eq_ok_iff.1 hrest
  exact ⟨middle, q, hmiddle, hq⟩

/-- The evaluation of rules over some facts comes to an end and has a result. -/
def Converges (ctx : Context) (rules : List Rule) (facts : Database) : Prop :=
  ∃ rounds result, ctx.evaluate rounds rules facts = some (.ok result)

/-! ## Layers -/

/-- A round succeeds if positive literals have all the variables whose values its rules need, and
relations take the instances of their heads. -/
theorem exists_newFacts_eq_ok {layer : List Rule} (hsafe : ∀ r ∈ layer, r.IsSafe ctx)
    (hcompares : ∀ r ∈ layer, r.OnlyCompares ctx.registry) (hbinds : ∀ r ∈ layer, r.BindsValues)
    (harity : ∀ r ∈ layer, r.head.terms.length = r.head.predicate.arity)
    (hp : CaughtUp ctx (layer.map ctx.scheduleRule) p) (hdb : p.database.IsGround) :
    ∃ new, ctx.newFacts (layer.map ctx.scheduleRule) p = .ok new := by
  refine (newFacts_isOk_iff_of_caughtUp hp).2 fun x hx => ?_
  obtain ⟨r, hr, rfl⟩ := List.mem_map.1 hx
  have hsucceeds := (hsafe r hr).succeeds_scheduleRule (hcompares r hr) (hbinds r hr) hdb
  refine ⟨hsucceeds, ?_⟩
  rintro _ ⟨s, hs, rfl⟩
  exact .inr ⟨hsucceeds.2 s hs, (List.length_map _).trans (harity r hr)⟩

section Finite

variable (hlimits : ∀ n, ctx.exceededLimit? n = none) {F N : Set Atom} (hF : F.Finite)

include hlimits hF

/-- A layer ends if its rounds stay within a finite set. -/
theorem exists_saturate_of_finite {rules : List ScheduledRule} {I : Database → Prop}
    (hstep : ctx.Preserves rules I) (hsub : ∀ db, I db → db.atoms ⊆ F) (hlayer : IsLayer rules)
    (hp : CaughtUp ctx rules p) (hI : I p.database) : ∃ n x, ctx.saturate rules n p = some x := by
  -- By induction on the number of facts of the set that are not stored.
  induction hcard : (F \ p.database.atoms).ncard using Nat.strong_induction_on generalizing p with
  | h k ih =>
    cases hnew : ctx.newFacts rules p with
    | error e => exact ⟨1, .error e, by rw [saturate_succ, hnew]⟩
    | ok new =>
    cases hempty : new.isEmpty with
    | true => exact ⟨1, _, saturate_succ_eq_ok_iff.2 ⟨new, hnew, .inl ⟨hempty, rfl⟩⟩⟩
    | false =>
      have hI' : I (p.advance rules.length new).database := hstep.advance hp hI hnew
      have hatoms : (p.advance rules.length new).database.atoms = p.database.atoms ∪ new.atoms :=
        Database.atoms_merge _ _
      obtain ⟨a, ha⟩ : ∃ a, a ∈ new.atoms := by
        by_contra hnone
        push Not at hnone
        rw [Database.isEmpty_iff.2 (Set.eq_empty_of_forall_notMem hnone)] at hempty
        cases hempty
      have hlt : (F \ (p.advance rules.length new).database.atoms).ncard < k := by
        rw [← hcard]
        refine Set.ncard_lt_ncard ⟨fun b hb => ⟨hb.1, fun hdb => hb.2 ?_⟩, fun hback => ?_⟩
          (hF.subset Set.sdiff_subset)
        · exact hatoms ▸ .inl hdb
        · have hin : a ∈ (p.advance rules.length new).database.atoms := hatoms ▸ .inr ha
          exact (hback ⟨hsub _ hI' hin, ((mem_newFacts_of_caughtUp hp hnew).1 ha).1⟩).2 hin
      obtain ⟨n, x, hx⟩ := ih _ hlt (hp.advance hlayer hnew) hI' rfl
      refine ⟨n + 1, x, ?_⟩
      simpa only [saturate_succ, hnew, hempty, hlimits, Bool.false_eq_true, if_false] using hx

/-- Layers that are evaluated one after the other end if their rounds stay within a finite set. -/
theorem exists_saturateAll_of_finite {layers : List (List Rule)} {statistics : Statistics}
    {I : Database → Prop}
    (hstep : ∀ layer ∈ layers, ctx.Preserves (layer.map ctx.scheduleRule) I)
    (hsub : ∀ db, I db → db.atoms ⊆ F)
    (hlayers : ∀ layer ∈ layers, IsLayer (layer.map ctx.scheduleRule)) (hI : I db) :
    ∃ n x, ctx.saturateAll n layers db statistics = some x := by
  induction layers generalizing db statistics with
  | nil => exact ⟨0, .ok (db, statistics), rfl⟩
  | cons layer layers ih =>
    rw [List.forall_mem_cons] at hstep hlayers
    have hstart : CaughtUp ctx (layer.map ctx.scheduleRule) ⟨db, none, statistics⟩ :=
      caughtUp_of_delta_eq_none rfl
    obtain ⟨m, x, hx⟩ := exists_saturate_of_finite hlimits hF hstep.1 hsub hlayers.1 hstart hI
    cases x with
    | error e => exact ⟨m, .error e, by rw [saturateAll, hx]⟩
    | ok q =>
      obtain ⟨n, y, hy⟩ := ih hstep.2 hlayers.2
        (saturate_invariant hstep.1 hlayers.1 hstart hI hx)
      refine ⟨max m n, y, ?_⟩
      -- Enough rounds for all the layers are given to each of them.
      simpa only [saturateAll, saturate_mono hx (Nat.le_max_left m n)] using
        saturateAll_mono hy (Nat.le_max_right m n)

/-- A layer of rules that compute nothing ends within a finite set that is closed under its rules,
if negated literals find in the database what they find in `N`. -/
theorem exists_saturate_layer {layer : List Rule} (statistics : Statistics)
    (hrules : ∀ r ∈ layer, r.IsRelational ctx)
    (harity : ∀ r ∈ layer, r.head.terms.length = r.head.predicate.arity)
    (hnegated : ∀ r ∈ layer, ∀ a, .negative a ∈ r.body →
      ∀ r' ∈ layer, r'.head.predicate ≠ a.predicate)
    (hdb : db.IsGround) (hsub : db.atoms ⊆ F) (hclosed : IsClosed ctx.registry layer F N F)
    (hsettled : ∀ r ∈ layer, ∀ a, .negative a ∈ r.body → ∀ t, ⟨a.predicate, t⟩ ∈ N →
      ⟨a.predicate, t⟩ ∈ db.atoms) :
    ∃ n q, ctx.saturate (layer.map ctx.scheduleRule) n ⟨db, none, statistics⟩ = some (.ok q) ∧
      q.database.atoms ⊆ F := by
  have hlayer : IsLayer (layer.map ctx.scheduleRule) := isLayer_map_scheduleRule hnegated
  have hp : CaughtUp ctx (layer.map ctx.scheduleRule) ⟨db, none, statistics⟩ :=
    caughtUp_of_delta_eq_none rfl
  let I (db' : Database) : Prop := OnTheWay layer db db' ∧ db'.atoms ⊆ F
  have hstep : ctx.Preserves (layer.map ctx.scheduleRule) I := by
    rintro db' new ⟨hway, hdb'⟩ hnew
    refine ⟨hway.merge hnew, ?_⟩
    rw [Database.atoms_merge]
    refine Set.union_subset hdb' fun a ha => ?_
    obtain ⟨-, x, hx, hderives⟩ := hnew a ha
    obtain ⟨r, hr, rfl⟩ := List.mem_map.1 hx
    obtain ⟨v, hv, hbody, rfl⟩ := (Rule.derives_iff (hrules r hr) hway.ground).1 hderives
    refine hclosed r hr v hv fun l hl => (hbody l hl).mono (fun _ _ _ ht => hdb' ht) ?_
    rintro b rfl t ht
    exact hway.subset (hsettled r hr b hl t ht)
  have hI : I db := ⟨.refl hdb, hsub⟩
  obtain ⟨n, x, hx⟩ :=
    exists_saturate_of_finite hlimits hF hstep (fun _ hdb' => hdb'.2) hlayer hp hI
  cases x with
  | error e =>
    obtain ⟨p', hp', hI', hfails⟩ := exists_newFacts_eq_error hstep hlayer hp hI hlimits hx
    obtain ⟨new, hnew⟩ := exists_newFacts_eq_ok (fun r hr => (hrules r hr).safe)
      (fun r hr => (hrules r hr).compares) (fun r hr => (hrules r hr).bindsValues) harity hp'
      hI'.1.ground
    rw [hfails] at hnew
    cases hnew
  | ok q => exact ⟨n, q, hx, (saturate_invariant hstep hlayer hp hI hx).2⟩

end Finite

end Context

/-! ## Programs -/

/-- Some rules of a program, with all its rules for the predicates that they use. -/
structure IsLowerPart (lower rules : List Rule) : Prop where
  /-- The rules are rules of the program. -/
  subset : ∀ r ∈ lower, r ∈ rules
  /-- The rules for the predicates that they use are among them. -/
  used : ∀ r ∈ lower, ∀ l ∈ r.body, ∀ a, l.atom? = some a →
    ∀ r' ∈ rules, r'.head.predicate = a.predicate → r' ∈ lower

section Layers

variable {layers done rest : List (List Rule)} {layer : List Rule}

/-- The layers up to some layer are a part of a program. -/
theorem isLowerPart_flatten (h : IsLayered (done ++ rest)) :
    IsLowerPart done.flatten (done ++ rest).flatten where
  subset r hr := by
    rw [List.flatten_append]
    exact List.mem_append_left _ hr
  used r hr l hl a ha r' hr' hhead := by
    rw [List.flatten_append] at hr'
    refine (List.mem_append.1 hr').resolve_right fun hrest => ?_
    obtain ⟨layer, hlayer, hr⟩ := List.mem_flatten.1 hr
    obtain ⟨later, hlater, hr'⟩ := List.mem_flatten.1 hrest
    exact (List.pairwise_append.1 h.used).2.2 layer hlayer later hlater r hr l hl a ha r' hr' hhead

/-- The rules for a predicate that a layer negates are in the layers before. -/
theorem mem_done_of_negative (h : IsLayered (done ++ layer :: rest)) {r r' : Rule} {a : Atom}
    (hr : r ∈ layer) (ha : .negative a ∈ r.body) (hr' : r' ∈ (done ++ layer :: rest).flatten)
    (hhead : r'.head.predicate = a.predicate) : r' ∈ done.flatten := by
  rw [List.flatten_append, List.flatten_cons] at hr'
  rcases List.mem_append.1 hr' with hr' | hr'
  · exact hr'
  rcases List.mem_append.1 hr' with hr' | hr'
  · exact absurd hhead
      (h.negated layer (List.mem_append_right _ (.head _)) r hr a ha r' hr')
  · obtain ⟨later, hlater, hr'⟩ := List.mem_flatten.1 hr'
    have hused := (List.pairwise_cons.1 (List.pairwise_append.1 h.used).2.1).1
    exact absurd hhead (hused later hlater r hr _ ha a rfl r' hr')

end Layers

namespace Context

variable {ctx : Context} {rules : List Rule} {facts : Database} {F N : Set Atom}

section Finite

variable (hlimits : ∀ n, ctx.exceededLimit? n = none)
  (hrules : ∀ r ∈ rules, r.IsRelational ctx)
  (harity : ∀ r ∈ rules, r.head.terms.length = r.head.predicate.arity)
  (hfacts : facts.IsGround) (hF : F.Finite) (hsub : facts.atoms ⊆ F)
  (hclosed : IsClosed ctx.registry rules F N F)
  (hsettled : ∀ lower M, IsLowerPart lower rules →
    IsStableModel ctx.registry lower facts.atoms M → ∀ r ∈ rules, ∀ a, .negative a ∈ r.body →
    (∀ r' ∈ rules, r'.head.predicate = a.predicate → r' ∈ lower) →
    ∀ t, ⟨a.predicate, t⟩ ∈ N → ⟨a.predicate, t⟩ ∈ M)

include hlimits hrules harity hfacts hF hclosed hsettled

/-- If the layers before some layer come to an end within the set, so do the layers with it. -/
theorem exists_saturateAll_append {s : Stratification} (hs : stratify rules = .ok s)
    {done rest : List (List Rule)} {layer : List Rule} (heq : s.layers = done ++ layer :: rest)
    {m : Nat} {middle : Database × Statistics}
    (hmiddle : ctx.saturateAll m done facts {} = some (.ok middle)) (hF' : middle.1.atoms ⊆ F) :
    ∃ rounds result, ctx.saturateAll rounds (done ++ [layer]) facts {} = some (.ok result) ∧
      result.1.atoms ⊆ F := by
  have hmem : ∀ r, r ∈ s.layers.flatten ↔ r ∈ rules := fun r => (stratify_layers_perm hs).mem_iff
  have hlayered := heq ▸ isLayered_of_stratify hs
  have hlayer : ∀ r ∈ layer, r ∈ rules := fun r hr => (hmem r).1 <| by
    rw [heq, List.flatten_append, List.flatten_cons]
    exact List.mem_append_right _ (List.mem_append_left _ hr)
  have hlower : IsLowerPart done.flatten rules := by
    obtain ⟨hsubset, hused⟩ := isLowerPart_flatten hlayered
    rw [← heq] at hsubset hused
    exact ⟨fun r hr => (hmem r).1 (hsubset r hr),
      fun r hr l hl a ha r' hr' => hused r hr l hl a ha r' ((hmem r').2 hr')⟩
  have hdone : IsLayered done :=
    ⟨(List.pairwise_append.1 hlayered.used).1,
      fun x hx => hlayered.negated x (List.mem_append_left _ hx)⟩
  obtain ⟨hground, hmodel⟩ := saturateAll_isStableModel
    (fun r hr => hrules r (hlower.subset r hr)) hdone hfacts hmiddle
  obtain ⟨n, q, hq, hqF⟩ := exists_saturate_layer hlimits hF middle.2
    (fun r hr => hrules r (hlayer r hr)) (fun r hr => harity r (hlayer r hr))
    (hlayered.negated layer (List.mem_append_right _ (.head _)))
    hground hF' (fun r hr => hclosed r (hlayer r hr)) fun r hr a ha =>
      hsettled _ _ hlower hmodel r (hlayer r hr) a ha fun r' hr' hhead =>
        mem_done_of_negative hlayered hr ha (heq ▸ (hmem r').2 hr') hhead
  -- Enough rounds for all these layers are given to each of them.
  exact ⟨max m n, _, saturateAll_append_eq_ok_iff.2 ⟨middle,
    saturateAll_mono hmiddle (Nat.le_max_left m n), saturateAll_cons_eq_ok_iff.2
      ⟨q, saturate_mono hq (Nat.le_max_right m n), rfl⟩⟩, hqF⟩

include hsub

/-- The evaluation of rules that compute nothing comes to an end within a finite set that has the
given facts and is closed under the rules, where negated literals read `N`. What `N` has of a
negated predicate, the model of the rules below has to have, too. -/
theorem converges_of_finite (hstrata : ∃ s, stratify rules = .ok s) :
    ctx.Converges rules facts := by
  obtain ⟨s, hs⟩ := hstrata
  -- By induction on the layers that have been evaluated.
  have hall : ∀ done rest, s.layers = done ++ rest → ∃ rounds result,
      ctx.saturateAll rounds done facts {} = some (.ok result) ∧ result.1.atoms ⊆ F := by
    intro done
    induction done using List.reverseRecOn with
    | nil => exact fun _ _ => ⟨0, (facts, {}), rfl, hsub⟩
    | append_singleton done layer ih =>
      intro rest heq
      rw [List.append_assoc, List.singleton_append] at heq
      obtain ⟨m, middle, hmiddle, hF'⟩ := ih _ heq
      exact exists_saturateAll_append hlimits hrules harity hfacts hF hclosed hsettled hs heq
        hmiddle hF'
  obtain ⟨rounds, result, h, -⟩ := hall s.layers [] (List.append_nil _).symm
  exact ⟨rounds, result, evaluate_eq_ok_iff.2 ⟨fun r hr => (hrules r hr).safe, s, hs, h⟩⟩

end Finite

/-! ## Evaluations that never end -/

theorem exists_mem_of_outcome {x : Outcome Database} {a : Atom}
    (h : (x.bind Except.toOption).any
      (fun db => (db.relation a.predicate).tuples.contains a.terms) = true) :
    ∃ db, x = some (.ok db) ∧ a ∈ db.atoms := by
  rcases x with _ | e | db
  · cases h
  · cases h
  · exact ⟨db, rfl, Database.mem_atoms.2 (List.contains_iff_mem.1 h)⟩

/-- A function symbol around a term, a number of times. -/
def nest (k : String) (t : Term) (n : Nat) : Term :=
  (fun u => .app k [u])^[n] t

theorem nest_succ (k : String) (t : Term) (n : Nat) : nest k t (n + 1) = .app k [nest k t n] :=
  Function.iterate_succ_apply' _ _ _

theorem nest_injective (k : String) (t : Term) : Function.Injective (nest k t) := by
  have hsize : ∀ n, (nest k t n).size = t.size + n := by
    intro n
    induction n with
    | zero => rfl
    | succ n ih => rw [nest_succ, Term.size, Term.sizeAll, ih, Term.sizeAll]; rfl
  intro m n h
  have := hsize m
  rw [h, hsize] at this
  omega

/-- A stratum of an evaluation that comes to an end comes to an end itself, with all the facts that
its rounds add. -/
theorem Converges.exists_saturate {s : Stratification} {stratum : Nat} {layer : List Rule}
    (h : ctx.Converges rules facts) (hs : stratify rules = .ok s)
    (hlayer : s.layers[stratum]? = some layer) (hfacts : facts.IsGround) :
    ∃ n p q, CaughtUp ctx (layer.map ctx.scheduleRule) p ∧
      ctx.saturate (layer.map ctx.scheduleRule) n p = some (.ok q) ∧ q.database.IsGround ∧
      ∀ rounds round new, ctx.newFactsAt rounds rules facts stratum round = some (.ok new) →
        new.atoms ⊆ q.database.atoms := by
  obtain ⟨n, result, h⟩ := h
  obtain ⟨-, s', hs', hall⟩ := evaluate_eq_ok_iff.1 h
  obtain rfl := Except.ok.inj (hs.symm.trans hs')
  have hlayers : ∀ layer ∈ s.layers, IsLayer (layer.map ctx.scheduleRule) :=
    fun layer hlayer => isLayer_of_stratify hs hlayer
  obtain ⟨middle, q, hmiddle, hq⟩ := exists_saturate_of_getElem? hlayer hall
  have hground : middle.1.IsGround := saturateAll_invariant
    (fun _ _ => preserves_isGround) (fun layer hl => hlayers layer (List.mem_of_mem_take hl))
    hfacts hmiddle
  have hp : CaughtUp ctx (layer.map ctx.scheduleRule) ⟨middle.1, none, middle.2⟩ :=
    caughtUp_of_delta_eq_none rfl
  refine ⟨n, _, q, hp, hq, saturate_invariant preserves_isGround
    (hlayers layer (List.mem_of_getElem? hlayer)) hp hground hq, ?_⟩
  intro rounds round new hnew a ha
  -- The strata below come to the same end, whatever the rounds they are given.
  obtain ⟨s', layer', middle', hs', hlayer', hbelow, hnew⟩ := newFactsAt_eq_some_iff.1 hnew
  obtain rfl := Except.ok.inj (hs.symm.trans hs')
  obtain rfl := Option.some.inj (hlayer.symm.trans hlayer')
  have hsame := saturateAll_mono hbelow (Nat.le_max_left rounds n)
  rw [saturateAll_mono hmiddle (Nat.le_max_right rounds n)] at hsame
  obtain rfl := Except.ok.inj (Option.some.inj hsame)
  exact (atoms_saturate hq).2 (.inr ⟨round, new, hnew, ha⟩)

/-- Rules never come to an end if one of them puts a function symbol around what it has derived, and
its other conditions are met after some rounds of its stratum. -/
theorem not_converges_of_nest {s : Stratification} {stratum : Nat} {layer : List Rule}
    {p : Predicate} {k x : String} {t : Term} {conditions : List Atom} (hfacts : facts.IsGround)
    (hs : stratify rules = .ok s) (hlayer : s.layers[stratum]? = some layer)
    (hr : ⟨⟨p, [.app k [.var x]]⟩, (⟨p, [.var x]⟩ :: conditions).map .positive⟩ ∈ layer)
    (hrelational : Rule.IsRelational
      ⟨⟨p, [.app k [.var x]]⟩, (⟨p, [.var x]⟩ :: conditions).map .positive⟩ ctx)
    (hconditions : ∀ a ∈ conditions, a.isGround = true)
    (hfound : ∀ a ∈ ⟨p, [t]⟩ :: conditions, ∃ rounds round new,
      ctx.newFactsAt rounds rules facts stratum round = some (.ok new) ∧ a ∈ new.atoms) :
    ¬ctx.Converges rules facts := by
  intro h
  obtain ⟨n, start, q, hp, hq, hground, hrounds⟩ := h.exists_saturate hs hlayer hfacts
  have hmem : ∀ a ∈ ⟨p, [t]⟩ :: conditions, a ∈ q.database.atoms := fun a ha => by
    obtain ⟨rounds, round, new, hnew, ha⟩ := hfound a ha
    exact hrounds rounds round new hnew ha
  have hnest : ∀ n, ⟨p, [nest k t n]⟩ ∈ q.database.atoms := by
    intro n
    induction n with
    | zero => exact hmem _ (.head _)
    | succ n ih =>
      have hv : (nest k t n).isGround = true := Term.areGround_iff.1 (hground _ ih) _ (.head _)
      have hlayer' : IsLayer (layer.map ctx.scheduleRule) :=
        isLayer_of_stratify hs (List.mem_of_getElem? hlayer)
      refine (saturate_isSettled hlayer' hp hq _ (List.mem_map_of_mem hr)).2 _
        ((Rule.derives_iff hrelational hground).2 ⟨fun _ => nest k t n, fun _ => hv, ?_, ?_⟩)
      · refine List.forall_mem_map.2 (List.forall_mem_cons.2
          ⟨⟨_, ih, .inr rfl, trivial⟩, fun a ha => ⟨a.terms, hmem a (.tail _ ha), ?_⟩⟩)
        exact (Term.matchesAll_iff_of_areGround (hconditions a ha)).2 rfl
      · rw [nest_succ]
        rfl
  -- A database does not have all of these facts.
  refine Set.infinite_of_injective_forall_mem (fun m n hmn => nest_injective k t ?_) hnest
    q.database.finite_atoms
  simpa using hmn

end Context

end Deduction
