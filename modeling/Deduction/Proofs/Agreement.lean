import Deduction.Proofs.Model
import Deduction.Proofs.Stratification

/-!
# Programs that share rules

Two programs over the same facts may have the same rules for some predicates and different ones for
others. If the rules that they share use only predicates for which rules are shared, the models of
the programs agree about these predicates (`IsStableModel.agree`). In particular a program with
strata has one model (`IsStableModel.unique`).

The proof goes up the strata: below a stratum the models agree, so that the negated literals of its
rules mean the same in both, and each of the models is the least set that is closed under them.
-/

namespace Deduction

/-- The literals of a rule that are not builtins are about predicates of a class. -/
def Rule.StaysIn (r : Rule) (K : Predicate → Prop) : Prop :=
  ∀ l ∈ r.body, ∀ a, l.atom? = some a → K a.predicate

/-- Two programs have the same rules for the predicates of a class, and these rules use no
predicates outside the class. -/
structure ShareRules (K : Predicate → Prop) (rules rules' : List Rule) : Prop where
  /-- The rules for the class are the same. -/
  mem_iff : ∀ r, K r.head.predicate → (r ∈ rules ↔ r ∈ rules')
  /-- The rules for the class stay in it. -/
  staysIn : ∀ r ∈ rules, K r.head.predicate → r.StaysIn K

section Models

variable {registry : Registry} {K : Predicate → Prop} {level : Predicate → Nat}
  {rules rules' : List Rule} {facts M M' : Set Atom} {n : Nat}

/-- What two models agree about below a level goes over to the level, from one model to the
other. -/
theorem IsStableModel.subset_of_lower (h : IsStableModel registry rules facts M)
    (h' : IsStableModel registry rules' facts M')
    (hshared : ∀ r ∈ rules, K r.head.predicate → r ∈ rules' ∧ r.StaysIn K)
    (hlevel : ∀ r ∈ rules, K r.head.predicate →
      (∀ a, .positive a ∈ r.body → level a.predicate ≤ level r.head.predicate) ∧
      (∀ a, .negative a ∈ r.body → level a.predicate < level r.head.predicate))
    (hlower : ∀ p, K p → level p < n → ∀ t, ⟨p, t⟩ ∈ M ↔ ⟨p, t⟩ ∈ M') :
    M ⊆ {a ∈ M | K a.predicate → level a.predicate = n → a ∈ M'} := by
  -- It is enough that the facts of the first model that the second has, too, where they have to be,
  -- are closed under the rules.
  refine h.2 ⟨fun a ha => ⟨h.1.1 ha, fun _ _ => h'.1.1 ha⟩, fun r hr v hv hbody => ⟨?_, ?_⟩⟩
  · exact h.1.2 r hr v hv fun l hl => (hbody l hl).mono (fun _ _ _ ht => ht.1) fun _ _ _ ht => ht
  · rintro hK rfl
    obtain ⟨hr', hin⟩ := hshared r hr hK
    obtain ⟨hpositive, hnegative⟩ := hlevel r hr hK
    refine h'.1.2 r hr' v hv fun l hl => (hbody l hl).mono ?_ ?_
    · rintro a rfl t ht
      have ha := hin _ hl a rfl
      -- The literal is about the level itself or a lower one.
      rcases Nat.lt_or_eq_of_le (hpositive a hl) with hlt | heq
      · exact (hlower _ ha hlt t).1 ht.1
      · exact ht.2 ha heq
    · rintro a rfl t ht
      exact (hlower _ (hin _ hl a rfl) (hnegative a hl) t).2 ht

/-- The models of two programs agree about the predicates for which the programs share the rules. -/
theorem IsStableModel.agree (h : IsStableModel registry rules facts M)
    (h' : IsStableModel registry rules' facts M') (hlevel : IsLevelling rules level)
    (hshare : ShareRules K rules rules') {p : Predicate} (hp : K p) (t : Tuple) :
    ⟨p, t⟩ ∈ M ↔ ⟨p, t⟩ ∈ M' := by
  induction hn : level p using Nat.strong_induction_on generalizing p t with
  | h n ih =>
    have hlower : ∀ q, K q → level q < n → ∀ t, ⟨q, t⟩ ∈ M ↔ ⟨q, t⟩ ∈ M' :=
      fun q hq hlt t => ih _ hlt hq t rfl
    -- The program with the levels is one of the two, so the rules of the other are looked up in it.
    constructor
    · intro ht
      refine (h.subset_of_lower h' ?_ (fun r hr _ => hlevel r hr) hlower ht).2 hp hn
      exact fun r hr hK => ⟨(hshare.mem_iff r hK).1 hr, hshare.staysIn r hr hK⟩
    · intro ht
      have hback : ∀ r ∈ rules', K r.head.predicate → r ∈ rules := fun r hr hK =>
        (hshare.mem_iff r hK).2 hr
      refine (h'.subset_of_lower h ?_ (fun r hr hK => hlevel r (hback r hr hK))
        (fun q hq hlt t => (hlower q hq hlt t).symm) ht).2 hp hn
      exact fun r hr hK => ⟨hback r hr hK, hshare.staysIn r (hback r hr hK) hK⟩

/-- A program whose rules have levels has one model. -/
theorem IsStableModel.unique (h : IsStableModel registry rules facts M)
    (h' : IsStableModel registry rules facts M') (hlevel : IsLevelling rules level) : M = M' := by
  have hshare : ShareRules (fun _ => True) rules rules :=
    ⟨fun _ _ => Iff.rfl, fun _ _ _ _ _ _ _ => trivial⟩
  ext ⟨p, t⟩
  exact h.agree h' hlevel hshare trivial t

end Models

end Deduction
