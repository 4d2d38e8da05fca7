import Deduction.Proofs.Magic.Program

/-!
# Labels

Every call that joins its parts takes new labels for them, so that the labels of a magic program are
numbered without gaps: the heads of its rules go through the labels once, and so do the bodies
(`AdornedProgram.exists_isNumbered_guardedRules`). A labeled predicate is therefore derived by one
rule and used by one rule (`IsNumbered.head_unique`, `use_unique`).
-/

namespace Deduction

/-! ## Labeled predicates -/

/-- The predicate holds a part of the arguments of calls. -/
def Predicate.isLabeled : Predicate → Bool
  | .labeled _ _ => true
  | _ => false

/-- The label of a labeled predicate. -/
def Predicate.label : Predicate → Nat
  | .labeled _ n => n
  | _ => 0

/-- The predicates of the literals of a body that are not builtins. -/
def predicatesIn (body : List Literal) : List Predicate :=
  (body.filterMap Literal.atom?).map (·.predicate)

/-- The labeled predicates that rules are for, rule by rule. -/
def labeledHeads (rules : List Rule) : List Predicate :=
  (rules.map (·.head.predicate)).filter Predicate.isLabeled

/-- The labeled predicates that the bodies of rules use, rule by rule. -/
def labeledUses (rules : List Rule) : List Predicate :=
  rules.flatMap fun r => (predicatesIn r.body).filter Predicate.isLabeled

/-- No predicate of the body is labeled. -/
def IsUnlabeled (body : List Literal) : Prop :=
  ∀ p ∈ predicatesIn body, p.isLabeled = false

section Unlabeled

variable {body xs ys : List Literal} {p : Predicate}

theorem mem_predicatesIn : p ∈ predicatesIn body ↔ ∃ l ∈ body, ∃ a ∈ l.atom?, a.predicate = p := by
  simp only [predicatesIn, List.mem_map, List.mem_filterMap, Option.mem_def]
  constructor
  · rintro ⟨a, ⟨l, hl, ha⟩, rfl⟩
    exact ⟨l, hl, a, ha, rfl⟩
  · rintro ⟨l, hl, a, ha, rfl⟩
    exact ⟨a, ⟨l, hl, ha⟩, rfl⟩

@[simp]
theorem labeledHeads_append (xs ys : List Rule) :
    labeledHeads (xs ++ ys) = labeledHeads xs ++ labeledHeads ys := by
  simp [labeledHeads]

@[simp]
theorem labeledUses_append (xs ys : List Rule) :
    labeledUses (xs ++ ys) = labeledUses xs ++ labeledUses ys :=
  List.flatMap_append

theorem IsUnlabeled.filter_eq_nil (h : IsUnlabeled body) :
    (predicatesIn body).filter Predicate.isLabeled = [] :=
  List.filter_eq_nil_iff.2 fun p hp => by simp [h p hp]

theorem IsUnlabeled.append (hx : IsUnlabeled xs) (hy : IsUnlabeled ys) :
    IsUnlabeled (xs ++ ys) := by
  intro p hp
  rw [predicatesIn, List.filterMap_append, List.map_append] at hp
  exact (List.mem_append.1 hp).elim (hx p) (hy p)

theorem IsUnlabeled.mono (h : IsUnlabeled ys) (hsub : ∀ l ∈ xs, l ∈ ys) : IsUnlabeled xs := by
  intro p hp
  obtain ⟨l, hl, ha⟩ := mem_predicatesIn.1 hp
  exact h p (mem_predicatesIn.2 ⟨l, hsub l hl, ha⟩)

theorem isUnlabeled_guard (a : Atom) : IsUnlabeled a.guard := by
  intro p hp
  obtain ⟨l, hl, b, hb, rfl⟩ := mem_predicatesIn.1 hp
  obtain ⟨p, -, -, rfl⟩ := Atom.mem_guard_iff.1 hl
  obtain rfl := Option.some.inj hb
  rfl

end Unlabeled

/-! ## Rules with numbered labels -/

/-- The heads of the rules go once through the labels after `first` up to `last`, and so do the
bodies. -/
structure IsNumbered (rules : List Rule) (first last : Nat) : Prop where
  /-- Labels are used in the order in which there are rules for them. -/
  uses_eq : labeledUses rules = labeledHeads rules
  /-- Labels are used up. -/
  le : first ≤ last
  /-- There are rules for the labels in ascending order. -/
  labels_eq : (labeledHeads rules).map Predicate.label = List.range' (first + 1) (last - first)

namespace IsNumbered

variable {rules xs ys : List Rule} {first middle last : Nat} {p : Predicate} {c c' : Rule}

theorem append (hx : IsNumbered xs first middle) (hy : IsNumbered ys middle last) :
    IsNumbered (xs ++ ys) first last where
  uses_eq := by rw [labeledUses_append, labeledHeads_append, hx.uses_eq, hy.uses_eq]
  le := Nat.le_trans hx.le hy.le
  labels_eq := by
    have hlast : last - first = (middle - first) + (last - middle) := by
      have := hx.le
      have := hy.le
      omega
    have hstart : middle + 1 = first + 1 + (middle - first) := by
      have := hx.le
      omega
    rw [labeledHeads_append, List.map_append, hx.labels_eq, hy.labels_eq, hlast, hstart,
      List.range'_append_1]

/-- A rule without labels takes none. -/
theorem of_unlabeled (hhead : c.head.predicate.isLabeled = false) (hbody : IsUnlabeled c.body)
    (n : Nat) : IsNumbered [c] n n where
  uses_eq := by simp [labeledUses, labeledHeads, hhead, hbody.filter_eq_nil]
  le := Nat.le_refl n
  labels_eq := by simp [labeledHeads, hhead]

theorem nil (n : Nat) : IsNumbered [] n n :=
  ⟨rfl, Nat.le_refl n, by simp [labeledHeads]⟩

/-- What a loop collects is numbered if its steps go on from one another. -/
theorem foldl {α : Type} {f : List Rule × Nat → α → List Rule × Nat} {g : Nat → α → List Rule × Nat}
    (hstep : ∀ ys n x, f (ys, n) x = (ys ++ (g n x).1, (g n x).2)) {items : List α}
    (hg : ∀ x ∈ items, ∀ n, IsNumbered (g n x).1 n (g n x).2)
    (h : IsNumbered rules first last) :
    IsNumbered (items.foldl f (rules, last)).1 first (items.foldl f (rules, last)).2 := by
  induction items generalizing rules last with
  | nil => exact h
  | cons x items ih =>
    rw [List.forall_mem_cons] at hg
    rw [List.foldl_cons, hstep]
    exact ih hg.2 (h.append (hg.1 last))

theorem nodup_labeledHeads (h : IsNumbered rules first last) : (labeledHeads rules).Nodup := by
  refine List.Nodup.of_map Predicate.label ?_
  rw [h.labels_eq]
  exact List.nodup_range'

theorem mem_labeledHeads (hp : p.isLabeled = true) :
    p ∈ labeledHeads rules ↔ ∃ c ∈ rules, c.head.predicate = p := by
  simp only [labeledHeads, List.mem_filter, List.mem_map, hp, and_true]

theorem mem_labeledUses (hp : p.isLabeled = true) :
    p ∈ labeledUses rules ↔ ∃ c ∈ rules, p ∈ predicatesIn c.body := by
  simp only [labeledUses, List.mem_flatMap, List.mem_filter, hp, and_true]

/-- There is a rule for a label if and only if there is one that uses it. -/
theorem exists_head_iff (h : IsNumbered rules first last) (hp : p.isLabeled = true) :
    (∃ c ∈ rules, c.head.predicate = p) ↔ ∃ c ∈ rules, p ∈ predicatesIn c.body := by
  rw [← mem_labeledHeads hp, ← mem_labeledUses hp, h.uses_eq]

theorem head_unique (h : IsNumbered rules first last) (hp : p.isLabeled = true) (hc : c ∈ rules)
    (hc' : c' ∈ rules) (heq : c.head.predicate = p) (heq' : c'.head.predicate = p) : c = c' := by
  have hnodup := h.nodup_labeledHeads
  rw [labeledHeads, List.filter_map] at hnodup
  refine List.inj_on_of_nodup_map hnodup (List.mem_filter.2 ⟨hc, ?_⟩) (List.mem_filter.2 ⟨hc', ?_⟩)
    (heq.trans heq'.symm)
  · simp [heq, hp]
  · simp [heq', hp]

theorem use_unique (h : IsNumbered rules first last) (hp : p.isLabeled = true) (hc : c ∈ rules)
    (hc' : c' ∈ rules) (huse : p ∈ predicatesIn c.body) (huse' : p ∈ predicatesIn c'.body) :
    c = c' := by
  have hnodup := h.nodup_labeledHeads
  rw [← h.uses_eq, labeledUses] at hnodup
  exact eq_of_nodup_flatMap hnodup hc hc' (List.mem_filter.2 ⟨huse, hp⟩)
    (List.mem_filter.2 ⟨huse', hp⟩)

end IsNumbered

/-! ## The labels of magic programs -/

namespace AdornedRule

variable {r : AdornedRule} {labels node : Nat} {l : Literal}

theorem isUnlabeled_bodyBefore (hbody : IsUnlabeled r.rule.body) (k : Nat) :
    IsUnlabeled (r.bodyBefore k) := by
  refine (isUnlabeled_guard r.rule.head).append hbody |>.mono fun l hl => List.mem_append.2 ?_
  exact (mem_bodyBefore hl).imp_right mem_of_mem_select

/-- The rules that join the parts of a call have the labels of the parts as heads, and the rule for
the call has them in its body. -/
theorem isNumbered_join {target : Atom} {p : CallPattern} {terms : List Term}
    (hbody : IsUnlabeled r.rule.body) (htarget : target.predicate.isLabeled = false)
    (edges : List PassingEdge) (labels : Nat) :
    let parts := (edges.zipIdx (labels + 1)).map fun (e, label) =>
      (labelAtom p terms e label, r.bodyBefore e.source)
    IsNumbered (parts.map (fun part => ⟨part.1, part.2⟩) ++
      [⟨target, parts.map fun part => .positive part.1⟩]) labels (labels + edges.length) := by
  intro parts
  have hlabeled : (parts.map (·.1.predicate)).filter Predicate.isLabeled =
      parts.map (·.1.predicate) := by
    refine List.filter_eq_self.2 fun p hp => ?_
    obtain ⟨part, hpart, rfl⟩ := List.mem_map.1 hp
    obtain ⟨⟨e, label⟩, -, rfl⟩ := List.mem_map.1 hpart
    rfl
  have hbodies : labeledUses (parts.map fun part => ⟨part.1, part.2⟩) = [] := by
    rw [labeledUses, List.flatMap_eq_nil_iff]
    intro c hc
    obtain ⟨part, hpart, rfl⟩ := List.mem_map.1 hc
    obtain ⟨⟨e, label⟩, -, rfl⟩ := List.mem_map.1 hpart
    exact (isUnlabeled_bodyBefore hbody e.source).filter_eq_nil
  have hheads : labeledHeads (parts.map (fun part => ⟨part.1, part.2⟩) ++
      [⟨target, parts.map fun part => .positive part.1⟩]) = parts.map (·.1.predicate) := by
    rw [labeledHeads_append]
    simpa [labeledHeads, htarget, Function.comp_def] using hlabeled
  refine ⟨?_, Nat.le_add_right _ _, ?_⟩
  · rw [hheads, labeledUses_append, hbodies, List.nil_append]
    simpa [labeledUses, predicatesIn, Literal.atom?, Function.comp_def] using hlabeled
  · -- The parts are labeled by their positions.
    rw [hheads, List.map_map, List.map_map, Nat.add_sub_cancel_left,
      ← List.zipIdx_map_snd (labels + 1) edges]
    rfl

/-- The rules of a call number its parts. -/
theorem isNumbered_callRules (hbody : IsUnlabeled r.rule.body) (labels node : Nat) (l : Literal) :
    IsNumbered (r.callRules labels node l).1 labels (r.callRules labels node l).2 := by
  unfold callRules
  split
  · exact .nil labels
  · next target p terms hcall =>
    obtain ⟨-, -, rfl⟩ := Literal.magicCall?_eq_some_iff.1 hcall
    split
    · exact .of_unlabeled rfl (isUnlabeled_guard _) labels
    · next e _ => exact .of_unlabeled rfl (isUnlabeled_bodyBefore hbody e.source) labels
    · exact isNumbered_join hbody rfl _ labels

/-- The rules for the calls of a rule go on numbering, and the rule itself has no labels. -/
theorem isNumbered_answerRules (hbody : IsUnlabeled r.rule.body)
    (hhead : r.rule.head.predicate.isLabeled = false) (labels : Nat) :
    IsNumbered (r.answerRules labels).1 labels (r.answerRules labels).2 := by
  have hmagic : IsNumbered (r.magicRules labels).1 labels (r.magicRules labels).2 :=
    .foldl (g := fun n x => r.callRules n x.2 x.1) (fun _ _ _ => rfl)
      (fun x _ n => isNumbered_callRules hbody n x.2 x.1) (.nil labels)
  exact hmagic.append (.of_unlabeled (c := r.guarded) hhead ((isUnlabeled_guard _).append hbody) _)

end AdornedRule

theorem AdornedProgram.exists_isNumbered_guardedRules {program : AdornedProgram}
    (h : ∀ r ∈ program.rules,
      IsUnlabeled r.rule.body ∧ r.rule.head.predicate.isLabeled = false) :
    ∃ last, IsNumbered program.guardedRules 0 last :=
  ⟨_, .foldl (g := fun n (r : AdornedRule) => r.answerRules n)
    (by simp [AdornedRule.answerRules])
    (fun r hr n => AdornedRule.isNumbered_answerRules (h r hr).1 (h r hr).2 n) (.nil 0)⟩

end Deduction
