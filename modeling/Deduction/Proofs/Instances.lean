import Deduction.Term
import Deduction.Proofs.Lists

/-!
# Instances of terms

A valuation gives a term to every variable. `Term.Matches` says that a term is an instance of a
pattern under a valuation, where the wildcard matches everything and every occurrence of it
something else. Patterns without the wildcard have one instance only, the one that `Term.replace`
computes (`Term.matches_iff_eq_replace`).

The parts of a term are the term and the parts of its arguments. An instance of a pattern has
instances of the parts of the pattern as its own parts (`Term.Matches.exists_part`), which have what
terms pass on to their arguments (`Term.MatchesAll.of_mem_partsAll`).
-/

namespace Deduction

namespace Term

/-- Proofs about terms go by their constructors, with a hypothesis for every argument. -/
theorem inductionOn {P : Term → Prop} (var : ∀ x, P (.var x)) (const : ∀ c, P (.const c))
    (app : ∀ f ts, (∀ t ∈ ts, P t) → P (.app f ts)) : (t : Term) → P t
  | .var x => var x
  | .const c => const c
  | .app f ts => app f ts fun t ht =>
    have := List.sizeOf_lt_of_mem ht
    inductionOn var const app t

variable {f g : String → Term} {t u : Term} {ts us : List Term} {x : String}

/-- The wildcard is anonymous, so that variables with names are others. -/
theorem ne_wildcard_of_named (h : isAnonymous x = false) : x ≠ wildcard := by
  rintro rfl
  exact absurd h (by decide)

/-! ## Ground terms and replacements -/

theorem isGround_iff : t.isGround = true ↔ t.occurrences = [] := by
  induction t using inductionOn with
  | var x => simp [isGround, occurrences]
  | const c => simp [isGround, occurrences]
  | app f ts ih =>
    rw [isGround, occurrences, areGround_eq_all, occurrencesAll_eq_flatMap, List.all_eq_true,
      List.flatMap_eq_nil_iff]
    exact forall₂_congr ih

theorem areGround_iff : areGround ts = true ↔ ∀ t ∈ ts, t.isGround = true := by
  rw [areGround_eq_all, List.all_eq_true]

theorem replace_congr (h : ∀ x ∈ t.occurrences, f x = g x) : t.replace f = t.replace g := by
  induction t using inductionOn with
  | var x => exact h x (.head _)
  | const c => rfl
  | app k ts ih =>
    rw [occurrences, occurrencesAll_eq_flatMap] at h
    rw [replace, replace, replaceAll_eq_map, replaceAll_eq_map]
    congr 1
    exact List.map_congr_left fun t ht => ih t ht fun x hx => h x (List.mem_flatMap.2 ⟨t, ht, hx⟩)

theorem replace_var (t : Term) : t.replace .var = t := by
  induction t using inductionOn with
  | var x => rfl
  | const c => rfl
  | app k ts ih =>
    rw [replace, replaceAll_eq_map]
    congr 1
    exact (List.map_congr_left ih).trans (List.map_id _)

theorem replace_eq_self (h : t.isGround = true) : t.replace f = t := by
  rw [isGround_iff] at h
  exact (replace_congr (by simp [h])).trans (replace_var t)

theorem map_replace_eq_self (h : areGround ts = true) : ts.map (replace f) = ts :=
  (List.map_congr_left fun t ht => replace_eq_self (areGround_iff.1 h t ht)).trans (List.map_id _)

theorem isGround_replace_iff :
    (t.replace f).isGround = true ↔ ∀ x ∈ t.occurrences, (f x).isGround = true := by
  induction t using inductionOn with
  | var x => simp [replace, occurrences]
  | const c => simp [replace, occurrences, isGround]
  | app k ts ih =>
    rw [replace, isGround, replaceAll_eq_map, areGround_iff, occurrences, occurrencesAll_eq_flatMap]
    constructor
    · intro h x hx
      obtain ⟨t, ht, hx⟩ := List.mem_flatMap.1 hx
      exact (ih t ht).1 (h _ (List.mem_map_of_mem ht)) x hx
    · intro h u hu
      obtain ⟨t, ht, rfl⟩ := List.mem_map.1 hu
      exact (ih t ht).2 fun x hx => h x (List.mem_flatMap.2 ⟨t, ht, hx⟩)

end Term

/-! ## Parts -/

mutual

/-- The terms that occur in a term, which is one of them. -/
def Term.parts : Term → List Term
  | .var x => [.var x]
  | .const c => [.const c]
  | .app k ts => .app k ts :: Term.partsAll ts

/-- The terms that occur in a list of terms. -/
def Term.partsAll : List Term → List Term
  | [] => []
  | t :: ts => t.parts ++ Term.partsAll ts

end

namespace Term

variable {t u : Term} {ts : List Term} {x k : String}

theorem mem_partsAll : t ∈ partsAll ts ↔ ∃ u ∈ ts, t ∈ u.parts := by
  induction ts with
  | nil => simp [partsAll]
  | cons u ts ih => simp [partsAll, ih]

theorem mem_parts_app_iff : u ∈ (app k ts).parts ↔ u = app k ts ∨ ∃ t ∈ ts, u ∈ t.parts := by
  rw [parts, List.mem_cons, mem_partsAll]

theorem self_mem_parts (t : Term) : t ∈ t.parts := by
  cases t <;> exact .head _

theorem var_mem_parts_iff : var x ∈ t.parts ↔ x ∈ t.occurrences := by
  induction t using inductionOn with
  | var y => simp [parts, occurrences]
  | const c => simp [parts, occurrences]
  | app k ts ih =>
    rw [mem_parts_app_iff, or_iff_right (by simp), occurrences, occurrencesAll_eq_flatMap,
      List.mem_flatMap]
    exact exists_congr fun t => and_congr_right (ih t)

/-- What a term passes on to its arguments all of its parts have. -/
theorem of_mem_parts {P : Term → Prop} (happ : ∀ k us, P (.app k us) → ∀ u ∈ us, P u) (ht : P t)
    (hu : u ∈ t.parts) : P u := by
  induction t using inductionOn with
  | var x => exact List.mem_singleton.1 hu ▸ ht
  | const c => exact List.mem_singleton.1 hu ▸ ht
  | app k ts ih =>
    rcases mem_parts_app_iff.1 hu with rfl | ⟨t, hmem, hu⟩
    · exact ht
    · exact ih t hmem (happ k ts ht t hmem) hu

theorem occurrences_subset_of_mem_parts (h : t ∈ u.parts) : t.occurrences ⊆ u.occurrences := by
  refine of_mem_parts (P := fun t => t.occurrences ⊆ u.occurrences) (fun k us hsub t ht x hx => ?_)
    (List.Subset.refl _) h
  apply hsub
  rw [occurrences, occurrencesAll_eq_flatMap]
  exact List.mem_flatMap.2 ⟨t, ht, hx⟩

theorem mem_parts_of_app (h : app k ts ∈ u.parts) : ∀ t ∈ ts, t ∈ u.parts := by
  intro t ht
  induction u using inductionOn with
  | var x => simp [parts] at h
  | const c => simp [parts] at h
  | app k' us ih =>
    rw [mem_parts_app_iff] at h ⊢
    rcases h with heq | ⟨u, hu, h⟩
    · obtain ⟨-, rfl⟩ := Term.app.inj heq
      exact .inr ⟨t, ht, self_mem_parts t⟩
    · exact .inr ⟨u, hu, ih u hu h⟩

end Term

/-! ## Matching under a valuation -/

/-- A valuation, which gives a term to every variable. -/
abbrev Valuation := String → Term

mutual

/-- The second term is an instance of the first one under a valuation. -/
def Term.Matches (v : Valuation) : Term → Term → Prop
  | .var x, u => x = wildcard ∨ u = v x
  | .const c, u => u = .const c
  | .app f ts, .app g us => f = g ∧ Term.MatchesAll v ts us
  | .app _ _, _ => False

/-- The terms of the second list are instances of those of the first one under a valuation. -/
def Term.MatchesAll (v : Valuation) : List Term → List Term → Prop
  | [], [] => True
  | t :: ts, u :: us => Term.Matches v t u ∧ Term.MatchesAll v ts us
  | _, _ => False

end

namespace Term

variable {v w : Valuation} {f : String → Term} {t u : Term} {ts us : List Term} {x : String}

theorem matchesAll_iff : MatchesAll v ts us ↔ List.Forall₂ (Matches v) ts us := by
  induction ts generalizing us with
  | nil => cases us <;> simp [MatchesAll]
  | cons t ts ih => cases us <;> simp [MatchesAll, ih]

theorem matches_app_iff {k : String} :
    Matches v (.app k ts) u ↔ ∃ us, u = .app k us ∧ List.Forall₂ (Matches v) ts us := by
  cases u with
  | var x => simp [Matches]
  | const c => simp [Matches]
  | app g us =>
    rw [Matches, matchesAll_iff]
    constructor
    · rintro ⟨rfl, h⟩
      exact ⟨us, rfl, h⟩
    · rintro ⟨us', heq, h⟩
      obtain ⟨rfl, rfl⟩ := Term.app.inj heq
      exact ⟨rfl, h⟩

/-- What an instance is depends on the values of the variables other than the wildcard. -/
theorem matches_congr (h : ∀ x ∈ t.occurrences, x ≠ wildcard → v x = w x) :
    Matches v t u ↔ Matches w t u := by
  induction t using inductionOn generalizing u with
  | var x =>
    rw [Matches, Matches]
    refine or_congr_right' fun hx => ?_
    rw [h x (.head _) hx]
  | const c => rfl
  | app k ts ih =>
    rw [occurrences, occurrencesAll_eq_flatMap] at h
    rw [matches_app_iff, matches_app_iff]
    refine exists_congr fun us => and_congr_right fun _ => forall₂_congr_left fun t ht u => ?_
    exact ih t ht fun x hx => h x (List.mem_flatMap.2 ⟨t, ht, hx⟩)

theorem matchesAll_congr
    (h : ∀ t ∈ ts, ∀ x ∈ t.occurrences, x ≠ wildcard → v x = w x) :
    MatchesAll v ts us ↔ MatchesAll w ts us := by
  rw [matchesAll_iff, matchesAll_iff]
  exact forall₂_congr_left fun t ht u => matches_congr (h t ht)

/-- A term without the wildcard has one instance. -/
theorem matches_iff_eq_replace (h : wildcard ∉ t.occurrences) :
    Matches v t u ↔ t.replace v = u := by
  induction t using inductionOn generalizing u with
  | var x =>
    have hx : x ≠ wildcard := fun hx => h (hx ▸ .head _)
    simp [Matches, replace, hx, eq_comm]
  | const c => simp [Matches, replace, eq_comm]
  | app k ts ih =>
    rw [occurrences, occurrencesAll_eq_flatMap, List.mem_flatMap] at h
    push Not at h
    -- Each argument has one instance, so the list of them has one, too.
    have hargs : ∀ us, List.Forall₂ (Matches v) ts us ↔ ts.map (replace v) = us := fun us => by
      rw [forall₂_congr_left fun t ht u => ih t ht (h t ht), ← List.forall₂_map_left_iff,
        List.forall₂_eq_eq_eq]
    simp [matches_app_iff, hargs, replace, replaceAll_eq_map, eq_comm]

theorem matchesAll_iff_eq_map (h : ∀ t ∈ ts, wildcard ∉ t.occurrences) :
    MatchesAll v ts us ↔ ts.map (replace v) = us := by
  rw [matchesAll_iff, forall₂_congr_left fun t ht u => matches_iff_eq_replace (h t ht),
    ← List.forall₂_map_left_iff, List.forall₂_eq_eq_eq]

theorem matches_iff_of_isGround (h : t.isGround = true) : Matches v t u ↔ t = u := by
  rw [matches_iff_eq_replace (by simp [isGround_iff.1 h]), replace_eq_self h]

theorem matchesAll_iff_of_areGround (h : areGround ts = true) :
    MatchesAll v ts us ↔ ts = us := by
  rw [matchesAll_iff_eq_map, map_replace_eq_self h]
  exact fun t ht => by simp [isGround_iff.1 (areGround_iff.1 h t ht)]

/-- Variables may be replaced by their values. -/
theorem matches_replace_iff
    (h : ∀ x ∈ t.occurrences, f x = .var x ∨
      x ≠ wildcard ∧ f x = v x ∧ (v x).isGround = true) :
    Matches v (t.replace f) u ↔ Matches v t u := by
  induction t using inductionOn generalizing u with
  | var x =>
    rcases h x (.head _) with hx | ⟨hx, hf, hground⟩
    · rw [replace, hx]
    · rw [replace, hf, matches_iff_of_isGround hground, Matches, or_iff_right hx, eq_comm]
  | const c => rfl
  | app k ts ih =>
    rw [occurrences, occurrencesAll_eq_flatMap] at h
    rw [replace, replaceAll_eq_map, matches_app_iff, matches_app_iff]
    refine exists_congr fun us => and_congr_right fun _ => ?_
    rw [List.forall₂_map_left_iff]
    exact forall₂_congr_left fun t ht u => ih t ht fun x hx => h x (List.mem_flatMap.2 ⟨t, ht, hx⟩)

/-- The parts of a pattern have instances among the parts of an instance. -/
theorem Matches.exists_part (h : Matches v t u) {t' : Term} (ht' : t' ∈ t.parts) :
    ∃ u' ∈ u.parts, Matches v t' u' := by
  induction t using inductionOn generalizing u with
  | var x => exact ⟨u, self_mem_parts u, List.mem_singleton.1 ht' ▸ h⟩
  | const c => exact ⟨u, self_mem_parts u, List.mem_singleton.1 ht' ▸ h⟩
  | app k ts ih =>
    rcases mem_parts_app_iff.1 ht' with rfl | ⟨t, ht, ht'⟩
    · exact ⟨u, self_mem_parts u, h⟩
    · obtain ⟨us, rfl, hargs⟩ := matches_app_iff.1 h
      obtain ⟨u, hu, htu⟩ := exists_of_forall₂ hargs ht
      obtain ⟨u', hu', hmatches⟩ := ih t ht htu ht'
      exact ⟨u', mem_parts_app_iff.2 (.inr ⟨u, hu, hu'⟩), hmatches⟩

/-- What an instance of a pattern passes on to its arguments the values of the parts of the pattern
have. -/
theorem MatchesAll.of_mem_partsAll {P : Term → Prop}
    (happ : ∀ k us, P (.app k us) → ∀ u ∈ us, P u) (h : MatchesAll v ts us) (hus : ∀ u ∈ us, P u)
    (ht : t ∈ partsAll ts) (hwild : wildcard ∉ t.occurrences) : P (t.replace v) := by
  obtain ⟨t', ht', ht⟩ := mem_partsAll.1 ht
  obtain ⟨u, hu, htu⟩ := exists_of_forall₂ (matchesAll_iff.1 h) ht'
  obtain ⟨u', hu', hmatches⟩ := htu.exists_part ht
  rw [(matches_iff_eq_replace hwild).1 hmatches]
  exact of_mem_parts happ (hus u hu) hu'

/-- The values of the variables that occur in a pattern have what its instance passes on to its
arguments. -/
theorem MatchesAll.hereditary {P : Term → Prop} (happ : ∀ k us, P (.app k us) → ∀ u ∈ us, P u)
    (h : MatchesAll v ts us) (hus : ∀ u ∈ us, P u) (ht : t ∈ ts) (hx : x ∈ t.occurrences)
    (hne : x ≠ wildcard) : P (v x) :=
  h.of_mem_partsAll happ hus (mem_partsAll.2 ⟨t, ht, var_mem_parts_iff.2 hx⟩)
    (by simpa [occurrences, eq_comm] using hne)

end Term

end Deduction
