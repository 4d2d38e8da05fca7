import Mathlib.Data.List.Forall2
import Mathlib.Data.List.Induction
import Mathlib.Data.List.Nodup
import Mathlib.Data.List.Pairwise
import Mathlib.Tactic.Tauto

/-!
# Lists, lookups and loops that may fail

What the rest of the development needs to know about association lists, maxima, first occurrences,
lists that are related member by member, loops that collect what their steps yield, and the loops of
the error monad.
-/

namespace Deduction

variable {α β ε : Type}

/-! ## Association lists and maxima -/

theorem lookup_map_pair [DecidableEq α] (f : α → β) (xs : List α) (x : α) :
    (xs.map fun y => (y, f y)).lookup x = if x ∈ xs then some (f x) else none := by
  induction xs with
  | nil => simp
  | cons y ys ih =>
    rw [List.map_cons, List.lookup_cons]
    by_cases hxy : x = y
    · simp [hxy]
    · have hbeq : (x == y) = false := by simpa using hxy
      simp [hbeq, ih, hxy]

theorem foldl_max_le_iff (f : α → Nat) (xs : List α) (n m : Nat) :
    xs.foldl (fun k x => max k (f x)) n ≤ m ↔ n ≤ m ∧ ∀ x ∈ xs, f x ≤ m := by
  induction xs generalizing n with
  | nil => simp
  | cons x xs ih =>
    rw [List.foldl_cons, ih, List.forall_mem_cons, Nat.max_le]
    tauto

theorem countP_lt_countP {p q : α → Bool} {xs : List α} {x : α}
    (h : ∀ y ∈ xs, p y = true → q y = true) (hx : x ∈ xs) (hp : p x = false) (hq : q x = true) :
    xs.countP p < xs.countP q := by
  induction xs with
  | nil => cases hx
  | cons y ys ih =>
    rw [List.forall_mem_cons] at h
    have hys : ys.countP p ≤ ys.countP q := List.countP_mono_left h.2
    rw [List.countP_cons, List.countP_cons]
    rcases List.mem_cons.1 hx with rfl | hx
    · simpa [hp, hq] using Nat.lt_succ_of_le hys
    · have hlt := ih h.2 hx
      cases hy : p y with
      | false => simpa using Nat.lt_add_right _ hlt
      | true => simpa [h.1 hy] using hlt

/-- What stands somewhere in two lists, one after the other, stands in one of them. -/
theorem cases_of_append_eq {xs ys before after : List α} {z : α}
    (h : xs ++ ys = before ++ z :: after) :
    (∃ after', xs = before ++ z :: after') ∨
      ∃ before', before = xs ++ before' ∧ ys = before' ++ z :: after := by
  rcases List.append_eq_append_iff.1 h with ⟨us, rfl, hys⟩ | ⟨_ | ⟨u, us⟩, rfl, hz⟩
  · exact .inr ⟨us, rfl, hys⟩
  · exact .inr ⟨[], by simp, hz.symm⟩
  · obtain ⟨rfl, -⟩ := List.cons.inj hz
    exact .inl ⟨us, rfl⟩

/-- Of the members that lists contribute, those of one list are found again. -/
theorem filter_flatMap_of_nodup {xs : List α} {f : α → List β} {x : α} {p : β → Bool}
    (hnodup : xs.Nodup) (hx : x ∈ xs) (hself : ∀ y ∈ f x, p y = true)
    (hother : ∀ x' ∈ xs, x' ≠ x → ∀ y ∈ f x', p y = false) : (xs.flatMap f).filter p = f x := by
  obtain ⟨before, after, rfl⟩ := List.append_of_mem hx
  obtain ⟨hbefore, hafter⟩ : x ∉ before ∧ x ∉ after := by
    have hperm := List.nodup_cons.1 (List.perm_middle.nodup_iff.1 hnodup)
    simpa using hperm.1
  have hnone : ∀ zs : List α, (∀ x' ∈ zs, x' ∈ before ++ x :: after) → x ∉ zs →
      (zs.flatMap f).filter p = [] := by
    intro zs hzs hnot
    refine List.filter_eq_nil_iff.2 fun y hy => ?_
    obtain ⟨x', hx', hy⟩ := List.mem_flatMap.1 hy
    simp [hother x' (hzs x' hx') (fun heq => hnot (heq ▸ hx')) y hy]
  rw [List.flatMap_append, List.flatMap_cons, List.filter_append, List.filter_append,
    hnone before (by simp +contextual) hbefore, hnone after (by simp +contextual) hafter,
    List.filter_eq_self.2 hself, List.nil_append, List.append_nil]

/-! ## First occurrences -/

section EraseDups

variable [BEq α] [LawfulBEq α] {xs xs' ys ys' : List α}

theorem eraseDups_concat (xs : List α) (x : α) :
    (xs ++ [x]).eraseDups = if x ∈ xs then xs.eraseDups else xs.eraseDups ++ [x] := by
  rw [List.eraseDups_append]
  split
  · next hx => simp [List.removeAll, hx]
  · next hx => simp [List.removeAll, hx, List.eraseDups_cons]

theorem eraseDups_filter (p : α → Bool) (xs : List α) :
    (xs.filter p).eraseDups = xs.eraseDups.filter p := by
  induction xs using List.reverseRecOn with
  | nil => rfl
  | append_singleton xs x ih =>
    rw [List.filter_append, eraseDups_concat]
    by_cases hp : p x = true
    · rw [List.filter_cons_of_pos hp, List.filter_nil, eraseDups_concat, ih]
      simp only [List.mem_filter, hp, and_true]
      split
      · rfl
      · rw [List.filter_append, List.filter_cons_of_pos hp, List.filter_nil]
    · rw [List.filter_cons_of_neg hp, List.filter_nil, List.append_nil, ih]
      split
      · rfl
      · rw [List.filter_append, List.filter_cons_of_neg hp, List.filter_nil, List.append_nil]

theorem eraseDups_eraseDups (xs : List α) : xs.eraseDups.eraseDups = xs.eraseDups := by
  induction xs using List.reverseRecOn with
  | nil => rfl
  | append_singleton xs x ih =>
    rw [eraseDups_concat]
    split
    · exact ih
    · next hx => rw [eraseDups_concat, if_neg (by rwa [List.mem_eraseDups]), ih]

/-- What comes first in two lists settles what comes first in the one that they make up. -/
theorem eraseDups_append_congr (hxs : xs.eraseDups = xs'.eraseDups)
    (hys : ys.eraseDups = ys'.eraseDups) : (xs ++ ys).eraseDups = (xs' ++ ys').eraseDups := by
  have hmem : ∀ x, xs.elem x = xs'.elem x := fun x => by
    rw [Bool.eq_iff_iff, List.elem_iff, List.elem_iff, ← List.mem_eraseDups, hxs,
      List.mem_eraseDups]
  rw [List.eraseDups_append, List.eraseDups_append, hxs, List.removeAll, List.removeAll,
    eraseDups_filter, eraseDups_filter, hys]
  simp only [hmem]

theorem eraseDups_flatMap {f g : β → List α} {bs : List β}
    (h : ∀ b ∈ bs, (f b).eraseDups = (g b).eraseDups) :
    (bs.flatMap f).eraseDups = (bs.flatMap g).eraseDups := by
  induction bs with
  | nil => rfl
  | cons b bs ih =>
    rw [List.forall_mem_cons] at h
    exact eraseDups_append_congr h.1 (ih h.2)

/-- The members that are left stand in the order of their first occurrences. -/
theorem pairwise_eraseDups (xs : List α) :
    xs.eraseDups.Pairwise fun x y => xs.idxOf x < xs.idxOf y := by
  induction xs using List.reverseRecOn with
  | nil => exact .nil
  | append_singleton xs x ih =>
    have hold : xs.eraseDups.Pairwise fun y z => (xs ++ [x]).idxOf y < (xs ++ [x]).idxOf z := by
      refine ih.imp_of_mem fun {y z} hy hz hlt => ?_
      rwa [List.idxOf_append_of_mem (List.mem_eraseDups.1 hy),
        List.idxOf_append_of_mem (List.mem_eraseDups.1 hz)]
    rw [eraseDups_concat]
    split
    · exact hold
    · next hx =>
      -- The last member is new, and comes after all others.
      refine List.pairwise_append.2 ⟨hold, List.pairwise_singleton _ _, fun y hy z hz => ?_⟩
      obtain rfl := List.mem_singleton.1 hz
      have hy := List.mem_eraseDups.1 hy
      rw [List.idxOf_append_of_mem hy, List.idxOf_append_of_notMem hx]
      exact Nat.lt_add_right _ (List.idxOf_lt_length_of_mem hy)

end EraseDups

/-! ## Lists that are related member by member -/

theorem forall₂_imp_left {R S : α → β → Prop} {xs : List α} {ys : List β}
    (h : ∀ x ∈ xs, ∀ y, R x y → S x y) (hxs : List.Forall₂ R xs ys) : List.Forall₂ S xs ys := by
  induction hxs with
  | nil => exact .nil
  | cons hxy _ ih =>
    rw [List.forall_mem_cons] at h
    exact .cons (h.1 _ hxy) (ih h.2)

theorem forall₂_congr_left {R S : α → β → Prop} {xs : List α} {ys : List β}
    (h : ∀ x ∈ xs, ∀ y, R x y ↔ S x y) : List.Forall₂ R xs ys ↔ List.Forall₂ S xs ys :=
  ⟨forall₂_imp_left fun x hx y => (h x hx y).1, forall₂_imp_left fun x hx y => (h x hx y).2⟩

/-- A list that is searched yields one result for each of its members that have one, in order. -/
theorem forall₂_filterMap {R : α → β → Prop} {f : α → Option β} {p : α → Prop} [DecidablePred p]
    {xs : List α} (hsome : ∀ x ∈ xs, ∀ y, f x = some y → p x ∧ R x y)
    (hnone : ∀ x ∈ xs, f x = none → ¬p x) : List.Forall₂ R (xs.filter p) (xs.filterMap f) := by
  induction xs with
  | nil => exact .nil
  | cons x xs ih =>
    rw [List.forall_mem_cons] at hsome hnone
    have ih := ih hsome.2 hnone.2
    cases hx : f x with
    | none =>
      rw [List.filter_cons_of_neg (by simpa using hnone.1 hx), List.filterMap_cons_none hx]
      exact ih
    | some y =>
      obtain ⟨hp, hR⟩ := hsome.1 y hx
      rw [List.filter_cons_of_pos (by simpa using hp), List.filterMap_cons_some hx]
      exact .cons hR ih

theorem exists_of_forall₂ {R : α → β → Prop} {xs : List α} {ys : List β} {x : α}
    (h : List.Forall₂ R xs ys) (hx : x ∈ xs) : ∃ y ∈ ys, R x y := by
  induction h with
  | nil => cases hx
  | @cons x' y' xs ys hxy _ ih =>
    rcases List.mem_cons.1 hx with rfl | hx
    · exact ⟨y', .head _, hxy⟩
    · obtain ⟨y, hy, h⟩ := ih hx
      exact ⟨y, .tail _ hy, h⟩

theorem exists_getElem?_of_forall₂ {R : α → β → Prop} {xs : List α} {ys : List β} {i : Nat} {x : α}
    (h : List.Forall₂ R xs ys) (hx : xs[i]? = some x) : ∃ y, ys[i]? = some y ∧ R x y := by
  induction h generalizing i with
  | nil => simp at hx
  | @cons x' y' xs ys hxy _ ih =>
    cases i with
    | zero =>
      obtain rfl := Option.some.inj hx
      exact ⟨y', rfl, hxy⟩
    | succ i => exact ih hx

/-- A list that is related to one with a marked member has a marked member of its own. -/
theorem exists_of_forall₂_append {R : α → β → Prop} {xs ys : List α} {x : α} {zs : List β}
    (h : List.Forall₂ R (xs ++ x :: ys) zs) :
    ∃ xs' x' ys', zs = xs' ++ x' :: ys' ∧ List.Forall₂ R xs xs' ∧ R x x' := by
  induction xs generalizing zs with
  | nil =>
    obtain _ | ⟨hx, -⟩ := h
    exact ⟨[], _, _, rfl, .nil, hx⟩
  | cons y xs ih =>
    obtain _ | ⟨hy, hrest⟩ := h
    obtain ⟨xs', x', ys', rfl, hxs, hx⟩ := ih hrest
    exact ⟨_ :: xs', x', ys', rfl, .cons hy hxs, hx⟩

/-- Members that are all related to something can be paired with what they are related to. -/
theorem exists_pairs {R : α → β → Prop} {xs : List α} (h : ∀ x ∈ xs, ∃ y, R x y) :
    ∃ ps : List (α × β), ps.map (·.1) = xs ∧ ∀ p ∈ ps, R p.1 p.2 := by
  induction xs with
  | nil => exact ⟨[], rfl, nofun⟩
  | cons x xs ih =>
    rw [List.forall_mem_cons] at h
    obtain ⟨y, hy⟩ := h.1
    obtain ⟨ps, hmap, hps⟩ := ih h.2
    exact ⟨(x, y) :: ps, congrArg (x :: ·) hmap, List.forall_mem_cons.2 ⟨hy, hps⟩⟩

/-- One of the pairs can be chosen freely. -/
theorem exists_pairs_mem {R : α → β → Prop} {xs : List α} {x : α} {y : β}
    (h : ∀ x ∈ xs, ∃ y, R x y) (hx : x ∈ xs) (hy : R x y) :
    ∃ ps : List (α × β), ps.map (·.1) = xs ∧ (∀ p ∈ ps, R p.1 p.2) ∧ (x, y) ∈ ps := by
  obtain ⟨before, after, rfl⟩ := List.append_of_mem hx
  rw [List.forall_mem_append, List.forall_mem_cons] at h
  obtain ⟨ps, rfl, hps⟩ := exists_pairs h.1
  obtain ⟨qs, rfl, hqs⟩ := exists_pairs h.2.2
  refine ⟨ps ++ (x, y) :: qs, by rw [List.map_append, List.map_cons], ?_,
    List.mem_append_right _ (.head _)⟩
  exact List.forall_mem_append.2 ⟨hps, List.forall_mem_cons.2 ⟨hy, hqs⟩⟩

/-- Parts of a list without repeats share no member. -/
theorem eq_of_nodup_flatMap {f : α → List β} {xs : List α} {x x' : α} {y : β}
    (h : (xs.flatMap f).Nodup) (hx : x ∈ xs) (hx' : x' ∈ xs) (hy : y ∈ f x) (hy' : y ∈ f x') :
    x = x' := by
  by_contra hne
  have : Std.Symm (Function.onFun List.Disjoint f) := ⟨fun _ _ => List.disjoint_symm⟩
  exact (List.nodup_flatMap.1 h).2.forall hx hx' hne hy hy'

/-! ## Loops that collect -/

section Collect

variable {σ : Type} {f : List β × σ → α → List β × σ} {g : σ → α → List β × σ}
  (hstep : ∀ ys s x, f (ys, s) x = (ys ++ (g s x).1, (g s x).2))

include hstep

/-- What a loop collects was there before or comes from a step. -/
theorem exists_of_mem_collect {xs : List α} {ys : List β} {s : σ} {y : β}
    (h : y ∈ (xs.foldl f (ys, s)).1) : y ∈ ys ∨ ∃ x ∈ xs, ∃ s, y ∈ (g s x).1 := by
  induction xs generalizing ys s with
  | nil => exact .inl h
  | cons x xs ih =>
    rw [List.foldl_cons, hstep] at h
    rcases ih h with hy | ⟨x', hx', hy⟩
    · rcases List.mem_append.1 hy with hy | hy
      · exact .inl hy
      · exact .inr ⟨x, .head _, s, hy⟩
    · exact .inr ⟨x', .tail _ hx', hy⟩

/-- A loop keeps what was there before and what each of its steps collects. -/
theorem collect_complete (xs : List α) (ys : List β) (s : σ) :
    (∀ y ∈ ys, y ∈ (xs.foldl f (ys, s)).1) ∧
    ∀ x ∈ xs, ∃ s', ∀ y ∈ (g s' x).1, y ∈ (xs.foldl f (ys, s)).1 := by
  induction xs generalizing ys s with
  | nil => exact ⟨fun y hy => hy, nofun⟩
  | cons x xs ih =>
    rw [List.foldl_cons, hstep]
    -- The rest of the loop keeps what its first step has collected.
    obtain ⟨hkeeps, hcollects⟩ := ih (ys ++ (g s x).1) (g s x).2
    refine ⟨fun y hy => hkeeps y (List.mem_append_left _ hy),
      List.forall_mem_cons.2 ⟨?_, hcollects⟩⟩
    exact ⟨s, fun y hy => hkeeps y (List.mem_append_right _ hy)⟩

end Collect

/-! ## Computations that may fail -/

theorem map_eq_ok_iff {x : Except ε α} {f : α → β} {b : β} :
    x.map f = .ok b ↔ ∃ a, x = .ok a ∧ f a = b := by
  cases x <;> simp [Except.map]

theorem map_eq_error_iff {x : Except ε α} {f : α → β} {e : ε} :
    x.map f = .error e ↔ x = .error e := by
  cases x <;> simp [Except.map]

theorem toOption_eq_some_iff {x : Except ε α} {a : α} : x.toOption = some a ↔ x = .ok a := by
  cases x <;> simp [Except.toOption]

theorem toOption_eq_none_iff {x : Except ε α} : x.toOption = none ↔ ∃ e, x = .error e := by
  cases x <;> simp [Except.toOption]

theorem mapError_eq_ok_iff {ε' : Type} {x : Except ε α} {f : ε → ε'} {a : α} :
    x.mapError f = .ok a ↔ x = .ok a := by
  cases x <;> simp [Except.mapError]

theorem mapError_eq_error_iff {ε' : Type} {x : Except ε α} {f : ε → ε'} {e : ε'} :
    x.mapError f = .error e ↔ ∃ e', x = .error e' ∧ f e' = e := by
  cases x <;> simp [Except.mapError]

theorem bind_eq_ok_iff {x : Except ε α} {f : α → Except ε β} {b : β} :
    (x >>= f) = .ok b ↔ ∃ a, x = .ok a ∧ f a = .ok b := by
  cases x with
  | error e => simp [bind, Except.bind]
  | ok a => simp [bind, Except.bind]

theorem bind_eq_error_iff {x : Except ε α} {f : α → Except ε β} {e : ε} :
    (x >>= f) = .error e ↔ x = .error e ∨ ∃ a, x = .ok a ∧ f a = .error e := by
  cases x with
  | error e => simp [bind, Except.bind]
  | ok a => simp [bind, Except.bind]

theorem exists_of_mapM_eq_error {f : α → Except ε β} {xs : List α} {e : ε}
    (h : xs.mapM f = .error e) : ∃ x ∈ xs, f x = .error e := by
  induction xs with
  | nil => cases h
  | cons x xs ih =>
    rw [List.mapM_cons, bind_eq_error_iff] at h
    rcases h with h | ⟨y, -, h⟩
    · exact ⟨x, .head _, h⟩
    · rcases bind_eq_error_iff.1 h with h | ⟨ys, -, h⟩
      · obtain ⟨x', hx', h⟩ := ih h
        exact ⟨x', .tail _ hx', h⟩
      · cases h

theorem mapM_isOk_iff {f : α → Except ε β} {xs : List α} :
    (∃ ys, xs.mapM f = .ok ys) ↔ ∀ x ∈ xs, ∃ y, f x = .ok y := by
  induction xs with
  | nil => exact iff_of_true ⟨[], rfl⟩ (by simp)
  | cons x xs ih =>
    rw [List.forall_mem_cons, ← ih, List.mapM_cons]
    simp only [bind_eq_ok_iff]
    constructor
    · rintro ⟨_, y, hy, ys, hys, -⟩
      exact ⟨⟨y, hy⟩, ys, hys⟩
    · rintro ⟨⟨y, hy⟩, ys, hys⟩
      exact ⟨y :: ys, y, hy, ys, hys, rfl⟩

theorem forM_eq_ok_iff {f : α → Except ε Unit} {xs : List α} :
    xs.forM f = .ok () ↔ ∀ x ∈ xs, f x = .ok () := by
  induction xs with
  | nil => exact iff_of_true rfl (by simp)
  | cons x xs ih =>
    rw [List.forall_mem_cons, ← ih, List.forM, bind_eq_ok_iff]
    exact ⟨fun ⟨_, hx, hxs⟩ => ⟨hx, hxs⟩, fun ⟨hx, hxs⟩ => ⟨_, hx, hxs⟩⟩

theorem mem_of_mapM_eq_ok {f : α → Except ε β} {xs : List α} {ys : List β}
    (h : xs.mapM f = .ok ys) {y : β} : y ∈ ys ↔ ∃ x ∈ xs, f x = .ok y := by
  induction xs generalizing ys with
  | nil =>
    obtain rfl := Except.ok.inj h
    simp
  | cons x xs ih =>
    rw [List.mapM_cons] at h
    obtain ⟨z, hz, h⟩ := bind_eq_ok_iff.1 h
    obtain ⟨zs, hzs, h⟩ := bind_eq_ok_iff.1 h
    obtain rfl := Except.ok.inj h
    simp [ih hzs, hz, eq_comm]

end Deduction
