/-!
# Counting distinct members

`List.eraseDups` keeps the first occurrence of every member of a list. Its length counts the
distinct members, and is the measure of procedures that run out of variables, predicates or nodes.
-/

namespace Deduction

namespace Distinct

variable {α : Type} [BEq α] [LawfulBEq α]

/-- No member is left twice. -/
theorem nodup_eraseDups : (xs : List α) → xs.eraseDups.Nodup
  | [] => by simp
  | x :: xs => by
    rw [List.eraseDups_cons, List.nodup_cons]
    exact ⟨by simp, nodup_eraseDups _⟩
termination_by xs => xs.length
decreasing_by
  simp only [List.length_cons]
  exact Nat.lt_succ_of_le (List.length_filter_le _ _)

/-- A list whose members all occur in another one, of which it misses a member, has fewer distinct
members. -/
theorem length_eraseDups_lt {xs ys : List α} {y : α} (sub : ∀ x ∈ xs, x ∈ ys) (mem : y ∈ ys)
    (not_mem : y ∉ xs) : xs.eraseDups.length < ys.eraseDups.length := by
  have nodup : (y :: xs.eraseDups).Nodup := by
    simpa [List.nodup_cons, not_mem] using nodup_eraseDups xs
  have subset : y :: xs.eraseDups ⊆ ys.eraseDups := by
    intro x hx
    simp only [List.mem_cons, List.mem_eraseDups] at hx ⊢
    rcases hx with rfl | hx
    · exact mem
    · exact sub x hx
  exact nodup.length_le_of_subset subset

end Distinct

end Deduction
