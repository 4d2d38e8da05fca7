/-!
# Finite maps

A table maps finitely many keys to values. It is kept as a list of entries, the newest first, in
which every key occurs once.
-/

namespace Deduction

/-- A finite map from keys to values. -/
structure Table (κ ν : Type) where
  /-- The keys with their values, the newest first. -/
  entries : List (κ × ν)
  /-- Every key has one value. -/
  nodup : (entries.map (·.1)).Nodup

namespace Table

variable {κ ν : Type}

/-- The table without entries. -/
def empty : Table κ ν :=
  ⟨[], by simp⟩

/-- The number of keys. -/
def size (m : Table κ ν) : Nat :=
  m.entries.length

/-- The table has no entries. -/
def isEmpty (m : Table κ ν) : Bool :=
  m.entries.isEmpty

/-- The keys, the newest first. -/
def keys (m : Table κ ν) : List κ :=
  m.entries.map (·.1)

variable [DecidableEq κ]

/-- The value of a key. -/
def get? (m : Table κ ν) (k : κ) : Option ν :=
  m.entries.lookup k

/-- The key has a value. -/
def contains (m : Table κ ν) (k : κ) : Bool :=
  (m.get? k).isSome

/-- Gives a key a value, in place of its present one if it has one. -/
def insert (m : Table κ ν) (k : κ) (v : ν) : Table κ ν where
  entries := (k, v) :: m.entries.filter (·.1 ≠ k)
  nodup := by
    rw [List.map_cons, List.nodup_cons]
    exact ⟨by simp, m.nodup.sublist (List.filter_sublist.map _)⟩

/-- The table that results from inserting the entries of a list in order. -/
def ofList (entries : List (κ × ν)) : Table κ ν :=
  entries.foldl (fun m e => m.insert e.1 e.2) empty

@[simp]
theorem get?_empty (k : κ) : (empty : Table κ ν).get? k = none := rfl

theorem lookup_filter_ne {k l : κ} (h : l ≠ k) (entries : List (κ × ν)) :
    (entries.filter (·.1 ≠ k)).lookup l = entries.lookup l := by
  induction entries with
  | nil => rfl
  | cons e es ih =>
    obtain ⟨m, v⟩ := e
    by_cases hm : m = k
    · subst hm
      have : (l == m) = false := by simpa using h
      simpa [List.lookup_cons, this] using ih
    · simp only [List.lookup_cons, hm, decide_true, ne_eq, not_false_eq_true,
        List.filter_cons_of_pos]
      cases l == m <;> simp [← ih]

/-- An entry replaces what was known of its key, and nothing else. -/
theorem get?_insert (m : Table κ ν) (k l : κ) (v : ν) :
    (m.insert k v).get? l = if l = k then some v else m.get? l := by
  by_cases h : l = k
  · simp [get?, insert, h]
  · have : (l == k) = false := by simpa using h
    simp only [get?, insert, List.lookup_cons, this, h, if_false]
    exact lookup_filter_ne h _

theorem mem_of_lookup_eq_some {k : κ} {v : ν} {entries : List (κ × ν)}
    (h : entries.lookup k = some v) : (k, v) ∈ entries := by
  induction entries with
  | nil => simp at h
  | cons e es ih =>
    obtain ⟨l, w⟩ := e
    rw [List.lookup_cons] at h
    by_cases hk : k = l
    · simp_all
    · have : (k == l) = false := by simpa using hk
      simp only [this] at h
      exact .tail _ (ih h)

/-- A value that is looked up belongs to an entry. -/
theorem mem_of_get? {m : Table κ ν} {k : κ} {v : ν} (h : m.get? k = some v) :
    (k, v) ∈ m.entries :=
  mem_of_lookup_eq_some h

end Table

end Deduction
