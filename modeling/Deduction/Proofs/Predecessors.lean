import Deduction.Predecessors
import Deduction.Proofs.Graph

/-!
# Predecessors stand for paths

The search that notes predecessors keeps pace with the search whose queue carries whole paths. The
nodes in the two queues are the same, and the way back from a node along its predecessors is the
path that stands in the other queue beside it (`FiniteGraph.Keeps`). So the two searches find the
target at the same time, or not at all, and with the same path
(`FiniteGraph.tracedPath?_eq_shortestPath?`).
-/

namespace Deduction

namespace FiniteGraph

variable {α : Type} [DecidableEq α] {g : FiniteGraph α} {nodes ws before unseen path : List α}
  {source target u v w : α} {s : Frontier α} {queue : List (α × List α)}
  {previous previous' : Table α α}

/-! ## Meeting successors -/

namespace Frontier

theorem mem_unmet : w ∈ s.unmet nodes ↔ w ∈ nodes ∧ s.previous.get? w = none := by
  simp [unmet]

theorem meetAll_cons (nodes : List α) (v w : α) (ws : List α) (s : Frontier α) :
    s.meetAll nodes v (w :: ws) = (s.meet nodes v w).meetAll nodes v ws := rfl

theorem unmet_meet (nodes : List α) (v w : α) (s : Frontier α) :
    (s.meet nodes v w).unmet nodes = others (s.unmet nodes) w := by
  rw [meet]
  split
  · exact unmet_insert ..
  · next hw =>
    refine (List.filter_eq_self.2 fun u hu => decide_eq_true ?_).symm
    exact fun heq => hw (heq ▸ hu)

/-- The nodes that are left are no successors. -/
theorem unmet_meetAll (nodes : List α) (v : α) (ws : List α) (s : Frontier α) :
    (s.meetAll nodes v ws).unmet nodes = (s.unmet nodes).filter (· ∉ ws) := by
  induction ws generalizing s with
  | nil => simp [meetAll]
  | cons w ws ih =>
    rw [meetAll_cons, ih, unmet_meet, others, List.filter_filter]
    exact List.filter_congr fun u _ => by simp [Bool.and_comm]

/-- The queue goes on with the successors that had not been met before. -/
theorem queue_meetAll (nodes : List α) (v : α) (ws : List α) (s : Frontier α) :
    (s.meetAll nodes v ws).queue = s.queue ++ (ws.filter (· ∈ s.unmet nodes)).eraseDups := by
  induction ws generalizing s with
  | nil => simp [meetAll]
  | cons w ws ih =>
    have hfilter : (ws.filter (· ∈ s.unmet nodes)).filter (!· == w) =
        ws.filter (· ∈ others (s.unmet nodes) w) := by
      rw [List.filter_filter]
      refine List.filter_congr fun u _ => ?_
      rw [Bool.eq_iff_iff]
      simp [mem_others, and_comm]
    rw [meetAll_cons, ih, unmet_meet]
    by_cases hw : w ∈ s.unmet nodes
    · -- The node is not met a second time.
      rw [List.filter_cons_of_pos (by simpa using hw), List.eraseDups_cons, hfilter, meet, if_pos hw,
        List.append_assoc, List.singleton_append]
    · have hothers : others (s.unmet nodes) w = s.unmet nodes := by
        rw [← unmet_meet nodes v, meet, if_neg hw]
      rw [List.filter_cons_of_neg (by simpa using hw), hothers, meet, if_neg hw]

/-- The successors that had not been met before have the node as their predecessor. -/
theorem get?_meetAll (nodes : List α) (v : α) (ws : List α) (s : Frontier α) (u : α) :
    (s.meetAll nodes v ws).previous.get? u =
      if u ∈ s.unmet nodes ∧ u ∈ ws then some v else s.previous.get? u := by
  induction ws generalizing s with
  | nil => simp [meetAll]
  | cons w ws ih =>
    have hmem : u ∈ (s.meet nodes v w).unmet nodes ↔ u ∈ s.unmet nodes ∧ u ≠ w := by
      rw [unmet_meet, mem_others]
    rw [meetAll_cons, ih]
    simp only [hmem, List.mem_cons]
    rw [meet]
    by_cases hu : u = w
    · subst hu
      by_cases hw : u ∈ s.unmet nodes <;> simp [hw, Table.get?_insert]
    · by_cases hw : w ∈ s.unmet nodes <;> simp [hu, hw, Table.get?_insert]

theorem get?_meetAll_of_get? (h : s.previous.get? w = some u) :
    (s.meetAll nodes v ws).previous.get? w = some u := by
  rw [get?_meetAll, if_neg, h]
  rintro ⟨hw, -⟩
  simp [(mem_unmet.1 hw).2] at h

end Frontier

/-! ## The way back -/

/-- The way back from a node to the source, along the predecessors. -/
inductive WayBack (previous : Table α α) (source : α) : α → List α → Prop
  | source : WayBack previous source source []
  | step {v u : α} {before : List α} : v ≠ source → previous.get? v = some u →
      WayBack previous source u before → WayBack previous source v (u :: before)

/-- Further predecessors leave the ways back as they are. -/
theorem WayBack.mono (h : WayBack previous source v before)
    (hkeeps : ∀ w u, previous.get? w = some u → previous'.get? w = some u) :
    WayBack previous' source v before := by
  induction h with
  | source => exact .source
  | step hne hprevious _ ih => exact .step hne (hkeeps _ _ hprevious) ih

theorem WayBack.meetAll (h : WayBack s.previous source u before) :
    WayBack (s.meetAll nodes v ws).previous source u before :=
  h.mono fun _ _ => Frontier.get?_meetAll_of_get?

/-- A node that is met has a way back through the node from which it is met. -/
theorem WayBack.meet (h : WayBack s.previous source v before) (hw : w ∈ s.unmet nodes)
    (hedge : w ∈ ws) (hne : w ≠ source) :
    WayBack (s.meetAll nodes v ws).previous source w (v :: before) := by
  refine .step hne ?_ h.meetAll
  rw [Frontier.get?_meetAll, if_pos ⟨hw, hedge⟩]

theorem WayBack.walkBack_eq (h : WayBack previous source v before) {n : Nat}
    (hlength : before.length ≤ n) (path : List α) :
    walkBack previous source n v path = some (before.reverse ++ path) := by
  induction h generalizing n path with
  | source => cases n <;> simp [walkBack]
  | @step v u before hne hprevious _ ih =>
    obtain ⟨n, rfl⟩ : ∃ m, n = m + 1 := Nat.exists_eq_add_of_le' (Nat.one_le_of_lt hlength)
    simp only [walkBack, if_neg hne, hprevious]
    rw [ih (Nat.le_of_succ_le_succ hlength), List.reverse_cons, List.append_assoc,
      List.singleton_append]

theorem walkBack_eq_none (hne : v ≠ source) (h : previous.get? v = none) (n : Nat) :
    walkBack previous source n v path = none := by
  cases n <;> simp [walkBack, hne, h]

/-! ## The two searches -/

/-- A search by predecessors has come as far as one whose queue carries paths. -/
structure Keeps (nodes : List α) (source target : α) (s : Frontier α) (unseen : List α)
    (queue : List (α × List α)) : Prop where
  nodes_queue : s.queue = queue.map (·.1)
  unmet_eq : s.unmet nodes = unseen
  /-- The paths are the ways back. -/
  back : ∀ e ∈ queue, WayBack s.previous source e.1 e.2
  /-- There are enough nodes left for the steps that the paths may still grow by. -/
  length_le : ∀ e ∈ queue, e.2.length + unseen.length ≤ nodes.length
  /-- Once the target has been met, it waits in the queue. -/
  target_waits : target ∈ s.queue ∨ target ≠ source ∧ s.previous.get? target = none

theorem Keeps.start (nodes : List α) (source target : α) :
    Keeps nodes source target (.start source) nodes [(source, [])] where
  nodes_queue := rfl
  unmet_eq := by simp [Frontier.unmet, Frontier.start]
  back := by simpa using WayBack.source
  length_le := by simp
  target_waits := by
    by_cases h : target = source
    · exact .inl (by simp [Frontier.start, h])
    · exact .inr ⟨h, rfl⟩

section Steps

variable (hnodes : source ∉ nodes)

include hnodes

/-- Searching from the first node of the queue brings both searches on by the same nodes. -/
theorem Keeps.advance
    (h : Keeps nodes source target ⟨s.previous, v :: s.queue⟩ unseen ((v, before) :: queue))
    (hv : v ≠ target) :
    Keeps nodes source target (s.meetAll nodes v (g.successors v)) (g.unseenOthers unseen v)
      (queue ++ (g.unseenSuccessors unseen v).map (·, v :: before)) := by
  have hwaiting : s.queue = queue.map (·.1) := (List.cons.inj h.nodes_queue).2
  have hunseen : s.unmet nodes = unseen := h.unmet_eq
  have hqueue := s.queue_meetAll nodes v (g.successors v)
  have hunmet := s.unmet_meetAll nodes v (g.successors v)
  rw [hunseen] at hqueue hunmet
  -- The new entries are the unseen successors, each with the path to the node before it.
  have hsplit : ∀ {P : α × List α → Prop}, (∀ e ∈ queue, P e) →
      (∀ w ∈ unseen, w ∈ g.successors v → P (w, v :: before)) →
      ∀ e ∈ queue ++ (g.unseenSuccessors unseen v).map (·, v :: before), P e := by
    intro P hold hnew
    refine List.forall_mem_append.2 ⟨hold, List.forall_mem_map.2 fun w hw => ?_⟩
    obtain ⟨hedge, hmem⟩ : w ∈ g.successors v ∧ w ∈ unseen := by
      simpa [unseenSuccessors] using hw
    exact hnew w hmem hedge
  refine ⟨?_, hunmet, hsplit (fun e he => ?_) fun w hw hedge => ?_,
    hsplit (fun e he => ?_) fun w hw hedge => ?_, ?_⟩
  · simp [hqueue, hwaiting, unseenSuccessors, Function.comp_def]
  · exact WayBack.meetAll (h.back e (.tail _ he))
  · have hmem := hunseen ▸ hw
    refine WayBack.meet (h.back _ (.head _)) hmem hedge ?_
    rintro rfl
    exact hnodes (Frontier.mem_unmet.1 hmem).1
  · have hle := g.length_unseenOthers_add_le unseen v
    have := h.length_le e (.tail _ he)
    omega
  · have hle := g.length_unseenOthers_add_le unseen v
    have hlength : before.length + unseen.length ≤ nodes.length :=
      h.length_le (v, before) (.head _)
    have hnext : w ∈ g.unseenSuccessors unseen v := by simp [unseenSuccessors, hw, hedge]
    have := List.length_pos_of_mem hnext
    simp only [List.length_cons]
    omega
  · -- The target may be one of the nodes that have just been met.
    rw [hqueue, Frontier.get?_meetAll, hunseen, List.mem_append, List.mem_eraseDups,
      List.mem_filter, decide_eq_true_iff]
    by_cases hmet : target ∈ unseen ∧ target ∈ g.successors v
    · exact .inl (.inr hmet.symm)
    · rw [if_neg hmet]
      refine h.target_waits.imp_left fun hmem => .inl ?_
      exact (List.mem_cons.1 hmem).resolve_left hv.symm

/-- The way back from the target is the path that the other search returns. -/
theorem Keeps.walkBack_eq (h : Keeps nodes source target s unseen queue) :
    walkBack (g.findPredecessors nodes target s) source nodes.length target [target] =
      g.searchPath target unseen queue := by
  fun_induction searchPath g target unseen queue generalizing s with
  | case1 unseen =>
    obtain ⟨previous, waiting⟩ := s
    obtain rfl : waiting = [] := h.nodes_queue
    rw [findPredecessors]
    obtain ⟨hne, hnone⟩ := h.target_waits.resolve_left (by simp)
    exact walkBack_eq_none hne hnone _
  | case2 unseen before queue =>
    obtain ⟨previous, waiting⟩ := s
    obtain rfl : waiting = target :: queue.map (·.1) := h.nodes_queue
    rw [findPredecessors, if_pos rfl, List.reverse_cons]
    have hlength : before.length ≤ nodes.length :=
      Nat.le_of_add_right_le (h.length_le (target, before) (.head _))
    exact (h.back (target, before) (.head _)).walkBack_eq hlength [target]
  | case3 unseen v before queue hv next =>
    rename_i ih
    obtain ⟨previous, waiting⟩ := s
    obtain rfl : waiting = v :: queue.map (·.1) := h.nodes_queue
    rw [findPredecessors, if_neg hv]
    exact ih (h.advance hnodes hv)

end Steps

/-- The search by predecessors finds the path that the search with whole paths finds. -/
theorem tracedPath?_eq_shortestPath? (g : FiniteGraph α) (within : List α) (source target : α) :
    g.tracedPath? within source target = g.shortestPath? within source target := by
  have hnodes : source ∉ others within source := fun h => (mem_others.1 h).2 rfl
  exact (Keeps.start (others within source) source target).walkBack_eq hnodes

-- There are two shortest paths, and the one through the first successor is found.
example : FiniteGraph.tracedPath?
    ⟨[0, 1, 2, 3], fun v => if v = 0 then [1, 2] else [3, 0]⟩ [0, 1, 2, 3] 0 3 =
      some [0, 1, 3] := by
  decide +kernel

end FiniteGraph

end Deduction
