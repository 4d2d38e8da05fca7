import Mathlib.Data.List.Infix
import Mathlib.Data.List.Basic
import Deduction.LowLink
import Deduction.Proofs.Graph

/-!
# Correctness of the search by low links

`FiniteGraph.lowLinkComponents_spec`: the search by low links lists the components of a graph, each
of them after those to which its edges lead, and its list is that of `FiniteGraph.components`.

What carries the proof is the shape of the node stack. A node on the work stack has above itself, up
to the next node of the work stack, those that the search has left behind without knowing their
component yet: the stack is divided into segments (`LowLinks.Spine`). A segment is connected with
the node on which it stands, and the edges that leave it are accounted for in the low link of that
node (`LowLinks.IsFrame`). When the search finishes with a node, its segment either belongs to the
node that waits below, or nothing leads out of it to the stack and it is a component.

The search enters and leaves the nodes in the same order as `FiniteGraph.search`, which settles the
order of the components.
-/

namespace Deduction

namespace FiniteGraph

variable {α : Type} [DecidableEq α]

/-! ## Classes of mutual reachability -/

section Classes

/-- Each of two nodes of a graph is found by a search from the other. -/
def linked (g : FiniteGraph α) : α → α → Bool :=
  connected (g.nodes.map fun u => (u, g.reachable u))

/-- The nodes that are connected with one of them, in the order of the graph. -/
def classOf (g : FiniteGraph α) (v : α) : List α :=
  g.nodes.filter (g.linked v)

variable {g : FiniteGraph α}

theorem linked_iff {v w : α} :
    g.linked v w = true ↔ v ∈ g.nodes ∧ w ∈ g.nodes ∧ g.Connected v w :=
  connected_iff

theorem linked_self {v : α} (hv : v ∈ g.nodes) : g.linked v v = true :=
  linked_iff.2 ⟨hv, hv, .refl v⟩

theorem linked_symm {v w : α} (h : g.linked v w = true) : g.linked w v = true :=
  have ⟨hv, hw, hvw⟩ := linked_iff.1 h
  linked_iff.2 ⟨hw, hv, hvw.symm⟩

theorem linked_trans {u v w : α} (huv : g.linked u v = true) (hvw : g.linked v w = true) :
    g.linked u w = true := by
  rw [linked_iff] at huv hvw ⊢
  exact ⟨huv.1, hvw.2.1, huv.2.2.trans hvw.2.2⟩

theorem components_eq_map_classOf :
    g.components = (lastOfEach g.linked g.finishOrder).map g.classOf :=
  rfl

omit [DecidableEq α] in
/-- A new last member takes the place of those in its class. -/
theorem lastOfEach_concat (same : α → α → Bool) (xs : List α) (x : α) :
    lastOfEach same (xs ++ [x]) = (lastOfEach same xs).filter (fun y => !same y x) ++ [x] := by
  induction xs with
  | nil => simp [lastOfEach]
  | cons y ys ih =>
    rw [List.cons_append, lastOfEach, lastOfEach, ih, List.any_append]
    cases hys : ys.any (same y) <;> cases hyx : same y x <;> simp [hyx]

omit [DecidableEq α] in
theorem lastOfEach_sublist (same : α → α → Bool) (xs : List α) :
    (lastOfEach same xs).Sublist xs := by
  induction xs with
  | nil => exact .slnil
  | cons x xs ih =>
    rw [lastOfEach]
    split
    · exact ih.cons x
    · exact ih.cons_cons x

omit [DecidableEq α] in
theorem pairwise_lastOfEach (same : α → α → Bool) (xs : List α) :
    (lastOfEach same xs).Pairwise fun x y => same x y = false := by
  induction xs with
  | nil => exact .nil
  | cons x xs ih =>
    rw [lastOfEach]
    split
    · exact ih
    · next hany =>
      refine .cons (fun y hy => ?_) ih
      simp only [Bool.not_eq_true, List.any_eq_false] at hany
      simpa using hany y ((lastOfEach_sublist same xs).subset hy)

theorem ne_nil_of_mem_components {c : List α} (hc : c ∈ g.components) : c ≠ [] := by
  rw [components_eq_map_classOf] at hc
  obtain ⟨v, hv, rfl⟩ := List.mem_map.1 hc
  have hv := mem_finishOrder.1 ((lastOfEach_sublist _ _).subset hv)
  exact List.ne_nil_of_mem (List.mem_filter.2 ⟨hv, linked_self hv⟩)

/-- Different components have no node in common. -/
theorem pairwise_disjoint_components (g : FiniteGraph α) :
    g.components.Pairwise List.Disjoint := by
  rw [components_eq_map_classOf, List.pairwise_map]
  refine (pairwise_lastOfEach g.linked g.finishOrder).imp fun {u v} huv w hu hv => ?_
  have hlinked : g.linked u v = true :=
    linked_trans (List.mem_filter.1 hu).2 (linked_symm (List.mem_filter.1 hv).2)
  simp [hlinked] at huv

end Classes

namespace LowLinks

/-! ## What a step changes -/

section Steps

variable (s : LowLinks α) (v u : α) (n : Nat)

theorem indexOf_enter : (s.enter v).indexOf u = if u = v then s.next else s.indexOf u := by
  unfold indexOf enter
  rw [Table.get?_insert]
  split <;> rfl

theorem lowOf_enter : (s.enter v).lowOf u = if u = v then s.next else s.lowOf u := by
  unfold lowOf enter
  rw [Table.get?_insert]
  split <;> rfl

@[simp]
theorem stack_enter : (s.enter v).stack = v :: s.stack := rfl

@[simp]
theorem components_enter : (s.enter v).components = s.components := rfl

theorem lowOf_lower :
    (s.lower v n).lowOf u = if u = v then min (s.lowOf v) n else s.lowOf u := by
  rw [lowOf, lower, Table.get?_insert]
  split <;> rfl

theorem close_of_ne {s : LowLinks α} {v : α} (nodes : List α) (h : s.lowOf v ≠ s.indexOf v) :
    s.close nodes v = s :=
  if_neg h

theorem close_of_eq {s : LowLinks α} {v : α} {seg below : List α} (nodes : List α)
    (h : s.lowOf v = s.indexOf v) (hstack : s.stack = seg ++ v :: below) (hv : v ∉ seg) :
    s.close nodes v =
      { s with
        stack := below
        components := s.components ++ [nodes.filter (· ∈ seg ++ [v])] } := by
  have hseg : ∀ u ∈ seg, decide (u ≠ v) = true := fun u hu => by
    simpa using fun huv : u = v => hv (huv ▸ hu)
  rw [close, if_pos h, hstack, List.takeWhile_append_of_pos hseg,
    List.dropWhile_append_of_pos hseg]
  simp

end Steps

/-! ## The segments of the stack -/

/-- A node that has been entered. If it is one of those below `v` on the stack, then its number bounds
the low link of `v`. -/
def Seen (s : LowLinks α) (v : α) (below : List α) (w : α) : Prop :=
  w ∉ s.unseen ∧ (w ∈ below → s.lowOf v ≤ s.indexOf w)

/-- What is known of a node on the work stack, of the successors `ws` that it has not tried, of the
segment that stands on it and of the stack below it. -/
structure IsFrame (g : FiniteGraph α) (s : LowLinks α) (v : α) (ws seg below : List α) : Prop where
  tried : ∃ us, g.successors v = us ++ ws ∧ ∀ w ∈ us, Seen s v below w
  connected : ∀ u ∈ seg, g.Connected v u
  closed : ∀ u ∈ seg, ∀ w ∈ g.successors u, Seen s v below w
  low_le : s.lowOf v ≤ s.indexOf v
  low : ∃ t ∈ v :: below, g.Reaches v t ∧ s.lowOf v = s.indexOf t

/-- The nodes of the work stack divide the stack into segments, and each of them has been entered
from the next one. -/
inductive Spine (g : FiniteGraph α) (s : LowLinks α) : List (α × List α) → List α → Prop
  | nil : Spine g s [] []
  | cons {v : α} {ws seg below : List α} {work : List (α × List α)}
      (frame : IsFrame g s v ws seg below) (entered : ∀ parent ∈ work.head?, g.Edge parent.1 v)
      (spine : Spine g s work below) : Spine g s ((v, ws) :: work) (seg ++ v :: below)

/-- The numbers on the stack decrease from the top. -/
def Numbered (s : LowLinks α) (stack : List α) : Prop :=
  stack.Pairwise fun u w => s.indexOf w < s.indexOf u

/-- Nothing that is known of the nodes of the stack has changed. -/
structure Agrees (s s' : LowLinks α) (stack : List α) : Prop where
  unseen : ∀ u ∈ s'.unseen, u ∈ s.unseen
  index : ∀ u ∈ stack, s'.indexOf u = s.indexOf u
  low : ∀ u ∈ stack, s'.lowOf u = s.lowOf u

section Spine

variable {g : FiniteGraph α} {s s' : LowLinks α} {v w t : α} {ws seg below stack : List α}
  {work : List (α × List α)}

theorem Numbered.lt_of_mem_below (h : Numbered s (seg ++ v :: below)) (hw : w ∈ below) :
    s.indexOf w < s.indexOf v :=
  (List.pairwise_cons.1 (List.pairwise_append.1 h).2.1).1 w hw

theorem Numbered.lt_of_mem_seg (h : Numbered s (seg ++ v :: below)) (hw : w ∈ seg) :
    s.indexOf v < s.indexOf w :=
  (List.pairwise_append.1 h).2.2 w hw v (.head _)

theorem Numbered.notMem_of_mem_below (h : Numbered s (seg ++ v :: below)) (hw : w ∈ below) :
    w ∉ seg ++ [v] := by
  have hlt := h.lt_of_mem_below hw
  intro hmem
  rcases List.mem_append.1 hmem with hmem | hmem
  · exact hlt.asymm (h.lt_of_mem_seg hmem)
  · obtain rfl := List.mem_singleton.1 hmem
    exact hlt.false

theorem Numbered.tail (h : Numbered s (seg ++ v :: below)) : Numbered s below :=
  (List.pairwise_cons.1 (List.pairwise_append.1 h).2.1).2

theorem Agrees.mono (h : Agrees s s' stack) (hsub : ∀ u ∈ below, u ∈ stack) : Agrees s s' below :=
  ⟨h.unseen, fun u hu => h.index u (hsub u hu), fun u hu => h.low u (hsub u hu)⟩

/-- A low link that has become lower keeps accounting for an edge. -/
theorem Seen.mono {v' : α} {below' : List α} (h : Seen s v below w)
    (hunseen : ∀ u ∈ s'.unseen, u ∈ s.unseen) (hindex : ∀ u ∈ below, s'.indexOf u = s.indexOf u)
    (hlow : s'.lowOf v' ≤ s.lowOf v) (hbelow : ∀ u ∈ below', u ∈ below) : Seen s' v' below' w := by
  refine ⟨fun hw => h.1 (hunseen w hw), fun hw => ?_⟩
  rw [hindex w (hbelow w hw)]
  exact hlow.trans (h.2 (hbelow w hw))

/-- A frame allows its node a lower low link, if that is the number of a node on the stack which can
be reached from it. -/
theorem IsFrame.mono (h : IsFrame g s v ws seg below) (hunseen : ∀ u ∈ s'.unseen, u ∈ s.unseen)
    (hindex : ∀ u ∈ v :: below, s'.indexOf u = s.indexOf u) (hle : s'.lowOf v ≤ s.lowOf v)
    (hlow : ∃ t ∈ v :: below, g.Reaches v t ∧ s'.lowOf v = s.indexOf t) :
    IsFrame g s' v ws seg below := by
  have hseen : ∀ w, Seen s v below w → Seen s' v below w := fun w hw =>
    hw.mono hunseen (fun u hu => hindex u (.tail _ hu)) hle fun _ => id
  obtain ⟨us, hus, htried⟩ := h.tried
  obtain ⟨t, ht, hreach, hlow⟩ := hlow
  refine ⟨⟨us, hus, fun w hw => hseen w (htried w hw)⟩, h.connected,
    fun u hu w hw => hseen w (h.closed u hu w hw), ?_, t, ht, hreach, ?_⟩
  · rw [hindex v (.head _)]
    exact hle.trans h.low_le
  · rw [hlow, hindex t ht]

theorem IsFrame.congr (h : IsFrame g s v ws seg below) (hunseen : ∀ u ∈ s'.unseen, u ∈ s.unseen)
    (hindex : ∀ u ∈ v :: below, s'.indexOf u = s.indexOf u) (hlow : s'.lowOf v = s.lowOf v) :
    IsFrame g s' v ws seg below :=
  h.mono hunseen hindex hlow.le (hlow ▸ h.low)

/-- The low link of a node may be lowered to the number of a node that can be reached from it, if
that node is on the stack or has a larger number than itself. -/
theorem IsFrame.lower (h : IsFrame g s v ws seg below) (hreach : g.Reaches v t)
    (ht : t ∈ v :: below ∨ s.indexOf v < s.indexOf t) :
    IsFrame g (s.lower v (s.indexOf t)) v ws seg below := by
  have hlow : (s.lower v (s.indexOf t)).lowOf v = min (s.lowOf v) (s.indexOf t) := by
    rw [lowOf_lower, if_pos rfl]
  refine h.mono (fun _ => id) (fun _ _ => rfl) (hlow ▸ min_le_left _ _) ?_
  rw [hlow]
  rcases le_or_gt (s.lowOf v) (s.indexOf t) with hle | hlt
  · rw [min_eq_left hle]
    exact h.low
  -- A number that is below the low link is below that of the node itself.
  · rw [min_eq_right hlt.le]
    exact ⟨t, ht.resolve_right (hlt.trans_le h.low_le).asymm, hreach, rfl⟩

theorem IsFrame.connected_of_mem (h : IsFrame g s v ws seg below) :
    ∀ u ∈ seg ++ [v], g.Connected v u := by
  intro u hu
  rcases List.mem_append.1 hu with hu | hu
  · exact h.connected u hu
  · obtain rfl := List.mem_singleton.1 hu
    exact .refl u

/-- When all successors of a node have been tried, the low link accounts for the edges that leave it
and its segment. -/
theorem IsFrame.seen_of_mem (h : IsFrame g s v [] seg below) :
    ∀ u ∈ seg ++ [v], ∀ w ∈ g.successors u, Seen s v below w := by
  intro u hu w hw
  rcases List.mem_append.1 hu with hu | hu
  · exact h.closed u hu w hw
  · obtain rfl := List.mem_singleton.1 hu
    obtain ⟨us, hus, htried⟩ := h.tried
    exact htried w (by simpa [hus] using hw)

theorem Spine.congr (h : Spine g s work stack) (hs : Agrees s s' stack) :
    Spine g s' work stack := by
  induction h with
  | nil => exact .nil
  | @cons v ws seg below work frame entered _ ih =>
    have hbelow : Agrees s s' (v :: below) := hs.mono fun u hu => List.mem_append_right seg hu
    exact .cons (frame.congr hs.unseen hbelow.index (hbelow.low v (.head _))) entered
      (ih (hbelow.mono fun u => .tail v))

theorem Spine.exists_frame (h : Spine g s ((v, ws) :: work) stack) :
    ∃ seg below, stack = seg ++ v :: below ∧ IsFrame g s v ws seg below ∧
      (∀ parent ∈ work.head?, g.Edge parent.1 v) ∧ Spine g s work below := by
  cases h with
  | cons frame entered spine => exact ⟨_, _, rfl, frame, entered, spine⟩

theorem Spine.mem_stack (h : Spine g s ((v, ws) :: work) stack) : v ∈ stack := by
  obtain ⟨seg, below, rfl, -⟩ := h.exists_frame
  simp

/-- The top of the work stack can be reached from the whole stack. -/
theorem Spine.reaches_top (h : Spine g s work stack) :
    ∀ u ∈ stack, ∃ frame ∈ work.head?, g.Reaches u frame.1 := by
  induction h with
  | nil => simp
  | @cons v ws seg below work frame entered _ ih =>
    intro u hu
    refine ⟨(v, ws), rfl, ?_⟩
    simp only [List.mem_append, List.mem_cons] at hu
    rcases hu with hu | rfl | hu
    · exact (frame.connected u hu).2
    · exact .refl
    · obtain ⟨parent, hparent, hreach⟩ := ih u hu
      exact hreach.tail (entered parent hparent)

/-- A successor has been tried when it has been entered and the low link knows of it. -/
theorem Spine.advance (h : Spine g s ((v, w :: ws) :: work) stack) (hunseen : w ∉ s.unseen)
    (hlow : w ∈ stack → s.lowOf v ≤ s.indexOf w) : Spine g s ((v, ws) :: work) stack := by
  obtain ⟨seg, below, rfl, frame, entered, spine⟩ := h.exists_frame
  obtain ⟨us, hus, htried⟩ := frame.tried
  refine .cons { frame with tried := ⟨us ++ [w], by simp [hus], fun u hu => ?_⟩ } entered spine
  rcases List.mem_append.1 hu with hu | hu
  · exact htried u hu
  · obtain rfl := List.mem_singleton.1 hu
    exact ⟨hunseen, fun hmem => hlow (by simp [hmem])⟩

theorem Spine.lower (h : Spine g s ((v, ws) :: work) stack) (hnum : Numbered s stack)
    (hreach : g.Reaches v t) (ht : t ∈ stack ∨ s.indexOf v < s.indexOf t) :
    Spine g (s.lower v (s.indexOf t)) ((v, ws) :: work) stack := by
  obtain ⟨seg, below, rfl, frame, entered, spine⟩ := h.exists_frame
  -- The nodes of the segment have larger numbers than the node on which it stands.
  have ht : t ∈ v :: below ∨ s.indexOf v < s.indexOf t := by
    rcases ht with ht | ht
    · exact (List.mem_append.1 ht).symm.imp_right hnum.lt_of_mem_seg
    · exact .inr ht
  refine .cons (frame.lower hreach ht) entered (spine.congr ⟨fun _ => id, fun _ _ => rfl, ?_⟩)
  intro u hu
  rw [lowOf_lower, if_neg]
  rintro rfl
  exact (hnum.lt_of_mem_below hu).false

/-- The node below takes over the low link of the top, which it reaches through it. -/
theorem Spine.passUp {p : α} {ps : List α} (h : Spine g s ((p, ps) :: work) below)
    (hnum : Numbered s (seg ++ v :: below)) (frame : IsFrame g s v ws seg below)
    (hedge : g.Edge p v) : Spine g (s.lower p (s.lowOf v)) ((p, ps) :: work) below := by
  obtain ⟨t, ht, hreach, hlow⟩ := frame.low
  rw [hlow]
  refine h.lower hnum.tail (.head hedge hreach) ?_
  rcases List.mem_cons.1 ht with rfl | ht
  · exact .inr (hnum.lt_of_mem_below h.mem_stack)
  · exact .inl ht

/-- A node whose low link is not its own number joins the segment of the node below, together with
its own segment. -/
theorem Spine.absorb (h : Spine g s work below) (frame : IsFrame g s v [] seg below)
    (entered : ∀ parent ∈ work.head?, g.Edge parent.1 v)
    (hlow : ∀ parent ∈ work.head?, s.lowOf parent.1 ≤ s.lowOf v)
    (hne : s.lowOf v ≠ s.indexOf v) : Spine g s work (seg ++ v :: below) := by
  obtain ⟨t, ht, hreach, hindex⟩ := frame.low
  have ht : t ∈ below := by
    refine (List.mem_cons.1 ht).resolve_left ?_
    rintro rfl
    exact hne hindex
  obtain ⟨parent, hparent, htop⟩ := h.reaches_top t ht
  cases h with
  | nil => cases ht
  | @cons p ps seg' below' work' frame' entered' spine' =>
    obtain rfl := Option.some.inj hparent
    -- The way back leads down to the node that the low link names, and up the work stack from there.
    have hpv : g.Connected p v := ⟨.single (entered _ rfl), hreach.trans htop⟩
    have hseen : ∀ w, Seen s v (seg' ++ p :: below') w → Seen s p below' w := fun w hw =>
      hw.mono (fun _ => id) (fun _ _ => rfl) (hlow _ rfl) (by simp +contextual)
    have hframe : IsFrame g s p ps (seg ++ [v] ++ seg') below' := by
      refine { frame' with connected := fun u hu => ?_, closed := fun u hu w hw => ?_ }
      · rcases List.mem_append.1 hu with hu | hu
        · exact hpv.trans (frame.connected_of_mem u hu)
        · exact frame'.connected u hu
      · rcases List.mem_append.1 hu with hu | hu
        · exact hseen w (frame.seen_of_mem u hu w hw)
        · exact frame'.closed u hu w hw
    simpa using Spine.cons hframe entered' spine'

end Spine

/-! ## What a search preserves -/

/-- What holds of a search and of the nodes that it has finished with. -/
structure Invariant (g : FiniteGraph α) (s : LowLinks α) (work : List (α × List α))
    (finished : List α) : Prop where
  spine : Spine g s work s.stack
  numbered : Numbered s s.stack
  index_lt : ∀ u ∈ s.stack, s.indexOf u < s.next
  mem_nodes : ∀ u, u ∈ g.nodes ↔ u ∈ s.unseen ∨ u ∈ s.stack ∨ u ∈ s.components.flatten
  pending : ∀ u ∈ s.stack, u ∉ s.unseen ∧ u ∉ s.components.flatten
  emitted : ∀ u ∈ s.components.flatten, u ∉ s.unseen
  /-- No edge leads out of the components that are complete at some time. -/
  closed : ∀ done, done <+: s.components → ∀ u ∈ done.flatten, ∀ w, g.Edge u w → w ∈ done.flatten
  /-- The components come in the order in which the search finishes with their last members. -/
  listed : s.components =
    ((lastOfEach g.linked finished.reverse).filter (· ∈ s.components.flatten)).map g.classOf

namespace Invariant

variable {g : FiniteGraph α} {s : LowLinks α} {v w : α} {ws : List α} {work : List (α × List α)}
  {finished : List α}

theorem start (g : FiniteGraph α) : Invariant g (.start g.nodes) [] [] where
  spine := .nil
  numbered := .nil
  index_lt := by simp [LowLinks.start]
  mem_nodes := by simp [LowLinks.start]
  pending := by simp [LowLinks.start]
  emitted := by simp [LowLinks.start]
  closed := by simp [LowLinks.start]
  listed := rfl

theorem mem_nodes_of_mem_stack (h : Invariant g s work finished) (hv : v ∈ s.stack) :
    v ∈ g.nodes :=
  (h.mem_nodes v).2 (.inr (.inl hv))

theorem mem_emitted_of_reaches (h : Invariant g s work finished)
    (hv : v ∈ s.components.flatten) (hreach : g.Reaches v w) : w ∈ s.components.flatten := by
  induction hreach with
  | refl => exact hv
  | tail _ hedge ih => exact h.closed _ List.prefix_rfl _ ih _ hedge

/-- A node whose component is complete is not connected with one on the stack. -/
theorem not_linked (h : Invariant g s work finished) (hv : v ∈ s.components.flatten)
    (hw : w ∈ s.stack) : g.linked v w = false := by
  rw [← Bool.not_eq_true, linked_iff]
  rintro ⟨-, -, hreach, -⟩
  exact (h.pending w hw).2 (h.mem_emitted_of_reaches hv hreach)

/-! ### Entering a node -/

/-- What is known of the stack does not change when a node is entered. -/
theorem agrees_enter (h : Invariant g s work finished) (hw : w ∈ s.unseen) :
    Agrees s (s.enter w) s.stack := by
  have hne : ∀ u ∈ s.stack, u ≠ w := by
    rintro u hu rfl
    exact (h.pending u hu).1 hw
  refine ⟨fun u hu => (mem_others.1 hu).1, fun u hu => ?_, fun u hu => ?_⟩
  · rw [indexOf_enter, if_neg (hne u hu)]
  · rw [lowOf_enter, if_neg (hne u hu)]

/-- A node is entered when what is known of the others allows for it. -/
theorem enter {work' : List (α × List α)} (h : Invariant g s work finished) (hw : w ∈ s.unseen)
    (hspine : Spine g (s.enter w) work' s.stack)
    (hedge : ∀ parent ∈ work'.head?, g.Edge parent.1 w) :
    Invariant g (s.enter w) ((w, g.successors w) :: work') finished := by
  have hs := h.agrees_enter hw
  have hindex : (s.enter w).indexOf w = s.next := by rw [indexOf_enter, if_pos rfl]
  have hlow : (s.enter w).lowOf w = s.next := by rw [lowOf_enter, if_pos rfl]
  have hlt : ∀ u ∈ s.stack, (s.enter w).indexOf u < s.next := fun u hu =>
    (hs.index u hu).symm ▸ h.index_lt u hu
  refine ⟨?_, ?_, ?_, ?_, ?_, ?_, h.closed, h.listed⟩
  -- The new node stands alone at the top, with all its successors to be tried.
  · have hframe : IsFrame g (s.enter w) w (g.successors w) [] s.stack :=
      ⟨⟨[], rfl, by simp⟩, by simp, by simp, by rw [hlow, hindex],
        w, .head _, .refl, by rw [hlow, hindex]⟩
    exact .cons hframe hedge hspine
  · refine .cons (fun u hu => ?_) (h.numbered.imp_of_mem fun {u x} hu hx hlt => ?_)
    · rw [hindex]
      exact hlt u hu
    · rwa [hs.index u hu, hs.index x hx]
  · refine List.forall_mem_cons.2 ⟨?_, fun u hu => ?_⟩
    · rw [hindex]
      exact Nat.lt_succ_self _
    · exact Nat.lt_succ_of_lt (hlt u hu)
  · intro u
    rw [h.mem_nodes]
    simp only [unseen_enter, mem_others, stack_enter, List.mem_cons, components_enter]
    by_cases huw : u = w
    · simp [huw, hw]
    · simp [huw]
  · refine List.forall_mem_cons.2 ⟨⟨fun hmem => (mem_others.1 hmem).2 rfl, fun hmem => ?_⟩,
      fun u hu => ⟨fun hmem => ?_, (h.pending u hu).2⟩⟩
    · exact h.emitted w hmem hw
    · exact (h.pending u hu).1 (mem_others.1 hmem).1
  · exact fun u hu hmem => h.emitted u hu (mem_others.1 hmem).1

theorem enterRoot (h : Invariant g s [] finished) (hv : v ∈ s.unseen) :
    Invariant g (s.enter v) [(v, g.successors v)] finished :=
  h.enter hv (h.spine.congr (h.agrees_enter hv)) (by simp)

/-! ### Trying a successor -/

theorem edge (h : Invariant g s ((v, w :: ws) :: work) finished) (hw : w ∈ g.nodes) :
    g.Edge v w := by
  obtain ⟨seg, below, -, frame, -⟩ := h.spine.exists_frame
  obtain ⟨us, hus, -⟩ := frame.tried
  exact ⟨by simp [hus], hw⟩

theorem enterSuccessor (h : Invariant g s ((v, w :: ws) :: work) finished) (hw : w ∈ s.unseen) :
    Invariant g (s.enter w) ((w, g.successors w) :: (v, ws) :: work) finished := by
  have hspine := (h.spine.congr (h.agrees_enter hw)).advance
    (fun hmem => (mem_others.1 hmem).2 rfl) (fun hmem => absurd hw (h.pending w hmem).1)
  refine h.enter hw hspine fun parent hparent => ?_
  obtain rfl := Option.some.inj hparent
  exact h.edge ((h.mem_nodes w).2 (.inl hw))

theorem lower (h : Invariant g s ((v, w :: ws) :: work) finished) (hw : w ∈ s.stack) :
    Invariant g (s.lower v (s.indexOf w)) ((v, ws) :: work) finished := by
  have hspine := h.spine.lower h.numbered (.single (h.edge (h.mem_nodes_of_mem_stack hw))) (.inl hw)
  refine { h with spine := hspine.advance (h.pending w hw).1 fun _ => ?_ }
  rw [lowOf_lower, if_pos rfl]
  exact min_le_right _ _

theorem skip (h : Invariant g s ((v, w :: ws) :: work) finished) (hunseen : w ∉ s.unseen)
    (hstack : w ∉ s.stack) : Invariant g s ((v, ws) :: work) finished :=
  { h with spine := h.spine.advance hunseen fun hmem => absurd hmem hstack }

/-! ### Finishing with a node -/

/-- The low link of a node is known to the one below before the node is left. -/
theorem passUp (h : Invariant g s ((v, []) :: work) finished) :
    Invariant g (s.passUp v work) ((v, []) :: work) finished ∧
      ∀ parent ∈ work.head?, (s.passUp v work).lowOf parent.1 ≤ (s.passUp v work).lowOf v := by
  obtain ⟨seg, below, hstack, frame, entered, spine⟩ := h.spine.exists_frame
  have hnum : Numbered s (seg ++ v :: below) := hstack ▸ h.numbered
  cases work with
  | nil => exact ⟨h, by simp⟩
  | cons parent work =>
    obtain ⟨p, ps⟩ := parent
    -- The node below has a smaller number, so that its low link is another one.
    have hpv : v ≠ p := by
      rintro rfl
      exact (hnum.lt_of_mem_below spine.mem_stack).false
    have hlow : (s.lower p (s.lowOf v)).lowOf v = s.lowOf v := by rw [lowOf_lower, if_neg hpv]
    have hspine : Spine g (s.lower p (s.lowOf v)) ((v, []) :: (p, ps) :: work) s.stack :=
      hstack ▸ .cons (frame.congr (fun _ => id) (fun _ _ => rfl) hlow) entered
        (spine.passUp hnum frame (entered _ rfl))
    refine ⟨{ h with spine := hspine }, fun parent hparent => ?_⟩
    obtain rfl := Option.some.inj hparent
    rw [LowLinks.passUp, hlow, lowOf_lower, if_pos rfl]
    exact min_le_right _ _

/-- A node of the stack that is finished strikes out none of the nodes that stand for the complete
components. -/
theorem filter_lastOfEach (h : Invariant g s work finished) (hv : v ∈ s.stack) {p : α → Bool}
    (hp : ∀ u, g.linked u v = false → (p u = true ↔ u ∈ s.components.flatten)) :
    ((lastOfEach g.linked finished.reverse).filter fun u => !g.linked u v).filter p =
      (lastOfEach g.linked finished.reverse).filter (· ∈ s.components.flatten) := by
  rw [List.filter_filter]
  refine List.filter_congr fun u _ => ?_
  rw [Bool.eq_iff_iff, decide_eq_true_iff, Bool.and_eq_true, Bool.not_eq_true']
  constructor
  · exact fun hu => (hp u hu.2).1 hu.1
  · intro hu
    have hnot := h.not_linked hu hv
    exact ⟨(hp u hnot).2 hu, hnot⟩

/-- A node whose low link is not its own number waits for its component. -/
theorem leave (h : Invariant g s ((v, []) :: work) finished)
    (hlow : ∀ parent ∈ work.head?, s.lowOf parent.1 ≤ s.lowOf v)
    (hne : s.lowOf v ≠ s.indexOf v) : Invariant g s work (v :: finished) := by
  obtain ⟨seg, below, hstack, frame, entered, spine⟩ := h.spine.exists_frame
  have hv : v ∈ s.stack := h.spine.mem_stack
  refine { h with spine := hstack ▸ spine.absorb frame entered hlow hne, listed := ?_ }
  have hnew : [v].filter (· ∈ s.components.flatten) = [] := by simpa using (h.pending v hv).2
  rw [List.reverse_cons, lastOfEach_concat, List.filter_append,
    h.filter_lastOfEach hv (by simp), hnew, List.append_nil]
  exact h.listed

section Emit

variable {seg below : List α} (h : Invariant g s ((v, []) :: work) finished)
  (hroot : s.lowOf v = s.indexOf v) (hstack : s.stack = seg ++ v :: below)
  (frame : IsFrame g s v [] seg below)

include h hroot hstack frame

/-- No edge leads from the segment of a root to the stack below it. -/
theorem mem_of_edge {u : α} (hu : u ∈ seg ++ [v]) (hedge : g.Edge u w) :
    w ∈ s.components.flatten ∨ w ∈ seg ++ [v] := by
  have hseen : Seen s v below w := frame.seen_of_mem u hu w hedge.1
  rcases (h.mem_nodes w).1 hedge.2 with hw | hw | hw
  · exact absurd hw hseen.1
  · rw [hstack] at hw
    have hlt : w ∈ below → s.indexOf w < s.indexOf v :=
      Numbered.lt_of_mem_below (hstack ▸ h.numbered)
    -- The low link of a root is its own number, and bounds those of the nodes to which edges lead.
    have hnot : w ∉ below := fun hw => (hseen.2 hw).not_gt (hroot ▸ hlt hw)
    simp only [List.mem_append, List.mem_cons, hnot, or_false] at hw ⊢
    simpa using Or.inr hw
  · exact .inl hw

/-- With its segment, a root makes up a whole class. -/
theorem filter_segment : g.nodes.filter (· ∈ seg ++ [v]) = g.classOf v := by
  have hv : v ∈ s.stack := h.spine.mem_stack
  refine List.filter_congr fun u hu => ?_
  rw [Bool.eq_iff_iff, decide_eq_true_iff, linked_iff]
  constructor
  · exact fun hmem => ⟨h.mem_nodes_of_mem_stack hv, hu, frame.connected_of_mem u hmem⟩
  · rintro ⟨-, -, hreach, hback⟩
    -- Whatever the root reaches is complete or in the segment, and what is complete does not lead
    -- back to the root.
    have hclosed : u ∈ s.components.flatten ∨ u ∈ seg ++ [v] := by
      clear hback hu
      induction hreach with
      | refl => simp
      | tail _ hedge ih =>
        rcases ih with ih | ih
        · exact .inl (h.closed _ List.prefix_rfl _ ih _ hedge)
        · exact h.mem_of_edge hroot hstack frame ih hedge
    refine hclosed.resolve_left fun hmem => ?_
    exact (h.pending v hv).2 (h.mem_emitted_of_reaches hmem hback)

theorem mem_classOf {u : α} : u ∈ g.classOf v ↔ u ∈ seg ++ [v] := by
  rw [← h.filter_segment hroot hstack frame, List.mem_filter, decide_eq_true_iff,
    and_iff_right_iff_imp]
  refine fun hu => h.mem_nodes_of_mem_stack ?_
  rw [hstack, List.append_cons]
  exact List.mem_append_left _ hu

theorem mem_flatten_concat {u : α} : u ∈ (s.components ++ [g.classOf v]).flatten ↔
    u ∈ s.components.flatten ∨ u ∈ seg ++ [v] := by
  rw [List.flatten_append, List.mem_append, List.flatten_singleton,
    h.mem_classOf hroot hstack frame]

theorem closed_concat {done : List (List α)} (hdone : done <+: s.components ++ [g.classOf v])
    {u : α} (hu : u ∈ done.flatten) (hedge : g.Edge u w) : w ∈ done.flatten := by
  rcases List.prefix_concat_iff.1 hdone with rfl | hdone
  · rw [h.mem_flatten_concat hroot hstack frame] at hu ⊢
    rcases hu with hu | hu
    · exact .inl (h.closed _ List.prefix_rfl u hu w hedge)
    · exact h.mem_of_edge hroot hstack frame hu hedge
  · exact h.closed done hdone u hu w hedge

theorem listed_concat : s.components ++ [g.classOf v] =
    ((lastOfEach g.linked (v :: finished).reverse).filter
      (· ∈ (s.components ++ [g.classOf v]).flatten)).map g.classOf := by
  have hflatten := fun u => h.mem_flatten_concat hroot hstack frame (u := u)
  have hlast : [v].filter (· ∈ (s.components ++ [g.classOf v]).flatten) = [v] := by
    simp [h.mem_classOf hroot hstack frame]
  -- The other members of the class are struck out when the root is finished.
  have hfilter := h.filter_lastOfEach h.spine.mem_stack
    (p := (· ∈ (s.components ++ [g.classOf v]).flatten)) fun u hu => by
      rw [decide_eq_true_iff, hflatten, or_iff_left]
      intro hsegment
      have hmem := (h.mem_classOf hroot hstack frame).2 hsegment
      simp [linked_symm (List.mem_filter.1 hmem).2] at hu
  rw [List.reverse_cons, lastOfEach_concat, List.filter_append, hfilter, hlast, List.map_append,
    ← h.listed, List.map_singleton]

end Emit

/-- The segment of a root is a component. -/
theorem emit (h : Invariant g s ((v, []) :: work) finished) (hroot : s.lowOf v = s.indexOf v) :
    Invariant g (s.close g.nodes v) work (v :: finished) := by
  obtain ⟨seg, below, hstack, frame, entered, spine⟩ := h.spine.exists_frame
  have hnum : Numbered s (seg ++ v :: below) := hstack ▸ h.numbered
  have hmem : ∀ u, u ∈ s.stack ↔ u ∈ seg ++ [v] ∨ u ∈ below := fun u => by
    rw [hstack, List.append_cons, List.mem_append]
  have hflatten := fun u => h.mem_flatten_concat hroot hstack frame (u := u)
  rw [close_of_eq g.nodes hroot hstack fun hv => (hnum.lt_of_mem_seg hv).false,
    h.filter_segment hroot hstack frame]
  refine ⟨spine.congr ⟨fun _ => id, fun _ _ => rfl, fun _ _ => rfl⟩, hnum.tail,
    fun u hu => h.index_lt u ((hmem u).2 (.inr hu)), fun u => ?_, fun u hu => ?_, fun u hu => ?_,
    fun done hdone u hu w hedge => h.closed_concat hroot hstack frame hdone hu hedge,
    h.listed_concat hroot hstack frame⟩
  · rw [h.mem_nodes, hflatten, hmem]
    tauto
  · obtain ⟨hunseen, hemitted⟩ := h.pending u ((hmem u).2 (.inr hu))
    refine ⟨hunseen, fun hu' => ?_⟩
    exact ((hflatten u).1 hu').elim hemitted (hnum.notMem_of_mem_below hu)
  · rcases (hflatten u).1 hu with hu | hu
    · exact h.emitted u hu
    · exact (h.pending u ((hmem u).2 (.inl hu))).1

end Invariant

/-! ## The whole search -/

/-- The search finishes with the nodes in the same order as `FiniteGraph.search`. -/
theorem Invariant.connect {g : FiniteGraph α} {s : LowLinks α} {work : List (α × List α)}
    {finished : List α} (h : Invariant g s work finished) :
    Invariant g (g.connect s work) [] (g.search s.unseen work finished).finished ∧
      (g.connect s work).unseen = (g.search s.unseen work finished).unseen := by
  fun_induction FiniteGraph.connect g s work generalizing finished with
  | case1 s =>
    rw [search]
    exact ⟨h, rfl⟩
  | case2 s v w ws work hw ih =>
    rw [search, if_pos hw]
    exact ih (h.enterSuccessor hw)
  | case3 s v w ws work hunseen hstack ih =>
    rw [search, if_neg hunseen]
    exact ih (h.lower hstack)
  | case4 s v w ws work hunseen hstack ih =>
    rw [search, if_neg hunseen]
    exact ih (h.skip hunseen hstack)
  | case5 s v work ih =>
    rw [search]
    rw [unseen_close, unseen_passUp] at ih
    obtain ⟨hpassed, hlow⟩ := h.passUp
    by_cases hroot : (s.passUp v work).lowOf v = (s.passUp v work).indexOf v
    · exact ih (hpassed.emit hroot)
    · refine ih ?_
      rw [close_of_ne g.nodes hroot]
      exact hpassed.leave hlow hroot

/-- The search through the whole graph keeps up with `FiniteGraph.visit`. -/
theorem Invariant.foldl_connectFrom {g : FiniteGraph α} {s : LowLinks α} (nodes : List α)
    (found : Visit α) (h : Invariant g s [] found.finished) (hunseen : s.unseen = found.unseen) :
    Invariant g (nodes.foldl g.connectFrom s) [] (nodes.foldl g.visit found).finished ∧
      (nodes.foldl g.connectFrom s).unseen = (nodes.foldl g.visit found).unseen := by
  induction nodes generalizing s found with
  | nil => exact ⟨h, hunseen⟩
  | cons v vs ih =>
    rw [List.foldl_cons, List.foldl_cons]
    have hstep : Invariant g (g.connectFrom s v) [] (g.visit found v).finished ∧
        (g.connectFrom s v).unseen = (g.visit found v).unseen := by
      rw [connectFrom, visit, ← hunseen]
      split
      · next hv => exact (h.enterRoot hv).connect
      · exact ⟨h, hunseen⟩
    exact ih (g.visit found v) hstep.1 hstep.2

end LowLinks

/-- The lists are the components of a graph, each of them after those to which its edges lead. -/
structure IsComponentOrder (g : FiniteGraph α) (cs : List (List α)) : Prop where
  /-- The nodes of the graph are those of the components. -/
  covers : ∀ v, v ∈ g.nodes ↔ ∃ c ∈ cs, v ∈ c
  /-- No node lies in two components. -/
  disjoint : cs.Pairwise List.Disjoint
  nonempty : ∀ c ∈ cs, c ≠ []
  /-- Two nodes lie in the same component if each can be reached from the other. -/
  connected : ∀ c ∈ cs, ∀ v ∈ c, ∀ w ∈ g.nodes, w ∈ c ↔ g.Connected v w
  /-- An edge that leaves a component leads to an earlier one. -/
  sorted : ∀ before c after, cs = before ++ c :: after →
    ∀ v ∈ c, ∀ w ∉ c, g.Edge v w → ∃ d ∈ before, w ∈ d

/-- When the search is over, all nodes have been entered and all components are complete. -/
theorem invariant_lowLinks (g : FiniteGraph α) :
    LowLinks.Invariant g (g.nodes.foldl g.connectFrom (.start g.nodes)) []
        g.finishOrder.reverse ∧
      ∀ v ∈ g.nodes, v ∈ g.lowLinkComponents.flatten := by
  obtain ⟨h, hunseen⟩ :=
    (LowLinks.Invariant.start g).foldl_connectFrom g.nodes ⟨g.nodes, []⟩ rfl
  obtain ⟨-, hseen, -⟩ := mem_finished_foldl_visit g g.nodes ⟨g.nodes, []⟩ (by simp)
  refine ⟨by simpa [finishOrder] using h, fun v hv => ?_⟩
  rcases (h.mem_nodes v).1 hv with hmem | hmem | hmem
  · exact absurd (hunseen ▸ hmem) (hseen v hv)
  -- Without work there is no segment on the stack.
  · obtain ⟨frame, hframe, -⟩ := h.spine.reaches_top v hmem
    cases hframe
  · exact hmem

/-- The two searches find the same components in the same order. -/
theorem lowLinkComponents_eq_components (g : FiniteGraph α) :
    g.lowLinkComponents = g.components := by
  obtain ⟨h, hnodes⟩ := g.invariant_lowLinks
  have hall : (lastOfEach g.linked g.finishOrder).filter (· ∈ g.lowLinkComponents.flatten) =
      lastOfEach g.linked g.finishOrder := by
    refine List.filter_eq_self.2 fun v hv => decide_eq_true ?_
    exact hnodes v (mem_finishOrder.1 ((lastOfEach_sublist _ _).subset hv))
  rw [components_eq_map_classOf, ← hall]
  have hlisted := h.listed
  rw [List.reverse_reverse] at hlisted
  exact hlisted

/-- The search by low links lists the components, each after those to which its edges lead. -/
theorem isComponentOrder_lowLinkComponents (g : FiniteGraph α) :
    g.IsComponentOrder g.lowLinkComponents := by
  obtain ⟨h, -⟩ := g.invariant_lowLinks
  have heq := g.lowLinkComponents_eq_components
  refine ⟨fun v => ⟨?_, ?_⟩, ?_, ?_, ?_, ?_⟩
  · rw [heq]
    exact exists_component
  · rintro ⟨c, hc, hv⟩
    exact ((mem_component_iff (heq ▸ hc) hv).1 hv).1
  · rw [heq]
    exact g.pairwise_disjoint_components
  · intro c hc
    exact ne_nil_of_mem_components (heq ▸ hc)
  · intro c hc v hv w hw
    rw [mem_component_iff (heq ▸ hc) hv, and_iff_right hw]
  · intro before c after hcs v hv w hw hedge
    have hprefix : before ++ [c] <+: g.lowLinkComponents := ⟨after, by simp [hcs]⟩
    have hmem := h.closed _ hprefix v (by simp [hv]) w hedge
    simpa [hw] using hmem

/-- The search by low links is correct. Whatever the graph, and whichever edges lead from a node to
itself or stand side by side, the lists that it returns share no node and contain all nodes, two
nodes are in one list exactly if each can be reached from the other, and an edge between two lists
leads from the later to the earlier one. They are the lists that the search with tables returns. -/
theorem lowLinkComponents_spec (g : FiniteGraph α) :
    g.IsComponentOrder g.lowLinkComponents ∧ g.lowLinkComponents = g.components :=
  ⟨g.isComponentOrder_lowLinkComponents, g.lowLinkComponents_eq_components⟩

-- Two edges lead from 0 to 1, and 2 has an edge to itself.
example : FiniteGraph.lowLinkComponents
    ⟨[0, 1, 2, 3], fun v => if v = 0 then [1, 1] else if v = 1 then [2, 0] else [2]⟩ =
      [[2], [0, 1], [3]] := by
  cbv

end FiniteGraph

end Deduction
