/-
  ShaderClippy.ControlFlow.Postorder

  **THE DEPTH-FIRST SEARCH NUMBERS THE REACHABLE BLOCKS.**

  The invariant of the explicit-stack search (`DfsInv`) speaks of the
  visited blocks, finished (`order`) or on the stack. What the dominator
  iteration needs of the result is little: no block twice, exactly the
  reachable ones, and every block but the entry has a predecessor EARLIER in
  reverse postorder (the block below it on the stack).
-/
import Mathlib.Algebra.Order.BigOperators.Group.List
import Mathlib.Algebra.Order.Ring.Nat
import Mathlib.Data.List.Basic
import Mathlib.Data.List.Nodup
import Mathlib.Tactic.Ring
import ShaderClippy.ControlFlow.Dominators
import ShaderClippy.Lib.Dominance

namespace ShaderClippy.ControlFlow

open Graph (Reach)
open Loop (Turn TurnOk loop loop_spec)

variable {fn : CfgFunction}

/-! ## §1. The invariant. -/

/-- Every reachable block exists. -/
theorem CfgFunction.lt_of_reach (h0 : 0 < fn.blocks.length) {b : Nat}
    (h : Reach fn.Edge 0 b) : b < fn.blocks.length := by
  rcases Relation.ReflTransGen.cases_tail h with rfl | ⟨_, _, he⟩
  · exact h0
  · exact he.2

/-- The blocks on the stack. -/
def Dfs.nodes (s : Dfs) : List Nat := s.stack.map Prod.fst

/-- Finished or on the stack. -/
def Dfs.Visited (s : Dfs) (v : Nat) : Prop := v ∈ s.order ∨ v ∈ s.nodes

/-- Every stack entry but the entry block has a predecessor below it. -/
def Linked (fn : CfgFunction) : List (Nat × Nat) → Prop
  | [] => True
  | (v, _) :: rest => (v = 0 ∨ ∃ p ∈ rest.map Prod.fst, fn.Edge p v) ∧ Linked fn rest

/-- The invariant of the search. -/
structure DfsInv (fn : CfgFunction) (s : Dfs) : Prop where
  length : s.seen.length = fn.blocks.length
  seen : ∀ v, v < fn.blocks.length → (s.seen.getD v false = true ↔ s.Visited v)
  nodup : (s.order ++ s.nodes).Nodup
  reach : ∀ v, s.Visited v → Reach fn.Edge 0 v
  zero : s.Visited 0
  finished : ∀ v ∈ s.order, ∀ w, fn.Edge v w → s.Visited w
  scanned : ∀ f ∈ s.stack, f.2 ≤ (fn.successors f.1).length
    ∧ ∀ j w, j < f.2 → (fn.successors f.1)[j]? = some w → w < fn.blocks.length → s.Visited w
  linked : Linked fn s.stack
  above : ∀ v ∈ s.order, v ≠ 0 → ∃ p, fn.Edge p v ∧ (p ∈ s.nodes ∨ [v, p].Sublist s.order)

/-- What the search returns. -/
structure IsReversePostorder (fn : CfgFunction) (rpo : List Nat) : Prop where
  nodup : rpo.Nodup
  mem_iff : ∀ v, v ∈ rpo ↔ Reach fn.Edge 0 v
  above : ∀ v ∈ rpo, v ≠ 0 → ∃ p, fn.Edge p v ∧ [p, v].Sublist rpo

/-- The measure: each block can still be pushed once, each stack entry has
its remaining successors to look at. -/
def dfsMeasure (fn : CfgFunction) (s : Dfs) : Nat :=
  s.seen.count false * dfsWeight fn
    + (s.stack.map fun f => (fn.successors f.1).length - f.2 + 1).sum

theorem successors_length_lt (fn : CfgFunction) (b : Nat) :
    (fn.successors b).length + 1 < dfsWeight fn := by
  unfold CfgFunction.successors dfsWeight
  cases hb : fn.blocks[b]? with
  | none => simp
  | some block =>
      have hmem : block ∈ fn.blocks := List.mem_of_getElem? hb
      have hle := List.le_sum_of_mem
        (List.mem_map_of_mem (f := fun block : BasicBlock => block.successors.length) hmem)
      simp only
      omega

theorem DfsInv.start (h0 : 0 < fn.blocks.length) :
    DfsInv fn ⟨(List.replicate fn.blocks.length false).set 0 true, [], [(0, 0)]⟩ := by
  refine ⟨?_, ?_, ?_, ?_, ?_, ?_, ?_, ?_, ?_⟩
  · simp
  · intro v hv
    rw [List.getD_eq_getElem?_getD, List.getElem?_set]
    by_cases hv0 : 0 = v
    · subst hv0
      simp [Dfs.Visited, Dfs.nodes, h0]
    · have hne : v ≠ 0 := fun h => hv0 h.symm
      simp [Dfs.Visited, Dfs.nodes, hv0, hne, hv]
  · simp [Dfs.nodes]
  · rintro v (hv | hv)
    · exact absurd hv List.not_mem_nil
    · rw [List.mem_singleton.mp hv]
  · exact Or.inr (List.mem_singleton_self _)
  · intro v hv
    exact absurd hv List.not_mem_nil
  · intro f hf
    rw [List.mem_singleton.mp hf]
    exact ⟨Nat.zero_le _, fun j w hj => absurd hj (Nat.not_lt_zero _)⟩
  · exact ⟨Or.inl rfl, trivial⟩
  · intro v hv
    exact absurd hv List.not_mem_nil

/-! ## §2. The three kinds of turns. -/

section Turns

variable {s : Dfs} {node i next : Nat} {rest : List (Nat × Nat)}

/-- The next successor is out of range or already visited. -/
theorem DfsInv.skip (h : DfsInv fn s) (hs : s.stack = (node, i) :: rest)
    (hnext : (fn.successors node)[i]? = some next)
    (hvis : next < fn.blocks.length → s.Visited next) :
    DfsInv fn { s with stack := (node, i + 1) :: rest } := by
  have hnodes : (Dfs.mk s.seen s.order ((node, i + 1) :: rest)).nodes = s.nodes := by
    rw [Dfs.nodes, Dfs.nodes, hs]
    rfl
  have hvisited : ∀ v, (Dfs.mk s.seen s.order ((node, i + 1) :: rest)).Visited v ↔ s.Visited v := by
    intro v
    rw [Dfs.Visited, Dfs.Visited, hnodes]
  obtain ⟨hsc, hrest⟩ : _ ∧ _ := List.forall_mem_cons.mp (hs ▸ h.scanned)
  refine ⟨h.length, ?_, ?_, ?_, ?_, ?_, ?_, ?_, ?_⟩
  · intro v hv
    rw [hvisited]
    exact h.seen v hv
  · rw [hnodes]
    exact h.nodup
  · intro v hv
    exact h.reach v ((hvisited v).mp hv)
  · exact (hvisited 0).mpr h.zero
  · intro v hv w he
    exact (hvisited w).mpr (h.finished v hv w he)
  · intro f hf
    rcases List.mem_cons.mp hf with rfl | hf
    · have hlt : i < (fn.successors node).length := (List.getElem?_eq_some_iff.mp hnext).1
      refine ⟨hlt, fun j w hj hw hwn => (hvisited w).mpr ?_⟩
      by_cases hji : j = i
      · rw [hji, hnext] at hw
        rw [← Option.some.inj hw] at hwn ⊢
        exact hvis hwn
      · have hj' : j < i := by
          have : j < i + 1 := hj
          omega
        exact hsc.2 j w hj' hw hwn
    · obtain ⟨h1, h2⟩ := hrest f hf
      exact ⟨h1, fun j w hj hw hwn => (hvisited w).mpr (h2 j w hj hw hwn)⟩
  · have hl := h.linked
    rw [hs] at hl
    exact hl
  · intro v hv hv0
    rw [hnodes]
    exact h.above v hv hv0

/-- The next successor is new and goes on the stack. -/
theorem DfsInv.push (h : DfsInv fn s) (hs : s.stack = (node, i) :: rest)
    (hnext : (fn.successors node)[i]? = some next) (hlt : next < fn.blocks.length)
    (hnew : s.seen.getD next false = false) :
    DfsInv fn { s with seen := s.seen.set next true,
                       stack := (next, 0) :: (node, i + 1) :: rest } := by
  have hnot : ¬ s.Visited next := by
    intro hv
    have := (h.seen next hlt).mpr hv
    rw [hnew] at this
    exact absurd this (by decide)
  have hedge : fn.Edge node next := ⟨List.mem_of_getElem? hnext, hlt⟩
  have hnodes : (Dfs.mk (s.seen.set next true) s.order
      ((next, 0) :: (node, i + 1) :: rest)).nodes = next :: s.nodes := by
    rw [Dfs.nodes, Dfs.nodes, hs]
    rfl
  have hvisited : ∀ v, (Dfs.mk (s.seen.set next true) s.order
      ((next, 0) :: (node, i + 1) :: rest)).Visited v ↔ v = next ∨ s.Visited v := by
    intro v
    rw [Dfs.Visited, Dfs.Visited, hnodes, List.mem_cons]
    tauto
  obtain ⟨hsc, hrest⟩ : _ ∧ _ := List.forall_mem_cons.mp (hs ▸ h.scanned)
  have hnode : node ∈ s.nodes := by
    rw [Dfs.nodes, hs]
    exact List.mem_cons_self ..
  refine ⟨?_, ?_, ?_, ?_, ?_, ?_, ?_, ?_, ?_⟩
  · rw [List.length_set]
    exact h.length
  · intro v hv
    rw [hvisited, List.getD_eq_getElem?_getD, List.getElem?_set]
    by_cases hvn : next = v
    · subst hvn
      simp [h.length, hlt]
    · have hne : v ≠ next := fun h => hvn h.symm
      rw [if_neg hvn, ← List.getD_eq_getElem?_getD, h.seen v hv]
      simp [hne]
  · rw [hnodes]
    refine (List.nodup_middle).mpr (List.nodup_cons.mpr ⟨?_, h.nodup⟩)
    rw [List.mem_append]
    exact hnot
  · intro v hv
    rcases (hvisited v).mp hv with rfl | hv
    · exact (h.reach node (Or.inr hnode)).tail hedge
    · exact h.reach v hv
  · exact (hvisited 0).mpr (Or.inr h.zero)
  · intro v hv w he
    exact (hvisited w).mpr (Or.inr (h.finished v hv w he))
  · intro f hf
    rcases List.mem_cons.mp hf with rfl | hf
    · exact ⟨Nat.zero_le _, fun j w hj => absurd hj (Nat.not_lt_zero _)⟩
    rcases List.mem_cons.mp hf with rfl | hf
    · have hlti : i < (fn.successors node).length := (List.getElem?_eq_some_iff.mp hnext).1
      refine ⟨hlti, fun j w hj hw hwn => (hvisited w).mpr ?_⟩
      by_cases hji : j = i
      · rw [hji, hnext] at hw
        exact Or.inl (Option.some.inj hw).symm
      · have hj' : j < i := by
          have : j < i + 1 := hj
          omega
        exact Or.inr (hsc.2 j w hj' hw hwn)
    · obtain ⟨h1, h2⟩ := hrest f hf
      exact ⟨h1, fun j w hj hw hwn => (hvisited w).mpr (Or.inr (h2 j w hj hw hwn))⟩
  · have hl := h.linked
    rw [hs] at hl
    exact ⟨Or.inr ⟨node, List.mem_cons_self .., hedge⟩, hl⟩
  · intro v hv hv0
    obtain ⟨p, hp, hpos⟩ := h.above v hv hv0
    rw [hnodes]
    exact ⟨p, hp, hpos.imp_left (List.mem_cons_of_mem _)⟩

/-- All successors have been looked at: the block is finished. -/
theorem DfsInv.finish (h : DfsInv fn s) (hs : s.stack = (node, i) :: rest)
    (hend : (fn.successors node)[i]? = none) :
    DfsInv fn { s with order := s.order ++ [node], stack := rest } := by
  have hnodes : s.nodes = node :: rest.map Prod.fst := by
    rw [Dfs.nodes, hs]
    rfl
  have hvisited : ∀ v, (Dfs.mk s.seen (s.order ++ [node]) rest).Visited v ↔ s.Visited v := by
    intro v
    rw [Dfs.Visited, Dfs.Visited, hnodes, List.mem_append, List.mem_singleton, List.mem_cons,
      Dfs.nodes]
    tauto
  obtain ⟨hsc, hrest⟩ : _ ∧ _ := List.forall_mem_cons.mp (hs ▸ h.scanned)
  obtain ⟨hbelow, hlink⟩ : (node = 0 ∨ ∃ p ∈ rest.map Prod.fst, fn.Edge p node)
      ∧ Linked fn rest := by
    have hl := h.linked
    rw [hs] at hl
    exact hl
  refine ⟨h.length, ?_, ?_, ?_, ?_, ?_, ?_, hlink, ?_⟩
  · intro v hv
    rw [hvisited]
    exact h.seen v hv
  · have hn := h.nodup
    rw [hnodes] at hn
    rw [Dfs.nodes, List.append_assoc, List.singleton_append]
    exact hn
  · intro v hv
    exact h.reach v ((hvisited v).mp hv)
  · exact (hvisited 0).mpr h.zero
  · intro v hv w he
    rcases List.mem_append.mp hv with hv | hv
    · exact (hvisited w).mpr (h.finished v hv w he)
    · rw [List.mem_singleton.mp hv] at he
      obtain ⟨j, hj⟩ := List.mem_iff_getElem?.mp he.1
      have hji : j < i := by
        have h1 := (List.getElem?_eq_some_iff.mp hj).1
        have h2 := List.getElem?_eq_none_iff.mp hend
        omega
      exact (hvisited w).mpr (hsc.2 j w hji hj he.2)
  · intro f hf
    obtain ⟨h1, h2⟩ := hrest f hf
    exact ⟨h1, fun j w hj hw hwn => (hvisited w).mpr (h2 j w hj hw hwn)⟩
  · intro v hvmem hv0
    rcases List.mem_append.mp hvmem with hv | hv
    · obtain ⟨p, hp, hpos⟩ := h.above v hv hv0
      refine ⟨p, hp, ?_⟩
      rcases hpos with hpos | hpos
      · rw [hnodes, List.mem_cons] at hpos
        rcases hpos with rfl | hpos
        · have hv' : [v].Sublist s.order := List.singleton_sublist.mpr hv
          exact Or.inr (hv'.append (List.Sublist.refl [p]))
        · exact Or.inl hpos
      · exact Or.inr (hpos.trans (List.sublist_append_left _ _))
    · rw [List.mem_singleton.mp hv] at hv0 ⊢
      obtain ⟨p, hp, he⟩ := hbelow.resolve_left hv0
      exact ⟨p, he, Or.inl hp⟩

end Turns

/-! ## §3. The search terminates in a reverse postorder. -/

theorem dfsStep_ok (h0 : 0 < fn.blocks.length) (s : Dfs) (h : DfsInv fn s) :
    TurnOk (DfsInv fn) (dfsMeasure fn) (IsReversePostorder fn) s (dfsStep fn s) := by
  unfold dfsStep
  cases hs : s.stack with
  | nil =>
      have hnodes : s.nodes = [] := by
        rw [Dfs.nodes, hs]
        rfl
      have hvisited : ∀ v, s.Visited v ↔ v ∈ s.order := by
        intro v
        rw [Dfs.Visited, hnodes]
        simp
      refine ⟨?_, ?_, ?_⟩
      · have hn := h.nodup
        rw [hnodes, List.append_nil] at hn
        exact List.nodup_reverse.mpr hn
      · intro v
        rw [List.mem_reverse]
        constructor
        · intro hv
          exact h.reach v (Or.inl hv)
        · intro hv
          induction hv with
          | refl => exact (hvisited 0).mp h.zero
          | tail _ he ih => exact (hvisited _).mp (h.finished _ ih _ he)
      · intro v hv hv0
        obtain ⟨p, hp, hpos⟩ := h.above v (List.mem_reverse.mp hv) hv0
        rw [hnodes] at hpos
        exact ⟨p, hp, List.reverse_sublist.mpr (hpos.resolve_left List.not_mem_nil)⟩
  | cons f rest =>
      obtain ⟨node, i⟩ := f
      have hnode : node < fn.blocks.length := by
        refine CfgFunction.lt_of_reach h0 (h.reach node (Or.inr ?_))
        rw [Dfs.nodes, hs]
        exact List.mem_cons_self ..
      simp only
      rw [if_neg (Nat.not_le.mpr hnode)]
      have hi := (h.scanned (node, i) (by rw [hs]; exact List.mem_cons_self ..)).1
      cases hnext : (fn.successors node)[i]? with
      | none =>
          refine ⟨h.finish hs hnext, ?_⟩
          simp only [dfsMeasure, hs, List.map_cons, List.sum_cons]
          omega
      | some next =>
          have hlen : i < (fn.successors node).length := (List.getElem?_eq_some_iff.mp hnext).1
          simp only
          split
          next hc =>
            rw [Bool.and_eq_true, decide_eq_true_eq, Bool.not_eq_true'] at hc
            refine ⟨h.push hs hnext hc.1 hc.2, ?_⟩
            have hfalse : s.seen[next]? = some false := by
              have hlt : next < s.seen.length := by
                rw [h.length]
                exact hc.1
              have := hc.2
              rw [List.getD_eq_getElem?_getD, List.getElem?_eq_getElem hlt] at this
              rw [List.getElem?_eq_getElem hlt]
              exact congrArg some this
            obtain ⟨hlt, hval⟩ := List.getElem?_eq_some_iff.mp hfalse
            have hpos : 0 < s.seen.count false :=
              List.count_pos_iff.mpr (List.mem_of_getElem? hfalse)
            have hcount : (s.seen.set next true).count false = s.seen.count false - 1 := by
              rw [List.count_set hlt, hval]
              simp
            obtain ⟨k, hk⟩ : ∃ k, s.seen.count false = k + 1 := ⟨_, (Nat.succ_pred_eq_of_pos hpos).symm⟩
            have hweight := successors_length_lt fn next
            simp only [dfsMeasure, hs, List.map_cons, List.sum_cons, hcount, hk,
              Nat.add_sub_cancel, Nat.succ_mul]
            omega
          next hc =>
            refine ⟨h.skip hs hnext ?_, ?_⟩
            · intro hlt
              rw [Bool.and_eq_true, decide_eq_true_eq, Bool.not_eq_true', not_and,
                Bool.not_eq_false] at hc
              exact (h.seen next hlt).mp (hc hlt)
            · simp only [dfsMeasure, hs, List.map_cons, List.sum_cons]
              omega

/-- **`compute_reverse_postorder` terminates in a reverse postorder.** -/
theorem computeReversePostorder_spec (h0 : 0 < fn.blocks.length) :
    ∃ rpo, computeReversePostorder fn = some rpo ∧ IsReversePostorder fn rpo := by
  unfold computeReversePostorder
  rw [if_neg (Nat.ne_of_gt h0)]
  refine loop_spec (dfsStep_ok h0) _ _ (DfsInv.start h0) ?_
  have hcount : ((List.replicate fn.blocks.length false).set 0 true).count false
      ≤ fn.blocks.length := by
    refine Nat.le_trans (List.count_le_length) ?_
    simp
  have hmul := Nat.mul_le_mul_right (dfsWeight fn) hcount
  have hweight := successors_length_lt fn 0
  simp only [dfsMeasure, List.map_cons, List.map_nil, List.sum_cons, List.sum_nil, Nat.succ_mul]
  omega

end ShaderClippy.ControlFlow
