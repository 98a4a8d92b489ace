/-
  ShaderClippy.ControlFlow.Reducible

  **BUILT GRAPHS ARE CLOSED AND REDUCIBLE.**

  Block numbers do not order the graph: the join of a `switch` is created
  before its cases. So the invariant of the walk carries a RANK that every
  edge raises, and the loops closed so far, each a header and a last block,
  to whose header an edge may return (`Shape`). Two facts keep it going:

    * an edge may be led to a SINK, a block that no edge leaves yet: its
      rank is free to be raised above all others (`Built.addEdge`);
    * a loop may be closed on a HEADER, a block past which no edge comes
      from before it (`Built.closeLoop`).

  What a walk may touch is bounded by `Region`: its edges leave the cursor
  or a new block, and enter a new block.
-/
import ShaderClippy.ControlFlow.BuildInvariant
import ShaderClippy.ControlFlow.Layout
import ShaderClippy.Lib.Dominance

namespace ShaderClippy.ControlFlow

open Graph

/-! ## §1. The shape of the graph built so far. -/

/-- A closed loop: its header and its last block. -/
abbrev LoopSpan := Nat × Nat

/-- The loop holds the block. -/
def LoopSpan.Holds (l : LoopSpan) (b : Nat) : Prop := l.1 ≤ b ∧ b ≤ l.2

/-- The invariant: edges stay among the blocks and never enter block `0`,
loops are entered through their headers, and an edge raises the rank or
returns to the header of its loop. -/
structure Shape (fb : FunctionBuilder) (loops : List LoopSpan) (rank : Nat → Nat) : Prop where
  closed : ∀ u v, v ∈ fb.successors u → 0 < v ∧ v < fb.blocks.length
  loop : ∀ l ∈ loops, l.2 < fb.blocks.length
  entered : ∀ l ∈ loops, ∀ u v, v ∈ fb.successors u → l.1 < v → v ≤ l.2 → l.Holds u
  edge : ∀ u v, v ∈ fb.successors u → rank u < rank v ∨ ∃ l ∈ loops, v = l.1 ∧ l.Holds u

/-- A block that no loop holds, unless as its header. -/
def Apart (loops : List LoopSpan) (b : Nat) : Prop := ∀ l ∈ loops, l.2 < b ∨ b ≤ l.1

/-- A block that no edge leaves yet. -/
structure Sink (fb : FunctionBuilder) (loops : List LoopSpan) (j : Nat) : Prop where
  lt : j < fb.blocks.length
  pos : 0 < j
  none : fb.successors j = []
  apart : Apart loops j

/-- A block past which every edge comes from it or from past it. -/
structure Header (fb : FunctionBuilder) (loops : List LoopSpan) (h : Nat) : Prop where
  lt : h < fb.blocks.length
  pos : 0 < h
  entered : ∀ u v, v ∈ fb.successors u → h < v → h ≤ u
  apart : Apart loops h

/-- From `fb` to `fb'` no edge changed. -/
structure SameEdges (fb fb' : FunctionBuilder) : Prop where
  grows : fb.blocks.length ≤ fb'.blocks.length
  successors : ∀ u, fb'.successors u = fb.successors u

theorem sameEdges_newBlock (fb : FunctionBuilder) (ctx : BuildContext) (anchor : Node) :
    ∃ fb', fb.newBlock ctx anchor = (fb.blocks.length, fb')
      ∧ fb'.blocks.length = fb.blocks.length + 1 ∧ SameEdges fb fb' := by
  obtain ⟨fb', h, g⟩ := (Grows.refl fb).newBlock ctx anchor (Nat.add_zero _)
  refine ⟨fb', h, g.length, ?_, fun u => ?_⟩
  · have := g.length
    omega
  · rw [g.successors, targets_nil, List.append_nil]

theorem sameEdges_modify (fb : FunctionBuilder) (b : Nat) {f : BasicBlock → BasicBlock}
    (hf : ∀ block, (f block).successors = block.successors) :
    SameEdges fb { fb with blocks := fb.blocks.modify b f } :=
  ⟨Nat.le_of_eq (List.length_modify ..).symm, successors_modify fb b hf⟩

theorem sameEdges_markExit (fb : FunctionBuilder) (b : Nat) : SameEdges fb (fb.markExit b) :=
  sameEdges_modify fb b fun _ => rfl

theorem sameEdges_markBarrier (fb : FunctionBuilder) (b : Nat) :
    SameEdges fb (fb.markBarrier b) :=
  sameEdges_modify fb b fun _ => rfl

theorem sameEdges_markDiscard (fb : FunctionBuilder) (text : Text) (b : Nat) :
    SameEdges fb (fb.markDiscard text b) := by
  unfold FunctionBuilder.markDiscard
  split
  · exact sameEdges_modify fb b fun _ => rfl
  · exact ⟨Nat.le_refl _, fun _ => rfl⟩

theorem mem_successors_addEdge {fb : FunctionBuilder} {u v x y : Nat} (hu : u < fb.blocks.length) :
    y ∈ (fb.addEdge u v).successors x ↔ y ∈ fb.successors x ∨ x = u ∧ y = v := by
  have hs := ((Grows.refl fb).addEdge u v hu).successors x
  rw [List.nil_append] at hs
  rw [hs, List.mem_append, mem_targets, List.mem_singleton, Prod.mk.injEq]

/-- Only blocks have successors. -/
theorem successors_lt {fb : FunctionBuilder} {u v : Nat} (h : v ∈ fb.successors u) :
    u < fb.blocks.length := by
  refine Nat.lt_of_not_le fun hge => ?_
  unfold FunctionBuilder.successors at h
  rw [List.getElem?_eq_none hge] at h
  exact absurd h List.not_mem_nil

/-- A block that did not exist has no successors. -/
theorem successors_fresh {fb : FunctionBuilder} {u : Nat} (h : fb.blocks.length ≤ u) :
    fb.successors u = [] := by
  unfold FunctionBuilder.successors
  rw [List.getElem?_eq_none h]

section Steps

variable {fb fb' : FunctionBuilder} {loops : List LoopSpan} {rank : Nat → Nat}

theorem Shape.same (h : Shape fb loops rank) (hs : SameEdges fb fb') : Shape fb' loops rank := by
  have hgrows := hs.grows
  refine ⟨fun u v he => ?_, fun l hl => ?_, fun l hl u v he => ?_, fun u v he => ?_⟩
  · rw [hs.successors] at he
    have := h.closed u v he
    omega
  · have := h.loop l hl
    omega
  · rw [hs.successors] at he
    exact h.entered l hl u v he
  · rw [hs.successors] at he
    exact h.edge u v he

/-- A new block is a sink. -/
theorem Shape.sink (h : Shape fb loops rank) (hs : SameEdges fb fb')
    (hpos : 0 < fb.blocks.length) (hnew : fb.blocks.length < fb'.blocks.length) :
    Sink fb' loops fb.blocks.length := by
  refine ⟨hnew, hpos, ?_, fun l hl => Or.inl (h.loop l hl)⟩
  rw [hs.successors, successors_fresh (Nat.le_refl _)]

/-- A new block can be the header of a loop. -/
theorem Shape.header (h : Shape fb loops rank) (hs : SameEdges fb fb')
    (hpos : 0 < fb.blocks.length) (hnew : fb.blocks.length < fb'.blocks.length) :
    Header fb' loops fb.blocks.length := by
  refine ⟨hnew, hpos, fun u v he hv => ?_, fun l hl => Or.inl (h.loop l hl)⟩
  rw [hs.successors] at he
  have := (h.closed u v he).2
  omega

/-- **The rank of a sink is free**: no edge leaves it, so it can be raised
above every other block. -/
theorem Shape.raise {j : Nat} (h : Shape fb loops rank) (hj : Sink fb loops j) :
    ∃ rank', Shape fb loops rank' ∧ ∀ u, u < fb.blocks.length → u ≠ j → rank' u < rank' j := by
  have hbound : ∀ n, ∃ top, ∀ u, u < n → rank u < top := by
    intro n
    induction n with
    | zero => exact ⟨0, fun u hu => absurd hu (Nat.not_lt_zero u)⟩
    | succ n ih =>
        obtain ⟨top, htop⟩ := ih
        refine ⟨top + rank n + 1, fun u hu => ?_⟩
        by_cases hun : u = n
        · rw [hun]
          omega
        · have := htop u (by omega)
          omega
  obtain ⟨top, htop⟩ := hbound fb.blocks.length
  have hother : ∀ u, u ≠ j → (fun b => if b = j then top else rank b) u = rank u :=
    fun u hu => if_neg hu
  refine ⟨fun b => if b = j then top else rank b, ⟨h.closed, h.loop, h.entered, ?_⟩, ?_⟩
  · intro u v he
    have hu : u ≠ j := by
      intro heq
      rw [heq, hj.none] at he
      exact absurd he List.not_mem_nil
    rcases h.edge u v he with hlt | hback
    · refine Or.inl ?_
      by_cases hv : v = j
      · show (if u = j then top else rank u) < if v = j then top else rank v
        rw [if_neg hu, if_pos hv]
        exact htop u (successors_lt he)
      · show (if u = j then top else rank u) < if v = j then top else rank v
        rw [if_neg hu, if_neg hv]
        exact hlt
    · exact Or.inr hback
  · intro u hu hne
    show (if u = j then top else rank u) < if j = j then top else rank j
    rw [if_neg hne, if_pos rfl]
    exact htop u hu

/-- One more edge, to a block inside no loop or to its header. -/
theorem Shape.addEdge {u v : Nat} (h : Shape fb loops rank) (hu : u < fb.blocks.length)
    (hpos : 0 < v) (hv : v < fb.blocks.length) (hapart : Apart loops v)
    (hedge : rank u < rank v ∨ ∃ l ∈ loops, v = l.1 ∧ l.Holds u) :
    Shape (fb.addEdge u v) loops rank := by
  have hlen := length_addEdge fb u v
  refine ⟨fun x y he => ?_, fun l hl => ?_, fun l hl x y he hlt hle => ?_, fun x y he => ?_⟩
  · rw [hlen]
    rcases (mem_successors_addEdge hu).mp he with he | ⟨-, rfl⟩
    · exact h.closed x y he
    · exact ⟨hpos, hv⟩
  · rw [hlen]
    exact h.loop l hl
  · rcases (mem_successors_addEdge hu).mp he with he | ⟨-, rfl⟩
    · exact h.entered l hl x y he hlt hle
    · have := hapart l hl
      omega
  · rcases (mem_successors_addEdge hu).mp he with he | ⟨rfl, rfl⟩
    · exact h.edge x y he
    · exact hedge

/-- The blocks from a header on are a loop. -/
theorem Shape.addLoop {b : Nat} (h : Shape fb loops rank) (hb : Header fb loops b) :
    Shape fb ((b, fb.blocks.length - 1) :: loops) rank := by
  have hlt := hb.lt
  refine ⟨h.closed, fun l hl => ?_, fun l hl u v he hv hle => ?_, fun u v he => ?_⟩
  · rcases List.mem_cons.mp hl with rfl | hl
    · show fb.blocks.length - 1 < _
      omega
    · exact h.loop l hl
  · rcases List.mem_cons.mp hl with rfl | hl
    · have hu := successors_lt he
      refine ⟨hb.entered u v he hv, ?_⟩
      show u ≤ fb.blocks.length - 1
      omega
    · exact h.entered l hl u v he hv hle
  · rcases h.edge u v he with hlt | ⟨l, hl, hback⟩
    · exact Or.inl hlt
    · exact Or.inr ⟨l, List.mem_cons_of_mem _ hl, hback⟩

theorem Sink.same {j : Nat} (h : Sink fb loops j) (hs : SameEdges fb fb') :
    Sink fb' loops j := by
  refine ⟨Nat.lt_of_lt_of_le h.lt hs.grows, h.pos, ?_, h.apart⟩
  rw [hs.successors]
  exact h.none

theorem Sink.addEdge {j u v : Nat} (h : Sink fb loops j) (hu : u < fb.blocks.length)
    (hne : u ≠ j) : Sink (fb.addEdge u v) loops j := by
  refine ⟨?_, h.pos, List.eq_nil_iff_forall_not_mem.mpr fun y he => ?_, h.apart⟩
  · rw [length_addEdge]
    exact h.lt
  · rcases (mem_successors_addEdge hu).mp he with he | ⟨heq, -⟩
    · rw [h.none] at he
      exact absurd he List.not_mem_nil
    · exact hne heq.symm

theorem Header.same {b : Nat} (h : Header fb loops b) (hs : SameEdges fb fb') :
    Header fb' loops b := by
  refine ⟨Nat.lt_of_lt_of_le h.lt hs.grows, h.pos, fun u v he => ?_, h.apart⟩
  rw [hs.successors] at he
  exact h.entered u v he

/-- An edge that starts past the header, or does not go past it. -/
theorem Header.addEdge {b u v : Nat} (h : Header fb loops b) (hu : u < fb.blocks.length)
    (hor : b ≤ u ∨ v ≤ b) : Header (fb.addEdge u v) loops b := by
  refine ⟨?_, h.pos, fun x y he hlt => ?_, h.apart⟩
  · rw [length_addEdge]
    exact h.lt
  · rcases (mem_successors_addEdge hu).mp he with he | ⟨rfl, rfl⟩
    · exact h.entered x y he hlt
    · omega

end Steps

/-! ## §2. What a walk may touch. -/

/-- Started on block `cur` when `n` blocks exist, a walk owns the cursor and
the new blocks. -/
def Own (n cur b : Nat) : Prop := b = cur ∨ n ≤ b

theorem Own.trans {n m cur c b : Nat} (hc : Own n cur c) (hnm : n ≤ m) (hb : Own m c b) :
    Own n cur b := by
  unfold Own at hc hb ⊢
  omega

/-- From `fb₀` to `fb`, edges were added from owned blocks to new ones, and
only loops of new blocks were closed. -/
structure Region (fb₀ : FunctionBuilder) (cur : Nat) (loops₀ : List LoopSpan)
    (fb : FunctionBuilder) (loops : List LoopSpan) : Prop where
  grows : fb₀.blocks.length ≤ fb.blocks.length
  edge : ∀ u v, v ∈ fb.successors u →
    v ∈ fb₀.successors u ∨ Own fb₀.blocks.length cur u ∧ fb₀.blocks.length ≤ v
  loop : ∀ l ∈ loops, l ∈ loops₀ ∨ fb₀.blocks.length ≤ l.1

/-- A state on the way: the invariant holds, and the start is respected. -/
structure Built (fb₀ : FunctionBuilder) (cur : Nat) (loops₀ : List LoopSpan)
    (fb : FunctionBuilder) (loops : List LoopSpan) : Prop where
  shape : ∃ rank, Shape fb loops rank
  region : Region fb₀ cur loops₀ fb loops

section Regions

variable {fb₀ fb fb' : FunctionBuilder} {cur c : Nat} {loops₀ loops loops' : List LoopSpan}

theorem Built.refl (h : ∃ rank, Shape fb loops rank) : Built fb cur loops fb loops :=
  ⟨h, Nat.le_refl _, fun _ _ he => Or.inl he, fun _ hl => Or.inl hl⟩

theorem Built.trans (h : Built fb₀ cur loops₀ fb loops) (hc : Own fb₀.blocks.length cur c)
    (h' : Built fb c loops fb' loops') : Built fb₀ cur loops₀ fb' loops' := by
  have hg := h.region.grows
  have hg' := h'.region.grows
  refine ⟨h'.shape, by omega, fun u v he => ?_, fun l hl => ?_⟩
  · rcases h'.region.edge u v he with he | ⟨hu, hv⟩
    · exact h.region.edge u v he
    · exact Or.inr ⟨hc.trans hg hu, by omega⟩
  · rcases h'.region.loop l hl with hl | hl
    · exact h.region.loop l hl
    · exact Or.inr (by omega)

theorem Built.same (h : Built fb₀ cur loops₀ fb loops) (hs : SameEdges fb fb') :
    Built fb₀ cur loops₀ fb' loops := by
  obtain ⟨rank, hshape⟩ := h.shape
  refine ⟨⟨rank, hshape.same hs⟩, Nat.le_trans h.region.grows hs.grows, fun u v he => ?_,
    h.region.loop⟩
  rw [hs.successors] at he
  exact h.region.edge u v he

/-- One more block, number `m`, which no edge touches. -/
theorem Built.fresh {m : Nat} (h : Built fb₀ cur loops₀ fb loops) (ctx : BuildContext)
    (anchor : Node) (hm : fb.blocks.length = m) (hpos : 0 < m) :
    ∃ fb', fb.newBlock ctx anchor = (m, fb') ∧ fb'.blocks.length = m + 1 ∧ SameEdges fb fb'
      ∧ Built fb₀ cur loops₀ fb' loops ∧ Sink fb' loops m ∧ Header fb' loops m := by
  subst hm
  obtain ⟨fb', hnew, hlen, hs⟩ := sameEdges_newBlock fb ctx anchor
  obtain ⟨rank, hshape⟩ := h.shape
  exact ⟨fb', hnew, hlen, hs, h.same hs, hshape.sink hs hpos (by omega),
    hshape.header hs hpos (by omega)⟩

/-- The edges of a region, with one more. -/
theorem Region.addEdge {u v : Nat} (h : Region fb₀ cur loops₀ fb loops)
    (hu : u < fb.blocks.length) (hown : Own fb₀.blocks.length cur u)
    (hv : fb₀.blocks.length ≤ v) : Region fb₀ cur loops₀ (fb.addEdge u v) loops := by
  refine ⟨?_, fun x y he => ?_, h.loop⟩
  · rw [length_addEdge]
    exact h.grows
  · rcases (mem_successors_addEdge hu).mp he with he | ⟨rfl, rfl⟩
    · exact h.edge x y he
    · exact Or.inr ⟨hown, hv⟩

/-- **An edge to a sink.** -/
theorem Built.addEdge {u j : Nat} (h : Built fb₀ cur loops₀ fb loops) (hj : Sink fb loops j)
    (hu : u < fb.blocks.length) (hne : u ≠ j) (hown : Own fb₀.blocks.length cur u)
    (hnew : fb₀.blocks.length ≤ j) : Built fb₀ cur loops₀ (fb.addEdge u j) loops := by
  obtain ⟨rank, hshape⟩ := h.shape
  obtain ⟨rank', hshape', hraise⟩ := hshape.raise hj
  have hlt := hraise u hu hne
  exact ⟨⟨rank', hshape'.addEdge hu hj.pos hj.lt hj.apart (Or.inl hlt)⟩,
    h.region.addEdge hu hown hnew⟩

/-- **A loop is closed**: the blocks from its header on, and the edge back. -/
theorem Built.closeLoop {u b : Nat} (h : Built fb₀ cur loops₀ fb loops) (hb : Header fb loops b)
    (hbu : b ≤ u) (hu : u < fb.blocks.length) (hnew : fb₀.blocks.length ≤ b) :
    Built fb₀ cur loops₀ (fb.addEdge u b) ((b, fb.blocks.length - 1) :: loops) := by
  obtain ⟨rank, hshape⟩ := h.shape
  have hown : Own fb₀.blocks.length cur u := Or.inr (by omega)
  have hloop : Shape fb ((b, fb.blocks.length - 1) :: loops) rank := hshape.addLoop hb
  have hapart : Apart ((b, fb.blocks.length - 1) :: loops) b := by
    intro l hl
    rcases List.mem_cons.mp hl with rfl | hl
    · exact Or.inr (Nat.le_refl b)
    · exact hb.apart l hl
  have hback : ∃ l ∈ (b, fb.blocks.length - 1) :: loops, b = l.1 ∧ LoopSpan.Holds l u := by
    refine ⟨_, List.mem_cons_self .., rfl, hbu, ?_⟩
    show u ≤ fb.blocks.length - 1
    omega
  have hedges := h.region.addEdge hu hown hnew
  refine ⟨⟨rank, hloop.addEdge hu hb.pos hb.lt hapart (Or.inr hback)⟩, hedges.grows,
    hedges.edge, fun l hl => ?_⟩
  rcases List.mem_cons.mp hl with rfl | hl
  · exact Or.inr hnew
  · exact h.region.loop l hl

/-- A walk that starts elsewhere leaves a sink a sink. -/
theorem Sink.walk {j : Nat} (h : Sink fb loops j) (hr : Region fb c loops fb' loops')
    (hne : j ≠ c) : Sink fb' loops' j := by
  have hlt := h.lt
  have hg := hr.grows
  refine ⟨by omega, h.pos, List.eq_nil_iff_forall_not_mem.mpr fun v he => ?_, fun l hl => ?_⟩
  · rcases hr.edge j v he with he | ⟨hown, -⟩
    · rw [h.none] at he
      exact absurd he List.not_mem_nil
    · unfold Own at hown
      omega
  · rcases hr.loop l hl with hl | hl
    · exact h.apart l hl
    · exact Or.inr (by omega)

/-- A walk that starts from the header on leaves it a header. -/
theorem Header.walk {b : Nat} (h : Header fb loops b) (hr : Region fb c loops fb' loops')
    (hc : b ≤ c) : Header fb' loops' b := by
  have hlt := h.lt
  have hg := hr.grows
  refine ⟨by omega, h.pos, fun u v he hv => ?_, fun l hl => ?_⟩
  · rcases hr.edge u v he with he | ⟨hown, -⟩
    · exact h.entered u v he hv
    · unfold Own at hown
      omega
  · rcases hr.loop l hl with hl | hl
    · exact h.apart l hl
    · exact Or.inr (by omega)

end Regions

/-! ## §3. One statement. -/

/-- A walker that keeps the invariant, within its region. -/
def Regional (w : Walker) : Prop :=
  ∀ fb cur loops, cur < fb.blocks.length → (∃ rank, Shape fb loops rank) →
    ∃ fb' stop loops', w fb cur = (fb', stop) ∧ Built fb cur loops fb' loops'
      ∧ Own fb.blocks.length cur stop ∧ stop < fb'.blocks.length

theorem Regional.stay : Regional fun fb cur => (fb, cur) := by
  intro fb cur loops hcur hshape
  exact ⟨fb, cur, loops, rfl, Built.refl hshape, Or.inl rfl, hcur⟩

theorem Regional.optional {kid : Option (Node × Walker)} (hk : ∀ k, kid = some k → Regional k.2) :
    Regional (walkOptional kid) := by
  cases kid with
  | none => exact Regional.stay
  | some k => exact hk k rfl

section Statements

variable {ctx : BuildContext} {stmt : Node} {kids : Kids}

theorem Regional.walkIf (hk : ∀ kid ∈ kids, Regional kid.2) : Regional (walkIf ctx stmt kids) := by
  intro fb cur loops hcur hshape
  obtain ⟨hthen, helse⟩ := ifArms_all (Q := fun kid => Regional kid.2) hk
  obtain ⟨thenNode, elseNode, harms⟩ : ∃ t e, ifArms kids = (t, e) := ⟨_, _, rfl⟩
  rw [harms] at hthen helse
  obtain ⟨n, hn⟩ : ∃ n, fb.blocks.length = n := ⟨_, rfl⟩
  -- the then arm, in a new block
  obtain ⟨fb1, e1, l1, -, b1, s1, -⟩ := (Built.refl hshape).fresh ctx stmt hn (by omega)
  have b2 := b1.addEdge (u := cur) s1 (by omega) (by omega) (Or.inl rfl) (by omega)
  have l2 := length_addEdge fb1 cur n
  obtain ⟨fb3, thenEnd, loops3, e3, b3, o3, t3⟩ :=
    Regional.optional hthen _ n loops (by omega) b2.shape
  have othen : Own fb.blocks.length cur thenEnd :=
    Own.trans (Or.inr (Nat.le_of_eq hn)) b2.region.grows o3
  have g3 := b3.region.grows
  replace b3 := b2.trans (Or.inr (Nat.le_of_eq hn)) b3
  obtain ⟨m, hm⟩ : ∃ m, fb3.blocks.length = m := ⟨_, rfl⟩
  cases elseNode with
  | none =>
      -- the join, from both sides
      obtain ⟨fb4, e4, l4, -, b4, s4, -⟩ := b3.fresh ctx stmt hm (by omega)
      have b5 := b4.addEdge (u := thenEnd) s4 (by omega) (by omega) othen (by omega)
      have s5 := s4.addEdge (u := thenEnd) (v := m) (by omega) (by omega)
      have l5 := length_addEdge fb4 thenEnd m
      have b6 := b5.addEdge (u := cur) s5 (by omega) (by omega) (Or.inl rfl) (by omega)
      have l6 := length_addEdge (fb4.addEdge thenEnd m) cur m
      refine ⟨_, m, loops3, ?_, b6, Or.inr (by omega), by omega⟩
      unfold ControlFlow.walkIf
      simp only [harms, e1, e3, e4]
  | some e =>
      -- the else arm, in another new block
      obtain ⟨fb4, e4, l4, -, b4, s4, -⟩ := b3.fresh ctx e.1 hm (by omega)
      have b5 := b4.addEdge (u := cur) s4 (by omega) (by omega) (Or.inl rfl) (by omega)
      have l5 := length_addEdge fb4 cur m
      obtain ⟨fb6, elseEnd, loops6, e6, b6, o6, t6⟩ := helse e rfl _ m loops3 (by omega) b5.shape
      have oelse : Own fb.blocks.length cur elseEnd :=
        Own.trans (Or.inr (by omega)) b5.region.grows o6
      have g6 := b6.region.grows
      replace b6 := b5.trans (Or.inr (by omega)) b6
      obtain ⟨k, hk⟩ : ∃ k, fb6.blocks.length = k := ⟨_, rfl⟩
      obtain ⟨fb7, e7, l7, -, b7, s7, -⟩ := b6.fresh ctx stmt hk (by omega)
      have b8 := b7.addEdge (u := thenEnd) s7 (by omega) (by omega) othen (by omega)
      have s8 := s7.addEdge (u := thenEnd) (v := k) (by omega) (by omega)
      have l8 := length_addEdge fb7 thenEnd k
      have b9 := b8.addEdge (u := elseEnd) s8 (by omega) (by omega) oelse (by omega)
      have l9 := length_addEdge (fb7.addEdge thenEnd k) elseEnd k
      refine ⟨_, k, loops6, ?_, b9, Or.inr (by omega), by omega⟩
      unfold ControlFlow.walkIf
      simp only [harms, e1, e3, e4, e6, e7]

theorem Regional.walkLoop (hk : ∀ kid ∈ kids, Regional kid.2) :
    Regional (walkLoop ctx stmt kids) := by
  intro fb cur loops hcur hshape
  have hbody := Regional.optional (loopBody_all (Q := fun kid => Regional kid.2) hk true)
  obtain ⟨n, hn⟩ : ∃ n, fb.blocks.length = n := ⟨_, rfl⟩
  -- the header `n`, then the first block of the body
  obtain ⟨fb1, e1, l1, -, b1, s1, h1⟩ := (Built.refl hshape).fresh ctx stmt hn (by omega)
  have b2 := b1.addEdge (u := cur) s1 (by omega) (by omega) (Or.inl rfl) (by omega)
  have h2 := h1.addEdge (u := cur) (v := n) (by omega) (Or.inr (Nat.le_refl n))
  have l2 := length_addEdge fb1 cur n
  obtain ⟨fb3, e3, l3, same3, b3, s3, -⟩ := b2.fresh (m := n + 1) ctx stmt (by omega) (by omega)
  have b4 := b3.addEdge (u := n) s3 (by omega) (by omega) (Or.inr (by omega)) (by omega)
  have h4 := (h2.same same3).addEdge (u := n) (v := n + 1) (by omega) (Or.inl (Nat.le_refl n))
  have l4 := length_addEdge fb3 n (n + 1)
  obtain ⟨fb5, bodyEnd, loops5, e5, b5, o5, t5⟩ := hbody _ (n + 1) loops (by omega) b4.shape
  have g5 := b5.region.grows
  have h5 := h4.walk b5.region (by omega)
  replace b5 := b4.trans (Or.inr (by omega)) b5
  have hend : n ≤ bodyEnd := by
    unfold Own at o5
    omega
  -- back to the header, and out of the loop
  obtain ⟨m, hm⟩ : ∃ m, fb5.blocks.length = m := ⟨_, rfl⟩
  have b6 := b5.closeLoop h5 hend t5 (by omega)
  have l6 := length_addEdge fb5 bodyEnd n
  obtain ⟨fb7, e7, l7, -, b7, s7, -⟩ := b6.fresh (m := m) ctx stmt (by omega) (by omega)
  have b8 := b7.addEdge (u := n) s7 (by omega) (by omega) (Or.inr (by omega)) (by omega)
  have l8 := length_addEdge fb7 n m
  refine ⟨_, m, _, ?_, b8, Or.inr (by omega), by omega⟩
  unfold ControlFlow.walkLoop
  simp only [e1, e3, e5, e7]

theorem Regional.walkDo (hk : ∀ kid ∈ kids, Regional kid.2) :
    Regional (walkDo ctx stmt kids) := by
  intro fb cur loops hcur hshape
  have hbody := Regional.optional (loopBody_all (Q := fun kid => Regional kid.2) hk false)
  obtain ⟨n, hn⟩ : ∃ n, fb.blocks.length = n := ⟨_, rfl⟩
  -- the body, whose first block `n` is the header
  obtain ⟨fb1, e1, l1, -, b1, s1, h1⟩ := (Built.refl hshape).fresh ctx stmt hn (by omega)
  have b2 := b1.addEdge (u := cur) s1 (by omega) (by omega) (Or.inl rfl) (by omega)
  have h2 := h1.addEdge (u := cur) (v := n) (by omega) (Or.inr (Nat.le_refl n))
  have l2 := length_addEdge fb1 cur n
  obtain ⟨fb3, bodyEnd, loops3, e3, b3, o3, t3⟩ := hbody _ n loops (by omega) b2.shape
  have g3 := b3.region.grows
  have h3 := h2.walk b3.region (Nat.le_refl n)
  replace b3 := b2.trans (Or.inr (by omega)) b3
  have hend : n ≤ bodyEnd := by
    unfold Own at o3
    omega
  -- the condition `m`, from which the loop is closed
  obtain ⟨m, hm⟩ : ∃ m, fb3.blocks.length = m := ⟨_, rfl⟩
  obtain ⟨fb4, e4, l4, same4, b4, s4, -⟩ := b3.fresh ctx stmt hm (by omega)
  have b5 := b4.addEdge (u := bodyEnd) s4 (by omega) (by omega) (Or.inr (by omega)) (by omega)
  have h5 := (h3.same same4).addEdge (u := bodyEnd) (v := m) (by omega) (Or.inl hend)
  have l5 := length_addEdge fb4 bodyEnd m
  have b6 := b5.closeLoop (u := m) h5 (by omega) (by omega) (by omega)
  have l6 := length_addEdge (fb4.addEdge bodyEnd m) m n
  obtain ⟨fb7, e7, l7, -, b7, s7, -⟩ := b6.fresh (m := m + 1) ctx stmt (by omega) (by omega)
  have b8 := b7.addEdge (u := m) s7 (by omega) (by omega) (Or.inr (by omega)) (by omega)
  have l8 := length_addEdge fb7 m (m + 1)
  refine ⟨_, m + 1, _, ?_, b8, Or.inr (by omega), by omega⟩
  unfold ControlFlow.walkDo
  simp only [e1, e3, e4, e7]

/-- The cases of a `switch`: the join stays a sink, for no case walks on it. -/
theorem walkCases_regional (ctx : BuildContext) {fb₀ : FunctionBuilder} {dispatch join : Nat} {loops₀ : List LoopSpan}
    (hdispatch : dispatch < join) (hjoin : fb₀.blocks.length ≤ join) :
    ∀ kids : Kids, (∀ kid ∈ kids, Regional kid.2) → ∀ fb loops,
      Built fb₀ dispatch loops₀ fb loops → Sink fb loops join →
      ∃ loops', Built fb₀ dispatch loops₀ (walkCases ctx dispatch join kids fb) loops'
        ∧ Sink (walkCases ctx dispatch join kids fb) loops' join := by
  intro kids
  induction kids with
  | nil => intro _ fb loops b s; exact ⟨loops, b, s⟩
  | cons k ks ih =>
      intro hk fb loops b s
      have hks : ∀ kid ∈ ks, Regional kid.2 := fun kid h => hk kid (List.mem_cons_of_mem _ h)
      have hlt := s.lt
      unfold walkCases
      split
      · obtain ⟨n, hn⟩ : ∃ n, fb.blocks.length = n := ⟨_, rfl⟩
        obtain ⟨fb1, e1, l1, same1, b1, s1, -⟩ := b.fresh ctx k.1 hn (by omega)
        have b2 := b1.addEdge (u := dispatch) s1 (by omega) (by omega) (Or.inl rfl) (by omega)
        have s2 := (s.same same1).addEdge (u := dispatch) (v := n) (by omega) (by omega)
        have l2 := length_addEdge fb1 dispatch n
        obtain ⟨fb3, caseEnd, loops3, e3, b3, o3, t3⟩ :=
          hk k (List.mem_cons_self ..) _ n loops (by omega) b2.shape
        have s3 := s2.walk b3.region (by omega)
        replace b3 := b2.trans (Or.inr (by omega)) b3
        have hend : n ≤ caseEnd := by
          unfold Own at o3
          omega
        have b4 := b3.addEdge (u := caseEnd) s3 t3 (by omega) (Or.inr (by omega)) hjoin
        have s4 := s3.addEdge (u := caseEnd) (v := join) t3 (by omega)
        simp only [e1, e3]
        exact ih hks _ _ b4 s4
      · exact ih hks fb loops b s

theorem Regional.walkSwitch (hk : ∀ kid ∈ kids, Regional kid.2) :
    Regional (walkSwitch ctx stmt kids) := by
  intro fb cur loops hcur hshape
  obtain ⟨n, hn⟩ : ∃ n, fb.blocks.length = n := ⟨_, rfl⟩
  obtain ⟨fb1, e1, l1, -, b1, s1, -⟩ := (Built.refl hshape).fresh ctx stmt hn (by omega)
  obtain ⟨loops2, b2, s2⟩ := walkCases_regional ctx
    (Nat.lt_of_lt_of_eq hcur hn) (Nat.le_of_eq hn) kids.named (Kids.named_all (Q := fun kid => Regional kid.2) hk) fb1 loops
    b1 s1
  have t2 := s2.lt
  by_cases hempty : kids.named.isEmpty = true
  · have b3 := b2.addEdge (u := cur) s2 (by omega) (by omega) (Or.inl rfl) (by omega)
    have l3 := length_addEdge (walkCases ctx cur n kids.named fb1) cur n
    refine ⟨_, n, loops2, ?_, b3, Or.inr (by omega), by omega⟩
    unfold ControlFlow.walkSwitch
    simp only [e1, hempty, if_true]
  · refine ⟨_, n, loops2, ?_, b2, Or.inr (by omega), t2⟩
    unfold ControlFlow.walkSwitch
    simp only [e1, hempty, if_false, Bool.false_eq_true]

theorem Regional.walkAll (hk : ∀ kid ∈ kids, Regional kid.2) : Regional (walkAll kids) := by
  induction kids with
  | nil => exact Regional.stay
  | cons k ks ih =>
      intro fb cur loops hcur hshape
      obtain ⟨fb1, c1, loops1, e1, b1, o1, t1⟩ :=
        hk k (List.mem_cons_self ..) fb cur loops hcur hshape
      obtain ⟨fb2, c2, loops2, e2, b2, o2, t2⟩ :=
        ih (fun kid h => hk kid (List.mem_cons_of_mem _ h)) fb1 c1 loops1 t1 b1.shape
      refine ⟨fb2, c2, loops2, ?_, b1.trans o1 b2, o1.trans b1.region.grows o2, t2⟩
      unfold ControlFlow.walkAll
      simp only [e1, e2]

theorem Regional.walkByKind (hk : ∀ kid ∈ kids, Regional kid.2) :
    Regional (walkByKind ctx stmt kids) := by
  intro fb cur loops hcur hshape
  unfold ControlFlow.walkByKind
  split
  · exact Regional.walkIf hk fb cur loops hcur hshape
  · exact Regional.walkLoop hk fb cur loops hcur hshape
  · exact Regional.walkLoop hk fb cur loops hcur hshape
  · exact Regional.walkDo hk fb cur loops hcur hshape
  · exact Regional.walkSwitch hk fb cur loops hcur hshape
  · exact Regional.walkAll (Kids.named_all (Q := fun kid => Regional kid.2) hk) fb cur loops hcur
      hshape
  · exact Regional.stay fb cur loops hcur hshape

theorem Regional.walkKind (hk : ∀ kid ∈ kids, Regional kid.2) :
    Regional (walkKind ctx stmt kids) := by
  intro fb cur loops hcur hshape
  have b0 : Built fb cur loops fb loops := Built.refl hshape
  unfold ControlFlow.walkKind
  split
  · -- a return: the next block has no predecessor
    have b1 := b0.same (sameEdges_markExit fb cur)
    have l1 : (fb.markExit cur).blocks.length = fb.blocks.length := List.length_modify ..
    obtain ⟨fb2, e2, l2, -, b2, -, -⟩ := b1.fresh ctx stmt l1 (by omega)
    refine ⟨fb2, _, loops, ?_, b2, Or.inr (Nat.le_refl _), by omega⟩
    simp only [e2]
  · split
    · -- a barrier: the block is split
      have b1 := b0.same (sameEdges_markBarrier fb cur)
      have l1 : (fb.markBarrier cur).blocks.length = fb.blocks.length := List.length_modify ..
      obtain ⟨fb2, e2, l2, -, b2, s2, -⟩ := b1.fresh ctx stmt l1 (by omega)
      have b3 := b2.addEdge (u := cur) s2 (by omega) (by omega) (Or.inl rfl) (Nat.le_refl _)
      have l3 := length_addEdge fb2 cur fb.blocks.length
      refine ⟨_, _, loops, ?_, b3, Or.inr (Nat.le_refl _), by omega⟩
      simp only [e2]
    · have hs := sameEdges_markDiscard fb (stmt.text ctx.bytes) cur
      have hgrows := hs.grows
      have b1 := b0.same hs
      obtain ⟨fb2, stop, loops2, e2, b2, o2, t2⟩ :=
        Regional.walkByKind hk _ cur loops (by omega) b1.shape
      exact ⟨fb2, stop, loops2, e2, b1.trans (Or.inl rfl) b2,
        Own.trans (Or.inl rfl) b1.region.grows o2, t2⟩

end Statements

mutual
/-- **Every statement is a region**, on any tree. -/
theorem walkStatement_regional (ctx : BuildContext) : ∀ stmt, Regional (walkStatement ctx stmt)
  | .mk _ cs => Regional.walkKind (walkChildren_regional ctx cs)

theorem walkChildren_regional (ctx : BuildContext) :
    ∀ ns, ∀ kid ∈ walkChildren ctx ns, Regional kid.2
  | [] => fun _ h => absurd h List.not_mem_nil
  | n :: ns => by
      have hn := walkStatement_regional ctx n
      have hns := walkChildren_regional ctx ns
      intro kid hkid
      rcases List.mem_cons.mp hkid with rfl | hkid
      · exact hn
      · exact hns kid hkid
end

/-! ## §4. One function. -/

/-- Closed and reducible: successors are blocks, the entry block has no
predecessor, and without the edges whose target dominates their source the
blocks reachable from the entry form no cycle. -/
structure ClosedReducible (fn : CfgFunction) : Prop where
  closed : ∀ u v, v ∈ fn.successors u → v < fn.blocks.length
  entry : ∀ u, 0 ∉ fn.successors u
  reducible : Reducible fn.Edge 0

/-- The invariant of the walk says so of the finished function. -/
theorem Shape.closedReducible {fb : FunctionBuilder} {loops : List LoopSpan} {rank : Nat → Nat}
    {fn : CfgFunction} (h : Shape fb loops rank) (hblocks : fn.blocks = fb.blocks) :
    ClosedReducible fn := by
  have hs : ∀ u, fn.successors u = fb.successors u := by
    intro u
    unfold CfgFunction.successors
    rw [hblocks]
    rfl
  have hdom : ∀ l ∈ loops, ∀ u, l.Holds u → Dom fn.Edge 0 l.1 u := by
    intro l hl u hu
    have hentered : EnteredThrough fn.Edge l.1 fun b => l.1 < b ∧ b ≤ l.2 := by
      intro x y he hy
      have hx := h.entered l hl x y (by rw [← hs]; exact he.1) hy.1 hy.2
      unfold LoopSpan.Holds at hx
      omega
    by_cases heq : u = l.1
    · rw [heq]
      exact Dom.refl _
    · refine hentered.dom (fun hzero => absurd hzero.1 (Nat.not_lt_zero _)) ⟨?_, hu.2⟩
      have := hu.1
      omega
  refine ⟨fun u v he => ?_, fun u he => ?_, reducible_of_rank rank fun u v he => ?_⟩
  · rw [hs] at he
    rw [hblocks]
    exact (h.closed u v he).2
  · rw [hs] at he
    exact Nat.lt_irrefl 0 (h.closed u 0 he).1
  · rcases h.edge u v (by rw [← hs]; exact he.1) with hlt | ⟨l, hl, hv, hu⟩
    · exact Or.inl hlt
    · rw [hv]
      exact Or.inr (hdom l hl u hu)

/-- A graph without edges. -/
theorem shape_of_no_edge {fb : FunctionBuilder} (h : ∀ u, fb.successors u = []) :
    Shape fb [] fun _ => 0 := by
  have hnone : ∀ u v, v ∉ fb.successors u := by
    intro u v he
    rw [h u] at he
    exact absurd he List.not_mem_nil
  exact ⟨fun u v he => absurd he (hnone u v), fun l hl => absurd hl List.not_mem_nil,
    fun l hl => absurd hl List.not_mem_nil, fun u v he => absurd he (hnone u v)⟩

/-- A function without errors is read off from a state with the invariant. -/
theorem buildFunction_shape (st : CfgStorage) (functionId : Nat) {fnNode : Node}
    (source : SourceId) (bytes : Text) (herr : fnNode.hasError = false) :
    ∃ fb loops rank, Shape fb loops rank
      ∧ (buildFunction st functionId fnNode source bytes).1.blocks = fb.blocks := by
  obtain ⟨fb0, e0, l0, same0⟩ :=
    sameEdges_newBlock ⟨[], st⟩ ⟨functionId, source, bytes⟩ fnNode
  have hshape0 : Shape fb0 [] fun _ => 0 := by
    refine shape_of_no_edge fun u => ?_
    rw [same0.successors, successors_fresh (Nat.zero_le u)]
  unfold buildFunction
  simp only [herr, Bool.false_eq_true, if_false, e0]
  cases hb : functionBody fnNode with
  | none => exact ⟨_, [], _, hshape0.same (sameEdges_markExit fb0 0), rfl⟩
  | some body =>
      obtain ⟨fb1, stop, loops, e1, b1, -, -⟩ := walkStatement_regional
        ⟨functionId, source, bytes⟩ body fb0 0 [] (by omega) ⟨_, hshape0⟩
      obtain ⟨rank, hshape1⟩ := b1.shape
      refine ⟨_, loops, rank, hshape1.same (sameEdges_markExit fb1 stop), ?_⟩
      show ((walkStatement _ body fb0 0).1.markExit (walkStatement _ body fb0 0).2).blocks = _
      rw [e1]

/-- **Every CFG that `build_function` produces is closed and reducible.** -/
theorem buildFunction_closedReducible (st : CfgStorage) (functionId : Nat) (fnNode : Node)
    (source : SourceId) (bytes : Text) :
    ClosedReducible (buildFunction st functionId fnNode source bytes).1 := by
  by_cases herr : fnNode.hasError = true
  · obtain ⟨fn, h, -, hb⟩ := buildFunction_error st functionId source bytes herr
    rw [h]
    have hshape : Shape ⟨fn.blocks, st⟩ [] fun _ => 0 := by
      refine shape_of_no_edge fun u => ?_
      unfold FunctionBuilder.successors
      split
      · rename_i block hget
        exact (hb block (List.mem_of_getElem? hget)).2.1
      · rfl
    exact hshape.closedReducible rfl
  · obtain ⟨fb, loops, rank, hshape, hblocks⟩ :=
      buildFunction_shape st functionId source bytes (Bool.eq_false_iff.mpr herr)
    exact hshape.closedReducible hblocks

end ShaderClippy.ControlFlow
