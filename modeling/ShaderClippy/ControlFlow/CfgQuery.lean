/-
  ShaderClippy.ControlFlow.CfgQuery

  **FROM SPANS TO BLOCKS** (`rules/util/cfg_query.cpp`).

  Rules ask about source spans. A span is located in the smallest recorded
  block span around it; the public queries then compare the blocks.
-/
import Mathlib
import ShaderClippy.ControlFlow.BuildInvariant
import ShaderClippy.ControlFlow.Engine
import ShaderClippy.Syntax.Spans

namespace ShaderClippy.ControlFlow

/-! ## §1. Locating a span. -/

/-- `contains`. -/
def contains (outer inner : Span) : Bool :=
  if outer.source ≠ inner.source then false
  else decide (outer.bytes.lo ≤ inner.bytes.lo) && decide (outer.bytes.hi ≥ inner.bytes.hi)

/-- The size of a span, in 32 bits. -/
def spanSize (span : Span) : Nat := (span.bytes.hi + 2 ^ 32 - span.bytes.lo) % 2 ^ 32

/-- `BlockHit`: all zero when there is none. -/
structure BlockHit where
  functionId : Nat
  localIndex : Nat
  rawId : Nat
  deriving Repr, DecidableEq

/-- One turn of the loop of `locate_block`. -/
def locateStep (st : CfgStorage) (span : Span) (best : BlockHit × Nat) (entry : Span × Nat) :
    BlockHit × Nat :=
  if !contains entry.1 span then best
  else if spanSize entry.1 < best.2 then
    if 0 < entry.2 ∧ entry.2 - 1 < st.blockToFunction.length then
      (⟨st.blockToFunction.getD (entry.2 - 1) 0, st.blockToLocal.getD (entry.2 - 1) 0, entry.2⟩,
        spanSize entry.1)
    else (best.1, spanSize entry.1)
  else best

/-- `locate_block`. -/
def locateBlock (st : CfgStorage) (span : Span) : BlockHit :=
  (st.spanToBlock.foldl (locateStep st span) (⟨0, 0, 0⟩, 2 ^ 32 - 1)).1

/-- `block_for`. -/
def blockFor (info : ControlFlowInfo) (span : Span) : Option Nat :=
  match info.cfg.impl with
  | none => none
  | some st =>
      let hit := locateBlock st span
      if hit.rawId = 0 then none else some hit.rawId

/-- **`barrier_separates`**, on spans. -/
def barrierSeparatesSpans (info : ControlFlowInfo) (fromSpan dstSpan : Span) : Bool :=
  match blockFor info fromSpan, blockFor info dstSpan with
  | some a, some b => info.cfg.barrierBetween a b
  | _, _ => false

/-- The parent walk of `inside_loop`: does `h` lie on the chain from `cur`, in
`guard` turns at most? -/
def onIdomChain (idom : List Nat) (h : Nat) : Nat → Nat → Bool
  | 0, _ => false
  | guard + 1, cur =>
      if cur = h then true
      else
        let parent := idom.getD cur 0
        if parent = cur then false else onIdomChain idom h guard parent

/-- The loop of `inside_loop` over the edges `t → h`. -/
def dominatedByHeader (fn : CfgFunction) (targetLocal : Nat) : Bool :=
  (List.range fn.blocks.length).any fun t =>
    (fn.successors t).any fun h =>
      if h ≥ fn.blocks.length then false
      else onIdomChain fn.idom h (fn.blocks.length + 1) t
        && onIdomChain fn.idom h (fn.blocks.length + 1) targetLocal

/-- **`inside_loop`.** -/
def insideLoop (info : ControlFlowInfo) (innerSpan : Span) : Bool :=
  match info.cfg.impl with
  | none => false
  | some st =>
      let hit := locateBlock st innerSpan
      if hit.functionId = 0 || hit.functionId ≥ st.functions.length then false
      else
        let fn := st.functions.getD hit.functionId CfgFunction.empty
        if fn.errorSkipped then false
        else if fn.idom.length ≠ fn.blocks.length then false
        else dominatedByHeader fn hit.localIndex

/-! ## §2. What is located. -/

theorem locateStep_cases (st : CfgStorage) (span : Span) (best : BlockHit × Nat)
    (entry : Span × Nat) :
    (locateStep st span best entry).1 = best.1
      ∨ ((locateStep st span best entry).1.rawId = entry.2 ∧ contains entry.1 span = true) := by
  unfold locateStep
  cases hin : contains entry.1 span with
  | false => exact .inl rfl
  | true =>
      simp only [Bool.not_true, Bool.false_eq_true, if_false]
      split
      · split
        · exact .inr ⟨rfl, trivial⟩
        · exact .inl rfl
      · exact .inl rfl

/-- A located block is a recorded one around the span. -/
theorem locateBlock_mem {st : CfgStorage} {span : Span} (h : (locateBlock st span).rawId ≠ 0) :
    ∃ outer, (outer, (locateBlock st span).rawId) ∈ st.spanToBlock
      ∧ contains outer span = true := by
  have hfold : ∀ (l : List (Span × Nat)) (best : BlockHit × Nat),
      (∀ e ∈ l, e ∈ st.spanToBlock) →
      (best.1.rawId ≠ 0 → ∃ outer, (outer, best.1.rawId) ∈ st.spanToBlock
        ∧ contains outer span = true) →
      (l.foldl (locateStep st span) best).1.rawId ≠ 0 →
        ∃ outer, (outer, (l.foldl (locateStep st span) best).1.rawId) ∈ st.spanToBlock
          ∧ contains outer span = true := by
    intro l
    induction l with
    | nil => intro best _ hbest; exact hbest
    | cons e l ih =>
        intro best hl hbest
        refine ih _ (fun e' he' => hl e' (List.mem_cons_of_mem _ he')) fun hne => ?_
        rcases locateStep_cases st span best e with heq | ⟨hraw, hin⟩
        · rw [heq] at hne ⊢
          exact hbest hne
        · rw [hraw]
          exact ⟨e.1, hl e (List.mem_cons_self ..), hin⟩
  exact hfold st.spanToBlock _ (fun _ he => he) (fun hne => absurd rfl hne) h

/-! ## §3. The function of a located block. -/

/-- The span lies inside the node. -/
def Covers (n : Node) (span : Span) : Prop :=
  n.info.lo ≤ span.bytes.lo ∧ span.bytes.hi ≤ n.info.hi

theorem functionBody_sub {fnNode body : Node} (h : functionBody fnNode = some body) :
    body.Sub fnNode := by
  have hmem : body ∈ fnNode.children := by
    unfold functionBody at h
    split at h
    · cases h
      exact List.mem_of_find?_eq_some ‹_›
    · exact List.mem_of_find?_eq_some h
  cases fnNode with
  | mk i cs => exact .child hmem .refl

/-- A function without syntax errors is not skipped. -/
theorem buildFunction_not_skipped (st : CfgStorage) (functionId : Nat) {fnNode : Node}
    (source : SourceId) (bytes : Text) (herr : fnNode.hasError = false) :
    (buildFunction st functionId fnNode source bytes).1.errorSkipped = false := by
  unfold buildFunction
  rw [herr]
  rfl

/-- The simple statements of a body lie in the function. -/
theorem covers_simple {root fnNode : Node} {i : Nat} {span : ByteSpan} {body : Stmts}
    {f : Option Field} {s : PlainNode} (source : SourceId) (hw : root.wellSpanned = true)
    (hnode : (collectFunctions root)[i]? = some fnNode)
    (hbody : functionBody fnNode = some ((Stmt.compound span body).toNode f))
    (hs : s ∈ body.simples) : Covers fnNode (s.node.span source) := by
  have hfn := (collectFunctions_sub root fnNode (List.mem_of_getElem? hnode)).inside hw
  have hbd := (functionBody_sub hbody).inside hfn.1
  have hsin := Stmt.simples_inside hbd.1 (m := s) hs
  exact ⟨Nat.le_trans hbd.2.1 hsin.1, Nat.le_trans hsin.2 hbd.2.2⟩

/-- Blocks anchored inside `n` lie inside `n`. -/
theorem covers_kept (n : Node) (ctx : BuildContext) :
    KeptByPrimitives ctx (fun m => m.wellSpanned = true ∧ m.Inside n)
      (fun fb => ∀ b ∈ fb.blocks, Covers n b.span) := by
  have hmodify : ∀ (bs : List BasicBlock) (k : Nat) (f : BasicBlock → BasicBlock),
      (∀ b, (f b).span = b.span) → (∀ b ∈ bs, Covers n b.span) →
        ∀ b ∈ bs.modify k f, Covers n b.span := by
    intro bs k f hf hbs b hb
    obtain ⟨j, hj⟩ := List.mem_iff_getElem?.mp hb
    rw [List.getElem?_modify] at hj
    obtain ⟨b', hb', rfl⟩ := Option.map_eq_some_iff.mp hj
    have := hbs b' (List.mem_of_getElem? hb')
    split
    · rw [hf]
      exact this
    · exact this
  refine ⟨fun fb anchor hS h b hb => ?_, fun fb u v h => hmodify _ _ _ (fun _ => rfl) h,
    fun fb b h => hmodify _ _ _ (fun _ => rfl) h, fun fb text b h => ?_,
    fun fb b _ _ _ h => hmodify _ _ _ (fun _ => rfl) h⟩
  · rcases List.mem_append.mp hb with hb | hb
    · exact h b hb
    · rw [List.mem_singleton.mp hb]
      exact hS.2
  · unfold FunctionBuilder.markDiscard
    split
    · exact hmodify _ _ _ (fun _ => rfl) h
    · exact h

/-- The blocks built for a function lie inside it. -/
theorem buildFunction_inside {st : CfgStorage} {functionId : Nat} {fnNode : Node}
    {source : SourceId} {bytes : Text} (hw : fnNode.wellSpanned = true) :
    ∀ b ∈ (buildFunction st functionId fnNode source bytes).1.blocks, Covers fnNode b.span := by
  by_cases herr : fnNode.hasError = true
  · obtain ⟨fn, h, -, hb⟩ := buildFunction_error st functionId source bytes herr
    rw [h]
    intro b hmem
    rw [(hb b hmem).1]
    exact Node.Inside.refl fnNode
  · obtain ⟨fb, hfb, h⟩ := buildFunction_keeps st ⟨functionId, source, bytes⟩
      (covers_kept fnNode _) (fun i cs _ hS c hc => by
        obtain ⟨hcw, hcin⟩ := Node.wellSpanned_child hS.1 hc
        exact ⟨hcw, hcin.trans hS.2⟩)
      (fun b hb => (functionBody_sub hb).inside hw) (Bool.eq_false_iff.mpr herr)
      (fun b hb => by
        rw [List.mem_singleton.mp hb]
        exact Node.Inside.refl fnNode)
    rw [h]
    exact hfb

/-- **A span inside a function is located in a block of that function.** -/
theorem blockFor_function {root fnNode : Node} {i : Nat} {source : SourceId} {bytes : Text}
    {span : Span} {raw : Nat} (hw : root.wellSpanned = true)
    (hnode : (collectFunctions root)[i]? = some fnNode) (hin : Covers fnNode span)
    (hne : span.bytes.lo < span.bytes.hi)
    (h : blockFor (buildEntry source root bytes).info span = some raw) :
    ((computeAllDominators (buildCfg root source bytes).1).resolve raw).1 = i + 1 := by
  have hraw : (locateBlock (computeAllDominators (buildCfg root source bytes).1) span).rawId ≠ 0
      ∧ (locateBlock (computeAllDominators (buildCfg root source bytes).1) span).rawId = raw := by
    have hite : (if (locateBlock (computeAllDominators (buildCfg root source bytes).1) span).rawId = 0
      then none
      else some (locateBlock (computeAllDominators (buildCfg root source bytes).1) span).rawId)
        = some raw := h
    split at hite
    · cases hite
    · exact ⟨‹_›, Option.some.inj hite⟩
  obtain ⟨outer, hmem, hcont⟩ := locateBlock_mem hraw.1
  rw [hraw.2] at hmem
  obtain ⟨fn, block, -, -, hpos, hfn, hblock, hspan⟩ :=
    (buildCfg_indexed root source bytes).entry outer raw hmem
  obtain ⟨fnNode', st, hnode', rfl⟩ := buildCfg_function_inv hpos hfn
  have hw' : fnNode'.wellSpanned = true :=
    ((collectFunctions_sub root fnNode' (List.mem_of_getElem? hnode')).inside hw).1
  have houter := buildFunction_inside hw' block (List.mem_of_getElem? hblock)
  rw [hspan] at houter
  unfold contains at hcont
  split at hcont
  · exact absurd hcont (by decide)
  · simp only [Bool.and_eq_true, decide_eq_true_eq] at hcont
    have hin' : Covers fnNode' span :=
      ⟨Nat.le_trans houter.1 hcont.1, Nat.le_trans hcont.2 houter.2⟩
    have hidx := collectFunctions_unique hw hnode hnode' hne hin hin'
    show ((buildCfg root source bytes).1.resolve raw).1 = i + 1
    omega

end ShaderClippy.ControlFlow
