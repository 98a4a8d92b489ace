/-
  ShaderClippy.ControlFlow.Barrier

  **`barrier_separates` NEVER ANSWERS `true`** (`barrierSeparatesSpans_eq_false`).

  The walk asks `detect_barrier` about the whole body first. With a barrier
  anywhere in it, the body becomes ONE block behind the entry, and the flag
  is set on the entry, where no edge leads; without one no block is flagged.
  Either way no flagged block can lie on a path. So the law that the query
  says whether every execution path between two statements executes a
  barrier holds exactly where some path executes none (`barrier_law_iff`).
-/
import ShaderClippy.ControlFlow.CfgQuery
import ShaderClippy.ControlFlow.Soundness

namespace ShaderClippy.ControlFlow

open Structured

/-! ## §1. The graph query. -/

/-- Where no edge leads to a flagged block, nothing is separated. -/
theorem barrierSeparates_unflagged {fn : CfgFunction}
    (h : ∀ u v, fn.Edge u v → fn.containsBarrier v = false) (a b : Nat) :
    barrierSeparates fn a b = false := by
  unfold barrierSeparates
  split
  · rfl
  rename_i hrange
  split
  · rfl
  rename_i hne
  simp only [Bool.or_eq_true, decide_eq_true_eq, not_or] at hrange
  have ha : a < fn.blocks.length := by omega
  have hopen : Open fn fn.containsBarrier = Open fn fun _ => false := by
    funext u v
    unfold Open
    exact propext ⟨fun ⟨he, _⟩ => ⟨he, rfl⟩, fun ⟨he, _⟩ => ⟨he, h u v he⟩⟩
  split
  · rfl
  rename_i hmeets
  simp only [Bool.not_eq_true', Bool.not_eq_false] at hmeets
  obtain ⟨u, hu, he⟩ := (search_iff true ha hne).mp hmeets
  rw [h u b he, if_neg (by decide), Bool.not_eq_false',
    (search_iff false ha hne).mpr ⟨u, hopen ▸ hu, he⟩]

/-! ## §2. The graph of a body. -/

/-- A body with a barrier somewhere becomes one block behind the entry. -/
theorem buildFunction_barrier (st : CfgStorage) (functionId : Nat) {fnNode : Node}
    (source : SourceId) {bytes : Text} {span : ByteSpan} {body : Stmts} {f : Option Field}
    (herr : fnNode.hasError = false)
    (hbody : functionBody fnNode = some ((Stmt.compound span body).toNode f))
    (hbar : detectBarrier bytes ((Stmt.compound span body).toNode f) = true) :
    (buildFunction st functionId fnNode source bytes).1.blocks
      = [{ BasicBlock.fresh (fnNode.span source) with successors := [1], containsBarrier := true },
         { BasicBlock.fresh ⟨source, span⟩ with isExit := true }] := by
  have hwalk : ∀ ctx : BuildContext, ctx.bytes = bytes → ∀ fb cur,
      walkStatement ctx ((Stmt.compound span body).toNode f) fb cur
        = (((fb.markBarrier cur).newBlock ctx ((Stmt.compound span body).toNode f)).2.addEdge cur
            fb.blocks.length, fb.blocks.length) := by
    intro ctx hctx fb cur
    unfold Stmt.toNode namedNode walkStatement walkKind
    rw [hctx]
    have h := hbar
    unfold Stmt.toNode namedNode at h
    simp [h, FunctionBuilder.newBlock, FunctionBuilder.markBarrier]
  unfold buildFunction
  simp only [herr, Bool.false_eq_true, if_false, hbody]
  rw [hwalk _ rfl]
  rfl

/-- **No block with an incoming edge is flagged**, whatever the body. -/
theorem buildFunction_unflagged (st : CfgStorage) (functionId : Nat) {fnNode : Node}
    (source : SourceId) (bytes : Text) {span : ByteSpan} {body : Stmts} {f : Option Field}
    (herr : fnNode.hasError = false)
    (hbody : functionBody fnNode = some ((Stmt.compound span body).toNode f)) (u v : Nat)
    (he : (buildFunction st functionId fnNode source bytes).1.Edge u v) :
    (buildFunction st functionId fnNode source bytes).1.containsBarrier v = false := by
  cases hbar : detectBarrier bytes ((Stmt.compound span body).toNode f) with
  | false =>
      obtain ⟨-, -, -, hflag⟩ := buildFunction_layout st functionId source herr hbody hbar
      exact hflag v
  | true =>
      have hblocks := buildFunction_barrier st functionId source herr hbody hbar
      have hlt : u < 2 := by
        have := he.src_lt
        rw [hblocks] at this
        exact this
      have hmem := he.1
      unfold CfgFunction.successors at hmem
      unfold CfgFunction.containsBarrier
      rw [hblocks] at hmem ⊢
      match u, hlt with
      | 0, _ =>
          have hv : v = 1 := List.mem_singleton.mp hmem
          rw [hv]
          rfl
      | 1, _ => exact absurd hmem List.not_mem_nil

/-! ## §3. The query on spans. -/

/-- **Nothing is ever separated** inside one function body. -/
theorem barrierSeparatesSpans_eq_false {root fnNode : Node} {i : Nat} {source : SourceId}
    {bytes : Text} {span : ByteSpan} {body : Stmts} {f : Option Field} {s1 s2 : Span}
    (hw : root.wellSpanned = true) (hnode : (collectFunctions root)[i]? = some fnNode)
    (herr : fnNode.hasError = false)
    (hbody : functionBody fnNode = some ((Stmt.compound span body).toNode f))
    (hin : Covers fnNode s1) (hne : s1.bytes.lo < s1.bytes.hi) :
    barrierSeparatesSpans (buildEntry source root bytes).info s1 s2 = false := by
  unfold barrierSeparatesSpans
  split
  · rename_i a b ha hb
    cases hq : (buildEntry source root bytes).info.cfg.barrierBetween a b with
    | false => rfl
    | true =>
        have himpl : (buildEntry source root bytes).info.cfg.impl
            = some (computeAllDominators (buildCfg root source bytes).1) := rfl
        obtain ⟨-, hquery⟩ := withinFunction_true himpl hq
        obtain ⟨st, hst⟩ := buildCfg_function source bytes hnode
        have hun := buildFunction_unflagged st (i + 1) source bytes herr hbody
        rw [blockFor_function hw hnode hin hne ha, List.getD_eq_getElem?_getD,
          computeAllDominators_get (Nat.succ_pos i) hst] at hquery
        generalize (buildFunction st (i + 1) fnNode source bytes).1 = fn at hquery hun
        have hblocks : ((computeDominators fn).getD fn).blocks = fn.blocks := by
          cases hd : computeDominators fn with
          | none => rfl
          | some fn' => exact computeDominators_blocks hd
        have hun' : ∀ u v, ((computeDominators fn).getD fn).Edge u v →
            ((computeDominators fn).getD fn).containsBarrier v = false := by
          unfold CfgFunction.Edge CfgFunction.successors CfgFunction.containsBarrier
          rw [hblocks]
          exact hun
        rw [Option.getD_some, barrierSeparates_unflagged hun'] at hquery
        exact absurd hquery (by decide)
  · rfl

/-! ## §4. The law. -/

/-- Some execution of the body runs `s1`, then what `mid` says, then `s2`. -/
def PathBetween (body : Stmt) (s1 s2 : PlainNode) (mid : List Visit) : Prop :=
  ∃ pre v1 v2 post, Executes body (pre ++ v1 :: (mid ++ v2 :: post))
    ∧ v1.code = some s1.node ∧ v2.code = some s2.node

/-- Some code that runs calls a barrier. -/
def ExecutesBarrier (bytes : Text) (mid : List Visit) : Prop :=
  ∃ l ∈ mid, ∃ code, l.code = some code ∧ detectBarrier bytes code = true

/-- The law for two statements: `barrier_separates` says whether every
execution path between them executes a barrier. -/
def BarrierLaw (source : SourceId) (root : Node) (bytes : Text) (body : Stmt)
    (s1 s2 : PlainNode) : Prop :=
  barrierSeparatesSpans (buildEntry source root bytes).info (s1.node.span source)
      (s2.node.span source) = true
    ↔ ∀ mid, PathBetween body s1 s2 mid → ExecutesBarrier bytes mid

/-- **The law holds exactly where some path executes no barrier**, for every
body and every pair of its simple statements. -/
theorem barrier_law_iff {root : Node} {i : Nat} {source : SourceId} {bytes : Text}
    {span : ByteSpan} {body : Stmts} {s1 s2 : PlainNode} (hw : root.wellSpanned = true)
    (hbody : IsBody root i (.compound span body)) (h1 : s1 ∈ body.simples)
    (hne : s1.node.info.lo < s1.node.info.hi) :
    BarrierLaw source root bytes (.compound span body) s1 s2
      ↔ ∃ mid, PathBetween (.compound span body) s1 s2 mid ∧ ¬ ExecutesBarrier bytes mid := by
  obtain ⟨fnNode, f, hnode, herr, hfb⟩ := hbody
  have hcover := covers_simple source hw hnode hfb h1
  unfold BarrierLaw
  rw [barrierSeparatesSpans_eq_false hw hnode herr hfb hcover hne]
  constructor
  · intro h
    -- The query says no, so not every path executes a barrier.
    have hnot : ¬ ∀ mid, PathBetween (.compound span body) s1 s2 mid →
        ExecutesBarrier bytes mid := fun hall => absurd (h.mpr hall) (by decide)
    simp only [Classical.not_forall] at hnot
    obtain ⟨mid, hpath, hfree⟩ := hnot
    exact ⟨mid, hpath, hfree⟩
  · rintro ⟨mid, hpath, hfree⟩
    exact ⟨fun hf => absurd hf (by decide), fun hall => absurd (hall mid hpath) hfree⟩

/-! ## §5. Straight-line code. -/

/-- Two statements with a barrier between them. -/
def straightLine : Text := "void f(){x;GroupMemoryBarrier();y;}".toList

/-- The barrier of `straightLine`. -/
def barrierStatement : PlainNode :=
  ⟨namedNode .expressionStatement none ⟨11, 32⟩
    [namedNode .callExpression none ⟨11, 31⟩
      [namedNode .identifier (some .function) ⟨11, 29⟩ [],
       namedNode .argumentList (some .arguments) ⟨29, 31⟩ []]], rfl, rfl⟩

/-- The body of `straightLine`. -/
def straightLineBody : Stmts :=
  .cons (.simple (identStatement 9))
    (.cons (.simple barrierStatement) (.cons (.simple (identStatement 32)) .nil))

def straightLineTree : Node := singleFunction (.compound ⟨8, 35⟩ straightLineBody) declaratorOfF 35

theorem straightLine_isBody : IsBody straightLineTree 0 (.compound ⟨8, 35⟩ straightLineBody) :=
  ⟨_, some .body, rfl, rfl, rfl⟩

/-- The law at two statements with nothing between them. -/
theorem barrier_law_iff_straightLine :
    BarrierLaw ⟨1⟩ straightLineTree straightLine (.compound ⟨8, 35⟩ straightLineBody)
      (identStatement 9) barrierStatement :=
  (barrier_law_iff (by decide) straightLine_isBody (List.mem_cons_self ..) (by decide)).mpr
    ⟨[], ⟨[], run 0 (identStatement 9), run 0 barrierStatement, [run 0 (identStatement 32)],
      ⟨_, exec_of_follow 10 _ [] rfl⟩, rfl, rfl⟩, fun ⟨_, hl, _⟩ => List.not_mem_nil hl⟩

/-- **A barrier that separates nothing**: `y` can be reached from `x`, every
path between them executes the barrier, and the query says no. -/
theorem straightLine_not_separated :
    IsBody straightLineTree 0 (.compound ⟨8, 35⟩ straightLineBody)
      ∧ (∃ mid, PathBetween (.compound ⟨8, 35⟩ straightLineBody) (identStatement 9)
          (identStatement 32) mid)
      ∧ (∀ mid, PathBetween (.compound ⟨8, 35⟩ straightLineBody) (identStatement 9)
          (identStatement 32) mid → ExecutesBarrier straightLine mid)
      ∧ barrierSeparatesSpans (buildEntry ⟨1⟩ straightLineTree straightLine).info
          ((identStatement 9).node.span ⟨1⟩) ((identStatement 32).node.span ⟨1⟩) = false := by
  have hpoints : prog false 1 0 none none (.compound ⟨8, 35⟩ straightLineBody)
      = Prog.points [run 0 (identStatement 9), run 0 barrierStatement, run 0 (identStatement 32)] :=
    rfl
  refine ⟨straightLine_isBody, ⟨[run 0 barrierStatement], [], run 0 (identStatement 9),
    run 0 (identStatement 32), [], ⟨_, exec_of_follow 10 _ [] rfl⟩, rfl, rfl⟩, ?_, ?_⟩
  · rintro mid ⟨pre, v1, v2, post, ⟨o, ho⟩, hv1, hv2⟩
    rw [hpoints] at ho
    obtain ⟨rest, hrest⟩ := exec_points ho
    have hx : ∀ l ∈ [run 0 barrierStatement, run 0 (identStatement 32)],
        l.code ≠ some (identStatement 9).node := by
      intro l hl heq
      have hlo := congrArg (Option.map fun n : Node => n.info.lo) heq
      simp only [List.mem_cons, List.not_mem_nil, or_false] at hl
      rcases hl with rfl | rfl <;> exact absurd hlo (by decide)
    cases pre with
    | nil =>
        -- `v1` is `x`; what follows before `y` starts with the barrier.
        simp only [List.nil_append, List.cons_append, List.append_assoc, List.cons.injEq] at hrest
        cases mid with
        | nil =>
            simp only [List.nil_append, List.cons.injEq] at hrest
            have hlo := congrArg (Option.map fun n : Node => n.info.lo) hv2
            rw [hrest.2.1] at hlo
            exact absurd hlo (by decide)
        | cons m mid =>
            simp only [List.cons_append, List.cons.injEq] at hrest
            exact ⟨m, List.mem_cons_self .., barrierStatement.node, by rw [hrest.2.1]; rfl,
              by decide⟩
    | cons p pre =>
        simp only [List.cons_append, List.append_assoc, List.cons.injEq] at hrest
        have hmem : v1 ∈ [run 0 barrierStatement, run 0 (identStatement 32)] := by
          rw [← hrest.2]
          exact List.mem_append_right _ (List.mem_cons_self ..)
        exact absurd hv1 (hx v1 hmem)
  · decide +kernel

end ShaderClippy.ControlFlow
