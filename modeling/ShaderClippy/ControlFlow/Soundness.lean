/-
  ShaderClippy.ControlFlow.Soundness

  **EXECUTIONS ARE WALKS OF THE CFG** (`cfg_sound`).

  For a function without errors whose body holds no barrier, every execution
  of the body follows the edges of the graph that `build_function` made, from
  the entry block on, as long as it takes no step the graph does not model.
  With the exactness of the searches and of the dominator tree this is what
  `reachable_from` and `dominates` promise about executions.

  A `break` out of a loop has no edge; `breakOut` shows what `dominates`
  then claims wrongly.
-/
import ShaderClippy.ControlFlow.BodyGraph
import ShaderClippy.ControlFlow.BuildInvariant
import ShaderClippy.ControlFlow.DominatorTree
import ShaderClippy.ControlFlow.Engine
import ShaderClippy.ControlFlow.Executions
import ShaderClippy.ControlFlow.Search
import Mathlib.Data.List.Chain

namespace ShaderClippy.ControlFlow

open Graph (Dom Reach Walk)
open Structured

/-! ## §1. The graph of a body. -/

/-- `body` is the body of the `i`-th function of the source, which has no
errors. -/
def IsBody (root : Node) (i : Nat) (body : Stmt) : Prop :=
  ∃ fnNode f, (collectFunctions root)[i]? = some fnNode ∧ fnNode.hasError = false
    ∧ functionBody fnNode = some (body.toNode f)

/-- Does the body hold a barrier call? -/
def holdsBarrier (bytes : Text) (body : Stmt) : Bool := detectBarrier bytes (body.toNode none)

theorem detectBarrier_toNode (bytes : Text) (body : Stmt) (f : Option Field) :
    detectBarrier bytes (body.toNode f) = holdsBarrier bytes body := by
  unfold holdsBarrier
  rw [← body.toNode_withField f]
  cases body.toNode none
  rfl

/-- The function the builder makes of a body without barriers. -/
theorem buildFunction_layout (st : CfgStorage) (functionId : Nat) {fnNode : Node}
    (source : SourceId) {bytes : Text} {body : Stmt} {f : Option Field}
    (herr : fnNode.hasError = false) (hbody : functionBody fnNode = some (body.toNode f))
    (hbar : detectBarrier bytes (body.toNode f) = false) :
    (buildFunction st functionId fnNode source bytes).1.errorSkipped = false
      ∧ (buildFunction st functionId fnNode source bytes).1.blocks.length = 1 + size body
      ∧ (∀ u, (buildFunction st functionId fnNode source bytes).1.successors u
          = targets (edges 1 0 body) u)
      ∧ ∀ u, (buildFunction st functionId fnNode source bytes).1.containsBarrier u = false := by
  let ctx : BuildContext := ⟨functionId, source, bytes⟩
  obtain ⟨fb1, h1, g1⟩ := (Grows.refl ⟨[], st⟩).newBlock ctx fnNode (Nat.add_zero _)
  obtain ⟨fb2, h2, g2, -⟩ := g1.walk (m := 1) (walkStatement_layout ctx body f hbar) 0 rfl
    Nat.one_pos
  have g3 := g2.trans (grows_markExit fb2 (endBlock 1 0 body))
  have hfn : (buildFunction st functionId fnNode source bytes).1
      = ⟨fnNode.span source, functionName bytes fnNode.children [],
          (fb2.markExit (endBlock 1 0 body)).blocks, [], false⟩ := by
    unfold buildFunction
    simp only [herr, Bool.false_eq_true, if_false, hbody]
    show CfgFunction.mk _ _ _ _ _ = _
    rw [h1]
    simp only [List.length_nil]
    rw [h2]
  rw [hfn]
  refine ⟨rfl, ?_, fun u => ?_, fun u => ?_⟩
  · have := g3.length
    simp only [List.length_nil, Nat.zero_add, Nat.add_zero] at this
    exact this
  · show (fb2.markExit (endBlock 1 0 body)).successors u = _
    rw [g3.successors]
    simp [FunctionBuilder.successors]
  · show (fb2.markExit (endBlock 1 0 body)).containsBarrier u = _
    rw [g3.barrier]
    simp [FunctionBuilder.containsBarrier]

/-- The edges of the graph are those of the body. -/
theorem buildFunction_edge (st : CfgStorage) (functionId : Nat) {fnNode : Node}
    (source : SourceId) {bytes : Text} {body : Stmt} {f : Option Field}
    (herr : fnNode.hasError = false) (hbody : functionBody fnNode = some (body.toNode f))
    (hbar : holdsBarrier bytes body = false) :
    (buildFunction st functionId fnNode source bytes).1.Edge
      = fun u v => (u, v) ∈ edges 1 0 body := by
  obtain ⟨-, hlen, hsucc, -⟩ := buildFunction_layout st functionId source herr hbody
    ((detectBarrier_toNode bytes body f).trans hbar)
  funext u v
  unfold CfgFunction.Edge
  rw [hsucc, hlen, mem_targets]
  exact propext ⟨fun h => h.1, fun h => ⟨h, edges_lt body h⟩⟩

/-! ## §2. Executions. -/

/-- `tr` is what some execution of the body passes, perhaps cut off. -/
def Executes (body : Stmt) (tr : List Visit) : Prop :=
  ∃ o, Exec (prog false 1 0 none none body) tr o

/-- Every step that is followed by another one is modelled. -/
def Modelled (tr : List Visit) : Prop := ∀ l ∈ tr.dropLast, l.modelled = true

/-- What the monitor accepts is a chain of edges. -/
theorem chain_of_accepts {E : Nat → Nat → Prop} :
    ∀ (tr : List Visit) (b : Nat), (edgeMonitor E).Accepts (some b) tr → Modelled tr →
      List.IsChain (Link E) (b :: tr.map Visit.block) := by
  intro tr
  induction tr with
  | nil => intro b _ _; exact List.isChain_singleton b
  | cons l tr ih =>
      intro b hacc hmod
      refine List.IsChain.cons_cons (hacc.1 b rfl) ?_
      cases tr with
      | nil => exact List.isChain_singleton _
      | cons l' tr =>
          have hl : l.modelled = true := hmod l (by simp)
          have hnext : (edgeMonitor E).next (some b) l = some l.block := by simp [edgeMonitor, hl]
          refine ih l.block (hnext ▸ hacc.2) fun x hx => hmod x ?_
          rw [List.dropLast_cons_of_ne_nil (by simp)]
          exact List.mem_cons_of_mem _ hx

/-- A chain of edges holds a walk to each of its elements, over elements
before it. -/
theorem walk_of_chain {E : Nat → Nat → Prop} {r : Nat} :
    ∀ (bs : List Nat) (a : Nat) (path : List Nat), Walk E r a path →
      List.IsChain (Link E) (a :: bs) → ∀ pre b post, bs = pre ++ b :: post →
        ∃ path', Walk E r b path' ∧ ∀ c ∈ path', c ∈ path ∨ c ∈ pre ++ [b] := by
  intro bs
  induction bs with
  | nil => intro a path _ _ pre b post h; exact absurd h (by simp)
  | cons c bs ih =>
      intro a path hw hchain pre b post hsplit
      have hlink : Link E a c := by
        cases hchain with
        | cons_cons h _ => exact h
      have hrest : List.IsChain (Link E) (c :: bs) := hchain.tail
      have hstep : ∃ path', Walk E r c path' ∧ ∀ d ∈ path', d ∈ path ∨ d = c := by
        rcases hlink with rfl | he
        · exact ⟨path, hw, fun d hd => .inl hd⟩
        · refine ⟨path ++ [c], hw.step he, fun d hd => ?_⟩
          simpa using hd
      obtain ⟨path', hw', hsub⟩ := hstep
      cases pre with
      | nil =>
          cases hsplit
          exact ⟨path', hw', fun d hd => by simpa using hsub d hd⟩
      | cons c' pre =>
          cases hsplit
          obtain ⟨path'', hw'', hsub'⟩ := ih c path' hw' hrest pre b post rfl
          refine ⟨path'', hw'', fun d hd => ?_⟩
          rcases hsub' d hd with hd | hd
          · rcases hsub d hd with hd | rfl
            · exact .inl hd
            · exact .inr (List.mem_cons_self ..)
          · exact .inr (List.mem_cons_of_mem _ hd)

/-! ## §3. The public queries. -/

/-- A query about two blocks of one function. -/
theorem withinFunction_eq {info : CfgInfo} {st : CfgStorage} {fn : CfgFunction} {a b f x y : Nat}
    (query : CfgFunction → Nat → Nat → Bool) (himpl : info.impl = some st)
    (hfn : st.functions[f]? = some fn) (hpos : 0 < f) (ha : st.resolve a = (f, x))
    (hb : st.resolve b = (f, y)) : info.withinFunction query a b = query fn x y := by
  have hf : f ≠ 0 := by omega
  unfold CfgInfo.withinFunction
  simp [himpl, ha, hb, hf, List.getD_eq_getElem?_getD, hfn]

/-- A query that answers `true` was about two blocks of one function. -/
theorem withinFunction_true {info : CfgInfo} {st : CfgStorage} {a b : Nat}
    {query : CfgFunction → Nat → Nat → Bool} (himpl : info.impl = some st)
    (h : info.withinFunction query a b = true) :
    (st.resolve a).1 = (st.resolve b).1
      ∧ query (st.functions.getD (st.resolve a).1 CfgFunction.empty) (st.resolve a).2
          (st.resolve b).2 = true := by
  unfold CfgInfo.withinFunction at h
  simp only [himpl] at h
  split at h
  · exact absurd h (by decide)
  · rename_i hne
    simp only [Bool.or_eq_true, decide_eq_true_eq, not_or, Classical.not_not] at hne
    exact ⟨hne.2, h⟩

/-- What is in the storage for a body without barriers: its graph, with exact
dominators. -/
theorem body_function {root : Node} {i : Nat} {body : Stmt} {bytes : Text} (source : SourceId)
    (hbody : IsBody root i body) (hbar : holdsBarrier bytes body = false) :
    ∃ fn, (computeAllDominators (buildCfg root source bytes).1).functions[i + 1]? = some fn
      ∧ fn.blocks.length = 1 + size body
      ∧ (∀ b < fn.blocks.length, ∃ raw,
          (computeAllDominators (buildCfg root source bytes).1).resolve raw = (i + 1, b))
      ∧ (∀ u v, (u, v) ∈ edges 1 0 body → fn.Edge u v)
      ∧ ∀ b, Reach fn.Edge 0 b → ∀ a, dominatesQuery fn a b = true ↔ Dom fn.Edge 0 a b := by
  obtain ⟨fnNode, f, hnode, herr, hfb⟩ := hbody
  obtain ⟨st, hst⟩ := buildCfg_function source bytes hnode
  obtain ⟨hskip, hlen, hsucc, -⟩ := buildFunction_layout st (i + 1) source herr hfb ((detectBarrier_toNode bytes body f).trans hbar)
  generalize (buildFunction st (i + 1) fnNode source bytes).1 = fn at hst hskip hlen hsucc
  have hid := (buildCfg_indexed root source bytes).id (i + 1) fn
  obtain ⟨fn', hfn', heq, hdom⟩ := computeDominators_spec fn hskip
  have hblocks : fn'.blocks = fn.blocks := by rw [heq]
  have hedge : fn'.Edge = fn.Edge := by
    funext u v
    unfold CfgFunction.Edge CfgFunction.successors
    rw [hblocks]
  refine ⟨fn', ?_, by rw [hblocks, hlen], fun b hb => ?_, fun u v h => ?_, fun b hb => ?_⟩
  · rw [computeAllDominators_get (Nat.succ_pos i) hst, hfn']
    rfl
  · rw [hblocks] at hb
    obtain ⟨raw, -, -, hraw⟩ := hid b (Nat.succ_pos i) hst hb
    exact ⟨raw, hraw⟩
  · rw [hedge]
    refine ⟨by rw [hsucc]; exact mem_targets.mpr h, ?_⟩
    rw [hlen]
    exact edges_lt body h
  · rw [hedge] at hb ⊢
    have hlt : b < fn.blocks.length := CfgFunction.lt_of_reach (by omega) hb
    exact hdom b hlt hb

/-- **Executions are walks of the CFG.**  An execution of a body without
barriers, up to the first step that is not modelled, follows edges from the
entry block on; the blocks it passes are reachable; and when it passes block
`b` it has passed every block that dominates `b`. -/
theorem cfg_sound {root : Node} {i : Nat} {body : Stmt} (bytes : Text) (source : SourceId)
    (hbody : IsBody root i body) (hbar : holdsBarrier bytes body = false) {tr : List Visit}
    (hexec : Executes body tr) (hmod : Modelled tr) :
    ∃ st fn, (buildEntry source root bytes).info.cfg.impl = some st
      ∧ st.functions[i + 1]? = some fn
      ∧ List.IsChain (fun u v => u = v ∨ fn.Edge u v) (0 :: tr.map Visit.block)
      ∧ (∀ l ∈ tr, (∃ raw, st.resolve raw = (i + 1, l.block))
          ∧ ∀ entry raw, st.resolve entry = (i + 1, 0) → st.resolve raw = (i + 1, l.block) →
            (buildEntry source root bytes).info.cfg.reachableFrom entry raw = true)
      ∧ ∀ pre l post, tr = pre ++ l :: post → ∀ a b, st.resolve b = (i + 1, l.block) →
          (buildEntry source root bytes).info.cfg.dominates a b = true →
            (st.resolve a).1 = i + 1 ∧ (st.resolve a).2 ∈ 0 :: (pre ++ [l]).map Visit.block := by
  obtain ⟨fn, hfn, hlen, hid, hedges, hdom⟩ := body_function source hbody hbar
  obtain ⟨o, ho⟩ := hexec
  have himpl : (buildEntry source root bytes).info.cfg.impl
      = some (computeAllDominators (buildCfg root source bytes).1) := rfl
  have hstart : At 0 (some 0) := fun _ h => h
  obtain ⟨hacc, -⟩ := prog_triple (E := fn.Edge) 1 0 none none body hedges (some 0) tr o hstart ho
  have hchain := chain_of_accepts tr 0 hacc hmod
  have hwalk : ∀ pre l post, tr = pre ++ l :: post →
      ∃ path, Walk fn.Edge 0 l.block path ∧ ∀ c ∈ path, c ∈ 0 :: (pre ++ [l]).map Visit.block := by
    intro pre l post hsplit
    obtain ⟨path, hpath, hsub⟩ := walk_of_chain _ 0 [0] Walk.start hchain (pre.map Visit.block)
      l.block (post.map Visit.block) (by rw [hsplit, List.map_append, List.map_cons])
    refine ⟨path, hpath, fun c hc => ?_⟩
    rcases hsub c hc with h | h
    · rw [List.mem_singleton.mp h]
      exact List.mem_cons_self ..
    · rw [List.map_append]
      exact List.mem_cons_of_mem _ h
  have hreach : ∀ l ∈ tr, Reach fn.Edge 0 l.block := by
    intro l hl
    obtain ⟨pre, post, hsplit⟩ := List.append_of_mem hl
    obtain ⟨path, hpath, -⟩ := hwalk pre l post hsplit
    exact hpath.reach
  have hpos : 0 < fn.blocks.length := by omega
  refine ⟨_, fn, himpl, hfn, hchain, fun l hl => ⟨?_, fun entry raw he hr => ?_⟩,
    fun pre l post hsplit a b hb hab => ?_⟩
  · exact hid l.block (CfgFunction.lt_of_reach hpos (hreach l hl))
  · have hlt := CfgFunction.lt_of_reach hpos (hreach l hl)
    unfold CfgInfo.reachableFrom
    rw [withinFunction_eq reachable himpl hfn (Nat.succ_pos i) he hr, reachable_iff hpos hlt]
    exact hreach l hl
  · obtain ⟨hsame, hquery⟩ := withinFunction_true himpl hab
    have hf : ((computeAllDominators (buildCfg root source bytes).1).resolve a).1 = i + 1 := by
      rw [hsame, hb]
    refine ⟨hf, ?_⟩
    rw [hf, hb, List.getD_eq_getElem?_getD, hfn] at hquery
    have hl : l ∈ tr := by simp [hsplit]
    obtain ⟨path, hpath, hsub⟩ := hwalk pre l post hsplit
    exact hsub _ ((hdom l.block (hreach l hl) _).mp hquery path hpath)

/-! ## §4. A `break` out of a loop. -/

/-- `x;` with its one-letter identifier at `lo`. -/
def identStatement (lo : Nat) : PlainNode :=
  ⟨namedNode .expressionStatement none ⟨lo, lo + 2⟩ [namedNode .identifier none ⟨lo, lo + 1⟩ []],
    rfl, rfl⟩

/-- `(c)` with its parenthesis at `lo`. -/
def identCondition (lo : Nat) : PlainNode :=
  ⟨namedNode .conditionClause none ⟨lo, lo + 3⟩
    [namedNode .identifier (some .value) ⟨lo + 1, lo + 2⟩ []], rfl, rfl⟩

/-- A function whose body loops with a way out in the middle. -/
def breakOut : Text := "void f(){do{if(c)break;x;}while(d);y;}".toList

/-- The body of `breakOut`. -/
def breakOutBody : Stmt :=
  .compound ⟨8, 38⟩
    (.cons (.doLoop ⟨9, 35⟩
      (.compound ⟨11, 26⟩
        (.cons (.ifThen ⟨12, 23⟩ (identCondition 14) (.breakStmt ⟨17, 23⟩))
          (.cons (.simple (identStatement 23)) .nil)))
      (identCondition 31))
    (.cons (.simple (identStatement 35)) .nil))

/-- The tree of a source with one function. -/
def singleFunction (body : Stmt) (declarator : Node) (size : Nat) : Node :=
  namedNode .translationUnit none ⟨0, size⟩
    [namedNode .functionDefinition none ⟨0, size⟩ [declarator, body.toNode (some .body)]]

/-- The declarator `f()` after `void`. -/
def declaratorOfF : Node :=
  namedNode .functionDeclarator (some .declarator) ⟨5, 8⟩
    [namedNode .identifier (some .declarator) ⟨5, 6⟩ []]

def breakOutTree : Node := singleFunction breakOutBody declaratorOfF 38

theorem breakOut_isBody : IsBody breakOutTree 0 breakOutBody :=
  ⟨_, some .body, rfl, rfl, rfl⟩

/-- One turn of the loop without the `break`, then on to `y`. -/
def fallThrough : List Visit :=
  [enter 1, run 1 (identCondition 14), enter 3, run 3 (identStatement 23),
    run 4 (identCondition 31), enter 5, run 5 (identStatement 35)]

theorem breakOut_fallThrough : Executes breakOutBody fallThrough :=
  ⟨_, exec_of_follow 20 _ [false, false] rfl⟩

theorem cfg_sound_fallThrough :
    ∃ st fn, (buildEntry ⟨1⟩ breakOutTree breakOut).info.cfg.impl = some st
      ∧ st.functions[0 + 1]? = some fn
      ∧ List.IsChain (fun u v => u = v ∨ fn.Edge u v) (0 :: fallThrough.map Visit.block) := by
  obtain ⟨st, fn, h1, h2, h3, -⟩ := cfg_sound breakOut ⟨1⟩ breakOut_isBody (by decide) breakOut_fallThrough (by unfold Modelled; decide)
  exact ⟨st, fn, h1, h2, h3⟩

/-- The `break` taken at once. -/
def takeBreak : List Visit :=
  [enter 1, run 1 (identCondition 14), enter 2, leave 2 (.breakStmt ⟨17, 23⟩) none, enter 5,
    run 5 (identStatement 35)]

/-- **`dominates` is wrong about a `break`**: the condition of the loop
(local block 4, id 5) is said to dominate the code after the loop (local
block 5, id 6), but the execution `takeBreak` gets there without passing it. -/
theorem breakOut_not_dominated :
    IsBody breakOutTree 0 breakOutBody ∧ holdsBarrier breakOut breakOutBody = false
      ∧ Executes breakOutBody takeBreak
      ∧ (computeAllDominators (buildCfg breakOutTree ⟨1⟩ breakOut).1).resolve 5 = (1, 4)
      ∧ (computeAllDominators (buildCfg breakOutTree ⟨1⟩ breakOut).1).resolve 6 = (1, 5)
      ∧ (buildEntry ⟨1⟩ breakOutTree breakOut).info.cfg.dominates 5 6 = true
      ∧ 5 ∈ takeBreak.map Visit.block ∧ 4 ∉ 0 :: takeBreak.map Visit.block := by
  refine ⟨breakOut_isBody, by decide, ⟨_, exec_of_follow 20 _ [true] rfl⟩, ?_, ?_, ?_, ?_, ?_⟩
  · decide +kernel
  · decide +kernel
  · decide +kernel
  · decide
  · decide

end ShaderClippy.ControlFlow
