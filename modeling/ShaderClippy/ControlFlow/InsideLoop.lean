/-
  ShaderClippy.ControlFlow.InsideLoop

  **IS A STATEMENT INSIDE A LOOP?** (`inside_loop`).

  The query asks for a back edge whose header dominates the block the span is
  located in. The second half of the test its comment announces, that the
  block can reach the source of the back edge, is missing: an `if` behind a
  loop is reported, and a loop that is never closed is not
  (`loopLaw_iff`).
-/
import ShaderClippy.ControlFlow.HelperLane
import ShaderClippy.ControlFlow.LoopCover

namespace ShaderClippy.ControlFlow

open Graph

/-! ## §1. The query on one function. -/

/-- The parent walk is the one of `dominates_query`. -/
theorem onIdomChain_eq (idom : List Nat) (h : Nat) :
    ∀ guard cur, onIdomChain idom h guard cur = dominatesWalk idom h guard cur := by
  intro guard
  induction guard with
  | zero => intro cur; rfl
  | succ guard ih =>
      intro cur
      unfold onIdomChain dominatesWalk
      by_cases heq : cur = h
      · rw [if_pos heq, if_pos heq]
      · rw [if_neg heq, if_neg heq]
        simp only
        split
        · -- the entry ends the walk; it is not `h`
          exact (beq_eq_false_iff_ne.mpr fun hc => heq hc.symm).symm
        · exact ih _

section Query

variable {fn fn' : CfgFunction}

/-- The chain of a reached block: its dominators. -/
theorem onIdomChain_reached (hskip : fn.errorSkipped = false)
    (hd : computeDominators fn = some fn') {h b : Nat} (hh : h < fn.blocks.length)
    (hreach : Reach fn.Edge 0 b) :
    onIdomChain fn'.idom h (fn.blocks.length + 1) b = true ↔ Dom fn.Edge 0 h b := by
  have hb := CfgFunction.lt_of_reach (Nat.zero_lt_of_lt hh) hreach
  obtain ⟨fn'', hd', hsame, hdom⟩ := computeDominators_spec fn hskip
  rw [hd] at hd'
  cases hd'
  have hlen := computeDominators_length hskip hd
  have hblocks := computeDominators_blocks hd
  rw [← hdom b hb hreach h, onIdomChain_eq]
  unfold dominatesQuery
  rw [hblocks, if_neg (by simp; omega), if_neg (by omega)]

/-- From the entry, which is its own parent, the walk goes nowhere. -/
theorem onIdomChain_root {idom : List Nat} (hroot : idom.getD 0 0 = 0) {h guard : Nat}
    (hon : onIdomChain idom h guard 0 = true) : h = 0 := by
  cases guard with
  | zero => cases hon
  | succ guard =>
      unfold onIdomChain at hon
      simp only [hroot] at hon
      split at hon
      · exact Eq.symm ‹_›
      · cases hon

/-- The chain of a block that is not reached: itself and the entry. -/
theorem onIdomChain_unreached (hskip : fn.errorSkipped = false)
    (hd : computeDominators fn = some fn') {h b : Nat} (hpos : 0 < fn.blocks.length)
    (hreach : ¬ Reach fn.Edge 0 b) (hon : onIdomChain fn'.idom h (fn.blocks.length + 1) b = true) :
    h = b ∨ h = 0 := by
  obtain ⟨hroot, hnone⟩ := computeDominators_unreached hskip hd hpos
  unfold onIdomChain at hon
  simp only [hnone b hreach] at hon
  split at hon
  · exact Or.inl (Eq.symm ‹_›)
  · split at hon
    · cases hon
    · exact Or.inr (onIdomChain_root hroot hon)

/-- An edge to a block on the chain of `c` starts or leads to a reached block:
its target is neither the entry nor a block without a way in. -/
theorem onIdomChain_target (hskip : fn.errorSkipped = false)
    (hd : computeDominators fn = some fn') (hentry : ∀ u, ¬ fn.Edge u 0) {h t c : Nat}
    (he : fn.Edge t h) (hne : h ≠ c)
    (hon : onIdomChain fn'.idom h (fn.blocks.length + 1) c = true) :
    Reach fn.Edge 0 c ∧ Dom fn.Edge 0 h c := by
  have hreach : Reach fn.Edge 0 c := by
    refine Classical.byContradiction fun hnot => ?_
    rcases onIdomChain_unreached hskip hd (Nat.zero_lt_of_lt he.2) hnot hon with heq | heq
    · exact hne heq
    · rw [heq] at he
      exact hentry t he
  exact ⟨hreach, (onIdomChain_reached hskip hd he.2 hreach).mp hon⟩

/-- What the loop over the edges finds. -/
theorem dominatedByHeader_edge (hd : computeDominators fn = some fn') {b : Nat} :
    dominatedByHeader fn' b = true ↔ ∃ t h, fn.Edge t h
      ∧ onIdomChain fn'.idom h (fn.blocks.length + 1) t = true
      ∧ onIdomChain fn'.idom h (fn.blocks.length + 1) b = true := by
  have hblocks := computeDominators_blocks hd
  have hsucc : ∀ u, fn'.successors u = fn.successors u := by
    intro u
    unfold CfgFunction.successors
    rw [hblocks]
  unfold dominatedByHeader
  simp only [hblocks, hsucc, List.any_eq_true, List.mem_range]
  constructor
  · intro ⟨t, _, h, hmem, hon⟩
    split at hon
    · cases hon
    · rw [Bool.and_eq_true] at hon
      exact ⟨t, h, ⟨hmem, Nat.lt_of_not_le ‹_›⟩, hon.1, hon.2⟩
  · intro ⟨t, h, he, hont, honb⟩
    refine ⟨t, he.src_lt, h, he.1, ?_⟩
    rw [if_neg (Nat.not_le_of_lt he.2), hont, honb]
    rfl

/-- **What it answers**: is the block under a loop? -/
theorem dominatedByHeader_iff (hskip : fn.errorSkipped = false)
    (hd : computeDominators fn = some fn') (ha : Ascending fn.Edge 0)
    (hentry : ∀ u, ¬ fn.Edge u 0) (b : Nat) :
    dominatedByHeader fn' b = true ↔ UnderLoop fn.Edge 0 b := by
  rw [dominatedByHeader_edge hd]
  constructor
  · intro ⟨t, h, he, hont, honb⟩
    have hth : h ≠ t := by
      intro heq
      rw [heq] at he
      exact ha.irrefl t he
    obtain ⟨hreacht, hdt⟩ := onIdomChain_target hskip hd hentry he hth hont
    by_cases hhb : h = b
    · rw [← hhb]
      exact ⟨hreacht.tail he, t, h, he, hreacht, hdt, Dom.refl h⟩
    · obtain ⟨hreachb, hdb⟩ := onIdomChain_target hskip hd hentry he hhb honb
      exact ⟨hreachb, t, h, he, hreacht, hdt, hdb⟩
  · intro ⟨hreachb, t, h, he, hreacht, hdt, hdb⟩
    exact ⟨t, h, he, (onIdomChain_reached hskip hd he.2 hreacht).mpr hdt,
      (onIdomChain_reached hskip hd he.2 hreachb).mpr hdb⟩

/-- Where all edges go up there is no loop to be found. -/
theorem dominatedByHeader_of_up (hskip : fn.errorSkipped = false)
    (hd : computeDominators fn = some fn') (hup : ∀ u v, fn.Edge u v → u < v) (b : Nat) :
    dominatedByHeader fn' b = false := by
  refine Bool.eq_false_iff.mpr fun hon => ?_
  obtain ⟨t, h, he, hont, -⟩ := (dominatedByHeader_edge hd).mp hon
  have hlt := hup t h he
  have hentry : ∀ u, ¬ fn.Edge u 0 := fun u hu => Nat.not_lt_zero u (hup u 0 hu)
  obtain ⟨hreach, hdom⟩ := onIdomChain_target hskip hd hentry he (by omega) hont
  have hle := Ascending.dom_le (fun u v hu => Or.inl (hup u v hu)) hreach hdom
  omega

end Query

/-! ## §2. The query on a statement. -/

section Function

variable {root fnNode : Node} {i : Nat} {source : SourceId} {bytes : Text} {span : ByteSpan}
  {body : Stmts} {f : Option Field}

/-- The query, by what `locate_block` returns. -/
theorem insideLoop_eq (hnode : (collectFunctions root)[i]? = some fnNode)
    (herr : fnNode.hasError = false) (x : Span) {b raw : Nat}
    (hloc : locateBlock (buildCfg root source bytes).1 x = ⟨i + 1, b, raw⟩) :
    ∃ st fn', (buildFunction st (i + 1) fnNode source bytes).1.errorSkipped = false
      ∧ computeDominators (buildFunction st (i + 1) fnNode source bytes).1 = some fn'
      ∧ insideLoop (buildEntry source root bytes).info x = dominatedByHeader fn' b := by
  obtain ⟨st, hst⟩ := buildCfg_function source bytes hnode
  have hfn := computeAllDominators_get (Nat.succ_pos i) hst
  have hlt := (List.getElem?_eq_some_iff.mp hfn).1
  have hskip := buildFunction_not_skipped st (i + 1) source bytes herr
  obtain ⟨fn', hd, hsame, -⟩ := computeDominators_spec _ hskip
  refine ⟨st, fn', hskip, hd, ?_⟩
  rw [hd, Option.getD_some] at hfn
  have himpl : (buildEntry source root bytes).info.cfg.impl
      = some (computeAllDominators (buildCfg root source bytes).1) := rfl
  have hlocate : locateBlock (computeAllDominators (buildCfg root source bytes).1) x
      = ⟨i + 1, b, raw⟩ := hloc
  have hskip' : fn'.errorSkipped = false := by
    rw [hsame]
    exact hskip
  have hlen : fn'.idom.length = fn'.blocks.length := by
    rw [computeDominators_length hskip hd, computeDominators_blocks hd]
  unfold insideLoop
  simp only [himpl, hlocate]
  rw [if_neg (by simp; omega), List.getD_eq_getElem?_getD, hfn, Option.getD_some, hskip',
    if_neg (by decide), if_neg (by simp [hlen])]

/-- Where nothing is located the answer is no. -/
theorem insideLoop_unlocated {x : Span} {b raw : Nat}
    (hloc : locateBlock (buildCfg root source bytes).1 x = ⟨0, b, raw⟩) :
    insideLoop (buildEntry source root bytes).info x = false := by
  have himpl : (buildEntry source root bytes).info.cfg.impl
      = some (computeAllDominators (buildCfg root source bytes).1) := rfl
  have hlocate : locateBlock (computeAllDominators (buildCfg root source bytes).1) x
      = ⟨0, b, raw⟩ := hloc
  unfold insideLoop
  simp only [himpl, hlocate]
  rfl

/-- With a barrier there is one edge, and it goes up. -/
theorem buildFunction_barrier_up (st : CfgStorage) (functionId : Nat)
    (herr : fnNode.hasError = false)
    (hbody : functionBody fnNode = some ((Stmt.compound span body).toNode f))
    (hbar : holdsBarrier bytes (.compound span body) = true) :
    ∀ u v, (buildFunction st functionId fnNode source bytes).1.Edge u v → u < v := by
  have hblocks := buildFunction_barrier st functionId source herr hbody
    ((detectBarrier_toNode bytes _ f).trans hbar)
  intro u v ⟨hmem, _⟩
  unfold CfgFunction.successors at hmem
  rw [hblocks] at hmem
  match u with
  | 0 =>
      rw [List.mem_singleton.mp hmem]
      exact Nat.one_pos
  | 1 => exact absurd hmem List.not_mem_nil
  | _ + 2 => exact absurd hmem List.not_mem_nil

/-- In a body with a barrier the answer is no. -/
theorem insideLoop_of_barrier (hw : root.wellSpanned = true)
    (hnode : (collectFunctions root)[i]? = some fnNode) (herr : fnNode.hasError = false)
    (hbody : functionBody fnNode = some ((Stmt.compound span body).toNode f))
    (hbar : holdsBarrier bytes (.compound span body) = true) {s : PlainNode}
    (hs : s ∈ body.simples) (hne : s.node.info.lo < s.node.info.hi) :
    insideLoop (buildEntry source root bytes).info (s.node.span source) = false := by
  have hown := @locateBlock_own root fnNode i source bytes span body f hw hnode hbody s hs hne
  cases hloc : locateBlock (buildCfg root source bytes).1 (s.node.span source) with
  | mk functionId b raw =>
      rw [hloc] at hown
      rcases hown with hzero | hfunction
      · change functionId = 0 at hzero
        rw [hzero] at hloc
        exact insideLoop_unlocated hloc
      · change functionId = i + 1 at hfunction
        rw [hfunction] at hloc
        obtain ⟨st, fn', hskip, hd, hquery⟩ := insideLoop_eq hnode herr _ hloc
        rw [hquery]
        exact dominatedByHeader_of_up hskip hd
          (buildFunction_barrier_up st (i + 1) herr hbody hbar) b

/-- Without one, the home of the statement decides the answer. -/
theorem insideLoop_of_home (hw : root.wellSpanned = true) (hsize : root.info.hi < 2 ^ 32)
    (hnode : (collectFunctions root)[i]? = some fnNode) (herr : fnNode.hasError = false)
    (hbody : functionBody fnNode = some ((Stmt.compound span body).toNode f))
    (hsp : (Stmt.compound span body).spaced = true)
    (hbar : holdsBarrier bytes (.compound span body) = false) {s : PlainNode} {h : Option Nat}
    (hm : (s, h) ∈ homesAll 1 (entryHome fnNode) body)
    (hne : s.node.info.lo < s.node.info.hi) :
    insideLoop (buildEntry source root bytes).info (s.node.span source) = true
      ↔ ∃ b, h = some b
        ∧ UnderLoop (fun u v => (u, v) ∈ edges 1 0 (.compound span body)) 0 b := by
  obtain ⟨hsome, hnone⟩ := @locateBlock_home root fnNode i source bytes span body f hw hsize
    hnode herr hbody hsp hbar s h hm hne
  cases h with
  | none =>
      rw [insideLoop_unlocated (hnone rfl)]
      constructor
      · intro h
        cases h
      · intro ⟨b, hb, _⟩
        cases hb
  | some b =>
      obtain ⟨raw, -, hhit, -⟩ := hsome b rfl
      obtain ⟨st, fn', hskip, hd, hquery⟩ := insideLoop_eq hnode herr _ hhit
      have hedge : (buildFunction st (i + 1) fnNode source bytes).1.Edge
          = fun u v => (u, v) ∈ edges 1 0 (.compound span body) :=
        buildFunction_edge st (i + 1) source herr hbody hbar
      have hentry : ∀ u, ¬ (buildFunction st (i + 1) fnNode source bytes).1.Edge u 0 := by
        intro u hu
        rw [hedge] at hu
        exact Nat.lt_irrefl 0 (edges_range _ hu).2.1
      rw [hquery, dominatedByHeader_iff hskip hd (hedge ▸ edges_ascending _) hentry b, hedge]
      constructor
      · intro hu
        exact ⟨b, rfl, hu⟩
      · intro ⟨b', hb', hu⟩
        cases hb'
        exact hu

/-- **What the query answers** about a simple statement: is its home covered
by a loop?  In a body with a barrier it never is. -/
theorem insideLoop_iff (hw : root.wellSpanned = true) (hsize : root.info.hi < 2 ^ 32)
    (hnode : (collectFunctions root)[i]? = some fnNode) (herr : fnNode.hasError = false)
    (hbody : functionBody fnNode = some ((Stmt.compound span body).toNode f))
    (hsp : (Stmt.compound span body).spaced = true) {s : PlainNode} (hs : s ∈ body.simples)
    (hne : s.node.info.lo < s.node.info.hi) :
    insideLoop (buildEntry source root bytes).info (s.node.span source) = true
      ↔ holdsBarrier bytes (.compound span body) = false
        ∧ s ∈ coveredSimplesAll false true false body := by
  cases hbar : holdsBarrier bytes (.compound span body) with
  | true =>
      rw [insideLoop_of_barrier hw hnode herr hbody hbar hs hne]
      constructor
      · intro h
        cases h
      · intro h
        cases h.1
  | false =>
      have howns : Owns (fun u v => (u, v) ∈ edges 1 0 (.compound span body)) (edgesAll 1 0 body) 1
          (1 + sizeAll body) := fun _ _ _ _ => Iff.rfl
      have hflags : Flags (fun u v => (u, v) ∈ edges 1 0 (.compound span body)) 0 true false :=
        flags_entry fun u he => Nat.lt_irrefl 0 (edges_range _ he).2.1
      -- nothing is in front of the entry
      have hhome : false = true ↔ ∃ b, entryHome fnNode = some b
          ∧ UnderLoop (fun u v => (u, v) ∈ edges 1 0 (.compound span body)) 0 b := by
        refine ⟨nofun, fun ⟨b, hb, hu⟩ => ?_⟩
        unfold entryHome at hb
        split at hb
        · cases hb
          exact hflags.covered.mp hu
        · cases hb
      rw [mem_coveredSimplesAll (edges_ascending _) body howns Nat.one_pos hflags hhome s]
      obtain ⟨h, hm⟩ := exists_home 1 (entryHome fnNode) hs
      constructor
      · intro hyes
        obtain ⟨b, hb, hu⟩ := (insideLoop_of_home hw hsize hnode herr hbody hsp hbar hm hne).mp hyes
        rw [hb] at hm
        exact ⟨rfl, b, hm, hu⟩
      · intro ⟨_, b, hm', hu⟩
        exact (insideLoop_of_home hw hsize hnode herr hbody hsp hbar hm' hne).mpr ⟨b, rfl, hu⟩

end Function

/-! ## §3. The law. -/

mutual
/-- The simple statements inside a `for`, a `while` or a `do`. -/
def loopSimples : Stmt → List PlainNode
  | .simple _ | .returnStmt .. | .breakStmt _ | .continueStmt _ => []
  | .compound _ body | .switch _ _ _ body | .caseStmt _ _ body => loopSimplesAll body
  | .ifThen _ _ thenStmt => loopSimples thenStmt
  | .ifElse _ _ thenStmt _ elseStmt => loopSimples thenStmt ++ loopSimples elseStmt
  | .forLoop _ _ _ _ body | .whileLoop _ _ body | .doLoop _ body _ => body.simples

def loopSimplesAll : Stmts → List PlainNode
  | .nil => []
  | .cons s ss => loopSimples s ++ loopSimplesAll ss
end

/-- The answer of `inside_loop` is right for `s`. -/
def LoopLaw (source : SourceId) (root : Node) (bytes : Text) (body : Stmts) (s : PlainNode) :
    Prop :=
  insideLoop (buildEntry source root bytes).info (s.node.span source) = true
    ↔ s ∈ loopSimplesAll body

/-- **When the answer is right.**  Inside a loop: exactly if the body holds no
barrier call and the home of `s` is covered, by a loop around it or in front of
it whose body leads back. Outside of all loops: exactly if the body holds a
barrier call or the home of `s` is not covered, which it is in the arms of an
`if` behind such a loop. -/
theorem loopLaw_iff {root fnNode : Node} {i : Nat} {source : SourceId} {bytes : Text}
    {span : ByteSpan} {body : Stmts} {f : Option Field} {s : PlainNode}
    (hw : root.wellSpanned = true) (hsize : root.info.hi < 2 ^ 32)
    (hnode : (collectFunctions root)[i]? = some fnNode) (herr : fnNode.hasError = false)
    (hbody : functionBody fnNode = some ((Stmt.compound span body).toNode f))
    (hsp : (Stmt.compound span body).spaced = true) (hs : s ∈ body.simples)
    (hne : s.node.info.lo < s.node.info.hi) :
    LoopLaw source root bytes body s
      ↔ (s ∈ loopSimplesAll body → holdsBarrier bytes (.compound span body) = false
          ∧ s ∈ coveredSimplesAll false true false body)
        ∧ (s ∉ loopSimplesAll body → holdsBarrier bytes (.compound span body) = true
          ∨ s ∉ coveredSimplesAll false true false body) := by
  unfold LoopLaw
  rw [insideLoop_iff hw hsize hnode herr hbody hsp hs hne]
  constructor
  · intro hlaw
    refine ⟨fun hin => hlaw.mpr hin, fun hout => ?_⟩
    cases hbar : holdsBarrier bytes (.compound span body) with
    | true => exact Or.inl rfl
    | false => exact Or.inr fun hcov => hout (hlaw.mp ⟨hbar, hcov⟩)
  · intro ⟨hin, hout⟩
    refine ⟨fun ⟨hbar, hcov⟩ => ?_, hin⟩
    refine Classical.byContradiction fun hnot => ?_
    rcases hout hnot with h | h
    · rw [hbar] at h
      cases h
    · exact h hcov

/-! ## §4. Behind a loop. -/

/-- A loop, and an `if` behind it. -/
def behindLoop : Text := "void f(){while(c)x;if(d)y;}".toList

/-- The body of `behindLoop`. -/
def behindLoopBody : Stmts :=
  .cons (.whileLoop ⟨9, 19⟩ (identCondition 14) (.simple (identStatement 17)))
    (.cons (.ifThen ⟨19, 26⟩ (identCondition 21) (.simple (identStatement 24))) .nil)

/-- The function of `behindLoop`. -/
def behindLoopFunction : Node :=
  namedNode .functionDefinition none ⟨0, 27⟩
    [declaratorOfF, (Stmt.compound ⟨8, 27⟩ behindLoopBody).toNode (some .body)]

def behindLoopTree : Node := namedNode .translationUnit none ⟨0, 27⟩ [behindLoopFunction]

theorem behindLoop_node : (collectFunctions behindLoopTree)[0]? = some behindLoopFunction := rfl

theorem behindLoop_body : functionBody behindLoopFunction
    = some ((Stmt.compound ⟨8, 27⟩ behindLoopBody).toNode (some .body)) := rfl

/-- `x` is inside the loop, and reported. -/
theorem loopLaw_iff_behindLoop :
    LoopLaw ⟨1⟩ behindLoopTree behindLoop behindLoopBody (identStatement 17) := by
  have hin : identStatement 17 ∈ loopSimplesAll behindLoopBody := List.mem_cons_self ..
  exact (loopLaw_iff (by decide) (by decide) behindLoop_node rfl behindLoop_body (by decide)
    (List.mem_cons_self ..) (by decide)).mpr
    ⟨fun _ => ⟨by decide, List.mem_cons_self ..⟩, fun hout => absurd hin hout⟩

/-- **`y` is behind the loop, and reported inside it**: the header of the loop
dominates the block of the `if`. -/
theorem behindLoop_reported :
    insideLoop (buildEntry ⟨1⟩ behindLoopTree behindLoop).info ((identStatement 24).node.span ⟨1⟩)
        = true
      ∧ identStatement 24 ∉ loopSimplesAll behindLoopBody := by
  constructor
  · refine (insideLoop_iff (by decide) (by decide) behindLoop_node rfl behindLoop_body (by decide)
      (List.mem_cons_of_mem _ (List.mem_cons_self ..)) (by decide)).mpr ⟨by decide, ?_⟩
    exact List.mem_cons_of_mem _ (List.mem_cons_self ..)
  · intro h
    have hlo := congrArg (fun n : PlainNode => n.node.info.lo) (List.mem_singleton.mp h)
    change 24 = 17 at hlo
    omega

end ShaderClippy.ControlFlow
