/-
  ShaderClippy.ControlFlow.HelperLane

  **WHERE A LANE MAY HAVE BEEN DISCARDED** (`helper_lane_analyzer.cpp`).

  `possibly_helper_lane_at` locates a span, at the home of the statement, and
  asks whether a marked block leads there. The mark of a statement that
  mentions a discard anywhere in its text is set where the statement BEGINS: a
  body that mentions one marks its entry, and then the answer is `true` for
  every statement whose home can be reached (`helperLaneLaw_iff`), also in
  front of the discard.
-/
import ShaderClippy.ControlFlow.BlockLocation
import ShaderClippy.ControlFlow.DiscardMarks

namespace ShaderClippy.ControlFlow

open Graph (Reach)
open Structured

/-! ## §1. The query. -/

/-- One turn of the loop of `locate`; a hit is a function id and a local
index. -/
def locateLocalStep (st : CfgStorage) (span : Span) (best : (Nat × Nat) × Nat)
    (entry : Span × Nat) : (Nat × Nat) × Nat :=
  if !contains entry.1 span then best
  else if spanSize entry.1 < best.2 then
    -- `raw - 1U` of zero is above every index
    if 0 < entry.2 ∧ entry.2 - 1 < st.blockToFunction.length then
      ((st.blockToFunction.getD (entry.2 - 1) 0, st.blockToLocal.getD (entry.2 - 1) 0),
        spanSize entry.1)
    else (best.1, spanSize entry.1)
  else best

/-- `locate`. -/
def locateLocal (st : CfgStorage) (span : Span) : Nat × Nat :=
  (st.spanToBlock.foldl (locateLocalStep st span) ((0, 0), 2 ^ 32 - 1)).1

/-- `any_discard_can_reach`. -/
def anyDiscardCanReach (fn : CfgFunction) (targetLocal : Nat) : Bool :=
  if targetLocal ≥ fn.blocks.length then false
  else (List.range fn.blocks.length).any fun start =>
    fn.containsDiscard start
      && (decide (start = targetLocal) || search fn false (fun _ => false) start targetLocal)

/-- **`possibly_helper_lane_at`.** -/
def possiblyHelperLaneAt (info : ControlFlowInfo) (span : Span) : Bool :=
  match info.cfg.impl with
  | none => false
  | some st =>
      let (functionId, localIndex) := locateLocal st span
      if functionId = 0 || functionId ≥ st.functions.length then false
      else
        let fn := st.functions.getD functionId CfgFunction.empty
        if fn.errorSkipped then false else anyDiscardCanReach fn localIndex

/-! ## §2. What it answers. -/

/-- `locate` is `locate_block` without the raw id. -/
theorem locateLocal_eq (st : CfgStorage) (span : Span) :
    locateLocal st span = ((locateBlock st span).functionId, (locateBlock st span).localIndex) := by
  have hfold : ∀ (l : List (Span × Nat)) (best : BlockHit × Nat),
      l.foldl (locateLocalStep st span) ((best.1.functionId, best.1.localIndex), best.2)
        = (((l.foldl (locateStep st span) best).1.functionId,
            (l.foldl (locateStep st span) best).1.localIndex),
          (l.foldl (locateStep st span) best).2) := by
    intro l
    induction l with
    | nil => intro best; rfl
    | cons e l ih =>
        intro best
        have hstep : locateLocalStep st span ((best.1.functionId, best.1.localIndex), best.2) e
            = (((locateStep st span best e).1.functionId, (locateStep st span best e).1.localIndex),
              (locateStep st span best e).2) := by
          unfold locateLocalStep locateStep
          split
          · rfl
          · split
            · split <;> rfl
            · rfl
        rw [List.foldl_cons, List.foldl_cons, hstep, ih]
  exact congrArg Prod.fst (hfold st.spanToBlock (⟨0, 0, 0⟩, 2 ^ 32 - 1))

/-- What is located is recorded. -/
theorem locateBlock_recorded {st : CfgStorage} (h : Indexed st) (x : Span) :
    (locateBlock st x).functionId = 0
      ∨ ∃ e ∈ st.spanToBlock, contains e.1 x = true
          ∧ (locateBlock st x).functionId = (st.resolve e.2).1 := by
  have hfold : ∀ (l : List (Span × Nat)) (best : BlockHit × Nat), (∀ e ∈ l, e ∈ st.spanToBlock) →
      (best.1.functionId = 0 ∨ ∃ e ∈ st.spanToBlock, contains e.1 x = true
        ∧ best.1.functionId = (st.resolve e.2).1) →
      (l.foldl (locateStep st x) best).1.functionId = 0
        ∨ ∃ e ∈ st.spanToBlock, contains e.1 x = true
          ∧ (l.foldl (locateStep st x) best).1.functionId = (st.resolve e.2).1 := by
    intro l
    induction l with
    | nil => intro best _ hbest; exact hbest
    | cons e l ih =>
        intro best hl hbest
        have he := hl e (List.mem_cons_self ..)
        refine ih _ (fun e' he' => hl e' (List.mem_cons_of_mem _ he')) ?_
        obtain ⟨fn, block, hpos, hle, -⟩ := h.entry e.1 e.2 he
        unfold locateStep
        split
        · exact hbest
        · rename_i hin
          split
          · refine .inr ⟨e, he, by simpa using hin, ?_⟩
            rw [if_pos ⟨hpos, by omega⟩]
            unfold CfgStorage.resolve
            rw [if_neg (by simp; omega)]
          · exact hbest
  exact hfold st.spanToBlock _ (fun _ he => he) (.inl rfl)

/-- **The query finds exactly the paths** from the marked blocks. -/
theorem anyDiscardCanReach_iff (fn : CfgFunction) (target : Nat) :
    anyDiscardCanReach fn target = true
      ↔ ∃ start, fn.containsDiscard start = true ∧ Reach fn.Edge start target := by
  unfold anyDiscardCanReach
  split
  case isTrue hout =>
    refine ⟨fun h => (by cases h), fun ⟨start, hmark, hreach⟩ => ?_⟩
    have ht := reach_lt hreach (CfgFunction.containsDiscard_lt hmark)
    omega
  case isFalse hin =>
    have ht : target < fn.blocks.length := by omega
    have hreachable : ∀ start < fn.blocks.length,
        (decide (start = target) || search fn false (fun _ => false) start target)
          = reachable fn start target := by
      intro start hs
      unfold reachable
      rw [if_neg (by simp; omega)]
      by_cases heq : start = target <;> simp [heq]
    rw [List.any_eq_true]
    simp only [List.mem_range, Bool.and_eq_true]
    constructor
    · intro ⟨start, hs, hmark, hreach⟩
      rw [hreachable start hs] at hreach
      exact ⟨start, hmark, (reachable_iff hs ht).mp hreach⟩
    · intro ⟨start, hmark, hreach⟩
      have hs := CfgFunction.containsDiscard_lt hmark
      refine ⟨start, hs, hmark, ?_⟩
      rw [hreachable start hs]
      exact (reachable_iff hs ht).mpr hreach

section Function

variable {root fnNode : Node} {i : Nat} {source : SourceId} {bytes : Text} {span : ByteSpan}
  {body : Stmts} {f : Option Field}

/-- A statement that mentions a discard leads to the home of `s`. -/
def MentionLeads (fnNode : Node) (bytes : Text) (span : ByteSpan) (body : Stmts) (s : PlainNode) :
    Prop :=
  holdsBarrier bytes (.compound span body) = false
    ∧ ∃ b, (s, some b) ∈ homesAll 1 (entryHome fnNode) body
      ∧ ∃ d ∈ discards bytes 1 0 (.compound span body),
        Reach (fun u v => (u, v) ∈ edgesAll 1 0 body) d b

/-- A statement of the body is located in the function, or nowhere. -/
theorem locateBlock_own (hw : root.wellSpanned = true)
    (hnode : (collectFunctions root)[i]? = some fnNode)
    (hbody : functionBody fnNode = some ((Stmt.compound span body).toNode f)) {s : PlainNode}
    (hs : s ∈ body.simples) (hne : s.node.info.lo < s.node.info.hi) :
    (locateBlock (buildCfg root source bytes).1 (s.node.span source)).functionId = 0
      ∨ (locateBlock (buildCfg root source bytes).1 (s.node.span source)).functionId = i + 1 := by
  rcases locateBlock_recorded (buildCfg_indexed root source bytes) (s.node.span source) with
    hzero | ⟨e, he, hcont, hfunction⟩
  · exact Or.inl hzero
  · refine Or.inr (hfunction.trans ?_)
    exact recorded_own hw hnode (covers_simple source hw hnode hbody hs) hne e he hcont

/-- The query, by what `locate` returns. -/
theorem possiblyHelperLaneAt_eq (hnode : (collectFunctions root)[i]? = some fnNode)
    (herr : fnNode.hasError = false) (x : Span) {b : Nat}
    (hloc : locateLocal (buildCfg root source bytes).1 x = (i + 1, b)) :
    ∃ st, possiblyHelperLaneAt (buildEntry source root bytes).info x
      = anyDiscardCanReach (buildFunction st (i + 1) fnNode source bytes).1 b := by
  obtain ⟨st, hst⟩ := buildCfg_function source bytes hnode
  refine ⟨st, ?_⟩
  have hfn := computeAllDominators_get (Nat.succ_pos i) hst
  have hlt := (List.getElem?_eq_some_iff.mp hfn).1
  have hskip := buildFunction_not_skipped st (i + 1) source bytes herr
  generalize (buildFunction st (i + 1) fnNode source bytes).1 = fn at hfn hskip ⊢
  have hsame : ((computeDominators fn).getD fn).blocks = fn.blocks
      ∧ ((computeDominators fn).getD fn).errorSkipped = false := by
    obtain ⟨fn', hd, heq, -⟩ := computeDominators_spec fn hskip
    rw [hd, Option.getD_some, heq]
    exact ⟨rfl, hskip⟩
  have hquery : ∀ {fn fn' : CfgFunction}, fn'.blocks = fn.blocks →
      anyDiscardCanReach fn' b = anyDiscardCanReach fn b := by
    intro fn fn' hblocks
    refine Bool.eq_iff_iff.mpr ?_
    rw [anyDiscardCanReach_iff, anyDiscardCanReach_iff]
    unfold CfgFunction.Edge CfgFunction.successors CfgFunction.containsDiscard
    rw [hblocks]
  have himpl : (buildEntry source root bytes).info.cfg.impl
      = some (computeAllDominators (buildCfg root source bytes).1) := rfl
  have hlocate : locateLocal (computeAllDominators (buildCfg root source bytes).1) x = (i + 1, b) :=
    hloc
  unfold possiblyHelperLaneAt
  simp only [himpl, hlocate]
  rw [if_neg (by simp; omega), List.getD_eq_getElem?_getD, hfn, Option.getD_some, hsame.2,
    if_neg (by decide)]
  exact hquery hsame.1

/-- Where nothing is located the answer is no. -/
theorem possiblyHelperLaneAt_unlocated {x : Span} {b : Nat}
    (hloc : locateLocal (buildCfg root source bytes).1 x = (0, b)) :
    possiblyHelperLaneAt (buildEntry source root bytes).info x = false := by
  have himpl : (buildEntry source root bytes).info.cfg.impl
      = some (computeAllDominators (buildCfg root source bytes).1) := rfl
  have hlocate : locateLocal (computeAllDominators (buildCfg root source bytes).1) x = (0, b) := hloc
  unfold possiblyHelperLaneAt
  simp only [himpl, hlocate]
  rfl

/-- In a body with a barrier the answer is no: the entry is the block before
the barrier, and nothing is marked. -/
theorem possiblyHelperLaneAt_of_barrier (hw : root.wellSpanned = true)
    (hnode : (collectFunctions root)[i]? = some fnNode) (herr : fnNode.hasError = false)
    (hbody : functionBody fnNode = some ((Stmt.compound span body).toNode f))
    (hbar : holdsBarrier bytes (.compound span body) = true) {s : PlainNode}
    (hs : s ∈ body.simples) (hne : s.node.info.lo < s.node.info.hi) :
    possiblyHelperLaneAt (buildEntry source root bytes).info (s.node.span source) = false := by
  have hloc := locateLocal_eq (buildCfg root source bytes).1 (s.node.span source)
  rcases @locateBlock_own root fnNode i source bytes span body f hw hnode hbody s hs hne with
    hzero | hfunction
  · rw [hzero] at hloc
    exact possiblyHelperLaneAt_unlocated hloc
  · rw [hfunction] at hloc
    obtain ⟨st, hquery⟩ := possiblyHelperLaneAt_eq hnode herr _ hloc
    rw [hquery]
    unfold anyDiscardCanReach
    have hmarks := buildFunction_noDiscards st (i + 1) source herr hbody
      ((detectBarrier_toNode bytes _ f).trans hbar)
    split
    · rfl
    · simp [hmarks]

/-- Without one, the home of the statement decides the answer. -/
theorem possiblyHelperLaneAt_of_home (hw : root.wellSpanned = true)
    (hsize : root.info.hi < 2 ^ 32) (hnode : (collectFunctions root)[i]? = some fnNode)
    (herr : fnNode.hasError = false)
    (hbody : functionBody fnNode = some ((Stmt.compound span body).toNode f))
    (hsp : (Stmt.compound span body).spaced = true)
    (hbar : holdsBarrier bytes (.compound span body) = false) {s : PlainNode} {h : Option Nat}
    (hm : (s, h) ∈ homesAll 1 (entryHome fnNode) body)
    (hne : s.node.info.lo < s.node.info.hi) :
    possiblyHelperLaneAt (buildEntry source root bytes).info (s.node.span source) = true
      ↔ ∃ b, h = some b ∧ ∃ d ∈ discards bytes 1 0 (.compound span body),
        Reach (fun u v => (u, v) ∈ edgesAll 1 0 body) d b := by
  have hbar' := (detectBarrier_toNode bytes (.compound span body) f).trans hbar
  obtain ⟨hsome, hnone⟩ := @locateBlock_home root fnNode i source bytes span body f hw hsize
    hnode herr hbody hsp hbar s h hm hne
  have hloc := locateLocal_eq (buildCfg root source bytes).1 (s.node.span source)
  cases h with
  | none =>
      rw [hnone rfl] at hloc
      rw [possiblyHelperLaneAt_unlocated hloc]
      constructor
      · intro h
        cases h
      · intro ⟨b, hb, _⟩
        cases hb
  | some b =>
      obtain ⟨raw, -, hhit, hres⟩ := hsome b rfl
      rw [hhit] at hloc
      obtain ⟨st, hquery⟩ := possiblyHelperLaneAt_eq hnode herr _ hloc
      have hmarks := buildFunction_discards st (i + 1) source herr hbody hbar'
      have hedge : (buildFunction st (i + 1) fnNode source bytes).1.Edge
          = fun u v => (u, v) ∈ edgesAll 1 0 body :=
        buildFunction_edge st (i + 1) source herr hbody hbar
      rw [hquery, anyDiscardCanReach_iff, hedge]
      constructor
      · intro ⟨d, hd, hreach⟩
        exact ⟨b, rfl, d, (hmarks d).mp hd, hreach⟩
      · intro ⟨b', hb', d, hd, hreach⟩
        cases hb'
        exact ⟨d, (hmarks d).mpr hd, hreach⟩

/-- **What the query answers** about a simple statement. -/
theorem possiblyHelperLaneAt_iff (hw : root.wellSpanned = true) (hsize : root.info.hi < 2 ^ 32)
    (hnode : (collectFunctions root)[i]? = some fnNode) (herr : fnNode.hasError = false)
    (hbody : functionBody fnNode = some ((Stmt.compound span body).toNode f))
    (hsp : (Stmt.compound span body).spaced = true) {s : PlainNode} (hs : s ∈ body.simples)
    (hne : s.node.info.lo < s.node.info.hi) :
    possiblyHelperLaneAt (buildEntry source root bytes).info (s.node.span source) = true
      ↔ MentionLeads fnNode bytes span body s := by
  cases hbar : holdsBarrier bytes (.compound span body) with
  | true =>
      rw [possiblyHelperLaneAt_of_barrier hw hnode herr hbody hbar hs hne]
      constructor
      · intro h
        cases h
      · intro h
        rw [MentionLeads, hbar] at h
        cases h.1
  | false =>
      obtain ⟨h, hm⟩ := exists_home 1 (entryHome fnNode) hs
      constructor
      · intro hyes
        obtain ⟨b, hb, hleads⟩ :=
          (possiblyHelperLaneAt_of_home hw hsize hnode herr hbody hsp hbar hm hne).mp hyes
        cases hb
        exact ⟨hbar, b, hm, hleads⟩
      · intro ⟨_, b, hm', hleads⟩
        exact (possiblyHelperLaneAt_of_home hw hsize hnode herr hbody hsp hbar hm' hne).mpr
          ⟨b, rfl, hleads⟩

end Function

/-! ## §3. Homes that the entry leads to. -/

mutual
/-- The simple statements whose home can be reached; `home`: can the home
around be reached? `here`: can the place where `s` begins?  Not in a `switch`,
not in a control statement behind a `return`, a `switch` or a `do` whose body
does not lead through. -/
def liveSimples (home here : Bool) : Stmt → List PlainNode
  | .simple m => if home then [m] else []
  | .compound _ body => liveSimplesAll home here body
  | .ifThen _ _ thenStmt => liveSimples here here thenStmt
  | .ifElse _ _ thenStmt _ elseStmt =>
      liveSimples here here thenStmt ++ if here then elseStmt.simples else []
  | .forLoop _ _ _ _ body | .whileLoop _ _ body | .doLoop _ body _ => liveSimples here here body
  | .caseStmt _ _ body => if home then body.simples else []
  | .returnStmt .. | .breakStmt _ | .continueStmt _ | .switch .. => []

def liveSimplesAll (home here : Bool) : Stmts → List PlainNode
  | .nil => []
  | .cons s ss => liveSimples home here s ++ liveSimplesAll home (here && leadsThrough s) ss
end

section Live

variable {E : Nat → Nat → Prop} {r : Nat}

/-- Statements that share a home. -/
theorem live_shared {l : List PlainNode} {home : Bool} {h : Option Nat}
    (hhome : home = true → ∃ b, h = some b ∧ Reach E r b) :
    ∀ m ∈ (if home then l else []), ∃ b, (m, some b) ∈ l.map (fun m => (m, h)) ∧ Reach E r b := by
  intro m hm
  split at hm
  · obtain ⟨b, hb, hreach⟩ := hhome ‹_›
    exact ⟨b, hb ▸ List.mem_map_of_mem hm, hreach⟩
  · exact absurd hm List.not_mem_nil

mutual
/-- **Their homes can be reached.** -/
theorem liveSimples_reach {n cur : Nat} {h : Option Nat} {home here : Bool} (s : Stmt)
    (hE : ∀ u v, (u, v) ∈ edges n cur s → E u v)
    (hhome : home = true → ∃ b, h = some b ∧ Reach E r b) (hhere : here = true → Reach E r cur) :
    ∀ m ∈ liveSimples home here s, ∃ b, (m, some b) ∈ homes n h s ∧ Reach E r b := by
  intro m hm
  cases s with
  | simple m' => exact live_shared (l := [m']) hhome m hm
  | returnStmt _ _ | breakStmt _ | continueStmt _ | switch _ _ _ _ =>
      exact absurd hm List.not_mem_nil
  | caseStmt span label body => exact live_shared hhome m hm
  | compound span body => exact liveSimplesAll_reach body hE hhome hhere m hm
  | ifThen span cond thenStmt =>
      have hthen : here = true → Reach E r n := fun h => (hhere h).tail (hE _ _ (by simp [edges]))
      exact liveSimples_reach thenStmt (fun u v he => hE u v (by simp [edges, he]))
        (fun h => ⟨n, rfl, hthen h⟩) hthen m hm
  | ifElse span cond thenStmt elseSpan elseStmt =>
      have hthen : here = true → Reach E r n := fun h => (hhere h).tail (hE _ _ (by simp [edges]))
      have helse : here = true → Reach E r (n + 1 + size thenStmt) := fun h =>
        (hhere h).tail (hE _ _ (by simp [edges]))
      rcases List.mem_append.mp hm with hm | hm
      · have hinner : ∀ u v, (u, v) ∈ edges (n + 1) n thenStmt → E u v := fun u v he =>
          hE u v (by simp [edges, he])
        obtain ⟨b, hb, hreach⟩ := liveSimples_reach thenStmt hinner
          (fun h => ⟨n, rfl, hthen h⟩) hthen m hm
        exact ⟨b, List.mem_append_left _ hb, hreach⟩
      · obtain ⟨b, hb, hreach⟩ := live_shared (fun h => ⟨_, rfl, helse h⟩) m hm
        exact ⟨b, List.mem_append_right _ hb, hreach⟩
  | forLoop span _ _ _ body | whileLoop span _ body =>
      have hheader : here = true → Reach E r n := fun h => (hhere h).tail (hE _ _ (by simp [edges]))
      have hbody : here = true → Reach E r (n + 1) := fun h =>
        (hheader h).tail (hE _ _ (by simp [edges]))
      exact liveSimples_reach body (fun u v he => hE u v (by simp [edges, he]))
        (fun h => ⟨n, rfl, hheader h⟩) hbody m hm
  | doLoop span body cond =>
      have hbody : here = true → Reach E r n := fun h => (hhere h).tail (hE _ _ (by simp [edges]))
      exact liveSimples_reach body (fun u v he => hE u v (by simp [edges, he]))
        (fun h => ⟨n, rfl, hbody h⟩) hbody m hm

theorem liveSimplesAll_reach {n cur : Nat} {h : Option Nat} {home here : Bool} (ss : Stmts)
    (hE : ∀ u v, (u, v) ∈ edgesAll n cur ss → E u v)
    (hhome : home = true → ∃ b, h = some b ∧ Reach E r b) (hhere : here = true → Reach E r cur) :
    ∀ m ∈ liveSimplesAll home here ss, ∃ b, (m, some b) ∈ homesAll n h ss ∧ Reach E r b := by
  intro m hm
  cases ss with
  | nil => exact absurd hm List.not_mem_nil
  | cons s ss =>
      have hs : ∀ u v, (u, v) ∈ edges n cur s → E u v := fun u v he =>
        hE u v (by simp [edgesAll, he])
      rcases List.mem_append.mp hm with hm | hm
      · obtain ⟨b, hb, hreach⟩ := liveSimples_reach s hs hhome hhere m hm
        exact ⟨b, List.mem_append_left _ hb, hreach⟩
      · have hnext : (here && leadsThrough s) = true → Reach E r (endBlock n cur s) := by
          intro hboth
          rw [Bool.and_eq_true] at hboth
          exact (hhere hboth.1).trans (leadsThrough_reach s hs hboth.2)
        have hrest : ∀ u v, (u, v) ∈ edgesAll (n + size s) (endBlock n cur s) ss → E u v :=
          fun u v he => hE u v (by simp [edgesAll, he])
        obtain ⟨b, hb, hreach⟩ := liveSimplesAll_reach ss hrest hhome hnext m hm
        exact ⟨b, List.mem_append_right _ hb, hreach⟩
end

end Live

/-! ## §4. The law. -/

/-- `discard;`, or `clip(...);`. -/
def isDiscardStatement (bytes : Text) (n : Node) : Bool :=
  decide (n.kind = .other "discard_statement".toList)
    || decide (n.kind = .expressionStatement) && n.children.any fun c =>
      match c.kind with
      | .identifier => decide (c.text bytes = "discard".toList)
      | .callExpression =>
          (c.childByField .function).any fun callee => decide (callee.text bytes = "clip".toList)
      | _ => false

/-- Some execution of the body runs a discard, and then `s`. -/
def DiscardsBefore (bytes : Text) (body : Stmt) (s : PlainNode) : Prop :=
  ∃ pre v post, Executes body (pre ++ v :: post) ∧ v.code = some s.node
    ∧ ∃ l ∈ pre, ∃ code, l.code = some code ∧ isDiscardStatement bytes code = true

/-- The law for a statement: the query says whether some path to it has run a
discard. -/
def HelperLaneLaw (source : SourceId) (root : Node) (bytes : Text) (body : Stmt) (s : PlainNode) :
    Prop :=
  possiblyHelperLaneAt (buildEntry source root bytes).info (s.node.span source) = true
    ↔ DiscardsBefore bytes body s

/-- **When the law holds.**  In general, exactly if a statement that mentions a
discard leads to the home of `s` just in case a path to `s` runs one. So in a
body that mentions a discard and holds no barrier, at a statement whose home can
be reached: exactly if a path to `s` runs one. In a body that mentions none, or
that holds a barrier: exactly if none does. -/
theorem helperLaneLaw_iff {root fnNode : Node} {i : Nat} {source : SourceId} {bytes : Text}
    {span : ByteSpan} {body : Stmts} {f : Option Field} {s : PlainNode}
    (hw : root.wellSpanned = true) (hsize : root.info.hi < 2 ^ 32)
    (hnode : (collectFunctions root)[i]? = some fnNode) (herr : fnNode.hasError = false)
    (hbody : functionBody fnNode = some ((Stmt.compound span body).toNode f))
    (hsp : (Stmt.compound span body).spaced = true) (hs : s ∈ body.simples)
    (hne : s.node.info.lo < s.node.info.hi) :
    (HelperLaneLaw source root bytes (.compound span body) s
        ↔ (MentionLeads fnNode bytes span body s ↔ DiscardsBefore bytes (.compound span body) s))
      ∧ (holdsBarrier bytes (.compound span body) = false →
        mentionsDiscard (textAt bytes span.lo span.hi) = true →
        s ∈ liveSimplesAll (belowMax fnNode) true body →
        (HelperLaneLaw source root bytes (.compound span body) s
          ↔ DiscardsBefore bytes (.compound span body) s))
      ∧ (holdsBarrier bytes (.compound span body) = true
          ∨ discards bytes 1 0 (.compound span body) = [] →
        (HelperLaneLaw source root bytes (.compound span body) s
          ↔ ¬ DiscardsBefore bytes (.compound span body) s)) := by
  have hlaw : HelperLaneLaw source root bytes (.compound span body) s
      ↔ (MentionLeads fnNode bytes span body s
        ↔ DiscardsBefore bytes (.compound span body) s) := by
    unfold HelperLaneLaw
    rw [possiblyHelperLaneAt_iff hw hsize hnode herr hbody hsp hs hne]
  refine ⟨hlaw, fun hbar hmention hlive => ?_, fun hnone => ?_⟩
  · have hleads : MentionLeads fnNode bytes span body s := by
      have hhome : belowMax fnNode = true →
          ∃ b, entryHome fnNode = some b ∧ Reach (fun u v => (u, v) ∈ edgesAll 1 0 body) 0 b := by
        intro hbelow
        unfold entryHome
        rw [if_pos hbelow]
        exact ⟨0, rfl, .refl⟩
      have hedges : ∀ u v, (u, v) ∈ edgesAll 1 0 body → (u, v) ∈ edgesAll 1 0 body := fun _ _ he => he
      obtain ⟨b, hb, hreach⟩ := liveSimplesAll_reach body hedges hhome (fun _ => .refl) s hlive
      have hentry : 0 ∈ discards bytes 1 0 (.compound span body) := by
        unfold discards markAt
        rw [if_pos hmention]
        exact List.mem_cons_self ..
      exact ⟨hbar, b, hb, 0, hentry, hreach⟩
    rw [hlaw]
    exact ⟨fun h => h.mp hleads, fun h => ⟨fun _ => h, fun _ => hleads⟩⟩
  · have hno : ¬ MentionLeads fnNode bytes span body s := by
      intro ⟨hbar, b, _, d, hd, _⟩
      rcases hnone with h | h
      · rw [hbar] at h
        cases h
      · rw [h] at hd
        exact absurd hd List.not_mem_nil
    rw [hlaw]
    exact ⟨fun h hd => hno (h.mpr hd), fun h => ⟨fun hl => absurd hl hno, fun hd => absurd hd h⟩⟩

/-! ## §5. In front of a discard. -/

/-- A discard between two statements. -/
def discardBetween : Text := "void f(){x;discard;y;}".toList

def discardStatement : PlainNode :=
  ⟨namedNode .expressionStatement none ⟨11, 19⟩ [namedNode .identifier none ⟨11, 18⟩ []], rfl, rfl⟩

/-- The body of `discardBetween`. -/
def discardBetweenBody : Stmts :=
  .cons (.simple (identStatement 9))
    (.cons (.simple discardStatement) (.cons (.simple (identStatement 19)) .nil))

/-- The function of `discardBetween`. -/
def discardBetweenFunction : Node :=
  namedNode .functionDefinition none ⟨0, 22⟩
    [declaratorOfF, (Stmt.compound ⟨8, 22⟩ discardBetweenBody).toNode (some .body)]

def discardBetweenTree : Node := namedNode .translationUnit none ⟨0, 22⟩ [discardBetweenFunction]

theorem discardBetween_body : functionBody discardBetweenFunction
    = some ((Stmt.compound ⟨8, 22⟩ discardBetweenBody).toNode (some .body)) := rfl

theorem discardBetween_node :
    (collectFunctions discardBetweenTree)[0]? = some discardBetweenFunction := rfl

theorem discardBetween_live :
    identStatement 19 ∈ liveSimplesAll (belowMax discardBetweenFunction) true discardBetweenBody := by
  have hbelow : belowMax discardBetweenFunction = true := rfl
  rw [hbelow]
  simp [discardBetweenBody, liveSimplesAll, liveSimples]

/-- The law behind the discard. -/
theorem helperLaneLaw_iff_behind :
    HelperLaneLaw ⟨1⟩ discardBetweenTree discardBetween (.compound ⟨8, 22⟩ discardBetweenBody)
      (identStatement 19) :=
  ((helperLaneLaw_iff (by decide) (by decide) discardBetween_node rfl discardBetween_body (by decide)
    (by simp [discardBetweenBody, Stmts.simples, Stmt.simples]) (by decide)).2.1 (by decide)
    (by decide) discardBetween_live).mpr
    ⟨[run 0 (identStatement 9), run 0 discardStatement], run 0 (identStatement 19), [],
      ⟨_, exec_of_follow 10 _ [] rfl⟩, rfl, run 0 discardStatement, by simp, _, rfl, by decide⟩

/-- **In front of a discard** the query says yes, though no path to `x` has run
one. -/
theorem beforeDiscard_flagged :
    possiblyHelperLaneAt (buildEntry ⟨1⟩ discardBetweenTree discardBetween).info
        ((identStatement 9).node.span ⟨1⟩) = true
      ∧ ¬ DiscardsBefore discardBetween (.compound ⟨8, 22⟩ discardBetweenBody) (identStatement 9)
      ∧ ¬ HelperLaneLaw ⟨1⟩ discardBetweenTree discardBetween
          (.compound ⟨8, 22⟩ discardBetweenBody) (identStatement 9) := by
  have hyes : possiblyHelperLaneAt (buildEntry ⟨1⟩ discardBetweenTree discardBetween).info
      ((identStatement 9).node.span ⟨1⟩) = true := by
    decide +kernel
  have hno : ¬ DiscardsBefore discardBetween (.compound ⟨8, 22⟩ discardBetweenBody)
      (identStatement 9) := by
    intro ⟨pre, v, post, ⟨o, ho⟩, hv, l, hl, _⟩
    have hpoints : prog false 1 0 none none (.compound ⟨8, 22⟩ discardBetweenBody)
        = Prog.points
            [run 0 (identStatement 9), run 0 discardStatement, run 0 (identStatement 19)] := rfl
    rw [hpoints] at ho
    obtain ⟨rest, hrest⟩ := exec_points ho
    cases pre with
    | nil => exact absurd hl List.not_mem_nil
    | cons p pre =>
        -- something ran before it: `v` is one of the other two
        simp only [List.cons_append, List.append_assoc, List.cons.injEq] at hrest
        have hmem : v ∈ [run 0 discardStatement, run 0 (identStatement 19)] := by
          rw [← hrest.2]
          exact List.mem_append_right _ (List.mem_cons_self ..)
        simp only [List.mem_cons, List.not_mem_nil, or_false] at hmem
        have hlo := congrArg (Option.map fun n : Node => n.info.lo) hv
        rcases hmem with rfl | rfl <;> exact absurd hlo (by decide)
  exact ⟨hyes, hno, fun hlaw => hno (hlaw.mp hyes)⟩

end ShaderClippy.ControlFlow
