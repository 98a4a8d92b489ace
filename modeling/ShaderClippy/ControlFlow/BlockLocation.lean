/-
  ShaderClippy.ControlFlow.BlockLocation

  **IS A STATEMENT LOCATED IN THE BLOCK IT WAS WALKED ON?**

  `block_for` returns the FIRST recorded block among the smallest around the
  span. The blocks of one function are recorded in the order they are made
  (`Recorded`), so that is the home of the statement (`locateBlock_home`).
  The cursor is there only while nothing before the statement has moved it,
  and never in the body of a `for` or `while`, whose first block is the
  header: `locatesCurrent_iff`.
-/
import ShaderClippy.ControlFlow.BlockSpans
import ShaderClippy.ControlFlow.Soundness

namespace ShaderClippy.ControlFlow

/-! ## §1. The order of the recorded spans. -/

/-- The blocks of a function are recorded, one after another. -/
structure Recorded (st : CfgStorage) : Prop where
  ordered : st.spanToBlock.Pairwise fun e e' =>
    (st.resolve e.2).1 = (st.resolve e'.2).1 → (st.resolve e.2).2 < (st.resolve e'.2).2
  all : ∀ f fn b block, 0 < f → st.functions[f]? = some fn → fn.blocks[b]? = some block →
    ∃ raw, (block.span, raw) ∈ st.spanToBlock ∧ st.resolve raw = (f, b)

theorem recorded_empty (source : SourceId) : Recorded (emptyStorage source) where
  ordered := List.Pairwise.nil
  all f fn _ _ hf hfn _ := by
    cases f with
    | zero => exact absurd hf (Nat.lt_irrefl 0)
    | succ f => simp [emptyStorage] at hfn

/-- The functions of recorded blocks are already there. -/
theorem Indexed.resolve_lt {st : CfgStorage} (h : Indexed st) {e : Span × Nat}
    (he : e ∈ st.spanToBlock) : (st.resolve e.2).1 < st.functions.length := by
  obtain ⟨fn, block, -, -, -, hfn, -, -⟩ := h.entry e.1 e.2 he
  exact (List.getElem?_eq_some_iff.mp hfn).1

theorem Indexed.resolve_push {st : CfgStorage} (h : Indexed st) (fn : CfgFunction)
    {e : Span × Nat} (he : e ∈ st.spanToBlock) : (st.push fn).resolve e.2 = st.resolve e.2 := by
  obtain ⟨gn, block, hpos, hle, -⟩ := h.entry e.1 e.2 he
  exact resolve_push_old fn h hpos hle

theorem Recorded.push {st : CfgStorage} (hr : Recorded st) (h : Indexed st) (fn : CfgFunction) :
    Recorded (st.push fn) := by
  -- the ids of the new blocks go on from the last one
  have hnew : ∀ {i : Nat} {block : BasicBlock}, fn.blocks[i]? = some block →
      (block.span, st.blockToFunction.length + 1 + i) ∈ (st.push fn).spanToBlock := by
    intro i block hget
    obtain ⟨hi, hblock⟩ := List.getElem?_eq_some_iff.mp hget
    refine List.mem_append_right _ (List.mem_iff_getElem.mpr ⟨i, by simpa using hi, ?_⟩)
    rw [List.getElem_zip, List.getElem_map, List.getElem_range', hblock, Nat.one_mul]
  constructor
  · refine List.pairwise_append.mpr ⟨?_, ?_, ?_⟩
    · refine hr.ordered.imp_of_mem fun he he' hlt => ?_
      rw [h.resolve_push fn he, h.resolve_push fn he']
      exact hlt
    · -- the new blocks get their ids in order
      rw [List.pairwise_iff_getElem]
      intro i j hi hj hij _
      simp only [List.length_zip, List.length_map, List.length_range', Nat.min_self] at hi hj
      rw [List.getElem_zip, List.getElem_zip, List.getElem_range', List.getElem_range',
        Nat.one_mul, Nat.one_mul, resolve_push_new h hi, resolve_push_new h hj]
      exact hij
    · -- no old block is of the new function
      intro e he e' he' heq
      obtain ⟨i, hi, rfl⟩ := List.mem_iff_getElem.mp he'
      simp only [List.length_zip, List.length_map, List.length_range', Nat.min_self] at hi
      rw [h.resolve_push fn he, List.getElem_zip, List.getElem_range', Nat.one_mul,
        resolve_push_new h hi] at heq
      have := h.resolve_lt he
      change (st.resolve e.2).1 = st.functions.length at heq
      omega
  · intro f gn b block hf hgn hb
    -- an old function, or the new one
    by_cases hlt : f < st.functions.length
    · have hold : st.functions[f]? = some gn := by
        have hfns : (st.push fn).functions = st.functions ++ [fn] := rfl
        rw [hfns, List.getElem?_append_left hlt] at hgn
        exact hgn
      obtain ⟨raw, hmem, hres⟩ := hr.all f gn b block hf hold hb
      exact ⟨raw, List.mem_append_left _ hmem, (h.resolve_push fn hmem).trans hres⟩
    · have hfns : (st.push fn).functions = st.functions ++ [fn] := rfl
      have hsome := (List.getElem?_eq_some_iff.mp hgn).1
      rw [hfns, List.length_append, List.length_singleton] at hsome
      have hf' : f = st.functions.length := by omega
      subst hf'
      have hfn : fn = gn := by
        rw [hfns] at hgn
        simpa using hgn
      subst hfn
      exact ⟨_, hnew hb, resolve_push_new h (List.getElem?_eq_some_iff.mp hb).1⟩

/-- **The recorded blocks of a finished storage.** -/
theorem buildCfg_recorded (root : Node) (source : SourceId) (bytes : Text) :
    Recorded (buildCfg root source bytes).1 :=
  (buildFunctions_induction (Q := fun st => Indexed st ∧ Recorded st)
    (fun _ _ h => ⟨h.1.push _, h.2.push h.1 _⟩) _ _ _
    ⟨indexed_empty source, recorded_empty source⟩).2

/-! ## §2. What `locate_block` returns. -/

/-- The hit of a recorded entry. -/
def hitOf (st : CfgStorage) : Option (Span × Nat) → BlockHit
  | none => ⟨0, 0, 0⟩
  | some e => ⟨(st.resolve e.2).1, (st.resolve e.2).2, e.2⟩

/-- The loop is a scan for the smallest. -/
theorem foldl_locateStep {st : CfgStorage} (h : Indexed st) (x : Span) :
    ∀ {l : List (Span × Nat)} {o : Option (Span × Nat)} {k : Nat}, (∀ e ∈ l, e ∈ st.spanToBlock) →
      l.foldl (locateStep st x) (hitOf st o, k)
        = (hitOf st (l.foldl (scanStep (fun e => contains e.1 x = true) fun e => spanSize e.1)
              (o, k)).1,
            (l.foldl (scanStep (fun e => contains e.1 x = true) fun e => spanSize e.1)
              (o, k)).2) := by
  intro l
  induction l with
  | nil => intro o k _; rfl
  | cons e l ih =>
      intro o k hl
      have hstep : locateStep st x (hitOf st o, k) e
          = (hitOf st (scanStep (fun e => contains e.1 x = true) (fun e => spanSize e.1)
              (o, k) e).1,
            (scanStep (fun e => contains e.1 x = true) (fun e => spanSize e.1) (o, k) e).2) := by
        obtain ⟨fn, block, hpos, hle, -⟩ := h.entry e.1 e.2 (hl e (List.mem_cons_self ..))
        -- an entry has an id that the storage knows
        have hvalid : 0 < e.2 ∧ e.2 - 1 < st.blockToFunction.length := ⟨hpos, by omega⟩
        have hres : st.resolve e.2
            = (st.blockToFunction.getD (e.2 - 1) 0, st.blockToLocal.getD (e.2 - 1) 0) := by
          unfold CfgStorage.resolve
          rw [if_neg (by simp; omega)]
        unfold locateStep scanStep
        by_cases hin : contains e.1 x = true
        · by_cases hlt : spanSize e.1 < k
          · have hhit : hitOf st (some e)
                = ⟨st.blockToFunction.getD (e.2 - 1) 0, st.blockToLocal.getD (e.2 - 1) 0, e.2⟩ := by
              show BlockHit.mk (st.resolve e.2).1 (st.resolve e.2).2 e.2 = _
              rw [hres]
            rw [if_neg (by rw [hin]; decide), if_pos hlt, if_pos hvalid, if_pos ⟨hin, hlt⟩, hhit]
          · rw [if_neg (by rw [hin]; decide), if_neg hlt, if_neg fun hboth => hlt hboth.2]
        · rw [if_pos (by rw [Bool.eq_false_iff.mpr hin]; decide), if_neg fun hboth => hin hboth.1]
      rw [List.foldl_cons, hstep, ih fun c hc => hl c (List.mem_cons_of_mem _ hc)]
      rfl

/-- **`locate_block` returns the first of the smallest** of the function that
`x` is in, if that is below the largest 32-bit number. -/
theorem locateBlock_first {st : CfgStorage} (h : Indexed st) (hr : Recorded st) {f i : Nat}
    {fn : CfgFunction} {x span : Span} (hpos : 0 < f) (hfn : st.functions[f]? = some fn)
    (hfirst : FirstSmallest (fun outer => contains outer x = true) spanSize
      (fn.blocks.map (·.span)) i span)
    (hown : ∀ e ∈ st.spanToBlock, contains e.1 x = true → (st.resolve e.2).1 = f) :
    (spanSize span < 2 ^ 32 - 1 → ∃ raw, locateBlock st x = ⟨f, i, raw⟩
        ∧ (span, raw) ∈ st.spanToBlock ∧ st.resolve raw = (f, i))
      ∧ (2 ^ 32 - 1 ≤ spanSize span → locateBlock st x = ⟨0, 0, 0⟩) := by
  -- a block of the function around `x`, by its entry
  have hblock : ∀ e ∈ st.spanToBlock, contains e.1 x = true →
      (fn.blocks.map (·.span))[(st.resolve e.2).2]? = some e.1 := by
    intro e he hin
    obtain ⟨gn, block, -, -, -, hgn, hb, hspan⟩ := h.entry e.1 e.2 he
    rw [hown e he hin, hfn] at hgn
    rw [List.getElem?_map, Option.some.inj hgn, hb, ← hspan]
    rfl
  -- it is the smallest of all entries around `x`, since these are of the function
  have hleast : ∀ e ∈ st.spanToBlock, contains e.1 x = true → spanSize span ≤ spanSize e.1 :=
    fun e he hin => hfirst.least e.1 (List.mem_of_getElem? (hblock e he hin)) hin
  have hloop : locateBlock st x
      = hitOf st (st.spanToBlock.foldl
          (scanStep (fun e => contains e.1 x = true) fun e => spanSize e.1)
          (none, 2 ^ 32 - 1)).1 := by
    unfold locateBlock
    rw [show (⟨0, 0, 0⟩ : BlockHit) = hitOf st none from rfl,
      foldl_locateStep h x fun e he => he]
  constructor
  · intro hbound
    obtain ⟨block, hb, hspan⟩ := Option.map_eq_some_iff.mp (List.getElem?_map ▸ hfirst.get)
    obtain ⟨raw, hmem, hres⟩ := hr.all f fn i block hpos hfn hb
    rw [hspan] at hmem
    obtain ⟨k, hk⟩ := List.mem_iff_getElem?.mp hmem
    -- its entry is the first of the smallest too: the blocks are recorded in order
    have hscan : FirstSmallest (fun e => contains e.1 x = true) (fun e => spanSize e.1)
        st.spanToBlock k (span, raw) := by
      refine ⟨hk, hfirst.sat, fun j e hj he hin => ?_, hleast⟩
      have hmem' := List.mem_of_getElem? he
      refine hfirst.before (st.resolve e.2).2 e.1 ?_ (hblock e hmem' hin) hin
      obtain ⟨hjlt, hje⟩ := List.getElem?_eq_some_iff.mp he
      obtain ⟨hklt, hke⟩ := List.getElem?_eq_some_iff.mp hk
      have hlt := List.pairwise_iff_getElem.mp hr.ordered j k hjlt hklt hj
      rw [hje, hke, hres] at hlt
      exact hlt (hown e hmem' hin)
    refine ⟨raw, ?_, hmem, hres⟩
    rw [hloop, foldl_scanStep hscan hbound]
    show BlockHit.mk (st.resolve raw).1 (st.resolve raw).2 raw = _
    rw [hres]
  · intro hbound
    rw [hloop, foldl_scanStep_none fun e he hin => Nat.le_trans hbound (hleast e he hin)]
    rfl

/-! ## §3. The home of a statement. -/

section Function

variable {root fnNode : Node} {i : Nat} {source : SourceId} {bytes : Text} {span : ByteSpan}
  {body : Stmts} {f : Option Field}

/-- Is the span of the function below the largest 32-bit number, which the
search starts from? -/
def belowMax (fnNode : Node) : Bool := decide (fnNode.info.hi - fnNode.info.lo < 2 ^ 32 - 1)

/-- The home of the statements outside of all control statements: the entry. -/
def entryHome (fnNode : Node) : Option Nat := if belowMax fnNode then some 0 else none

/-- Entries around a span inside a function are of that function. -/
theorem recorded_own (hw : root.wellSpanned = true)
    (hnode : (collectFunctions root)[i]? = some fnNode) {x : Span} (hin : Covers fnNode x)
    (hne : x.bytes.lo < x.bytes.hi) :
    ∀ e ∈ (buildCfg root source bytes).1.spanToBlock, contains e.1 x = true →
      ((buildCfg root source bytes).1.resolve e.2).1 = i + 1 := by
  intro e he hcont
  obtain ⟨fn, block, -, -, hpos, hfn, hblock, hspan⟩ :=
    (buildCfg_indexed root source bytes).entry e.1 e.2 he
  obtain ⟨fnNode', st, hnode', rfl⟩ := buildCfg_function_inv hpos hfn
  have hw' : fnNode'.wellSpanned = true :=
    ((collectFunctions_sub root fnNode' (List.mem_of_getElem? hnode')).inside hw).1
  -- a block lies inside its function, and no two functions share a byte
  have houter := buildFunction_inside hw' block (List.mem_of_getElem? hblock)
  rw [hspan] at houter
  obtain ⟨-, hlo, hhi⟩ := contains_iff.mp hcont
  have hin' : Covers fnNode' x := ⟨Nat.le_trans houter.1 hlo, Nat.le_trans hhi houter.2⟩
  have hidx := collectFunctions_unique hw hnode hnode' hne hin hin'
  omega

/-- The first of the smallest blocks of a function around a span is found, if it
is below the bound that the search starts from. -/
theorem locateBlock_function (hw : root.wellSpanned = true)
    (hnode : (collectFunctions root)[i]? = some fnNode) (herr : fnNode.hasError = false)
    (hbody : functionBody fnNode = some ((Stmt.compound span body).toNode f))
    (hbar : holdsBarrier bytes (.compound span body) = false) {x outer : Span} {j : Nat}
    (hcover : Covers fnNode x) (hne : x.bytes.lo < x.bytes.hi)
    (hfirst : FirstSmallest (fun outer => contains outer x = true) spanSize
      (fnNode.span source :: blockSpansAll source body) j outer) :
    (spanSize outer < 2 ^ 32 - 1 → ∃ raw, 0 < raw
        ∧ locateBlock (buildCfg root source bytes).1 x = ⟨i + 1, j, raw⟩
        ∧ (buildCfg root source bytes).1.resolve raw = (i + 1, j))
      ∧ (2 ^ 32 - 1 ≤ spanSize outer →
        locateBlock (buildCfg root source bytes).1 x = ⟨0, 0, 0⟩) := by
  obtain ⟨st, hst⟩ := buildCfg_function source bytes hnode
  have hspans := buildFunction_spans st (i + 1) source herr hbody
    ((detectBarrier_toNode bytes _ f).trans hbar)
  obtain ⟨hbelow, habove⟩ := locateBlock_first (buildCfg_indexed root source bytes)
    (buildCfg_recorded root source bytes) (Nat.succ_pos i) hst (hspans ▸ hfirst)
    (recorded_own hw hnode hcover hne)
  refine ⟨fun hlt => ?_, habove⟩
  obtain ⟨raw, hhit, hmem, hres⟩ := hbelow hlt
  obtain ⟨-, -, hpos, -⟩ := (buildCfg_indexed root source bytes).entry _ _ hmem
  exact ⟨raw, hpos, hhit, hres⟩

/-- **A statement is located at its home.** -/
theorem locateBlock_home (hw : root.wellSpanned = true) (hsize : root.info.hi < 2 ^ 32)
    (hnode : (collectFunctions root)[i]? = some fnNode) (herr : fnNode.hasError = false)
    (hbody : functionBody fnNode = some ((Stmt.compound span body).toNode f))
    (hsp : (Stmt.compound span body).spaced = true)
    (hbar : holdsBarrier bytes (.compound span body) = false) {m : PlainNode} {h : Option Nat}
    (hm : (m, h) ∈ homesAll 1 (entryHome fnNode) body) (hne : m.node.info.lo < m.node.info.hi) :
    (∀ b, h = some b → ∃ raw, 0 < raw
        ∧ locateBlock (buildCfg root source bytes).1 (m.node.span source) = ⟨i + 1, b, raw⟩
        ∧ (buildCfg root source bytes).1.resolve raw = (i + 1, b))
      ∧ (h = none → locateBlock (buildCfg root source bytes).1 (m.node.span source) = ⟨0, 0, 0⟩) := by
  let x := m.node.span source
  have hfn := (collectFunctions_sub root fnNode (List.mem_of_getElem? hnode)).inside hw
  have hbd := (functionBody_sub hbody).inside hfn.1
  have hchildren : orderedIn span.lo span.hi body.toNodes = true := by
    have h := hbd.1
    simp only [Stmt.toNode, namedNode, Node.wellSpanned, Bool.and_eq_true] at h
    exact h.2
  have hbin : fnNode.info.lo ≤ span.lo ∧ span.hi ≤ fnNode.info.hi := hbd.2
  have hfnhi : fnNode.info.hi ≤ root.info.hi := hfn.2.2
  have hspan := Node.lo_le_hi hfn.1
  have hmin := Stmts.simples_inside hchildren (mem_homesAll hm)
  have hcover : Covers fnNode x := ⟨Nat.le_trans hbin.1 hmin.1, Nat.le_trans hmin.2 hbin.2⟩
  have hloc := homesAll_located source body hchildren hsp (by omega) hm hne
  have hentry : contains (fnNode.span source) x = true := contains_iff.mpr ⟨rfl, hcover⟩
  have hfnsize : spanSize (fnNode.span source) = fnNode.info.hi - fnNode.info.lo :=
    spanSize_eq hspan (show fnNode.info.hi < 2 ^ 32 by omega)
  have hfound {j : Nat} {outer : Span} := @locateBlock_function root fnNode i source bytes span body f
    hw hnode herr hbody hbar x outer j hcover hne
  rcases hloc with ⟨hhome, hnone⟩ | ⟨k, outer, hk, hfirst, h1, h2, h3⟩
  · -- only the entry is around the statement
    obtain ⟨hbelow, habove⟩ := hfound (FirstSmallest.head hentry fun outer hmem hin => by
      rw [hnone outer hmem] at hin
      exact absurd hin (by decide))
    rw [hfnsize] at hbelow habove
    rw [hhome]
    unfold entryHome belowMax
    constructor
    · intro b hb
      split at hb
      · rename_i hlt
        cases hb
        exact hbelow (of_decide_eq_true hlt)
      · cases hb
    · intro hb
      split at hb
      · cases hb
      · rename_i hge
        exact habove (by simpa using hge)
  · -- a block of a control statement is smaller than the function
    have hsmall : spanSize outer < spanSize (fnNode.span source) := by
      rw [hfnsize, spanSize_eq h2 (by omega)]
      omega
    obtain ⟨hbelow, -⟩ := hfound (hfirst.cons fun _ => hsmall)
    rw [hk]
    constructor
    · intro b hb
      cases hb
      rw [Nat.add_comm 1 k]
      exact hbelow (by omega)
    · intro hb
      cases hb

/-- What `block_for` returns for a statement is its home. -/
theorem blockFor_home (hw : root.wellSpanned = true) (hsize : root.info.hi < 2 ^ 32)
    (hnode : (collectFunctions root)[i]? = some fnNode) (herr : fnNode.hasError = false)
    (hbody : functionBody fnNode = some ((Stmt.compound span body).toNode f))
    (hsp : (Stmt.compound span body).spaced = true)
    (hbar : holdsBarrier bytes (.compound span body) = false) {m : PlainNode} {h : Option Nat}
    (hm : (m, h) ∈ homesAll 1 (entryHome fnNode) body) (hne : m.node.info.lo < m.node.info.hi)
    (b : Nat) :
    (∃ raw, blockFor (buildEntry source root bytes).info (m.node.span source) = some raw
        ∧ (computeAllDominators (buildCfg root source bytes).1).resolve raw = (i + 1, b))
      ↔ h = some b := by
  obtain ⟨hsome, hnone⟩ := @locateBlock_home root fnNode i source bytes span body f hw hsize hnode
    herr hbody hsp hbar m h hm hne
  have hquery : blockFor (buildEntry source root bytes).info (m.node.span source)
      = if (locateBlock (buildCfg root source bytes).1 (m.node.span source)).rawId = 0 then none
        else some (locateBlock (buildCfg root source bytes).1 (m.node.span source)).rawId := rfl
  cases h with
  | none =>
      rw [hquery, hnone rfl, if_pos rfl]
      constructor
      · intro ⟨raw, hraw, _⟩
        cases hraw
      · intro hb
        cases hb
  | some h =>
      obtain ⟨raw, hpos, hhit, hres⟩ := hsome h rfl
      rw [hquery, hhit, if_neg (Nat.ne_of_gt hpos)]
      constructor
      · intro ⟨raw', hraw, hres'⟩
        cases hraw
        exact congrArg some (Prod.mk.inj (hres.symm.trans hres')).2
      · intro hb
        cases hb
        exact ⟨raw, rfl, hres⟩

/-! ## §4. The block of a statement. -/

/-- The storage when the builder comes to the `i`-th function. -/
def storageBefore (root : Node) (i : Nat) (source : SourceId) (bytes : Text) : CfgStorage :=
  (buildFunctions source bytes ((collectFunctions root).take i) (emptyStorage source, [])).1

/-- The walk of the body of the `i`-th function walks `target`, with the cursor
on `c`. -/
def WalkedIn (root : Node) (i : Nat) (source : SourceId) (bytes : Text) (target : Node)
    (c : Nat) : Prop :=
  ∃ fnNode body, (collectFunctions root)[i]? = some fnNode ∧ fnNode.hasError = false
    ∧ functionBody fnNode = some body
    ∧ Walked ⟨i + 1, source, bytes⟩ target c body
        (FunctionBuilder.newBlock ⟨i + 1, source, bytes⟩
          ⟨[], storageBefore root i source bytes⟩ fnNode).2 0

/-- `s` was walked, and `block_for` returns the block it was walked on. -/
def LocatesCurrent (source : SourceId) (root : Node) (i : Nat) (bytes : Text) (s : PlainNode) :
    Prop :=
  ∃ g c raw, WalkedIn root i source bytes (s.toNode g) c
    ∧ blockFor (buildEntry source root bytes).info (s.node.span source) = some raw
    ∧ (computeAllDominators (buildCfg root source bytes).1).resolve raw = (i + 1, c)

/-- Behind a barrier nothing is walked. -/
theorem not_walkedIn_of_barrier (hnode : (collectFunctions root)[i]? = some fnNode)
    (hbody : functionBody fnNode = some ((Stmt.compound span body).toNode f))
    (hbar : holdsBarrier bytes (.compound span body) = true) {s : PlainNode} {g : Option Field}
    {c : Nat} : ¬ WalkedIn root i source bytes (s.toNode g) c := by
  rintro ⟨fnNode', node, hnode', _, hbody', hw⟩
  rw [hnode] at hnode'
  cases hnode'
  rw [hbody] at hbody'
  cases hbody'
  have hne : (Stmt.compound span body).toNode f ≠ s.toNode g := by
    intro heq
    have hkind := s.plain
    rw [← s.toNode_kind g, ← heq] at hkind
    cases hkind
  rw [walked_iff_calls hne] at hw
  have hnone : ∀ fb cur, calls ⟨i + 1, source, bytes⟩ ((Stmt.compound span body).toNode f) fb cur
      = [] := by
    intro fb cur
    have h := (detectBarrier_toNode bytes (.compound span body) f).trans hbar
    unfold Stmt.toNode namedNode at h ⊢
    rw [calls, if_neg (by rintro ⟨⟩), if_pos h]
  rw [hnone] at hw
  exact someWalked_nil hw

/-- What is walked in a body without barriers: the visits. -/
theorem walkedIn_visits (hnode : (collectFunctions root)[i]? = some fnNode)
    (herr : fnNode.hasError = false)
    (hbody : functionBody fnNode = some ((Stmt.compound span body).toNode f))
    (hbar : holdsBarrier bytes (.compound span body) = false) (home : Option Nat) :
    Reaches (fun target c => WalkedIn root i source bytes target c)
      (visitsAll 1 0 home body) := by
  have hreaches := walkStatement_reaches ⟨i + 1, source, bytes⟩ (.compound span body) f
    ((detectBarrier_toNode bytes _ f).trans hbar)
    (FunctionBuilder.newBlock ⟨i + 1, source, bytes⟩ ⟨[], storageBefore root i source bytes⟩
      fnNode).2 0 home (by simp [FunctionBuilder.newBlock])
  have hlen : (FunctionBuilder.newBlock ⟨i + 1, source, bytes⟩
      ⟨[], storageBefore root i source bytes⟩ fnNode).2.blocks.length = 1 := rfl
  rw [hlen] at hreaches
  constructor
  · intro v hv
    obtain ⟨g, hg⟩ := hreaches.complete v hv
    exact ⟨g, fnNode, _, hnode, herr, hbody, hg⟩
  · rintro target c hplain ⟨fnNode', node, hnode', _, hbody', hw⟩
    rw [hnode] at hnode'
    cases hnode'
    rw [hbody] at hbody'
    cases hbody'
    exact hreaches.sound target c hplain hw

end Function

/-! ## §5. Where the cursor is still at home. -/

mutual
/-- The walk of the statement creates no block. -/
def straight : Stmt → Bool
  | .simple _ | .breakStmt _ | .continueStmt _ | .caseStmt .. => true
  | .compound _ body => straightAll body
  | .returnStmt .. | .ifThen .. | .ifElse .. | .forLoop .. | .whileLoop .. | .doLoop ..
  | .switch .. => false

def straightAll : Stmts → Bool
  | .nil => true
  | .cons s ss => straight s && straightAll ss
end

mutual
/-- Nor an edge. -/
theorem edges_of_straight {s : Stmt} (n cur : Nat) (h : straight s = true) : edges n cur s = [] := by
  cases s with
  | simple _ | breakStmt _ | continueStmt _ | caseStmt _ _ _ => rfl
  | compound span body => exact edgesAll_of_straight n cur h
  | _ => exact absurd h Bool.false_ne_true

theorem edgesAll_of_straight {ss : Stmts} (n cur : Nat) (h : straightAll ss = true) :
    edgesAll n cur ss = [] := by
  cases ss with
  | nil => rfl
  | cons s ss =>
      unfold straightAll at h
      rw [Bool.and_eq_true] at h
      unfold edgesAll
      rw [edges_of_straight n cur h.1, edgesAll_of_straight _ _ h.2]
      rfl
end

mutual
/-- The simple statements that are walked before the cursor has left the first
block of the control statement around them; `here`: is it there when `s`
begins?  Not in an else arm or a `switch`, not behind an `if`, a loop, a
`switch` or a `return`, and not right in the body of a `for` or `while`. -/
def atHome (here : Bool) : Stmt → List PlainNode
  | .simple m => if here then [m] else []
  | .compound _ body => atHomeAll here body
  | .ifThen _ _ thenStmt | .ifElse _ _ thenStmt _ _ => atHome true thenStmt
  | .forLoop _ _ _ _ body | .whileLoop _ _ body => atHome false body
  | .doLoop _ body _ => atHome true body
  | .returnStmt .. | .breakStmt _ | .continueStmt _ | .switch .. | .caseStmt .. => []

def atHomeAll (here : Bool) : Stmts → List PlainNode
  | .nil => []
  | .cons s ss => atHome here s ++ atHomeAll (here && straight s) ss
end

mutual
theorem straight_spec (n cur : Nat) (s : Stmt) :
    (straight s = true → endBlock n cur s = cur)
      ∧ (straight s = false → n ≤ endBlock n cur s) := by
  cases s with
  | simple _ | breakStmt _ | continueStmt _ | caseStmt _ _ _ => exact ⟨fun _ => rfl, nofun⟩
  | compound span body =>
      obtain ⟨h1, h2⟩ := straightAll_spec n cur body
      exact ⟨h1, h2⟩
  | _ =>
      refine ⟨nofun, fun _ => ?_⟩
      unfold endBlock
      omega

theorem straightAll_spec (n cur : Nat) (ss : Stmts) :
    (straightAll ss = true → endBlockAll n cur ss = cur)
      ∧ (straightAll ss = false → n ≤ endBlockAll n cur ss) := by
  cases ss with
  | nil => exact ⟨fun _ => rfl, nofun⟩
  | cons s ss =>
      obtain ⟨h1, h2⟩ := straight_spec n cur s
      obtain ⟨h3, h4⟩ := straightAll_spec (n + size s) (endBlock n cur s) ss
      unfold straightAll endBlockAll
      rw [Bool.and_eq_true, Bool.and_eq_false_iff]
      refine ⟨fun ⟨hs, hss⟩ => (h3 hss).trans (h1 hs), fun h => ?_⟩
      cases hss : straightAll ss with
      | false =>
          have := h4 hss
          omega
      | true =>
          rw [h3 hss]
          refine h2 (h.resolve_right fun hf => ?_)
          rw [hss] at hf
          cases hf
end

/-- The visits whose cursor is at home. -/
def homeVisits (vs : List (PlainNode × Nat × Option Nat)) : List PlainNode :=
  (vs.filter fun v => decide (v.2.2 = some v.2.1)).map (·.1)

theorem homeVisits_append (vs vs' : List (PlainNode × Nat × Option Nat)) :
    homeVisits (vs ++ vs') = homeVisits vs ++ homeVisits vs' := by
  simp [homeVisits]

mutual
theorem homeVisits_visits {n cur : Nat} {home : Option Nat} (s : Stmt)
    (hhome : ∀ h, home = some h → h < n) :
    homeVisits (visits n cur home s) = atHome (decide (home = some cur)) s := by
  cases s with
  | simple m =>
      unfold visits atHome homeVisits
      by_cases h : home = some cur <;> simp [h]
  | compound span body => exact homeVisits_visitsAll body hhome
  | ifThen _ _ thenStmt | ifElse _ _ thenStmt _ _ =>
      have h : homeVisits (visits (n + 1) n (some n) thenStmt)
          = atHome (decide (some n = some n)) thenStmt :=
        homeVisits_visits thenStmt fun _ heq => by
          cases heq
          omega
      rw [decide_eq_true rfl] at h
      exact h
  | forLoop _ _ _ _ body | whileLoop _ _ body =>
      have h : homeVisits (visits (n + 2) (n + 1) (some n) body)
          = atHome (decide (some n = some (n + 1))) body :=
        homeVisits_visits body fun _ heq => by
          cases heq
          omega
      rw [decide_eq_false (by simp)] at h
      exact h
  | doLoop _ body _ =>
      have h : homeVisits (visits (n + 1) n (some n) body)
          = atHome (decide (some n = some n)) body :=
        homeVisits_visits body fun _ heq => by
          cases heq
          omega
      rw [decide_eq_true rfl] at h
      exact h
  | _ => rfl

theorem homeVisits_visitsAll {n cur : Nat} {home : Option Nat} (ss : Stmts)
    (hhome : ∀ h, home = some h → h < n) :
    homeVisits (visitsAll n cur home ss) = atHomeAll (decide (home = some cur)) ss := by
  cases ss with
  | nil => rfl
  | cons s ss =>
      have hs : homeVisits (visits n cur home s) = atHome (decide (home = some cur)) s :=
        homeVisits_visits s hhome
      have hss : homeVisits (visitsAll (n + size s) (endBlock n cur s) home ss)
          = atHomeAll (decide (home = some (endBlock n cur s))) ss :=
        homeVisits_visitsAll ss fun h heq => Nat.lt_of_lt_of_le (hhome h heq) (Nat.le_add_right ..)
      have hstay : decide (home = some (endBlock n cur s))
          = (decide (home = some cur) && straight s) := by
        obtain ⟨h1, h2⟩ := straight_spec n cur s
        cases hst : straight s with
        | true => rw [h1 hst, Bool.and_true]
        | false =>
            rw [Bool.and_false]
            refine decide_eq_false fun heq => ?_
            have := hhome _ heq
            have := h2 hst
            omega
      rw [visitsAll, homeVisits_append, hs, hss, hstay, atHomeAll]
end

/-! ## §6. The law. -/

/-- **A simple statement is located in the block it was walked on** exactly if
the body holds no barrier call and the statement is walked before the cursor
has left the first block of the control statement around it (outside of all
of them, the entry, which is found while the function is not as long as a
32-bit number can be). -/
theorem locatesCurrent_iff {root fnNode : Node} {i : Nat} {source : SourceId} {bytes : Text}
    {span : ByteSpan} {body : Stmts} {f : Option Field} {s : PlainNode}
    (hw : root.wellSpanned = true) (hsize : root.info.hi < 2 ^ 32)
    (hnode : (collectFunctions root)[i]? = some fnNode) (herr : fnNode.hasError = false)
    (hbody : functionBody fnNode = some ((Stmt.compound span body).toNode f))
    (hsp : (Stmt.compound span body).spaced = true) (hs : s ∈ body.simples)
    (hne : s.node.info.lo < s.node.info.hi) :
    LocatesCurrent source root i bytes s
      ↔ holdsBarrier bytes (.compound span body) = false
        ∧ s ∈ atHomeAll (belowMax fnNode) body := by
  cases hbar : holdsBarrier bytes (.compound span body) with
  | true =>
      constructor
      · intro ⟨g, c, raw, hwalked, _⟩
        exact absurd hwalked (not_walkedIn_of_barrier hnode hbody hbar)
      · intro ⟨h, _⟩
        cases h
  | false =>
      have hhome : homeVisits (visitsAll 1 0 (entryHome fnNode) body)
          = atHomeAll (belowMax fnNode) body := by
        have h : homeVisits (visitsAll 1 0 (entryHome fnNode) body)
            = atHomeAll (decide (entryHome fnNode = some 0)) body := by
          refine homeVisits_visitsAll body fun h heq => ?_
          unfold entryHome at heq
          split at heq
          · cases heq
            omega
          · cases heq
        have hdecide : decide (entryHome fnNode = some 0) = belowMax fnNode := by
          unfold entryHome
          cases belowMax fnNode <;> rfl
        rw [h, hdecide]
      have hvisits := @walkedIn_visits root fnNode i source bytes span body f hnode herr hbody hbar (entryHome fnNode)
      rw [← hhome]
      unfold homeVisits
      simp only [List.mem_map, List.mem_filter, decide_eq_true_eq, true_and]
      constructor
      · intro ⟨g, c, raw, hwalked, hblock, hres⟩
        have hplain : (s.toNode g).kind.isControl = false :=
          (congrArg NodeKind.isControl (s.toNode_kind g)).trans s.plain
        obtain ⟨v, hv, hc, g', heq⟩ := hvisits.sound _ c hplain hwalked
        -- the statement that was walked is `s`
        have hsv : s = v.1 := by
          have hbd := (functionBody_sub hbody).inside
            ((collectFunctions_sub root fnNode (List.mem_of_getElem? hnode)).inside hw).1
          obtain ⟨hslo, hshi, -⟩ := Node.withField_spans s.node g
          obtain ⟨hvlo, hvhi, -⟩ := Node.withField_spans v.1.node g'
          have hlo := congrArg (fun n : Node => n.info.lo) heq
          have hhi := congrArg (fun n : Node => n.info.hi) heq
          exact Stmt.simples_unique hbd.1 hs (visitsAll_simples body v hv) hne
            (hslo.symm.trans (hlo.trans hvlo)) (hshi.symm.trans (hhi.trans hvhi))
        subst hsv
        refine ⟨v, ⟨hv, ?_⟩, rfl⟩
        rw [hc]
        exact (blockFor_home hw hsize hnode herr hbody hsp hbar (visitsAll_homes body v hv) hne c).mp
          ⟨raw, hblock, hres⟩
      · intro ⟨v, ⟨hv, hcur⟩, hvs⟩
        subst hvs
        obtain ⟨g, hwalked⟩ := hvisits.complete v hv
        obtain ⟨raw, hblock, hres⟩ :=
          (@blockFor_home root fnNode i source bytes span body f hw hsize hnode herr hbody hsp hbar _ _
            (visitsAll_homes body v hv) hne v.2.1).mpr hcur
        exact ⟨g, v.2.1, raw, hwalked, hblock, hres⟩

/-! ## §7. A loop. -/

/-- A statement, then a loop around another one. -/
def oneLoop : Text := "void f(){x;while(c)y;}".toList

/-- The body of `oneLoop`. -/
def oneLoopBody : Stmts :=
  .cons (.simple (identStatement 9))
    (.cons (.whileLoop ⟨11, 21⟩ (identCondition 16) (.simple (identStatement 19))) .nil)

/-- The function of `oneLoop`. -/
def oneLoopFunction : Node :=
  namedNode .functionDefinition none ⟨0, 22⟩
    [declaratorOfF, (Stmt.compound ⟨8, 22⟩ oneLoopBody).toNode (some .body)]

def oneLoopTree : Node := namedNode .translationUnit none ⟨0, 22⟩ [oneLoopFunction]

theorem oneLoop_body : functionBody oneLoopFunction
    = some ((Stmt.compound ⟨8, 22⟩ oneLoopBody).toNode (some .body)) := rfl

/-- `x` is located in the entry block, where it was walked. -/
theorem locatesCurrent_iff_oneLoop : LocatesCurrent ⟨1⟩ oneLoopTree 0 oneLoop (identStatement 9) :=
  (locatesCurrent_iff (by decide) (by decide) rfl rfl oneLoop_body (by decide)
    (List.mem_cons_self ..) (by decide)).mpr ⟨by decide, List.mem_cons_self ..⟩

/-- **`y` is located in the wrong block**: it is walked in the body of the loop
(local block 2), and located in its header (local block 1). -/
theorem loopBody_mislocated :
    (∃ g, WalkedIn oneLoopTree 0 ⟨1⟩ oneLoop ((identStatement 19).toNode g) 2)
      ∧ ¬ LocatesCurrent ⟨1⟩ oneLoopTree 0 oneLoop (identStatement 19) := by
  have hbar : holdsBarrier oneLoop (.compound ⟨8, 22⟩ oneLoopBody) = false := by decide
  have hvisits : Reaches (fun target c => WalkedIn oneLoopTree 0 ⟨1⟩ oneLoop target c)
      [(identStatement 9, 0, some 0), (identStatement 19, 2, some 1)] :=
    walkedIn_visits rfl rfl oneLoop_body hbar (some 0)
  refine ⟨hvisits.complete (identStatement 19, 2, some 1) (by simp), ?_⟩
  intro ⟨g, c, raw, hwalked, hblock, hres⟩
  obtain ⟨v, hv, hc, g', heq⟩ := hvisits.sound _ c rfl hwalked
  have hlo := congrArg (fun n : Node => n.info.lo) heq
  have hhome := (blockFor_home (by decide) (by decide) rfl rfl oneLoop_body (by decide) hbar
    (show (identStatement 19, some 1) ∈ homesAll 1 (entryHome oneLoopFunction) oneLoopBody
      from List.mem_cons_of_mem _ (List.mem_singleton_self _)) (by decide) c).mp ⟨raw, hblock, hres⟩
  simp only [List.mem_cons, List.not_mem_nil, or_false] at hv
  rcases hv with rfl | rfl
  · -- the other statement begins elsewhere
    change 19 = 9 at hlo
    omega
  · rw [← hc] at hhome
    cases hhome

end ShaderClippy.ControlFlow
