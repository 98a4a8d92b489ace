/-
  ShaderClippy.ControlFlow.LiveBlocks

  **WHAT IS LIVE BEHIND THE BLOCK OF A SPAN.**

  `block_for` gives a raw id, the dataflow is about the blocks of one
  function. No block has two ids (`UniqueIds`), so the id that `block_for`
  gives is the one the tables are keyed by (`globalId_resolve`).

  So a name is live out of the located block exactly if a path of the graph
  leads from the end of the block to a use of it, past no block that defines
  it (`mem_liveOut_located`). In a function with too many blocks for a 32-bit
  signed index the path must stay among those the sweeps visit.
-/
import ShaderClippy.ControlFlow.CfgQuery
import ShaderClippy.ControlFlow.Liveness
import ShaderClippy.ControlFlow.Soundness

namespace ShaderClippy.ControlFlow.Liveness

/-! ## §1. One id for each block. -/

/-- The ids `1, 2, …` are blocks of functions that are already there, all
different. -/
structure UniqueIds (st : CfgStorage) : Prop where
  bounded : ∀ raw, 0 < raw → raw ≤ st.blockToFunction.length →
    (st.resolve raw).1 < st.functions.length
  inj : ∀ raw raw', 0 < raw → raw ≤ st.blockToFunction.length → 0 < raw' →
    raw' ≤ st.blockToFunction.length → st.resolve raw = st.resolve raw' → raw = raw'

theorem uniqueIds_empty (source : SourceId) : UniqueIds (emptyStorage source) where
  bounded raw hpos hle := by
    have hlen : (emptyStorage source).blockToFunction.length = 0 := rfl
    omega
  inj raw raw' hpos hle _ _ _ := by
    have hlen : (emptyStorage source).blockToFunction.length = 0 := rfl
    omega

/-- An id of the storage with one more function: old, or a block of that one. -/
theorem push_id_cases {st : CfgStorage} {fn : CfgFunction} {raw : Nat} (h : Indexed st)
    (hpos : 0 < raw) (hle : raw ≤ (st.push fn).blockToFunction.length) :
    (raw ≤ st.blockToFunction.length ∧ (st.push fn).resolve raw = st.resolve raw)
      ∨ ∃ i < fn.blocks.length, raw = st.blockToFunction.length + 1 + i
        ∧ (st.push fn).resolve raw = (st.functions.length, i) := by
  have hlen : (st.push fn).blockToFunction.length
      = st.blockToFunction.length + fn.blocks.length := by
    simp [CfgStorage.push, CfgStorage.extend]
  by_cases hold : raw ≤ st.blockToFunction.length
  · exact .inl ⟨hold, resolve_push_old fn h hpos hold⟩
  · have hi : raw - (st.blockToFunction.length + 1) < fn.blocks.length := by omega
    have hraw : raw = st.blockToFunction.length + 1 + (raw - (st.blockToFunction.length + 1)) := by
      omega
    refine .inr ⟨_, hi, hraw, ?_⟩
    have hnew := resolve_push_new h hi
    rw [← hraw] at hnew
    exact hnew

/-- One more function keeps the ids unique. -/
theorem UniqueIds.push {st : CfgStorage} (hu : UniqueIds st) (h : Indexed st) (fn : CfgFunction) :
    UniqueIds (st.push fn) := by
  have hfns : (st.push fn).functions.length = st.functions.length + 1 := by
    show (st.functions ++ [fn]).length = _
    rw [List.length_append]
    rfl
  constructor
  · -- every id is of a function that is there, the new ones of the last
    intro raw hpos hle
    rcases push_id_cases h hpos hle with ⟨hold, hres⟩ | ⟨i, hi, hraw, hres⟩
    · have hlt := hu.bounded raw hpos hold
      rw [hres]
      omega
    · rw [hres]
      show st.functions.length < _
      omega
  · intro raw raw' hpos hle hpos' hle' heq
    rcases push_id_cases h hpos hle with ⟨hold, hres⟩ | ⟨i, hi, hraw, hres⟩
    · rcases push_id_cases h hpos' hle' with ⟨hold', hres'⟩ | ⟨j, hj, hraw', hres'⟩
      · rw [hres, hres'] at heq
        exact hu.inj raw raw' hpos hold hpos' hold' heq
      · -- an old block is of an old function
        have hlt := hu.bounded raw hpos hold
        rw [hres, hres'] at heq
        rw [heq] at hlt
        exact absurd hlt (Nat.lt_irrefl _)
    · rcases push_id_cases h hpos' hle' with ⟨hold', hres'⟩ | ⟨j, hj, hraw', hres'⟩
      · have hlt := hu.bounded raw' hpos' hold'
        rw [hres, hres'] at heq
        rw [← heq] at hlt
        exact absurd hlt (Nat.lt_irrefl _)
      · -- two blocks of the new function are at different places
        rw [hres, hres', Prod.mk.injEq] at heq
        rw [hraw, hraw', heq.2]

theorem buildCfg_uniqueIds (root : Node) (source : SourceId) (bytes : Text) :
    UniqueIds (buildCfg root source bytes).1 :=
  (buildFunctions_induction (Q := fun st => Indexed st ∧ UniqueIds st)
    (fun _ _ h => ⟨h.1.push _, h.2.push h.1 _⟩) _ _ _
    ⟨indexed_empty source, uniqueIds_empty source⟩).2

/-- **The id of a block is the only one.** -/
theorem globalId_resolve {st : CfgStorage} (h : Indexed st) (hu : UniqueIds st) {raw : Nat}
    (hpos : 0 < raw) (hle : raw ≤ st.blockToFunction.length) :
    st.globalId (st.resolve raw).1 (st.resolve raw).2 = raw := by
  have hf : raw - 1 < st.blockToFunction.length := by omega
  have hl : raw - 1 < st.blockToLocal.length := by
    rw [h.lengths]
    exact hf
  have hresolve : ∀ {r : Nat}, r ≠ 0 → r ≤ st.blockToFunction.length →
      st.resolve r = (st.blockToFunction.getD (r - 1) 0, st.blockToLocal.getD (r - 1) 0) := by
    intro r hne hr
    unfold CfgStorage.resolve
    rw [if_neg (by simp; omega)]
  have hfirst : st.blockToFunction[raw - 1]? = some (st.resolve raw).1 := by
    rw [hresolve (by omega) hle, List.getD_eq_getElem?_getD, List.getElem?_eq_getElem hf]
    rfl
  have hsecond : st.blockToLocal[raw - 1]? = some (st.resolve raw).2 := by
    rw [hresolve (by omega) hle, List.getD_eq_getElem?_getD, List.getD_eq_getElem?_getD,
      List.getElem?_eq_getElem hl]
    rfl
  -- the search finds some entry with the function and the place of `raw`
  have hne : st.globalId (st.resolve raw).1 (st.resolve raw).2 ≠ 0 :=
    globalIdFrom_ne_zero hfirst hsecond
  obtain ⟨hpos', hfound, hfound'⟩ := globalIdFrom_spec hne
  change 0 < st.globalId _ _ at hpos'
  change st.blockToFunction[st.globalId _ _ - 1 - 0]? = _ at hfound
  change st.blockToLocal[st.globalId _ _ - 1 - 0]? = _ at hfound'
  rw [Nat.sub_zero] at hfound hfound'
  have hlt := (List.getElem?_eq_some_iff.mp hfound).1
  -- and there is only one
  refine hu.inj _ raw hpos' (by omega) hpos hle ?_
  rw [hresolve (by omega) (by omega), List.getD_eq_getElem?_getD, List.getD_eq_getElem?_getD,
    hfound, hfound']
  rfl

/-! ## §2. The storage of a source. -/

/-- The storage the queries run on. -/
def builtStorage (source : SourceId) (root : Node) (bytes : Text) : CfgStorage :=
  computeAllDominators (buildCfg root source bytes).1

theorem builtStorage_uniqueIds (source : SourceId) (root : Node) (bytes : Text) :
    UniqueIds (builtStorage source root bytes) := by
  have h := buildCfg_uniqueIds root source bytes
  have hlen : (builtStorage source root bytes).functions.length
      = (buildCfg root source bytes).1.functions.length := by
    unfold builtStorage computeAllDominators
    cases (buildCfg root source bytes).1.functions with
    | nil => rfl
    | cons sentinel fns => simp
  refine ⟨fun raw hpos hle => ?_, h.inj⟩
  rw [hlen]
  exact h.bounded raw hpos hle

/-- The dominator pass changes no block. -/
theorem computeAllDominators_inv {st : CfgStorage} {f : Nat} {fn' : CfgFunction} (hpos : 0 < f)
    (h : (computeAllDominators st).functions[f]? = some fn') :
    ∃ fn, st.functions[f]? = some fn ∧ fn'.blocks = fn.blocks := by
  cases hfn : st.functions[f]? with
  | none =>
      -- the pass adds no function
      have hlen : (computeAllDominators st).functions.length = st.functions.length := by
        unfold computeAllDominators
        cases st.functions with
        | nil => rfl
        | cons sentinel fns => simp
      have hlt := (List.getElem?_eq_some_iff.mp h).1
      rw [hlen] at hlt
      rw [List.getElem?_eq_getElem hlt] at hfn
      exact absurd hfn nofun
  | some fn =>
      refine ⟨fn, rfl, ?_⟩
      rw [computeAllDominators_get hpos hfn, Option.some.injEq] at h
      rw [← h]
      cases hd : computeDominators fn with
      | none => rfl
      | some gn => exact computeDominators_blocks hd

theorem builtStorage_indexed (source : SourceId) (root : Node) (bytes : Text) :
    Indexed (builtStorage source root bytes) := by
  have h := buildCfg_indexed root source bytes
  have hblocks : ∀ {f : Nat} {fn : CfgFunction}, 0 < f →
      (buildCfg root source bytes).1.functions[f]? = some fn →
        ∃ fn', (builtStorage source root bytes).functions[f]? = some fn' ∧ fn'.blocks = fn.blocks := by
    intro f fn hpos hfn
    have hget := computeAllDominators_get hpos hfn
    obtain ⟨gn, hgn, heq⟩ := computeAllDominators_inv hpos hget
    rw [hfn, Option.some.injEq] at hgn
    rw [hgn]
    exact ⟨_, hgn ▸ hget, heq⟩
  refine ⟨?_, h.lengths, fun span raw hmem => ?_, fun f fn' b hpos hfn' hb => ?_⟩
  · -- the sentinel stays in front
    have hsentinel := h.sentinel
    unfold builtStorage computeAllDominators
    cases hfns : (buildCfg root source bytes).1.functions with
    | nil =>
        rw [hfns] at hsentinel
        exact absurd hsentinel (Nat.lt_irrefl 0)
    | cons sentinel fns => exact Nat.succ_pos _
  · -- an entry still names a block with its span
    obtain ⟨fn, block, hpos, hle, hreal, hfn, hblock, hspan⟩ := h.entry span raw hmem
    obtain ⟨fn', hfn', heq⟩ := hblocks hreal hfn
    exact ⟨fn', block, hpos, hle, hreal, hfn', heq ▸ hblock, hspan⟩
  · obtain ⟨fn, hfn, heq⟩ := computeAllDominators_inv hpos hfn'
    exact h.id f fn b hpos hfn (heq ▸ hb)

/-! ## §3. Behind a block. -/

/-- The graph around the block `raw`. -/
def graphAround (st : CfgStorage) (raw : Nat) : CfgFunction :=
  st.functions.getD (st.resolve raw).1 CfgFunction.empty

/-- A path leads from the end of the block `raw` to a use of the name, past no
block that defines it. -/
def ReadBehind (st : CfgStorage) (tables : DefUseTables) (raw : Nat) (x : Text) : Prop :=
  ∃ s ps, SweptPath st tables (st.resolve raw).1 (graphAround st raw) x (st.resolve raw).2 s ps

/-- `raw` is a block of a function that was not skipped. -/
structure RealBlock (st : CfgStorage) (raw : Nat) : Prop where
  pos : 0 < raw
  bounded : raw ≤ st.blockToFunction.length
  real : 0 < (st.resolve raw).1
  function : st.functions[(st.resolve raw).1]? = some (graphAround st raw)
  block : (st.resolve raw).2 < (graphAround st raw).blocks.length
  parsed : (graphAround st raw).errorSkipped = false

/-- **Live out of a block is read behind it.** -/
theorem mem_liveOut_iff {st : CfgStorage} {tables : DefUseTables} {raw : Nat} {x : Text}
    (h : Indexed st) (hu : UniqueIds st) (hraw : RealBlock st raw) :
    x ∈ (computeLiveness st tables).liveOut raw ↔ ReadBehind st tables raw x := by
  have hout : x ∈ (computeLiveness st tables).liveOut
        (st.globalId (st.resolve raw).1 (st.resolve raw).2) ↔ ReadBehind st tables raw x :=
    mem_liveOut_swept h hraw.function hraw.real hraw.parsed hraw.block
  rw [globalId_resolve h hu hraw.pos hraw.bounded] at hout
  exact hout

section Located

variable {root fnNode : Node} {i : Nat} {source : SourceId} {bytes : Text} {span : Span} {raw : Nat}

/-- The graph of the `i`-th function of a source. -/
def builtFunction (source : SourceId) (root : Node) (bytes : Text) (i : Nat) : CfgFunction :=
  (builtStorage source root bytes).functions.getD (i + 1) CfgFunction.empty

/-- The graph of a function without errors is not skipped, and has the blocks
that were built. -/
theorem builtFunction_get (source : SourceId) (bytes : Text)
    (hnode : (collectFunctions root)[i]? = some fnNode) (herr : fnNode.hasError = false) :
    (builtStorage source root bytes).functions[i + 1]? = some (builtFunction source root bytes i)
      ∧ (builtFunction source root bytes i).errorSkipped = false
      ∧ ∃ st, (builtFunction source root bytes i).blocks
          = (buildFunction st (i + 1) fnNode source bytes).1.blocks := by
  obtain ⟨st, hst⟩ := buildCfg_function source bytes hnode
  have hskip := buildFunction_not_skipped st (i + 1) source bytes herr
  obtain ⟨fn', hfn', heq, -⟩ := computeDominators_spec _ hskip
  have hget : (builtStorage source root bytes).functions[i + 1]? = some fn' := by
    unfold builtStorage
    rw [computeAllDominators_get (Nat.succ_pos i) hst, hfn']
    rfl
  have hbuilt : builtFunction source root bytes i = fn' := by
    unfold builtFunction
    rw [List.getD_eq_getElem?_getD, hget]
    rfl
  rw [hbuilt, heq]
  exact ⟨heq ▸ hget, hskip, st, rfl⟩

/-- Its edges are those of the body. -/
theorem builtFunction_edge {body : Stmt} (source : SourceId) (hbody : IsBody root i body)
    (hbar : holdsBarrier bytes body = false) :
    (builtFunction source root bytes i).Edge = fun u v => (u, v) ∈ edges 1 0 body := by
  obtain ⟨fnNode, f, hnode, herr, hfb⟩ := hbody
  obtain ⟨-, -, st, hblocks⟩ := builtFunction_get source bytes hnode herr
  rw [← buildFunction_edge st (i + 1) source herr hfb hbar]
  funext u v
  unfold CfgFunction.Edge CfgFunction.successors
  rw [hblocks]

/-- The block of a span in a function is a block of that function. -/
theorem graphAround_located (hw : root.wellSpanned = true)
    (hnode : (collectFunctions root)[i]? = some fnNode) (hin : Covers fnNode span)
    (hne : span.bytes.lo < span.bytes.hi)
    (hlocated : blockFor (buildEntry source root bytes).info span = some raw) :
    ((builtStorage source root bytes).resolve raw).1 = i + 1
      ∧ graphAround (builtStorage source root bytes) raw = builtFunction source root bytes i := by
  have hfn : ((builtStorage source root bytes).resolve raw).1 = i + 1 :=
    blockFor_function hw hnode hin hne hlocated
  unfold graphAround builtFunction
  rw [hfn]
  exact ⟨rfl, rfl⟩

theorem realBlock_located (hw : root.wellSpanned = true)
    (hnode : (collectFunctions root)[i]? = some fnNode) (herr : fnNode.hasError = false)
    (hin : Covers fnNode span) (hne : span.bytes.lo < span.bytes.hi)
    (hlocated : blockFor (buildEntry source root bytes).info span = some raw) :
    RealBlock (builtStorage source root bytes) raw := by
  obtain ⟨hfn, hgraph⟩ := graphAround_located hw hnode hin hne hlocated
  obtain ⟨hget, hskip, -⟩ := builtFunction_get source bytes hnode herr
  have hquery : (if (locateBlock (builtStorage source root bytes) span).rawId = 0 then none
      else some (locateBlock (builtStorage source root bytes) span).rawId) = some raw := hlocated
  split at hquery
  next => cases hquery
  next hfound =>
    -- a hit is an entry of the storage, and so a block of its function
    obtain ⟨outer, hmem, -⟩ := locateBlock_mem hfound
    rw [Option.some.inj hquery] at hmem
    obtain ⟨fn, block, hpos, hle, hreal, hfn', hblock, -⟩ :=
      (builtStorage_indexed source root bytes).entry outer raw hmem
    rw [hfn, hget, Option.some.injEq] at hfn'
    refine ⟨hpos, hle, hreal, ?_, ?_, hgraph ▸ hskip⟩
    · rw [hfn, hgraph]
      exact hget
    · rw [hgraph, hfn']
      exact (List.getElem?_eq_some_iff.mp hblock).1

/-- **Live out of the block of a span.** -/
theorem mem_liveOut_located {tables : DefUseTables} {x : Text} (hw : root.wellSpanned = true)
    (hnode : (collectFunctions root)[i]? = some fnNode) (herr : fnNode.hasError = false)
    (hin : Covers fnNode span) (hne : span.bytes.lo < span.bytes.hi)
    (hlocated : blockFor (buildEntry source root bytes).info span = some raw) :
    x ∈ (computeLiveness (builtStorage source root bytes) tables).liveOut raw
      ↔ ReadBehind (builtStorage source root bytes) tables raw x :=
  mem_liveOut_iff (builtStorage_indexed source root bytes) (builtStorage_uniqueIds source root bytes)
    (realBlock_located hw hnode herr hin hne hlocated)

end Located

end ShaderClippy.ControlFlow.Liveness
