/-
  ShaderClippy.ControlFlow.CfgStorage

  **CFG STORAGE AND THE GRAPH QUERIES OF `CfgInfo`** (`cfg_storage.{hpp,cpp}`).

  A source has a table of functions (entry `0` is a sentinel), each function
  its own list of blocks; global block ids are dense, start at `1` and are
  resolved back to (function, local index). The queries `reachable_from`,
  `dominates` and `barrier_between` resolve both ids and run on the blocks
  of one function.
-/
import ShaderClippy.Source
import ShaderClippy.Lib.Loop

namespace ShaderClippy.ControlFlow

open Loop (Turn loop)

/-! ## §1. Blocks, functions, storage. -/

/-- One basic block; successors are indices into the function's blocks. -/
structure BasicBlock where
  span : Span
  successors : List Nat
  containsBarrier : Bool
  containsDiscard : Bool
  isExit : Bool
  taintedByError : Bool
  deriving Repr, DecidableEq

/-- A fresh block over `span`. -/
def BasicBlock.fresh (span : Span) : BasicBlock := ⟨span, [], false, false, false, false⟩

/-- One function: `blocks[0]` is the entry block, `idom` the dominator-tree
parents. -/
structure CfgFunction where
  declarationSpan : Span
  name : Text
  blocks : List BasicBlock
  idom : List Nat
  errorSkipped : Bool
  deriving Repr, DecidableEq

/-- The span of a default-constructed record. -/
def emptySpan : Span := ⟨⟨0⟩, ⟨0, 0⟩⟩

/-- A default-constructed function. -/
def CfgFunction.empty : CfgFunction := ⟨emptySpan, [], [], [], false⟩

/-- Whole-source storage. `blockToFunction` and `blockToLocal` are the
reverse indices of the global ids `1, 2, …`. -/
structure CfgStorage where
  source : SourceId
  functions : List CfgFunction
  blockToFunction : List Nat
  blockToLocal : List Nat
  spanToBlock : List (Span × Nat)
  deriving Repr, DecidableEq

/-- The successor list of a block. -/
def CfgFunction.successors (fn : CfgFunction) (b : Nat) : List Nat :=
  match fn.blocks[b]? with
  | some block => block.successors
  | none => []

/-- `contains_barrier` of a block. -/
def CfgFunction.containsBarrier (fn : CfgFunction) (b : Nat) : Bool :=
  match fn.blocks[b]? with
  | some block => block.containsBarrier
  | none => false

/-- An edge of the CFG: out-of-range successors do not count. -/
def CfgFunction.Edge (fn : CfgFunction) (u v : Nat) : Prop :=
  v ∈ fn.successors u ∧ v < fn.blocks.length

instance (fn : CfgFunction) (u v : Nat) : Decidable (fn.Edge u v) :=
  inferInstanceAs (Decidable (_ ∧ _))

theorem CfgFunction.Edge.src_lt {fn : CfgFunction} {u v : Nat} (h : fn.Edge u v) :
    u < fn.blocks.length := by
  refine Nat.lt_of_not_le fun hge => ?_
  have hnone : fn.blocks[u]? = none := List.getElem?_eq_none hge
  have := h.1
  rw [CfgFunction.successors, hnone] at this
  exact absurd this List.not_mem_nil

/-! ## §2. Global ids. -/

/-- `allocate_block_id`. -/
def CfgStorage.allocateBlockId (st : CfgStorage) (functionId localIndex : Nat) :
    Nat × CfgStorage :=
  (st.blockToFunction.length + 1,
    { st with
      blockToFunction := st.blockToFunction ++ [functionId]
      blockToLocal := st.blockToLocal ++ [localIndex] })

/-- The linear scan of `global_id`, from entry `i` on. -/
def globalIdFrom (functionId localIndex : Nat) : Nat → List Nat → List Nat → Nat
  | i, f :: fs, l :: ls =>
      if f = functionId && l = localIndex then i + 1
      else globalIdFrom functionId localIndex (i + 1) fs ls
  | _, _, _ => 0

/-- `global_id`: `0` when there is no such block. -/
def CfgStorage.globalId (st : CfgStorage) (functionId localIndex : Nat) : Nat :=
  globalIdFrom functionId localIndex 0 st.blockToFunction st.blockToLocal

/-- `resolve`: function id and local index of a raw id, `(0, 0)` when invalid. -/
def CfgStorage.resolve (st : CfgStorage) (raw : Nat) : Nat × Nat :=
  if raw = 0 || raw > st.blockToFunction.length then (0, 0)
  else (st.blockToFunction.getD (raw - 1) 0, st.blockToLocal.getD (raw - 1) 0)

/-! ## §3. Queries on one function. -/

/-- A visited set and a work list. -/
structure Search where
  seen : List Bool
  stack : List Nat

/-- The inner `for` over the successors of a block: `done true` as soon as
`dst` is met; blocks with `blocked` are not entered. -/
def expand (fn : CfgFunction) (blocked : Nat → Bool) (dst : Nat) :
    List Nat → Search → Turn Search Bool
  | [], s => .more s
  | succ :: rest, s =>
      if succ ≥ fn.blocks.length || s.seen.getD succ false then expand fn blocked dst rest s
      else if succ = dst then .done true
      else if blocked succ then expand fn blocked dst rest s
      else expand fn blocked dst rest ⟨s.seen.set succ true, succ :: s.stack⟩

/-- One turn of the `while (!stack.empty())` loop; one of the three loops of
`cfg_storage.cpp` also tests the block it pops (`testPop`). -/
def searchStep (fn : CfgFunction) (testPop : Bool) (blocked : Nat → Bool) (dst : Nat)
    (s : Search) : Option (Turn Search Bool) :=
  match s.stack with
  | [] => some (.done false)
  | cur :: rest =>
      if testPop && cur = dst then some (.done true)
      else some (expand fn blocked dst (fn.successors cur) ⟨s.seen, rest⟩)

/-- Enough turns to empty the work list. -/
def searchFuel (fn : CfgFunction) : Nat := fn.blocks.length + 2

/-- The whole loop, started at `from`: was `dst` met? -/
def search (fn : CfgFunction) (testPop : Bool) (blocked : Nat → Bool) (src dst : Nat) : Bool :=
  (loop (searchStep fn testPop blocked dst) (searchFuel fn)
    ⟨(List.replicate fn.blocks.length false).set src true, [src]⟩).getD false

/-- `reachable`. -/
def reachable (fn : CfgFunction) (src dst : Nat) : Bool :=
  if src ≥ fn.blocks.length || dst ≥ fn.blocks.length then false
  else if src = dst then true
  else search fn false (fun _ => false) src dst

/-- The parent walk of `dominates_query`, `guard` turns at most. -/
def dominatesWalk (idom : List Nat) (a : Nat) : Nat → Nat → Bool
  | 0, _ => false
  | guard + 1, cur =>
      if cur = a then true
      else
        let parent := idom.getD cur 0
        if parent = cur then a == cur else dominatesWalk idom a guard parent

/-- `dominates_query`. -/
def dominatesQuery (fn : CfgFunction) (a b : Nat) : Bool :=
  if a ≥ fn.blocks.length || b ≥ fn.blocks.length then false
  else if fn.idom.length ≠ fn.blocks.length then a == 0
  else dominatesWalk fn.idom a (fn.blocks.length + 1) b

/-- `barrier_separates`. -/
def barrierSeparates (fn : CfgFunction) (src dst : Nat) : Bool :=
  if src ≥ fn.blocks.length || dst ≥ fn.blocks.length then false
  else if src = dst then false
  else if !search fn true (fun _ => false) src dst then false
  else if fn.containsBarrier dst then true
  else !search fn false fn.containsBarrier src dst

/-! ## §4. The public queries of `CfgInfo`. -/

/-- `CfgInfo`: the queries go through `impl`, the storage; a null handle
answers `false`. -/
structure CfgInfo where
  blocks : List Nat
  entrySpan : Span
  impl : Option CfgStorage
  deriving Repr, DecidableEq

/-- Resolve both ids and ask `query` when they lie in one real function. -/
def CfgInfo.withinFunction (info : CfgInfo) (query : CfgFunction → Nat → Nat → Bool)
    (a b : Nat) : Bool :=
  match info.impl with
  | none => false
  | some st =>
      let (aFn, aLocal) := st.resolve a
      let (bFn, bLocal) := st.resolve b
      if aFn = 0 || bFn = 0 || aFn ≠ bFn then false
      else query (st.functions.getD aFn CfgFunction.empty) aLocal bLocal

/-- `CfgInfo::reachable_from`. -/
def CfgInfo.reachableFrom (info : CfgInfo) (src dst : Nat) : Bool :=
  info.withinFunction reachable src dst

/-- `CfgInfo::dominates`. -/
def CfgInfo.dominates (info : CfgInfo) (a b : Nat) : Bool :=
  info.withinFunction dominatesQuery a b

/-- `CfgInfo::barrier_between`. -/
def CfgInfo.barrierBetween (info : CfgInfo) (a b : Nat) : Bool :=
  info.withinFunction barrierSeparates a b

end ShaderClippy.ControlFlow
