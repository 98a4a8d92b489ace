/-
  ShaderClippy.ControlFlow.Dominators

  **ITERATIVE DOMINATOR TREES** (`dominators.cpp`).

  `compute_dominators` numbers the reachable blocks by an iterative
  depth-first search, then sweeps them in reverse postorder until no parent
  changes. `k_undefined` is `none`; every `while` loop runs on fuel, and
  the result is `none` only if some loop ran out of it.
-/
import Mathlib
import ShaderClippy.ControlFlow.CfgStorage

namespace ShaderClippy.ControlFlow

open Loop (Turn loop)

/-! ## §1. Reverse postorder. -/

/-- The state of the depth-first search: the stack holds blocks with the
index of the next successor to look at, top first. -/
structure Dfs where
  seen : List Bool
  order : List Nat
  stack : List (Nat × Nat)

/-- One turn of the search; it ends with the reversed postorder. -/
def dfsStep (fn : CfgFunction) (s : Dfs) : Option (Turn Dfs (List Nat)) :=
  match s.stack with
  | [] => some (.done s.order.reverse)
  | (node, succIndex) :: rest =>
      if node ≥ fn.blocks.length then some (.more { s with stack := rest })
      else
        match (fn.successors node)[succIndex]? with
        | some next =>
            let stack := (node, succIndex + 1) :: rest
            if next < fn.blocks.length && !s.seen.getD next false then
              some (.more { s with seen := s.seen.set next true, stack := (next, 0) :: stack })
            else some (.more { s with stack := stack })
        | none => some (.more { s with order := s.order ++ [node], stack := rest })

/-- A bound for the number of successors of any block, plus `2`. -/
def dfsWeight (fn : CfgFunction) : Nat :=
  (fn.blocks.map fun block => block.successors.length).sum + 2

/-- `compute_reverse_postorder`. -/
def computeReversePostorder (fn : CfgFunction) : Option (List Nat) :=
  if fn.blocks.length = 0 then some []
  else
    loop (dfsStep fn) ((fn.blocks.length + 1) * dfsWeight fn)
      ⟨(List.replicate fn.blocks.length false).set 0 true, [], [(0, 0)]⟩

/-- The numbering loop `postorder_num[rpo[i]] = rpo.size() - 1 - i`, from `i` on. -/
def numberFrom (size : Nat) : Nat → List Nat → List Nat → List Nat
  | _, [], post => post
  | i, b :: bs, post => numberFrom size (i + 1) bs (post.set b (size - 1 - i))

/-- `postorder_num`; unreachable blocks keep `0`. -/
def postorderNum (fn : CfgFunction) (rpo : List Nat) : List Nat :=
  numberFrom rpo.length 0 rpo (List.replicate fn.blocks.length 0)

/-! ## §2. Intersection and predecessors. -/

/-- One inner `while` loop of `intersect`: climb from `b` while its postorder
number is below that of `target`. Result `none` is `return k_undefined`. -/
def climbStep (idom : List (Option Nat)) (post : List Nat) (target b : Nat) :
    Option (Turn Nat (Option Nat)) :=
  if post.getD b 0 < post.getD target 0 then
    match idom.getD b none with
    | none => some (.done none)
    | some next => if next = b then some (.done (some b)) else some (.more next)
  else some (.done (some b))

/-- One turn of the outer `while (b1 != b2)` loop of `intersect`. -/
def intersectStep (idom : List (Option Nat)) (post : List Nat) (s : Nat × Nat) :
    Option (Turn (Nat × Nat) (Option Nat)) :=
  let (b1, b2) := s
  if b1 = b2 then some (.done (some b1))
  else
    match loop (climbStep idom post b2) (idom.length + 1) b1 with
    | none => none
    | some none => some (.done none)
    | some (some b1) =>
        match loop (climbStep idom post b1) (idom.length + 1) b2 with
        | none => none
        | some none => some (.done none)
        | some (some b2) =>
            if post.getD b1 0 = post.getD b2 0 && b1 ≠ b2 then some (.done none)
            else some (.more (b1, b2))

/-- `intersect`. -/
def intersect (b1 b2 : Nat) (idom : List (Option Nat)) (post : List Nat) : Option (Option Nat) :=
  loop (intersectStep idom post) (2 * idom.length + 1) (b1, b2)

/-- `compute_predecessors`: one entry per edge, in the order of the sources. -/
def computePredecessors (fn : CfgFunction) : List (List Nat) :=
  (List.range fn.blocks.length).map fun succ =>
    (List.range fn.blocks.length).flatMap fun b =>
      ((fn.successors b).filter (· = succ)).map fun _ => b

/-! ## §3. The sweeps. -/

/-- The loop over the predecessors of one block; `newIdom` is the value so far. -/
def newIdomLoop (idom : List (Option Nat)) (post : List Nat) :
    List Nat → Option Nat → Option (Option Nat)
  | [], newIdom => some newIdom
  | p :: ps, newIdom =>
      match idom.getD p none with
      | none => newIdomLoop idom post ps newIdom
      | some _ =>
          match newIdom with
          | none => newIdomLoop idom post ps (some p)
          | some d =>
              match intersect p d idom post with
              | none => none
              | some none => newIdomLoop idom post ps (some d)
              | some (some c) => newIdomLoop idom post ps (some c)

/-- The table and the flag `changed`. -/
structure Sweep where
  idom : List (Option Nat)
  changed : Bool

/-- One block of a sweep. -/
def sweepBlock (post : List Nat) (preds : List (List Nat)) (s : Sweep) (b : Nat) :
    Option Sweep :=
  match newIdomLoop s.idom post (preds.getD b []) none with
  | none => none
  | some none => some s
  | some (some newIdom) =>
      if s.idom.getD b none ≠ some newIdom then some ⟨s.idom.set b (some newIdom), true⟩
      else some s

/-- The sweep over `rpo[1..]`. -/
def sweepBlocks (post : List Nat) (preds : List (List Nat)) : List Nat → Sweep → Option Sweep
  | [], s => some s
  | b :: bs, s =>
      match sweepBlock post preds s b with
      | none => none
      | some s' => sweepBlocks post preds bs s'

/-- One turn of `while (changed)`. -/
def iterateStep (rpo post : List Nat) (preds : List (List Nat)) (idom : List (Option Nat)) :
    Option (Turn (List (Option Nat)) (List (Option Nat))) :=
  match sweepBlocks post preds rpo.tail ⟨idom, false⟩ with
  | none => none
  | some s => if s.changed then some (.more s.idom) else some (.done s.idom)

/-- The parent table after the last sweep. -/
def iterate (fn : CfgFunction) (rpo : List Nat) : Option (List (Option Nat)) :=
  loop (iterateStep rpo (postorderNum fn rpo) (computePredecessors fn))
    (rpo.length * rpo.length + 1)
    ((List.replicate fn.blocks.length none).set 0 (some 0))

/-- **`compute_dominators`.** -/
def computeDominators (fn : CfgFunction) : Option CfgFunction :=
  if fn.errorSkipped then
    if fn.idom.length ≠ fn.blocks.length then
      some { fn with idom := List.replicate fn.blocks.length 0 }
    else some fn
  else if fn.blocks.length = 0 then some { fn with idom := [] }
  else
    match computeReversePostorder fn with
    | none => none
    | some rpo =>
        match iterate fn rpo with
        | none => none
        | some idom => some { fn with idom := idom.map fun parent => parent.getD 0 }

end ShaderClippy.ControlFlow
