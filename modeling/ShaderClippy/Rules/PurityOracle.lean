/-
  ShaderClippy.Rules.PurityOracle

  **THE PURITY ORACLE** (`rules/util/purity_oracle.cpp`).

  A rule that drops or repeats an operand asks if its evaluation has effects.
  The answer is read off the tree: a call is as pure as its arguments if its
  function is on the list, loads are pure, assignments and steps are not, and
  about anything else nothing is known.
-/
import ShaderClippy.Hlsl.Call

namespace ShaderClippy.Rules

open Hlsl

inductive Purity where
  | sideEffectFree
  | sideEffectful
  | unknown
  deriving DecidableEq

/-- `k_pure_intrinsic_allowlist`. -/
def kPureIntrinsicAllowlist : List Text :=
  ["asfloat", "asint", "asuint", "acos", "asin", "atan", "atan2", "cos", "sin", "tan",
    "bitfieldextract", "bitfieldinsert", "countbits", "f16tof32", "f32tof16", "firstbithigh",
    "firstbitlow", "reversebits", "cross", "dot", "length", "normalize", "abs", "clamp", "max",
    "min", "saturate", "sign", "step", "lerp", "mad", "smoothstep", "ceil", "floor", "frac",
    "round", "trunc", "exp", "exp2", "log", "log10", "log2", "pow", "rsqrt", "sqrt", "half",
    "min16float", "min16int", "min16uint"].map String.toList

/-- `is_allowlisted_intrinsic`. -/
def isAllowlistedIntrinsic (name : Text) : Bool := kPureIntrinsicAllowlist.contains name

namespace Purity

/-- `combine`. -/
def combine (lhs rhs : Purity) : Purity :=
  if lhs = .unknown ∨ rhs = .unknown then .unknown
  else if lhs = .sideEffectful ∨ rhs = .sideEffectful then .sideEffectful
  else .sideEffectFree

/-- The loop over the children, which ends at the first that is not pure. -/
def combineLoop (acc : Purity) : List Purity → Purity
  | [] => acc
  | p :: rest =>
      let acc := combine acc p
      if acc = .unknown ∨ acc = .sideEffectful then acc else combineLoop acc rest

def combineAll (ps : List Purity) : Purity := combineLoop .sideEffectFree ps

/-- **All children are pure**, or the node is not. -/
theorem combineAll_eq_free_iff (ps : List Purity) :
    combineAll ps = .sideEffectFree ↔ ∀ p ∈ ps, p = .sideEffectFree := by
  rw [combineAll]
  induction ps with
  | nil => simp [combineLoop]
  | cons p ps ih =>
      rw [combineLoop]
      cases p with
      | sideEffectFree => simpa [combine] using ih
      | sideEffectful => simp [combine]
      | unknown => simp [combine]

end Purity

/-- `classify_call`. -/
def classifyCall (fnText : Text) (args : List Purity) : Purity :=
  if isAllowlistedIntrinsic fnText then .combineAll args else .sideEffectful

/-- `classify_recursive` of the node, and of the arguments it stands for between
the parentheses of a call. -/
def classifyNode (isType : Text → Bool) : Expr → Purity × List Purity
  -- `identifier` and `number_literal`
  | .atom _ => (.sideEffectFree, [.sideEffectFree])
  | .paren _ e _ =>
      let p := Purity.combineAll [(classifyNode isType e).1]
      (p, [p])
  | .construct type _ args _ =>
      let p := classifyCall type.body (classifyNode isType args).2
      (p, [p])
  | .unary (.op t) e =>
      let p :=
        -- `update_expression`
        if kind isType t = .step then .sideEffectful
        else Purity.combineAll [(classifyNode isType e).1]
      (p, [p])
  -- `cast_expression`
  | .unary (.cast ..) _ => (.unknown, [.unknown])
  | .binary x op y =>
      -- `comma_expression`
      if op.body = [','] then
        (.unknown, (classifyNode isType x).2 ++ [(classifyNode isType y).1])
      else
        let p :=
          -- `assignment_expression`
          if (kind isType op).prec = some kAssign then .sideEffectful
          else Purity.combineAll [(classifyNode isType x).1, (classifyNode isType y).1]
        (p, [p])
  | .cond c _ a _ b =>
      let p := Purity.combineAll
        [(classifyNode isType c).1, (classifyNode isType a).1, (classifyNode isType b).1]
      (p, [p])
  | .suffix _ (.step _) => (.sideEffectful, [.sideEffectful])
  -- `field_expression`
  | .suffix _ (.member ..) => (.sideEffectFree, [.sideEffectFree])
  | .suffix e (.nullary ..) =>
      let p := classifyCall (nodeText e) []
      (p, [p])
  | .apply e l i _ =>
      let p :=
        if l.body = ['('] then classifyCall (nodeText e) (classifyNode isType i).2
        -- `subscript_expression`
        else .sideEffectFree
      (p, [p])

/-- `classify_expression`. -/
def classifyExpression (isType : Text → Bool) (e : Expr) : Purity := (classifyNode isType e).1

/-- The second component is the classification of the arguments. -/
theorem classifyNode_snd (isType : Text → Bool) (e : Expr) :
    (classifyNode isType e).2 = (arguments e).map (classifyExpression isType) := by
  induction e with
  | binary x op y ihx _ =>
      unfold classifyNode arguments
      split
      case isTrue => rw [ihx, List.map_append, List.map_singleton, classifyExpression]
      case isFalse hop => simp [classifyExpression, classifyNode, hop]
  | unary p e => cases p <;> rfl
  | suffix e s => cases s <;> rfl
  | _ => rfl

end ShaderClippy.Rules
