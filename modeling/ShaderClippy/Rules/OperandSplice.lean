/-
  ShaderClippy.Rules.OperandSplice

  **RULES WHOSE FIX IS AN OPERAND OF THE CALL**: `dot-on-axis-aligned-vector`,
  `cross-with-up-vector`, `lerp-extremes`, `redundant-abs` and
  `redundant-transpose`.

  Each rule is what it matches (`OperandFix`), the text it writes and the fix it
  emits.
-/
import ShaderClippy.Rules.NodeFix
import ShaderClippy.Rules.NumericLiteral
import Mathlib.Data.List.Sublists

namespace ShaderClippy.Rules

open Hlsl

variable (isType : Text → Bool)

/-! ## §1. `dot-on-axis-aligned-vector`. -/

def kDotName : Text := "dot".toList

/-- `vector_ctor_arity`. -/
def vectorCtorArity (name : Text) : Option Nat :=
  if name = "float2".toList ∨ name = "int2".toList ∨ name = "uint2".toList ∨ name = "half2".toList
  then some 2
  else if name = "float3".toList ∨ name = "int3".toList ∨ name = "uint3".toList
    ∨ name = "half3".toList then some 3
  else if name = "float4".toList ∨ name = "int4".toList ∨ name = "uint4".toList
    ∨ name = "half4".toList then some 4
  else none

/-- `axis_swizzle`. -/
def axisSwizzle : Nat → Char
  | 0 => 'x'
  | 1 => 'y'
  | 2 => 'z'
  | 3 => 'w'
  | _ => 'x'

/-- The loop of `axis_index_of_constructor`, at the component `i`. -/
def axisIndexLoop (i : Nat) (oneIndex : Option Nat) : List Expr → Option Nat
  | [] => oneIndex
  | child :: rest =>
      match numberOf isType child with
      | none => none
      | some t =>
          if isNumericLiteralOne t then
            if oneIndex.isSome then none else axisIndexLoop (i + 1) (some i) rest
          else if !isNumericLiteralZero t then none
          else axisIndexLoop (i + 1) oneIndex rest

/-- `axis_index_of_constructor`. -/
def axisIndexOfConstructor (node : Expr) : Option Nat :=
  (callOf node).bind fun call =>
    (vectorCtorArity (nodeText call.function)).bind fun arity =>
      if call.args.length ≠ arity then none else axisIndexLoop isType 0 none call.args

/-- What `walk` of `dot-on-axis-aligned-vector` matches: the operand and the
axis. -/
def matchDot (node : Expr) : Option (Expr × Nat) :=
  match callTo kDotName node with
  | some [arg0, arg1] =>
      match axisIndexOfConstructor isType arg1 with
      | some axis => some (arg0, axis)
      | none => (axisIndexOfConstructor isType arg0).map fun axis => (arg1, axis)
  | _ => none

/-! ## §2. `cross-with-up-vector`. -/

def kCrossName : Text := "cross".toList

inductive ComponentKind where
  | zero
  | positive
  | negative
  | other

/-- `classify_component`. -/
def classifyComponent (node : Expr) : ComponentKind :=
  match numberOf isType node with
  | some t =>
      if isNumericLiteralZero t then .zero
      else if isNumericLiteralOne t then .positive
      else .other
  | none =>
      match node with
      | .unary (.op op) operand =>
          if op.body ≠ ['-'] then .other
          else
            match numberOf isType operand with
            | none => .other
            | some t =>
                if isNumericLiteralZero t then .zero
                else if isNumericLiteralOne t then .negative
                else .other
      | _ => .other

/-- `is_float3_ctor`. -/
def isFloat3Ctor (name : Text) : Bool :=
  name == "float3".toList || name == "half3".toList || name == "int3".toList
    || name == "uint3".toList || name == "min16float3".toList

structure AxisInfo where
  axis : Nat
  sign : Int
  deriving DecidableEq

/-- The loop of `axis_of_constructor`, at the component `i`. -/
def axisLoop (i : Nat) (info : Option AxisInfo) : List Expr → Option AxisInfo
  | [] => info
  | c :: rest =>
      match classifyComponent isType c with
      | .zero => axisLoop (i + 1) info rest
      | .positive => if info.isSome then none else axisLoop (i + 1) (some ⟨i, 1⟩) rest
      | .negative => if info.isSome then none else axisLoop (i + 1) (some ⟨i, -1⟩) rest
      | .other => none

/-- `axis_of_constructor`. -/
def axisOfConstructor (node : Expr) : Option AxisInfo :=
  (callOf node).bind fun call =>
    if !isFloat3Ctor (nodeText call.function) then none
    else if call.args.length ≠ 3 then none
    else axisLoop isType 0 none call.args

/-- `signed_swizzle`. -/
def signedSwizzle (vText : Text) (componentSign : Int) (sw : Char) : Text :=
  (if componentSign < 0 then ['-'] else []) ++ vText ++ ['.', sw]

/-- `build_replacement`. -/
def buildReplacement (vText : Text) (axis : Nat) (sign : Int) (flipSign : Bool) : Text :=
  let s := (if flipSign then -1 else 1) * sign
  let c : Text × Text × Text :=
    match axis with
    | 0 => (['0'], signedSwizzle vText s 'z', signedSwizzle vText (-s) 'y')
    | 1 => (signedSwizzle vText (-s) 'z', ['0'], signedSwizzle vText s 'x')
    | 2 => (signedSwizzle vText s 'y', signedSwizzle vText (-s) 'x', ['0'])
    | _ => (['0'], ['0'], ['0'])
  "float3(".toList ++ c.1 ++ [',', ' '] ++ c.2.1 ++ [',', ' '] ++ c.2.2 ++ [')']

/-- What `walk` of `cross-with-up-vector` matches: the operand, the axis, and if
the axis comes first. -/
def matchCross (node : Expr) : Option (Expr × AxisInfo × Bool) :=
  match callTo kCrossName node with
  | some [arg0, arg1] =>
      match axisOfConstructor isType arg1 with
      | some info => some (arg0, info, false)
      | none => (axisOfConstructor isType arg0).map fun info => (arg1, info, true)
  | _ => none

/-! ## §3. `lerp-extremes`. -/

def kLerpName : Text := "lerp".toList

/-- `is_float_suffix_char`. -/
def isFloatSuffixChar (c : Char) : Bool :=
  c == 'f' || c == 'F' || c == 'h' || c == 'H' || c == 'l' || c == 'L'

/-- `literal_is`: 0 for the first endpoint, 1 for the second. -/
def literalIs (text : Text) (one : Bool) : Bool :=
  match integralPart isFloatSuffixChar text with
  | some digits => significant digits == if one then ['1'] else []
  | none => false

/-- The matches of the pattern of `lerp-extremes`: three arguments, in order,
the last one a number. -/
def lerpMatches (node : Expr) : List (Expr × Expr × Text) :=
  match callOf node with
  | none => []
  | some call =>
      if identifierOf isType call.function = some kLerpName then
        (call.args.sublistsLen 3).filterMap fun m =>
          match m with
          | [a, b, t] => (numberOf isType t).map fun text => (a, b, text)
          | _ => none
      else []

/-- What `on_tree` of `lerp-extremes` fires on: the endpoint, and if it is the
first one. -/
def matchLerp (node : Expr) : List (Expr × Bool) :=
  (lerpMatches isType node).filterMap fun (a, b, t) =>
    if literalIs t false then some (a, true)
    else if literalIs t true then some (b, false)
    else none

/-! ## §4. `redundant-abs`. -/

/-- `is_unary_call_to`: the argument. -/
def unaryCallTo (node : Expr) (fnName : Text) : Option Expr :=
  match callTo fnName node with
  | some [arg] => some arg
  | _ => none

/-- `classify_arg`: the argument is known to be non-negative. -/
def classifyArg (arg : Expr) : Bool :=
  (unaryCallTo arg "saturate".toList).isSome
    || (match callTo kDotName arg with
        | some [a0, a1] => nodeText a0 == nodeText a1
        | _ => false)
    || (match arg with
        | .binary l op r => op.body == ['*'] && nodeText l == nodeText r
        | _ => false)

/-- What `walk` of `redundant-abs` matches. -/
def matchAbs (node : Expr) : Option Expr :=
  (unaryCallTo node "abs".toList).bind fun arg => if classifyArg arg then some arg else none

/-! ## §5. `redundant-transpose`. -/

def kTransposeName : Text := "transpose".toList

/-- A call of the identifier `transpose`. -/
def transposeArgs (node : Expr) : Option (List Expr) :=
  (callOf node).bind fun call =>
    if identifierOf isType call.function = some kTransposeName then some call.args else none

/-- What `on_tree` of `redundant-transpose` matches: the argument of an inner
call. -/
def matchTranspose (node : Expr) : List Expr :=
  ((transposeArgs isType node).getD []).filterMap fun inner =>
    match transposeArgs isType inner with
    | some [m] => some m
    | _ => none

/-! ## §6. Fixes. -/

/-- What one of the rules has matched. -/
inductive OperandFix where
  | dot (v : Expr) (axis : Nat)
  | cross (v : Expr) (info : AxisInfo) (flipSign : Bool)
  | lerp (result : Expr) (isZero : Bool)
  | abs (arg : Expr)
  | transpose (m : Expr)
  deriving DecidableEq

/-- What the five rules match at a node. -/
def operandFixes (node : Expr) : List OperandFix :=
  (matchDot isType node).toList.map (fun m => .dot m.1 m.2)
    ++ (matchCross isType node).toList.map (fun m => .cross m.1 m.2.1 m.2.2)
    ++ (matchLerp isType node).map (fun m => .lerp m.1 m.2)
    ++ (matchAbs node).toList.map .abs
    ++ (matchTranspose isType node).map .transpose

namespace OperandFix

/-- The text of the edit. -/
def replacement : OperandFix → Text
  | .dot v axis => nodeText v ++ '.' :: [axisSwizzle axis]
  | .cross v info flipSign => buildReplacement (nodeText v) info.axis info.sign flipSign
  | .lerp result _ => nodeText result
  | .abs arg => nodeText arg
  | .transpose m => nodeText m

def description : OperandFix → Text
  | .dot _ _ => "replace the dot product with a swizzle".toList
  | .cross _ _ _ =>
      "replace the cross product with the algebraic closed form (swizzle + sign)".toList
  | .lerp _ isZero =>
      if isZero then "replace `lerp(a, b, 0)` with `a`".toList
      else "replace `lerp(a, b, 1)` with `b`".toList
  | .abs _ => "drop the outer `abs` -- the inner expression is already non-negative".toList
  | .transpose _ => "drop both `transpose` calls -- transpose is its own inverse".toList

/-- The fix of the rule; all of them are machine-applicable. -/
def fix (source : SourceId) (c : Ctx) (node : Expr) (m : OperandFix) : Fix Char :=
  nodeFix source c node m.description true m.replacement

end OperandFix

end ShaderClippy.Rules
