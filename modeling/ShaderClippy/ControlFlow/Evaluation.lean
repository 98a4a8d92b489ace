/-
  ShaderClippy.ControlFlow.Evaluation

  **WHAT AN EXECUTION EVALUATES AND STORES, STEP BY STEP.**

  A node is evaluated for its value, or as the place of a store: then its
  indices are evaluated, but it is not read. `evaluation` orders the steps:
  children from left to right and the node behind them, the right side of an
  assignment before the left, one arm of a conditional, the second operand of
  `&&` and `||` or not.

  The steps of a body are those of the code its executions visit
  (`bodySteps`).
-/
import ShaderClippy.ControlFlow.Soundness
import ShaderClippy.Lib.StateSets

namespace ShaderClippy.ControlFlow.Evaluation

open Structured

/-! ## §1. The steps of an expression. -/

/-- One step: the value of a node is known, something is stored in it, or it is
declared without a value. -/
inductive Step where
  | value (n : Node)
  | store (n : Node)
  | declare (n : Node)

/-- The steps of a node when it is evaluated, and when it is stored to. -/
structure NodeSteps where
  value : Prog Step
  place : Prog Step

/-- The children of a node, each with its steps. -/
abbrev Operands := List (Node × NodeSteps)

namespace Operands

/-- The first child in this field. -/
def byField (ops : Operands) (f : Field) : Option (Node × NodeSteps) :=
  ops.find? fun op => decide (op.1.info.field = some f)

/-- The value of a child that may be absent. -/
def valueOf (ops : Operands) (f : Field) : Prog Step :=
  match ops.byField f with
  | none => .skip
  | some op => op.2.value

/-- The place of a child that may be absent. -/
def placeOf (ops : Operands) (f : Field) : Prog Step :=
  match ops.byField f with
  | none => .skip
  | some op => op.2.place

/-- A step about a child that may be absent. -/
def stepAt (ops : Operands) (f : Field) (step : Node → Step) : Prog Step :=
  match ops.byField f with
  | none => .skip
  | some op => .point (step op.1)

/-- The values of all children. -/
def values (ops : Operands) : Prog Step := .seqs (ops.map fun op => op.2.value)

/-- The kind of the operator. -/
def operatorKind (ops : Operands) : Option NodeKind := (ops.byField .operator).map fun op => op.1.kind

/-- Is this `&&` or `||`? -/
def isShortCircuit (ops : Operands) : Bool :=
  ops.operatorKind == some (.other "&&".toList) || ops.operatorKind == some (.other "||".toList)

/-- Does an assignment read its left side too, as `+=` does? -/
def isCompound (ops : Operands) : Bool :=
  match ops.operatorKind with
  | none => false
  | some k => k != .other "=".toList

/-- What a child of a declaration does: a name is declared, anything else is
evaluated. -/
def declare (op : Node × NodeSteps) : Prog Step :=
  if op.1.info.field = some .declarator ∧ op.1.kind ≠ .initDeclarator then .point (.declare op.1)
  else op.2.value

/-- The receiver of a subscript: the field, or the first child. -/
def receiver (ops : Operands) : Option (Node × NodeSteps) :=
  (ops.byField .argument).or ops.head?

/-- The children of a subscript as a place: the receiver is one too. -/
def subscriptPlace (ops : Operands) : Prog Step :=
  .seqs (ops.map fun op =>
    if (ops.receiver.map fun r => r.1.info) = some op.1.info then op.2.place else op.2.value)

end Operands

/-- The steps for the value of a node. -/
def valueSteps (i : NodeInfo) (cs : List Node) (ops : Operands) : Prog Step :=
  let done := Prog.point (Step.value (.mk i cs))
  match i.kind with
  | .assignmentExpression =>
      .seqs [ops.valueOf .right, ops.placeOf .left,
        if ops.isCompound then ops.stepAt .left .value else .skip,
        ops.stepAt .left .store, done]
  | .updateExpression =>
      .seqs [ops.placeOf .argument, ops.stepAt .argument .value, ops.stepAt .argument .store, done]
  | .initDeclarator => .seqs [ops.valueOf .value, ops.stepAt .declarator .store]
  | .declaration => .seqs (ops.map Operands.declare)
  | .conditionalExpression =>
      .seqs [ops.valueOf .condition,
        .choice (ops.valueOf .consequence) (ops.valueOf .alternative), done]
  | .binaryExpression =>
      if ops.isShortCircuit then
        .seqs [ops.valueOf .left, .choice (ops.valueOf .right) .skip, done]
      else .seqs [ops.values, done]
  | _ => .seqs [ops.values, done]

/-- The steps for the place a node names. -/
def placeSteps (i : NodeInfo) (cs : List Node) (ops : Operands) : Prog Step :=
  match i.kind with
  | .identifier => .skip
  | .subscriptExpression => ops.subscriptPlace
  | .fieldExpression => ops.placeOf .argument
  | .parenthesizedExpression => .seqs (ops.map fun op => op.2.place)
  | _ => valueSteps i cs ops

mutual
/-- **The steps of a node.** -/
def evaluation : Node → NodeSteps
  | .mk i cs => ⟨valueSteps i cs (operands cs), placeSteps i cs (operands cs)⟩

def operands : List Node → Operands
  | [] => []
  | n :: ns => (n, evaluation n) :: operands ns
end

/-! ## §2. The steps of a body. -/

/-- The steps of the code that is visited. -/
def visitSteps (v : Visit) : Prog Step :=
  match v.code with
  | none => .skip
  | some code => (evaluation code).value

/-- **The steps of a body**: what its executions evaluate and store, in order. -/
def bodySteps (body : Stmt) : Prog Step := (prog false 1 0 none none body).bind visitSteps

/-- The value of the call is known. -/
def evaluates (call : Node) : Step → Bool
  | .value n => n.kind == .callExpression && n.info.lo == call.info.lo && n.info.hi == call.info.hi
  | .store _ | .declare _ => false

end ShaderClippy.ControlFlow.Evaluation
