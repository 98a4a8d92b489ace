/-
  ShaderClippy.ControlFlow.Lanes

  **A WAVE RUNS A FUNCTION BODY.**

  What the lanes of a wave do between the entry of a function and its end:
  every expression is evaluated from its operands, in source order, by all
  active lanes at once; names hold values of their own in each lane;
  branches, loops and jumps go by `Lib.Lockstep`. What operators, literals
  and calls compute is left to a `Machine`. A call may look at all active
  lanes (wave intrinsics do) and may write its `out` arguments.

  A value is whatever an expression denotes; for the left side of an
  assignment that includes the place. A declared name is new from its
  declaration to the end of its scope; without an initialiser it holds what
  the name held before. Loops run for at most `fuel` turns, lanes that want
  more stop there: every run is a run for some `fuel` as far as it goes.
-/
import ShaderClippy.ControlFlow.UniformityAnalyzer
import ShaderClippy.Lib.Lockstep
import ShaderClippy.Syntax.Stmt

namespace ShaderClippy.ControlFlow

open Lockstep

/-! ## §1. Names. -/

mutual
/-- The variable an lvalue or a declarator is about. -/
def rootName (bytes : Text) : Node → Option Text
  | .mk i cs =>
      match i.kind with
      | .identifier => some (textAt bytes i.lo i.hi)
      | .subscriptExpression | .fieldExpression => rootOf bytes .argument cs
      | .parenthesizedExpression => rootOfFirst bytes cs
      | _ => rootOf bytes .declarator cs

/-- The variable the child of a field is about. -/
def rootOf (bytes : Text) (f : Field) : List Node → Option Text
  | [] => none
  | n :: ns => if n.info.field = some f then rootName bytes n else rootOf bytes f ns

/-- The variable the first named child is about. -/
def rootOfFirst (bytes : Text) : List Node → Option Text
  | [] => none
  | n :: ns => if n.info.named then rootName bytes n else rootOfFirst bytes ns
end

/-- The callee as the source spells it. -/
def calleeText (bytes : Text) (n : Node) : Text :=
  match n.childByField .function with
  | some callee => callee.text bytes
  | none => []

/-- The arguments of a call. -/
def argumentNodes (n : Node) : List Node :=
  match n.childByField .arguments with
  | some args => args.namedChildren
  | none => []

/-- The names a declaration declares. -/
def declaredNames (bytes : Text) (n : Node) : List Text :=
  if n.kind = .declaration then
    (n.children.filter fun c => decide (c.info.field = some .declarator)).filterMap
      (rootName bytes)
  else []

/-- Does a statement declare a name in the scope it stands in? -/
def stmtDeclares (bytes : Text) (s : Stmt) (x : Text) : Bool :=
  match s with
  | .simple n => (declaredNames bytes n.node).contains x
  | _ => false

/-- Does the initialiser of a `for` declare a name? -/
def initDeclares (bytes : Text) (init : Option PlainNode) (x : Text) : Bool :=
  match init with
  | some n => (declaredNames bytes n.node).contains x
  | none => false

/-! ## §2. The machine. -/

/-- How the compiler reads a program: which operators may skip operands
(`&&`, `||` and `?:` do from HLSL 2021 on), the positions of the `out`
arguments of each callee, and which callees give the same result to all
lanes that pass the same arguments. -/
structure Dialect where
  short : Node → Bool
  outs : Text → List Nat
  laneFree : Text → Bool

/-- The names an expression node itself writes. -/
def Dialect.writtenNames (d : Dialect) (bytes : Text) (n : Node) : List Text :=
  match n.kind with
  | .assignmentExpression => (rootOf bytes .left n.children).toList
  | .updateExpression => (rootOf bytes .argument n.children).toList
  | .initDeclarator => (rootOf bytes .declarator n.children).toList
  | .callExpression => (d.outs (calleeText bytes n)).filterMap fun k =>
      match (argumentNodes n)[k]? with
      | some arg => rootName bytes arg
      | none => none
  | _ => []

/-- The values of the operands so far; a skipped operand has none. -/
abbrev Operands (V : Type) := List (Option V)

/-- What expressions compute. Operators are functions of their operands and
the old value of the name they write; a call may depend on the lane and on
the operands of all active lanes, unless its callee is lane free. -/
structure Machine (ι V : Type) extends Dialect where
  literal : NodeKind → Text → V
  apply : Node → Operands V → V
  proceeds : Node → Operands V → Bool
  written : Node → Text → V → Operands V → V
  call : Text → Mask ι → (ι → Operands V) → ι → V
  callWritten : Text → Text → Mask ι → (ι → V) → (ι → Operands V) → ι → V
  truth : V → Bool
  labelled : Node → V → Bool
  call_laneFree : ∀ callee, laneFree callee = true → ∀ mask args l m,
    mask l = true → mask m = true → (∀ k, mask k = true → args k = args l) →
    call callee mask args l = call callee mask args m
  callWritten_laneFree : ∀ callee, laneFree callee = true → ∀ x mask old args l m,
    mask l = true → mask m = true → (∀ k, mask k = true → args k = args l ∧ old k = old l) →
    callWritten callee x mask old args l = callWritten callee x mask old args m

section Run

variable {ι V : Type} (M : Machine ι V) (bytes : Text)

/-! ## §3. Expressions. -/

/-- The value of a node after its operands, and what it writes. -/
def conclude (n : Node) (mask : Mask ι) (value : ι → V) (new : Text → ι → V)
    (r : Reading ι Text V Node (Operands V)) : Reading ι Text V Node V :=
  ⟨r.events ++ [⟨n, mask, value⟩],
   fun l x => if mask l && (M.writtenNames bytes n).contains x then new x l else r.wave l x,
   value⟩

/-- An operator node. -/
def concludeOperator (n : Node) (mask : Mask ι) (r : Reading ι Text V Node (Operands V)) :
    Reading ι Text V Node V :=
  conclude M bytes n mask (fun l => M.apply n (r.value l))
    (fun x l => M.written n x (r.wave l x) (r.value l)) r

/-- A call. -/
def concludeCall (n : Node) (mask : Mask ι) (r : Reading ι Text V Node (Operands V)) :
    Reading ι Text V Node V :=
  conclude M bytes n mask (M.call (calleeText bytes n) mask r.value)
    (fun x => M.callWritten (calleeText bytes n) x mask (fun l => r.wave l x) r.value) r

mutual
/-- Evaluate an expression. -/
def eval : Node → Query ι Text V Node V
  | .mk i cs => fun mask w =>
      match i.kind with
      | .numberLiteral | .stringLiteral | .trueLiteral | .falseLiteral =>
          let value := fun _ => M.literal i.kind (textAt bytes i.lo i.hi)
          ⟨[⟨.mk i cs, mask, value⟩], w, value⟩
      | .identifier =>
          let value := fun l => w l (textAt bytes i.lo i.hi)
          ⟨[⟨.mk i cs, mask, value⟩], w, value⟩
      | .callExpression =>
          -- the object of a method call comes first
          let r := evalCallee (.mk i cs) cs mask w
          let s := evalArguments (.mk i cs) r.value cs mask r.wave
          concludeCall M bytes (.mk i cs) mask ⟨r.events ++ s.events, s.wave, s.value⟩
      | _ =>
          concludeOperator M bytes (.mk i cs) mask
            (evalOperands (M.short (.mk i cs)) (.mk i cs) (fun _ => []) cs mask w)

/-- Evaluate the named nodes of a list after the operands `vs`. -/
def evalOperands (short : Bool) (n : Node) (vs : ι → Operands V) :
    List Node → Query ι Text V Node (Operands V)
  | [] => fun _ w => ⟨[], w, vs⟩
  | c :: cs => fun mask w =>
      if c.info.named then
        let r := Query.only (fun l => !short || M.proceeds n (vs l)) (eval c) mask w
        let s := evalOperands short n (fun l => vs l ++ [r.value l]) cs mask r.wave
        ⟨r.events ++ s.events, s.wave, s.value⟩
      else evalOperands short n vs cs mask w

/-- Evaluate what stands below the callee. -/
def evalCallee (n : Node) : List Node → Query ι Text V Node (Operands V)
  | [] => fun _ w => ⟨[], w, fun _ => []⟩
  | .mk i cs :: ns => fun mask w =>
      if i.field = some .function then evalOperands false n (fun _ => []) cs mask w
      else evalCallee n ns mask w

/-- Evaluate the arguments. -/
def evalArguments (n : Node) (vs : ι → Operands V) :
    List Node → Query ι Text V Node (Operands V)
  | [] => fun _ w => ⟨[], w, vs⟩
  | .mk i cs :: ns => fun mask w =>
      if i.field = some .arguments then evalOperands false n vs cs mask w
      else evalArguments n vs ns mask w
end

/-! ## §4. Statements. -/

/-- The jumps that stay in the function. -/
inductive LaneJump where
  | brk | cont
  deriving Repr, DecidableEq

/-- Evaluate for what it writes. -/
def perform (n : PlainNode) : Act ι Text V Node LaneJump :=
  Act.withValue (eval M bytes n.node) fun _ => Act.skip

/-- A part that may be absent. -/
def performOptional : Option PlainNode → Act ι Text V Node LaneJump
  | none => Act.skip
  | some n => perform M bytes n

/-- The test of a loop: lanes that fail it leave. -/
def loopTest : Option PlainNode → Act ι Text V Node LaneJump
  | none => Act.skip
  | some n => Act.withValue (eval M bytes n.node) fun v =>
      Act.split (fun l => M.truth (v l)) Act.skip (Act.leave (.jump .brk))

/-- The first `case` of a `switch` body with the property. -/
def caseIndex (p : Option PlainNode → Bool) : Nat → Stmts → Option Nat
  | _, .nil => none
  | i, .cons (.caseStmt _ label _) ss => if p label then some i else caseIndex p (i + 1) ss
  | i, .cons _ ss => caseIndex p (i + 1) ss

/-- Where a value enters a `switch` body: at its label, else at `default`. -/
def entryPoint (body : Stmts) (v : V) : Option Nat :=
  match caseIndex (fun label => label.any fun n => M.labelled n.node v) 0 body with
  | some i => some i
  | none => caseIndex Option.isNone 0 body

/-- Has a lane with this entry point entered by position `i`? -/
def entered (entry : Option Nat) (i : Nat) : Bool :=
  match entry with
  | some j => decide (j ≤ i)
  | none => false

mutual
/-- Run a statement. -/
def exec (fuel : Nat) : Stmt → Act ι Text V Node LaneJump
  | .simple n => perform M bytes n
  | .returnStmt _ value => Act.seq (performOptional M bytes value) (Act.leave .gone)
  | .breakStmt _ => Act.leave (.jump .brk)
  | .continueStmt _ => Act.leave (.jump .cont)
  | .compound _ body => execFrom fuel (fun _ => true) Act.skip body
  | .ifThen _ cond thenStmt =>
      Act.withValue (eval M bytes cond.node) fun v =>
        Act.split (fun l => M.truth (v l))
          (Act.scope (stmtDeclares bytes thenStmt) (exec fuel thenStmt)) Act.skip
  | .ifElse _ cond thenStmt _ elseStmt =>
      Act.withValue (eval M bytes cond.node) fun v =>
        Act.split (fun l => M.truth (v l))
          (Act.scope (stmtDeclares bytes thenStmt) (exec fuel thenStmt))
          (Act.scope (stmtDeclares bytes elseStmt) (exec fuel elseStmt))
  | .forLoop _ init cond update body =>
      Act.scope (initDeclares bytes init)
        (Act.seq (performOptional M bytes init)
          (Act.catching .brk (Act.iterate
            (Act.seq (loopTest M bytes cond)
              (Act.seq
                (Act.catching .cont (Act.scope (stmtDeclares bytes body) (exec fuel body)))
                (performOptional M bytes update)))
            fuel)))
  | .whileLoop _ cond body =>
      Act.catching .brk (Act.iterate
        (Act.seq (loopTest M bytes (some cond))
          (Act.catching .cont (Act.scope (stmtDeclares bytes body) (exec fuel body))))
        fuel)
  | .doLoop _ body cond =>
      Act.catching .brk (Act.iterate
        (Act.seq (Act.catching .cont (Act.scope (stmtDeclares bytes body) (exec fuel body)))
          (loopTest M bytes (some cond)))
        fuel)
  | .switch _ cond _ body =>
      Act.withValue (eval M bytes cond.node) fun v =>
        Act.catching .brk (execCases fuel (fun l => entryPoint M body (v l)) 0 body)
  | .caseStmt _ _ body => execFrom fuel (fun _ => true) Act.skip body

/-- Run statements one after another, in the lanes with `p`, then the rest of
the scope they stand in. -/
def execFrom (fuel : Nat) (p : Mask ι) (rest : Act ι Text V Node LaneJump) :
    Stmts → Act ι Text V Node LaneJump
  | .nil => rest
  | .cons s ss =>
      Act.scope (stmtDeclares bytes s)
        (Act.seq (Act.split p (exec fuel s) Act.skip) (execFrom fuel p rest ss))

/-- Run a `switch` body, each lane from its entry point on. -/
def execCases (fuel : Nat) (entry : ι → Option Nat) (i : Nat) : Stmts → Act ι Text V Node LaneJump
  | .nil => Act.skip
  | .cons (.caseStmt _ _ body) ss =>
      execFrom fuel (fun l => entered (entry l) i) (execCases fuel entry (i + 1) ss) body
  | .cons s ss =>
      Act.scope (stmtDeclares bytes s)
        (Act.seq (Act.split (fun l => entered (entry l) i) (exec fuel s) Act.skip)
          (execCases fuel entry (i + 1) ss))
end

/-- Run the body of a function. -/
def execBody (fuel : Nat) (body : Stmts) : Act ι Text V Node LaneJump :=
  execFrom M bytes fuel (fun _ => true) Act.skip body

end Run

end ShaderClippy.ControlFlow
