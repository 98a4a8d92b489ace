/-
  ShaderClippy.ControlFlow.Steady

  **WHERE DIVERGENCE STAYS IN THE NAMES THE ANALYZER KNOWS.**

  The analyzer taints parameters, not what is computed from them. A body is
  `steady` when nothing gets lost by that: a name the analyzer takes for
  uniform is not assigned an expression it takes for divergent, and is not
  assigned at all where lanes that hold it may be waiting elsewhere: below a
  branch they take apart from each other, or in a loop they leave at
  different times. Names declared in such a region are free in it.
-/
import ShaderClippy.ControlFlow.Lanes

namespace ShaderClippy.ControlFlow

open Lockstep

section Discipline

variable (d : Dialect) (div : List Text) (bytes : Text)

/-! ## §1. Expressions. -/

/-- Does the analyzer take a node for divergent? -/
def divergentNode (n : Node) : Bool := decide ((classify div bytes n).1 = .divergent)

/-- Does the analyzer take a name for divergent? -/
def divergentName (x : Text) : Bool := decide (classifyIdentifier div x = .divergent)

/-- The names that must stay the same in all lanes. -/
def SharedName (x : Text) : Prop := divergentName div x = false

/-- A node writes divergent names, or a uniform value to names nobody else
holds. -/
def writesSteadily (frozen : Text → Bool) (n : Node) : Bool :=
  (d.writtenNames bytes n).all fun x =>
    divergentName div x || (!divergentNode div bytes n && !frozen x)

/-- The operands of a call: what stands below the callee, and the arguments. -/
def callOperands (n : Node) : List Node :=
  (match n.childByField .function with
    | some callee => callee.namedChildren
    | none => []) ++ argumentNodes n

/-- The result of a call is known from its callee and operands. -/
def callSteady (n : Node) : Bool :=
  divergentNode div bytes n
    || (d.laneFree (calleeText bytes n) && (callOperands n).all fun c => !divergentNode div bytes c)

mutual
/-- No node of an expression lets divergence into a shared name. -/
def steadyNode (frozen : Text → Bool) : Node → Bool
  | .mk i cs =>
      match i.kind with
      | .numberLiteral | .stringLiteral | .trueLiteral | .falseLiteral | .identifier => true
      | .callExpression =>
          writesSteadily d div bytes frozen (.mk i cs) && callSteady d div bytes (.mk i cs)
            && steadyPart frozen .function cs && steadyPart frozen .arguments cs
      | _ =>
          writesSteadily d div bytes frozen (.mk i cs)
            && steadyOperands frozen (d.short (.mk i cs)) false cs

/-- Operands that lanes may skip apart from each other write nothing shared. -/
def steadyOperands (frozen : Text → Bool) (short apart : Bool) : List Node → Bool
  | [] => true
  | c :: cs =>
      if c.info.named then
        steadyNode (fun x => frozen x || (short && apart)) c
          && steadyOperands frozen short (apart || divergentNode div bytes c) cs
      else steadyOperands frozen short apart cs

/-- The operands below the child of a field. -/
def steadyPart (frozen : Text → Bool) (f : Field) : List Node → Bool
  | [] => true
  | .mk i cs :: ns =>
      if i.field = some f then steadyOperands frozen false false cs else steadyPart frozen f ns
end

/-! ## §2. Statements. -/

/-- A part that may be absent. -/
def steadyOptional (frozen : Text → Bool) (n : Option PlainNode) : Bool :=
  n.all fun m => steadyNode d div bytes frozen m.node

/-- Lanes that may fail a test at different times must be allowed to. -/
def steadyTest (c : Context Text LaneJump) (cond : Option PlainNode) : Bool :=
  cond.all fun n => steadyNode d div bytes c.frozen n.node
    && decide ((c.under (divergentNode div bytes n.node)).mode .brk ≠ .never)

/-- The context behind the statements of a scope. -/
def contextAfter (c : Context Text LaneJump) : Stmts → Context Text LaneJump
  | .nil => c
  | .cons s ss => contextAfter (c.inside (stmtDeclares bytes s)) ss

/-- No name. -/
def noName : Text → Bool := fun _ => false

mutual
/-- A statement lets no divergence into a shared name. For every loop and
`switch` it is open whether lanes may leave it (a turn of it) at different
times; if they may, nothing outside is written. -/
def steady (c : Context Text LaneJump) : Stmt → Bool
  | .simple n => steadyNode d div bytes c.frozen n.node
  | .returnStmt _ value => steadyOptional d div bytes c.frozen value
  | .breakStmt _ => decide (c.mode .brk ≠ .never)
  | .continueStmt _ => decide (c.mode .cont ≠ .never)
  | .compound _ body => steadyFrom c false body
  | .ifThen _ cond thenStmt =>
      let c' := c.under (divergentNode div bytes cond.node)
      steadyNode d div bytes c.frozen cond.node
        && steady (c'.inside (stmtDeclares bytes thenStmt)) thenStmt
  | .ifElse _ cond thenStmt _ elseStmt =>
      let c' := c.under (divergentNode div bytes cond.node)
      steadyNode d div bytes c.frozen cond.node
        && steady (c'.inside (stmtDeclares bytes thenStmt)) thenStmt
        && steady (c'.inside (stmtDeclares bytes elseStmt)) elseStmt
  | .forLoop _ init cond update body =>
      steadyOptional d div bytes (c.inside (initDeclares bytes init)).frozen init
        && [false, true].any fun apart => [false, true].any fun apart' =>
          let c' := (c.inside (initDeclares bytes init)).target .brk apart (initDeclares bytes init)
          steadyTest d div bytes c' cond
            && steady ((c'.target .cont apart' noName).inside (stmtDeclares bytes body)) body
            && steadyOptional d div bytes c'.frozen update
  | .whileLoop _ cond body =>
      [false, true].any fun apart => [false, true].any fun apart' =>
        let c' := c.target .brk apart noName
        steadyTest d div bytes c' (some cond)
          && steady ((c'.target .cont apart' noName).inside (stmtDeclares bytes body)) body
  | .doLoop _ body cond =>
      [false, true].any fun apart => [false, true].any fun apart' =>
        let c' := c.target .brk apart noName
        steadyTest d div bytes c' (some cond)
          && steady ((c'.target .cont apart' noName).inside (stmtDeclares bytes body)) body
  | .switch _ cond _ body =>
      steadyNode d div bytes c.frozen cond.node
        && [false, true].any fun apart =>
          steadyCases (c.target .brk apart noName) (divergentNode div bytes cond.node) body
  | .caseStmt _ _ body => steadyFrom c false body

/-- Statements of a scope that lanes may enter apart from each other. -/
def steadyFrom (c : Context Text LaneJump) (apart : Bool) : Stmts → Bool
  | .nil => true
  | .cons s ss =>
      let c' := c.inside (stmtDeclares bytes s)
      steady (c'.under apart) s && steadyFrom c' apart ss

/-- The cases of a `switch`. -/
def steadyCases (c : Context Text LaneJump) (apart : Bool) : Stmts → Bool
  | .nil => true
  | .cons (.caseStmt _ _ body) ss =>
      steadyFrom c apart body && steadyCases (contextAfter bytes c body) apart ss
  | .cons s ss =>
      let c' := c.inside (stmtDeclares bytes s)
      steady (c'.under apart) s && steadyCases c' apart ss
end

end Discipline

end ShaderClippy.ControlFlow
