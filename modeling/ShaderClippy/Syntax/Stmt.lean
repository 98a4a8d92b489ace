/-
  ShaderClippy.Syntax.Stmt

  **THE STATEMENTS OF A FUNCTION BODY, AND THE TREES THE GRAMMAR GIVES THEM.**

  `Stmt` is the statement language of HLSL function bodies; expressions,
  declarations and conditions are whatever tree they are. `Stmt.toNode` is
  the shape of the tree-sitter grammar: fields, the `else_clause` around an
  else arm, the `compound_statement` that holds the cases of a `switch`.
  Anonymous tokens (keywords, punctuation) are left out: no modelled
  function looks at them.
-/
import ShaderClippy.Syntax.Node

namespace ShaderClippy

/-- The kinds of control statements and their parts, and of functions. -/
def NodeKind.isControl : NodeKind → Bool
  | .compoundStatement | .ifStatement | .elseClause | .forStatement | .whileStatement
  | .doStatement | .switchStatement | .caseStatement | .defaultStatement
  | .returnStatement | .breakStatement | .continueStatement | .functionDefinition => true
  | _ => false

/-- A simple statement, a condition or another part of a statement that is no
control statement itself. -/
structure PlainNode where
  node : Node
  plain : node.kind.isControl = false
  named : node.info.named = true

/-- The same node, filling another field. -/
def Node.withField : Node → Option Field → Node
  | .mk i cs, f => .mk { i with field := f } cs

@[simp] theorem Node.withField_kind (n : Node) (f : Option Field) :
    (n.withField f).kind = n.kind := by
  cases n
  rfl

@[simp] theorem Node.withField_field (n : Node) (f : Option Field) :
    (n.withField f).info.field = f := by
  cases n
  rfl

/-- The tree of a part that fills field `f` of its statement. -/
def PlainNode.toNode (n : PlainNode) (f : Option Field) : Node := n.node.withField f

/-- A part that may be absent. -/
def optionalNode (f : Option Field) : Option PlainNode → List Node
  | none => []
  | some n => [n.toNode f]

@[simp] theorem PlainNode.toNode_field (n : PlainNode) (f : Option Field) :
    (n.toNode f).info.field = f := Node.withField_field n.node f

@[simp] theorem PlainNode.toNode_kind (n : PlainNode) (f : Option Field) :
    (n.toNode f).kind = n.node.kind := Node.withField_kind n.node f

@[simp] theorem PlainNode.toNode_named (n : PlainNode) (f : Option Field) :
    (n.toNode f).info.named = true := by
  have h := n.named
  unfold PlainNode.toNode
  cases hn : n.node with
  | mk i cs =>
      rw [hn] at h
      exact h

/-! ## §1. Statements. -/

mutual
/-- Statements, each with its byte span. -/
inductive Stmt where
  | simple (node : PlainNode)
  | returnStmt (span : ByteSpan) (value : Option PlainNode)
  | breakStmt (span : ByteSpan)
  | continueStmt (span : ByteSpan)
  | compound (span : ByteSpan) (body : Stmts)
  | ifThen (span : ByteSpan) (cond : PlainNode) (thenStmt : Stmt)
  | ifElse (span : ByteSpan) (cond : PlainNode) (thenStmt : Stmt) (elseSpan : ByteSpan)
      (elseStmt : Stmt)
  | forLoop (span : ByteSpan) (init cond update : Option PlainNode) (body : Stmt)
  | whileLoop (span : ByteSpan) (cond : PlainNode) (body : Stmt)
  | doLoop (span : ByteSpan) (body : Stmt) (cond : PlainNode)
  | switch (span : ByteSpan) (cond : PlainNode) (bodySpan : ByteSpan) (body : Stmts)
  | caseStmt (span : ByteSpan) (label : Option PlainNode) (body : Stmts)

/-- Statement sequences. -/
inductive Stmts where
  | nil
  | cons (head : Stmt) (tail : Stmts)
end

/-! ## §2. Their trees. -/

/-- A named node without errors. -/
def namedNode (kind : NodeKind) (field : Option Field) (span : ByteSpan)
    (children : List Node) : Node :=
  .mk ⟨kind, true, false, field, span.lo, span.hi⟩ children

mutual
/-- The tree of a statement that fills `field` of its parent. -/
def Stmt.toNode (field : Option Field) : Stmt → Node
  | .simple n => n.toNode field
  | .returnStmt span value => namedNode .returnStatement field span (optionalNode none value)
  | .breakStmt span => namedNode .breakStatement field span []
  | .continueStmt span => namedNode .continueStatement field span []
  | .compound span body => namedNode .compoundStatement field span body.toNodes
  | .ifThen span cond thenStmt =>
      namedNode .ifStatement field span
        [cond.toNode (some .condition), thenStmt.toNode (some .consequence)]
  | .ifElse span cond thenStmt elseSpan elseStmt =>
      namedNode .ifStatement field span
        [cond.toNode (some .condition), thenStmt.toNode (some .consequence),
         namedNode .elseClause (some .alternative) elseSpan [elseStmt.toNode none]]
  | .forLoop span init cond update body =>
      namedNode .forStatement field span
        (optionalNode (some (.other "initializer".toList)) init
          ++ optionalNode (some .condition) cond
          ++ optionalNode (some (.other "update".toList)) update ++ [body.toNode (some .body)])
  | .whileLoop span cond body =>
      namedNode .whileStatement field span
        [cond.toNode (some .condition), body.toNode (some .body)]
  | .doLoop span body cond =>
      namedNode .doStatement field span
        [body.toNode (some .body), cond.toNode (some .condition)]
  | .switch span cond bodySpan body =>
      namedNode .switchStatement field span
        [cond.toNode (some .condition),
         namedNode .compoundStatement (some .body) bodySpan body.toNodes]
  | .caseStmt span label body =>
      namedNode .caseStatement field span (optionalNode (some .value) label ++ body.toNodes)

def Stmts.toNodes : Stmts → List Node
  | .nil => []
  | .cons s ss => s.toNode none :: ss.toNodes
end

/-- A statement's tree fills the field it is asked to fill. -/
@[simp] theorem Stmt.toNode_field (s : Stmt) (f : Option Field) :
    (s.toNode f).info.field = f := by
  cases s <;> simp [Stmt.toNode, namedNode]

@[simp] theorem Stmt.toNode_named (s : Stmt) (f : Option Field) :
    (s.toNode f).info.named = true := by
  cases s <;> simp [Stmt.toNode, namedNode]

/-- No statement is a function. -/
theorem Stmt.toNode_kind_ne (s : Stmt) (f : Option Field) :
    (s.toNode f).kind ≠ .functionDefinition := by
  cases s with
  | simple n =>
      simp only [Stmt.toNode, PlainNode.toNode_kind]
      intro h
      have hs := n.plain
      rw [h] at hs
      exact absurd hs (by decide)
  | _ => exact nofun

/-- Only the field depends on the field asked for. -/
theorem Stmt.toNode_withField (s : Stmt) (f : Option Field) :
    (s.toNode none).withField f = s.toNode f := by
  cases s with
  | simple n =>
      show (n.node.withField none).withField f = n.node.withField f
      cases n.node
      rfl
  | _ => rfl

end ShaderClippy
