/-
  ShaderClippy.Syntax.Node

  **SYNTAX TREES AS THE TREE-SITTER C API SHOWS THEM.**

  A node has a kind, says whether it is named or missing, which field of its
  parent it fills, which bytes it covers, and its children in source order.
  The kinds and fields are those the program compares with; every other one
  is `other`. Trees are produced by the external parser; nothing here
  assumes that a tree fits the text it is read against.
-/
import ShaderClippy.Source

namespace ShaderClippy

/-! ## §1. Kinds, fields, nodes. -/

/-- Node kinds (`ts_node_type`). -/
inductive NodeKind where
  | translationUnit | functionDefinition | functionDeclarator | identifier
  | parameterDeclaration | parameter
  | compoundStatement | ifStatement | elseClause | forStatement | whileStatement | doStatement
  | switchStatement | caseStatement | defaultStatement
  | returnStatement | breakStatement | continueStatement
  | expressionStatement | declaration | initDeclarator | conditionClause
  | callExpression | argumentList | subscriptExpression | fieldExpression | binaryExpression
  | unaryExpression | parenthesizedExpression | conditionalExpression | assignmentExpression
  | commaExpression | updateExpression | castExpression
  | numberLiteral | stringLiteral | trueLiteral | falseLiteral
  | error
  | other (name : Text)
  deriving Repr, DecidableEq

/-- Field names (`ts_node_child_by_field_name`). -/
inductive Field where
  | function | arguments | argument | declarator | body | condition | consequence | alternative
  | left | right | operator | value | index
  | other (name : Text)
  deriving Repr, DecidableEq

/-- What a node says about itself. -/
structure NodeInfo where
  kind : NodeKind
  named : Bool
  missing : Bool
  field : Option Field
  lo : Nat
  hi : Nat
  deriving Repr, DecidableEq

/-- A syntax tree. -/
inductive Node where
  | mk (info : NodeInfo) (children : List Node)

namespace Node

def info : Node → NodeInfo
  | mk i _ => i

def children : Node → List Node
  | mk _ cs => cs

def kind (n : Node) : NodeKind := n.info.kind

@[simp] theorem info_mk (i : NodeInfo) (cs : List Node) : (mk i cs).info = i := rfl
@[simp] theorem children_mk (i : NodeInfo) (cs : List Node) : (mk i cs).children = cs := rfl
@[simp] theorem kind_mk (i : NodeInfo) (cs : List Node) : (mk i cs).kind = i.kind := rfl

/-- `node_span`. -/
def span (n : Node) (source : SourceId) : Span := ⟨source, ⟨n.info.lo, n.info.hi⟩⟩

/-- `ts_node_child_by_field_name`. -/
def childByField (n : Node) (f : Field) : Option Node :=
  n.children.find? fun c => decide (c.info.field = some f)

/-- `collect_named_children`. -/
def namedChildren (n : Node) : List Node := n.children.filter fun c => c.info.named

end Node

/-! ## §2. Text. -/

/-- `node_text`: the bytes of a node, empty when the range does not fit. -/
def textAt (bytes : Text) (lo hi : Nat) : Text :=
  if hi > bytes.length || hi < lo then [] else (bytes.drop lo).take (hi - lo)

def Node.text (n : Node) (bytes : Text) : Text := textAt bytes n.info.lo n.info.hi

/-- `starts_with`. -/
def Text.startsWith : Text → Text → Bool
  | _, [] => true
  | [], _ :: _ => false
  | c :: cs, p :: ps => c == p && Text.startsWith cs ps

/-- `find(needle) != npos`. -/
def Text.contains : Text → Text → Bool
  | [], needle => needle.isEmpty
  | c :: cs, needle => Text.startsWith (c :: cs) needle || Text.contains cs needle

/-! ## §3. Walks over whole trees. -/

mutual
/-- `ts_node_has_error`: an `ERROR` or missing node anywhere below. -/
def Node.hasError : Node → Bool
  | .mk i cs => decide (i.kind = .error) || i.missing || hasErrorAny cs

def hasErrorAny : List Node → Bool
  | [] => false
  | n :: ns => n.hasError || hasErrorAny ns
end

mutual
/-- The order in which an explicit-stack walk pops the nodes: a node pushes
its children in source order, so the last child comes next. -/
def Node.popOrder : Node → List Node
  | .mk i cs => .mk i cs :: popOrderAll cs

def popOrderAll : List Node → List Node
  | [] => []
  | n :: ns => popOrderAll ns ++ n.popOrder
end

mutual
/-- `collect_functions`: every `function_definition` not inside another. -/
def collectFunctions : Node → List Node
  | .mk i cs =>
      if i.kind = .functionDefinition then [.mk i cs] else collectFunctionsAll cs

def collectFunctionsAll : List Node → List Node
  | [] => []
  | n :: ns => collectFunctions n ++ collectFunctionsAll ns
end

end ShaderClippy
