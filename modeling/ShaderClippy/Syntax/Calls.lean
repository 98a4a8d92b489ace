/-
  ShaderClippy.Syntax.Calls

  **CALLEES, ARGUMENTS AND IDENTIFIERS.**

  The parts of a call that rules ask for, and the identifiers of a tree.
-/
import ShaderClippy.Syntax.Node

namespace ShaderClippy

/-- The text of a node that may be null. -/
def optionText (n : Option Node) (bytes : Text) : Text :=
  match n with
  | none => []
  | some n => n.text bytes

/-- The text of the callee. -/
def calleeText (bytes : Text) (call : Node) : Text := optionText (call.childByField .function) bytes

/-- The named children of the argument list. -/
def argumentNodes (call : Node) : List Node :=
  match call.childByField .arguments with
  | none => []
  | some args => args.namedChildren

/-- The texts of the arguments. -/
def argumentTexts (bytes : Text) (call : Node) : List Text :=
  (argumentNodes call).map fun a => a.text bytes

mutual
/-- The identifiers of a node, in order. -/
def identifiers (bytes : Text) : Node → List Text
  | .mk i cs =>
      (if i.kind = .identifier then [textAt bytes i.lo i.hi] else []) ++ identifiersAll bytes cs

def identifiersAll (bytes : Text) : List Node → List Text
  | [] => []
  | n :: ns => identifiers bytes n ++ identifiersAll bytes ns
end

end ShaderClippy
