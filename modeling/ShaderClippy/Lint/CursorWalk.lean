/-
  ShaderClippy.Lint.CursorWalk

  **THE CURSOR LOOP OF `walk`** (`lint.cpp`).

  The orchestrator's `walk` goes over the tree with a tree-sitter cursor; what
  a rule does at a node is left open here (`call`). The loop ends, and it has
  made one call for each named node and each rule that the AST stage
  dispatches to, the nodes in preorder, the rules in their order
  (`walkLoop_calls`). With rules that only emit it is the `walk` of the
  orchestrator (`walkLoop_emits`).
-/
import ShaderClippy.Lib.TreeCursor
import ShaderClippy.Lint.Orchestrator

namespace ShaderClippy.Lint

variable {R I σ : Type}

/-! ## §1. The loop. -/

/-- What the loop does at one node. -/
def visitNode (rules : List (Rule R I)) (activeTarget : ExperimentalTarget)
    (call : Rule R I → Node → σ → σ) (node : Node) (s : σ) : σ :=
  if node.info.named then
    rules.foldl (fun s rule =>
      if rule.stage ≠ .ast then s
      else if !experimentalTargetEnabled rule activeTarget then s
      else call rule node s) s
  else s

/-- `walk`, at most `fuel` turns of its loop; a null root is left alone. -/
def walkLoop (fuel : Nat) (root : Option Node) (rules : List (Rule R I))
    (activeTarget : ExperimentalTarget) (call : Rule R I → Node → σ → σ) (s : σ) : Option σ :=
  match root with
  | none => some s
  | some root => TreeCursor.walk Node.children (visitNode rules activeTarget call) root fuel s

/-! ## §2. The calls. -/

/-- The calls of `on_node`: the named nodes in preorder, and at each of them
the rules of the AST stage. -/
def onNodeCalls (rules : List (Rule R I)) (activeTarget : ExperimentalTarget) (root : Node) :
    List (Rule R I × Node) :=
  ((walkOrder root).filter fun n => n.info.named).flatMap fun node =>
    (dispatched rules .ast activeTarget).map fun rule => (rule, node)

theorem walkOrderAll_eq (ns : List Node) : walkOrderAll ns = ns.flatMap walkOrder := by
  induction ns with
  | nil => rfl
  | cons n ns ih => rw [walkOrderAll, ih, List.flatMap_cons]

/-- The preorder of a tree: the root, then the children. -/
theorem walkOrder_eq (n : Node) : walkOrder n = n :: n.children.flatMap walkOrder := by
  cases n with
  | mk i cs => rw [walkOrder, walkOrderAll_eq, Node.children_mk]

/-- The rules of the AST stage are called one after another. -/
theorem visitNode_eq (rules : List (Rule R I)) (activeTarget : ExperimentalTarget)
    (call : Rule R I → Node → σ → σ) (node : Node) (s : σ) :
    visitNode rules activeTarget call node s
      = if node.info.named then
          (dispatched rules .ast activeTarget).foldl (fun s rule => call rule node s) s
        else s := by
  -- the two guards in the loop are the filter of `dispatched`
  have hrules : ∀ (rules : List (Rule R I)) (s : σ),
      rules.foldl (fun s rule =>
        if rule.stage ≠ .ast then s
        else if !experimentalTargetEnabled rule activeTarget then s
        else call rule node s) s
      = (dispatched rules .ast activeTarget).foldl (fun s rule => call rule node s) s := by
    intro rules
    unfold dispatched
    induction rules with
    | nil => intro s; rfl
    | cons rule rules ih =>
        intro s
        rw [List.foldl_cons, ih, List.filter_cons]
        by_cases hstage : rule.stage = .ast
        · cases henabled : experimentalTargetEnabled rule activeTarget <;> simp [hstage]
        · simp [hstage]
  unfold visitNode
  rw [hrules]

/-- The visits of a list of nodes make the calls of its named nodes. -/
theorem foldl_visitNode (rules : List (Rule R I)) (activeTarget : ExperimentalTarget)
    (call : Rule R I → Node → σ → σ) (nodes : List Node) (s : σ) :
    nodes.foldl (fun s node => visitNode rules activeTarget call node s) s
      = ((nodes.filter fun n => n.info.named).flatMap fun node =>
          (dispatched rules .ast activeTarget).map fun rule => (rule, node)).foldl
        (fun s c => call c.1 c.2 s) s := by
  induction nodes generalizing s with
  | nil => rfl
  | cons node nodes ih =>
      rw [List.foldl_cons, ih, visitNode_eq, List.filter_cons]
      cases node.info.named with
      | false => rfl
      | true => simp only [if_true, List.flatMap_cons, List.foldl_append, List.foldl_map]

/-- The walk visits the nodes in preorder. -/
theorem walkLoop_visits (root : Node) (rules : List (Rule R I))
    (activeTarget : ExperimentalTarget) (call : Rule R I → Node → σ → σ) (s : σ) (more : Nat) :
    walkLoop ((walkOrder root).length + 1 + more) (some root) rules activeTarget call s
      = some ((walkOrder root).foldl
          (fun s node => visitNode rules activeTarget call node s) s) := by
  have hfuel : (walkOrder root).length < (walkOrder root).length + 1 + more := by omega
  exact TreeCursor.walk_eq walkOrder_eq _ root s hfuel

/-- **The walk ends, and calls every rule of the AST stage once at every named
node, in preorder**: with a turn for each node and one more, and then with any
more. -/
theorem walkLoop_calls (root : Node) (rules : List (Rule R I)) (activeTarget : ExperimentalTarget)
    (call : Rule R I → Node → σ → σ) (s : σ) (more : Nat) :
    walkLoop ((walkOrder root).length + 1 + more) (some root) rules activeTarget call s
      = some ((onNodeCalls rules activeTarget root).foldl (fun s c => call c.1 c.2 s) s) := by
  rw [walkLoop_visits, foldl_visitNode]
  rfl

/-- With rules that emit, the loop is `walk`. -/
theorem walkLoop_emits (view : RuleView) (rules : List (Rule R I))
    (activeTarget : ExperimentalTarget) (ds : List Diagnostic) (more : Nat) :
    walkLoop ((walkOrder view.root).length + 1 + more) (some view.root) rules activeTarget
        (fun rule node ds => ds ++ rule.onNode view node) ds
      = some (ds ++ walk view rules activeTarget) := by
  have hemit : ∀ (calls : List (Rule R I × Node)) (ds : List Diagnostic),
      calls.foldl (fun ds c => ds ++ c.1.onNode view c.2) ds
        = ds ++ calls.flatMap fun c => c.1.onNode view c.2 := by
    intro calls
    induction calls with
    | nil => intro ds; exact (List.append_nil ds).symm
    | cons c calls ih => intro ds; rw [List.foldl_cons, ih, List.flatMap_cons, List.append_assoc]
  rw [walkLoop_visits, foldl_visitNode, hemit]
  unfold walk
  simp only [List.flatMap_assoc, List.flatMap_map]

end ShaderClippy.Lint
