/-
  ShaderClippy.ControlFlow.CfgBuilder

  **FROM SYNTAX TREES TO BASIC BLOCKS** (`cfg_builder.cpp`).

  `walk_statement` threads a cursor, the current block, through one
  statement. The recursion goes to CHOSEN children (by field or by
  position), so the walk first turns every child into its own walker and
  then picks among them (`walkChildren`).

  The functions of the storage other than the one being built are never
  touched: the state is the storage together with the blocks of that one
  function, written back at the end.
-/
import ShaderClippy.ControlFlow.Dominators
import ShaderClippy.Diagnostic
import ShaderClippy.Syntax.Node

namespace ShaderClippy.ControlFlow

/-! ## §1. Barriers and discards. -/

/-- The callee names that are barriers. -/
def barrierNames : List Text :=
  ["GroupMemoryBarrier".toList, "GroupMemoryBarrierWithGroupSync".toList,
   "DeviceMemoryBarrier".toList, "DeviceMemoryBarrierWithGroupSync".toList,
   "AllMemoryBarrier".toList, "AllMemoryBarrierWithGroupSync".toList]

/-- `is_barrier_call`. -/
def isBarrierCall (ident : Text) : Bool := barrierNames.contains ident

/-- Is this very node a call of a barrier? -/
def isBarrierNode (bytes : Text) (i : NodeInfo) (cs : List Node) : Bool :=
  match i.kind, (Node.mk i cs).childByField .function with
  | .callExpression, some callee => isBarrierCall (callee.text bytes)
  | _, _ => false

mutual
/-- `detect_barrier`: a barrier call in the subtree, nested functions apart. -/
def detectBarrier (bytes : Text) : Node → Bool
  | .mk i cs => isBarrierNode bytes i cs || detectBarrierAny bytes cs

def detectBarrierAny (bytes : Text) : List Node → Bool
  | [] => false
  | n :: ns =>
      (if n.kind = .functionDefinition then false else detectBarrier bytes n)
        || detectBarrierAny bytes ns
end

/-- The text test for `discard` and `clip`. -/
def mentionsDiscard (stmtText : Text) : Bool :=
  Text.contains stmtText "discard".toList || Text.startsWith stmtText "clip(".toList
    || Text.contains stmtText " clip(".toList

/-! ## §2. The state of the builder. -/

/-- What stays the same while one function is built. -/
structure BuildContext where
  functionId : Nat
  source : SourceId
  bytes : Text

/-- The blocks of the function being built, and the storage. -/
structure FunctionBuilder where
  blocks : List BasicBlock
  storage : CfgStorage

/-- `new_block`: the local index of the new block. -/
def FunctionBuilder.newBlock (ctx : BuildContext) (fb : FunctionBuilder) (anchor : Node) :
    Nat × FunctionBuilder :=
  let span := anchor.span ctx.source
  let localIndex := fb.blocks.length
  let (raw, storage) := fb.storage.allocateBlockId ctx.functionId localIndex
  (localIndex,
    { blocks := fb.blocks ++ [BasicBlock.fresh span]
      storage := { storage with spanToBlock := storage.spanToBlock ++ [(span, raw)] } })

/-- `add_edge`. -/
def FunctionBuilder.addEdge (fb : FunctionBuilder) (src dst : Nat) : FunctionBuilder :=
  { fb with blocks := fb.blocks.modify src fun b => { b with successors := b.successors ++ [dst] } }

/-- `blocks[b].is_exit = true`. -/
def FunctionBuilder.markExit (fb : FunctionBuilder) (b : Nat) : FunctionBuilder :=
  { fb with blocks := fb.blocks.modify b fun b => { b with isExit := true } }

/-- `blocks[b].contains_barrier = true`. -/
def FunctionBuilder.markBarrier (fb : FunctionBuilder) (b : Nat) : FunctionBuilder :=
  { fb with blocks := fb.blocks.modify b fun b => { b with containsBarrier := true } }

/-- `blocks[b].contains_discard = true`, when the text says so. -/
def FunctionBuilder.markDiscard (fb : FunctionBuilder) (stmtText : Text) (b : Nat) :
    FunctionBuilder :=
  if mentionsDiscard stmtText then
    { fb with blocks := fb.blocks.modify b fun b => { b with containsDiscard := true } }
  else fb

/-! ## §3. One statement. -/

/-- A walk of one statement: state and cursor in, state and cursor out. -/
abbrev Walker := FunctionBuilder → Nat → FunctionBuilder × Nat

/-- The children of a node, each with its walk. -/
abbrev Kids := List (Node × Walker)

/-- The first child in this field. -/
def Kids.byField (kids : Kids) (f : Field) : Option (Node × Walker) :=
  kids.find? fun k => decide (k.1.info.field = some f)

/-- The named children. -/
def Kids.named (kids : Kids) : Kids := kids.filter fun k => k.1.info.named

/-- `walk_statement` on a child that may be null. -/
def walkOptional (kid : Option (Node × Walker)) : Walker := fun fb current =>
  match kid with
  | none => (fb, current)
  | some k => k.2 fb current

/-- The arms of an `if`: by field, or by position when both fields are absent. -/
def ifArms (kids : Kids) : Option (Node × Walker) × Option (Node × Walker) :=
  match kids.byField .consequence, kids.byField .alternative with
  | none, none => (kids.named[1]?, kids.named[2]?)
  | thenNode, elseNode => (thenNode, elseNode)

/-- `if_statement`. -/
def walkIf (ctx : BuildContext) (stmt : Node) (kids : Kids) : Walker := fun fb condBlock =>
  let (thenNode, elseNode) := ifArms kids
  let (thenBlock, fb) := fb.newBlock ctx stmt
  let fb := fb.addEdge condBlock thenBlock
  let (fb, thenEnd) := walkOptional thenNode fb thenBlock
  match elseNode with
  | none =>
      let (join, fb) := fb.newBlock ctx stmt
      let fb := fb.addEdge thenEnd join
      (fb.addEdge condBlock join, join)
  | some elseNode =>
      let (elseBlock, fb) := fb.newBlock ctx elseNode.1
      let fb := fb.addEdge condBlock elseBlock
      let (fb, elseEnd) := elseNode.2 fb elseBlock
      let (join, fb) := fb.newBlock ctx stmt
      let fb := fb.addEdge thenEnd join
      (fb.addEdge elseEnd join, join)

/-- The body of a loop: by field, else the last (`for`, `while`) or the first
(`do`) named child. -/
def loopBody (kids : Kids) (last : Bool) : Option (Node × Walker) :=
  match kids.byField .body with
  | some k => some k
  | none => if last then kids.named.getLast? else kids.named.head?

/-- `for_statement` and `while_statement`. -/
def walkLoop (ctx : BuildContext) (stmt : Node) (kids : Kids) : Walker := fun fb preLoop =>
  let (header, fb) := fb.newBlock ctx stmt
  let fb := fb.addEdge preLoop header
  let (body, fb) := fb.newBlock ctx stmt
  let fb := fb.addEdge header body
  let (fb, bodyEnd) := walkOptional (loopBody kids true) fb body
  let fb := fb.addEdge bodyEnd header
  let (exitBlock, fb) := fb.newBlock ctx stmt
  (fb.addEdge header exitBlock, exitBlock)

/-- `do_statement`. -/
def walkDo (ctx : BuildContext) (stmt : Node) (kids : Kids) : Walker := fun fb preLoop =>
  let (body, fb) := fb.newBlock ctx stmt
  let fb := fb.addEdge preLoop body
  let (fb, bodyEnd) := walkOptional (loopBody kids false) fb body
  let (condBlock, fb) := fb.newBlock ctx stmt
  let fb := fb.addEdge bodyEnd condBlock
  let fb := fb.addEdge condBlock body
  let (exitBlock, fb) := fb.newBlock ctx stmt
  (fb.addEdge condBlock exitBlock, exitBlock)

/-- The loop over the direct children of a `switch_statement`. -/
def walkCases (ctx : BuildContext) (dispatch join : Nat) : Kids → FunctionBuilder → FunctionBuilder
  | [], fb => fb
  | k :: ks, fb =>
      if k.1.kind = .caseStatement || k.1.kind = .defaultStatement then
        let (caseBlock, fb) := fb.newBlock ctx k.1
        let fb := fb.addEdge dispatch caseBlock
        let (fb, caseEnd) := k.2 fb caseBlock
        walkCases ctx dispatch join ks (fb.addEdge caseEnd join)
      else walkCases ctx dispatch join ks fb

/-- `switch_statement`. -/
def walkSwitch (ctx : BuildContext) (stmt : Node) (kids : Kids) : Walker := fun fb dispatch =>
  let (join, fb) := fb.newBlock ctx stmt
  let fb := walkCases ctx dispatch join kids.named fb
  (if kids.named.isEmpty then fb.addEdge dispatch join else fb, join)

/-- The statements of a `compound_statement`, one after another. -/
def walkAll : Kids → Walker
  | [] => fun fb current => (fb, current)
  | k :: ks => fun fb current =>
      let (fb, current) := k.2 fb current
      walkAll ks fb current

/-- The dispatch of `walk_statement` on the kind of the statement. -/
def walkByKind (ctx : BuildContext) (stmt : Node) (kids : Kids) : Walker := fun fb current =>
  match stmt.kind with
  | .ifStatement => walkIf ctx stmt kids fb current
  | .forStatement | .whileStatement => walkLoop ctx stmt kids fb current
  | .doStatement => walkDo ctx stmt kids fb current
  | .switchStatement => walkSwitch ctx stmt kids fb current
  | .compoundStatement => walkAll kids.named fb current
  | _ => (fb, current)

/-- The body of `walk_statement`: `kids` are the children with their walks. -/
def walkKind (ctx : BuildContext) (stmt : Node) (kids : Kids) : Walker := fun fb current =>
  if stmt.kind = .returnStatement then
    let (next, fb) := (fb.markExit current).newBlock ctx stmt
    (fb, next)
  else if detectBarrier ctx.bytes stmt then
    let (next, fb) := (fb.markBarrier current).newBlock ctx stmt
    (fb.addEdge current next, next)
  else walkByKind ctx stmt kids (fb.markDiscard (stmt.text ctx.bytes) current) current

mutual
/-- **`walk_statement`.** -/
def walkStatement (ctx : BuildContext) : Node → Walker
  | .mk i cs => walkKind ctx (.mk i cs) (walkChildren ctx cs)

def walkChildren (ctx : BuildContext) : List Node → Kids
  | [] => []
  | n :: ns => (n, walkStatement ctx n) :: walkChildren ctx ns
end

/-! ## §4. One function, one source. -/

/-- The name: the declarator of the first `function_declarator`, else the
first plain identifier before it. -/
def functionName (bytes : Text) : List Node → Text → Text
  | [], name => name
  | c :: cs, name =>
      match c.kind, c.childByField .declarator with
      | .functionDeclarator, some ident => ident.text bytes
      | .identifier, _ =>
          functionName bytes cs (if name.isEmpty then c.text bytes else name)
      | _, _ => functionName bytes cs name

/-- The fixed message of `clippy::cfg-skip`. -/
def cfgSkipMessage : Text :=
  ("function contains a tree-sitter ERROR node; skipping CFG-stage rules "
    ++ "for this function (see ADR 0013 risk mitigation; ADR 0002 grammar gaps)").toList

/-- The `clippy::cfg-skip` warning. -/
def cfgSkipDiagnostic (declarationSpan : Span) : Diagnostic :=
  ⟨"clippy::cfg-skip".toList, .warning, declarationSpan, cfgSkipMessage, []⟩

/-- The body of a function: by field, else the first `compound_statement`. -/
def functionBody (fnNode : Node) : Option Node :=
  match fnNode.childByField .body with
  | some b => some b
  | none => fnNode.children.find? fun c => decide (c.kind = .compoundStatement)

/-- `build_function`: the function, the storage with its ids, and the
diagnostics it adds. -/
def buildFunction (st : CfgStorage) (functionId : Nat) (fnNode : Node) (source : SourceId)
    (bytes : Text) : CfgFunction × CfgStorage × List Diagnostic :=
  let ctx : BuildContext := ⟨functionId, source, bytes⟩
  let declarationSpan := fnNode.span source
  let name := functionName bytes fnNode.children []
  if fnNode.hasError then
    let entry := { BasicBlock.fresh declarationSpan with taintedByError := true }
    let (raw, st) := st.allocateBlockId functionId 0
    (⟨declarationSpan, name, [entry], [0], true⟩,
      { st with spanToBlock := st.spanToBlock ++ [(declarationSpan, raw)] },
      [cfgSkipDiagnostic declarationSpan])
  else
    let (entryLocal, fb) := FunctionBuilder.newBlock ctx ⟨[], st⟩ fnNode
    let fb :=
      match functionBody fnNode with
      | some body =>
          let (fb, endLocal) := walkStatement ctx body fb entryLocal
          fb.markExit endLocal
      | none => fb.markExit entryLocal
    (⟨declarationSpan, name, fb.blocks, [], false⟩, fb.storage, [])

/-- The loop of `build_cfg` over the functions of the source. -/
def buildFunctions (source : SourceId) (bytes : Text) :
    List Node → CfgStorage × List Diagnostic → CfgStorage × List Diagnostic
  | [], result => result
  | fnNode :: fnNodes, (st, diagnostics) =>
      let functionId := st.functions.length
      let (fn, st', more) := buildFunction st functionId fnNode source bytes
      buildFunctions source bytes fnNodes
        ({ st' with functions := st'.functions ++ [fn] }, diagnostics ++ more)

/-- Storage with the sentinel function only. -/
def emptyStorage (source : SourceId) : CfgStorage := ⟨source, [CfgFunction.empty], [], [], []⟩

/-- **`build_cfg`** on a tree. -/
def buildCfg (root : Node) (source : SourceId) (bytes : Text) : CfgStorage × List Diagnostic :=
  buildFunctions source bytes (collectFunctions root) (emptyStorage source, [])

/-- `compute_all_dominators`: every function but the sentinel. The function
is total (`computeDominators_spec`), so nothing is lost by keeping a
function whose loops had run out of fuel. -/
def computeAllDominators (st : CfgStorage) : CfgStorage :=
  { st with
    functions := match st.functions with
      | [] => []
      | sentinel :: fns => sentinel :: fns.map fun fn => (computeDominators fn).getD fn }

end ShaderClippy.ControlFlow
