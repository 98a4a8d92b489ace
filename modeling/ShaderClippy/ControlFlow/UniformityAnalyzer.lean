/-
  ShaderClippy.ControlFlow.UniformityAnalyzer

  **AST-LEVEL UNIFORMITY TAINT** (`uniformity_analyzer.cpp`).

  Parameters with a divergent system-value semantic seed a set of names;
  every named node is classified by the join of its operands. The two hash
  maps are kept as the lists of their writes, the last write to a span wins.
  Reflection and the inlining depth are accepted by the source and ignored
  there; they do not appear here.
-/
import ShaderClippy.Syntax.Node

namespace ShaderClippy.ControlFlow

/-! ## §1. The lattice and the name tables. -/

/-- `Uniformity`. -/
inductive Uniformity where
  | unknown | uniform | divergent | loopInvariant
  deriving Repr, DecidableEq

/-- `join`: `divergent` wins, `unknown` loses. -/
def Uniformity.join (lhs rhs : Uniformity) : Uniformity :=
  if lhs = .divergent || rhs = .divergent then .divergent
  else if lhs = .unknown then rhs
  else if rhs = .unknown then lhs
  else if lhs = .loopInvariant || rhs = .loopInvariant then .loopInvariant
  else .uniform

/-- System-value semantics that differ between lanes. -/
def divergentSvNames : List Text :=
  ["SV_DispatchThreadID".toList, "SV_GroupThreadID".toList, "SV_GroupIndex".toList,
   "SV_VertexID".toList, "SV_InstanceID".toList, "SV_PrimitiveID".toList,
   "SV_SampleIndex".toList]

/-- `is_divergent_sv_name`. -/
def isDivergentSvName (ident : Text) : Bool := divergentSvNames.contains ident

/-- `is_divergent_wave_intrinsic`. -/
def isDivergentWaveIntrinsic (ident : Text) : Bool :=
  ["WaveGetLaneIndex".toList, "WaveReadLaneFirst".toList, "WaveActiveAllEqual".toList,
   "WaveActiveAnyTrue".toList, "WaveActiveBallot".toList].contains ident

/-- `is_uniform_wave_intrinsic`. -/
def isUniformWaveIntrinsic (ident : Text) : Bool :=
  ["WaveGetLaneCount".toList, "WaveIsFirstLane".toList].contains ident

/-! ## §2. Seeds. -/

/-- `extract_param_idents`: the identifiers of a parameter, semantics apart. -/
def extractParamIdents (bytes : Text) (param : Node) : List Text :=
  (param.popOrder.filter fun n => decide (n.kind = .identifier)).filterMap fun n =>
    let text := n.text bytes
    if !text.isEmpty && !Text.startsWith text "SV_".toList
        && !Text.startsWith text "TEXCOORD".toList && text ≠ "POSITION".toList
    then some text else none

/-- Does the text of a parameter mention a divergent semantic? -/
def mentionsDivergentSv (text : Text) : Bool :=
  divergentSvNames.any fun sv => Text.contains text sv

/-- `seed_divergent_parameters`. -/
def seedDivergentParameters (bytes : Text) (root : Node) : List Text :=
  root.popOrder.flatMap fun n =>
    if n.kind = .parameterDeclaration || n.kind = .parameter then
      if mentionsDivergentSv (n.text bytes) then extractParamIdents bytes n else []
    else []

/-! ## §3. Classification. -/

/-- The writes to a hash map keyed by byte spans, in order. -/
abbrev UniformityWrites := List (ByteSpan × Uniformity)

/-- The class of an identifier. -/
def classifyIdentifier (divergentIdents : List Text) (text : Text) : Uniformity :=
  if divergentIdents.contains text then .divergent
  else if isDivergentSvName text || isDivergentWaveIntrinsic text then .divergent
  else .uniform

/-- What the callee alone says about a call. -/
def classifyCallee (text : Text) : Option Uniformity :=
  if isDivergentWaveIntrinsic text || isDivergentSvName text then some .divergent
  else if isUniformWaveIntrinsic text then some .uniform
  else none

/-- Record the class of a node after the writes of its operands. -/
def record (i : NodeInfo) (result : Uniformity × UniformityWrites) :
    Uniformity × UniformityWrites :=
  (result.1, result.2 ++ [(⟨i.lo, i.hi⟩, result.1)])

mutual
/-- `classify`: the class of a node and the writes made on the way. -/
def classify (divergentIdents : List Text) (bytes : Text) : Node → Uniformity × UniformityWrites
  | .mk i cs =>
      if !i.named then (.unknown, [])
      else
        match i.kind with
        | .numberLiteral | .stringLiteral | .trueLiteral | .falseLiteral =>
            record i (.uniform, [])
        | .identifier =>
            record i (classifyIdentifier divergentIdents (textAt bytes i.lo i.hi), [])
        | .callExpression =>
            let calleeText := match (Node.mk i cs).childByField .function with
              | some callee => callee.text bytes
              | none => []
            match classifyCallee calleeText with
            | some u => record i (u, [])
            | none => record i (classifyArguments divergentIdents bytes cs)
        | _ => record i (classifyOperands divergentIdents bytes .unknown cs)

/-- The join over the named nodes of a list, from `u` on. -/
def classifyOperands (divergentIdents : List Text) (bytes : Text) (u : Uniformity) :
    List Node → Uniformity × UniformityWrites
  | [] => (u, [])
  | n :: ns =>
      if n.info.named then
        let (v, writes) := classify divergentIdents bytes n
        let (w, more) := classifyOperands divergentIdents bytes (u.join v) ns
        (w, writes ++ more)
      else classifyOperands divergentIdents bytes u ns

/-- The join over the operands of the `arguments` child. -/
def classifyArguments (divergentIdents : List Text) (bytes : Text) :
    List Node → Uniformity × UniformityWrites
  | [] => (.unknown, [])
  | .mk i cs :: ns =>
      if i.field = some .arguments then classifyOperands divergentIdents bytes .unknown cs
      else classifyArguments divergentIdents bytes ns
end

/-- The condition of a branch: by field, else the first named child. -/
def branchCondition (n : Node) : Option Node :=
  match n.childByField .condition with
  | some c => some c
  | none => n.namedChildren.head?

/-- `scan_branches` at one node: the writes to the expression map and to the
branch map. -/
def scanBranch (divergentIdents : List Text) (bytes : Text) (n : Node) :
    UniformityWrites × UniformityWrites :=
  if n.kind = .ifStatement || n.kind = .switchStatement then
    match branchCondition n with
    | none => ([], [(⟨n.info.lo, n.info.hi⟩, .unknown)])
    | some cond =>
        let (u, writes) := classify divergentIdents bytes cond
        (writes, [(⟨n.info.lo, n.info.hi⟩, u)])
  else ([], [])

/-- `UniformityImplData`: the two maps. -/
structure UniformityInfo where
  exprUniformity : UniformityWrites
  branchUniformity : UniformityWrites
  deriving Repr, DecidableEq

/-- **`analyse_uniformity`.** -/
def analyseUniformity (root : Node) (bytes : Text) : UniformityInfo :=
  let divergentIdents := seedDivergentParameters bytes root
  let nodes := root.popOrder
  let classified := nodes.flatMap fun n =>
    if n.info.named then (classify divergentIdents bytes n).2 else []
  let branches := nodes.map (scanBranch divergentIdents bytes)
  ⟨classified ++ branches.flatMap (·.1), branches.flatMap (·.2)⟩

/-- The last write to a span. -/
def lookupUniformity (writes : UniformityWrites) (span : ByteSpan) : Uniformity :=
  match writes.reverse.find? fun w => decide (w.1 = span) with
  | some w => w.2
  | none => .unknown

/-- `UniformityOracle::of_expr`. -/
def UniformityInfo.ofExpr (info : UniformityInfo) (expr : Span) : Uniformity :=
  lookupUniformity info.exprUniformity expr.bytes

/-- `UniformityOracle::of_branch`. -/
def UniformityInfo.ofBranch (info : UniformityInfo) (branchStmt : Span) : Uniformity :=
  lookupUniformity info.branchUniformity branchStmt.bytes

end ShaderClippy.ControlFlow
