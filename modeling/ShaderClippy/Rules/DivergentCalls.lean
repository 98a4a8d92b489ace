/-
  ShaderClippy.Rules.DivergentCalls

  **CALLS THAT NEED ALL LANES** (`barrier_in_divergent_cf.cpp`,
  `derivative_in_divergent_cf.cpp`, `wave_intrinsic_non_uniform.cpp`).

  Three rules walk the tree for calls with certain callees and report those that
  `inside_divergent_cf` is true of (`mem_onCfg`). What they pass over is harmless where
  the analyzer is right and lanes part at nothing but `if` and `switch`: every such call
  is made by all lanes of the wave or by none (`unreported_together`). Behind a `return`
  that some lanes take it need not be.
-/
import ShaderClippy.ControlFlow.DivergentCf
import ShaderClippy.Lint.CursorWalk
import ShaderClippy.Syntax.Calls

namespace ShaderClippy.Rules.DivergentCalls

open ControlFlow Lockstep
open Lint (walkOrder walkOrderAll)

/-! ## §1. The rules. -/

/-- A rule about calls: its id and severity, the callees it looks for, whether it looks
for `.Sample` methods as well, and its texts. -/
structure CallRule where
  id : Text
  severity : Severity
  callees : List Text
  sampleMethods : Bool
  message : Text
  description : Text

/-- What the collecting walk takes from one node. -/
def CallRule.found (rule : CallRule) (bytes : Text) (n : Node) : List Node :=
  if n.kind = .callExpression then
    let fnText := ShaderClippy.calleeText bytes n
    (if rule.callees.contains fnText then [n] else [])
      ++ (if rule.sampleMethods && decide (7 < fnText.length) && ".Sample".toList.isSuffixOf fnText then [n]
        else [])
  else []

/-- `collect_barrier_calls`, `collect_calls`, `collect_wave_calls`. -/
def CallRule.collectCalls (rule : CallRule) (bytes : Text) (root : Node) : List Node :=
  (walkOrder root).flatMap (rule.found bytes)

/-- The diagnostic at a call. -/
def CallRule.diagnostic (rule : CallRule) (source : SourceId) (call : Node) : Diagnostic where
  code := rule.id
  severity := rule.severity
  primarySpan := call.span source
  message := rule.message
  fixes := [{ description := rule.description, machineApplicable := false, edits := [] }]

/-- `on_cfg` of the three rules. -/
def CallRule.onCfg (rule : CallRule) (cfg : ControlFlowInfo) (source : SourceId) (root : Node) (bytes : Text) :
    List Diagnostic :=
  ((rule.collectCalls bytes root).filter fun call => insideDivergentCf cfg (call.span source)).map
    (rule.diagnostic source)

/-- `BarrierInDivergentCf`. -/
def barrierInDivergentCf : CallRule where
  id := "barrier-in-divergent-cf".toList
  severity := .error
  callees := ["GroupMemoryBarrier".toList, "GroupMemoryBarrierWithGroupSync".toList, "DeviceMemoryBarrier".toList,
    "DeviceMemoryBarrierWithGroupSync".toList, "AllMemoryBarrier".toList, "AllMemoryBarrierWithGroupSync".toList]
  sampleMethods := false
  message := "memory barrier inside non-uniform control flow -- this is ".toList
    ++ "undefined behaviour; lanes that never reach the barrier ".toList ++ "deadlock the workgroup".toList
  description := "hoist the barrier outside every divergent branch -- every ".toList
    ++ "lane must reach the barrier; if a lane needs to skip, ".toList
    ++ "restructure to keep the barrier on the join path".toList

/-- `DerivativeInDivergentCf`. -/
def derivativeInDivergentCf : CallRule where
  id := "derivative-in-divergent-cf".toList
  severity := .warning
  callees := ["ddx".toList, "ddy".toList, "ddx_fine".toList, "ddy_fine".toList, "ddx_coarse".toList,
    "ddy_coarse".toList]
  sampleMethods := true
  message := "derivative or implicit-gradient sample inside non-uniform ".toList
    ++ "control flow -- per the SM 6.x spec, derivatives across a ".toList ++ "diverged quad are undefined".toList
  description := "hoist the derivative / implicit-Sample out of the divergent ".toList
    ++ "branch (compute it before, then use the value inside), or ".toList
    ++ "switch to SampleLevel/SampleGrad with explicit gradients".toList

/-- `WaveIntrinsicNonUniform`. -/
def waveIntrinsicNonUniform : CallRule where
  id := "wave-intrinsic-non-uniform".toList
  severity := .warning
  callees := ["WaveActiveSum".toList, "WaveActiveProduct".toList, "WaveActiveMin".toList, "WaveActiveMax".toList,
    "WaveActiveBitAnd".toList, "WaveActiveBitOr".toList, "WaveActiveBitXor".toList, "WaveActiveAllTrue".toList,
    "WaveActiveAnyTrue".toList, "WaveActiveBallot".toList, "WaveActiveAllEqual".toList,
    "WaveActiveCountBits".toList, "WavePrefixSum".toList, "WavePrefixProduct".toList,
    "WavePrefixCountBits".toList, "WaveReadLaneAt".toList, "WaveReadLaneFirst".toList, "WaveMatch".toList]
  sampleMethods := false
  message := "wave intrinsic dispatched from non-uniform control flow -- ".toList
    ++ "the reduction only counts active lanes; this is rarely ".toList
    ++ "intended and a frequent source of scan / reduction bugs".toList
  description := "hoist the wave intrinsic above the divergent branch, or ".toList
    ++ "ensure every lane in the wave reaches it (e.g. compute the ".toList
    ++ "value unconditionally, then select with the branch result)".toList

/-- The rules that ask for nothing but `inside_divergent_cf`. -/
def divergenceRules : List CallRule := [barrierInDivergentCf, derivativeInDivergentCf, waveIntrinsicNonUniform]

/-! ## §2. What is reported. -/

section Reported

variable {rule : CallRule} {source : SourceId} {root : Node} {bytes : Text}

/-- Is the node a call the rule looks for? -/
def CallRule.Watches (rule : CallRule) (bytes : Text) (n : Node) : Prop :=
  n.kind = .callExpression ∧ (ShaderClippy.calleeText bytes n ∈ rule.callees
    ∨ (rule.sampleMethods = true ∧ 7 < (ShaderClippy.calleeText bytes n).length
      ∧ ".Sample".toList <:+ ShaderClippy.calleeText bytes n))

mutual
/-- The walk comes to every node of the tree. -/
theorem mem_walkOrder {m : Node} : ∀ n : Node, m ∈ walkOrder n ↔ m.Sub n
  | .mk i cs => by
      unfold walkOrder
      rw [List.mem_cons, mem_walkOrderAll cs]
      constructor
      · rintro (rfl | ⟨c, hc, hsub⟩)
        · exact .refl
        · exact .child hc hsub
      · intro h
        cases h with
        | refl => exact .inl rfl
        | child hc hsub => exact .inr ⟨_, hc, hsub⟩

theorem mem_walkOrderAll {m : Node} : ∀ ns : List Node, m ∈ walkOrderAll ns ↔ ∃ c ∈ ns, m.Sub c
  | [] => ⟨fun h => absurd h List.not_mem_nil, fun ⟨_, hc, _⟩ => absurd hc List.not_mem_nil⟩
  | n :: ns => by
      unfold walkOrderAll
      rw [List.mem_append, mem_walkOrder n, mem_walkOrderAll ns]
      exact (List.exists_mem_cons_iff _ n ns).symm
end

theorem mem_found {n call : Node} : call ∈ rule.found bytes n ↔ call = n ∧ rule.Watches bytes n := by
  have hpick : ∀ b : Bool, call ∈ (if b = true then [n] else []) ↔ call = n ∧ b = true := by
    intro b
    cases b with
    | true => exact ⟨fun h => ⟨List.mem_singleton.mp h, rfl⟩, fun h => List.mem_singleton.mpr h.1⟩
    | false => exact ⟨fun h => absurd h List.not_mem_nil, fun h => absurd h.2 Bool.false_ne_true⟩
  unfold CallRule.found CallRule.Watches
  split
  case isTrue hcall =>
    rw [List.mem_append, hpick, hpick, ← and_or_left, and_iff_right hcall, List.contains_iff_mem, Bool.and_eq_true,
      Bool.and_eq_true, decide_eq_true_iff, List.isSuffixOf_iff_suffix, and_assoc]
  case isFalse hother => exact ⟨fun h => absurd h List.not_mem_nil, fun h => absurd h.2.1 hother⟩

theorem mem_collectCalls {call : Node} :
    call ∈ rule.collectCalls bytes root ↔ call.Sub root ∧ rule.Watches bytes call := by
  unfold CallRule.collectCalls
  rw [List.mem_flatMap]
  constructor
  · rintro ⟨n, hn, hcall⟩
    obtain ⟨rfl, hwatches⟩ := mem_found.mp hcall
    exact ⟨(mem_walkOrder root).mp hn, hwatches⟩
  · rintro ⟨hsub, hwatches⟩
    exact ⟨call, (mem_walkOrder root).mpr hsub, mem_found.mpr ⟨rfl, hwatches⟩⟩

/-- **What is reported**: the calls the rule looks for that a branch of divergent or
unknown class is around. -/
theorem mem_onCfg {d : Diagnostic} :
    d ∈ rule.onCfg (buildEntry source root bytes).info source root bytes ↔
      ∃ call : Node, call.Sub root ∧ rule.Watches bytes call ∧ d = rule.diagnostic source call
        ∧ ∃ branch : Node, branch.Sub root ∧ isBranch branch = true
          ∧ contains (branch.span source) (call.span source) = true
          ∧ ((analyseUniformity root bytes).ofBranch (branch.span source) = .divergent
            ∨ (analyseUniformity root bytes).ofBranch (branch.span source) = .unknown) := by
  unfold CallRule.onCfg
  rw [List.mem_map]
  constructor
  · rintro ⟨call, hcall, rfl⟩
    obtain ⟨hcall, hinside⟩ := List.mem_filter.mp hcall
    obtain ⟨hsub, hwatches⟩ := mem_collectCalls.mp hcall
    exact ⟨call, hsub, hwatches, rfl, insideDivergentCf_iff.mp hinside⟩
  · rintro ⟨call, hsub, hwatches, rfl, hbranch⟩
    exact ⟨call, List.mem_filter.mpr ⟨mem_collectCalls.mpr ⟨hsub, hwatches⟩, insideDivergentCf_iff.mpr hbranch⟩, rfl⟩

end Reported

/-! ## §3. What is passed over. -/

section Passed

variable {ι V : Type} {M : Machine ι V} {source : SourceId} {bytes : Text} {root fnNode : Node}

/-- **A call that is not reported is made by all lanes of the wave or by none.**  The
lanes enter alike but for the parameters with a divergent semantic; the body is one the
analyzer is right about, and lanes part at nothing but `if` and `switch`; no operator
of the function may skip the call. -/
theorem unreported_together {span : ByteSpan} {body : Stmts} {f : Option Field}
    (hw : root.wellSpanned = true) (hsh : root.shaped = true) (hfn : fnNode.Sub root)
    (hbody : functionBody fnNode = some ((Stmt.compound span body).toNode f))
    (hname : ∀ x ∈ laneParameters bytes fnNode, ordinaryName x = true)
    (hst : steadyFrom M.toDialect (seedDivergentParameters bytes root) bytes Context.top false body = true)
    (hstr : rejoinsAll (seedDivergentParameters bytes root) bytes body = true)
    {fuel : Nat} {mask : Mask ι} {w : Wave ι Text V}
    (hentry : ∀ l m x, mask l = true → mask m = true → x ∉ laneParameters bytes fnNode → w l x = w m x) :
    ∀ rule ∈ divergenceRules, ∀ call : Node, call.Sub root → rule.Watches bytes call →
      (∀ d ∈ rule.onCfg (buildEntry source root bytes).info source root bytes, d.primarySpan ≠ call.span source) →
      ∀ e ∈ (execBody M bytes fuel body mask w).events, e.label.span source = call.span source →
        (∀ op : Node, Below fnNode op → M.short op = true → e.label.Sub op → e.label = op) → e.Whole mask := by
  intro rule _ call hsub hwatches hsilent e he hspan hunskipped
  have hpassed : Passed M source bytes root fnNode e.label := ⟨?_, hunskipped⟩
  · exact passed_together hw hsh hfn hbody hname hst hstr hentry e he hpassed
  cases hinside : insideDivergentCf (buildEntry source root bytes).info (e.label.span source) with
  | false => rfl
  | true =>
      rw [hspan] at hinside
      have hreport := mem_onCfg.mpr ⟨call, hsub, hwatches, rfl, insideDivergentCf_iff.mp hinside⟩
      exact absurd rfl (hsilent _ hreport)

end Passed

/-- A machine like `copyMachine` whose calls give every lane the same. -/
def barrierMachine : Machine Bool Nat :=
  { copyMachine with
    laneFree := fun _ => true
    call_laneFree := fun _ _ _ _ _ _ _ _ _ => rfl
    callWritten_laneFree := fun _ _ _ _ _ _ _ _ _ _ _ => rfl }

/-- `GroupMemoryBarrier()` at `lo`. -/
def barrierCall (lo : Nat) : Node :=
  namedNode .callExpression none ⟨lo, lo + 20⟩
    [namedNode .identifier (some .function) ⟨lo, lo + 18⟩ [],
     namedNode .argumentList (some .arguments) ⟨lo + 18, lo + 20⟩ []]

/-- The statement that calls it. -/
def barrierStatement (lo : Nat) : PlainNode :=
  ⟨namedNode .expressionStatement none ⟨lo, lo + 21⟩ [barrierCall lo], rfl, rfl⟩

/-- A function that branches on its lane index, then calls a barrier below a branch on a
parameter. -/
def rejoined : Text := "void f(uint t:SV_GroupIndex,uint n){if(t)y;if(n)GroupMemoryBarrier();}".toList

/-- The body of `rejoined`. -/
def rejoinedBody : Stmts :=
  .cons (.ifThen ⟨36, 43⟩ (identCondition 38) (.simple (identStatement 41)))
    (.cons (.ifThen ⟨43, 69⟩ (identCondition 45) (.simple (barrierStatement 48))) .nil)

/-- The function of `rejoined`. -/
def rejoinedFunction : Node :=
  namedNode .functionDefinition none ⟨0, 70⟩
    [namedNode .functionDeclarator (some .declarator) ⟨5, 35⟩
       [letter (some .declarator) 5, groupIndexParameter 7,
        namedNode .parameterDeclaration none ⟨28, 34⟩
          [namedNode (.other "primitive_type".toList) none ⟨28, 32⟩ [],
           letter (some .declarator) 33]],
     (Stmt.compound ⟨35, 70⟩ rejoinedBody).toNode (some .body)]

def rejoinedTree : Node := namedNode .translationUnit none ⟨0, 70⟩ [rejoinedFunction]

/-- The two lanes enter with the indices 0 and 1, and 1 for `n`. -/
def litLanes : Wave Bool Text Nat := fun l x => if x = "n".toList then 1 else twoLanes l x

/-- Lane 1 alone goes through the first branch, and both through the second. -/
theorem unreported_together_rejoined :
    (∃ e ∈ (execBody barrierMachine rejoined 0 rejoinedBody (fun _ => true) litLanes).events,
      e.label.info.lo = 48 ∧ e.label.info.hi = 68 ∧ e.active true = true)
      ∧ ∀ e ∈ (execBody barrierMachine rejoined 0 rejoinedBody (fun _ => true) litLanes).events,
        e.label.span ⟨1⟩ = (barrierCall 48).span ⟨1⟩ → e.Whole fun _ => true := by
  refine ⟨by decide +kernel, fun e he hspan => ?_⟩
  have hlane : laneParameters rejoined rejoinedFunction = ["t".toList] := by decide +kernel
  have hcall : (barrierCall 48).Sub rejoinedTree :=
    .child List.mem_cons_self (.child (List.mem_cons_of_mem _ List.mem_cons_self)
      (.child (List.mem_cons_of_mem _ List.mem_cons_self) (.child (List.mem_cons_of_mem _ List.mem_cons_self)
        (.child List.mem_cons_self .refl))))
  have hbody : functionBody rejoinedFunction
      = some ((Stmt.compound ⟨35, 70⟩ rejoinedBody).toNode (some .body)) := rfl
  have hwatches : barrierInDivergentCf.Watches rejoined (barrierCall 48) := ⟨rfl, .inl (by decide +kernel)⟩
  have hsilent : ∀ d ∈ barrierInDivergentCf.onCfg (buildEntry ⟨1⟩ rejoinedTree rejoined).info ⟨1⟩ rejoinedTree
      rejoined, d.primarySpan ≠ (barrierCall 48).span ⟨1⟩ := by decide +kernel
  have hentry : ∀ l m x, (fun _ : Bool => true) l = true → (fun _ : Bool => true) m = true →
      x ∉ laneParameters rejoined rejoinedFunction → litLanes l x = litLanes m x := by
    intro l m x _ _ hx
    unfold litLanes
    rw [twoLanes_alike (fun hxt => hx (by rw [hlane, hxt]; exact List.mem_singleton_self _)) l m]
  exact unreported_together (by decide +kernel) (by decide +kernel) (.child List.mem_cons_self .refl) hbody
    (by decide +kernel) (by decide +kernel) (by decide +kernel) hentry barrierInDivergentCf List.mem_cons_self
    (barrierCall 48) hcall hwatches hsilent e he hspan fun _ _ hshort => absurd hshort Bool.false_ne_true

/-- A function that some lanes leave before the barrier. -/
def returned : Text := "void f(uint t:SV_GroupIndex){if(t)return;GroupMemoryBarrier();}".toList

/-- The body of `returned`. -/
def returnedBody : Stmts :=
  .cons (.ifThen ⟨29, 41⟩ (identCondition 31) (.returnStmt ⟨34, 41⟩ none))
    (.cons (.simple (barrierStatement 41)) .nil)

/-- The function of `returned`. -/
def returnedFunction : Node :=
  namedNode .functionDefinition none ⟨0, 63⟩
    [namedNode .functionDeclarator (some .declarator) ⟨5, 28⟩
       [letter (some .declarator) 5, groupIndexParameter 7],
     (Stmt.compound ⟨28, 63⟩ returnedBody).toNode (some .body)]

def returnedTree : Node := namedNode .translationUnit none ⟨0, 63⟩ [returnedFunction]

-- the rule does not look for jumps
example : barrierInDivergentCf.onCfg (buildEntry ⟨1⟩ returnedTree returned).info ⟨1⟩ returnedTree returned = []
    ∧ ∃ e ∈ (execBody barrierMachine returned 0 returnedBody (fun _ => true) twoLanes).events,
      (e.label.info.lo = 41 ∧ e.label.info.hi = 61) ∧ e.active false = true ∧ e.active true = false := by
  decide +kernel

end ShaderClippy.Rules.DivergentCalls
