/-
  ShaderClippy.Rules.LiveState

  **LOCALS THAT ARE LIVE ACROSS A TRACE** (`live_state_across_traceray.cpp`).

  The rule reports a call of `TraceRay` when more than two names are live out
  of the block that `block_for` finds around it: when more than two names are
  read behind that BLOCK (`mem_reportedCalls_iff`). It does not look at what
  comes before and after the call inside the block, nor at who assigns the
  names; the payload is counted too.

  What should count are the locals other than the payload that some execution
  assigns, carries across the call and reads (`LiveAcross`), which
  `liveNames` computes from the statements. The rule is right exactly where
  both counts are on the same side of the threshold (`liveStateLaw_iff`). A
  body that is one block is never reported, whatever is live in it
  (`not_mem_reportedCalls_of_straight`).
-/
import Mathlib
import ShaderClippy.ControlFlow.BlockLocation
import ShaderClippy.ControlFlow.DefUse
import ShaderClippy.ControlFlow.Evaluation
import ShaderClippy.ControlFlow.Lanes
import ShaderClippy.ControlFlow.LiveBlocks
import ShaderClippy.Syntax.Calls

namespace ShaderClippy.Rules.LiveState

open ControlFlow ControlFlow.Evaluation ControlFlow.Liveness Structured

/-! ## §1. The rule. -/

/-- `k_live_threshold`. -/
def kLiveThreshold : Nat := 2

/-- What `collect_traceray_calls` takes from one node. -/
def isTraceRayCall (bytes : Text) (n : Node) : Bool :=
  n.kind == .callExpression && optionText (n.childByField .function) bytes == "TraceRay".toList

mutual
/-- `collect_traceray_calls`. -/
def collectTraceRayCalls (bytes : Text) : Node → List Node
  | .mk i cs =>
      (if isTraceRayCall bytes (.mk i cs) then [.mk i cs] else [])
        ++ collectTraceRayCallsAll bytes cs

def collectTraceRayCallsAll (bytes : Text) : List Node → List Node
  | [] => []
  | n :: ns => collectTraceRayCalls bytes n ++ collectTraceRayCallsAll bytes ns
end

section Source

variable (source : SourceId) (root : Node) (bytes : Text)

/-- What each block of the source defines and uses. -/
def sourceTables : DefUseTables := defUseTables (builtStorage source root bytes) root bytes

/-- `live_out_at`, of the block around the call; a block without an entry has
nothing live. -/
def liveOutAt (call : Node) : Finset Text :=
  match blockFor (buildEntry source root bytes).info (call.span source) with
  | none => ∅
  | some raw =>
      (computeLiveness (builtStorage source root bytes) (sourceTables source root bytes)).liveOut raw

/-- The calls `on_cfg` reports. -/
def reportedCalls : List Node :=
  (collectTraceRayCalls bytes root).filter fun call =>
    decide (kLiveThreshold < (liveOutAt source root bytes call).card)

/-- The diagnostic at a call. -/
def liveState (call : Node) : Diagnostic where
  code := "live-state-across-traceray".toList
  severity := .warning
  primarySpan := call.span source
  message := "`TraceRay` call site has ".toList
    ++ Nat.toDigits 10 (liveOutAt source root bytes call).card
    ++ " AST-level locals live across the call -- the values must be ".toList
    ++ "carried in the ray stack (scratch / global memory on every IHV) ".toList
    ++ "for the duration of the trace, costing memory traffic per ray".toList
  fixes := []

/-- `LiveStateAcrossTraceRay::on_cfg`. -/
def onCfg : List Diagnostic := (reportedCalls source root bytes).map (liveState source root bytes)

end Source

/-! ## §2. What is reported. -/

/-- More than `k` names have the property. -/
def MoreThan (k : Nat) (P : Text → Prop) : Prop :=
  ∃ names : Finset Text, k < names.card ∧ ∀ x ∈ names, P x

theorem moreThan_iff {k : Nat} {P : Text → Prop} {names : Finset Text}
    (h : ∀ x, x ∈ names ↔ P x) : MoreThan k P ↔ k < names.card := by
  constructor
  · -- any such names are among those that are counted
    intro ⟨names', hk, hall⟩
    exact Nat.lt_of_lt_of_le hk (Finset.card_le_card fun x hx => (h x).mpr (hall x hx))
  · exact fun hk => ⟨names, hk, fun x hx => (h x).mp hx⟩

/-- The name is read behind the block around the call: a path of the graph
leads from its end to a use, past no block that defines the name. -/
def ReadBehindCall (source : SourceId) (root : Node) (bytes : Text) (call : Node) (x : Text) : Prop :=
  ∃ raw, blockFor (buildEntry source root bytes).info (call.span source) = some raw
    ∧ ReadBehind (builtStorage source root bytes) (sourceTables source root bytes) raw x

/-- The call stands in the `i`-th function of the source. -/
def InFunction (root : Node) (i : Nat) (source : SourceId) (call : Node) : Prop :=
  ∃ fnNode, (collectFunctions root)[i]? = some fnNode ∧ Covers fnNode (call.span source)

mutual
/-- **All calls of `TraceRay` are collected.** -/
theorem mem_collectTraceRayCalls_iff {bytes : Text} {call : Node} : ∀ {n : Node},
    call ∈ collectTraceRayCalls bytes n ↔ call.Sub n ∧ isTraceRayCall bytes call = true
  | .mk i cs => by
      unfold collectTraceRayCalls
      rw [List.mem_append, mem_collectTraceRayCallsAll_iff]
      -- the node itself, or one below a child
      constructor
      · intro h
        rcases h with h | ⟨c, hc, hsub, hcall⟩
        · split at h
          next hcall =>
            rw [List.mem_singleton.mp h]
            exact ⟨.refl, hcall⟩
          next => exact absurd h List.not_mem_nil
        · exact ⟨.child hc hsub, hcall⟩
      · intro ⟨hsub, hcall⟩
        cases hsub with
        | refl =>
            left
            rw [if_pos hcall]
            exact List.mem_singleton_self _
        | child hc hsub => exact .inr ⟨_, hc, hsub, hcall⟩

theorem mem_collectTraceRayCallsAll_iff {bytes : Text} {call : Node} : ∀ {ns : List Node},
    call ∈ collectTraceRayCallsAll bytes ns
      ↔ ∃ c ∈ ns, call.Sub c ∧ isTraceRayCall bytes call = true
  | [] => ⟨fun h => absurd h List.not_mem_nil, fun ⟨_, h, _⟩ => absurd h List.not_mem_nil⟩
  | n :: ns => by
      unfold collectTraceRayCallsAll
      rw [List.mem_append, mem_collectTraceRayCalls_iff, mem_collectTraceRayCallsAll_iff,
        List.exists_mem_cons_iff]
end

/-- A call of `TraceRay` has bytes: those of the name. -/
theorem lo_lt_hi_of_call {root call : Node} {bytes : Text} (hw : root.wellSpanned = true)
    (hcall : call ∈ collectTraceRayCalls bytes root) : call.info.lo < call.info.hi := by
  have ⟨hsub, hname⟩ := mem_collectTraceRayCalls_iff.mp hcall
  unfold isTraceRayCall at hname
  rw [Bool.and_eq_true, beq_iff_eq, beq_iff_eq] at hname
  cases hfn : call.childByField .function with
  | none =>
      rw [hfn] at hname
      -- without a callee the text is empty, and that is not the name
      have hempty : [] = "TraceRay".toList := hname.2
      exact absurd hempty (by decide)
  | some callee =>
      rw [hfn] at hname
      have htext : callee.text bytes = "TraceRay".toList := hname.2
      refine @Node.lo_lt_hi_of_child _ _ bytes (hsub.inside hw).1 (List.mem_of_find?_eq_some hfn) ?_
      rw [htext]
      decide

section Reported

variable {root call : Node} {i : Nat} {source : SourceId} {bytes : Text} {body : Stmt}

theorem mem_liveOutAt_iff (hw : root.wellSpanned = true) (hbody : IsBody root i body)
    (hcall : call ∈ collectTraceRayCalls bytes root) (hin : InFunction root i source call)
    (x : Text) :
    x ∈ liveOutAt source root bytes call ↔ ReadBehindCall source root bytes call x := by
  obtain ⟨fnNode, f, hnode, herr, -⟩ := hbody
  obtain ⟨fnNode', hnode', hcovers⟩ := hin
  rw [hnode, Option.some.injEq] at hnode'
  subst hnode'
  unfold liveOutAt ReadBehindCall
  cases hlocated : blockFor (buildEntry source root bytes).info (call.span source) with
  | none =>
      -- no block is found: nothing is live, and there is no block to read behind
      refine ⟨fun h => absurd h (Finset.notMem_empty x), ?_⟩
      rintro ⟨raw, ⟨⟩, _⟩
  | some raw =>
      have hlive : x ∈ (computeLiveness (builtStorage source root bytes)
            (sourceTables source root bytes)).liveOut raw
          ↔ ReadBehind (builtStorage source root bytes) (sourceTables source root bytes) raw x :=
        mem_liveOut_located hw hnode herr hcovers (lo_lt_hi_of_call hw hcall) hlocated
      refine hlive.trans ⟨fun h => ⟨raw, rfl, h⟩, ?_⟩
      rintro ⟨raw', ⟨⟩, h⟩
      exact h

/-- **A call is reported exactly if more than two names are read behind its
block.** -/
theorem mem_reportedCalls_iff (hw : root.wellSpanned = true) (hbody : IsBody root i body)
    (hcall : call ∈ collectTraceRayCalls bytes root) (hin : InFunction root i source call) :
    call ∈ reportedCalls source root bytes
      ↔ MoreThan kLiveThreshold (ReadBehindCall source root bytes call) := by
  unfold reportedCalls
  rw [List.mem_filter, decide_eq_true_eq, moreThan_iff (mem_liveOutAt_iff hw hbody hcall hin)]
  exact ⟨fun h => h.2, fun h => ⟨hcall, h⟩⟩

/-- **A body that is one block is never reported.** -/
theorem not_mem_reportedCalls_of_straight (hw : root.wellSpanned = true) (hbody : IsBody root i body)
    (hbar : holdsBarrier bytes body = false) (hstraight : straight body = true)
    (hcall : call ∈ collectTraceRayCalls bytes root) (hin : InFunction root i source call) :
    call ∉ reportedCalls source root bytes := by
  have hedge := builtFunction_edge source hbody hbar
  rw [edges_of_straight 1 0 hstraight] at hedge
  rw [mem_reportedCalls_iff hw hbody hcall hin]
  intro ⟨names, hcard, hall⟩
  obtain ⟨x, hx⟩ := Finset.card_pos.mp (Nat.lt_of_le_of_lt (Nat.zero_le _) hcard)
  obtain ⟨raw, hlocated, s, ps, hleaves, -⟩ := hall x hx
  obtain ⟨fnNode, hnode, hcovers⟩ := hin
  have hgraph := (graphAround_located hw hnode hcovers (lo_lt_hi_of_call hw hcall) hlocated).2
  -- no edge leaves the block
  rw [hgraph, hedge] at hleaves
  exact absurd hleaves List.not_mem_nil

end Reported

/-! ## §3. The law. -/

/-- The names the declarations of a body declare. -/
def localNames (bytes : Text) (body : Stmt) : List Text :=
  (body.toNode none).popOrder.flatMap (declaredNames bytes)

/-- The step stores to the variable. -/
def assigns (bytes x : Text) : Step → Bool
  | .store n => n.text bytes == x
  | .value _ | .declare _ => false

/-- The step ends what the variable held. -/
def overwrites (bytes x : Text) : Step → Bool
  | .store n | .declare n => n.text bytes == x
  | .value _ => false

/-- The step reads the variable. -/
def reads (bytes x : Text) : Step → Bool
  | .value n => n.kind == .identifier && n.text bytes == x
  | .store _ | .declare _ => false

/-- Some execution assigns the variable, later evaluates the call, and then
reads the variable before anything overwrites it. -/
def Carried (bytes : Text) (body : Stmt) (call : Node) (x : Text) : Prop :=
  ∃ before a mid c gap r behind o,
    Exec (bodySteps body) (before ++ a :: (mid ++ c :: (gap ++ r :: behind))) o
      ∧ assigns bytes x a = true ∧ evaluates call c = true ∧ reads bytes x r = true
      ∧ ∀ z ∈ gap, overwrites bytes x z = false

/-- A local other than the payload, the last argument, that is live across the
call. -/
structure LiveAcross (bytes : Text) (body : Stmt) (call : Node) (x : Text) : Prop where
  declared : x ∈ localNames bytes body
  other : (argumentTexts bytes call).getLast? ≠ some x
  carried : Carried bytes body call x

/-- The law: a call is reported exactly if more than two such locals are live
across it. -/
def LiveStateLaw (source : SourceId) (root : Node) (bytes : Text) (body : Stmt) (call : Node) :
    Prop :=
  call ∈ reportedCalls source root bytes ↔ MoreThan kLiveThreshold (LiveAcross bytes body call)

/-- Decides on the statements if a variable is carried across the call. -/
def carries (bytes : Text) (body : Stmt) (call : Node) (x : Text) : Bool :=
  passes [⟨fun _ => true, assigns bytes x⟩, ⟨fun _ => true, evaluates call⟩,
    ⟨fun z => !overwrites bytes x z, reads bytes x⟩] (bodySteps body)

/-- The locals that are live across the call. -/
def liveNames (bytes : Text) (body : Stmt) (call : Node) : Finset Text :=
  (localNames bytes body).toFinset.filter fun x =>
    (argumentTexts bytes call).getLast? ≠ some x ∧ carries bytes body call x = true

theorem carries_iff {bytes : Text} {body : Stmt} {call : Node} {x : Text} :
    carries bytes body call x = true ↔ Carried bytes body call x := by
  unfold carries Carried
  rw [passes_iff]
  constructor
  · intro ⟨tr, o, hexec, before, a, rest, htr, _, ha, mid, c, rest', hrest, _, hc, gap, r, behind,
      hrest', hgap, hr, _⟩
    -- the stages split the trace at the assignment, the call and the read
    rw [htr, hrest, hrest'] at hexec
    refine ⟨before, a, mid, c, gap, r, behind, o, hexec, ha, hc, hr, fun z hz => ?_⟩
    have hkept : (!overwrites bytes x z) = true := hgap z hz
    rw [Bool.not_eq_true'] at hkept
    exact hkept
  · intro ⟨before, a, mid, c, gap, r, behind, o, hexec, ha, hc, hr, hgap⟩
    refine ⟨_, o, hexec, before, a, _, rfl, fun _ _ => rfl, ha, mid, c, _, rfl, fun _ _ => rfl, hc,
      gap, r, behind, rfl, fun z hz => ?_, hr, trivial⟩
    show (!overwrites bytes x z) = true
    rw [Bool.not_eq_true']
    exact hgap z hz

theorem mem_liveNames_iff {bytes : Text} {body : Stmt} {call : Node} (x : Text) :
    x ∈ liveNames bytes body call ↔ LiveAcross bytes body call x := by
  unfold liveNames
  rw [Finset.mem_filter, List.mem_toFinset, carries_iff]
  exact ⟨fun ⟨h, h', h''⟩ => ⟨h, h', h''⟩, fun ⟨h, h', h''⟩ => ⟨h, h', h''⟩⟩

/-- **In one block it is right exactly if nothing much is live.** -/
theorem liveStateLaw_straight {root call : Node} {i : Nat} {source : SourceId} {bytes : Text}
    {body : Stmt} (hw : root.wellSpanned = true) (hbody : IsBody root i body)
    (hbar : holdsBarrier bytes body = false) (hstraight : straight body = true)
    (hcall : call ∈ collectTraceRayCalls bytes root) (hin : InFunction root i source call) :
    LiveStateLaw source root bytes body call
      ↔ (liveNames bytes body call).card ≤ kLiveThreshold := by
  have hsilent := not_mem_reportedCalls_of_straight hw hbody hbar hstraight hcall hin
  unfold LiveStateLaw
  rw [moreThan_iff mem_liveNames_iff]
  constructor
  · -- with more of them the law would ask for a report
    intro h
    exact Nat.le_of_not_lt fun hlt => hsilent (h.mpr hlt)
  · intro h
    exact ⟨fun hmem => absurd hmem hsilent, fun hlt => absurd hlt (Nat.not_lt.mpr h)⟩

/-! ## §4. In a loop, and in a straight line. -/

/-- `int v=1;` at `lo`. -/
def declarationAt (lo : Nat) : PlainNode :=
  ⟨namedNode .declaration none ⟨lo, lo + 8⟩
    [namedNode (.other "primitive_type".toList) none ⟨lo, lo + 3⟩ [],
     namedNode .initDeclarator (some .declarator) ⟨lo + 4, lo + 7⟩
      [namedNode .identifier (some .declarator) ⟨lo + 4, lo + 5⟩ [],
       namedNode .numberLiteral (some .value) ⟨lo + 6, lo + 7⟩ []]], rfl, rfl⟩

/-- `TraceRay(s,0,1,0,1,0,r,p)` at `lo`. -/
def traceAt (lo : Nat) : Node :=
  namedNode .callExpression none ⟨lo, lo + 25⟩
    [namedNode .identifier (some .function) ⟨lo, lo + 8⟩ [],
     namedNode .argumentList (some .arguments) ⟨lo + 8, lo + 25⟩
      [namedNode .identifier none ⟨lo + 9, lo + 10⟩ [],
       namedNode .numberLiteral none ⟨lo + 11, lo + 12⟩ [],
       namedNode .numberLiteral none ⟨lo + 13, lo + 14⟩ [],
       namedNode .numberLiteral none ⟨lo + 15, lo + 16⟩ [],
       namedNode .numberLiteral none ⟨lo + 17, lo + 18⟩ [],
       namedNode .numberLiteral none ⟨lo + 19, lo + 20⟩ [],
       namedNode .identifier none ⟨lo + 21, lo + 22⟩ [],
       namedNode .identifier none ⟨lo + 23, lo + 24⟩ []]]

/-- The call as a statement. -/
def traceStatement (lo : Nat) : PlainNode :=
  ⟨namedNode .expressionStatement none ⟨lo, lo + 26⟩ [traceAt lo], rfl, rfl⟩

/-- `x=a+b+c;` at `lo`. -/
def sumStatement (lo : Nat) : PlainNode :=
  ⟨namedNode .expressionStatement none ⟨lo, lo + 8⟩
    [namedNode .assignmentExpression none ⟨lo, lo + 7⟩
      [namedNode .identifier (some .left) ⟨lo, lo + 1⟩ [],
       namedNode .binaryExpression (some .right) ⟨lo + 2, lo + 7⟩
        [namedNode .binaryExpression (some .left) ⟨lo + 2, lo + 5⟩
          [namedNode .identifier (some .left) ⟨lo + 2, lo + 3⟩ [],
           namedNode .identifier (some .right) ⟨lo + 4, lo + 5⟩ []],
         namedNode .identifier (some .right) ⟨lo + 6, lo + 7⟩ []]]], rfl, rfl⟩

/-- The declarations of `a`, `b` and `c`, and more behind them. -/
def threeLocals (rest : Stmts) : Stmts :=
  .cons (.simple (declarationAt 9)) (.cons (.simple (declarationAt 17))
    (.cons (.simple (declarationAt 25)) rest))

def threeNames : Finset Text := {"a".toList, "b".toList, "c".toList}

def loopText : Text :=
  "void f(){int a=1;int b=2;int c=3;while(k){TraceRay(s,0,1,0,1,0,r,p);x=a+b+c;}}".toList

def loopBody : Stmt :=
  .compound ⟨8, 78⟩ (threeLocals (.cons (.whileLoop ⟨33, 77⟩ (identCondition 38)
    (.compound ⟨41, 77⟩
      (.cons (.simple (traceStatement 42)) (.cons (.simple (sumStatement 68)) .nil)))) .nil))

def loopTree : Node := singleFunction loopBody declaratorOfF 78

def straightText : Text :=
  "void f(){int a=1;int b=2;int c=3;TraceRay(s,0,1,0,1,0,r,p);x=a+b+c;}".toList

def straightBody : Stmt :=
  .compound ⟨8, 68⟩ (threeLocals
    (.cons (.simple (traceStatement 33)) (.cons (.simple (sumStatement 59)) .nil)))

def straightTree : Node := singleFunction straightBody declaratorOfF 68

end ShaderClippy.Rules.LiveState
