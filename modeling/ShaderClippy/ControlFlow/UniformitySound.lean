/-
  ShaderClippy.ControlFlow.UniformitySound

  **WHAT THE ORACLE CALLS UNIFORM IS THE SAME IN ALL LANES.**

  The law: when the lanes of a wave start with the same values for all names
  but the parameters with a divergent semantic, every expression that
  `of_expr` calls `Uniform`, and the condition of every branch that
  `of_branch` calls `Uniform`, has one value in all lanes that evaluate it
  together. It holds of steady bodies; a local that a divergent value is
  copied to breaks it.
-/
import ShaderClippy.ControlFlow.CfgQuery
import ShaderClippy.ControlFlow.LaneSecurity
import ShaderClippy.ControlFlow.Soundness

namespace ShaderClippy.ControlFlow

open Lockstep

/-! ## §1. The parameters of a function. -/

/-- The parameters with a divergent semantic: lanes enter with values of
their own for these. -/
def laneParameters (bytes : Text) (fnNode : Node) : List Text :=
  fnNode.popOrder.flatMap fun n =>
    if (n.kind = .parameterDeclaration || n.kind = .parameter)
        && mentionsDivergentSv (n.text bytes) then
      (rootName bytes n).toList
    else []

/-- Names that are not passed over as semantics. -/
def ordinaryName (x : Text) : Bool :=
  !x.isEmpty && !Text.startsWith x "SV_".toList && !Text.startsWith x "TEXCOORD".toList
    && decide (x ≠ "POSITION".toList)

mutual
/-- The name a declarator is about is an identifier of it. -/
theorem rootName_sub {bytes x : Text} : ∀ (n : Node), rootName bytes n = some x →
    ∃ m : Node, m.Sub n ∧ m.kind = .identifier ∧ m.text bytes = x
  | .mk i cs, h => by
      unfold rootName at h
      split at h
      · exact ⟨_, .refl, ‹_›, Option.some.inj h⟩
      · obtain ⟨c, hc, m, hm, hmk⟩ := rootOf_sub .argument cs h
        exact ⟨m, .child hc hm, hmk⟩
      · obtain ⟨c, hc, m, hm, hmk⟩ := rootOf_sub .argument cs h
        exact ⟨m, .child hc hm, hmk⟩
      · obtain ⟨c, hc, m, hm, hmk⟩ := rootOfFirst_sub cs h
        exact ⟨m, .child hc hm, hmk⟩
      · obtain ⟨c, hc, m, hm, hmk⟩ := rootOf_sub .declarator cs h
        exact ⟨m, .child hc hm, hmk⟩

theorem rootOf_sub {bytes x : Text} (f : Field) : ∀ (ns : List Node),
    rootOf bytes f ns = some x →
      ∃ c ∈ ns, ∃ m : Node, m.Sub c ∧ m.kind = .identifier ∧ m.text bytes = x
  | [], h => by
      unfold rootOf at h
      cases h
  | n :: ns, h => by
      unfold rootOf at h
      split at h
      · exact ⟨n, List.mem_cons_self .., rootName_sub n h⟩
      · obtain ⟨c, hc, hm⟩ := rootOf_sub f ns h
        exact ⟨c, List.mem_cons_of_mem _ hc, hm⟩

theorem rootOfFirst_sub {bytes x : Text} : ∀ (ns : List Node),
    rootOfFirst bytes ns = some x →
      ∃ c ∈ ns, ∃ m : Node, m.Sub c ∧ m.kind = .identifier ∧ m.text bytes = x
  | [], h => by
      unfold rootOfFirst at h
      cases h
  | n :: ns, h => by
      unfold rootOfFirst at h
      split at h
      · exact ⟨n, List.mem_cons_self .., rootName_sub n h⟩
      · obtain ⟨c, hc, hm⟩ := rootOfFirst_sub ns h
        exact ⟨c, List.mem_cons_of_mem _ hc, hm⟩
end

/-- A parameter with a divergent semantic is a seed. -/
theorem laneParameters_seeded {root fnNode : Node} {bytes x : Text} (hfn : fnNode.Sub root)
    (hx : x ∈ laneParameters bytes fnNode) (hname : ordinaryName x = true) :
    x ∈ seedDivergentParameters bytes root := by
  obtain ⟨p, hp, hx⟩ := List.mem_flatMap.mp hx
  have hp' := (mem_popOrder root).mpr (((mem_popOrder fnNode).mp hp).trans hfn)
  refine List.mem_flatMap.mpr ⟨p, hp', ?_⟩
  split at hx
  · rename_i hparam
    obtain ⟨hkind, hsv⟩ := (Bool.and_eq_true _ _).mp hparam
    rw [if_pos hkind, if_pos hsv]
    obtain ⟨m, hm, hmk, hmx⟩ := rootName_sub p (Option.mem_toList.mp hx)
    refine List.mem_filterMap.mpr ⟨m, List.mem_filter.mpr ⟨(mem_popOrder p).mpr hm,
      decide_eq_true hmk⟩, ?_⟩
    show (if ordinaryName (m.text bytes) = true then some (m.text bytes) else none) = some x
    rw [hmx, if_pos hname]
  · exact absurd hx List.not_mem_nil

/-! ## §2. The law. -/

/-- **Uniform means the same in all lanes.** -/
def UniformityLaw {ι V : Type} (M : Machine ι V) (source : SourceId) (bytes : Text)
    (root fnNode : Node) (body : Stmts) : Prop :=
  ∀ (fuel : Nat) (mask : Mask ι) (w : Wave ι Text V),
    (∀ l m x, mask l = true → mask m = true → x ∉ laneParameters bytes fnNode →
      w l x = w m x) →
    ∀ e ∈ (execBody M bytes fuel body mask w).events,
      ((analyseUniformity root bytes).ofExpr (e.label.span source) = .uniform → e.Agrees)
        ∧ ∀ branch cond : Node, branch.Sub fnNode → isBranch branch = true →
          branchCondition branch = some cond → cond.span source = e.label.span source →
          (analyseUniformity root bytes).ofBranch (branch.span source) = .uniform → e.Agrees

/-- What of_expr calls uniform is not divergent. -/
theorem trusted_ofExpr {root n : Node} {bytes : Text} (source : SourceId)
    (hw : root.wellSpanned = true) (hsh : root.shaped = true) (hn : n.Sub root) :
    Trusted (fun m => (analyseUniformity root bytes).ofExpr (m.span source) = .uniform)
      (seedDivergentParameters bytes root) bytes n := by
  intro m hm hnamed hu
  rw [ofExpr_eq hw hsh (hm.trans hn) hnamed] at hu
  unfold divergentNode
  rw [hu]
  rfl

/-- **Steady bodies are sound.**  `hname`: the parameters with a divergent
semantic have names the analyzer does not take for semantics. -/
theorem uniformity_sound {ι V : Type} {M : Machine ι V} {source : SourceId} {bytes : Text}
    {root fnNode : Node} {span : ByteSpan} {body : Stmts} {f : Option Field}
    (hw : root.wellSpanned = true) (hsh : root.shaped = true) (hfn : fnNode.Sub root)
    (hbody : functionBody fnNode = some ((Stmt.compound span body).toNode f))
    (hname : ∀ x ∈ laneParameters bytes fnNode, ordinaryName x = true)
    (hst : steadyFrom M.toDialect (seedDivergentParameters bytes root) bytes Context.top false
      body = true) :
    UniformityLaw M source bytes root fnNode body := by
  intro fuel mask w hentry e he
  have hsub := (functionBody_sub hbody).trans hfn
  have hgathered : Gathered (SharedName (seedDivergentParameters bytes root)) mask w := by
    intro l m hl hm x hx
    refine hentry l m x hl hm fun hmem => ?_
    have hseed := laneParameters_seeded hfn hmem (hname x hmem)
    have hx' : decide (classifyIdentifier _ x = .divergent) = false := hx
    unfold classifyIdentifier at hx'
    rw [if_pos (List.contains_iff_mem.mpr hseed)] at hx'
    cases hx'
  have hsecure : Secure (SharedName (seedDivergentParameters bytes root))
      (fun m => (analyseUniformity root bytes).ofExpr (m.span source) = .uniform) mask Context.top
      (SharedName (seedDivergentParameters bytes root)) (execBody M bytes fuel body) := by
    unfold execBody
    exact secure_from (fun n _ h => by cases n; exact h) body
      (trusted_ofExpr source hw hsh hsub).child hst (fun _ _ _ _ _ => rfl)
      (Secure.skip fun _ h => h)
  have hpost := hsecure mask w (fun _ h => h) hgathered
  refine ⟨hpost.good e he, fun branch cond hbsub hb hcond hspan hu => hpost.good e he ?_⟩
  -- the class of the condition is filed under its span as well
  have hclass := (ofBranch_eq hw hsh (hbsub.trans hfn) hb hcond).symm.trans hu
  have hnamed : cond.info.named = true := by
    cases hn : cond.info.named with
    | true => rfl
    | false =>
        rw [classify_anonymous hn] at hclass
        cases hclass
  show (analyseUniformity root bytes).ofExpr (e.label.span source) = .uniform
  rw [← hspan, ofExpr_eq hw hsh (((branchCondition_sub hcond).trans hbsub).trans hfn) hnamed]
  exact hclass

/-! ## §3. Runs. -/

/-- A machine on numbers whose operators pass on their last operand, for two
lanes. -/
def copyMachine : Machine Bool Nat where
  short _ := false
  outs _ := []
  laneFree _ := false
  literal _ _ := 0
  apply _ vs := (vs.getLast?.join).getD 0
  proceeds _ _ := true
  written _ _ _ vs := (vs.getLast?.join).getD 0
  call _ _ _ _ := 0
  callWritten _ _ _ _ _ _ := 0
  truth v := decide (v ≠ 0)
  labelled _ _ := false
  call_laneFree _ h := nomatch h
  callWritten_laneFree _ h := nomatch h

/-- A one-letter identifier at `lo`. -/
def letter (f : Option Field) (lo : Nat) : Node := namedNode .identifier f ⟨lo, lo + 1⟩ []

/-- `uint t:SV_GroupIndex` at `lo`. -/
def groupIndexParameter (lo : Nat) : Node :=
  namedNode .parameterDeclaration none ⟨lo, lo + 20⟩
    [namedNode (.other "primitive_type".toList) none ⟨lo, lo + 4⟩ [],
     letter (some .declarator) (lo + 5),
     namedNode (.other "semantics".toList) none ⟨lo + 6, lo + 20⟩
       [namedNode .identifier none ⟨lo + 7, lo + 20⟩ []]]

/-- `uint x=y;` at `lo`. -/
def letterDeclaration (lo : Nat) : PlainNode :=
  ⟨namedNode .declaration none ⟨lo, lo + 9⟩
    [namedNode (.other "primitive_type".toList) none ⟨lo, lo + 4⟩ [],
     namedNode .initDeclarator (some .declarator) ⟨lo + 5, lo + 8⟩
       [letter (some .declarator) (lo + 5), letter (some .value) (lo + 7)]], rfl, rfl⟩

/-- A function that branches on a copy of its lane index. -/
def copied : Text := "void f(uint t:SV_GroupIndex){uint x=t;if(x)y;}".toList

/-- The body of `copied`. -/
def copiedBody : Stmts :=
  .cons (.simple (letterDeclaration 29))
    (.cons (.ifThen ⟨38, 45⟩ (identCondition 40) (.simple (identStatement 43))) .nil)

/-- The function of `copied`. -/
def copiedFunction : Node :=
  namedNode .functionDefinition none ⟨0, 46⟩
    [namedNode .functionDeclarator (some .declarator) ⟨5, 28⟩
       [letter (some .declarator) 5, groupIndexParameter 7],
     (Stmt.compound ⟨28, 46⟩ copiedBody).toNode (some .body)]

def copiedTree : Node := namedNode .translationUnit none ⟨0, 46⟩ [copiedFunction]

/-- The two lanes enter with the indices 0 and 1. -/
def twoLanes : Wave Bool Text Nat := fun l x => if x = "t".toList ∧ l = true then 1 else 0

/-- The lanes enter alike but for `t`. -/
theorem twoLanes_alike {x : Text} (hx : x ≠ "t".toList) (l m : Bool) :
    twoLanes l x = twoLanes m x := by
  unfold twoLanes
  rw [if_neg fun h => hx h.1, if_neg fun h => hx h.1]

/-- **A copy of a divergent value is called uniform.** -/
theorem copied_diverges :
    copiedTree.wellSpanned = true ∧ copiedTree.shaped = true ∧ copiedFunction.Sub copiedTree
      ∧ functionBody copiedFunction
        = some ((Stmt.compound ⟨28, 46⟩ copiedBody).toNode (some .body))
      ∧ ¬ UniformityLaw copyMachine ⟨1⟩ copied copiedTree copiedFunction copiedBody := by
  refine ⟨by decide +kernel, by decide +kernel, .child (List.mem_singleton_self _) .refl, rfl, fun h => ?_⟩
  have hlane : laneParameters copied copiedFunction = ["t".toList] := by decide +kernel
  -- both lanes evaluate `(x)`, one to 0 and the other to 1
  have hevent : ∃ e ∈ (execBody copyMachine copied 0 copiedBody (fun _ => true) twoLanes).events,
      (e.label.info.lo = 40 ∧ e.label.info.hi = 43) ∧ e.active false = true ∧ e.active true = true
        ∧ e.value false = 0 ∧ e.value true = 1 := by decide +kernel
  obtain ⟨e, he, ⟨hlo, hhi⟩, hf, ht, hvf, hvt⟩ := hevent
  have hu : (analyseUniformity copiedTree copied).ofExpr (e.label.span ⟨1⟩) = .uniform := by
    unfold Node.span
    rw [hlo, hhi]
    decide +kernel
  have hagree := (h 0 (fun _ => true) twoLanes (fun l m x _ _ hx => twoLanes_alike
    (fun hxt => hx (by rw [hlane, hxt]; exact List.mem_singleton_self _)) l m) e he).1 hu
  have := hagree false true hf ht
  rw [hvf, hvt] at this
  cases this

/-- A function that branches on its lane index, and below on a parameter. -/
def guarded : Text := "void f(uint t:SV_GroupIndex,uint n){if(t){uint x=n;if(x)y;}}".toList

/-- The inner block of `guarded`. -/
def guardedBlock : Stmts :=
  .cons (.simple (letterDeclaration 42))
    (.cons (.ifThen ⟨51, 58⟩ (identCondition 53) (.simple (identStatement 56))) .nil)

/-- The body of `guarded`. -/
def guardedBody : Stmts :=
  .cons (.ifThen ⟨36, 59⟩ (identCondition 38) (.compound ⟨41, 59⟩ guardedBlock)) .nil

/-- The function of `guarded`. -/
def guardedFunction : Node :=
  namedNode .functionDefinition none ⟨0, 60⟩
    [namedNode .functionDeclarator (some .declarator) ⟨5, 35⟩
       [letter (some .declarator) 5, groupIndexParameter 7,
        namedNode .parameterDeclaration none ⟨28, 34⟩
          [namedNode (.other "primitive_type".toList) none ⟨28, 32⟩ [],
           letter (some .declarator) 33]],
     (Stmt.compound ⟨35, 60⟩ guardedBody).toNode (some .body)]

def guardedTree : Node := namedNode .translationUnit none ⟨0, 60⟩ [guardedFunction]

/-- The law of `uniformity_sound` where only some lanes declare a local. -/
theorem uniformity_sound_guarded :
    UniformityLaw copyMachine ⟨1⟩ guarded guardedTree guardedFunction guardedBody :=
  uniformity_sound (by decide +kernel) (by decide +kernel) (.child (List.mem_singleton_self _) .refl) rfl
    (by decide +kernel) (by decide +kernel)

example : (analyseUniformity guardedTree guarded).ofBranch ⟨⟨1⟩, ⟨51, 58⟩⟩ = .uniform := by
  decide +kernel

end ShaderClippy.ControlFlow
