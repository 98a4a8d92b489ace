/-
  ShaderClippy.Rules.OperandEffects

  **HOW OFTEN AN OPERAND IS EVALUATED AFTER A FIX** of `cross-with-up-vector` or
  `lerp-extremes`.

  The closed form of a cross product has the text of the vector twice, an
  extreme of `lerp` has one endpoint and not the other, and both fixes are
  machine-applicable whatever the operands do. So the effects of the operands
  are kept exactly if the operands that are not written once have none
  (`keepsEffects_iff`).

  This is about what is READ: the closed form is an expression for every
  operand (`reparse_crossRead`), also where a swizzle or a minus binds to a part
  of the operand.
-/
import ShaderClippy.Rules.OperandStructure
import ShaderClippy.Rules.PurityOracle
import ShaderClippy.Hlsl.Abutting

namespace ShaderClippy.Rules

open Hlsl
open Munch (render)

variable {isType : Text → Bool} {F : Functions}

/-! ## §1. The closed form, as it is read. -/

/-- What is read for `signed_swizzle`. -/
def signedRead (isType : Text → Bool) (v : Expr) (lead : Text) (componentSign : Int) (sw : Char) : Expr :=
  if componentSign < 0 then ((v.withLead []).memberAtEnd isType sw).minusAtStart lead
  else (v.withLead lead).memberAtEnd isType sw

/-- What is read for `build_replacement`. -/
def crossRead (isType : Text → Bool) (lead : Text) (v : Expr) (axis : Nat) (s : Int) : Expr :=
  closedNode isType lead (signedRead isType v) axis s

theorem render_signedRead (v : Expr) (lead : Text) (s : Int) (c : Char) :
    render (signedRead isType v lead s c).toks = lead ++ signedSwizzle (nodeText v) s c := by
  rw [signedRead, signedSwizzle]
  split
  · rw [render_minusAtStart, render_memberAtEnd, render_toks, lead_withLead, nodeText_withLead]
    rfl
  · rw [render_memberAtEnd, render_toks, lead_withLead, nodeText_withLead, List.nil_append,
      List.append_assoc]

/-- It is the text of the edit. -/
theorem nodeText_crossRead (lead : Text) (v : Expr) {axis : Nat} (haxis : axis < 3) (sign : Int)
    (flipSign : Bool) :
    nodeText (crossRead isType lead v axis ((if flipSign then -1 else 1) * sign))
      = buildReplacement (nodeText v) axis sign flipSign :=
  nodeText_closedNode (render_signedRead v) lead haxis sign flipSign

theorem component_signedRead {v : Expr} (hv : Part isType v) (hle : 1 ≤ v.level isType) {lead : Text}
    (hlead : Blank lead) {c : Char} (hc : c ∈ kSwizzle) (s : Int) :
    Component isType (signedRead isType v lead s c) := by
  have hpart : ∀ lead, Blank lead → Part isType ((v.withLead lead).memberAtEnd isType c) := by
    intro lead hlead
    refine part_memberAtEnd ⟨(wellFormed_withLead lead v).mpr hv.1, ?_⟩ hc
    rw [toks_withLead]
    exact lexOK_setLead hlead hv.2
  have hlevel : ∀ lead, 1 ≤ ((v.withLead lead).memberAtEnd isType c).level isType := by
    intro lead
    refine le_level_memberAtEnd (by decide) ?_ c
    rwa [level_withLead]
  rw [signedRead]
  split
  · exact component_of_part (part_minusAtStart (hpart [] blank_nil) hlead)
      (le_level_minusAtStart (by decide) (hlevel []) lead)
  · exact component_of_part (hpart lead hlead) (hlevel lead)

/-- **The closed form is a part of its own, whatever the operand is.** -/
theorem part_crossRead {v : Expr} (hv : Part isType v) (hle : 1 ≤ v.level isType) {lead : Text}
    (hlead : Blank lead) (axis : Nat) (s : Int) : Part isType (crossRead isType lead v axis s) :=
  part_closedNode (fun _ hlead s _ hc => component_signedRead hv hle hlead hc s) hlead axis s

/-! ## §2. Its effects. -/

theorem effects_callNode (lead : Text) {l : Token} (args : Expr) (r : Token) :
    (callNode isType ⟨lead, kFloat3⟩ l args r).effects F isType = args.effects F isType := by
  have hpure : F.effectful kFloat3 = false := F.vector3_pure _ (by decide)
  have htext : nodeText (.atom ⟨lead, kFloat3⟩) = kFloat3 := rfl
  rw [callNode]
  split
  · rfl
  · rw [Expr.effects, Functions.onCall, htext, hpure]
    simp [Expr.effects]

theorem effects_triple (a b c : Expr) :
    (triple a b c).effects F isType
      = a.effects F isType ++ b.effects F isType ++ c.effects F isType := by
  have hcomma : binaryEffect isType comma = [] := binaryEffect_comma rfl
  rw [triple, Expr.effects, Expr.effects, hcomma, List.append_nil, List.append_nil]

theorem effects_signedRead (v : Expr) (lead : Text) (s : Int) (c : Char) :
    (v.effects F isType).Sublist ((signedRead isType v lead s c).effects F isType) := by
  have hmember : ∀ lead, ((v.withLead lead).memberAtEnd isType c).effects F isType = v.effects F isType :=
    fun lead => (effects_memberAtEnd _ c).trans (effects_withLead lead v)
  rw [signedRead]
  split
  · rw [← hmember []]
    exact effects_minusAtStart lead _
  · rw [hmember]

/-- **The closed form does everything twice.** -/
theorem count_crossRead (lead : Text) (v : Expr) (axis : Nat) (s : Int) (k : Effect) :
    2 * (v.effects F isType).count k ≤ ((crossRead isType lead v axis s).effects F isType).count k := by
  have hread : ∀ lead s c, (v.effects F isType).count k
      ≤ ((signedRead isType v lead s c).effects F isType).count k :=
    fun lead s c => (effects_signedRead v lead s c).count_le k
  rw [crossRead, closedNode, effects_callNode, effects_triple, List.count_append, List.count_append]
  unfold closedParts
  split
  · have h1 := hread [' '] s 'z'
    have h2 := hread [' '] (-s) 'y'
    dsimp only
    omega
  · have h1 := hread [] (-s) 'z'
    have h2 := hread [' '] s 'x'
    dsimp only
    omega
  · have h1 := hread [] s 'y'
    have h2 := hread [' '] (-s) 'x'
    dsimp only
    omega

/-! ## §3. The unit vector. -/

theorem effects_component {e : Expr} (h : classifyComponent isType e ≠ .other) :
    e.effects F isType = [] := by
  have hnumber : ∀ {e : Expr} {text : Text}, numberOf isType e = some text → e.effects F isType = [] := by
    intro e text he
    have ⟨t, heq, _⟩ := numberOf_spec he
    rw [heq, Expr.effects]
  unfold classifyComponent at h
  split at h
  case h_1 t ht => exact hnumber ht
  case h_2 =>
    split at h
    case h_1 op operand _ =>
      split at h
      case isTrue => exact absurd rfl h
      case isFalse hop =>
        split at h
        case h_1 => exact absurd rfl h
        case h_2 t ht =>
          have hminus : unaryEffect isType op = [] := by
            rw [unaryEffect, kind, not_not.mp hop]
            rfl
          rw [Expr.effects, hminus, hnumber ht]
          rfl
    case h_2 => exact absurd rfl h

theorem effects_axisLoop {args : List Expr} {i : Nat} {info : Option AxisInfo} {out : AxisInfo}
    (h : axisLoop isType i info args = some out) : ∀ a ∈ args, a.effects F isType = [] := by
  induction args generalizing i info with
  | nil => exact List.forall_mem_nil _
  | cons c rest ih =>
      have hc : classifyComponent isType c ≠ .other := by
        intro hother
        rw [axisLoop, hother] at h
        cases h
      have hrest : ∃ i info, axisLoop isType i info rest = some out := by
        unfold axisLoop at h
        split at h
        · exact ⟨_, _, h⟩
        · split at h
          · cases h
          · exact ⟨_, _, h⟩
        · split at h
          · cases h
          · exact ⟨_, _, h⟩
        · cases h
      obtain ⟨_, _, hrest⟩ := hrest
      intro a ha
      rcases List.mem_cons.mp ha with rfl | ha
      · exact effects_component hc
      · exact ih hrest a ha

/-- A constant unit vector does nothing. -/
theorem effects_axis {e : Expr} (he : Part isType e) {info : AxisInfo}
    (h : axisOfConstructor isType e = some info) : e.effects F isType = [] := by
  rw [axisOfConstructor, Option.bind_eq_some_iff] at h
  obtain ⟨call, hcall, h⟩ := h
  split at h
  case isTrue => cases h
  case isFalse hctor =>
    split at h
    case isTrue => cases h
    case isFalse =>
      have htrue : isFloat3Ctor (nodeText call.function) = true := by simpa using hctor
      have hmem : nodeText call.function ∈ vector3Names := by
        simp only [isFloat3Ctor, Bool.or_eq_true, beq_iff_eq] at htrue
        rcases htrue with (((h | h) | h) | h) | h <;> rw [h] <;> decide
      have hwords : (vector3Names.all fun w => w.head?.any isWordStart && w.all isWordChar) = true := rfl
      have hword := List.all_eq_true.mp hwords _ hmem
      rw [Bool.and_eq_true] at hword
      rw [effects_call he hcall (isToken_word hword.1 hword.2) rfl (F.vector3_pure _ hmem),
        List.flatMap_eq_nil_iff]
      exact effects_axisLoop h

/-! ## §4. What the rules match. -/

/-- The fixes of `cross-with-up-vector` and of `lerp-extremes` at a node. -/
def crossOrLerpFixes (isType : Text → Bool) (node : Expr) : List OperandFix :=
  (matchCross isType node).toList.map (fun m => .cross m.1 m.2.1 m.2.2)
    ++ (matchLerp isType node).map (fun m => .lerp m.1 m.2)

/-- A call of `cross` with a constant unit vector on one side. -/
structure CrossCall (isType : Text → Bool) (node v : Expr) : Prop where
  part : Part isType v
  level : 1 ≤ v.level isType
  effects : ∀ F : Functions, node.effects F isType = v.effects F isType
  operands : v ∈ operands node ∧ ∀ x ∈ operands node, x = v ∨ ∀ F : Functions, x.effects F isType = []

theorem matchCross_spec {node v : Expr} (hnode : Part isType node) {info : AxisInfo} {flipSign : Bool}
    (hm : matchCross isType node = some (v, info, flipSign)) : CrossCall isType node v := by
  -- the two sides, in either order
  have hsides : ∃ axis info args, callTo kCrossName node = some args
      ∧ (args = [v, axis] ∨ args = [axis, v]) ∧ axisOfConstructor isType axis = some info := by
    unfold matchCross at hm
    split at hm
    case h_1 arg0 arg1 hcall =>
      split at hm
      case h_1 x hx =>
        cases hm
        exact ⟨arg1, info, _, hcall, Or.inl rfl, hx⟩
      case h_2 =>
        obtain ⟨x, hx, heq⟩ := Option.map_eq_some_iff.mp hm
        cases heq
        exact ⟨arg0, info, _, hcall, Or.inr rfl, hx⟩
    case h_2 => cases hm
  obtain ⟨axis, info, args, hcallTo, hargs, haxis⟩ := hsides
  have hspec := callTo_spec hnode hcallTo
  rw [callTo, Option.bind_eq_some_iff] at hcallTo
  obtain ⟨call, hcall, hname⟩ := hcallTo
  split at hname
  case isFalse => cases hname
  case isTrue hcross =>
    cases hname
    have hv : v ∈ call.args := by
      rcases hargs with h | h <;> simp [h]
    have hnone : ∀ F : Functions, axis.effects F isType = [] := by
      intro F
      have haxisMem : axis ∈ call.args := by
        rcases hargs with h | h <;> simp [h]
      exact effects_axis (hspec axis haxisMem).1 haxis
    have hoperands : operands node = call.args := by rw [operands, hcall]; rfl
    refine ⟨(hspec v hv).1, (hspec v hv).2, fun F => ?_, by rw [hoperands]; exact hv, ?_⟩
    · have hword : Munch.IsToken rules kCrossName := isToken_word rfl rfl
      rw [effects_call hnode hcall hword hcross F.cross_pure]
      rcases hargs with h | h <;> simp [h, hnone F]
    · rw [hoperands]
      intro x hx
      rcases hargs with h | h <;> rw [h] at hx <;> simp at hx <;> grind

/-- **A lerp call does what its arguments do**, and the endpoint is one of
them. -/
theorem matchLerp_spec {node result : Expr} (hnode : Part isType node) {isZero : Bool}
    (hm : (result, isZero) ∈ matchLerp isType node) :
    result ∈ operands node
      ∧ ∀ F : Functions, node.effects F isType = (operands node).flatMap (Expr.effects F isType) := by
  rw [matchLerp, List.mem_filterMap] at hm
  obtain ⟨⟨a, b, t⟩, hmem, hfire⟩ := hm
  unfold lerpMatches at hmem
  split at hmem
  case h_1 => cases hmem
  case h_2 call hcall =>
    split at hmem
    case isFalse => cases hmem
    case isTrue hname =>
      have hoperands : operands node = call.args := by rw [operands, hcall]; rfl
      obtain ⟨name, hfunction, _, hbody⟩ := identifierOf_spec hname
      have htext : nodeText call.function = kLerpName := by
        rw [hfunction, hbody, nodeText]
        simp [Expr.toks, setLead, Munch.Lexeme.text]
      rw [hoperands]
      constructor
      · obtain ⟨m, hsub, hm⟩ := List.mem_filterMap.mp hmem
        have hsub := (List.mem_sublistsLen.mp hsub).1
        split at hm
        case h_1 =>
          obtain ⟨_, _, heq⟩ := Option.map_eq_some_iff.mp hm
          cases heq
          simp only at hfire
          split at hfire
          · cases hfire
            exact hsub.subset (by simp)
          · split at hfire
            · cases hfire
              exact hsub.subset (by simp)
            · cases hfire
        case h_2 => cases hm
      · intro F
        have hword : Munch.IsToken rules kLerpName := isToken_word rfl rfl
        exact effects_call hnode hcall hword htext F.lerp_pure

/-! ## §5. Reading the result. -/

/-- The text of a part reads as the part. -/
theorem parse_nodeText {e : Expr} (h : Part isType e) :
    parseText isType (nodeText e) = some (e.withLead []) := by
  refine parseText_iff.mpr ⟨(wellFormed_withLead [] e).mpr h.1, ?_, [], nofun, ?_⟩
  · rw [toks_withLead]
    exact lexOK_setLead blank_nil h.2
  · rw [toks_withLead, List.append_nil, nodeText]

/-- **A fix of a cross product can always be read**, in every place. -/
theorem reparse_crossRead {s : Text} {c : Ctx} {node v : Expr}
    (h : parseText isType s = some (c.plug node)) {info : AxisInfo} {flipSign : Bool}
    (hm : matchCross isType node = some (v, info, flipSign)) (source : SourceId) :
    parseText isType (applyFix s ((OperandFix.cross v info flipSign).fix source c node))
      = some (c.plug (crossRead isType node.lead v info.axis ((if flipSign then -1 else 1) * info.sign))) := by
  have ⟨hc, hnode, hafter⟩ := part_of_parse h
  have hcall := matchCross_spec hnode hm
  have haxis := (part_matchCross hnode hm).2
  have hread := part_crossRead hcall.part hcall.level (blank_lead hnode.2) info.axis
    ((if flipSign then -1 else 1) * info.sign)
  have ⟨hneed, hleft, hright⟩ := stands_callNode hc hafter isWord_float3 hread
  have htext : (OperandFix.cross v info flipSign).replacement
      = nodeText (crossRead isType node.lead v info.axis ((if flipSign then -1 else 1) * info.sign)) :=
    (nodeText_crossRead node.lead v haxis info.sign flipSign).symm
  rw [OperandFix.fix, applyFix_nodeFix, htext, crossRead, reparse_iff h (lead_closedNode _ _ _ _)]
  exact ⟨hread.1, hneed, hread.2, hleft, hright⟩

/-! ## §6. The law. -/

/-- The law of a machine-applicable fix: what it writes in the place of the call
reads as an expression that has the effects of the operands, each as often as
the call has it. -/
def KeepsEffects (F : Functions) (isType : Text → Bool) (node : Expr) (f : Fix Char) : Prop :=
  f.machineApplicable = true → ∀ e ∈ f.edits, ∃ t, parseText isType e.replacement = some t
    ∧ ∀ x ∈ operands node, ∀ k ∈ x.effects F isType,
        (t.effects F isType).count k = (node.effects F isType).count k

/-- One edit, and one way to read it. -/
theorem keepsEffects_read {m : OperandFix} {t : Expr} (ht : parseText isType m.replacement = some t)
    (source : SourceId) (c : Ctx) (node : Expr) :
    KeepsEffects F isType node (m.fix source c node)
      ↔ ∀ x ∈ operands node, ∀ k ∈ x.effects F isType,
          (t.effects F isType).count k = (node.effects F isType).count k := by
  constructor
  · intro hkeeps
    have ⟨t', ht', hcount⟩ := hkeeps rfl _ (List.mem_singleton.mpr rfl)
    have heq : t' = t := Option.some.inj (ht'.symm.trans ht)
    rwa [heq] at hcount
  · intro hcount _ e he
    cases List.mem_singleton.mp he
    exact ⟨t, ht, hcount⟩

theorem not_keepsEffects {node : Expr} {m : OperandFix} {source : SourceId} {c : Ctx} {t x : Expr}
    {k : Effect} (ht : parseText isType m.replacement = some t) (hx : x ∈ operands node)
    (hk : k ∈ x.effects F isType)
    (hne : (t.effects F isType).count k ≠ (node.effects F isType).count k) :
    ¬ KeepsEffects F isType node (m.fix source c node) := by
  rw [keepsEffects_read ht]
  intro hcount
  exact hne (hcount x hx k hk)

/-- The operands that the fix does not write exactly once. -/
def OperandFix.uneven (node : Expr) : OperandFix → List Expr
  | .cross v _ _ => [v]
  | .lerp result _ => (operands node).erase result
  | _ => []

/-- Of several operands, one alone does what all of them do exactly if the
others do nothing. -/
theorem count_alone_iff {eff : Expr → List Effect} {args : List Expr} {kept : Expr}
    (hkept : kept ∈ args) :
    (∀ x ∈ args, ∀ k ∈ eff x, (eff kept).count k = (args.flatMap eff).count k)
      ↔ ∀ x ∈ args.erase kept, eff x = [] := by
  have hsplit : ∀ k, (args.flatMap eff).count k
      = (eff kept).count k + ((args.erase kept).flatMap eff).count k := by
    intro k
    have hperm := (List.perm_cons_erase hkept).flatMap_right eff
    rw [hperm.count_eq, List.flatMap_cons, List.count_append]
  constructor
  · intro h x hx
    rw [List.eq_nil_iff_forall_not_mem]
    intro k hk
    have hcount := h x (List.mem_of_mem_erase hx) k hk
    have hpos : 0 < ((args.erase kept).flatMap eff).count k :=
      List.count_pos_iff.mpr (List.mem_flatMap.mpr ⟨x, hx, hk⟩)
    rw [hsplit] at hcount
    omega
  · intro h x _ k _
    rw [hsplit, List.flatMap_eq_nil_iff.mpr h, List.count_nil, Nat.add_zero]

/-- What is done twice as often is done as often exactly if it is not done. -/
theorem keepsEffects_cross {node v : Expr} (hnode : Part isType node) {info : AxisInfo}
    {flipSign : Bool} (hm : matchCross isType node = some (v, info, flipSign)) (source : SourceId)
    (c : Ctx) :
    KeepsEffects F isType node ((OperandFix.cross v info flipSign).fix source c node)
      ↔ v.effects F isType = [] := by
  have hcall := matchCross_spec hnode hm
  have haxis := (part_matchCross hnode hm).2
  have ht := parse_nodeText (part_crossRead hcall.part hcall.level blank_nil info.axis
    ((if flipSign then -1 else 1) * info.sign))
  rw [nodeText_crossRead [] v haxis info.sign flipSign] at ht
  have hread : parseText isType (OperandFix.cross v info flipSign).replacement = some _ := ht
  rw [keepsEffects_read hread, effects_withLead, hcall.effects]
  constructor
  · intro hcount
    rw [List.eq_nil_iff_forall_not_mem]
    intro k hk
    have hpos := List.count_pos_iff.mpr hk
    have htwice := @count_crossRead isType F [] v info.axis ((if flipSign then -1 else 1) * info.sign) k
    have hsame := hcount v hcall.operands.1 k hk
    omega
  · intro hnone x hx k hk
    rcases hcall.operands.2 x hx with rfl | hempty
    · rw [hnone] at hk
      cases hk
    · rw [hempty F] at hk
      cases hk

theorem keepsEffects_lerp {node result : Expr} (hnode : Part isType node) {isZero : Bool}
    (hm : (result, isZero) ∈ matchLerp isType node) (source : SourceId) (c : Ctx) :
    KeepsEffects F isType node ((OperandFix.lerp result isZero).fix source c node)
      ↔ ∀ x ∈ (operands node).erase result, x.effects F isType = [] := by
  have ⟨hresult, heffects⟩ := matchLerp_spec hnode hm
  rw [keepsEffects_read (parse_nodeText (part_matchLerp hnode hm)), effects_withLead, heffects F]
  exact count_alone_iff hresult

/-- **A fix of `cross-with-up-vector` or `lerp-extremes` keeps the effects of the
operands exactly if those that it writes twice or not at all have none.** -/
theorem keepsEffects_iff (F : Functions) {s : Text} {c : Ctx} {node : Expr}
    (h : parseText isType s = some (c.plug node)) {m : OperandFix}
    (hm : m ∈ crossOrLerpFixes isType node) (source : SourceId) :
    KeepsEffects F isType node (m.fix source c node) ↔ ∀ x ∈ m.uneven node, x.effects F isType = [] := by
  have ⟨_, hnode, _⟩ := part_of_parse h
  simp only [crossOrLerpFixes, List.mem_append, List.mem_map, Option.mem_toList] at hm
  rcases hm with ⟨⟨v, info, flipSign⟩, hx, rfl⟩ | ⟨⟨result, isZero⟩, hx, rfl⟩
  · rw [keepsEffects_cross hnode hx, OperandFix.uneven, List.forall_mem_singleton]
  · rw [keepsEffects_lerp hnode hx, OperandFix.uneven]

/-! ## §7. Two calls. -/

/-- The functions that the purity oracle does not list. -/
def unlisted : Functions where
  effectful name := !(isAllowlistedIntrinsic name || vector3Names.contains name)
  cross_pure := by decide
  lerp_pure := by decide
  vector3_pure := by decide

/-- The call `name(a, b, c)`. -/
def callOfThree (name : Text) (a b c : Expr) : Expr :=
  .apply (.atom ⟨[], name⟩) ⟨[], ['(']⟩ (triple a b c) ⟨[], [')']⟩

/-- The call `f()`. -/
def callF : Expr := .suffix (.atom ⟨[], ['f']⟩) (.nullary ⟨[], ['(']⟩ ⟨[], [')']⟩)

/-- `lerp(f(), b, 0)` becomes `f()`. -/
theorem keepsEffects_first :
    let node := callOfThree kLerpName callF (.atom ⟨[' '], ['b']⟩) (zeroAt [' '])
    KeepsEffects unlisted (fun _ => false) node ((OperandFix.lerp callF true).fix ⟨1⟩ [] node) :=
  (keepsEffects_iff unlisted (s := "lerp(f(), b, 0)".toList) (by decide +kernel) (by decide +kernel)
    ⟨1⟩).mpr (by decide +kernel)

/-- `cross(f(), float3(0, 1, 0))` becomes `float3(-f().z, 0, f().x)`, and
`lerp(i++, b, 1)` becomes `b`. -/
theorem call_repeated_update_dropped :
    let up := callOfThree kFloat3 (zeroAt []) (.atom ⟨[' '], ['1']⟩) (zeroAt [' '])
    let cross : Expr := .apply (.atom ⟨[], kCrossName⟩) ⟨[], ['(']⟩
      (.binary callF comma (up.withLead [' '])) ⟨[], [')']⟩
    let step : Expr := .suffix (.atom ⟨[], ['i']⟩) (.step ⟨[], ['+', '+']⟩)
    let b : Expr := .atom ⟨[' '], ['b']⟩
    let lerp := callOfThree kLerpName step b (.atom ⟨[' '], ['1']⟩)
    let isType : Text → Bool := fun _ => false
    (parseText isType "cross(f(), float3(0, 1, 0))".toList = some cross
      ∧ .cross callF ⟨1, 1⟩ false ∈ crossOrLerpFixes isType cross
      ∧ ¬ KeepsEffects unlisted isType cross ((OperandFix.cross callF ⟨1, 1⟩ false).fix ⟨1⟩ [] cross))
    ∧ parseText isType "lerp(i++, b, 1)".toList = some lerp
      ∧ .lerp b false ∈ crossOrLerpFixes isType lerp
      ∧ ¬ KeepsEffects unlisted isType lerp ((OperandFix.lerp b false).fix ⟨1⟩ [] lerp) := by
  intro up cross step b lerp isType
  refine ⟨⟨by decide +kernel, by decide +kernel, ?_⟩, by decide +kernel, by decide +kernel, ?_⟩
  · refine not_keepsEffects (x := callF) (k := .call ['f']) (t := crossRead isType [] callF 1 1) ?_ ?_ ?_ ?_
    · decide +kernel
    · decide +kernel
    · decide +kernel
    · decide +kernel
  · refine not_keepsEffects (x := step) (k := .update ['+', '+']) (t := b.withLead []) ?_ ?_ ?_ ?_
    · decide +kernel
    · decide +kernel
    · decide +kernel
    · decide +kernel

end ShaderClippy.Rules
