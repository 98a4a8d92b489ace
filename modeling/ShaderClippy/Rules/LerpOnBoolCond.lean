/-
  ShaderClippy.Rules.LerpOnBoolCond

  **`lerp-on-bool-cond`**: `lerp(a, b, (float)cond)` becomes `cond ? b : a`.

  The fix writes the conditional without parentheses. Its own parts are always
  read back as they were; the conditional as a whole stays one operand exactly
  if the place of the call lets a conditional stand
  (`reparse_lerpOnBoolCond_iff`).
-/
import ShaderClippy.Hlsl.Loose
import ShaderClippy.Rules.NodeFix
import ShaderClippy.Rules.NumericLiteral
import ShaderClippy.Rules.PurityOracle

namespace ShaderClippy.Rules

open Hlsl
open Munch (LexOK Seam render)

/-! ## §1. The rule. -/

/-- `is_float_family_type`. -/
def isFloatFamilyType (name : Text) : Bool :=
  (["float", "float2", "float3", "float4", "half", "half2", "half3", "half4",
    "min16float"].map String.toList).contains name

/-- An `identifier` or a `field_expression`. -/
def isIdentifierOrField (isType : Text → Bool) : Expr → Bool
  | .atom t => kind isType t = .name
  | .suffix _ (.member ..) => true
  | _ => false

/-- `match_t_arg`: the condition, and if the operands change places. No node
has an empty text, so the checks for one are left out. -/
def matchTArg (isType : Text → Bool) (t : Expr) : Option (Expr × Bool) :=
  match t with
  | .unary (.cast _ type _) val =>
      if !isFloatFamilyType type.body then none
      else if !isIdentifierOrField isType val then none
      else some (val, false)
  | .cond cond _ thenN _ elseN =>
      match numberOf isType thenN, numberOf isType elseN with
      | some thenText, some elseText =>
          if isNumericLiteralOne thenText && isNumericLiteralZero elseText then some (cond, false)
          else if isNumericLiteralZero thenText && isNumericLiteralOne elseText then some (cond, true)
          else none
      | _, _ => none
  | _ => none

/-- A call the rule fires on. -/
structure LerpSelect where
  a : Expr
  b : Expr
  cond : Expr
  swap : Bool
  deriving DecidableEq

/-- What `walk` of `lerp-on-bool-cond` matches. -/
def matchLerpSelect (isType : Text → Bool) (node : Expr) : Option LerpSelect :=
  match callTo "lerp".toList node with
  | some [a, b, t] => (matchTArg isType t).map fun m => ⟨a, b, m.1, m.2⟩
  | _ => none

namespace LerpSelect

def consequence (m : LerpSelect) : Expr := if m.swap then m.a else m.b

def alternative (m : LerpSelect) : Expr := if m.swap then m.b else m.a

/-- `both_pure`. -/
def bothPure (isType : Text → Bool) (m : LerpSelect) : Bool :=
  classifyExpression isType m.a = .sideEffectFree && classifyExpression isType m.b = .sideEffectFree

/-- The text of the edit. -/
def replacement (m : LerpSelect) : Text :=
  nodeText m.cond ++ " ? ".toList ++ nodeText m.consequence ++ " : ".toList ++ nodeText m.alternative

def description (isType : Text → Bool) (m : LerpSelect) : Text :=
  "replace with `".toList ++ m.replacement ++ "` for portable codegen across IHVs".toList
    ++ if m.bothPure isType then []
       else " (suggestion-only: at least one of `a` / `b` is not side-effect-free, ".toList
         ++ "applying the rewrite would change the evaluation count)".toList

def fix (isType : Text → Bool) (source : SourceId) (c : Ctx) (node : Expr) (m : LerpSelect) :
    Fix Char :=
  nodeFix source c node (m.description isType) (m.bothPure isType) m.replacement

/-- The conditional that is meant to stand in the place of the call. -/
def intended (lead : Text) (m : LerpSelect) : Expr :=
  .cond (m.cond.withLead lead) ⟨[' '], ['?']⟩ (m.consequence.withLead [' ']) ⟨[' '], [':']⟩
    (m.alternative.withLead [' '])

end LerpSelect

/-! ## §2. The parts of the conditional. -/

variable {isType : Text → Bool}

/-- The condition is an operand of the third argument. -/
theorem matchTArg_spec {t : Expr} (ht : Part isType t) {m : Expr × Bool}
    (hm : matchTArg isType t = some m) : Part isType m.1 ∧ 3 ≤ m.1.level isType := by
  unfold matchTArg at hm
  split at hm
  case h_1 l type r val =>
    have hval : Part isType val := Part.fill (f := .unary (.cast l type r)) ht
    split at hm
    case isTrue => cases hm
    case isFalse =>
      split at hm
      case isTrue => cases hm
      case isFalse hkind =>
        cases hm
        refine ⟨hval, ?_⟩
        unfold isIdentifierOrField at hkind
        split at hkind
        · show 3 ≤ 16
          omega
        · show 3 ≤ 15
          omega
        · exact absurd rfl hkind
  case h_2 cond q thenN k elseN =>
    have hcond : Part isType cond := Part.fill (f := .test q thenN k elseN) ht
    have hlevel : 3 ≤ cond.level isType := ht.1.2.2.2.1
    split at hm
    · split at hm
      · cases hm
        exact ⟨hcond, hlevel⟩
      · split at hm
        · cases hm
          exact ⟨hcond, hlevel⟩
        · cases hm
    · cases hm
  case h_3 => cases hm

theorem matchLerpSelect_spec {node : Expr} (hnode : Part isType node) {m : LerpSelect}
    (hm : matchLerpSelect isType node = some m) :
    (Part isType m.cond ∧ 3 ≤ m.cond.level isType)
      ∧ (Part isType m.consequence ∧ 1 ≤ m.consequence.level isType)
      ∧ Part isType m.alternative ∧ 1 ≤ m.alternative.level isType := by
  unfold matchLerpSelect at hm
  split at hm
  case h_1 a b t hcall =>
    have hargs := callTo_spec hnode hcall
    have ⟨r, hr, heq⟩ := Option.map_eq_some_iff.mp hm
    cases heq
    have hcond := matchTArg_spec (hargs t (by simp)).1 hr
    have ha := hargs a (by simp)
    have hb := hargs b (by simp)
    rw [LerpSelect.consequence, LerpSelect.alternative]
    split
    · exact ⟨hcond, ha, hb⟩
    · exact ⟨hcond, hb, ha⟩
  case h_2 => cases hm

/-! ## §3. The conditional. -/

/-- **The conditional is a part of its own.** -/
theorem part_intended {node : Expr} (hnode : Part isType node) {m : LerpSelect}
    (hm : matchLerpSelect isType node = some m) {lead : Text} (hlead : Blank lead) :
    Part isType (m.intended lead) := by
  obtain ⟨⟨hcond, hcondLevel⟩, ⟨hcons, _⟩, ⟨halt, haltLevel⟩⟩ := matchLerpSelect_spec hnode hm
  constructor
  · rw [LerpSelect.intended, Expr.WellFormed]
    simp only [wellFormed_withLead, level_withLead]
    exact ⟨rfl, rfl, hcond.1, hcondLevel, hcons.1, halt.1, haltLevel⟩
  · have halternative : LexOK rules ((m.alternative.withLead [' ']).toks ++ []) := by
      rw [List.append_nil, toks_withLead]
      exact lexOK_setLead blank_space halt.2
    have hspaced : ∀ e : Expr, (e.withLead [' ']).lead ≠ [] := by
      intro e
      rw [lead_withLead]
      exact List.cons_ne_nil _ _
    have hcolon := lexOK_spaced (d := ':') rfl (hspaced _) halternative
    rw [List.append_nil] at hcolon
    have hconsAlt : LexOK rules ((m.consequence.withLead [' ']).toks
        ++ ⟨[' '], [':']⟩ :: (m.alternative.withLead [' ']).toks) := by
      refine lexOK_blank ?_ (List.cons_ne_nil _ _) hcolon
      rw [toks_withLead]
      exact lexOK_setLead blank_space hcons.2
    have hquestion := lexOK_spaced (d := '?') rfl (hspaced _) hconsAlt
    rw [LerpSelect.intended, Expr.toks]
    refine lexOK_blank ?_ (List.cons_ne_nil _ _) hquestion
    rw [toks_withLead]
    exact lexOK_setLead hlead hcond.2

theorem lead_intended (m : LerpSelect) (lead : Text) : (m.intended lead).lead = lead := by
  have hlead := lead_withLead lead m.cond
  rw [Expr.lead] at hlead ⊢
  rw [LerpSelect.intended, Expr.toks, List.head?_append_of_ne_nil _ (Expr.toks_ne_nil _), hlead]

/-- The fix writes the text of the conditional. -/
theorem nodeText_lerpSelect (m : LerpSelect) (lead : Text) :
    nodeText (m.intended lead) = m.replacement := by
  have hcond : render (setLead [] (m.cond.withLead lead).toks) = nodeText m.cond :=
    nodeText_withLead lead m.cond
  have hspaced : ∀ e : Expr, render (e.withLead [' ']).toks = ' ' :: nodeText e := by
    intro e
    rw [render_toks, lead_withLead, nodeText_withLead]
    rfl
  have hquestion : " ? ".toList = [' ', '?', ' '] := rfl
  have hcolon : " : ".toList = [' ', ':', ' '] := rfl
  rw [nodeText, LerpSelect.intended, Expr.toks, setLead_append _ (Expr.toks_ne_nil _),
    Munch.render_append, hcond, Munch.render_cons, Munch.render_append, Munch.render_cons, hspaced,
    hspaced, LerpSelect.replacement, hquestion, hcolon]
  simp [Munch.Lexeme.text]

/-! ## §4. Reading the result. -/

/-- **Reading the result** gives the tree with the call replaced by the
conditional, exactly if a conditional may stand in the place of the call. -/
theorem reparse_lerpOnBoolCond_iff (isType : Text → Bool) {s : Text} {c : Ctx} {node : Expr}
    (h : parseText isType s = some (c.plug node)) {m : LerpSelect}
    (hm : matchLerpSelect isType node = some m) (source : SourceId) :
    parseText isType (applyFix s (m.fix isType source c node)) = some (c.plug (m.intended node.lead))
      ↔ c.need isType ≤ kConditional := by
  have ⟨hc, hnode, hafter⟩ := part_of_parse h
  have hpart := part_intended hnode hm (blank_lead hnode.2)
  rw [LerpSelect.fix, applyFix_nodeFix, ← nodeText_lerpSelect m node.lead,
    reparse_iff h (lead_intended m node.lead)]
  constructor
  · rintro ⟨_, hneed, _⟩
    exact hneed
  · intro hneed
    have ⟨hleft, hright⟩ := seam_loose hc hafter hneed hpart
    exact ⟨hpart.1, hneed, hpart.2, hleft, hright⟩

/-- The call `lerp(a, b, (float)c)`. -/
def lerpNode (lead : Text) : Expr :=
  let name (lead : Text) (c : Char) : Expr := .atom ⟨lead, [c]⟩
  let cast : Prefix := .cast ⟨[' '], ['(']⟩ ⟨[], "float".toList⟩ ⟨[], [')']⟩
  .apply (.atom ⟨lead, "lerp".toList⟩) ⟨[], ['(']⟩
    (.binary (.binary (name [] 'a') ⟨[], [',']⟩ (name [' '] 'b')) ⟨[], [',']⟩
      (.unary cast (name [] 'c'))) ⟨[], [')']⟩

def lerpMatch : LerpSelect := ⟨.atom ⟨[], ['a']⟩, .atom ⟨[' '], ['b']⟩, .atom ⟨[], ['c']⟩, false⟩

def isFloatType (name : Text) : Bool := name == "float".toList

/-- `y = lerp(a, b, (float)c)` becomes `y = c ? b : a`. -/
theorem reparse_lerp_assigned :
    parseText isFloatType (applyFix "y = lerp(a, b, (float)c)".toList
        (lerpMatch.fix isFloatType ⟨1⟩ [.right (.atom ⟨[], ['y']⟩) ⟨[' '], ['=']⟩] (lerpNode [' '])))
      = some (.binary (.atom ⟨[], ['y']⟩) ⟨[' '], ['=']⟩ (lerpMatch.intended [' '])) :=
  (reparse_lerpOnBoolCond_iff isFloatType (by decide +kernel) (by decide +kernel) ⟨1⟩).mpr
    (by decide)

/-- `lerp(a, b, (float)c) + d` becomes `c ? b : a + d`: the sum is in the
alternative. -/
theorem lerp_of_sum_splits :
    let c : Ctx := [.left ⟨[' '], ['+']⟩ (.atom ⟨[' '], ['d']⟩)]
    let s := "lerp(a, b, (float)c) + d".toList
    let fix := lerpMatch.fix isFloatType ⟨1⟩ c (lerpNode [])
    parseText isFloatType s = some (c.plug (lerpNode []))
      ∧ matchLerpSelect isFloatType (lerpNode []) = some lerpMatch
      ∧ fix.machineApplicable = true
      ∧ parseText isFloatType (applyFix s fix) ≠ some (c.plug (lerpMatch.intended [])) := by
  decide +kernel

end ShaderClippy.Rules
