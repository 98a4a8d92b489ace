/-
  ShaderClippy.Rules.MulIdentity

  **`mul-identity`**: `x * 1`, `1 * x`, `x + 0` and `0 + x` become `x`.

  The operand binds at least as tightly as the whole, so the tree is always the
  intended one, unless the end of the operand that was next to the literal runs
  into its new neighbour. The value is the same if the literal does not lift
  the operand to another type, or if the operator around does so as well
  (`mulIdentity_keepsMeaning`).
-/
import ShaderClippy.Rules.LiteralValue
import ShaderClippy.Rules.NodeFix
import Mathlib.Algebra.Field.Rat
import Mathlib.Algebra.Order.Ring.Unbundled.Rat

namespace ShaderClippy.Rules

open Hlsl
open Munch (LexOK Seam render)

/-! ## §1. The rule. -/

/-- What `on_tree` of `mul-identity` finds. -/
inductive MulMatch where
  | identity (kept : Expr) (onLeft : Bool) (description : Text)
  | mulZero (zeroText : Text)
  deriving DecidableEq

/-- A `number_literal` whose text is a one, or a zero. -/
def isNumber (isType : Text → Bool) (p : Text → Bool) (e : Expr) : Bool :=
  (numberOf isType e).any p

def matchMul (isType : Text → Bool) : Expr → Option MulMatch
  | .binary left op right =>
      if op.body = ['*'] then
        if isNumber isType isNumericLiteralOne right then
          some (.identity left true "replace `x * 1` with `x`".toList)
        else if isNumber isType isNumericLiteralOne left then
          some (.identity right false "replace `1 * x` with `x`".toList)
        else if isNumber isType isNumericLiteralZero right then some (.mulZero (nodeText right))
        else if isNumber isType isNumericLiteralZero left then some (.mulZero (nodeText left))
        else none
      else if op.body = ['+'] then
        if isNumber isType isNumericLiteralZero right then
          some (.identity left true "replace `x + 0` with `x`".toList)
        else if isNumber isType isNumericLiteralZero left then
          some (.identity right false "replace `0 + x` with `x`".toList)
        else none
      else none
  | _ => none

/-- `emit_identity` and `emit_mul_zero`. -/
def MulMatch.fix (source : SourceId) (c : Ctx) (node : Expr) : MulMatch → Fix Char
  | .identity kept _ description => nodeFix source c node description true (nodeText kept)
  | .mulZero zeroText =>
      nodeFix source c node
        ("if the operand is guaranteed finite (non-NaN), replace the ".toList
          ++ "multiply-by-zero with the literal `0` (or `0.0`) directly; ".toList
          ++ "otherwise leave as-is to preserve NaN propagation".toList) false zeroText

/-- The operand is left or right of an identity of its operator. -/
inductive IdentityAt (isType : Text → Bool) (node kept : Expr) : Bool → Prop where
  | left (op lit : Token) (n : Nat) (hnode : node = .binary kept op (.atom lit))
      (hlit : kind isType lit = .number) (hvalue : isNumericLiteralUint lit.body n = true)
      (hop : (op.body = ['*'] ∧ n = 1) ∨ (op.body = ['+'] ∧ n = 0)) : IdentityAt isType node kept true
  | right (op lit : Token) (n : Nat) (hnode : node = .binary (.atom lit) op kept)
      (hlit : kind isType lit = .number) (hvalue : isNumericLiteralUint lit.body n = true)
      (hop : (op.body = ['*'] ∧ n = 1) ∨ (op.body = ['+'] ∧ n = 0)) : IdentityAt isType node kept false

variable {isType : Text → Bool}

theorem isNumber_spec {p : Text → Bool} {e : Expr} (h : isNumber isType p e = true) :
    ∃ t, e = .atom t ∧ kind isType t = .number ∧ p t.body = true := by
  rw [isNumber, Option.any_eq_true] at h
  have ⟨text, htext, hp⟩ := h
  unfold numberOf at htext
  split at htext
  case h_1 t =>
    split at htext
    case isTrue hkind =>
      cases htext
      exact ⟨t, rfl, hkind, hp⟩
    case isFalse => cases htext
  case h_2 => cases htext

theorem matchMul_spec {node kept : Expr} {onLeft : Bool} {description : Text}
    (h : matchMul isType node = some (.identity kept onLeft description)) :
    IdentityAt isType node kept onLeft := by
  unfold matchMul at h
  split at h
  case h_2 => cases h
  case h_1 left op right =>
    split at h
    case isTrue hop =>
      split at h
      case isTrue hone =>
        cases h
        have ⟨t, ht, hkind, hp⟩ := isNumber_spec hone
        exact .left op t 1 (by rw [ht]) hkind hp (Or.inl ⟨hop, rfl⟩)
      case isFalse =>
        split at h
        case isTrue hone =>
          cases h
          have ⟨t, ht, hkind, hp⟩ := isNumber_spec hone
          exact .right op t 1 (by rw [ht]) hkind hp (Or.inl ⟨hop, rfl⟩)
        case isFalse =>
          split at h
          · cases h
          · split at h <;> cases h
    case isFalse =>
      split at h
      case isTrue hop =>
        split at h
        case isTrue hzero =>
          cases h
          have ⟨t, ht, hkind, hp⟩ := isNumber_spec hzero
          exact .left op t 0 (by rw [ht]) hkind hp (Or.inr ⟨hop, rfl⟩)
        case isFalse =>
          split at h
          case isTrue hzero =>
            cases h
            have ⟨t, ht, hkind, hp⟩ := isNumber_spec hzero
            exact .right op t 0 (by rw [ht]) hkind hp (Or.inr ⟨hop, rfl⟩)
          case isFalse => cases h
      case isFalse => cases h

/-! ## §2. The tree. -/

/-- The end of the operand that was next to the literal runs into nothing. -/
def Separate (c : Ctx) (lead : Text) (kept : Expr) (onLeft : Bool) : Prop :=
  if onLeft then Seam rules kept.toks c.after else Seam rules c.before (kept.withLead lead).toks

/-- The operators of the rule group to the left. -/
theorem prec_identity (isType : Text → Bool) {op : Token} {n : Nat}
    (hop : (op.body = ['*'] ∧ n = 1) ∨ (op.body = ['+'] ∧ n = 0)) :
    ∃ l, 11 ≤ l ∧ l ≤ 12 ∧ (kind isType op).prec = some (leftAssoc l) := by
  rcases hop with ⟨hop, _⟩ | ⟨hop, _⟩
  · exact ⟨12, by omega, by omega, by rw [kind, hop]; rfl⟩
  · exact ⟨11, by omega, by omega, by rw [kind, hop]; rfl⟩

theorem identity_ne_comma {op : Token} {n : Nat}
    (hop : (op.body = ['*'] ∧ n = 1) ∨ (op.body = ['+'] ∧ n = 0)) : op.body ≠ [','] := by
  rcases hop with ⟨hop, _⟩ | ⟨hop, _⟩ <;> rw [hop] <;> decide

/-- The operand binds as tightly as the whole. -/
theorem level_kept {node kept : Expr} {onLeft : Bool} (hnode : Part isType node)
    (h : IdentityAt isType node kept onLeft) :
    Part isType kept ∧ 1 ≤ kept.level isType ∧ node.level isType ≤ kept.level isType
      ∧ node.level isType < kPostfix := by
  have hpostfix : kPostfix = 15 := rfl
  cases h with
  | left op lit n hn hlit hvalue hop =>
      subst hn
      have ⟨l, hl, hle, hprec⟩ := prec_identity isType hop
      have ⟨p, hp, _, hleft, _⟩ := hnode.1
      rw [hprec] at hp
      cases hp
      have hlevel : l ≤ kept.level isType := hleft
      have hself : (leftAssoc l).level = l := rfl
      rw [level_binary isType hprec, hself]
      exact ⟨Part.fill (f := .left op (.atom lit)) hnode, by omega, hlevel, by omega⟩
  | right op lit n hn hlit hvalue hop =>
      subst hn
      have ⟨l, hl, hle, hprec⟩ := prec_identity isType hop
      have ⟨p, hp, _, _, _, hright⟩ := hnode.1
      rw [hprec] at hp
      cases hp
      have hlevel : l + 1 ≤ kept.level isType := hright
      have hself : (leftAssoc l).level = l := rfl
      rw [level_binary isType hprec, hself]
      exact ⟨Part.fill (f := .right (.atom lit) op) hnode, by omega, by omega, by omega⟩

/-- **Reading the result** gives the tree with the operand in the place of the
node, exactly if the operand runs into nothing. -/
theorem reparse_mulIdentity_iff {s : Text} {c : Ctx} {node kept : Expr} {onLeft : Bool}
    (h : parseText isType s = some (c.plug node)) (hm : IdentityAt isType node kept onLeft) :
    parseText isType (replaceNode s c node (nodeText kept)) = some (c.plug (kept.withLead node.lead))
      ↔ Separate c node.lead kept onLeft := by
  obtain ⟨hwf, hok, _⟩ := parseText_iff.mp h
  obtain ⟨_, hnode, hneed⟩ := (Ctx.wellFormed_plug isType c node).mp hwf
  obtain ⟨_, hnodeOk, _, hbefore, hafter⟩ := lexOK_plug.mp hok
  have hpart : Part isType node := ⟨hnode, hnodeOk⟩
  obtain ⟨hkept, _, hle, _⟩ := level_kept hpart hm
  have htext := nodeText_withLead node.lead kept
  rw [← htext, reparse_iff h (lead_withLead node.lead kept), wellFormed_withLead, level_withLead,
    toks_withLead, seam_setLead]
  -- the seam on the other side is that of the node
  have hsides : (onLeft = true → Seam rules c.before (setLead node.lead kept.toks))
      ∧ (onLeft = false → Seam rules kept.toks c.after) := by
    cases hm with
    | left op lit n hn =>
        subst hn
        refine ⟨fun _ => ?_, fun h => absurd h Bool.false_ne_true.symm⟩
        have hlead : setLead (Expr.binary kept op (.atom lit)).lead kept.toks = kept.toks := by
          rw [Expr.lead, Expr.toks, List.head?_append_of_ne_nil _ kept.toks_ne_nil]
          cases kept.toks <;> rfl
        rw [hlead]
        exact (Munch.seam_append_right hkept.2 kept.toks_ne_nil).mp hbefore
    | right op lit n hn =>
        subst hn
        refine ⟨fun h => absurd h Bool.false_ne_true, fun _ => ?_⟩
        have happ : (Expr.binary (.atom lit) op kept).toks = [lit, op] ++ kept.toks := rfl
        rw [happ, Munch.seam_append_left kept.toks_ne_nil] at hafter
        exact hafter
  have hlex : LexOK rules (setLead node.lead kept.toks) := lexOK_setLead (blank_lead hnodeOk) hkept.2
  rw [Separate, toks_withLead]
  cases onLeft with
  | true =>
      simp only [if_true]
      constructor
      · rintro ⟨_, _, _, _, hright⟩
        exact hright
      · intro hright
        exact ⟨hkept.1, Nat.le_trans hneed hle, hlex, hsides.1 rfl, hright⟩
  | false =>
      simp only [Bool.false_eq_true, if_false]
      constructor
      · rintro ⟨_, _, _, hleft, _⟩
        exact hleft
      · intro hleft
        exact ⟨hkept.1, Nat.le_trans hneed hle, hlex, hleft, hsides.2 rfl⟩

/-! ## §3. The value. -/

variable {K : Type} [Field K] [LinearOrder K] {rem : K → K → K} {ρ : Env K}

/-- **An identity only converts its operand.** -/
theorem identity_apply {op : Text} {n : Nat} (hop : (op = ['*'] ∧ n = 1) ∨ (op = ['+'] ∧ n = 0))
    {f : ArithOp K} (hf : ArithOp.ofText rem op = some f) (v : Value K) (t : Scalar) :
    f.apply v ((Value.int (BitVec.ofNat 32 n)).convert t) = v.convert (v.type.join t)
      ∧ f.apply ((Value.int (BitVec.ofNat 32 n)).convert t) v = v.convert (v.type.join t) := by
  rcases hop with ⟨rfl, rfl⟩ | ⟨rfl, rfl⟩
  · have hmul : f = ⟨fun m n => .int (m * n), fun m n => .uint (m * n), fun x y => .float (x * y)⟩ :=
      (Option.some.inj hf).symm
    rw [hmul]
    cases v <;> cases t <;>
      simp [ArithOp.apply, Value.type, Value.convert, Scalar.join, Value.bits, Value.toFloat]
  · have hadd : f = ⟨fun m n => .int (m + n), fun m n => .uint (m + n), fun x y => .float (x + y)⟩ :=
      (Option.some.inj hf).symm
    rw [hadd]
    cases v <;> cases t <;>
      simp [ArithOp.apply, Value.type, Value.convert, Scalar.join, Value.bits, Value.toFloat]

/-- The operator of an identity converts its operands. -/
theorem identity_op (rem : K → K → K) {op : Text} {n : Nat}
    (hop : (op = ['*'] ∧ n = 1) ∨ (op = ['+'] ∧ n = 0)) :
    ∃ f, ArithOp.ofText rem op = some f := by
  rcases hop with ⟨rfl, _⟩ | ⟨rfl, _⟩
  · exact ⟨_, rfl⟩
  · exact ⟨_, rfl⟩

theorem value_literal {lit : Token} (hlit : kind isType lit = .number) {n : Nat} (hn : n < 8)
    (hvalue : isNumericLiteralUint lit.body n = true) :
    (Expr.atom lit).value (arith isType rem ρ)
      = some ((Value.int (BitVec.ofNat 32 n)).convert (literalType lit.body)) := by
  show atomValue isType ρ lit.body = _
  rw [kind] at hlit
  rw [atomValue, hlit, ← literalValue_uint hlit hn hvalue]

/-- The value of the node is that of the operand, converted. -/
theorem value_identity {node kept : Expr} {onLeft : Bool} (hm : IdentityAt isType node kept onLeft) :
    ∃ t : Scalar, ∀ {K : Type} [Field K] [LinearOrder K] (rem : K → K → K) (ρ : Env K),
      node.value (arith isType rem ρ)
        = (kept.value (arith isType rem ρ)).map fun v => v.convert (v.type.join t) := by
  have hsmall : ∀ {op : Token} {n : Nat}, (op.body = ['*'] ∧ n = 1) ∨ (op.body = ['+'] ∧ n = 0) → n < 8 := by
    omega
  cases hm with
  | left op lit n hnode hlit hvalue hop =>
      refine ⟨literalType lit.body, fun rem ρ => ?_⟩
      have ⟨f, hf⟩ := identity_op rem hop
      rw [hnode, value_binary, value_literal hlit (hsmall hop) hvalue]
      show ((ArithOp.ofText rem op.body).bind fun f => _) = _
      rw [hf]
      cases kept.value (arith isType rem ρ) with
      | none => rfl
      | some v => exact congrArg some (identity_apply hop hf v _).1
  | right op lit n hnode hlit hvalue hop =>
      refine ⟨literalType lit.body, fun rem ρ => ?_⟩
      have ⟨f, hf⟩ := identity_op rem hop
      rw [hnode, value_binary, value_literal hlit (hsmall hop) hvalue]
      show ((ArithOp.ofText rem op.body).bind fun f => _) = _
      rw [hf]
      cases kept.value (arith isType rem ρ) with
      | none => rfl
      | some v => exact congrArg some (identity_apply hop hf v _).2

/-! ## §4. The value in its place. -/

/-- The type of an expression. -/
def typeOf (isType : Text → Bool) (types : Text → Scalar) (e : Expr) : Option Scalar :=
  e.value (typing isType types)

/-- The operator around the node, behind parentheses, converts it to the type
`t` in any case. -/
def absorbs (isType : Text → Bool) (types : Text → Scalar) (t : Scalar) : Ctx → Bool
  | .paren _ _ :: c => absorbs isType types t c
  | .left op y :: _ => (resultType op.body).isSome && typeOf isType types y = some t
  | .right x op :: _ => (resultType op.body).isSome && typeOf isType types x = some t
  | _ => false

/-- The identity does not change the type that counts. -/
def KeepsType (isType : Text → Bool) (types : Text → Scalar) (c : Ctx) (node kept : Expr) : Prop :=
  typeOf isType types kept = typeOf isType types node
    ∨ ∃ t, typeOf isType types node = some t ∧ absorbs isType types t c = true

/-- An operator that converts is no comma. -/
theorem converts_ne_comma {op : Token} (h : (resultType op.body).isSome = true) : op.body ≠ [','] := by
  intro heq
  rw [heq] at h
  cases h

/-- **What the operator around converts anyway** may be converted before. -/
theorem value_absorbed {types : Text → Scalar} (hρ : ∀ t, (ρ t).type = types t) {c : Ctx}
    (hc : c.WellFormed isType) {t : Scalar} (habsorbs : absorbs isType types t c = true) {e e' : Expr}
    (he : e'.value (arith isType rem ρ) = (e.value (arith isType rem ρ)).map fun v => v.convert t)
    (htype : ∀ v, e.value (arith isType rem ρ) = some v → v.type.join t = t) :
    (c.plug e').value (arith isType rem ρ) = (c.plug e).value (arith isType rem ρ) := by
  have hrest : ∀ {p : Prec} {c : Ctx}, (∃ n, p.level = n ∧ n ≤ 12) → c.need isType ≤ p.level →
      c.need isType < kPostfix := by
    rintro p c ⟨n, hn, hle⟩ hneed
    show c.need isType < 15
    omega
  have hlevel : ∀ {op : Token} {p : Prec}, (kind isType op).prec = some p → ∃ n, p.level = n ∧ n ≤ 12 := by
    intro op p hp
    rcases prec_cases hp with rfl | rfl | ⟨n, _, hn, rfl⟩
    · exact ⟨0, rfl, by omega⟩
    · exact ⟨1, rfl, by omega⟩
    · exact ⟨n, rfl, hn⟩
  induction c generalizing e e' with
  | nil => cases habsorbs
  | cons f c ih =>
      have ⟨hf, hneed, hcw⟩ := hc
      cases f with
      | paren l r => exact @ih hcw habsorbs (.paren l e r) (.paren l e' r) he htype
      | left op y =>
          have ⟨p, hp, _⟩ := hf
          rw [Frame.level, hp] at hneed
          rw [absorbs, Bool.and_eq_true, decide_eq_true_eq] at habsorbs
          have ⟨hop, hy⟩ := habsorbs
          refine value_plug_congr (sameValue_binary (converts_ne_comma hop) ?_) (hrest (hlevel hp) hneed)
          rw [value_binary, value_binary, he]
          show ((ArithOp.ofText rem op.body).bind fun f => _) = (ArithOp.ofText rem op.body).bind fun f => _
          cases ArithOp.ofText rem op.body with
          | none => rfl
          | some f =>
              cases hev : e.value (arith isType rem ρ) with
              | none => rfl
              | some v =>
                  cases hyv : y.value (arith isType rem ρ) with
                  | none => rfl
                  | some w =>
                      have hw := type_value hρ hyv
                      rw [typeOf, hw] at hy
                      exact congrArg some (f.apply_convert (htype v hev) (Option.some.inj hy)).1
      | right x op =>
          have ⟨p, hp, _⟩ := hf
          rw [Frame.level, hp] at hneed
          rw [absorbs, Bool.and_eq_true, decide_eq_true_eq] at habsorbs
          have ⟨hop, hx⟩ := habsorbs
          refine value_plug_congr (sameValue_binary (converts_ne_comma hop) ?_) (hrest (hlevel hp) hneed)
          rw [value_binary, value_binary, he]
          show ((ArithOp.ofText rem op.body).bind fun f => _) = (ArithOp.ofText rem op.body).bind fun f => _
          cases ArithOp.ofText rem op.body with
          | none => rfl
          | some f =>
              cases hxv : x.value (arith isType rem ρ) with
              | none => rfl
              | some w =>
                  cases hev : e.value (arith isType rem ρ) with
                  | none => rfl
                  | some v =>
                      have hw := type_value hρ hxv
                      rw [typeOf, hw] at hx
                      exact congrArg some (f.apply_convert (htype v hev) (Option.some.inj hx)).2
      | _ => cases habsorbs

/-- **What a fix of `mul-identity` keeps.**  Reading the result gives the tree
without the identity exactly if the operand runs into nothing, and the value of
the tree is the same in every environment where the identity does not change the
type that counts. -/
theorem mulIdentity_preserves_iff (isType : Text → Bool) {s : Text} {c : Ctx} {node kept : Expr}
    (h : parseText isType s = some (c.plug node)) {onLeft : Bool} {description : Text}
    (hm : matchMul isType node = some (.identity kept onLeft description)) (source : SourceId) :
    (parseText isType (applyFix s ((MulMatch.identity kept onLeft description).fix source c node))
        = some (c.plug (kept.withLead node.lead)) ↔ Separate c node.lead kept onLeft)
      ∧ ∀ types : Text → Scalar, KeepsType isType types c node kept →
        ∀ {K : Type} [Field K] [LinearOrder K] (rem : K → K → K) (ρ : Env K),
          (∀ t, (ρ t).type = types t) →
            (c.plug (kept.withLead node.lead)).value (arith isType rem ρ)
              = (c.plug node).value (arith isType rem ρ) := by
  have hidentity := matchMul_spec hm
  refine ⟨reparse_mulIdentity_iff h hidentity, fun types hkeeps K _ _ rem ρ hρ => ?_⟩
  have ⟨hwf, hok, _⟩ := parseText_iff.mp h
  have ⟨hc, hnode, hneed⟩ := (Ctx.wellFormed_plug isType c node).mp hwf
  have ⟨_, hnodeOk, _⟩ := lexOK_plug.mp hok
  have ⟨_, hkeptLevel, _, hpostfix⟩ := level_kept ⟨hnode, hnodeOk⟩ hidentity
  have ⟨t, hvalue⟩ := value_identity hidentity
  have hnodeValue := hvalue rem ρ
  have hplug : (c.plug (kept.withLead node.lead)).value (arith isType rem ρ)
      = (c.plug kept).value (arith isType rem ρ) :=
    congrArg Meaning.value (meaning_plug_congr (meaning_withLead _ _ _) c)
  rw [hplug]
  rcases hkeeps with hsame | ⟨u, hu, habsorbs⟩
  · -- the conversion is to the type of the operand
    have heq : kept.value (arith isType rem ρ) = node.value (arith isType rem ρ) := by
      cases hv : kept.value (arith isType rem ρ) with
      | none => rw [hnodeValue, hv]; rfl
      | some v =>
          rw [hv] at hnodeValue
          have hnodeType := type_value hρ hnodeValue
          rw [typeOf, typeOf, type_value hρ hv, hnodeType, Value.type_convert] at hsame
          rw [hnodeValue, Option.map_some, ← Option.some.inj hsame, Value.convert_type]
    have hargs : arguments kept = [kept] := arguments_of_level hkeptLevel
    have hnodeArgs : arguments node = [node] := by
      cases hidentity with
      | left op lit n hn _ _ hop => rw [hn, arguments, if_neg (identity_ne_comma hop)]
      | right op lit n hn _ _ hop => rw [hn, arguments, if_neg (identity_ne_comma hop)]
    refine value_plug_congr ⟨heq, ?_⟩ (Nat.lt_of_le_of_lt hneed hpostfix)
    rw [meaning_args, meaning_args, hargs, hnodeArgs, List.map_singleton, List.map_singleton, heq]
  · -- the operator around converts to the type of the node
    have hjoin : ∀ v, kept.value (arith isType rem ρ) = some v → v.type.join t = u := by
      intro v hv
      rw [hv] at hnodeValue
      have hnodeType := type_value hρ hnodeValue
      rw [← typeOf, hu, Value.type_convert] at hnodeType
      exact (Option.some.inj hnodeType).symm
    refine (value_absorbed hρ hc habsorbs ?_ ?_).symm
    · rw [hnodeValue]
      cases hv : kept.value (arith isType rem ρ) with
      | none => rfl
      | some v => rw [Option.map_some, Option.map_some, hjoin v hv]
    · intro v hv
      rw [← hjoin v hv]
      cases v.type <;> cases t <;> rfl

/-- The fixed source is read as the tree without the identity, which has the
value of the original one in every environment of the given types. -/
def KeepsMeaning (isType : Text → Bool) (types : Text → Scalar) (s : Text) (fix : Fix Char)
    (c : Ctx) (node kept : Expr) : Prop :=
  parseText isType (applyFix s fix) = some (c.plug (kept.withLead node.lead))
    ∧ ∀ {K : Type} [Field K] [LinearOrder K] (rem : K → K → K) (ρ : Env K),
      (∀ t, (ρ t).type = types t) →
        (c.plug (kept.withLead node.lead)).value (arith isType rem ρ)
          = (c.plug node).value (arith isType rem ρ)

/-- **The fixes of `mul-identity` keep the meaning** if the operand runs into
nothing and the identity does not change the type that counts; the first is
also necessary. -/
theorem mulIdentity_keepsMeaning (isType : Text → Bool) {s : Text} {c : Ctx} {node kept : Expr}
    (h : parseText isType s = some (c.plug node)) {onLeft : Bool} {description : Text}
    (hm : matchMul isType node = some (.identity kept onLeft description)) (source : SourceId)
    (types : Text → Scalar) :
    (Separate c node.lead kept onLeft ∧ KeepsType isType types c node kept →
        KeepsMeaning isType types s
          ((MulMatch.identity kept onLeft description).fix source c node) c node kept)
      ∧ (KeepsMeaning isType types s
          ((MulMatch.identity kept onLeft description).fix source c node) c node kept →
        Separate c node.lead kept onLeft) := by
  obtain ⟨htree, hvalue⟩ := mulIdentity_preserves_iff isType h hm source
  constructor
  · intro ⟨hseparate, hkeeps⟩
    exact ⟨htree.mpr hseparate, hvalue types hkeeps⟩
  · intro ⟨hread, _⟩
    exact htree.mp hread

/-- `y + x * 1` becomes `y + x`, for `int` variables. -/
theorem mulIdentity_keepsMeaning_product :
    let c : Ctx := [.right (.atom ⟨[], ['y']⟩) ⟨[' '], ['+']⟩]
    let x : Expr := .atom ⟨[' '], ['x']⟩
    let node : Expr := .binary x ⟨[' '], ['*']⟩ (.atom ⟨[' '], ['1']⟩)
    KeepsMeaning (fun _ => false) (fun _ => .int) "y + x * 1".toList
      ((MulMatch.identity x true "replace `x * 1` with `x`".toList).fix ⟨1⟩ c node) c node x :=
  (mulIdentity_keepsMeaning (fun _ => false) (by decide +kernel) (by decide +kernel) ⟨1⟩
    fun _ => .int).1 ⟨Munch.seam_nil_right _, .inl (by decide +kernel)⟩

/-- `i * 1.0 / 2` is 1.5 for the `int` 3; the fix makes it `i / 2`, which is 1. -/
theorem mulIdentity_truncates :
    let i : Expr := .atom ⟨[], ['i']⟩
    let node : Expr := .binary i ⟨[' '], ['*']⟩ (.atom ⟨[' '], ['1', '.', '0']⟩)
    let c : Ctx := [.left ⟨[' '], ['/']⟩ (.atom ⟨[' '], ['2']⟩)]
    let m : MulMatch := .identity i true "replace `x * 1` with `x`".toList
    let A : Algebra (Option (Value ℚ)) := arith (fun _ => false) (fun _ _ => 0) fun _ => .int 3
    parseText (fun _ => false) "i * 1.0 / 2".toList = some (c.plug node)
      ∧ matchMul (fun _ => false) node = some m
      ∧ (m.fix ⟨1⟩ c node).machineApplicable = true
      ∧ (parseText (fun _ => false) (applyFix "i * 1.0 / 2".toList (m.fix ⟨1⟩ c node))).map
          (Expr.value A) ≠ some ((c.plug node).value A) := by
  decide +kernel

end ShaderClippy.Rules
