/-
  ShaderClippy.Rules.PowFix

  **`pow-const-squared` and `pow-to-mul`**: `pow(x, N)` becomes a product.

  The two rules are one, up to the greatest exponent. The product is written
  without parentheses; it has the value of the call if no operator but a sign or
  a `*` takes its first factor away (`powFix_keepsValue`).
-/
import ShaderClippy.Hlsl.Product
import ShaderClippy.Hlsl.RealMeaning
import ShaderClippy.Rules.LiteralValue
import ShaderClippy.Rules.NodeFix

namespace ShaderClippy.Rules

open Hlsl
open Munch (LexOK Seam render)

/-! ## §1. The rules. -/

/-- `parse_integer_literal`: at most two digits in front of the point. -/
def parseIntegerLiteral (text : Text) : Option Nat :=
  (integralPart isLiteralSuffixChar text).bind fun intPart =>
    if intPart.length > 2 then none
    else some (intPart.foldl (fun value d => value * 10 + (d.toNat - '0'.toNat)) 0)

/-- The two rules. -/
inductive PowRule where
  | powConstSquared
  | powToMul
  deriving DecidableEq

/-- The greatest exponent of the rule. -/
def PowRule.limit : PowRule → Nat
  | .powConstSquared => 5
  | .powToMul => 4

structure PowMatch where
  exponent : Nat
  base : Expr
  baseIsSimpleIdentifier : Bool
  deriving DecidableEq

/-- `match_pow_call`, and the checks of `PowToMul::on_node`. -/
def matchPowCall (isType : Text → Bool) (rule : PowRule) (node : Expr) : Option PowMatch :=
  (callOf node).bind fun call =>
    if identifierOf isType call.function ≠ some kPow then none
    else
      match call.args with
      | [arg0, arg1] =>
          (numberOf isType arg1).bind fun text => (parseIntegerLiteral text).bind fun exponent =>
            if exponent < 2 ∨ rule.limit < exponent then none
            -- `pow(2.0, x)` is left to another rule
            else if (numberOf isType arg0).bind parseIntegerLiteral = some 2 then none
            else some ⟨exponent, arg0, (identifierOf isType arg0).isSome⟩
      | _ => none

/-- `make_replacement`. -/
def makeReplacement (base : Text) (exponent : Nat) : Text :=
  match exponent with
  | 2 => base ++ " * ".toList ++ base
  | 3 => base ++ " * ".toList ++ base ++ " * ".toList ++ base
  | 4 => "(".toList ++ base ++ " * ".toList ++ base ++ ") * (".toList ++ base ++ " * ".toList ++ base
      ++ ")".toList
  | 5 => "(".toList ++ base ++ " * ".toList ++ base ++ ") * (".toList ++ base ++ " * ".toList ++ base
      ++ ") * ".toList ++ base
  | _ => base

namespace PowMatch

def description (m : PowMatch) : Text :=
  if m.baseIsSimpleIdentifier then "replace `pow(x, N.0)` with repeated multiplication".toList
  else "replace with repeated multiplication; verify the base ".toList
    ++ "expression is side-effect-free before applying".toList

def fix (source : SourceId) (c : Ctx) (node : Expr) (m : PowMatch) : Fix Char :=
  nodeFix source c node m.description m.baseIsSimpleIdentifier
    (makeReplacement (nodeText m.base) m.exponent)

end PowMatch

/-! ## §2. What is matched. -/

variable {isType : Text → Bool}

theorem integralPart_digits {isSuffix : Char → Bool} {text digits : Text}
    (h : integralPart isSuffix text = some digits) : ∀ c ∈ digits, c.isDigit = true := by
  rw [integralPart] at h
  split at h
  case isTrue => cases h
  case isFalse =>
    obtain ⟨rest, _, hsuffix⟩ := Option.bind_eq_some_iff.mp h
    split at hsuffix
    case isTrue =>
      cases hsuffix
      exact fun c hc => List.mem_takeWhile_imp hc
    case isFalse => cases hsuffix

/-- The digits of a small exponent, in every base of a literal. -/
theorem parseIntegerLiteral_spec {text : Text} {n : Nat} (hn : n < 8)
    (h : parseIntegerLiteral text = some n) :
    ∃ digits, integralPart isLiteralSuffixChar text = some digits
      ∧ ∀ base, digitsValue base digits = n := by
  rw [parseIntegerLiteral, Option.bind_eq_some_iff] at h
  have ⟨digits, hdigits, hvalue⟩ := h
  have hdigit := integralPart_digits hdigits
  refine ⟨digits, hdigits, fun base => ?_⟩
  split at hvalue
  case isTrue => cases hvalue
  case isFalse hlen =>
    have heq := Option.some.inj hvalue
    match digits, hdigit, hlen, heq with
    | [], _, _, heq => exact heq
    | [c], hdigit, _, heq =>
        have hc : digitOf c = c.toNat - '0'.toNat := if_pos (hdigit c (by simp))
        show 0 * base + digitOf c = n
        rw [hc, Nat.zero_mul, ← heq]
        rfl
    | [c, d], hdigit, _, heq =>
        have hc : digitOf c = c.toNat - '0'.toNat := if_pos (hdigit c (by simp))
        have hd : digitOf d = d.toNat - '0'.toNat := if_pos (hdigit d (by simp))
        have hsum : (0 * 10 + digitOf c) * 10 + digitOf d = n := by
          rw [hc, hd]
          exact heq
        -- a first digit other than zero would make ten
        have hzero : digitOf c = 0 := by omega
        show (0 * base + digitOf c) * base + digitOf d = n
        rw [hzero] at hsum ⊢
        rw [Nat.zero_mul, Nat.zero_mul]
        omega
    | _ :: _ :: _ :: _, _, hlen, _ => exact absurd (by simp) hlen

/-- The value of the exponent. -/
theorem realLiteral_exponent {text : Text} (hnumber : kindOf isType text = .number) {n : Nat}
    (hn : n < 8) (h : parseIntegerLiteral text = some n) : realLiteral text = n := by
  have ⟨digits, hdigits, hvalue⟩ := parseIntegerLiteral_spec hn h
  have ⟨hinteger, hdecimal⟩ := value_of_digits hnumber hdigits fun base _ => hvalue base
  rw [realLiteral]
  split
  · exact hdecimal
  · rw [hinteger]

/-- A call of `pow` of a name and a small exponent. -/
structure PowCall (isType : Text → Bool) (node : Expr) (m : PowMatch) : Prop where
  small : 2 ≤ m.exponent ∧ m.exponent ≤ 5
  base : ∃ t, m.base = .atom t ∧ kind isType t = .name
  part : Part isType m.base
  value : ∀ ρ, node.value (real isType ρ) = m.base.value (real isType ρ) ^ m.exponent
  args : arguments node = [node]

theorem arguments_call {node : Expr} {call : Call} (hcall : callOf node = some call) :
    arguments node = [node] := by
  cases node with
  | binary => cases hcall
  | _ => rfl

/-- The value of a call of a name. -/
theorem value_call {node : Expr} (hnode : Part isType node) {call : Call} (hcall : callOf node = some call)
    {name : Text} (hname : identifierOf isType call.function = some name) (ρ : RealEnv) :
    node.value (real isType ρ)
      = realCall ρ (.name name) (call.args.map (Expr.value (real isType ρ))) := by
  have ⟨t, hfunction, hkind, htext⟩ := identifierOf_spec hname
  cases node with
  | apply f l i r =>
      rw [callOf] at hcall
      split at hcall
      case isTrue hl =>
        cases hcall
        have hf : f = .atom t := hfunction
        rw [Expr.value, meaning, if_pos hl, hf, htext, ← meaning_args]
        rfl
      case isFalse => cases hcall
  | construct type l args r =>
      cases hcall
      have htype : Expr.atom type = .atom t := hfunction
      cases htype
      rw [hnode.1.1] at hkind
      cases hkind
  | suffix f s =>
      cases s with
      | nullary l r =>
          cases hcall
          have hf : f = .atom t := hfunction
          rw [Expr.value, meaning, hf, htext]
          rfl
      | step => cases hcall
      | member => cases hcall
  | _ => cases hcall

theorem matchPowCall_spec {node : Expr} (hnode : Part isType node) {rule : PowRule} {m : PowMatch}
    (hm : matchPowCall isType rule node = some m) (happ : m.baseIsSimpleIdentifier = true) :
    PowCall isType node m := by
  rw [matchPowCall, Option.bind_eq_some_iff] at hm
  have ⟨call, hcall, hm⟩ := hm
  split at hm
  case isTrue => cases hm
  case isFalse hname =>
    rw [not_not] at hname
    split at hm
    case h_2 => cases hm
    case h_1 arg0 arg1 hargs =>
      have ⟨text, htext, hm⟩ := Option.bind_eq_some_iff.mp hm
      have ⟨exponent, hexponent, hm⟩ := Option.bind_eq_some_iff.mp hm
      split at hm
      case isTrue => cases hm
      case isFalse hrange =>
        split at hm
        case isTrue => cases hm
        case isFalse =>
          cases hm
          have hlimit : rule.limit ≤ 5 := by cases rule <;> decide
          have ⟨base, hbase⟩ := Option.isSome_iff_exists.mp happ
          have ⟨t, ht, hkind, _⟩ := identifierOf_spec hbase
          have ⟨lit, hlit, hnumber, hbody⟩ := numberOf_spec htext
          have hpart := (callOf_spec hnode hcall arg0 (by rw [hargs]; simp)).1
          have hsmall : 2 ≤ exponent ∧ exponent ≤ 5 := by omega
          refine ⟨hsmall, ⟨t, ht, hkind⟩, hpart, fun ρ => ?_, arguments_call hcall⟩
          have hvalue : arg1.value (real isType ρ) = exponent := by
            have hatom : (Expr.atom lit).value (real isType ρ) = realLiteral lit.body := if_pos hnumber
            rw [hlit, hatom]
            exact realLiteral_exponent hnumber (by omega) (by rw [← hbody]; exact hexponent)
          rw [value_call hnode hcall hname ρ, hargs, List.map_cons, List.map_singleton, hvalue]
          rw [realCall_pow, Real.rpow_natCast]

/-! ## §3. The product. -/

/-- `(x * x)`. -/
def square (lead : Text) (x : Expr) : Expr :=
  .paren ⟨lead, ['(']⟩ (.binary (x.withLead []) times (x.withLead [' '])) ⟨[], [')']⟩

/-- The first factor of the product, and the others. -/
def powFactors (lead : Text) (x : Expr) (exponent : Nat) : Expr × List Expr :=
  match exponent with
  | 2 => (x.withLead lead, [x.withLead [' ']])
  | 3 => (x.withLead lead, [x.withLead [' '], x.withLead [' ']])
  | 4 => (square lead x, [square [' '] x])
  | _ => (square lead x, [square [' '] x, x.withLead [' ']])

theorem part_name {x : Expr} (hx : ∃ t, x = .atom t ∧ kind isType t = .name) (hpart : Part isType x)
    {lead : Text} (hlead : Blank lead) :
    Part isType (x.withLead lead) ∧ (x.withLead lead).level isType = 16 := by
  have ⟨t, ht, _⟩ := hx
  refine ⟨⟨(wellFormed_withLead lead x).mpr hpart.1, ?_⟩, by rw [ht]; rfl⟩
  rw [toks_withLead]
  exact lexOK_setLead hlead hpart.2

theorem endsOperand_name {x : Expr} (hx : ∃ t, x = .atom t ∧ kind isType t = .name) (lead : Text) :
    EndsOperand isType (x.withLead lead) := by
  have ⟨t, ht, hkind⟩ := hx
  refine ⟨⟨lead, t.body⟩, by rw [ht]; rfl, Or.inl ?_⟩
  show (kindOf isType t.body).isWord = true
  rw [kind] at hkind
  rw [hkind]
  rfl

/-- **The square is a part of its own.** -/
theorem part_square {x : Expr} (hx : ∃ t, x = .atom t ∧ kind isType t = .name) (hpart : Part isType x)
    {lead : Text} (hlead : Blank lead) : Part isType (square lead x) := by
  obtain ⟨hfirst, hlevel⟩ := part_name hx hpart blank_nil
  obtain ⟨hsecond, hlevel'⟩ := part_name hx hpart blank_space
  have hfactors : Factors isType [x.withLead [' ']] := by
    intro q hq
    cases List.mem_singleton.mp hq
    exact ⟨hsecond, by rw [hlevel']; decide, by rw [lead_withLead]; exact List.cons_ne_nil _ _⟩
  have hinner : Part isType (.binary (x.withLead []) times (x.withLead [' '])) :=
    part_mulAll hfirst (by rw [hlevel]; decide) hfactors
  refine ⟨⟨rfl, hinner.1, rfl⟩, ?_⟩
  have hclose : LexOK rules ((Expr.binary (x.withLead []) times (x.withLead [' '])).toks ++ [⟨[], [')']⟩]) := by
    refine Munch.lexOK_append.mpr ⟨hinner.2, lexOK_solo (by decide) trivial, ?_⟩
    obtain ⟨t, hlast, ht⟩ := endsOperand_name hx [' ']
    intro u hu
    rw [Expr.toks, List.append_cons, List.getLast?_append, hlast] at hu
    cases hu
    exact stops_symbol ht rfl blank_nil _
  have hopen : ('(' : Char) ∈ kSolo := by decide
  exact ⟨hlead, ⟨List.cons_ne_nil _ _, rfl, trivial⟩, fun c _ => grows_solo hopen c, hclose⟩

theorem powFactors_spec {x : Expr} (hx : ∃ t, x = .atom t ∧ kind isType t = .name)
    (hpart : Part isType x) {lead : Text} (hlead : Blank lead) (exponent : Nat) :
    (Part isType (powFactors lead x exponent).1
      ∧ (powFactors lead x exponent).1.level isType = 16)
      ∧ Factors isType (powFactors lead x exponent).2 := by
  have hname : Part isType (x.withLead [' ']) ∧ kTerm < (x.withLead [' ']).level isType
      ∧ (x.withLead [' ']).lead ≠ [] := by
    have ⟨h, hlevel⟩ := part_name hx hpart blank_space
    exact ⟨h, by rw [hlevel]; decide, by rw [lead_withLead]; exact nofun⟩
  have hsquare : Part isType (square [' '] x) ∧ kTerm < (square [' '] x).level isType
      ∧ (square [' '] x).lead ≠ [] := ⟨part_square hx hpart blank_space, by show 12 < 16; omega, nofun⟩
  unfold powFactors
  split
  · refine ⟨part_name hx hpart hlead, fun q hq => ?_⟩
    cases List.mem_singleton.mp hq
    exact hname
  · refine ⟨part_name hx hpart hlead, fun q hq => ?_⟩
    rcases List.mem_cons.mp hq with rfl | hq
    · exact hname
    · cases List.mem_singleton.mp hq
      exact hname
  · refine ⟨⟨part_square hx hpart hlead, rfl⟩, fun q hq => ?_⟩
    cases List.mem_singleton.mp hq
    exact hsquare
  · refine ⟨⟨part_square hx hpart hlead, rfl⟩, fun q hq => ?_⟩
    rcases List.mem_cons.mp hq with rfl | hq
    · exact hsquare
    · cases List.mem_singleton.mp hq
      exact hname

/-- The product begins with the blanks of the call. -/
theorem lead_powFactors (lead : Text) (x : Expr) (exponent : Nat) :
    (powFactors lead x exponent).1.lead = lead := by
  unfold powFactors
  split
  · exact lead_withLead lead x
  · exact lead_withLead lead x
  · rfl
  · rfl

theorem endsOperand_square (lead : Text) (x : Expr) : EndsOperand isType (square lead x) := by
  refine ⟨⟨[], [')']⟩, ?_, Or.inr rfl⟩
  rw [square, Expr.toks, ← List.cons_append, List.getLast?_concat]

theorem endsOperand_powFactors {x : Expr} (hx : ∃ t, x = .atom t ∧ kind isType t = .name)
    (lead : Text) (exponent : Nat) :
    EndsOperand isType (mulAll (powFactors lead x exponent).1 (powFactors lead x exponent).2) := by
  have hname : ∀ lead, EndsOperand isType (x.withLead lead) := endsOperand_name hx
  have hsquare : ∀ lead, EndsOperand isType (square lead x) := fun lead => endsOperand_square lead x
  unfold powFactors
  split
  · exact endsOperand_mulAll (hname lead) (by simp [hname])
  · exact endsOperand_mulAll (hname lead) (by simp [hname])
  · exact endsOperand_mulAll (hsquare lead) (by simp [hsquare])
  · exact endsOperand_mulAll (hsquare lead) (by simp [hsquare, hname])

/-! ## §4. Its text and its value. -/

theorem nodeText_square (lead : Text) (x : Expr) :
    nodeText (square lead x)
      = "(".toList ++ nodeText x ++ " * ".toList ++ nodeText x ++ ")".toList := by
  have hinner : render (Expr.binary (x.withLead []) times (x.withLead [' '])).toks
      = nodeText x ++ " * ".toList ++ nodeText x := by
    rw [Expr.toks, Munch.render_append, Munch.render_cons, render_toks, render_toks, lead_withLead,
      lead_withLead, nodeText_withLead, nodeText_withLead]
    simp [times, Munch.Lexeme.text]
  rw [nodeText, square, Expr.toks]
  show render (⟨[], ['(']⟩ :: (_ ++ [⟨[], [')']⟩])) = _
  rw [Munch.render_cons, Munch.render_append, hinner]
  simp [Munch.Lexeme.text]

/-- **The text of the fix is that of the product.** -/
theorem nodeText_powFactors (lead : Text) (x : Expr) {exponent : Nat}
    (h : 2 ≤ exponent ∧ exponent ≤ 5) :
    nodeText (mulAll (powFactors lead x exponent).1 (powFactors lead x exponent).2)
      = makeReplacement (nodeText x) exponent := by
  have hsquare : (square [' '] x).lead = [' '] := rfl
  have hcases : exponent = 2 ∨ exponent = 3 ∨ exponent = 4 ∨ exponent = 5 := by omega
  rcases hcases with rfl | rfl | rfl | rfl
  · show _ = nodeText x ++ " * ".toList ++ nodeText x
    simp only [powFactors, nodeText_mulAll, List.flatMap_cons, List.flatMap_nil, nodeText_withLead,
      lead_withLead, List.append_nil, List.append_assoc]
    rfl
  · show _ = nodeText x ++ " * ".toList ++ nodeText x ++ " * ".toList ++ nodeText x
    simp only [powFactors, nodeText_mulAll, List.flatMap_cons, List.flatMap_nil, nodeText_withLead,
      lead_withLead, List.append_nil, List.append_assoc]
    rfl
  · show _ = "(".toList ++ nodeText x ++ " * ".toList ++ nodeText x ++ ") * (".toList ++ nodeText x
      ++ " * ".toList ++ nodeText x ++ ")".toList
    simp only [powFactors, nodeText_mulAll, List.flatMap_cons, List.flatMap_nil, nodeText_square,
      hsquare, List.append_nil, List.append_assoc]
    rfl
  · show _ = "(".toList ++ nodeText x ++ " * ".toList ++ nodeText x ++ ") * (".toList ++ nodeText x
      ++ " * ".toList ++ nodeText x ++ ") * ".toList ++ nodeText x
    simp only [powFactors, nodeText_mulAll, List.flatMap_cons, List.flatMap_nil, nodeText_square,
      nodeText_withLead, lead_withLead, hsquare, List.append_nil, List.append_assoc]
    rfl

theorem value_square (ρ : RealEnv) (lead : Text) (x : Expr) :
    (square lead x).value (real isType ρ) = x.value (real isType ρ) * x.value (real isType ρ) := by
  have hinner : (square lead x).value (real isType ρ)
      = (Expr.binary (x.withLead []) times (x.withLead [' '])).value (real isType ρ) := rfl
  rw [hinner, value_binary, value_withLead, value_withLead]
  rfl

/-- **The product of the factors is the power.** -/
theorem value_powFactors (ρ : RealEnv) (lead : Text) (x : Expr) {exponent : Nat}
    (h : 2 ≤ exponent ∧ exponent ≤ 5) :
    x.value (real isType ρ) ^ exponent
      = (powFactors lead x exponent).1.value (real isType ρ)
        * ((powFactors lead x exponent).2.map (Expr.value (real isType ρ))).prod := by
  have hcases : exponent = 2 ∨ exponent = 3 ∨ exponent = 4 ∨ exponent = 5 := by omega
  rcases hcases with rfl | rfl | rfl | rfl <;>
    simp only [powFactors, List.map_cons, List.map_nil, List.prod_cons, List.prod_nil, value_square,
      value_withLead] <;>
    ring

/-! ## §5. The fix in its place. -/

/-- The fixed source is read as an expression of the same value over the reals. -/
def KeepsRealValue (isType : Text → Bool) (s : Text) (fix : Fix Char) (original : Expr) : Prop :=
  ∃ e, parseText isType (applyFix s fix) = some e
    ∧ ∀ ρ, e.value (real isType ρ) = original.value (real isType ρ)

/-- The fixed source is read with the product where the call was. -/
def ReadsProduct (isType : Text → Bool) (s : Text) (fix : Fix Char) (c : Ctx) (node : Expr)
    (m : PowMatch) : Prop :=
  parseText isType (applyFix s fix)
    = some (c.plug (mulAll (powFactors node.lead m.base m.exponent).1
        (powFactors node.lead m.base m.exponent).2))

/-- The factors of the fix of a call, ready to be read. -/
theorem applyFix_pow {node : Expr} {m : PowMatch} (hcall : PowCall isType node m) (source : SourceId)
    (s : Text) (c : Ctx) :
    applyFix s (m.fix source c node)
      = replaceNode s c node (nodeText (mulAll (powFactors node.lead m.base m.exponent).1
          (powFactors node.lead m.base m.exponent).2)) := by
  rw [nodeText_powFactors _ _ hcall.small, PowMatch.fix, applyFix_nodeFix]

theorem keepsRealValue_of_groups {s : Text} {c : Ctx} {node : Expr}
    (h : parseText isType s = some (c.plug node)) {m : PowMatch} (hcall : PowCall isType node m)
    (hgroups : Groups isType c) (source : SourceId) :
    KeepsRealValue isType s (m.fix source c node) (c.plug node) := by
  have ⟨hc, hnode, _⟩ := part_of_parse h
  have ⟨⟨hpart, hlevel⟩, hfactors⟩ :=
    powFactors_spec hcall.base hcall.part (blank_lead hnode.2) m.exponent
  have hle : kPostfix ≤ (powFactors node.lead m.base m.exponent).1.level isType := by
    rw [hlevel]
    exact Nat.le_succ 15
  have hread := reparse_product h hgroups hpart hle hfactors (lead_powFactors _ _ _)
    (endsOperand_powFactors hcall.base node.lead m.exponent)
  rw [← applyFix_pow hcall source] at hread
  refine ⟨_, hread, fun ρ => ?_⟩
  have hvalue : node.value (real isType ρ) = _ :=
    (hcall.value ρ).trans (value_powFactors ρ node.lead m.base hcall.small)
  refine value_regroup (fun _ _ => rfl) (fun _ => rfl) (fun _ => rfl) hc hgroups ?_ hvalue hcall.args
  rw [hlevel]
  decide

/-- A product of two factors or more binds like `*`. -/
theorem level_powFactors (lead : Text) (x : Expr) (exponent : Nat) :
    (mulAll (powFactors lead x exponent).1 (powFactors lead x exponent).2).level isType = kTerm := by
  have hlevel : ∀ p q : Expr, (Expr.binary p times q).level isType = kTerm :=
    level_binary isType prec_times
  unfold powFactors
  split
  · exact hlevel _ _
  · exact hlevel _ _
  · exact hlevel _ _
  · exact hlevel _ _

/-- **The fixes of `pow-const-squared` and `pow-to-mul` keep the value** over
the reals if no operator but a sign or a `*` on the left takes the first factor;
if one does, the product is not read as one operand. -/
theorem powFix_keepsValue (isType : Text → Bool) {s : Text} {c : Ctx} {node : Expr}
    (h : parseText isType s = some (c.plug node)) {rule : PowRule} {m : PowMatch}
    (hm : matchPowCall isType rule node = some m) (source : SourceId)
    (happlicable : (m.fix source c node).machineApplicable = true) :
    (Groups isType c → KeepsRealValue isType s (m.fix source c node) (c.plug node))
      ∧ (¬ Groups isType c → ¬ ReadsProduct isType s (m.fix source c node) c node m) := by
  have ⟨_, hnode, _⟩ := part_of_parse h
  have hcall := matchPowCall_spec hnode hm happlicable
  constructor
  · intro hgroups
    exact keepsRealValue_of_groups h hcall hgroups source
  · intro hgroups hread
    rw [ReadsProduct, applyFix_pow hcall source, reparse_iff h
      ((lead_mulAll _ _).trans (lead_powFactors node.lead m.base m.exponent)), level_powFactors] at hread
    exact hgroups (groups_of_need hread.2.1)

/-- `-pow(x, 3.0)` becomes `-x * x * x`. -/
theorem powFix_keepsValue_sign :
    let c : Ctx := [.unary (.op ⟨[], ['-']⟩)]
    let node : Expr := .apply (.atom ⟨[], "pow".toList⟩) ⟨[], ['(']⟩
      (.binary (.atom ⟨[], ['x']⟩) ⟨[], [',']⟩ (.atom ⟨[' '], "3.0".toList⟩)) ⟨[], [')']⟩
    KeepsRealValue (fun _ => false) "-pow(x, 3.0)".toList
      ((⟨3, .atom ⟨[], ['x']⟩, true⟩ : PowMatch).fix ⟨1⟩ c node) (c.plug node) :=
  (@powFix_keepsValue (fun _ => false) _ _ _ (by decide +kernel) .powToMul _ (by decide +kernel) ⟨1⟩
    (by decide +kernel)).1 (.inr ⟨.inl rfl, trivial⟩)

/-- `a / pow(x, 2.0)` becomes `a / x * x`, which is `a` for `x` other than zero. -/
theorem powFix_divides :
    let c : Ctx := [.right (.atom ⟨[], ['a']⟩) ⟨[' '], ['/']⟩]
    let node : Expr := .apply (.atom ⟨[' '], "pow".toList⟩) ⟨[], ['(']⟩
      (.binary (.atom ⟨[], ['x']⟩) ⟨[], [',']⟩ (.atom ⟨[' '], "2.0".toList⟩)) ⟨[], [')']⟩
    let m : PowMatch := ⟨2, .atom ⟨[], ['x']⟩, true⟩
    parseText (fun _ => false) "a / pow(x, 2.0)".toList = some (c.plug node)
      ∧ matchPowCall (fun _ => false) .powConstSquared node = some m
      ∧ matchPowCall (fun _ => false) .powToMul node = some m
      ∧ (m.fix ⟨1⟩ c node).machineApplicable = true
      ∧ ¬ KeepsRealValue (fun _ => false) "a / pow(x, 2.0)".toList (m.fix ⟨1⟩ c node) (c.plug node) := by
  intro c node m
  have hparse : parseText (fun _ => false) "a / pow(x, 2.0)".toList = some (c.plug node) := by
    decide +kernel
  have hmatch : matchPowCall (fun _ => false) .powToMul node = some m := by decide +kernel
  refine ⟨hparse, by decide +kernel, hmatch, rfl, ?_⟩
  intro ⟨e, he, hvalue⟩
  let quotient : Expr := .binary (.atom ⟨[], ['a']⟩) ⟨[' '], ['/']⟩ (.atom ⟨[' '], ['x']⟩)
  have hread : parseText (fun _ => false) (applyFix "a / pow(x, 2.0)".toList (m.fix ⟨1⟩ c node))
      = some (.binary quotient times (.atom ⟨[' '], ['x']⟩)) := by
    decide +kernel
  rw [hread] at he
  cases he
  -- both variables are two
  let ρ : RealEnv :=
    ⟨fun _ => 2, fun _ _ => 0, fun _ _ => 0, fun _ _ _ => 0, fun _ _ => 0, fun _ _ => 0, fun _ _ => 0,
      fun _ _ => 0⟩
  have hcall := matchPowCall_spec (part_of_parse hparse).2.1 hmatch rfl
  have hpow : node.value (real (fun _ => false) ρ) = (2 : ℝ) ^ 2 := hcall.value ρ
  have hfixed := hvalue ρ
  have horiginal : (c.plug node).value (real (fun _ => false) ρ) = 2 / (2 : ℝ) ^ 2 :=
    (value_binary _ _ _ _).trans (congrArg (fun y : ℝ => 2 / y) hpow)
  have hquotient : (Expr.binary quotient times (.atom ⟨[' '], ['x']⟩)).value (real (fun _ => false) ρ)
      = (2 : ℝ) / 2 * 2 := rfl
  rw [horiginal, hquotient] at hfixed
  norm_num at hfixed

end ShaderClippy.Rules
