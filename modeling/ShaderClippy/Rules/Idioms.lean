/-
  ShaderClippy.Rules.Idioms

  **FORMULAS THAT HAVE A NAME**: `inv-sqrt-to-rsqrt`, `length-then-divide`,
  `manual-distance` and `pow-base-two-to-exp2`.

  Each of the four rules looks for a formula and writes a call of the intrinsic
  that computes it in its place, around the texts of one or two operands. The
  call stands everywhere and has the value of the formula over the reals, on any
  components; and the formula has a `sqrt`, a `length` or a `pow` more than the call.
  So every fix of these rules is safe, and takes one of these words away (`idiom_safe`).
-/
import ShaderClippy.Hlsl.Intrinsics
import ShaderClippy.Rules.FixPass
import ShaderClippy.Rules.LiteralValue
import ShaderClippy.Rules.OperandStructure

namespace ShaderClippy.Rules

open Hlsl
open Munch (LexOK Seam render)

/-! ## §1. The rules. -/

/-- The call a rule writes: a function, and the one or two operands it is called
with. -/
structure NamedCall where
  fn : Text
  first : Expr
  second : Option Expr

/-- Its text. -/
def NamedCall.text (r : NamedCall) : Text :=
  r.fn ++ '(' :: (nodeText r.first
    ++ (r.second.elim [] fun e => ',' :: ' ' :: nodeText e) ++ [')'])

/-- A rule about a formula: what it says, and what it finds in a node. The flag is
`machine_applicable`. A rule that `stops` does not look into a node it reported. -/
structure IdiomRule where
  id : Text
  message : Text
  description : Bool → Text
  stops : Bool
  find : (Text → Bool) → Expr → Option (NamedCall × Bool)

namespace InvSqrtToRsqrt

/-- `1 / sqrt(x)`. -/
def find (isType : Text → Bool) : Expr → Option (NamedCall × Bool)
  | .binary one op call =>
      if op.body ≠ ['/'] then none
      else
        (numberOf isType one).bind fun text =>
          if !isNumericLiteralOne text then none
          else
            (callOf call).bind fun call =>
              if identifierOf isType call.function ≠ some kSqrt then none
              else
                match call.args with
                | [arg] => some (⟨kRsqrt, arg, none⟩, true)
                | _ => none
  | _ => none

end InvSqrtToRsqrt

/-- `inv-sqrt-to-rsqrt`. -/
def invSqrtToRsqrt : IdiomRule where
  id := "inv-sqrt-to-rsqrt".toList
  message := "`1.0 / sqrt(x)` should be written as `rsqrt(x)` -- `rsqrt` is a single hardware ".toList
    ++ "instruction on every modern GPU".toList
  description _ := "replace `1.0 / sqrt(x)` with `rsqrt(x)`".toList
  stops := false
  find := InvSqrtToRsqrt.find

namespace LengthThenDivide

/-- `v / length(v)`. -/
def find (isType : Text → Bool) : Expr → Option (NamedCall × Bool)
  | .binary lhs op rhs =>
      if op.body ≠ ['/'] then none
      else
        match callTo kLength rhs with
        | some [inner] =>
            if nodeText lhs ≠ nodeText inner then none
            else some (⟨kNormalize, lhs, none⟩, (identifierOf isType lhs).isSome)
        | _ => none
  | _ => none

end LengthThenDivide

/-- `length-then-divide`. -/
def lengthThenDivide : IdiomRule where
  id := "length-then-divide".toList
  message := "`v / length(v)` is the open-coded form of `normalize(v)` -- prefer the named ".toList
    ++ "intrinsic, which may compile to a single rsqrt-and-multiply".toList
  description isSimple :=
    if isSimple then "replace `v / length(v)` with `normalize(v)`".toList
    else "replace with `normalize(v)`; verify the dividend is side-effect-free before ".toList
      ++ "applying".toList
  stops := true
  find := LengthThenDivide.find

namespace ManualDistance

/-- `unwrap_parens`. -/
def unwrapParens : Expr → Expr
  | .paren _ e _ => e
  | e => e

/-- `length(a - b)`. -/
def find (_ : Text → Bool) (node : Expr) : Option (NamedCall × Bool) :=
  match callTo kLength node with
  | some [arg] =>
      match unwrapParens arg with
      | .binary a op b => if op.body ≠ ['-'] then none else some (⟨kDistance, a, some b⟩, true)
      | _ => none
  | _ => none

end ManualDistance

/-- `manual-distance`. -/
def manualDistance : IdiomRule where
  id := "manual-distance".toList
  message := "`length(a - b)` is the open-coded form of `distance(a, b)` -- prefer the named ".toList
    ++ "intrinsic for clarity".toList
  description _ := "replace `length(a - b)` with `distance(a, b)`".toList
  stops := false
  find := ManualDistance.find

namespace PowBaseTwoToExp2

/-- `is_numeric_literal_two`. -/
def isNumericLiteralTwo (text : Text) : Bool := isNumericLiteralUint text 2

/-- `pow(2, x)`. -/
def find (isType : Text → Bool) (node : Expr) : Option (NamedCall × Bool) :=
  (callOf node).bind fun call =>
    if identifierOf isType call.function ≠ some kPow then none
    else
      match call.args with
      | [arg0, arg1] =>
          (numberOf isType arg0).bind fun text =>
            if !isNumericLiteralTwo text then none else some (⟨kExp2, arg1, none⟩, true)
      | _ => none

end PowBaseTwoToExp2

/-- `pow-base-two-to-exp2`. -/
def powBaseTwoToExp2 : IdiomRule where
  id := "pow-base-two-to-exp2".toList
  message := "`pow(2.0, x)` should be written as `exp2(x)` -- `exp2` is a single GPU instruction; ".toList
    ++ "`pow(2, x)` typically lowers to log2 + multiply + exp2".toList
  description _ := "replace `pow(2.0, x)` with `exp2(x)`".toList
  stops := false
  find := PowBaseTwoToExp2.find

/-- The four rules. -/
def idioms : List IdiomRule := [invSqrtToRsqrt, lengthThenDivide, manualDistance, powBaseTwoToExp2]

/-- The diagnostic at a node. -/
def IdiomRule.diagnostic (rule : IdiomRule) (source : SourceId) (c : Ctx) (node : Expr)
    (found : NamedCall × Bool) : Diagnostic where
  code := rule.id
  severity := .warning
  primarySpan := ⟨source, byteRange c node⟩
  message := rule.message
  fixes := [nodeFix source c node (rule.description found.2) found.2 found.1.text]

/-- What a rule finds from a node on, from the left to the right; a rule that stops
does not go into what it found. -/
def visit {α : Type} (f : Ctx → Expr → Option α) (stops : Bool) (c : Ctx) (e : Expr) : List α :=
  (f c e).toList ++
    if stops && (f c e).isSome then []
    else
      match e with
      | .atom _ => []
      | .paren l x r => visit f stops (.paren l r :: c) x
      | .construct type l args r => visit f stops (.construct type l r :: c) args
      | .unary p x => visit f stops (.unary p :: c) x
      | .binary x op y => visit f stops (.left op y :: c) x ++ visit f stops (.right x op :: c) y
      | .cond t q a k b =>
          visit f stops (.test q a k b :: c) t
            ++ (visit f stops (.consequence t q k b :: c) a ++ visit f stops (.alternative t q a k :: c) b)
      | .suffix x s => visit f stops (.suffix s :: c) x
      | .apply x l i r => visit f stops (.callee l i r :: c) x ++ visit f stops (.argument x l r :: c) i

/-- `on_tree`, and `on_node` over the whole tree. -/
def IdiomRule.onTree (isType : Text → Bool) (source : SourceId) (rule : IdiomRule) (root : Expr) :
    List Diagnostic :=
  visit (fun c node => (rule.find isType node).map (rule.diagnostic source c node)) rule.stops [] root

variable {isType : Text → Bool}

/-- What is made of what is found. -/
theorem visit_map {α β : Type} (f : Ctx → Expr → Option α) (g : α → β) (stops : Bool) (e : Expr) :
    ∀ c : Ctx, visit (fun c n => (f c n).map g) stops c e = (visit f stops c e).map g := by
  have hhere : ∀ (c : Ctx) (n : Expr) (below : List β) (below' : List α), below = below'.map g →
      (((f c n).map g).toList ++ if stops && ((f c n).map g).isSome then [] else below)
        = ((f c n).toList ++ if stops && (f c n).isSome then [] else below').map g := by
    rintro c n below below' rfl
    rw [List.map_append, Option.isSome_map]
    cases f c n <;> cases stops <;> rfl
  induction e with
  | atom t =>
      intro c
      rw [visit, visit]
      exact hhere c _ _ _ rfl
  | paren l x r ih =>
      intro c
      rw [visit, visit]
      exact hhere c _ _ _ (ih _)
  | construct type l args r ih =>
      intro c
      rw [visit, visit]
      exact hhere c _ _ _ (ih _)
  | unary p x ih =>
      intro c
      rw [visit, visit]
      exact hhere c _ _ _ (ih _)
  | binary x op y ihx ihy =>
      intro c
      rw [visit, visit]
      exact hhere c _ _ _ (by rw [ihx, ihy, List.map_append])
  | cond t q a k b iht iha ihb =>
      intro c
      rw [visit, visit]
      exact hhere c _ _ _ (by rw [iht, iha, ihb, List.map_append, List.map_append])
  | suffix x s ih =>
      intro c
      rw [visit, visit]
      exact hhere c _ _ _ (ih _)
  | apply x l i r ihx ihi =>
      intro c
      rw [visit, visit]
      exact hhere c _ _ _ (by rw [ihx, ihi, List.map_append])

/-- The nodes a rule reports, and what it found there. -/
def IdiomRule.findings (isType : Text → Bool) (rule : IdiomRule) (root : Expr) :
    List (Ctx × Expr × NamedCall × Bool) :=
  visit (fun c node => (rule.find isType node).map fun found => (c, node, found)) rule.stops [] root

theorem IdiomRule.onTree_eq (source : SourceId) (rule : IdiomRule) (root : Expr) :
    rule.onTree isType source root
      = (rule.findings isType root).map fun x => rule.diagnostic source x.1 x.2.1 x.2.2 := by
  unfold IdiomRule.onTree IdiomRule.findings
  rw [← visit_map]
  simp only [Option.map_map]
  rfl

/-- A rule suggests one fix of one edit for each of them. -/
theorem IdiomRule.fix_spec {source : SourceId} {rule : IdiomRule} {root : Expr} {d : Diagnostic}
    (hd : d ∈ rule.onTree isType source root) {f : Fix Char} (hf : f ∈ d.fixes) :
    f.edits ≠ [] ∧ ∃ x ∈ rule.findings isType root, f.machineApplicable = x.2.2.2 := by
  rw [IdiomRule.onTree_eq] at hd
  obtain ⟨x, hx, rfl⟩ := List.mem_map.mp hd
  cases List.mem_singleton.mp hf
  exact ⟨List.cons_ne_nil _ _, x, hx, rfl⟩

theorem InvSqrtToRsqrt.find_spec {node : Expr} {found : NamedCall × Bool} (h : find isType node = some found) :
    ∃ t op divisor call arg, node = .binary (.atom t) op divisor ∧ op.body = ['/'] ∧ kind isType t = .number
      ∧ isNumericLiteralOne t.body = true ∧ callOf divisor = some call
      ∧ identifierOf isType call.function = some kSqrt ∧ call.args = [arg] ∧ found = (⟨kRsqrt, arg, none⟩, true) := by
  unfold find at h
  split at h
  case h_2 => cases h
  case h_1 one op divisor =>
    split at h
    case isTrue => cases h
    case isFalse hop =>
      obtain ⟨text, htext, h⟩ := Option.bind_eq_some_iff.mp h
      split at h
      case isTrue => cases h
      case isFalse hone =>
        obtain ⟨call, hcall, h⟩ := Option.bind_eq_some_iff.mp h
        split at h
        case isTrue => cases h
        case isFalse hname =>
          split at h
          case h_2 => cases h
          case h_1 arg hargs =>
            cases h
            obtain ⟨t, rfl, hnumber, rfl⟩ := numberOf_spec htext
            exact ⟨t, op, divisor, call, arg, rfl, not_not.mp hop, hnumber,
              by rwa [Bool.not_eq_true', Bool.not_eq_false] at hone, hcall, not_not.mp hname, hargs, rfl⟩

theorem LengthThenDivide.find_spec {node : Expr} {found : NamedCall × Bool} (h : find isType node = some found) :
    ∃ lhs op rhs inner, node = .binary lhs op rhs ∧ op.body = ['/'] ∧ callTo kLength rhs = some [inner]
      ∧ nodeText lhs = nodeText inner ∧ found = (⟨kNormalize, lhs, none⟩, (identifierOf isType lhs).isSome) := by
  unfold find at h
  split at h
  case h_2 => cases h
  case h_1 lhs op rhs =>
    split at h
    case isTrue => cases h
    case isFalse hop =>
      split at h
      case h_2 => cases h
      case h_1 inner hcall =>
        split at h
        case isTrue => cases h
        case isFalse htext =>
          cases h
          exact ⟨lhs, op, rhs, inner, rfl, not_not.mp hop, hcall, not_not.mp htext, rfl⟩

theorem ManualDistance.find_spec {node : Expr} {found : NamedCall × Bool} (h : find isType node = some found) :
    ∃ arg a op b, callTo kLength node = some [arg] ∧ unwrapParens arg = .binary a op b ∧ op.body = ['-']
      ∧ found = (⟨kDistance, a, some b⟩, true) := by
  unfold find at h
  split at h
  case h_2 => cases h
  case h_1 arg hcall =>
    split at h
    case h_2 => cases h
    case h_1 a op b hbinary =>
      split at h
      case isTrue => cases h
      case isFalse hop =>
        cases h
        exact ⟨arg, a, op, b, hcall, hbinary, not_not.mp hop, rfl⟩

theorem PowBaseTwoToExp2.find_spec {node : Expr} {found : NamedCall × Bool} (h : find isType node = some found) :
    ∃ call t arg, callOf node = some call ∧ identifierOf isType call.function = some kPow
      ∧ call.args = [.atom t, arg] ∧ kind isType t = .number ∧ isNumericLiteralTwo t.body = true
      ∧ found = (⟨kExp2, arg, none⟩, true) := by
  unfold find at h
  obtain ⟨call, hcall, h⟩ := Option.bind_eq_some_iff.mp h
  split at h
  case isTrue => cases h
  case isFalse hname =>
    split at h
    case h_2 => cases h
    case h_1 arg0 arg1 hargs =>
      obtain ⟨text, htext, h⟩ := Option.bind_eq_some_iff.mp h
      split at h
      case isTrue => cases h
      case isFalse htwo =>
        cases h
        obtain ⟨t, rfl, hnumber, rfl⟩ := numberOf_spec htext
        exact ⟨call, t, arg1, hcall, not_not.mp hname, hargs, hnumber,
          by rwa [Bool.not_eq_true', Bool.not_eq_false] at htwo, rfl⟩

/-- What is found is found at a node of the tree. -/
theorem mem_visit {α : Type} {f : Ctx → Expr → Option α} {stops : Bool} {a : α} {e : Expr} :
    ∀ {c : Ctx}, a ∈ visit f stops c e → ∃ p ∈ places c e, f p.1 p.2 = some a := by
  -- what is found below a node is found, and so is what is found at it
  have hhere : ∀ {c : Ctx} {n : Expr} {below : List α} {rest : List (Ctx × Expr)},
      a ∈ (f c n).toList ++ (if stops && (f c n).isSome then [] else below) →
      (a ∈ below → ∃ p ∈ rest, f p.1 p.2 = some a) →
      ∃ p ∈ (c, n) :: rest, f p.1 p.2 = some a := by
    intro c n below rest h hbelow
    obtain h | h := List.mem_append.mp h
    · exact ⟨(c, n), List.mem_cons_self, Option.mem_toList.mp h⟩
    · split at h
      · cases h
      · obtain ⟨p, hp, hf⟩ := hbelow h
        exact ⟨p, List.mem_cons_of_mem _ hp, hf⟩
  have hboth : ∀ {below below' : List α} {rest rest' : List (Ctx × Expr)},
      (a ∈ below → ∃ p ∈ rest, f p.1 p.2 = some a) → (a ∈ below' → ∃ p ∈ rest', f p.1 p.2 = some a) →
      a ∈ below ++ below' → ∃ p ∈ rest ++ rest', f p.1 p.2 = some a := by
    intro below below' rest rest' hl hr h
    obtain h | h := List.mem_append.mp h
    · obtain ⟨p, hp, hf⟩ := hl h
      exact ⟨p, List.mem_append_left _ hp, hf⟩
    · obtain ⟨p, hp, hf⟩ := hr h
      exact ⟨p, List.mem_append_right _ hp, hf⟩
  induction e with
  | atom t =>
      intro c h
      rw [visit] at h
      exact hhere h nofun
  | paren l x r ih =>
      intro c h
      rw [visit] at h
      exact hhere h ih
  | construct type l args r ih =>
      intro c h
      rw [visit] at h
      exact hhere h ih
  | unary p x ih =>
      intro c h
      rw [visit] at h
      exact hhere h ih
  | binary x op y ihx ihy =>
      intro c h
      rw [visit] at h
      exact hhere h (hboth ihx ihy)
  | cond t q a k b iht iha ihb =>
      intro c h
      rw [visit] at h
      exact hhere h (hboth iht (hboth iha ihb))
  | suffix x s ih =>
      intro c h
      rw [visit] at h
      exact hhere h ih
  | apply x l i r ihx ihi =>
      intro c h
      rw [visit] at h
      exact hhere h (hboth ihx ihi)

/-! ## §2. The call. -/

namespace NamedCall

/-- The operands between the parentheses. -/
def operands (r : NamedCall) : Expr :=
  match r.second with
  | none => r.first.withLead []
  | some e => .binary (r.first.withLead []) comma (e.withLead [' '])

/-- The node the text stands for. -/
def node (isType : Text → Bool) (lead : Text) (r : NamedCall) : Expr :=
  callNode isType ⟨lead, r.fn⟩ ⟨[], ['(']⟩ r.operands ⟨[], [')']⟩

/-- An operand: a part that binds tighter than a comma. -/
def Operand (isType : Text → Bool) (e : Expr) : Prop := Part isType e ∧ 1 ≤ e.level isType

/-- A word is called, with operands. -/
structure WellFormed (isType : Text → Bool) (r : NamedCall) : Prop where
  fn : IsWord r.fn
  first : Operand isType r.first
  second : ∀ e, r.second = some e → Operand isType e

theorem nodeText_node (lead : Text) (r : NamedCall) : nodeText (r.node isType lead) = r.text := by
  have hfirst : render (r.first.withLead []).toks = nodeText r.first := by
    rw [toks_withLead]
    rfl
  rw [node, nodeText_callNode, text, operands]
  cases hsecond : r.second with
  | none =>
      rw [hfirst]
      show r.fn ++ '(' :: (nodeText r.first ++ [')']) = r.fn ++ '(' :: (nodeText r.first ++ [] ++ [')'])
      rw [List.append_nil]
  | some e =>
      have hsecond : render (e.withLead [' ']).toks = ' ' :: nodeText e := by
        rw [toks_withLead, render_setLead _ e.toks_ne_nil]
        rfl
      show r.fn ++ '(' :: (render ((r.first.withLead []).toks ++ comma :: (e.withLead [' ']).toks) ++ [')']) = _
      rw [Munch.render_append, Munch.render_cons, hfirst, hsecond]
      rfl

variable {r : NamedCall}

/-- Between the parentheses there is a part that runs into neither. -/
theorem operands_spec (h : r.WellFormed isType) :
    Part isType r.operands ∧ Seam rules r.operands.toks [⟨[], [')']⟩] := by
  have hfirst := component_withLead h.first.1 h.first.2 blank_nil
  rw [operands]
  cases hsecond : r.second with
  | none => exact ⟨hfirst.part, hfirst.ends ')' (by decide) []⟩
  | some e =>
      obtain ⟨hpart, hlevel⟩ := h.second e hsecond
      obtain ⟨hboth, hends⟩ := part_comma hfirst.part (hfirst.ends ',' (by decide))
        (component_withLead hpart hlevel blank_space)
      exact ⟨hboth, hends ')' (by decide) []⟩

theorem part_node (h : r.WellFormed isType) {lead : Text} (hlead : Blank lead) :
    Part isType (r.node isType lead) :=
  part_callNode h.fn hlead (operands_spec h).1 (operands_spec h).2

/-- The values it is called with. -/
theorem arguments_operands (h : r.WellFormed isType) {V : Type} (A : Algebra V) :
    (arguments r.operands).map (Expr.value A)
      = r.first.value A :: (r.second.elim [] fun e => [e.value A]) := by
  have hfirst : arguments (r.first.withLead []) = [r.first.withLead []] :=
    @arguments_of_level isType _ (by rw [level_withLead]; exact h.first.2)
  rw [operands]
  cases hsecond : r.second with
  | none =>
      show (arguments (r.first.withLead [])).map (Expr.value A) = [r.first.value A]
      rw [hfirst, List.map_singleton, value_withLead]
  | some e =>
      show (arguments (.binary (r.first.withLead []) comma (e.withLead [' ']))).map (Expr.value A)
        = [r.first.value A, e.value A]
      rw [arguments, if_pos (show comma.body = [','] from rfl), hfirst, List.singleton_append, List.map_cons,
        List.map_singleton, value_withLead, value_withLead]

/-- What it means. -/
theorem meaning_node (h : r.WellFormed isType) {V : Type} (A : Algebra V) (lead : Text) :
    meaning A (r.node isType lead)
      = .ofValue (A.call (.name r.fn) (r.first.value A :: (r.second.elim [] fun e => [e.value A]))) := by
  rw [← arguments_operands h, ← meaning_args, node, callNode]
  split
  · rfl
  · rw [meaning, if_pos rfl]
    rfl

end NamedCall

/-! ## §3. Calls that are found. -/

/-- Only an atom has one token. -/
theorem atom_of_length {e : Expr} (h : e.toks.length = 1) : ∃ t, e = .atom t := by
  have hpos : ∀ x : Expr, 0 < x.toks.length := fun x => List.length_pos_iff.mpr x.toks_ne_nil
  cases e with
  | atom t => exact ⟨t, rfl⟩
  | paren l x r => simp [Expr.toks] at h
  | construct type l args r => simp [Expr.toks] at h
  | unary p x =>
      have hx := hpos x
      cases p <;> simp only [Expr.toks, Prefix.toks, List.length_append, List.length_cons, List.length_nil] at h
        <;> omega
  | binary x op y =>
      have hx := hpos x
      simp only [Expr.toks, List.length_append, List.length_cons] at h
      have hy := hpos y
      omega
  | cond t q a k b =>
      have ht := hpos t
      simp only [Expr.toks, List.length_append, List.length_cons] at h
      omega
  | suffix x s =>
      have hx := hpos x
      cases s <;> simp only [Expr.toks, Suffix.toks, List.length_append, List.length_cons, List.length_nil] at h
        <;> omega
  | apply x l i r =>
      have hx := hpos x
      simp only [Expr.toks, List.length_append, List.length_cons] at h
      omega

/-- A part with the text of a word is the word. -/
theorem word_of_nodeText {fn : Text} (hfn : IsWord fn) {e : Expr} (h : Part isType e)
    (htext : nodeText e = fn) : ∃ lead, e = .atom ⟨lead, fn⟩ := by
  have hword : LexOK rules [(⟨[], fn⟩ : Token)] :=
    ⟨nofun, isToken_word hfn.starts hfn.chars, Munch.stops_nil _, trivial⟩
  -- the text has one token, and it is the word
  have hlex : Munch.lex rules fn = some (setLead [] e.toks, []) :=
    Munch.lex_iff.mpr ⟨lexOK_setLead blank_nil h.2, nofun, by rw [List.append_nil, ← htext]; rfl⟩
  have hlex' : Munch.lex rules fn = some ([⟨[], fn⟩], []) :=
    Munch.lex_iff.mpr ⟨hword, nofun, by simp [Munch.render_cons, Munch.Lexeme.text]⟩
  have htoks : setLead [] e.toks = [⟨[], fn⟩] := congrArg Prod.fst (Option.some.inj (hlex.symm.trans hlex'))
  have hlen : e.toks.length = 1 := by
    cases hts : e.toks with
    | nil => exact absurd hts e.toks_ne_nil
    | cons t ts =>
        rw [hts] at htoks
        exact congrArg List.length htoks
  obtain ⟨t, rfl⟩ := atom_of_length hlen
  obtain ⟨lead, body⟩ := t
  cases htoks
  exact ⟨lead, rfl⟩

/-- **A call of a word** means what the function does with its arguments. -/
theorem meaning_call {V : Type} (A : Algebra V) {fn : Text} (hfn : IsWord fn) {node : Expr}
    (h : Part isType node) {call : Call} (hcall : callOf node = some call)
    (hname : nodeText call.function = fn) :
    meaning A node = .ofValue (A.call (.name fn) (call.args.map (Expr.value A))) := by
  cases node with
  | apply f l i r =>
      rw [callOf] at hcall
      split at hcall
      case isTrue hl =>
        cases hcall
        obtain ⟨lead, rfl⟩ := word_of_nodeText hfn (Part.fill (f := .callee l i r) h) hname
        rw [meaning, if_pos hl, ← meaning_args]
        rfl
      case isFalse => cases hcall
  | construct type l args r =>
      cases hcall
      have hbody : type.body = fn := by
        rw [← hname]
        show type.body = [] ++ type.body ++ []
        rw [List.nil_append, List.append_nil]
      rw [meaning, hbody, ← meaning_args]
  | suffix f s =>
      cases s with
      | nullary l r =>
          cases hcall
          obtain ⟨lead, rfl⟩ := word_of_nodeText hfn (Part.fill (f := .suffix (.nullary l r)) h) hname
          rfl
      | step => cases hcall
      | member => cases hcall
  | _ => cases hcall

/-- The same for an identifier that is called. -/
theorem nodeText_identifier {e : Expr} {fn : Text} (h : identifierOf isType e = some fn) : nodeText e = fn := by
  obtain ⟨t, rfl, _, rfl⟩ := identifierOf_spec h
  show [] ++ t.body ++ [] = t.body
  rw [List.nil_append, List.append_nil]

/-- A call to a function by its text. -/
theorem meaning_callTo {V : Type} (A : Algebra V) {fn : Text} (hfn : IsWord fn) {node : Expr}
    (h : Part isType node) {args : List Expr} (hcall : callTo fn node = some args) :
    meaning A node = .ofValue (A.call (.name fn) (args.map (Expr.value A))) := by
  obtain ⟨call, hc, hname⟩ := Option.bind_eq_some_iff.mp hcall
  split at hname
  case isTrue htext =>
    cases hname
    exact meaning_call A hfn h hc htext
  case isFalse => cases hname

/-- A literal that reads as a small number has its value. -/
theorem realLiteral_uint {t : Text} (hnumber : kindOf isType t = .number) {n : Nat} (hn : n < 8)
    (h : isNumericLiteralUint t n = true) : realLiteral t = n := by
  rw [isNumericLiteralUint] at h
  split at h
  case h_2 => cases h
  case h_1 digits hdigits =>
    have hsmall := digitsValue_small hn (beq_iff_eq.mp h)
    obtain ⟨hinteger, hdecimal⟩ := value_of_digits hnumber hdigits fun base _ => hsmall base
    rw [realLiteral]
    split
    · exact hdecimal
    · rw [hinteger]

/-! ## §4. The formulas. -/

/-- What a rule may write for a node: a well-formed call that means what the node
means. -/
structure Sound (isType : Text → Bool) (node : Expr) (r : NamedCall) : Prop where
  wellFormed : r.WellFormed isType
  same : ∀ (ρ : VectorEnv) (lead : Text),
    meaning (intrinsics isType ρ) node = meaning (intrinsics isType ρ) (r.node isType lead)

/-- An operator that is no comma. -/
theorem meaning_binary {V : Type} (A : Algebra V) {x : Expr} {op : Token} {y : Expr} (hop : op.body ≠ [',']) :
    meaning A (.binary x op y) = .ofValue (A.binary op.body (x.value A) (y.value A)) := by
  rw [meaning, if_neg hop]
  rfl

theorem isWord_sqrt : IsWord kSqrt := ⟨rfl, rfl⟩

theorem isWord_length : IsWord kLength := ⟨rfl, rfl⟩

theorem isWord_pow : IsWord kPow := ⟨rfl, rfl⟩

/-- An operand of a call. -/
theorem operand_of_call {node : Expr} (h : Part isType node) {call : Call} (hcall : callOf node = some call)
    {a : Expr} (ha : a ∈ call.args) : NamedCall.Operand isType a := callOf_spec h hcall a ha

theorem invSqrtToRsqrt_sound {node : Expr} (h : Part isType node) {found : NamedCall × Bool}
    (hf : InvSqrtToRsqrt.find isType node = some found) : Sound isType node found.1 := by
  obtain ⟨t, op, divisor, call, arg, rfl, hop, hnumber, hone, hcall, hname, hargs, rfl⟩ :=
    InvSqrtToRsqrt.find_spec hf
  have hpart : Part isType divisor := Part.fill (f := .right (.atom t) op) h
  have hword : ({ fn := kRsqrt, first := arg, second := none } : NamedCall).WellFormed isType :=
    ⟨⟨rfl, rfl⟩, operand_of_call hpart hcall (by rw [hargs]; exact List.mem_singleton_self _), nofun⟩
  refine ⟨hword, fun ρ lead => ?_⟩
  have hcomma : op.body ≠ [','] := by
    rw [hop]
    decide
  have hvalue : divisor.value (intrinsics isType ρ) = (arg.value (intrinsics isType ρ)).map Real.sqrt := by
    rw [Expr.value, meaning_call _ isWord_sqrt hpart hcall (nodeText_identifier hname), hargs, List.map_singleton,
      call_sqrt]
    rfl
  have hliteral : realLiteral t.body = ((1 : ℕ) : ℝ) := realLiteral_uint hnumber (by omega) hone
  rw [NamedCall.meaning_node hword, meaning_binary _ hcomma, hop, hvalue, value_number ρ hnumber, hliteral,
    Nat.cast_one]
  show Meaning.ofValue (componentwise (· / ·) [1] _)
    = .ofValue ((intrinsics isType ρ).call (.name kRsqrt) [arg.value (intrinsics isType ρ)])
  rw [call_rsqrt, componentwise_scalar, List.map_map]
  rfl

theorem lengthThenDivide_sound {node : Expr} (h : Part isType node) {found : NamedCall × Bool}
    (hf : LengthThenDivide.find isType node = some found) : Sound isType node found.1 := by
  obtain ⟨lhs, op, rhs, inner, rfl, hop, hcall, htext, rfl⟩ := LengthThenDivide.find_spec hf
  have hleft : Part isType lhs := Part.fill (f := .left op rhs) h
  have hright : Part isType rhs := Part.fill (f := .right lhs op) h
  obtain ⟨hinner, hlevel⟩ := callTo_spec hright hcall inner (List.mem_singleton_self _)
  -- the dividend is the operand, so it binds as tightly
  have hlevel' : 1 ≤ lhs.level isType := by
    rw [← @level_withLead isType [] lhs, eq_of_nodeText hleft hinner htext, level_withLead]
    exact hlevel
  have hword : ({ fn := kNormalize, first := lhs, second := none } : NamedCall).WellFormed isType :=
    ⟨⟨rfl, rfl⟩, ⟨hleft, hlevel'⟩, nofun⟩
  refine ⟨hword, fun ρ lead => ?_⟩
  have hcomma : op.body ≠ [','] := by
    rw [hop]
    decide
  have hvalue : rhs.value (intrinsics isType ρ) = [euclid (lhs.value (intrinsics isType ρ))] := by
    rw [Expr.value, meaning_callTo _ isWord_length hright hcall, List.map_singleton, call_length,
      value_of_nodeText _ hleft hinner htext]
    rfl
  rw [NamedCall.meaning_node hword, meaning_binary _ hcomma, hop, hvalue]
  show Meaning.ofValue (componentwise (· / ·) _ [_])
    = .ofValue ((intrinsics isType ρ).call (.name kNormalize) [lhs.value (intrinsics isType ρ)])
  rw [call_normalize, componentwise_right]

theorem value_unwrapParens {V : Type} (A : Algebra V) (e : Expr) :
    (ManualDistance.unwrapParens e).value A = e.value A := by
  cases e <;> rfl

theorem part_unwrapParens {e : Expr} (h : Part isType e) : Part isType (ManualDistance.unwrapParens e) := by
  cases e with
  | paren l e r => exact Part.fill (f := .paren l r) h
  | _ => exact h

theorem manualDistance_sound {node : Expr} (h : Part isType node) {found : NamedCall × Bool}
    (hf : ManualDistance.find isType node = some found) : Sound isType node found.1 := by
  obtain ⟨arg, a, op, b, hcall, hbinary, hop, rfl⟩ := ManualDistance.find_spec hf
  have harg : Part isType (.binary a op b) := by
    rw [← hbinary]
    exact part_unwrapParens (callTo_spec h hcall arg (List.mem_singleton_self _)).1
  -- both operands of `-` bind tighter than a comma
  obtain ⟨p, hp, hpa, hla, hpb, hlb⟩ := harg.1
  have hprec : p = leftAssoc 11 := by
    rw [kind, hop] at hp
    exact (Option.some.inj hp).symm
  have hword : ({ fn := kDistance, first := a, second := some b } : NamedCall).WellFormed isType := by
    refine ⟨⟨rfl, rfl⟩, ⟨Part.fill (f := .left op b) harg, ?_⟩, ?_⟩
    · rw [hprec] at hla
      exact Nat.le_trans (by decide) hla
    · rintro e ⟨⟩
      rw [hprec] at hlb
      exact ⟨Part.fill (f := .right a op) harg, Nat.le_trans (by decide) hlb⟩
  refine ⟨hword, fun ρ lead => ?_⟩
  have hvalue : arg.value (intrinsics isType ρ)
      = componentwise (· - ·) (a.value (intrinsics isType ρ)) (b.value (intrinsics isType ρ)) := by
    rw [← value_unwrapParens, hbinary, value_binary, hop]
    rfl
  rw [NamedCall.meaning_node hword, meaning_callTo _ isWord_length h hcall, List.map_singleton, hvalue, call_length]
  show _ = Meaning.ofValue ((intrinsics isType ρ).call (.name kDistance)
    [a.value (intrinsics isType ρ), b.value (intrinsics isType ρ)])
  rw [call_distance]

theorem powBaseTwoToExp2_sound {node : Expr} (h : Part isType node) {found : NamedCall × Bool}
    (hf : PowBaseTwoToExp2.find isType node = some found) : Sound isType node found.1 := by
  obtain ⟨call, t, arg, hcall, hname, hargs, hnumber, htwo, rfl⟩ := PowBaseTwoToExp2.find_spec hf
  have hword : ({ fn := kExp2, first := arg, second := none } : NamedCall).WellFormed isType :=
    ⟨⟨rfl, rfl⟩, operand_of_call h hcall (by rw [hargs]; simp), nofun⟩
  refine ⟨hword, fun ρ lead => ?_⟩
  have hliteral : realLiteral t.body = ((2 : ℕ) : ℝ) := realLiteral_uint hnumber (by omega) htwo
  rw [NamedCall.meaning_node hword, meaning_call _ isWord_pow h hcall (nodeText_identifier hname), hargs,
    List.map_cons, List.map_singleton, value_number ρ hnumber, hliteral, call_pow, Nat.cast_ofNat,
    componentwise_scalar]
  show _ = Meaning.ofValue ((intrinsics isType ρ).call (.name kExp2) [arg.value (intrinsics isType ρ)])
  rw [call_exp2]

/-- **What the four rules write** means what it is written for. -/
theorem idioms_sound {rule : IdiomRule} (hrule : rule ∈ idioms) {node : Expr} (h : Part isType node)
    {found : NamedCall × Bool} (hf : rule.find isType node = some found) : Sound isType node found.1 := by
  simp only [idioms, List.mem_cons, List.not_mem_nil, or_false] at hrule
  obtain rfl | rfl | rfl | rfl := hrule
  · exact invSqrtToRsqrt_sound h hf
  · exact lengthThenDivide_sound h hf
  · exact manualDistance_sound h hf
  · exact powBaseTwoToExp2_sound h hf

/-! ## §5. Fewer formulas. -/

/-- The functions the formulas are made of. -/
def idiomWords : List Text := [kSqrt, kLength, kPow]

section Words

variable {words : List Text}

theorem occurrences_withLead (lead : Text) (e : Expr) : occurrences words (e.withLead lead) = occurrences words e := by
  unfold occurrences
  rw [toks_withLead]
  cases e.toks with
  | nil => rfl
  | cons t ts =>
      rw [setLead, List.countP_cons, List.countP_cons]

theorem occurrences_binary {x : Expr} {op : Token} {y : Expr} (hop : op.body ∉ words) :
    occurrences words (.binary x op y) = occurrences words x + occurrences words y := by
  unfold occurrences
  rw [Expr.toks, List.countP_append, List.countP_cons, if_neg (fun h => hop (of_decide_eq_true h)), Nat.add_zero]

theorem occurrences_arguments (i : Expr) : ((arguments i).map (occurrences words)).sum ≤ occurrences words i := by
  induction i with
  | binary x op y ihx _ =>
      rw [arguments]
      split
      case isTrue =>
        rw [List.map_append, List.sum_append, List.map_singleton, List.sum_singleton]
        have hboth : occurrences words (.binary x op y)
            = occurrences words x + (y.toks.countP (fun t => decide (t.body ∈ words))
              + if decide (op.body ∈ words) = true then 1 else 0) := by
          unfold occurrences
          rw [Expr.toks, List.countP_append, List.countP_cons]
        have hy : occurrences words y = y.toks.countP fun t => decide (t.body ∈ words) := rfl
        omega
      case isFalse => simp
  | _ => simp [arguments]

/-- The function of a call and its arguments are in the call. -/
theorem occurrences_call {node : Expr} {call : Call} (h : callOf node = some call) :
    occurrences words call.function + (call.args.map (occurrences words)).sum ≤ occurrences words node := by
  cases node with
  | apply f l i r =>
      rw [callOf] at h
      split at h
      case isTrue =>
        cases h
        have hargs := @occurrences_arguments words i
        have hnode : occurrences words f + occurrences words i ≤ occurrences words (.apply f l i r) := by
          unfold occurrences
          rw [Expr.toks, List.countP_append, List.countP_cons, List.countP_append]
          omega
        exact Nat.le_trans (Nat.add_le_add_left hargs _) hnode
      case isFalse => cases h
  | construct type l args r =>
      cases h
      have hargs := @occurrences_arguments words args
      have hnode : occurrences words (.atom type) + occurrences words args
          ≤ occurrences words (.construct type l args r) := by
        unfold occurrences
        rw [Expr.toks, Expr.toks, List.countP_cons, List.countP_cons, List.countP_cons, List.countP_append,
          List.countP_nil]
        omega
      exact Nat.le_trans (Nat.add_le_add_left hargs _) hnode
  | suffix f s =>
      cases s with
      | nullary l r =>
          cases h
          unfold occurrences
          rw [Expr.toks, List.countP_append]
          simp
      | step => cases h
      | member => cases h
  | _ => cases h

/-- A function with the text of a word is the word. -/
theorem function_of_call {fn : Text} (hfn : IsWord fn) {node : Expr} (h : Part isType node) {call : Call}
    (hcall : callOf node = some call) (hname : nodeText call.function = fn) :
    ∃ lead, call.function = .atom ⟨lead, fn⟩ := by
  cases node with
  | apply f l i r =>
      rw [callOf] at hcall
      split at hcall
      case isTrue =>
        cases hcall
        exact word_of_nodeText hfn (Part.fill (f := .callee l i r) h) hname
      case isFalse => cases hcall
  | construct type l args r =>
      cases hcall
      have hbody : type.body = fn := by
        rw [← hname]
        show type.body = [] ++ type.body ++ []
        rw [List.nil_append, List.append_nil]
      exact ⟨type.lead, by rw [← hbody]⟩
  | suffix f s =>
      cases s with
      | nullary l r =>
          cases hcall
          exact word_of_nodeText hfn (Part.fill (f := .suffix (.nullary l r)) h) hname
      | step => cases hcall
      | member => cases hcall
  | _ => cases hcall

theorem occurrences_word {t : Token} (h : t.body ∈ words) : occurrences words (.atom t) = 1 := by
  unfold occurrences
  rw [Expr.toks, List.countP_singleton, if_pos (decide_eq_true h)]

/-- A call of one of the words. -/
theorem occurrences_named {node : Expr} {call : Call} (hcall : callOf node = some call) {name : Text}
    (hname : identifierOf isType call.function = some name) (hmem : name ∈ words) :
    (call.args.map (occurrences words)).sum + 1 ≤ occurrences words node := by
  obtain ⟨t, hfn, _, rfl⟩ := identifierOf_spec hname
  have hle := @occurrences_call words _ _ hcall
  rw [hfn, occurrences_word hmem] at hle
  omega

/-- The same, by its text. -/
theorem occurrences_callTo {fn : Text} (hfn : IsWord fn) {node : Expr} (h : Part isType node) {args : List Expr}
    (hcall : callTo fn node = some args) (hmem : fn ∈ words) :
    (args.map (occurrences words)).sum + 1 ≤ occurrences words node := by
  obtain ⟨call, hc, hname⟩ := Option.bind_eq_some_iff.mp hcall
  split at hname
  case isFalse => cases hname
  case isTrue htext =>
    cases hname
    obtain ⟨lead, hfunction⟩ := function_of_call hfn h hc htext
    have hle := @occurrences_call words _ _ hc
    rw [hfunction, occurrences_word hmem] at hle
    omega

/-- What a rule writes has the words of its operands. -/
theorem NamedCall.occurrences_node {r : NamedCall} (hfn : r.fn ∉ words) (hl : ['('] ∉ words) (hr : [')'] ∉ words)
    (hcomma : [','] ∉ words) (lead : Text) :
    occurrences words (r.node isType lead) = occurrences words r.first + r.second.elim 0 (occurrences words) := by
  have hnode : occurrences words (r.node isType lead) = occurrences words r.operands := by
    unfold occurrences
    rw [NamedCall.node, toks_callNode]
    simp [hfn, hl, hr, List.countP_append]
  have hfirst := @occurrences_withLead words [] r.first
  rw [hnode, NamedCall.operands]
  cases r.second with
  | none => exact hfirst
  | some e =>
      have hsecond := @occurrences_withLead words [' '] e
      show occurrences words (.binary (r.first.withLead []) comma (e.withLead [' '])) = _ + occurrences words e
      rw [occurrences_binary hcomma, hfirst, hsecond]

theorem occurrences_unwrapParens (e : Expr) :
    occurrences words (ManualDistance.unwrapParens e) ≤ occurrences words e := by
  cases e with
  | paren l e r =>
      unfold occurrences
      rw [Expr.toks, List.countP_cons, List.countP_append]
      show e.toks.countP _ ≤ _
      omega
  | _ => exact Nat.le_refl _

end Words

/-- **What the four rules write** has fewer of the words than what it is written for. -/
theorem idioms_lighter {rule : IdiomRule} (hrule : rule ∈ idioms) {node : Expr} (h : Part isType node)
    {found : NamedCall × Bool} (hf : rule.find isType node = some found) (lead : Text) :
    Lighter idiomWords node (found.1.node isType lead) := by
  simp only [idioms, List.mem_cons, List.not_mem_nil, or_false] at hrule
  unfold Lighter
  obtain rfl | rfl | rfl | rfl := hrule
  · obtain ⟨t, op, divisor, call, arg, rfl, hop, _, _, hcall, hname, hargs, rfl⟩ := InvSqrtToRsqrt.find_spec hf
    have hle := @occurrences_named isType idiomWords _ _ hcall _ hname (by decide)
    rw [hargs, List.map_singleton, List.sum_singleton] at hle
    rw [NamedCall.occurrences_node (show kRsqrt ∉ idiomWords by decide) (by decide) (by decide) (by decide),
      occurrences_binary (by rw [hop]; decide)]
    show occurrences idiomWords arg + 0 < _
    omega
  · obtain ⟨lhs, op, rhs, inner, rfl, hop, hcall, _, rfl⟩ := LengthThenDivide.find_spec hf
    have hle := @occurrences_callTo isType idiomWords _ isWord_length _ (Part.fill (f := .right lhs op) h) _ hcall
      (by decide)
    rw [NamedCall.occurrences_node (show kNormalize ∉ idiomWords by decide) (by decide) (by decide) (by decide),
      occurrences_binary (by rw [hop]; decide)]
    show occurrences idiomWords lhs + 0 < _
    omega
  · obtain ⟨arg, a, op, b, hcall, hunwrap, hop, rfl⟩ :=
      @ManualDistance.find_spec isType _ _ hf
    have hle := @occurrences_callTo isType idiomWords _ isWord_length _ h _ hcall (by decide)
    have hinner := @occurrences_unwrapParens idiomWords arg
    rw [List.map_singleton, List.sum_singleton] at hle
    rw [hunwrap, occurrences_binary (by rw [hop]; decide)] at hinner
    rw [NamedCall.occurrences_node (show kDistance ∉ idiomWords by decide) (by decide) (by decide) (by decide)]
    show occurrences idiomWords a + occurrences idiomWords b < _
    omega
  · obtain ⟨call, t, arg, hcall, hname, hargs, _, _, rfl⟩ := PowBaseTwoToExp2.find_spec hf
    have hle := @occurrences_named isType idiomWords _ _ hcall _ hname (by decide)
    rw [hargs, List.map_cons, List.map_singleton, List.sum_cons, List.sum_singleton] at hle
    rw [NamedCall.occurrences_node (show kExp2 ∉ idiomWords by decide) (by decide) (by decide) (by decide)]
    show occurrences idiomWords arg + 0 < _
    omega

/-! ## §6. The fixes. -/

/-- The replacement of a node by a call that may be written for it. -/
def Sound.replacement {root : Expr} {s : Text} (hs : parseText isType s = some root) {c : Ctx} {node : Expr}
    (hplug : c.plug node = root) {r : NamedCall} (h : Sound isType node r) :
    Replacement isType (intrinsics isType) root where
  place := c
  node := node
  new := r.node isType node.lead
  plugged := hplug
  fits := by
    obtain ⟨hc, hnode, hafter⟩ := part_of_parse (hplug ▸ hs)
    have hpart := r.part_node h.wellFormed (blank_lead hnode.2)
    obtain ⟨hneed, hbefore, hbehind⟩ := stands_callNode hc hafter h.wellFormed.fn hpart
    exact ⟨lead_callNode _ _ _, hpart, hneed, hbefore, hbehind⟩
  same := fun ρ => .inl (h.same ρ node.lead)

/-- **Every fix of the four rules is safe.** -/
theorem idiom_safe {s : Text} {root : Expr} (hs : parseText isType s = some root) {rule : IdiomRule}
    (hrule : rule ∈ idioms) (source : SourceId) {d : Diagnostic} (hd : d ∈ rule.onTree isType source root)
    {f : Fix Char} (hf : f ∈ d.fixes) : SafeFix isType (intrinsics isType) (Lighter idiomWords) root f := by
  obtain ⟨⟨c, node⟩, hplace, hfound⟩ := mem_visit hd
  obtain ⟨found, hfind, rfl⟩ := Option.map_eq_some_iff.mp hfound
  cases List.mem_singleton.mp hf
  have hplug : c.plug node = root := plug_of_mem_places hplace
  have hpart := (part_of_parse (hplug ▸ hs)).2.1
  have hsafe := safeFix_single ((idioms_sound hrule hpart hfind).replacement hs hplug)
    (idioms_lighter hrule hpart hfind node.lead) source (rule.description found.2) found.2
  rw [← @NamedCall.nodeText_node isType node.lead]
  exact hsafe

end ShaderClippy.Rules
