/-
  ShaderClippy.Rules.GuardFix

  **DO THE GUARDS LEAVE GOOD VALUES ALONE?**
  (`div_without_epsilon.cpp`, `acos_without_saturate.cpp`,
  `sqrt_of_potentially_negative.cpp`)

  Each of the three rules writes a call around the text of one operand: `max` or
  `clamp`. A value that needs no guard should go through unchanged.

  Read again, the operand is where it was, in a call that the rule passes over.
  An argument of `acos`, `asin` or `sqrt` inside the domain keeps its value. A
  divisor does not if it is negative: the quotient is the same exactly if, in
  every component, the numerator is zero or the divisor is no less than the
  epsilon that is written (`guardLaw_iff`).
-/
import ShaderClippy.Hlsl.VectorFunctions
import ShaderClippy.Lib.GeneralFormat
import ShaderClippy.Rules.GroupsharedBudget
import ShaderClippy.Rules.OperandStructure
import ShaderClippy.Rules.PurityOracle
import ShaderClippy.Rules.SqrtSubtraction

namespace ShaderClippy.Rules.GuardFix

open Hlsl
open Munch (LexOK Seam render IsToken)
open GroupsharedBudget (isIdChar)
open SqrtSubtraction (canRoundNegative)

/-! ## §1. The scans. -/

/-- What `divisor_is_unguarded_length_or_dot` passes over. -/
def isLeading (c : Char) : Bool := c == ' ' || c == '\t' || c == '('

/-- The text begins with the name of a function and its parenthesis. -/
def beginsCall (name text : Text) : Bool :=
  (name ++ ['(']).isPrefixOf text || (name ++ [' ', '(']).isPrefixOf text

/-- `divisor_is_unguarded_length_or_dot`. -/
def divisorIsUnguarded (rhs : Text) : Bool :=
  let rhs := rhs.dropWhile isLeading
  if beginsCall kMax rhs then false else beginsCall kLength rhs || beginsCall kDot rhs

/-- `starts_with_word`. -/
def startsWithWord (text word : Text) : Bool :=
  word.isPrefixOf text && !(text.drop word.length).head?.any isIdChar

/-- What the scan for a guard passes over. -/
def isBeforeGuard (c : Char) : Bool := c == ' ' || c == '\t' || c == '(' || c == '+' || c == '-'

/-- The argument text calls `dot` and does not begin with a guard. -/
def hasUnguardedDot (arg : Text) : Bool :=
  let rest := arg.dropWhile isBeforeGuard
  arg.tails.any (beginsCall kDot ·) && !(startsWithWord rest "saturate".toList || startsWithWord rest kClamp)

/-- The argument text does not begin with a guard, and subtracts. -/
def needsMax (arg : Text) : Bool :=
  !beginsCall kMax (arg.dropWhile fun c => c == ' ' || c == '\t') && canRoundNegative arg

/-! ## §2. The epsilon. -/

/-- The value of a `float` that is not negative. -/
structure Epsilon where
  value : ℚ
  nonneg : 0 ≤ value

/-- `k_default_div_epsilon`: `1.0e-6F`. -/
def kDefaultDivEpsilon : Epsilon := ⟨8796093 / 2 ^ 43, by norm_num⟩

/-- `k_default_compare_epsilon`: `0.0001F`. -/
def kDefaultCompareEpsilon : Epsilon := ⟨13743895 / 2 ^ 37, by norm_num⟩

/-- `render_float_literal`. -/
def renderFloatLiteral (value : Epsilon) : Text :=
  if value.value = kDefaultCompareEpsilon.value then "0.0001f".toList
  else if value.value = kDefaultDivEpsilon.value then "1e-06f".toList
  else
    let out := GeneralFormat.generalText 7 value.value
    (if !out.contains '.' && !out.contains 'e' && !out.contains 'E' then out ++ ".0".toList else out) ++ ['f']

/-! ## §3. The rules. -/

/-- The rules; the first reads an epsilon from the configuration, if there is one. -/
inductive GuardRule where
  | divWithoutEpsilon (config : Option Epsilon)
  | acosWithoutSaturate
  | sqrtOfPotentiallyNegative

/-- An operand that is not guarded: where it is in the node, and the text of the
function. -/
structure GuardMatch where
  function : Text
  place : Ctx
  operand : Expr

/-- `ts_node_named_child(args, 0)`, with its place in the arguments. -/
def firstArgument : Expr → Ctx × Expr
  | .binary x op y =>
      if op.body = [','] then ((firstArgument x).1 ++ [.left op y], (firstArgument x).2) else ([], .binary x op y)
  | e => ([], e)

/-- The first argument of a call. -/
def firstOperand : Expr → Option GuardMatch
  | .apply f l i r =>
      if l.body = ['('] then some ⟨nodeText f, (firstArgument i).1 ++ [.argument f l r], (firstArgument i).2⟩
      else none
  | .construct type l i r =>
      some ⟨nodeText (.atom type), (firstArgument i).1 ++ [.construct type l r], (firstArgument i).2⟩
  | _ => none

def kAcos : Text := "acos".toList

def kAsin : Text := "asin".toList

def kSqrt : Text := "sqrt".toList

namespace GuardRule

/-- The epsilon of the rule. -/
def epsilon (config : Option Epsilon) : Epsilon := config.getD kDefaultDivEpsilon

/-- What `walk` finds at a node. -/
def matchOf (rule : GuardRule) (node : Expr) : Option GuardMatch :=
  match rule with
  | .divWithoutEpsilon _ =>
      match node with
      | .binary x op y =>
          if op.body = ['/'] ∧ divisorIsUnguarded (nodeText y) = true then some ⟨[], [.right x op], y⟩ else none
      | _ => none
  | .acosWithoutSaturate =>
      (firstOperand node).filter fun m =>
        (m.function = kAcos ∨ m.function = kAsin) ∧ hasUnguardedDot (nodeText m.operand) = true
  | .sqrtOfPotentiallyNegative =>
      (firstOperand node).filter fun m => m.function = kSqrt ∧ needsMax (nodeText m.operand) = true

/-- The text around the operand. -/
def replacement (rule : GuardRule) (operand : Text) : Text :=
  match rule with
  | .divWithoutEpsilon config =>
      "max(".toList ++ renderFloatLiteral (epsilon config) ++ ", ".toList ++ operand ++ ")".toList
  | .acosWithoutSaturate => "clamp(".toList ++ operand ++ ", -1.0, 1.0)".toList
  | .sqrtOfPotentiallyNegative => "max(0.0, ".toList ++ operand ++ ")".toList

/-- `fix.machine_applicable`. -/
def machineApplicable (rule : GuardRule) (isType : Text → Bool) (operand : Expr) : Bool :=
  match rule with
  | .divWithoutEpsilon _ => classifyExpression isType operand = .sideEffectFree
  | _ => true

def description (rule : GuardRule) (isType : Text → Bool) (operand : Expr) : Text :=
  match rule with
  | .divWithoutEpsilon config =>
      "wrap the divisor in `max(".toList ++ renderFloatLiteral (epsilon config) ++ ", ...)` (epsilon ".toList
        ++ (if config.isSome then "from `[float] div-epsilon`".toList else "= default 1e-6".toList)
        ++ "); Inf / NaN propagation through subsequent ops corrupts ".toList
        ++ "neighbouring pixels in TAA / denoiser pipelines".toList
        ++ if rule.machineApplicable isType operand then []
          else " -- suggestion-only: the divisor is not side-effect-free under ".toList
            ++ "the purity oracle, hand-review the rewrite before applying".toList
  | .acosWithoutSaturate =>
      "wrap the argument in clamp(x, -1.0, 1.0); on AMD/NVIDIA ".toList
        ++ "this compiles to a free SAT modifier".toList
  | .sqrtOfPotentiallyNegative =>
      "wrap the argument in max(0.0, ...) -- the clamp is free ".toList
        ++ "on RDNA/Ada (compiles to a SAT-style modifier on the ".toList
        ++ "producing instruction) and prevents NaN propagation".toList

def code : GuardRule → Text
  | .divWithoutEpsilon _ => "div-without-epsilon".toList
  | .acosWithoutSaturate => "acos-without-saturate".toList
  | .sqrtOfPotentiallyNegative => "sqrt-of-potentially-negative".toList

def message (rule : GuardRule) (m : GuardMatch) : Text :=
  match rule with
  | .divWithoutEpsilon _ =>
      "division by length(...) / dot(...) without epsilon guard -- ".toList
        ++ "produces +Inf or NaN at zero divisors; wrap the divisor in ".toList
        ++ "max(epsilon, ...) or use the SafeNormalize idiom".toList
  | .acosWithoutSaturate =>
      m.function ++ "(dot(...)) without saturate/clamp -- normalised dot ".toList
        ++ "products can round outside [-1, 1] and produce NaN; ".toList
        ++ "wrap the argument in clamp(x, -1.0, 1.0)".toList
  | .sqrtOfPotentiallyNegative =>
      "sqrt() of a difference expression may round negative, ".toList
        ++ "producing NaN; wrap the argument in max(0.0, ...) (or ".toList
        ++ "use rsqrt + reciprocal for the unit-vector case)".toList

/-- The fix. The text of an operand is never empty, so there always is an edit. -/
def fix (rule : GuardRule) (isType : Text → Bool) (source : SourceId) (c : Ctx) (m : GuardMatch) : Fix Char :=
  nodeFix source (m.place ++ c) m.operand (rule.description isType m.operand)
    (rule.machineApplicable isType m.operand) (rule.replacement (nodeText m.operand))

/-- What `walk` emits at a node. -/
def diagnostic (rule : GuardRule) (isType : Text → Bool) (source : SourceId) (c : Ctx) (node : Expr) :
    Option Diagnostic :=
  (rule.matchOf node).map fun m =>
    { code := rule.code
      severity := .warning
      primarySpan := ⟨source, byteRange c node⟩
      message := rule.message m
      fixes := [rule.fix isType source c m] }

end GuardRule

/-! ## §4. The law. -/

/-- The value is inside the domain of the function. -/
def InDomain (rule : GuardRule) (v : List ℝ) : Prop :=
  match rule with
  | .divWithoutEpsilon config => ∀ x ∈ v, ((GuardRule.epsilon config).value : ℝ) ≤ |x|
  | .acosWithoutSaturate => ∀ x ∈ v, -1 ≤ x ∧ x ≤ 1
  | .sqrtOfPotentiallyNegative => ∀ x ∈ v, 0 ≤ x

/-- In every source that has the node in it, and with every value of the
variables that this is about: the fixed source is read, it has the value of the
source, and at the node, which has another operand now, nothing is reported. -/
def GuardLaw (isType : Text → Bool) (rule : GuardRule) (ρ : VectorEnv) (node : Expr) (m : GuardMatch) : Prop :=
  ∀ (source : SourceId) (s : Text) (c : Ctx), parseText isType s = some (c.plug node) →
    ∃ node', parseText isType (applyFix s (rule.fix isType source c m)) = some (c.plug node')
      ∧ (∃ e, node' = m.place.plug e)
      ∧ denote isType ρ (c.plug node') = denote isType ρ (c.plug node)
      ∧ rule.diagnostic isType source c node' = none

/-- Only quotients change, in a component with a numerator whose divisor is less
than what is written. -/
def Unharmed (isType : Text → Bool) (rule : GuardRule) (ρ : VectorEnv) (node : Expr) : Prop :=
  match rule, node with
  | .divWithoutEpsilon config, .binary x _ y =>
      IsZero (componentwise
        (fun a b => a * min (b - realLiteral (renderFloatLiteral (GuardRule.epsilon config))) 0)
        (denote isType ρ x) (denote isType ρ y))
  | _, _ => True

/-! ## §5. The literal. -/

variable {isType : Text → Bool}

theorem digit_wordChar {c : Char} (h : c.isDigit = true) : isWordChar c = true := by
  rw [isWordChar, Char.isAlphanum, h, Bool.or_true, Bool.true_or]

/-- A text of that shape is a number, with points and letters behind it. -/
theorem number_of_shape {s : Text} (h : GeneralFormat.Shape s) {suffix : Text}
    (hsuffix : ∀ x ∈ suffix, isWordChar x = true ∨ x = '.') :
    IsToken rules (s ++ suffix) ∧ kindOf isType (s ++ suffix) = .number := by
  obtain ⟨d, body, tail, rfl, hd, hbody, htail⟩ := h.split
  have htext : d :: (body ++ tail) ++ suffix = d :: (body ++ (tail ++ suffix)) := by simp
  have hflat : ∀ x ∈ body, isWordChar x = true ∨ x = '.' := fun x hx => (hbody x hx).imp_left digit_wordChar
  rw [htext]
  refine number_of_chars hd (numberChars_append.mpr ⟨numberChars_flat hflat, ?_⟩)
  obtain rfl | ⟨sign, ds, rfl, hsign, hds⟩ := htail
  · exact numberChars_flat hsuffix
  · -- the sign stands behind the letter of the exponent
    refine ⟨Or.inl rfl, Or.inr (Or.inr ⟨hsign, ?_⟩), numberChars_flat fun x hx => ?_⟩
    · rw [List.getLast?_concat]
      rfl
    · obtain hx | hx := List.mem_append.mp hx
      · exact Or.inl (digit_wordChar (hds x hx))
      · exact hsuffix x hx

/-- **What is written for an epsilon is a number.** -/
theorem number_epsilon (value : Epsilon) :
    IsToken rules (renderFloatLiteral value) ∧ kindOf isType (renderFloatLiteral value) = .number := by
  unfold renderFloatLiteral
  split
  case isTrue => exact ⟨⟨nofun, rfl, rfl, rfl, rfl, rfl, rfl, rfl, trivial⟩, rfl⟩
  case isFalse =>
      split
      case isTrue => exact ⟨⟨nofun, rfl, rfl, rfl, rfl, rfl, rfl, trivial⟩, rfl⟩
      case isFalse =>
          have hshape := GeneralFormat.shape_generalText 7 value.value
          have hsuffix : (['.', '0', 'f'].all fun x => isWordChar x || x == '.') = true := rfl
          simp only [List.all_eq_true, Bool.or_eq_true, beq_iff_eq] at hsuffix
          dsimp only
          split
          case isTrue =>
              rw [List.append_assoc]
              exact number_of_shape hshape hsuffix
          case isFalse =>
              have hlast : ∀ x ∈ ['f'], x ∈ ['.', '0', 'f'] := fun x hx =>
                List.mem_cons_of_mem _ (List.mem_cons_of_mem _ hx)
              exact number_of_shape hshape fun x hx => hsuffix x (hlast x hx)

/-! ## §6. The guard. -/

/-- The function that is called. -/
def guardName : GuardRule → Text
  | .divWithoutEpsilon _ => kMax
  | .acosWithoutSaturate => kClamp
  | .sqrtOfPotentiallyNegative => kMax

def one (lead : Text) : Expr := .atom ⟨lead, "1.0".toList⟩

def minusOne : Expr := .unary (.op ⟨[' '], ['-']⟩) (one [])

def zero : Expr := .atom ⟨[], "0.0".toList⟩

/-- The epsilon, as it is written. -/
def epsilonLiteral (config : Option Epsilon) : Expr := .atom ⟨[], renderFloatLiteral (GuardRule.epsilon config)⟩

/-- Its arguments. -/
def guardArguments (rule : GuardRule) (operand : Expr) : Expr :=
  match rule with
  | .divWithoutEpsilon config => .binary (epsilonLiteral config) comma (operand.withLead [' '])
  | .acosWithoutSaturate => triple (operand.withLead []) minusOne (one [' '])
  | .sqrtOfPotentiallyNegative => .binary zero comma (operand.withLead [' '])

/-- The node that is meant. -/
def guardNode (isType : Text → Bool) (rule : GuardRule) (operand : Expr) : Expr :=
  callNode isType ⟨operand.lead, guardName rule⟩ ⟨[], ['(']⟩ (guardArguments rule operand) ⟨[], [')']⟩

theorem isWord_guardName (rule : GuardRule) : IsWord (guardName rule) := by
  cases rule <;> exact ⟨rfl, rfl⟩

theorem render_limit (limit : Text) (operand : Expr) :
    render (Expr.binary (.atom ⟨[], limit⟩) comma (operand.withLead [' '])).toks
      = limit ++ ", ".toList ++ nodeText operand := by
  rw [Expr.toks, Munch.render_append, Munch.render_cons, render_toks (operand.withLead _), nodeText_withLead,
    lead_withLead]
  show limit ++ [] ++ (',' :: ([' '] ++ nodeText operand)) = limit ++ [',', ' '] ++ nodeText operand
  simp

/-- **Its text is what the rule writes.** -/
theorem nodeText_guardNode (rule : GuardRule) (operand : Expr) :
    nodeText (guardNode isType rule operand) = rule.replacement (nodeText operand) := by
  have hminus : render minusOne.toks = " -1.0".toList := rfl
  have hone : render (one [' ']).toks = " 1.0".toList := rfl
  rw [guardNode, nodeText_callNode]
  unfold GuardRule.replacement
  cases rule with
  | divWithoutEpsilon config =>
      rw [guardArguments, epsilonLiteral, render_limit]
      dsimp only
      generalize renderFloatLiteral (GuardRule.epsilon config) = limit
      simp [guardName, kMax]
  | acosWithoutSaturate =>
      rw [guardArguments, render_triple, render_toks (operand.withLead _), nodeText_withLead, lead_withLead, hminus,
        hone]
      simp [guardName, kClamp]
  | sqrtOfPotentiallyNegative =>
      rw [guardArguments, zero, render_limit]
      simp [guardName, kMax]

theorem component_number {t : Text} (htoken : IsToken rules t) (hkind : kindOf isType t = .number) {lead : Text}
    (hlead : Blank lead) : Component isType (.atom ⟨lead, t⟩) :=
  component_of_part ⟨Or.inr hkind, hlead, htoken, Munch.stops_nil _, trivial⟩ (by show 1 ≤ 16; omega)

/-- **It is a part of its own.** -/
theorem part_guardNode (rule : GuardRule) {operand : Expr} (h : Part isType operand)
    (hle : 1 ≤ operand.level isType) : Part isType (guardNode isType rule operand) := by
  have hone : IsToken rules "1.0".toList := ⟨nofun, rfl, rfl, rfl, trivial⟩
  have hzero : IsToken rules "0.0".toList := ⟨nofun, rfl, rfl, rfl, trivial⟩
  have hnumber : ∀ {lead : Text}, Blank lead → Component isType (one lead) :=
    fun hlead => component_number hone rfl hlead
  have hpair : ∀ {t : Text}, IsToken rules t → kindOf isType t = .number →
      Part isType (.binary (.atom ⟨[], t⟩) comma (operand.withLead [' ']))
        ∧ Seam rules (Expr.binary (.atom ⟨[], t⟩) comma (operand.withLead [' '])).toks [⟨[], [')']⟩] := by
    intro t htoken hkind
    have hfirst := component_number htoken hkind blank_nil
    obtain ⟨hpart, hends⟩ :=
      part_comma hfirst.part (hfirst.ends ',' (by decide)) (component_withLead h hle blank_space)
    exact ⟨hpart, hends ')' (by decide) []⟩
  have hargs : Part isType (guardArguments rule operand)
      ∧ Seam rules (guardArguments rule operand).toks [⟨[], [')']⟩] := by
    cases rule with
    | divWithoutEpsilon config =>
        obtain ⟨htoken, hkind⟩ := @number_epsilon isType (GuardRule.epsilon config)
        exact hpair htoken hkind
    | acosWithoutSaturate =>
        have hminus : Component isType minusOne := by
          refine component_of_part ⟨⟨rfl, Or.inr rfl, ?_⟩, ?_⟩ (by show 1 ≤ 14; omega)
          · show 14 ≤ 16
            omega
          · exact ⟨blank_space, ⟨nofun, rfl, trivial⟩, Munch.stops_cons.mpr rfl, (hnumber blank_nil).part.2⟩
        obtain ⟨hpart, hends⟩ := part_triple (component_withLead h hle blank_nil) hminus (hnumber blank_space)
        exact ⟨hpart, hends []⟩
    | sqrtOfPotentiallyNegative => exact hpair hzero rfl
  exact part_callNode (isWord_guardName rule) (blank_lead h.2) hargs.1 hargs.2

/-! ## §7. Where the operand is. -/

theorem plug_append (c d : Ctx) (e : Expr) : Ctx.plug (c ++ d) e = d.plug (c.plug e) := by
  induction c generalizing e with
  | nil => rfl
  | cons f c ih => exact ih (f.fill e)

theorem plug_firstArgument (i : Expr) : (firstArgument i).1.plug (firstArgument i).2 = i := by
  induction i with
  | binary x op y ih _ =>
      rw [firstArgument]
      split
      · rw [plug_append, ih]
        rfl
      · rfl
  | _ => rfl

theorem firstArgument_mem (i : Expr) : (firstArgument i).2 ∈ arguments i := by
  induction i with
  | binary x op y ih _ =>
      rw [firstArgument, arguments]
      split
      · exact List.mem_append_left _ ih
      · exact List.mem_singleton_self _
  | _ => exact List.mem_singleton_self _

/-- Another first argument is one again. -/
theorem firstArgument_plug (i : Expr) {e : Expr} (he : firstArgument e = ([], e)) :
    firstArgument ((firstArgument i).1.plug e) = ((firstArgument i).1, e) := by
  induction i with
  | binary x op y ih _ =>
      rw [firstArgument]
      split
      case isTrue hop =>
          rw [plug_append]
          show firstArgument (.binary ((firstArgument x).1.plug e) op y) = _
          rw [firstArgument, if_pos hop, ih]
      case isFalse => exact he
  | _ => exact he

/-- A first argument may be anything. -/
theorem need_firstArgument (i : Expr) {d : Ctx} (hd : d.need isType = 0) :
    Ctx.need isType ((firstArgument i).1 ++ d) = 0 := by
  induction i generalizing d with
  | binary x op y ih _ =>
      rw [firstArgument]
      split
      case isTrue hop =>
          rw [List.append_assoc]
          refine ih ?_
          have hkind : kind isType op = .operator kComma := by
            rw [kind, hop]
            rfl
          show (kind isType op).prec.elim 0 Prec.left = 0
          rw [hkind]
          rfl
      case isFalse => exact hd
  | _ => exact hd

theorem firstArgument_guardNode (rule : GuardRule) (operand : Expr) :
    firstArgument (guardNode isType rule operand) = ([], guardNode isType rule operand) := by
  rw [guardNode, callNode]
  split <;> rfl

theorem firstOperand_spec {node : Expr} {m : GuardMatch} (hnode : Part isType node)
    (h : firstOperand node = some m) :
    m.place.plug m.operand = node ∧ (Part isType m.operand ∧ 1 ≤ m.operand.level isType)
      ∧ (∀ c, Ctx.need isType (m.place ++ c) = 0)
      ∧ ∀ e, firstArgument e = ([], e) → firstOperand (m.place.plug e) = some { m with operand := e } := by
  have hall : ∀ {i : Expr} {f : Frame} {function : Text}, m = ⟨function, (firstArgument i).1 ++ [f], (firstArgument i).2⟩ →
      node = f.fill i → f.need isType = 0 →
      (∀ e, firstOperand (f.fill e) = some ⟨function, (firstArgument e).1 ++ [f], (firstArgument e).2⟩) →
      m.place.plug m.operand = node ∧ (Part isType m.operand ∧ 1 ≤ m.operand.level isType)
        ∧ (∀ c, Ctx.need isType (m.place ++ c) = 0)
        ∧ ∀ e, firstArgument e = ([], e) → firstOperand (m.place.plug e) = some { m with operand := e } := by
    rintro i f function rfl rfl hneed hfirst
    refine ⟨?_, arguments_spec hnode.fill _ (firstArgument_mem i), fun c => ?_, fun e he => ?_⟩
    · rw [plug_append, plug_firstArgument]
      rfl
    · rw [List.append_assoc]
      exact need_firstArgument i hneed
    · rw [plug_append]
      show firstOperand (f.fill _) = _
      rw [hfirst, firstArgument_plug i he]
  cases node with
  | apply f l i r =>
      rw [firstOperand] at h
      split at h
      case isTrue hl =>
          refine hall (f := .argument f l r) (Option.some.inj h).symm rfl rfl fun e => ?_
          rw [Frame.fill, firstOperand, if_pos hl]
      case isFalse => cases h
  | construct type l i r =>
      exact hall (f := .construct type l r) (Option.some.inj h).symm rfl rfl fun e => rfl
  | _ => cases h

theorem matchOf_spec {rule : GuardRule} {node : Expr} {m : GuardMatch} (hnode : Part isType node)
    (h : rule.matchOf node = some m) :
    m.place.plug m.operand = node ∧ Part isType m.operand ∧ 1 ≤ m.operand.level isType := by
  have hfirst : ∀ {p : GuardMatch → Bool}, (firstOperand node).filter p = some m →
      m.place.plug m.operand = node ∧ Part isType m.operand ∧ 1 ≤ m.operand.level isType := by
    intro p hp
    have hspec := firstOperand_spec hnode (Option.filter_eq_some_iff.mp hp).1
    exact ⟨hspec.1, hspec.2.1⟩
  cases rule with
  | divWithoutEpsilon config =>
      unfold GuardRule.matchOf at h
      dsimp only at h
      split at h
      case h_1 x op y =>
          split at h
          case isTrue hdiv =>
              cases h
              obtain ⟨p, hp, -, -, -, hle⟩ := hnode.1
              have hkind : kind isType op = .operator (leftAssoc 12) := by
                rw [kind, hdiv.1]
                rfl
              rw [hkind] at hp
              cases hp
              exact ⟨rfl, Part.fill (f := .right x op) hnode, Nat.le_trans (by decide) hle⟩
          case isFalse => cases h
      case h_2 => cases h
  | acosWithoutSaturate => exact hfirst h
  | sqrtOfPotentiallyNegative => exact hfirst h

/-! ## §8. What is guarded is passed over. -/

/-- **At the node that has the guard in it nothing is found.** -/
theorem matchOf_guarded {rule : GuardRule} {node : Expr} {m : GuardMatch} (hnode : Part isType node)
    (h : rule.matchOf node = some m) :
    rule.matchOf (m.place.plug (guardNode isType rule m.operand)) = none := by
  have htext := @nodeText_guardNode isType rule m.operand
  have hfirst : ∀ {p : GuardMatch → Bool}, (firstOperand node).filter p = some m →
      p { m with operand := guardNode isType rule m.operand } = false →
      (firstOperand (m.place.plug (guardNode isType rule m.operand))).filter p = none := by
    intro p hp hno
    obtain ⟨-, -, -, hrefill⟩ := firstOperand_spec hnode (Option.filter_eq_some_iff.mp hp).1
    rw [hrefill _ (firstArgument_guardNode rule m.operand), Option.filter_some, hno]
    rfl
  cases rule with
  | divWithoutEpsilon config =>
      unfold GuardRule.matchOf at h
      dsimp only at h
      split at h
      case h_1 x op y =>
          split at h
          case isTrue hdiv =>
              cases h
              show (if op.body = ['/'] ∧ divisorIsUnguarded (nodeText _) = true then _ else none) = none
              refine if_neg fun hno => ?_
              rw [htext] at hno
              cases hno.2
          case isFalse => cases h
      case h_2 => cases h
  | acosWithoutSaturate =>
      refine hfirst h ?_
      rw [decide_eq_false_iff_not]
      rintro ⟨-, hno⟩
      rw [htext, hasUnguardedDot, Bool.and_eq_true] at hno
      cases hno.2
  | sqrtOfPotentiallyNegative =>
      refine hfirst h ?_
      rw [decide_eq_false_iff_not]
      rintro ⟨-, hno⟩
      rw [htext, needsMax, Bool.and_eq_true] at hno
      cases hno.1

/-! ## §9. Reading the result. -/

/-- **Read again, the operand is where it was, inside the guard.** -/
theorem reparse_guard {rule : GuardRule} {s : Text} {c : Ctx} {node : Expr} {m : GuardMatch}
    (h : parseText isType s = some (c.plug node)) (hm : rule.matchOf node = some m) (source : SourceId) :
    parseText isType (applyFix s (rule.fix isType source c m))
      = some (c.plug (m.place.plug (guardNode isType rule m.operand))) := by
  obtain ⟨-, hnode, -⟩ := part_of_parse h
  obtain ⟨hplug, hoperand, hle⟩ := matchOf_spec hnode hm
  have h' : parseText isType s = some (Ctx.plug (m.place ++ c) m.operand) := by rw [h, plug_append, hplug]
  obtain ⟨hc, -, hafter⟩ := part_of_parse h'
  have hguard := part_guardNode rule hoperand hle
  have ⟨hneed, hleft, hright⟩ := stands_callNode hc hafter (isWord_guardName rule) hguard
  have hlead : (guardNode isType rule m.operand).lead = m.operand.lead := lead_callNode _ _ _
  rw [GuardRule.fix, applyFix_nodeFix, ← @nodeText_guardNode isType, ← plug_append, reparse_iff h' hlead]
  exact ⟨hguard.1, hneed, hguard.2, hleft, hright⟩

/-! ## §10. The values. -/

theorem value_callNode (A : Algebra (List ℝ)) (lead fn : Text) (args : Expr) :
    (callNode isType ⟨lead, fn⟩ ⟨[], ['(']⟩ args ⟨[], [')']⟩).value A
      = A.call (.name fn) ((arguments args).map (Expr.value A)) := by
  rw [callNode, ← meaning_args]
  split <;> rfl

theorem realLiteral_one : realLiteral "1.0".toList = 1 := by
  have hfloat : literalType "1.0".toList = .float := rfl
  have hvalue : decimalValue ℝ "1.0".toList = ((1 : Nat) + (0 : Nat) / 10 ^ 1) * 10 ^ (0 : Int) := rfl
  rw [realLiteral, if_pos hfloat, hvalue]
  norm_num

theorem realLiteral_zero : realLiteral "0.0".toList = 0 := by
  have hfloat : literalType "0.0".toList = .float := rfl
  have hvalue : decimalValue ℝ "0.0".toList = ((0 : Nat) + (0 : Nat) / 10 ^ 1) * 10 ^ (0 : Int) := rfl
  rw [realLiteral, if_pos hfloat, hvalue]
  norm_num

/-- What a guard makes of a component. -/
noncomputable def guarded (rule : GuardRule) (a : ℝ) : ℝ :=
  match rule with
  | .divWithoutEpsilon config => max (realLiteral (renderFloatLiteral (GuardRule.epsilon config))) a
  | .acosWithoutSaturate => min (max a (-1)) 1
  | .sqrtOfPotentiallyNegative => max 0 a

theorem denote_guardNode (rule : GuardRule) {operand : Expr} (hle : 1 ≤ operand.level isType) (ρ : VectorEnv) :
    denote isType ρ (guardNode isType rule operand) = (denote isType ρ operand).map (guarded rule) := by
  have hnumber : ∀ {lead t : Text}, kindOf isType t = .number →
      (Expr.atom ⟨lead, t⟩).value (vector isType ρ.withFunctions) = [realLiteral t] := fun h => if_pos h
  rw [denote, guardNode, value_callNode]
  cases rule with
  | divWithoutEpsilon config =>
      have hkind := (@number_epsilon isType (GuardRule.epsilon config)).2
      show (vector isType ρ.withFunctions).call (.name kMax)
        [(epsilonLiteral config).value _, (operand.withLead [' ']).value _] = _
      rw [call_max, epsilonLiteral, hnumber hkind, value_withLead, componentwise_scalar]
      rfl
  | acosWithoutSaturate =>
      have hone : ∀ lead, (one lead).value (vector isType ρ.withFunctions) = [1] := by
        intro lead
        rw [one, hnumber rfl, realLiteral_one]
      have hminus : minusOne.value (vector isType ρ.withFunctions) = [-1] := by
        show ((one []).value (vector isType ρ.withFunctions)).map (- ·) = [-1]
        rw [hone]
        rfl
      have hargs : arguments (guardArguments .acosWithoutSaturate operand)
          = [operand.withLead [], minusOne, one [' ']] := by
        show arguments (operand.withLead []) ++ [minusOne] ++ [one [' ']] = _
        rw [arguments_of_level (by rwa [level_withLead])]
        rfl
      rw [hargs]
      show (vector isType ρ.withFunctions).call (.name kClamp)
        [(operand.withLead []).value _, minusOne.value _, (one [' ']).value _] = _
      rw [call_clamp, value_withLead, hminus, hone, componentwise_right, componentwise_right, List.map_map]
      rfl
  | sqrtOfPotentiallyNegative =>
      have hzero : zero.value (vector isType ρ.withFunctions) = [0] := by
        rw [zero, hnumber rfl, realLiteral_zero]
      show (vector isType ρ.withFunctions).call (.name kMax)
        [zero.value _, (operand.withLead [' ']).value _] = _
      rw [call_max, hzero, value_withLead, componentwise_scalar]
      rfl

/-- Inside the domain `clamp` and `max` of zero change nothing. -/
theorem guarded_domain {rule : GuardRule} (hrule : ∀ config, rule ≠ .divWithoutEpsilon config) {v : List ℝ}
    (h : InDomain rule v) : v.map (guarded rule) = v := by
  have hsame : ∀ x ∈ v, guarded rule x = x := by
    intro x hx
    cases rule with
    | divWithoutEpsilon config => exact absurd rfl (hrule config)
    | acosWithoutSaturate =>
        obtain ⟨hlow, hhigh⟩ := h x hx
        show min (max x (-1)) 1 = x
        rw [max_eq_left hlow, min_eq_left hhigh]
    | sqrtOfPotentiallyNegative => exact max_eq_right (h x hx)
  rw [List.map_congr_left hsame, List.map_id']

/-- **A quotient with the guarded divisor** is the same exactly if the numerator
is zero or the divisor is no less than the literal. -/
theorem quotient_eq_iff (low a b : ℝ) : a / max low b = a / b ↔ a * min (b - low) 0 = 0 := by
  by_cases hle : low ≤ b
  · rw [max_eq_right hle, min_eq_right (sub_nonneg.mpr hle), mul_zero]
    exact iff_of_true rfl rfl
  · rw [not_le] at hle
    rw [max_eq_left hle.le, min_eq_left (sub_neg.mpr hle).le, mul_eq_zero, or_iff_left (sub_ne_zero.mpr hle.ne),
      div_eq_mul_inv, div_eq_mul_inv, mul_eq_mul_left_iff, inv_inj, or_iff_right (ne_of_gt hle)]

/-! ## §11. The law. -/

theorem level_guardNode (rule : GuardRule) (operand : Expr) : 1 ≤ (guardNode isType rule operand).level isType := by
  rw [guardNode, callNode]
  split
  · show 1 ≤ 16
    omega
  · show 1 ≤ 15
    omega

/-- An argument that keeps its value keeps that of the source. -/
theorem denote_argument {rule : GuardRule} (hrule : ∀ config, rule ≠ .divWithoutEpsilon config) {node : Expr}
    {m : GuardMatch} (hnode : Part isType node) (hm : rule.matchOf node = some m) {ρ : VectorEnv}
    (hdomain : InDomain rule (denote isType ρ m.operand)) (c : Ctx) :
    denote isType ρ (c.plug (m.place.plug (guardNode isType rule m.operand))) = denote isType ρ (c.plug node) := by
  obtain ⟨hplug, -, hle⟩ := matchOf_spec hnode hm
  have hvalue : denote isType ρ (guardNode isType rule m.operand) = denote isType ρ m.operand := by
    rw [denote_guardNode rule hle, guarded_domain hrule hdomain]
  have hargs : ∀ {e : Expr}, 1 ≤ e.level isType →
      (meaning (vector isType ρ.withFunctions) e).args = [denote isType ρ e] := by
    intro e he
    rw [meaning_args, arguments_of_level he]
    rfl
  have hsame : SameValue (vector isType ρ.withFunctions) (guardNode isType rule m.operand) m.operand :=
    ⟨hvalue, by rw [hargs (level_guardNode rule m.operand), hargs hle, hvalue]⟩
  have hneed : ∀ c, Ctx.need isType (m.place ++ c) = 0 := by
    have hfirst : ∀ {p : GuardMatch → Bool}, (firstOperand node).filter p = some m →
        ∀ c, Ctx.need isType (m.place ++ c) = 0 := by
      intro p hp
      exact (firstOperand_spec hnode (Option.filter_eq_some_iff.mp hp).1).2.2.1
    cases rule with
    | divWithoutEpsilon config => exact absurd rfl (hrule config)
    | acosWithoutSaturate => exact hfirst hm
    | sqrtOfPotentiallyNegative => exact hfirst hm
  have heq := value_plug_congr hsame (show (m.place ++ c).need isType < kPostfix by rw [hneed]; decide)
  rw [plug_append, plug_append, hplug] at heq
  exact heq

/-- The division that is found. -/
theorem division_of_match {config : Option Epsilon} {node : Expr} {m : GuardMatch}
    (h : (GuardRule.divWithoutEpsilon config).matchOf node = some m) :
    ∃ x op y, node = .binary x op y ∧ op.body = ['/'] ∧ m.place = [.right x op] ∧ m.operand = y := by
  unfold GuardRule.matchOf at h
  dsimp only at h
  split at h
  case h_1 x op y =>
      split at h
      case isTrue hdiv =>
          cases h
          exact ⟨x, op, y, rfl, hdiv.1, rfl, rfl⟩
      case isFalse => cases h
  case h_2 => cases h

/-- **The quotient is unharmed exactly if it has its value.** -/
theorem unharmed_iff {config : Option Epsilon} {x y : Expr} {op : Token} (hop : op.body = ['/'])
    (hle : 1 ≤ y.level isType) (ρ : VectorEnv) :
    denote isType ρ (.binary x op (guardNode isType (.divWithoutEpsilon config) y))
        = denote isType ρ (.binary x op y)
      ↔ Unharmed isType (.divWithoutEpsilon config) ρ (.binary x op y) := by
  have hquotient : ∀ e, denote isType ρ (.binary x op e)
      = componentwise (· / ·) (denote isType ρ x) (denote isType ρ e) := by
    intro e
    rw [denote, value_binary, hop]
    rfl
  rw [hquotient, hquotient, denote_guardNode _ hle, componentwise_map]
  exact componentwise_eq_iff (quotient_eq_iff _) _ _

/-- The rest of the law holds for every guard: what counts is the value. -/
theorem guardLaw_iff_value {rule : GuardRule} {node : Expr} {m : GuardMatch} (hnode : Part isType node)
    (hm : rule.matchOf node = some m) (ρ : VectorEnv) :
    GuardLaw isType rule ρ node m ↔ ∀ (s : Text) (c : Ctx), parseText isType s = some (c.plug node) →
      denote isType ρ (c.plug (m.place.plug (guardNode isType rule m.operand)))
        = denote isType ρ (c.plug node) := by
  constructor
  · intro hlaw s c h
    obtain ⟨node', hparse, -, hvalue, -⟩ := hlaw ⟨1⟩ s c h
    rw [reparse_guard h hm, Option.some.injEq] at hparse
    rw [hparse, hvalue]
  · intro hvalue source s c h
    refine ⟨_, reparse_guard h hm source, ⟨_, rfl⟩, hvalue s c h, ?_⟩
    rw [GuardRule.diagnostic, matchOf_guarded hnode hm]
    rfl

/-- The law of a division. -/
theorem guardLaw_division {config : Option Epsilon} {node : Expr} {m : GuardMatch} (hnode : Part isType node)
    (hm : (GuardRule.divWithoutEpsilon config).matchOf node = some m) (ρ : VectorEnv) :
    GuardLaw isType (.divWithoutEpsilon config) ρ node m ↔ Unharmed isType (.divWithoutEpsilon config) ρ node := by
  rw [guardLaw_iff_value hnode hm]
  obtain ⟨-, -, hle⟩ := matchOf_spec hnode hm
  obtain ⟨x, op, y, rfl, hop, hplace, hy⟩ := division_of_match hm
  rw [hy] at hle
  rw [← unharmed_iff hop hle, hplace, hy]
  constructor
  · -- the quotient alone is a source
    intro hall
    exact hall (render (Expr.binary x op y).toks) []
      (parseText_iff.mpr ⟨hnode.1, hnode.2, [], nofun, (List.append_nil _).symm⟩)
  · intro hvalue s c h
    obtain ⟨-, -, hneed⟩ := (Ctx.wellFormed_plug isType c _).mp (parseText_iff.mp h).1
    have hdiv : kind isType op = .operator (leftAssoc 12) := by
      rw [kind, hop]
      rfl
    have hlevel : (Expr.binary x op y).level isType = 12 := by
      rw [Expr.level, hdiv]
      rfl
    refine value_plug_congr (sameValue_binary (by rw [hop]; decide) hvalue) (?_ : c.need isType < kPostfix)
    have hpostfix : kPostfix = 15 := rfl
    omega

/-- `dot(a, b)`. -/
def product (lead : Text) : Expr :=
  .apply (.atom ⟨lead, kDot⟩) ⟨[], ['(']⟩
    (.binary (.atom ⟨[], ['a']⟩) comma (.atom ⟨[' '], ['b']⟩)) ⟨[], [')']⟩

/-- `1.0 / dot(a, b)`. -/
def quotient : Expr := .binary (one []) ⟨[' '], ['/']⟩ (product [' '])

/-- Scalars, where `b` is `x` and all else is one. -/
noncomputable def scalars (x : ℝ) : VectorEnv where
  var t := if t = ['b'] then [x] else [1]
  unary _ v := v
  cast _ v := v
  binary _ v _ := v
  member v _ := v
  call _ _ := [1]
  place _ := 0

theorem part_quotient : Part (fun _ => false) quotient := by
  have hparse : parseText (fun _ => false) "1.0 / dot(a, b)".toList = some (Ctx.plug [] quotient) := by
    decide +kernel
  exact (part_of_parse hparse).2.1

theorem denote_product (x : ℝ) (lead : Text) : denote (fun _ => false) (scalars x) (product lead) = [x] := by
  show [(List.zipWith (· * ·) [1] [x]).sum] = [x]
  simp

theorem realLiteral_epsilon : realLiteral "1e-06f".toList = 1 / 10 ^ 6 := by
  have hfloat : literalType "1e-06f".toList = .float := rfl
  have hvalue : decimalValue ℝ "1e-06f".toList = ((1 : Nat) + (0 : Nat) / 10 ^ 0) * 10 ^ (-6 : Int) := rfl
  rw [realLiteral, if_pos hfloat, hvalue]
  norm_num

theorem unharmed_quotient (x : ℝ) :
    Unharmed (fun _ => false) (.divWithoutEpsilon none) (scalars x) quotient ↔ 1 / 10 ^ 6 ≤ x := by
  have hone : denote (fun _ => false) (scalars x) (one []) = [1] := by
    show [realLiteral "1.0".toList] = [1]
    rw [realLiteral_one]
  have hliteral : renderFloatLiteral (GuardRule.epsilon none) = "1e-06f".toList := by decide +kernel
  show IsZero (componentwise _ (denote _ _ (one [])) (denote _ _ (product [' ']))) ↔ _
  rw [hone, denote_product, hliteral, realLiteral_epsilon, componentwise_scalar, List.map_singleton, IsZero,
    List.forall_mem_singleton, one_mul, min_eq_right_iff, sub_nonneg]

/-- Its divisor, as it is found. -/
def unguarded : GuardMatch := ⟨[], [.right (one []) ⟨[' '], ['/']⟩], product [' ']⟩

theorem matchOf_quotient : (GuardRule.divWithoutEpsilon none).matchOf quotient = some unguarded := by
  have hfires : ['/'] = ['/'] ∧ divisorIsUnguarded (nodeText (product [' '])) = true := by decide +kernel
  show (if ['/'] = ['/'] ∧ divisorIsUnguarded (nodeText (product [' '])) = true then some unguarded else none) = _
  rw [if_pos hfires]

end ShaderClippy.Rules.GuardFix
