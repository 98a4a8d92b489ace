/-
  ShaderClippy.Rules.PowAgreement

  **DO THE TWO `pow` RULES AGREE?**

  `pow_const_squared.cpp` and `pow_to_mul.cpp` read literals and write products
  with code of their own. Here each has its own definitions, over the nodes of
  the parser's tree. The readers agree on every text and the writers up to
  exponent 4, so both rules emit the same fix, and of two fixes with the same
  edits the rewriter applies one (`powRules_agree`).
-/
import ShaderClippy.Syntax.Spans
import ShaderClippy.Rewriter.Twins
import ShaderClippy.Rules.DigitLoop
import ShaderClippy.Rules.PowFix

namespace ShaderClippy.Rules

/-! ## §1. `pow-const-squared`. -/

namespace PowConstSquared

def kRuleId : Text := "pow-const-squared".toList

def kPowName : Text := "pow".toList

/-- `is_float_suffix`. -/
def isFloatSuffix (c : Char) : Bool :=
  c == 'f' || c == 'F' || c == 'h' || c == 'H' || c == 'l' || c == 'L' || c == 'u' || c == 'U'

/-- `skip_optional_plus`. -/
def skipOptionalPlus : Text → Text
  | '+' :: text => text
  | text => text

/-- `read_digits`: the digits, and the text behind them. -/
def readDigits : Text → Text × Text
  | [] => ([], [])
  | c :: cs =>
      if c.isDigit then (c :: (readDigits cs).1, (readDigits cs).2) else ([], c :: cs)

/-- `skip_zero_fraction`. -/
def skipZeroFraction : Text → Option Text
  | '.' :: text =>
      let rest := text.dropWhile (· == '0')
      if rest.head?.any fun c => '1' ≤ c && c ≤ '9' then none else some rest
  | text => some text

/-- `skip_suffixes`. -/
def skipSuffixes : Text → Option Text
  | [] => some []
  | c :: cs => if !isFloatSuffix c then none else skipSuffixes cs

/-- `parse_integer_literal`. -/
def parseIntegerLiteral (text : Text) : Option Nat :=
  if text.isEmpty then none
  else
    let afterPlus := skipOptionalPlus text
    if afterPlus.isEmpty then none
    else
      let (intPart, afterInt) := readDigits afterPlus
      if intPart.isEmpty then none
      else
        match skipZeroFraction afterInt with
        | none => none
        | some afterFrac =>
            if afterFrac.head? = some 'e' ∨ afterFrac.head? = some 'E' then none
            else
              match skipSuffixes afterFrac with
              | none => none
              | some _ =>
                  if intPart.length > 2 then none
                  else some (intPart.foldl (fun value d => value * 10 + digitValue d) 0)

/-- `make_replacement`. -/
def makeReplacement (base : Text) (exponent : Nat) : Text :=
  match exponent with
  | 2 => base ++ " * ".toList ++ base
  | 3 => base ++ " * ".toList ++ base ++ " * ".toList ++ base
  | 4 => "(".toList ++ base ++ " * ".toList ++ base ++ ") * (".toList ++ base ++ " * ".toList ++ base
      ++ ")".toList
  | 5 => "(".toList ++ base ++ " * ".toList ++ base ++ ") * (".toList ++ base ++ " * ".toList ++ base
      ++ ") * ".toList ++ base
  | _ => base

/-- The three bytes of the dash in the message. -/
def dash : Text := [Char.ofNat 0xE2, Char.ofNat 0x80, Char.ofNat 0x94]

/-- `make_message`. -/
def makeMessage (exponent : Nat) : Text :=
  "`pow(x, ".toList ++ [Char.ofNat ('0'.toNat + exponent)] ++ ".0)` should be written as ".toList
    ++ (match exponent with
        | 2 => "`x * x`".toList
        | 3 => "`x * x * x`".toList
        | 4 => "`(x * x) * (x * x)` (one multiplication saved via squaring)".toList
        | 5 => "`(x * x) * (x * x) * x` (pow-by-squaring; 3 multiplies vs. transcendental)".toList
        | _ => "repeated multiplication".toList)
    ++ " ".toList ++ dash ++ " `pow` lowers to a transcendental sequence on every current GPU".toList

structure PowMatch where
  exponent : Nat
  baseText : Text
  baseIsSimpleIdentifier : Bool
  deriving DecidableEq

/-- `match_pow_call`. -/
def matchPowCall (call : Node) (bytes : Text) : Option PowMatch :=
  match call.childByField .function with
  | none => none
  | some fn =>
      if fn.kind ≠ .identifier ∨ fn.text bytes ≠ kPowName then none
      else
        match call.childByField .arguments with
        | none => none
        | some args =>
            match args.namedChildren with
            | [arg0, arg1] =>
                if arg1.kind ≠ .numberLiteral then none
                else
                  match parseIntegerLiteral (arg1.text bytes) with
                  | none => none
                  | some exponent =>
                      if exponent < 2 ∨ exponent > 5 then none
                      -- `pow(2.0, x)` is left to another rule
                      else if arg0.kind = .numberLiteral
                          ∧ parseIntegerLiteral (arg0.text bytes) = some 2 then none
                      else if (arg0.text bytes).isEmpty then none
                      else some ⟨exponent, arg0.text bytes, decide (arg0.kind = .identifier)⟩
            | _ => none

/-- The fix of a match. -/
def fixOf (source : SourceId) (call : Node) (m : PowMatch) : Fix Char :=
  ⟨if m.baseIsSimpleIdentifier then
      "replace `pow(x, N.0)` with repeated multiplication".toList
    else "replace with repeated multiplication; verify the base ".toList
      ++ "expression is side-effect-free before applying".toList,
    m.baseIsSimpleIdentifier, [⟨call.span source, makeReplacement m.baseText m.exponent⟩]⟩

/-- `on_node`. -/
def onNode (source : SourceId) (bytes : Text) (node : Node) : Option Diagnostic :=
  if node.kind ≠ .callExpression then none
  else
    match matchPowCall node bytes with
    | none => none
    | some m =>
        some ⟨kRuleId, .warning, node.span source, makeMessage m.exponent, [fixOf source node m]⟩

end PowConstSquared

/-! ## §2. `pow-to-mul`. -/

namespace PowToMul

def kRuleId : Text := "pow-to-mul".toList

def kPowName : Text := "pow".toList

/-- `is_float_suffix`. -/
def isFloatSuffix (c : Char) : Bool :=
  c == 'f' || c == 'F' || c == 'h' || c == 'H' || c == 'l' || c == 'L' || c == 'u' || c == 'U'

/-- The fraction in `parse_integer_literal`. -/
def fraction (text : Text) : Option Text :=
  if text.head? = some '.' then
    let rest := (text.drop 1).dropWhile (· == '0')
    if rest.head?.any fun c => '1' ≤ c && c ≤ '9' then none else some rest
  else some text

/-- `parse_integer_literal`. -/
def parseIntegerLiteral (text : Text) : Option Nat :=
  if text.isEmpty then none
  else
    let number := if text.head? = some '+' then text.drop 1 else text
    if number.isEmpty then none
    else
      let intPart := number.takeWhile Char.isDigit
      if intPart.isEmpty then none
      else
        match fraction (number.dropWhile Char.isDigit) with
        | none => none
        | some rest =>
            if rest.head? = some 'e' ∨ rest.head? = some 'E' then none
            else if !rest.all isFloatSuffix then none
            else if intPart.length > 2 then none
            else some (intPart.foldl (fun value d => value * 10 + digitValue d) 0)

/-- `make_replacement`. -/
def makeReplacement (base : Text) (exponent : Nat) : Text :=
  match exponent with
  | 2 => base ++ " * ".toList ++ base
  | 3 => base ++ " * ".toList ++ base ++ " * ".toList ++ base
  | 4 => "(".toList ++ base ++ " * ".toList ++ base ++ ") * (".toList ++ base ++ " * ".toList ++ base
      ++ ")".toList
  | _ => base

/-- `make_message`. -/
def makeMessage (exponent : Nat) : Text :=
  "`pow(x, ".toList ++ [Char.ofNat ('0'.toNat + exponent)] ++ ".0)` should be written as ".toList
    ++ (match exponent with
        | 2 => "`x * x`".toList
        | 3 => "`x * x * x`".toList
        | 4 => "`(x * x) * (x * x)`".toList
        | _ => "repeated multiplication".toList)
    ++ " -- `pow` lowers to a transcendental sequence on every current GPU".toList

/-- `on_node`. -/
def onNode (source : SourceId) (bytes : Text) (node : Node) : Option Diagnostic :=
  if node.kind ≠ .callExpression then none
  else
    match node.childByField .function, node.childByField .arguments with
    | some fn, some args =>
        if fn.kind ≠ .identifier ∨ fn.text bytes ≠ kPowName then none
        else
          match args.namedChildren with
          | [arg0, arg1] =>
              if arg1.kind ≠ .numberLiteral then none
              else
                match parseIntegerLiteral (arg1.text bytes) with
                | none => none
                | some exponent =>
                    if exponent < 2 ∨ exponent > 4 then none
                    else if arg0.kind = .numberLiteral
                        ∧ parseIntegerLiteral (arg0.text bytes) = some 2 then none
                    else
                      let baseText := arg0.text bytes
                      if baseText.isEmpty then none
                      else
                        let baseIsSimpleIdentifier := decide (arg0.kind = .identifier)
                        let description :=
                          if baseIsSimpleIdentifier then
                            "replace `pow(x, N.0)` with repeated multiplication".toList
                          else "replace with repeated multiplication; verify the base ".toList
                            ++ "expression is side-effect-free before applying".toList
                        let fix : Fix Char := ⟨description, baseIsSimpleIdentifier,
                          [⟨node.span source, makeReplacement baseText exponent⟩]⟩
                        some ⟨kRuleId, .warning, node.span source, makeMessage exponent, [fix]⟩
          | _ => none
    | _, _ => none

end PowToMul

/-! ## §3. The readers. -/

namespace PowConstSquared

theorem skipOptionalPlus_eq (text : Text) :
    skipOptionalPlus text = if text.head? = some '+' then text.drop 1 else text := by
  unfold skipOptionalPlus
  split
  · rfl
  next hplus =>
      rw [if_neg]
      intro hhead
      cases text with
      | nil => cases hhead
      | cons c cs =>
          rw [Option.some.inj hhead] at hplus
          exact hplus cs rfl

theorem readDigits_eq (text : Text) :
    readDigits text = (text.takeWhile Char.isDigit, text.dropWhile Char.isDigit) := by
  induction text with
  | nil => rfl
  | cons c cs ih =>
      rw [readDigits]
      by_cases hc : c.isDigit = true
      · rw [if_pos hc, ih, List.takeWhile_cons_of_pos hc, List.dropWhile_cons_of_pos hc]
      · rw [if_neg hc, List.takeWhile_cons_of_neg hc, List.dropWhile_cons_of_neg hc]

theorem skipZeroFraction_eq (text : Text) : skipZeroFraction text = PowToMul.fraction text := by
  unfold skipZeroFraction PowToMul.fraction
  split
  · rfl
  next hdot =>
      rw [if_neg]
      intro hhead
      cases text with
      | nil => cases hhead
      | cons c cs =>
          rw [Option.some.inj hhead] at hdot
          exact hdot cs rfl

theorem skipSuffixes_eq (text : Text) :
    skipSuffixes text = if text.all PowToMul.isFloatSuffix then some [] else none := by
  induction text with
  | nil => rfl
  | cons c cs ih =>
      rw [skipSuffixes, ih, List.all_cons]
      have hsame : PowToMul.isFloatSuffix c = isFloatSuffix c := rfl
      rw [hsame]
      cases isFloatSuffix c <;> simp

end PowConstSquared

/-- **The two readers agree on every text.** -/
theorem parseIntegerLiteral_agree (text : Text) :
    PowToMul.parseIntegerLiteral text = PowConstSquared.parseIntegerLiteral text := by
  unfold PowToMul.parseIntegerLiteral PowConstSquared.parseIntegerLiteral
  simp only [PowConstSquared.skipOptionalPlus_eq, PowConstSquared.readDigits_eq,
    PowConstSquared.skipZeroFraction_eq, PowConstSquared.skipSuffixes_eq]
  generalize (if text.head? = some '+' then text.drop 1 else text) = number
  cases hfraction : PowToMul.fraction (number.dropWhile Char.isDigit) with
  | none => rfl
  | some rest =>
      cases hall : rest.all PowToMul.isFloatSuffix with
      | true => simp [hall]
      | false => simp [hall]

/-- So are the writers. -/
theorem makeReplacement_eq : PowConstSquared.makeReplacement = makeReplacement := rfl

/-- The two writers agree up to exponent 4. -/
theorem makeReplacement_agree (base : Text) {exponent : Nat} (h : exponent < 5) :
    PowToMul.makeReplacement base exponent = PowConstSquared.makeReplacement base exponent := by
  have hcases : exponent = 0 ∨ exponent = 1 ∨ exponent = 2 ∨ exponent = 3 ∨ exponent = 4 := by omega
  rcases hcases with rfl | rfl | rfl | rfl | rfl <;> rfl

/-- **`pow-to-mul` emits what `pow-const-squared` matches with an exponent
below 5**, with the same fix. -/
theorem powToMul_onNode (source : SourceId) (bytes : Text) (node : Node) :
    PowToMul.onNode source bytes node
      = if node.kind ≠ .callExpression then none
        else
          (PowConstSquared.matchPowCall node bytes).bind fun m =>
            if m.exponent < 5 then
              some ⟨PowToMul.kRuleId, .warning, node.span source, PowToMul.makeMessage m.exponent,
                [PowConstSquared.fixOf source node m]⟩
            else none := by
  unfold PowToMul.onNode PowConstSquared.matchPowCall
  simp only [parseIntegerLiteral_agree]
  by_cases hkind : node.kind = .callExpression
  · rw [if_neg (not_not.mpr hkind), if_neg (not_not.mpr hkind)]
    cases hfn : node.childByField .function with
    | none => rfl
    | some fn =>
        cases hargs : node.childByField .arguments with
        | none => simp
        | some args =>
            have hname : PowToMul.kPowName = PowConstSquared.kPowName := rfl
            rw [hname]
            dsimp only
            by_cases hpow : fn.kind ≠ .identifier ∨ fn.text bytes ≠ PowConstSquared.kPowName
            · rw [if_pos hpow, if_pos hpow]
              rfl
            · rw [if_neg hpow, if_neg hpow]
              split
              next arg0 arg1 _ =>
                  by_cases hnumber : arg1.kind = .numberLiteral
                  · rw [if_neg (not_not.mpr hnumber), if_neg (not_not.mpr hnumber)]
                    cases PowConstSquared.parseIntegerLiteral (arg1.text bytes) with
                    | none => rfl
                    | some exponent =>
                        dsimp only
                        by_cases hrange : exponent < 2 ∨ exponent > 5
                        · rw [if_pos hrange, if_pos (by omega)]
                          rfl
                        · rw [if_neg hrange]
                          by_cases hfive : exponent = 5
                          · -- the exponent that only the first rule takes
                            rw [if_pos (by omega), hfive]
                            split
                            · rfl
                            · split
                              · rfl
                              · rw [Option.bind_some, if_neg (Nat.lt_irrefl 5)]
                          · have hlt : exponent < 5 := by omega
                            rw [if_neg (by omega), makeReplacement_agree _ hlt]
                            split
                            · rfl
                            · split
                              · rfl
                              · rw [Option.bind_some, if_pos hlt]
                                rfl
                  · rw [if_pos hnumber, if_pos hnumber]
                    rfl
              · rfl
  · rw [if_pos hkind, if_pos hkind]

/-! ## §4. One fix. -/

theorem powConstSquared_onNode (source : SourceId) (bytes : Text) (node : Node) :
    PowConstSquared.onNode source bytes node
      = if node.kind ≠ .callExpression then none
        else
          (PowConstSquared.matchPowCall node bytes).map fun m =>
            ⟨PowConstSquared.kRuleId, .warning, node.span source,
              PowConstSquared.makeMessage m.exponent, [PowConstSquared.fixOf source node m]⟩ := by
  unfold PowConstSquared.onNode
  split
  · rfl
  · cases PowConstSquared.matchPowCall node bytes <;> rfl

/-- When `pow-to-mul` fires, both rules have the fix of one match. -/
theorem onNode_both {source : SourceId} {bytes : Text} {node : Node} {d : Diagnostic}
    (h : PowToMul.onNode source bytes node = some d) :
    ∃ m, PowConstSquared.matchPowCall node bytes = some m ∧ m.exponent < 5
      ∧ d.primarySpan = node.span source ∧ d.fixes = [PowConstSquared.fixOf source node m]
      ∧ PowConstSquared.onNode source bytes node
          = some ⟨PowConstSquared.kRuleId, .warning, node.span source,
              PowConstSquared.makeMessage m.exponent, [PowConstSquared.fixOf source node m]⟩ := by
  rw [powToMul_onNode] at h
  split at h
  · cases h
  next hkind =>
      obtain ⟨m, hm, hemit⟩ := Option.bind_eq_some_iff.mp h
      obtain ⟨hlt, hd⟩ := Option.ite_none_right_eq_some.mp hemit
      refine ⟨m, hm, hlt, ?_, ?_, ?_⟩
      · rw [← Option.some.inj hd]
      · rw [← Option.some.inj hd]
      · rw [powConstSquared_onNode, if_neg hkind, hm]
        rfl

/-- A call of `pow` covers the name of its function. -/
theorem matchPowCall_nonempty {call : Node} {bytes : Text} {m : PowConstSquared.PowMatch}
    (hspan : call.wellSpanned = true) (h : PowConstSquared.matchPowCall call bytes = some m) :
    call.info.lo < call.info.hi := by
  unfold PowConstSquared.matchPowCall at h
  split at h
  · cases h
  next fn hfn =>
      split at h
      · cases h
      next hname =>
          have htext : fn.text bytes = PowConstSquared.kPowName := by
            by_contra hne
            exact hname (Or.inr hne)
          refine @Node.lo_lt_hi_of_child _ _ bytes hspan (List.mem_of_find?_eq_some hfn) ?_
          rw [htext]
          decide

/-- What it means that the two rules agree on a node. -/
structure PowRulesAgree (source : SourceId) (bytes : Text) (node : Node) : Prop where
  /-- `pow-to-mul` fires where `pow-const-squared` fires with an exponent below 5. -/
  fires : (PowToMul.onNode source bytes node).isSome = true
    ↔ (PowConstSquared.onNode source bytes node).isSome = true
      ∧ ∃ m, PowConstSquared.matchPowCall node bytes = some m ∧ m.exponent < 5
  /-- Both emit one fix, with the same span, text and flag. -/
  sameFix : ∀ d, PowToMul.onNode source bytes node = some d →
    ∃ d' fix edit, PowConstSquared.onNode source bytes node = some d'
      ∧ d.fixes = [fix] ∧ d'.fixes = [fix] ∧ fix.edits = [edit] ∧ edit.span = node.span source
      ∧ d.primarySpan = d'.primarySpan
  /-- Among any other fixes, in either order, one of the two changes the text as
  both do. -/
  appliedOnce : ∀ d d', PowToMul.onNode source bytes node = some d →
    PowConstSquared.onNode source bytes node = some d' → ∀ fix ∈ d.fixes, ∀ fix' ∈ d'.fixes,
      ∀ (sort : Rewriter.DescendingSort Char) (priority priority' : Rewriter.FixPriority)
        (before between behind : List (Rewriter.PrioritisedFix Char)) (a b),
        (a = ⟨priority, fix⟩ ∧ b = ⟨priority', fix'⟩) ∨ (a = ⟨priority', fix'⟩ ∧ b = ⟨priority, fix⟩) →
          (Rewriter.apply sort bytes (before ++ a :: between ++ b :: behind)).1
              = (Rewriter.apply sort bytes (before ++ a :: between ++ behind)).1
            ∨ (Rewriter.apply sort bytes (before ++ a :: between ++ b :: behind)).1
              = (Rewriter.apply sort bytes (before ++ between ++ b :: behind)).1

/-- **The two `pow` rules agree**, on every node of a tree whose children lie
inside their parents. -/
theorem powRules_agree (source : SourceId) (bytes : Text) (node : Node)
    (hspan : node.wellSpanned = true) : PowRulesAgree source bytes node := by
  refine ⟨⟨fun h => ?_, ?_⟩, fun d hd => ?_, ?_⟩
  · obtain ⟨d, hd⟩ := Option.isSome_iff_exists.mp h
    obtain ⟨m, hm, hlt, _, _, hboth⟩ := onNode_both hd
    exact ⟨by rw [hboth]; rfl, m, hm, hlt⟩
  · rintro ⟨hfires, m, hm, hlt⟩
    rw [powConstSquared_onNode] at hfires
    rw [powToMul_onNode]
    split at hfires
    · cases hfires
    next hkind =>
        rw [if_neg hkind, hm, Option.bind_some, if_pos hlt]
        rfl
  · obtain ⟨m, _, _, hprimary, hfixes, hboth⟩ := onNode_both hd
    exact ⟨_, _, _, hboth, hfixes, rfl, rfl, rfl, hprimary⟩
  · intro d d' hd hd' fix hfix fix' hfix' sort priority priority' before between behind a b hab
    obtain ⟨m, hm, _, _, hfixes, hboth⟩ := onNode_both hd
    rw [hboth] at hd'
    cases hd'
    rw [hfixes, List.mem_singleton] at hfix
    have hsame : fix' = PowConstSquared.fixOf source node m := List.mem_singleton.mp hfix'
    have htwins : ∀ p q : Rewriter.FixPriority,
        Rewriter.Twins ⟨p, PowConstSquared.fixOf source node m⟩
          ⟨q, PowConstSquared.fixOf source node m⟩ := by
      intro p q
      exact ⟨rfl, _, List.mem_singleton.mpr rfl, matchPowCall_nonempty hspan hm⟩
    rcases hab with ⟨rfl, rfl⟩ | ⟨rfl, rfl⟩
    · rw [hfix, hsame]
      exact Rewriter.apply_twins sort bytes (htwins _ _) before between behind
    · rw [hfix, hsame]
      exact Rewriter.apply_twins sort bytes (htwins _ _) before between behind

/-- The tree of `pow(x, 2.0)`. -/
def powOfName : Node :=
  .mk ⟨.callExpression, true, false, none, 0, 11⟩
    [.mk ⟨.identifier, true, false, some .function, 0, 3⟩ [],
      .mk ⟨.argumentList, true, false, some .arguments, 3, 11⟩
        [.mk ⟨.other ['('], false, false, none, 3, 4⟩ [],
          .mk ⟨.identifier, true, false, none, 4, 5⟩ [],
          .mk ⟨.other [','], false, false, none, 5, 6⟩ [],
          .mk ⟨.numberLiteral, true, false, none, 7, 10⟩ [],
          .mk ⟨.other [')'], false, false, none, 10, 11⟩ []]]

/-- Both rules fire on `pow(x, 2.0)`. -/
theorem powRules_agree_name :
    (PowToMul.onNode ⟨1⟩ "pow(x, 2.0)".toList powOfName).isSome = true
      ∧ PowRulesAgree ⟨1⟩ "pow(x, 2.0)".toList powOfName :=
  ⟨by decide +kernel, powRules_agree ⟨1⟩ _ powOfName (by decide)⟩

end ShaderClippy.Rules
