/-
  ShaderClippy.Rules.SampleGrad

  **DOES THE FIX OF `SampleGrad` DROP ANYTHING?**
  (`samplegrad_with_constant_grads.cpp`)

  The query matches any four arguments in order, whatever stands between them and
  behind them, and the fix writes a call with the first two of these. The other
  two have to look like zero; of a constructor this looks at nothing behind the
  last parenthesis.

  So the automatic fix is right exactly where it is not made, or the call has
  four arguments, and the third and the fourth are a number or a constructor of
  numbers alone, or else denote zero (`sampleGradLaw_iff`).
-/
import ShaderClippy.Hlsl.TokenText
import ShaderClippy.Hlsl.VectorMeaning
import ShaderClippy.Lib.Lines
import ShaderClippy.Rules.GroupsharedBudget
import ShaderClippy.Rules.OperandStructure

namespace ShaderClippy.Rules.SampleGrad

open Hlsl
open Munch (LexOK Seam render IsToken)
open GroupsharedBudget (isTrimmed)

/-! ## §1. The zero test. -/

/-- `trim`. -/
def trim (s : Text) : Text := Trim.trim isTrimmed s

/-- The suffixes of a number that are passed over. -/
def isSuffix (c : Char) : Bool :=
  c == 'f' || c == 'F' || c == 'h' || c == 'H' || c == 'l' || c == 'L'

/-- The test of a number: zeros, a point and zeros, suffixes. -/
def isZeroNumber (text : Text) : Bool :=
  (text.takeWhile Char.isDigit).all (· == '0')
    && match text.dropWhile Char.isDigit with
      | '.' :: rest => (rest.takeWhile Char.isDigit).all (· == '0') && (rest.dropWhile Char.isDigit).all isSuffix
      | rest => rest.all isSuffix

/-- Without a sign in front. -/
def unsigned : Text → Text
  | '+' :: rest => rest
  | '-' :: rest => rest
  | text => text

/-- What is between the first `(` and the last `)`. -/
def insideOf (text : Text) : Option Text :=
  match text.dropWhile (· != '(') with
  | [] => none
  | _ :: behind =>
      match behind.reverse.dropWhile (· != ')') with
      | [] => none
      | _ :: inside => if inside.isEmpty then none else some inside.reverse

/-- The recursion of `token_is_zero_literal`. -/
def zeroLiteralFrom : Nat → Text → Bool
  | 0, _ => false
  | fuel + 1, text =>
      let text := unsigned (trim text)
      if text.head?.any Char.isDigit then isZeroNumber text
      else if kConstructors.any fun name => (name ++ ['(']).isPrefixOf text then
        match insideOf text with
        | none => false
        | some inside => (Lines.split ',' inside).all fun piece => zeroLiteralFrom fuel (trim piece)
      else false

/-- `token_is_zero_literal`. -/
def tokenIsZeroLiteral (text : Text) : Bool := zeroLiteralFrom (text.length + 1) text

/-! ## §2. The rule. -/

/-- What the query captures at a call of a method. -/
structure GradCall where
  tex : Expr
  method : Token
  args : List Expr

/-- A `call_expression` of a `field_expression`. -/
def gradCallOf (node : Expr) : Option GradCall :=
  match callOf node with
  | some ⟨.suffix tex (.member _ method), args⟩ => some ⟨tex, method, args⟩
  | _ => none

def kSampleGrad : Text := "SampleGrad".toList

def kSampleLevel : Text := "SampleLevel".toList

/-- `kind_simple`. -/
def kindSimple (isType : Text → Bool) : Expr → Bool
  | .atom t => kind isType t == .name
  | .suffix _ (.member _ _) => true
  | .apply _ l _ _ => l.body == ['[']
  | _ => false

/-- A match of the query that the rule does not pass over. -/
structure GradMatch where
  tex : Expr
  sampler : Expr
  uv : Expr

/-- Four arguments in order. -/
def matchOf (tex : Expr) : List Expr → Option GradMatch
  | [sampler, uv, ddx, ddy] =>
      if tokenIsZeroLiteral (nodeText ddx) && tokenIsZeroLiteral (nodeText ddy) then
        some ⟨tex, sampler, uv⟩
      else none
  | _ => none

/-- The matches of the query at a node: it has no anchors, so any four arguments
in order make one. -/
def gradMatches (node : Expr) : List GradMatch :=
  match gradCallOf node with
  | none => []
  | some call =>
      if call.method.body = kSampleGrad then (call.args.sublistsLen 4).filterMap (matchOf call.tex)
      else []

namespace GradMatch

/-- `all_simple`. -/
def allSimple (isType : Text → Bool) (m : GradMatch) : Bool :=
  kindSimple isType m.tex && kindSimple isType m.sampler && kindSimple isType m.uv

def replacement (m : GradMatch) : Text :=
  nodeText m.tex ++ ".SampleLevel(".toList ++ nodeText m.sampler ++ ", ".toList ++ nodeText m.uv
    ++ ", 0.0)".toList

def fix (isType : Text → Bool) (source : SourceId) (c : Ctx) (node : Expr) (m : GradMatch) : Fix Char :=
  nodeFix source c node
    (if m.allSimple isType then "replace SampleGrad with SampleLevel".toList
    else "replace SampleGrad with SampleLevel; verify the texture, ".toList
      ++ "sampler, and UV expressions are side-effect-free first".toList)
    (m.allSimple isType) m.replacement

end GradMatch

/-- The fixes at a node, one for each match. -/
def gradFixes (isType : Text → Bool) (source : SourceId) (c : Ctx) (node : Expr) : List (Fix Char) :=
  (gradMatches node).map (GradMatch.fix isType source c node)

/-! ## §3. What was meant. -/

/-- `tex.SampleLevel(sampler, uv, 0.0)`. -/
def levelNode (lead : Text) (tex sampler uv : Expr) : Expr :=
  .apply (.suffix (tex.withLead lead) (.member ⟨[], ['.']⟩ ⟨[], kSampleLevel⟩)) ⟨[], ['(']⟩
    (triple (sampler.withLead []) (uv.withLead [' ']) (.atom ⟨[' '], "0.0".toList⟩)) ⟨[], [')']⟩

/-- A number, with a sign or without. -/
def isSignedNumber (isType : Text → Bool) : Expr → Bool
  | .atom t => kind isType t == .number
  | .unary (.op sign) (.atom t) => (sign.body == ['+'] || sign.body == ['-']) && kind isType t == .number
  | _ => false

/-- A call of a name with numbers. -/
def isCallOfNumbers (isType : Text → Bool) (e : Expr) : Bool :=
  match callOf e with
  | some ⟨.atom _, args⟩ => !args.isEmpty && args.all (isSignedNumber isType)
  | _ => false

/-- A number or a call of a name with numbers, with nothing behind it. -/
def isPlain (isType : Text → Bool) (e : Expr) : Bool :=
  isSignedNumber isType e
    || match e with
      | .unary (.op sign) e => (sign.body == ['+'] || sign.body == ['-']) && isCallOfNumbers isType e
      | e => isCallOfNumbers isType e

/-! ## §4. What looks like zero. -/

variable {isType : Text → Bool}

/-- What the test has found: a number, or a constructor of what looks like zero. -/
theorem zeroLiteral_cases {fuel : Nat} {text : Text} (h : zeroLiteralFrom fuel text = true) :
    ((unsigned (trim text)).head?.any Char.isDigit = true ∧ isZeroNumber (unsigned (trim text)) = true)
      ∨ ∃ name ∈ kConstructors, (name ++ ['(']) <+: unsigned (trim text)
        ∧ ∃ inside rest, insideOf (unsigned (trim text)) = some inside
          ∧ ∀ piece ∈ Lines.split ',' inside, zeroLiteralFrom rest (trim piece) = true := by
  cases fuel with
  | zero => cases h
  | succ fuel =>
      rw [zeroLiteralFrom] at h
      split at h
      case isTrue hdigit => exact Or.inl ⟨hdigit, h⟩
      case isFalse =>
          split at h
          case isTrue hname =>
              obtain ⟨name, hmem, hbegins⟩ := List.any_eq_true.mp hname
              refine Or.inr ⟨name, hmem, List.isPrefixOf_iff_prefix.mp hbegins, ?_⟩
              split at h
              case h_1 => cases h
              case h_2 inside hinside => exact ⟨inside, fuel, hinside, List.all_eq_true.mp h⟩
          case isFalse => cases h

theorem length_trim_le (t : Text) : (trim t).length ≤ t.length := by
  obtain ⟨-, x, y, -, -, hsplit⟩ := Trim.padded_trim (p := isTrimmed) t
  conv_rhs => rw [hsplit]
  rw [List.length_append, List.length_append]
  unfold trim
  omega

theorem length_unsigned_le (t : Text) : (unsigned t).length ≤ t.length := by
  unfold unsigned
  split <;> simp

theorem length_insideOf {t inside : Text} (h : insideOf t = some inside) : inside.length < t.length := by
  have hdrop := List.length_dropWhile_le (· != '(') t
  unfold insideOf at h
  split at h
  case h_1 => cases h
  case h_2 c behind hbehind =>
      have hdrop' := List.length_dropWhile_le (· != ')') behind.reverse
      split at h
      case h_1 => cases h
      case h_2 d inner hinner =>
          split at h
          case isTrue => cases h
          case isFalse =>
              cases h
              rw [hbehind, List.length_cons] at hdrop
              rw [hinner, List.length_cons, List.length_reverse] at hdrop'
              rw [List.length_reverse]
              omega

/-- More fuel than characters is never used up. -/
theorem zeroLiteralFrom_fuel {a b : Nat} {text : Text} (ha : text.length < a) (hb : text.length < b) :
    zeroLiteralFrom a text = zeroLiteralFrom b text := by
  induction a generalizing b text with
  | zero => exact absurd ha (Nat.not_lt_zero _)
  | succ a ih =>
      obtain ⟨b, rfl⟩ : ∃ n, b = n + 1 := ⟨b - 1, by omega⟩
      rw [zeroLiteralFrom, zeroLiteralFrom]
      cases hinside : insideOf (unsigned (trim text)) with
      | none => rfl
      | some inside =>
          have hshort := length_insideOf hinside
          have hlen := (length_unsigned_le (trim text)).trans (length_trim_le text)
          -- what is looked at next is shorter
          have hpieces : ((Lines.split ',' inside).all fun piece => zeroLiteralFrom a (trim piece))
              = (Lines.split ',' inside).all fun piece => zeroLiteralFrom b (trim piece) := by
            rw [Bool.eq_iff_iff, List.all_eq_true, List.all_eq_true]
            refine forall₂_congr ?_
            intro piece hpiece
            have hle := (length_trim_le piece).trans (Lines.length_le_of_mem_split ',' hpiece)
            have heq : zeroLiteralFrom a (trim piece) = zeroLiteralFrom b (trim piece) :=
              ih (by omega) (by omega)
            rw [heq]
          simp only [hpieces]

/-! ## §5. Numbers that look like zero. -/

/-- The text without its blanks. -/
def solid (t : Text) : Text := t.filter fun c => !isSpace c

theorem solid_append (s t : Text) : solid (s ++ t) = solid s ++ solid t := List.filter_append _ _

theorem solid_blank {t : Text} (h : Blank t) : solid t = [] := by
  refine List.filter_eq_nil_iff.mpr fun c hc => ?_
  rw [h c hc]
  exact nofun

theorem solid_self {t : Text} (h : ∀ c ∈ t, isSpace c = false) : solid t = t := by
  refine List.filter_eq_self.mpr fun c hc => ?_
  rw [h c hc]
  rfl

theorem isSpace_trimmed {c : Char} (h : isTrimmed c = true) : isSpace c = true := by
  simp only [isTrimmed, Bool.or_eq_true, beq_iff_eq] at h
  obtain (rfl | rfl) | rfl := h <;> rfl

/-- Only blanks are trimmed. -/
theorem solid_trim (t : Text) : solid (trim t) = solid t := by
  obtain ⟨-, a, b, ha, hb, hsplit⟩ := Trim.padded_trim (p := isTrimmed) t
  conv_rhs => rw [hsplit]
  rw [solid_append, solid_append, solid_blank fun c hc => isSpace_trimmed (ha c hc),
    solid_blank fun c hc => isSpace_trimmed (hb c hc), List.nil_append, List.append_nil]
  rfl

/-- The sign in front of a text, if there is one. -/
theorem unsigned_split (t : Text) : ∃ sign, (sign = [] ∨ sign = ['+'] ∨ sign = ['-']) ∧ t = sign ++ unsigned t := by
  unfold unsigned
  split
  · exact ⟨['+'], Or.inr (Or.inl rfl), rfl⟩
  · exact ⟨['-'], Or.inr (Or.inr rfl), rfl⟩
  · exact ⟨[], Or.inl rfl, rfl⟩

theorem token_solid {body : Text} (h : IsToken rules body) : ∀ c ∈ body, isSpace c = false := by
  have hgrown : ∀ {s cur : Text}, Munch.Grown rules cur s → ∀ c ∈ s, isSpace c = false := by
    intro s
    induction s with
    | nil => exact fun _ => nofun
    | cons d s ih =>
        intro cur hg c hc
        obtain rfl | hc := List.mem_cons.mp hc
        · exact Munch.not_space_of_grows hg.1
        · exact ih hg.2 c hc
  exact hgrown h.2

/-- What a zero looks like. -/
theorem isZeroNumber_spec {n : Text} (h : isZeroNumber n = true) :
    (∀ c ∈ n.takeWhile Char.isDigit, c = '0')
      ∧ (∀ c ∈ (fraction (n.dropWhile Char.isDigit)).1, c = '0')
      ∧ ∀ c ∈ n, c.isDigit = true ∨ c = '.' ∨ isSuffix c = true := by
  rw [isZeroNumber, Bool.and_eq_true, List.all_eq_true] at h
  obtain ⟨hwhole, hrest⟩ := h
  have hsplit : ∀ c ∈ n, c ∈ n.takeWhile Char.isDigit ∨ c ∈ n.dropWhile Char.isDigit := by
    intro c hc
    rwa [← List.mem_append, List.takeWhile_append_dropWhile]
  have hdigit : ∀ {s : Text}, ∀ c ∈ s.takeWhile Char.isDigit, c.isDigit = true := fun c hc =>
    List.mem_takeWhile_imp hc
  refine ⟨fun c hc => beq_iff_eq.mp (hwhole c hc), ?_, ?_⟩
  · split at hrest
    case h_1 rest heq =>
        rw [Bool.and_eq_true, List.all_eq_true, List.all_eq_true] at hrest
        rw [heq]
        exact fun c hc => beq_iff_eq.mp (hrest.1 c hc)
    case h_2 hne =>
        rw [show (fraction (n.dropWhile Char.isDigit)).1 = [] by
          unfold fraction
          split
          case h_1 heq => exact absurd heq (hne _)
          case h_2 => rfl]
        exact nofun
  · intro c hc
    obtain hc | hc := hsplit c hc
    · exact Or.inl (hdigit c hc)
    · split at hrest
      case h_1 rest heq =>
          rw [Bool.and_eq_true, List.all_eq_true, List.all_eq_true] at hrest
          rw [heq] at hc
          obtain rfl | hc := List.mem_cons.mp hc
          · exact Or.inr (Or.inl rfl)
          · rw [← List.takeWhile_append_dropWhile (p := Char.isDigit) (l := rest)] at hc
            obtain hc | hc := List.mem_append.mp hc
            · exact Or.inl (hdigit c hc)
            · exact Or.inr (Or.inr (hrest.2 c hc))
      case h_2 => exact Or.inr (Or.inr (List.all_eq_true.mp hrest c hc))

theorem isSuffix_cases {c : Char} (h : isSuffix c = true) :
    c = 'f' ∨ c = 'F' ∨ c = 'h' ∨ c = 'H' ∨ c = 'l' ∨ c = 'L' := by
  simpa [isSuffix, or_assoc] using h

/-- **A zero is one.** -/
theorem realLiteral_zeroNumber {n : Text} (h : isZeroNumber n = true) : realLiteral n = 0 := by
  obtain ⟨hwhole, hfrac, hchars⟩ := isZeroNumber_spec h
  refine realLiteral_zeros ?_ hwhole hfrac
  unfold isHex
  split
  case h_2 => rfl
  case h_1 c rest =>
      rw [Bool.or_eq_false_iff, beq_eq_false_iff_ne, beq_eq_false_iff_ne]
      constructor <;> rintro rfl
      · have hx := hchars 'x' (by simp)
        exact absurd hx (by decide)
      · have hx := hchars 'X' (by simp)
        exact absurd hx (by decide)

theorem solid_zeroNumber {n : Text} (h : isZeroNumber n = true) : solid n = n := by
  refine solid_self fun c hc => ?_
  obtain hdigit | rfl | hsuffix := (isZeroNumber_spec h).2.2 c hc
  · have hspace := space_stops ['.'] c
    by_contra hblank
    rw [Bool.not_eq_false] at hblank
    have hno := hspace hblank
    rw [grows, if_neg (by decide), if_neg (by decide), hdigit] at hno
    cases hno
  · rfl
  · obtain rfl | rfl | rfl | rfl | rfl | rfl := isSuffix_cases hsuffix <;> rfl

/-- The number a sign may stand in front of. -/
theorem signedNumber_cases {e : Expr} (h : isSignedNumber isType e = true) :
    ∃ t, kind isType t = .number ∧ (e = .atom t
      ∨ ∃ sign, (sign.body = ['+'] ∨ sign.body = ['-']) ∧ e = .unary (.op sign) (.atom t)) := by
  unfold isSignedNumber at h
  split at h
  case h_1 t => exact ⟨t, beq_iff_eq.mp h, Or.inl rfl⟩
  case h_2 sign t =>
      rw [Bool.and_eq_true, Bool.or_eq_true, beq_iff_eq, beq_iff_eq, beq_iff_eq] at h
      exact ⟨t, h.2, Or.inr ⟨sign, h.1, rfl⟩⟩
  case h_3 => cases h

/-- The text of a number, without its blanks. -/
theorem solid_signedNumber {e : Expr} (he : Part isType e) (h : isSignedNumber isType e = true) :
    ∃ t sign, kind isType t = .number ∧ IsToken rules t.body
      ∧ (sign = [] ∨ sign = ['+'] ∨ sign = ['-']) ∧ solid (nodeText e) = sign ++ t.body
      ∧ ∀ ρ, IsZero ((vector isType ρ).atom t.body) → IsZero (e.value (vector isType ρ)) := by
  obtain ⟨t, hkind, rfl | ⟨sign, hsign, rfl⟩⟩ := signedNumber_cases h
  · have htoken := he.2.2.1
    have htext : nodeText (.atom t) = t.body := by
      show [] ++ t.body ++ [] = t.body
      rw [List.nil_append, List.append_nil]
    refine ⟨t, [], hkind, htoken, Or.inl rfl, ?_, fun ρ hzero => hzero⟩
    rw [htext, solid_self (token_solid htoken), List.nil_append]
  · obtain ⟨-, -, -, hlead, htoken, -⟩ := he.2
    have htext : nodeText (.unary (.op sign) (.atom t)) = sign.body ++ (t.lead ++ t.body) := by
      show [] ++ sign.body ++ (t.lead ++ t.body ++ []) = sign.body ++ (t.lead ++ t.body)
      rw [List.nil_append, List.append_nil]
    have hsolid : solid sign.body = sign.body := by
      obtain hbody | hbody := hsign <;> rw [hbody] <;> rfl
    refine ⟨t, sign.body, hkind, htoken, Or.inr hsign, ?_, fun ρ hzero => @isZero_sign isType ρ _ hsign _ hzero⟩
    rw [htext, solid_append, solid_append, solid_blank hlead, solid_self (token_solid htoken), hsolid,
      List.nil_append]

/-- A number begins with a digit or a point. -/
theorem number_first {body : Text} (h : kindOf isType body = .number) :
    ∃ c t, body = c :: t ∧ (c.isDigit = true ∨ c = '.') := by
  obtain ⟨c, t, rfl, -, hnumber⟩ := kindOf_number h
  refine ⟨c, t, rfl, ?_⟩
  by_cases hdot : c = '.'
  · exact Or.inr hdot
  · exact Or.inl (by rwa [isNumberText_cons hdot] at hnumber)

/-- Signs and names are no numbers. -/
theorem not_first {c : Char} (h : c ∈ ['+', '-', 'f', 'h', ' ']) : ¬ (c.isDigit = true ∨ c = '.') := by
  have hall : (['+', '-', 'f', 'h', ' '].all fun c => !(c.isDigit || c == '.')) = true := rfl
  have hs := List.all_eq_true.mp hall c h
  simpa using hs

/-- A constructor's name begins with a letter. -/
theorem kConstructors_first {name : Text} (h : name ∈ kConstructors) :
    ∃ c t, name = c :: t ∧ c ∈ ['f', 'h'] := by
  simp only [kConstructors, List.mem_cons, List.not_mem_nil, or_false] at h
  obtain rfl | rfl | rfl | rfl | rfl | rfl := h <;> exact ⟨_, _, rfl, by decide⟩

/-- A text has one sign in front of it. -/
theorem sign_unique {s s' cs ds : Text} {c d : Char} (hs : s = [] ∨ s = ['+'] ∨ s = ['-'])
    (hs' : s' = [] ∨ s' = ['+'] ∨ s' = ['-']) (hc : c ∉ ['+', '-']) (hd : d ∉ ['+', '-'])
    (h : s ++ c :: cs = s' ++ d :: ds) : c :: cs = d :: ds := by
  obtain rfl | rfl | rfl := hs <;> obtain rfl | rfl | rfl := hs' <;> simp at h hc hd ⊢ <;> grind

/-- **What looks like zero and is a number is zero**, with a sign or without. -/
theorem zero_signedNumber {e : Expr} (he : Part isType e) (h : isSignedNumber isType e = true)
    {fuel : Nat} {text : Text} (hzero : zeroLiteralFrom fuel text = true)
    (htext : solid text = solid (nodeText e)) : DenotesZero isType e := by
  obtain ⟨t, sign, hkind, htoken, hsign, hsolid, hvalue⟩ := solid_signedNumber he h
  obtain ⟨c, cs, hbody, hc⟩ := number_first hkind
  obtain ⟨sign', hsign', hsplit⟩ := unsigned_split (trim text)
  have hsolid' : solid sign' = sign' := by
    obtain rfl | rfl | rfl := hsign' <;> rfl
  have heq : sign' ++ solid (unsigned (trim text)) = sign ++ t.body := by
    rw [← hsolid, ← htext, ← solid_trim text]
    conv_rhs => rw [hsplit]
    rw [solid_append, hsolid']
  -- what is behind the sign begins with no sign
  have hstrip : ∀ {d : Char} {ds : Text}, solid (unsigned (trim text)) = d :: ds → d ∉ ['+', '-'] →
      d :: ds = t.body := by
    intro d ds hd hno
    rw [hd, hbody] at heq
    rw [hbody]
    exact sign_unique hsign' hsign hno (fun hmem => not_first (by simp at hmem ⊢; tauto) hc) heq
  obtain ⟨hdigit, hnumber⟩ | ⟨name, hname, hbegins, -⟩ := zeroLiteral_cases hzero
  · obtain ⟨d, hd, hisDigit⟩ := (Option.any_eq_true _ _).mp hdigit
    obtain ⟨ds, hds⟩ := List.head?_eq_some_iff.mp hd
    have hn := solid_zeroNumber hnumber
    have hno : d ∉ ['+', '-'] := fun hmem => not_first (by simp at hmem ⊢; tauto) (Or.inl hisDigit)
    have hbody' := hstrip (hn.trans hds) hno
    rw [hds, hbody'] at hnumber
    intro ρ
    refine hvalue ρ ?_
    show IsZero (if kindOf isType t.body = .number then [realLiteral t.body] else _)
    rw [if_pos hkind]
    intro x hx
    rw [List.mem_singleton.mp hx]
    exact realLiteral_zeroNumber hnumber
  · obtain ⟨d, ds, rfl, hd⟩ := kConstructors_first hname
    obtain ⟨rest, hrest⟩ := hbegins
    have hcases : d = 'f' ∨ d = 'h' := by simpa using hd
    have hd' : solid (unsigned (trim text)) = d :: solid (ds ++ ['('] ++ rest) := by
      rw [← hrest]
      obtain rfl | rfl := hcases <;> rfl
    have hbody' := hstrip hd' (by obtain rfl | rfl := hcases <;> decide)
    rw [hbody] at hbody'
    obtain ⟨rfl, -⟩ := List.cons.inj hbody'
    exact absurd hc (not_first (by simp at hd ⊢; tauto))

/-! ## §6. Constructors that look like zero. -/

theorem comma_blank {u : Text} (h : Blank u) : ',' ∉ u := by
  intro hmem
  have hspace := h ',' hmem
  cases hspace

theorem solid_render {e : Expr} (he : Part isType e) : solid (render e.toks) = solid (nodeText e) := by
  rw [render_toks, solid_append, solid_blank (blank_lead he.2), List.nil_append]

/-- No comma stands in a number. -/
theorem comma_signedNumber {e : Expr} (he : Part isType e) (h : isSignedNumber isType e = true) :
    ',' ∉ render e.toks := by
  obtain ⟨t, sign, hkind, htoken, hsign, hsolid, -⟩ := solid_signedNumber he h
  intro hmem
  have hsolidmem : ',' ∈ solid (render e.toks) := List.mem_filter.mpr ⟨hmem, rfl⟩
  rw [solid_render he, hsolid] at hsolidmem
  obtain hmem | hmem := List.mem_append.mp hsolidmem
  · obtain rfl | rfl | rfl := hsign <;> simp at hmem
  · have hchars := number_chars hkind htoken ',' hmem
    exact absurd hchars (by decide)

/-- **Every argument is a piece between commas**, if there are no commas in the
arguments. -/
theorem piece_of_argument {i : Expr} (hi : Part isType i) (hflat : ∀ a ∈ arguments i, ',' ∉ render a.toks)
    {u : Text} (hu : Blank u) :
    ∀ a ∈ arguments i, ∃ p ∈ Lines.split ',' (render i.toks ++ u), solid p = solid (nodeText a) := by
  have hone : ∀ {e : Expr} {u : Text}, Part isType e → Blank u → ',' ∉ render e.toks →
      Lines.split ',' (render e.toks ++ u) = [render e.toks ++ u]
        ∧ solid (render e.toks ++ u) = solid (nodeText e) := by
    intro e u he hu hno
    refine ⟨Lines.split_of_unbroken ',' fun hmem => ?_, ?_⟩
    · exact (List.mem_append.mp hmem).elim hno (comma_blank hu)
    · rw [solid_append, solid_blank hu, List.append_nil, solid_render he]
  have hleaf : ∀ {e : Expr} {u : Text}, Part isType e → (∀ a ∈ arguments e, ',' ∉ render a.toks) → Blank u →
      arguments e = [e] →
        ∀ a ∈ arguments e, ∃ p ∈ Lines.split ',' (render e.toks ++ u), solid p = solid (nodeText a) := by
    intro e u he hflat hu harguments a ha
    rw [harguments] at ha hflat
    obtain ⟨hsplit, hsolid⟩ := hone he hu (hflat e (List.mem_singleton_self e))
    rw [List.mem_singleton.mp ha, hsplit]
    exact ⟨_, List.mem_singleton_self _, hsolid⟩
  induction i generalizing u with
  | binary x op y ihx _ =>
      by_cases hop : op.body = [',']
      · have hx := Part.fill (f := .left op y) hi
        have hy := Part.fill (f := .right x op) hi
        have harguments : arguments (.binary x op y) = arguments x ++ [y] := by rw [arguments, if_pos hop]
        rw [harguments] at hflat
        have hlead : Blank op.lead := by
          have hok := (Munch.lexOK_append.mp hi.2).2.1
          exact hok.1
        have htext : render (Expr.binary x op y).toks ++ u
            = (render x.toks ++ op.lead) ++ ',' :: (render y.toks ++ u) := by
          rw [Expr.toks, Munch.render_append, Munch.render_cons, Munch.Lexeme.text, hop]
          simp only [List.append_assoc, List.cons_append, List.nil_append]
        rw [harguments, htext, Lines.split_append_break]
        have hxflat : ∀ a ∈ arguments x, ',' ∉ render a.toks := fun a ha =>
          hflat a (List.mem_append_left _ ha)
        obtain ⟨hsplit, hsolid⟩ := hone hy hu (hflat y (by simp))
        intro a ha
        obtain ha | ha := List.mem_append.mp ha
        · obtain ⟨p, hp, hpa⟩ := ihx hx hxflat hlead a ha
          exact ⟨p, List.mem_append_left _ hp, hpa⟩
        · rw [List.mem_singleton.mp ha, hsplit]
          exact ⟨_, List.mem_append_right _ (List.mem_singleton_self _), hsolid⟩
      · exact hleaf hi hflat hu (by rw [arguments, if_neg hop])
  | _ => exact hleaf hi hflat hu rfl

/-- A call of a name, as it is written and what it means. -/
structure NameCall (isType : Text → Bool) (e : Expr) (t : Token) (args : List Expr) : Prop where
  written : ∃ l i r, e.toks = t :: l :: (i.toks ++ [r]) ∧ l.body = ['('] ∧ r.body = [')'] ∧ Part isType i
    ∧ arguments i = args
  kind_t : (kind isType t).isWord = true ∨ kind isType t = .number
  value : ∀ ρ, e.value (vector isType ρ)
    = (vector isType ρ).call (.name t.body) (args.map (Expr.value (vector isType ρ)))

theorem nameCall {e : Expr} (he : Part isType e) {t : Token} {args : List Expr}
    (h : callOf e = some ⟨.atom t, args⟩) (hargs : args ≠ []) : NameCall isType e t args := by
  cases e with
  | apply f l i r =>
      rw [callOf] at h
      split at h
      case isTrue hl =>
          cases h
          have hkind : kind isType l = .openParen := by
            rw [kind, hl]
            rfl
          have hr : kind isType r = .closeParen := by
            obtain ⟨-, hr⟩ | ⟨hopen, -⟩ := he.1.2.2.2
            · exact hr
            · rw [hkind] at hopen
              cases hopen
          refine ⟨⟨l, i, r, rfl, hl, body_closeParen hr, Part.fill (f := .argument (.atom t) l r) he, rfl⟩,
            ?_, fun ρ => ?_⟩
          · exact he.1.1.imp (fun hname => by rw [hname]; rfl) id
          · rw [Expr.value, meaning, if_pos hl, meaning_args]
            rfl
      case isFalse => cases h
  | construct type l i r =>
      cases h
      refine ⟨⟨l, i, r, rfl, body_openParen he.1.2.1, body_closeParen he.1.2.2.2,
        Part.fill (f := .construct t l r) he, rfl⟩, Or.inl (by rw [he.1.1]; rfl), fun ρ => ?_⟩
      rw [Expr.value, meaning, meaning_args]
      rfl
  | suffix f s =>
      cases s with
      | nullary l r =>
          cases h
          exact absurd rfl hargs
      | step => cases h
      | member => cases h
  | _ => cases h

/-- What is between the parentheses of a call. -/
theorem insideOf_call {w inside : Text} (hw : '(' ∉ w) (hne : inside ≠ []) :
    insideOf (w ++ '(' :: (inside ++ [')'])) = some inside := by
  have hfront : (w ++ '(' :: (inside ++ [')'])).dropWhile (· != '(') = '(' :: (inside ++ [')']) := by
    rw [List.dropWhile_append_of_pos, List.dropWhile_cons_of_neg (by simp)]
    intro c hc
    rw [bne_iff_ne]
    rintro rfl
    exact hw hc
  have hempty : inside.reverse.isEmpty = false := by simpa using hne
  unfold insideOf
  rw [hfront]
  simp only [List.reverse_append, List.reverse_cons, List.reverse_nil, List.nil_append,
    List.singleton_append, bne_self_eq_false, Bool.false_eq_true, not_false_eq_true, List.dropWhile_cons_of_neg, hempty, if_false,
    List.reverse_reverse]

/-- Where the name ends. -/
theorem name_unique {name w x y : Text} (hname : ∀ c ∈ name, isWordChar c = true)
    (hw : ∀ c ∈ w, isWordChar c = true) {lead : Text} (hlead : Blank lead)
    (h : name ++ '(' :: x = w ++ (lead ++ '(' :: y)) : name = w ∧ lead = [] := by
  have hstop : ∀ {s z : Text}, (∀ c ∈ s, isWordChar c = true) → (∀ c, z.head? = some c → isWordChar c = false) →
      (s ++ z).takeWhile isWordChar = s := by
    intro s z hs hz
    rw [List.takeWhile_append_of_pos hs]
    cases z with
    | nil => exact List.append_nil s
    | cons c z => rw [List.takeWhile_cons_of_neg (by rw [hz c rfl]; nofun), List.append_nil]
  have hright : ∀ c, (lead ++ '(' :: y).head? = some c → isWordChar c = false := by
    intro c hc
    cases lead with
    | nil =>
        cases hc
        rfl
    | cons d lead =>
        cases hc
        obtain rfl | rfl | rfl | rfl := isSpace_cases (hlead c List.mem_cons_self) <;> rfl
  have hsame := congrArg (List.takeWhile isWordChar) h
  rw [hstop hname (by rintro c ⟨⟩; rfl), hstop hw hright] at hsame
  refine ⟨hsame, ?_⟩
  rw [hsame] at h
  have htail := List.append_cancel_left h
  cases lead with
  | nil => rfl
  | cons d lead =>
      obtain ⟨rfl, -⟩ := List.cons.inj htail
      have hspace := hlead '(' List.mem_cons_self
      cases hspace

/-- **What looks like zero and is a call of a name with numbers is zero.** -/
theorem zero_callOfNumbers {e : Expr} (he : Part isType e) (h : isCallOfNumbers isType e = true)
    {name inside : Text} (hname : name ∈ kConstructors) (hbegins : (name ++ ['(']) <+: nodeText e)
    (hinside : insideOf (nodeText e) = some inside) {fuel : Nat}
    (hpieces : ∀ piece ∈ Lines.split ',' inside, zeroLiteralFrom fuel (trim piece) = true) :
    DenotesZero isType e := by
  unfold isCallOfNumbers at h
  split at h
  case h_2 => cases h
  case h_1 t args hcall =>
      rw [Bool.and_eq_true, Bool.not_eq_true', List.isEmpty_eq_false_iff, List.all_eq_true] at h
      obtain ⟨hne, hnumbers⟩ := h
      obtain ⟨⟨l, i, r, htoks, hl, hr, hi, harguments⟩, hkind, hvalue⟩ := nameCall he hcall hne
      have hok := he.2
      rw [htoks] at hok
      obtain ⟨-, htoken, -, hllead, -, -, hrest⟩ := hok
      have hrlead : Blank r.lead := (Munch.lexOK_append.mp hrest).2.1.1
      have htext : nodeText e = t.body ++ (l.lead ++ '(' :: ((render i.toks ++ r.lead) ++ [')'])) := by
        rw [nodeText, htoks, setLead, Munch.render_cons, Munch.render_cons, Munch.render_append]
        simp only [Munch.Lexeme.text, Munch.render_cons, Munch.render_nil, hl, hr, List.nil_append,
          List.append_nil, List.append_assoc, List.cons_append]
      rw [htext] at hbegins hinside
      obtain ⟨rest, hrest⟩ := hbegins
      rw [List.append_assoc, List.singleton_append] at hrest
      -- the name is a word, and all of the function
      have hword : (kind isType t).isWord = true := by
        refine hkind.resolve_right fun hnumber => ?_
        obtain ⟨c, cs, hbody, hstart, -⟩ := kindOf_number hnumber
        obtain ⟨d, ds, rfl, hd⟩ := kConstructors_first hname
        rw [hbody] at hrest
        obtain ⟨rfl, -⟩ := List.cons.inj hrest
        obtain rfl | rfl : d = 'f' ∨ d = 'h' := by simpa using hd
        · cases hstart
        · cases hstart
      have hnamechars : ∀ c ∈ name, isWordChar c = true :=
        List.all_eq_true.mp (List.all_eq_true.mp
          (show (kConstructors.all fun n => n.all isWordChar) = true by decide) name hname)
      have htchars := word_chars hword htoken
      obtain ⟨rfl, hnil⟩ := name_unique hnamechars htchars hllead hrest
      -- so the arguments are what is between the parentheses
      have hX : render i.toks ++ r.lead ≠ [] :=
        List.append_ne_nil_of_left_ne_nil (Munch.render_ne_nil hi.2 i.toks_ne_nil) _
      have hparen : '(' ∉ t.body := by
        intro hmem
        have hno := htchars '(' hmem
        cases hno
      rw [hnil, List.nil_append, insideOf_call hparen hX] at hinside
      cases hinside
      have hflat : ∀ a ∈ arguments i, ',' ∉ render a.toks := by
        intro a ha
        exact comma_signedNumber (arguments_spec hi a ha).1 (hnumbers a (harguments ▸ ha))
      intro ρ
      rw [hvalue]
      refine isZero_constructor hname ?_
      intro v hv
      obtain ⟨a, ha, rfl⟩ := List.mem_map.mp hv
      obtain ⟨p, hp, hsolid⟩ := piece_of_argument hi hflat hrlead a (harguments ▸ ha)
      exact zero_signedNumber (arguments_spec hi a (harguments ▸ ha)).1 (hnumbers a ha) (hpieces p hp)
        ((solid_trim p).trans hsolid) ρ

/-- The text of a node is trimmed. -/
theorem trim_nodeText {e : Expr} (he : Part isType e) : trim (nodeText e) = nodeText e := by
  have htrimmed : ∀ {c : Char}, isSpace c = false → isTrimmed c = false := by
    intro c hc
    cases h : isTrimmed c with
    | false => rfl
    | true =>
        rw [isSpace_trimmed h] at hc
        cases hc
  have hok : LexOK rules (setLead [] e.toks) := lexOK_setLead blank_nil he.2
  have hbody : ∀ {t : Token}, t ∈ setLead [] e.toks → IsToken rules t.body := by
    intro t ht
    obtain ⟨s, u, hsplit⟩ := List.append_of_mem ht
    rw [hsplit] at hok
    exact (Munch.lexOK_append.mp hok).2.1.2.1
  have hne : setLead [] e.toks ≠ [] := by
    have htoks := e.toks_ne_nil
    cases hcases : e.toks with
    | nil => exact absurd hcases htoks
    | cons t ts => exact nofun
  refine Trim.trim_padded ⟨⟨?_, ?_⟩, [], [], nofun, nofun, by simp⟩
  · intro c hc
    cases htoks : e.toks with
    | nil => exact absurd htoks e.toks_ne_nil
    | cons t ts =>
        have ht := hbody (t := ⟨[], t.body⟩) (by rw [htoks]; exact List.mem_cons_self)
        obtain ⟨d, ds, hbodyd, -⟩ := Munch.isToken_head ht
        have htext : nodeText e = d :: (ds ++ render ts) := by
          have hbodyd : t.body = d :: ds := hbodyd
          rw [nodeText, htoks, setLead, Munch.render_cons, Munch.Lexeme.text, hbodyd]
          rfl
        rw [htext] at hc
        cases hc
        exact htrimmed (token_solid ht _ (by rw [hbodyd]; exact List.mem_cons_self))
  · intro c hc
    have hlast := List.dropLast_concat_getLast hne
    have ht := hbody (List.getLast_mem hne)
    have hbodyne := ht.1
    rw [nodeText, ← hlast, Munch.render_append, Munch.render_cons, Munch.render_nil, List.append_nil,
      Munch.Lexeme.text, ← List.append_assoc, List.getLast?_append_of_ne_nil _ hbodyne] at hc
    exact htrimmed (token_solid ht c (List.mem_of_getLast? hc))

/-- The function of a call is a word, or a number. -/
theorem nameCall_text {e : Expr} {t : Token} {args : List Expr} (h : NameCall isType e t args) :
    '(' ∈ nodeText e ∧ unsigned (nodeText e) = nodeText e := by
  obtain ⟨⟨l, i, r, htoks, hl, -⟩, hkind, -⟩ := h
  have htext : nodeText e = t.body ++ (l.lead ++ '(' :: render (i.toks ++ [r])) := by
    rw [nodeText, htoks, setLead, Munch.render_cons, Munch.render_cons]
    simp only [Munch.Lexeme.text, hl, List.nil_append, List.append_assoc, List.cons_append]
  refine ⟨by rw [htext]; simp, ?_⟩
  obtain ⟨c, cs, hbody, hc⟩ := head_operand (hkind.imp_right Or.inl)
  rw [htext, hbody]
  unfold unsigned
  split
  case h_1 heq =>
      obtain ⟨rfl, -⟩ := List.cons.inj heq
      exact absurd (by decide) hc
  case h_2 heq =>
      obtain ⟨rfl, -⟩ := List.cons.inj heq
      exact absurd (by decide) hc
  case h_3 => rfl

/-- A call that is behind a sign, or behind nothing. -/
theorem zero_behindSign {e : Expr} (he : Part isType e) (h : isCallOfNumbers isType e = true) {text lead : Text}
    (hlead : Blank lead) (htext : unsigned (trim text) = lead ++ nodeText e)
    (hzero : tokenIsZeroLiteral text = true) : DenotesZero isType e := by
  obtain ⟨-, hnumber⟩ | ⟨name, hname, hbegins, inside, fuel, hinside, hpieces⟩ := zeroLiteral_cases hzero
  · -- a number has no parenthesis
    have hparen : '(' ∈ nodeText e := by
      unfold isCallOfNumbers at h
      split at h
      case h_1 t args hcall =>
          rw [Bool.and_eq_true, Bool.not_eq_true', List.isEmpty_eq_false_iff] at h
          exact (nameCall_text (nameCall he hcall h.1)).1
      case h_2 => cases h
    rw [htext] at hnumber
    have hchars := (isZeroNumber_spec hnumber).2.2 '(' (List.mem_append_right _ hparen)
    exact absurd hchars (by decide)
  · -- and what the name stands in front of is no blank
    have hnil : lead = [] := by
      cases lead with
      | nil => rfl
      | cons c lead =>
          obtain ⟨d, ds, rfl, hd⟩ := kConstructors_first hname
          obtain ⟨rest, hrest⟩ := hbegins
          rw [htext] at hrest
          obtain ⟨rfl, -⟩ := List.cons.inj hrest
          have hspace := hlead d List.mem_cons_self
          obtain rfl | rfl : d = 'f' ∨ d = 'h' := by simpa using hd
          · cases hspace
          · cases hspace
    rw [htext, hnil, List.nil_append] at hbegins hinside
    exact zero_callOfNumbers he h hname hbegins hinside hpieces

/-- **What looks like zero is zero, if there is nothing behind it.** -/
theorem plain_zero {e : Expr} (he : Part isType e) (hplain : isPlain isType e = true)
    (hzero : tokenIsZeroLiteral (nodeText e) = true) : DenotesZero isType e := by
  unfold isPlain at hplain
  rw [Bool.or_eq_true] at hplain
  obtain hnumber | hcall := hplain
  · exact zero_signedNumber he hnumber hzero rfl
  · split at hcall
    case h_1 sign e =>
        rw [Bool.and_eq_true, Bool.or_eq_true, beq_iff_eq, beq_iff_eq] at hcall
        have hpart : Part isType e := Part.fill (f := .unary (.op sign)) he
        have htext : nodeText (.unary (.op sign) e) = sign.body ++ (e.lead ++ nodeText e) := by
          show [] ++ sign.body ++ render e.toks = sign.body ++ (e.lead ++ nodeText e)
          rw [List.nil_append, render_toks]
        have hunsigned : unsigned (trim (nodeText (.unary (.op sign) e))) = e.lead ++ nodeText e := by
          rw [trim_nodeText he, htext]
          obtain hbody | hbody := hcall.1 <;> rw [hbody] <;> rfl
        have hinner := zero_behindSign hpart hcall.2 (blank_lead hpart.2) hunsigned hzero
        intro ρ
        exact @isZero_sign isType ρ _ hcall.1 _ (hinner ρ)
    case h_2 =>
        have hunsigned : unsigned (trim (nodeText e)) = [] ++ nodeText e := by
          rw [trim_nodeText he, List.nil_append]
          unfold isCallOfNumbers at hcall
          split at hcall
          case h_1 t args hargs =>
              rw [Bool.and_eq_true, Bool.not_eq_true', List.isEmpty_eq_false_iff] at hcall
              exact (nameCall_text (nameCall he hargs hcall.1)).2
          case h_2 => cases hcall
        exact zero_behindSign he hcall blank_nil hunsigned hzero

/-! ## §7. Reading the replacement. -/

/-- What the query has captured is a part of the call. -/
theorem gradCall_spec {node : Expr} (h : Part isType node) {call : GradCall} (hcall : gradCallOf node = some call) :
    (∃ dot, Part isType (.suffix call.tex (.member dot call.method)))
      ∧ ∀ a ∈ call.args, Part isType a ∧ 1 ≤ a.level isType := by
  unfold gradCallOf at hcall
  split at hcall
  case h_1 tex dot method args hof =>
      cases hcall
      refine ⟨⟨dot, ?_⟩, callOf_spec h hof⟩
      cases node with
      | apply f l i r =>
          rw [callOf] at hof
          split at hof
          case isTrue =>
              cases hof
              exact Part.fill (f := .callee l i r) h
          case isFalse => cases hof
      | suffix f s =>
          cases s with
          | nullary l r =>
              cases hof
              exact Part.fill (f := .suffix (.nullary l r)) h
          | step => cases hof
          | member => cases hof
      | construct => cases hof
      | _ => cases hof
  case h_2 => cases hcall

theorem levelNode_toks (lead : Text) (tex sampler uv : Expr) :
    (levelNode lead tex sampler uv).toks = setLead lead tex.toks ++ (⟨[], ['.']⟩ :: ⟨[], kSampleLevel⟩
      :: ⟨[], ['(']⟩ :: ((triple (sampler.withLead []) (uv.withLead [' '])
        (.atom ⟨[' '], "0.0".toList⟩)).toks ++ [⟨[], [')']⟩])) := by
  rw [levelNode, Expr.toks, Expr.toks, toks_withLead, Suffix.toks, List.append_assoc]
  rfl

theorem nodeText_levelNode (lead : Text) (m : GradMatch) :
    nodeText (levelNode lead m.tex m.sampler m.uv) = m.replacement := by
  have hsampler : render (m.sampler.withLead []).toks = nodeText m.sampler := by
    rw [render_toks, lead_withLead, nodeText_withLead, List.nil_append]
  have huv : render (m.uv.withLead [' ']).toks = ' ' :: nodeText m.uv := by
    rw [render_toks, lead_withLead, nodeText_withLead]
    rfl
  have htex : render (setLead [] (setLead lead m.tex.toks)) = nodeText m.tex := by
    rw [← toks_withLead, ← nodeText_withLead lead m.tex]
    rfl
  have hne : setLead lead m.tex.toks ≠ [] := by
    rw [← toks_withLead]
    exact Expr.toks_ne_nil _
  rw [nodeText, levelNode_toks, setLead_append _ hne, Munch.render_append, htex, Munch.render_cons,
    Munch.render_cons, Munch.render_cons, Munch.render_append, render_triple, hsampler, huv]
  have hopen : ".SampleLevel(".toList = '.' :: (kSampleLevel ++ ['(']) := rfl
  have hcomma : ", ".toList = [',', ' '] := rfl
  have hclose : ", 0.0)".toList = ',' :: ' ' :: ("0.0".toList ++ [')']) := rfl
  unfold GradMatch.replacement
  rw [hopen, hcomma, hclose]
  simp only [Munch.Lexeme.text, Expr.toks, Munch.render_cons, Munch.render_nil, List.append_assoc,
    List.cons_append, List.nil_append, List.append_nil]

theorem lead_levelNode (lead : Text) (tex sampler uv : Expr) : (levelNode lead tex sampler uv).lead = lead := by
  have htex := lead_withLead lead tex
  rw [Expr.lead, toks_withLead] at htex
  have hne : setLead lead tex.toks ≠ [] := by
    rw [← toks_withLead]
    exact Expr.toks_ne_nil _
  rw [Expr.lead, levelNode_toks, List.head?_append_of_ne_nil _ hne]
  exact htex

/-- The call that is meant is a part of its own. -/
theorem part_levelNode {tex sampler uv : Expr} {dot name : Token}
    (htex : Part isType (.suffix tex (.member dot name))) (hnumber : numberOf isType tex = none)
    (hsampler : Part isType sampler ∧ 1 ≤ sampler.level isType) (huv : Part isType uv ∧ 1 ≤ uv.level isType)
    {lead : Text} (hlead : Blank lead) : Part isType (levelNode lead tex sampler uv) := by
  have hpart : Part isType tex := Part.fill (f := .suffix (.member dot name)) htex
  have hle : kPostfix ≤ tex.level isType := htex.1.2.1
  have hword : (kindOf isType kSampleLevel).isWord = true := by
    have hkind : kindOf isType kSampleLevel = if isType kSampleLevel then .type else .name := rfl
    rw [hkind]
    split <;> rfl
  have hzero : Component isType (.atom ⟨[' '], "0.0".toList⟩) := by
    refine @component_withLead _ (.atom ⟨[], "0.0".toList⟩) ⟨Or.inr rfl, nofun, ⟨nofun, rfl, rfl, rfl, trivial⟩,
      Munch.stops_nil _, trivial⟩ (by show 1 ≤ 16; omega) _ blank_space
  have ⟨hargs, hends⟩ := part_triple (component_withLead hsampler.1 hsampler.2 blank_nil)
    (component_withLead huv.1 huv.2 blank_space) hzero
  constructor
  · exact ⟨⟨(wellFormed_withLead lead tex).mpr hpart.1, by rwa [level_withLead], rfl, hword⟩, Nat.le_refl _,
      hargs.1, Or.inl ⟨rfl, rfl⟩⟩
  · have hclosed : LexOK rules ((triple (sampler.withLead []) (uv.withLead [' '])
        (.atom ⟨[' '], "0.0".toList⟩)).toks ++ [⟨[], [')']⟩]) :=
      Munch.lexOK_append.mpr ⟨hargs.2, lexOK_solo (by decide) trivial, hends []⟩
    have htoken : IsToken rules kSampleLevel :=
      ⟨nofun, rfl, rfl, rfl, rfl, rfl, rfl, rfl, rfl, rfl, rfl, rfl, trivial⟩
    have hdot : IsToken rules ['.'] := ⟨nofun, rfl, trivial⟩
    have hstop : grows kSampleLevel '(' = false := rfl
    have hstopdot : grows ['.'] 'S' = false := rfl
    rw [levelNode_toks]
    refine Munch.lexOK_append.mpr ⟨lexOK_setLead hlead hpart.2, ?_, ?_⟩
    · exact ⟨nofun, hdot, Munch.stops_cons.mpr hstopdot, nofun, htoken, Munch.stops_cons.mpr hstop,
        lexOK_solo (by decide) hclosed⟩
    · rw [seam_setLead]
      exact (seam_dot_iff hpart.1 hle _).mpr hnumber

/-- **Reading the replacement** gives the call that is meant. -/
theorem reparse_levelNode {s : Text} {c : Ctx} {node : Expr} (h : parseText isType s = some (c.plug node))
    {m : GradMatch} (hpart : Part isType (levelNode node.lead m.tex m.sampler m.uv))
    (htex : m.tex.WellFormed isType) (hle : kPostfix ≤ m.tex.level isType) (source : SourceId) :
    parseText isType (applyFix s (m.fix isType source c node))
      = some (c.plug (levelNode node.lead m.tex m.sampler m.uv)) := by
  obtain ⟨hc, _, hafter⟩ := part_of_parse h
  have hstarts : StartsOperand (levelNode node.lead m.tex m.sampler m.uv) := by
    have htoks := levelNode_toks node.lead m.tex m.sampler m.uv
    rw [← toks_withLead] at htoks
    exact startsOperand_append (startsOperand htex hle node.lead) htoks
  have hends : EndsOperand isType (levelNode node.lead m.tex m.sampler m.uv) := by
    refine ⟨⟨[], [')']⟩, ?_, Or.inr rfl⟩
    have happ : ∀ (x i : List Token) (l r : Token), x ++ l :: (i ++ [r]) = (x ++ l :: i) ++ [r] := by simp
    rw [levelNode, Expr.toks, happ, List.getLast?_concat]
  obtain ⟨hneed, hleft, hright⟩ := stands_postfix hc hafter hpart (Nat.le_refl _) hstarts hends
  rw [GradMatch.fix, applyFix_nodeFix, ← nodeText_levelNode node.lead m,
    reparse_iff h (lead_levelNode node.lead m.tex m.sampler m.uv)]
  exact ⟨hpart.1, hneed, hpart.2, hleft, hright⟩

/-! ## §8. The law. -/

/-- Every automatic fix at a call keeps what the call says: it has four
arguments, two of them zero, and what is read back is the call with the others. -/
def SampleGradLaw (isType : Text → Bool) (s : Text) (source : SourceId) (c : Ctx) (node : Expr)
    (call : GradCall) : Prop :=
  ∀ fix ∈ gradFixes isType source c node, fix.machineApplicable = true →
    ∃ sampler uv ddx ddy, call.args = [sampler, uv, ddx, ddy] ∧ DenotesZero isType ddx
      ∧ DenotesZero isType ddy
      ∧ parseText isType (applyFix s fix) = some (c.plug (levelNode node.lead call.tex sampler uv))

/-- Four arguments, in order, for which the rule makes the fix automatic. -/
def GradCall.Chosen (isType : Text → Bool) (call : GradCall) (sampler uv ddx ddy : Expr) : Prop :=
  [sampler, uv, ddx, ddy].Sublist call.args ∧ kindSimple isType sampler = true ∧ kindSimple isType uv = true
    ∧ tokenIsZeroLiteral (nodeText ddx) = true ∧ tokenIsZeroLiteral (nodeText ddy) = true

/-- The rule makes an automatic fix. -/
def GradCall.Offers (isType : Text → Bool) (call : GradCall) : Prop :=
  call.method.body = kSampleGrad ∧ kindSimple isType call.tex = true
    ∧ ∃ sampler uv ddx ddy, call.Chosen isType sampler uv ddx ddy

/-- An automatic fix is one for four arguments. -/
theorem mem_gradFixes {source : SourceId} {c : Ctx} {node : Expr} {call : GradCall}
    (hcall : gradCallOf node = some call) {fix : Fix Char} :
    (fix ∈ gradFixes isType source c node ∧ fix.machineApplicable = true)
      ↔ call.method.body = kSampleGrad ∧ kindSimple isType call.tex = true
        ∧ ∃ sampler uv ddx ddy, call.Chosen isType sampler uv ddx ddy
          ∧ fix = GradMatch.fix isType source c node ⟨call.tex, sampler, uv⟩ := by
  unfold gradFixes gradMatches
  simp only [hcall]
  constructor
  · rintro ⟨hmem, happlicable⟩
    obtain ⟨m, hm, rfl⟩ := List.mem_map.mp hmem
    split at hm
    case isFalse => cases hm
    case isTrue hmethod =>
        obtain ⟨l, hl, hmatch⟩ := List.mem_filterMap.mp hm
        unfold matchOf at hmatch
        split at hmatch
        case h_2 => cases hmatch
        case h_1 sampler uv ddx ddy =>
            split at hmatch
            case isFalse => cases hmatch
            case isTrue hzero =>
                cases hmatch
                rw [Bool.and_eq_true] at hzero
                have hsimple : (kindSimple isType call.tex && kindSimple isType sampler && kindSimple isType uv)
                    = true := happlicable
                rw [Bool.and_eq_true, Bool.and_eq_true] at hsimple
                exact ⟨hmethod, hsimple.1.1, sampler, uv, ddx, ddy,
                  ⟨(List.mem_sublistsLen.mp hl).1, hsimple.1.2, hsimple.2, hzero⟩, rfl⟩
  · rintro ⟨hmethod, htex, sampler, uv, ddx, ddy, ⟨hsub, hsampler, huv, hx, hy⟩, rfl⟩
    rw [if_pos hmethod]
    constructor
    · refine List.mem_map.mpr ⟨_, List.mem_filterMap.mpr ⟨_, List.mem_sublistsLen.mpr ⟨hsub, rfl⟩, ?_⟩, rfl⟩
      rw [matchOf, hx, hy]
      rfl
    · show (kindSimple isType call.tex && kindSimple isType sampler && kindSimple isType uv) = true
      rw [htex, hsampler, huv]
      rfl

/-- What is simple is no number. -/
theorem numberOf_simple {e : Expr} (h : kindSimple isType e = true) : numberOf isType e = none := by
  cases e with
  | atom t =>
      have hname : kind isType t = .name := beq_iff_eq.mp h
      rw [numberOf, hname]
      rfl
  | _ => rfl

/-- **The automatic fix drops nothing exactly if there are four arguments, and
behind a constructor of numbers there is nothing**, or what is zero all the same. -/
theorem sampleGradLaw_iff {s : Text} {source : SourceId} {c : Ctx} {node : Expr} {call : GradCall}
    (h : parseText isType s = some (c.plug node)) (hcall : gradCallOf node = some call) :
    SampleGradLaw isType s source c node call
      ↔ (call.Offers isType → call.args.length = 4
        ∧ ∀ e ∈ call.args.drop 2, isPlain isType e = true ∨ DenotesZero isType e) := by
  have ⟨_, hnode, _⟩ := part_of_parse h
  have ⟨⟨dot, htex⟩, hargs⟩ := gradCall_spec hnode hcall
  constructor
  · rintro hlaw ⟨hmethod, hsimple, sampler, uv, ddx, ddy, hchosen⟩
    have ⟨hmem, happlicable⟩ := (@mem_gradFixes isType source c _ _ hcall _).mpr
      ⟨hmethod, hsimple, sampler, uv, ddx, ddy, hchosen, rfl⟩
    obtain ⟨a, b, x, y, heq, hx, hy, -⟩ := hlaw _ hmem happlicable
    rw [heq]
    refine ⟨rfl, fun e he => Or.inr ?_⟩
    obtain rfl | rfl : e = x ∨ e = y := by simpa using he
    · exact hx
    · exact hy
  · intro hcondition fix hmem happlicable
    obtain ⟨hmethod, hsimple, sampler, uv, ddx, ddy, hchosen, rfl⟩ :=
      (mem_gradFixes hcall).mp ⟨hmem, happlicable⟩
    obtain ⟨hlength, hzero⟩ := hcondition ⟨hmethod, hsimple, sampler, uv, ddx, ddy, hchosen⟩
    obtain ⟨hsub, -, -, hx, hy⟩ := hchosen
    have heq : call.args = [sampler, uv, ddx, ddy] := (hsub.eq_of_length hlength.symm).symm
    rw [heq] at hzero hargs
    have hdenotes : ∀ e ∈ [ddx, ddy], tokenIsZeroLiteral (nodeText e) = true → DenotesZero isType e := by
      intro e he hlooks
      have hpart := (hargs e (by simp only [List.mem_cons] at he ⊢; tauto)).1
      exact (hzero e he).elim (fun hplain => plain_zero hpart hplain hlooks) id
    refine ⟨sampler, uv, ddx, ddy, heq, hdenotes ddx (by simp) hx, hdenotes ddy (by simp) hy, ?_⟩
    have htexpart : Part isType call.tex := Part.fill (f := .suffix (.member dot call.method)) htex
    have hpart := part_levelNode htex (numberOf_simple hsimple) (hargs sampler (by simp))
      (hargs uv (by simp)) (blank_lead hnode.2)
    exact reparse_levelNode (m := ⟨call.tex, sampler, uv⟩) h hpart htexpart.1 htex.1.2.1 source

/-- A call `t.SampleGrad(..)`. -/
def gradNode (args : Expr) : Expr :=
  .apply (.suffix (.atom ⟨[], ['t']⟩) (.member ⟨[], ['.']⟩ ⟨[], kSampleGrad⟩)) ⟨[], ['(']⟩ args ⟨[], [')']⟩

/-- `s,u,0,0` -/
def fourArgs : Expr :=
  .binary (.binary (.binary (.atom ⟨[], ['s']⟩) comma (.atom ⟨[], ['u']⟩)) comma (zeroAt [])) comma (zeroAt [])

/-- The fix of `t.SampleGrad(s,u,0,0)` drops nothing. -/
theorem sampleGradLaw_iff_zeros :
    SampleGradLaw (fun _ => false) "t.SampleGrad(s,u,0,0)".toList ⟨1⟩ [] (gradNode fourArgs)
      ⟨.atom ⟨[], ['t']⟩, ⟨[], kSampleGrad⟩, arguments fourArgs⟩ := by
  refine (sampleGradLaw_iff (by decide +kernel) rfl).mpr fun _ => ⟨rfl, fun e he => Or.inl ?_⟩
  have hzeros : e ∈ [zeroAt [], zeroAt []] := he
  obtain rfl : e = zeroAt [] := by simpa using hzeros
  rfl

/-- The fix of `t.SampleGrad(s,u,0,0,o)` is automatic, and drops the offset. -/
theorem offset_dropped :
    let args : Expr := .binary fourArgs comma (.atom ⟨[], ['o']⟩)
    let s := "t.SampleGrad(s,u,0,0,o)".toList
    parseText (fun _ => false) s = some (gradNode args)
      ∧ ¬ SampleGradLaw (fun _ => false) s ⟨1⟩ [] (gradNode args)
          ⟨.atom ⟨[], ['t']⟩, ⟨[], kSampleGrad⟩, arguments args⟩ := by
  refine ⟨by decide +kernel, fun hlaw => ?_⟩
  have hchosen : GradCall.Chosen (fun _ => false)
      ⟨.atom ⟨[], ['t']⟩, ⟨[], kSampleGrad⟩, arguments (.binary fourArgs comma (.atom ⟨[], ['o']⟩))⟩
      (.atom ⟨[], ['s']⟩) (.atom ⟨[], ['u']⟩) (zeroAt []) (zeroAt []) :=
    ⟨by decide, rfl, rfl, by decide, by decide⟩
  have ⟨hmem, happlicable⟩ := (@mem_gradFixes (fun _ => false) ⟨1⟩ []
    (gradNode (.binary fourArgs comma (.atom ⟨[], ['o']⟩))) _ rfl _).mpr ⟨rfl, rfl, _, _, _, _, hchosen, rfl⟩
  obtain ⟨a, b, x, y, heq, -⟩ := hlaw _ hmem happlicable
  have hlength : 5 = 4 := congrArg List.length heq
  cases hlength

end ShaderClippy.Rules.SampleGrad
