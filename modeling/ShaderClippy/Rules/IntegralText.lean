/-
  ShaderClippy.Rules.IntegralText

  **THE GRAMMAR OF A LITERAL WITH AN INTEGRAL VALUE.**

  What a rule accepts as an integer is written so: a plus sign or none, a base
  mark, digits, a point with zeros behind it or none, letters of a suffix.
  `IntegralText` is such a text with its parts. Suffix letters are neither
  digits nor points (`SuffixClass`), so the parts can be found again: behind
  the digits `tailText_iff`, in front of them `skipOptionalPlus_text`.

  `is_numeric_literal_uint` accepts exactly these texts, each for the number
  of its digits and no other (`numeric_literal_uint_iff`).
-/
import ShaderClippy.Rules.DigitLoop
import ShaderClippy.Rules.NumericLiteral

namespace ShaderClippy.Rules

/-! ## §1. The grammar. -/

/-- The plus sign in front. -/
def plusText (plus : Bool) : Text := if plus then ['+'] else []

/-- A point and so many zeros, or nothing. -/
def zeroFraction : Option Nat → Text
  | some zeros => '.' :: List.replicate zeros '0'
  | none => []

/-- A literal with an integral value, in its parts. -/
structure IntegralText (isDigit isSuffix : Char → Bool) where
  plus : Bool
  mark : Text
  digits : Text
  fraction : Option Nat
  suffix : Text
  digits_ne : digits ≠ []
  digits_ok : ∀ c ∈ digits, isDigit c = true
  suffix_ok : ∀ c ∈ suffix, isSuffix c = true

namespace IntegralText

variable {isDigit isSuffix : Char → Bool}

/-- What follows the digits. -/
def tail (l : IntegralText isDigit isSuffix) : Text := zeroFraction l.fraction ++ l.suffix

/-- The literal as it is written. -/
def text (l : IntegralText isDigit isSuffix) : Text :=
  plusText l.plus ++ (l.mark ++ (l.digits ++ l.tail))

end IntegralText

/-- Suffix letters end a number and begin no fraction. -/
structure SuffixClass (isDigit isSuffix : Char → Bool) : Prop where
  noDigit : ∀ c, isSuffix c = true → isDigit c = false
  noZero : ∀ c, isSuffix c = true → c.isDigit = false
  noPoint : isSuffix '.' = false

/-! ## §2. The text behind the digits. -/

variable {isDigit isSuffix : Char → Bool}

/-- A suffix does not go on with a digit. -/
theorem SuffixClass.run (hs : SuffixClass isDigit isSuffix) {digits suffix : Text}
    (hdigits : ∀ c ∈ digits, c.isDigit = true) (hsuffix : ∀ c ∈ suffix, isSuffix c = true) :
    DigitRun digits suffix where
  digits := hdigits
  ends c hc := hs.noZero c (hsuffix c (List.mem_of_mem_head? hc))

/-- **The tail of a literal**: a fraction of zeros is skipped, and letters of
the suffix are left. -/
theorem tailText_iff (hs : SuffixClass isDigit isSuffix) {t : Text} :
    (∃ rest, skipZeroFraction t = some rest ∧ rest.all isSuffix = true)
      ↔ ∃ fraction suffix, t = zeroFraction fraction ++ suffix
          ∧ ∀ c ∈ suffix, isSuffix c = true := by
  constructor
  · intro ⟨rest, hrest, hsuffix⟩
    unfold skipZeroFraction at hrest
    split at hrest
    case h_1 t =>
      split at hrest
      case isTrue hzeros =>
        have hrow : t.takeWhile Char.isDigit
            = List.replicate (t.takeWhile Char.isDigit).length '0' :=
          List.eq_replicate_of_mem fun c hc => beq_iff_eq.mp (List.all_eq_true.mp hzeros c hc)
        refine ⟨some (t.takeWhile Char.isDigit).length, rest, ?_, List.all_eq_true.mp hsuffix⟩
        show '.' :: t = '.' :: (List.replicate _ '0' ++ rest)
        rw [← hrow, ← Option.some.inj hrest, List.takeWhile_append_dropWhile]
      case isFalse => exact absurd hrest nofun
    case h_2 =>
      exact ⟨none, rest, Option.some.inj hrest, List.all_eq_true.mp hsuffix⟩
  · intro ⟨fraction, suffix, ht, hsuffix⟩
    refine ⟨suffix, ?_, List.all_eq_true.mpr hsuffix⟩
    rw [ht]
    cases fraction with
    | none =>
        -- the suffix does not begin with a point
        show skipZeroFraction suffix = some suffix
        unfold skipZeroFraction
        split
        case h_1 t =>
          have hpoint := hsuffix '.' (List.mem_cons_self ..)
          rw [hs.noPoint] at hpoint
          exact absurd hpoint nofun
        case h_2 => rfl
    | some zeros =>
        have hzeros : ∀ c ∈ List.replicate zeros '0', c.isDigit = true := by
          intro c hc
          rw [List.eq_of_mem_replicate hc]
          rfl
        have hrun := hs.run hzeros hsuffix
        show skipZeroFraction ('.' :: (List.replicate zeros '0' ++ suffix)) = some suffix
        have hall : (List.replicate zeros '0').all (fun c => c == '0') = true :=
          List.all_eq_true.mpr fun c hc => beq_iff_eq.mpr (List.eq_of_mem_replicate hc)
        show (if ((List.replicate zeros '0' ++ suffix).takeWhile Char.isDigit).all _ = true
          then some ((List.replicate zeros '0' ++ suffix).dropWhile Char.isDigit) else none) = _
        rw [hrun.takeWhile, hrun.dropWhile, if_pos hall]

/-- The digits of a literal end where its tail begins. -/
theorem IntegralText.tail_head (hs : SuffixClass isDigit isSuffix) (hpoint : isDigit '.' = false)
    (l : IntegralText isDigit isSuffix) {c : Char} (hc : l.tail.head? = some c) :
    isDigit c = false := by
  unfold IntegralText.tail at hc
  cases hf : l.fraction with
  | none =>
      rw [hf] at hc
      exact hs.noDigit c (l.suffix_ok c (List.mem_of_mem_head? hc))
  | some zeros =>
      rw [hf] at hc
      have hdot : '.' = c := Option.some.inj hc
      rw [← hdot]
      exact hpoint

/-! ## §3. The text in front of the digits. -/

/-- The sign is optional, and what follows does not begin with one. -/
theorem skipOptionalPlus_text {plus : Bool} {t : Text} (h : t.head? ≠ some '+') :
    skipOptionalPlus (plusText plus ++ t) = t := by
  cases plus with
  | true => rfl
  | false =>
      show skipOptionalPlus t = t
      unfold skipOptionalPlus
      split
      case h_1 => exact absurd rfl h
      case h_2 => rfl

theorem skipOptionalPlus_split (t : Text) :
    ∃ plus, t = plusText plus ++ skipOptionalPlus t := by
  unfold skipOptionalPlus
  split
  case h_1 t => exact ⟨true, rfl⟩
  case h_2 => exact ⟨false, rfl⟩

/-! ## §4. `integralPart` reads the grammar. -/

/-- A literal in decimal digits, with a suffix of `isSuffix`. -/
abbrev DecimalText (isSuffix : Char → Bool) :=
  { l : IntegralText Char.isDigit isSuffix // l.mark = [] }

theorem DecimalText.skipOptionalPlus_text (l : DecimalText isSuffix) :
    skipOptionalPlus l.1.text = l.1.digits ++ l.1.tail := by
  unfold IntegralText.text
  rw [l.2, List.nil_append]
  refine Rules.skipOptionalPlus_text ?_
  have hne := l.1.digits_ne
  cases hd : l.1.digits with
  | nil => exact absurd hd hne
  | cons c cs =>
      intro hplus
      have hc : c.isDigit = true := l.1.digits_ok c (by rw [hd]; exact List.mem_cons_self ..)
      have heq : c = '+' := Option.some.inj hplus
      rw [heq] at hc
      exact absurd hc (by decide)

/-- A decimal literal is a row of digits and its tail. -/
theorem DecimalText.run (hs : SuffixClass Char.isDigit isSuffix) (l : DecimalText isSuffix) :
    DigitRun l.1.digits l.1.tail where
  digits := l.1.digits_ok
  ends _ hc := l.1.tail_head hs (by decide) hc

/-- **What `integralPart` returns are the digits of the literal.** -/
theorem integralPart_iff (hs : SuffixClass Char.isDigit isSuffix) {text digits : Text} :
    integralPart isSuffix text = some digits
      ↔ ∃ l : DecimalText isSuffix, l.1.text = text ∧ l.1.digits = digits := by
  constructor
  · intro h
    have ⟨plus, hplus⟩ := skipOptionalPlus_split text
    rw [integralPart] at h
    split at h
    case isTrue => exact absurd h nofun
    case isFalse hne =>
      have ⟨rest, hrest, hall⟩ := Option.bind_eq_some_iff.mp h
      split at hall
      case isFalse => exact absurd hall nofun
      case isTrue hsuffix =>
        have ⟨fraction, suffix, htail, hletters⟩ := (tailText_iff hs).mp ⟨rest, hrest, hsuffix⟩
        refine ⟨⟨⟨plus, [], _, fraction, suffix, hne, fun c hc => List.mem_takeWhile_imp hc, hletters⟩,
          rfl⟩, ?_, Option.some.inj hall⟩
        show plusText plus ++ ([] ++ (_ ++ (zeroFraction fraction ++ suffix))) = text
        rw [← htail, List.takeWhile_append_dropWhile, List.nil_append]
        exact hplus.symm
  · intro ⟨l, htext, hdigits⟩
    have hrun := l.run hs
    have ⟨rest, hrest, hall⟩ :=
      (tailText_iff hs).mpr ⟨l.1.fraction, l.1.suffix, rfl, l.1.suffix_ok⟩
    unfold integralPart
    rw [← htext, l.skipOptionalPlus_text]
    show (if (l.1.digits ++ l.1.tail).takeWhile Char.isDigit = [] then none
      else (skipZeroFraction ((l.1.digits ++ l.1.tail).dropWhile Char.isDigit)).bind _) = _
    rw [hrun.takeWhile, hrun.dropWhile, if_neg l.1.digits_ne]
    show (skipZeroFraction (zeroFraction l.1.fraction ++ l.1.suffix)).bind _ = _
    rw [hrest, Option.bind_some, if_pos hall, hdigits]

/-! ## §5. The number behind the digits. -/

theorem decimal_zero_cons (digits : Text) : decimal ('0' :: digits) = decimal digits := by
  unfold decimal
  rw [Nat.ofDigitChars_cons]
  rfl

/-- Zeros in front do not count. -/
theorem decimal_significant (digits : Text) : decimal (significant digits) = decimal digits := by
  unfold significant
  induction digits with
  | nil => rfl
  | cons c cs ih =>
      by_cases hc : c = '0'
      · rw [hc, decimal_zero_cons, ← ih]
        rfl
      · have hkeep : (c :: cs).dropWhile (fun c => c == '0') = c :: cs :=
          List.dropWhile_cons_of_neg fun hzero => hc (beq_iff_eq.mp hzero)
        rw [hkeep]

theorem decimal_concat (digits : Text) (c : Char) :
    decimal (digits ++ [c]) = 10 * decimal digits + digitValue c := by
  rw [decimal_eq_value, decimal_eq_value, List.map_append, List.map_singleton,
    DigitRegister.value_concat, Nat.mul_comm]

/-- The digits are the characters from 48 to 57. -/
theorem isDigit_bounds {c : Char} (h : c.isDigit = true) : 48 ≤ c.toNat ∧ c.toNat ≤ 57 := by
  simp only [Char.isDigit, Bool.and_eq_true, decide_eq_true_eq, ge_iff_le, UInt32.le_iff_toNat_le]
    at h
  exact h

theorem digitValue_lt {c : Char} (h : c.isDigit = true) : digitValue c < 10 := by
  have ⟨hlow, hhigh⟩ := isDigit_bounds h
  show c.toNat - 48 < 10
  omega

/-- The character of a digit is the digit. -/
theorem digitChar_digitValue {c : Char} (h : c.isDigit = true) :
    (digitValue c).digitChar = c := by
  have ⟨hlow, hhigh⟩ := isDigit_bounds h
  have hall : ∀ d < 10, (Nat.digitChar d).toNat = 48 + d := by decide
  have hnat : (digitValue c).digitChar.toNat = c.toNat := by
    rw [hall _ (digitValue_lt h), show digitValue c = c.toNat - 48 from rfl]
    omega
  exact Char.toNat_inj.mp hnat

/-- **A row without zeros in front is the decimal rendering of its number.**
By induction from the last digit: what stands before it is no zero. -/
theorem toDigits_decimal {digits : Text} (h : ∀ c ∈ digits, c.isDigit = true)
    (hhead : digits.head? ≠ some '0') (hne : digits ≠ []) :
    decimal digits ≠ 0 ∧ digits = Nat.toDigits 10 (decimal digits) := by
  induction digits using List.reverseRecOn with
  | nil => exact absurd rfl hne
  | append_singleton ds c ih =>
      have hc : c.isDigit = true := h c (List.mem_append_right _ (List.mem_singleton_self c))
      have hlast : Nat.toDigits 10 (digitValue c) = [c] := by
        rw [Nat.toDigits_of_lt_base (digitValue_lt hc), digitChar_digitValue hc]
      rw [decimal_concat]
      by_cases hds : ds = []
      · have hnonzero : digitValue c ≠ 0 := by
          intro hzero
          have hchar := digitChar_digitValue hc
          rw [hzero] at hchar
          rw [hds, ← hchar] at hhead
          exact hhead rfl
        rw [hds, show decimal [] = 0 from rfl, Nat.mul_zero, Nat.zero_add]
        exact ⟨hnonzero, hlast.symm⟩
      · have hfirst : ds.head? ≠ some '0' := by
          rw [List.head?_append_of_ne_nil _ hds] at hhead
          exact hhead
        have ⟨hpos, hdigits⟩ := ih (fun d hd => h d (List.mem_append_left _ hd)) hfirst hds
        refine ⟨by omega, ?_⟩
        rw [← Nat.toDigits_append_toDigits (by omega) (Nat.pos_of_ne_zero hpos) (digitValue_lt hc),
          ← hdigits, hlast]

/-- **The comparison of digits is one of numbers.** -/
theorem significant_eq_iff {digits : Text} (h : ∀ c ∈ digits, c.isDigit = true) (value : Nat) :
    significant digits = (if value = 0 then [] else Nat.toDigits 10 value)
      ↔ decimal digits = value := by
  constructor
  · intro heq
    rw [← decimal_significant, heq]
    split
    case isTrue hzero => exact hzero.symm
    case isFalse => exact Nat.ofDigitChars_ten_toDigits
  · intro hvalue
    rw [← hvalue, ← decimal_significant]
    by_cases hnil : significant digits = []
    · rw [hnil]
      rfl
    · have hhead : (significant digits).head? ≠ some '0' := by
        intro hzero
        have hno := List.head?_dropWhile_not (fun c => c == '0') digits
        rw [show digits.dropWhile (fun c => c == '0') = significant digits from rfl, hzero] at hno
        exact absurd hno (by decide)
      have hrow : ∀ c ∈ significant digits, c.isDigit = true := fun c hc =>
        h c ((List.dropWhile_sublist _).subset hc)
      have ⟨hpos, hdigits⟩ := toDigits_decimal hrow hhead hnil
      rw [if_neg hpos]
      exact hdigits

/-! ## §6. `is_numeric_literal_uint`. -/

theorem literalSuffix_class : SuffixClass Char.isDigit isLiteralSuffixChar := by
  have hletters : ∀ c, isLiteralSuffixChar c = true → c.isDigit = false := by
    intro c hc
    simp only [isLiteralSuffixChar, Bool.or_eq_true, beq_iff_eq] at hc
    obtain ((((((rfl | rfl) | rfl) | rfl) | rfl) | rfl) | rfl) | rfl := hc <;> rfl
  exact ⟨hletters, hletters, rfl⟩

/-- **The integer test is the grammar with its value**: `text` is accepted for
`value` exactly if it is a decimal literal whose digits denote `value`. -/
theorem numeric_literal_uint_iff (text : Text) (value : Nat) :
    isNumericLiteralUint text value = true
      ↔ ∃ l : DecimalText isLiteralSuffixChar, l.1.text = text ∧ decimal l.1.digits = value := by
  unfold isNumericLiteralUint
  constructor
  · intro h
    split at h
    case h_2 => exact absurd h nofun
    case h_1 digits hread =>
      have ⟨l, htext, hdigits⟩ := (integralPart_iff literalSuffix_class).mp hread
      refine ⟨l, htext, (significant_eq_iff l.1.digits_ok value).mp ?_⟩
      rw [hdigits]
      exact beq_iff_eq.mp h
  · intro ⟨l, htext, hvalue⟩
    have hread := (integralPart_iff literalSuffix_class).mpr ⟨l, htext, rfl⟩
    rw [hread]
    show (significant l.1.digits == _) = true
    exact beq_iff_eq.mpr ((significant_eq_iff l.1.digits_ok value).mpr hvalue)

end ShaderClippy.Rules
