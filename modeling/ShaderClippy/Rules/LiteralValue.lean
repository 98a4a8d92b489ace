/-
  ShaderClippy.Rules.LiteralValue

  **NUMBERS HAVE THE VALUE THE RULES READ.**

  The rules look for zeros, ones and small exponents in the text of a literal.
  What they read is the value of the literal, whatever its type
  (`literalValue_uint`).
-/
import ShaderClippy.Hlsl.Arith
import ShaderClippy.Rules.NumericLiteral

namespace ShaderClippy.Rules

open Hlsl

/-! ## §1. Digits. -/

/-- Zeros in front do not count. -/
theorem digitsValue_significant (base : Nat) (ds : Text) :
    digitsValue base (significant ds) = digitsValue base ds := by
  rw [significant]
  induction ds with
  | nil => rfl
  | cons c ds ih =>
      by_cases hc : c = '0'
      · rw [hc, List.dropWhile_cons_of_pos rfl, ih]
        show digitsValue base ds = ds.foldl _ (0 * base + digitOf '0')
        rw [Nat.zero_mul]
        rfl
      · rw [List.dropWhile_cons_of_neg (by simpa using hc)]

/-- What is written with one significant digit. -/
theorem digitsValue_small {ds : Text} {n : Nat} (hn : n < 8)
    (h : significant ds = if n = 0 then [] else Nat.toDigits 10 n) (base : Nat) :
    digitsValue base ds = n := by
  have hsmall : ∀ m < 8, digitOf ((Nat.toDigits 10 m).head?.getD '0') = m
      ∧ (Nat.toDigits 10 m).length = 1 := by decide
  rw [← digitsValue_significant, h]
  split
  case isTrue hzero => rw [hzero]; rfl
  case isFalse =>
    have ⟨hdigit, hlen⟩ := hsmall n hn
    have ⟨c, hc⟩ := List.length_eq_one_iff.mp hlen
    rw [hc] at hdigit ⊢
    show 0 * base + digitOf c = n
    rw [Nat.zero_mul, Nat.zero_add]
    exact hdigit

theorem digitsValue_zeros {ds : Text} (h : ds.all (fun c => c == '0') = true) (base : Nat) :
    digitsValue base ds = 0 := by
  have hnone : significant ds = [] :=
    List.dropWhile_eq_nil_iff.mpr fun c hc => List.all_eq_true.mp h c hc
  rw [← digitsValue_significant, hnone]
  rfl

/-! ## §2. The parts of a literal. -/

theorem skipOptionalPlus_number {isType : Text → Bool} {t : Text} (h : kindOf isType t = .number) :
    skipOptionalPlus t = t := by
  have ⟨c, cs, hbody, _, hnumber⟩ := kindOf_number h
  rw [hbody] at hnumber ⊢
  unfold skipOptionalPlus
  split
  case h_1 heq =>
    cases heq
    exact absurd hnumber (by unfold isNumberText; simp)
  case h_2 => rfl

/-- What an integral literal consists of. -/
theorem integralPart_spec {isSuffix : Char → Bool} {t digits : Text} (hplus : skipOptionalPlus t = t)
    (h : integralPart isSuffix t = some digits) :
    digits = t.takeWhile Char.isDigit ∧ digits ≠ []
      ∧ ∃ rest, skipZeroFraction (t.dropWhile Char.isDigit) = some rest ∧ rest.all isSuffix = true := by
  rw [integralPart, hplus] at h
  split at h
  case isTrue => cases h
  case isFalse hne =>
    have ⟨rest, hrest, hsuffix⟩ := Option.bind_eq_some_iff.mp h
    split at hsuffix
    case isTrue hall =>
      cases hsuffix
      exact ⟨rfl, hne, rest, hrest, hall⟩
    case isFalse => cases hsuffix

/-- The fraction is a row of zeros. -/
theorem fraction_zero {t rest : Text} (h : skipZeroFraction t = some rest) :
    (fraction t).1.all (fun c => c == '0') = true ∧ (fraction t).2 = rest := by
  unfold skipZeroFraction at h
  split at h
  case h_1 t =>
    split at h
    case isTrue hall =>
      cases h
      exact ⟨hall, rfl⟩
    case isFalse => cases h
  case h_2 hdot =>
    cases h
    unfold fraction
    split
    case h_1 => exact absurd rfl (hdot _)
    case h_2 => exact ⟨rfl, rfl⟩

theorem suffix_no_exponent {rest : Text} (h : rest.all isLiteralSuffixChar = true) :
    exponentValue rest = 0 := by
  cases rest with
  | nil => rfl
  | cons c t =>
      have hc : isLiteralSuffixChar c = true := List.all_eq_true.mp h c (List.mem_cons_self ..)
      have hno : (c == 'e' || c == 'E') = false := by
        rw [Bool.eq_false_iff]
        intro he
        simp only [Bool.or_eq_true, beq_iff_eq] at he
        rcases he with rfl | rfl <;> exact absurd hc (by decide)
      rw [exponentValue, hno]
      rfl

theorem not_hex {t rest : Text} (h : skipZeroFraction (t.dropWhile Char.isDigit) = some rest)
    (hrest : rest.all isLiteralSuffixChar = true) : isHex t = false := by
  unfold isHex
  split
  case h_2 => rfl
  case h_1 c cs =>
    rw [Bool.eq_false_iff]
    intro hc
    simp only [Bool.or_eq_true, beq_iff_eq] at hc
    -- the letter would be the first one of the suffix
    rcases hc with rfl | rfl
    · cases h
      exact absurd (List.all_eq_true.mp hrest 'x' (List.mem_cons_self ..)) (by decide)
    · cases h
      exact absurd (List.all_eq_true.mp hrest 'X' (List.mem_cons_self ..)) (by decide)

/-! ## §3. The value. -/

/-- The digits of an integral literal are its value: as an integer, and as a
number with a fraction. -/
theorem value_of_digits {isType : Text → Bool} {t digits : Text}
    (hnumber : kindOf isType t = .number) (h : integralPart isLiteralSuffixChar t = some digits) {n : Nat}
    (hvalue : ∀ base, 8 ≤ base → digitsValue base digits = n) :
    integerValue t = n ∧ ∀ {K : Type} [Field K], decimalValue K t = (n : K) := by
  have ⟨hwhole, _, rest, hrest, hsuffix⟩ := integralPart_spec (skipOptionalPlus_number hnumber) h
  have ⟨hzeros, hexponent⟩ := fraction_zero hrest
  rw [hwhole] at hvalue
  constructor
  · rw [integerValue, not_hex hrest hsuffix]
    show digitsValue (if _ then 8 else 10) _ = n
    split
    · exact hvalue 8 (Nat.le_refl 8)
    · exact hvalue 10 (by omega)
  · intro K _
    rw [decimalValue, hvalue 10 (by omega), hexponent, digitsValue_zeros hzeros,
      suffix_no_exponent hsuffix]
    simp

variable {K : Type} [Field K]

/-- **A literal has the value the rules read in it**, in its own type. -/
theorem literalValue_uint {isType : Text → Bool} {t : Text} (hnumber : kindOf isType t = .number)
    {n : Nat} (hn : n < 8) (h : isNumericLiteralUint t n = true) :
    literalValue K t = (Value.int (BitVec.ofNat 32 n)).convert (literalType t) := by
  rw [isNumericLiteralUint] at h
  split at h
  case h_2 => cases h
  case h_1 digits hdigits =>
    have hsmall := digitsValue_small hn (beq_iff_eq.mp h)
    obtain ⟨hinteger, hdecimal⟩ := value_of_digits hnumber hdigits fun base _ => hsmall base
    rw [literalValue]
    split
    case h_1 htype => rw [hinteger, htype]; rfl
    case h_2 htype => rw [hinteger, htype]; rfl
    case h_3 htype =>
      have hfloat : (BitVec.ofNat 32 n).toInt = n := by
        have hall : ∀ m < 8, (BitVec.ofNat 32 m).toInt = m := by decide
        exact hall n hn
      have hconvert : (Value.int (BitVec.ofNat 32 n)).convert .float
          = Value.float (((BitVec.ofNat 32 n).toInt : Int) : K) := rfl
      rw [htype, hconvert, hfloat, hdecimal]
      simp

end ShaderClippy.Rules
