/-
  ShaderClippy.Rules.Clamp01

  **`clamp01-to-saturate`**: `clamp(x, 0, 1)` becomes `saturate(x)`.

  The bounds are recognised by their texts: four scanners hand the rest of the
  text on to each other. The third one reads the exponent into a `long` and
  compares it with zero at the end. What it is compared for is lost where the
  `long` overflows: `1e18446744073709551616` comes out as `1`
  (`literalEquals_exact_iff`).
-/
import ShaderClippy.Rules.DigitLoop
import ShaderClippy.Rules.LiteralValue
import Mathlib.Algebra.Field.Rat
import Mathlib.Algebra.Order.Field.Power
import Mathlib.Algebra.Order.Ring.Rat

namespace ShaderClippy.Rules

open Hlsl

namespace Clamp01

/-! ## §1. The scanners. -/

/-- `is_float_suffix`. -/
def isFloatSuffix (c : Char) : Bool :=
  c == 'f' || c == 'F' || c == 'h' || c == 'H' || c == 'l' || c == 'L'

/-- The integer part of a literal. -/
inductive IntegerPart where
  | zero
  | one
  | other
  deriving Repr, DecidableEq

/-- `scan_int_part`. -/
def scanIntPart (text : Text) : IntegerPart × Text :=
  let digits := text.takeWhile Char.isDigit
  let rest := text.dropWhile Char.isDigit
  if digits.isEmpty then (.other, rest)
  else if significant digits = [] then (.zero, rest)
  else if significant digits = ['1'] then (.one, rest)
  else (.other, rest)

/-- `scan_zero_fraction`. -/
def scanZeroFraction (text : Text) : Option Text := skipZeroFraction text

/-- `exp_value`, a `long` of 64 bits, and whether it has left its range. The
language does not say what an overflow gives; here the value wraps around, as
on the machines the tool is built for. -/
structure ExpValue where
  value : Int
  overflowed : Bool
  deriving Repr, DecidableEq

/-- `exp_value = (exp_value * 10) + digit`. -/
def expStep (s : ExpValue) (digit : Nat) : ExpValue :=
  let next := s.value * 10 + digit
  ⟨next.bmod (2 ^ 64), s.overflowed || decide (2 ^ 63 ≤ next) || decide (next < -2 ^ 63)⟩

/-- A result, and whether `exp_value` overflowed on the way to it. -/
structure Checked (α : Type) where
  result : α
  overflowed : Bool
  deriving Repr, DecidableEq

def skipExponentSign : Text → Text
  | '+' :: t => t
  | '-' :: t => t
  | t => t

/-- `scan_zero_exponent`. -/
def scanZeroExponent : Text → Checked (Option Text)
  | [] => ⟨some [], false⟩
  | c :: t =>
      if c ≠ 'e' ∧ c ≠ 'E' then ⟨some (c :: t), false⟩
      else
        let digits := skipExponentSign t
        let r := digitLoop expStep ⟨0, false⟩ digits
        if r.2.length = digits.length ∨ r.1.value ≠ 0 then ⟨none, r.1.overflowed⟩
        else ⟨some r.2, r.1.overflowed⟩

/-- `scan_float_suffix`. -/
def scanFloatSuffix (text : Text) : Option Text := if text.all isFloatSuffix then some [] else none

/-- `literal_equals`, for the target `1.0` or `0.0`. Every scanner that finds
something else ends it with `false`. -/
def literalEquals (text : Text) (one : Bool) : Checked Bool :=
  if text.isEmpty then ⟨false, false⟩
  else
    let int := scanIntPart (skipOptionalPlus text)
    match scanZeroFraction int.2 with
    | none => ⟨false, false⟩
    | some afterFrac =>
        let afterExp := scanZeroExponent afterFrac
        ⟨afterExp.result.any fun text =>
            (scanFloatSuffix text).isSome && decide (int.1 = if one then .one else .zero),
          afterExp.overflowed⟩

/-! ## §2. The exponent. -/

/-- The accumulator overflows when its digits denote 2⁶³ or more; if they do
not, it holds the number they denote. -/
theorem foldl_expStep (ds : List Nat) :
    (ds.foldl expStep ⟨0, false⟩).overflowed = decide (2 ^ 63 ≤ DigitRegister.value 10 ds)
      ∧ (DigitRegister.value 10 ds < 2 ^ 63 →
          (ds.foldl expStep ⟨0, false⟩).value = DigitRegister.value 10 ds) := by
  induction ds using List.reverseRecOn with
  | nil => exact ⟨rfl, fun _ => rfl⟩
  | append_singleton ds d ih =>
      obtain ⟨hover, hvalue⟩ := ih
      rw [List.foldl_concat, DigitRegister.value_concat]
      by_cases hfits : DigitRegister.value 10 ds < 2 ^ 63
      · have hnext : ((ds.foldl expStep ⟨0, false⟩).value * 10 + d : Int)
            = (DigitRegister.value 10 ds * 10 + d : Nat) := by
          rw [hvalue hfits]
          push_cast
          rfl
        have hbefore : (ds.foldl expStep ⟨0, false⟩).overflowed = false := by
          rw [hover]
          exact decide_eq_false (by omega)
        refine ⟨?_, fun hlt => ?_⟩
        · show (_ || decide _ || decide _) = _
          rw [hbefore, hnext, Bool.false_or, Bool.eq_iff_iff, Bool.or_eq_true, decide_eq_true_eq,
            decide_eq_true_eq, decide_eq_true_eq]
          omega
        · show Int.bmod _ _ = _
          rw [hnext]
          exact Int.bmod_eq_of_le (by omega) (by omega)
      · -- the flag stays, and more digits make no smaller number
        have hbefore : (ds.foldl expStep ⟨0, false⟩).overflowed = true := by
          rw [hover]
          exact decide_eq_true (by omega)
        refine ⟨?_, fun hlt => absurd hlt (by omega)⟩
        show (_ || decide _ || decide _) = _
        rw [hbefore, Bool.true_or, Bool.true_or]
        exact (decide_eq_true (by omega)).symm

/-- The digits of the exponent that the scan comes to. -/
def exponentDigits (text : Text) : Text :=
  match scanZeroFraction (scanIntPart (skipOptionalPlus text)).2 with
  | some (c :: t) =>
      if c ≠ 'e' ∧ c ≠ 'E' then [] else (skipExponentSign t).takeWhile Char.isDigit
  | _ => []

/-- **What `scan_zero_exponent` does**: it overflows on an exponent of 2⁶³ or
more; one below is let through if it is zero. -/
theorem scanZeroExponent_spec (c : Char) (t : Text) (hc : ¬ (c ≠ 'e' ∧ c ≠ 'E')) :
    let digits := (skipExponentSign t).takeWhile Char.isDigit
    (scanZeroExponent (c :: t)).overflowed = decide (2 ^ 63 ≤ decimal digits)
      ∧ (decimal digits < 2 ^ 63 → ∀ rest, (scanZeroExponent (c :: t)).result = some rest →
          decimal digits = 0 ∧ rest = (skipExponentSign t).dropWhile Char.isDigit) := by
  intro digits
  have hdecimal : decimal digits = DigitRegister.value 10 (digits.map digitValue) :=
    decimal_eq_value digits
  obtain ⟨hover, hvalue⟩ := foldl_expStep (digits.map digitValue)
  rw [scanZeroExponent, if_neg hc]
  simp only [digitLoop_eq]
  rw [hdecimal]
  split
  case isTrue => exact ⟨hover, fun _ rest hrest => absurd hrest nofun⟩
  case isFalse hgo =>
    refine ⟨hover, fun hlt rest hrest => ?_⟩
    have hzero : (List.foldl expStep ⟨0, false⟩ (digits.map digitValue)).value = 0 := by
      by_contra hne
      exact hgo (Or.inr hne)
    rw [hvalue hlt] at hzero
    exact ⟨by exact_mod_cast hzero, (Option.some.inj hrest).symm⟩

/-- `literal_equals` overflows with its exponent. -/
theorem literalEquals_overflowed (text : Text) (one : Bool) :
    (literalEquals text one).overflowed = decide (2 ^ 63 ≤ decimal (exponentDigits text)) := by
  have hnone : false = decide (2 ^ 63 ≤ decimal []) := by decide
  unfold literalEquals exponentDigits
  by_cases hempty : text.isEmpty = true
  · rw [if_pos hempty, List.isEmpty_iff.mp hempty]
    exact hnone
  · rw [if_neg hempty]
    cases hfrac : scanZeroFraction (scanIntPart (skipOptionalPlus text)).2 with
    | none =>
        simp only [hfrac]
        exact hnone
    | some rest =>
        simp only [hfrac]
        cases rest with
        | nil => exact hnone
        | cons c t =>
            by_cases hc : c ≠ 'e' ∧ c ≠ 'E'
            · simp only [scanZeroExponent, if_pos hc]
              exact hnone
            · simp only [if_neg hc]
              exact (scanZeroExponent_spec c t hc).1

/-! ## §3. The value. -/

/-- The exact value of a literal, a leading `+` included. -/
def exactValue (text : Text) : ℚ := decimalValue ℚ (skipOptionalPlus text)

/-- The number that the target stands for. -/
def target (one : Bool) : ℚ := if one then 1 else 0

theorem scanIntPart_spec {text : Text} {one : Bool}
    (h : (scanIntPart text).1 = if one then .one else .zero) :
    (digitsValue 10 (text.takeWhile Char.isDigit) : ℚ) = target one := by
  have hread : significant (text.takeWhile Char.isDigit) = if one then ['1'] else [] := by
    unfold scanIntPart at h
    cases one <;> simp only at h ⊢ <;> split at h <;> first | cases h | skip
    · split at h
      · assumption
      · split at h <;> cases h
    · split at h
      · cases h
      · split at h
        · assumption
        · cases h
  cases one with
  | false =>
      rw [digitsValue_small (n := 0) (by omega) hread]
      rfl
  | true =>
      rw [digitsValue_small (n := 1) (by omega) hread]
      rfl

theorem suffix_no_exponent {rest : Text} (h : rest.all isFloatSuffix = true) :
    exponentValue rest = 0 := by
  refine Rules.suffix_no_exponent (List.all_eq_true.mpr fun c hc => ?_)
  have hsuffix := List.all_eq_true.mp h c hc
  unfold isFloatSuffix at hsuffix
  unfold isLiteralSuffixChar
  rw [hsuffix]
  rfl

theorem digitsValue_eq_decimal {digits : Text} (h : ∀ c ∈ digits, c.isDigit = true) :
    digitsValue 10 digits = decimal digits := by
  rw [decimal_eq_value, digitsValue, DigitRegister.value, List.foldl_map]
  refine List.foldl_ext _ _ 0 fun n c hc => ?_
  rw [digitOf, if_pos (h c hc)]
  rfl

/-- An exponent of zero, whatever its sign. -/
theorem signedDigits_zero {t : Text}
    (h : decimal ((skipExponentSign t).takeWhile Char.isDigit) = 0) : signedDigits t = 0 := by
  have hdigits : digitsValue 10 ((skipExponentSign t).takeWhile Char.isDigit) = 0 := by
    rw [digitsValue_eq_decimal fun c hc => List.mem_takeWhile_imp hc, h]
  unfold signedDigits
  split
  case h_1 ds => rw [show digitsValue 10 (ds.takeWhile Char.isDigit) = 0 from hdigits]; rfl
  case h_2 ds => rw [show digitsValue 10 (ds.takeWhile Char.isDigit) = 0 from hdigits]; rfl
  case h_3 hminus hplus =>
    have hsame : skipExponentSign t = t := by
      unfold skipExponentSign
      split
      · exact absurd rfl (hplus _)
      · exact absurd rfl (hminus _)
      · rfl
    rw [hsame] at hdigits
    rw [hdigits]
    rfl

/-- What stands behind a literal's fraction, if the scans let it through, is an
exponent of zero or none. -/
theorem exponent_zero {rest afterExp : Text} (hlt : decimal (match rest with
      | c :: t => if c ≠ 'e' ∧ c ≠ 'E' then [] else (skipExponentSign t).takeWhile Char.isDigit
      | [] => []) < 2 ^ 63)
    (hexp : (scanZeroExponent rest).result = some afterExp)
    (hsuffix : (scanFloatSuffix afterExp).isSome = true) : exponentValue rest = 0 := by
  have hall : afterExp.all isFloatSuffix = true := by
    unfold scanFloatSuffix at hsuffix
    split at hsuffix
    case isTrue h => exact h
    case isFalse => cases hsuffix
  cases rest with
  | nil => rfl
  | cons c t =>
      by_cases hc : c ≠ 'e' ∧ c ≠ 'E'
      · rw [scanZeroExponent, if_pos hc] at hexp
        cases hexp
        exact suffix_no_exponent hall
      · simp only [if_neg hc] at hlt
        have hzero := ((scanZeroExponent_spec c t hc).2 hlt afterExp hexp).1
        have hletter : (c == 'e' || c == 'E') = true := by
          rw [Bool.or_eq_true, beq_iff_eq, beq_iff_eq]
          tauto
        rw [exponentValue, hletter]
        exact signedDigits_zero hzero

theorem scanIntPart_rest (text : Text) : (scanIntPart text).2 = text.dropWhile Char.isDigit := by
  unfold scanIntPart
  dsimp only
  split
  · rfl
  · split
    · rfl
    · split <;> rfl

/-- Without an overflow, what is taken for the target has its value. -/
theorem literalEquals_exact {text : Text} {one : Bool}
    (hlt : decimal (exponentDigits text) < 2 ^ 63) (h : (literalEquals text one).result = true) :
    exactValue text = target one := by
  unfold literalEquals at h
  split at h
  case isTrue => cases h
  case isFalse =>
    dsimp only at h
    split at h
    case h_1 => cases h
    case h_2 rest hfrac =>
      obtain ⟨afterExp, hexp, hbehind⟩ := (Option.any_eq_true _ _).mp h
      rw [Bool.and_eq_true, decide_eq_true_eq] at hbehind
      have hexponent : exponentValue rest = 0 := by
        refine exponent_zero ?_ hexp hbehind.1
        unfold exponentDigits at hlt
        rw [hfrac] at hlt
        cases rest with
        | nil => exact hlt
        | cons c t => exact hlt
      rw [scanIntPart_rest] at hfrac
      obtain ⟨hzeros, hafter⟩ := fraction_zero hfrac
      rw [exactValue, decimalValue, scanIntPart_spec hbehind.2, hafter, hexponent,
        digitsValue_zeros hzeros]
      simp

/-- **`literal_equals` is exact, and its accumulator stays in range, IF AND ONLY
IF the exponent it reads is below 2⁶³.** -/
theorem literalEquals_exact_iff (text : Text) (one : Bool) :
    ((literalEquals text one).overflowed = false
        ∧ ((literalEquals text one).result = true → exactValue text = target one))
      ↔ decimal (exponentDigits text) < 2 ^ 63 := by
  rw [literalEquals_overflowed, decide_eq_false_iff_not, Nat.not_le]
  exact ⟨fun h => h.1, fun hlt => ⟨hlt, literalEquals_exact hlt⟩⟩

/-- No power of ten but one is one. -/
theorem ten_zpow_ne_one {n : Int} (hn : n ≠ 0) : (10 : ℚ) ^ n ≠ 1 := by
  intro h
  exact hn ((zpow_eq_one_iff_right₀ (by norm_num) (by norm_num)).mp h)

/-- **An exponent of 2⁶⁴** wraps around to zero. -/
theorem wrapped_exponent :
    (literalEquals "1e18446744073709551616".toList true).overflowed = true
      ∧ (literalEquals "1e18446744073709551616".toList true).result = true
      ∧ exactValue "1e18446744073709551616".toList ≠ target true := by
  refine ⟨by decide +kernel, by decide +kernel, ?_⟩
  have hvalue : exactValue "1e18446744073709551616".toList
      = ((1 : ℕ) + (0 : ℕ) / 10 ^ 0 : ℚ) * 10 ^ (18446744073709551616 : Int) := rfl
  rw [hvalue, target, if_pos rfl, pow_zero, Nat.cast_one, Nat.cast_zero, zero_div, add_zero, one_mul]
  exact ten_zpow_ne_one (by decide)

end Clamp01

end ShaderClippy.Rules
