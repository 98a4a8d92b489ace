/-
  ShaderClippy.Rules.NumericLiteral

  **NUMBERS AS THE RULES READ THEM** (`rules/util/numeric_literal.cpp`).

  The rules read an integral literal by its text: digits, a fraction of zeros,
  a suffix. Each has its own suffix letters and takes another thing from the
  digits; the reading is the same (`integralPart`). An exponent is refused,
  since its letter is no suffix.
-/
import ShaderClippy.Source

namespace ShaderClippy.Rules

/-- `is_literal_suffix_char`, and `is_float_suffix` of the `pow` rules. -/
def isLiteralSuffixChar (c : Char) : Bool :=
  c == 'f' || c == 'F' || c == 'h' || c == 'H' || c == 'l' || c == 'L' || c == 'u' || c == 'U'

/-- `skip_optional_plus`. -/
def skipOptionalPlus : Text → Text
  | '+' :: t => t
  | t => t

/-- What is behind a fraction of zeros. -/
def skipZeroFraction : Text → Option Text
  | '.' :: t =>
      if (t.takeWhile Char.isDigit).all (fun c => c == '0') then some (t.dropWhile Char.isDigit)
      else none
  | t => some t

/-- The digits in front of the point of an integral literal. -/
def integralPart (isSuffix : Char → Bool) (text : Text) : Option Text :=
  let t := skipOptionalPlus text
  if t.takeWhile Char.isDigit = [] then none
  else
    (skipZeroFraction (t.dropWhile Char.isDigit)).bind fun rest =>
      if rest.all isSuffix then some (t.takeWhile Char.isDigit) else none

/-- Digits without the zeros in front. -/
def significant (digits : Text) : Text := digits.dropWhile fun c => c == '0'

/-- `is_numeric_literal_uint`. -/
def isNumericLiteralUint (text : Text) (value : Nat) : Bool :=
  match integralPart isLiteralSuffixChar text with
  | some digits => significant digits == if value = 0 then [] else Nat.toDigits 10 value
  | none => false

/-- `is_numeric_literal_zero`. -/
def isNumericLiteralZero (text : Text) : Bool := isNumericLiteralUint text 0

/-- `is_numeric_literal_one`. -/
def isNumericLiteralOne (text : Text) : Bool := isNumericLiteralUint text 1

end ShaderClippy.Rules
