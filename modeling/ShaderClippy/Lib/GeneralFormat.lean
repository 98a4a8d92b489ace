/-
  ShaderClippy.Lib.GeneralFormat

  **NUMBERS TO `p` SIGNIFICANT DIGITS.**

  How the standard library of C prints a number with `%g`: rounded to `p`
  digits, half to even, without zeros at the end, and with an exponent if the
  number is small or large.
-/
import Mathlib.Data.Int.Log
import Mathlib.Data.Rat.Floor

namespace ShaderClippy.GeneralFormat

/-! ## §1. Rounding. -/

/-- The nearest natural number, of two the even one. -/
def roundHalfEven (q : ℚ) : Nat :=
  let n := ⌊q⌋₊
  if q - n < 1 / 2 then n
  else if 1 / 2 < q - n then n + 1
  else if n % 2 = 0 then n
  else n + 1

/-- The exponent of the first digit, and the `p` digits as one number. -/
def scientific (p : Nat) (q : ℚ) : Int × Nat :=
  let e := Int.log 10 q
  let m := roundHalfEven (q * 10 ^ ((p : Int) - 1 - e))
  if m = 10 ^ p then (e + 1, 10 ^ (p - 1)) else (e, m)

/-! ## §2. The text. -/

/-- Without zeros at the end. -/
def stripZeros (s : List Char) : List Char := (s.reverse.dropWhile (· == '0')).reverse

/-- Digits with a point between them, if any stand behind it. -/
def pointed (whole frac : List Char) : List Char :=
  if (stripZeros frac).isEmpty then whole else whole ++ '.' :: stripZeros frac

/-- An exponent has a sign and two digits or more. -/
def exponentText (e : Int) : List Char :=
  'e' :: (if e < 0 then '-' else '+')
    :: (if e.natAbs < 10 then '0' :: Nat.toDigits 10 e.natAbs else Nat.toDigits 10 e.natAbs)

/-- `%.pg` of a number that is not negative. -/
def generalText (p : Nat) (q : ℚ) : List Char :=
  if q = 0 then ['0']
  else
    let (e, m) := scientific p q
    let digits := Nat.toDigits 10 m
    if e < -4 ∨ (p : Int) ≤ e then pointed (digits.take 1) (digits.drop 1) ++ exponentText e
    else if e < 0 then pointed ['0'] (List.replicate (e.natAbs - 1) '0' ++ digits)
    else pointed (digits.take (e.natAbs + 1)) (digits.drop (e.natAbs + 1))

/-! ## §3. Its characters. -/

/-- A digit, digits and points, and maybe an exponent. -/
structure Shape (s : List Char) : Prop where
  split : ∃ c body tail, s = c :: (body ++ tail) ∧ c.isDigit = true
    ∧ (∀ x ∈ body, x.isDigit = true ∨ x = '.')
    ∧ (tail = [] ∨ ∃ sign ds, tail = 'e' :: sign :: ds ∧ (sign = '+' ∨ sign = '-') ∧ ∀ x ∈ ds, x.isDigit = true)

theorem isDigit_toDigits {n : Nat} {x : Char} (h : x ∈ Nat.toDigits 10 n) : x.isDigit = true :=
  Nat.isDigit_of_mem_toDigits (by decide) (by decide) h

theorem mem_stripZeros {s : List Char} {x : Char} (h : x ∈ stripZeros s) : x ∈ s :=
  List.mem_reverse.mp ((List.dropWhile_sublist _).subset (List.mem_reverse.mp h))

/-- Digits and a point are digits and points, from a digit on. -/
theorem pointed_chars {whole frac : List Char} (hne : whole ≠ []) (hwhole : ∀ x ∈ whole, x.isDigit = true)
    (hfrac : ∀ x ∈ frac, x.isDigit = true) :
    ∃ c body, pointed whole frac = c :: body ∧ c.isDigit = true ∧ ∀ x ∈ body, x.isDigit = true ∨ x = '.' := by
  obtain ⟨c, rest, rfl⟩ := List.exists_cons_of_ne_nil hne
  have hc := hwhole c List.mem_cons_self
  have hrest : ∀ x ∈ rest, x.isDigit = true := fun x hx => hwhole x (List.mem_cons_of_mem c hx)
  unfold pointed
  split
  case isTrue => exact ⟨c, rest, rfl, hc, fun x hx => Or.inl (hrest x hx)⟩
  case isFalse =>
      refine ⟨c, rest ++ '.' :: stripZeros frac, rfl, hc, fun x hx => ?_⟩
      obtain hx | hx := List.mem_append.mp hx
      · exact Or.inl (hrest x hx)
      · obtain rfl | hx := List.mem_cons.mp hx
        · exact Or.inr rfl
        · exact Or.inl (hfrac x (mem_stripZeros hx))

theorem shape_exponent (e : Int) :
    ∃ sign ds, exponentText e = 'e' :: sign :: ds ∧ (sign = '+' ∨ sign = '-') ∧ ∀ x ∈ ds, x.isDigit = true := by
  refine ⟨_, _, rfl, ?_, fun x hx => ?_⟩
  · split
    · exact Or.inr rfl
    · exact Or.inl rfl
  · split at hx
    · obtain rfl | hx := List.mem_cons.mp hx
      · rfl
      · exact isDigit_toDigits hx
    · exact isDigit_toDigits hx

/-- **What the text looks like.** -/
theorem shape_generalText (p : Nat) (q : ℚ) : Shape (generalText p q) := by
  have hne : ∀ {n m : Nat}, (Nat.toDigits 10 m).take (n + 1) ≠ [] := by
    intro n m hnil
    obtain hzero | hnil := List.take_eq_nil_iff.mp hnil
    · exact absurd hzero (Nat.succ_ne_zero n)
    · exact Nat.toDigits_ne_nil hnil
  have htake : ∀ {n m : Nat}, ∀ x ∈ (Nat.toDigits 10 m).take n, x.isDigit = true :=
    fun x hx => isDigit_toDigits (List.mem_of_mem_take hx)
  have hdrop : ∀ {n m : Nat}, ∀ x ∈ (Nat.toDigits 10 m).drop n, x.isDigit = true :=
    fun x hx => isDigit_toDigits (List.mem_of_mem_drop hx)
  have hfixed : ∀ {whole frac : List Char}, whole ≠ [] → (∀ x ∈ whole, x.isDigit = true) →
      (∀ x ∈ frac, x.isDigit = true) → Shape (pointed whole frac) := by
    intro whole frac hne hwhole hfrac
    obtain ⟨c, body, htext, hc, hbody⟩ := pointed_chars hne hwhole hfrac
    exact ⟨c, body, [], by rw [htext, List.append_nil], hc, hbody, Or.inl rfl⟩
  unfold generalText
  split
  case isTrue => exact ⟨'0', [], [], rfl, rfl, nofun, Or.inl rfl⟩
  case isFalse =>
      dsimp only
      split
      case isTrue =>
          obtain ⟨c, body, htext, hc, hbody⟩ := pointed_chars hne htake (hdrop (n := 1))
          rw [htext]
          exact ⟨c, body, _, rfl, hc, hbody, Or.inr (shape_exponent _)⟩
      case isFalse =>
          split
          case isTrue =>
              refine hfixed nofun (fun x hx => by rw [List.mem_singleton.mp hx]; rfl) fun x hx => ?_
              obtain hx | hx := List.mem_append.mp hx
              · rw [List.eq_of_mem_replicate hx]
                rfl
              · exact isDigit_toDigits hx
          case isFalse => exact hfixed hne htake hdrop

end ShaderClippy.GeneralFormat
