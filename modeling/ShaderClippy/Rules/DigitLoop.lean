/-
  ShaderClippy.Rules.DigitLoop

  **LOOPS OVER DIGITS.**

  Many rules read a number with the same loop: as long as a digit comes, an
  accumulator takes it. What differs is the accumulator. `digitLoop` is the
  loop, with what it leaves of the text; it folds the digits the text begins
  with (`digitLoop_eq`).
-/
import ShaderClippy.Source
import ShaderClippy.Lib.DigitRegister
import Mathlib.Data.List.TakeWhile

namespace ShaderClippy.Rules

variable {σ : Type}

/-- What a digit character counts. -/
def digitValue (c : Char) : Nat := c.toNat - '0'.toNat

/-- The number that a row of digits denotes. -/
def decimal (digits : Text) : Nat := Nat.ofDigitChars 10 digits 0

/-- The loop: the accumulator behind the digits, and the text from the first
character that is none. -/
def digitLoop (step : σ → Nat → σ) : σ → Text → σ × Text
  | s, [] => (s, [])
  | s, c :: cs => if c.isDigit then digitLoop step (step s (digitValue c)) cs else (s, c :: cs)

theorem digitLoop_eq (step : σ → Nat → σ) (text : Text) :
    ∀ s, digitLoop step s text
      = (((text.takeWhile Char.isDigit).map digitValue).foldl step s,
          text.dropWhile Char.isDigit) := by
  induction text with
  | nil => intro s; rfl
  | cons c cs ih =>
      intro s
      rw [digitLoop]
      by_cases hc : c.isDigit = true
      · rw [if_pos hc, ih, List.takeWhile_cons_of_pos hc, List.dropWhile_cons_of_pos hc]
        rfl
      · rw [if_neg hc, List.takeWhile_cons_of_neg hc, List.dropWhile_cons_of_neg hc]
        rfl

/-- A row of digits that ends where a text goes on with something else. -/
structure DigitRun (digits rest : Text) : Prop where
  digits : ∀ c ∈ digits, c.isDigit = true
  ends : ∀ c, rest.head? = some c → c.isDigit = false

theorem DigitRun.takeWhile {digits rest : Text} (h : DigitRun digits rest) :
    (digits ++ rest).takeWhile Char.isDigit = digits := by
  rw [List.takeWhile_append_of_pos h.digits]
  cases rest with
  | nil => rw [List.takeWhile_nil, List.append_nil]
  | cons c cs => rw [List.takeWhile_cons_of_neg (by rw [h.ends c rfl]; nofun), List.append_nil]

theorem DigitRun.dropWhile {digits rest : Text} (h : DigitRun digits rest) :
    (digits ++ rest).dropWhile Char.isDigit = rest := by
  rw [List.dropWhile_append_of_pos h.digits]
  cases rest with
  | nil => rfl
  | cons c cs => rw [List.dropWhile_cons_of_neg (by rw [h.ends c rfl]; nofun)]

theorem digitLoop_run (step : σ → Nat → σ) (s : σ) {digits rest : Text} (h : DigitRun digits rest) :
    digitLoop step s (digits ++ rest) = ((digits.map digitValue).foldl step s, rest) := by
  rw [digitLoop_eq, h.takeWhile, h.dropWhile]

/-- The number is the value of its digits. -/
theorem decimal_eq_value (digits : Text) :
    decimal digits = DigitRegister.value 10 (digits.map digitValue) := by
  induction digits using List.reverseRecOn with
  | nil => rfl
  | append_singleton ds c ih =>
      have hstep : decimal (ds ++ [c]) = 10 * decimal ds + digitValue c := by
        unfold decimal
        rw [Nat.ofDigitChars_append, Nat.ofDigitChars_cons, Nat.ofDigitChars_nil]
        rfl
      rw [hstep, ih, List.map_append, List.map_singleton, DigitRegister.value_concat, Nat.mul_comm]

/-- A prefix of a row of digits denotes a prefix of its values. -/
theorem exists_prefix_map {P : List Nat → Prop} {digits : Text} :
    (∃ p, p <+: digits.map digitValue ∧ P p)
      ↔ ∃ p, p <+: digits ∧ P (p.map digitValue) := by
  constructor
  · intro ⟨p, hp, hP⟩
    refine ⟨digits.take p.length, List.take_prefix _ _, ?_⟩
    rw [List.map_take, ← List.prefix_iff_eq_take.mp hp]
    exact hP
  · intro ⟨p, hp, hP⟩
    exact ⟨p.map digitValue, hp.map digitValue, hP⟩

end ShaderClippy.Rules
