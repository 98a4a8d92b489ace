/-
  ShaderClippy.Rules.AttributeInteger

  **THE NUMBERS IN ATTRIBUTES** (`util/sm6_10.cpp`, `util/reflect_stage.cpp`,
  `loop_attribute_conflict.cpp`).

  `[GroupSharedLimit(N)]`, `[WaveSize(N)]` and `[unroll(N)]` are read from the
  text in front of a declaration. The three readers have one loop: a 32-bit
  accumulator that takes no more digits once it holds 10⁹ or more, "to avoid
  overflow on adversarial input". An accumulator just below the bound takes
  one digit more, and that product need not fit in 32 bits; it then starts
  again from a small number (`read_saturates_iff`).
-/
import Mathlib
import ShaderClippy.Rules.DigitLoop

namespace ShaderClippy.Rules

/-! ## §1. The readers. -/

/-- Where the accumulator stops taking digits. -/
def kSaturation : Nat := 1000000000

/-- One turn of the loop: `n` in 32 bits, and `any`. -/
def saturatingStep (s : Nat × Bool) (digit : Nat) : Nat × Bool :=
  (if s.1 < kSaturation then (s.1 * 10 + digit) % 2 ^ 32 else s.1, true)

/-- The number a text begins with, or `out` if it begins with none, and what is
left of the text. -/
def readUint (text : Text) (out : Nat) : Nat × Text :=
  let r := digitLoop saturatingStep (0, false) text
  (if r.1.2 then r.1.1 else out, r.2)

/-- `skip_ws`. -/
def skipWs (text : Text) : Text :=
  text.dropWhile fun c => c == ' ' || c == '\t' || c == '\r' || c == '\n'

def isIdentifierChar (c : Char) : Bool :=
  ('a' ≤ c && c ≤ 'z') || ('A' ≤ c && c ≤ 'Z') || ('0' ≤ c && c ≤ '9') || c == '_'

/-- `match_keyword`: the keyword, and not the beginning of a longer word. -/
def matchKeyword (text keyword : Text) : Bool :=
  keyword.isPrefixOf text && !(text.drop keyword.length).head?.any isIdentifierChar

namespace Sm610

/-- `parse_uint` of `sm6_10.cpp`. -/
def parseUint (text : Text) (out : Nat) : Nat × Text := readUint text out

def kAttr : Text := "GroupSharedLimit".toList

/-- `scan_groupshared_limit`. -/
def scanGroupsharedLimit : Text → Option Nat
  | [] => none
  | c :: cs =>
      if c ≠ '[' then scanGroupsharedLimit cs
      else
        let rest := skipWs cs
        if rest.isEmpty then none
        else if !matchKeyword rest kAttr then scanGroupsharedLimit cs
        else
          match skipWs (rest.drop kAttr.length) with
          | '(' :: arguments =>
              let r := parseUint (skipWs arguments) 0
              if r.2.length = (skipWs arguments).length then scanGroupsharedLimit cs else some r.1
          | _ => scanGroupsharedLimit cs

end Sm610

namespace ReflectStage

/-- `parse_uint` of `reflect_stage.cpp`. -/
def parseUint (text : Text) (out : Nat) : Nat × Text := readUint text out

def kWavesize : Text := "WaveSize".toList

/-- `scan_wavesize`. -/
def scanWavesize : Text → Option (Nat × Nat)
  | [] => none
  | c :: cs =>
      if c ≠ '[' then scanWavesize cs
      else
        let rest := skipWs cs
        if rest.isEmpty then none
        else if !matchKeyword rest kWavesize then scanWavesize cs
        else
          match skipWs (rest.drop kWavesize.length) with
          | '(' :: arguments =>
              let min := parseUint (skipWs arguments) 0
              if min.2.length = (skipWs arguments).length then scanWavesize cs
              else
                match skipWs min.2 with
                | ',' :: arguments =>
                    let max := parseUint (skipWs arguments) 0
                    if max.2.length = (skipWs arguments).length then scanWavesize cs
                    else some (min.1, max.1)
                | _ => some (min.1, min.1)
          | _ => scanWavesize cs

end ReflectStage

namespace LoopAttributeConflict

/-- What `scan_attributes` has found. -/
structure AttrScan where
  hasUnroll : Bool := false
  hasUnrollArg : Bool := false
  hasLoop : Bool := false
  unrollN : Nat := 0
  deriving Repr, DecidableEq

/-- The argument of `[unroll(`: `unroll_n` is set if there are digits. -/
def scanUnrollArgument (arguments : Text) (out : AttrScan) : AttrScan :=
  { out with hasUnrollArg := true, unrollN := (readUint (skipWs arguments) out.unrollN).1 }

/-- `scan_attributes`. -/
def scanAttributes : Text → AttrScan → AttrScan
  | [], out => out
  | c :: cs, out =>
      if c ≠ '[' then scanAttributes cs out
      else
        let rest := skipWs cs
        if rest.isEmpty then out
        else if matchKeyword rest "unroll".toList then
          let out := { out with hasUnroll := true }
          match skipWs (rest.drop "unroll".toList.length) with
          | '(' :: arguments => scanAttributes cs (scanUnrollArgument arguments out)
          | _ => scanAttributes cs out
        else if matchKeyword rest "loop".toList then scanAttributes cs { out with hasLoop := true }
        else scanAttributes cs out

end LoopAttributeConflict

/-! ## §2. What the loop reads. -/

theorem foldl_saturatingStep (ds : List Nat) :
    ds.foldl saturatingStep (0, false)
      = (DigitRegister.capped 10 (2 ^ 32) kSaturation ds, !ds.isEmpty) := by
  induction ds using List.reverseRecOn with
  | nil => rfl
  | append_singleton ds d ih =>
      rw [List.foldl_concat, ih, DigitRegister.capped_concat, saturatingStep, DigitRegister.capStep]
      simp

/-- **What `parse_uint` reads** of a row of digits. -/
theorem readUint_run {digits rest : Text} (h : DigitRun digits rest) (hne : digits ≠ []) (out : Nat) :
    readUint (digits ++ rest) out
      = (DigitRegister.capped 10 (2 ^ 32) kSaturation (digits.map digitValue), rest) := by
  unfold readUint
  rw [digitLoop_run _ _ h, foldl_saturatingStep]
  have hany : (!(digits.map digitValue).isEmpty) = true := by
    cases digits with
    | nil => exact absurd rfl hne
    | cons c cs => rfl
  simp only [hany, if_true]

theorem skipWs_digits {digits rest : Text} (h : DigitRun digits rest) (hne : digits ≠ []) :
    skipWs (digits ++ rest) = digits ++ rest := by
  cases digits with
  | nil => exact absurd rfl hne
  | cons c cs =>
      have hdigit : c.isDigit = true := h.digits c (List.mem_cons_self ..)
      unfold skipWs
      rw [List.cons_append, List.dropWhile_cons_of_neg]
      intro hspace
      simp only [Bool.or_eq_true, beq_iff_eq] at hspace
      rcases hspace with ((rfl | rfl) | rfl) | rfl <;> exact absurd hdigit (by decide)

/-! ## §3. Saturation. -/

/-- The three readers. -/
inductive AttributeParser where
  | sm610
  | reflectStage
  | loopAttributeConflict
  deriving DecidableEq

/-- The number a reader returns at the argument of its attribute; it starts
from `0`. -/
def AttributeParser.read : AttributeParser → Text → Nat
  | .sm610, arguments => (Sm610.parseUint arguments 0).1
  | .reflectStage, arguments => (ReflectStage.parseUint arguments 0).1
  | .loopAttributeConflict, arguments =>
      (LoopAttributeConflict.scanUnrollArgument arguments {}).unrollN

theorem read_run (p : AttributeParser) {digits rest : Text} (h : DigitRun digits rest)
    (hne : digits ≠ []) :
    p.read (digits ++ rest)
      = DigitRegister.capped 10 (2 ^ 32) kSaturation (digits.map digitValue) := by
  cases p with
  | sm610 => exact congrArg Prod.fst (readUint_run h hne 0)
  | reflectStage => exact congrArg Prod.fst (readUint_run h hne 0)
  | loopAttributeConflict =>
      show (readUint (skipWs (digits ++ rest)) 0).1 = _
      rw [skipWs_digits h hne, readUint_run h hne]

/-- **The readers saturate IF AND ONLY IF the number is below 10⁹, or the digits
up to some place denote a number that is 10⁹ or more modulo 2³².** -/
theorem read_saturates_iff (p : AttributeParser) {digits rest : Text} (h : DigitRun digits rest) :
    min (decimal digits) kSaturation ≤ p.read (digits ++ rest)
      ↔ decimal digits < kSaturation
        ∨ ∃ first, first <+: digits ∧ kSaturation ≤ decimal first % 2 ^ 32 := by
  by_cases hne : digits = []
  · rw [hne]
    exact iff_of_true (Nat.zero_le _) (Or.inl (by decide))
  · have hcap : kSaturation ≤ 2 ^ 32 := by decide
    rw [read_run p h hne, decimal_eq_value, DigitRegister.capped_saturates_iff (by omega) hcap,
      exists_prefix_map (P := fun q => kSaturation ≤ DigitRegister.value 10 q % 2 ^ 32)]
    simp only [decimal_eq_value]

/-- `4294967297` is read as `1`. -/
theorem wrapped_limit :
    let digits := "4294967297".toList
    min (decimal digits) kSaturation = kSaturation
      ∧ (∀ p : AttributeParser, p.read (digits ++ ")]".toList) = 1)
      ∧ Sm610.scanGroupsharedLimit ("[GroupSharedLimit(".toList ++ digits ++ ")]".toList) = some 1
      ∧ ReflectStage.scanWavesize ("[WaveSize(".toList ++ digits ++ ")]".toList) = some (1, 1)
      ∧ (LoopAttributeConflict.scanAttributes ("[unroll(".toList ++ digits ++ ")]".toList) {}).unrollN
          = 1 := by
  refine ⟨by decide, fun p => ?_, by decide, by decide, by decide⟩
  cases p <;> decide

/-- Ten digits up to 2³² are read as they are. -/
theorem read_saturates_iff_largest :
    min (decimal "4294967295".toList) kSaturation
      ≤ AttributeParser.sm610.read ("4294967295".toList ++ ")]".toList) := by
  have hrun : DigitRun "4294967295".toList ")]".toList := by
    refine ⟨List.all_eq_true.mp (by decide), fun c hc => ?_⟩
    cases hc
    rfl
  exact (read_saturates_iff .sm610 hrun).mpr
    (Or.inr ⟨"4294967295".toList, List.prefix_refl _, by decide⟩)

end ShaderClippy.Rules
