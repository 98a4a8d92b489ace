/-
  ShaderClippy.Hlsl.Intrinsics

  **MORE INTRINSICS, AND NODES OF ONE TEXT.**

  The environment of `Hlsl.VectorFunctions` with the intrinsics that the idiom
  rules know: `sqrt`, `rsqrt`, `exp2`, `pow`, `distance`, `normalize` and
  `reflect`, over the reals and on every component.

  A rule compares nodes by their texts. Two nodes of one text are one node but
  for the blanks in front of them (`eq_of_nodeText`), so they have one meaning.
-/
import ShaderClippy.Hlsl.Seams
import ShaderClippy.Hlsl.VectorFunctions
import Mathlib

namespace ShaderClippy.Hlsl

variable {isType : Text → Bool}

/-! ## §1. The intrinsics. -/

def kSqrt : Text := "sqrt".toList

def kRsqrt : Text := "rsqrt".toList

def kExp2 : Text := "exp2".toList

def kDistance : Text := "distance".toList

def kNormalize : Text := "normalize".toList

def kReflect : Text := "reflect".toList

/-- The Euclidean length. -/
noncomputable def euclid (v : List ℝ) : ℝ := √((v.map fun a => a * a).sum)

noncomputable def intrinsicCall (ρ : VectorEnv) (f : Callee (List ℝ)) (args : List (List ℝ)) : List ℝ :=
  match f, args with
  | .name t, [x] =>
      if t = kSqrt then x.map Real.sqrt
      else if t = kRsqrt then x.map fun a => 1 / √a
      else if t = kExp2 then x.map fun a => (2 : ℝ) ^ a
      else if t = kNormalize then x.map (· / euclid x)
      else functionCall ρ f args
  | .name t, [x, y] =>
      if t = kPow then componentwise (fun a b => a ^ b) x y
      else if t = kDistance then [euclid (componentwise (· - ·) x y)]
      else if t = kReflect then
        componentwise (· - ·) x (y.map (2 * (List.zipWith (· * ·) x y).sum * ·))
      else functionCall ρ f args
  | f, args => functionCall ρ f args

/-- The environment with the intrinsics. -/
noncomputable def VectorEnv.withIntrinsics (ρ : VectorEnv) : VectorEnv := { ρ with call := intrinsicCall ρ }

/-- What the nodes mean, whatever the environment says of the rest. -/
noncomputable def intrinsics (isType : Text → Bool) (ρ : VectorEnv) : Algebra (List ℝ) :=
  vector isType ρ.withIntrinsics

section Calls

variable (ρ : VectorEnv) (x y : List ℝ)

theorem call_sqrt : (intrinsics isType ρ).call (.name kSqrt) [x] = x.map Real.sqrt := rfl

theorem call_rsqrt : (intrinsics isType ρ).call (.name kRsqrt) [x] = x.map fun a => 1 / √a := rfl

theorem call_exp2 : (intrinsics isType ρ).call (.name kExp2) [x] = x.map fun a => (2 : ℝ) ^ a := rfl

theorem call_normalize : (intrinsics isType ρ).call (.name kNormalize) [x] = x.map (· / euclid x) := rfl

theorem call_length : (intrinsics isType ρ).call (.name kLength) [x] = [euclid x] := rfl

theorem call_pow : (intrinsics isType ρ).call (.name kPow) [x, y] = componentwise (fun a b => a ^ b) x y := rfl

theorem call_distance :
    (intrinsics isType ρ).call (.name kDistance) [x, y] = [euclid (componentwise (· - ·) x y)] := rfl

theorem call_dot :
    (intrinsics isType ρ).call (.name kDot) [x, y] = [(List.zipWith (· * ·) x y).sum] := rfl

theorem call_reflect :
    (intrinsics isType ρ).call (.name kReflect) [x, y]
      = componentwise (· - ·) x (y.map (2 * (List.zipWith (· * ·) x y).sum * ·)) := rfl

end Calls

/-- A literal that is a number. -/
theorem value_number (ρ : VectorEnv) {t : Token} (h : kind isType t = .number) :
    (Expr.atom t).value (intrinsics isType ρ) = [realLiteral t.body] := if_pos h

/-! ## §2. Nodes of one text. -/

/-- The text of a part reads as the part. -/
theorem parseText_nodeText {e : Expr} (h : Part isType e) :
    parseText isType (nodeText e) = some (e.withLead []) := by
  refine parseText_iff.mpr ⟨(wellFormed_withLead [] e).mpr h.1, ?_, [], nofun, ?_⟩
  · rw [toks_withLead]
    exact lexOK_setLead blank_nil h.2
  · rw [toks_withLead, List.append_nil]
    rfl

/-- **Two parts of one text** differ by the blanks in front of them. -/
theorem eq_of_nodeText {e e' : Expr} (h : Part isType e) (h' : Part isType e')
    (htext : nodeText e = nodeText e') : e.withLead [] = e'.withLead [] := by
  have hread := parseText_nodeText h
  rw [htext, parseText_nodeText h'] at hread
  exact (Option.some.inj hread).symm

/-- So they mean the same. -/
theorem meaning_of_nodeText {V : Type} (A : Algebra V) {e e' : Expr} (h : Part isType e)
    (h' : Part isType e') (htext : nodeText e = nodeText e') : meaning A e = meaning A e' := by
  rw [← meaning_withLead A [] e, eq_of_nodeText h h' htext, meaning_withLead]

theorem value_of_nodeText {V : Type} (A : Algebra V) {e e' : Expr} (h : Part isType e)
    (h' : Part isType e') (htext : nodeText e = nodeText e') : e.value A = e'.value A :=
  congrArg Meaning.value (meaning_of_nodeText A h h' htext)

end ShaderClippy.Hlsl
