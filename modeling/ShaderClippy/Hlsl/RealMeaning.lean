/-
  ShaderClippy.Hlsl.RealMeaning

  **EXACT REAL ARITHMETIC.**

  Numbers, `+`, `-`, `*`, `/`, conditionals and `pow` mean what they mean over
  the reals. All else (variables, other operators and functions, members) means
  what the environment says.
-/
import ShaderClippy.Hlsl.Arith
import Mathlib.Analysis.SpecialFunctions.Pow.Real

namespace ShaderClippy.Hlsl

structure RealEnv where
  var : Text → ℝ
  unary : Text → ℝ → ℝ
  cast : Text → ℝ → ℝ
  binary : Text → ℝ → ℝ → ℝ
  step : ℝ → Text → ℝ
  member : ℝ → Text → ℝ
  call : Callee ℝ → List ℝ → ℝ
  index : ℝ → ℝ → ℝ

/-- The value of a number. -/
noncomputable def realLiteral (t : Text) : ℝ :=
  if literalType t = .float then decimalValue ℝ t else integerValue t

def kPow : Text := ['p', 'o', 'w']

/-- `pow` of two arguments. -/
noncomputable def realCall (ρ : RealEnv) (f : Callee ℝ) (args : List ℝ) : ℝ :=
  match f, args with
  | .name t, [x, y] => if t = kPow then x ^ y else ρ.call f args
  | f, args => ρ.call f args

theorem realCall_pow (ρ : RealEnv) (x y : ℝ) : realCall ρ (.name kPow) [x, y] = x ^ y := by
  rw [realCall, if_pos rfl]

noncomputable def real (isType : Text → Bool) (ρ : RealEnv) : Algebra ℝ where
  atom t := if kindOf isType t = .number then realLiteral t else ρ.var t
  unary op x :=
    match op with
    | ['-'] => -x
    | ['+'] => x
    | op => ρ.unary op x
  cast := ρ.cast
  binary op x y :=
    match op with
    | ['+'] => x + y
    | ['-'] => x - y
    | ['*'] => x * y
    | ['/'] => x / y
    | op => ρ.binary op x y
  cond c x y := if c = 0 then y else x
  step := ρ.step
  member := ρ.member
  call := realCall ρ
  index := ρ.index

end ShaderClippy.Hlsl
