/-
  ShaderClippy.Hlsl.VectorMeaning

  **VECTORS, IN EXACT REAL ARITHMETIC.**

  A value is its components, a scalar has one. Numbers, signs, `+`, `-`, `*`,
  `/`, comparisons, conditionals, swizzles, subscripts and the constructors of
  vectors mean what they mean over the reals; variables and other functions mean
  what the environment says.
-/
import ShaderClippy.Hlsl.RealMeaning

namespace ShaderClippy.Hlsl

/-! ## §1. The algebra. -/

structure VectorEnv where
  var : Text → List ℝ
  unary : Text → List ℝ → List ℝ
  cast : Text → List ℝ → List ℝ
  binary : Text → List ℝ → List ℝ → List ℝ
  member : List ℝ → Text → List ℝ
  call : Callee (List ℝ) → List (List ℝ) → List ℝ
  place : List ℝ → Nat

/-- An operation on every component; a scalar goes with all of them. -/
def componentwise (op : ℝ → ℝ → ℝ) : List ℝ → List ℝ → List ℝ
  | [a], y => y.map (op a)
  | x, [b] => x.map (op · b)
  | x, y => List.zipWith op x y

noncomputable def truthOf (p : ℝ → ℝ → Prop) (x y : ℝ) : ℝ :=
  open scoped Classical in if p x y then 1 else 0

/-- The component that a letter names. -/
def componentOf : Char → Option Nat
  | 'x' | 'r' => some 0
  | 'y' | 'g' => some 1
  | 'z' | 'b' => some 2
  | 'w' | 'a' => some 3
  | _ => none

/-- A swizzle, if the name is one. -/
def swizzle (v : List ℝ) (name : Text) : Option (List ℝ) :=
  name.mapM fun c => (componentOf c).bind fun n => v[n]?

/-- A scalar condition chooses a value, a vector chooses components. -/
noncomputable def choose (c x y : List ℝ) : List ℝ :=
  match c with
  | [a] => if a = 0 then y else x
  | c => List.zipWith (fun a (xy : ℝ × ℝ) => if a = 0 then xy.2 else xy.1) c (x.zip y)

/-- The functions that put values together to a vector. -/
def kConstructors : List Text :=
  ["float2".toList, "float3".toList, "float4".toList, "half2".toList, "half3".toList, "half4".toList]

noncomputable def vector (isType : Text → Bool) (ρ : VectorEnv) : Algebra (List ℝ) where
  atom t := if kindOf isType t = .number then [realLiteral t] else ρ.var t
  unary op x :=
    match op with
    | ['-'] => x.map (- ·)
    | ['+'] => x
    | op => ρ.unary op x
  cast := ρ.cast
  binary op x y :=
    match op with
    | ['+'] => componentwise (· + ·) x y
    | ['-'] => componentwise (· - ·) x y
    | ['*'] => componentwise (· * ·) x y
    | ['/'] => componentwise (· / ·) x y
    | ['<'] => componentwise (truthOf (· < ·)) x y
    | ['>'] => componentwise (truthOf (· > ·)) x y
    | ['<', '='] => componentwise (truthOf (· ≤ ·)) x y
    | ['>', '='] => componentwise (truthOf (· ≥ ·)) x y
    | ['=', '='] => componentwise (truthOf (· = ·)) x y
    | ['!', '='] => componentwise (truthOf (· ≠ ·)) x y
    | op => ρ.binary op x y
  cond := choose
  step x _ := x
  member x name := (swizzle x name).getD (ρ.member x name)
  call f args :=
    match f with
    | .name t => if t ∈ kConstructors then args.flatten else ρ.call f args
    | f => ρ.call f args
  index x i := [x.getD (ρ.place i) 0]

/-! ## §2. Zero. -/

def IsZero (v : List ℝ) : Prop := ∀ x ∈ v, x = 0

/-- All components are zero, whatever the variables are. -/
def DenotesZero (isType : Text → Bool) (e : Expr) : Prop := ∀ ρ, IsZero (e.value (vector isType ρ))

/-- Zeros with a sign or without. -/
theorem isZero_sign {isType : Text → Bool} {ρ : VectorEnv} {op : Text} (hop : op = ['+'] ∨ op = ['-'])
    {v : List ℝ} (h : IsZero v) : IsZero ((vector isType ρ).unary op v) := by
  obtain rfl | rfl := hop
  · exact h
  · intro x hx
    obtain ⟨y, hy, rfl⟩ := List.mem_map.mp hx
    rw [h y hy, neg_zero]

/-- A vector of zeros. -/
theorem isZero_constructor {isType : Text → Bool} {ρ : VectorEnv} {name : Text}
    (hname : name ∈ kConstructors) {args : List (List ℝ)} (h : ∀ v ∈ args, IsZero v) :
    IsZero ((vector isType ρ).call (.name name) args) := by
  show IsZero (if name ∈ kConstructors then args.flatten else _)
  rw [if_pos hname]
  intro x hx
  obtain ⟨v, hv, hx⟩ := List.mem_flatten.mp hx
  exact h v hv x hx

/-! ## §3. Literals of zero. -/

theorem digitsValue_zeros {base : Nat} {ds : Text} (h : ∀ c ∈ ds, c = '0') : digitsValue base ds = 0 := by
  unfold digitsValue
  induction ds with
  | nil => rfl
  | cons c ds ih =>
      rw [List.foldl_cons, h c List.mem_cons_self]
      show ds.foldl (fun n c => n * base + digitOf c) (0 * base + 0) = 0
      rw [Nat.zero_mul]
      exact ih fun d hd => h d (List.mem_cons_of_mem c hd)

/-- A literal whose digits are zeros, in front of the point and behind it. -/
theorem decimalValue_zeros {t : Text} (hwhole : ∀ c ∈ t.takeWhile Char.isDigit, c = '0')
    (hfrac : ∀ c ∈ (fraction (t.dropWhile Char.isDigit)).1, c = '0') : decimalValue ℝ t = 0 := by
  unfold decimalValue
  dsimp only
  rw [digitsValue_zeros hwhole, digitsValue_zeros hfrac, Nat.cast_zero, zero_div, add_zero, zero_mul]

theorem integerValue_zeros {t : Text} (hhex : isHex t = false)
    (hwhole : ∀ c ∈ t.takeWhile Char.isDigit, c = '0') : integerValue t = 0 := by
  unfold integerValue
  rw [hhex]
  exact digitsValue_zeros hwhole

theorem realLiteral_zeros {t : Text} (hhex : isHex t = false)
    (hwhole : ∀ c ∈ t.takeWhile Char.isDigit, c = '0')
    (hfrac : ∀ c ∈ (fraction (t.dropWhile Char.isDigit)).1, c = '0') : realLiteral t = 0 := by
  unfold realLiteral
  split
  · exact decimalValue_zeros hwhole hfrac
  · rw [integerValue_zeros hhex hwhole, Nat.cast_zero]

end ShaderClippy.Hlsl
