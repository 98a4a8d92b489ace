/-
  ShaderClippy.Hlsl.VectorFunctions

  **`max`, `clamp`, `dot` AND `length`, IN EXACT REAL ARITHMETIC.**

  An environment in which these four functions mean what they mean over the
  reals, whatever the other functions mean. Two operations on all components
  agree exactly if they agree on every pair of components that meet
  (`componentwise_eq_iff`).
-/
import ShaderClippy.Hlsl.VectorMeaning
import Mathlib.Analysis.Real.Sqrt

namespace ShaderClippy.Hlsl

/-! ## §1. The functions. -/

def kMax : Text := "max".toList

def kClamp : Text := "clamp".toList

def kDot : Text := "dot".toList

def kLength : Text := "length".toList

noncomputable def functionCall (ρ : VectorEnv) (f : Callee (List ℝ)) (args : List (List ℝ)) : List ℝ :=
  match f, args with
  | .name t, [x] => if t = kLength then [√((x.map fun a => a * a).sum)] else ρ.call f args
  | .name t, [x, y] =>
      if t = kMax then componentwise max x y
      else if t = kDot then [(List.zipWith (· * ·) x y).sum]
      else ρ.call f args
  | .name t, [x, low, high] =>
      if t = kClamp then componentwise min (componentwise max x low) high else ρ.call f args
  | f, args => ρ.call f args

/-- The environment with these functions. -/
noncomputable def VectorEnv.withFunctions (ρ : VectorEnv) : VectorEnv := { ρ with call := functionCall ρ }

/-- What an expression denotes. -/
noncomputable def denote (isType : Text → Bool) (ρ : VectorEnv) (e : Expr) : List ℝ :=
  e.value (vector isType ρ.withFunctions)

theorem call_max (isType : Text → Bool) (ρ : VectorEnv) (x y : List ℝ) :
    (vector isType ρ.withFunctions).call (.name kMax) [x, y] = componentwise max x y := rfl

theorem call_clamp (isType : Text → Bool) (ρ : VectorEnv) (x low high : List ℝ) :
    (vector isType ρ.withFunctions).call (.name kClamp) [x, low, high]
      = componentwise min (componentwise max x low) high := rfl

/-! ## §2. Components. -/

/-- **Two operations agree on all components**, exactly if they do on every pair
that meets. -/
theorem componentwise_eq_iff {f g test : ℝ → ℝ → ℝ} (h : ∀ a b, f a b = g a b ↔ test a b = 0) (x y : List ℝ) :
    componentwise f x y = componentwise g x y ↔ IsZero (componentwise test x y) := by
  have hleft : ∀ a (y : List ℝ), y.map (f a) = y.map (g a) ↔ IsZero (y.map (test a)) := by
    intro a y
    rw [List.map_inj_left, IsZero, List.forall_mem_map]
    exact forall₂_congr fun b _ => h a b
  have hright : ∀ (x : List ℝ) b, x.map (f · b) = x.map (g · b) ↔ IsZero (x.map (test · b)) := by
    intro x b
    rw [List.map_inj_left, IsZero, List.forall_mem_map]
    exact forall₂_congr fun a _ => h a b
  have hboth : ∀ x y : List ℝ, List.zipWith f x y = List.zipWith g x y ↔ IsZero (List.zipWith test x y) := by
    intro x
    induction x with
    | nil => exact fun y => iff_of_true rfl nofun
    | cons a x ih =>
        intro y
        cases y with
        | nil => exact iff_of_true rfl nofun
        | cons b y =>
            rw [List.zipWith_cons_cons, List.zipWith_cons_cons, List.zipWith_cons_cons, List.cons.injEq, ih, h]
            exact (@List.forall_mem_cons _ (· = 0) (test a b) (List.zipWith test x y)).symm
  unfold componentwise
  split
  · exact hleft _ _
  · exact hright _ _
  · exact hboth _ _

/-- A function of the components on the right is one of the operation. -/
theorem componentwise_map (f : ℝ → ℝ → ℝ) (u : ℝ → ℝ) (x y : List ℝ) :
    componentwise f x (y.map u) = componentwise (fun a b => f a (u b)) x y := by
  cases x with
  | nil =>
      cases y with
      | nil => rfl
      | cons b y => cases y <;> rfl
  | cons a x =>
      cases x with
      | nil => exact List.map_map
      | cons a' x =>
          cases y with
          | nil => rfl
          | cons b y =>
              cases y with
              | nil => rfl
              | cons b' y =>
                  show List.zipWith f (a :: a' :: x) ((b :: b' :: y).map u) = _
                  rw [List.zipWith_map_right]
                  rfl

/-- A scalar on the left. -/
theorem componentwise_scalar (f : ℝ → ℝ → ℝ) (a : ℝ) (y : List ℝ) : componentwise f [a] y = y.map (f a) := rfl

/-- A scalar on the right. -/
theorem componentwise_right (f : ℝ → ℝ → ℝ) (x : List ℝ) (b : ℝ) : componentwise f x [b] = x.map (f · b) := by
  cases x with
  | nil => rfl
  | cons a x =>
      cases x with
      | nil => rfl
      | cons a' x => rfl

end ShaderClippy.Hlsl
