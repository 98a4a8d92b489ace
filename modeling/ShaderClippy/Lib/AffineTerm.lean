/-
  ShaderClippy.Lib.AffineTerm

  **TERMS THAT ARE AFFINE IN ONE VARIABLE.**

  A term is built from one distinguished variable (`hole`), other variables and
  integers with `+`, `-` and `*`. Collecting like terms makes it a polynomial
  in the hole whose coefficients are polynomials in the other variables
  (`Term.poly`). The term has the value `s * t + u`, with a `u` that does not
  depend on the value `t` of the hole, exactly if the polynomial has the
  coefficient `s` at the first power and none at a higher one (`affine_int_iff`);
  over the integers this is necessary, in every commutative ring it is
  sufficient (`affine_of_coeff`).
-/
import Mathlib.Algebra.MvPolynomial.Funext
import Mathlib.Algebra.Polynomial.Roots

namespace AffineTerm

variable {ι R : Type} [CommRing R]

/-! ## §1. Terms and their values. -/

/-- Arithmetic terms with a hole. -/
inductive Term (ι : Type) where
  | hole
  | const (n : Int)
  | var (i : ι)
  | add (x y : Term ι)
  | sub (x y : Term ι)
  | mul (x y : Term ι)
  deriving Repr, DecidableEq

namespace Term

/-- The value of a term, for values of the variables and of the hole. -/
def eval (ρ : ι → R) (t : R) : Term ι → R
  | hole => t
  | const n => n
  | var i => ρ i
  | add x y => x.eval ρ t + y.eval ρ t
  | sub x y => x.eval ρ t - y.eval ρ t
  | mul x y => x.eval ρ t * y.eval ρ t

/-- The term with like terms collected. -/
noncomputable def poly : Term ι → Polynomial (MvPolynomial ι Int)
  | hole => Polynomial.X
  | const n => Polynomial.C (MvPolynomial.C n)
  | var i => Polynomial.C (MvPolynomial.X i)
  | add x y => x.poly + y.poly
  | sub x y => x.poly - y.poly
  | mul x y => x.poly * y.poly

/-- **Collecting terms keeps the value.** -/
theorem eval_eq (ρ : ι → R) (t : R) (e : Term ι) :
    e.eval ρ t = e.poly.eval₂ (MvPolynomial.eval₂Hom (Int.castRingHom R) ρ) t := by
  induction e with
  | hole => rw [eval, poly, Polynomial.eval₂_X]
  | const n =>
      rw [eval, poly, Polynomial.eval₂_C, MvPolynomial.coe_eval₂Hom, MvPolynomial.eval₂_C]
      rfl
  | var i => rw [eval, poly, Polynomial.eval₂_C, MvPolynomial.coe_eval₂Hom, MvPolynomial.eval₂_X]
  | add x y ihx ihy => rw [eval, poly, ihx, ihy, Polynomial.eval₂_add]
  | sub x y ihx ihy => rw [eval, poly, ihx, ihy, Polynomial.eval₂_sub]
  | mul x y ihx ihy => rw [eval, poly, ihx, ihy, Polynomial.eval₂_mul]

end Term

/-! ## §2. Affine terms. -/

/-- The value is `s` times that of the hole, and something without it. -/
def Affine (R : Type) [CommRing R] (e : Term ι) (s : Int) : Prop :=
  ∃ u : (ι → R) → R, ∀ ρ t, e.eval ρ t = s * t + u ρ

/-- `s` at the first power, and no higher one. -/
def HasSlope (p : Polynomial (MvPolynomial ι Int)) (s : Int) : Prop :=
  p.coeff 1 = MvPolynomial.C s ∧ ∀ k, 2 ≤ k → p.coeff k = 0

/-- The coefficients of an affine polynomial. -/
theorem coeff_affine {S : Type} [CommRing S] (a b : S) (k : Nat) :
    (Polynomial.C a * Polynomial.X + Polynomial.C b).coeff (k + 1) = if k = 0 then a else 0 := by
  rw [Polynomial.coeff_add, Polynomial.coeff_C_mul, Polynomial.coeff_C_succ, add_zero,
    Polynomial.coeff_X]
  by_cases hk : k = 0
  · rw [if_pos hk, if_pos (by omega), mul_one]
  · rw [if_neg hk, if_neg (by omega), mul_zero]

theorem eq_of_hasSlope {p : Polynomial (MvPolynomial ι Int)} {s : Int} (h : HasSlope p s) :
    p = Polynomial.C (MvPolynomial.C s) * Polynomial.X + Polynomial.C (p.coeff 0) := by
  ext1 k
  cases k with
  | zero => simp
  | succ k =>
      rw [coeff_affine]
      by_cases hk : k = 0
      · rw [if_pos hk, hk, h.1]
      · rw [if_neg hk, h.2 (k + 1) (by omega)]

/-- **The coefficients suffice**, in every commutative ring. -/
theorem affine_of_coeff {e : Term ι} {s : Int} (h : HasSlope e.poly s) : Affine R e s := by
  refine ⟨fun ρ => MvPolynomial.eval₂Hom (Int.castRingHom R) ρ (e.poly.coeff 0), fun ρ t => ?_⟩
  have hs : MvPolynomial.eval₂Hom (Int.castRingHom R) ρ (MvPolynomial.C s) = (s : R) := by
    rw [MvPolynomial.coe_eval₂Hom, MvPolynomial.eval₂_C]
    rfl
  rw [Term.eval_eq, eq_of_hasSlope h, Polynomial.eval₂_add, Polynomial.eval₂_mul, Polynomial.eval₂_C,
    Polynomial.eval₂_C, Polynomial.eval₂_X, hs, ← eq_of_hasSlope h]

/-- **Over the integers the coefficients decide.** -/
theorem affine_int_iff {e : Term ι} {s : Int} : Affine Int e s ↔ HasSlope e.poly s := by
  refine ⟨fun ⟨u, hu⟩ => ?_, affine_of_coeff⟩
  -- for fixed values of the variables both sides are polynomials in the hole
  have hfixed : ∀ ρ : ι → Int,
      e.poly.map (MvPolynomial.eval ρ) = Polynomial.C s * Polynomial.X + Polynomial.C (u ρ) := by
    intro ρ
    refine Polynomial.funext fun t => ?_
    have hvalue := hu ρ t
    rw [Term.eval_eq] at hvalue
    rw [Polynomial.eval_map, Polynomial.eval_add, Polynomial.eval_mul, Polynomial.eval_C,
      Polynomial.eval_C, Polynomial.eval_X]
    exact hvalue
  have hcoeff : ∀ (ρ : ι → Int) (k : Nat),
      MvPolynomial.eval ρ (e.poly.coeff (k + 1)) = if k = 0 then s else 0 := by
    intro ρ k
    rw [← coeff_affine s (u ρ), ← hfixed ρ, Polynomial.coeff_map]
  refine ⟨MvPolynomial.funext fun ρ => ?_, fun k hk => MvPolynomial.funext fun ρ => ?_⟩
  · rw [hcoeff ρ 0, if_pos rfl, MvPolynomial.eval_C]
  · obtain ⟨j, rfl⟩ : ∃ j, k = j + 1 := ⟨k - 1, by omega⟩
    rw [hcoeff ρ j, if_neg (by omega), map_zero]

end AffineTerm
