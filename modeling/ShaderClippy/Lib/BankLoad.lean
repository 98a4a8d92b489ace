/-
  ShaderClippy.Lib.BankLoad

  **LANES THAT MEET IN ONE BANK.**

  `n` lanes address a memory of `n` banks with a constant stride `s`: lane `i`
  comes to bank `i * s % n`. The lanes that come to bank `0` are the multiples
  of `n / gcd s n`, and no bank sees more of them: shifting the lanes of a bank
  by one of them moves them to bank `0`. So the heaviest load is `gcd s n`
  (`maxLoad_eq_gcd`).
-/
import Mathlib

namespace BankLoad

variable {n s : Nat}

/-- The lanes that come to bank `r`. -/
def lanes (n s r : Nat) : Finset Nat := (Finset.range n).filter fun i => i * s % n = r

/-- The number of lanes that come to bank `r`. -/
def bankLoad (n s r : Nat) : Nat := (lanes n s r).card

/-- The largest number of lanes that come to one bank. -/
def maxLoad (n s : Nat) : Nat := (Finset.range n).sup (bankLoad n s)

theorem mem_lanes {r i : Nat} : i ∈ lanes n s r ↔ i < n ∧ i * s % n = r := by
  rw [lanes, Finset.mem_filter, Finset.mem_range]

/-- The lanes of bank `0` are multiples of `n / gcd s n`. -/
theorem mul_mod_eq_zero_iff (hn : 0 < n) (i : Nat) :
    i * s % n = 0 ↔ n / Nat.gcd s n ∣ i := by
  have hg : 0 < Nat.gcd s n := Nat.gcd_pos_of_pos_right s hn
  have hcoprime : Nat.Coprime (n / Nat.gcd s n) (s / Nat.gcd s n) :=
    (Nat.coprime_div_gcd_div_gcd hg).symm
  have hs : i * s = i * (s / Nat.gcd s n) * Nat.gcd s n := by
    rw [Nat.mul_assoc, Nat.div_mul_cancel (Nat.gcd_dvd_left s n)]
  have hdvd : n ∣ i * s ↔ n / Nat.gcd s n * Nat.gcd s n ∣ i * (s / Nat.gcd s n) * Nat.gcd s n := by
    rw [Nat.div_mul_cancel (Nat.gcd_dvd_right s n), ← hs]
  rw [← Nat.dvd_iff_mod_eq_zero, hdvd, Nat.mul_dvd_mul_iff_right hg, hcoprime.dvd_mul_right]

/-- **The load of bank `0`.** -/
theorem bankLoad_zero (hn : 0 < n) : bankLoad n s 0 = Nat.gcd s n := by
  have hg : 0 < Nat.gcd s n := Nat.gcd_pos_of_pos_right s hn
  have hd : 0 < n / Nat.gcd s n := Nat.div_pos (Nat.gcd_le_right s hn) hg
  have hcut : n / Nat.gcd s n * Nat.gcd s n = n := Nat.div_mul_cancel (Nat.gcd_dvd_right s n)
  have himage : lanes n s 0 = (Finset.range (Nat.gcd s n)).image (n / Nat.gcd s n * ·) := by
    ext i
    rw [mem_lanes, mul_mod_eq_zero_iff hn, Finset.mem_image]
    constructor
    · intro ⟨hlt, k, hk⟩
      refine ⟨k, Finset.mem_range.mpr (Nat.lt_of_not_le fun hle => ?_), hk.symm⟩
      have hbig := Nat.mul_le_mul_left (n / Nat.gcd s n) hle
      omega
    · intro ⟨k, hk, hi⟩
      refine ⟨?_, k, hi.symm⟩
      have hsmall := Nat.mul_lt_mul_of_pos_left (Finset.mem_range.mp hk) hd
      omega
  rw [bankLoad, himage, Finset.card_image_of_injective _ fun a b => Nat.eq_of_mul_eq_mul_left hd,
    Finset.card_range]

/-- **No bank sees more lanes than bank `0`.** -/
theorem bankLoad_le (hn : 0 < n) (r : Nat) : bankLoad n s r ≤ bankLoad n s 0 := by
  rcases (lanes n s r).eq_empty_or_nonempty with hempty | ⟨first, hfirst⟩
  · rw [bankLoad, hempty]
    exact Nat.zero_le _
  · obtain ⟨hlt, hbank⟩ := mem_lanes.mp hfirst
    -- shift the lanes of the bank so that its first one becomes lane 0
    refine Finset.card_le_card_of_injOn (fun i => (i + (n - first)) % n) ?_ ?_
    · intro i hi
      obtain ⟨_, hi⟩ := mem_lanes.mp hi
      refine mem_lanes.mpr ⟨Nat.mod_lt _ hn, ?_⟩
      have hsum : (i + (n - first)) * s + first * s = i * s + n * s := by
        rw [← Nat.add_mul, ← Nat.add_mul]
        congr 1
        omega
      have hsame : (i + (n - first)) * s + first * s ≡ 0 + first * s [MOD n] := by
        rw [hsum, Nat.ModEq, Nat.zero_add, hbank, Nat.add_mul_mod_self_left, hi]
      have hzero : (i + (n - first)) * s % n = 0 % n := hsame.add_right_cancel'
      rw [Nat.mod_mul_mod, hzero, Nat.zero_mod]
    · intro i hi j hj hij
      have hshift : i + (n - first) ≡ j + (n - first) [MOD n] := hij
      exact (hshift.add_right_cancel').eq_of_lt_of_lt (mem_lanes.mp hi).1 (mem_lanes.mp hj).1

/-- **The heaviest load is the greatest common divisor of stride and banks.** -/
theorem maxLoad_eq_gcd (hn : 0 < n) : maxLoad n s = Nat.gcd s n := by
  rw [← bankLoad_zero hn]
  refine le_antisymm (Finset.sup_le fun r _ => bankLoad_le hn r) ?_
  exact Finset.le_sup (f := bankLoad n s) (Finset.mem_range.mpr hn)

end BankLoad
