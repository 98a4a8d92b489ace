/-
  ShaderClippy.Lib.DigitRegister

  **DIGITS READ INTO A REGISTER OF FIXED WIDTH.**

  A loop reads digits from the left and keeps `n * b + d`. `value` is the
  number the digits stand for; a register of `m` values keeps it modulo `m`
  (`foldl_wrap`).

  A loop that takes no more digits once its register holds `cap` or more
  stops at the first prefix whose number, modulo `m`, is that large. So it
  reaches the cap exactly if there is such a prefix (`le_capped_iff`), and it
  is a saturating reader exactly of the rows below the cap and of these
  (`capped_saturates_iff`).
-/
import Mathlib.Data.List.Infix
import Mathlib.Order.Lattice

namespace DigitRegister

variable {b m cap : Nat}

/-! ## §1. The value of a row of digits. -/

/-- The number that digits, most significant first, stand for. -/
def value (b : Nat) (ds : List Nat) : Nat := ds.foldl (fun n d => n * b + d) 0

@[simp] theorem value_concat (b : Nat) (ds : List Nat) (d : Nat) :
    value b (ds ++ [d]) = value b ds * b + d := by
  unfold value
  rw [List.foldl_concat]

/-- More digits make no smaller number. -/
theorem value_le_of_prefix (hb : 0 < b) {p ds : List Nat} (h : p <+: ds) :
    value b p ≤ value b ds := by
  obtain ⟨rest, rfl⟩ := h
  induction rest using List.reverseRecOn with
  | nil => rw [List.append_nil]
  | append_singleton rest d ih =>
      rw [← List.append_assoc, value_concat]
      have hmul : value b (p ++ rest) ≤ value b (p ++ rest) * b := Nat.le_mul_of_pos_right _ hb
      omega

/-! ## §2. A register that wraps around. -/

/-- The residue goes on from the residue. -/
theorem value_concat_mod (b m : Nat) (ds : List Nat) (d : Nat) :
    value b (ds ++ [d]) % m = (value b ds % m * b + d) % m := by
  rw [value_concat, Nat.add_mod, ← Nat.mod_mul_mod, ← Nat.add_mod]

/-- The register holds the number modulo its size. -/
theorem foldl_wrap (b m : Nat) (ds : List Nat) :
    ds.foldl (fun n d => (n * b + d) % m) 0 = value b ds % m := by
  induction ds using List.reverseRecOn with
  | nil => exact (Nat.zero_mod m).symm
  | append_singleton ds d ih => rw [List.foldl_concat, ih, value_concat_mod]

/-! ## §3. A register with a cap. -/

/-- One digit: ignored once the register holds `cap` or more. -/
def capStep (b m cap n d : Nat) : Nat := if n < cap then (n * b + d) % m else n

/-- The register behind all digits. -/
def capped (b m cap : Nat) (ds : List Nat) : Nat := ds.foldl (capStep b m cap) 0

theorem capped_concat (ds : List Nat) (d : Nat) :
    capped b m cap (ds ++ [d]) = capStep b m cap (capped b m cap ds) d := by
  unfold capped
  rw [List.foldl_concat]

/-- As long as the cap is not reached, the register holds the residue. -/
theorem capped_eq_mod {ds : List Nat} (h : ∀ p, p <+: ds → p ≠ ds → value b p % m < cap) :
    capped b m cap ds = value b ds % m := by
  induction ds using List.reverseRecOn with
  | nil => exact (Nat.zero_mod m).symm
  | append_singleton ds d ih =>
      have hshorter : ∀ p, p <+: ds → p ≠ ds ++ [d] := by
        intro p hp heq
        have hlen := hp.length_le
        rw [heq, List.length_append, List.length_singleton] at hlen
        omega
      have hds : capped b m cap ds = value b ds % m :=
        ih fun p hp _ => h p (hp.trans (List.prefix_append ds [d])) (hshorter p hp)
      have hbelow : value b ds % m < cap :=
        h ds (List.prefix_append ds [d]) (hshorter ds (List.prefix_refl ds))
      rw [capped_concat, capStep, hds, if_pos hbelow, value_concat_mod]

/-- A register at the cap keeps what it holds. -/
theorem capped_append {p : List Nat} (h : cap ≤ capped b m cap p) (rest : List Nat) :
    capped b m cap (p ++ rest) = capped b m cap p := by
  induction rest using List.reverseRecOn with
  | nil => rw [List.append_nil]
  | append_singleton rest d ih =>
      rw [← List.append_assoc, capped_concat, ih, capStep, if_neg (Nat.not_lt.mpr h)]

/-- The cap is reached by the end of a prefix with so large a residue. -/
theorem le_capped_of_prefix {ds : List Nat} :
    ∀ {n : Nat} {p : List Nat}, p.length = n → p <+: ds → cap ≤ value b p % m →
      cap ≤ capped b m cap ds := by
  intro n
  -- the shortest such prefix is where the register stops
  induction n using Nat.strong_induction_on with
  | _ n ih =>
      intro p hlen hp hcap
      by_cases hearlier : ∃ q, q <+: p ∧ q ≠ p ∧ cap ≤ value b q % m
      · obtain ⟨q, hq, hne, hreach⟩ := hearlier
        have hlt : q.length < n := by
          rw [← hlen]
          exact lt_of_le_of_ne hq.length_le fun heq => hne (hq.eq_of_length heq)
        exact ih q.length hlt rfl (hq.trans hp) hreach
      · push Not at hearlier
        have hstop : capped b m cap p = value b p % m := capped_eq_mod hearlier
        obtain ⟨rest, rfl⟩ := hp
        rw [capped_append (by rw [hstop]; exact hcap), hstop]
        exact hcap

/-- **The cap is reached exactly if a prefix has so large a residue.** -/
theorem le_capped_iff {ds : List Nat} :
    cap ≤ capped b m cap ds ↔ ∃ p, p <+: ds ∧ cap ≤ value b p % m := by
  constructor
  · intro h
    by_contra hnone
    push Not at hnone
    rw [capped_eq_mod fun p hp _ => hnone p hp] at h
    exact absurd h (Nat.not_le.mpr (hnone ds (List.prefix_refl ds)))
  · intro ⟨p, hp, hcap⟩
    exact le_capped_of_prefix rfl hp hcap

/-- **The reader saturates exactly** if the number is below the cap, or some
prefix has a residue that is not. -/
theorem capped_saturates_iff (hb : 0 < b) (hcap : cap ≤ m) {ds : List Nat} :
    min (value b ds) cap ≤ capped b m cap ds
      ↔ value b ds < cap ∨ ∃ p, p <+: ds ∧ cap ≤ value b p % m := by
  by_cases hlt : value b ds < cap
  · have hexact : capped b m cap ds = value b ds := by
      rw [capped_eq_mod, Nat.mod_eq_of_lt (Nat.lt_of_lt_of_le hlt hcap)]
      intro p hp _
      have hle := value_le_of_prefix hb hp
      rw [Nat.mod_eq_of_lt (by omega)]
      omega
    exact iff_of_true (by rw [hexact]; exact Nat.min_le_left _ _) (Or.inl hlt)
  · rw [Nat.min_eq_right (Nat.not_lt.mp hlt), le_capped_iff]
    exact (or_iff_right hlt).symm

end DigitRegister
