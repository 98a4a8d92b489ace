/-
  ShaderClippy.Lib.Overlap

  **WHEN RANGES OF A LINEAR ORDER OVERLAP.**

  Ranges are half-open; an empty one stands for its point, and meets a range
  whose closed interval it lies in. Only comparisons are made, so a strictly
  monotone map keeps overlap (`Overlaps.map_iff`).
-/
import Mathlib.Order.Monotone.Basic
import Mathlib.Order.Lattice

variable {α β : Type} [LinearOrder α] [LinearOrder β]

/-- The ranges from `aLo` to `aHi` and from `bLo` to `bHi` overlap. -/
def Overlaps (aLo aHi bLo bHi : α) : Prop :=
  if aLo < aHi then
    if bLo < bHi then aLo < bHi ∧ bLo < aHi else aLo ≤ bLo ∧ bLo ≤ aHi
  else if bLo < bHi then bLo ≤ aLo ∧ aLo ≤ bHi
  else aLo = bLo

instance (aLo aHi bLo bHi : α) : Decidable (Overlaps aLo aHi bLo bHi) :=
  inferInstanceAs (Decidable (if aLo < aHi then _ else _))

/-- **A strictly monotone map keeps overlap.** -/
theorem Overlaps.map_iff {f : α → β} {s : Set α} (hf : StrictMonoOn f s) {aLo aHi bLo bHi : α}
    (haLo : aLo ∈ s) (haHi : aHi ∈ s) (hbLo : bLo ∈ s) (hbHi : bHi ∈ s) :
    Overlaps (f aLo) (f aHi) (f bLo) (f bHi) ↔ Overlaps aLo aHi bLo bHi := by
  have hpoint : f aLo = f bLo ↔ aLo = bLo := ⟨fun h => hf.injOn haLo hbLo h, congrArg f⟩
  unfold Overlaps
  simp only [hf.lt_iff_lt haLo haHi, hf.lt_iff_lt hbLo hbHi, hf.lt_iff_lt haLo hbHi,
    hf.lt_iff_lt hbLo haHi, hf.le_iff_le haLo hbLo, hf.le_iff_le hbLo haHi, hf.le_iff_le hbLo haLo,
    hf.le_iff_le haLo hbHi, hpoint]

/-- A point meets the ranges whose closed interval it lies in. -/
theorem overlaps_point {aLo aHi x : α} (ha : aLo ≤ aHi) :
    Overlaps aLo aHi x x ↔ aLo ≤ x ∧ x ≤ aHi := by
  unfold Overlaps
  rw [if_neg (lt_irrefl x), if_neg (lt_irrefl x)]
  split
  case isTrue => exact Iff.rfl
  case isFalse hempty =>
    have heq : aLo = aHi := le_antisymm ha (not_lt.mp hempty)
    rw [← heq]
    exact ⟨fun h => ⟨le_of_eq h, le_of_eq h.symm⟩, fun h => le_antisymm h.1 h.2⟩
