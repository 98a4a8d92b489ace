/-
  ShaderClippy.Lib.FirstSmallest

  **A SCAN THAT KEEPS THE SMALLEST SO FAR.**

  Among the elements of a list that satisfy `p`, a scan with a strict
  comparison ends on the first of those with the least key, when that key is
  below the bound the scan starts from (`foldl_step`).

  Where the first of the smallest of a concatenation is follows from where
  it is in the parts (`FirstSmallest.append`, `.prepend`).
-/
import Mathlib.Data.List.Basic

namespace ShaderClippy

variable {α : Type} {p : α → Prop} {key : α → Nat}

/-- `a`, at position `i`, is the first of the elements with the least key
among those that satisfy `p`. -/
structure FirstSmallest (p : α → Prop) (key : α → Nat) (l : List α) (i : Nat) (a : α) : Prop where
  get : l[i]? = some a
  sat : p a
  before : ∀ j b, j < i → l[j]? = some b → p b → key a < key b
  least : ∀ b ∈ l, p b → key a ≤ key b

namespace FirstSmallest

/-- An element that is smaller than all that come after it. -/
theorem head {a : α} {l : List α} (ha : p a) (hl : ∀ b ∈ l, p b → key a ≤ key b) :
    FirstSmallest p key (a :: l) 0 a where
  get := rfl
  sat := ha
  before j b hj := absurd hj (Nat.not_lt_zero j)
  least b hb hp := by
    rcases List.mem_cons.mp hb with rfl | hb
    · exact Nat.le_refl _
    · exact hl b hb hp

/-- What comes after may be as small. -/
theorem append {l l' : List α} {i : Nat} {a : α} (h : FirstSmallest p key l i a)
    (hl' : ∀ b ∈ l', p b → key a ≤ key b) : FirstSmallest p key (l ++ l') i a := by
  have hi : i < l.length := (List.getElem?_eq_some_iff.mp h.get).1
  refine ⟨?_, h.sat, fun j b hj hb hp => ?_, fun b hb hp => ?_⟩
  · rw [List.getElem?_append_left hi]
    exact h.get
  · rw [List.getElem?_append_left (by omega)] at hb
    exact h.before j b hj hb hp
  · rcases List.mem_append.mp hb with hb | hb
    · exact h.least b hb hp
    · exact hl' b hb hp

/-- What comes before is larger. -/
theorem prepend {l l' : List α} {i : Nat} {a : α} (h : FirstSmallest p key l i a)
    (hl' : ∀ b ∈ l', p b → key a < key b) :
    FirstSmallest p key (l' ++ l) (l'.length + i) a := by
  refine ⟨?_, h.sat, fun j b hj hb hp => ?_, fun b hb hp => ?_⟩
  · rw [List.getElem?_append_right (by omega), Nat.add_sub_cancel_left]
    exact h.get
  · by_cases hlt : j < l'.length
    · rw [List.getElem?_append_left hlt] at hb
      exact hl' b (List.mem_of_getElem? hb) hp
    · rw [List.getElem?_append_right (by omega)] at hb
      exact h.before (j - l'.length) b (by omega) hb hp
  · rcases List.mem_append.mp hb with hb | hb
    · exact Nat.le_of_lt (hl' b hb hp)
    · exact h.least b hb hp

/-- One larger element before. -/
theorem cons {l : List α} {i : Nat} {a c : α} (h : FirstSmallest p key l i a)
    (hc : p c → key a < key c) : FirstSmallest p key (c :: l) (i + 1) a := by
  have hbefore : ∀ b ∈ [c], p b → key a < key b := by
    intro b hb hp
    rw [List.mem_singleton.mp hb] at hp ⊢
    exact hc hp
  have hall := h.prepend hbefore
  rw [List.length_singleton, Nat.add_comm] at hall
  exact hall

/-- There is one such element, at one position. -/
theorem unique {l : List α} {i j : Nat} {a b : α} (ha : FirstSmallest p key l i a)
    (hb : FirstSmallest p key l j b) : i = j ∧ a = b := by
  have hkeyA := ha.least b (List.mem_of_getElem? hb.get) hb.sat
  have hkeyB := hb.least a (List.mem_of_getElem? ha.get) ha.sat
  have hij : i = j := by
    by_contra hne
    rcases Nat.lt_or_gt_of_ne hne with hlt | hlt
    · have hless := hb.before i a hlt ha.get ha.sat
      omega
    · have hless := ha.before j b hlt hb.get hb.sat
      omega
  refine ⟨hij, ?_⟩
  have hget := ha.get
  rw [hij, hb.get] at hget
  exact (Option.some.inj hget).symm

/-- Where an element satisfies `p`, there is a first of the smallest. -/
theorem exists_of_mem [DecidablePred p] {l : List α} (h : ∃ a ∈ l, p a) :
    ∃ i a, FirstSmallest p key l i a := by
  induction l with
  | nil => exact absurd h nofun
  | cons c l ih =>
      by_cases htail : ∃ a ∈ l, p a
      · obtain ⟨i, a, ha⟩ := ih htail
        by_cases hc : p c ∧ key c ≤ key a
        · exact ⟨0, c, head hc.1 fun b hb hp => Nat.le_trans hc.2 (ha.least b hb hp)⟩
        · refine ⟨i + 1, a, ha.cons fun hp => ?_⟩
          by_contra hle
          exact hc ⟨hp, Nat.le_of_not_lt hle⟩
      · obtain ⟨a, hmem, hp⟩ := h
        rcases List.mem_cons.mp hmem with rfl | hmem
        · exact ⟨0, a, head hp fun b hb hb' => absurd ⟨b, hb, hb'⟩ htail⟩
        · exact absurd ⟨a, hmem, hp⟩ htail

end FirstSmallest

/-! ## The scan. -/

variable (p key) [DecidablePred p]

/-- One turn: a smaller element replaces the best so far. -/
def scanStep (best : Option α × Nat) (a : α) : Option α × Nat :=
  if p a ∧ key a < best.2 then (some a, key a) else best

variable {p key}

/-- While only larger elements are met, the bound stays above. -/
theorem foldl_scanStep_above {k : Nat} : ∀ {l : List α} {best : Option α × Nat}, k < best.2 →
    (∀ b ∈ l, p b → k < key b) → k < (l.foldl (scanStep p key) best).2 := by
  intro l
  induction l with
  | nil => intro best h _; exact h
  | cons b l ih =>
      intro best h hl
      refine ih ?_ fun c hc => hl c (List.mem_cons_of_mem _ hc)
      unfold scanStep
      split
      next hb => exact hl b (List.mem_cons_self ..) hb.1
      next => exact h

/-- Once the smallest is met, it stays. -/
theorem foldl_scanStep_stay : ∀ {l : List α} {best : Option α × Nat},
    (∀ b ∈ l, p b → best.2 ≤ key b) → l.foldl (scanStep p key) best = best := by
  intro l
  induction l with
  | nil => intro best _; rfl
  | cons b l ih =>
      intro best hl
      have hb : scanStep p key best b = best := by
        unfold scanStep
        refine if_neg fun hb => ?_
        have := hl b (List.mem_cons_self ..) hb.1
        omega
      rw [List.foldl_cons, hb]
      exact ih fun c hc => hl c (List.mem_cons_of_mem _ hc)

/-- **The scan ends on the first of the smallest.** -/
theorem foldl_scanStep {l : List α} {i : Nat} {a : α} {bound : Nat}
    (h : FirstSmallest p key l i a) (hbound : key a < bound) :
    (l.foldl (scanStep p key) (none, bound)).1 = some a := by
  obtain ⟨hi, hget⟩ := List.getElem?_eq_some_iff.mp h.get
  have hsplit : l = l.take i ++ a :: l.drop (i + 1) := by
    rw [← hget, ← List.drop_eq_getElem_cons hi, List.take_append_drop]
  have habove : key a < ((l.take i).foldl (scanStep p key) (none, bound)).2 := by
    refine foldl_scanStep_above hbound fun b hb hp => ?_
    obtain ⟨j, hj, hjb⟩ := List.mem_take_iff_getElem.mp hb
    exact h.before j b (by omega) (List.getElem?_eq_some_iff.mpr ⟨by omega, hjb⟩) hp
  rw [hsplit, List.foldl_append, List.foldl_cons]
  have hmeet : scanStep p key ((l.take i).foldl (scanStep p key) (none, bound)) a
      = (some a, key a) := if_pos ⟨h.sat, habove⟩
  rw [hmeet, foldl_scanStep_stay fun b hb hp => ?_]
  exact h.least b (List.mem_of_mem_drop hb) hp

/-- An element at the bound is never taken. -/
theorem foldl_scanStep_none {l : List α} {bound : Nat} (h : ∀ b ∈ l, p b → bound ≤ key b) :
    (l.foldl (scanStep p key) (none, bound)).1 = none := by
  rw [foldl_scanStep_stay h]

end ShaderClippy
