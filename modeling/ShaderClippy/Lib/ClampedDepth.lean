/-
  ShaderClippy.Lib.ClampedDepth

  **A COUNTER OF BRACKETS THAT DOES NOT GO BELOW ZERO.**

  It counts opening brackets up and closing ones down, and stays at zero when
  there is nothing to close. So it does not say how deep the brackets of a word
  are, but by how much opening brackets outnumber closing ones from some letter
  on (`lt_depthAfter_iff`).
-/
import Mathlib.Data.List.Induction
import ShaderClippy.Lib.Brackets

namespace ShaderClippy.Brackets

variable {α : Type} (kind : α → Kind)

/-- One letter. -/
def step (depth : Nat) (a : α) : Nat :=
  match kind a with
  | .opening => depth + 1
  | .closing => depth - 1
  | .other => depth

/-- The counter behind a word. -/
def depthFrom (depth : Nat) (s : List α) : Nat := s.foldl (step kind) depth

/-- From some letter on, more brackets are opened than closed. -/
def Open (s : List α) : Prop := ∃ v, v <:+ s ∧ closings kind v < openings kind v

variable {kind}

theorem depthFrom_append (depth : Nat) (s t : List α) :
    depthFrom kind depth (s ++ t) = depthFrom kind (depthFrom kind depth s) t := List.foldl_append

/-- Letters that are no brackets. -/
theorem depthFrom_other {s : List α} (h : ∀ a ∈ s, kind a = .other) (depth : Nat) :
    depthFrom kind depth s = depth := by
  induction s with
  | nil => rfl
  | cons a s ih =>
      have ha : step kind depth a = depth := by rw [step, h a List.mem_cons_self]
      show depthFrom kind (step kind depth a) s = depth
      rw [ha]
      exact ih fun b hb => h b (List.mem_cons_of_mem a hb)

/-- **What the counter says**, with the least suffix that shows it. -/
theorem lt_depthFrom_iff {s : List α} {n : Nat} :
    n < depthFrom kind 0 s ↔ ∃ v, v <:+ s ∧ closings kind v + n < openings kind v := by
  induction s using List.reverseRecOn generalizing n with
  | nil =>
      constructor
      · exact fun h => absurd h (Nat.not_lt_zero n)
      · rintro ⟨v, hv, h⟩
        rw [List.suffix_nil.mp hv] at h
        exact absurd h (Nat.not_lt_zero _)
  | append_singleton s a ih =>
      -- a suffix is empty or ends with the last letter
      have hsuffix : (∃ v, v <:+ s ++ [a] ∧ closings kind v + n < openings kind v)
          ↔ ∃ v, v <:+ s ∧ closings kind (v ++ [a]) + n < openings kind (v ++ [a]) := by
        constructor
        · rintro ⟨v, hv, h⟩
          obtain rfl | ⟨w, rfl, hw⟩ := List.suffix_concat_iff.mp hv
          · exact absurd h (Nat.not_lt_zero _)
          · exact ⟨w, hw, h⟩
        · rintro ⟨v, ⟨u, rfl⟩, h⟩
          exact ⟨v ++ [a], ⟨u, by rw [List.append_assoc]⟩, h⟩
      have hcount : ∀ v : List α, openings kind (v ++ [a]) = openings kind v + (if kind a = .opening then 1 else 0)
          ∧ closings kind (v ++ [a]) = closings kind v + (if kind a = .closing then 1 else 0) := by
        intro v
        simp [openings, closings, List.countP_append, List.countP_singleton]
      rw [hsuffix, depthFrom_append]
      show n < step kind (depthFrom kind 0 s) a ↔ _
      simp only [hcount]
      unfold step
      cases ha : kind a with
      | opening =>
          simp only [if_true, reduceCtorEq, if_false, Nat.add_zero]
          cases n with
          | zero => exact iff_of_true (Nat.succ_pos _) ⟨[], List.nil_suffix, Nat.one_pos⟩
          | succ n =>
              rw [Nat.add_lt_add_iff_right, ih]
              refine exists_congr fun v => and_congr_right fun _ => ?_
              omega
      | closing =>
          simp only [if_true, reduceCtorEq, if_false, Nat.add_zero]
          have hpred : n < depthFrom kind 0 s - 1 ↔ n + 1 < depthFrom kind 0 s := by omega
          rw [hpred, ih]
          refine exists_congr fun v => and_congr_right fun _ => ?_
          omega
      | other =>
          simp only [reduceCtorEq, if_false, Nat.add_zero]
          exact ih

/-- **The counter is above zero exactly if the word is open.** -/
theorem open_iff {s : List α} : Open kind s ↔ 0 < depthFrom kind 0 s := by
  rw [lt_depthFrom_iff]
  rfl

end ShaderClippy.Brackets
