/-
  ShaderClippy.Lib.Trim

  **TRIMMED LISTS.**

  `trim p` takes elements that `p` holds of off both ends of a list. It
  returns `t` exactly if the list is `t` with such elements around it and `t`
  neither begins nor ends with one (`padded_trim`, `trim_padded`).
-/
import Mathlib.Data.List.DropRight

namespace Trim

variable {α : Type} {p : α → Bool}

def trim (p : α → Bool) (s : List α) : List α := (s.dropWhile p).rdropWhile p

/-- All of the list is blank. -/
def Blank (p : α → Bool) (s : List α) : Prop := ∀ c ∈ s, p c = true

/-- The list begins and ends with something. -/
structure Trimmed (p : α → Bool) (s : List α) : Prop where
  head : ∀ c, s.head? = some c → p c = false
  last : ∀ c, s.getLast? = some c → p c = false

/-- `t` is the list without the blanks around it. -/
structure Padded (p : α → Bool) (s t : List α) : Prop where
  trimmed : Trimmed p t
  around : ∃ a b, Blank p a ∧ Blank p b ∧ s = a ++ t ++ b

theorem dropWhile_head {s : List α} (h : ∀ c, s.head? = some c → p c = false) :
    s.dropWhile p = s := by
  cases s with
  | nil => rfl
  | cons c cs => rw [List.dropWhile_cons_of_neg (by rw [h c rfl]; nofun)]

theorem rdropWhile_last {s : List α} (h : ∀ c, s.getLast? = some c → p c = false) :
    s.rdropWhile p = s := by
  rw [List.rdropWhile, dropWhile_head (by rw [List.head?_reverse]; exact h), List.reverse_reverse]

theorem rdropWhile_append_blank {s b : List α} (hb : Blank p b) :
    (s ++ b).rdropWhile p = s.rdropWhile p := by
  have hrev : ∀ c ∈ b.reverse, p c = true := fun c hc => hb c (List.mem_reverse.mp hc)
  rw [List.rdropWhile, List.reverse_append, List.dropWhile_append_of_pos hrev, List.rdropWhile]

theorem trim_padded {s t : List α} (h : Padded p s t) : trim p s = t := by
  obtain ⟨a, b, ha, hb, rfl⟩ := h.around
  have hfront : (a ++ t ++ b).dropWhile p = (t ++ b).dropWhile p := by
    rw [List.append_assoc, List.dropWhile_append_of_pos ha]
  rw [trim, hfront]
  cases t with
  | nil =>
      -- nothing but blanks
      have hnone : ([] ++ b).dropWhile p = [] := by
        rw [List.nil_append, List.dropWhile_eq_nil_iff]
        exact hb
      rw [hnone, List.rdropWhile_nil]
  | cons c cs =>
      have hkeep : (c :: cs ++ b).dropWhile p = c :: cs ++ b :=
        dropWhile_head fun d hd => h.trimmed.head d (by rw [List.cons_append] at hd; exact hd)
      rw [hkeep, rdropWhile_append_blank hb, rdropWhile_last h.trimmed.last]

theorem padded_trim (s : List α) : Padded p s (trim p s) := by
  have hsplit : s.dropWhile p = trim p s ++ (s.dropWhile p).rtakeWhile p :=
    (List.rdropWhile_append_rtakeWhile ..).symm
  refine ⟨⟨fun c hc => ?_, fun c hc => ?_⟩, s.takeWhile p, (s.dropWhile p).rtakeWhile p,
    fun c hc => List.mem_takeWhile_imp hc, fun c hc => List.mem_rtakeWhile_imp hc, ?_⟩
  · -- the head of what is kept is the head of what the first loop leaves
    have hhead : (s.dropWhile p).head? = some c := by
      rw [hsplit, List.head?_append, hc]
      rfl
    have hnot := List.head?_dropWhile_not p s
    rw [hhead] at hnot
    simpa using hnot
  · have hne : trim p s ≠ [] := by
      intro hnil
      rw [hnil] at hc
      cases hc
    rw [List.getLast?_eq_some_getLast hne] at hc
    have hnot := List.rdropWhile_last_not p _ hne
    rw [← Option.some.inj hc]
    exact Bool.eq_false_iff.mpr hnot
  · rw [List.append_assoc, ← hsplit, List.takeWhile_append_dropWhile]

/-! What is around a list does not matter if it is trimmed away. -/

theorem trim_append_blank {a s b : List α} (ha : Blank p a) (hb : Blank p b) :
    trim p (a ++ s ++ b) = trim p s := by
  obtain ⟨htrimmed, a', b', ha', hb', hs⟩ := padded_trim (p := p) s
  refine trim_padded ⟨htrimmed, a ++ a', b' ++ b, ?_, ?_, ?_⟩
  · exact fun c hc => (List.mem_append.mp hc).elim (ha c) (ha' c)
  · exact fun c hc => (List.mem_append.mp hc).elim (hb' c) (hb c)
  · conv_lhs => rw [hs]
    simp only [List.append_assoc]

theorem trim_dropWhile (s : List α) : trim p (s.dropWhile p) = trim p s := by
  have h := trim_append_blank (s := s.dropWhile p) (b := [])
    (fun c hc => List.mem_takeWhile_imp (p := p) (l := s) hc) nofun
  rw [List.append_nil, List.takeWhile_append_dropWhile] at h
  exact h.symm

theorem trim_rdropWhile (s : List α) : trim p (s.rdropWhile p) = trim p s := by
  have h := trim_append_blank (a := []) (s := s.rdropWhile p) nofun
    (fun c hc => List.mem_rtakeWhile_imp (p := p) (l := s) hc)
  rw [List.nil_append, List.rdropWhile_append_rtakeWhile] at h
  exact h.symm

theorem trim_trim (s : List α) : trim p (trim p s) = trim p s :=
  trim_padded ⟨(padded_trim s).trimmed, [], [], nofun, nofun, by simp⟩

theorem dropWhile_append_stop {c : α} (hc : p c = false) (a b : List α) :
    (a ++ c :: b).dropWhile p = a.dropWhile p ++ c :: b := by
  induction a with
  | nil => exact List.dropWhile_cons_of_neg (by rw [hc]; nofun)
  | cons d a ih =>
      rw [List.cons_append]
      by_cases hd : p d = true
      · rw [List.dropWhile_cons_of_pos hd, List.dropWhile_cons_of_pos hd, ih]
      · rw [List.dropWhile_cons_of_neg hd, List.dropWhile_cons_of_neg hd, List.cons_append]

theorem rdropWhile_append_stop {c : α} (hc : p c = false) (a b : List α) :
    (a ++ c :: b).rdropWhile p = a ++ c :: b.rdropWhile p := by
  have hrev : (a ++ c :: b).reverse = b.reverse ++ c :: a.reverse := by simp
  rw [List.rdropWhile, hrev, dropWhile_append_stop hc, List.reverse_append, List.reverse_cons,
    List.reverse_reverse, List.append_assoc]
  rfl

/-- Where something stays, both sides of it are trimmed apart. -/
theorem trim_append_stop {c : α} (hc : p c = false) (a b : List α) :
    trim p (a ++ c :: b) = a.dropWhile p ++ c :: b.rdropWhile p := by
  rw [trim, dropWhile_append_stop hc, rdropWhile_append_stop hc]

end Trim
