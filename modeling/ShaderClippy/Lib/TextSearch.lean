/-
  ShaderClippy.Lib.TextSearch

  **WHERE A TEXT OCCURS IN ANOTHER.**

  `cut` takes a text apart at the first place where a needle stands. A needle
  without line breaks stands in a text exactly if it stands in one of its lines
  (`infix_iff_line`).
-/
import ShaderClippy.Lib.Lines

namespace TextSearch

variable {α : Type} [DecidableEq α]

open ShaderClippy.Lines (split join split_ne_nil join_split join_append join_cons split_append_first)

/-- What is before and behind the first place where the needle stands. -/
def cut (needle : List α) : List α → Option (List α × List α)
  | [] => if needle = [] then some ([], []) else none
  | c :: cs =>
      if needle.isPrefixOf (c :: cs) then some ([], (c :: cs).drop needle.length)
      else (cut needle cs).map fun (before, behind) => (c :: before, behind)

theorem cut_some {needle t before behind : List α} (h : cut needle t = some (before, behind)) :
    t = before ++ needle ++ behind := by
  induction t generalizing before with
  | nil =>
      unfold cut at h
      split at h
      next hneedle =>
        cases h
        rw [hneedle]
        rfl
      next => cases h
  | cons c cs ih =>
      unfold cut at h
      split at h
      next hstands =>
        cases h
        obtain ⟨rest, hrest⟩ := List.isPrefixOf_iff_prefix.mp hstands
        rw [← hrest, List.drop_left]
        rfl
      next =>
        obtain ⟨⟨before', behind'⟩, hcut, heq⟩ := Option.map_eq_some_iff.mp h
        cases heq
        rw [ih hcut]
        rfl

theorem cut_eq_none_iff {needle t : List α} : cut needle t = none ↔ ¬ needle <:+: t := by
  induction t with
  | nil =>
      unfold cut
      rw [List.infix_nil]
      split <;> simp_all
  | cons c cs ih =>
      unfold cut
      rw [List.infix_cons_iff, ← List.isPrefixOf_iff_prefix]
      split
      next hstands => simp [hstands]
      next hnot => rw [Option.map_eq_none_iff, ih]; simp [hnot]

section Needle

variable {needle : List α} {nl : α}

/-- A text that goes on in the line of another. -/
theorem split_append_unbroken {s t l : List α} {ls : List (List α)} (hs : nl ∉ s)
    (h : split nl t = l :: ls) : split nl (s ++ t) = (s ++ l) :: ls := by
  induction s with
  | nil => exact h
  | cons c cs ih =>
      rw [List.mem_cons, not_or] at hs
      rw [List.cons_append, split, if_neg (Ne.symm hs.1), ih hs.2]
      rfl

theorem infix_of_mem_split {t l : List α} (h : l ∈ split nl t) : l <:+: t := by
  obtain ⟨xs, ys, hxs⟩ := List.append_of_mem h
  rw [← join_split nl t, hxs, join_append nl (List.cons_ne_nil l ys)]
  cases ys with
  | nil => exact ⟨_, [], by rw [List.append_nil]; rfl⟩
  | cons y ys =>
      rw [join_cons nl l (List.cons_ne_nil y ys)]
      exact ⟨_, nl :: join nl (y :: ys), by rw [List.append_assoc]⟩

/-- **A needle without line breaks stands in one of the lines.** -/
theorem infix_iff_line (hnl : nl ∉ needle) {t : List α} :
    needle <:+: t ↔ ∃ l ∈ split nl t, needle <:+: l := by
  constructor
  · rintro ⟨a, b, rfl⟩
    obtain ⟨l, ls, hb⟩ := List.exists_cons_of_ne_nil (split_ne_nil nl b)
    obtain ⟨front, w, hsplit, -⟩ := split_append_first nl a (split_append_unbroken hnl hb)
    refine ⟨w ++ (needle ++ l), ?_, w, l, List.append_assoc ..⟩
    rw [List.append_assoc, hsplit]
    exact List.mem_append_right _ (List.mem_cons_self ..)
  · intro ⟨l, hl, h⟩
    exact h.trans (infix_of_mem_split hl)

end Needle

end TextSearch
