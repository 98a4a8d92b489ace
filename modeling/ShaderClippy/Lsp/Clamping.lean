/-
  ShaderClippy.Lsp.Clamping

  **A COLUMN PAST THE END OF ITS LINE.**

  `position_to_offset` walks no further than the end of the line, so that a
  column past it "clamps cleanly"; but before it walks it compares the column
  with what is left of the WHOLE buffer. So it clamps exactly where enough
  text follows the line (`positionToOffset_clamps_iff`), and on the last
  lines of a file it fails.
-/
import ShaderClippy.Lsp.DocumentManager

namespace ShaderClippy.Lsp

open Lines

/-- Where a line starts: behind the lines before it and their breaks. -/
def lineStart (contents : Text) (line : Nat) : Nat :=
  (((split '\n' contents).take line).flatMap fun l => l ++ ['\n']).length

/-- A text, cut at one of its lines. -/
theorem split_at_line {contents l : Text} {line : Nat}
    (h : (split '\n' contents)[line]? = some l) :
    ∃ w rest, contents = w ++ (l ++ rest) ∧ Whole '\n' w ∧ w.count '\n' = line
      ∧ w.length = lineStart contents line ∧ (rest = [] ∨ rest.head? = some '\n') := by
  have hvalid : (Buffer.ofText '\n' contents).Valid ⟨line, 0⟩ := ⟨l, h, Nat.zero_le _⟩
  have hcut := Buffer.before_append_after hvalid
  have hlt : line < (split '\n' contents).length := (List.getElem?_eq_some_iff.mp h).1
  have hget : (split '\n' contents).getD line [] = l := by simp [List.getD, h]
  refine ⟨((split '\n' contents).take line).flatMap fun l => l ++ ['\n'],
    (join '\n' (l :: (split '\n' contents).drop (line + 1))).drop l.length, ?_,
    Buffer.whole_flatMap _, ?_, rfl, ?_⟩
  · rw [Buffer.text_ofText] at hcut
    unfold Buffer.before Buffer.after Buffer.ofText at hcut
    simp only [hget, List.take_zero, List.append_nil, List.drop_zero] at hcut
    have hl : l ++ (join '\n' (l :: (split '\n' contents).drop (line + 1))).drop l.length
        = join '\n' (l :: (split '\n' contents).drop (line + 1)) := by
      cases (split '\n' contents).drop (line + 1) with
      | nil => simp [join]
      | cons m ls => rw [join_cons '\n' l (List.cons_ne_nil _ _), List.drop_left]
    rw [hl]
    exact hcut.symm
  · rw [Buffer.count_flatMap fun x hx => unbroken_split '\n' _ x (List.mem_of_mem_take hx),
      List.length_take]
    omega
  · cases (split '\n' contents).drop (line + 1) with
    | nil => simp [join]
    | cons m ls => simp [join_cons '\n' l (List.cons_ne_nil m ls)]

/-- The walk stops at the end of the line. -/
theorem walkCharacters_line {l rest : Text} (hl : '\n' ∉ l)
    (hrest : rest = [] ∨ rest.head? = some '\n') : ∀ {character offset : Nat},
      walkCharacters (l ++ rest) character offset = offset + min character l.length := by
  induction l with
  | nil =>
      intro character offset
      rcases hrest with rfl | hrest
      · simp [walkCharacters]
      · cases rest with
        | nil => simp [walkCharacters]
        | cons c cs =>
            have hc : c = '\n' := Option.some.inj hrest
            cases character with
            | zero => simp [walkCharacters]
            | succ character => simp [walkCharacters, hc]
  | cons c cs ih =>
      intro character offset
      rw [List.mem_cons, not_or] at hl
      cases character with
      | zero => simp [walkCharacters]
      | succ character =>
          rw [List.cons_append, walkCharacters, if_neg (Ne.symm hl.1), ih hl.2, List.length_cons]
          omega

/-- **A column is clamped to its line IF AND ONLY IF the buffer, counted from
the start of the line, is at least that long.** -/
theorem positionToOffset_clamps_iff {contents l : Text} {line : Nat} (character : Nat)
    (h : (split '\n' contents)[line]? = some l) :
    positionToOffset contents line character
        = some (min (lineStart contents line + character) (lineStart contents line + l.length))
      ↔ lineStart contents line + character ≤ contents.length := by
  obtain ⟨w, rest, hcut, hwhole, hcount, hstart, hrest⟩ := split_at_line h
  have hl : '\n' ∉ l := unbroken_split '\n' contents l (List.mem_of_getElem? h)
  have hoffset : lineStartOffset contents line = some w.length := by
    rw [hcut, ← hcount]
    exact lineStartOffset_whole (l ++ rest) hwhole
  unfold positionToOffset
  rw [hoffset, ← hstart]
  show (if w.length + character > contents.length then none
    else some (walkCharacters (contents.drop w.length) character w.length)) = _ ↔ _
  by_cases hfits : w.length + character > contents.length
  · rw [if_pos hfits]
    exact iff_of_false nofun (by omega)
  · have hwalk : walkCharacters (contents.drop w.length) character w.length
        = w.length + min character l.length := by
      rw [hcut, List.drop_left, walkCharacters_line hl hrest]
    rw [if_neg hfits, hwalk]
    refine iff_of_true (congrArg some ?_) (by omega)
    omega

theorem positionToOffset_clamps_iff_firstLine :
    positionToOffset "ab\ncdefgh".toList 0 5
      = some (min (lineStart "ab\ncdefgh".toList 0 + 5) (lineStart "ab\ncdefgh".toList 0 + 2)) :=
  (positionToOffset_clamps_iff (l := "ab".toList) 5 (by decide)).mpr (by decide)

/-- **On the last line nothing is clamped.** -/
theorem lastLine_not_clamped :
    (split '\n' "ab\ncdefgh".toList)[1]? = some "cdefgh".toList
      ∧ positionToOffset "ab\ncdefgh".toList 1 7 = none := by
  decide

end ShaderClippy.Lsp
