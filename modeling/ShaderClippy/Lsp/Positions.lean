/-
  ShaderClippy.Lsp.Positions

  **BYTE OFFSETS AND LINE/COLUMN PAIRS ARE INVERSE.**

  The linter turns byte offsets into lines and columns with a table and a
  binary search (`SourceFile::line_col`), the server turns lines and
  characters back into byte offsets with a linear scan
  (`position_to_offset`). Both are pinned down by the same two things, the
  line breaks before an offset and the distance to the last of them, so going
  there and back is the identity, up to the 32-bit offsets of the table.
-/
import Mathlib
import ShaderClippy.SourceFile
import ShaderClippy.Lsp.DocumentManager

namespace ShaderClippy.Lsp

open Lines SourceFile

/-- `to_lsp_position`: zero-based line and character of a byte offset. -/
def toLspPosition (contents : Text) (byteOffset : Nat) : Position :=
  let loc := lineCol contents byteOffset
  ⟨if loc.line > 0 then loc.line - 1 else 0, if loc.column > 0 then loc.column - 1 else 0⟩

/-- Earlier line, or the same line and an earlier column. -/
def LineCol.Le (p q : LineCol) : Prop :=
  p.line < q.line ∨ (p.line = q.line ∧ p.column ≤ q.column)

section Lookup

variable {contents : Text} (hlen : contents.length + 1 < 2 ^ 32)

include hlen

/-- There and back. -/
theorem positionToOffset_lineCol {o : Nat} (ho : o ≤ contents.length) :
    positionToOffset contents ((lineCol contents o).line - 1) ((lineCol contents o).column - 1)
      = some o := by
  have hcut := wholeLines_append_lastLine '\n' (contents.take o)
  have hfind := positionToOffset_spec (contents.drop o)
    (whole_wholeLines '\n' (contents.take o)) (not_mem_lastLine '\n' (contents.take o))
  rw [hcut, List.take_append_drop, count_wholeLines, List.length_take, Nat.min_eq_left ho] at hfind
  rw [lineCol_spec hlen ho]
  simpa using hfind

theorem lineCol_injective {o p : Nat} (ho : o ≤ contents.length) (hp : p ≤ contents.length)
    (h : lineCol contents o = lineCol contents p) : o = p := by
  have hback := positionToOffset_lineCol hlen ho
  rw [h, positionToOffset_lineCol hlen hp] at hback
  exact (Option.some.inj hback).symm

theorem lineCol_mono {o p : Nat} (hp : p ≤ contents.length) (h : o ≤ p) :
    LineCol.Le (lineCol contents o) (lineCol contents p) := by
  have hmid : contents.take p = contents.take o ++ (contents.drop o).take (p - o) := by
    rw [← List.take_add, Nat.add_sub_cancel' h]
  rw [lineCol_spec hlen hp, lineCol_spec hlen (h.trans hp), hmid, List.count_append]
  by_cases hbreak : '\n' ∈ (contents.drop o).take (p - o)
  · -- a line break in between: a later line
    left
    have := List.count_pos_iff.mpr hbreak
    show 1 + _ < 1 + _
    omega
  · right
    rw [lastLine_append '\n' hbreak, List.count_eq_zero_of_not_mem hbreak, List.length_append]
    exact ⟨rfl, by show 1 + _ ≤ 1 + _; omega⟩

end Lookup

/-- **Byte offset and line/column are inverse**, for contents that 32-bit
offsets can address. -/
theorem lineCol_inverse (contents : Text) (hlen : contents.length + 1 < 2 ^ 32) :
    (∀ o ≤ contents.length,
        lineCol contents o
            = ⟨1 + (contents.take o).count '\n', 1 + (lastLine '\n' (contents.take o)).length⟩
          ∧ positionToOffset contents ((lineCol contents o).line - 1)
              ((lineCol contents o).column - 1) = some o
          ∧ positionToOffset contents (toLspPosition contents o).line
              (toLspPosition contents o).character = some o)
      ∧ (∀ o ≤ contents.length, ∀ p ≤ contents.length,
          lineCol contents o = lineCol contents p → o = p)
      ∧ ∀ p ≤ contents.length, ∀ o ≤ p, LineCol.Le (lineCol contents o) (lineCol contents p) := by
  refine ⟨?_, ?_, ?_⟩
  · intro o ho
    have hback := positionToOffset_lineCol hlen ho
    refine ⟨lineCol_spec hlen ho, hback, ?_⟩
    have hpos : toLspPosition contents o
        = ⟨(lineCol contents o).line - 1, (lineCol contents o).column - 1⟩ := by
      rw [toLspPosition, lineCol_spec hlen ho]
      simp
    rw [hpos]
    exact hback
  · intro o ho p hp h
    exact lineCol_injective hlen ho hp h
  · intro p hp o h
    exact lineCol_mono hlen hp h

theorem lineCol_inverse_twoLines :
    lineCol ['a', '\n', 'b', '\n'] 3 = ⟨2, 2⟩
      ∧ positionToOffset ['a', '\n', 'b', '\n'] ((lineCol ['a', '\n', 'b', '\n'] 3).line - 1)
          ((lineCol ['a', '\n', 'b', '\n'] 3).column - 1) = some 3 :=
  ⟨by decide, ((lineCol_inverse ['a', '\n', 'b', '\n'] (by decide)).1 3 (by decide)).2.1⟩

/-- In contents without a line break the column is the offset and one more, as a
32-bit number. -/
theorem lineCol_unbroken {contents : Text} (hlen : contents.length < 2 ^ 32) (hs : '\n' ∉ contents) {o : Nat}
    (ho : o ≤ contents.length) : lineCol contents o = ⟨1, u32 (o + 1)⟩ := by
  have hstarts : buildLineStarts contents = [0] := by
    rw [buildLineStarts, lineStartsFrom_unbroken hs]
  have hclamp : min o (u32 contents.length) = o := by
    rw [u32_of_lt hlen]
    exact Nat.min_eq_left ho
  have hbound : upperBound [0] o = 1 := by
    simp [upperBound]
  simp only [lineCol, hclamp, hstarts, hbound]
  rfl

/-- The end of 2³² - 1 bytes without a line break comes out in column 0, where the
sum that makes columns one-based wraps around. -/
theorem lineCol_fourGiB :
    (lineCol (List.replicate (2 ^ 32 - 1) 'a') (2 ^ 32 - 1)).column = 0
      ∧ ¬ ∀ contents : Text, ∀ o ≤ contents.length,
        (lineCol contents o).column = 1 + (lastLine '\n' (contents.take o)).length := by
  have hunbroken : '\n' ∉ List.replicate (2 ^ 32 - 1) 'a' := by
    intro hmem
    exact absurd (List.eq_of_mem_replicate hmem) (by decide)
  have hsize : (List.replicate (2 ^ 32 - 1) 'a').length = 2 ^ 32 - 1 := List.length_replicate
  have hcolumn : (lineCol (List.replicate (2 ^ 32 - 1) 'a') (2 ^ 32 - 1)).column = 0 := by
    rw [lineCol_unbroken (by rw [hsize]; omega) hunbroken hsize.ge]
    exact Nat.mod_self (2 ^ 32)
  refine ⟨hcolumn, fun h => ?_⟩
  have hcol := h _ _ hsize.ge
  rw [hcolumn] at hcol
  omega

end ShaderClippy.Lsp
