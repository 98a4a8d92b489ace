/-
  ShaderClippy.SourceFile

  **THE LINE TABLE OF A SOURCE FILE** (`SourceFile`, `source.cpp`).

  `build_line_starts` records the byte offset of every line start,
  `line_col` finds the line of an offset by `upper_bound` over that table.
  Offsets and table entries are 32-bit: every conversion the program makes is
  written out as `u32`, and so are the sums it makes with lines and columns.
  The results are for contents of fewer than 2³² - 1 bytes, where none of them
  wraps around (`lineCol_spec`).
-/
import Mathlib
import ShaderClippy.Source
import ShaderClippy.Lib.Lines

namespace ShaderClippy.SourceFile

open Lines

/-! ## §1. The program. -/

/-- `static_cast<std::uint32_t>`. -/
def u32 (n : Nat) : Nat := n % 2 ^ 32

/-- One-based line and column. -/
structure LineCol where
  line : Nat
  column : Nat
  deriving Repr, DecidableEq

/-- The starts of the lines after the first, scanning from offset `i`. -/
def lineStartsFrom : Nat → Text → List Nat
  | _, [] => []
  | i, c :: cs =>
      if c = '\n' then u32 (i + 1) :: lineStartsFrom (i + 1) cs else lineStartsFrom (i + 1) cs

/-- `build_line_starts`. -/
def buildLineStarts (contents : Text) : List Nat := 0 :: lineStartsFrom 0 contents

/-- `std::ranges::upper_bound`: where the first element greater than `v`
stands; the table is in ascending order (`pairwise_buildLineStarts`). -/
def upperBound (l : List Nat) (v : Nat) : Nat := (l.takeWhile fun x => decide (x ≤ v)).length

/-- `SourceFile::line_col`. -/
def lineCol (contents : Text) (byteOffset : Nat) : LineCol :=
  let lineStarts := buildLineStarts contents
  let clamped := min byteOffset (u32 contents.length)
  match upperBound lineStarts clamped with
  | 0 => ⟨1, 1⟩
  | lineIndex + 1 => ⟨u32 (u32 lineIndex + 1), u32 (clamped - lineStarts.getD lineIndex 0 + 1)⟩

/-! ## §2. The table. -/

theorem u32_of_lt {n : Nat} (h : n < 2 ^ 32) : u32 n = n := Nat.mod_eq_of_lt h

theorem lineStartsFrom_append (i : Nat) (s t : Text) :
    lineStartsFrom i (s ++ t) = lineStartsFrom i s ++ lineStartsFrom (i + s.length) t := by
  induction s generalizing i with
  | nil => rfl
  | cons c cs ih =>
      have hlen : i + (c :: cs).length = i + 1 + cs.length := by
        simp only [List.length_cons]
        omega
      rw [hlen]
      by_cases hc : c = '\n' <;> simp [lineStartsFrom, hc, ih]

theorem lineStartsFrom_unbroken {i : Nat} {s : Text} (h : '\n' ∉ s) : lineStartsFrom i s = [] := by
  induction s generalizing i with
  | nil => rfl
  | cons c cs ih =>
      rw [List.mem_cons, not_or] at h
      rw [lineStartsFrom, if_neg (Ne.symm h.1), ih h.2]

theorem length_lineStartsFrom (i : Nat) (s : Text) :
    (lineStartsFrom i s).length = s.count '\n' := by
  induction s generalizing i with
  | nil => rfl
  | cons c cs ih =>
      by_cases hc : c = '\n' <;> simp [lineStartsFrom, hc, ih]

/-- Where the entries lie: right after the symbol they are made for. -/
theorem mem_lineStartsFrom {i : Nat} {s : Text} (hi : i + s.length < 2 ^ 32) :
    ∀ x ∈ lineStartsFrom i s, i < x ∧ x ≤ i + s.length := by
  induction s generalizing i with
  | nil => simp [lineStartsFrom]
  | cons c cs ih =>
      intro x hx
      rw [List.length_cons] at hi ⊢
      have htail : ∀ y ∈ lineStartsFrom (i + 1) cs, i < y ∧ y ≤ i + (cs.length + 1) := by
        intro y hy
        have := ih (i := i + 1) (by omega) y hy
        omega
      by_cases hc : c = '\n'
      · rw [lineStartsFrom, if_pos hc, List.mem_cons, u32_of_lt (by omega)] at hx
        rcases hx with rfl | hx
        · omega
        · exact htail x hx
      · rw [lineStartsFrom, if_neg hc] at hx
        exact htail x hx

/-- The table is in ascending order, which is what `upper_bound` asks for. -/
theorem pairwise_buildLineStarts {contents : Text} (h : contents.length < 2 ^ 32) :
    (buildLineStarts contents).Pairwise (· < ·) := by
  have hfrom : ∀ (i : Nat) (s : Text), i + s.length < 2 ^ 32 →
      (lineStartsFrom i s).Pairwise (· < ·) := by
    intro i s
    induction s generalizing i with
    | nil => intro _; exact List.Pairwise.nil
    | cons c cs ih =>
        intro hi
        rw [List.length_cons] at hi
        have htail := ih (i + 1) (by omega)
        by_cases hc : c = '\n'
        · rw [lineStartsFrom, if_pos hc, u32_of_lt (by omega), List.pairwise_cons]
          refine ⟨?_, htail⟩
          intro x hx
          exact (mem_lineStartsFrom (by omega) x hx).1
        · rw [lineStartsFrom, if_neg hc]
          exact htail
  rw [buildLineStarts, List.pairwise_cons]
  refine ⟨?_, hfrom 0 contents (by omega)⟩
  intro x hx
  exact (mem_lineStartsFrom (by omega) x hx).1

/-! ## §3. What `line_col` computes. -/

/-- After whole lines the table has the start of the next line last. -/
theorem getLast_buildLineStarts {w : Text} (hw : Whole '\n' w) (hlen : w.length < 2 ^ 32) :
    (buildLineStarts w).getD (w.count '\n') 0 = w.length := by
  rcases hw with rfl | ⟨s, rfl⟩
  · rfl
  · have hl := length_lineStartsFrom 0 s
    have hu : u32 (s.length + 1) = s.length + 1 := by
      rw [List.length_append] at hlen
      exact u32_of_lt (by simpa using hlen)
    rw [buildLineStarts, lineStartsFrom_append]
    simp [lineStartsFrom, List.getD, hu, ← hl]

/-- The entries not past `o` are those of the text before `o`. -/
theorem takeWhile_buildLineStarts (w : Text) {s : Text} (rest : Text) (hs : '\n' ∉ s)
    (hlen : (w ++ s ++ rest).length < 2 ^ 32) :
    (buildLineStarts (w ++ s ++ rest)).takeWhile (fun x => decide (x ≤ (w ++ s).length))
      = buildLineStarts w := by
  simp only [List.length_append] at hlen ⊢
  rw [buildLineStarts, lineStartsFrom_append, lineStartsFrom_append, lineStartsFrom_unbroken hs,
    List.append_nil, ← List.cons_append]
  have hleft : ∀ x ∈ 0 :: lineStartsFrom 0 w, x ≤ w.length + s.length := by
    intro x hx
    rcases List.mem_cons.mp hx with rfl | hx
    · omega
    · have := mem_lineStartsFrom (i := 0) (by omega) x hx
      omega
  have hright : ∀ x ∈ lineStartsFrom (0 + (w ++ s).length) rest, ¬ x ≤ w.length + s.length := by
    intro x hx
    have := mem_lineStartsFrom (by simp only [List.length_append]; omega) x hx
    simp only [List.length_append] at this
    omega
  rw [List.takeWhile_append_of_pos (by simpa using hleft)]
  cases hr : lineStartsFrom (0 + (w ++ s).length) rest with
  | nil => simp [buildLineStarts]
  | cons x xs =>
      have hx := hright x (by rw [hr]; exact List.mem_cons_self ..)
      rw [List.takeWhile_cons_of_neg (by simpa using hx), List.append_nil]
      rfl

/-- **What `line_col` computes**: the line breaks before the offset, and the
distance to the last of them. -/
theorem lineCol_spec {contents : Text} (hlen : contents.length + 1 < 2 ^ 32) {o : Nat}
    (ho : o ≤ contents.length) :
    lineCol contents o
      = ⟨1 + (contents.take o).count '\n', 1 + (lastLine '\n' (contents.take o)).length⟩ := by
  have hcut := wholeLines_append_lastLine '\n' (contents.take o)
  have hw := whole_wholeLines '\n' (contents.take o)
  have hs := not_mem_lastLine '\n' (contents.take o)
  have hcount := count_wholeLines '\n' (contents.take o)
  have hlens := length_wholeLines '\n' (contents.take o)
  rw [List.length_take, Nat.min_eq_left ho] at hlens
  generalize wholeLines '\n' (contents.take o) = w at *
  generalize lastLine '\n' (contents.take o) = s at *
  have htable : (buildLineStarts contents).takeWhile (fun x => decide (x ≤ o))
      = buildLineStarts w := by
    have := takeWhile_buildLineStarts w (contents.drop o) hs
      (by rw [hcut, List.take_append_drop]; omega)
    rwa [hcut, List.take_append_drop, List.length_take, Nat.min_eq_left ho] at this
  have hprefix : buildLineStarts w <+: buildLineStarts contents := by
    rw [← htable]
    exact List.takeWhile_prefix _
  have hsize : (buildLineStarts w).length = (contents.take o).count '\n' + 1 := by
    rw [buildLineStarts, List.length_cons, length_lineStartsFrom, hcount]
  have hget : (buildLineStarts contents).getD ((contents.take o).count '\n') 0 = w.length := by
    have hlast := getLast_buildLineStarts hw (by omega)
    have ⟨r, hr⟩ := hprefix
    rw [← hr, List.getD_append _ _ _ _ (by omega), ← hcount]
    exact hlast
  have hclamp : min o (u32 contents.length) = o := by
    rw [u32_of_lt (by omega)]
    exact Nat.min_eq_left ho
  -- neither sum wraps around: there are no more breaks and bytes than the offset says
  have hbreaks : (contents.take o).count '\n' ≤ o := by
    have hle := List.count_le_length (a := '\n') (l := contents.take o)
    rwa [List.length_take, Nat.min_eq_left ho] at hle
  have hbound : upperBound (buildLineStarts contents) o = (contents.take o).count '\n' + 1 := by
    rw [upperBound, htable, hsize]
  simp only [lineCol, hclamp, hbound, hget, LineCol.mk.injEq]
  rw [u32_of_lt (show (contents.take o).count '\n' < 2 ^ 32 by omega), u32_of_lt (by omega), u32_of_lt (by omega)]
  omega

end ShaderClippy.SourceFile
