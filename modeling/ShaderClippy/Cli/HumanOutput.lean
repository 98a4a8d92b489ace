/-
  ShaderClippy.Cli.HumanOutput

  **THE OUTPUT FOR PEOPLE** (`render_diagnostic`, `main.cpp`).

  A diagnostic is printed with the line of the source it begins on, and a row of
  carets under it. `line_text` cuts the line out of the file by the table of
  line starts; the carets are counted from the column, the span and the length of
  the line. They are under the bytes of the span as far as the line goes, and
  there is at least one (`renderDiagnostic_underlines`).
-/
import ShaderClippy.Cli.JsonOutput

namespace ShaderClippy.Cli

open Lines
open SourceFile (LineCol buildLineStarts lineCol lineCol_spec lineStartsFrom lineStartsFrom_append
  lineStartsFrom_unbroken takeWhile_buildLineStarts u32 u32_of_lt upperBound)

/-! ## §1. The program. -/

/-- The end of the line without the byte, if that is the last one of it. -/
def dropByte (contents : Text) (c : Char) (lineEnd : Nat) : Nat :=
  if 0 < lineEnd ∧ contents[lineEnd - 1]? = some c then lineEnd - 1 else lineEnd

/-- `SourceFile::line_text`. -/
def lineText (contents : Text) (byteOffset : Nat) : Text :=
  if contents = [] then []
  else
    let lineStarts := buildLineStarts contents
    let clamped := min byteOffset (u32 contents.length)
    let next := upperBound lineStarts clamped
    let lineStart := lineStarts.getD (next - 1) 0
    let nextStart := lineStarts.getD next (u32 contents.length)
    if nextStart ≤ lineStart then []
    else
      let lineEnd := dropByte contents '\r' (dropByte contents '\n' nextStart)
      if lineEnd ≤ lineStart then [] else (contents.drop lineStart).take (lineEnd - lineStart)

/-- What is in front of the line: its number and a bar. -/
def gutter (loc : LineCol) : Text := "  ".toList ++ Nat.toDigits 10 loc.line ++ " | ".toList

/-- How many carets there are. -/
def caretCount (loc : LineCol) (text : Text) (lo hi : Nat) : Nat :=
  let behind := if 0 < loc.column then loc.column - 1 else 0
  let spanLen := if lo < hi then hi - lo else 1
  let caretMax := if behind < u32 text.length then u32 text.length - behind else 1
  let count := min spanLen caretMax
  if count = 0 then 1 else count

/-- The row of carets. -/
def caretLine (loc : LineCol) (text : Text) (lo hi : Nat) : Text :=
  let indent := 2 + (Nat.toDigits 10 loc.line).length + 3 + if 0 < loc.column then loc.column - 1 else 0
  List.replicate indent ' ' ++ List.replicate (caretCount loc text lo hi) '^'

/-- The line above the snippet. -/
def headline (diag : Diagnostic) (sources : SourceManager) : Text :=
  pathOf diag sources ++ ":".toList ++ Nat.toDigits 10 (locOf diag sources).line
    ++ ":".toList ++ Nat.toDigits 10 (locOf diag sources).column
    ++ ": ".toList ++ severityLabel diag.severity ++ ": ".toList ++ diag.message
    ++ " [".toList ++ diag.code ++ "]\n".toList

/-- The line of the source and the carets under it. -/
def snippet (diag : Diagnostic) (sources : SourceManager) : Text :=
  match sources.get diag.primarySpan.source with
  | none => []
  | some file =>
      let lo := diag.primarySpan.bytes.lo
      let loc := locOf diag sources
      let text := lineText file.contents lo
      if text = [] then []
      else
        gutter loc ++ text ++ "\n".toList
          ++ caretLine loc text lo diag.primarySpan.bytes.hi ++ "\n".toList

/-- `render_diagnostic`. -/
def renderDiagnostic (diag : Diagnostic) (sources : SourceManager) : Text :=
  headline diag sources ++ snippet diag sources

/-! ## §2. The line of an offset. -/

/-- A file, cut at the ends of the line that an offset is in: whole lines, the line
in front of the offset and behind it, and what begins with a line break. -/
structure LineCut where
  before : Text
  left : Text
  right : Text
  after : Text
  whole : Whole '\n' before
  unbroken : '\n' ∉ left ∧ '\n' ∉ right
  stop : after = [] ∨ ∃ t, after = '\n' :: t

namespace LineCut

/-- The line without its end. -/
def line (c : LineCut) : Text := c.left ++ c.right

/-- Without the carriage return in front of the line break. -/
def text (c : LineCut) : Text := if c.line.getLast? = some '\r' then c.line.dropLast else c.line

def contents (c : LineCut) : Text := c.before ++ c.line ++ c.after

def offset (c : LineCut) : Nat := c.before.length + c.left.length

/-- Every file can be cut so. -/
theorem exists_cut {contents : Text} {o : Nat} (ho : o ≤ contents.length) :
    ∃ c : LineCut, c.contents = contents ∧ c.offset = o := by
  have hcut := wholeLines_append_lastLine '\n' (contents.take o)
  have hright : '\n' ∉ (contents.drop o).takeWhile (· ≠ '\n') := by
    intro h
    have hne := List.mem_takeWhile_imp h
    simp at hne
  have hstop : (contents.drop o).dropWhile (· ≠ '\n') = []
      ∨ ∃ t, (contents.drop o).dropWhile (· ≠ '\n') = '\n' :: t := by
    cases h : (contents.drop o).dropWhile (· ≠ '\n') with
    | nil => exact .inl rfl
    | cons c t =>
        have hc := List.head_dropWhile_not (fun c => decide (c ≠ '\n')) (by rw [h]; exact List.cons_ne_nil _ _)
        simp only [h, List.head_cons, decide_eq_false_iff_not, not_not] at hc
        exact .inr ⟨t, by rw [hc]⟩
  refine ⟨⟨_, _, _, _, whole_wholeLines '\n' (contents.take o), ⟨not_mem_lastLine '\n' (contents.take o), hright⟩,
    hstop⟩, ?_, ?_⟩
  · show wholeLines '\n' (contents.take o) ++ (lastLine '\n' (contents.take o) ++ _) ++ _ = contents
    rw [← List.append_assoc, hcut, List.append_assoc, List.takeWhile_append_dropWhile, List.take_append_drop]
  · have hlen := congrArg List.length hcut
    rw [List.length_append, List.length_take, Nat.min_eq_left ho] at hlen
    exact hlen

variable (c : LineCut)

theorem length_contents : c.contents.length = c.before.length + c.line.length + c.after.length := by
  rw [contents, List.length_append, List.length_append]

theorem length_line : c.line.length = c.left.length + c.right.length := List.length_append ..

theorem unbroken_line : '\n' ∉ c.line := by
  intro h
  obtain h | h := List.mem_append.mp h
  · exact c.unbroken.1 h
  · exact c.unbroken.2 h

/-- The number and the column of the line. -/
theorem lineCol_eq (hlen : c.contents.length + 1 < 2 ^ 32) :
    lineCol c.contents c.offset = ⟨1 + c.before.count '\n', 1 + c.left.length⟩ := by
  have hsize := c.length_contents
  have hline := c.length_line
  have htake : c.contents.take c.offset = c.before ++ c.left := by
    have hassoc : c.contents = (c.before ++ c.left) ++ (c.right ++ c.after) := by
      rw [contents, line]
      simp only [List.append_assoc]
    have hoffset : c.offset = (c.before ++ c.left).length := (List.length_append ..).symm
    rw [hassoc, hoffset, List.take_left]
  have hoffset : c.offset = c.before.length + c.left.length := rfl
  have hlast : lastLine '\n' c.before = [] := by
    obtain h | ⟨s, h⟩ := c.whole
    · rw [h]
      rfl
    · rw [h, lastLine, List.rtakeWhile_concat_neg _ _ _ (by simp)]
  rw [lineCol_spec hlen (by omega), htake, lastLine_append '\n' c.unbroken.1, hlast, List.nil_append,
    List.count_append, List.count_eq_zero_of_not_mem c.unbroken.1, Nat.add_zero]

/-- The table of line starts, at the line. -/
theorem buildLineStarts_eq (hlen : c.contents.length < 2 ^ 32) :
    ∃ rest, buildLineStarts c.contents = buildLineStarts c.before ++ rest
      ∧ rest.head? = if c.after = [] then none else some (c.before.length + c.line.length + 1) := by
  have hsize := c.length_contents
  refine ⟨lineStartsFrom (c.before ++ c.line).length c.after, ?_, ?_⟩
  · rw [contents, buildLineStarts, buildLineStarts, lineStartsFrom_append, lineStartsFrom_append,
      lineStartsFrom_unbroken c.unbroken_line, List.append_nil, Nat.zero_add, List.cons_append]
  · obtain hstop | ⟨t, hstop⟩ := c.stop
    · rw [hstop]
      rfl
    · rw [hstop, List.length_cons] at hsize
      rw [hstop, if_neg (List.cons_ne_nil _ _), lineStartsFrom, if_pos rfl, List.head?_cons, List.length_append,
        u32_of_lt (by omega)]

/-- Where the line begins, and where the next one does. -/
theorem bounds (hlen : c.contents.length < 2 ^ 32) :
    (buildLineStarts c.contents).getD (upperBound (buildLineStarts c.contents) c.offset - 1) 0 = c.before.length
      ∧ (buildLineStarts c.contents).getD (upperBound (buildLineStarts c.contents) c.offset) c.contents.length
        = c.before.length + c.line.length + if c.after = [] then 0 else 1 := by
  have hsize := c.length_contents
  have hnext : upperBound (buildLineStarts c.contents) c.offset = (buildLineStarts c.before).length := by
    have hassoc : c.contents = c.before ++ c.left ++ (c.right ++ c.after) := by
      rw [contents, line]
      simp only [List.append_assoc]
    have htable := takeWhile_buildLineStarts c.before (c.right ++ c.after) c.unbroken.1 (by rw [← hassoc]; exact hlen)
    rw [← hassoc, List.length_append] at htable
    exact congrArg List.length htable
  have hlast := SourceFile.getLast_buildLineStarts c.whole (by omega)
  have hcount : (buildLineStarts c.before).length = c.before.count '\n' + 1 := by
    rw [buildLineStarts, List.length_cons, SourceFile.length_lineStartsFrom]
  obtain ⟨rest, htable, hrest⟩ := c.buildLineStarts_eq hlen
  rw [hnext, htable]
  constructor
  · rw [List.getD_append _ _ _ _ (by omega), hcount, Nat.add_sub_cancel]
    exact hlast
  · rw [List.getD_append_right _ _ _ _ (Nat.le_refl _), Nat.sub_self, List.getD_eq_getElem?_getD,
      ← List.head?_eq_getElem?, hrest]
    split
    case isTrue hnil =>
      rw [hnil, List.length_nil] at hsize
      rw [Option.getD_none]
      omega
    case isFalse => rfl

/-- The last byte of the line. -/
theorem getElem_line (hline : c.line ≠ []) : c.contents[c.before.length + c.line.length - 1]? = c.line.getLast? := by
  have hpos := List.length_pos_iff.mpr hline
  rw [contents, List.append_assoc, List.getElem?_append_right (by omega), List.getElem?_append_left (by omega),
    List.getLast?_eq_getElem?]
  congr 1
  omega

/-- The line break is dropped. -/
theorem dropByte_break (hline : c.line ≠ []) :
    dropByte c.contents '\n' (c.before.length + c.line.length + if c.after = [] then 0 else 1)
      = c.before.length + c.line.length := by
  unfold dropByte
  split
  case isTrue hnil =>
    rw [Nat.add_zero, if_neg]
    rintro ⟨-, hlast⟩
    rw [c.getElem_line hline] at hlast
    exact c.unbroken_line (List.mem_of_getLast? hlast)
  case isFalse hne =>
    obtain ⟨t, ht⟩ := c.stop.resolve_left hne
    have hbreak : c.contents[c.before.length + c.line.length]? = some '\n' := by
      rw [contents, ht, List.getElem?_append_right (by rw [List.length_append]), List.length_append, Nat.sub_self]
      rfl
    rw [if_pos ⟨Nat.succ_pos _, hbreak⟩, Nat.add_sub_cancel]

/-- The carriage return is dropped. -/
theorem dropByte_return (hline : c.line ≠ []) :
    dropByte c.contents '\r' (c.before.length + c.line.length) = c.before.length + c.text.length := by
  have hpos := List.length_pos_iff.mpr hline
  unfold dropByte text
  rw [c.getElem_line hline]
  by_cases hlast : c.line.getLast? = some '\r'
  · rw [if_pos ⟨by omega, hlast⟩, if_pos hlast, List.length_dropLast]
    omega
  · rw [if_neg (fun h => hlast h.2), if_neg hlast]

theorem dropByte_le (contents : Text) (ch : Char) (n : Nat) : dropByte contents ch n ≤ n := by
  unfold dropByte
  split
  · exact Nat.sub_le _ _
  · exact Nat.le_refl _

theorem text_prefix : c.text <+: c.line := by
  unfold text
  split
  · exact List.dropLast_prefix _
  · exact List.prefix_rfl

/-- **What `line_text` cuts out**: the line, without a carriage return at its
end. -/
theorem lineText_eq (hlen : c.contents.length < 2 ^ 32) : lineText c.contents c.offset = c.text := by
  have hsize := c.length_contents
  have hline := c.length_line
  have hoffset : c.offset = c.before.length + c.left.length := rfl
  have hclamp : min c.offset (u32 c.contents.length) = c.offset := by
    rw [u32_of_lt hlen]
    omega
  obtain ⟨hstart, hnext⟩ := c.bounds hlen
  have htext : c.line = [] → c.text = [] := fun h => by
    rw [text, h]
    rfl
  unfold lineText
  split
  case isTrue hempty =>
    rw [hempty] at hsize
    exact (htext (List.eq_nil_of_length_eq_zero (by rw [List.length_nil] at hsize; omega))).symm
  case isFalse =>
    dsimp only
    rw [hclamp, u32_of_lt hlen, hstart, hnext]
    by_cases hempty : c.line = []
    · rw [htext hempty, hempty, List.length_nil, Nat.add_zero]
      by_cases hafter : c.after = []
      · rw [if_pos hafter, Nat.add_zero, if_pos (Nat.le_refl _)]
      · -- the break is all there is
        obtain ⟨t, ht⟩ := c.stop.resolve_left hafter
        have hbreak : c.contents[c.before.length]? = some '\n' := by
          rw [contents, hempty, ht, List.append_nil, List.getElem?_append_right (Nat.le_refl _), Nat.sub_self]
          rfl
        have hdrop : dropByte c.contents '\n' (c.before.length + 1) = c.before.length :=
          if_pos ⟨Nat.succ_pos _, hbreak⟩
        rw [if_neg hafter, if_neg (by omega), hdrop, if_pos (dropByte_le _ _ _)]
    · have hpos := List.length_pos_iff.mpr hempty
      rw [if_neg (by split <;> omega), c.dropByte_break hempty, c.dropByte_return hempty]
      split
      case isTrue hle => exact (List.eq_nil_of_length_eq_zero (by omega)).symm
      case isFalse =>
        obtain ⟨rest, hrest⟩ := c.text_prefix
        rw [contents, List.append_assoc, List.drop_left, Nat.add_sub_cancel_left, ← hrest, List.append_assoc,
          List.take_left]

end LineCut

/-! ## §3. The carets. -/

/-- A row of carets that is under the bytes from `lo` on, up to `hi` and the end of
the line, and under `lo` in any case. The line begins at byte `start`. -/
structure Underlines (marks gutter text : Text) (start lo hi : Nat) : Prop where
  marked : ∀ k, marks[k]? = some '^' ↔
    ∃ b, k = gutter.length + (b - start) ∧ lo ≤ b ∧ b < max (min hi (start + text.length)) (lo + 1)
  blank : ∀ ch ∈ marks, ch = ' ' ∨ ch = '^'

theorem getElem_marks (n m k : Nat) :
    (List.replicate n ' ' ++ List.replicate m '^')[k]? = some '^' ↔ n ≤ k ∧ k < n + m := by
  by_cases hk : k < n
  · rw [List.getElem?_append_left (by rw [List.length_replicate]; exact hk), List.getElem?_replicate_of_lt hk]
    simp only [Option.some.injEq, Char.reduceEq, false_iff]
    omega
  · rw [List.getElem?_append_right (by rw [List.length_replicate]; omega), List.length_replicate,
      List.getElem?_replicate]
    split
    case isTrue h => simp only [true_iff]; omega
    case isFalse h => simp only [reduceCtorEq, false_iff]; omega

theorem length_gutter (loc : LineCol) : (gutter loc).length = 2 + (Nat.toDigits 10 loc.line).length + 3 := by
  unfold gutter
  rw [List.length_append, List.length_append]
  rfl

/-- The carets of a line. -/
theorem caretLine_underlines {loc : LineCol} {text : Text} {start lo hi : Nat} (hlo : start ≤ lo)
    (hcolumn : loc.column = 1 + (lo - start)) (hsize : text.length < 2 ^ 32) {rawLo : Nat}
    (hraw : rawLo = lo ∨ lo ≤ rawLo ∧ start + text.length ≤ lo) :
    Underlines (caretLine loc text rawLo hi) (gutter loc) text start lo hi where
  marked := by
    intro k
    have hbehind : (if 0 < loc.column then loc.column - 1 else 0) = lo - start := by
      rw [hcolumn, if_pos (by omega)]
      omega
    have hcount : caretCount loc text rawLo hi = max (min hi (start + text.length)) (lo + 1) - lo := by
      unfold caretCount
      dsimp only
      rw [hbehind, u32_of_lt hsize]
      split_ifs <;> omega
    unfold caretLine
    dsimp only
    rw [getElem_marks, hbehind, hcount, ← length_gutter]
    constructor
    · rintro ⟨hle, hlt⟩
      exact ⟨start + (k - (gutter loc).length), by omega, by omega, by omega⟩
    · rintro ⟨b, rfl, hb, hb'⟩
      omega
  blank := by
    intro ch hch
    obtain hch | hch := List.mem_append.mp hch
    · exact .inl (List.eq_of_mem_replicate hch)
    · exact .inr (List.eq_of_mem_replicate hch)

/-- **What is printed for a diagnostic**: the headline, the line of the source that
it begins on, as it is in the file, and under it carets that mark the bytes of the
span on this line, the first of them at least. -/
theorem renderDiagnostic_underlines (diag : Diagnostic) (sources : SourceManager) {file : FileEntry}
    (hfile : sources.get diag.primarySpan.source = some file) (hlen : file.contents.length + 1 < 2 ^ 32) :
    ∃ c : LineCut, c.contents = file.contents
      ∧ c.offset = min diag.primarySpan.bytes.lo file.contents.length
      ∧ (c.text = [] → renderDiagnostic diag sources = headline diag sources)
      ∧ (c.text ≠ [] → ∃ marks,
          renderDiagnostic diag sources
              = headline diag sources ++ (gutter (locOf diag sources) ++ c.text ++ "\n".toList
                ++ marks ++ "\n".toList)
            ∧ Underlines marks (gutter (locOf diag sources)) c.text c.before.length c.offset
              diag.primarySpan.bytes.hi) := by
  obtain ⟨c, hcontents, hoffset⟩ :=
    LineCut.exists_cut (Nat.min_le_right diag.primarySpan.bytes.lo file.contents.length)
  refine ⟨c, hcontents, hoffset, ?_⟩
  rw [← hcontents] at hlen hoffset
  have hsize := c.length_contents
  have hline := c.length_line
  have hcut : c.offset = c.before.length + c.left.length := rfl
  have hprefix := c.text_prefix.length_le
  -- the offset is clamped to the file, and so is the line that is looked up
  have hclamp : ∀ o, min (min o c.contents.length) (u32 c.contents.length) = min o (u32 c.contents.length) := by
    intro o
    rw [u32_of_lt (by omega)]
    omega
  have htext : lineText file.contents diag.primarySpan.bytes.lo = c.text := by
    rw [← hcontents, ← c.lineText_eq (by omega), hoffset]
    unfold lineText
    rw [hclamp]
  have hloc : locOf diag sources = ⟨1 + c.before.count '\n', 1 + c.left.length⟩ := by
    rw [← c.lineCol_eq hlen, hoffset, locOf, SourceManager.resolve, hfile, hcontents]
    show lineCol file.contents _ = lineCol file.contents _
    rw [hcontents] at hclamp
    unfold lineCol
    rw [hclamp]
  have hsnippet : snippet diag sources
      = if c.text = [] then []
        else gutter (locOf diag sources) ++ c.text ++ "\n".toList
          ++ caretLine (locOf diag sources) c.text diag.primarySpan.bytes.lo diag.primarySpan.bytes.hi
          ++ "\n".toList := by
    unfold snippet
    rw [hfile]
    dsimp only
    rw [htext]
  constructor
  · intro hnone
    rw [renderDiagnostic, hsnippet, if_pos hnone, List.append_nil]
  · intro hsome
    refine ⟨_, by rw [renderDiagnostic, hsnippet, if_neg hsome], ?_⟩
    refine caretLine_underlines (by omega) ?_ (by omega) ?_
    · rw [hloc, hcut, Nat.add_sub_cancel_left]
    · omega

/-- A file of two lines that end in `\r\n`. -/
def twoLines : SourceManager := [⟨"b.hlsl".toList, "int a;\r\nint bc;\r\n".toList⟩]

/-- A diagnostic of its last eight bytes, from `bc` on. -/
def unusedName : Diagnostic :=
  ⟨"unused-name".toList, .warning, ⟨⟨1⟩, ⟨12, 20⟩⟩, "`bc` is not used".toList, []⟩

/-- Two bytes and the semicolon are marked. -/
example : snippet unusedName twoLines = "  2 | int bc;\n          ^^^\n".toList := by decide +kernel

theorem renderDiagnostic_underlines_twoLines :
    ∃ c : LineCut, c.contents = "int a;\r\nint bc;\r\n".toList
      ∧ c.offset = min 12 17
      ∧ (c.text = [] → renderDiagnostic unusedName twoLines = headline unusedName twoLines)
      ∧ (c.text ≠ [] → ∃ marks,
          renderDiagnostic unusedName twoLines
              = headline unusedName twoLines ++ (gutter (locOf unusedName twoLines) ++ c.text ++ "\n".toList
                ++ marks ++ "\n".toList)
            ∧ Underlines marks (gutter (locOf unusedName twoLines)) c.text c.before.length c.offset 20) :=
  renderDiagnostic_underlines unusedName twoLines rfl (by decide)

end ShaderClippy.Cli
