/-
  ShaderClippy.Suppress.OwnLine

  **THE SCOPE OF A MARKER ON A LINE OF ITS OWN** (`next_code_line_start`,
  `next_code_line_end`, `skip_ws_and_comments`).

  Three loops go from the marker to the next code, each in its own way: two
  go line by line and one byte by byte. Without CR they arrive at the same
  byte, which the segmentation names too (`NextCode`); so the scope is what
  is left of that byte's line (`resolveScope_ownLine`), as long as its end
  fits into 32 bits.
-/
import Mathlib
import ShaderClippy.Suppress.Crlf
import ShaderClippy.Suppress.EndToEnd

namespace ShaderClippy.Suppress

open SourceFile (u32)

/-! ## §1. The two walkers. -/

/-- The loop of `next_code_line_start`: where the round began that found
code. -/
def startLoop (s : Text) : Option Text :=
  if s = [] then none
  else
    match _h : codeLineRound s with
    | some rest => startLoop rest
    | none => some s
  termination_by s.length
  decreasing_by exact length_codeLineRound_lt _h

/-- The loop of `next_code_line_end`: the end of the line of the code found. -/
def endLoop (s : Text) : Option Text :=
  if s = [] then none
  else
    match _h : codeLineRound s with
    | some rest => endLoop rest
    | none => some (endOfLine (skipInlineWs s))
  termination_by s.length
  decreasing_by exact length_codeLineRound_lt _h

/-- The first walker, as one half of the common search. -/
theorem startLoop_eq (s : Text) : startLoop s = (nextCodeLine s).map Prod.fst := by
  fun_induction startLoop s with
  | case1 =>
      rw [nextCodeLine, if_pos rfl]
      rfl
  | case2 s _ rest heq ih => rw [nextCodeLine_some heq, ih]
  | case3 s hs heq =>
      rw [nextCodeLine_none hs heq]
      rfl

/-- The second walker, as the other half. -/
theorem endLoop_eq (s : Text) : endLoop s = (nextCodeLine s).map fun p => endOfLine p.2 := by
  fun_induction endLoop s with
  | case1 =>
      rw [nextCodeLine, if_pos rfl]
      rfl
  | case2 s _ rest heq ih => rw [nextCodeLine_some heq, ih]
  | case3 s hs heq =>
      rw [nextCodeLine_none hs heq]
      rfl

/-! ## §2. The law. -/

/-- The offset of the next code behind a comment: only blanks and comments
stand between. -/
def NextCode (c : Comment) (t : Nat) : Prop :=
  ∃ gap seg later, c.after = gap ++ seg :: later ∧ hasCode gap = false ∧ seg.isCode = true
    ∧ t = (textOf (c.before ++ .line c.body :: gap)).length

/-- The end of the line that holds an offset. -/
def lineEnd (source : Text) (t : Nat) : Nat := offset source (endOfLine (source.drop t))

/-- The scope is what is left of the line of `t`: it begins with blanks, then
comes `t`, and it ends with the line. -/
structure OwnLineScope (source : Text) (t : Nat) (rs : ResolvedScope) : Prop where
  lo_le : rs.byteLo ≤ t
  lt_hi : t < rs.byteHi
  hi_eq : rs.byteHi = lineEnd source t
  blanks : Blanks ((source.drop rs.byteLo).take (t - rs.byteLo))

/-- The three loops stop together: at `t`, at the start of the scope and at its
end. -/
structure InStep (source commentHi : Text) (t : Nat) (rs : ResolvedScope) : Prop where
  code : skipWsAndComments commentHi = source.drop t
  start : startLoop (skipNewline commentHi) = some (source.drop rs.byteLo)
  stop : endLoop (skipNewline commentHi) = some (source.drop rs.byteHi)

/-! ## §3. Offsets. -/

theorem drop_offset {source s : Text} (h : s <:+ source) : source.drop (offset source s) = s :=
  (List.suffix_iff_eq_drop.mp h).symm

theorem offset_add {source s : Text} (h : s <:+ source) :
    offset source s + s.length = source.length := by
  have hle := h.length_le
  rw [offset]
  omega

/-- What is taken up to the place where a predicate ends. -/
theorem take_sub_dropWhile (p : Char → Bool) (s : Text) :
    s.take (s.length - (s.dropWhile p).length) = s.takeWhile p := by
  have hcut : s.takeWhile p ++ s.dropWhile p = s := List.takeWhile_append_dropWhile
  have hlen := congrArg List.length hcut
  rw [List.length_append] at hlen
  have hsub : s.length - (s.dropWhile p).length = (s.takeWhile p).length := by omega
  rw [hsub]
  exact List.prefix_iff_eq_take.mp (List.takeWhile_prefix p) |>.symm

/-! ## §4. The next code. -/

/-- At code, nothing is skipped. -/
theorem skipWsAndComments_code {s : Text} {seg : Segment} {later : List Segment}
    (h : Segmented s (seg :: later)) (hcode : seg.isCode = true) :
    skipWsAndComments s = s ∧ ∃ c cs, s = c :: cs ∧ isBlank c = false := by
  have hquoted : ∀ {quote : Char} {cs : Text}, isQuote quote = true →
      skipWsAndComments (quote :: cs) = quote :: cs
        ∧ ∃ c cs', quote :: cs = c :: cs' ∧ isBlank c = false := by
    intro quote cs hquote
    have hblank := quote_not_blank hquote
    exact ⟨skipWsAndComments_other hblank (startsComment_quote hquote cs), quote, cs, rfl, hblank⟩
  cases h with
  | line => exact absurd hcode nofun
  | block => exact absurd hcode nofun
  | blockOpen => exact absurd hcode nofun
  | literal hquote => exact hquoted hquote
  | literalOpen hquote => exact hquoted hquote
  | literalEscape hquote => exact hquoted hquote
  | @plain ch _ _ _ hcomment _ =>
      have hblank : isBlank ch = false := by simpa [Segment.isCode] using hcode
      exact ⟨skipWsAndComments_other hblank hcomment, _, _, rfl, hblank⟩

/-- Blanks and comments are skipped up to the next code. -/
theorem skipWsAndComments_gap {gap : List Segment} {seg : Segment} {later : List Segment}
    (hcode : seg.isCode = true) (hgap : hasCode gap = false) :
    ∀ {s : Text}, Segmented s (gap ++ seg :: later) →
      skipWsAndComments s = textOf (seg :: later) := by
  induction gap with
  | nil =>
      intro s h
      have hs : Segmented s (seg :: later) := h
      rw [(skipWsAndComments_code hs hcode).1, hs.textOf]
  | cons x gap ih =>
      intro s h
      have hx : x.isCode = false ∧ hasCode gap = false := by
        simpa [hasCode] using hgap
      have hs : Segmented s (x :: (gap ++ seg :: later)) := h
      generalize hsegs : gap ++ seg :: later = segs at hs ih
      have hne : segs ≠ [] := by
        rw [← hsegs]
        simp
      cases hs with
      | line hbody hrest hsegs' =>
          rw [skipWsAndComments_line, endOfLine_append hbody hrest]
          exact ih hx.2 hsegs'
      | block hbody hsegs' =>
          rw [skipWsAndComments_block, endOfBlock_append _ hbody]
          exact ih hx.2 hsegs'
      | blockOpen => exact absurd rfl hne
      | literalOpen => exact absurd rfl hne
      | literalEscape => exact absurd rfl hne
      -- a literal is code
      | literal => exact absurd hx.1 Bool.false_ne_true.symm
      | @plain ch _ _ _ _ hsegs' =>
          have hblank : isBlank ch = true := by simpa [Segment.isCode] using hx.1
          rw [skipWsAndComments_blank hblank]
          exact ih hx.2 hsegs'

/-! ## §5. The scope. -/

section Scope

variable {source : Text} {segs : List Segment} (h : Segmented source segs) {c : Comment}
  (hc : c ∈ commentsFrom [] segs) {t : Nat} (ht : NextCode c t)

include h hc

theorem suffix_after : textOf c.after <:+ source := by
  refine ⟨textOf c.before ++ ('/' :: '/' :: c.body), ?_⟩
  rw [source_eq h hc]
  simp

include ht

/-- The byte-wise loop finds the next code, and it is not blank. -/
theorem code_at : source.drop t <:+ textOf c.after
    ∧ skipWsAndComments (textOf c.after) = source.drop t
    ∧ offset source (source.drop t) = t
    ∧ ∃ ch cs, source.drop t = ch :: cs ∧ isBlank ch = false := by
  obtain ⟨gap, seg, later, hafter, hgap, hcode, hoff⟩ := ht
  obtain ⟨between, hbefore, hsplit⟩ := mem_commentsFrom.mp hc
  have hbetween : c.before = between := hbefore
  have hsegs : segs = (c.before ++ .line c.body :: gap) ++ seg :: later := by
    rw [hsplit, hafter, hbetween, List.append_assoc, List.cons_append]
  have htext : source = textOf (c.before ++ .line c.body :: gap) ++ textOf (seg :: later) := by
    rw [← textOf_append, ← hsegs]
    exact h.textOf.symm
  have hdrop : source.drop t = textOf (seg :: later) := by
    rw [hoff]
    conv => lhs; rw [htext]
    exact List.drop_left
  have hcodeSegs : Segmented (textOf (seg :: later)) (seg :: later) :=
    Segmented.drop (hsegs ▸ h)
  have hafterSegs : Segmented (textOf c.after) (gap ++ seg :: later) := by
    have hcut : segs = (c.before ++ [.line c.body]) ++ c.after := by
      rw [hsplit, hbetween, List.append_assoc]
      rfl
    rw [← hafter]
    exact Segmented.drop (hcut ▸ h)
  refine ⟨?_, ?_, ?_, ?_⟩
  · rw [hdrop, hafter, textOf_append]
    exact List.suffix_append _ _
  · rw [hdrop]
    exact skipWsAndComments_gap hcode hgap hafterSegs
  · have hlen := congrArg List.length htext
    rw [List.length_append] at hlen
    rw [hdrop, offset, hoff]
    omega
  · rw [hdrop]
    exact (skipWsAndComments_code hcodeSegs hcode).2

/-- **What `resolve_scope` comes to**: the place where a line-wise round began,
and the end of the line of the code. -/
theorem resolveScope_ownLine (hcr : '\r' ∉ source) (hfirst : firstOnLine c.before = true)
    (hbrace : source[t]? ≠ some '{') (seen : Bool) (names : List Text) :
    ∃ start, start <:+ source ∧ skipInlineWs start = source.drop t
      ∧ nextCodeLine (skipNewline (textOf c.after)) = some (start, source.drop t)
      ∧ (resolveScope source (c.body ++ textOf c.after) seen names).byteLo
          = u32 (offset source start)
      ∧ (resolveScope source (c.body ++ textOf c.after) seen names).byteHi
          = u32 (lineEnd source t) := by
  obtain ⟨_, hnext, _, ch, cs, hdrop, _⟩ := code_at h hc ht
  obtain ⟨hbody, hrest⟩ := comment_ends h hc
  have hsame : sameLineCode source (c.body ++ textOf c.after) = false := by
    rw [sameLineCode, lineBefore_comment h hc, ← List.not_all_eq_any_not]
    rw [firstOnLine] at hfirst
    rw [hfirst]
    rfl
  -- the code is no brace, so the line search decides
  have hchar : ch ≠ '{' := by
    intro heq
    apply hbrace
    have hhead : (source.drop t)[0]? = source[t + 0]? := List.getElem?_drop
    rw [hdrop, heq] at hhead
    exact hhead.symm
  have hafterCr : '\r' ∉ skipNewline (textOf c.after) := by
    intro hmem
    exact hcr (((suffix_skipNewline _).trans (suffix_after h hc)).subset hmem)
  have htoken : skipWsAndComments (skipNewline (textOf c.after)) = ch :: cs := by
    rw [skipWsAndComments_skipNewline, hnext, hdrop]
  obtain ⟨start, hstart⟩ := nextCodeLine_of_token hafterCr htoken
  obtain ⟨hsuffix, hskip⟩ := nextCodeLine_spec hstart
  have hscope : resolveScope source (c.body ++ textOf c.after) seen names
      = ⟨nextCodeLineStart source (textOf c.after), nextCodeLineEnd source (textOf c.after),
          !seen && containsWildcard names⟩ := by
    rw [resolveScope, hsame, endOfLine_append hbody hrest, hnext, hdrop]
    simp only [Bool.false_eq_true, if_false]
  refine ⟨start, hsuffix.trans ((suffix_skipNewline _).trans (suffix_after h hc)), ?_, ?_, ?_, ?_⟩
  · rw [hdrop, hskip]
  · rw [hdrop]
    exact hstart
  · rw [hscope]
    show nextCodeLineStart source (textOf c.after) = _
    unfold nextCodeLineStart
    rw [hstart]
  · rw [hscope]
    show nextCodeLineEnd source (textOf c.after) = _
    rw [nextCodeLineEnd, hstart, lineEnd, hdrop]

end Scope

/-- **The scope of a marker on a line of its own**, and the three loops in
step, where the line of the next code ends before byte 2³². -/
theorem ownLine_scope {source : Text} {segs : List Segment} (h : Segmented source segs)
    (hcr : '\r' ∉ source) {c : Comment} (hc : c ∈ commentsFrom [] segs)
    (hfirst : firstOnLine c.before = true) {t : Nat} (ht : NextCode c t)
    (hbrace : source[t]? ≠ some '{') (hsize : lineEnd source t < 2 ^ 32) (names : List Text) :
    OwnLineScope source t (resolveScope source (c.body ++ textOf c.after) (hasCode c.before) names)
      ∧ InStep source (textOf c.after) t
        (resolveScope source (c.body ++ textOf c.after) (hasCode c.before) names) := by
  obtain ⟨_, hnext, hoff, ch, cs, hdrop, hblank⟩ := code_at h hc ht
  obtain ⟨start, hsuffix, hskip, hfound, hlo, hhi⟩ :=
    resolveScope_ownLine h hc ht hcr hfirst hbrace (hasCode c.before) names
  have hcodeSuffix : source.drop t <:+ source := List.drop_suffix t source
  have hendSuffix : endOfLine (source.drop t) <:+ source :=
    (List.dropWhile_suffix _).trans hcodeSuffix
  have hstartLen := offset_add hsuffix
  have hcodeLen := offset_add hcodeSuffix
  have hendLen := offset_add hendSuffix
  have hskipLen := length_skipInlineWs_le start
  -- the code itself is not a line break, so its line ends behind it
  have hshort : (endOfLine (source.drop t)).length < (source.drop t).length := by
    rw [hdrop]
    have hne : ch ≠ '\n' := by
      intro heq
      rw [heq] at hblank
      exact absurd hblank (by decide)
    rw [endOfLine_cons hne, List.length_cons]
    have := length_endOfLine_le cs
    omega
  have hloExact : (resolveScope source (c.body ++ textOf c.after) (hasCode c.before) names).byteLo
      = offset source start := by
    rw [hlo]
    refine Nat.mod_eq_of_lt ?_
    rw [lineEnd] at hsize
    rw [hskip] at hskipLen
    omega
  have hhiExact : (resolveScope source (c.body ++ textOf c.after) (hasCode c.before) names).byteHi
      = lineEnd source t := by
    rw [hhi]
    exact Nat.mod_eq_of_lt hsize
  have hdropStart := drop_offset hsuffix
  constructor
  · refine ⟨?_, ?_, hhiExact, ?_⟩
    · rw [hloExact]
      rw [hskip] at hskipLen
      omega
    · rw [hhiExact, lineEnd]
      omega
    · have hsub : t - offset source start = start.length - (skipInlineWs start).length := by
        rw [hskip]
        omega
      rw [hloExact, hdropStart, hsub]
      show Blanks (start.take (start.length - (start.dropWhile isSpaceOrTab).length))
      rw [take_sub_dropWhile]
      exact blanks_takeWhile start
  · refine ⟨hnext, ?_, ?_⟩
    · rw [startLoop_eq, hfound, hloExact, hdropStart]
      rfl
    · rw [endLoop_eq, hfound, hhiExact, lineEnd, drop_offset hendSuffix]
      rfl

/-! ## §6. A block comment that ends on the code line, and a line of 4 GiB. -/

/-- A marker, then `/* c */ x`. -/
def commentedLine : Text :=
  '/' :: '/' :: (remarkedBody ++ '\n' :: '/' :: '*' :: ([' ', 'c', ' '] ++ '*' :: '/' :: [' ', 'x']))

def commentedGap : List Segment :=
  [.plain '\n', .block ('/' :: '*' :: ([' ', 'c', ' '] ++ kClose)), .plain ' ']

theorem segmented_commentedLine :
    Segmented commentedLine (.line remarkedBody :: (commentedGap ++ [.plain 'x'])) := by
  have hblock : Segmented ('/' :: '*' :: ([' ', 'c', ' '] ++ '*' :: '/' :: [' ', 'x']))
      [.block ('/' :: '*' :: ([' ', 'c', ' '] ++ kClose)), .plain ' ', .plain 'x'] :=
    .block (by decide) (.plain rfl rfl (.plain rfl rfl .nil))
  exact .line (by decide) (Or.inr ⟨_, rfl⟩) (.plain rfl rfl hblock)

theorem ownLine_scope_commentedLine :
    OwnLineScope commentedLine 37
        (resolveScope commentedLine (remarkedBody ++ textOf (commentedGap ++ [.plain 'x'])) false
          [['a']])
      ∧ InStep commentedLine (textOf (commentedGap ++ [.plain 'x'])) 37
        (resolveScope commentedLine (remarkedBody ++ textOf (commentedGap ++ [.plain 'x'])) false
          [['a']]) :=
  ownLine_scope segmented_commentedLine (by decide)
    (mem_commentsFrom.mpr ⟨[], rfl, rfl⟩ :
      (⟨[], remarkedBody, commentedGap ++ [.plain 'x']⟩ : Comment) ∈ commentsFrom [] _)
    (by decide) ⟨commentedGap, .plain 'x', [], rfl, by decide, by decide, by decide⟩ (by decide)
    (by decide) [['a']]

/-- A marker, then a line of `n` bytes. -/
def longLine (n : Nat) : Text :=
  '/' :: '/' :: (remarkedBody ++ '\n' :: (List.replicate n 'x' ++ []))

theorem mem_longLine {n : Nat} {c : Char} (h : c ∈ longLine n) :
    c ∈ '/' :: '/' :: (remarkedBody ++ ['\n']) ∨ c = 'x' := by
  have hcut : longLine n = ('/' :: '/' :: (remarkedBody ++ ['\n'])) ++ List.replicate n 'x' := by
    simp [longLine]
  rw [hcut] at h
  rcases List.mem_append.mp h with h | h
  · exact Or.inl h
  · exact Or.inr (List.eq_of_mem_replicate h)

theorem segmented_longLine (n : Nat) :
    Segmented (longLine n)
      (.line remarkedBody :: .plain '\n' :: ((List.replicate n 'x').map .plain ++ [])) := by
  have hplain : plainText (List.replicate n 'x') = true := by
    refine List.all_eq_true.mpr fun c hc => ?_
    rw [List.eq_of_mem_replicate hc]
    rfl
  exact .line (by decide) (Or.inr ⟨_, rfl⟩) (.plain rfl rfl (.plains hplain .nil))

/-- The scope ends at the end of the file, counted in 32 bits. -/
theorem lineEnd_longLine (n : Nat) : lineEnd (longLine n) 29 = 29 + n := by
  have hcut : longLine n = ('/' :: '/' :: (remarkedBody ++ ['\n'])) ++ List.replicate n 'x' := by
    simp [longLine]
  have hpre : ('/' :: '/' :: (remarkedBody ++ ['\n'])).length = 29 := by decide
  have hdrop : (longLine n).drop 29 = List.replicate n 'x' := by
    rw [hcut, ← hpre, List.drop_left]
  have hend : endOfLine (List.replicate n 'x') = [] := by
    rw [endOfLine, List.dropWhile_eq_nil_iff]
    intro c hc
    rw [List.eq_of_mem_replicate hc]
    rfl
  rw [lineEnd, hdrop, hend, offset, hcut, List.length_append, hpre, List.length_replicate]
  rfl

/-- **A code line that ends behind byte 2³²**: the end of the scope wraps. -/
theorem ownLine_fourGiB :
    ¬ ∀ (source : Text) (segs : List Segment) (c : Comment) (names : List Text) (tail : Text)
        (t : Nat), Segmented source segs → '\r' ∉ source → c ∈ commentsFrom [] segs →
      MarkerText c.body names tail → firstOnLine c.before = true → NextCode c t →
      source[t]? ≠ some '{' →
      OwnLineScope source t
        (resolveScope source (c.body ++ textOf c.after) (hasCode c.before) names) := by
  intro hall
  have hsegs := segmented_longLine (2 ^ 32)
  have hcr : '\r' ∉ longLine (2 ^ 32) := by
    intro hmem
    rcases mem_longLine hmem with h | h
    · exact absurd h (by decide)
    · exact absurd h (by decide)
  have hbrace : (longLine (2 ^ 32))[29]? ≠ some '{' := by
    intro hget
    rcases mem_longLine (List.mem_of_getElem? hget) with h | h
    · exact absurd h (by decide)
    · exact absurd h (by decide)
  obtain ⟨c, hc, hbody, hbefore, hafter⟩ : ∃ c ∈ commentsFrom []
      (.line remarkedBody :: .plain '\n' :: ((List.replicate (2 ^ 32) 'x').map Segment.plain ++ [])),
      c.body = remarkedBody ∧ c.before = []
        ∧ c.after = .plain '\n' :: ((List.replicate (2 ^ 32) 'x').map Segment.plain ++ []) :=
    ⟨⟨[], remarkedBody, _⟩, mem_commentsFrom.mpr ⟨[], rfl, rfl⟩, rfl, rfl, rfl⟩
  have hnext : NextCode c 29 := by
    refine ⟨[.plain '\n'], .plain 'x', (List.replicate (2 ^ 32 - 1) 'x').map .plain, ?_, rfl, rfl, ?_⟩
    · have hone : List.replicate (2 ^ 32) 'x' = 'x' :: List.replicate (2 ^ 32 - 1) 'x' :=
        List.replicate_succ
      rw [hafter, hone, List.append_nil]
      rfl
    · rw [hbefore, hbody]
      rfl
  have hfirst : firstOnLine c.before = true := by
    rw [hbefore]
    rfl
  have hmarker : MarkerText c.body [['a']] [' ', 'b'] := by
    rw [hbody]
    exact markerText_remarked
  obtain ⟨_, _, _, _, _, hhi⟩ :=
    resolveScope_ownLine hsegs hc hnext hcr hfirst hbrace (hasCode c.before) [['a']]
  have hlt := (hall _ _ c _ _ 29 hsegs hcr hc hmarker hfirst hnext hbrace).lt_hi
  rw [hhi, lineEnd_longLine, SourceFile.u32, Nat.add_mod_right] at hlt
  exact absurd hlt (by decide)

end ShaderClippy.Suppress
