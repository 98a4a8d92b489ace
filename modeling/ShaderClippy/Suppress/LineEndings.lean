/-
  ShaderClippy.Suppress.LineEndings

  **SUPPRESSION DOES NOT SEE THE LINE ENDING, EXCEPT AT A BLANK LINE.**

  A source with LF line breaks is scanned, and so is its CR LF version. Both
  scans find the same entries, over the same bytes, unless a marker is for the
  next code line and a blank line is in front of that: with LF the search goes
  past the blank line, with CR LF it takes the CR of it for code
  (`lineEndingInvariant_iff`).
-/
import Mathlib
import ShaderClippy.Suppress.EndToEnd
import ShaderClippy.Suppress.Crlf

namespace ShaderClippy.Suppress

open SourceFile (u32)

/-! ## §1. The offset mapping. -/

/-- Where the CR LF version has the byte at this offset. -/
def bytePos (s : Text) (k : Nat) : Nat := k + (s.take (k + 1)).count '\n'

/-- A range of the source and one of its CR LF version cover the same bytes,
those the version adds apart. -/
def SameBytes (s : Text) (range range' : Nat × Nat) : Prop :=
  ∀ k < s.length, (range.1 ≤ k ∧ k < range.2) ↔ (range'.1 ≤ bytePos s k ∧ bytePos s k < range'.2)

/-- The two offsets have the same bytes in front of them. -/
def SameCut (s : Text) (o o' : Nat) : Prop := ∀ k < s.length, k < o ↔ bytePos s k < o'

theorem SameCut.sameBytes {s : Text} {lo hi lo' hi' : Nat} (hlo : SameCut s lo lo')
    (hhi : SameCut s hi hi') : SameBytes s (lo, hi) (lo', hi') := by
  intro k hk
  have h1 := hlo k hk
  have h2 := hhi k hk
  show lo ≤ k ∧ k < hi ↔ lo' ≤ bytePos s k ∧ bytePos s k < hi'
  omega

/-- A byte comes last in the version of the text up to it. -/
theorem bytePos_succ {s : Text} {k : Nat} (hk : k < s.length) :
    bytePos s k + 1 = (crlf (s.take (k + 1))).length := by
  rw [length_crlf, bytePos, List.length_take, Nat.min_eq_left hk]
  omega

theorem bytePos_lt {u t : Text} {k : Nat} (hk : k < u.length) :
    bytePos (u ++ t) k < (crlf u).length := by
  have hsucc := bytePos_succ (s := u ++ t) (k := k) (by rw [List.length_append]; omega)
  have ⟨w, hw⟩ : u.take (k + 1) <+: u := List.take_prefix _ _
  have hlen := congrArg (fun v => (crlf v).length) hw
  rw [List.take_append_of_le_length (show k + 1 ≤ u.length from hk)] at hsucc
  simp only [crlf_append, List.length_append] at hlen
  omega

/-- The last byte in front of a cut, and the first behind it. -/
theorem le_bytePos {u t : Text} {k : Nat} (hk : u.length ≤ k) (hlt : k < (u ++ t).length) :
    (crlf (u ++ t.take (k + 1 - u.length))).length ≤ bytePos (u ++ t) k + 1 := by
  have htake : (u ++ t).take (k + 1) = u ++ t.take (k + 1 - u.length) := by
    rw [List.take_append, List.take_of_length_le (show u.length ≤ k + 1 by omega)]
  rw [bytePos_succ hlt, htake]

theorem offset_append (u t : Text) : offset (u ++ t) t = u.length := by
  rw [offset, List.length_append]
  omega

theorem offset_crlf_append (u t : Text) : offset (crlf (u ++ t)) (crlf t) = (crlf u).length := by
  rw [crlf_append, offset_append]

/-- The version of what is left begins at the same cut. -/
theorem sameCut_crlf {s t : Text} (h : t <:+ s) :
    SameCut s (offset s t) (offset (crlf s) (crlf t)) := by
  have ⟨u, hu⟩ := h
  subst hu
  intro k hk
  rw [offset_append, offset_crlf_append]
  constructor
  · exact bytePos_lt
  · intro hlt
    by_contra hge
    have hle := le_bytePos (Nat.le_of_not_lt hge) hk
    have hne : t.take (k + 1 - u.length) ≠ [] := by
      rw [List.length_append] at hk
      intro hnil
      rcases List.take_eq_nil_iff.mp hnil with hz | hz
      · omega
      · rw [hz, List.length_nil] at hk
        omega
    have hpos : 0 < (crlf (t.take (k + 1 - u.length))).length :=
      List.length_pos_of_ne_nil fun hnil => hne (crlf_eq_nil.mp hnil)
    rw [crlf_append, List.length_append] at hle
    omega

/-- At a line break the CR may be in front of the cut or behind it. -/
theorem sameCut_tailCrlf {s t : Text} (h : t <:+ s) :
    SameCut s (offset s t) (offset (crlf s) (tailCrlf t)) := by
  fun_cases tailCrlf t with
  | case2 => exact sameCut_crlf h
  | case1 rest =>
      have hcut := sameCut_crlf h
      obtain ⟨u, hu⟩ := h
      subst hu
      intro k hk
      have hk' := hcut k hk
      have hshift : offset (crlf (u ++ '\n' :: rest)) ('\n' :: crlf rest) = (crlf u).length + 1 := by
        rw [offset, crlf_append, crlf_newline, List.length_append]
        simp only [List.length_cons]
        omega
      rw [offset_append, offset_crlf_append] at hk'
      rw [offset_append, hshift]
      constructor
      · intro hlt
        have := hk'.mp hlt
        omega
      · intro hlt
        by_contra hge
        have hle := le_bytePos (Nat.le_of_not_lt hge) hk
        have htake : ∃ w, ('\n' :: rest).take (k + 1 - u.length) = '\n' :: w :=
          ⟨rest.take (k - u.length), by
            rw [show k + 1 - u.length = (k - u.length) + 1 by omega]
            rfl⟩
        obtain ⟨w, hw⟩ := htake
        rw [hw, crlf_append, crlf_newline, List.length_append] at hle
        simp only [List.length_cons] at hle
        omega

/-! ## §2. Markers. -/

/-- A text of one line is the same in both versions. -/
theorem crlf_unbroken {s : Text} (h : '\n' ∉ s) : crlf s = s := by
  induction s with
  | nil => rfl
  | cons c cs ih =>
      have hc : c ≠ '\n' := fun heq => h (heq ▸ List.mem_cons_self ..)
      rw [crlf_cons hc, ih fun hmem => h (List.mem_cons_of_mem _ hmem)]

/-- A CR behind the comment belongs to what follows the marker. -/
theorem markerText_cr {body : Text} {names : List Text} :
    (∃ tail, MarkerText (body ++ ['\r']) names tail) ↔ ∃ tail, MarkerText body names tail := by
  constructor
  · rintro ⟨tail, hne, a, b, c, list, ha, hb, hc, hlist, htext⟩
    -- the marker does not end with the CR
    rcases List.eq_nil_or_concat tail with rfl | ⟨t, d, rfl⟩
    · have hclosed : body ++ ['\r']
          = (a ++ (kMarker ++ (b ++ (kAllow ++ (c ++ '(' :: list))))) ++ [')'] := by
        rw [htext]
        simp
      have hlast := congrArg List.getLast? hclosed
      rw [List.getLast?_concat, List.getLast?_concat] at hlast
      exact absurd hlast (by decide)
    · have hsplit : body ++ ['\r']
          = (a ++ (kMarker ++ (b ++ (kAllow ++ (c ++ '(' :: (list ++ ')' :: t)))))) ++ [d] := by
        rw [htext]
        simp
      exact ⟨t, hne, a, b, c, list, ha, hb, hc, hlist, (List.append_inj' hsplit rfl).1⟩
  · rintro ⟨tail, hne, a, b, c, list, ha, hb, hc, hlist, rfl⟩
    exact ⟨tail ++ ['\r'], hne, a, b, c, list, ha, hb, hc, hlist, by simp⟩

/-- The marker is one, and names something. -/
def ParsedMarker.accepted (m : ParsedMarker) : Bool := m.wellFormed && !m.rules.isEmpty

/-- The marker of the comment with this body. -/
def markerOf (body : Text) : ParsedMarker := parseMarker body (endOfLine body).length

/-- A marker does not depend on what stands behind its line. -/
theorem markerOf_append {body rest : Text} (hbody : '\n' ∉ body) (hrest : EndsLine rest) :
    markerOf (body ++ rest) = parseMarker body 0 := by
  rw [markerOf, endOfLine_append hbody hrest, parseMarker_append hrest]

/-- A marker is accepted when its text is that of one. -/
theorem accepted_iff {body rest : Text} (hbody : '\n' ∉ body) (hrest : EndsLine rest) :
    (markerOf (body ++ rest)).accepted = true ↔ ∃ names tail, MarkerText body names tail := by
  rw [markerOf_append hbody hrest]
  exact parsed_iff body

/-- Both versions of a comment are a marker for the same names, or neither. -/
theorem markerOf_crlf {body rest : Text} (hbody : '\n' ∉ body) (hrest : EndsLine rest) :
    (markerOf (crlf (body ++ rest))).accepted = (markerOf (body ++ rest)).accepted
      ∧ ((markerOf (body ++ rest)).accepted = true →
          markerOf (crlf (body ++ rest)) = markerOf (body ++ rest)) := by
  rw [crlf_append, crlf_unbroken hbody]
  rcases hrest with rfl | ⟨t, rfl⟩
  · exact ⟨rfl, fun _ => rfl⟩
  · have hbody' : '\n' ∉ body ++ ['\r'] := by simp [hbody]
    have hends : ∀ u, EndsLine ('\n' :: u) := fun u => Or.inr ⟨u, rfl⟩
    have htext : body ++ crlf ('\n' :: t) = (body ++ ['\r']) ++ '\n' :: crlf t := by
      rw [List.append_assoc]
      rfl
    have hnames : ∀ names, (∃ tail, MarkerText (body ++ ['\r']) names tail)
        ↔ ∃ tail, MarkerText body names tail := fun _ => markerText_cr
    have hiff : (markerOf (body ++ crlf ('\n' :: t))).accepted = true
        ↔ (markerOf (body ++ '\n' :: t)).accepted = true := by
      rw [htext, accepted_iff hbody' (hends _), accepted_iff hbody (hends _)]
      exact exists_congr hnames
    refine ⟨Bool.eq_iff_iff.mpr hiff, fun hok => ?_⟩
    have ⟨names, hmarker⟩ := (accepted_iff hbody (hends t)).mp hok
    have ⟨tail, hmarker'⟩ := (hnames names).mpr hmarker
    have ⟨_, hmarker⟩ := hmarker
    rw [htext, markerOf_append hbody' (hends _), markerOf_append hbody (hends _),
      parseMarker_of_markerText hmarker', parseMarker_of_markerText hmarker]

theorem isPrefixOf_crlf {needle : Text} (hlf : '\n' ∉ needle) (hcr : '\r' ∉ needle) (s : Text) :
    startsWith (crlf s) needle = startsWith s needle := by
  rw [startsWith, startsWith]
  induction needle generalizing s with
  | nil => simp
  | cons d ds ih =>
      have hd : d ≠ '\n' ∧ d ≠ '\r' :=
        ⟨fun heq => hlf (heq ▸ List.mem_cons_self ..), fun heq => hcr (heq ▸ List.mem_cons_self ..)⟩
      cases s with
      | nil => rfl
      | cons c cs =>
          by_cases hc : c = '\n'
          · subst hc
            have h1 : (d == '\n') = false := beq_eq_false_iff_ne.mpr hd.1
            have h2 : (d == '\r') = false := beq_eq_false_iff_ne.mpr hd.2
            rw [crlf_newline, List.isPrefixOf, List.isPrefixOf, h1, h2]
            rfl
          · rw [crlf_cons hc, List.isPrefixOf, List.isPrefixOf,
              ih (fun hmem => hlf (List.mem_cons_of_mem _ hmem))
                (fun hmem => hcr (List.mem_cons_of_mem _ hmem))]

theorem triggered_crlf (body : Text) :
    startsWith (skipInlineWs (crlf body)) kMarker = startsWith (skipInlineWs body) kMarker := by
  rw [skipInlineWs_crlf, isPrefixOf_crlf (by decide) (by decide)]

/-! ## §3. Scopes. -/

theorem lastLine_crlf (s : Text) : Lines.lastLine '\n' (crlf s) = Lines.lastLine '\n' s := by
  have hlast := Lines.not_mem_lastLine '\n' s
  have hsplit := Lines.wholeLines_append_lastLine '\n' s
  generalize Lines.lastLine '\n' s = l at hlast hsplit ⊢
  rw [← hsplit, crlf_append, crlf_unbroken hlast, Lines.lastLine_append _ hlast]
  have hwhole : Lines.lastLine '\n' (crlf (Lines.wholeLines '\n' s)) = [] := by
    rcases Lines.whole_wholeLines '\n' s with hw | ⟨w, hw⟩
    · rw [hw]
      rfl
    · rw [hw, crlf_append]
      show Lines.lastLine '\n' (crlf w ++ ['\r', '\n']) = []
      rw [Lines.lastLine, show crlf w ++ ['\r', '\n'] = (crlf w ++ ['\r']) ++ ['\n'] by simp,
        List.rtakeWhile_concat_neg _ _ _ (by simp)]
  rw [hwhole, List.nil_append]

/-- Where the line of the comment begins. -/
def lineStart (source body : Text) : Nat := offset source body - 2 - (lineBefore source body).length

/-- The range of a resolved scope. -/
def ResolvedScope.range (rs : ResolvedScope) : Nat × Nat := (rs.byteLo, rs.byteHi)

theorem wildcardAtTop_eq (source body : Text) (seen : Bool) (rules : List Text) :
    (resolveScope source body seen rules).wildcardAtTop =
      (!sameLineCode source body && (!seen && containsWildcard rules)) := by
  rw [resolveScope]
  cases sameLineCode source body with
  | true => rfl
  | false =>
      simp only [Bool.false_eq_true, if_false, Bool.not_false, Bool.true_and]
      split <;> rfl

section Scope

variable {source body : Text} (seen : Bool) (rules : List Text)

/-- Behind code the scope is the line of the comment. -/
theorem range_trailing (h : sameLineCode source body = true) :
    (resolveScope source body seen rules).range =
      (u32 (lineStart source body), u32 (offset source (endOfLine body))) := by
  rw [resolveScope, if_pos h]
  rfl

theorem range_end (h : sameLineCode source body = false)
    (htoken : skipWsAndComments (endOfLine body) = []) :
    (resolveScope source body seen rules).range =
      (u32 (offset source (endOfLine body)), u32 (offset source (endOfLine body))) := by
  simp only [resolveScope, h, htoken]
  rfl

/-- In front of a brace the scope is the block. -/
theorem range_brace (h : sameLineCode source body = false) {t : Text}
    (htoken : skipWsAndComments (endOfLine body) = '{' :: t) :
    (resolveScope source body seen rules).range =
      (u32 (offset source ('{' :: t)), u32 (offset source (endOfBlockBrace ('{' :: t)))) := by
  simp only [resolveScope, h, htoken]
  rfl

/-- Else it is the next code line. -/
theorem range_line (h : sameLineCode source body = false) {c : Char} {t : Text}
    (htoken : skipWsAndComments (endOfLine body) = c :: t) (hc : c ≠ '{') {start code : Text}
    (hfound : nextCodeLine (skipNewline (endOfLine body)) = some (start, code)) :
    (resolveScope source body seen rules).range =
      (u32 (offset source start), u32 (offset source (endOfLine code))) := by
  simp only [resolveScope, h, htoken, Bool.false_eq_true, if_false]
  rw [ResolvedScope.range, nextCodeLineStart, nextCodeLineEnd, hfound]

end Scope

theorem lineStart_le (source body : Text) : lineStart source body ≤ source.length := by
  rw [lineStart, offset]
  omega

theorem lineBefore_eq {source before body : Text} (h : source = before ++ '/' :: '/' :: body) :
    lineBefore source body = Lines.lastLine '\n' before := by
  have hoffset : offset source body - 2 = before.length := by
    rw [h, offset, List.length_append]
    simp only [List.length_cons]
    omega
  rw [lineBefore, hoffset, h, List.take_left]

theorem lineStart_eq {source before body : Text} (h : source = before ++ '/' :: '/' :: body) :
    lineStart source body = (Lines.wholeLines '\n' before).length := by
  have hlen := Lines.length_wholeLines '\n' before
  rw [lineStart, lineBefore_eq h, h, offset, List.length_append]
  simp only [List.length_cons]
  omega

theorem crlf_comment {source before body : Text} (h : source = before ++ '/' :: '/' :: body) :
    crlf source = crlf before ++ '/' :: '/' :: crlf body := by
  rw [h, crlf_append, crlf_slash, crlf_slash]

/-- Whether code stands in front of a comment is the same in both versions. -/
theorem sameLineCode_crlf {source before body : Text} (h : source = before ++ '/' :: '/' :: body) :
    sameLineCode (crlf source) (crlf body) = sameLineCode source body := by
  rw [sameLineCode, sameLineCode, lineBefore_eq h, lineBefore_eq (crlf_comment h), lastLine_crlf]

theorem u32_offset {source : Text} (hsize : source.length < 2 ^ 32) (t : Text) :
    u32 (offset source t) = offset source t := by
  rw [u32, Nat.mod_eq_of_lt]
  exact Nat.lt_of_le_of_lt (Nat.sub_le _ _) hsize

theorem length_le_crlf (s : Text) : s.length ≤ (crlf s).length := by
  rw [length_crlf]
  omega

theorem suffix_skipWsAndComments (s : Text) : skipWsAndComments s <:+ s := by
  fun_induction skipWsAndComments s with
  | case1 => exact List.suffix_refl _
  | case2 c cs _ ih => exact ih.trans (List.suffix_cons c cs)
  | case3 body _ ih =>
      exact ih.trans ((List.dropWhile_suffix _).trans ⟨['/', '/'], rfl⟩)
  | case4 body _ ih => exact ih.trans ((suffix_endOfBlock _).trans ⟨['/', '*'], rfl⟩)
  | case5 => exact List.suffix_refl _

theorem suffix_skipToken (s : Text) : skipToken s <:+ s := by
  fun_cases skipToken s with
  | case1 body => exact (List.dropWhile_suffix _).trans ⟨['/', '/'], rfl⟩
  | case2 body => exact (suffix_endOfBlock _).trans ⟨['/', '*'], rfl⟩
  | case3 c cs => exact (suffix_skipStringLiteral c cs).trans (List.suffix_cons c cs)
  | case4 => exact List.suffix_refl _
  | case5 => exact List.suffix_refl _

theorem suffix_braceLoop (depth : Nat) (s : Text) : braceLoop depth s <:+ s := by
  fun_induction braceLoop depth s with
  | case1 => exact List.suffix_refl _
  | case2 depth c cs _ ih => exact ih.trans (suffix_skipToken _)
  | case3 depth cs _ ih => exact ih.trans (List.suffix_cons _ _)
  | case4 => exact List.suffix_cons _ _
  | case5 depth cs _ _ _ ih => exact ih.trans (List.suffix_cons _ _)
  | case6 depth c cs _ _ _ ih => exact ih.trans (List.suffix_cons _ _)

theorem token_ne_newline {s t : Text} {c : Char} (h : skipWsAndComments s = c :: t) : c ≠ '\n' := by
  rintro rfl
  exact absurd (skipWsAndComments_cons h) (by decide)

/-- Both versions have the same token next. -/
theorem token_crlf {body t : Text} {c : Char} (h : skipWsAndComments (endOfLine body) = c :: t) :
    skipWsAndComments (endOfLine (crlf body)) = c :: crlf t := by
  rw [endOfLine_crlf, skipWsAndComments_tailCrlf, skipWsAndComments_crlf, h,
    crlf_cons (token_ne_newline h)]

/-- The scope of the comment is the next code line, and a blank line is in
front of that. -/
def scopeSkipsBlank (source body : Text) : Bool :=
  !sameLineCode source body
    && (skipWsAndComments (endOfLine body)).head?.any (fun c => c != '{')
    && skipsBlankLine (skipNewline (endOfLine body))

section Comment

variable {source before body : Text} (h : source = before ++ '/' :: '/' :: body)
  (hcr : '\r' ∉ source) (hsize : (crlf source).length < 2 ^ 32) (seen : Bool) (rules : List Text)

include h

theorem suffix_body : body <:+ source := ⟨before ++ ['/', '/'], by rw [h]; simp⟩

theorem suffix_endOfLine : endOfLine body <:+ source :=
  (List.dropWhile_suffix _).trans (suffix_body h)

/-- The line of the comment begins at the same cut. -/
theorem sameCut_lineStart :
    SameCut source (lineStart source body) (lineStart (crlf source) (crlf body)) := by
  have hlast := Lines.not_mem_lastLine '\n' before
  have hsplit := Lines.wholeLines_append_lastLine '\n' before
  have hlen := Lines.length_wholeLines '\n' (crlf before)
  rw [lastLine_crlf] at hlen
  rw [lineStart_eq h, lineStart_eq (crlf_comment h)]
  generalize Lines.lastLine '\n' before = l at hlast hsplit hlen
  generalize Lines.wholeLines '\n' before = w at hsplit
  have hcut : SameCut source w.length (crlf w).length := by
    have hsource : source = w ++ (l ++ '/' :: '/' :: body) := by rw [h, ← hsplit, List.append_assoc]
    have hcut := sameCut_crlf ⟨w, hsource.symm⟩
    rwa [hsource, offset_append, offset_crlf_append, ← hsource] at hcut
  rw [← hsplit, crlf_append, crlf_unbroken hlast, List.length_append] at hlen
  rwa [show (crlf w).length = (Lines.wholeLines '\n' (crlf (w ++ l))).length by
    rw [crlf_append, crlf_unbroken hlast]; omega, hsplit] at hcut

include hsize

/-- A comment behind code: the line, up to the end of the comment. -/
theorem sameBytes_trailing (hsame : sameLineCode source body = true) :
    SameBytes source (resolveScope source body seen rules).range
      (resolveScope (crlf source) (crlf body) seen rules).range := by
  have hle := length_le_crlf source
  have hsize' : source.length < 2 ^ 32 := Nat.lt_of_le_of_lt hle hsize
  have hlo := lineStart_le source body
  have hlo' := lineStart_le (crlf source) (crlf body)
  rw [range_trailing seen rules hsame,
    range_trailing seen rules ((sameLineCode_crlf h).trans hsame), u32_offset hsize,
    u32_offset hsize', endOfLine_crlf, u32, u32, Nat.mod_eq_of_lt (Nat.lt_of_le_of_lt hlo hsize'),
    Nat.mod_eq_of_lt (Nat.lt_of_le_of_lt hlo' hsize)]
  exact (sameCut_lineStart h).sameBytes (sameCut_tailCrlf (suffix_endOfLine h))

/-- The end of the file, or a block: no blank line is looked at. -/
theorem sameBytes_end (hsame : sameLineCode source body = false)
    (htoken : skipWsAndComments (endOfLine body) = []) :
    SameBytes source (resolveScope source body seen rules).range
      (resolveScope (crlf source) (crlf body) seen rules).range := by
  have hsize' : source.length < 2 ^ 32 := Nat.lt_of_le_of_lt (length_le_crlf source) hsize
  have htoken' : skipWsAndComments (endOfLine (crlf body)) = [] := by
    rw [endOfLine_crlf, skipWsAndComments_tailCrlf, skipWsAndComments_crlf, htoken, crlf_nil]
  rw [range_end seen rules hsame htoken,
    range_end seen rules ((sameLineCode_crlf h).trans hsame) htoken', u32_offset hsize,
    u32_offset hsize', endOfLine_crlf]
  have hcut := sameCut_tailCrlf (suffix_endOfLine h)
  exact hcut.sameBytes hcut

theorem sameBytes_brace (hsame : sameLineCode source body = false) {t : Text}
    (htoken : skipWsAndComments (endOfLine body) = '{' :: t) :
    SameBytes source (resolveScope source body seen rules).range
      (resolveScope (crlf source) (crlf body) seen rules).range := by
  have hsize' : source.length < 2 ^ 32 := Nat.lt_of_le_of_lt (length_le_crlf source) hsize
  have hopen : '{' :: t <:+ source := by
    have hskip := (suffix_skipWsAndComments _).trans (suffix_endOfLine h)
    rwa [htoken] at hskip
  have hclose : endOfBlockBrace ('{' :: t) <:+ source :=
    (suffix_braceLoop 1 t).trans ((List.suffix_cons _ t).trans hopen)
  rw [range_brace seen rules hsame htoken,
    range_brace seen rules ((sameLineCode_crlf h).trans hsame) (token_crlf htoken), u32_offset hsize,
    u32_offset hsize, u32_offset hsize', u32_offset hsize', ← crlf_cons (show '{' ≠ '\n' by decide),
    endOfBlockBrace_crlf]
  exact (sameCut_crlf hopen).sameBytes (sameCut_crlf hclose)

include hcr

/-- The next code line, with no blank line in front of it. -/
theorem sameBytes_line (hsame : sameLineCode source body = false) {c : Char} {t : Text}
    (htoken : skipWsAndComments (endOfLine body) = c :: t) (hc : c ≠ '{')
    (hblank : skipsBlankLine (skipNewline (endOfLine body)) = false) :
    SameBytes source (resolveScope source body seen rules).range
      (resolveScope (crlf source) (crlf body) seen rules).range := by
  have hsize' : source.length < 2 ^ 32 := Nat.lt_of_le_of_lt (length_le_crlf source) hsize
  have hrest : skipNewline (endOfLine body) <:+ source :=
    (suffix_skipNewline _).trans (suffix_endOfLine h)
  have ⟨start, hfound⟩ := nextCodeLine_of_token (fun hmem => hcr (hrest.subset hmem))
    ((skipWsAndComments_skipNewline _).trans htoken)
  have ⟨hstart, hcode⟩ := nextCodeLine_spec hfound
  have hstart := hstart.trans hrest
  have hline : endOfLine (c :: t) <:+ source := by
    have htok : c :: t <:+ source := hcode ▸ (List.dropWhile_suffix _).trans hstart
    exact (List.dropWhile_suffix _).trans htok
  have hfound' : nextCodeLine (skipNewline (endOfLine (crlf body)))
      = some (crlf start, crlf (c :: t)) := by
    rw [skipNewline_endOfLine_crlf, nextCodeLine_crlf hblank, hfound]
    rfl
  rw [range_line seen rules hsame htoken hc hfound,
    range_line seen rules ((sameLineCode_crlf h).trans hsame) (token_crlf htoken) hc hfound',
    u32_offset hsize, u32_offset hsize, u32_offset hsize', u32_offset hsize', endOfLine_crlf]
  exact (sameCut_crlf hstart).sameBytes (sameCut_tailCrlf hline)

/-- A blank line in front of the next code line: the CR LF scope ends before
the code. -/
theorem not_sameBytes_line (hsame : sameLineCode source body = false) {c : Char} {t : Text}
    (htoken : skipWsAndComments (endOfLine body) = c :: t) (hc : c ≠ '{')
    (hblank : skipsBlankLine (skipNewline (endOfLine body)) = true) :
    ¬ SameBytes source (resolveScope source body seen rules).range
      (resolveScope (crlf source) (crlf body) seen rules).range := by
  have hsize' : source.length < 2 ^ 32 := Nat.lt_of_le_of_lt (length_le_crlf source) hsize
  have hrest : skipNewline (endOfLine body) <:+ source :=
    (suffix_skipNewline _).trans (suffix_endOfLine h)
  have ⟨start, hfound⟩ := nextCodeLine_of_token (fun hmem => hcr (hrest.subset hmem))
    ((skipWsAndComments_skipNewline _).trans htoken)
  have ⟨blank, rest, hblankSuffix, hbreak, hfound', hnext⟩ := nextCodeLine_crlf_of_blank hblank
  rw [← skipNewline_endOfLine_crlf] at hfound'
  have hbreakSuffix : '\n' :: rest <:+ source :=
    hbreak ▸ (List.dropWhile_suffix _).trans (hblankSuffix.trans hrest)
  -- the code is found behind the blank line
  have ⟨hstart, hcode⟩ := nextCodeLine_spec (hnext ▸ hfound)
  have htok : c :: t <:+ start := hcode ▸ List.dropWhile_suffix _
  have hlenStart := htok.length_le
  have hlenRest := hstart.length_le
  have hlenBreak := hbreakSuffix.length_le
  have hlenLine : (endOfLine (c :: t)).length ≤ t.length := by
    rw [endOfLine_cons (token_ne_newline htoken)]
    exact length_endOfLine_le t
  rw [range_line seen rules hsame htoken hc hfound,
    range_line seen rules ((sameLineCode_crlf h).trans hsame) (token_crlf htoken) hc hfound',
    u32_offset hsize, u32_offset hsize, u32_offset hsize', u32_offset hsize', endOfLine_crlf]
  intro hbytes
  -- the first byte of the code is in one scope and not in the other
  simp only [List.length_cons] at hlenStart hlenBreak
  have hk : offset source (c :: t) < source.length := by
    rw [offset, List.length_cons]
    omega
  have hin : offset source start ≤ offset source (c :: t)
      ∧ offset source (c :: t) < offset source (endOfLine (c :: t)) := by
    rw [offset, offset, offset, List.length_cons]
    omega
  have hbefore := (sameCut_tailCrlf hbreakSuffix _ hk).mpr ((hbytes _ hk).mp hin).2
  rw [offset, offset, List.length_cons, List.length_cons] at hbefore
  omega

/-- **The scopes agree unless the search met a blank line.** -/
theorem sameBytes_scope_iff :
    SameBytes source (resolveScope source body seen rules).range
        (resolveScope (crlf source) (crlf body) seen rules).range ↔
      scopeSkipsBlank source body = false := by
  cases hsame : sameLineCode source body with
  | true =>
      rw [scopeSkipsBlank, hsame]
      exact iff_of_true (sameBytes_trailing h hsize seen rules hsame) rfl
  | false =>
      rw [scopeSkipsBlank, hsame]
      cases htoken : skipWsAndComments (endOfLine body) with
      | nil => exact iff_of_true (sameBytes_end h hsize seen rules hsame htoken) rfl
      | cons c t =>
          by_cases hc : c = '{'
          · subst hc
            exact iff_of_true (sameBytes_brace h hsize seen rules hsame htoken) rfl
          · have hother : (c != '{') = true := by simpa using hc
            simp only [List.head?_cons, Option.any_some, hother, Bool.not_false, Bool.true_and]
            cases hblank : skipsBlankLine (skipNewline (endOfLine body)) with
            | false =>
                exact iff_of_true (sameBytes_line h hcr hsize seen rules hsame htoken hc hblank) rfl
            | true =>
                exact iff_of_false
                  (not_sameBytes_line h hcr hsize seen rules hsame htoken hc hblank) nofun

end Comment

/-! ## §4. The scans. -/

/-- The same rule, over the same bytes. -/
def SameEntry (s : Text) (e e' : Suppression) : Prop :=
  e.ruleId = e'.ruleId ∧ SameBytes s (e.byteLo, e.byteHi) (e'.byteLo, e'.byteHi)

/-- The same message, over the same bytes. -/
def SameDiagnostic (s : Text) (d d' : ScanDiagnostic) : Prop :=
  d.message = d'.message ∧ SameBytes s (d.byteLo, d.byteHi) (d'.byteLo, d'.byteHi)

/-- Both versions have the same entries and diagnostics, in the same order. -/
def LineEndingInvariant (s : Text) : Prop :=
  List.Forall₂ (SameEntry s) (scan s).entries (scan (crlf s)).entries
    ∧ List.Forall₂ (SameDiagnostic s) (scan s).scanDiagnostics (scan (crlf s)).scanDiagnostics

/-- A marker for the next code line, with a blank line in front of that. -/
def blankInScope (source : Text) (c : Text × Bool) : Bool :=
  (markerOf c.1).accepted && !(!c.2 && containsWildcard (markerOf c.1).rules)
    && scopeSkipsBlank source c.1

theorem forall₂_append_iff {α : Type} {R : α → α → Prop} {a a' : List α} (b b' : List α)
    (hlen : a.length = a'.length) :
    List.Forall₂ R (a ++ b) (a' ++ b') ↔ List.Forall₂ R a a' ∧ List.Forall₂ R b b' := by
  constructor
  · intro h
    have htake := List.forall₂_take_append _ _ _ h
    have hdrop := List.forall₂_drop_append _ _ _ h
    rw [← hlen] at htake hdrop
    rw [List.take_left] at htake
    rw [List.drop_left] at hdrop
    exact ⟨htake, hdrop⟩
  · rintro ⟨h1, h2⟩
    exact List.rel_append h1 h2

theorem forall₂_flatMap_iff {α β : Type} {R : β → β → Prop} {f g : α → List β} {l : List α}
    (hlen : ∀ x ∈ l, (f x).length = (g x).length) :
    List.Forall₂ R (l.flatMap f) (l.flatMap g) ↔ ∀ x ∈ l, List.Forall₂ R (f x) (g x) := by
  induction l with
  | nil => simp
  | cons x xs ih =>
      rw [List.flatMap_cons, List.flatMap_cons,
        forall₂_append_iff _ _ (hlen x (List.mem_cons_self ..)),
        ih fun y hy => hlen y (List.mem_cons_of_mem _ hy), List.forall_mem_cons]

theorem mem_lineComments {source : Text} {c : Text × Bool} (hc : c ∈ lineComments false source) :
    ∃ before line rest, source = before ++ '/' :: '/' :: (line ++ rest) ∧ c.1 = line ++ rest
      ∧ '\n' ∉ line ∧ EndsLine rest := by
  have ⟨segs, hsegs⟩ := exists_segmented source
  rw [scan_lineComments hsegs] at hc
  have ⟨comment, hmem, heq⟩ := List.mem_map.mp hc
  subst heq
  have ⟨hline, hrest⟩ := comment_ends hsegs hmem
  exact ⟨_, _, _, source_eq hsegs hmem, rfl, hline, hrest⟩

theorem sameBytes_file {source : Text} (hsize : (crlf source).length < 2 ^ 32) :
    SameBytes source (0, u32 source.length) (0, u32 (crlf source).length) := by
  have hsize' : source.length < 2 ^ 32 := Nat.lt_of_le_of_lt (length_le_crlf source) hsize
  rw [u32, u32, Nat.mod_eq_of_lt hsize, Nat.mod_eq_of_lt hsize']
  intro k hk
  have hlt := bytePos_lt (t := []) hk
  rw [List.append_nil] at hlt
  show 0 ≤ k ∧ k < source.length ↔ 0 ≤ bytePos source k ∧ bytePos source k < (crlf source).length
  omega

theorem forall₂_map_range {s : Text} {rules : List Text} (hne : rules ≠ []) (range range' : Nat × Nat) :
    List.Forall₂ (SameEntry s) (rules.map fun r => ⟨r, range.1, range.2⟩)
        (rules.map fun r => ⟨r, range'.1, range'.2⟩) ↔ SameBytes s range range' := by
  rw [List.forall₂_map_left_iff, List.forall₂_map_right_iff, List.forall₂_same]
  constructor
  · intro h
    have ⟨r, hr⟩ := List.exists_mem_of_ne_nil rules hne
    exact (h r hr).2
  · intro h r _
    exact ⟨rfl, h⟩

theorem commentEntries_marker {body : Text} (hok : (markerOf body).accepted = true) (source : Text)
    (seen : Bool) :
    commentEntries source body seen =
      buildEntries (resolveScope source body seen (markerOf body).rules) source (markerOf body).rules :=
  if_pos hok

theorem commentEntries_other {body : Text} (hno : ¬ (markerOf body).accepted = true) (source : Text)
    (seen : Bool) : commentEntries source body seen = [] := if_neg hno

theorem commentDiagnostic_marker {body : Text} (hok : (markerOf body).accepted = true)
    (source : Text) : commentDiagnostic source body = none := if_pos hok

theorem commentDiagnostic_other {body : Text} (hno : ¬ (markerOf body).accepted = true)
    (source : Text) : commentDiagnostic source body = buildMalformed source body := if_neg hno

theorem offset_slashes (source body : Text) :
    offset source ('/' :: '/' :: body) = offset source body - 2 := by
  rw [offset, offset]
  simp only [List.length_cons]
  omega

theorem u32_offset_sub {source : Text} (hsize : source.length < 2 ^ 32) (t : Text) :
    u32 (offset source t - 2) = offset source t - 2 := by
  rw [u32, Nat.mod_eq_of_lt]
  rw [offset]
  omega

section Entries

variable {source before line rest : Text} (h : source = before ++ '/' :: '/' :: (line ++ rest))
  (hline : '\n' ∉ line) (hrest : EndsLine rest)

include h

theorem wildcardAtTop_crlf (seen : Bool) (rules : List Text) :
    (resolveScope (crlf source) (crlf (line ++ rest)) seen rules).wildcardAtTop =
      (resolveScope source (line ++ rest) seen rules).wildcardAtTop := by
  rw [wildcardAtTop_eq, wildcardAtTop_eq, sameLineCode_crlf h]

include hline hrest

theorem length_commentEntries_crlf (seen : Bool) :
    (commentEntries source (line ++ rest) seen).length =
      (commentEntries (crlf source) (crlf (line ++ rest)) seen).length := by
  have ⟨haccepted, hsame⟩ := markerOf_crlf hline hrest
  by_cases hok : (markerOf (line ++ rest)).accepted = true
  · rw [commentEntries_marker hok, commentEntries_marker (haccepted.trans hok), hsame hok,
      buildEntries, buildEntries, wildcardAtTop_crlf h]
    split
    · rfl
    · rw [List.length_map, List.length_map]
  · rw [commentEntries_other hok, commentEntries_other (haccepted ▸ hok)]

variable (hcr : '\r' ∉ source) (hsize : (crlf source).length < 2 ^ 32)

include hcr hsize

theorem sameEntries_iff (seen : Bool) :
    List.Forall₂ (SameEntry source) (commentEntries source (line ++ rest) seen)
        (commentEntries (crlf source) (crlf (line ++ rest)) seen) ↔
      blankInScope source (line ++ rest, seen) = false := by
  have ⟨haccepted, hsame⟩ := markerOf_crlf hline hrest
  rw [blankInScope]
  by_cases hok : (markerOf (line ++ rest)).accepted = true
  · have hne : (markerOf (line ++ rest)).rules ≠ [] := by
      intro hnil
      rw [ParsedMarker.accepted, hnil] at hok
      simp at hok
    rw [commentEntries_marker hok, commentEntries_marker (haccepted.trans hok), hsame hok,
      buildEntries, buildEntries, wildcardAtTop_crlf h, hok, Bool.true_and]
    generalize (markerOf (line ++ rest)).rules = rules at hne ⊢
    cases htop : (resolveScope source (line ++ rest) seen rules).wildcardAtTop with
    | true =>
        -- the whole file
        rw [wildcardAtTop_eq, Bool.and_eq_true] at htop
        rw [if_pos rfl, if_pos rfl, htop.2]
        exact iff_of_true (.cons ⟨rfl, sameBytes_file hsize⟩ .nil) rfl
    | false =>
        rw [if_neg (by decide), if_neg (by decide)]
        refine (forall₂_map_range hne _ _).trans ((sameBytes_scope_iff h hcr hsize seen rules).trans ?_)
        rw [wildcardAtTop_eq] at htop
        cases hwild : (!seen && containsWildcard rules) with
        | false => rfl
        | true =>
            -- a comment behind code
            rw [hwild, Bool.and_true, Bool.not_eq_false'] at htop
            rw [scopeSkipsBlank, htop]
            exact iff_of_true rfl rfl
  · rw [commentEntries_other hok, commentEntries_other (haccepted ▸ hok), Bool.eq_false_iff.mpr hok]
    exact iff_of_true .nil rfl

omit hcr

/-- What a comment reports is the same in both versions. -/
theorem sameDiagnostic_comment :
    Option.Rel (SameDiagnostic source) (commentDiagnostic source (line ++ rest))
      (commentDiagnostic (crlf source) (crlf (line ++ rest))) := by
  have ⟨haccepted, _⟩ := markerOf_crlf hline hrest
  have hsize' : source.length < 2 ^ 32 := Nat.lt_of_le_of_lt (length_le_crlf source) hsize
  by_cases hok : (markerOf (line ++ rest)).accepted = true
  · rw [commentDiagnostic_marker hok, commentDiagnostic_marker (haccepted.trans hok)]
    exact .none
  · rw [commentDiagnostic_other hok, commentDiagnostic_other (haccepted ▸ hok), buildMalformed,
      buildMalformed, triggered_crlf]
    split
    · exact .none
    · refine .some ⟨rfl, ?_⟩
      have hslashes : '/' :: '/' :: (line ++ rest) <:+ source := ⟨before, h.symm⟩
      have hstart := sameCut_crlf hslashes
      rw [crlf_slash, crlf_slash, offset_slashes, offset_slashes] at hstart
      rw [u32_offset hsize, u32_offset hsize', u32_offset_sub hsize, u32_offset_sub hsize',
        endOfLine_crlf]
      exact hstart.sameBytes (sameCut_tailCrlf (suffix_endOfLine h))

end Entries

/-- The entries are the same exactly if no marker's next code line is behind a
blank line. -/
theorem entries_iff {source : Text} (hcr : '\r' ∉ source) (hsize : (crlf source).length < 2 ^ 32) :
    List.Forall₂ (SameEntry source) (scan source).entries (scan (crlf source)).entries ↔
      ∀ c ∈ lineComments false source, blankInScope source c = false := by
  have hentries : (scan source).entries
      = (lineComments false source).flatMap fun c => commentEntries source c.1 c.2 :=
    (scanFrom_spec source ⟨[], [], false⟩ source).1
  have hentries' : (scan (crlf source)).entries = (lineComments false source).flatMap fun c =>
      commentEntries (crlf source) (crlf c.1) c.2 := by
    have hspec := (scanFrom_spec (crlf source) ⟨[], [], false⟩ (crlf source)).1
    rwa [lineComments_crlf, List.flatMap_map] at hspec
  rw [hentries, hentries', forall₂_flatMap_iff]
  · refine forall₂_congr fun c hc => ?_
    have ⟨before, line, rest, h, hbody, hline, hrest⟩ := mem_lineComments hc
    have hcomment : c = (line ++ rest, c.2) := Prod.ext hbody rfl
    rw [hcomment]
    exact sameEntries_iff h hline hrest hcr hsize c.2
  · intro c hc
    have ⟨before, line, rest, h, hbody, hline, hrest⟩ := mem_lineComments hc
    rw [hbody]
    exact length_commentEntries_crlf h hline hrest c.2

/-- The diagnostics are always the same. -/
theorem diagnostics_same {source : Text} (hsize : (crlf source).length < 2 ^ 32) :
    List.Forall₂ (SameDiagnostic source) (scan source).scanDiagnostics
      (scan (crlf source)).scanDiagnostics := by
  have hdiags : (scan source).scanDiagnostics
      = (lineComments false source).filterMap fun c => commentDiagnostic source c.1 :=
    (scanFrom_spec source ⟨[], [], false⟩ source).2
  have hdiags' : (scan (crlf source)).scanDiagnostics = (lineComments false source).filterMap fun c =>
      commentDiagnostic (crlf source) (crlf c.1) := by
    have hspec := (scanFrom_spec (crlf source) ⟨[], [], false⟩ (crlf source)).2
    rwa [lineComments_crlf, List.filterMap_map] at hspec
  have hself : List.Forall₂ (fun c c' => c = c' ∧ c ∈ lineComments false source)
      (lineComments false source) (lineComments false source) :=
    List.forall₂_same.mpr fun c hc => ⟨rfl, hc⟩
  rw [hdiags, hdiags']
  refine List.rel_filterMap ?_ hself
  rintro c c' ⟨rfl, hc⟩
  have ⟨before, line, rest, h, hbody, hline, hrest⟩ := mem_lineComments hc
  show Option.Rel _ (commentDiagnostic source c.1) (commentDiagnostic (crlf source) (crlf c.1))
  rw [hbody]
  exact sameDiagnostic_comment h hline hrest hsize

/-- **The line ending makes no difference exactly if no marker's next code line
is behind a blank line.** -/
theorem lineEndingInvariant_iff {source : Text} (hcr : '\r' ∉ source)
    (hsize : (crlf source).length < 2 ^ 32) :
    LineEndingInvariant source ↔ ∀ c ∈ lineComments false source, blankInScope source c = false :=
  ⟨fun h => (entries_iff hcr hsize).mp h.1,
    fun h => ⟨(entries_iff hcr hsize).mpr h, diagnostics_same hsize⟩⟩

/-- A marker behind code is for its own line. -/
theorem lineEndingInvariant_remarked : LineEndingInvariant remarked := by
  refine (lineEndingInvariant_iff (by decide) (by decide)).mpr fun c hc => ?_
  rw [scan_lineComments segmented_remarked] at hc
  cases List.mem_singleton.mp hc
  have hsame : sameLineCode remarked (remarkedBody ++ textOf []) = true := by decide
  rw [blankInScope, scopeSkipsBlank, hsame]
  exact Bool.and_false _

/-- `shader-clippy:allow(a)`. -/
def allowBody : Text := kMarker ++ (kAllow ++ '(' :: (['a'] ++ [')']))

/-- The marker, a blank line and the code `y`. -/
def blankLine : Text := '/' :: '/' :: (allowBody ++ ['\n', '\n', 'y'])

/-- With LF the marker is for `y`, with CR LF for the blank line. -/
theorem blank_line_differs : '\r' ∉ blankLine ∧ ¬ LineEndingInvariant blankLine := by
  refine ⟨by decide, fun h => ?_⟩
  have hends : EndsLine ['\n', '\n', 'y'] := Or.inr ⟨_, rfl⟩
  have hmem : (allowBody ++ ['\n', '\n', 'y'], false) ∈ lineComments false blankLine := by
    rw [blankLine, lineComments_line]
    exact List.mem_cons_self ..
  have hmarker : MarkerText allowBody [['a']] [] := by
    have hnone : Blanks [] := by simp [Blanks]
    have hname : Name ['a'] := ⟨by simp, by simp [isIdentChar]⟩
    exact ⟨by simp, [], [], [], ['a'], hnone, hnone, hnone, NameList.last hnone hname hnone, rfl⟩
  have hbody : '\n' ∉ allowBody := by decide
  have hok := (accepted_iff hbody hends).mpr ⟨_, _, hmarker⟩
  have htoken : skipWsAndComments ['\n', '\n', 'y'] = ['y'] := by
    rw [skipWsAndComments_blank rfl, skipWsAndComments_blank rfl, skipWsAndComments_other rfl rfl]
  have hblank : skipsBlankLine ['\n', 'y'] = true := by
    rw [skipsBlankLine]
    rfl
  have hsame : sameLineCode blankLine (allowBody ++ ['\n', '\n', 'y']) = false := by decide
  have hskips := (entries_iff (by decide) (by decide)).mp h.1 _ hmem
  rw [blankInScope, hok, markerOf_append hbody hends, parseMarker_of_markerText hmarker,
    scopeSkipsBlank, hsame, endOfLine_append hbody hends, htoken, skipNewline, hblank] at hskips
  exact absurd hskips (by decide)

end ShaderClippy.Suppress
