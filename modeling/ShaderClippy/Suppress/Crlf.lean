/-
  ShaderClippy.Suppress.Crlf

  **THE SKIPPERS ON A SOURCE WITH OTHER LINE ENDINGS.**

  `crlf` puts a CR before every line break. Every skipper but one goes to the
  same place in both versions; where a line comment ends there, the CR before
  the line break is in the comment (`tailCrlf`). The exception is the loop that
  looks for the next code line: it steps over a blank line, but takes the CR of
  one for code (`nextCodeLine_crlf_of_blank`).
-/
import ShaderClippy.Suppress.Segments

namespace ShaderClippy.Suppress

/-! ## §1. The other line ending. -/

/-- Every LF becomes CR LF. -/
def crlf (s : Text) : Text := s.flatMap fun c => if c = '\n' then ['\r', '\n'] else [c]

@[simp] theorem crlf_nil : crlf [] = [] := rfl

@[simp] theorem crlf_newline (s : Text) : crlf ('\n' :: s) = '\r' :: '\n' :: crlf s := rfl

theorem crlf_cons {c : Char} (hc : c ≠ '\n') (s : Text) : crlf (c :: s) = c :: crlf s := by
  rw [crlf, List.flatMap_cons, if_neg hc]
  rfl

@[simp] theorem crlf_slash (s : Text) : crlf ('/' :: s) = '/' :: crlf s := rfl

@[simp] theorem crlf_star (s : Text) : crlf ('*' :: s) = '*' :: crlf s := rfl

@[simp] theorem crlf_append (s t : Text) : crlf (s ++ t) = crlf s ++ crlf t := List.flatMap_append

theorem crlf_eq_nil {s : Text} : crlf s = [] ↔ s = [] := by
  constructor
  · intro h
    cases s with
    | nil => rfl
    | cons c cs =>
        by_cases hc : c = '\n'
        · subst hc
          cases h
        · rw [crlf_cons hc] at h
          cases h
  · rintro rfl
    rfl

/-- At a line break, past the CR before it. -/
def tailCrlf : Text → Text
  | '\n' :: rest => '\n' :: crlf rest
  | s => crlf s

/-- A CR more for every line. -/
theorem length_crlf (s : Text) : (crlf s).length = s.length + s.count '\n' := by
  induction s with
  | nil => rfl
  | cons c cs ih =>
      by_cases hc : c = '\n'
      · subst hc
        rw [crlf_newline, List.length_cons, List.length_cons, ih, List.length_cons,
          List.count_cons_self]
        omega
      · rw [crlf_cons hc, List.length_cons, ih, List.length_cons, List.count_cons_of_ne hc]
        omega

/-! ## §2. Skippers. -/

/-- Dropping characters that end no line commutes with the change of line endings. -/
theorem dropWhile_crlf {p : Char → Bool} (hcr : p '\r' = false) (hlf : p '\n' = false) (s : Text) :
    (crlf s).dropWhile p = crlf (s.dropWhile p) := by
  induction s with
  | nil => rfl
  | cons c cs ih =>
      by_cases hc : c = '\n'
      · subst hc
        rw [crlf_newline, List.dropWhile_cons_of_neg (by simp [hcr]),
          List.dropWhile_cons_of_neg (by simp [hlf]), crlf_newline]
      · rw [crlf_cons hc, List.dropWhile_cons, List.dropWhile_cons]
        split
        · exact ih
        · rw [crlf_cons hc]

theorem skipInlineWs_crlf (s : Text) : skipInlineWs (crlf s) = crlf (skipInlineWs s) :=
  dropWhile_crlf rfl rfl s

theorem endOfLine_cons {c : Char} (hc : c ≠ '\n') (s : Text) : endOfLine (c :: s) = endOfLine s :=
  List.dropWhile_cons_of_pos (by simp [hc])

/-- A line ends at its LF, behind the CR. -/
theorem endOfLine_crlf (s : Text) : endOfLine (crlf s) = tailCrlf (endOfLine s) := by
  induction s with
  | nil => rfl
  | cons c cs ih =>
      by_cases hc : c = '\n'
      · subst hc
        rfl
      · rw [crlf_cons hc, endOfLine_cons hc, endOfLine_cons hc, ih]

theorem skipNewline_tailCrlf {s : Text} (h : EndsLine s) :
    skipNewline (tailCrlf s) = crlf (skipNewline s) := by
  rcases h with rfl | ⟨t, rfl⟩
  · rfl
  · rfl

theorem endOfBlock_crlf (s : Text) : endOfBlock (crlf s) = crlf (endOfBlock s) := by
  fun_induction endOfBlock s with
  | case1 rest => rw [crlf_star, crlf_slash, endOfBlock]
  | case2 c rest hclose ih =>
      by_cases hc : c = '\n'
      · subst hc
        rw [crlf_newline, endOfBlock, endOfBlock, ih]
        · rintro _ ⟨⟩
        · rintro _ ⟨⟩
      · rw [crlf_cons hc, endOfBlock, ih]
        rintro t rfl ht
        cases rest with
        | nil => cases ht
        | cons d ds =>
            by_cases hd : d = '\n'
            · subst hd
              cases ht
            · rw [crlf_cons hd] at ht
              cases ht
              exact hclose ds rfl rfl
  | case3 => rfl

theorem skipStringLiteral_crlf {quote : Char} (hquote : isQuote quote = true) (s : Text) :
    skipStringLiteral quote (crlf s) = crlf (skipStringLiteral quote s) := by
  have hlf : '\n' ≠ quote := by
    rintro rfl
    exact absurd hquote (by decide)
  have hcr : '\r' ≠ quote := by
    rintro rfl
    exact absurd hquote (by decide)
  have hesc := quote_ne hquote
  have hbreak : ∀ t, skipStringLiteral quote ('\r' :: '\n' :: t) = skipStringLiteral quote t := by
    intro t
    rw [skipStringLiteral_char _ hcr (by decide), skipStringLiteral_char _ hlf (by decide)]
  fun_induction skipStringLiteral quote s with
  | case1 => rfl
  | case2 cs => rw [crlf_cons (Ne.symm hlf), skipStringLiteral_quote]
  | case3 d rest hne ih =>
      rw [crlf_cons (show '\\' ≠ '\n' by decide)]
      -- an escaped line break: the backslash takes the CR, the LF is skipped next
      by_cases hd : d = '\n'
      · subst hd
        rw [crlf_newline, skipStringLiteral_escape _ _ hesc,
          skipStringLiteral_char _ hlf (by decide), ih]
      · rw [crlf_cons hd, skipStringLiteral_escape _ _ hesc, ih]
  | case4 hne =>
      rw [crlf_cons (show '\\' ≠ '\n' by decide), crlf_nil, skipStringLiteral.eq_def]
      exact (if_neg hesc).trans (if_pos rfl)
  | case5 c cs hne hnesc ih =>
      by_cases hc : c = '\n'
      · subst hc
        rw [crlf_newline, hbreak, ih]
      · rw [crlf_cons hc, skipStringLiteral_char _ hne hnesc, ih]

theorem skipWsAndComments_blank {c : Char} (hc : isBlank c = true) (s : Text) :
    skipWsAndComments (c :: s) = skipWsAndComments s := by
  have hblank : c = ' ' ∨ c = '\t' ∨ c = '\r' ∨ c = '\n' := by
    simpa [isBlank, or_assoc] using hc
  rw [skipWsAndComments.eq_def]
  exact if_pos hblank

theorem skipWsAndComments_line (body : Text) :
    skipWsAndComments ('/' :: '/' :: body) = skipWsAndComments (endOfLine body) := by
  rw [skipWsAndComments.eq_def]
  rfl

theorem skipWsAndComments_block (body : Text) :
    skipWsAndComments ('/' :: '*' :: body) = skipWsAndComments (endOfBlock body) := by
  rw [skipWsAndComments.eq_def]
  rfl

theorem skipWsAndComments_other {c : Char} {cs : Text} (hc : isBlank c = false)
    (h : startsComment c cs = false) : skipWsAndComments (c :: cs) = c :: cs := by
  have hblank : ¬ (c = ' ' ∨ c = '\t' ∨ c = '\r' ∨ c = '\n') := by
    simpa [isBlank, and_assoc] using hc
  rw [skipWsAndComments.eq_def]
  show (if c = ' ' ∨ c = '\t' ∨ c = '\r' ∨ c = '\n' then _ else _) = _
  rw [if_neg hblank]
  split
  · simp [startsComment] at h
  · simp [startsComment] at h
  · rfl

/-- A token is not blank. -/
theorem skipWsAndComments_cons {s t : Text} {c : Char} (h : skipWsAndComments s = c :: t) :
    isBlank c = false := by
  fun_induction skipWsAndComments s with
  | case1 => cases h
  | case2 _ _ _ ih => exact ih h
  | case3 _ _ ih => exact ih h
  | case4 _ _ ih => exact ih h
  | case5 d ds _ _ hd =>
      cases h
      simpa [isBlank, and_assoc] using hd

/-- A line break is skipped like a CR and a line break. -/
theorem skipWsAndComments_tailCrlf (s : Text) :
    skipWsAndComments (tailCrlf s) = skipWsAndComments (crlf s) := by
  fun_cases tailCrlf s with
  | case1 rest => rw [crlf_newline, skipWsAndComments_blank (show isBlank '\r' = true from rfl)]
  | case2 => rfl

theorem startsComment_crlf (c : Char) (s : Text) : startsComment c (crlf s) = startsComment c s := by
  cases s with
  | nil => rfl
  | cons d ds =>
      by_cases hd : d = '\n'
      · subst hd
        rfl
      · rw [crlf_cons hd]
        rfl

/-- The next token is found at the same place. -/
theorem skipWsAndComments_crlf (s : Text) :
    skipWsAndComments (crlf s) = crlf (skipWsAndComments s) := by
  fun_induction skipWsAndComments s with
  | case1 => rw [crlf_nil, skipWsAndComments]
  | case2 c cs hc ih =>
      have hblank : isBlank c = true := by simpa [isBlank, or_assoc] using hc
      by_cases hlf : c = '\n'
      · subst hlf
        rw [crlf_newline, skipWsAndComments_blank (show isBlank '\r' = true from rfl),
          skipWsAndComments_blank hblank, ih]
      · rw [crlf_cons hlf, skipWsAndComments_blank hblank, ih]
  | case3 body hc ih =>
      rw [crlf_slash, crlf_slash, skipWsAndComments_line, endOfLine_crlf,
        skipWsAndComments_tailCrlf, ih]
  | case4 body hc ih =>
      rw [crlf_slash, crlf_star, skipWsAndComments_block, endOfBlock_crlf, ih]
  | case5 c cs hline hblock hc =>
      have hblank : isBlank c = false := by simpa [isBlank, and_assoc] using hc
      have hlf : c ≠ '\n' := fun heq => hc (Or.inr (Or.inr (Or.inr heq)))
      rw [crlf_cons hlf, skipWsAndComments_other hblank]
      rw [startsComment_crlf]
      exact startsComment_false hline hblock

/-! ## §3. Braces. -/

theorem skipToken_line (body : Text) : skipToken ('/' :: '/' :: body) = endOfLine body := by
  rw [skipToken]

theorem skipToken_block (body : Text) : skipToken ('/' :: '*' :: body) = endOfBlock body := by
  rw [skipToken]

theorem skipToken_other {c : Char} {cs : Text} (h : startsComment c cs = false) :
    skipToken (c :: cs) = if isQuote c then skipStringLiteral c cs else c :: cs := by
  rw [skipToken]
  all_goals
    rintro body rfl rfl
    simp [startsComment] at h

/-- Where no token is skipped, there is neither a comment nor a literal. -/
theorem not_token {c : Char} {cs : Text} (h : ¬ (skipToken (c :: cs)).length < (c :: cs).length) :
    startsComment c cs = false ∧ isQuote c = false := by
  rcases startsComment_cases c cs with ⟨body, rfl, rfl⟩ | ⟨body, rfl, rfl⟩ | hother
  · have hle := length_endOfLine_le body
    rw [skipToken_line, List.length_cons, List.length_cons] at h
    omega
  · have hle := length_endOfBlock_le body
    rw [skipToken_block, List.length_cons, List.length_cons] at h
    omega
  · refine ⟨hother, ?_⟩
    cases hq : isQuote c with
    | false => rfl
    | true =>
        have hle := length_skipStringLiteral_le c cs
        rw [skipToken_other hother, if_pos hq, List.length_cons] at h
        omega

theorem braceLoop_line (depth : Nat) (body : Text) :
    braceLoop depth ('/' :: '/' :: body) = braceLoop depth (endOfLine body) := by
  have hle := length_endOfLine_le body
  rw [braceLoop.eq_def]
  show (if _ then braceLoop depth (skipToken ('/' :: '/' :: body)) else _) = _
  rw [skipToken_line, if_pos (by simp only [List.length_cons]; omega)]

theorem braceLoop_block (depth : Nat) (body : Text) :
    braceLoop depth ('/' :: '*' :: body) = braceLoop depth (endOfBlock body) := by
  have hle := length_endOfBlock_le body
  rw [braceLoop.eq_def]
  show (if _ then braceLoop depth (skipToken ('/' :: '*' :: body)) else _) = _
  rw [skipToken_block, if_pos (by simp only [List.length_cons]; omega)]

theorem braceLoop_literal (depth : Nat) {c : Char} (cs : Text) (htoken : startsComment c cs = false)
    (hquote : isQuote c = true) :
    braceLoop depth (c :: cs) = braceLoop depth (skipStringLiteral c cs) := by
  have hle := length_skipStringLiteral_le c cs
  rw [braceLoop.eq_def]
  show (if _ then braceLoop depth (skipToken (c :: cs)) else _) = _
  rw [skipToken_other htoken, if_pos hquote, if_pos (by simp only [List.length_cons]; omega)]

/-- Neither a comment nor a literal: the depth is kept. -/
theorem braceLoop_plain (depth : Nat) {c : Char} (cs : Text) (htoken : startsComment c cs = false)
    (hquote : isQuote c = false) :
    braceLoop depth (c :: cs) =
      if c = '{' then braceLoop (depth + 1) cs
      else if c = '}' then if depth = 1 then cs else braceLoop (depth - 1) cs
      else braceLoop depth cs := by
  rw [braceLoop.eq_def]
  show (if (skipToken (c :: cs)).length < (c :: cs).length then _ else _) = _
  have hskip : skipToken (c :: cs) = c :: cs := by
    rw [skipToken_other htoken, hquote]
    rfl
  rw [hskip, if_neg (Nat.lt_irrefl _)]

/-- A line break is passed over like a CR and a line break. -/
theorem braceLoop_tailCrlf (depth : Nat) (s : Text) :
    braceLoop depth (tailCrlf s) = braceLoop depth (crlf s) := by
  fun_cases tailCrlf s with
  | case1 rest =>
      rw [crlf_newline, braceLoop_plain depth _ (show startsComment '\r' _ = false from rfl) rfl]
      rfl
  | case2 => rfl

theorem braceLoop_crlf (depth : Nat) (s : Text) :
    braceLoop depth (crlf s) = crlf (braceLoop depth s) := by
  fun_induction braceLoop depth s with
  | case1 => rw [crlf_nil, braceLoop]
  | case2 depth c cs hskip ih =>
      rcases startsComment_cases c cs with ⟨body, rfl, rfl⟩ | ⟨body, rfl, rfl⟩ | hother
      · rw [skipToken_line] at ih ⊢
        rw [crlf_slash, crlf_slash, braceLoop_line, endOfLine_crlf, braceLoop_tailCrlf, ih]
      · rw [skipToken_block] at ih ⊢
        rw [crlf_slash, crlf_star, braceLoop_block, endOfBlock_crlf, ih]
      · cases hq : isQuote c with
        | true =>
            rw [skipToken_other hother, if_pos hq] at ih ⊢
            have hc : c ≠ '\n' := by
              rintro rfl
              exact absurd hq (by decide)
            have hother' : startsComment c (crlf cs) = false := by rw [startsComment_crlf, hother]
            rw [crlf_cons hc, braceLoop_literal depth _ hother' hq, skipStringLiteral_crlf hq, ih]
        | false =>
            rw [skipToken_other hother, hq] at hskip
            exact absurd hskip (Nat.lt_irrefl _)
  | case3 depth cs hskip ih =>
      have ⟨hother, hquote⟩ := not_token hskip
      rw [crlf_cons (by decide), braceLoop_plain depth _ (startsComment_crlf _ cs ▸ hother) hquote]
      exact ih
  | case4 cs hskip hopen =>
      have ⟨hother, hquote⟩ := not_token hskip
      rw [crlf_cons (by decide), braceLoop_plain 1 _ (startsComment_crlf _ cs ▸ hother) hquote]
      rfl
  | case5 depth cs hdepth hskip hopen ih =>
      have ⟨hother, hquote⟩ := not_token hskip
      rw [crlf_cons (by decide), braceLoop_plain depth _ (startsComment_crlf _ cs ▸ hother) hquote]
      rw [if_neg hopen, if_pos rfl, if_neg hdepth, ih]
  -- no brace; a line break becomes two characters
  | case6 depth c cs hskip hopen hclose ih =>
      have ⟨hother, hquote⟩ := not_token hskip
      have hplain : ∀ t, startsComment c t = false → braceLoop depth (c :: t) = braceLoop depth t := by
        intro t ht
        rw [braceLoop_plain depth t ht hquote, if_neg hopen, if_neg hclose]
      by_cases hc : c = '\n'
      · subst hc
        rw [crlf_newline, braceLoop_plain depth _ (show startsComment '\r' _ = false from rfl) rfl,
          if_neg (by decide), if_neg (by decide), hplain _ rfl, ih]
      · rw [crlf_cons hc, hplain _ (startsComment_crlf _ cs ▸ hother), ih]

theorem endOfBlockBrace_crlf (s : Text) : endOfBlockBrace (crlf s) = crlf (endOfBlockBrace s) := by
  cases s with
  | nil => rfl
  | cons c cs =>
      by_cases hopen : c = '{'
      · subst hopen
        rw [crlf_cons (by decide)]
        exact braceLoop_crlf 1 cs
      · have hnone : ∀ d t, d ≠ '{' → endOfBlockBrace (d :: t) = [] := by
          intro d t hd
          rw [endOfBlockBrace]
          rintro rest heq
          cases heq
          exact hd rfl
        rw [hnone c cs hopen]
        by_cases hc : c = '\n'
        · subst hc
          exact hnone _ _ (by decide)
        · rw [crlf_cons hc]
          exact hnone c _ hopen

/-! ## §4. Comments. -/

theorem lineComments_tailCrlf (seen : Bool) (s : Text) :
    lineComments seen (tailCrlf s) = lineComments seen (crlf s) := by
  fun_cases tailCrlf s with
  | case1 rest =>
      rw [crlf_newline, lineComments_other seen (show startsComment '\r' _ = false from rfl)]
      simp [isQuote, isBlank]
  | case2 => rfl

/-- Both versions have the same line comments. -/
theorem lineComments_crlf (seen : Bool) (s : Text) :
    lineComments seen (crlf s) = (lineComments seen s).map fun p => (crlf p.1, p.2) := by
  fun_induction lineComments seen s with
  | case1 => rw [crlf_nil, lineComments]; rfl
  | case2 seen body ih =>
      rw [crlf_slash, crlf_slash, lineComments_line, endOfLine_crlf, lineComments_tailCrlf, ih]
      rfl
  | case3 seen body ih => rw [crlf_slash, crlf_star, lineComments_block, endOfBlock_crlf, ih]
  | case4 seen c cs hline hblock hquote ih =>
      have hc : c ≠ '\n' := by
        rintro rfl
        exact absurd hquote (by decide)
      have hother : startsComment c (crlf cs) = false := by
        rw [startsComment_crlf, startsComment_false hline hblock]
      rw [crlf_cons hc, lineComments_other _ hother, if_pos hquote, skipStringLiteral_crlf hquote, ih]
  | case5 seen c cs hline hblock hquote ih =>
      by_cases hc : c = '\n'
      · subst hc
        have hnl : startsComment '\n' (crlf cs) = false := rfl
        rw [crlf_newline, lineComments_other seen (show startsComment '\r' _ = false from rfl),
          if_neg (by decide), show (seen || !isBlank '\r') = seen from Bool.or_false seen,
          lineComments_other seen hnl, if_neg hquote, ih]
      · have hother : startsComment c (crlf cs) = false := by
          rw [startsComment_crlf, startsComment_false hline hblock]
        rw [crlf_cons hc, lineComments_other _ hother, if_neg hquote, ih]

/-! ## §5. The next code line. -/

theorem suffix_skipNewline (s : Text) : skipNewline s <:+ s := by
  fun_cases skipNewline s with
  | case1 rest => exact List.suffix_cons '\n' rest
  | case2 => exact List.suffix_refl _

theorem suffix_endOfBlock (s : Text) : endOfBlock s <:+ s := by
  fun_induction endOfBlock s with
  | case1 rest => exact ⟨['*', '/'], rfl⟩
  | case2 c rest _ ih => exact ih.trans (List.suffix_cons c rest)
  | case3 => exact List.suffix_refl _

/-- Before the next code there is a line break that no line comment ends with. -/
def skipsBlankLine (s : Text) : Bool :=
  match _h : skipInlineWs s with
  | '\n' :: _ => true
  | '/' :: '/' :: body => skipsBlankLine (skipNewline (endOfLine body))
  | '/' :: '*' :: body => skipsBlankLine (endOfBlock body)
  | _ => false
  termination_by s.length
  decreasing_by
    · have hle := length_skipInlineWs_le s
      have h1 := length_skipNewline_le (endOfLine body)
      have h2 := length_endOfLine_le body
      rw [_h, List.length_cons, List.length_cons] at hle
      omega
    · have hle := length_skipInlineWs_le s
      have := length_endOfBlock_le body
      rw [_h, List.length_cons, List.length_cons] at hle
      omega

/-- A round that goes on does not change what the search finds. -/
theorem nextCodeLine_some {s rest : Text} (h : codeLineRound s = some rest) :
    nextCodeLine s = nextCodeLine rest := by
  have hs : s ≠ [] := by
    rintro rfl
    cases h
  rw [nextCodeLine, if_neg hs]
  split
  case h_1 rest' heq =>
    rw [h] at heq
    cases heq
    rfl
  case h_2 heq =>
    rw [h] at heq
    cases heq

/-- A round that stops has found the code line. -/
theorem nextCodeLine_none {s : Text} (hs : s ≠ []) (h : codeLineRound s = none) :
    nextCodeLine s = some (s, skipInlineWs s) := by
  rw [nextCodeLine, if_neg hs]
  split
  case h_1 heq =>
    rw [h] at heq
    cases heq
  case h_2 => rfl

theorem codeLineRound_blank {s t : Text} (h : skipInlineWs s = '\n' :: t) :
    codeLineRound s = some t := by
  rw [codeLineRound, h]
  rfl

theorem codeLineRound_line {s body : Text} (h : skipInlineWs s = '/' :: '/' :: body) :
    codeLineRound s = some (skipNewline (endOfLine body)) := by
  rw [codeLineRound, h]
  rfl

theorem codeLineRound_block {s body : Text} (h : skipInlineWs s = '/' :: '*' :: body) :
    codeLineRound s = some (endOfBlock body) := by
  rw [codeLineRound, h]
  rfl

theorem codeLineRound_code {s : Text} {c : Char} {cs : Text} (h : skipInlineWs s = c :: cs)
    (hc : c ≠ '\n') (hother : startsComment c cs = false) : codeLineRound s = none := by
  rw [codeLineRound, h]
  split
  · rename_i heq
    cases heq
    exact absurd rfl hc
  · rename_i heq
    cases heq
    simp [startsComment] at hother
  · rename_i heq
    cases heq
    simp [startsComment] at hother
  · rfl

theorem codeLineRound_end {s : Text} (h : skipInlineWs s = []) : codeLineRound s = none := by
  rw [codeLineRound, h]

/-- Blanks and comments up to the next token: skipping to the line's first byte
changes nothing. -/
theorem skipWsAndComments_skipInlineWs (s : Text) :
    skipWsAndComments (skipInlineWs s) = skipWsAndComments s := by
  induction s with
  | nil => rfl
  | cons c cs ih =>
      by_cases hc : isSpaceOrTab c = true
      · have hblank : isBlank c = true := by
          rw [isSpaceOrTab] at hc
          rw [isBlank, hc]
          rfl
        rw [skipInlineWs, List.dropWhile_cons_of_pos hc, ← skipInlineWs, ih,
          skipWsAndComments_blank hblank]
      · rw [skipInlineWs, List.dropWhile_cons_of_neg hc]

theorem skipWsAndComments_skipNewline (s : Text) :
    skipWsAndComments (skipNewline s) = skipWsAndComments s := by
  fun_cases skipNewline s with
  | case1 rest => rw [skipWsAndComments_blank (show isBlank '\n' = true from rfl)]
  | case2 => rfl

theorem skipNewline_endOfLine_crlf (body : Text) :
    skipNewline (endOfLine (crlf body)) = crlf (skipNewline (endOfLine body)) := by
  rw [endOfLine_crlf, skipNewline_tailCrlf (endsLine_endOfLine body)]

/-- Where no blank line is in the way, both versions find the same line. -/
theorem nextCodeLine_crlf {s : Text} (h : skipsBlankLine s = false) :
    nextCodeLine (crlf s) = (nextCodeLine s).map fun p => (crlf p.1, crlf p.2) := by
  fun_induction skipsBlankLine s with
  -- a blank line is excluded
  | case1 s t heq => cases h
  | case2 s body heq ih =>
      have hcrlf : skipInlineWs (crlf s) = '/' :: '/' :: crlf body := by
        rw [skipInlineWs_crlf, heq]
        rfl
      rw [nextCodeLine_some (codeLineRound_line heq), nextCodeLine_some (codeLineRound_line hcrlf),
        skipNewline_endOfLine_crlf, ih h]
  | case3 s body heq ih =>
      have hcrlf : skipInlineWs (crlf s) = '/' :: '*' :: crlf body := by
        rw [skipInlineWs_crlf, heq]
        rfl
      rw [nextCodeLine_some (codeLineRound_block heq),
        nextCodeLine_some (codeLineRound_block hcrlf), endOfBlock_crlf, ih h]
  -- the round stops in both versions
  | case4 s hblank hline hblock =>
      have hround : codeLineRound s = none ∧ codeLineRound (crlf s) = none := by
        cases hs : skipInlineWs s with
        | nil =>
            have hcrlf : skipInlineWs (crlf s) = [] := by rw [skipInlineWs_crlf, hs, crlf_nil]
            exact ⟨codeLineRound_end hs, codeLineRound_end hcrlf⟩
        | cons c cs =>
            have hc : c ≠ '\n' := by
              rintro rfl
              exact hblank cs hs
            have hother : startsComment c cs = false := by
              refine startsComment_false ?_ ?_
              · rintro body rfl rfl
                exact hline body hs
              · rintro body rfl rfl
                exact hblock body hs
            have hcrlf : skipInlineWs (crlf s) = c :: crlf cs := by
              rw [skipInlineWs_crlf, hs, crlf_cons hc]
            exact ⟨codeLineRound_code hs hc hother,
              codeLineRound_code hcrlf hc (startsComment_crlf c cs ▸ hother)⟩
      by_cases hnil : s = []
      · subst hnil
        rw [crlf_nil, nextCodeLine, if_pos rfl]
        rfl
      · have hne : crlf s ≠ [] := fun heq => hnil (crlf_eq_nil.mp heq)
        rw [nextCodeLine_none hnil hround.1, nextCodeLine_none hne hround.2, skipInlineWs_crlf]
        rfl

/-- **A blank line of the other version is a code line**: the search stops at
its CR. -/
theorem nextCodeLine_crlf_of_blank {s : Text} (h : skipsBlankLine s = true) :
    ∃ start t, start <:+ s ∧ skipInlineWs start = '\n' :: t
      ∧ nextCodeLine (crlf s) = some (crlf start, crlf ('\n' :: t))
      ∧ nextCodeLine s = nextCodeLine t := by
  fun_induction skipsBlankLine s with
  -- the blank line: with CR it is taken for code
  | case1 s t heq =>
      refine ⟨s, t, List.suffix_refl s, heq, ?_, nextCodeLine_some (codeLineRound_blank heq)⟩
      have hcrlf : skipInlineWs (crlf s) = '\r' :: '\n' :: crlf t := by
        rw [skipInlineWs_crlf, heq, crlf_newline]
      have hne : crlf s ≠ [] := by
        intro hnil
        rw [hnil] at hcrlf
        cases hcrlf
      rw [nextCodeLine_none hne (codeLineRound_code hcrlf (by decide) rfl), hcrlf, crlf_newline]
  | case2 s body heq ih =>
      have hcrlf : skipInlineWs (crlf s) = '/' :: '/' :: crlf body := by
        rw [skipInlineWs_crlf, heq]
        rfl
      have ⟨start, t, hsuffix, hstart, hfound, hnext⟩ := ih h
      refine ⟨start, t, ?_, hstart, ?_, ?_⟩
      · have hbody : body <:+ s := by
          have hrest : body <:+ skipInlineWs s := heq ▸ ⟨['/', '/'], rfl⟩
          exact hrest.trans (List.dropWhile_suffix _)
        exact hsuffix.trans ((suffix_skipNewline _).trans ((List.dropWhile_suffix _).trans hbody))
      · rw [nextCodeLine_some (codeLineRound_line hcrlf), skipNewline_endOfLine_crlf, hfound]
      · rw [nextCodeLine_some (codeLineRound_line heq), hnext]
  | case3 s body heq ih =>
      have hcrlf : skipInlineWs (crlf s) = '/' :: '*' :: crlf body := by
        rw [skipInlineWs_crlf, heq]
        rfl
      have ⟨start, t, hsuffix, hstart, hfound, hnext⟩ := ih h
      refine ⟨start, t, ?_, hstart, ?_, ?_⟩
      · have hbody : body <:+ s := by
          have hrest : body <:+ skipInlineWs s := heq ▸ ⟨['/', '*'], rfl⟩
          exact hrest.trans (List.dropWhile_suffix _)
        exact hsuffix.trans ((suffix_endOfBlock _).trans hbody)
      · rw [nextCodeLine_some (codeLineRound_block hcrlf), endOfBlock_crlf, hfound]
      · rw [nextCodeLine_some (codeLineRound_block heq), hnext]
  | case4 => cases h

/-- A round goes past blanks and comments only. -/
theorem codeLineRound_spec {s rest : Text} (h : codeLineRound s = some rest) :
    rest <:+ s ∧ skipWsAndComments s = skipWsAndComments rest := by
  have hsuffix : skipInlineWs s <:+ s := List.dropWhile_suffix _
  rw [← skipWsAndComments_skipInlineWs s]
  rw [codeLineRound] at h
  split at h
  case h_1 t heq =>
    cases h
    rw [heq] at hsuffix ⊢
    exact ⟨(List.suffix_cons _ _).trans hsuffix, skipWsAndComments_blank rfl _⟩
  case h_2 body heq =>
    cases h
    rw [heq] at hsuffix ⊢
    have hbody : body <:+ s := List.IsSuffix.trans ⟨['/', '/'], rfl⟩ hsuffix
    refine ⟨(suffix_skipNewline _).trans ((List.dropWhile_suffix _).trans hbody), ?_⟩
    rw [skipWsAndComments_line, skipWsAndComments_skipNewline]
  case h_3 body heq =>
    cases h
    rw [heq] at hsuffix ⊢
    have hbody : body <:+ s := List.IsSuffix.trans ⟨['/', '*'], rfl⟩ hsuffix
    exact ⟨(suffix_endOfBlock _).trans hbody, skipWsAndComments_block body⟩
  case h_4 => cases h

/-- Without CR, a round that finds code finds the next token. -/
theorem codeLineRound_none {s : Text} (hcr : '\r' ∉ s) (h : codeLineRound s = none) :
    skipWsAndComments s = skipInlineWs s := by
  rw [← skipWsAndComments_skipInlineWs s]
  cases hs : skipInlineWs s with
  | nil => rw [skipWsAndComments]
  | cons c cs =>
      have hmem : c ∈ s := by
        have hhere : c ∈ skipInlineWs s := hs ▸ List.mem_cons_self ..
        exact (List.dropWhile_suffix isSpaceOrTab).subset hhere
      have hspace : isSpaceOrTab c = false := by
        have hne : s.dropWhile isSpaceOrTab ≠ [] := fun hnil => by
          rw [skipInlineWs, hnil] at hs
          cases hs
        have hhead := List.head_dropWhile_not isSpaceOrTab hne
        simp only [skipInlineWs] at hs
        simpa only [hs, List.head_cons] using hhead
      have hlf : c ≠ '\n' := by
        rintro rfl
        rw [codeLineRound_blank hs] at h
        cases h
      -- a CR is a blank, but not to the line search; the source has none
      have hblank : isBlank c = false := by
        have hr : c ≠ '\r' := fun heq => hcr (heq ▸ hmem)
        rw [isSpaceOrTab] at hspace
        simp [isBlank, hspace, hr, hlf]
      refine skipWsAndComments_other hblank (startsComment_false ?_ ?_)
      · rintro body rfl rfl
        rw [codeLineRound_line hs] at h
        cases h
      · rintro body rfl rfl
        rw [codeLineRound_block hs] at h
        cases h

/-- The code line that is found is a rest of the text, read from its first code. -/
theorem nextCodeLine_spec {s start code : Text} (h : nextCodeLine s = some (start, code)) :
    start <:+ s ∧ code = skipInlineWs start := by
  fun_induction nextCodeLine s with
  | case1 => cases h
  | case2 s _ rest heq ih =>
      have ⟨hstart, hcode⟩ := ih h
      exact ⟨hstart.trans (codeLineRound_spec heq).1, hcode⟩
  | case3 s =>
      cases h
      exact ⟨List.suffix_refl _, rfl⟩

/-- Without CR, the search finds the next token. -/
theorem nextCodeLine_of_token {s : Text} (hcr : '\r' ∉ s) {c : Char} {cs : Text}
    (h : skipWsAndComments s = c :: cs) : ∃ start, nextCodeLine s = some (start, c :: cs) := by
  fun_induction nextCodeLine s with
  | case1 =>
      rw [skipWsAndComments] at h
      cases h
  | case2 s _ rest heq ih =>
      obtain ⟨hsuffix, hskip⟩ := codeLineRound_spec heq
      exact ih (fun hmem => hcr (hsuffix.subset hmem)) (hskip ▸ h)
  | case3 s _ heq =>
      rw [codeLineRound_none hcr heq] at h
      exact ⟨s, by rw [h]⟩

end ShaderClippy.Suppress
