/-
  ShaderClippy.Suppress.Comments

  **THE SCAN, COMMENT BY COMMENT.**

  The loop of `scan` does two things at once: it finds the line comments, and it
  acts on each. `lineComments` is the first alone; `scanFrom_spec` says that
  the scan is what the comments contribute, one after the other.
-/
import ShaderClippy.Suppress.Marker

namespace ShaderClippy.Suppress

/-! ## §1. The line comments of a source. -/

/-- The line comments from a position on: the text after `//`, and if there is
code before. -/
def lineComments (seen : Bool) : Text → List (Text × Bool)
  | [] => []
  | c :: cs =>
      match c, cs with
      | '/', '/' :: body => (body, seen) :: lineComments seen (endOfLine body)
      | '/', '*' :: body => lineComments seen (endOfBlock body)
      | c, cs =>
          if isQuote c then lineComments true (skipStringLiteral c cs)
          else lineComments (seen || !isBlank c) cs
  termination_by s => s.length
  decreasing_by
    · have := length_endOfLine_le body
      simp only [List.length_cons]
      omega
    · have := length_endOfBlock_le body
      simp only [List.length_cons]
      omega
    · have := length_skipStringLiteral_le c cs
      simp only [List.length_cons]
      omega
    · exact Nat.lt_succ_self _

/-- No comment begins with this character here. -/
def startsComment (c : Char) (cs : Text) : Bool :=
  c == '/' && (cs.head? == some '/' || cs.head? == some '*')

/-- At a line comment the scanner notes its body and goes on behind the line. -/
theorem lineComments_line (seen : Bool) (body : Text) :
    lineComments seen ('/' :: '/' :: body) = (body, seen) :: lineComments seen (endOfLine body) := by
  rw [lineComments]

theorem lineComments_block (seen : Bool) (body : Text) :
    lineComments seen ('/' :: '*' :: body) = lineComments seen (endOfBlock body) := by
  rw [lineComments]

theorem lineComments_other (seen : Bool) {c : Char} {cs : Text} (h : startsComment c cs = false) :
    lineComments seen (c :: cs) =
      if isQuote c then lineComments true (skipStringLiteral c cs)
      else lineComments (seen || !isBlank c) cs := by
  rw [lineComments]
  all_goals
    rintro body rfl rfl
    simp [startsComment] at h

/-- Later comments have less text behind them. -/
theorem lineComments_shrink (seen : Bool) (s : Text) :
    (lineComments seen s).Pairwise (fun p q => q.1.length < p.1.length)
      ∧ ∀ p ∈ lineComments seen s, p.1.length + 2 ≤ s.length := by
  fun_induction lineComments seen s with
  | case1 => exact ⟨List.Pairwise.nil, fun p hp => absurd hp List.not_mem_nil⟩
  -- the comment that is noted, and those behind its line
  | case2 seen body ih =>
      have hline := length_endOfLine_le body
      obtain ⟨hpair, hbound⟩ := ih
      refine ⟨List.pairwise_cons.mpr ⟨fun p hp => ?_, hpair⟩, fun p hp => ?_⟩
      · have := hbound p hp
        show p.1.length < body.length
        omega
      · rcases List.mem_cons.mp hp with rfl | hp
        · simp
        · have := hbound p hp
          simp only [List.length_cons]
          omega
  | case3 seen body ih =>
      have hblock := length_endOfBlock_le body
      refine ⟨ih.1, fun p hp => ?_⟩
      have := ih.2 p hp
      simp only [List.length_cons]
      omega
  | case4 seen c cs _ _ _ ih =>
      have hliteral := length_skipStringLiteral_le c cs
      refine ⟨ih.1, fun p hp => ?_⟩
      have := ih.2 p hp
      simp only [List.length_cons]
      omega
  | case5 seen c cs _ _ _ ih =>
      refine ⟨ih.1, fun p hp => ?_⟩
      have := ih.2 p hp
      simp only [List.length_cons]
      omega

/-! ## §2. Literals. -/

theorem quote_ne {quote : Char} (h : isQuote quote = true) : '\\' ≠ quote := by
  rintro rfl
  exact absurd h (by decide)

theorem skipStringLiteral_quote (quote : Char) (cs : Text) :
    skipStringLiteral quote (quote :: cs) = cs := by
  rw [skipStringLiteral.eq_def]
  exact if_pos rfl

theorem skipStringLiteral_char {quote c : Char} (cs : Text) (hc : c ≠ quote) (hesc : c ≠ '\\') :
    skipStringLiteral quote (c :: cs) = skipStringLiteral quote cs := by
  rw [skipStringLiteral.eq_def]
  show (if c = quote then _ else if c = '\\' then _ else _) = _
  rw [if_neg hc, if_neg hesc]

/-- A backslash takes the next character with it. -/
theorem skipStringLiteral_escape {quote : Char} (c : Char) (cs : Text) (h : '\\' ≠ quote) :
    skipStringLiteral quote ('\\' :: c :: cs) = skipStringLiteral quote cs := by
  rw [skipStringLiteral.eq_def]
  show (if '\\' = quote then _ else if '\\' = '\\' then skipStringLiteral quote cs else _) = _
  rw [if_neg h, if_pos rfl]

theorem suffix_skipStringLiteral (quote : Char) (s : Text) : skipStringLiteral quote s <:+ s := by
  fun_induction skipStringLiteral quote s with
  | case1 => exact List.suffix_refl _
  | case2 cs => exact List.suffix_cons _ cs
  | case3 d rest _ ih => exact ih.trans ⟨['\\', d], rfl⟩
  | case4 => exact List.nil_suffix
  | case5 c cs _ _ ih => exact ih.trans (List.suffix_cons c cs)

/-- Where no comment begins there is none. -/
theorem lineComments_eq_nil (seen : Bool) (s : Text)
    (h : ∀ c cs, c :: cs <:+ s → startsComment c cs = false) : lineComments seen s = [] := by
  fun_induction lineComments seen s with
  | case1 => rfl
  | case2 seen body => cases h _ _ (List.suffix_refl _)
  | case3 seen body => cases h _ _ (List.suffix_refl _)
  | case4 seen c cs _ _ _ ih =>
      exact ih fun d ds hd => h d ds (hd.trans ((suffix_skipStringLiteral c cs).trans (List.suffix_cons c cs)))
  | case5 seen c cs _ _ _ ih => exact ih fun d ds hd => h d ds (hd.trans (List.suffix_cons c cs))

/-! ## §3. What a comment contributes. -/

/-- The entries of the comment with this body. -/
def commentEntries (source body : Text) (seenRealCode : Bool) : List Suppression :=
  let marker := parseMarker body (endOfLine body).length
  if marker.wellFormed && !marker.rules.isEmpty then
    buildEntries (resolveScope source body seenRealCode marker.rules) source marker.rules
  else []

/-- The diagnostic of the comment with this body. -/
def commentDiagnostic (source body : Text) : Option ScanDiagnostic :=
  let marker := parseMarker body (endOfLine body).length
  if marker.wellFormed && !marker.rules.isEmpty then none else buildMalformed source body

/-- What a comment adds to the state of the scan. -/
theorem finalizeLineComment_eq (source body : Text) (st : ScanState) :
    finalizeLineComment source body st =
      ⟨st.entries ++ commentEntries source body st.seenRealCode,
        st.scanDiagnostics ++ (commentDiagnostic source body).toList, st.seenRealCode⟩ := by
  simp only [finalizeLineComment, commentEntries, commentDiagnostic]
  split
  · simp
  · cases buildMalformed source body <;> simp

/-- The text begins with a comment, or with something else. -/
theorem startsComment_cases (c : Char) (cs : Text) :
    (∃ body, c = '/' ∧ cs = '/' :: body) ∨ (∃ body, c = '/' ∧ cs = '*' :: body)
      ∨ startsComment c cs = false := by
  cases h : startsComment c cs with
  | false => exact Or.inr (Or.inr rfl)
  | true =>
      cases cs with
      | nil => simp [startsComment] at h
      | cons d ds =>
          have ⟨hc, hd⟩ : c = '/' ∧ (d = '/' ∨ d = '*') := by simpa [startsComment] using h
          rcases hd with hd | hd
          · exact Or.inl ⟨ds, hc, by rw [hd]⟩
          · exact Or.inr (Or.inl ⟨ds, hc, by rw [hd]⟩)

theorem startsComment_false {c : Char} {cs : Text}
    (hline : ∀ body, c = '/' → cs = '/' :: body → False)
    (hblock : ∀ body, c = '/' → cs = '*' :: body → False) : startsComment c cs = false := by
  rcases startsComment_cases c cs with ⟨body, hc, hcs⟩ | ⟨body, hc, hcs⟩ | h
  · exact (hline body hc hcs).elim
  · exact (hblock body hc hcs).elim
  · exact h

/-- **The scan is what the comments contribute**, one after the other. -/
theorem scanFrom_spec (source : Text) (st : ScanState) (s : Text) :
    (scanFrom source st s).entries
        = st.entries ++ (lineComments st.seenRealCode s).flatMap
            (fun p => commentEntries source p.1 p.2)
      ∧ (scanFrom source st s).scanDiagnostics
        = st.scanDiagnostics ++ (lineComments st.seenRealCode s).filterMap
            (fun p => commentDiagnostic source p.1) := by
  fun_induction scanFrom source st s with
  | case1 st => simp [lineComments]
  | case2 st body ih =>
      rw [finalizeLineComment_eq] at ih ⊢
      have ⟨hentries, hdiags⟩ := ih
      rw [lineComments_line, hentries, hdiags, List.flatMap_cons, List.append_assoc,
        List.append_assoc]
      cases hd : commentDiagnostic source body with
      | none => simp [hd]
      | some d => simp [hd]
  | case3 st body ih =>
      rw [lineComments_block]
      exact ih
  | case4 st c cs h1 h2 hq ih =>
      have hother : startsComment c cs = false := startsComment_false h1 h2
      rw [lineComments_other _ hother, if_pos hq]
      exact ih
  | case5 st c cs h1 h2 hq ih =>
      have hother : startsComment c cs = false := startsComment_false h1 h2
      rw [lineComments_other _ hother, if_neg hq]
      exact ih

/-- A source without comments suppresses nothing, and nothing is said about it. -/
theorem scan_plain {source : Text} (h : lineComments false source = []) :
    (scan source).entries = [] ∧ (scan source).scanDiagnostics = [] := by
  obtain ⟨hentries, hdiagnostics⟩ := scanFrom_spec source ⟨[], [], false⟩ source
  rw [h] at hentries hdiagnostics
  exact ⟨hentries, hdiagnostics⟩

/-- What has no entries suppresses nothing. -/
theorem suppresses_plain {source : Text} (h : (scan source).entries = []) (ruleId : Text) (byteLo byteHi : Nat) :
    (scan source).suppresses ruleId byteLo byteHi = false := by
  have hnone : ∀ r, intervals (scanFrom source ⟨[], [], false⟩ source).entries r = [] := by
    intro r
    rw [show (scanFrom source ⟨[], [], false⟩ source).entries = [] from h]
    exact List.mergeSort_nil
  unfold SuppressionSet.suppresses scan index
  dsimp only
  rw [hnone, hnone, ite_self]
  rfl

end ShaderClippy.Suppress
