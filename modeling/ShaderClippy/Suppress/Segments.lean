/-
  ShaderClippy.Suppress.Segments

  **THE SEGMENTS OF A SOURCE.**

  A source is cut, from left to right, into line comments, block comments,
  quoted literals and plain bytes (`Segmented`). Every source is
  (`exists_segmented`), and the scan finds the line comments of the segmentation
  (`lineComments_segmented`).
-/
import Mathlib
import ShaderClippy.Suppress.Comments

namespace ShaderClippy.Suppress

/-! ## §1. Segmentations. -/

inductive Segment where
  | line (body : Text)
  | block (text : Text)
  | literal (text : Text)
  | plain (c : Char)
  deriving DecidableEq

def Segment.text : Segment → Text
  | .line body => '/' :: '/' :: body
  | .block text => text
  | .literal text => text
  | .plain c => [c]

/-- Code is what is neither a comment nor blank. -/
def Segment.isCode : Segment → Bool
  | .line _ => false
  | .block _ => false
  | .literal _ => true
  | .plain c => !isBlank c

/-- The source that the segments make up. -/
def textOf (segs : List Segment) : Text := segs.flatMap Segment.text

theorem textOf_cons (seg : Segment) (segs : List Segment) :
    textOf (seg :: segs) = seg.text ++ textOf segs := List.flatMap_cons

theorem textOf_append (segs segs' : List Segment) :
    textOf (segs ++ segs') = textOf segs ++ textOf segs' := List.flatMap_append

/-- What stands between the quotes of a literal. -/
inductive Quoted (quote : Char) : Text → Prop
  | nil : Quoted quote []
  | char {c : Char} {s : Text} : c ≠ quote → c ≠ '\\' → Quoted quote s → Quoted quote (c :: s)
  | escape {c : Char} {s : Text} : Quoted quote s → Quoted quote ('\\' :: c :: s)

def kClose : Text := ['*', '/']

/-- **Segmentation**: every segment is as long as it can be, an unclosed comment
or literal runs to the end. -/
inductive Segmented : Text → List Segment → Prop
  | nil : Segmented [] []
  | line {body rest : Text} {segs : List Segment} : '\n' ∉ body → EndsLine rest →
      Segmented rest segs → Segmented ('/' :: '/' :: (body ++ rest)) (.line body :: segs)
  | block {body rest : Text} {segs : List Segment} : ¬ kClose <:+: body ++ ['*'] →
      Segmented rest segs →
      Segmented ('/' :: '*' :: (body ++ '*' :: '/' :: rest))
        (.block ('/' :: '*' :: (body ++ kClose)) :: segs)
  | blockOpen {body : Text} : ¬ kClose <:+: body →
      Segmented ('/' :: '*' :: body) [.block ('/' :: '*' :: body)]
  | literal {quote : Char} {body rest : Text} {segs : List Segment} : isQuote quote = true →
      Quoted quote body → Segmented rest segs →
      Segmented (quote :: (body ++ quote :: rest)) (.literal (quote :: (body ++ [quote])) :: segs)
  | literalOpen {quote : Char} {body : Text} : isQuote quote = true → Quoted quote body →
      Segmented (quote :: body) [.literal (quote :: body)]
  | literalEscape {quote : Char} {body : Text} : isQuote quote = true → Quoted quote body →
      Segmented (quote :: (body ++ ['\\'])) [.literal (quote :: (body ++ ['\\']))]
  | plain {c : Char} {rest : Text} {segs : List Segment} : isQuote c = false →
      startsComment c rest = false → Segmented rest segs → Segmented (c :: rest) (.plain c :: segs)

theorem Segmented.textOf {source : Text} {segs : List Segment} (h : Segmented source segs) :
    textOf segs = source := by
  induction h with
  | nil => rfl
  | line _ _ _ ih => rw [textOf_cons, ih]; rfl
  | block _ _ ih =>
      rw [textOf_cons, ih]
      simp [Segment.text, kClose]
  | literal _ _ _ ih =>
      rw [textOf_cons, ih]
      simp [Segment.text]
  | plain _ _ _ ih => rw [textOf_cons, ih]; rfl
  | blockOpen => exact List.append_nil _
  | literalOpen => exact List.append_nil _
  | literalEscape => exact List.append_nil _

theorem Segmented.tail {source : Text} {seg : Segment} {segs : List Segment}
    (h : Segmented source (seg :: segs)) : Segmented (Suppress.textOf segs) segs := by
  cases h with
  | line _ _ hsegs => rw [hsegs.textOf]; exact hsegs
  | block _ hsegs => rw [hsegs.textOf]; exact hsegs
  | literal _ _ hsegs => rw [hsegs.textOf]; exact hsegs
  | plain _ _ hsegs => rw [hsegs.textOf]; exact hsegs
  | blockOpen => exact .nil
  | literalOpen => exact .nil
  | literalEscape => exact .nil

/-- What stands behind the first segments is segmented by the others. -/
theorem Segmented.drop {before after : List Segment} :
    ∀ {source : Text}, Segmented source (before ++ after) →
      Segmented (Suppress.textOf after) after := by
  induction before with
  | nil =>
      intro source h
      have hafter : Segmented source after := h
      rw [hafter.textOf]
      exact hafter
  | cons seg before ih =>
      intro source h
      exact ih (Segmented.tail h)

/-- Bytes that are plain wherever they stand. -/
def plainText (s : Text) : Bool := s.all fun c => !isQuote c && c != '/'

theorem plain_of_plainText {c : Char} {cs : Text} (h : plainText (c :: cs) = true) (rest : Text) :
    isQuote c = false ∧ startsComment c rest = false ∧ plainText cs = true := by
  rw [plainText, List.all_cons, Bool.and_eq_true, Bool.and_eq_true, Bool.not_eq_true'] at h
  obtain ⟨⟨hquote, hslash⟩, hcs⟩ := h
  refine ⟨hquote, ?_, hcs⟩
  have hc : (c == '/') = false := by simpa using hslash
  rw [startsComment, hc]
  rfl

theorem Segmented.plains {s rest : Text} {segs : List Segment} (hs : plainText s = true)
    (h : Segmented rest segs) : Segmented (s ++ rest) (s.map .plain ++ segs) := by
  induction s with
  | nil => exact h
  | cons c cs ih =>
      obtain ⟨hquote, hcomment, hcs⟩ := plain_of_plainText hs (cs ++ rest)
      exact .plain hquote hcomment (ih hcs)

/-! ## §2. The skippers on segments. -/

/-- A line ends where its break stands. -/
theorem endOfLine_append {body rest : Text} (hbody : '\n' ∉ body) (hrest : EndsLine rest) :
    endOfLine (body ++ rest) = rest := by
  have hpos : ∀ c ∈ body, (c != '\n') = true := by
    intro c hc
    simp only [bne_iff_ne, ne_eq]
    rintro rfl
    exact hbody hc
  rw [endOfLine, List.dropWhile_append_of_pos hpos]
  rcases hrest with rfl | ⟨t, rfl⟩
  · rfl
  · rfl

/-- A block comment ends at its first `*/`. -/
theorem endOfBlock_append {body : Text} (rest : Text) (h : ¬ kClose <:+: body ++ ['*']) :
    endOfBlock (body ++ '*' :: '/' :: rest) = rest := by
  induction body with
  | nil => rw [List.nil_append, endOfBlock]
  | cons c cs ih =>
      have hcs : ¬ kClose <:+: cs ++ ['*'] := fun ⟨u, v, huv⟩ =>
        h ⟨c :: u, v, by rw [List.cons_append, List.cons_append, huv]; rfl⟩
      rw [List.cons_append, endOfBlock, ih hcs]
      rintro t rfl ht
      cases cs with
      | nil => simp at ht
      | cons d ds =>
          cases ht
          exact h ⟨[], ds ++ ['*'], rfl⟩

/-- One without `*/` runs to the end of the file. -/
theorem endOfBlock_open {body : Text} (h : ¬ kClose <:+: body) : endOfBlock body = [] := by
  induction body with
  | nil => rw [endOfBlock]
  | cons c cs ih =>
      have hcs : ¬ kClose <:+: cs := fun ⟨u, v, huv⟩ => h ⟨c :: u, v, by rw [← huv]; rfl⟩
      rw [endOfBlock, ih hcs]
      rintro t rfl rfl
      exact h ⟨[], t, rfl⟩

/-- A literal ends at its first quote that is not escaped. -/
theorem skipStringLiteral_append {quote : Char} {body : Text} (rest : Text)
    (hquote : isQuote quote = true) (h : Quoted quote body) :
    skipStringLiteral quote (body ++ quote :: rest) = rest := by
  induction h with
  | nil => exact skipStringLiteral_quote quote rest
  | char hc hesc _ ih => rw [List.cons_append, skipStringLiteral_char _ hc hesc, ih]
  | escape _ ih =>
      rw [List.cons_append, List.cons_append, skipStringLiteral_escape _ _ (quote_ne hquote), ih]

/-- One without such a quote runs to the end of the file. -/
theorem skipStringLiteral_open {quote : Char} {body rest : Text} (hquote : isQuote quote = true)
    (h : Quoted quote body) (hrest : rest = [] ∨ rest = ['\\']) :
    skipStringLiteral quote (body ++ rest) = [] := by
  induction h with
  | nil =>
      rcases hrest with rfl | rfl
      · rfl
      · rw [List.nil_append, skipStringLiteral.eq_def]
        show (if '\\' = quote then _ else if '\\' = '\\' then [] else _) = _
        rw [if_neg (quote_ne hquote), if_pos rfl]
  | char hc hesc _ ih => rw [List.cons_append, skipStringLiteral_char _ hc hesc, ih]
  | escape _ ih =>
      rw [List.cons_append, List.cons_append, skipStringLiteral_escape _ _ (quote_ne hquote), ih]

/-! ## §3. Every source has a segmentation. -/

/-- A block comment is closed or runs to the end. -/
theorem closed_or_open (s : Text) :
    (∃ body rest, s = body ++ '*' :: '/' :: rest ∧ ¬ kClose <:+: body ++ ['*'])
      ∨ ¬ kClose <:+: s := by
  induction s with
  | nil => exact Or.inr (by simp [kClose])
  | cons c cs ih =>
      by_cases hclose : ∃ rest, c = '*' ∧ cs = '/' :: rest
      · have ⟨rest, hc, hcs⟩ := hclose
        subst hc hcs
        exact Or.inl ⟨[], rest, rfl, by decide⟩
      -- a `*/` that does not begin here lies in the rest
      · have hstep : ∀ t, kClose <:+: c :: t → (∀ rest, c = '*' → t ≠ '/' :: rest) →
            kClose <:+: t := by
          rintro t ⟨u, v, huv⟩ hno
          cases u with
          | nil =>
              cases huv
              exact absurd rfl (hno v rfl)
          | cons d u =>
              cases huv
              exact ⟨u, v, rfl⟩
        rcases ih with ⟨body, rest, rfl, hbody⟩ | hopen
        · refine Or.inl ⟨c :: body, rest, rfl, fun hinfix => hbody (hstep _ hinfix ?_)⟩
          rintro t rfl ht
          cases body with
          | nil => cases ht
          | cons d ds =>
              cases ht
              exact hclose ⟨_, rfl, rfl⟩
        · refine Or.inr fun hinfix => hopen (hstep _ hinfix ?_)
          rintro t rfl rfl
          exact hclose ⟨t, rfl, rfl⟩

/-- A literal is closed, runs to the end, or ends in a lone backslash. -/
theorem quoted_cases (quote : Char) : ∀ s : Text,
    (∃ body rest, s = body ++ quote :: rest ∧ Quoted quote body) ∨ Quoted quote s
      ∨ ∃ body, s = body ++ ['\\'] ∧ Quoted quote body
  | [] => Or.inr (Or.inl .nil)
  | [c] => by
      by_cases hc : c = quote
      · exact Or.inl ⟨[], [], by rw [hc]; rfl, .nil⟩
      · by_cases hesc : c = '\\'
        · exact Or.inr (Or.inr ⟨[], by rw [hesc]; rfl, .nil⟩)
        · exact Or.inr (Or.inl (.char hc hesc .nil))
  | c :: d :: cs => by
      by_cases hc : c = quote
      · exact Or.inl ⟨[], d :: cs, by rw [hc]; rfl, .nil⟩
      · by_cases hesc : c = '\\'
        · subst hesc
          rcases quoted_cases quote cs with ⟨body, rest, rfl, hbody⟩ | hopen | ⟨body, rfl, hbody⟩
          · exact Or.inl ⟨'\\' :: d :: body, rest, rfl, .escape hbody⟩
          · exact Or.inr (Or.inl (.escape hopen))
          · exact Or.inr (Or.inr ⟨'\\' :: d :: body, rfl, .escape hbody⟩)
        · rcases quoted_cases quote (d :: cs) with ⟨body, rest, hs, hbody⟩ | hopen
            | ⟨body, hs, hbody⟩
          · exact Or.inl ⟨c :: body, rest, by rw [hs]; rfl, .char hc hesc hbody⟩
          · exact Or.inr (Or.inl (.char hc hesc hopen))
          · exact Or.inr (Or.inr ⟨c :: body, by rw [hs]; rfl, .char hc hesc hbody⟩)

theorem endsLine_endOfLine (s : Text) : EndsLine (endOfLine s) := by
  rw [endOfLine]
  induction s with
  | nil => exact Or.inl rfl
  | cons c cs ih =>
      by_cases hc : c = '\n'
      · subst hc
        exact Or.inr ⟨cs, rfl⟩
      · rw [List.dropWhile_cons_of_pos (by simp [hc])]
        exact ih

theorem exists_segmented_le (n : Nat) :
    ∀ source : Text, source.length ≤ n → ∃ segs, Segmented source segs := by
  induction n with
  | zero =>
      intro source hn
      rw [List.length_eq_zero_iff.mp (Nat.le_zero.mp hn)]
      exact ⟨[], .nil⟩
  | succ n ih =>
      intro source hn
      cases source with
      | nil => exact ⟨[], .nil⟩
      | cons c cs =>
          rw [List.length_cons] at hn
          rcases startsComment_cases c cs with ⟨body, rfl, rfl⟩ | ⟨body, rfl, rfl⟩ | hother
          · have hlen := length_endOfLine_le body
            rw [List.length_cons] at hn
            have ⟨segs, hsegs⟩ := ih (endOfLine body) (by omega)
            have hbody : '\n' ∉ body.takeWhile fun c => c != '\n' := fun hmem => by
              simpa using List.mem_takeWhile_imp hmem
            have hline := Segmented.line hbody (endsLine_endOfLine body) hsegs
            rw [endOfLine, List.takeWhile_append_dropWhile] at hline
            exact ⟨_, hline⟩
          · rcases closed_or_open body with ⟨b, rest, rfl, hb⟩ | hopen
            · simp only [List.length_append, List.length_cons] at hn
              have ⟨segs, hsegs⟩ := ih rest (by omega)
              exact ⟨_, .block hb hsegs⟩
            · exact ⟨_, .blockOpen hopen⟩
          · cases hq : isQuote c with
            | false =>
                have ⟨segs, hsegs⟩ := ih cs (by omega)
                exact ⟨_, .plain hq hother hsegs⟩
            | true =>
                -- a literal in its three forms
                rcases quoted_cases c cs with ⟨b, rest, rfl, hb⟩ | hopen | ⟨b, rfl, hb⟩
                · simp only [List.length_append, List.length_cons] at hn
                  have ⟨segs, hsegs⟩ := ih rest (by omega)
                  exact ⟨_, .literal hq hb hsegs⟩
                · exact ⟨_, .literalOpen hq hopen⟩
                · exact ⟨_, .literalEscape hq hb⟩

/-- **Every source has a segmentation.** -/
theorem exists_segmented (source : Text) : ∃ segs, Segmented source segs :=
  exists_segmented_le source.length source (Nat.le_refl _)

/-! ## §4. The comments of a segmentation. -/

/-- A line comment, with what is before and after it. -/
structure Comment where
  before : List Segment
  body : Text
  after : List Segment

/-- The line comments among segments, in order. -/
def commentsFrom (before : List Segment) : List Segment → List Comment
  | [] => []
  | .line body :: after => ⟨before, body, after⟩ :: commentsFrom (before ++ [.line body]) after
  | s :: after => commentsFrom (before ++ [s]) after

/-- A comment of a segmentation is one of its line segments. -/
theorem mem_commentsFrom {before segs : List Segment} {c : Comment} :
    c ∈ commentsFrom before segs ↔
      ∃ between, c.before = before ++ between ∧ segs = between ++ .line c.body :: c.after := by
  induction segs generalizing before with
  | nil =>
      constructor
      · intro h
        cases h
      · rintro ⟨between, -, h⟩
        simp at h
  | cons s after ih =>
      -- a comment after the first segment
      have hlater : (∃ between, c.before = (before ++ [s]) ++ between
            ∧ after = between ++ .line c.body :: c.after) ↔
          ∃ between, c.before = before ++ s :: between
            ∧ s :: after = (s :: between) ++ .line c.body :: c.after := by
        simp
      have hsplit : (∃ between, c.before = before ++ between
            ∧ s :: after = between ++ .line c.body :: c.after) ↔
          (c.before = before ∧ s = .line c.body ∧ after = c.after)
            ∨ c ∈ commentsFrom (before ++ [s]) after := by
        rw [ih, hlater]
        constructor
        · rintro ⟨between, hb, hs⟩
          cases between with
          | nil =>
              cases hs
              exact Or.inl ⟨by simpa using hb, rfl, rfl⟩
          | cons x between =>
              cases hs
              exact Or.inr ⟨between, hb, rfl⟩
        · rintro (⟨hb, hs, hafter⟩ | ⟨between, hb, hs⟩)
          · exact ⟨[], by simpa using hb, by rw [hs, hafter]; rfl⟩
          · exact ⟨s :: between, hb, hs⟩
      rw [hsplit]
      cases s with
      | line body =>
          rw [commentsFrom, List.mem_cons]
          apply or_congr_left
          constructor
          · rintro rfl
            exact ⟨rfl, rfl, rfl⟩
          · rintro ⟨hb, hs, hafter⟩
            cases hs
            rw [← hb, hafter]
      | block text => simp [commentsFrom]
      | literal text => simp [commentsFrom]
      | plain d => simp [commentsFrom]

/-- There is code among the segments. -/
def hasCode (segs : List Segment) : Bool := segs.any Segment.isCode

/-- A quote is no blank and starts no comment. -/
theorem quote_not_blank {quote : Char} (h : isQuote quote = true) : isBlank quote = false := by
  unfold isQuote at h
  rcases Bool.or_eq_true_iff.mp h with h | h
  · rw [eq_of_beq h]
    rfl
  · rw [eq_of_beq h]
    rfl

theorem startsComment_quote {quote : Char} (h : isQuote quote = true) (cs : Text) :
    startsComment quote cs = false := by
  rcases startsComment_cases quote cs with ⟨_, rfl, _⟩ | ⟨_, rfl, _⟩ | hother
  · exact absurd h (by decide)
  · exact absurd h (by decide)
  · exact hother

/-- **The scan finds the line comments of the segmentation.** -/
theorem lineComments_segmented {source : Text} {segs : List Segment} (h : Segmented source segs)
    (before : List Segment) :
    lineComments (hasCode before) source =
      (commentsFrom before segs).map fun c => (c.body ++ textOf c.after, hasCode c.before) := by
  induction h generalizing before with
  | nil => rw [lineComments]; rfl
  | @line body rest segs hbody hrest hsegs ih =>
      have hcode : hasCode (before ++ [.line body]) = hasCode before := by
        simp [hasCode, Segment.isCode]
      rw [lineComments_line, endOfLine_append hbody hrest, ← hcode, ih, hcode, commentsFrom,
        List.map_cons, hsegs.textOf]
  -- nothing is noted of the other segments
  | @block body rest segs hbody hsegs ih =>
      rw [lineComments_block, endOfBlock_append rest hbody, commentsFrom, ← ih]
      · simp [hasCode, Segment.isCode]
      · rintro _ ⟨⟩
  | @blockOpen body hbody =>
      rw [lineComments_block, endOfBlock_open hbody, lineComments]
      rfl
  | @literal quote body rest segs hquote hbody hsegs ih =>
      rw [lineComments_other _ (startsComment_quote hquote _), if_pos hquote, skipStringLiteral_append rest hquote hbody,
        commentsFrom, ← ih]
      · simp [hasCode, Segment.isCode]
      · rintro _ ⟨⟩
  | @literalOpen quote body hquote hbody =>
      have hskip := skipStringLiteral_open hquote hbody (Or.inl rfl)
      rw [List.append_nil] at hskip
      rw [lineComments_other _ (startsComment_quote hquote _), if_pos hquote, hskip, lineComments]
      rfl
  | @literalEscape quote body hquote hbody =>
      rw [lineComments_other _ (startsComment_quote hquote _), if_pos hquote,
        skipStringLiteral_open hquote hbody (Or.inr rfl), lineComments]
      rfl
  | @plain c rest segs hc hother hsegs ih =>
      rw [lineComments_other _ hother, if_neg (by simp [hc]), commentsFrom, ← ih]
      · simp [hasCode, Segment.isCode]
      · rintro _ ⟨⟩

end ShaderClippy.Suppress
