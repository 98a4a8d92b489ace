/-
  ShaderClippy.Suppress.QuoteLines

  **A QUOTE WITHOUT ITS PARTNER.**

  "Suppression must work even when the grammar produces ERROR nodes": on text
  that does not parse, a quote without a partner on its line (the apostrophe
  of an `#error` line) should spoil that line only (`Confined`). The scan
  reads on to the next quote of its kind, on whatever line it stands
  (`Segmented`). So a marker behind such a quote still counts exactly where
  no segment of the scan's own reading covers it (`quoteLaw_iff`).
-/
import ShaderClippy.Suppress.EndToEnd

namespace ShaderClippy.Suppress

/-! ## §1. Quotes that stay on their line. -/

/-- What may follow a quote that is not closed: no quote of its kind, but for
escaped ones, and perhaps a last backslash. -/
def OpenQuote (quote : Char) (body : Text) : Prop :=
  Quoted quote body ∨ ∃ b, body = b ++ ['\\'] ∧ Quoted quote b

/-- A segmentation whose literals end with their line: a closed one stands on
one line, and an unmatched quote takes the rest of its line. -/
inductive Confined : Text → List Segment → Prop
  | nil : Confined [] []
  | line {body rest : Text} {segs : List Segment} : '\n' ∉ body → EndsLine rest →
      Confined rest segs → Confined ('/' :: '/' :: (body ++ rest)) (.line body :: segs)
  | block {body rest : Text} {segs : List Segment} : ¬ kClose <:+: body ++ ['*'] →
      Confined rest segs →
      Confined ('/' :: '*' :: (body ++ '*' :: '/' :: rest))
        (.block ('/' :: '*' :: (body ++ kClose)) :: segs)
  | blockOpen {body : Text} : ¬ kClose <:+: body →
      Confined ('/' :: '*' :: body) [.block ('/' :: '*' :: body)]
  | literal {quote : Char} {body rest : Text} {segs : List Segment} : isQuote quote = true →
      Quoted quote body → '\n' ∉ body → Confined rest segs →
      Confined (quote :: (body ++ quote :: rest)) (.literal (quote :: (body ++ [quote])) :: segs)
  | unmatched {quote : Char} {body rest : Text} {segs : List Segment} : isQuote quote = true →
      OpenQuote quote body → '\n' ∉ body → EndsLine rest → Confined rest segs →
      Confined (quote :: (body ++ rest)) (.literal (quote :: body) :: segs)
  | plain {c : Char} {rest : Text} {segs : List Segment} : isQuote c = false →
      startsComment c rest = false → Confined rest segs → Confined (c :: rest) (.plain c :: segs)

/-- A quote that nothing closes on its line. -/
def Unmatched (seg : Segment) : Prop :=
  ∃ quote body, seg = .literal (quote :: body) ∧ isQuote quote = true ∧ OpenQuote quote body

theorem Confined.textOf {source : Text} {segs : List Segment} (h : Confined source segs) :
    textOf segs = source := by
  induction h with
  | nil => rfl
  | line _ _ _ ih => rw [textOf_cons, ih]; rfl
  | block _ _ ih =>
      rw [textOf_cons, ih]
      simp [Segment.text, kClose]
  | literal _ _ _ _ ih =>
      rw [textOf_cons, ih]
      simp [Segment.text]
  | unmatched _ _ _ _ _ ih => rw [textOf_cons, ih]; rfl
  | plain _ _ _ ih => rw [textOf_cons, ih]; rfl
  | blockOpen => exact List.append_nil _

theorem not_mem_takeWhile_newline (s : Text) : '\n' ∉ s.takeWhile fun c => c != '\n' := by
  intro hmem
  have hne := List.mem_takeWhile_imp hmem
  exact absurd hne (by decide)

/-- The rest of the line behind a quote closes it or does not. -/
theorem exists_confined_quote {quote : Char} (hquote : isQuote quote = true) (cs : Text)
    (ih : ∀ rest : Text, rest.length ≤ cs.length → ∃ segs, Confined rest segs) :
    ∃ segs, Confined (quote :: cs) segs := by
  have hcut : (cs.takeWhile fun c => c != '\n') ++ endOfLine cs = cs :=
    List.takeWhile_append_dropWhile
  have hbreak := not_mem_takeWhile_newline cs
  have hlen := congrArg List.length hcut
  rw [List.length_append] at hlen
  rw [← hcut]
  generalize (cs.takeWhile fun c => c != '\n') = line at hcut hbreak hlen ⊢
  have hopen : OpenQuote quote line → ∃ segs, Confined (quote :: (line ++ endOfLine cs)) segs := by
    intro hline
    obtain ⟨segs, hsegs⟩ := ih (endOfLine cs) (by omega)
    exact ⟨_, .unmatched hquote hline hbreak (endsLine_endOfLine cs) hsegs⟩
  rcases quoted_cases quote line with ⟨body, rest, hline, hbody⟩ | hline | hline
  · subst hline
    rw [List.length_append, List.length_cons] at hlen
    obtain ⟨segs, hsegs⟩ := ih (rest ++ endOfLine cs) (by rw [List.length_append]; omega)
    have hbody' : '\n' ∉ body := fun hmem => hbreak (List.mem_append_left _ hmem)
    have hliteral := Confined.literal hquote hbody hbody' hsegs
    rw [List.append_assoc, List.cons_append]
    exact ⟨_, hliteral⟩
  · exact hopen (Or.inl hline)
  · exact hopen (Or.inr hline)

/-- **Every source has a segmentation whose literals end with their line.** -/
theorem exists_confined_le (n : Nat) :
    ∀ source : Text, source.length ≤ n → ∃ segs, Confined source segs := by
  induction n with
  | zero =>
      intro source hn
      rw [List.length_eq_zero_iff.mp (Nat.le_zero.mp hn)]
      exact ⟨[], .nil⟩
  | succ n ih =>
      intro source hn
      cases source with
      | nil => exact ⟨[], .nil⟩
      | cons c cs =>
          rw [List.length_cons] at hn
          rcases startsComment_cases c cs with ⟨body, rfl, rfl⟩ | ⟨body, rfl, rfl⟩ | hother
          · have hlen := length_endOfLine_le body
            rw [List.length_cons] at hn
            obtain ⟨segs, hsegs⟩ := ih (endOfLine body) (by omega)
            have hline := Confined.line (not_mem_takeWhile_newline body) (endsLine_endOfLine body)
              hsegs
            rw [endOfLine, List.takeWhile_append_dropWhile] at hline
            exact ⟨_, hline⟩
          · rcases closed_or_open body with ⟨b, rest, rfl, hb⟩ | hopen
            · simp only [List.length_append, List.length_cons] at hn
              obtain ⟨segs, hsegs⟩ := ih rest (by omega)
              exact ⟨_, .block hb hsegs⟩
            · exact ⟨_, .blockOpen hopen⟩
          · cases hq : isQuote c with
            | false =>
                obtain ⟨segs, hsegs⟩ := ih cs (by omega)
                exact ⟨_, .plain hq hother hsegs⟩
            -- a literal, which here ends with its line
            | true => exact exists_confined_quote hq cs fun rest hrest => ih rest (by omega)

/-- Every source can be read this way. -/
theorem exists_confined (source : Text) : ∃ segs, Confined source segs :=
  exists_confined_le source.length source (Nat.le_refl _)

theorem confined_comment_ends {source : Text} {segs before : List Segment}
    (h : Confined source segs) {c : Comment} (hc : c ∈ commentsFrom before segs) :
    '\n' ∉ c.body ∧ EndsLine (textOf c.after) := by
  induction h generalizing before with
  | nil => cases hc
  | line hbody hrest hsegs ih =>
      rcases List.mem_cons.mp hc with rfl | hc
      · exact ⟨hbody, by rw [hsegs.textOf]; exact hrest⟩
      · exact ih hc
  | block _ _ ih => exact ih hc
  | blockOpen => cases hc
  | literal _ _ _ _ ih => exact ih hc
  | unmatched _ _ _ _ _ ih => exact ih hc
  | plain _ _ _ ih => exact ih hc

/-! ## §2. The law. -/

/-- The scan takes up the comment with this text behind its slashes, with code
before it, and its entries are those of a marker for these names: they stand
between the entries of the comments before and of the comments behind. -/
def Produces (source marker : Text) (names : List Text) : Prop :=
  ∃ calls later, lineComments false source = calls ++ (marker, true) :: later
    ∧ (scan source).entries
      = (calls.flatMap fun p => commentEntries source p.1 p.2)
        ++ (buildEntries (resolveScope source marker true names) source names
          ++ later.flatMap fun p => commentEntries source p.1 p.2)

/-- A marker in a line comment behind an unmatched quote of an earlier line. -/
structure MarkerBehindQuote (segs : List Segment) (c : Comment) (names : List Text) : Prop where
  comment : c ∈ commentsFrom [] segs
  behind : ∃ seg ∈ c.before, Unmatched seg
  marker : ∃ tail, MarkerText c.body names tail

/-- The law: a marker behind an unmatched quote produces its entries. -/
def QuoteLaw (source : Text) : Prop :=
  ∀ segs c names, Confined source segs → MarkerBehindQuote segs c names →
    Produces source (c.body ++ textOf c.after) names

/-- A segment begins before an offset and ends behind it. -/
def Swallowed (segs : List Segment) (offset : Nat) : Prop :=
  ∃ before seg after, segs = before ++ seg :: after ∧ (textOf before).length < offset
    ∧ offset < (textOf before).length + seg.text.length

/-! ## §3. Offsets between segments. -/

/-- An offset that no segment covers lies between two. -/
theorem exists_boundary {segs : List Segment} :
    ∀ {p : Nat}, p ≤ (textOf segs).length → ¬ Swallowed segs p →
      ∃ before after, segs = before ++ after ∧ (textOf before).length = p := by
  induction segs with
  | nil =>
      intro p hp _
      exact ⟨[], [], rfl, (Nat.le_zero.mp hp).symm⟩
  | cons seg segs ih =>
      intro p hp hfree
      rw [textOf_cons, List.length_append] at hp
      by_cases hzero : p = 0
      · exact ⟨[], seg :: segs, rfl, hzero.symm⟩
      · have hle : seg.text.length ≤ p := by
          refine Nat.not_lt.mp fun hlt => hfree ⟨[], seg, segs, rfl, ?_, ?_⟩
          · show 0 < p
            omega
          · show p < 0 + seg.text.length
            omega
        -- behind the first segment the position is not swallowed either
        have hrest : ¬ Swallowed segs (p - seg.text.length) := by
          intro ⟨before, x, after, hsegs, hlo, hhi⟩
          refine hfree ⟨seg :: before, x, after, by rw [hsegs]; rfl, ?_, ?_⟩
          · rw [textOf_cons, List.length_append]
            omega
          · rw [textOf_cons, List.length_append]
            omega
        obtain ⟨before, after, hsegs, hlen⟩ := ih (by omega) hrest
        refine ⟨seg :: before, after, by rw [hsegs]; rfl, ?_⟩
        rw [textOf_cons, List.length_append]
        omega

/-- Between two segments nothing is swallowed. -/
theorem not_swallowed {before after : List Segment} :
    ¬ Swallowed (before ++ after) (textOf before).length := by
  intro ⟨b, seg, a, hsplit, hlo, hhi⟩
  rcases List.append_eq_append_iff.mp hsplit with ⟨x, hb, _⟩ | ⟨x, hbefore, htail⟩
  · rw [hb, textOf_append, List.length_append] at hlo
    omega
  · cases x with
    | nil =>
        rw [hbefore, List.append_nil] at hlo
        omega
    | cons y x =>
        cases htail
        rw [hbefore, textOf_append, textOf_cons, List.length_append, List.length_append] at hhi
        omega

/-- Two slashes between two segments begin a line comment. -/
theorem segmented_slashes {marker : Text} {segs : List Segment}
    (h : Segmented ('/' :: '/' :: marker) segs) :
    ∃ body after, segs = .line body :: after ∧ marker = body ++ textOf after := by
  generalize hs : '/' :: '/' :: marker = s at h
  cases h with
  | nil => exact absurd hs nofun
  | line _ _ hsegs =>
      cases hs
      exact ⟨_, _, rfl, by rw [hsegs.textOf]⟩
  | block => exact absurd (List.cons.inj (List.cons.inj hs).2).1 (by decide)
  | blockOpen => exact absurd (List.cons.inj (List.cons.inj hs).2).1 (by decide)
  | literal hquote =>
      rw [← (List.cons.inj hs).1] at hquote
      exact absurd hquote (by decide)
  | literalOpen hquote =>
      rw [← (List.cons.inj hs).1] at hquote
      exact absurd hquote (by decide)
  | literalEscape hquote =>
      rw [← (List.cons.inj hs).1] at hquote
      exact absurd hquote (by decide)
  | plain _ hcomment =>
      obtain ⟨hc, hrest⟩ := List.cons.inj hs
      rw [← hc, ← hrest] at hcomment
      exact absurd hcomment nofun

/-- **The scan takes up a line comment exactly where no segment covers its
slashes.** -/
theorem mem_lineComments_iff {pre marker : Text} {segs : List Segment}
    (h : Segmented (pre ++ '/' :: '/' :: marker) segs) :
    (∃ seen, (marker, seen) ∈ lineComments false (pre ++ '/' :: '/' :: marker))
      ↔ ¬ Swallowed segs pre.length := by
  have hall := lineComments_segmented h []
  rw [show hasCode [] = false from rfl] at hall
  rw [hall]
  constructor
  · intro ⟨seen, hmem⟩
    obtain ⟨c, hc, heq⟩ := List.mem_map.mp hmem
    obtain ⟨between, hbefore, hsplit⟩ := mem_commentsFrom.mp hc
    have hmarker : c.body ++ textOf c.after = marker := congrArg Prod.fst heq
    have hlen := congrArg List.length h.textOf
    rw [hsplit, textOf_append, textOf_cons] at hlen
    simp only [Segment.text, List.cons_append, hmarker, List.length_append,
      List.length_cons] at hlen
    have hpre : (textOf between).length = pre.length := by omega
    rw [hsplit, ← hpre]
    exact not_swallowed
  · intro hfree
    have hle : pre.length ≤ (textOf segs).length := by
      rw [h.textOf, List.length_append]
      omega
    obtain ⟨before, after, hsplit, hlen⟩ := exists_boundary hle hfree
    have htext : textOf before ++ textOf after = pre ++ '/' :: '/' :: marker := by
      rw [← textOf_append, ← hsplit]
      exact h.textOf
    have hafter := Segmented.drop (hsplit ▸ h)
    rw [(List.append_inj htext hlen).2] at hafter
    obtain ⟨body, later, hline, hmarker⟩ := segmented_slashes hafter
    subst hmarker
    refine ⟨hasCode before, List.mem_map.mpr ⟨⟨before, body, later⟩, ?_, rfl⟩⟩
    exact mem_commentsFrom.mpr ⟨before, rfl, by rw [hsplit, hline]⟩

/-! ## §4. Code before the marker. -/

/-- Behind code, every comment has code before it. -/
theorem lineComments_true {s marker : Text} {seen : Bool} (h : (marker, seen) ∈ lineComments true s) :
    seen = true := by
  obtain ⟨segs, hsegs⟩ := exists_segmented s
  have hall := lineComments_segmented hsegs [.plain 'x']
  rw [show hasCode [.plain 'x'] = true from rfl] at hall
  rw [hall] at h
  obtain ⟨c, hc, heq⟩ := List.mem_map.mp h
  obtain ⟨between, hbefore, _⟩ := mem_commentsFrom.mp hc
  have hseen : hasCode c.before = seen := congrArg Prod.snd heq
  rw [← hseen, hbefore]
  rfl

/-- An unmatched quote before a comment stands behind any other segment. -/
theorem unmatched_tail {seg : Segment} {segs before after : List Segment} {body : Text}
    (hsplit : seg :: segs = before ++ .line body :: after) (hopen : ∃ s ∈ before, Unmatched s)
    (hseg : ¬ Unmatched seg) :
    ∃ before', segs = before' ++ .line body :: after ∧ ∃ s ∈ before', Unmatched s := by
  obtain ⟨s, hs, hun⟩ := hopen
  cases before with
  | nil => exact absurd hs List.not_mem_nil
  | cons x before =>
      obtain ⟨hx, htail⟩ := List.cons.inj hsplit
      rcases List.mem_cons.mp hs with hhead | hs
      · rw [hhead, ← hx] at hun
        exact absurd hun hseg
      · exact ⟨before, htail, s, hs, hun⟩

/-- A comment that the scan takes up behind an unmatched quote has code before
it: the quote is code in both readings. -/
theorem seen_of_unmatched {source : Text} {segs : List Segment} (h : Confined source segs) :
    ∀ {before after : List Segment} {body : Text} {seen seen' : Bool},
      segs = before ++ .line body :: after → (∃ seg ∈ before, Unmatched seg) →
      (body ++ textOf after, seen') ∈ lineComments seen source → seen' = true := by
  induction h with
  | nil =>
      intro before after body _ _ hsplit _ _
      exact absurd hsplit.symm (by simp)
  | @line body₀ rest segs hbody hrest hsegs ih =>
      intro before after body seen seen' hsplit hopen hmem
      obtain ⟨before', htail, hopen'⟩ := unmatched_tail hsplit hopen (by rintro ⟨_, _, ⟨⟩, _⟩)
      rw [lineComments_line, endOfLine_append hbody hrest] at hmem
      rcases List.mem_cons.mp hmem with heq | hmem
      · -- the comment is a later one: there is less text behind it
        have hlen := congrArg List.length (congrArg Prod.fst heq)
        have hrestLen := congrArg List.length hsegs.textOf
        rw [htail, textOf_append, textOf_cons] at hrestLen
        simp only [Segment.text, List.cons_append, List.length_append,
          List.length_cons] at hlen hrestLen
        omega
      · exact ih htail hopen' hmem
  | @block body₀ rest segs hbody hsegs ih =>
      intro before after body seen seen' hsplit hopen hmem
      obtain ⟨before', htail, hopen'⟩ := unmatched_tail hsplit hopen (by rintro ⟨_, _, ⟨⟩, _⟩)
      rw [lineComments_block, endOfBlock_append rest hbody] at hmem
      exact ih htail hopen' hmem
  | blockOpen hbody =>
      intro before after body seen seen' hsplit hopen hmem
      rw [lineComments_block, endOfBlock_open hbody, lineComments] at hmem
      exact absurd hmem List.not_mem_nil
  | literal hquote _ _ _ _ =>
      intro before after body seen seen' _ _ hmem
      rw [lineComments_other _ (startsComment_quote hquote _), if_pos hquote] at hmem
      exact lineComments_true hmem
  | unmatched hquote _ _ _ _ _ =>
      intro before after body seen seen' _ _ hmem
      rw [lineComments_other _ (startsComment_quote hquote _), if_pos hquote] at hmem
      exact lineComments_true hmem
  | plain hquote hcomment _ ih =>
      intro before after body seen seen' hsplit hopen hmem
      obtain ⟨before', htail, hopen'⟩ := unmatched_tail hsplit hopen (by rintro ⟨_, _, ⟨⟩, _⟩)
      rw [lineComments_other _ hcomment, if_neg (by simp [hquote])] at hmem
      exact ih htail hopen' hmem

/-! ## §5. When the law holds. -/

/-- A marker's entries. -/
theorem commentEntries_of_marker {body rest : Text} {names : List Text} (source : Text)
    (hbody : '\n' ∉ body) (hrest : EndsLine rest) (hmarker : ∃ tail, MarkerText body names tail)
    (seen : Bool) :
    commentEntries source (body ++ rest) seen
      = buildEntries (resolveScope source (body ++ rest) seen names) source names := by
  obtain ⟨tail, hmarker⟩ := hmarker
  have hparse : parseMarker (body ++ rest) (endOfLine (body ++ rest)).length = ⟨names, true⟩ := by
    rw [endOfLine_append hbody hrest, parseMarker_append hrest, parseMarker_of_markerText hmarker]
  have hnames : names.isEmpty = false := List.isEmpty_eq_false_iff.mpr hmarker.1
  unfold commentEntries
  simp only [hparse, hnames, Bool.not_false, Bool.and_true, if_true]

/-- The scan's entries, split at one of the comments. -/
theorem entries_split {source marker : Text} {seen : Bool}
    (h : (marker, seen) ∈ lineComments false source) :
    ∃ calls later, lineComments false source = calls ++ (marker, seen) :: later
      ∧ (scan source).entries
        = (calls.flatMap fun p => commentEntries source p.1 p.2)
          ++ (commentEntries source marker seen
            ++ later.flatMap fun p => commentEntries source p.1 p.2) := by
  obtain ⟨calls, later, hsplit⟩ := List.append_of_mem h
  have hentries : (scan source).entries = (lineComments false source).flatMap
      fun p => commentEntries source p.1 p.2 := by
    have hspec := (scanFrom_spec source ⟨[], [], false⟩ source).1
    rw [List.nil_append] at hspec
    exact hspec
  refine ⟨calls, later, hsplit, ?_⟩
  rw [hentries, hsplit, List.flatMap_append, List.flatMap_cons]

/-- **A marker behind an unmatched quote produces its entries IF AND ONLY IF no
segment of the scan's own reading covers its slashes.** -/
theorem quoteLaw_iff {source : Text} {running : List Segment} (h : Segmented source running) :
    QuoteLaw source ↔
      ∀ segs c names, Confined source segs → MarkerBehindQuote segs c names →
        ¬ Swallowed running (textOf c.before).length := by
  unfold QuoteLaw
  refine forall_congr' fun segs => forall_congr' fun c => forall_congr' fun names =>
    forall_congr' fun hsegs => forall_congr' fun hmarker => ?_
  obtain ⟨between, hbefore, hsplit⟩ := mem_commentsFrom.mp hmarker.comment
  have hbetween : c.before = between := hbefore
  have hsource : source = textOf c.before ++ '/' :: '/' :: (c.body ++ textOf c.after) := by
    rw [← hsegs.textOf, hsplit, textOf_append, textOf_cons, hbetween]
    rfl
  have hreached : (∃ seen, (c.body ++ textOf c.after, seen) ∈ lineComments false source)
      ↔ ¬ Swallowed running (textOf c.before).length := by
    rw [hsource] at h ⊢
    exact mem_lineComments_iff h
  -- the law asks whether the comment is reached at all
  rw [← hreached]
  constructor
  · intro ⟨calls, later, hcalls, _⟩
    exact ⟨true, by rw [hcalls]; exact List.mem_append_right _ (List.mem_cons_self ..)⟩
  · intro ⟨seen, hmem⟩
    have hsplit' : segs = c.before ++ .line c.body :: c.after := by
      rw [hbetween]
      exact hsplit
    have hseen : seen = true := seen_of_unmatched hsegs hsplit' hmarker.behind hmem
    subst hseen
    obtain ⟨hbody, hrest⟩ := confined_comment_ends hsegs hmarker.comment
    obtain ⟨calls, later, hcalls, hentries⟩ := entries_split hmem
    rw [commentEntries_of_marker source hbody hrest hmarker.marker true] at hentries
    exact ⟨calls, later, hcalls, hentries⟩

/-! ## §6. An apostrophe in an `#error` line. -/

theorem Confined.plains {s rest : Text} {segs : List Segment} (hs : plainText s = true)
    (h : Confined rest segs) : Confined (s ++ rest) (s.map .plain ++ segs) := by
  induction s with
  | nil => exact h
  | cons c cs ih =>
      obtain ⟨hquote, hcomment, hcs⟩ := plain_of_plainText hs (cs ++ rest)
      exact .plain hquote hcomment (ih hcs)

theorem quoted_of_plainText {quote : Char} (hquote : isQuote quote = true) {s : Text}
    (hs : plainText s = true) (hesc : s.all (fun c => c != '\\') = true) : Quoted quote s := by
  induction s with
  | nil => exact .nil
  | cons c cs ih =>
      obtain ⟨hc, _, hcs⟩ := plain_of_plainText hs []
      rw [List.all_cons, Bool.and_eq_true] at hesc
      refine .char ?_ (by simpa using hesc.1) (ih hcs hesc.2)
      intro heq
      rw [heq, hquote] at hc
      exact absurd hc nofun

def errorCan : Text := "#error can".toList

/-- `#error can't`, and a marker on the line behind. -/
def errorLine : Text := errorCan ++ '\'' :: (['t'] ++ '\n' :: '/' :: '/' :: (remarkedBody ++ []))

def errorLineConfined : List Segment :=
  errorCan.map .plain ++ [.literal ['\'', 't'], .plain '\n', .line remarkedBody]

theorem confined_errorLine : Confined errorLine errorLineConfined := by
  have hline : Confined ('/' :: '/' :: (remarkedBody ++ [])) [.line remarkedBody] :=
    .line (by decide) (Or.inl rfl) .nil
  have hquote : OpenQuote '\'' ['t'] := Or.inl (.char (by decide) (by decide) .nil)
  exact .plains (by decide) (.unmatched rfl hquote (by decide) (Or.inr ⟨_, rfl⟩)
    (.plain rfl rfl hline))

/-- To the scan the apostrophe opens a literal that never ends. -/
def errorLineRunning : List Segment :=
  errorCan.map .plain
    ++ [.literal ('\'' :: (['t'] ++ '\n' :: '/' :: '/' :: (remarkedBody ++ [])))]

theorem segmented_errorLine : Segmented errorLine errorLineRunning := by
  have hquoted : Quoted '\'' (['t'] ++ '\n' :: '/' :: '/' :: (remarkedBody ++ [])) := by
    have hbody : Quoted '\'' remarkedBody := quoted_of_plainText rfl (by decide) (by decide)
    rw [List.append_nil]
    exact .char (by decide) (by decide) (.char (by decide) (by decide)
      (.char (by decide) (by decide) (.char (by decide) (by decide) hbody)))
  exact .plains (by decide) (.literalOpen rfl hquoted)

theorem marker_errorLine :
    MarkerBehindQuote errorLineConfined
      ⟨errorCan.map .plain ++ [.literal ['\'', 't'], .plain '\n'], remarkedBody, []⟩ [['a']] := by
  have hsplit := List.append_assoc (errorCan.map Segment.plain)
    [.literal ['\'', 't'], .plain '\n'] [.line remarkedBody]
  refine ⟨mem_commentsFrom.mpr ⟨_, rfl, hsplit.symm⟩, ?_, _, markerText_remarked⟩
  refine ⟨.literal ['\'', 't'], List.mem_append_right _ (List.mem_cons_self ..), '\'', ['t'], rfl,
    rfl, Or.inl (.char (by decide) (by decide) .nil)⟩

theorem quoteLaw_iff_errorLine :
    QuoteLaw errorLine ↔
      ∀ segs c names, Confined errorLine segs → MarkerBehindQuote segs c names →
        ¬ Swallowed errorLineRunning (textOf c.before).length :=
  quoteLaw_iff segmented_errorLine

/-- **The apostrophe of an `#error` line swallows the marker behind it**: the
scan of this source has no entries. -/
theorem errorLine_swallows : (scan errorLine).entries = [] ∧ ¬ QuoteLaw errorLine := by
  have hnone : lineComments false errorLine = [] := by
    have hall := lineComments_segmented segmented_errorLine []
    rw [show hasCode [] = false from rfl] at hall
    rw [hall]
    decide
  have hentries := (scanFrom_spec errorLine ⟨[], [], false⟩ errorLine).1
  rw [show (⟨[], [], false⟩ : ScanState).seenRealCode = false from rfl, hnone] at hentries
  refine ⟨hentries, fun hlaw => ?_⟩
  obtain ⟨calls, later, hcalls, _⟩ := hlaw _ _ _ confined_errorLine marker_errorLine
  rw [hnone] at hcalls
  exact absurd hcalls.symm (by simp)

end ShaderClippy.Suppress
