/-
  ShaderClippy.Suppress.EndToEnd

  **WHAT IS SUPPRESSED, AND WHAT IS REPORTED AS MALFORMED.**

  Both are said in terms of the line comments of a segmentation
  (`scan_spec`). Text after the closing parenthesis of a marker is ignored. A
  `*` marker before any code covers the whole file, any other marker its
  resolved scope. Left open is what a `*` marker before any code covers when a
  block comment stands in front of it on its line: the code takes it for one
  behind code (`markerRange`).
-/
import Mathlib
import ShaderClippy.Suppress.Segments

namespace ShaderClippy.Suppress

open SourceFile (u32)

/-! ## §1. The statement. -/

/-- Only blanks precede the comment on its line. -/
def firstOnLine (before : List Segment) : Bool :=
  (Lines.lastLine '\n' (textOf before)).all isSpaceOrTab

/-- What a marker for these names covers: as long as anything but blanks precedes it
on its line, a block comment too, `resolve_scope` takes it for a trailing one. -/
def markerRange (source : Text) (c : Comment) (names : List Text) : Nat × Nat :=
  if kWildcardRule ∈ names ∧ hasCode c.before = false ∧ firstOnLine c.before = true then
    (0, u32 source.length)
  else
    let rs := resolveScope source (c.body ++ textOf c.after) (hasCode c.before) names
    (rs.byteLo, rs.byteHi)

/-- What a marker covers, if `*` before any code always covers the whole file. -/
def statedRange (source : Text) (c : Comment) (names : List Text) : Nat × Nat :=
  if kWildcardRule ∈ names ∧ hasCode c.before = false then (0, u32 source.length)
  else
    let rs := resolveScope source (c.body ++ textOf c.after) (hasCode c.before) names
    (rs.byteLo, rs.byteHi)

/-- `*` before any code, behind a block comment on its line. -/
def LeftOpen (c : Comment) (names : List Text) : Prop :=
  kWildcardRule ∈ names ∧ hasCode c.before = false ∧ firstOnLine c.before = false

/-- These are the only markers that do not cover what is stated. -/
theorem markerRange_eq {source : Text} {c : Comment} {names : List Text} (h : ¬ LeftOpen c names) :
    markerRange source c names = statedRange source c names := by
  unfold markerRange statedRange
  by_cases htop : kWildcardRule ∈ names ∧ hasCode c.before = false
  · have hfirst : firstOnLine c.before = true := by
      by_contra hno
      exact h ⟨htop.1, htop.2, (Bool.not_eq_true _).mp hno⟩
    rw [if_pos htop, if_pos ⟨htop.1, htop.2, hfirst⟩]
  · rw [if_neg htop, if_neg fun hall => htop ⟨hall.1, hall.2.1⟩]

/-- A diagnostic begins in the range, or is empty and touches its end. -/
def Touches (range : Nat × Nat) (byteLo byteHi : Nat) : Prop :=
  range.1 < range.2
    ∧ (range.1 ≤ byteLo ∧ byteLo < range.2 ∨ byteLo = byteHi ∧ range.1 ≤ byteLo ∧ byteLo ≤ range.2)

/-- The marker names the rule, or all rules. -/
def NamesRule (names : List Text) (r : Text) : Prop := r ∈ names ∨ kWildcardRule ∈ names

open Classical in
/-- The diagnostic of a comment that begins with the trigger and is no marker. -/
noncomputable def malformedDiagnostic (c : Comment) : Option ScanDiagnostic :=
  if Triggered c.body ∧ ¬ ∃ names tail, MarkerText c.body names tail then
    some ⟨kMalformed, u32 (textOf c.before).length,
      u32 ((textOf c.before).length + 2 + c.body.length)⟩
  else none

/-! ## §2. Look-up. -/

/-- A rule is covered by its own entries. -/
theorem covers_intervals (entries : List Suppression) (ruleId : Text) (byteLo byteHi : Nat) :
    covers byteLo byteHi (intervals entries ruleId) = true ↔
      ∃ e ∈ entries, e.ruleId = ruleId ∧ Touches (e.byteLo, e.byteHi) byteLo byteHi := by
  rw [covers, List.any_eq_true]
  constructor
  · rintro ⟨iv, hiv, hcover⟩
    rw [intervals, List.mem_mergeSort, List.mem_map] at hiv
    have ⟨e, he, heq⟩ := hiv
    have ⟨hmem, hkeep⟩ := List.mem_filter.mp he
    have ⟨hne, hrule⟩ := of_decide_eq_true hkeep
    subst heq
    refine ⟨e, hmem, hrule, hne, ?_⟩
    split at hcover
    case isTrue hin => exact Or.inl hin
    case isFalse => exact Or.inr (of_decide_eq_true hcover)
  · rintro ⟨e, hmem, hrule, hne, htouch⟩
    refine ⟨(e.byteLo, e.byteHi), ?_, ?_⟩
    · rw [intervals, List.mem_mergeSort, List.mem_map]
      exact ⟨e, List.mem_filter.mpr ⟨hmem, decide_eq_true ⟨hne, hrule⟩⟩, rfl⟩
    · split
      · rfl
      · rename_i hout
        exact decide_eq_true (htouch.resolve_left hout)

/-- **A diagnostic is suppressed by an entry** of its rule or of the wildcard. -/
theorem suppresses_iff_entry (source r : Text) (byteLo byteHi : Nat) :
    (scan source).suppresses r byteLo byteHi = true ↔
      ∃ e ∈ (scan source).entries, (e.ruleId = r ∨ e.ruleId = kWildcardRule)
        ∧ Touches (e.byteLo, e.byteHi) byteLo byteHi := by
  have hwildcard := covers_intervals (scan source).entries kWildcardRule byteLo byteHi
  have hrule := covers_intervals (scan source).entries r byteLo byteHi
  have hset : (scan source).suppresses r byteLo byteHi =
      if covers byteLo byteHi (intervals (scan source).entries kWildcardRule) then true
      else covers byteLo byteHi
        (if r = kWildcardRule then [] else intervals (scan source).entries r) := rfl
  rw [hset]
  constructor
  · intro h
    split at h
    case isTrue hw =>
      have ⟨e, he, hid, ht⟩ := hwildcard.mp hw
      exact ⟨e, he, Or.inr hid, ht⟩
    case isFalse =>
      split at h
      case isTrue => cases h
      case isFalse =>
        have ⟨e, he, hid, ht⟩ := hrule.mp h
        exact ⟨e, he, Or.inl hid, ht⟩
  · rintro ⟨e, he, hid | hid, ht⟩
    -- the rule itself may be the wildcard
    · by_cases hr : r = kWildcardRule
      · rw [if_pos (hwildcard.mpr ⟨e, he, hid.trans hr, ht⟩)]
      · rw [if_neg hr, hrule.mpr ⟨e, he, hid, ht⟩]
        split <;> rfl
    · rw [if_pos (hwildcard.mpr ⟨e, he, hid, ht⟩)]

/-! ## §3. One comment. -/

/-- A line comment has no line break, and a line ends behind it. -/
theorem comment_ends {source : Text} {segs before : List Segment} (h : Segmented source segs)
    {c : Comment} (hc : c ∈ commentsFrom before segs) : '\n' ∉ c.body ∧ EndsLine (textOf c.after) := by
  induction h generalizing before with
  | nil => cases hc
  | line hbody hrest hsegs ih =>
      rcases List.mem_cons.mp hc with rfl | hc
      · exact ⟨hbody, by rw [hsegs.textOf]; exact hrest⟩
      · exact ih hc
  | block _ _ ih => exact ih hc
  | blockOpen => cases hc
  | literal _ _ _ ih => exact ih hc
  | literalOpen => cases hc
  | literalEscape => cases hc
  | plain _ _ _ ih => exact ih hc

section Comment

variable {source : Text} {segs : List Segment} (h : Segmented source segs) {c : Comment}
  (hc : c ∈ commentsFrom [] segs)

include h hc

theorem source_eq : source = textOf c.before ++ ('/' :: '/' :: (c.body ++ textOf c.after)) := by
  have ⟨between, hbefore, hsegs⟩ := mem_commentsFrom.mp hc
  rw [← h.textOf, hsegs, hbefore]
  simp [textOf, Segment.text]

theorem offset_body : offset source (c.body ++ textOf c.after) = (textOf c.before).length + 2 := by
  have hlen := congrArg List.length (source_eq h hc)
  simp only [List.length_append, List.length_cons] at hlen
  rw [offset, hlen, List.length_append]
  omega

theorem lineBefore_comment :
    lineBefore source (c.body ++ textOf c.after) = Lines.lastLine '\n' (textOf c.before) := by
  rw [lineBefore, offset_body h hc, Nat.add_sub_cancel]
  congr 1
  have hsource := source_eq h hc
  generalize c.body ++ textOf c.after = rest at hsource
  rw [hsource, List.take_left]

/-- A marker is parsed within its comment. -/
theorem parseMarker_comment :
    parseMarker (c.body ++ textOf c.after) (endOfLine (c.body ++ textOf c.after)).length
      = parseMarker c.body 0 := by
  have ⟨hbody, hrest⟩ := comment_ends h hc
  rw [endOfLine_append hbody hrest, parseMarker_append hrest]

/-- A scope is the whole file exactly for `*` before any code, first on its
line. -/
theorem wildcardAtTop_iff (names : List Text) :
    (resolveScope source (c.body ++ textOf c.after) (hasCode c.before) names).wildcardAtTop = true ↔
      kWildcardRule ∈ names ∧ hasCode c.before = false ∧ firstOnLine c.before = true := by
  have hwild : containsWildcard names = true ↔ kWildcardRule ∈ names := by
    simp [containsWildcard]
  have hsame : sameLineCode source (c.body ++ textOf c.after) = !firstOnLine c.before := by
    rw [sameLineCode, lineBefore_comment h hc, firstOnLine, List.not_all_eq_any_not]
  rw [resolveScope, hsame]
  cases hfirst : firstOnLine c.before with
  | false => simp
  | true =>
      simp only [Bool.not_true, Bool.false_eq_true, if_false]
      have htop : (!hasCode c.before && containsWildcard names) = true ↔
          kWildcardRule ∈ names ∧ hasCode c.before = false ∧ True := by
        rw [Bool.and_eq_true, hwild, Bool.not_eq_true']
        tauto
      split <;> exact htop

/-- The entries of a marker. -/
theorem buildEntries_iff (names : List Text) (r : Text) (byteLo byteHi : Nat) :
    (∃ e ∈ buildEntries
          (resolveScope source (c.body ++ textOf c.after) (hasCode c.before) names) source names,
        (e.ruleId = r ∨ e.ruleId = kWildcardRule) ∧ Touches (e.byteLo, e.byteHi) byteLo byteHi) ↔
      NamesRule names r ∧ Touches (markerRange source c names) byteLo byteHi := by
  have htop := wildcardAtTop_iff h hc names
  rw [markerRange, buildEntries]
  by_cases hall : kWildcardRule ∈ names ∧ hasCode c.before = false ∧ firstOnLine c.before = true
  · rw [if_pos (htop.mpr hall), if_pos hall]
    constructor
    · rintro ⟨e, he, _, ht⟩
      cases List.mem_singleton.mp he
      exact ⟨Or.inr hall.1, ht⟩
    · rintro ⟨_, ht⟩
      exact ⟨_, List.mem_singleton_self _, Or.inr rfl, ht⟩
  · rw [if_neg (fun hw => hall (htop.mp hw)), if_neg hall]
    constructor
    · rintro ⟨e, he, hid, ht⟩
      have ⟨n, hn, heq⟩ := List.mem_map.mp he
      subst heq
      refine ⟨?_, ht⟩
      rcases hid with hid | hid
      · exact Or.inl (hid ▸ hn)
      · exact Or.inr (hid ▸ hn)
    · rintro ⟨hn | hn, ht⟩
      · exact ⟨_, List.mem_map.mpr ⟨r, hn, rfl⟩, Or.inl rfl, ht⟩
      · exact ⟨_, List.mem_map.mpr ⟨kWildcardRule, hn, rfl⟩, Or.inr rfl, ht⟩

/-- **What a comment suppresses**, from its text and its place. -/
theorem commentEntries_iff (r : Text) (byteLo byteHi : Nat) :
    (∃ e ∈ commentEntries source (c.body ++ textOf c.after) (hasCode c.before),
        (e.ruleId = r ∨ e.ruleId = kWildcardRule) ∧ Touches (e.byteLo, e.byteHi) byteLo byteHi) ↔
      ∃ names tail, MarkerText c.body names tail ∧ NamesRule names r
        ∧ Touches (markerRange source c names) byteLo byteHi := by
  have hparsed := parsed_iff c.body
  simp only [commentEntries, parseMarker_comment h hc]
  split
  case isTrue hok =>
    obtain ⟨names, tail, hmarker⟩ := hparsed.mp hok
    rw [parseMarker_of_markerText hmarker, buildEntries_iff h hc]
    constructor
    · rintro ⟨hn, ht⟩
      exact ⟨names, tail, hmarker, hn, ht⟩
    · rintro ⟨names', tail', hmarker', hn, ht⟩
      have heq := parseMarker_of_markerText hmarker
      rw [parseMarker_of_markerText hmarker'] at heq
      cases heq
      exact ⟨hn, ht⟩
  case isFalse hok =>
    constructor
    · rintro ⟨e, he, _⟩
      cases he
    · rintro ⟨names, tail, hmarker, _⟩
      exact absurd (hparsed.mpr ⟨names, tail, hmarker⟩) hok

/-- What a comment reports, from its text. -/
theorem commentDiagnostic_eq :
    commentDiagnostic source (c.body ++ textOf c.after) = malformedDiagnostic c := by
  have ⟨hbody, hrest⟩ := comment_ends h hc
  have htrigger : startsWith (skipInlineWs (c.body ++ textOf c.after)) kMarker = true
      ↔ Triggered c.body := by
    rw [skipInlineWs_append hrest, startsWith_append hrest (by decide), triggered_iff]
  have hlo : offset source (c.body ++ textOf c.after) - 2 = (textOf c.before).length := by
    rw [offset_body h hc, Nat.add_sub_cancel]
  have hhi : offset source (endOfLine (c.body ++ textOf c.after))
      = (textOf c.before).length + 2 + c.body.length := by
    have hoff := offset_body h hc
    have hlen := congrArg List.length (source_eq h hc)
    simp only [List.length_append, List.length_cons] at hlen
    rw [endOfLine_append hbody hrest, offset]
    omega
  simp only [commentDiagnostic, parseMarker_comment h hc, malformedDiagnostic, buildMalformed, hlo,
    hhi]
  -- a marker reports nothing; what only begins like one does
  by_cases hmarker : ∃ names tail, MarkerText c.body names tail
  · rw [if_pos ((parsed_iff c.body).mpr hmarker), if_neg fun hno => hno.2 hmarker]
  · rw [if_neg fun hok => hmarker ((parsed_iff c.body).mp hok)]
    by_cases htrig : Triggered c.body
    · rw [htrigger.mpr htrig]
      exact (if_pos ⟨htrig, hmarker⟩).symm
    · have hno : startsWith (skipInlineWs (c.body ++ textOf c.after)) kMarker = false := by
        cases hs : startsWith (skipInlineWs (c.body ++ textOf c.after)) kMarker with
        | false => rfl
        | true => exact absurd (htrigger.mp hs) htrig
      rw [hno]
      exact (if_neg fun hyes => htrig hyes.1).symm

end Comment

/-! ## §4. The source. -/

/-- The scanner meets the comments of the segmentation, in their order. -/
theorem scan_lineComments {source : Text} {segs : List Segment} (h : Segmented source segs) :
    lineComments false source =
      (commentsFrom [] segs).map fun c => (c.body ++ textOf c.after, hasCode c.before) :=
  lineComments_segmented h []

/-- **What is suppressed**, by the line comments of the segmentation. -/
theorem suppresses_segmented {source : Text} {segs : List Segment} (h : Segmented source segs)
    (r : Text) (byteLo byteHi : Nat) :
    (scan source).suppresses r byteLo byteHi = true ↔
      ∃ c ∈ commentsFrom [] segs, ∃ names tail, MarkerText c.body names tail ∧ NamesRule names r
        ∧ Touches (markerRange source c names) byteLo byteHi := by
  have hentries : (scan source).entries = (commentsFrom [] segs).flatMap fun c =>
      commentEntries source (c.body ++ textOf c.after) (hasCode c.before) := by
    have hspec := (scanFrom_spec source ⟨[], [], false⟩ source).1
    rw [scan_lineComments h, List.flatMap_map, List.nil_append] at hspec
    exact hspec
  rw [suppresses_iff_entry, hentries]
  constructor
  · rintro ⟨e, he, hid⟩
    have ⟨c, hc, hec⟩ := List.mem_flatMap.mp he
    exact ⟨c, hc, (commentEntries_iff h hc r byteLo byteHi).mp ⟨e, hec, hid⟩⟩
  · rintro ⟨c, hc, hmarker⟩
    have ⟨e, he, hid⟩ := (commentEntries_iff h hc r byteLo byteHi).mpr hmarker
    exact ⟨e, List.mem_flatMap.mpr ⟨c, hc, he⟩, hid⟩

/-- **What is reported**: the comments that begin with the trigger and are no
markers. -/
theorem scanDiagnostics_segmented {source : Text} {segs : List Segment}
    (h : Segmented source segs) :
    (scan source).scanDiagnostics = (commentsFrom [] segs).filterMap malformedDiagnostic := by
  have hspec := (scanFrom_spec source ⟨[], [], false⟩ source).2
  rw [scan_lineComments h, List.filterMap_map, List.nil_append] at hspec
  rw [← List.filterMap_congr fun c hc => commentDiagnostic_eq h hc]
  exact hspec

/-- ` shader-clippy: allow(a) b`, a marker with a remark after it. -/
def remarkedBody : Text := [' '] ++ (kMarker ++ ([' '] ++ (kAllow ++ '(' :: (['a'] ++ ')' :: [' ', 'b']))))

/-- The marker behind the code `x`. -/
def remarked : Text := 'x' :: ' ' :: '/' :: '/' :: (remarkedBody ++ [])

theorem segmented_remarked : Segmented remarked [.plain 'x', .plain ' ', .line remarkedBody] := by
  have hline : Segmented ('/' :: '/' :: (remarkedBody ++ [])) [.line remarkedBody] :=
    .line (by decide) (Or.inl rfl) .nil
  exact .plain rfl rfl (.plain rfl rfl hline)

theorem markerText_remarked : MarkerText remarkedBody [['a']] [' ', 'b'] := by
  have hblank : Blanks [' '] := by simp [Blanks, isSpaceOrTab]
  have hnone : Blanks [] := by simp [Blanks]
  have hname : Name ['a'] := ⟨by simp, by simp [isIdentChar]⟩
  refine ⟨by simp, [' '], [' '], [], ['a'], hblank, hblank, hnone, ?_, rfl⟩
  exact NameList.last hnone hname hnone

theorem touches_remarked :
    Touches (markerRange remarked ⟨[.plain 'x', .plain ' '], remarkedBody, []⟩ [['a']]) 0 1 := by
  have hsame : sameLineCode remarked (remarkedBody ++ textOf []) = true := by decide
  have hrange : markerRange remarked ⟨[.plain 'x', .plain ' '], remarkedBody, []⟩ [['a']]
      = (0, remarked.length) := by
    rw [markerRange, if_neg (by decide), resolveScope, if_pos hsame]
    decide
  rw [hrange]
  exact ⟨by decide, Or.inl ⟨Nat.le_refl _, by decide⟩⟩

theorem closed_remarked : ¬ LeftOpen ⟨[.plain 'x', .plain ' '], remarkedBody, []⟩ [['a']] :=
  fun h => absurd h.1 (by decide)

end ShaderClippy.Suppress
