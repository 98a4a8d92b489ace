/-
  ShaderClippy.Lsp.RangeQueries

  **CODE ACTIONS AND HOVERS BY LINE AND CHARACTER, OR BY BYTE.**

  The server compares positions: lines first, then characters, as signed
  32-bit numbers. In contents that these can count, going from bytes to
  positions is strictly monotone (`strictMonoOn_toPosition`), and so ranges
  overlap as positions exactly if they do as bytes.

  A code action request then returns the fixes of the diagnostics whose bytes
  overlap the requested ones, and a hover the first of the shortest
  diagnostics that cover the cursor (`range_queries_agree`).
-/
import Mathlib
import ShaderClippy.Lib.FirstSmallest
import ShaderClippy.Lib.Overlap
import ShaderClippy.Lsp.Server

namespace ShaderClippy.Lsp

open Lines SourceFile

/-! ## §1. Positions in order. -/

/-- A position among all positions: line before character. -/
def LspPosition.key (p : LspPosition) : Int ×ₗ Int := toLex (p.line, p.character)

theorem LspPosition.lt_iff {p q : LspPosition} : p.lt q = true ↔ p.key < q.key := by
  unfold LspPosition.lt LspPosition.key
  rw [Prod.Lex.toLex_lt_toLex, Bool.or_eq_true, Bool.and_eq_true, decide_eq_true_iff,
    decide_eq_true_iff, decide_eq_true_iff]

theorem LspPosition.le_iff {p q : LspPosition} : p.le q = true ↔ p.key ≤ q.key := by
  unfold LspPosition.le LspPosition.key
  rw [Prod.Lex.toLex_le_toLex, Bool.or_eq_true, Bool.and_eq_true, decide_eq_true_iff,
    decide_eq_true_iff, decide_eq_true_iff]

/-- **`ranges_overlap` is overlap in that order.** -/
theorem rangesOverlap_iff {aLo aHi bLo bHi : LspPosition} :
    rangesOverlap aLo aHi bLo bHi = true ↔ Overlaps aLo.key aHi.key bLo.key bHi.key := by
  have hsame : (decide (aLo.line = bLo.line) && decide (aLo.character = bLo.character)) = true
      ↔ aLo.key = bLo.key := by
    unfold LspPosition.key
    rw [Bool.and_eq_true, decide_eq_true_iff, decide_eq_true_iff, toLex_inj, Prod.mk.injEq]
  unfold rangesOverlap Overlaps
  by_cases ha : aLo.lt aHi = true
  · rw [if_pos (LspPosition.lt_iff.mp ha), ha]
    by_cases hb : bLo.lt bHi = true
    · rw [if_pos (LspPosition.lt_iff.mp hb), hb]
      show (aLo.lt bHi && bLo.lt aHi) = true ↔ _
      rw [Bool.and_eq_true, LspPosition.lt_iff, LspPosition.lt_iff]
    · rw [if_neg fun h => hb (LspPosition.lt_iff.mpr h), Bool.eq_false_iff.mpr hb]
      show (aLo.le bLo && bLo.le aHi) = true ↔ _
      rw [Bool.and_eq_true, LspPosition.le_iff, LspPosition.le_iff]
  · rw [if_neg fun h => ha (LspPosition.lt_iff.mpr h), Bool.eq_false_iff.mpr ha]
    by_cases hb : bLo.lt bHi = true
    · rw [if_pos (LspPosition.lt_iff.mp hb), hb]
      show (bLo.le aLo && aLo.le bHi) = true ↔ _
      rw [Bool.and_eq_true, LspPosition.le_iff, LspPosition.le_iff]
    · rw [if_neg fun h => hb (LspPosition.lt_iff.mpr h), Bool.eq_false_iff.mpr hb]
      exact hsame

/-! ## §2. From bytes to positions. -/

/-- The file that a view on an open document holds. -/
def viewId : SourceId := ⟨1⟩

theorem i32_of_lt {n : Nat} (h : n < 2 ^ 31) : i32 n = n := by
  unfold i32
  rw [Nat.mod_eq_of_lt (by omega), if_pos h]

section

variable {contents : Text} (hlen : contents.length < 2 ^ 31)

include hlen

theorem toPosition_eq {o : Nat} (ho : o ≤ contents.length) :
    toPosition contents viewId o
      = ⟨(lineCol contents o).line - 1, (lineCol contents o).column - 1⟩ := by
  have hspec := lineCol_spec (show contents.length + 1 < 2 ^ 32 by omega) ho
  -- line and column are at most one more than the offset
  have hcount : (contents.take o).count '\n' ≤ o := by
    have hle := List.count_le_length (a := '\n') (l := contents.take o)
    rw [List.length_take, Nat.min_eq_left ho] at hle
    exact hle
  have hlast : (lastLine '\n' (contents.take o)).length ≤ o := by
    have hsum := length_wholeLines '\n' (contents.take o)
    rw [List.length_take, Nat.min_eq_left ho] at hsum
    omega
  have hresolve : resolve contents viewId o = lineCol contents o := if_pos rfl
  have hline : (lineCol contents o).line = 1 + (contents.take o).count '\n' := by rw [hspec]
  have hcolumn : (lineCol contents o).column = 1 + (lastLine '\n' (contents.take o)).length := by
    rw [hspec]
  unfold toPosition
  rw [hresolve]
  generalize lineCol contents o = loc at hline hcolumn
  show LspPosition.mk (if loc.line > 0 then i32 (loc.line - 1) else 0)
    (if loc.column > 0 then i32 (loc.column - 1) else 0) = _
  -- so that neither wraps around as a signed number
  rw [if_pos (by omega), if_pos (by omega), i32_of_lt (by omega), i32_of_lt (by omega),
    LspPosition.mk.injEq]
  omega

/-- **Later bytes stand at later positions.** -/
theorem strictMonoOn_toPosition :
    StrictMonoOn (fun o => (toPosition contents viewId o).key) {o | o ≤ contents.length} := by
  intro o ho p hp hlt
  have hlen32 : contents.length + 1 < 2 ^ 32 := by omega
  have hle := lineCol_mono hlen32 hp (Nat.le_of_lt hlt)
  have hne : lineCol contents o ≠ lineCol contents p := fun h =>
    absurd (lineCol_injective hlen32 ho hp h) (Nat.ne_of_lt hlt)
  show (toPosition contents viewId o).key < (toPosition contents viewId p).key
  rw [toPosition_eq hlen ho, toPosition_eq hlen hp]
  unfold LspPosition.key
  rw [Prod.Lex.toLex_lt_toLex]
  -- a later line, or the same one and a later column
  obtain hline | ⟨hline, hcolumn⟩ := hle
  · left
    show ((lineCol contents o).line : Int) - 1 < (lineCol contents p).line - 1
    omega
  · right
    have hcolumnNe : (lineCol contents o).column ≠ (lineCol contents p).column := by
      intro heq
      refine hne ?_
      cases hcol : lineCol contents o
      cases hcol' : lineCol contents p
      rw [hcol, hcol'] at hline heq
      rw [LineCol.mk.injEq]
      exact ⟨hline, heq⟩
    show ((lineCol contents o).line : Int) - 1 = (lineCol contents p).line - 1
      ∧ ((lineCol contents o).column : Int) - 1 < (lineCol contents p).column - 1
    omega

end

/-! ## §3. Queries. -/

/-- A range of bytes within the contents. -/
structure Within (contents : Text) (r : ByteSpan) : Prop where
  ordered : r.lo ≤ r.hi
  inside : r.hi ≤ contents.length

/-- A diagnostic of the file that is viewed. -/
structure OfView (contents : Text) (diag : Diagnostic) : Prop where
  source : diag.primarySpan.source = viewId
  within : Within contents diag.primarySpan.bytes

/-- The byte ranges overlap. -/
def BytesOverlap (a b : ByteSpan) : Prop := Overlaps a.lo a.hi b.lo b.hi

instance (a b : ByteSpan) : Decidable (BytesOverlap a b) :=
  inferInstanceAs (Decidable (Overlaps a.lo a.hi b.lo b.hi))

/-- The closed range of the diagnostic contains the byte. -/
def Covers (cursor : Nat) (diag : Diagnostic) : Prop :=
  diag.primarySpan.bytes.lo ≤ cursor ∧ cursor ≤ diag.primarySpan.bytes.hi

instance (cursor : Nat) : DecidablePred (Covers cursor) := fun _ => inferInstanceAs (Decidable (_ ∧ _))

section

variable {contents : Text} (hlen : contents.length < 2 ^ 31)

include hlen

/-- **Ranges overlap as their bytes do.** -/
theorem rangesOverlap_toPosition {a b : ByteSpan} (ha : Within contents a) (hb : Within contents b) :
    rangesOverlap (toPosition contents viewId a.lo) (toPosition contents viewId a.hi)
        (toPosition contents viewId b.lo) (toPosition contents viewId b.hi) = true
      ↔ BytesOverlap a b := by
  rw [rangesOverlap_iff]
  exact Overlaps.map_iff (strictMonoOn_toPosition hlen) (ha.ordered.trans ha.inside) ha.inside
    (hb.ordered.trans hb.inside) hb.inside

/-- A code action request returns the fixes of the overlapping diagnostics. -/
theorem codeActionsForRange_bytes (uri : Text) {diagnostics : List Diagnostic} {request : ByteSpan}
    (hrequest : Within contents request) (hdiags : ∀ d ∈ diagnostics, OfView contents d) :
    codeActionsForRange contents uri diagnostics (toRange contents ⟨viewId, request⟩)
      = (diagnostics.filter fun d => decide (BytesOverlap d.primarySpan.bytes request)).flatMap
          fun d => d.fixes.map (buildCodeAction contents uri d) := by
  unfold codeActionsForRange
  induction diagnostics with
  | nil => rfl
  | cons d ds ih =>
      have hd := hdiags d List.mem_cons_self
      have hoverlap : rangesOverlap (toRange contents d.primarySpan).start
          (toRange contents d.primarySpan).stop (toRange contents ⟨viewId, request⟩).start
          (toRange contents ⟨viewId, request⟩).stop = true
            ↔ BytesOverlap d.primarySpan.bytes request := by
        unfold toRange
        rw [hd.source]
        exact rangesOverlap_toPosition hlen hd.within hrequest
      -- a diagnostic without fixes gives nothing on either side
      have hone : (if d.fixes.isEmpty then []
          else if rangesOverlap (toRange contents d.primarySpan).start
              (toRange contents d.primarySpan).stop (toRange contents ⟨viewId, request⟩).start
              (toRange contents ⟨viewId, request⟩).stop then
            d.fixes.map (buildCodeAction contents uri d) else [])
          = if BytesOverlap d.primarySpan.bytes request then
              d.fixes.map (buildCodeAction contents uri d) else [] := by
        by_cases hempty : d.fixes = []
        · rw [hempty]
          exact (ite_self []).symm
        · rw [if_neg fun h => hempty (List.isEmpty_iff.mp h)]
          by_cases hbytes : BytesOverlap d.primarySpan.bytes request
          · rw [if_pos (hoverlap.mpr hbytes), if_pos hbytes]
          · rw [if_neg fun h => hbytes (hoverlap.mp h), if_neg hbytes]
      rw [List.flatMap_cons, ih fun x hx => hdiags x (List.mem_cons_of_mem d hx)]
      show (if d.fixes.isEmpty then [] else _) ++ _ = _
      rw [hone, List.filter_cons]
      by_cases hbytes : BytesOverlap d.primarySpan.bytes request
      · rw [if_pos hbytes, if_pos (decide_eq_true hbytes)]
        rfl
      · rw [if_neg hbytes, if_neg fun h => hbytes (of_decide_eq_true h)]
        rfl

/-- One turn of the search is one of a scan for the smallest. -/
theorem betterDiagnostic_scanStep {cursor bound : Nat} (hcursor : cursor ≤ contents.length)
    {d : Diagnostic} (hd : OfView contents d) (hbound : spanLength d < bound)
    (best : Option Diagnostic) :
    scanStep (Covers cursor) spanLength (best, best.elim bound spanLength) d
      = (betterDiagnostic contents (toPosition contents viewId cursor) best d,
          (betterDiagnostic contents (toPosition contents viewId cursor) best d).elim bound
            spanLength) := by
  -- the cursor is an empty range
  have hpoint : Within contents ⟨cursor, cursor⟩ := ⟨Nat.le_refl _, hcursor⟩
  have hcovers : rangesOverlap (toRange contents d.primarySpan).start
      (toRange contents d.primarySpan).stop (toPosition contents viewId cursor)
      (toPosition contents viewId cursor) = true ↔ Covers cursor d := by
    unfold toRange
    rw [hd.source]
    exact (rangesOverlap_toPosition hlen hd.within hpoint).trans (overlaps_point hd.within.ordered)
  unfold scanStep betterDiagnostic
  by_cases hin : Covers cursor d
  · show _ = ((if rangesOverlap (toRange contents d.primarySpan).start _ _ _ = true then _ else _), _)
    rw [if_pos (hcovers.mpr hin)]
    cases best with
    | none => exact if_pos ⟨hin, hbound⟩
    | some b =>
        show (if Covers cursor d ∧ spanLength d < spanLength b then _ else _)
          = ((if spanLength d < spanLength b then some d else some b),
              (if spanLength d < spanLength b then some d else some b).elim bound spanLength)
        by_cases hless : spanLength d < spanLength b
        · rw [if_pos ⟨hin, hless⟩, if_pos hless]
          rfl
        · rw [if_neg fun h => hless h.2, if_neg hless]
  · rw [if_neg fun h => hin h.1]
    show _ = ((if rangesOverlap (toRange contents d.primarySpan).start _ _ _ = true then _ else best),
      (if rangesOverlap (toRange contents d.primarySpan).start _ _ _ = true then _ else best).elim
        bound spanLength)
    rw [if_neg fun h => hin (hcovers.mp h)]

theorem foldl_betterDiagnostic {cursor bound : Nat} (hcursor : cursor ≤ contents.length)
    {diagnostics : List Diagnostic}
    (hdiags : ∀ d ∈ diagnostics, OfView contents d ∧ spanLength d < bound) :
    ∀ best, diagnostics.foldl (scanStep (Covers cursor) spanLength) (best, best.elim bound spanLength)
      = (diagnostics.foldl (betterDiagnostic contents (toPosition contents viewId cursor)) best,
          (diagnostics.foldl (betterDiagnostic contents (toPosition contents viewId cursor))
            best).elim bound spanLength) := by
  induction diagnostics with
  | nil => exact fun _ => rfl
  | cons d ds ih =>
      intro best
      have hd := hdiags d List.mem_cons_self
      rw [List.foldl_cons, List.foldl_cons, betterDiagnostic_scanStep hlen hcursor hd.1 hd.2]
      exact ih (fun x hx => hdiags x (List.mem_cons_of_mem d hx)) _

/-- A hover finds the first of the shortest diagnostics that cover the cursor. -/
theorem bestDiagnostic_bytes {cursor : Nat} (hcursor : cursor ≤ contents.length)
    {diagnostics : List Diagnostic} (hdiags : ∀ d ∈ diagnostics, OfView contents d)
    (diag : Diagnostic) :
    bestDiagnostic contents (toPosition contents viewId cursor) diagnostics = some diag
      ↔ ∃ i, FirstSmallest (Covers cursor) spanLength diagnostics i diag := by
  -- no span is longer than the contents, so the bound excludes nothing
  have hbound : ∀ d ∈ diagnostics, OfView contents d ∧ spanLength d < contents.length + 1 := by
    intro d hd
    have hview := hdiags d hd
    have hinside := hview.within.inside
    refine ⟨hview, ?_⟩
    unfold spanLength
    omega
  have hscan : (diagnostics.foldl (scanStep (Covers cursor) spanLength)
      (none, contents.length + 1)).1
        = bestDiagnostic contents (toPosition contents viewId cursor) diagnostics :=
    congrArg Prod.fst (foldl_betterDiagnostic hlen hcursor hbound none)
  rw [← hscan]
  constructor
  · intro h
    by_cases hsome : ∃ d ∈ diagnostics, Covers cursor d
    · obtain ⟨i, a, ha⟩ := @FirstSmallest.exists_of_mem _ _ spanLength _ _ hsome
      have hmem : a ∈ diagnostics := List.mem_of_getElem? ha.get
      rw [foldl_scanStep ha (hbound a hmem).2] at h
      exact ⟨i, Option.some.inj h ▸ ha⟩
    · have hnone := @foldl_scanStep_none _ (Covers cursor) spanLength _ diagnostics
        (contents.length + 1) fun b hb hp => absurd ⟨b, hb, hp⟩ hsome
      rw [hnone] at h
      exact absurd h nofun
  · intro ⟨i, hfirst⟩
    exact foldl_scanStep hfirst (hbound diag (List.mem_of_getElem? hfirst.get)).2

end

/-- **Queries by line and character are queries by byte**, in contents that
signed 32-bit numbers can count. -/
theorem range_queries_agree (contents : Text) (hlen : contents.length < 2 ^ 31) :
    (∀ a b, Within contents a → Within contents b →
        (rangesOverlap (toPosition contents viewId a.lo) (toPosition contents viewId a.hi)
            (toPosition contents viewId b.lo) (toPosition contents viewId b.hi) = true
          ↔ BytesOverlap a b))
      ∧ (∀ uri diagnostics request, Within contents request →
          (∀ d ∈ diagnostics, OfView contents d) →
          codeActionsForRange contents uri diagnostics (toRange contents ⟨viewId, request⟩)
            = (diagnostics.filter fun d => decide (BytesOverlap d.primarySpan.bytes request)).flatMap
                fun d => d.fixes.map (buildCodeAction contents uri d))
      ∧ ∀ diagnostics cursor, cursor ≤ contents.length → (∀ d ∈ diagnostics, OfView contents d) →
          ∀ text, hoverForPosition contents diagnostics (toPosition contents viewId cursor) = some text
            ↔ ∃ i diag, FirstSmallest (Covers cursor) spanLength diagnostics i diag
                ∧ text = hoverText diag := by
  refine ⟨fun a b ha hb => rangesOverlap_toPosition hlen ha hb, ?_, ?_⟩
  · intro uri diagnostics request hrequest hdiags
    exact codeActionsForRange_bytes hlen uri hrequest hdiags
  · intro diagnostics cursor hcursor hdiags text
    have hbest := bestDiagnostic_bytes hlen hcursor hdiags
    unfold hoverForPosition
    rw [Option.map_eq_some_iff]
    constructor
    · intro ⟨diag, hdiag, htext⟩
      obtain ⟨i, hfirst⟩ := (hbest diag).mp hdiag
      exact ⟨i, diag, hfirst, htext.symm⟩
    · intro ⟨i, diag, hfirst, htext⟩
      exact ⟨diag, (hbest diag).mpr ⟨i, hfirst⟩, htext.symm⟩

/-- A range over a line break, and an empty one at its end. -/
theorem range_queries_agree_twoLines :
    rangesOverlap (toPosition ['a', '\n', 'b'] viewId 0) (toPosition ['a', '\n', 'b'] viewId 2)
      (toPosition ['a', '\n', 'b'] viewId 2) (toPosition ['a', '\n', 'b'] viewId 2) = true :=
  ((range_queries_agree ['a', '\n', 'b'] (by decide)).1 ⟨0, 2⟩ ⟨2, 2⟩ ⟨by decide, by decide⟩
    ⟨by decide, by decide⟩).mpr (by decide)

/-- In one line of 2³¹ bytes the last position is a negative one. -/
theorem toPosition_oneLine {o : Nat} (ho : o ≤ 2 ^ 31) :
    toPosition (List.replicate (2 ^ 31) 'a') viewId o = ⟨0, i32 o⟩ := by
  have hlen : (List.replicate (2 ^ 31) 'a').length + 1 < 2 ^ 32 := by
    rw [List.length_replicate]
    omega
  have hno : '\n' ∉ List.replicate o 'a' := by
    intro hmem
    exact absurd (List.eq_of_mem_replicate hmem) (by decide)
  -- the whole line stands in front of the offset
  have hlast : lastLine '\n' (List.replicate o 'a') = List.replicate o 'a' := by
    have happend := lastLine_append '\n' (t := []) hno
    exact happend
  have hspec := lineCol_spec hlen (o := o) (by rw [List.length_replicate]; exact ho)
  rw [List.take_replicate, Nat.min_eq_left ho, hlast, List.count_eq_zero_of_not_mem hno,
    List.length_replicate] at hspec
  have hresolve : resolve (List.replicate (2 ^ 31) 'a') viewId o = ⟨1 + 0, 1 + o⟩ := by
    rw [← hspec]
    exact if_pos rfl
  unfold toPosition
  rw [hresolve]
  show LspPosition.mk (if 1 + 0 > 0 then i32 (1 + 0 - 1) else 0)
    (if 1 + o > 0 then i32 (1 + o - 1) else 0) = _
  have hcolumn : 1 + o - 1 = o := by omega
  rw [if_pos (by omega), if_pos (by omega), hcolumn]
  rfl

/-- **The whole file does not overlap its second byte** in a line of 2³¹
bytes: its end is before its start. -/
theorem range_queries_twoGiB :
    ¬ ∀ contents a b, Within contents a → Within contents b →
      (rangesOverlap (toPosition contents viewId a.lo) (toPosition contents viewId a.hi)
          (toPosition contents viewId b.lo) (toPosition contents viewId b.hi) = true
        ↔ BytesOverlap a b) := by
  intro h
  have hsize : (List.replicate (2 ^ 31) 'a').length = 2 ^ 31 := List.length_replicate
  have hiff := h (List.replicate (2 ^ 31) 'a') ⟨0, 2 ^ 31⟩ ⟨1, 2⟩
    ⟨Nat.zero_le _, by rw [hsize]⟩ ⟨by decide, by rw [hsize]; decide⟩
  have hstart := @toPosition_oneLine 0 (by omega)
  have hend := @toPosition_oneLine (2 ^ 31) (by omega)
  have hone := @toPosition_oneLine 1 (by omega)
  have htwo := @toPosition_oneLine 2 (by omega)
  dsimp only at hiff
  rw [hstart, hend, hone, htwo] at hiff
  -- the bytes overlap; the end has the character −2³¹
  have hbytes : BytesOverlap ⟨0, 2 ^ 31⟩ ⟨1, 2⟩ := by decide
  exact absurd (hiff.mpr hbytes) (by decide)

end ShaderClippy.Lsp
