/-
  ShaderClippy.Suppress.BraceScope

  **THE SCOPE OF A MARKER BEFORE A BRACE** (`end_of_block_brace`).

  Only the plain bytes of a segmentation are braces; those in comments and
  literals are not. The loop counts (`braceLoop_segmented`), so it stops one
  past the brace that the grammar of balanced words pairs with the first one,
  and runs to the end of the file where there is none
  (`endOfBlockBrace_spec`). A brace that a marker chooses is itself a plain
  byte (`chosen_plain`).

  The depth is a number here; the program's `int` would need 2³¹ open braces
  to leave its range.
-/
import ShaderClippy.Lib.Brackets
import ShaderClippy.Suppress.Crlf

namespace ShaderClippy.Suppress

open Brackets

/-- What a segment does to the depth. -/
def braceKind : Segment → Kind
  | .plain c => if c = '{' then .opening else if c = '}' then .closing else .other
  | _ => .other

theorem braceKind_other {c : Char} (hopen : c ≠ '{') (hclose : c ≠ '}') :
    braceKind (.plain c) = .other := by
  show (if c = '{' then Kind.opening else if c = '}' then .closing else .other) = _
  rw [if_neg hopen, if_neg hclose]

/-- Only a closing brace outside comments and literals closes. -/
theorem eq_of_braceKind_closing {seg : Segment} (h : braceKind seg = .closing) :
    seg = .plain '}' := by
  cases seg with
  | plain c =>
      by_cases hopen : c = '{'
      · subst hopen
        exact absurd h (by decide)
      · by_cases hclose : c = '}'
        · rw [hclose]
        · rw [braceKind_other hopen hclose] at h
          exact absurd h nofun
  | _ => exact absurd h nofun

/-- The brace that ends the scope: the segments behind the open brace are cut
at the closing brace that balances it. -/
def ClosedBy (segs inner after : List Segment) : Prop :=
  Matching braceKind segs inner (.plain '}') after

/-- The count of the braces finds the brace that closes the block. -/
theorem afterClose_braceKind {segs after : List Segment} :
    afterClose braceKind 1 segs = some after ↔ ∃ inner, ClosedBy segs inner after := by
  rw [afterClose_iff]
  constructor
  · intro ⟨inner, close, hmatch⟩
    have hclose := eq_of_braceKind_closing hmatch.closing
    subst hclose
    exact ⟨inner, hmatch⟩
  · intro ⟨inner, hmatch⟩
    exact ⟨inner, .plain '}', hmatch⟩

/-- What is behind the scope, for a result of the count. -/
def behind : Option (List Segment) → Text
  | some after => textOf after
  | none => []

/-- **The loop counts the plain braces.** -/
theorem braceLoop_segmented {source : Text} {segs : List Segment} (h : Segmented source segs) :
    ∀ depth, braceLoop depth source = behind (afterClose braceKind depth segs) := by
  induction h with
  | nil =>
      intro depth
      rw [braceLoop]
      rfl
  | line hbody hrest _ ih =>
      intro depth
      rw [braceLoop_line, endOfLine_append hbody hrest, ih depth, afterClose_other rfl]
  | @block body rest _ hbody _ ih =>
      intro depth
      rw [braceLoop_block, endOfBlock_append rest hbody, ih depth, afterClose_other rfl]
  | blockOpen hbody =>
      intro depth
      rw [braceLoop_block, endOfBlock_open hbody, braceLoop, afterClose_other rfl]
      rfl
  | @literal quote body rest _ hquote hbody _ ih =>
      intro depth
      rw [braceLoop_literal depth _ (startsComment_quote hquote _) hquote,
        skipStringLiteral_append rest hquote hbody, ih depth, afterClose_other rfl]
  | literalOpen hquote hbody =>
      intro depth
      have hskip := skipStringLiteral_open hquote hbody (Or.inl rfl)
      rw [List.append_nil] at hskip
      rw [braceLoop_literal depth _ (startsComment_quote hquote _) hquote, hskip, braceLoop,
        afterClose_other rfl]
      rfl
  | literalEscape hquote hbody =>
      intro depth
      rw [braceLoop_literal depth _ (startsComment_quote hquote _) hquote,
        skipStringLiteral_open hquote hbody (Or.inr rfl), braceLoop, afterClose_other rfl]
      rfl
  -- only here braces count
  | @plain c rest segs hquote hcomment hsegs ih =>
      intro depth
      rw [braceLoop_plain depth _ hcomment hquote]
      by_cases hopen : c = '{'
      · subst hopen
        rw [if_pos rfl, afterClose_opening rfl]
        exact ih (depth + 1)
      · rw [if_neg hopen]
        by_cases hclose : c = '}'
        · subst hclose
          rw [if_pos rfl, afterClose_closing rfl]
          by_cases hlast : depth = 1
          · rw [if_pos hlast, if_pos hlast]
            exact hsegs.textOf.symm
          · rw [if_neg hlast, if_neg hlast]
            exact ih (depth - 1)
        · rw [if_neg hclose, afterClose_other (braceKind_other hopen hclose)]
          exact ih depth

/-- What is behind the scope of a brace. -/
theorem endOfBlockBrace_segmented {rest : Text} {segs : List Segment} (h : Segmented rest segs) :
    endOfBlockBrace ('{' :: rest) = behind (afterClose braceKind 1 segs) :=
  braceLoop_segmented h 1

/-- The text of a block that is closed. -/
theorem textOf_closedBy {segs inner after : List Segment} (h : ClosedBy segs inner after) :
    textOf segs = textOf inner ++ '}' :: textOf after := by
  rw [h.cut]
  simp [textOf, Segment.text]

theorem quote_not_brace {quote : Char} (hquote : isQuote quote = true) {s rest : Text} :
    skipWsAndComments (quote :: s) ≠ '{' :: rest := by
  rw [skipWsAndComments_other (quote_not_blank hquote) (startsComment_quote hquote s)]
  intro h
  rw [(List.cons.inj h).1] at hquote
  exact absurd hquote (by decide)

/-- A brace that a marker chooses is a plain byte of the segmentation, behind
blanks and comments. -/
theorem chosen_plain {source rest : Text} {segs : List Segment} (h : Segmented source segs)
    (hnext : skipWsAndComments source = '{' :: rest) :
    ∃ gap inside, segs = gap ++ .plain '{' :: inside ∧ hasCode gap = false
      ∧ Segmented rest inside := by
  induction h with
  | nil =>
      rw [skipWsAndComments] at hnext
      cases hnext
  | @line body _ _ hbody hrest _ ih =>
      rw [skipWsAndComments_line, endOfLine_append hbody hrest] at hnext
      obtain ⟨gap, inside, hsegs, hgap, hinside⟩ := ih hnext
      exact ⟨.line body :: gap, inside, by rw [hsegs]; rfl, hgap, hinside⟩
  | @block body rest' _ hbody _ ih =>
      rw [skipWsAndComments_block, endOfBlock_append rest' hbody] at hnext
      obtain ⟨gap, inside, hsegs, hgap, hinside⟩ := ih hnext
      exact ⟨.block _ :: gap, inside, by rw [hsegs]; rfl, hgap, hinside⟩
  | blockOpen hbody =>
      rw [skipWsAndComments_block, endOfBlock_open hbody, skipWsAndComments] at hnext
      cases hnext
  | literal hquote _ _ _ => exact absurd hnext (quote_not_brace hquote)
  | literalOpen hquote _ => exact absurd hnext (quote_not_brace hquote)
  | literalEscape hquote _ => exact absurd hnext (quote_not_brace hquote)
  | @plain c _ segs _ hcomment hsegs ih =>
      by_cases hblank : isBlank c = true
      · rw [skipWsAndComments_blank hblank] at hnext
        obtain ⟨gap, inside, hsegs, hgap, hinside⟩ := ih hnext
        refine ⟨.plain c :: gap, inside, by rw [hsegs]; rfl, ?_, hinside⟩
        show (!isBlank c || hasCode gap) = false
        rw [hblank, hgap]
        rfl
      · rw [Bool.not_eq_true] at hblank
        rw [skipWsAndComments_other hblank hcomment] at hnext
        cases hnext
        exact ⟨[], segs, rfl, rfl, hsegs⟩

/-- **Where the scope of a brace ends**: one past the brace that balances it,
and at the end of the file exactly when no text follows such a brace. -/
theorem endOfBlockBrace_spec (pre : Text) {rest : Text} {segs : List Segment}
    (h : Segmented rest segs) :
    (∀ inner after, ClosedBy segs inner after →
        offset (pre ++ '{' :: rest) (endOfBlockBrace ('{' :: rest))
          = (pre ++ '{' :: textOf inner).length + 1)
      ∧ (offset (pre ++ '{' :: rest) (endOfBlockBrace ('{' :: rest)) = (pre ++ '{' :: rest).length
        ↔ ∀ inner after, ClosedBy segs inner after → textOf after = []) := by
  have hrest := h.textOf
  rw [endOfBlockBrace_segmented h]
  unfold offset
  cases hcount : afterClose braceKind 1 segs with
  -- no brace closes the block: the scope runs to the end
  | none =>
      have hnone : ∀ inner after, ¬ ClosedBy segs inner after := by
        intro inner after hclosed
        rw [afterClose_braceKind.mpr ⟨inner, hclosed⟩] at hcount
        exact absurd hcount nofun
      constructor
      · intro inner after hclosed
        exact absurd hclosed (hnone inner after)
      · refine iff_of_true ?_ fun inner after hclosed => absurd hclosed (hnone inner after)
        exact Nat.sub_zero _
  | some after =>
      obtain ⟨inner, hclosed⟩ := afterClose_braceKind.mp hcount
      have honly : ∀ inner' after', ClosedBy segs inner' after' → after' = after := by
        intro inner' after' hclosed'
        rw [afterClose_braceKind.mpr ⟨inner', hclosed'⟩] at hcount
        exact Option.some.inj hcount
      show (∀ _ _, _ → _ - (textOf after).length = _) ∧ (_ - (textOf after).length = _ ↔ _)
      constructor
      · intro inner' after' hclosed'
        cases honly inner' after' hclosed'
        rw [← hrest, textOf_closedBy hclosed']
        simp only [List.length_append, List.length_cons]
        omega
      · have hlen : (pre ++ '{' :: rest).length - (textOf after).length = (pre ++ '{' :: rest).length
            ↔ (textOf after).length = 0 := by
          rw [← hrest, textOf_closedBy hclosed]
          simp only [List.length_append, List.length_cons]
          omega
        rw [hlen, List.length_eq_zero_iff]
        constructor
        · intro hnil inner' after' hclosed'
          rw [honly inner' after' hclosed']
          exact hnil
        · intro hall
          exact hall inner after hclosed

/-- The brace in a literal is ignored. -/
theorem endOfBlockBrace_spec_literal :
    offset ['{', '"', '}', '"', '}', 'x'] (endOfBlockBrace ['{', '"', '}', '"', '}', 'x']) = 5 := by
  have hliteral : Segmented ['"', '}', '"', '}', 'x']
      [.literal ['"', '}', '"'], .plain '}', .plain 'x'] :=
    .literal rfl (.char (by decide) (by decide) .nil) (.plain rfl rfl (.plain rfl rfl .nil))
  exact (endOfBlockBrace_spec [] hliteral).1 [.literal ['"', '}', '"']] [.plain 'x']
    ⟨rfl, .other rfl .nil, rfl⟩

/-- A marker before a block that ends the file. -/
def braceAtEnd : Text := "// shader-clippy: allow(a)\n{}".toList

/-- **The end of the file is also where a scope ends whose brace is the last
byte.** -/
theorem braceAtEnd_closed :
    skipWsAndComments (endOfLine (braceAtEnd.drop 2)) = ['{', '}']
      ∧ Segmented ['}'] [.plain '}'] ∧ ClosedBy [.plain '}'] [] []
      ∧ offset braceAtEnd (endOfBlockBrace ['{', '}']) = braceAtEnd.length := by
  have hsegs : Segmented ['}'] [.plain '}'] := .plain rfl rfl .nil
  have hend : endOfLine (braceAtEnd.drop 2) = ['\n', '{', '}'] := by decide
  refine ⟨?_, hsegs, ⟨rfl, .nil, rfl⟩, ?_⟩
  · rw [hend, skipWsAndComments_blank rfl, skipWsAndComments_other rfl rfl]
  · rw [endOfBlockBrace_segmented hsegs]
    decide

end ShaderClippy.Suppress
