/-
  ShaderClippy.Lsp.HeaderFields

  **WHAT `parse_content_length` ACCEPTS.**

  A header block is lines with CR LF between them (`Lines`, one way for every
  block: `existsUnique_lines`); a line is a field with blanks around its name
  and its value (`Field`). The parser walks over the block and keeps the last
  length; `parseContentLength_eq_some_iff` says of the block as a whole what
  it takes and what it returns.
-/
import Mathlib
import ShaderClippy.Lsp.Framing
import ShaderClippy.Lib.Trim
import ShaderClippy.Rules.DigitLoop

namespace ShaderClippy.Lsp.Framing

open Trim Rules

/-! ## §1. The grammar. -/

/-- The block is these lines with CR LF between them; no line holds one. -/
structure Lines (headers : Text) (lines : List Text) : Prop where
  nonempty : lines ≠ []
  unbroken : ∀ line ∈ lines, ¬ crlf <:+: line
  joined : crlf.intercalate lines = headers

/-- `name:value`, with blanks around both; the name holds no colon. -/
structure Field (line name value : Text) : Prop where
  colon : ∃ before behind, line = before ++ ':' :: behind ∧ ':' ∉ before
    ∧ Padded isBlank before name ∧ Padded isBlank behind value

/-- Two texts are the same up to the case of ASCII letters. -/
def SameUpToCase (a b : Text) : Prop := a.map Char.toLower = b.map Char.toLower

/-- The line is a Content-Length field with this value. -/
def NamesLength (line value : Text) : Prop :=
  ∃ name, Field line name value ∧ SameUpToCase name contentLength

/-- A row of digits that denotes a number below 2³². -/
structure Denotes (value : Text) (n : Nat) : Prop where
  nonempty : value ≠ []
  digits : ∀ c ∈ value, c.isDigit = true
  number : decimal value = n
  small : n < 2 ^ 32

/-- A line that the parser takes: empty, or a field, and with a number in it
if it is a Content-Length field. -/
structure Accepted (line : Text) : Prop where
  colon : line ≠ [] → ':' ∈ line
  number : ∀ value, NamesLength line value → ∃ n, Denotes value n

/-- `n` is the value of the last Content-Length field. -/
def LastLength (lines : List Text) (n : Nat) : Prop :=
  ∃ before line behind value, lines = before ++ line :: behind ∧ NamesLength line value
    ∧ Denotes value n ∧ ∀ l ∈ behind, ∀ v, ¬ NamesLength l v

/-! ## §2. Lines. -/

theorem cutLine_cons {c : Char} {cs : Text} (h : ¬ crlf <+: c :: cs) :
    cutLine (c :: cs) = (c :: (cutLine cs).1, (cutLine cs).2) := by
  rw [cutLine]
  intro rest hc hcs
  exact h ⟨rest, by rw [hc, hcs]; rfl⟩

theorem cutLine_last {line : Text} (h : ¬ crlf <:+: line) : cutLine line = (line, []) := by
  induction line with
  | nil => rfl
  | cons c cs ih =>
      have htail : ¬ crlf <:+: cs := fun hin => h (hin.trans (List.suffix_cons c cs).isInfix)
      rw [cutLine_cons fun hp => h hp.isInfix, ih htail]

theorem cutLine_line {line rest : Text} (h : ¬ crlf <:+: line) :
    cutLine (line ++ crlf ++ rest) = (line, rest) := by
  induction line with
  | nil => rfl
  | cons c cs ih =>
      have htail : ¬ crlf <:+: cs := fun hin => h (hin.trans (List.suffix_cons c cs).isInfix)
      have hnot : ¬ crlf <+: c :: (cs ++ crlf ++ rest) := by
        intro ⟨t, ht⟩
        obtain ⟨hc, hcs⟩ := List.cons.inj ht
        cases cs with
        | nil => exact absurd (List.cons.inj hcs).1 (by decide)
        | cons d ds =>
            -- the line itself would begin with CR LF
            have hd : d = '\n' := (List.cons.inj hcs).1.symm
            exact h ⟨[], ds, by rw [hd, ← hc]; rfl⟩
      rw [List.cons_append, List.cons_append, cutLine_cons hnot, ih htail]

/-- What is cut off is a line, and the text is that line, or that line with a
line end and the rest. -/
theorem cutLine_spec (text : Text) :
    ¬ crlf <:+: (cutLine text).1
      ∧ ((cutLine text = (text, [])) ∨ text = (cutLine text).1 ++ crlf ++ (cutLine text).2) := by
  induction text with
  | nil => exact ⟨by decide, Or.inl rfl⟩
  | cons c cs ih =>
      by_cases hcrlf : crlf <+: c :: cs
      · obtain ⟨rest, hrest⟩ := hcrlf
        have hcut : cutLine (c :: cs) = ([], rest) := by
          rw [← hrest]
          rfl
        have hempty : ¬ crlf <:+: [] := by decide
        rw [hcut]
        exact ⟨hempty, Or.inr hrest.symm⟩
      · rw [cutLine_cons hcrlf]
        refine ⟨?_, ?_⟩
        · rintro ⟨before, behind, hin⟩
          cases before with
          | nil =>
              -- a line end in front would be one of the text
              obtain ⟨hc, hcut⟩ := List.cons.inj hin
              rcases ih.2 with hlast | hline
              · rw [hlast] at hcut
                have hcs : ['\n'] ++ behind = cs := hcut
                exact hcrlf ⟨behind, by rw [← hc, ← hcs]; rfl⟩
              · have hcs : ['\n'] ++ behind ++ crlf ++ (cutLine cs).2 = cs := by
                  exact (congrArg (· ++ crlf ++ (cutLine cs).2) hcut).trans hline.symm
                exact hcrlf ⟨behind ++ crlf ++ (cutLine cs).2, by
                  rw [← hc]
                  exact congrArg ('\r' :: ·) hcs⟩
          | cons b bs => exact ih.1 ⟨bs, behind, (List.cons.inj hin).2⟩
        · rcases ih.2 with hlast | hline
          · exact Or.inl (by rw [hlast])
          · exact Or.inr (congrArg (c :: ·) hline)

theorem intercalate_cons {line : Text} {lines : List Text} (h : lines ≠ []) :
    crlf.intercalate (line :: lines) = line ++ crlf ++ crlf.intercalate lines := by
  cases lines with
  | nil => exact absurd rfl h
  | cons l ls => simp [List.intercalate]

theorem exists_lines (headers : Text) : ∃ lines, Lines headers lines := by
  induction hn : headers.length using Nat.strong_induction_on generalizing headers with
  | _ n ih =>
      obtain ⟨hline, hcut⟩ := cutLine_spec headers
      rcases hcut with hlast | hrest
      · rw [hlast] at hline
        exact ⟨[headers], by simp, by simpa using hline, by simp [List.intercalate]⟩
      · have hshort : (cutLine headers).2.length < n := by
          have hlen := congrArg List.length hrest
          simp only [List.length_append, crlf, List.length_cons, List.length_nil] at hlen
          omega
        obtain ⟨lines, hlines⟩ := ih _ hshort _ rfl
        refine ⟨(cutLine headers).1 :: lines, List.cons_ne_nil _ _, ?_, ?_⟩
        · intro l hl
          rcases List.mem_cons.mp hl with rfl | hl
          · exact hline
          · exact hlines.unbroken l hl
        · rw [intercalate_cons hlines.nonempty, hlines.joined, ← hrest]

/-- The first line of a block is what is cut off; the other lines are those of
what is behind it. -/
theorem Lines.cut {headers line : Text} {rest : List Text} (h : Lines headers (line :: rest)) :
    (rest = [] ∧ headers = line ∧ cutLine headers = (headers, []))
      ∨ ∃ behind, Lines behind rest ∧ headers = line ++ crlf ++ behind
          ∧ cutLine headers = (line, behind) := by
  have hline := h.unbroken line List.mem_cons_self
  cases rest with
  | nil =>
      have hall : headers = line := by
        rw [← h.joined]
        simp [List.intercalate]
      exact Or.inl ⟨rfl, hall, by rw [hall]; exact cutLine_last hline⟩
  | cons l ls =>
      have hall : headers = line ++ crlf ++ crlf.intercalate (l :: ls) := by
        rw [← h.joined, intercalate_cons (List.cons_ne_nil _ _)]
      refine Or.inr ⟨crlf.intercalate (l :: ls), ⟨List.cons_ne_nil _ _, ?_, rfl⟩, hall, ?_⟩
      · intro k hk
        exact h.unbroken k (List.mem_cons_of_mem _ hk)
      · rw [hall]
        exact cutLine_line hline

theorem lines_unique {lines : List Text} :
    ∀ {headers : Text} {lines' : List Text}, Lines headers lines → Lines headers lines' →
      lines = lines' := by
  induction lines with
  | nil =>
      intro headers lines' h _
      exact absurd rfl h.nonempty
  | cons line rest ih =>
      intro headers lines' h h'
      cases lines' with
      | nil => exact absurd rfl h'.nonempty
      | cons line' rest' =>
          have hlen : ∀ l b : Text, l ≠ l ++ crlf ++ b := by
            intro l b heq
            have := congrArg List.length heq
            simp only [List.length_append, crlf, List.length_cons] at this
            omega
          rcases h.cut with ⟨hnil, hall, hcut⟩ | ⟨behind, hbehind, hall, hcut⟩ <;>
            rcases h'.cut with ⟨hnil', hall', hcut'⟩ | ⟨behind', hbehind', hall', hcut'⟩
          · rw [hnil, hnil', ← hall, ← hall']
          · rw [hcut] at hcut'
            cases hcut'
            exact absurd hall' (hlen _ _)
          · rw [hcut] at hcut'
            cases hcut'
            exact absurd hall (hlen _ _)
          · rw [hcut] at hcut'
            cases hcut'
            rw [ih hbehind hbehind']

/-- **Every block is lines in exactly one way.** -/
theorem existsUnique_lines (headers : Text) : ∃! lines, Lines headers lines := by
  obtain ⟨lines, hlines⟩ := exists_lines headers
  exact ⟨lines, hlines, fun _ h => lines_unique h hlines⟩

/-! ## §3. The loop goes over the lines. -/

/-- Any fuel above the length of the text is enough. -/
theorem parseFields_lines {lines : List Text} :
    ∀ {headers : Text} {fuel : Nat} {length : Option Nat}, Lines headers lines →
      headers.length < fuel →
        parseFields fuel length headers = (lines.foldlM parseField length).bind id := by
  induction lines with
  | nil =>
      intro headers fuel length h _
      exact absurd rfl h.nonempty
  | cons line rest ih =>
      intro headers fuel length h hfuel
      obtain ⟨fuel, rfl⟩ : ∃ k, fuel = k + 1 := ⟨fuel - 1, by omega⟩
      rw [parseFields, List.foldlM_cons]
      rcases h.cut with ⟨hnil, hall, hcut⟩ | ⟨behind, hbehind, hall, hcut⟩
      · rw [hnil, hcut, ← hall]
        cases headers with
        | nil => rfl
        | cons c cs =>
            obtain ⟨more, rfl⟩ : ∃ k, fuel = k + 1 := by
              rw [List.length_cons] at hfuel
              exact ⟨fuel - 1, by omega⟩
            cases hfield : parseField length (c :: cs) with
            | none => simp
            | some next => simp [parseFields]
      · have hne : headers.isEmpty = false := by
          rw [hall]
          simp [crlf]
        have hshort : behind.length < fuel := by
          have hlen := congrArg List.length hall
          simp only [List.length_append, crlf, List.length_cons, List.length_nil] at hlen
          omega
        rw [hne, hcut, if_neg Bool.false_ne_true]
        cases hfield : parseField length line with
        | none => rfl
        | some next =>
            show parseFields fuel next behind = _
            rw [ih hbehind hshort]
            rfl

/-! ## §4. One line. -/

/-- A line with a colon is a field in one way. -/
theorem field_iff {line name value : Text} :
    Field line name value ↔
      ':' ∈ line ∧ name = trim (line.takeWhile (· != ':'))
        ∧ value = trim ((line.dropWhile (· != ':')).drop 1) := by
  constructor
  · intro ⟨before, behind, hline, hbefore, hname, hvalue⟩
    have hnot : ∀ c ∈ before, (c != ':') = true := by
      intro c hc
      rw [bne_iff_ne]
      exact fun heq => hbefore (heq ▸ hc)
    have hstop : (':' != ':') = false := by decide
    have hfront : line.takeWhile (· != ':') = before := by
      rw [hline, List.takeWhile_append_of_pos hnot, List.takeWhile_cons_of_neg (by rw [hstop]; nofun),
        List.append_nil]
    have hback : line.dropWhile (· != ':') = ':' :: behind := by
      rw [hline, List.dropWhile_append_of_pos hnot, List.dropWhile_cons_of_neg (by rw [hstop]; nofun)]
    rw [hfront, hback, hline]
    exact ⟨by simp, (trim_padded hname).symm, (trim_padded hvalue).symm⟩
  · intro ⟨hcolon, hname, hvalue⟩
    obtain ⟨behind, hback⟩ : ∃ behind, line.dropWhile (· != ':') = ':' :: behind := by
      have hsplit := List.takeWhile_append_dropWhile (p := (· != ':')) (l := line)
      cases hdrop : line.dropWhile (· != ':') with
      | nil =>
          rw [hdrop, List.append_nil] at hsplit
          rw [← hsplit] at hcolon
          exact absurd (List.mem_takeWhile_imp hcolon) (by decide)
      | cons c cs =>
          have hhead := List.head?_dropWhile_not (· != ':') line
          rw [hdrop] at hhead
          have hc : c = ':' := by simpa using hhead
          exact ⟨cs, by rw [hc]⟩
    rw [hback] at hvalue
    refine ⟨line.takeWhile (· != ':'), behind, ?_, ?_, ?_, ?_⟩
    · rw [← hback, List.takeWhile_append_dropWhile]
    · intro hin
      exact absurd (List.mem_takeWhile_imp hin) (by decide)
    · rw [hname]
      exact padded_trim _
    · rw [hvalue]
      exact padded_trim _

/-- The value of a Content-Length field is the one the parser looks at. -/
theorem namesLength_iff {line value : Text} :
    NamesLength line value ↔
      ':' ∈ line ∧ asciiIequals (trim (line.takeWhile (· != ':'))) contentLength = true
        ∧ value = trim ((line.dropWhile (· != ':')).drop 1) := by
  unfold NamesLength asciiIequals SameUpToCase
  simp only [field_iff, beq_iff_eq]
  constructor
  · rintro ⟨name, ⟨hcolon, rfl, hvalue⟩, hsame⟩
    exact ⟨hcolon, hsame, hvalue⟩
  · intro ⟨hcolon, hsame, hvalue⟩
    exact ⟨_, ⟨hcolon, rfl, hvalue⟩, hsame⟩

/-- **`from_chars` over a whole value.** -/
theorem fromChars_eq_some_iff {value : Text} {n : Nat} :
    fromChars value = some n ↔ Denotes value n := by
  unfold fromChars
  constructor
  · intro h
    split at h
    · cases h
    next hcheck =>
        rw [Bool.or_eq_true, not_or] at hcheck
        have hdigits : value.all Char.isDigit = true := by simpa using hcheck.2
        obtain ⟨hsmall, hn⟩ := Option.ite_none_right_eq_some.mp h
        refine ⟨?_, List.all_eq_true.mp hdigits, Option.some.inj hn, Option.some.inj hn ▸ hsmall⟩
        rintro rfl
        exact hcheck.1 rfl
  · intro h
    have hne : value.isEmpty = false := List.isEmpty_eq_false_iff.mpr h.nonempty
    have hall : value.all Char.isDigit = true := List.all_eq_true.mpr h.digits
    have hnumber : Nat.ofDigitChars 10 value 0 = n := h.number
    rw [hne, hall, if_neg (by decide), hnumber, if_pos h.small]

/-- **What one line does.** -/
theorem parseField_eq_some_iff {length next : Option Nat} {line : Text} :
    parseField length line = some next ↔
      Accepted line ∧
        ((∃ value n, NamesLength line value ∧ Denotes value n ∧ next = some n)
          ∨ ((∀ value, ¬ NamesLength line value) ∧ next = length)) := by
  unfold parseField
  by_cases hempty : line = []
  · have hnone : ∀ value, ¬ NamesLength line value := by
      intro value h
      rw [hempty] at h
      exact absurd (namesLength_iff.mp h).1 (by simp)
    have haccept : Accepted line := ⟨fun h => absurd hempty h, fun value h => absurd h (hnone value)⟩
    rw [if_pos (by rw [hempty]; rfl)]
    constructor
    · intro h
      exact ⟨haccept, Or.inr ⟨hnone, (Option.some.inj h).symm⟩⟩
    · rintro ⟨_, ⟨value, _, hnames, _⟩ | ⟨_, hnext⟩⟩
      · exact absurd hnames (hnone value)
      · rw [hnext]
  · rw [if_neg (by rw [List.isEmpty_iff]; exact hempty)]
    by_cases hcolon : ':' ∈ line
    · rw [if_neg (by simpa using hcolon)]
      by_cases hname : asciiIequals (trim (line.takeWhile (· != ':'))) contentLength = true
      · -- a Content-Length field
        have hnames : NamesLength line (trim ((line.dropWhile (· != ':')).drop 1)) :=
          namesLength_iff.mpr ⟨hcolon, hname, rfl⟩
        rw [if_pos hname, Option.map_eq_some_iff]
        constructor
        · rintro ⟨n, hn, rfl⟩
          have hdenotes := fromChars_eq_some_iff.mp hn
          refine ⟨⟨fun _ => hcolon, fun value hvalue => ?_⟩, Or.inl ⟨_, n, hnames, hdenotes, rfl⟩⟩
          rw [(namesLength_iff.mp hvalue).2.2]
          exact ⟨n, hdenotes⟩
        · rintro ⟨_, ⟨value, n, hvalue, hdenotes, rfl⟩ | ⟨hnone, _⟩⟩
          · rw [(namesLength_iff.mp hvalue).2.2] at hdenotes
            exact ⟨n, fromChars_eq_some_iff.mpr hdenotes, rfl⟩
          · exact absurd hnames (hnone _)
      · have hnone : ∀ value, ¬ NamesLength line value :=
          fun value h => hname (namesLength_iff.mp h).2.1
        rw [if_neg hname]
        constructor
        · intro h
          exact ⟨⟨fun _ => hcolon, fun value h => absurd h (hnone value)⟩,
            Or.inr ⟨hnone, (Option.some.inj h).symm⟩⟩
        · rintro ⟨_, ⟨value, _, hnames, _⟩ | ⟨_, hnext⟩⟩
          · exact absurd hnames (hnone value)
          · rw [hnext]
    · rw [if_pos (by simpa using hcolon)]
      constructor
      · intro h
        cases h
      · intro ⟨haccept, _⟩
        exact absurd (haccept.colon hempty) hcolon

/-! ## §5. The block. -/

theorem lastLength_cons {line : Text} {lines : List Text} {n : Nat} (h : LastLength lines n) :
    LastLength (line :: lines) n := by
  obtain ⟨before, l, behind, value, hsplit, hrest⟩ := h
  exact ⟨line :: before, l, behind, value, by rw [hsplit]; rfl, hrest⟩

/-- The first line counts only if no other line does. -/
theorem lastLength_cons_iff {line : Text} {lines : List Text} {n : Nat} :
    LastLength (line :: lines) n ↔
      LastLength lines n
        ∨ ((∀ l ∈ lines, ∀ v, ¬ NamesLength l v) ∧ ∃ value, NamesLength line value ∧ Denotes value n) := by
  constructor
  · rintro ⟨before, l, behind, value, hsplit, hnames, hdenotes, hlast⟩
    cases before with
    | nil =>
        cases hsplit
        exact Or.inr ⟨hlast, value, hnames, hdenotes⟩
    | cons b bs =>
        cases hsplit
        exact Or.inl ⟨bs, l, behind, value, rfl, hnames, hdenotes, hlast⟩
  · rintro (h | ⟨hlast, value, hnames, hdenotes⟩)
    · exact lastLength_cons h
    · exact ⟨[], line, lines, value, rfl, hnames, hdenotes, hlast⟩

/-- **What the loop does**: it keeps the last length, or the one it began
with. -/
theorem foldlM_parseField_eq_some_iff {lines : List Text} :
    ∀ {length out : Option Nat}, lines.foldlM parseField length = some out ↔
      (∀ line ∈ lines, Accepted line) ∧
        ((∃ n, LastLength lines n ∧ out = some n)
          ∨ ((∀ l ∈ lines, ∀ v, ¬ NamesLength l v) ∧ out = length)) := by
  induction lines with
  | nil =>
      intro length out
      have hlast : ∀ n, ¬ LastLength [] n := by
        rintro n ⟨before, l, behind, value, hsplit, _⟩
        exact absurd hsplit (by simp)
      rw [List.foldlM_nil]
      constructor
      · intro h
        exact ⟨nofun, Or.inr ⟨nofun, (Option.some.inj h).symm⟩⟩
      · rintro ⟨_, ⟨n, hn, _⟩ | ⟨_, hout⟩⟩
        · exact absurd hn (hlast n)
        · rw [hout]
          rfl
  | cons line lines ih =>
      intro length out
      rw [List.foldlM_cons, Option.bind_eq_bind, Option.bind_eq_some_iff]
      simp only [ih, parseField_eq_some_iff, lastLength_cons_iff, List.forall_mem_cons]
      constructor
      · rintro ⟨next, ⟨haccept, hline⟩, hall, hrest⟩
        refine ⟨⟨haccept, hall⟩, ?_⟩
        rcases hrest with ⟨n, hn, hout⟩ | ⟨hnone, hout⟩
        · exact Or.inl ⟨n, Or.inl hn, hout⟩
        · rcases hline with ⟨value, n, hnames, hdenotes, hnext⟩ | ⟨hother, hnext⟩
          · exact Or.inl ⟨n, Or.inr ⟨hnone, value, hnames, hdenotes⟩, hout.trans hnext⟩
          · exact Or.inr ⟨⟨hother, hnone⟩, hout.trans hnext⟩
      · rintro ⟨⟨haccept, hall⟩, hout⟩
        by_cases hnames : ∃ value, NamesLength line value
        · obtain ⟨value, hvalue⟩ := hnames
          obtain ⟨m, hm⟩ := haccept.number value hvalue
          refine ⟨some m, ⟨haccept, Or.inl ⟨value, m, hvalue, hm, rfl⟩⟩, hall, ?_⟩
          rcases hout with ⟨n, hn | ⟨hnone, v, hv, hdenotes⟩, hout⟩ | ⟨⟨hother, _⟩, _⟩
          · exact Or.inl ⟨n, hn, hout⟩
          · -- one line has one value
            have hsame : v = value :=
              (namesLength_iff.mp hv).2.2.trans (namesLength_iff.mp hvalue).2.2.symm
            rw [hsame] at hdenotes
            exact Or.inr ⟨hnone, by rw [hout, ← hdenotes.number, hm.number]⟩
          · exact absurd hvalue (hother value)
        · have hother : ∀ value, ¬ NamesLength line value := fun value h => hnames ⟨value, h⟩
          refine ⟨length, ⟨haccept, Or.inr ⟨hother, rfl⟩⟩, hall, ?_⟩
          rcases hout with ⟨n, hn | ⟨_, v, hv, _⟩, hout⟩ | ⟨⟨_, hnone⟩, hout⟩
          · exact Or.inl ⟨n, hn, hout⟩
          · exact absurd hv (hother v)
          · exact Or.inr ⟨hnone, hout⟩

/-- What a block is accepted for, in terms of its lines. -/
theorem parseContentLength_lines {headers : Text} {lines : List Text} (h : Lines headers lines)
    (n : Nat) :
    parseContentLength headers = some n ↔
      (∀ line ∈ lines, Accepted line) ∧ LastLength lines n := by
  rw [parseContentLength, parseFields_lines h (Nat.lt_succ_self _), Option.bind_eq_some_iff]
  simp only [foldlM_parseField_eq_some_iff]
  constructor
  · rintro ⟨out, ⟨hall, ⟨m, hm, hout⟩ | ⟨_, hout⟩⟩, hn⟩
    · rw [hout] at hn
      cases hn
      exact ⟨hall, hm⟩
    · rw [hout] at hn
      cases hn
  · rintro ⟨hall, hlast⟩
    exact ⟨some n, ⟨hall, Or.inl ⟨n, hlast, rfl⟩⟩, rfl⟩

/-- **`parse_content_length` returns `n` IF AND ONLY IF every line of the block
is empty or a field, every Content-Length field has digits for a value that
denote a number below 2³², and `n` is the number of the last one**; a block
with a number from 2³² on is rejected. -/
theorem parseContentLength_eq_some_iff (headers : Text) :
    (∀ n, parseContentLength headers = some n ↔
      ∃ lines, Lines headers lines ∧ (∀ line ∈ lines, Accepted line) ∧ LastLength lines n)
      ∧ ∀ lines, Lines headers lines → ∀ line ∈ lines, ∀ value, NamesLength line value →
          (∀ c ∈ value, c.isDigit = true) → 2 ^ 32 ≤ decimal value →
            parseContentLength headers = none := by
  refine ⟨fun n => ⟨fun hn => ?_, ?_⟩, ?_⟩
  · obtain ⟨lines, hlines⟩ := exists_lines headers
    exact ⟨lines, hlines, (parseContentLength_lines hlines n).mp hn⟩
  · rintro ⟨lines, hlines, hall, hlast⟩
    exact (parseContentLength_lines hlines n).mpr ⟨hall, hlast⟩
  · intro lines hlines line hline value hnames _ hlarge
    by_contra hsome
    obtain ⟨n, hn⟩ := Option.ne_none_iff_exists'.mp hsome
    obtain ⟨hall, _⟩ := (parseContentLength_lines hlines n).mp hn
    obtain ⟨m, hm⟩ := (hall line hline).number value hnames
    have hsmall := hm.small
    rw [← hm.number] at hsmall
    omega

end ShaderClippy.Lsp.Framing
