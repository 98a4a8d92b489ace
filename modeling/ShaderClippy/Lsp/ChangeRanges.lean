/-
  ShaderClippy.Lsp.ChangeRanges

  **THE RANGE OF A `didChange` CHANGE** (`handlers.cpp`,
  `parse_content_changes` and `on_did_change`).

  A change without a `range` replaces the whole text, and a change with one
  edits it. The parser tells the two apart by whether it can READ the range:
  a range it cannot read counts as no range, and a negative position is read
  modulo 2³². So a bad range is rejected exactly where it has its four
  integers and these, as 32-bit numbers, name no span of the text
  (`rangeLaw_iff`).
-/
import Mathlib
import ShaderClippy.Lsp.Json
import ShaderClippy.Lsp.Server

namespace ShaderClippy.Lsp

/-! ## §1. The parameters. -/

def kTextDocument : Text := "textDocument".toList
def kUri : Text := "uri".toList
def kVersionMember : Text := "version".toList
def kContentChanges : Text := "contentChanges".toList
def kText : Text := "text".toList
def kRange : Text := "range".toList
def kStart : Text := "start".toList
def kEnd : Text := "end".toList
def kLine : Text := "line".toList
def kCharacter : Text := "character".toList

/-- The value of a JSON integer (`is_number_integer`). -/
def Json.integerValue : Json → Option Int
  | .integer v => some v.toInt
  | .unsigned v => some v.toNat
  | _ => none

/-- `get<std::uint32_t>` of an integer: its low 32 bits. -/
def getUint32 (n : Int) : Nat := (n % 2 ^ 32).toNat

/-- `get<std::int32_t>` of an integer: its low 32 bits, with a sign. -/
def getInt32 (n : Int) : Int := n.bmod (2 ^ 32)

/-- `extract_text_document_uri`. -/
def extractTextDocumentUri (params : Json) : Text :=
  match (params.find kTextDocument).bind (·.find kUri) with
  | some (.string uri) => uri
  | _ => []

/-- `extract_text_document_version`. -/
def extractTextDocumentVersion (params : Json) : Int :=
  match ((params.find kTextDocument).bind (·.find kVersionMember)).bind Json.integerValue with
  | some version => getInt32 version
  | none => 0

/-- The two positions of a range, as the integers on the wire. -/
structure WireRange where
  startLine : Int
  startCharacter : Int
  endLine : Int
  endCharacter : Int
  deriving Repr, DecidableEq

/-- The line and the character of a position. -/
def wirePosition (position : Json) : Option (Int × Int) :=
  match (position.find kLine).bind Json.integerValue,
      (position.find kCharacter).bind Json.integerValue with
  | some line, some character => some (line, character)
  | _, _ => none

/-- What `parse_content_changes` reads of a `range` member: all four integers,
or nothing. -/
def wireRange (range : Json) : Option WireRange :=
  match (range.find kStart).bind wirePosition, (range.find kEnd).bind wirePosition with
  | some start, some stop => some ⟨start.1, start.2, stop.1, stop.2⟩
  | _, _ => none

/-- The text of a change; anything but a string counts as no text. -/
def changeText (change : Json) : Text :=
  match change.find kText with
  | some (.string text) => text
  | _ => []

/-- One turn of the loop in `parse_content_changes`. -/
def parseContentChange (change : Json) : ContentChange :=
  match (change.find kRange).bind wireRange with
  | some r =>
      ⟨true, getUint32 r.startLine, getUint32 r.startCharacter, getUint32 r.endLine,
        getUint32 r.endCharacter, changeText change⟩
  | none => ⟨false, 0, 0, 0, 0, changeText change⟩

/-- The elements of `contentChanges`. -/
def contentChanges (params : Json) : List Json :=
  match params.find kContentChanges with
  | some (.array changes) => changes
  | _ => []

/-- `parse_content_changes`. -/
def parseContentChanges (params : Json) : List ContentChange :=
  (contentChanges params).map parseContentChange

/-- `on_did_change`, from the parameters as they arrive. -/
def onDidChangeParams {Env : Type} (host : Host Env) (docs : DocumentManager) (params : Json)
    (ev : Event Env) : DocumentManager × List Output :=
  if extractTextDocumentUri params = [] then (docs, [])
  else
    onDidChange host docs (extractTextDocumentUri params) (extractTextDocumentVersion params)
      (parseContentChanges params) ev

/-! ## §2. The law. -/

/-- A position of two non-negative integers. -/
structure IsPosition (position : Json) : Prop where
  line : ∃ n : Nat, (position.find kLine).bind Json.integerValue = some (n : Int)
  character : ∃ n : Nat, (position.find kCharacter).bind Json.integerValue = some (n : Int)

/-- A well-formed range of non-negative integers. -/
structure IsRange (range : Json) : Prop where
  start : ∃ position, range.find kStart = some position ∧ IsPosition position
  stop : ∃ position, range.find kEnd = some position ∧ IsPosition position

/-- The law for one change and the text it meets: a change with a bad range is
rejected and leaves the text as it is, and a change that replaces the whole
text has no range. -/
def ChangeLaw (text : Text) (change : Json) : Prop :=
  (∀ range, change.find kRange = some range → ¬ IsRange range →
    applyOne text (parseContentChange change) = (text, false))
    ∧ ((parseContentChange change).hasRange = false → change.find kRange = none)

/-- A change of the parameters, and the text that the changes before it leave
of an open document. -/
def Meets (docs : DocumentManager) (params : Json) (text : Text) (change : Json) : Prop :=
  ∃ doc pre post, docs.find (extractTextDocumentUri params) = some doc
    ∧ contentChanges params = pre ++ change :: post
    ∧ applyEach doc.contents (pre.map parseContentChange) = (text, true)

/-- The law for a notification: each change it comes to obeys it. -/
def RangeLaw (docs : DocumentManager) (params : Json) : Prop :=
  extractTextDocumentUri params ≠ [] →
    ∀ text change, Meets docs params text change → ChangeLaw text change

/-- Every number of the range is at least zero. -/
def WireRange.NonNegative (r : WireRange) : Prop :=
  0 ≤ r.startLine ∧ 0 ≤ r.startCharacter ∧ 0 ≤ r.endLine ∧ 0 ≤ r.endCharacter

/-- The range, its numbers taken modulo 2³², is a span of the text. -/
def WireRange.Resolves (r : WireRange) (text : Text) : Prop :=
  ∃ lo hi, positionToOffset text (getUint32 r.startLine) (getUint32 r.startCharacter) = some lo
    ∧ positionToOffset text (getUint32 r.endLine) (getUint32 r.endCharacter) = some hi ∧ lo ≤ hi

/-- The `range` member, if there is one, has its four integers, and if one of
them is negative their remainders name no span of the text. -/
def RangeReads (text : Text) (change : Json) : Prop :=
  ∀ range, change.find kRange = some range →
    ∃ r, wireRange range = some r ∧ (¬ r.NonNegative → ¬ r.Resolves text)

/-! ## §3. What is read. -/

theorem natural_of_nonneg {n : Int} (h : 0 ≤ n) : ∃ m : Nat, n = m :=
  ⟨n.toNat, (Int.toNat_of_nonneg h).symm⟩

theorem wirePosition_eq_some {position : Json} {line character : Int} :
    wirePosition position = some (line, character) ↔
      (position.find kLine).bind Json.integerValue = some line
        ∧ (position.find kCharacter).bind Json.integerValue = some character := by
  unfold wirePosition
  split
  next l c hl hc => rw [hl, hc, Option.some.injEq, Option.some.injEq, Option.some.injEq,
      Prod.mk.injEq]
  next hnone =>
    constructor
    · exact nofun
    · intro ⟨hl, hc⟩
      exact absurd hc (hnone line character hl)

/-- A position is well formed where its two integers are read and are not
negative. -/
theorem isPosition_iff {position : Json} :
    IsPosition position ↔
      ∃ line character, wirePosition position = some (line, character) ∧ 0 ≤ line
        ∧ 0 ≤ character := by
  constructor
  · intro ⟨⟨l, hl⟩, ⟨c, hc⟩⟩
    exact ⟨l, c, wirePosition_eq_some.mpr ⟨hl, hc⟩, Int.natCast_nonneg l, Int.natCast_nonneg c⟩
  · intro ⟨line, character, h, hline, hcharacter⟩
    obtain ⟨hl, hc⟩ := wirePosition_eq_some.mp h
    obtain ⟨l, rfl⟩ := natural_of_nonneg hline
    obtain ⟨c, rfl⟩ := natural_of_nonneg hcharacter
    exact ⟨⟨l, hl⟩, ⟨c, hc⟩⟩

theorem wireRange_eq_some {range : Json} {r : WireRange} :
    wireRange range = some r ↔
      (range.find kStart).bind wirePosition = some (r.startLine, r.startCharacter)
        ∧ (range.find kEnd).bind wirePosition = some (r.endLine, r.endCharacter) := by
  unfold wireRange
  split
  next start stop hstart hstop =>
    rw [hstart, hstop, Option.some.injEq, Option.some.injEq, Option.some.injEq]
    constructor
    · intro h
      subst h
      exact ⟨rfl, rfl⟩
    · intro ⟨h, h'⟩
      rw [h, h']
  next hnone =>
    constructor
    · exact nofun
    · intro ⟨hstart, hstop⟩
      exact absurd hstop (hnone _ _ hstart)

/-- A range is well formed where its four integers are read and none is
negative. -/
theorem isRange_iff {range : Json} :
    IsRange range ↔ ∃ r, wireRange range = some r ∧ r.NonNegative := by
  constructor
  · intro ⟨⟨start, hstart, hs⟩, ⟨stop, hstop, he⟩⟩
    obtain ⟨sl, sc, hspos, hsl, hsc⟩ := isPosition_iff.mp hs
    obtain ⟨el, ec, hepos, hel, hec⟩ := isPosition_iff.mp he
    refine ⟨⟨sl, sc, el, ec⟩, wireRange_eq_some.mpr ⟨?_, ?_⟩, hsl, hsc, hel, hec⟩
    · rw [hstart]
      exact hspos
    · rw [hstop]
      exact hepos
  · intro ⟨r, h, hsl, hsc, hel, hec⟩
    obtain ⟨hs, he⟩ := wireRange_eq_some.mp h
    obtain ⟨start, hstart, hspos⟩ := Option.bind_eq_some_iff.mp hs
    obtain ⟨stop, hstop, hepos⟩ := Option.bind_eq_some_iff.mp he
    exact ⟨⟨start, hstart, isPosition_iff.mpr ⟨_, _, hspos, hsl, hsc⟩⟩,
      ⟨stop, hstop, isPosition_iff.mpr ⟨_, _, hepos, hel, hec⟩⟩⟩

/-- A range that is not read counts as none. -/
theorem hasRange_parseContentChange (change : Json) :
    (parseContentChange change).hasRange = ((change.find kRange).bind wireRange).isSome := by
  unfold parseContentChange
  split
  next r h => rw [h]; rfl
  next h => rw [h]; rfl

/-- A change whose range is read is rejected where the range names no span of
the text. -/
theorem applyOne_wireRange {change range : Json} {r : WireRange} (text : Text)
    (hrange : change.find kRange = some range) (hr : wireRange range = some r) :
    applyOne text (parseContentChange change) = (text, false) ↔ ¬ r.Resolves text := by
  have hread : (change.find kRange).bind wireRange = some r := by
    rw [hrange]
    exact hr
  unfold parseContentChange
  rw [hread]
  show applyOne text ⟨true, _, _, _, _, _⟩ = (text, false) ↔ _
  unfold applyOne WireRange.Resolves
  simp only [Bool.not_true, Bool.false_eq_true, if_false]
  split
  next lo hi hlo hhi =>
    rw [hlo, hhi]
    by_cases hord : lo > hi
    · rw [if_pos hord]
      refine iff_of_true rfl ?_
      intro ⟨lo', hi', hlo', hhi', hle⟩
      cases hlo'
      cases hhi'
      omega
    · rw [if_neg hord]
      refine iff_of_false (fun h => ?_) fun hnone => ?_
      · have hfits : true = false := congrArg Prod.snd h
        exact absurd hfits nofun
      · exact hnone ⟨lo, hi, rfl, rfl, by omega⟩
  next hnone =>
    refine iff_of_true rfl ?_
    intro ⟨lo, hi, hlo, hhi, _⟩
    exact hnone lo hi hlo hhi

/-! ## §4. When the law holds. -/

/-- One change obeys the law IF AND ONLY IF its range is read and, where a
number is negative, names no span. -/
theorem changeLaw_iff (text : Text) (change : Json) :
    ChangeLaw text change ↔ RangeReads text change := by
  unfold ChangeLaw RangeReads
  rw [hasRange_parseContentChange]
  cases hfind : change.find kRange with
  | none => exact ⟨fun _ _ h => absurd h nofun, fun _ => ⟨fun _ h => absurd h nofun, fun _ => rfl⟩⟩
  | some range =>
      show (_ ∧ ((wireRange range).isSome = false → _)) ↔ _
      constructor
      · intro ⟨hreject, hfull⟩ range' hrange'
        cases hrange'
        cases hr : wireRange range with
        | none =>
            -- a range that is not read would replace the whole text
            rw [hr] at hfull
            have hno : some range = none := hfull rfl
            exact absurd hno nofun
        | some r =>
            refine ⟨r, rfl, fun hneg => ?_⟩
            refine (applyOne_wireRange text hfind hr).mp (hreject range rfl ?_)
            intro hwell
            obtain ⟨r', hr', hpos⟩ := isRange_iff.mp hwell
            rw [hr] at hr'
            cases hr'
            exact hneg hpos
      · intro h
        obtain ⟨r, hr, hneg⟩ := h range rfl
        constructor
        · intro range' hrange' hbad
          cases hrange'
          refine (applyOne_wireRange text hfind hr).mpr (hneg fun hpos => ?_)
          exact hbad (isRange_iff.mpr ⟨r, hr, hpos⟩)
        · intro hnone
          rw [hr] at hnone
          exact absurd hnone nofun

/-- **Bad ranges are rejected and only changes without a range replace the
text IF AND ONLY IF every range that a notification comes to has its four
integers and, where one is negative, names no span of the text modulo 2³².** -/
theorem rangeLaw_iff (docs : DocumentManager) (params : Json) :
    RangeLaw docs params ↔
      (extractTextDocumentUri params ≠ [] →
        ∀ text change, Meets docs params text change → RangeReads text change) := by
  unfold RangeLaw
  simp only [changeLaw_iff]

/-- The text after a notification is what its changes make of the text
before. -/
theorem contents_applyChanges {docs : DocumentManager} {uri : Text} {doc : OpenDocument}
    (hdoc : docs.find uri = some doc) (version : Int) (changes : List ContentChange) (now : Nat) :
    ((docs.applyChanges uri version changes now).1.find uri).map OpenDocument.contents
      = some (applyEach doc.contents changes).1 := by
  rw [DocumentManager.applyChanges_open hdoc, DocumentManager.find_set_self]
  show some _ = some _
  split <;> rfl

/-- A rejected change ends the notification, which leaves the text that the
change met. -/
theorem onDidChangeParams_rejected {Env : Type} (host : Host Env) {docs : DocumentManager}
    {params : Json} {doc : OpenDocument} {pre post : List Json} {change : Json} {text : Text}
    (ev : Event Env) (huri : extractTextDocumentUri params ≠ [])
    (hdoc : docs.find (extractTextDocumentUri params) = some doc)
    (hchanges : contentChanges params = pre ++ change :: post)
    (hpre : applyEach doc.contents (pre.map parseContentChange) = (text, true))
    (hreject : applyOne text (parseContentChange change) = (text, false)) :
    ((onDidChangeParams host docs params ev).1.find (extractTextDocumentUri params)).map
        OpenDocument.contents = some text := by
  have hall : applyEach doc.contents (parseContentChanges params) = (text, false) := by
    refine applyEach_eq_false_iff.mpr ⟨pre.map parseContentChange, parseContentChange change,
      post.map parseContentChange, ?_, hpre, ?_⟩
    · unfold parseContentChanges
      rw [hchanges, List.map_append, List.map_cons]
    · rw [hreject]
  have hcontents := contents_applyChanges hdoc (extractTextDocumentVersion params)
    (parseContentChanges params) ev.changedAt
  have hfalse : (docs.applyChanges (extractTextDocumentUri params)
      (extractTextDocumentVersion params) (parseContentChanges params) ev.changedAt).2 = false := by
    rw [DocumentManager.applyChanges_open hdoc, hall]
  unfold onDidChangeParams onDidChange
  rw [if_neg huri]
  split
  next docs' h =>
    rw [h, hall] at hcontents
    exact hcontents
  next docs' h =>
    rw [h] at hfalse
    exact absurd hfalse nofun

/-- A notification whose one change has `null` for a range. -/
def nullRange : Json :=
  .object [(kTextDocument, .object [(kUri, .string "u".toList), (kVersionMember, .unsigned 2)]),
    (kContentChanges, .array [.object [(kRange, .null), (kText, .string "x".toList)]])]

/-- The document `abc`. -/
def abcDocument : DocumentManager :=
  DocumentManager.empty.openDocument "u".toList "p".toList "abc".toList 1 7

/-- **A `null` range replaces the document.** -/
theorem nullRange_replaces :
    ((abcDocument.applyChanges "u".toList 2 (parseContentChanges nullRange) 8).1.find
        "u".toList).map OpenDocument.contents = some "x".toList
      ∧ ¬ RangeLaw abcDocument nullRange := by
  refine ⟨by decide, fun hlaw => ?_⟩
  have hmeets : Meets abcDocument nullRange "abc".toList
      (.object [(kRange, .null), (kText, .string "x".toList)]) :=
    ⟨⟨"u".toList, "p".toList, "abc".toList, 1, [], 7, 0⟩, [], [], rfl, rfl, rfl⟩
  have hnone := (hlaw (by decide) _ _ hmeets).2 (by decide)
  exact absurd hnone nofun

end ShaderClippy.Lsp
