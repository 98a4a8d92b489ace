/-
  ShaderClippy.Reflection.ReflectionError

  **WHEN A COMPILE FAILURE BECOMES A NOTE** (`make_reflection_error`,
  `slang_bridge.cpp`).

  The text of a failure is downgraded if all identifiers it calls undefined
  look like minimum-precision types, or if it holds warnings and no error. The
  first test looks at nothing else in the text: a syntax error next to an
  undefined `min16float` is downgraded with it. `downgradeLaw_iff` says which
  texts hide an error that way.
-/
import ShaderClippy.Diagnostic
import ShaderClippy.Lib.Loop
import ShaderClippy.Lib.TextSearch
import ShaderClippy.Syntax.Node

namespace ShaderClippy.Reflection

open Loop (Turn TurnOk loop loop_spec)
open TextSearch (cut cut_some infix_iff_line)

/-! ## §1. The failures of minimum-precision types. -/

def kUndefinedIdentifier : Text := "undefined identifier".toList

/-- What counts as one of the types. -/
def looksMinPrecision (ident : Text) : Bool :=
  Text.startsWith ident "min16float".toList || Text.startsWith ident "min16uint".toList
    || Text.startsWith ident "min16int".toList || decide (ident = "min10float".toList)
    || Text.startsWith ident "min12int".toList

/-- The three searches of a turn: the next undefined identifier, and the text
behind its closing quote. The words that come before it hold no quote. -/
def nextName (blob : Text) : Option (Text × Text) :=
  match cut kUndefinedIdentifier blob with
  | none => none
  | some (_, next) =>
      match cut ['\''] next with
      | none => none
      | some (_, quoted) => cut ['\''] quoted

/-- The variables of the loop: `blob` from `pos` on. -/
structure MinScan where
  rest : Text
  sawMin16 : Bool
  sawNonMin16Undef : Bool

/-- One turn. -/
def scanStep (s : MinScan) : Option (Turn MinScan (Bool × Bool)) :=
  if s.rest = [] then some (.done (s.sawMin16, s.sawNonMin16Undef))
  else
    match nextName s.rest with
    | none => some (.done (s.sawMin16, s.sawNonMin16Undef))
    | some (ident, rest) =>
        if looksMinPrecision ident then some (.more ⟨rest, true, s.sawNonMin16Undef⟩)
        else some (.more ⟨rest, s.sawMin16, true⟩)

/-- **`is_min_precision_only_failure`.** -/
def isMinPrecisionOnlyFailure (blob : Text) : Bool :=
  if !Text.contains blob kUndefinedIdentifier then false
  else
    match loop scanStep (blob.length + 1) ⟨blob, false, false⟩ with
    | some (sawMin16, sawNonMin16Undef) => sawMin16 && !sawNonMin16Undef
    | none => false

/-! ## §2. The diagnostic. -/

/-- `error:`, `error(` or `fatal error`. -/
def hasErrorMarker (text : Text) : Bool :=
  Text.contains text "error:".toList || Text.contains text "error(".toList
    || Text.contains text "fatal error".toList

/-- **`is_warnings_only_failure`.** -/
def isWarningsOnlyFailure (blob : Text) : Bool :=
  if blob = [] then false
  else if hasErrorMarker blob then false
  else Text.contains blob "warning:".toList || Text.contains blob "warning(".toList

/-- **`make_reflection_error`.** -/
def makeReflectionError (source : SourceId) (message : Text) : Diagnostic :=
  let minPrecisionOnly := isMinPrecisionOnlyFailure message
  let warningsOnly := !minPrecisionOnly && isWarningsOnlyFailure message
  { code := "clippy::reflection".toList
    severity := if minPrecisionOnly || warningsOnly then .note else .error
    primarySpan := ⟨source, ⟨0, 0⟩⟩
    message :=
      if minPrecisionOnly then
        ("Slang reflection skipped for this file: it uses DXC minimum-"
          ++ "precision types (`min16float` / `min16uint` / `min16int`) which "
          ++ "Slang's HLSL frontend doesn't accept. AST-only rules still ran. "
          ++ "Migrate to `float16_t` / `uint16_t` / `int16_t` to enable "
          ++ "reflection-aware rules. (Slang detail: ").toList ++ message ++ [')']
      else if warningsOnly then
        ("Slang reflection skipped for this file: the compiler returned "
          ++ "warnings only (e.g. unknown `#pragma`, advisory notice). AST-only "
          ++ "rules still ran. (Slang detail: ").toList ++ message ++ [')']
      else message
    fixes := [] }

/-! ## §3. The names that a text calls undefined. -/

/-- The names, `fuel` at most. -/
def namesIn : Nat → Text → List Text
  | 0, _ => []
  | fuel + 1, blob =>
      match nextName blob with
      | none => []
      | some (ident, rest) => ident :: namesIn fuel rest

/-- The names quoted behind the words, one after another. -/
def undefinedNames (blob : Text) : List Text := namesIn blob.length blob

/-- A name that is found leaves a shorter text: the scan ends. -/
theorem nextName_length {blob ident rest : Text} (h : nextName blob = some (ident, rest)) :
    rest.length < blob.length := by
  unfold nextName at h
  split at h
  next => cases h
  next _ next hwords =>
    split at h
    next => cases h
    next _ quoted hopen =>
      rw [cut_some hwords, cut_some hopen, cut_some h]
      simp only [List.length_append, List.length_singleton]
      omega

/-- More fuel than letters changes nothing. -/
theorem namesIn_eq {fuel fuel' : Nat} {blob : Text} (h : blob.length ≤ fuel)
    (h' : blob.length ≤ fuel') : namesIn fuel blob = namesIn fuel' blob := by
  have hnil : ∀ fuel, namesIn fuel [] = [] := by
    intro fuel
    cases fuel <;> rfl
  induction fuel generalizing fuel' blob with
  | zero =>
      have hblob : blob = [] := List.eq_nil_of_length_eq_zero (by omega)
      rw [hblob, hnil, hnil]
  | succ fuel ih =>
      cases fuel' with
      | zero =>
          have hblob : blob = [] := List.eq_nil_of_length_eq_zero (by omega)
          rw [hblob, hnil, hnil]
      | succ fuel' =>
          rw [namesIn, namesIn]
          cases hname : nextName blob with
          | none => rfl
          | some p =>
              have hlen := nextName_length hname
              exact congrArg _ (ih (by omega) (by omega))

/-- No further name ends the list of names. -/
theorem undefinedNames_none {blob : Text} (h : nextName blob = none) : undefinedNames blob = [] := by
  unfold undefinedNames
  cases blob.length with
  | zero => rfl
  | succ n => rw [namesIn, h]

/-- A name that is found is the next of the list. -/
theorem undefinedNames_some {blob ident rest : Text} (h : nextName blob = some (ident, rest)) :
    undefinedNames blob = ident :: undefinedNames rest := by
  have hlen := nextName_length h
  unfold undefinedNames
  cases hn : blob.length with
  | zero => omega
  | succ n =>
      rw [namesIn, h]
      exact congrArg _ (namesIn_eq (by omega) (Nat.le_refl _))

/-- **The loop ends**, and has seen the names. -/
theorem scan_eq (blob : Text) :
    loop scanStep (blob.length + 1) ⟨blob, false, false⟩
      = some ((undefinedNames blob).any looksMinPrecision,
          (undefinedNames blob).any fun ident => !looksMinPrecision ident) := by
  -- invariant: what was seen, together with what the names to come show
  have hstep : ∀ s : MinScan,
      (s.sawMin16 || (undefinedNames s.rest).any looksMinPrecision,
        s.sawNonMin16Undef || (undefinedNames s.rest).any fun ident => !looksMinPrecision ident)
        = ((undefinedNames blob).any looksMinPrecision,
          (undefinedNames blob).any fun ident => !looksMinPrecision ident) →
      TurnOk (fun s : MinScan =>
        (s.sawMin16 || (undefinedNames s.rest).any looksMinPrecision,
          s.sawNonMin16Undef || (undefinedNames s.rest).any fun ident => !looksMinPrecision ident)
          = ((undefinedNames blob).any looksMinPrecision,
            (undefinedNames blob).any fun ident => !looksMinPrecision ident))
        (fun s => s.rest.length)
        (fun r => r = ((undefinedNames blob).any looksMinPrecision,
          (undefinedNames blob).any fun ident => !looksMinPrecision ident)) s (scanStep s) := by
    intro s hs
    unfold scanStep
    cases hname : nextName s.rest with
    | none =>
        rw [undefinedNames_none hname, List.any_nil, List.any_nil, Bool.or_false, Bool.or_false] at hs
        split <;> exact hs
    | some p =>
        obtain ⟨ident, rest⟩ := p
        have hlen := nextName_length hname
        rw [undefinedNames_some hname, List.any_cons, List.any_cons] at hs
        rw [if_neg (by rintro h; rw [h] at hlen; exact absurd hlen (Nat.not_lt_zero _))]
        dsimp only
        cases hlooks : looksMinPrecision ident with
        | true =>
            rw [hlooks] at hs
            refine ⟨?_, hlen⟩
            simpa using hs
        | false =>
            rw [hlooks] at hs
            refine ⟨?_, hlen⟩
            simpa using hs
  obtain ⟨r, hr, heq⟩ := loop_spec hstep (blob.length + 1) ⟨blob, false, false⟩ rfl
    (Nat.lt_succ_self _)
  rw [hr, heq]

/-- `starts_with` is the test for an initial piece. -/
theorem startsWith_iff (text word : Text) : Text.startsWith text word = true ↔ word <+: text := by
  induction text generalizing word with
  | nil => cases word <;> simp [Text.startsWith]
  | cons c cs ih =>
      cases word with
      | nil => simp [Text.startsWith]
      | cons w ws =>
          rw [Text.startsWith, Bool.and_eq_true, ih, beq_iff_eq, List.cons_prefix_cons]
          exact and_congr_left fun _ => eq_comm

/-- `find` succeeds when the word stands anywhere in the text. -/
theorem contains_iff (text word : Text) : Text.contains text word = true ↔ word <:+: text := by
  induction text with
  | nil => simp [Text.contains]
  | cons c cs ih => rw [Text.contains, Bool.or_eq_true, startsWith_iff, ih, List.infix_cons_iff]

/-- A text without the words names nothing. -/
theorem undefinedNames_of_not_contains {blob : Text}
    (h : Text.contains blob kUndefinedIdentifier = false) : undefinedNames blob = [] := by
  have hcut : cut kUndefinedIdentifier blob = none := by
    rw [TextSearch.cut_eq_none_iff, ← contains_iff, h]
    nofun
  refine undefinedNames_none ?_
  unfold nextName
  rw [hcut]

/-- **The first test**: names, and all of them look like one of the types. -/
theorem isMinPrecisionOnlyFailure_iff (blob : Text) :
    isMinPrecisionOnlyFailure blob = true
      ↔ undefinedNames blob ≠ [] ∧ ∀ ident ∈ undefinedNames blob, looksMinPrecision ident = true := by
  have hany : ∀ names : List Text,
      (names.any looksMinPrecision && !names.any fun ident => !looksMinPrecision ident) = true
        ↔ names ≠ [] ∧ ∀ ident ∈ names, looksMinPrecision ident = true := by
    intro names
    cases names with
    | nil => simp
    | cons n ns =>
        simp only [List.any_cons, List.forall_mem_cons]
        cases looksMinPrecision n <;> simp
  unfold isMinPrecisionOnlyFailure
  cases hwords : Text.contains blob kUndefinedIdentifier with
  | false =>
      rw [undefinedNames_of_not_contains hwords]
      simp
  | true =>
      rw [scan_eq]
      exact hany _

/-! ## §4. The law. -/

/-- A line with an error marker. -/
def IsErrorLine (line : Text) : Prop := hasErrorMarker line = true

/-- A number of components, or of rows and columns. -/
def isDimension : Text → Bool
  | [] => true
  | [n] => decide ('1' ≤ n ∧ n ≤ '4')
  | [r, x, c] => decide ('1' ≤ r ∧ r ≤ '4') && decide (x = 'x') && decide ('1' ≤ c ∧ c ≤ '4')
  | _ => false

/-- A minimum-precision type of HLSL: a scalar, a vector or a matrix. -/
def isMinPrecisionType (name : Text) : Bool :=
  ["min16float".toList, "min16uint".toList, "min16int".toList, "min10float".toList,
    "min12int".toList].any fun base => base.isPrefixOf name && isDimension (name.drop base.length)

/-- An error that calls a minimum-precision type undefined. -/
def NamesMinPrecision (line : Text) : Prop :=
  ∃ name rest, nextName line = some (name, rest) ∧ isMinPrecisionType name = true

/-- A line of the text with an error of another kind. -/
def HoldsOtherError (text : Text) : Prop :=
  ∃ line ∈ Lines.split '\n' text, IsErrorLine line ∧ ¬ NamesMinPrecision line

/-- The law for a text: it becomes a note only if every error line calls a
minimum-precision type undefined; with any other error it stays an error. -/
def DowngradeLaw (source : SourceId) (text : Text) : Prop :=
  ((makeReflectionError source text).severity = .note →
      ∀ line ∈ Lines.split '\n' text, IsErrorLine line → NamesMinPrecision line)
    ∧ (HoldsOtherError text → (makeReflectionError source text).severity = .error)

/-- The error markers of a text are in its lines. -/
theorem hasErrorMarker_iff (text : Text) :
    hasErrorMarker text = true ↔ ∃ line ∈ Lines.split '\n' text, IsErrorLine line := by
  have hmarker : ∀ marker : Text, '\n' ∉ marker → (Text.contains text marker = true
      ↔ ∃ line ∈ Lines.split '\n' text, Text.contains line marker = true) := by
    intro marker hmarker
    rw [contains_iff, infix_iff_line hmarker]
    simp only [contains_iff]
  unfold IsErrorLine hasErrorMarker
  simp only [Bool.or_eq_true, hmarker _ (show '\n' ∉ "error:".toList by decide),
    hmarker _ (show '\n' ∉ "error(".toList by decide),
    hmarker _ (show '\n' ∉ "fatal error".toList by decide)]
  constructor
  · rintro ((⟨l, hl, h⟩ | ⟨l, hl, h⟩) | ⟨l, hl, h⟩)
    · exact ⟨l, hl, .inl (.inl h)⟩
    · exact ⟨l, hl, .inl (.inr h)⟩
    · exact ⟨l, hl, .inr h⟩
  · rintro ⟨l, hl, (h | h) | h⟩
    · exact .inl (.inl ⟨l, hl, h⟩)
    · exact .inl (.inr ⟨l, hl, h⟩)
    · exact .inr ⟨l, hl, h⟩

/-- A text with warnings only has no error line. -/
theorem not_holdsOtherError_of_warnings {text : Text} (h : isWarningsOnlyFailure text = true) :
    ¬ HoldsOtherError text := by
  intro ⟨line, hline, herror, _⟩
  have hmarker : hasErrorMarker text = true := (hasErrorMarker_iff text).mpr ⟨line, hline, herror⟩
  unfold isWarningsOnlyFailure at h
  rw [hmarker, if_pos rfl] at h
  split at h <;> cases h

/-- Either downgrade makes the message a note. -/
theorem severity_eq (source : SourceId) (text : Text) :
    (makeReflectionError source text).severity
      = if isMinPrecisionOnlyFailure text || isWarningsOnlyFailure text then .note else .error := by
  show (if isMinPrecisionOnlyFailure text
      || (!isMinPrecisionOnlyFailure text && isWarningsOnlyFailure text) then _ else _) = _
  cases isMinPrecisionOnlyFailure text <;> rfl

/-- **When the law holds**: exactly unless the text calls identifiers undefined
that all look like minimum-precision types, and holds an error of another kind
besides. -/
theorem downgradeLaw_iff (source : SourceId) (text : Text) :
    DowngradeLaw source text
      ↔ ¬ (undefinedNames text ≠ []
          ∧ (∀ ident ∈ undefinedNames text, looksMinPrecision ident = true)
          ∧ HoldsOtherError text) := by
  unfold DowngradeLaw
  rw [severity_eq]
  constructor
  -- names of one kind only, and another error: the note hides it
  · intro ⟨_, hkeeps⟩ ⟨hsome, hlooks, hother⟩
    have honly := (isMinPrecisionOnlyFailure_iff text).mpr ⟨hsome, hlooks⟩
    have herror := hkeeps hother
    rw [honly] at herror
    cases herror
  · intro h
    have hother : HoldsOtherError text →
        (isMinPrecisionOnlyFailure text || isWarningsOnlyFailure text) = false := by
      intro hother
      rw [Bool.or_eq_false_iff]
      constructor
      · refine Bool.eq_false_iff.mpr fun honly => ?_
        obtain ⟨hsome, hlooks⟩ := (isMinPrecisionOnlyFailure_iff text).mp honly
        exact h ⟨hsome, hlooks, hother⟩
      · exact Bool.eq_false_iff.mpr fun hwarnings =>
          not_holdsOtherError_of_warnings hwarnings hother
    constructor
    · intro hnote line hline herror
      by_cases hnames : NamesMinPrecision line
      · exact hnames
      · rw [hother ⟨line, hline, herror, hnames⟩] at hnote
        cases hnote
    · intro hholds
      rw [hother hholds]
      rfl

/-! ## §5. A syntax error behind an undefined type. -/

/-- An undefined `min16float`, and then a syntax error. -/
def typeThenSyntaxError : Text :=
  "a.hlsl(1): error: undefined identifier 'min16float'\na.hlsl(2): error: syntax error".toList

/-- **The syntax error is hidden** in a note. -/
theorem typeThenSyntaxError_downgraded :
    (makeReflectionError ⟨1⟩ typeThenSyntaxError).severity = .note
      ∧ ¬ DowngradeLaw ⟨1⟩ typeThenSyntaxError := by
  have hnote : (makeReflectionError ⟨1⟩ typeThenSyntaxError).severity = .note := by
    decide +kernel
  have hline : "a.hlsl(2): error: syntax error".toList ∈ Lines.split '\n' typeThenSyntaxError := by
    decide +kernel
  have herror : IsErrorLine "a.hlsl(2): error: syntax error".toList := by
    unfold IsErrorLine
    decide +kernel
  have hnone : nextName "a.hlsl(2): error: syntax error".toList = none := by
    decide +kernel
  refine ⟨hnote, fun hlaw => ?_⟩
  obtain ⟨name, rest, hname, -⟩ := hlaw.1 hnote _ hline herror
  rw [hnone] at hname
  cases hname

end ShaderClippy.Reflection
