/-
  ShaderClippy.Cli.GithubAnnotation

  **THE GITHUB ANNOTATION OF A DIAGNOSTIC** (`render_github_annotation`,
  `main.cpp`).

  With `--format=github-annotations` every diagnostic is printed as one
  workflow command. `github_escape` is the encoding of a command's DATA;
  the emitter uses it for the property values too, and prints the rule code
  in the brackets without any. Both show:

    • a comma or a `::` in the path or in the rule code ends the value early,
      and so does a rule code that ends in a colon;
    • in the brackets a line break ends the command, and what looks like a
      percent code is decoded.

  The codes of the program's own notices begin with `clippy::`.
-/
import ShaderClippy.Diagnostic
import ShaderClippy.SourceFile
import Mathlib.Data.Bool.AllAny
import ShaderClippy.Lib.WorkflowCommand

namespace ShaderClippy.Cli

open SourceFile (LineCol lineCol)
open WorkflowCommand

/-! ## §1. The program. -/

/-- One file of the source manager. -/
structure FileEntry where
  path : Text
  contents : Text
  deriving Repr, DecidableEq

/-- The files, in the order of their ids from `1` on. -/
abbrev SourceManager := List FileEntry

/-- `SourceManager::get`. -/
def SourceManager.get (sources : SourceManager) (id : SourceId) : Option FileEntry :=
  if id.value = 0 then none else sources[id.value - 1]?

/-- `SourceManager::resolve`. -/
def SourceManager.resolve (sources : SourceManager) (id : SourceId) (byteOffset : Nat) : LineCol :=
  match sources.get id with
  | some file => lineCol file.contents byteOffset
  | none => ⟨1, 1⟩

/-- `github_escape`. -/
def githubEscape : Text → Text
  | [] => []
  | c :: cs =>
      (if c = '%' then "%25".toList
        else if c = '\r' then "%0D".toList
        else if c = '\n' then "%0A".toList
        else [c]) ++ githubEscape cs

/-- The path that is printed. -/
def pathOf (diag : Diagnostic) (sources : SourceManager) : Text :=
  match sources.get diag.primarySpan.source with
  | some file => file.path
  | none => "<unknown>".toList

/-- The position that is printed. -/
def locOf (diag : Diagnostic) (sources : SourceManager) : LineCol :=
  sources.resolve diag.primarySpan.source diag.primarySpan.bytes.lo

/-- Severity to workflow command. -/
def commandOf : Severity → Text
  | .error => "error".toList
  | .note => "notice".toList
  | .warning => "warning".toList

/-- `render_github_annotation`. -/
def renderGithubAnnotationLine (diag : Diagnostic) (sources : SourceManager) : Text :=
  "::".toList ++ commandOf diag.severity ++ " file=".toList ++ githubEscape (pathOf diag sources)
    ++ ",line=".toList ++ Nat.toDigits 10 (locOf diag sources).line
    ++ ",col=".toList ++ Nat.toDigits 10 (locOf diag sources).column
    ++ ",title=".toList ++ githubEscape diag.code
    ++ "::".toList ++ githubEscape diag.message
    ++ " [".toList ++ diag.code ++ "]\n".toList

/-! ## §2. What a reader should recover. -/

/-- The properties of the annotation. -/
def propertiesOf (diag : Diagnostic) (sources : SourceManager) : List (Text × Text) :=
  [("file".toList, pathOf diag sources),
   ("line".toList, Nat.toDigits 10 (locOf diag sources).line),
   ("col".toList, Nat.toDigits 10 (locOf diag sources).column),
   ("title".toList, diag.code)]

/-- File, line, column and title, and the message with the rule code in
brackets. -/
def annotationOf (diag : Diagnostic) (sources : SourceManager) : Command :=
  ⟨commandOf diag.severity, propertiesOf diag sources,
    diag.message ++ " [".toList ++ diag.code ++ "]".toList⟩

/-- The command that a reader of the build log finds: the first line. -/
def readAnnotation (out : Text) : Option Command := decode (out.takeWhile (· ≠ '\n'))

/-- Neither a comma nor a `::`. -/
def PathClean (path : Text) : Prop := ',' ∉ path ∧ ¬ "::".toList <:+: path

/-- No comma, no `::` (nor a last colon that makes one with what follows),
no line feed, and nothing that reads as a percent code of data. -/
def CodeClean (code : Text) : Prop :=
  ',' ∉ code ∧ ¬ "::".toList <:+: code ++ ":".toList ∧ '\n' ∉ code ∧ NoCode dataCode code

/-! ## §3. The printed line. -/

/-- The emitter's encoding is the one for data. -/
theorem githubEscape_eq (s : Text) : githubEscape s = escape s := by
  induction s with
  | nil => rfl
  | cons c s ih => rw [githubEscape, ih, escape_cons, escapeChar]; rfl

theorem digit_plain {c : Char} {n : Nat} (h : c ∈ Nat.toDigits 10 n) :
    Plain c ∧ c ≠ ',' ∧ c ≠ ':' := by
  have hdigit : c.isDigit = true := Nat.isDigit_of_mem_toDigits (by omega) (by omega) h
  refine ⟨⟨?_, ?_, ?_⟩, ?_, ?_⟩ <;>
  · rintro rfl
    exact absurd hdigit (by decide)

theorem escape_digits (n : Nat) : escape (Nat.toDigits 10 n) = Nat.toDigits 10 n :=
  escape_plain fun _ hc => (digit_plain hc).1

theorem commandOf_clean (s : Severity) : ∀ c ∈ commandOf s, Plain c ∧ c ≠ ' ' ∧ c ≠ ':' := by
  cases s <;> exact List.all_iff_forall_prop.mp (by decide)

/-- The names need no encoding. -/
theorem namesClean (diag : Diagnostic) (sources : SourceManager) :
    NamesClean (commandOf diag.severity) (propertiesOf diag sources) := by
  refine ⟨commandOf_clean _, ?_⟩
  intro p hp
  unfold propertiesOf at hp
  simp only [List.mem_cons, List.not_mem_nil, or_false] at hp
  rcases hp with rfl | rfl | rfl | rfl
  · exact List.all_iff_forall_prop.mp (by decide : "file".toList.all _ = true)
  · exact List.all_iff_forall_prop.mp (by decide : "line".toList.all _ = true)
  · exact List.all_iff_forall_prop.mp (by decide : "col".toList.all _ = true)
  · exact List.all_iff_forall_prop.mp (by decide : "title".toList.all _ = true)

/-- The properties, written out. -/
theorem body_propertiesOf (diag : Diagnostic) (sources : SourceManager) :
    body (propertiesOf diag sources)
      = "file".toList ++ '=' :: (pathOf diag sources ++ ',' :: ("line".toList
        ++ '=' :: (Nat.toDigits 10 (locOf diag sources).line ++ ',' :: ("col".toList
        ++ '=' :: (Nat.toDigits 10 (locOf diag sources).column ++ ',' :: ("title".toList
        ++ '=' :: diag.code)))))) := by
  simp [body, propertiesOf, written, List.intercalate_cons_cons, List.intercalate_singleton]

/-- **The printed text is an encoded command**, followed by the rule code in
brackets as it is. -/
theorem render_eq (diag : Diagnostic) (sources : SourceManager) :
    renderGithubAnnotationLine diag sources
      = ':' :: ':' :: (escape (commandOf diag.severity
          ++ ' ' :: (body (propertiesOf diag sources) ++ ':' :: ':' :: diag.message))
          ++ (" [".toList ++ diag.code ++ "]\n".toList)) := by
  have hcommand : escape (commandOf diag.severity) = commandOf diag.severity :=
    escape_plain fun c hc => (commandOf_clean _ c hc).1
  have hplain : ∀ {c : Char} (s : Text), Plain c → escape (c :: s) = c :: escape s :=
    fun s hc => escape_cons_plain hc s
  have h1 : escape "file".toList = "file".toList :=
    escape_plain (List.all_iff_forall_prop.mp (by decide))
  have h2 : escape "line".toList = "line".toList :=
    escape_plain (List.all_iff_forall_prop.mp (by decide))
  have h3 : escape "col".toList = "col".toList :=
    escape_plain (List.all_iff_forall_prop.mp (by decide))
  have h4 : escape "title".toList = "title".toList :=
    escape_plain (List.all_iff_forall_prop.mp (by decide))
  unfold renderGithubAnnotationLine
  simp only [githubEscape_eq, body_propertiesOf, escape_append, hplain _ (show Plain ' ' by decide),
    hplain _ (show Plain '=' by decide), hplain _ (show Plain ',' by decide),
    hplain _ (show Plain ':' by decide), hcommand, h1, h2, h3, h4, escape_digits]
  simp

/-- The line that is read: all of it, or up to a line feed in the brackets. -/
theorem line_render (diag : Diagnostic) (sources : SourceManager) :
    (renderGithubAnnotationLine diag sources).takeWhile (· ≠ '\n')
      = ':' :: ':' :: (escape (commandOf diag.severity
          ++ ' ' :: (body (propertiesOf diag sources) ++ ':' :: ':' :: diag.message))
          ++ (" [".toList ++ (diag.code ++ "]\n".toList).takeWhile (· ≠ '\n'))) := by
  have hfree : ∀ c ∈ ':' :: ':' :: escape (commandOf diag.severity
      ++ ' ' :: (body (propertiesOf diag sources) ++ ':' :: ':' :: diag.message)),
      decide (c ≠ '\n') = true := by
    intro c hc
    refine decide_eq_true fun hnl => ?_
    rw [hnl] at hc
    simp only [List.mem_cons] at hc
    rcases hc with hc | hc | hc
    · cases hc
    · cases hc
    · exact newline_not_mem_escape _ hc
  have hbracket : ∀ c ∈ " [".toList, decide (c ≠ '\n') = true :=
    List.all_iff_forall_prop.mp (by decide)
  rw [render_eq, ← List.cons_append, ← List.cons_append, List.takeWhile_append_of_pos hfree,
    List.append_assoc, List.takeWhile_append_of_pos hbracket]
  rfl

/-! ## §4. Exactly when the annotation comes back. -/

/-- The values of the properties hold no comma. -/
theorem commaFree_iff (diag : Diagnostic) (sources : SourceManager) :
    (∀ p ∈ propertiesOf diag sources, ',' ∉ p.2)
      ↔ ',' ∉ pathOf diag sources ∧ ',' ∉ diag.code := by
  have hdigits : ∀ n, ',' ∉ Nat.toDigits 10 n := fun n h => (digit_plain h).2.1 rfl
  unfold propertiesOf
  simp [hdigits]

/-- The first `::` is the one after the title. -/
theorem colonFree_iff (diag : Diagnostic) (sources : SourceManager) :
    ¬ [':', ':'] <:+: body (propertiesOf diag sources) ++ [':']
      ↔ ¬ [':', ':'] <:+: pathOf diag sources ∧ ¬ [':', ':'] <:+: diag.code ++ [':'] := by
  have hdigits : ∀ n, ¬ [':', ':'] <:+: Nat.toDigits 10 n :=
    fun n => not_infix_colons fun h => (digit_plain h).2.2 rfl
  have hkeys : ¬ [':', ':'] <:+: "file".toList ∧ ¬ [':', ':'] <:+: "line".toList
      ∧ ¬ [':', ':'] <:+: "col".toList ∧ ¬ [':', ':'] <:+: "title".toList :=
    ⟨not_infix_colons (by decide), not_infix_colons (by decide), not_infix_colons (by decide),
      not_infix_colons (by decide)⟩
  obtain ⟨h1, h2, h3, h4⟩ := hkeys
  rw [body_propertiesOf]
  simp only [List.append_assoc, List.cons_append]
  simp only [colons_infix_append (show '=' ≠ ':' by decide),
    colons_infix_append (show ',' ≠ ':' by decide), h1, h2, h3, h4, hdigits, false_or, not_or]

/-- What follows the message comes back if the brackets hold no line feed and
no code. -/
theorem brackets_iff (code : Text) :
    unescape dataCode (" [".toList ++ (code ++ "]\n".toList).takeWhile (· ≠ '\n'))
        = " [".toList ++ code ++ "]".toList
      ↔ '\n' ∉ code ∧ NoCode dataCode code := by
  have hskip : ∀ s : Text, unescape dataCode (" [".toList ++ s)
      = " [".toList ++ unescape dataCode s := by
    intro s
    show unescape dataCode (' ' :: '[' :: s) = ' ' :: '[' :: unescape dataCode s
    rw [unescape_cons_ne (by decide), unescape_cons_ne (by decide)]
  have hclose : ∀ a, dataCode a ']' = none := by
    intro a
    simp [dataCode]
  rw [hskip, List.append_assoc, List.append_cancel_left_eq]
  by_cases hnl : '\n' ∈ code
  · -- the line ends inside the brackets, before the `]`
    have hshort : ((code ++ "]\n".toList).takeWhile (· ≠ '\n')).length ≤ code.length := by
      rw [List.takeWhile_append]
      split
      next hall =>
        have heq : code.takeWhile (· ≠ '\n') = code :=
          (List.takeWhile_prefix _).eq_of_length hall
        rw [← heq] at hnl
        exact absurd (List.mem_takeWhile_imp hnl) (by decide)
      next => exact (List.takeWhile_prefix _).length_le
    constructor
    · intro h
      have hle := length_unescape_le dataCode ((code ++ "]\n".toList).takeWhile (· ≠ '\n'))
      rw [h, List.length_append] at hle
      simp at hle hshort
      omega
    · intro h
      exact absurd hnl h.1
  · have hline : (code ++ "]\n".toList).takeWhile (· ≠ '\n') = code ++ "]".toList := by
      have hall : ∀ c ∈ code, decide (c ≠ '\n') = true :=
        fun c hc => decide_eq_true fun h => hnl (h ▸ hc)
      rw [List.takeWhile_append_of_pos hall]
      rfl
    rw [hline, unescape_eq_self_iff]
    show NoCode dataCode (code ++ [']']) ↔ _
    rw [noCode_concat hclose]
    exact ⟨fun h => ⟨hnl, h⟩, fun h => h.2⟩

/-- **The annotation comes back exactly, for every diagnostic, IF AND ONLY IF
the path is clean of property separators and the rule code is clean of
separators, line feeds and percent codes.** -/
theorem readAnnotation_iff (diag : Diagnostic) (sources : SourceManager) :
    readAnnotation (renderGithubAnnotationLine diag sources) = some (annotationOf diag sources)
      ↔ PathClean (pathOf diag sources) ∧ CodeClean diag.code := by
  have hdata : diag.message ++ unescape dataCode
        (" [".toList ++ (diag.code ++ "]\n".toList).takeWhile (· ≠ '\n'))
        = diag.message ++ " [".toList ++ diag.code ++ "]".toList
      ↔ '\n' ∉ diag.code ∧ NoCode dataCode diag.code := by
    rw [← brackets_iff, List.append_assoc, List.append_assoc, List.append_assoc,
      List.append_cancel_left_eq]
  unfold readAnnotation
  rw [line_render, annotationOf, decode_escaped_iff (namesClean diag sources), hdata, commaFree_iff, colonFree_iff]
  unfold PathClean CodeClean
  show _ ↔ (',' ∉ _ ∧ ¬ [':', ':'] <:+: _) ∧ ',' ∉ _ ∧ ¬ [':', ':'] <:+: _ ++ [':'] ∧ _
  tauto

/-! ## §5. The failing input. -/

/-- The notice for a function without a control-flow graph. -/
def cfgSkipNotice : Diagnostic :=
  ⟨"clippy::cfg-skip".toList, .note, ⟨⟨1⟩, ⟨0, 1⟩⟩, "skipped".toList, []⟩

/-- A source manager with one file. -/
def oneFile : SourceManager := [⟨"a.hlsl".toList, "float".toList⟩]

/-- **The program's own notices do not come back**: the title ends at the
`::` of the rule code, and the rest of the code becomes the message. -/
theorem cfgSkipNotice_misread :
    renderGithubAnnotationLine cfgSkipNotice oneFile
        = ("::notice file=a.hlsl,line=1,col=1,title=clippy::cfg-skip::skipped "
            ++ "[clippy::cfg-skip]\n").toList
      ∧ readAnnotation (renderGithubAnnotationLine cfgSkipNotice oneFile)
        = some ⟨"notice".toList,
            [("file".toList, "a.hlsl".toList), ("line".toList, "1".toList),
             ("col".toList, "1".toList), ("title".toList, "clippy".toList)],
            "cfg-skip::skipped [clippy::cfg-skip]".toList⟩
      ∧ readAnnotation (renderGithubAnnotationLine cfgSkipNotice oneFile)
        ≠ some (annotationOf cfgSkipNotice oneFile) := by
  decide

end ShaderClippy.Cli
