/-
  ShaderClippy.Cli.JsonOutput

  **THE OUTPUT WITH `--format=json`** (`main.cpp`).

  The command line program prints one array over all its files: it opens the
  bracket, prints every diagnostic as it comes, and remembers whether a comma
  is due. A file that cannot be linted prints nothing. An exception that leaves
  `run_lint_one` is caught in `main`, behind the loop: then the bracket is never
  closed.

  Short of that, what it prints is read back as the array of all diagnostics in
  order, every string byte by byte (`json_output_array_iff`). The reader is one of
  bytes; as UTF-8 the output is valid exactly if the strings in it are.
-/
import ShaderClippy.Cli.GithubAnnotation
import ShaderClippy.Lib.JsonText
import ShaderClippy.Lsp.Json

namespace ShaderClippy.Cli

open SourceFile (LineCol lineCol)
open JsonText (Value)

/-! ## §1. The program. -/

/-- `severity_label`. -/
def severityLabel : Severity → Text
  | .error => "error".toList
  | .warning => "warning".toList
  | .note => "note".toList

def kHex : Text := "0123456789abcdef".toList

/-- The `switch` of `json_escape`. -/
def jsonEscapeChar (c : Char) : Text :=
  if c = '"' then ['\\', '"']
  else if c = '\\' then ['\\', '\\']
  else if c = '\x08' then ['\\', 'b']
  else if c = '\x0c' then ['\\', 'f']
  else if c = '\n' then ['\\', 'n']
  else if c = '\r' then ['\\', 'r']
  else if c = '\t' then ['\\', 't']
  else if c.toNat < 0x20 then
    "\\u00".toList ++ [kHex.getD ((c.toNat >>> 4) &&& 0x0F) '0', kHex.getD (c.toNat &&& 0x0F) '0']
  else [c]

/-- `json_escape`. -/
def jsonEscape (s : Text) : Text := "\"".toList ++ s.flatMap jsonEscapeChar ++ "\"".toList

/-- `render_json_diagnostic`. -/
def renderJsonDiagnostic (diag : Diagnostic) (sources : SourceManager) : Text :=
  "\x7b\"file\":".toList ++ jsonEscape (pathOf diag sources)
    ++ ",\"line\":".toList ++ Nat.toDigits 10 (locOf diag sources).line
    ++ ",\"column\":".toList ++ Nat.toDigits 10 (locOf diag sources).column
    ++ ",\"byte_offset\":".toList ++ Nat.toDigits 10 diag.primarySpan.bytes.lo
    ++ ",\"byte_end\":".toList ++ Nat.toDigits 10 diag.primarySpan.bytes.hi
    ++ ",\"severity\":".toList ++ jsonEscape (severityLabel diag.severity)
    ++ ",\"rule\":".toList ++ jsonEscape diag.code
    ++ ",\"message\":".toList ++ jsonEscape diag.message
    ++ ",\"machine_applicable_fix\":".toList
    ++ (if diag.fixes.any fun f => f.machineApplicable then "true".toList else "false".toList)
    ++ "\x7d".toList

/-- A file that was linted: what `lint` returned, with the files it speaks of. -/
structure Linted where
  sources : SourceManager
  diagnostics : List Diagnostic

/-- One path of the command line. Nothing is linted if `run_lint_one` gives up
before: no such file, not readable, an error in its configuration. An exception
leaves it where the file system has no answer for `exists`, or for `is_empty` behind
the diagnostics. -/
structure FileRun where
  linted : Option Linted
  threw : Bool

/-- What has been printed, and `json_first_seen`. -/
structure Printer where
  firstSeen : Bool
  out : Text

/-- One turn of the loop over the diagnostics of a file. -/
def printDiagnostic (sources : SourceManager) (p : Printer) (diag : Diagnostic) : Printer :=
  ⟨true, p.out ++ ((if p.firstSeen then [','] else []) ++ renderJsonDiagnostic diag sources)⟩

/-- `run_lint_one`. -/
def runLintOne (p : Printer) (run : FileRun) : Printer :=
  match run.linted with
  | none => p
  | some linted => linted.diagnostics.foldl (printDiagnostic linted.sources) p

/-- The loop of `run_lint`, and whether an exception ended it. -/
def runFiles (p : Printer) : List FileRun → Printer × Bool
  | [] => (p, false)
  | run :: runs => if run.threw then (runLintOne p run, true) else runFiles (runLintOne p run) runs

/-- What `run_lint` prints; nothing if there is no path. -/
def runLint (runs : List FileRun) : Option Text :=
  if runs = [] then none
  else
    let r := runFiles ⟨false, []⟩ runs
    some ('[' :: (r.1.out ++ if r.2 then [] else "]\n".toList))

/-! ## §2. What a reader should recover. -/

/-- A member with a name. -/
def field (name : String) (v : Value) : Text × Value := (name.toList, v)

/-- A number in decimal. -/
def natural (n : Nat) : Value := .number (Nat.toDigits 10 n)

/-- The diagnostic as a JSON object. -/
def diagnosticJson (diag : Diagnostic) (sources : SourceManager) : Value :=
  .object
    [field "file" (.string (pathOf diag sources)),
     field "line" (natural (locOf diag sources).line),
     field "column" (natural (locOf diag sources).column),
     field "byte_offset" (natural diag.primarySpan.bytes.lo),
     field "byte_end" (natural diag.primarySpan.bytes.hi),
     field "severity" (.string (severityLabel diag.severity)),
     field "rule" (.string diag.code),
     field "message" (.string diag.message),
     field "machine_applicable_fix" (.boolean (diag.fixes.any fun f => f.machineApplicable))]

/-- The diagnostics of a run, each with the files it speaks of. -/
def FileRun.reported (run : FileRun) : List (Diagnostic × SourceManager) :=
  match run.linted with
  | none => []
  | some linted => linted.diagnostics.map fun diag => (diag, linted.sources)

/-- All diagnostics, file after file. -/
def reported (runs : List FileRun) : List (Diagnostic × SourceManager) := runs.flatMap FileRun.reported

/-- The strings of a diagnostic that are not the program's own. -/
def stringsOf (diag : Diagnostic) (sources : SourceManager) : List Text :=
  [pathOf diag sources, diag.code, diag.message]

/-! ## §3. The emitter writes JSON. -/

theorem kHex_digits : ∀ n < 0x20, [kHex.getD ((n >>> 4) &&& 0x0F) '0', kHex.getD (n &&& 0x0F) '0']
    = [JsonText.hexDigit (n / 16), JsonText.hexDigit (n % 16)] := by decide

theorem jsonEscapeChar_eq (c : Char) : jsonEscapeChar c = JsonText.escapeChar c := by
  unfold jsonEscapeChar JsonText.escapeChar
  by_cases hcontrol : c.toNat < 0x20
  · rw [if_pos hcontrol, if_pos hcontrol, kHex_digits _ hcontrol]
    rfl
  · rw [if_neg hcontrol, if_neg hcontrol]

/-- The escaper is the one that writes what must be escaped. -/
theorem jsonEscape_eq (s : Text) : jsonEscape s = JsonText.writeString s := by
  -- the two escapers agree on every character
  have hchars : s.flatMap jsonEscapeChar = JsonText.escape s := by
    unfold JsonText.escape
    rw [show jsonEscapeChar = JsonText.escapeChar from funext jsonEscapeChar_eq]
  unfold jsonEscape
  rw [hchars]
  rfl

/-- A name without anything to escape. -/
theorem writeString_name {name : String} (h : JsonText.escape name.toList = name.toList) :
    JsonText.writeString name.toList = '"' :: (name.toList ++ ['"']) := by
  unfold JsonText.writeString
  rw [h]

/-- **One diagnostic is one object.** -/
theorem renderJsonDiagnostic_eq (diag : Diagnostic) (sources : SourceManager) :
    renderJsonDiagnostic diag sources = JsonText.write (diagnosticJson diag sources) := by
  have hboolean : ∀ b : Bool,
      JsonText.write (.boolean b) = if b then "true".toList else "false".toList := by
    intro b
    cases b <;> rw [JsonText.write] <;> rfl
  unfold renderJsonDiagnostic diagnosticJson
  simp only [JsonText.write, JsonText.writeMembers, field, natural, hboolean, jsonEscape_eq]
  rw [writeString_name (show JsonText.escape "file".toList = "file".toList by decide),
    writeString_name (show JsonText.escape "line".toList = "line".toList by decide),
    writeString_name (show JsonText.escape "column".toList = "column".toList by decide),
    writeString_name (show JsonText.escape "byte_offset".toList = "byte_offset".toList by decide),
    writeString_name (show JsonText.escape "byte_end".toList = "byte_end".toList by decide),
    writeString_name (show JsonText.escape "severity".toList = "severity".toList by decide),
    writeString_name (show JsonText.escape "rule".toList = "rule".toList by decide),
    writeString_name (show JsonText.escape "message".toList = "message".toList by decide),
    writeString_name (show JsonText.escape "machine_applicable_fix".toList
      = "machine_applicable_fix".toList by decide)]
  -- the rest is about the names only
  generalize (if (diag.fixes.any fun f => f.machineApplicable) then "true".toList
    else "false".toList) = flag
  simp

/-! ## §4. The array. -/

theorem writable_field {name : String} {v : Value} {ms : List (Text × Value)}
    (hv : JsonText.Writable v) (hms : JsonText.WritableMembers ms) :
    JsonText.WritableMembers (field name v :: ms) := by
  rw [JsonText.WritableMembers]
  exact ⟨hv, hms⟩

theorem writable_string (s : Text) : JsonText.Writable (.string s) := by
  rw [JsonText.Writable]
  trivial

theorem writable_natural (n : Nat) : JsonText.Writable (natural n) := by
  unfold natural
  rw [JsonText.Writable]
  exact ⟨n, rfl⟩

theorem writable_diagnosticJson (diag : Diagnostic) (sources : SourceManager) :
    JsonText.Writable (diagnosticJson diag sources) := by
  have hboolean : ∀ b, JsonText.WritableMembers
      [field "machine_applicable_fix" (.boolean b)] := by
    intro b
    refine writable_field ?_ ?_
    · rw [JsonText.Writable]
      trivial
    · rw [JsonText.WritableMembers]
      trivial
  unfold diagnosticJson
  rw [JsonText.Writable]
  refine writable_field (writable_string _) (writable_field (writable_natural _) ?_)
  refine writable_field (writable_natural _) (writable_field (writable_natural _) ?_)
  refine writable_field (writable_natural _) (writable_field (writable_string _) ?_)
  exact writable_field (writable_string _) (writable_field (writable_string _) (hboolean _))

/-- The texts of the diagnostics. -/
def texts (ds : List (Diagnostic × SourceManager)) : List Text :=
  ds.map fun d => renderJsonDiagnostic d.1 d.2

/-- What is printed behind `ds`: the texts with commas between them. -/
def printed (ds : List (Diagnostic × SourceManager)) : Printer :=
  ⟨!ds.isEmpty, Lines.join ',' (texts ds)⟩

/-- One diagnostic more. -/
theorem printDiagnostic_printed (ds : List (Diagnostic × SourceManager)) (diag : Diagnostic)
    (sources : SourceManager) :
    printDiagnostic sources (printed ds) diag = printed (ds ++ [(diag, sources)]) := by
  unfold printDiagnostic printed texts
  -- what is rendered does not matter
  generalize renderJsonDiagnostic = render
  -- the comma stands in front of every diagnostic but the first
  cases ds with
  | nil => rfl
  | cons d ds =>
      have hjoin : Lines.join ',' (((d :: ds) ++ [(diag, sources)]).map fun d => render d.1 d.2)
          = Lines.join ',' ((d :: ds).map fun d => render d.1 d.2) ++ ',' :: render diag sources := by
        rw [List.map_append]
        exact Lines.join_append_break ',' nofun nofun
      rw [hjoin]
      rfl

/-- The diagnostics of a file. -/
theorem foldl_printDiagnostic (sources : SourceManager) (diags : List Diagnostic) :
    ∀ ds, diags.foldl (printDiagnostic sources) (printed ds)
      = printed (ds ++ diags.map fun diag => (diag, sources)) := by
  induction diags with
  | nil =>
      intro ds
      rw [List.map_nil, List.append_nil]
      rfl
  | cons diag diags ih =>
      intro ds
      rw [List.foldl_cons, printDiagnostic_printed, ih, List.append_assoc]
      rfl

/-- A file that was not linted reports nothing. -/
theorem runLintOne_printed (ds : List (Diagnostic × SourceManager)) (run : FileRun) :
    runLintOne (printed ds) run = printed (ds ++ run.reported) := by
  obtain ⟨linted, _⟩ := run
  cases linted with
  | none => exact congrArg printed (List.append_nil ds).symm
  | some linted => exact foldl_printDiagnostic linted.sources linted.diagnostics ds

/-- The files up to the one that an exception leaves. -/
def reached : List FileRun → List FileRun
  | [] => []
  | run :: runs => if run.threw then [run] else run :: reached runs

theorem reached_eq {runs : List FileRun} (h : ∀ run ∈ runs, run.threw = false) : reached runs = runs := by
  induction runs with
  | nil => rfl
  | cons run runs ih =>
      rw [reached, h run List.mem_cons_self, ih fun r hr => h r (List.mem_cons_of_mem _ hr)]
      rfl

/-- **All files**: a file without diagnostics leaves no trace. -/
theorem runFiles_printed (runs : List FileRun) :
    ∀ ds, runFiles (printed ds) runs = (printed (ds ++ reported (reached runs)), runs.any FileRun.threw) := by
  induction runs with
  | nil =>
      intro ds
      show (printed ds, false) = (printed (ds ++ []), false)
      rw [List.append_nil]
  | cons run runs ih =>
      intro ds
      rw [runFiles, reached, List.any_cons, runLintOne_printed]
      cases run.threw with
      | true =>
          show (printed (ds ++ run.reported), true) = (printed (ds ++ (run.reported ++ [])), true)
          rw [List.append_nil]
      | false =>
          show runFiles (printed (ds ++ run.reported)) runs = _
          rw [ih, List.append_assoc]
          rfl

/-- The items of an array, with the bracket behind them. -/
theorem writeItems_eq (vs : List Value) :
    JsonText.writeItems vs = Lines.join ',' (vs.map JsonText.write) ++ [']'] := by
  induction vs with
  | nil =>
      rw [JsonText.writeItems]
      rfl
  | cons v vs ih =>
      cases vs with
      | nil =>
          rw [JsonText.writeItems]
          rfl
      | cons w ws =>
          rw [JsonText.writeItems, ih]
          · show _ = (JsonText.write v ++ ',' :: Lines.join ',' ((w :: ws).map JsonText.write)) ++ [']']
            rw [List.append_assoc]
            rfl
          · rintro ⟨⟩

/-- What is printed: the bracket is opened in front of the texts and, unless an
exception came between, closed behind them. -/
theorem runLint_text {runs : List FileRun} (h : runs ≠ []) :
    runLint runs = some ('[' :: (Lines.join ',' (texts (reported (reached runs)))
      ++ if runs.any FileRun.threw then [] else "]\n".toList)) := by
  -- nothing is printed before the first file
  have hprinted : runFiles ⟨false, []⟩ runs
      = (printed (reported (reached runs)), runs.any FileRun.threw) := runFiles_printed runs []
  unfold runLint
  rw [if_neg h, hprinted]
  rfl

/-- The texts are the objects, written one behind the other. -/
theorem writeItems_texts (ds : List (Diagnostic × SourceManager)) :
    JsonText.writeItems (ds.map fun d => diagnosticJson d.1 d.2) = Lines.join ',' (texts ds) ++ [']'] := by
  have htexts : (ds.map fun d => diagnosticJson d.1 d.2).map JsonText.write = texts ds := by
    rw [List.map_map]
    exact List.map_congr_left fun d _ => (renderJsonDiagnostic_eq d.1 d.2).symm
  rw [writeItems_eq, htexts]

/-- **The output is one array**, and a line feed. -/
theorem printed_array (ds : List (Diagnostic × SourceManager)) :
    '[' :: (Lines.join ',' (texts ds) ++ "]\n".toList)
      = JsonText.write (.array (ds.map fun d => diagnosticJson d.1 d.2)) ++ ['\n'] := by
  rw [JsonText.write, writeItems_texts, List.cons_append, List.append_assoc]
  rfl

theorem writable_array (ds : List (Diagnostic × SourceManager)) :
    JsonText.Writable (.array (ds.map fun d => diagnosticJson d.1 d.2)) := by
  rw [JsonText.Writable]
  induction ds with
  | nil =>
      rw [List.map_nil, JsonText.WritableItems]
      trivial
  | cons d ds ih =>
      rw [List.map_cons, JsonText.WritableItems]
      exact ⟨writable_diagnosticJson d.1 d.2, ih⟩

/-! ## §5. The output as UTF-8. -/

open Lsp (validUtf8 validUtf8From continuations ascii)

/-- The end of the text, or a one-byte character. -/
def AsciiFirst (t : Text) : Prop := ∀ c, t.head? = some c → c.toNat < 0x80

theorem asciiFirst_cons {c : Char} (h : c.toNat < 0x80) (t : Text) : AsciiFirst (c :: t) := by
  intro d hd
  rw [← Option.some.inj hd]
  exact h

theorem validUtf8From_start (c : Char) (t : Text) :
    validUtf8From [] (c :: t) = (continuations c.toNat).any (validUtf8From · t) := by
  rw [validUtf8From]
  cases continuations c.toNat <;> rfl

/-- A byte that must follow is no one-byte character. -/
def HighBounds (pending : List (Nat × Nat)) : Prop := ∀ b ∈ pending, 0x80 ≤ b.1

theorem continuations_high {c : Nat} {pending : List (Nat × Nat)} (h : continuations c = some pending) :
    HighBounds pending := by
  unfold continuations at h
  split_ifs at h
  all_goals
    rw [← Option.some.inj h]
    intro b hb
    simp only [List.mem_cons, List.not_mem_nil, or_false] at hb
  all_goals
    try obtain rfl | rfl | rfl := hb
  all_goals
    simp

theorem highBounds_nil : HighBounds [] := fun _ h => absurd h List.not_mem_nil

/-- A one-byte character is not what a sequence goes on with. -/
theorem validUtf8From_ascii {pending : List (Nat × Nat)} (hhigh : HighBounds pending) {c : Char}
    (hc : c.toNat < 0x80) (t : Text) :
    validUtf8From pending (c :: t) = (pending.isEmpty && validUtf8 t) := by
  cases pending with
  | nil =>
      have hnone : continuations c.toNat = some [] := if_pos hc
      rw [validUtf8From_start, hnone]
      rfl
  | cons b bs =>
      -- a continuation byte is at least 0x80
      have hlow := hhigh b List.mem_cons_self
      have hno : decide (b.1 ≤ c.toNat) = false := decide_eq_false (by omega)
      show (decide (b.1 ≤ c.toNat) && decide (c.toNat ≤ b.2) && validUtf8From bs t) = _
      rw [hno]
      rfl

/-- **A text in front of a one-byte character is judged for itself.** -/
theorem validUtf8From_append (s : Text) {t : Text} (ht : AsciiFirst t) :
    ∀ {pending}, HighBounds pending →
      validUtf8From pending (s ++ t) = (validUtf8From pending s && validUtf8 t) := by
  induction s with
  | nil =>
      intro pending hhigh
      -- at the end nothing may be pending
      have hempty : validUtf8From pending [] = pending.isEmpty := by cases pending <;> rfl
      rw [hempty]
      cases t with
      | nil =>
          show validUtf8From pending [] = (pending.isEmpty && true)
          rw [hempty, Bool.and_true]
      | cons c cs =>
          have hc : c.toNat < 0x80 := ht c rfl
          have hcs : validUtf8 (c :: cs) = validUtf8 cs := validUtf8From_ascii highBounds_nil hc cs
          show validUtf8From pending (c :: cs) = _
          rw [validUtf8From_ascii hhigh hc, hcs]
  | cons c cs ih =>
      intro pending hhigh
      cases pending with
      | nil =>
          rw [List.cons_append, validUtf8From_start, validUtf8From_start]
          cases hnext : continuations c.toNat with
          | none => rfl
          | some next => exact ih (continuations_high hnext)
      | cons b bs =>
          show (decide (b.1 ≤ c.toNat) && decide (c.toNat ≤ b.2) && validUtf8From bs (cs ++ t))
            = ((decide (b.1 ≤ c.toNat) && decide (c.toNat ≤ b.2) && validUtf8From bs cs) && validUtf8 t)
          rw [ih fun d hd => hhigh d (List.mem_cons_of_mem b hd), Bool.and_assoc (_ && _)]

theorem validUtf8_append (s : Text) {t : Text} (ht : AsciiFirst t) :
    validUtf8 (s ++ t) = (validUtf8 s && validUtf8 t) := validUtf8From_append s ht highBounds_nil

/-- What is written for a one-byte character is of such characters. -/
theorem escapeChar_ascii {c : Char} (hc : c.toNat < 0x80) :
    ascii (JsonText.escapeChar c) = true ∧ JsonText.escapeChar c ≠ [] := by
  -- there are 128 of them
  have hall : ∀ n < 0x80, ascii (JsonText.escapeChar (Char.ofNat n)) = true
      ∧ JsonText.escapeChar (Char.ofNat n) ≠ [] := by
    decide +kernel
  have hchar := hall c.toNat hc
  rwa [Char.ofNat_toNat] at hchar

theorem escapeChar_high {c : Char} (hc : ¬ c.toNat < 0x80) : JsonText.escapeChar c = [c] := by
  have hne : ∀ d : Char, d.toNat < 0x80 → c ≠ d := by
    intro d hd hcd
    rw [hcd] at hc
    exact hc hd
  unfold JsonText.escapeChar
  rw [if_neg (hne _ (by decide)), if_neg (hne _ (by decide)), if_neg (hne _ (by decide)),
    if_neg (hne _ (by decide)), if_neg (hne _ (by decide)), if_neg (hne _ (by decide)),
    if_neg (hne _ (by decide)), if_neg (by omega)]

/-- **Escaping keeps what is UTF-8 and what is not.** -/
theorem validUtf8From_escape (s : Text) : ∀ {pending}, HighBounds pending →
    validUtf8From pending (JsonText.escape s) = validUtf8From pending s := by
  induction s with
  | nil => exact fun _ => rfl
  | cons c cs ih =>
      intro pending hhigh
      show validUtf8From pending (JsonText.escapeChar c ++ JsonText.escape cs) = _
      by_cases hc : c.toNat < 0x80
      · obtain ⟨hascii, hne⟩ := escapeChar_ascii hc
        -- an escape sequence is of one-byte characters, as the character is
        obtain ⟨e, es, hcons⟩ := List.exists_cons_of_ne_nil hne
        rw [hcons] at hascii ⊢
        rw [ascii, List.all_cons, Bool.and_eq_true, decide_eq_true_iff] at hascii
        have hrest : validUtf8 (es ++ JsonText.escape cs) = validUtf8 cs := by
          rw [Lsp.validUtf8_ascii_append hascii.2]
          exact ih highBounds_nil
        rw [List.cons_append, validUtf8From_ascii hhigh hascii.1, validUtf8From_ascii hhigh hc, hrest]
      · -- any other character is written as it is
        rw [escapeChar_high hc]
        show validUtf8From pending (c :: JsonText.escape cs) = _
        cases pending with
        | nil =>
            rw [validUtf8From_start, validUtf8From_start]
            cases hnext : continuations c.toNat with
            | none => rfl
            | some next => exact ih (continuations_high hnext)
        | cons b bs =>
            show (_ && validUtf8From bs (JsonText.escape cs)) = (_ && validUtf8From bs cs)
            rw [ih fun d hd => hhigh d (List.mem_cons_of_mem b hd)]

theorem validUtf8_jsonEscape (s : Text) : validUtf8 (jsonEscape s) = validUtf8 s := by
  have hescape : validUtf8 (JsonText.escape s) = validUtf8 s := validUtf8From_escape s highBounds_nil
  rw [jsonEscape_eq]
  show validUtf8 (['"'] ++ (JsonText.escape s ++ ['"'])) = _
  rw [Lsp.validUtf8_ascii_append rfl, validUtf8_append _ (asciiFirst_cons (by decide) []), hescape]
  exact Bool.and_true _

/-- One-byte characters, then a string, then a one-byte character. -/
theorem validUtf8_field {lead s t : Text} (hlead : ascii lead = true) (ht : AsciiFirst t) :
    validUtf8 (lead ++ (s ++ t)) = (validUtf8 s && validUtf8 t) := by
  rw [Lsp.validUtf8_ascii_append hlead, validUtf8_append s ht]

theorem ascii_digits (n : Nat) : ascii (Nat.toDigits 10 n) = true := by
  refine List.all_eq_true.mpr fun c hc => decide_eq_true ?_
  have hdigit : c.isDigit = true := Nat.isDigit_of_mem_toDigits (by omega) (by omega) hc
  simp only [Char.isDigit, Bool.and_eq_true, decide_eq_true_eq, UInt32.le_iff_toNat_le] at hdigit
  have hhigh : c.toNat ≤ 57 := hdigit.2
  omega

theorem ascii_append {s t : Text} (hs : ascii s = true) (ht : ascii t = true) :
    ascii (s ++ t) = true := by
  unfold ascii at hs ht ⊢
  rw [List.all_append, hs, ht]
  rfl

/-- All strings of a diagnostic are UTF-8. -/
def validStrings (d : Diagnostic × SourceManager) : Bool := (stringsOf d.1 d.2).all validUtf8

/-- The numbers of a diagnostic, as they are written. -/
def numbersText (diag : Diagnostic) (sources : SourceManager) : Text :=
  ",\"line\":".toList ++ Nat.toDigits 10 (locOf diag sources).line
    ++ ",\"column\":".toList ++ Nat.toDigits 10 (locOf diag sources).column
    ++ ",\"byte_offset\":".toList ++ Nat.toDigits 10 diag.primarySpan.bytes.lo
    ++ ",\"byte_end\":".toList ++ Nat.toDigits 10 diag.primarySpan.bytes.hi
    ++ ",\"severity\":".toList

theorem ascii_numbersText (diag : Diagnostic) (sources : SourceManager) :
    ascii (numbersText diag sources) = true := by
  have hline := ascii_append (show ascii ",\"line\":".toList = true by decide)
    (ascii_digits (locOf diag sources).line)
  have hcolumn := ascii_append (ascii_append hline (show ascii ",\"column\":".toList = true by decide))
    (ascii_digits (locOf diag sources).column)
  have hlo := ascii_append (ascii_append hcolumn
    (show ascii ",\"byte_offset\":".toList = true by decide)) (ascii_digits diag.primarySpan.bytes.lo)
  have hhi := ascii_append (ascii_append hlo
    (show ascii ",\"byte_end\":".toList = true by decide)) (ascii_digits diag.primarySpan.bytes.hi)
  exact ascii_append hhi (by decide)

/-- What follows the message. -/
def fixText (diag : Diagnostic) : Text :=
  ",\"machine_applicable_fix\":".toList
    ++ (if diag.fixes.any fun f => f.machineApplicable then "true".toList else "false".toList)
    ++ "\x7d".toList

theorem ascii_fixText (diag : Diagnostic) : ascii (fixText diag) = true := by
  unfold fixText
  split <;> decide

/-- **One diagnostic**, in front of any text. -/
theorem validUtf8_render (d : Diagnostic × SourceManager) (t : Text) :
    validUtf8 (renderJsonDiagnostic d.1 d.2 ++ t) = (validStrings d && validUtf8 t) := by
  obtain ⟨diag, sources⟩ := d
  have hlabel : validUtf8 (severityLabel diag.severity) = true := by
    cases diag.severity <;> decide
  -- ASCII text and escaped strings in turn
  have hsplit : renderJsonDiagnostic diag sources ++ t
      = "\x7b\"file\":".toList ++ (jsonEscape (pathOf diag sources)
        ++ (numbersText diag sources ++ (jsonEscape (severityLabel diag.severity)
        ++ (",\"rule\":".toList ++ (jsonEscape diag.code
        ++ (",\"message\":".toList ++ (jsonEscape diag.message ++ (fixText diag ++ t)))))))) := by
    unfold renderJsonDiagnostic numbersText fixText
    simp only [List.append_assoc]
  -- every string is followed by a comma
  have hcomma : ∀ u : Text, AsciiFirst (',' :: u) := asciiFirst_cons (by decide)
  have hnumbers : AsciiFirst (numbersText diag sources ++ (jsonEscape (severityLabel diag.severity)
      ++ (",\"rule\":".toList ++ (jsonEscape diag.code
      ++ (",\"message\":".toList ++ (jsonEscape diag.message ++ (fixText diag ++ t))))))) := hcomma _
  have hrule : AsciiFirst (",\"rule\":".toList ++ (jsonEscape diag.code
      ++ (",\"message\":".toList ++ (jsonEscape diag.message ++ (fixText diag ++ t))))) := hcomma _
  have hmessage : AsciiFirst (",\"message\":".toList
      ++ (jsonEscape diag.message ++ (fixText diag ++ t))) := hcomma _
  have hfix : AsciiFirst (fixText diag ++ t) := hcomma _
  rw [hsplit, validUtf8_field (by decide) hnumbers,
    validUtf8_field (ascii_numbersText diag sources) hrule,
    validUtf8_field (by decide) hmessage, validUtf8_field (by decide) hfix,
    Lsp.validUtf8_ascii_append (ascii_fixText diag)]
  simp only [validUtf8_jsonEscape, hlabel, validStrings, stringsOf, List.all_cons, List.all_nil,
    Bool.true_and, Bool.and_true, Bool.and_assoc]

/-- The diagnostics with commas between them. -/
theorem validUtf8_join (ds : List (Diagnostic × SourceManager)) (t : Text) :
    validUtf8 (Lines.join ',' (texts ds) ++ t) = (ds.all validStrings && validUtf8 t) := by
  induction ds with
  | nil => rfl
  | cons d ds ih =>
      cases ds with
      | nil =>
          show validUtf8 (renderJsonDiagnostic d.1 d.2 ++ t) = _
          rw [validUtf8_render, List.all_cons, List.all_nil, Bool.and_true]
      | cons e es =>
          have hcons : Lines.join ',' (texts (d :: e :: es)) ++ t
              = renderJsonDiagnostic d.1 d.2 ++ ([','] ++ (Lines.join ',' (texts (e :: es)) ++ t)) :=
            List.append_assoc ..
          rw [hcons, validUtf8_render, Lsp.validUtf8_ascii_append rfl, ih]
          exact (Bool.and_assoc ..).symm

/-! ## §6. The output. -/

/-- **The output is well formed and lossless**: with a path to lint, what is
printed is read back as one array of all diagnostics in order, and is UTF-8 exactly
if the strings in it are; every escaped string is read back as the bytes it was.
Without a path nothing is printed. -/
structure JsonLaw (runs : List FileRun) : Prop where
  silent : runLint runs = none ↔ runs = []
  array : ∀ out, runLint runs = some out →
    JsonText.parse out = some (.array ((reported runs).map fun d => diagnosticJson d.1 d.2))
  utf8 : ∀ out, runLint runs = some out →
    (validUtf8 out = true ↔ ∀ d ∈ reported runs, ∀ s ∈ stringsOf d.1 d.2, validUtf8 s = true)
  strings : ∀ s rest, ∃ body, jsonEscape s = '"' :: body
    ∧ JsonText.string (body ++ rest) = some (s, rest)

theorem runLint_eq_none {runs : List FileRun} : runLint runs = none ↔ runs = [] := by
  constructor
  · intro hnone
    -- with a path something is printed
    by_contra hne
    rw [runLint_text hne] at hnone
    exact absurd hnone nofun
  · intro hempty
    rw [hempty]
    rfl

/-- The text of an array that is closed. -/
theorem validUtf8_array (ds : List (Diagnostic × SourceManager)) :
    validUtf8 ('[' :: (Lines.join ',' (texts ds) ++ "]\n".toList)) = true
      ↔ ∀ d ∈ ds, ∀ s ∈ stringsOf d.1 d.2, validUtf8 s = true := by
  -- the brackets around the texts are of one-byte characters
  have hopen : validUtf8 ('[' :: (Lines.join ',' (texts ds) ++ "]\n".toList))
      = validUtf8 (Lines.join ',' (texts ds) ++ "]\n".toList) :=
    Lsp.validUtf8_ascii_append (show ascii ['['] = true from rfl)
  have hclose : validUtf8 "]\n".toList = true := by decide
  rw [hopen, validUtf8_join, hclose, Bool.and_true]
  unfold validStrings
  rw [List.all_eq_true]
  exact forall₂_congr fun d _ => List.all_eq_true

theorem jsonEscape_read (s rest : Text) :
    ∃ body, jsonEscape s = '"' :: body ∧ JsonText.string (body ++ rest) = some (s, rest) := by
  refine ⟨JsonText.escape s ++ ['"'], jsonEscape_eq s, ?_⟩
  rw [List.append_assoc]
  exact JsonText.string_escape s rest

/-- Without its bracket the output is no JSON text. -/
theorem parse_unclosed (ds : List (Diagnostic × SourceManager)) :
    JsonText.parse ('[' :: Lines.join ',' (texts ds)) = none := by
  have hwritable := writable_array ds
  rw [JsonText.Writable] at hwritable
  exact JsonText.parse_unclosed hwritable (writeItems_texts ds)

/-- **The law holds exactly if no exception leaves `run_lint_one`.** -/
theorem json_output_array_iff (runs : List FileRun) : JsonLaw runs ↔ ∀ run ∈ runs, run.threw = false := by
  constructor
  · intro h run hrun
    by_contra hthrew
    have hany : runs.any FileRun.threw = true :=
      List.any_eq_true.mpr ⟨run, hrun, (Bool.not_eq_false _).mp hthrew⟩
    have hout := runLint_text (List.ne_nil_of_mem hrun)
    rw [hany, if_pos rfl, List.append_nil] at hout
    have hread := h.array _ hout
    rw [parse_unclosed] at hread
    cases hread
  · intro hquiet
    have hany : runs.any FileRun.threw = false := List.any_eq_false.mpr fun run hrun => by
      rw [hquiet run hrun]
      exact Bool.false_ne_true
    have htext : ∀ out, runLint runs = some out →
        out = '[' :: (Lines.join ',' (texts (reported runs)) ++ "]\n".toList) := by
      intro out hout
      have hne : runs ≠ [] := by
        intro hempty
        rw [runLint_eq_none.mpr hempty] at hout
        cases hout
      rw [runLint_text hne, hany, reached_eq hquiet] at hout
      exact (Option.some.inj hout).symm
    refine ⟨runLint_eq_none, fun out hout => ?_, fun out hout => ?_, jsonEscape_read⟩
    · rw [htext out hout, printed_array]
      refine JsonText.parse_write (writable_array _) fun c hc => ?_
      rw [List.mem_singleton.mp hc]
      rfl
    · rw [htext out hout]
      exact validUtf8_array _

/-- One path, with a name that is too long for the file system. -/
def longName : List FileRun := [⟨none, true⟩]

/-- **The bracket is opened, and nothing closes it.** -/
theorem longName_unclosed : runLint longName = some ['['] ∧ ¬ JsonLaw longName := by
  refine ⟨rfl, fun h => ?_⟩
  have hread := h.array ['['] rfl
  have hnone : JsonText.parse ['['] = none := by decide
  rw [hnone] at hread
  cases hread

end ShaderClippy.Cli
