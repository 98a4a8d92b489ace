/-
  ShaderClippy.Lsp.Server

  **THE LANGUAGE SERVER'S DOCUMENT HANDLERS** (`handlers.cpp`,
  `code_actions.cpp`, `diagnostic_convert.cpp`).

  The handlers are steps on the open documents. Three things come from
  outside and are inputs here: the readings of the clock, `lint` (whatever
  it depends on besides path and contents — configuration, options, files,
  the state of the process — is `env`), and the path a URI stands for. The
  parameters of a message are taken as already read; `Lsp/ChangeRanges.lean`
  reads those of `didChange` from JSON.
-/
import Mathlib
import ShaderClippy.Lsp.Positions

namespace ShaderClippy.Lsp

open Lines SourceFile

/-! ## §1. Spans become ranges. -/

/-- A position in a reply: requests may carry any 32-bit integers. -/
structure LspPosition where
  line : Int
  character : Int
  deriving Repr, DecidableEq

structure LspRange where
  start : LspPosition
  stop : LspPosition
  deriving Repr, DecidableEq

/-- `SourceManager::resolve`, for a manager that holds one buffer: its id is
`1`, any other id resolves to the start of the file. -/
def resolve (contents : Text) (source : SourceId) (byteOffset : Nat) : LineCol :=
  if source.value = 1 then lineCol contents byteOffset else ⟨1, 1⟩

/-- `to_lsp_position`. -/
def resolvePosition (contents : Text) (source : SourceId) (byteOffset : Nat) : LspPosition :=
  let loc := resolve contents source byteOffset
  ⟨if loc.line > 0 then (loc.line - 1 : Nat) else 0,
    if loc.column > 0 then (loc.column - 1 : Nat) else 0⟩

/-- The range of a diagnostic. -/
def resolveRange (contents : Text) (span : Span) : LspRange :=
  ⟨resolvePosition contents span.source span.bytes.lo,
    resolvePosition contents span.source span.bytes.hi⟩

/-- `static_cast<std::int32_t>`. -/
def i32 (n : Nat) : Int :=
  if n % 2 ^ 32 < 2 ^ 31 then (n % 2 ^ 32 : Nat) else (n % 2 ^ 32 : Nat) - 2 ^ 32

/-- `to_position`: where code actions and hovers compare, numbers are signed. -/
def toPosition (contents : Text) (source : SourceId) (byteOffset : Nat) : LspPosition :=
  let loc := resolve contents source byteOffset
  ⟨if loc.line > 0 then i32 (loc.line - 1) else 0, if loc.column > 0 then i32 (loc.column - 1) else 0⟩

/-- `make_range` over a span. -/
def toRange (contents : Text) (span : Span) : LspRange :=
  ⟨toPosition contents span.source span.bytes.lo, toPosition contents span.source span.bytes.hi⟩

namespace LspPosition

def le (p q : LspPosition) : Bool :=
  decide (p.line < q.line) || (decide (p.line = q.line) && decide (p.character ≤ q.character))

def lt (p q : LspPosition) : Bool :=
  decide (p.line < q.line) || (decide (p.line = q.line) && decide (p.character < q.character))

end LspPosition

/-- `ranges_overlap`: half-open overlap, an empty range covers its point. -/
def rangesOverlap (aLo aHi bLo bHi : LspPosition) : Bool :=
  let aDegenerate := !aLo.lt aHi
  let bDegenerate := !bLo.lt bHi
  if aDegenerate && bDegenerate then
    decide (aLo.line = bLo.line) && decide (aLo.character = bLo.character)
  else if aDegenerate then bLo.le aLo && aLo.le bHi
  else if bDegenerate then aLo.le bLo && bLo.le aHi
  else aLo.lt bHi && bLo.lt aHi

/-! ## §2. Diagnostics, code actions, hover. -/

structure LspDiagnostic where
  range : LspRange
  severity : Nat
  code : Text
  source : Text
  message : Text
  deriving Repr, DecidableEq

/-- `to_lsp_severity`. -/
def toLspSeverity : Severity → Nat
  | .error => 1
  | .warning => 2
  | .note => 3

/-- `to_lsp_diagnostic`. -/
def toLspDiagnostic (contents : Text) (diag : Diagnostic) : LspDiagnostic :=
  ⟨resolveRange contents diag.primarySpan, toLspSeverity diag.severity, diag.code,
    "shader-clippy".toList, diag.message⟩

structure LspTextEdit where
  range : LspRange
  newText : Text
  deriving Repr, DecidableEq

/-- One element of `fix_edits_to_text_edits`. -/
def toTextEdit (contents : Text) (edit : TextEdit Char) : LspTextEdit :=
  ⟨toRange contents edit.span, edit.replacement⟩

structure CodeAction where
  title : Text
  kind : Text
  diagnostics : List LspDiagnostic
  uri : Text
  edits : List LspTextEdit
  isPreferred : Bool
  deriving Repr, DecidableEq

/-- `build_code_action`. -/
def buildCodeAction (contents uri : Text) (diag : Diagnostic) (fix : Fix Char) : CodeAction :=
  ⟨fix.description, "quickfix".toList, [toLspDiagnostic contents diag], uri,
    fix.edits.map (toTextEdit contents), fix.machineApplicable⟩

/-- `code_actions_for_range`. -/
def codeActionsForRange (contents uri : Text) (diagnostics : List Diagnostic)
    (request : LspRange) : List CodeAction :=
  diagnostics.flatMap fun diag =>
    if diag.fixes.isEmpty then []
    else
      let range := toRange contents diag.primarySpan
      if rangesOverlap range.start range.stop request.start request.stop then
        diag.fixes.map (buildCodeAction contents uri diag)
      else []

/-- `docs_url_for_rule`. -/
def docsUrlForRule (ruleId : Text) : Text :=
  "https://github.com/NelCit/shader-clippy/blob/main/docs/rules/".toList ++ ruleId ++ ".md".toList

/-- The markdown of a hover reply. -/
def hoverText (diag : Diagnostic) : Text :=
  "**".toList ++ diag.code ++ "** ([docs](".toList ++ docsUrlForRule diag.code
    ++ "))\n\n".toList ++ diag.message

/-- `primary_span.bytes.size()`: zero for a span that ends before it starts. -/
def spanLength (diag : Diagnostic) : Nat := diag.primarySpan.bytes.hi - diag.primarySpan.bytes.lo

/-- One turn of the loop in `hover_for_position`: a diagnostic that covers the
cursor wins if it is the first or shorter than the best so far. -/
def betterDiagnostic (contents : Text) (cursor : LspPosition) (best : Option Diagnostic)
    (diag : Diagnostic) : Option Diagnostic :=
  let range := toRange contents diag.primarySpan
  if rangesOverlap range.start range.stop cursor cursor then
    match best with
    | none => some diag
    | some b => if spanLength diag < spanLength b then some diag else some b
  else best

/-- The loop of `hover_for_position`. -/
def bestDiagnostic (contents : Text) (cursor : LspPosition) (diagnostics : List Diagnostic) :
    Option Diagnostic :=
  diagnostics.foldl (betterDiagnostic contents cursor) none

/-- `hover_for_position`. -/
def hoverForPosition (contents : Text) (diagnostics : List Diagnostic) (cursor : LspPosition) :
    Option Text :=
  (bestDiagnostic contents cursor diagnostics).map hoverText

/-! ## §3. The handlers. -/

/-- What the handlers take from outside. -/
structure Host (Env : Type) where
  lint : Env → Text → Text → List Diagnostic
  pathOf : Text → Text

inductive Message where
  | didOpen (uri text : Text) (version : Int)
  | didChange (uri : Text) (version : Int) (changes : List ContentChange)
  | didSave (uri : Text)
  | didClose (uri : Text)
  | codeAction (uri : Text) (range : LspRange)
  | hover (uri : Text) (position : LspPosition)

/-- The document a message is about. -/
def Message.uri : Message → Text
  | .didOpen uri _ _ | .didChange uri _ _ | .didSave uri | .didClose uri | .codeAction uri _
  | .hover uri _ => uri

/-- A message, and what its handler reads from outside while it runs: the
clock (when the text is changed, when the debounce gate looks, when the lint
is done) and what `lint` sees. -/
structure Event (Env : Type) where
  message : Message
  env : Env
  changedAt : Nat
  gateAt : Nat
  lintedAt : Nat

/-- What the server sends. -/
inductive Output where
  | publishDiagnostics (uri : Text) (version : Option Int) (diagnostics : List LspDiagnostic)
  | codeActions (actions : List CodeAction)
  | hover (contents : Option Text)

/-- `150 ms`, in the clock's nanoseconds. -/
def debounce : Nat := 150000000

variable {Env : Type} (host : Host Env)

/-- `lint_and_publish`. -/
def lintAndPublish (docs : DocumentManager) (uri : Text) (ev : Event Env) :
    DocumentManager × List Output :=
  match docs.find uri with
  | none => (docs, [])
  | some doc =>
      let diagnostics := host.lint ev.env doc.path doc.contents
      let docs := docs.set uri (some { doc with latestDiagnostics := diagnostics })
      (docs.markLinted uri ev.lintedAt,
        [.publishDiagnostics uri (some doc.version)
          (diagnostics.map (toLspDiagnostic doc.contents))])

/-- `on_did_open`. -/
def onDidOpen (docs : DocumentManager) (uri text : Text) (version : Int) (ev : Event Env) :
    DocumentManager × List Output :=
  lintAndPublish host (docs.openDocument uri (host.pathOf uri) text version ev.changedAt) uri ev

/-- `on_did_change`. -/
def onDidChange (docs : DocumentManager) (uri : Text) (version : Int)
    (changes : List ContentChange) (ev : Event Env) : DocumentManager × List Output :=
  match docs.applyChanges uri version changes ev.changedAt with
  | (docs', false) => (docs', [])
  | (docs', true) =>
      if docs'.shouldDebounceLint uri debounce ev.gateAt then (docs', [])
      else lintAndPublish host docs' uri ev

/-- `on_did_close`: the client is sent an empty list. -/
def onDidClose (docs : DocumentManager) (uri : Text) : DocumentManager × List Output :=
  (docs.close uri, [.publishDiagnostics uri none []])

/-- `on_code_action`: the stored diagnostics, resolved in the stored text. -/
def onCodeAction (docs : DocumentManager) (uri : Text) (range : LspRange) : List Output :=
  match docs.find uri with
  | none => [.codeActions []]
  | some doc => [.codeActions (codeActionsForRange doc.contents uri doc.latestDiagnostics range)]

/-- `on_hover`. -/
def onHover (docs : DocumentManager) (uri : Text) (position : LspPosition) : List Output :=
  match docs.find uri with
  | none => [.hover none]
  | some doc => [.hover (hoverForPosition doc.contents doc.latestDiagnostics position)]

/-- One message. -/
def handle (docs : DocumentManager) (ev : Event Env) : DocumentManager × List Output :=
  match ev.message with
  | .didOpen uri text version => onDidOpen host docs uri text version ev
  | .didChange uri version changes => onDidChange host docs uri version changes ev
  | .didSave uri => lintAndPublish host docs uri ev
  | .didClose uri => onDidClose docs uri
  | .codeAction uri range => (docs, onCodeAction docs uri range)
  | .hover uri position => (docs, onHover docs uri position)

end ShaderClippy.Lsp
