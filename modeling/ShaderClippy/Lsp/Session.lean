/-
  ShaderClippy.Lsp.Session

  **A SESSION OF THE LANGUAGE SERVER** (`handlers.cpp`, `run_server`).

  The server reads one message after another. A request is answered, a notification
  changes the state and may publish diagnostics, and `exit` ends the session. An
  exception in a notification is swallowed, so a list of diagnostics that is not UTF-8
  is just not sent; but a reply that is not UTF-8 ends the program.

  Over a whole session every message that is to be answered is answered once, in the
  order in which the messages came (`serve_replies`), and the exit code says whether
  `shutdown` was asked for before (`serve_exitCode`).
-/
import Mathlib
import ShaderClippy.Lsp.Dispatcher
import ShaderClippy.Lsp.Settings
import ShaderClippy.Version

namespace ShaderClippy.Lsp

open LexicalPath (Path)

/-! ## §1. What is sent. -/

/-- The position of a diagnostic; its numbers are unsigned. -/
def diagnosticPositionJson (p : LspPosition) : Json :=
  .object [(kLine, .unsigned (UInt64.ofNat p.line.toNat)), (kCharacter, .unsigned (UInt64.ofNat p.character.toNat))]

/-- `position_to_json`. -/
def positionJson (p : LspPosition) : Json :=
  .object [(kLine, .integer (Int64.ofInt p.line)), (kCharacter, .integer (Int64.ofInt p.character))]

def rangeJson (position : LspPosition → Json) (r : LspRange) : Json :=
  .object [(kStart, position r.start), (kEnd, position r.stop)]

def kDiagnostics : Text := "diagnostics".toList

/-- `to_lsp_diagnostic`. -/
def diagnosticJson (d : LspDiagnostic) : Json :=
  .object [(kRange, rangeJson diagnosticPositionJson d.range), ("severity".toList, .integer (Int64.ofNat d.severity)),
    (kCode, .string d.code), ("source".toList, .string d.source), (kMessage, .string d.message)]

def textEditJson (e : LspTextEdit) : Json :=
  .object [(kRange, rangeJson positionJson e.range), ("newText".toList, .string e.newText)]

/-- `build_code_action`. -/
def codeActionJson (a : CodeAction) : Json :=
  .object [("title".toList, .string a.title), ("kind".toList, .string a.kind),
    (kDiagnostics, .array (a.diagnostics.map diagnosticJson)),
    ("edit".toList, .object [("changes".toList, .object [(a.uri, .array (a.edits.map textEditJson))])]),
    ("isPreferred".toList, .boolean a.isPreferred)]

/-- The reply of `hover_for_position`. -/
def hoverJson (markdown : Text) : Json :=
  .object [("contents".toList, .object [("kind".toList, .string "markdown".toList), ("value".toList, .string markdown)])]

/-- `build_server_capabilities`. -/
def serverCapabilities : Json :=
  .object [("textDocumentSync".toList, .object [("openClose".toList, .boolean true), ("change".toList, .integer 2),
      ("save".toList, .object [("includeText".toList, .boolean false)])]),
    ("codeActionProvider".toList, .boolean true), ("hoverProvider".toList, .boolean true),
    ("completionProvider".toList, .null), ("signatureHelpProvider".toList, .null),
    ("definitionProvider".toList, .boolean false), ("referencesProvider".toList, .boolean false),
    ("documentFormattingProvider".toList, .boolean false), ("documentRangeFormattingProvider".toList, .boolean false),
    ("workspace".toList, .object [("workspaceFolders".toList, .object [("supported".toList, .boolean true),
      ("changeNotifications".toList, .boolean true)])])]

/-- What `initialize` is answered with. -/
def initializeResult : Json :=
  .object [("capabilities".toList, serverCapabilities),
    ("serverInfo".toList, .object [("name".toList, .string "shader-clippy-lsp".toList),
      (kVersionMember, .string version)])]

def kPublishDiagnostics : Text := "textDocument/publishDiagnostics".toList

/-- `send_notification`. -/
def notificationJson (method : Text) (params : Json) : Json :=
  .object [(kJsonrpc, .string kVersion), (kMethod, .string method), (kParams, params)]

/-- What `lint_and_publish` and `on_did_close` send. -/
def publishDiagnosticsJson (uri : Text) (version : Option Int) (diagnostics : List LspDiagnostic) : Json :=
  notificationJson kPublishDiagnostics (.object ([(kUri, .string uri)]
    ++ (version.map fun v => (kVersionMember, Json.integer (Int64.ofInt v))).toList
    ++ [(kDiagnostics, .array (diagnostics.map diagnosticJson))]))

/-! ## §2. What is read. -/

def kInitialize : Text := "initialize".toList

def kInitialized : Text := "initialized".toList

def kShutdown : Text := "shutdown".toList

def kExit : Text := "exit".toList

def kDidOpen : Text := "textDocument/didOpen".toList

def kDidChange : Text := "textDocument/didChange".toList

def kDidSave : Text := "textDocument/didSave".toList

def kDidClose : Text := "textDocument/didClose".toList

def kCodeAction : Text := "textDocument/codeAction".toList

def kHover : Text := "textDocument/hover".toList

/-- `extract_position`: a number that is missing is 0. -/
def extractPosition (obj : Json) : LspPosition :=
  ⟨((obj.find kLine).bind Json.integerValue).elim 0 getInt32,
    ((obj.find kCharacter).bind Json.integerValue).elim 0 getInt32⟩

/-- The notifications about documents; none where the handler returns at once. -/
def documentNotification (method : Text) (params : Json) : Option Message :=
  let uri := extractTextDocumentUri params
  if uri = [] then none
  else if method = kDidOpen then
    match (params.find kTextDocument).bind (·.find kText) with
    | some (.string text) => some (.didOpen uri text (extractTextDocumentVersion params))
    | _ => none
  else if method = kDidChange then
    some (.didChange uri (extractTextDocumentVersion params) (parseContentChanges params))
  else if method = kDidSave then some (.didSave uri)
  else if method = kDidClose then some (.didClose uri)
  else none

/-- The requests about documents; none where the handler answers at once. -/
def documentRequest (method : Text) (params : Json) : Option Message :=
  let uri := extractTextDocumentUri params
  if uri = [] then none
  else if method = kCodeAction then
    (params.find kRange).bind fun range =>
      match range.find kStart, range.find kEnd with
      | some start, some stop => some (.codeAction uri ⟨extractPosition start, extractPosition stop⟩)
      | _, _ => none
  else if method = kHover then
    (params.find "position".toList).bind fun position =>
      -- `on_hover` asks for an object, `on_code_action` does not
      if position.isObject then some (.hover uri (extractPosition position)) else none
  else none

/-! ## §3. The server. -/

/-- `LintOptions` of the library. -/
structure LintOptions where
  enableReflection : Bool
  enableControlFlow : Bool
  targetProfile : Option Text
  includeDirectories : List Path

/-- What is outside of the server: the linter, and the configuration it finds for a
document. -/
structure Outside (Ext κ : Type) where
  lint : Ext → Option κ → LintOptions → Text → Text → List Diagnostic
  resolveConfig : Ext → Text → Option κ
  shaderIncludeDirectories : κ → List Path

/-- What the handler of a message finds outside: the files and the state of the process,
and the clock when the text is changed, when the gate looks, and after the lint. -/
structure Turn (Ext : Type) where
  ext : Ext
  changedAt : Nat
  gateAt : Nat
  lintedAt : Nat

/-- `Server`, and the documents it is given. -/
structure ServerState where
  docs : DocumentManager
  settings : Settings
  initialized : Bool
  shutdownRequested : Bool
  shouldExit : Bool

/-- The server before the first message. -/
def ServerState.initial : ServerState := ⟨DocumentManager.empty, Settings.default, false, false, false⟩

variable {Ext κ : Type}

/-- The options of a lint. -/
def lintOptions (s : Settings) (path : Text) (shaderIncludeDirectories : List Path) : LintOptions where
  enableReflection := s.enableReflection
  enableControlFlow := s.enableControlFlow
  targetProfile := if s.targetProfile = [] then none else some s.targetProfile
  includeDirectories := includeDirectories s (Path.ofText path) shaderIncludeDirectories

/-- The handlers of documents see the settings and what is outside. -/
def Outside.host (o : Outside Ext κ) : Host (Settings × Ext) where
  lint env path contents :=
    let config := o.resolveConfig env.2 path
    o.lint env.2 config (lintOptions env.1 path (config.elim [] o.shaderIncludeDirectories)) path contents
  pathOf uri := (uriToPath uri).getD uri

/-- A message, with what its handler sees. -/
def ServerState.event (s : ServerState) (t : Turn Ext) (message : Message) : Event (Settings × Ext) :=
  ⟨message, (s.settings, t.ext), t.changedAt, t.gateAt, t.lintedAt⟩

/-- The notification handlers. `workspace/didChangeConfiguration` and
`workspace/didChangeWatchedFiles` do nothing, as does a method without a handler. -/
def onNotification (o : Outside Ext κ) (t : Turn Ext) (s : ServerState) (method : Text) (params : Json) :
    ServerState × List Output :=
  if method = kExit then ({ s with shouldExit := true }, [])
  else if method = kInitialized then ({ s with initialized := true }, [])
  else
    match documentNotification method params with
    | none => (s, [])
    | some message =>
        let r := handle o.host s.docs (s.event t message)
        ({ s with docs := r.1 }, r.2)

/-- `on_code_action` and `on_hover`. -/
def documentResult (o : Outside Ext κ) (t : Turn Ext) (s : ServerState) (method : Text) (params : Json) : Json :=
  match documentRequest method params with
  | none => if method = kCodeAction then .array [] else .null
  | some message =>
      match (handle o.host s.docs (s.event t message)).2 with
      | [.codeActions actions] => .array (actions.map codeActionJson)
      | [.hover (some markdown)] => hoverJson markdown
      | _ => .null

/-- The request handlers, by their answers. -/
def requestHandlers (o : Outside Ext κ) (t : Turn Ext) (s : ServerState) : JsonRpcDispatcher where
  requestHandlers method :=
    if method = kInitialize then some fun _ => .returned initializeResult
    else if method = kShutdown then some fun _ => .returned .null
    else if method = kCodeAction ∨ method = kHover then
      some fun params => .returned (documentResult o t s method params)
    else none

/-- What a request handler does to the server. -/
def afterRequest (s : ServerState) (method : Text) (params : Json) : ServerState :=
  if method = kInitialize then { s with settings := s.settings.onInitialize params }
  else if method = kShutdown then { s with shutdownRequested := true }
  else s

/-! ## §4. One message. -/

/-- The envelope of an output of a notification handler. -/
def Output.envelope : Output → Option Json
  | .publishDiagnostics uri version diagnostics => some (publishDiagnosticsJson uri version diagnostics)
  | _ => none

/-- What the server does with a message: its new state, what it writes, and whether an
exception leaves `run_server`. -/
structure Reaction where
  state : ServerState
  sent : List (Json × Text)
  crashed : Bool

/-- An empty text is not written. -/
def written (envelope : Json) (body : Text) : List (Json × Text) := if body = [] then [] else [(envelope, body)]

/-- A reply is written, or the exception of `dump` is not caught. -/
def Reaction.ofReply (s : ServerState) : Reply → Reaction
  | .nothing => ⟨s, [], false⟩
  | .response envelope body => ⟨s, written envelope body, false⟩
  | .escaped => ⟨s, [], true⟩

/-- A notification is written through the sink, or the exception of `dump` is
swallowed. -/
def published (lib : JsonLib) (outputs : List Output) : List (Json × Text) :=
  (outputs.filterMap Output.envelope).filterMap fun envelope => (lib.dump envelope).map (envelope, ·)

/-- One turn of the loop in `run_server`. -/
def react (lib : JsonLib) (o : Outside Ext κ) (t : Turn Ext) (s : ServerState) (body : Text) : Reaction :=
  let reply := dispatchWire lib (requestHandlers o t s) body
  -- `dispatch_wire` parses the same text; a message with a method and an id is a request
  match lib.parse body with
  | .error _ => .ofReply s reply
  | .ok envelope =>
      match envelope.methodText, parseId envelope with
      | none, _ => .ofReply s reply
      | some method, some _ => .ofReply (afterRequest s method (requestParams envelope)) reply
      | some method, none =>
          let r := onNotification o t s method (requestParams envelope)
          ⟨r.1, published lib r.2, false⟩

/-! ## §5. Answers. -/

/-- The id a message is answered under, if it is to be answered. -/
def answerId (lib : JsonLib) (body : Text) : Option (Int ⊕ Text) :=
  match lib.parse body with
  | .error _ => some (.inl 0)
  | .ok envelope => if envelope.isObject then (parseId envelope).map Id.value else some (.inl 0)

/-- A message is a request with a handler whose answer cannot be serialised. -/
def Unserialisable (lib : JsonLib) (d : JsonRpcDispatcher) (body : Text) : Prop :=
  ∃ envelope method id handler, lib.parse body = .ok envelope ∧ envelope.methodText = some method
    ∧ parseId envelope = some id ∧ d.requestHandlers method = some handler
    ∧ ¬ (handler (requestParams envelope)).valid

/-- A value with a method is an object. -/
theorem isObject_of_methodText {envelope : Json} {method : Text} (h : envelope.methodText = some method) :
    envelope.isObject = true := by
  cases envelope with
  | object => rfl
  | _ => cases h

/-- **What comes of a text**: nothing, the answer, or an exception. -/
theorem dispatchWire_cases (lib : JsonLib) (d : JsonRpcDispatcher) (body : Text) :
    (answerId lib body = none ∧ dispatchWire lib d body = .nothing ∧ ¬ Unserialisable lib d body)
      ∨ (∃ id reply text, answerId lib body = some id ∧ dispatchWire lib d body = .response reply text
        ∧ reply.idValue = some id ∧ ¬ Unserialisable lib d body)
      ∨ (dispatchWire lib d body = .escaped ∧ Unserialisable lib d body) := by
  unfold dispatchWire answerId
  cases hparse : lib.parse body with
  | error e =>
      -- what cannot be parsed is answered with a fixed text, which can be serialised
      have hnot : ¬ Unserialisable lib d body := by
        rintro ⟨envelope, _, _, _, hok, _⟩
        rw [hparse] at hok
        cases hok
      have hzero : (Id.number 0).valid = true := rfl
      cases e with
      | parseError =>
          obtain ⟨reply, text, hsend, hid⟩ := send_ascii_error lib parseError kJsonParseError hzero rfl
          exact .inr (.inl ⟨_, reply, text, rfl, hsend, hid, hnot⟩)
      | other =>
          obtain ⟨reply, text, hsend, hid⟩ := send_ascii_error lib parseError kUnknownParseFailure hzero rfl
          exact .inr (.inl ⟨_, reply, text, rfl, hsend, hid, hnot⟩)
  | ok envelope =>
      dsimp only
      have hvalid := lib.parse_valid body envelope hparse
      by_cases hobj : envelope.isObject = true
      case neg =>
        rw [Bool.not_eq_true] at hobj
        rw [if_neg (by rw [hobj]; exact Bool.false_ne_true)]
        obtain ⟨reply, text, hsend, hid⟩ := dispatch_not_object lib d hobj
        refine .inr (.inl ⟨_, reply, text, rfl, hsend, hid, ?_⟩)
        rintro ⟨envelope', _, _, _, hok, hmethod, _⟩
        rw [hparse] at hok
        cases hok
        rw [isObject_of_methodText hmethod] at hobj
        cases hobj
      case pos =>
        rw [if_pos hobj, dispatch_object d hobj]
        cases hid : parseId envelope with
        | none =>
            refine .inl ⟨rfl, rfl, ?_⟩
            rintro ⟨envelope', _, id, _, hok, _, hid', _⟩
            rw [hparse] at hok
            cases hok
            rw [hid] at hid'
            cases hid'
        | some id =>
            have hidvalid := parseId_valid hvalid hid
            cases hmethod : envelope.methodText with
            | none =>
                obtain ⟨reply, text, hsend, hreply⟩ := send_ascii_error lib invalidRequest kMissingMethod hidvalid rfl
                refine .inr (.inl ⟨_, reply, text, rfl, hsend, hreply, ?_⟩)
                rintro ⟨envelope', _, _, _, hok, hmethod', _⟩
                rw [hparse] at hok
                cases hok
                rw [hmethod] at hmethod'
                cases hmethod'
            | some method =>
                -- `dump` throws exactly where the handler's answer is no valid UTF-8
                have hiff := valid_handleRequest d (requestParams envelope) hidvalid (methodText_valid hvalid hmethod)
                dsimp only
                by_cases hser : (handleRequest d id method (requestParams envelope)).valid = true
                · obtain ⟨text, hsend⟩ := send_of_valid lib hser
                  refine .inr (.inl ⟨_, _, text, rfl, hsend, idValue_handleRequest d id method _, ?_⟩)
                  rintro ⟨envelope', method', _, handler, hok, hmethod', _, hhandler, hbad⟩
                  rw [hparse] at hok
                  cases hok
                  rw [hmethod] at hmethod'
                  cases hmethod'
                  exact hbad (hiff.mp hser handler hhandler)
                · have hdump : lib.dump (handleRequest d id method (requestParams envelope)) = none := by
                    rw [← Option.not_isSome_iff_eq_none, lib.dump_isSome]
                    exact hser
                  refine .inr (.inr ⟨?_, ?_⟩)
                  · unfold send
                    rw [hdump]
                  · rw [hiff] at hser
                    push Not at hser
                    obtain ⟨handler, hhandler, hbad⟩ := hser
                    exact ⟨envelope, method, id, handler, hparse, hmethod, hid, hhandler, hbad⟩

theorem dump_of_send {lib : JsonLib} {envelope reply : Json} {text : Text}
    (h : send lib envelope = .response reply text) : lib.dump reply = some text := by
  unfold send at h
  cases hdump : lib.dump envelope with
  | none =>
      rw [hdump] at h
      cases h
  | some wire =>
      rw [hdump] at h
      cases h
      exact hdump

/-- A reply is what was serialised. -/
theorem dump_of_dispatchWire {lib : JsonLib} {d : JsonRpcDispatcher} {body : Text} {reply : Json} {text : Text}
    (h : dispatchWire lib d body = .response reply text) : lib.dump reply = some text := by
  unfold dispatchWire at h
  cases hparse : lib.parse body with
  | error e =>
      rw [hparse] at h
      cases e <;> exact dump_of_send h
  | ok envelope =>
      rw [hparse] at h
      dsimp only at h
      cases hobj : envelope.isObject with
      | false =>
          rw [dispatch, hobj] at h
          exact dump_of_send h
      | true =>
          rw [dispatch_object d hobj] at h
          split at h
          · cases h
          · split at h
            · exact dump_of_send h
            · exact dump_of_send h

/-- The method of a message that is a request, and of one that is a notification. -/
def requestMethod (lib : JsonLib) (body : Text) : Option Text :=
  match lib.parse body with
  | .error _ => none
  | .ok envelope => if (parseId envelope).isSome then envelope.methodText else none

def notificationMethod (lib : JsonLib) (body : Text) : Option Text :=
  match lib.parse body with
  | .error _ => none
  | .ok envelope => if (parseId envelope).isSome then none else envelope.methodText

variable {lib : JsonLib} {o : Outside Ext κ} {t : Turn Ext} {s : ServerState} {body : Text}

/-- **What a message does**: it is a notification and is handled, or there is a reply,
and the state is that after the request. -/
theorem react_cases :
    (∃ method params, notificationMethod lib body = some method ∧ requestMethod lib body = none
        ∧ answerId lib body = none ∧ ¬ Unserialisable lib (requestHandlers o t s) body
        ∧ react lib o t s body
          = ⟨(onNotification o t s method params).1, published lib (onNotification o t s method params).2, false⟩)
      ∨ ∃ state, react lib o t s body = .ofReply state (dispatchWire lib (requestHandlers o t s) body)
        ∧ notificationMethod lib body = none
        ∧ ((requestMethod lib body = none ∧ state = s)
          ∨ ∃ method params, requestMethod lib body = some method ∧ state = afterRequest s method params) := by
  unfold react notificationMethod requestMethod answerId
  cases hparse : lib.parse body with
  | error e => exact .inr ⟨s, rfl, rfl, .inl ⟨rfl, rfl⟩⟩
  | ok envelope =>
      dsimp only
      cases hmethod : envelope.methodText with
      | none => exact .inr ⟨s, rfl, ite_self _, .inl ⟨ite_self _, rfl⟩⟩
      | some method =>
          cases hid : parseId envelope with
          | none =>
              refine .inl ⟨method, requestParams envelope, rfl, rfl, ?_, ?_, rfl⟩
              · rw [if_pos (isObject_of_methodText hmethod)]
                rfl
              · rintro ⟨envelope', _, _, _, hok, _, hid', _⟩
                rw [hparse] at hok
                cases hok
                rw [hid] at hid'
                cases hid'
          | some id => exact .inr ⟨_, rfl, rfl, .inr ⟨method, _, rfl, rfl⟩⟩

/-- A notification of the server has no id. -/
theorem idValue_envelope {output : Output} {envelope : Json} (h : output.envelope = some envelope) :
    envelope.idValue = none := by
  cases output with
  | publishDiagnostics uri version diagnostics =>
      cases h
      rfl
  | codeActions => cases h
  | hover => cases h

theorem idValue_published (outputs : List Output) :
    (published lib outputs).filterMap (fun p => p.1.idValue) = [] := by
  rw [List.filterMap_eq_nil_iff]
  intro p hp
  obtain ⟨envelope, henvelope, hdump⟩ := List.mem_filterMap.mp hp
  obtain ⟨output, _, houtput⟩ := List.mem_filterMap.mp henvelope
  obtain ⟨_, _, rfl⟩ := Option.map_eq_some_iff.mp hdump
  exact idValue_envelope houtput

/-- **The answer to a message** is the one reply with an id that is sent. -/
theorem react_answer (hdump : ∀ j, lib.dump j ≠ some []) (h : (react lib o t s body).crashed = false) :
    (react lib o t s body).sent.filterMap (fun p => p.1.idValue) = (answerId lib body).toList := by
  obtain ⟨method, params, _, _, hanswer, _, hreact⟩ | ⟨state, hreact, _⟩ := react_cases
  · rw [hreact, hanswer]
    exact idValue_published _
  · rw [hreact] at h ⊢
    obtain ⟨hanswer, hreply, _⟩ | ⟨id, reply, text, hanswer, hreply, hid, _⟩ | ⟨hreply, _⟩ :=
      dispatchWire_cases lib (requestHandlers o t s) body
    · rw [hreply, hanswer]
      rfl
    · have htext : text ≠ [] := by
        rintro rfl
        exact hdump reply (dump_of_dispatchWire hreply)
      rw [hreply, hanswer]
      show (written reply text).filterMap _ = _
      rw [written, if_neg htext]
      exact List.filterMap_cons_some hid
    · rw [hreply] at h
      cases h

/-- A message that ends the program has sent nothing. -/
theorem react_crashed_sent (h : (react lib o t s body).crashed = true) : (react lib o t s body).sent = [] := by
  obtain ⟨_, _, _, _, _, _, hreact⟩ | ⟨state, hreact, _⟩ := react_cases
  · rw [hreact] at h
    cases h
  · rw [hreact] at h ⊢
    cases hreply : dispatchWire lib (requestHandlers o t s) body with
    | nothing => rfl
    | escaped => rfl
    | response reply text =>
        rw [hreply] at h
        cases h

theorem onNotification_flags (method : Text) (params : Json) :
    (onNotification o t s method params).1.shutdownRequested = s.shutdownRequested
      ∧ ((onNotification o t s method params).1.shouldExit = true ↔ s.shouldExit = true ∨ method = kExit) := by
  unfold onNotification
  split
  case isTrue hexit => exact ⟨rfl, fun _ => .inr hexit, fun _ => rfl⟩
  case isFalse hexit =>
    split
    · exact ⟨rfl, (or_iff_left hexit).symm⟩
    · split
      · exact ⟨rfl, (or_iff_left hexit).symm⟩
      · exact ⟨rfl, (or_iff_left hexit).symm⟩

theorem afterRequest_flags (method : Text) (params : Json) :
    (afterRequest s method params).shouldExit = s.shouldExit
      ∧ ((afterRequest s method params).shutdownRequested = true ↔ s.shutdownRequested = true ∨ method = kShutdown) := by
  unfold afterRequest
  split
  case isTrue hinit =>
    have hne : method ≠ kShutdown := by
      rw [hinit]
      decide
    exact ⟨rfl, (or_iff_left hne).symm⟩
  case isFalse =>
    split
    case isTrue hshutdown => exact ⟨rfl, fun _ => .inr hshutdown, fun _ => rfl⟩
    case isFalse hshutdown => exact ⟨rfl, (or_iff_left hshutdown).symm⟩

/-- **The two flags**: `shutdown` counts as a request, `exit` as a notification. -/
theorem react_flags :
    ((react lib o t s body).state.shutdownRequested = true
        ↔ s.shutdownRequested = true ∨ requestMethod lib body = some kShutdown)
      ∧ ((react lib o t s body).state.shouldExit = true
        ↔ s.shouldExit = true ∨ notificationMethod lib body = some kExit) := by
  have hstate : ∀ state reply, (Reaction.ofReply state reply).state = state := fun state reply => by
    cases reply <;> rfl
  obtain ⟨method, params, hnote, hreq, _, _, hreact⟩ | ⟨state, hreact, hnote, hreq⟩ := react_cases
  · rw [hreact, hnote, hreq]
    obtain ⟨hshutdown, hexit⟩ := onNotification_flags (o := o) (t := t) (s := s) method params
    rw [hexit, Option.some.injEq]
    refine ⟨?_, Iff.rfl⟩
    rw [hshutdown]
    exact (or_iff_left (Option.some_ne_none _).symm).symm
  · rw [hreact, hstate, hnote]
    obtain ⟨hreq, rfl⟩ | ⟨method, params, hreq, rfl⟩ := hreq
    · rw [hreq]
      exact ⟨(or_iff_left (Option.some_ne_none _).symm).symm, (or_iff_left (Option.some_ne_none _).symm).symm⟩
    · obtain ⟨hexit, hshutdown⟩ := afterRequest_flags (s := s) method params
      rw [hreq, hexit, hshutdown, Option.some.injEq]
      exact ⟨Iff.rfl, (or_iff_left (Option.some_ne_none _).symm).symm⟩

/-! ## §6. A session. -/

/-- The messages the server comes to, all of them up to the first `exit`. -/
def served (lib : JsonLib) : List Text → List Text
  | [] => []
  | body :: bodies => body :: if notificationMethod lib body = some kExit then [] else served lib bodies

/-- The loop of `run_server`, over the messages that could be read. -/
def serve (lib : JsonLib) (o : Outside Ext κ) (turns : Nat → Turn Ext) : Nat → List Text → ServerState → Reaction
  | _, [], s => ⟨s, [], false⟩
  | i, body :: bodies, s =>
      if s.shouldExit then ⟨s, [], false⟩
      else
        let r := react lib o (turns i) s body
        if r.crashed then r
        else
          let rest := serve lib o turns (i + 1) bodies r.state
          ⟨rest.state, r.sent ++ rest.sent, rest.crashed⟩

variable {turns : Nat → Turn Ext}

theorem serve_exited {i : Nat} {bodies : List Text} (h : s.shouldExit = true) :
    serve lib o turns i bodies s = ⟨s, [], false⟩ := by
  cases bodies with
  | nil => rfl
  | cons body bodies => exact if_pos h

theorem serve_crashed {i : Nat} {bodies : List Text} (h : s.shouldExit = false)
    (hcrashed : (react lib o (turns i) s body).crashed = true) :
    serve lib o turns i (body :: bodies) s = react lib o (turns i) s body := by
  rw [serve, if_neg (by rw [h]; exact Bool.false_ne_true)]
  exact if_pos hcrashed

theorem serve_next {i : Nat} {bodies : List Text} (h : s.shouldExit = false)
    (hcrashed : (react lib o (turns i) s body).crashed = false) :
    serve lib o turns i (body :: bodies) s
      = ⟨(serve lib o turns (i + 1) bodies (react lib o (turns i) s body).state).state,
          (react lib o (turns i) s body).sent
            ++ (serve lib o turns (i + 1) bodies (react lib o (turns i) s body).state).sent,
          (serve lib o turns (i + 1) bodies (react lib o (turns i) s body).state).crashed⟩ := by
  rw [serve, if_neg (by rw [h]; exact Bool.false_ne_true)]
  exact if_neg (by rw [hcrashed]; exact Bool.false_ne_true)

/-- **Answers over a session**: the replies are, in their order, the answers to the
messages served, all of them unless the program ended with an exception. -/
theorem serve_replies (hdump : ∀ j, lib.dump j ≠ some []) {bodies : List Text} :
    ∀ {i : Nat} {s : ServerState}, s.shouldExit = false →
      (serve lib o turns i bodies s).sent.filterMap (fun p => p.1.idValue) <+: (served lib bodies).filterMap (answerId lib)
        ∧ ((serve lib o turns i bodies s).crashed = false →
          (serve lib o turns i bodies s).sent.filterMap (fun p => p.1.idValue)
            = (served lib bodies).filterMap (answerId lib)) := by
  induction bodies with
  | nil => exact fun _ => ⟨List.nil_prefix, fun _ => rfl⟩
  | cons body bodies ih =>
      intro i s hs
      have hcons : (served lib (body :: bodies)).filterMap (answerId lib) = (answerId lib body).toList
          ++ (if notificationMethod lib body = some kExit then [] else served lib bodies).filterMap (answerId lib) := by
        rw [served, List.filterMap_cons]
        cases answerId lib body <;> rfl
      rw [hcons]
      cases hcrashed : (react lib o (turns i) s body).crashed with
      | true =>
          rw [serve_crashed hs hcrashed, react_crashed_sent hcrashed, hcrashed]
          exact ⟨List.nil_prefix, fun h => Bool.noConfusion h⟩
      | false =>
          rw [serve_next hs hcrashed]
          dsimp only
          rw [List.filterMap_append, react_answer hdump hcrashed, List.prefix_append_right_inj]
          -- behind `exit` the loop ends, and nothing more is served
          by_cases hexit : notificationMethod lib body = some kExit
          · have hdone : (react lib o (turns i) s body).state.shouldExit = true := react_flags.2.mpr (.inr hexit)
            rw [serve_exited hdone, if_pos hexit]
            exact ⟨List.nil_prefix, fun _ => rfl⟩
          · have hgoes : (react lib o (turns i) s body).state.shouldExit = false := by
              rw [← Bool.not_eq_true, react_flags.2, hs]
              exact not_or.mpr ⟨Bool.false_ne_true, hexit⟩
            rw [if_neg hexit]
            obtain ⟨hpre, heq⟩ := ih (i := i + 1) hgoes
            exact ⟨hpre, fun h => by rw [heq h]⟩

/-- Everything that is sent is the text of its envelope. -/
theorem react_sent_dump : ∀ p ∈ (react lib o t s body).sent, lib.dump p.1 = some p.2 := by
  intro p hp
  obtain ⟨_, _, _, _, _, _, hreact⟩ | ⟨state, hreact, _⟩ := react_cases
  · rw [hreact] at hp
    obtain ⟨envelope, _, hdump⟩ := List.mem_filterMap.mp hp
    obtain ⟨text, htext, rfl⟩ := Option.map_eq_some_iff.mp hdump
    exact htext
  · rw [hreact] at hp
    cases hreply : dispatchWire lib (requestHandlers o t s) body with
    | nothing =>
        rw [hreply] at hp
        cases hp
    | escaped =>
        rw [hreply] at hp
        cases hp
    | response reply text =>
        rw [hreply] at hp
        unfold Reaction.ofReply written at hp
        dsimp only at hp
        split at hp
        · cases hp
        · rw [List.mem_singleton.mp hp]
          exact dump_of_dispatchWire hreply

theorem serve_sent_dump {bodies : List Text} :
    ∀ {i : Nat} {s : ServerState}, ∀ p ∈ (serve lib o turns i bodies s).sent, lib.dump p.1 = some p.2 := by
  induction bodies with
  | nil => exact fun _ hp => absurd hp List.not_mem_nil
  | cons body bodies ih =>
      intro i s p hp
      cases hexit : s.shouldExit with
      | true =>
          rw [serve_exited hexit] at hp
          cases hp
      | false =>
          cases hcrashed : (react lib o (turns i) s body).crashed with
          | true =>
              rw [serve_crashed hexit hcrashed] at hp
              exact react_sent_dump p hp
          | false =>
              rw [serve_next hexit hcrashed] at hp
              obtain hp | hp := List.mem_append.mp hp
              · exact react_sent_dump p hp
              · exact ih p hp

/-- The code the process ends with: 1 from `main` after an exception, else
`exit_code`. -/
def exitCode (r : Reaction) : Nat := if r.crashed then 1 else if r.state.shutdownRequested then 0 else 1

/-- **The exit code of a session** is 0 if no exception ended it and `shutdown` was
asked for. -/
theorem serve_exitCode {bodies : List Text} :
    ∀ {i : Nat} {s : ServerState}, s.shouldExit = false →
      (exitCode (serve lib o turns i bodies s) = 0 ↔ (serve lib o turns i bodies s).crashed = false
        ∧ (s.shutdownRequested = true ∨ ∃ body ∈ served lib bodies, requestMethod lib body = some kShutdown)) := by
  have hcode : ∀ r : Reaction, exitCode r = 0 ↔ r.crashed = false ∧ r.state.shutdownRequested = true := by
    intro r
    unfold exitCode
    cases r.crashed <;> cases r.state.shutdownRequested <;> simp
  induction bodies with
  | nil =>
      intro i s _
      rw [hcode]
      simp [serve, served]
  | cons body bodies ih =>
      intro i s hs
      have hshutdown : (react lib o (turns i) s body).state.shutdownRequested = true
          ↔ s.shutdownRequested = true ∨ requestMethod lib body = some kShutdown := react_flags.1
      have hexits : (react lib o (turns i) s body).state.shouldExit = true
          ↔ s.shouldExit = true ∨ notificationMethod lib body = some kExit := react_flags.2
      cases hcrashed : (react lib o (turns i) s body).crashed with
      | true =>
          rw [serve_crashed hs hcrashed, hcode, hcrashed]
          exact ⟨fun h => Bool.noConfusion h.1, fun h => Bool.noConfusion h.1⟩
      | false =>
          rw [serve_next hs hcrashed, served]
          by_cases hexit : notificationMethod lib body = some kExit
          · rw [serve_exited (hexits.mpr (.inr hexit)), if_pos hexit, hcode]
            refine and_congr_right fun _ => hshutdown.trans (or_congr_right ?_)
            simp
          · have hgoes : (react lib o (turns i) s body).state.shouldExit = false := by
              rw [← Bool.not_eq_true, hexits, hs]
              exact not_or.mpr ⟨Bool.false_ne_true, hexit⟩
            have hrest := ih (i := i + 1) hgoes
            rw [hcode] at hrest ⊢
            rw [if_neg hexit]
            refine hrest.trans (and_congr_right fun _ => ?_)
            rw [hshutdown, or_assoc]
            refine or_congr_right ?_
            simp

end ShaderClippy.Lsp
