/-
  ShaderClippy.Lsp.ClientView

  **WHAT THE CLIENT SHOWS** (`publishDiagnostics`, `handlers.cpp`).

  The client shows for every document the diagnostics that were published for it last.
  The server keeps the diagnostics of the last lint and answers from them. `Agrees` says
  that the two are the same list, resolved in one text, and that nothing is shown for a
  document that is not open. Every handler keeps it (`handle_agrees`), so it holds after
  any session in which no published list was lost because it is not UTF-8
  (`clientView_agrees`).

  The text is that of the last lint. It is the text of now if no change went without a
  lint.
-/
import ShaderClippy.Lsp.Session
import ShaderClippy.Lsp.StaleFixes

namespace ShaderClippy.Lsp

/-! ## §1. Views. -/

/-- The diagnostics shown for each document. -/
abbrev View := Text → Option (List LspDiagnostic)

/-- The client takes an output. -/
def View.receive (view : View) : Output → View
  | .publishDiagnostics uri _ diagnostics => fun u => if u = uri then some diagnostics else view u
  | _ => view

/-- The diagnostics a client reads from an envelope, and their document. -/
def publishedIn (envelope : Json) : Option (Text × Json) :=
  if envelope.methodText = some kPublishDiagnostics then
    (envelope.find kParams).bind fun params =>
      match params.find kUri, params.find kDiagnostics with
      | some (.string uri), some diagnostics => some (uri, diagnostics)
      | _, _ => none
  else none

/-- What is shown for a document after one more envelope. -/
def showNext (uri : Text) (before : Option Json) (envelope : Json) : Option Json :=
  match publishedIn envelope with
  | some (u, diagnostics) => if uri = u then some diagnostics else before
  | none => before

/-- What is shown for a document after the envelopes. -/
def shown (envelopes : List Json) (uri : Text) : Option Json := envelopes.foldl (showNext uri) none

/-- Diagnostics, as they are sent. -/
def diagnosticsJson (diagnostics : List LspDiagnostic) : Json := .array (diagnostics.map diagnosticJson)

/-- What is shown for a document that is open, or for one that is not. The text is the
one of the last lint; in a strict run it is the text of the document. -/
def AgreesAt (strict : Prop) (doc : Option OpenDocument) (shown : Option (List LspDiagnostic)) : Prop :=
  match doc with
  | none => shown = none ∨ shown = some []
  | some doc => ∃ text, shown = some (doc.latestDiagnostics.map (toLspDiagnostic text)) ∧ (strict → text = doc.contents)

/-- The client and the server agree. -/
def Agrees (strict : Prop) (docs : DocumentManager) (view : View) : Prop :=
  ∀ uri, AgreesAt strict (docs.find uri) (view uri)

/-! ## §2. One message. -/

variable {Env : Type} {host : Host Env} {strict : Prop} {docs : DocumentManager} {view : View}

/-- A lint makes the client agree about its document. -/
theorem lintAndPublish_agrees {uri : Text} {ev : Event Env}
    (h : ∀ u, u ≠ uri → AgreesAt strict (docs.find u) (view u))
    (hclosed : docs.find uri = none → AgreesAt strict none (view uri)) :
    Agrees strict (lintAndPublish host docs uri ev).1
      ((lintAndPublish host docs uri ev).2.foldl View.receive view) := by
  cases hdoc : docs.find uri with
  | none =>
      rw [lintAndPublish, hdoc]
      intro u
      by_cases hu : u = uri
      · rw [hu]
        show AgreesAt strict (docs.find uri) (view uri)
        rw [hdoc]
        exact hclosed hdoc
      · exact h u hu
  | some doc =>
      rw [lintAndPublish, hdoc]
      intro u
      by_cases hu : u = uri
      · subst hu
        simp only [DocumentManager.markLinted, DocumentManager.find_set_self]
        -- what was linted is what is now shown
        exact ⟨doc.contents, if_pos rfl, fun _ => rfl⟩
      · simp only [DocumentManager.markLinted, DocumentManager.find_set_self, DocumentManager.find_set_ne _ _ hu]
        show AgreesAt strict (docs.find u) (if u = uri then _ else view u)
        rw [if_neg hu]
        exact h u hu

/-- A document is stored with the diagnostics it had. -/
theorem agrees_set {uri : Text} {doc doc' : OpenDocument} (h : Agrees strict docs view)
    (hdoc : docs.find uri = some doc)
    (hlatest : doc'.latestDiagnostics = doc.latestDiagnostics) (hsame : strict → doc'.contents = doc.contents) :
    Agrees strict (docs.set uri (some doc')) view := by
  intro u
  by_cases hu : u = uri
  · subst hu
    have hagrees := h u
    rw [hdoc] at hagrees
    obtain ⟨text, hshown, htext⟩ := hagrees
    rw [DocumentManager.find_set_self]
    exact ⟨text, by rw [hshown, hlatest], fun hs => (htext hs).trans (hsame hs).symm⟩
  · rw [DocumentManager.find_set_ne docs _ hu]
    exact h u

theorem onDidChange_agrees {uri : Text} {version : Int} {changes : List ContentChange} {ev : Event Env}
    (h : Agrees strict docs view)
    (hrelint : strict → ∀ doc, docs.find uri = some doc →
      (applyEach doc.contents changes).1 = doc.contents
        ∨ ((applyEach doc.contents changes).2 = true
            ∧ (doc.lastLintTime = 0 ∨ debounce ≤ ev.gateAt - ev.changedAt))) :
    Agrees strict (onDidChange host docs uri version changes ev).1
      ((onDidChange host docs uri version changes ev).2.foldl View.receive view) := by
  cases hdoc : docs.find uri with
  | none =>
      have happly : docs.applyChanges uri version changes ev.changedAt = (docs, false) := by
        rw [DocumentManager.applyChanges, hdoc]
      rw [onDidChange, happly]
      exact h
  | some doc =>
      cases happly : applyEach doc.contents changes with
      | mk contents ok =>
          have hcond := fun hs => hrelint hs doc hdoc
          rw [happly] at hcond
          cases ok with
          | false =>
              -- the changes before the refused one stay, and nothing is linted
              have hstep : docs.applyChanges uri version changes ev.changedAt
                  = (docs.set uri (some { doc with contents := contents }), false) := by
                simp only [DocumentManager.applyChanges, hdoc, happly]
              rw [onDidChange, hstep]
              refine agrees_set h hdoc rfl fun hs => ?_
              exact (hcond hs).resolve_right fun hno => absurd hno.1 Bool.false_ne_true
          | true =>
              have hstep : docs.applyChanges uri version changes ev.changedAt
                  = (docs.set uri (some { doc with
                      contents := contents, version := version, lastChangeTime := ev.changedAt }), true) := by
                simp only [DocumentManager.applyChanges, hdoc, happly]
              rw [onDidChange, hstep]
              dsimp only
              split
              case isFalse =>
                refine lintAndPublish_agrees (fun u hu => ?_) fun hnone => ?_
                · rw [DocumentManager.find_set_ne docs _ hu]
                  exact h u
                · rw [DocumentManager.find_set_self] at hnone
                  cases hnone
              case isTrue hgate =>
                refine agrees_set h hdoc rfl fun hs => ?_
                -- the gate holds the lint back: in a strict run the text is what it was
                obtain hsame | ⟨_, hopen⟩ := hcond hs
                · exact hsame
                · rw [DocumentManager.shouldDebounceLint, DocumentManager.find_set_self] at hgate
                  obtain hzero | hlate := hopen
                  · simp [hzero] at hgate
                  · simp only [Bool.if_false_left, Bool.and_eq_true, decide_eq_true_eq] at hgate
                    exact absurd hgate.2 (Nat.not_lt.mpr hlate)

/-- **One message.** -/
theorem handle_agrees {ev : Event Env} (h : Agrees strict docs view) (hrelint : strict → Relints docs ev) :
    Agrees strict (handle host docs ev).1 ((handle host docs ev).2.foldl View.receive view) := by
  unfold handle
  unfold Relints at hrelint
  cases hm : ev.message with
  | didOpen uri text version =>
      refine lintAndPublish_agrees (fun u hu => ?_) fun hnone => ?_
      · rw [DocumentManager.openDocument, DocumentManager.find_set_ne docs _ hu]
        exact h u
      · rw [DocumentManager.openDocument, DocumentManager.find_set_self] at hnone
        cases hnone
  | didChange uri version changes =>
      rw [hm] at hrelint
      exact onDidChange_agrees h hrelint
  | didSave uri =>
      refine lintAndPublish_agrees (fun u _ => h u) fun hnone => ?_
      have hagrees := h uri
      rw [hnone] at hagrees
      exact hagrees
  | didClose uri =>
      intro u
      show AgreesAt strict ((docs.close uri).find u) (if u = uri then some [] else view u)
      -- an empty list is published for the document that was closed
      by_cases hu : u = uri
      · rw [if_pos hu, hu, DocumentManager.close, DocumentManager.find_set_self]
        exact .inr rfl
      · rw [if_neg hu, DocumentManager.close, DocumentManager.find_set_ne docs _ hu]
        exact h u
  | codeAction uri range =>
      show Agrees strict docs ((onCodeAction docs uri range).foldl View.receive view)
      unfold onCodeAction
      split <;> exact h
  | hover uri position =>
      show Agrees strict docs ((onHover docs uri position).foldl View.receive view)
      unfold onHover
      split <;> exact h

/-! ## §3. Envelopes. -/

/-- The client reads what was published. -/
theorem publishedIn_publishDiagnostics (uri : Text) (version : Option Int) (diagnostics : List LspDiagnostic) :
    publishedIn (publishDiagnosticsJson uri version diagnostics) = some (uri, diagnosticsJson diagnostics) := by
  cases version <;> rfl

theorem showNext_envelope {output : Output} {envelope : Json} (h : output.envelope = some envelope) (view : View)
    (uri : Text) :
    showNext uri ((view uri).map diagnosticsJson) envelope = (view.receive output uri).map diagnosticsJson := by
  cases output with
  | codeActions => cases h
  | hover => cases h
  | publishDiagnostics u version diagnostics =>
      cases h
      unfold showNext
      rw [publishedIn_publishDiagnostics]
      show (if uri = u then _ else _) = ((if uri = u then some diagnostics else view uri).map diagnosticsJson)
      split <;> rfl

/-- An output that is no notification shows nothing. -/
theorem receive_of_envelope_none {output : Output} (h : output.envelope = none) (view : View) :
    view.receive output = view := by
  cases output with
  | publishDiagnostics => cases h
  | codeActions => rfl
  | hover => rfl

/-- All outputs of a handler, if none is lost. -/
theorem foldl_showNext {lib : JsonLib} {outputs : List Output} (uri : Text)
    (h : ∀ e ∈ outputs.filterMap Output.envelope, lib.dump e ≠ none) :
    ∀ {view : View}, ((published lib outputs).map Prod.fst).foldl (showNext uri) ((view uri).map diagnosticsJson)
      = ((outputs.foldl View.receive view) uri).map diagnosticsJson := by
  induction outputs with
  | nil => exact fun {view} => rfl
  | cons output outputs ih =>
      intro view
      cases henvelope : output.envelope with
      | none =>
          rw [List.filterMap_cons_none henvelope] at h
          rw [List.foldl_cons, receive_of_envelope_none henvelope, ← ih h, published,
            List.filterMap_cons_none henvelope]
          rfl
      | some envelope =>
          rw [List.filterMap_cons_some henvelope] at h
          obtain ⟨text, htext⟩ := Option.ne_none_iff_exists'.mp (h envelope List.mem_cons_self)
          have hpublished : published lib (output :: outputs) = (envelope, text) :: published lib outputs := by
            rw [published, List.filterMap_cons_some henvelope]
            refine List.filterMap_cons_some ?_
            rw [htext]
            rfl
          rw [hpublished, List.map_cons, List.foldl_cons, showNext_envelope henvelope, List.foldl_cons]
          exact ih fun e he => h e (List.mem_cons_of_mem _ he)

/-- A reply has no method, so it publishes nothing. -/
theorem publishedIn_reply {lib : JsonLib} {d : JsonRpcDispatcher} {body : Text} {reply : Json} {text : Text}
    (h : dispatchWire lib d body = .response reply text) : publishedIn reply = none := by
  have hsuccess : ∀ id result, publishedIn (buildSuccess id result) = none := fun _ _ => rfl
  have herror : ∀ id err, publishedIn (buildError id err) = none := fun _ _ => rfl
  have hrequest : ∀ id method params, publishedIn (handleRequest d id method params) = none := by
    intro id method params
    unfold handleRequest
    split
    · exact herror _ _
    · split
      · exact hsuccess _ _
      · exact herror _ _
      · exact herror _ _
      · exact herror _ _
  have hsend : ∀ {envelope}, publishedIn envelope = none → send lib envelope = .response reply text →
      publishedIn reply = none := by
    intro envelope hnone hsend
    rw [(send_response hsend).1]
    exact hnone
  unfold dispatchWire at h
  split at h
  · exact hsend (herror _ _) h
  · exact hsend (herror _ _) h
  · unfold dispatch at h
    split at h
    · exact hsend (herror _ _) h
    · split at h
      · split at h
        · exact hsend (hrequest _ _ _) h
        · cases h
      · split at h
        · exact hsend (herror _ _) h
        · cases h

/-! ## §4. Sessions. -/

variable {Ext κ : Type} {lib : JsonLib} {o : Outside Ext κ} {t : Turn Ext} {s : ServerState} {body : Text}
  {turns : Nat → Turn Ext}

/-- What the client shows agrees with the server. -/
def ViewSync (strict : Prop) (s : ServerState) (envelopes : List Json) : Prop :=
  ∃ view : View, Agrees strict s.docs view ∧ ∀ uri, shown envelopes uri = (view uri).map diagnosticsJson

/-- Nothing that the message publishes is lost. -/
def Delivers (lib : JsonLib) (o : Outside Ext κ) (t : Turn Ext) (s : ServerState) (body : Text) : Prop :=
  ∀ envelope method, lib.parse body = .ok envelope → envelope.methodText = some method → parseId envelope = none →
    ∀ e ∈ (onNotification o t s method (requestParams envelope)).2.filterMap Output.envelope, lib.dump e ≠ none

/-- If the message changes a document, a lint follows. -/
def RelintsMessage (lib : JsonLib) (t : Turn Ext) (s : ServerState) (body : Text) : Prop :=
  ∀ envelope method message, lib.parse body = .ok envelope → envelope.methodText = some method →
    documentNotification method (requestParams envelope) = some message → Relints s.docs (s.event t message)

/-- A condition on every message that is served. -/
def Along (lib : JsonLib) (o : Outside Ext κ) (turns : Nat → Turn Ext) (P : Turn Ext → ServerState → Text → Prop) :
    Nat → List Text → ServerState → Prop
  | _, [], _ => True
  | i, body :: bodies, s =>
      s.shouldExit = false → P (turns i) s body
        ∧ Along lib o turns P (i + 1) bodies (react lib o (turns i) s body).state

/-- A request leaves the documents as they are. -/
theorem afterRequest_docs (method : Text) (params : Json) : (afterRequest s method params).docs = s.docs := by
  unfold afterRequest
  split
  · rfl
  · split <;> rfl

theorem onNotification_agrees {view : View} {method : Text} {params : Json} (h : Agrees strict s.docs view)
    (hrelint : strict → ∀ message, documentNotification method params = some message →
      Relints s.docs (s.event t message)) :
    Agrees strict (onNotification o t s method params).1.docs
      ((onNotification o t s method params).2.foldl View.receive view) := by
  unfold onNotification
  split
  · exact h
  · split
    · exact h
    · split
      case h_1 => exact h
      case h_2 message hmessage => exact handle_agrees h fun hs => hrelint hs message hmessage

/-- A reply changes nothing of what is shown. -/
theorem inSync_ofReply {d : JsonRpcDispatcher} {state : ServerState} {envelopes : List Json}
    (h : ViewSync strict state envelopes) :
    ViewSync strict (Reaction.ofReply state (dispatchWire lib d body)).state
      (envelopes ++ (Reaction.ofReply state (dispatchWire lib d body)).sent.map Prod.fst) := by
  cases hreply : dispatchWire lib d body with
  | nothing =>
      show ViewSync strict state (envelopes ++ [])
      rw [List.append_nil]
      exact h
  | escaped =>
      show ViewSync strict state (envelopes ++ [])
      rw [List.append_nil]
      exact h
  | response reply text =>
      obtain ⟨view, hagrees, hshown⟩ := h
      refine ⟨view, hagrees, fun uri => ?_⟩
      have hkeep : ∀ before, showNext uri before reply = before := by
        intro before
        unfold showNext
        rw [publishedIn_reply hreply]
      unfold Reaction.ofReply written
      dsimp only
      split
      · rw [List.map_nil, List.append_nil]
        exact hshown uri
      · rw [List.map_singleton, shown, List.foldl_append, List.foldl_cons, List.foldl_nil, hkeep]
        exact hshown uri

/-- **One message of a session.** -/
theorem react_viewSync {envelopes : List Json} (h : ViewSync strict s envelopes) (hdelivers : Delivers lib o t s body)
    (hrelint : strict → RelintsMessage lib t s body) :
    ViewSync strict (react lib o t s body).state (envelopes ++ (react lib o t s body).sent.map Prod.fst) := by
  unfold react
  cases hparse : lib.parse body with
  | error e => exact inSync_ofReply h
  | ok envelope =>
      dsimp only
      cases hmethod : envelope.methodText with
      | none => exact inSync_ofReply h
      | some method =>
          cases hid : parseId envelope with
          | some id =>
              -- a request leaves the documents as they were
              refine inSync_ofReply ?_
              obtain ⟨view, hagrees, hshown⟩ := h
              exact ⟨view, by rw [afterRequest_docs]; exact hagrees, hshown⟩
          | none =>
              obtain ⟨view, hagrees, hshown⟩ := h
              refine ⟨_, onNotification_agrees hagrees fun hs message hmessage =>
                hrelint hs envelope method message hparse hmethod hmessage, fun uri => ?_⟩
              -- all that was sent has arrived, in the order in which it was sent
              rw [shown, List.foldl_append]
              show List.foldl (showNext uri) (shown envelopes uri) _ = _
              rw [hshown]
              exact foldl_showNext uri (hdelivers envelope method hparse hmethod hid)

/-- **A session.** -/
theorem serve_viewSync {bodies : List Text} :
    ∀ {i : Nat} {s : ServerState} {envelopes : List Json}, ViewSync strict s envelopes →
      Along lib o turns (Delivers lib o) i bodies s →
      (strict → Along lib o turns (RelintsMessage lib) i bodies s) →
      ViewSync strict (serve lib o turns i bodies s).state (envelopes ++ (serve lib o turns i bodies s).sent.map Prod.fst) := by
  induction bodies with
  | nil =>
      intro i s envelopes h _ _
      show ViewSync strict s (envelopes ++ [])
      rw [List.append_nil]
      exact h
  | cons body bodies ih =>
      intro i s envelopes h hdelivers hrelint
      cases hexit : s.shouldExit with
      | true =>
          rw [serve_exited hexit]
          show ViewSync strict s (envelopes ++ [])
          rw [List.append_nil]
          exact h
      | false =>
          obtain ⟨hnow, hlater⟩ := hdelivers hexit
          have hstep := react_viewSync h hnow fun hs => (hrelint hs hexit).1
          cases hcrashed : (react lib o (turns i) s body).crashed with
          | true =>
              rw [serve_crashed hexit hcrashed]
              exact hstep
          | false =>
              rw [serve_next hexit hcrashed, List.map_append, ← List.append_assoc]
              exact ih hstep hlater fun hs => (hrelint hs hexit).2

/-- **What the client shows** after a session in which nothing published was lost: for a
document that is open the diagnostics the server answers from, as they are in one text;
for any other one nothing. If no change went without a lint, the text is that of the
document. -/
theorem clientView_agrees (lib : JsonLib) (o : Outside Ext κ) (turns : Nat → Turn Ext) (bodies : List Text)
    (hdelivers : Along lib o turns (Delivers lib o) 0 bodies .initial) (uri : Text) :
    match (serve lib o turns 0 bodies .initial).state.docs.find uri with
    | none =>
        shown ((serve lib o turns 0 bodies .initial).sent.map Prod.fst) uri = none
          ∨ shown ((serve lib o turns 0 bodies .initial).sent.map Prod.fst) uri = some (diagnosticsJson [])
    | some doc =>
        ∃ text, shown ((serve lib o turns 0 bodies .initial).sent.map Prod.fst) uri
            = some (diagnosticsJson (doc.latestDiagnostics.map (toLspDiagnostic text)))
          ∧ (Along lib o turns (RelintsMessage lib) 0 bodies .initial → text = doc.contents) := by
  have hinitial : ViewSync (Along lib o turns (RelintsMessage lib) 0 bodies .initial) ServerState.initial [] :=
    ⟨fun _ => none, fun _ => .inl rfl, fun _ => rfl⟩
  obtain ⟨view, hagrees, hshown⟩ := serve_viewSync hinitial hdelivers id
  rw [List.nil_append] at hshown
  have hat := hagrees uri
  rw [hshown uri]
  split
  case h_1 hnone =>
    rw [hnone] at hat
    exact hat.imp (fun h => by rw [h]; rfl) fun h => by rw [h]; rfl
  case h_2 doc hdoc =>
    rw [hdoc] at hat
    obtain ⟨text, htext, hsame⟩ := hat
    exact ⟨text, by rw [htext]; rfl, hsame⟩

/-- A message that opens a document, and its text. -/
def openEnvelope : Json :=
  .object [(kMethod, .string kDidOpen), (kParams, .object [(kTextDocument, .object
    [(kText, .string "ab".toList), (kUri, .string "u".toList), (kVersionMember, .unsigned 1)])])]

def openBody : Text :=
  ("\x7b\"method\":\"textDocument/didOpen\",\"params\":\x7b\"textDocument\":\x7b\"text\":\"ab\",".toList
    ++ "\"uri\":\"u\",\"version\":1\x7d\x7d\x7d".toList)

/-- What the JSON library does with it, and with a notification of one diagnostic. -/
def openLib : JsonLib where
  parse text := if text = openBody then .ok openEnvelope else .error .parseError
  dump j :=
    if j.valid then
      some ("\x7b\"jsonrpc\":\"2.0\",\"method\":\"textDocument/publishDiagnostics\",\"params\":\x7b".toList
        ++ "\"diagnostics\":[\x7b\"code\":\"r\",\"message\":\"m\",\"range\":\x7b\"end\":\x7b".toList
        ++ "\"character\":1,\"line\":0\x7d,\"start\":\x7b\"character\":0,\"line\":0\x7d\x7d,".toList
        ++ "\"severity\":2,\"source\":\"shader-clippy\"\x7d],\"uri\":\"u\",\"version\":1\x7d\x7d".toList)
    else none
  parse_valid := by
    intro text j h
    split at h
    · cases h
      decide
    · cases h
  dump_isSome := by
    intro j
    cases j.valid <;> rfl

/-- A linter that has something to say about the first byte. -/
def firstByte : Outside Unit Unit where
  lint _ _ _ _ _ := [⟨['r'], .warning, ⟨⟨1⟩, ⟨0, 1⟩⟩, ['m'], []⟩]
  resolveConfig _ _ := none
  shaderIncludeDirectories _ := []

def atStart (_ : Nat) : Turn Unit := ⟨(), 0, 0, 0⟩

theorem openBody_delivers : Along openLib firstByte atStart (Delivers openLib firstByte) 0 [openBody] .initial := by
  refine fun _ => ⟨?_, trivial⟩
  intro envelope method hparse hmethod _ e he
  have hopen : openLib.parse openBody = .ok openEnvelope := rfl
  rw [hopen] at hparse
  cases hparse
  cases hmethod
  rw [List.mem_singleton.mp he]
  decide +kernel

theorem clientView_agrees_open :
    ∃ text, shown ((serve openLib firstByte atStart 0 [openBody] .initial).sent.map Prod.fst) "u".toList
        = some (diagnosticsJson ([(⟨['r'], .warning, ⟨⟨1⟩, ⟨0, 1⟩⟩, ['m'], []⟩ : Diagnostic)].map (toLspDiagnostic text)))
      ∧ (Along openLib firstByte atStart (RelintsMessage openLib) 0 [openBody] .initial → text = "ab".toList) :=
  clientView_agrees openLib firstByte atStart [openBody] openBody_delivers "u".toList

end ShaderClippy.Lsp
