/-
  ShaderClippy.Lsp.Dispatcher

  **THE JSON-RPC DISPATCHER** (`rpc/dispatcher.cpp`, `rpc/message.hpp`).

  One incoming text becomes nothing, one reply, or an exception: a handler's
  exception is caught, but the reply is serialised outside the `try`, and the
  JSON library throws on a string that is not UTF-8.

  The program answers a text it cannot parse, or one that is not an object,
  under the id 0, and it reads an id over 2⁶³ - 1 as a negative number.
  `replyDiscipline_iff` says that these two and the exception are the only
  ways to break the discipline.
-/
import Mathlib
import ShaderClippy.Lsp.Json

namespace ShaderClippy.Lsp

/-! ## §1. Messages. -/

/-- The member names the dispatcher reads and writes. -/
def kJsonrpc : Text := "jsonrpc".toList
def kVersion : Text := "2.0".toList
def kId : Text := "id".toList
def kMethod : Text := "method".toList
def kParams : Text := "params".toList
def kResult : Text := "result".toList
def kError : Text := "error".toList
def kCode : Text := "code".toList
def kMessage : Text := "message".toList
def kData : Text := "data".toList

/-- The dispatcher's own error texts. -/
def kJsonParseError : Text := "JSON parse error".toList
def kUnknownParseFailure : Text := "unknown JSON parse failure".toList
def kNotAnObject : Text := "envelope is not a JSON object".toList
def kMissingMethod : Text := "missing or non-string `method`".toList
def kMethodNotFound : Text := "method not found: ".toList
def kHandlerThrew : Text := "handler threw: ".toList
def kHandlerThrewUnknown : Text := "handler threw unknown exception".toList

/-- A request id. -/
inductive Id where
  | number (v : Int64)
  | string (s : Text)

/-- The integer or the text of an id. -/
def Id.value : Id → Int ⊕ Text
  | .number v => .inl v.toInt
  | .string s => .inr s

/-- `id_to_json`. -/
def idToJson : Id → Json
  | .number v => .integer v
  | .string s => .string s

structure ErrorObject where
  code : Int
  message : Text
  data : Json

/-- What a request handler comes to. -/
inductive HandlerOutcome where
  | returned (result : Json)
  | failed (error : ErrorObject)
  | threw (what : Text)
  | threwUnknown

/-- The registered request handlers. What a notification handler does is not
seen by the caller, exceptions included. -/
structure JsonRpcDispatcher where
  requestHandlers : Text → Option (Json → HandlerOutcome)

/-- `parse_id`. -/
def parseId (envelope : Json) : Option Id :=
  match envelope.find kId with
  | some (.integer v) => some (.number v)
  | some (.unsigned v) => some (.number v.toInt64)
  | some (.string s) => some (.string s)
  | _ => none

/-- `build_success`. -/
def buildSuccess (id : Id) (result : Json) : Json :=
  .object [(kJsonrpc, .string kVersion), (kId, idToJson id),
    (kResult, result)]

/-- `build_error`. -/
def buildError (id : Id) (err : ErrorObject) : Json :=
  .object [(kJsonrpc, .string kVersion), (kId, idToJson id),
    (kError, .object
      ([(kCode, .integer (Int64.ofInt err.code)), (kMessage, .string err.message)]
        ++ if err.data.isNull then [] else [(kData, err.data)]))]

def parseError : Int := -32700
def invalidRequest : Int := -32600
def methodNotFound : Int := -32601
def internalError : Int := -32603

/-! ## §2. Dispatch. -/

/-- What comes of one incoming text. -/
inductive Reply where
  | nothing
  | response (envelope : Json) (wire : Text)
  | escaped

variable (lib : JsonLib)

/-- `dump`, and the exception it may throw. -/
def send (envelope : Json) : Reply :=
  match lib.dump envelope with
  | some wire => .response envelope wire
  | none => .escaped

/-- The envelope `handle_request` replies with. -/
def handleRequest (d : JsonRpcDispatcher) (id : Id) (method : Text) (params : Json) : Json :=
  match d.requestHandlers method with
  | none => buildError id ⟨methodNotFound, kMethodNotFound ++ method, .null⟩
  | some handler =>
      match handler params with
      | .returned result => buildSuccess id result
      | .failed err => buildError id err
      | .threw what => buildError id ⟨internalError, kHandlerThrew ++ what, .null⟩
      | .threwUnknown =>
          buildError id ⟨internalError, kHandlerThrewUnknown, .null⟩

/-- `params`, an empty object when it is missing. -/
def requestParams (envelope : Json) : Json :=
  match envelope.find kParams with
  | some params => params
  | none => .object []

/-- `dispatch`. -/
def dispatch (d : JsonRpcDispatcher) (envelope : Json) : Reply :=
  if !envelope.isObject then
    send lib (buildError (.number 0)
      ⟨invalidRequest, kNotAnObject, .null⟩)
  else
    match envelope.find kMethod with
    | some (.string method) =>
        match parseId envelope with
        | some id => send lib (handleRequest d id method (requestParams envelope))
        | none => .nothing
    | _ =>
        match parseId envelope with
        | some id => send lib (buildError id
            ⟨invalidRequest, kMissingMethod, .null⟩)
        | none => .nothing

/-- `dispatch_wire`. -/
def dispatchWire (d : JsonRpcDispatcher) (wire : Text) : Reply :=
  match lib.parse wire with
  | .error .parseError =>
      send lib (buildError (.number 0) ⟨parseError, kJsonParseError, .null⟩)
  | .error .other =>
      send lib (buildError (.number 0) ⟨parseError, kUnknownParseFailure, .null⟩)
  | .ok envelope => dispatch lib d envelope

/-! ## §3. The discipline. -/

/-- The id a message carries: an integer or a string. -/
def Json.idValue (envelope : Json) : Option (Int ⊕ Text) :=
  match envelope.find kId with
  | some (.integer v) => some (.inl v.toInt)
  | some (.unsigned v) => some (.inl v.toNat)
  | some (.string s) => some (.inr s)
  | _ => none

def Json.methodText (envelope : Json) : Option Text :=
  match envelope.find kMethod with
  | some (.string method) => some method
  | _ => none

/-- JSON-RPC reply discipline, for one incoming text. -/
structure ReplyDiscipline (d : JsonRpcDispatcher) (wire : Text) : Prop where
  /-- A request is answered once, under its own id. -/
  request : ∀ envelope method id, lib.parse wire = .ok envelope →
    envelope.methodText = some method → envelope.idValue = some id →
    ∃ reply text, dispatchWire lib d wire = .response reply text ∧ reply.idValue = some id
  /-- A notification is not answered. -/
  notification : ∀ envelope method, lib.parse wire = .ok envelope →
    envelope.methodText = some method →
    (envelope.find kId = none ∨ envelope.find kId = some .null) →
    dispatchWire lib d wire = .nothing
  /-- An id in a reply is the id of the message. -/
  ownId : ∀ reply text id, dispatchWire lib d wire = .response reply text →
    reply.idValue = some id → ∃ envelope, lib.parse wire = .ok envelope ∧ envelope.idValue = some id

/-- The id is no unsigned number over 2⁶³ - 1. -/
def IdFits (envelope : Json) : Prop :=
  ∀ v, envelope.find kId = some (.unsigned v) → v.toNat < 2 ^ 63

/-- What the handler answers is UTF-8. -/
def HandlerOutcome.valid : HandlerOutcome → Prop
  | .returned result => result.valid = true
  | .failed err => validUtf8 err.message = true ∧ err.data.valid = true
  | .threw what => validUtf8 what = true
  | .threwUnknown => True

/-- If the message is a request with a handler, the handler's answer can be
serialised. -/
def AnswerSerialises (d : JsonRpcDispatcher) (envelope : Json) : Prop :=
  ∀ method id handler, envelope.methodText = some method → envelope.idValue = some id →
    d.requestHandlers method = some handler → (handler (requestParams envelope)).valid

/-! ## §4. What is sent. -/

theorem send_of_valid {envelope : Json} (h : envelope.valid = true) :
    ∃ text, send lib envelope = .response envelope text := by
  have hsome := lib.dump_isSome envelope
  rw [h, Option.isSome_iff_exists] at hsome
  have ⟨text, htext⟩ := hsome
  exact ⟨text, by rw [send, htext]⟩

variable {lib}

theorem send_response {envelope reply : Json} {text : Text}
    (h : send lib envelope = .response reply text) : reply = envelope ∧ envelope.valid = true := by
  rw [send] at h
  cases hd : lib.dump envelope with
  | none =>
      rw [hd] at h
      cases h
  | some t =>
      rw [hd] at h
      cases h
      exact ⟨rfl, by rw [← lib.dump_isSome, hd]; rfl⟩

theorem idValue_buildSuccess (id : Id) (result : Json) :
    (buildSuccess id result).idValue = some id.value := by
  cases id <;> rfl

theorem idValue_buildError (id : Id) (err : ErrorObject) :
    (buildError id err).idValue = some id.value := by
  cases id <;> rfl

theorem idValue_handleRequest (d : JsonRpcDispatcher) (id : Id) (method : Text) (params : Json) :
    (handleRequest d id method params).idValue = some id.value := by
  rw [handleRequest]
  cases d.requestHandlers method with
  | none => exact idValue_buildError _ _
  | some handler =>
      show (match handler params with
        | .returned result => buildSuccess id result
        | .failed err => buildError id err
        | .threw what => _
        | .threwUnknown => _).idValue = _
      cases handler params with
      | returned result => exact idValue_buildSuccess _ _
      | failed err => exact idValue_buildError _ _
      | threw what => exact idValue_buildError _ _
      | threwUnknown => exact idValue_buildError _ _

def Id.valid : Id → Bool
  | .number _ => true
  | .string s => validUtf8 s

@[simp] theorem valid_keys :
    validUtf8 kJsonrpc = true ∧ validUtf8 kVersion = true ∧ validUtf8 kId = true
      ∧ validUtf8 kResult = true ∧ validUtf8 kError = true ∧ validUtf8 kCode = true
      ∧ validUtf8 kMessage = true ∧ validUtf8 kData = true := by
  decide

theorem valid_buildSuccess (id : Id) (result : Json) :
    (buildSuccess id result).valid = (id.valid && result.valid) := by
  cases id <;>
    simp [buildSuccess, idToJson, Json.valid, Json.validMembers, Id.valid]

theorem valid_buildError (id : Id) (err : ErrorObject) :
    (buildError id err).valid = (id.valid && (validUtf8 err.message && err.data.valid)) := by
  have hnull : err.data.isNull = true → err.data.valid = true := by
    cases err.data with
    | null => exact fun _ => rfl
    | _ => exact nofun
  by_cases hd : err.data.isNull = true
  · have hv := hnull hd
    cases id <;>
      simp [buildError, idToJson, Json.valid, Json.validMembers, Id.valid, hd, hv]
  · cases id <;>
      simp [buildError, idToJson, Json.valid, Json.validMembers, Id.valid, hd]

/-- The program's own error texts are ASCII. -/
theorem valid_ascii_error (id : Id) (code : Int) {message : Text}
    (h : ascii message = true) : (buildError id ⟨code, message, .null⟩).valid = id.valid := by
  have hmsg : validUtf8 message = true := by
    rw [← List.append_nil message, validUtf8_ascii_append h]
    rfl
  simp [valid_buildError, hmsg, Json.valid]

/-- An error with one of the program's own texts is always sent. -/
theorem send_ascii_error (lib : JsonLib) {id : Id} (code : Int) (message : Text)
    (hid : id.valid = true) (h : ascii message = true) :
    ∃ reply text, send lib (buildError id ⟨code, message, .null⟩) = .response reply text
      ∧ reply.idValue = some id.value := by
  have hvalid := valid_ascii_error id code h
  rw [hid] at hvalid
  have ⟨text, htext⟩ := send_of_valid lib hvalid
  exact ⟨_, text, htext, idValue_buildError _ _⟩

/-- A reply can be serialised when the handler's answer can. -/
theorem valid_handleRequest (d : JsonRpcDispatcher) {id : Id} {method : Text} (params : Json)
    (hid : id.valid = true) (hmethod : validUtf8 method = true) :
    (handleRequest d id method params).valid = true ↔
      ∀ handler, d.requestHandlers method = some handler → (handler params).valid := by
  rw [handleRequest]
  cases d.requestHandlers method with
  | none =>
      have hmsg : validUtf8 (kMethodNotFound ++ method) = true := by
        rw [validUtf8_ascii_append rfl]
        exact hmethod
      simp [valid_buildError, hid, hmsg, Json.valid]
  | some handler =>
      simp only [Option.some.injEq, forall_eq']
      cases handler params with
      | returned result => simp [valid_buildSuccess, hid, HandlerOutcome.valid]
      | failed err => simp [valid_buildError, hid, HandlerOutcome.valid]
      | threw what =>
          have hmsg : validUtf8 (kHandlerThrew ++ what) = validUtf8 what :=
            validUtf8_ascii_append rfl
          simp [valid_buildError, hid, hmsg, HandlerOutcome.valid, Json.valid]
      | threwUnknown =>
          have hmsg : validUtf8 kHandlerThrewUnknown = true := by decide
          simp only [valid_buildError, hid, hmsg, HandlerOutcome.valid, Json.valid, Bool.and_self]

/-! ## §5. The id of a message. -/

/-- The id a request is answered under is its own, if it fits. -/
theorem parseId_spec {envelope : Json} (hfits : IdFits envelope) (id : Int ⊕ Text) :
    envelope.idValue = some id ↔ ∃ i, parseId envelope = some i ∧ i.value = id := by
  rw [Json.idValue, parseId]
  cases hf : envelope.find kId with
  | none => simp
  | some j =>
      cases j with
      | unsigned v =>
          have hv := hfits v hf
          have hwrap : v.toInt64.toInt = v.toNat :=
            BitVec.toInt_eq_toNat_of_lt (show 2 * v.toNat < 2 ^ 64 by omega)
          simp [Id.value, hwrap]
      | _ => simp [Id.value]

theorem parseId_valid {envelope : Json} {id : Id} (hv : envelope.valid = true)
    (h : parseId envelope = some id) : id.valid = true := by
  rw [parseId] at h
  cases hf : envelope.find kId with
  | none =>
      rw [hf] at h
      cases h
  | some j =>
      rw [hf] at h
      cases j with
      | string s =>
          cases h
          have := Json.valid_of_find hv hf
          rwa [Json.valid] at this
      | integer v =>
          cases h
          rfl
      | unsigned v =>
          cases h
          rfl
      | _ => cases h

theorem methodText_valid {envelope : Json} {method : Text} (hv : envelope.valid = true)
    (h : envelope.methodText = some method) : validUtf8 method = true := by
  rw [Json.methodText] at h
  cases hf : envelope.find kMethod with
  | none =>
      rw [hf] at h
      cases h
  | some j =>
      rw [hf] at h
      cases j with
      | string s =>
          cases h
          have := Json.valid_of_find hv hf
          rwa [Json.valid] at this
      | _ => cases h

/-- `dispatch` on an object, by its method and its id. -/
theorem dispatch_object (d : JsonRpcDispatcher) {envelope : Json} (h : envelope.isObject = true) :
    dispatch lib d envelope =
      match parseId envelope with
      | none => .nothing
      | some id =>
          match envelope.methodText with
          | some method => send lib (handleRequest d id method (requestParams envelope))
          | none => send lib (buildError id
              ⟨invalidRequest, kMissingMethod, .null⟩) := by
  rw [dispatch, h, Json.methodText]
  simp only [Bool.not_true, Bool.false_eq_true, if_false]
  cases hm : envelope.find kMethod with
  | none => cases parseId envelope <;> rfl
  | some j => cases j <;> cases parseId envelope <;> rfl

/-- `dispatch` on anything else answers under the id 0. -/
theorem dispatch_not_object (lib : JsonLib) (d : JsonRpcDispatcher) {envelope : Json}
    (h : envelope.isObject = false) :
    ∃ reply text, dispatch lib d envelope = .response reply text
      ∧ reply.idValue = some (.inl 0) := by
  rw [dispatch, h]
  exact send_ascii_error lib invalidRequest kNotAnObject (show (Id.number 0).valid = true from rfl)
    rfl

/-! ## §6. The discipline, decided. -/

section Object

variable {d : JsonRpcDispatcher} {wire : Text} {envelope : Json}
  (hparse : lib.parse wire = .ok envelope) (hobj : envelope.isObject = true)

include hparse hobj

theorem replyDiscipline_of (hfits : IdFits envelope) (hser : AnswerSerialises d envelope) :
    ReplyDiscipline lib d wire := by
  have hwire : dispatchWire lib d wire = dispatch lib d envelope := by rw [dispatchWire, hparse]
  have hvalid := lib.parse_valid wire envelope hparse
  refine ⟨?_, ?_, ?_⟩
  · intro env method id henv hmethod hid
    rw [hparse] at henv
    cases henv
    have ⟨i, hi, hval⟩ := (parseId_spec hfits id).mp hid
    have hreply := (valid_handleRequest d (requestParams envelope) (parseId_valid hvalid hi)
      (methodText_valid hvalid hmethod)).mpr fun handler hh => hser method id handler hmethod hid hh
    have ⟨text, htext⟩ := send_of_valid lib hreply
    refine ⟨handleRequest d i method (requestParams envelope), text, ?_, ?_⟩
    · rw [hwire, dispatch_object d hobj, hi, hmethod]
      exact htext
    · rw [idValue_handleRequest, hval]
  · intro env method henv _ hnote
    rw [hparse] at henv
    cases henv
    have hnone : parseId envelope = none := by
      rcases hnote with h | h <;> rw [parseId, h]
    rw [hwire, dispatch_object d hobj, hnone]
  · intro reply text id hreply hid
    refine ⟨envelope, hparse, ?_⟩
    rw [hwire, dispatch_object d hobj] at hreply
    cases hi : parseId envelope with
    | none =>
        rw [hi] at hreply
        cases hreply
    | some i =>
        rw [hi] at hreply
        refine (parseId_spec hfits id).mpr ⟨i, hi, ?_⟩
        cases hm : envelope.methodText with
        | none =>
            rw [hm] at hreply
            rw [(send_response hreply).1, idValue_buildError] at hid
            exact Option.some.inj hid
        | some method =>
            rw [hm] at hreply
            rw [(send_response hreply).1, idValue_handleRequest] at hid
            exact Option.some.inj hid

theorem idFits_of (h : ReplyDiscipline lib d wire) : IdFits envelope := by
  intro v hv
  by_contra hlarge
  have hwire : dispatchWire lib d wire = dispatch lib d envelope := by rw [dispatchWire, hparse]
  have hi : parseId envelope = some (.number v.toInt64) := by rw [parseId, hv]
  have hown : envelope.idValue = some (.inl v.toNat) := by rw [Json.idValue, hv]
  -- the id it is answered under is another one
  have hne : (Id.number v.toInt64).value ≠ .inl (v.toNat : Int) := by
    intro heq
    have hint : v.toInt64.toInt = v.toNat := Sum.inl.inj heq
    have hlt := v.toInt64.toInt_lt
    omega
  cases hm : envelope.methodText with
  | some method =>
      have ⟨reply, text, hreply, hid⟩ := h.request envelope method _ hparse hm hown
      rw [hwire, dispatch_object d hobj, hi, hm] at hreply
      rw [(send_response hreply).1, idValue_handleRequest] at hid
      exact hne (Option.some.inj hid)
  | none =>
      have ⟨reply, text, hsend, hreplyId⟩ := send_ascii_error lib invalidRequest
        kMissingMethod (show (Id.number v.toInt64).valid = true from rfl) rfl
      have hreply : dispatchWire lib d wire = .response reply text := by
        rw [hwire, dispatch_object d hobj, hi, hm]
        exact hsend
      have ⟨env, henv, hid⟩ := h.ownId _ _ _ hreply hreplyId
      rw [hparse] at henv
      cases henv
      rw [hown] at hid
      exact hne (Option.some.inj hid).symm

theorem answerSerialises_of (h : ReplyDiscipline lib d wire) : AnswerSerialises d envelope := by
  intro method id handler hm hid hh
  have hwire : dispatchWire lib d wire = dispatch lib d envelope := by rw [dispatchWire, hparse]
  have hvalid := lib.parse_valid wire envelope hparse
  have ⟨i, hi, _⟩ := (parseId_spec (idFits_of hparse hobj h) id).mp hid
  have ⟨reply, text, hreply, _⟩ := h.request envelope method id hparse hm hid
  rw [hwire, dispatch_object d hobj, hi, hm] at hreply
  exact (valid_handleRequest d _ (parseId_valid hvalid hi) (methodText_valid hvalid hm)).mp
    (send_response hreply).2 handler hh

end Object

/-- A text that is no JSON is answered under the id 0, which it does not
contain. -/
theorem not_replyDiscipline_of_parse_error (d : JsonRpcDispatcher) {wire : Text}
    {e : ParseException} (hparse : lib.parse wire = .error e) : ¬ ReplyDiscipline lib d wire := by
  intro h
  have ⟨reply, text, hsend, hid⟩ : ∃ reply text, dispatchWire lib d wire = .response reply text
      ∧ reply.idValue = some (Id.number 0).value := by
    have hid : (Id.number 0).valid = true := rfl
    rw [dispatchWire, hparse]
    cases e with
    | parseError => exact send_ascii_error lib parseError kJsonParseError hid rfl
    | other => exact send_ascii_error lib parseError kUnknownParseFailure hid rfl
  have ⟨env, henv, _⟩ := h.ownId _ _ _ hsend hid
  rw [hparse] at henv
  cases henv

/-- **The reply discipline holds exactly** for a text that parses to an object,
whose id is no unsigned number over 2⁶³ - 1, and whose handler's answer can be
serialised. -/
theorem replyDiscipline_iff (lib : JsonLib) (d : JsonRpcDispatcher) (wire : Text) :
    ReplyDiscipline lib d wire ↔
      ∃ envelope, lib.parse wire = .ok envelope ∧ envelope.isObject = true ∧ IdFits envelope
        ∧ AnswerSerialises d envelope := by
  constructor
  · intro h
    cases hparse : lib.parse wire with
    | error e => exact absurd h (not_replyDiscipline_of_parse_error d hparse)
    | ok envelope =>
        cases hobj : envelope.isObject with
        | true =>
            exact ⟨envelope, rfl, hobj, idFits_of hparse hobj h, answerSerialises_of hparse hobj h⟩
        | false =>
            -- answered under the id 0, and there is no id in the message
            exfalso
            have ⟨reply, text, hreply, hid⟩ := dispatch_not_object lib d hobj
            have hwire : dispatchWire lib d wire = .response reply text := by
              rw [dispatchWire, hparse]
              exact hreply
            have ⟨env, henv, hown⟩ := h.ownId _ _ _ hwire hid
            rw [hparse] at henv
            cases henv
            cases envelope with
            | object members => cases hobj
            | _ => cases hown
  · rintro ⟨envelope, hparse, hobj, hfits, hser⟩
    exact replyDiscipline_of hparse hobj hfits hser

/-- A JSON library that can parse nothing, and writes its answer to an open brace. -/
def unparsable : JsonLib where
  parse _ := .error .parseError
  dump j :=
    if j.valid then
      some ("\x7b\"error\":\x7b\"code\":-32700,\"message\":\"JSON parse error\"\x7d,"
        ++ "\"id\":0,\"jsonrpc\":\"2.0\"\x7d").toList
    else none
  parse_valid := nofun
  dump_isSome j := by
    show (if j.valid then some _ else none).isSome = j.valid
    cases j.valid <;> rfl

theorem parse_error_invents_id :
    ¬ ∀ (lib : JsonLib) (d : JsonRpcDispatcher) (wire : Text), ReplyDiscipline lib d wire := by
  intro h
  have hone := h unparsable ⟨fun _ => none⟩ "\x7b".toList
  have ⟨_, henv, _⟩ := hone.ownId _ _ (.inl 0) rfl rfl
  cases henv

end ShaderClippy.Lsp
