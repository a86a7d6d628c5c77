import NBRaft.JrpcProto.Request

/-!
# JSON-RPC responses

`JsonRpcResponse` and `JsonRpcResponseFactory`. As for requests, a flag of `false` is `none`.
`IsResponse` states what the client's parser accepts: it does not look at the types of the
members, only at which of them are there.
-/

namespace NBRaft.JrpcProto

open Json

namespace JsonRpcResponseFactory

def fieldsExist (rpcresponseJson : Value) : Except Exception Bool := do
  if !(← rpcresponseJson.isMember "jsonrpc") || !(← rpcresponseJson.isMember "id") then
    return false
  if !(← rpcresponseJson.isMember "error") && !(← rpcresponseJson.isMember "result") then
    return false
  if (← rpcresponseJson.isMember "error") && (← rpcresponseJson.isMember "result") then
    return false
  return true

end JsonRpcResponseFactory

structure JsonRpcResponse where
  m_rpcResponse : Value

namespace JsonRpcResponse

/-- The constructor of a result. -/
def ofResult (jsonrpcVersion requestId : String) (result : Value) : JsonRpcResponse where
  m_rpcResponse := ((Value.null.assign "jsonrpc" (.string jsonrpcVersion)).assign
    "result" result).assign "id" (.string requestId)

/-- The constructor of an error response; its `id` is the empty string. -/
def ofError (jsonrpcVersion : String) (error : JsonRpcError) : JsonRpcResponse where
  m_rpcResponse := ((Value.null.assign "jsonrpc" (.string jsonrpcVersion)).assign
    "error" error.toJson).assign "id" (.string "")

/-- The constructor from a JSON value. -/
def ofJson (rpcResponse : Value) : Except Exception JsonRpcResponse := do
  if ← JsonRpcResponseFactory.fieldsExist rpcResponse then
    return ⟨rpcResponse⟩
  else
    return ⟨.null⟩

def toJson (response : JsonRpcResponse) : Value := response.m_rpcResponse

def getId (J : Jsoncpp) (response : JsonRpcResponse) : Except Exception String :=
  JsonRpcRequest.memberText J response.m_rpcResponse "id"

def getResult (response : JsonRpcResponse) : Except Exception Value := do
  if ← response.m_rpcResponse.isMember "result" then
    response.m_rpcResponse.get "result"
  else
    return .null

def getError (response : JsonRpcResponse) : Except Exception JsonRpcError := do
  if ← response.m_rpcResponse.isMember "error" then
    let code ← (← (← response.m_rpcResponse.get "error").get "code").asInt
    return .ofCode (.ofInt code)
  else
    return JsonRpcErrorFactory.createEmptyError

def isError (response : JsonRpcResponse) : Except Exception Bool :=
  response.m_rpcResponse.isMember "error"

end JsonRpcResponse

namespace JsonRpcResponseFactory

def createResponseFromJsonStr (J : Jsoncpp) (jsonStr : Bytes) :
    Except Exception (Option JsonRpcResponse) := do
  match ← J.parseFromStream jsonStr with
  | none => return none
  | some root =>
    if ← fieldsExist root then
      return some (← JsonRpcResponse.ofJson root)
    else
      return none

def createErrorResponse (version : String) (error : JsonRpcError) : JsonRpcResponse :=
  .ofError version error

def createResponseFromRequest (J : Jsoncpp) (request result : Value) :
    Except Exception (Option JsonRpcResponse) := do
  if ← JsonRpcRequestFactory.fieldsExist request then
    let jsonrpc ← (← request.get "jsonrpc").asString J
    let id ← (← request.get "id").asString J
    return some (.ofResult jsonrpc id result)
  else
    return none

end JsonRpcResponseFactory

/-! ## What the client's field check accepts -/

/-- An object with `jsonrpc`, `id` and exactly one of `error` and `result`. -/
structure IsResponse (v : Value) : Prop where
  type : v.type = .objectValue
  jsonrpc : (v.find? "jsonrpc").isSome = true
  id : (v.find? "id").isSome = true
  either : (v.find? "error").isSome = !(v.find? "result").isSome

namespace JsonRpcResponseFactory

theorem fieldsExist_eq {v : Value} (h : v.hasMembers = true) :
    fieldsExist v = .ok ((v.find? "jsonrpc").isSome && (v.find? "id").isSome &&
      ((v.find? "error").isSome != (v.find? "result").isSome)) := by
  simp only [fieldsExist, Value.isMember_eq h, bind, Except.bind, pure, Except.pure]
  cases (v.find? "jsonrpc").isSome <;> cases (v.find? "id").isSome <;>
    cases (v.find? "error").isSome <;> cases (v.find? "result").isSome <;> rfl

theorem fieldsExist_eq_true {v : Value} : fieldsExist v = .ok true ↔ IsResponse v := by
  constructor
  · intro h
    cases hm : v.hasMembers with
    | false => simp [fieldsExist, Value.isMember, hm, bind, Except.bind] at h
    | true =>
      rw [fieldsExist_eq hm] at h
      simp only [Except.ok.injEq, Bool.and_eq_true, bne_iff_ne, ne_eq] at h
      obtain ⟨⟨hj, hid⟩, hne⟩ := h
      have ht : v.type = .objectValue := by
        cases v <;> simp_all [Value.find?, Value.type]
      refine ⟨ht, hj, hid, ?_⟩
      cases h₁ : (v.find? "error").isSome <;> cases h₂ : (v.find? "result").isSome <;> simp_all
  · rintro ⟨ht, hj, hid, he⟩
    rw [fieldsExist_eq (Value.hasMembers_of_object ht), hj, hid, he]
    cases (v.find? "result").isSome <;> rfl

/-- A response that parses to an acceptable object is delivered as that object. -/
theorem createResponseFromJsonStr_of_parse {J : Jsoncpp} {text : Bytes} {v : Value}
    (hp : J.parseFromStream text = .ok (some v)) (hv : IsResponse v) :
    createResponseFromJsonStr J text = .ok (some ⟨v⟩) := by
  simp [createResponseFromJsonStr, hp, fieldsExist_eq_true.mpr hv, JsonRpcResponse.ofJson, bind,
    Except.bind, pure, Except.pure]

/-- A text is accepted exactly as the response object it parses to. -/
theorem createResponseFromJsonStr_eq_some {J : Jsoncpp} {text : Bytes}
    {response : JsonRpcResponse} :
    createResponseFromJsonStr J text = .ok (some response) ↔
      J.parseFromStream text = .ok (some response.m_rpcResponse) ∧
        IsResponse response.m_rpcResponse := by
  refine ⟨fun h => ?_, fun h => createResponseFromJsonStr_of_parse h.1 h.2⟩
  unfold createResponseFromJsonStr at h
  cases hp : J.parseFromStream text with
  | error e => simp [hp, bind, Except.bind] at h
  | ok root? =>
    cases root? with
    | none => simp [hp, bind, Except.bind, pure, Except.pure] at h
    | some root =>
      cases hf : fieldsExist root with
      | error e => simp [hp, hf, bind, Except.bind] at h
      | ok b =>
        cases b with
        | false => simp [hp, hf, bind, Except.bind, pure, Except.pure] at h
        | true =>
          obtain rfl : ⟨root⟩ = response := by
            simpa [hp, hf, JsonRpcResponse.ofJson, bind, Except.bind, pure, Except.pure] using h
          exact ⟨rfl, fieldsExist_eq_true.mp hf⟩

end JsonRpcResponseFactory

namespace JsonRpcResponse

section

variable (version id : String) (result : Value)

@[simp] theorem type_ofResult :
    (ofResult version id result).m_rpcResponse.type = .objectValue := by
  simp [ofResult]

@[simp] theorem find?_id_ofResult :
    (ofResult version id result).m_rpcResponse.find? "id" = some (.string id) := by
  simp [ofResult]

@[simp] theorem find?_result_ofResult :
    (ofResult version id result).m_rpcResponse.find? "result" = some result := by
  simp [ofResult]

/-- What the server answers with is what the client's field check looks for. -/
theorem isResponse_ofResult : IsResponse (ofResult version id result).m_rpcResponse where
  type := type_ofResult ..
  jsonrpc := by simp [ofResult]
  id := by simp
  either := by simp [ofResult]

theorem getId_ofResult (J : Jsoncpp) : (ofResult version id result).getId J = .ok id :=
  JsonRpcRequest.memberText_string J (type_ofResult ..) (find?_id_ofResult ..)

/-- Of an accepted response the result can be read; without one it is null. -/
theorem getResult_of_isResponse {response : JsonRpcResponse}
    (h : IsResponse response.m_rpcResponse) :
    response.getResult = .ok ((response.m_rpcResponse.find? "result").getD .null) := by
  have hm := Value.hasMembers_of_object h.type
  cases hr : response.m_rpcResponse.find? "result" <;>
    simp [getResult, Value.isMember_eq hm, Value.get_eq hm, hr, bind, Except.bind, pure,
      Except.pure]

theorem getResult_ofResult : (ofResult version id result).getResult = .ok result := by
  have hm := Value.hasMembers_of_object (type_ofResult version id result)
  simp [getResult, Value.isMember_eq hm, Value.get_eq hm, bind, Except.bind]

end

end JsonRpcResponse

/-- The response made from a request with a string id carries that id and the given result. -/
theorem JsonRpcResponseFactory.createResponseFromRequest_methodCall (J : Jsoncpp)
    (version name id : String) {params : Value} (result : Value)
    (h : params.type = .objectValue) :
    createResponseFromRequest J (JsonRpcRequest.methodCall version name params id).toJson result =
      .ok (some (.ofResult version id result)) := by
  have hreq := JsonRpcRequest.isRequest_methodCall version name params id h
  have hm := Value.hasMembers_of_object hreq.type
  simp [createResponseFromRequest, JsonRpcRequest.toJson,
    JsonRpcRequestFactory.fieldsExist_eq_true.mpr hreq, Value.get_eq hm, Value.asString, bind,
    Except.bind, pure, Except.pure]

/-! ## The id of a response -/

namespace JsonRpcResponseFactory

/-- `createResponseFromRequest` makes a response with the request's id and the given result. -/
def CarriesId (J : Jsoncpp) (request : JsonRpcRequest) (result : Value) : Prop :=
  ∃ response, createResponseFromRequest J request.toJson result = .ok (some response) ∧
    response.toJson.find? "id" = request.toJson.find? "id" ∧
    response.toJson.find? "result" = some result

/-- For an accepted request only the text of the id can still throw. -/
theorem createResponseFromRequest_of_isRequest (J : Jsoncpp) {request id : Value}
    (result : Value) (h : IsRequest request) (hid : request.find? "id" = some id) :
    ∃ version, createResponseFromRequest J request result =
      (id.asString J).map fun text => some (.ofResult version text result) := by
  obtain ⟨version, hversion⟩ := h.jsonrpc
  have hm := Value.hasMembers_of_object h.type
  refine ⟨version, ?_⟩
  unfold createResponseFromRequest
  simp only [JsonRpcRequestFactory.fieldsExist_eq_true.mpr h, Value.get_eq hm, hversion, hid,
    Option.getD_some, Value.asString, bind, Except.bind, if_true]
  cases id.asString J <;> rfl

end JsonRpcResponseFactory

/-- The id goes through a text on its way to the response, and comes out as a JSON string. -/
theorem carriesId_iff (J : Jsoncpp) (text : Bytes) (request : JsonRpcRequest) (id result : Value)
    (h : JsonRpcRequestFactory.createFromJsonStr J text = .ok (some request))
    (hid : request.toJson.find? "id" = some id) :
    JsonRpcResponseFactory.CarriesId J request result ↔ id.isString = true := by
  have hreq := (JsonRpcRequestFactory.createFromJsonStr_eq_some.mp h).2
  obtain ⟨version, hcreate⟩ :=
    JsonRpcResponseFactory.createResponseFromRequest_of_isRequest J result hreq hid
  constructor
  · rintro ⟨response, hresponse, hsame, -⟩
    have hmap := hcreate.symm.trans hresponse
    cases hs : id.asString J with
    | error e => simp [hs, Except.map] at hmap
    | ok s =>
      obtain rfl : JsonRpcResponse.ofResult version s result = response := by
        simpa [hs, Except.map] using hmap
      rw [hid] at hsame
      have hstring : (Value.string s) = id := by
        simpa [JsonRpcResponse.toJson] using hsame
      rw [← hstring]
      rfl
  · intro hstring
    cases id with
    | string s =>
      refine ⟨.ofResult version s result, hcreate, ?_, ?_⟩
      · simp [JsonRpcResponse.toJson, hid]
      · simp [JsonRpcResponse.toJson]
    | _ => cases hstring

/-- A call without parameters and with the given id, which peers may send. -/
def tickRequest (id : Value) : JsonRpcRequest where
  m_rpcRequest :=
    (JsonRpcRequest.notification "2.0" "tick" .emptyObject).toJson.assign "id" id

def tickText (id : String) : Bytes :=
  utf8 ("\x7b\"jsonrpc\":\"2.0\",\"method\":\"tick\",\"params\":\x7b\x7d,\"id\":" ++ id ++ "\x7d")

/-- jsoncpp on the text of such a call, where it reads the text of the id as `id`. -/
def tickJsoncpp (idText : String) (id : Value) : Jsoncpp where
  parseFromStream text :=
    .ok (if text = tickText idText then some (tickRequest id).toJson else none)
  writeString _ := tickText idText
  toStyledString _ := tickText idText
  valueToString _ := ""

theorem find?_id_tickRequest (id : Value) : (tickRequest id).toJson.find? "id" = some id := by
  simp [tickRequest, JsonRpcRequest.toJson]

theorem createFromJsonStr_tick (idText : String) (id : Value) :
    JsonRpcRequestFactory.createFromJsonStr (tickJsoncpp idText id) (tickText idText) =
      .ok (some (tickRequest id)) := by
  refine JsonRpcRequestFactory.createFromJsonStr_eq_some.mpr
    ⟨congrArg Except.ok (if_pos rfl), ?_, ⟨"2.0", ?_⟩, ⟨"tick", ?_⟩, ⟨.emptyObject, ?_, rfl⟩⟩ <;>
  simp [tickRequest, JsonRpcRequest.toJson, JsonRpcRequest.notification]

theorem carriesId_string :
    JsonRpcResponseFactory.CarriesId (tickJsoncpp "\"1\"" (.string "1"))
      (tickRequest (.string "1")) (.boolean true) :=
  (carriesId_iff _ (tickText "\"1\"") _ (.string "1") (.boolean true)
    (createFromJsonStr_tick _ _) (find?_id_tickRequest _)).mpr rfl

/-- A response to the request with id `1` says `"1"`, which the peer did not send. -/
theorem integer_id_not_carried :
    JsonRpcRequestFactory.createFromJsonStr (tickJsoncpp "1" (.int 1)) (tickText "1") =
        .ok (some (tickRequest (.int 1))) ∧
      (tickRequest (.int 1)).toJson.find? "id" = some (.int 1) ∧
      ∀ result, ¬ JsonRpcResponseFactory.CarriesId (tickJsoncpp "1" (.int 1))
        (tickRequest (.int 1)) result := by
  have hid := find?_id_tickRequest (.int 1)
  refine ⟨createFromJsonStr_tick _ _, hid, ?_⟩
  rintro result ⟨response, hresponse, hsame, -⟩
  have hreq := (JsonRpcRequestFactory.createFromJsonStr_eq_some.mp
    (createFromJsonStr_tick "1" (.int 1))).2
  obtain ⟨version, hcreate⟩ := JsonRpcResponseFactory.createResponseFromRequest_of_isRequest
    (tickJsoncpp "1" (.int 1)) result hreq hid
  obtain rfl : JsonRpcResponse.ofResult version _ result = response :=
    Option.some.inj (Except.ok.inj (hcreate.symm.trans hresponse))
  rw [hid] at hsame
  simp [JsonRpcResponse.toJson] at hsame

end NBRaft.JrpcProto
