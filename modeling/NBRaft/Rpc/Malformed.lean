import NBRaft.Rpc.Client
import NBRaft.Rpc.Server

/-!
# Packets that hold no message

The parsers report a bad text through a flag, but they get to it through accessors of jsoncpp
that throw: `isMember` on a root that is no object, and `asString` on an id that is one. What a
data handler throws closes the session in `handleBodyRead`.
-/

namespace NBRaft.Rpc

open Json JrpcProto Communication

/-! ## The property -/

/-- Whatever session the packet arrives on, it is as open after its handler as before. -/
def StaysOpen {α : Type} (packet : RecvPacket) (handled : Except Exception α) : Prop :=
  ∀ (env : Environment) (s : Session), s.m_recvPacket = packet →
    env.handlerThrows (Session.dispatched s.notified) packet.m_data = !handled.isOk →
    (s.handleBodyRead env false).m_socket.isOpen = s.m_socket.isOpen

/-- The packet leaves the protocol layer without an exception, on the server and on the client. -/
structure Contained (J : Jsoncpp) (packet : RecvPacket) : Prop where
  /-- `createFromJsonStr` returns, with the flag set for a request only. -/
  request : ∃ flagged, JsonRpcRequestFactory.createFromJsonStr J (decode packet) = .ok flagged ∧
    ∀ r ∈ flagged, IsRequest r.toJson
  /-- `createResponseFromJsonStr` returns, with the flag set for a response only. -/
  response : ∃ flagged,
    JsonRpcResponseFactory.createResponseFromJsonStr J (decode packet) = .ok flagged ∧
    ∀ r ∈ flagged, IsResponse r.toJson
  server : ∀ (σ : Type) (sender : σ), ∃ reaction,
    RpcServer.onDataReady J sender packet = .ok reaction
  client : ∀ (κ : Type) (c : RpcClient κ), (c.onDataReady J packet).1 = .ok ()
  serverOpen : ∀ (σ : Type) (sender : σ),
    StaysOpen packet (RpcServer.onDataReady J sender packet)
  clientOpen : ∀ (κ : Type) (c : RpcClient κ), StaysOpen packet (c.onDataReady J packet).1

/-- The reader reports no value or one that member access is allowed on, and if that is a
response then its id has a text. -/
def Harmless (J : Jsoncpp) (packet : RecvPacket) : Prop :=
  ∃ root?, J.parseFromStream (decode packet) = .ok root? ∧
    ∀ root ∈ root?, root.hasMembers = true ∧
      (IsResponse root → ∀ id, root.find? "id" = some id →
        id.type ≠ .arrayValue ∧ id.type ≠ .objectValue)

/-! ## Sessions -/

/-- A handler that returns normally leaves the session open, one that throws closes it. -/
theorem isOpen_handleBodyRead (env : Environment) (s : Session) :
    (s.handleBodyRead env false).m_socket.isOpen =
      if env.handlerThrows (Session.dispatched s.notified) s.m_recvPacket.m_data then false
      else s.m_socket.isOpen := by
  simp only [Session.handleBodyRead, Bool.false_eq_true, if_false]
  split_ifs <;> rfl

theorem staysOpen_of_ok {α : Type} {packet : RecvPacket} {handled : Except Exception α} {a : α}
    (h : handled = .ok a) : StaysOpen packet handled := by
  intro env s hs hthrows
  rw [isOpen_handleBodyRead, hs, hthrows, h]
  rfl

/-! ## The two parsers -/

section

variable {J : Jsoncpp} {text : Bytes} {packet : RecvPacket}

theorem asString_isOk_iff (J : Jsoncpp) (id : Value) :
    (∃ text, id.asString J = .ok text) ↔ id.type ≠ .arrayValue ∧ id.type ≠ .objectValue := by
  cases id <;> simp [Value.asString, Value.type]

theorem getId_of_isResponse {response : JsonRpcResponse} {id : Value}
    (h : IsResponse response.m_rpcResponse) (hid : response.m_rpcResponse.find? "id" = some id) :
    response.getId J = id.asString J := by
  have hm := Value.hasMembers_of_object h.type
  simp [JsonRpcResponse.getId, JsonRpcRequest.memberText, Value.isMember_eq hm, Value.get_eq hm,
    hid, bind, Except.bind]

/-- A parser of the shape both have returns unless the reader or the field check throws. -/
theorem createFromJsonStr_of_hasMembers {root? : Option Value}
    (hp : J.parseFromStream text = .ok root?)
    (hroot : ∀ root ∈ root?, root.hasMembers = true) :
    ∃ flagged, JsonRpcRequestFactory.createFromJsonStr J text = .ok flagged := by
  unfold JsonRpcRequestFactory.createFromJsonStr
  rw [hp]
  cases root? with
  | none => exact ⟨none, rfl⟩
  | some root =>
    have hm := hroot root rfl
    simp only [JsonRpcRequestFactory.fieldsExist_eq hm, JsonRpcRequest.ofJson, bind, Except.bind]
    split <;> exact ⟨_, rfl⟩

theorem createResponseFromJsonStr_of_hasMembers {root? : Option Value}
    (hp : J.parseFromStream text = .ok root?)
    (hroot : ∀ root ∈ root?, root.hasMembers = true) :
    ∃ flagged, JsonRpcResponseFactory.createResponseFromJsonStr J text =
      .ok flagged := by
  unfold JsonRpcResponseFactory.createResponseFromJsonStr
  rw [hp]
  cases root? with
  | none => exact ⟨none, rfl⟩
  | some root =>
    have hm := hroot root rfl
    simp only [JsonRpcResponseFactory.fieldsExist_eq hm, JsonRpcResponse.ofJson, bind,
      Except.bind]
    split <;> exact ⟨_, rfl⟩

/-- That is what there is to it: a root without members makes the first `isMember` throw. -/
theorem hasMembers_of_createFromJsonStr {flagged : Option JsonRpcRequest}
    (h : JsonRpcRequestFactory.createFromJsonStr J text = .ok flagged) :
    ∃ root?, J.parseFromStream text = .ok root? ∧
      ∀ root ∈ root?, root.hasMembers = true := by
  unfold JsonRpcRequestFactory.createFromJsonStr at h
  cases hp : J.parseFromStream text with
  | error e => simp [hp, bind, Except.bind] at h
  | ok root? =>
    refine ⟨root?, rfl, ?_⟩
    rintro root rfl
    by_contra hm
    rw [Bool.not_eq_true] at hm
    simp [hp, JsonRpcRequestFactory.fieldsExist_of_not hm, bind, Except.bind] at h

/-! ## The two handlers -/

/-- Once the parser has returned, the server answers whatever is wrong. -/
theorem RpcServer.onDataReady_isOk {σ : Type} (sender : σ) {flagged : Option JsonRpcRequest}
    (h : JsonRpcRequestFactory.createFromJsonStr J (decode packet) = .ok flagged) :
    ∃ reaction, RpcServer.onDataReady J sender packet = .ok reaction := by
  cases flagged with
  | some request => exact ⟨_, RpcServer.onDataReady_request h⟩
  | none =>
    refine ⟨{ sent := [(sender, utf8 "InternalError")] }, ?_⟩
    simp only [RpcServer.onDataReady, RpcServer.dispatch, h, bind, Except.bind]
    rfl

/-- The client returns normally exactly when the parser does and the id has a text. -/
theorem RpcClient.onDataReady_isOk {κ : Type} (c : RpcClient κ)
    {flagged : Option JsonRpcResponse}
    (h : JsonRpcResponseFactory.createResponseFromJsonStr J (decode packet) = .ok flagged) :
    (c.onDataReady J packet).1 = .ok () ↔
      ∀ response ∈ flagged, ∃ text, response.getId J = .ok text := by
  unfold RpcClient.onDataReady
  rw [h]
  cases flagged with
  | none => simp
  | some response =>
    have hresponse := (JsonRpcResponseFactory.createResponseFromJsonStr_eq_some.mp h).2
    have hresult := JsonRpcResponse.getResult_of_isResponse hresponse
    cases hid : response.getId J with
    | error e => simp [hid]
    | ok id =>
      cases hlook : c.m_callRecords.lookup id with
      | none => simp [hid, hlook]
      | some entry => simp [hid, hlook, hresult]

end

/-! ## Which packets are contained -/

/-- The accessors that throw decide: no exception leaves the protocol layer exactly if the root
is null or an object, and the id of a response is neither an array nor an object. -/
theorem contained_iff_harmless (J : Jsoncpp) (packet : RecvPacket) :
    Contained J packet ↔ Harmless J packet := by
  constructor
  · intro h
    obtain ⟨flagged, hrequest, -⟩ := h.request
    obtain ⟨root?, hp, hmembers⟩ := hasMembers_of_createFromJsonStr hrequest
    refine ⟨root?, hp, ?_⟩
    rintro root rfl
    refine ⟨hmembers root rfl, fun hresponse id hid => ?_⟩
    have hparse := JsonRpcResponseFactory.createResponseFromJsonStr_of_parse hp hresponse
    have hclient := (RpcClient.onDataReady_isOk _ hparse).mp (h.client Unit {})
    obtain ⟨text, htext⟩ := hclient _ rfl
    rw [getId_of_isResponse hresponse hid] at htext
    exact (asString_isOk_iff J id).mp ⟨text, htext⟩
  · rintro ⟨root?, hp, hroot⟩
    have hmembers : ∀ root ∈ root?, root.hasMembers = true := fun root hr => (hroot root hr).1
    obtain ⟨request?, hrequest⟩ := createFromJsonStr_of_hasMembers hp hmembers
    obtain ⟨response?, hresponse⟩ := createResponseFromJsonStr_of_hasMembers hp hmembers
    have hrequests : ∀ r ∈ request?, IsRequest r.toJson := by
      rintro r rfl
      exact (JsonRpcRequestFactory.createFromJsonStr_eq_some.mp hrequest).2
    have hresponses : ∀ r ∈ response?, IsResponse r.toJson := by
      rintro r rfl
      exact (JsonRpcResponseFactory.createResponseFromJsonStr_eq_some.mp hresponse).2
    have hids : ∀ r ∈ response?, ∃ text, r.getId J = .ok text := by
      rintro r rfl
      obtain ⟨hparse, hr⟩ := JsonRpcResponseFactory.createResponseFromJsonStr_eq_some.mp hresponse
      obtain ⟨id, hid⟩ := Option.isSome_iff_exists.mp hr.id
      rw [getId_of_isResponse hr hid]
      apply (asString_isOk_iff J id).mpr
      rw [hp, Except.ok.injEq] at hparse
      exact (hroot _ hparse).2 hr id hid
    have hserver : ∀ (σ : Type) (sender : σ), ∃ reaction,
        RpcServer.onDataReady J sender packet = .ok reaction :=
      fun σ sender => RpcServer.onDataReady_isOk sender hrequest
    have hclient : ∀ (κ : Type) (c : RpcClient κ), (c.onDataReady J packet).1 = .ok () :=
      fun κ c => (RpcClient.onDataReady_isOk c hresponse).mpr hids
    constructor
    · exact ⟨request?, hrequest, hrequests⟩
    · exact ⟨response?, hresponse, hresponses⟩
    · exact hserver
    · exact hclient
    · intro σ sender
      obtain ⟨reaction, hreaction⟩ := hserver σ sender
      exact staysOpen_of_ok hreaction
    · exact fun κ c => staysOpen_of_ok (hclient κ c)

/-- jsoncpp on the empty array, which its reader accepts as a root. -/
def emptyArrayJsoncpp : Jsoncpp where
  parseFromStream text := .ok (if text = utf8 "[]" then some (.array 0 Fin.elim0) else none)
  writeString _ := utf8 "[]"
  toStyledString _ := utf8 "[]\n"
  valueToString _ := ""

def emptyArrayPacket : RecvPacket := ⟨utf8 "[]", 2, by decide⟩

/-- The packet `[]` makes the server's handler throw, and its session is closed for it. -/
theorem emptyArray_escapes :
    RpcServer.onDataReady emptyArrayJsoncpp () emptyArrayPacket = .error .logicError ∧
      ¬ Contained emptyArrayJsoncpp emptyArrayPacket ∧
      ¬ StaysOpen emptyArrayPacket
        (RpcServer.onDataReady emptyArrayJsoncpp () emptyArrayPacket) := by
  have hp : emptyArrayJsoncpp.parseFromStream (decode emptyArrayPacket) =
      .ok (some (.array 0 Fin.elim0)) := rfl
  have hthrows : RpcServer.onDataReady emptyArrayJsoncpp () emptyArrayPacket =
      .error .logicError := RpcServer.onDataReady_of_no_members hp rfl
  refine ⟨hthrows, fun h => ?_, fun h => ?_⟩
  · obtain ⟨reaction, hreaction⟩ := h.server Unit ()
    rw [hthrows] at hreaction
    cases hreaction
  · rw [hthrows] at h
    have hopen := h ⟨.littleEndian, fun _ _ => true⟩ { m_recvPacket := emptyArrayPacket } rfl rfl
    exact absurd hopen (by decide)

end NBRaft.Rpc
