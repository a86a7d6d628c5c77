import NBRaft.Communication.Session
import NBRaft.JrpcProto.Response

/-!
# The RPC client

`BaseClient` and `RpcClient`. A call answers with `true` once its text has been encoded; what
became of the packet on the way through `BaseClient::send` and `Session::send` it does not ask.
`callReturnProcedure_handedOver_iff` and its counterpart for notifications say in which states,
and for which requests, the answer can be relied on.

The functions of a client return the state besides their result, since an exception leaves the
changes made before it in place.
-/

namespace NBRaft.Communication

structure BaseClient where
  m_running : Bool := false
  m_session : Session := {}

namespace BaseClient

/-- `connect`, once the socket has connected or failed to. -/
def connect (error : Bool) (c : BaseClient) : Bool × BaseClient :=
  if error then (false, c)
  else (true, { m_session := c.m_session.start false, m_running := true })

def disconnect (c : BaseClient) : BaseClient :=
  if c.m_running then { c with m_running := false } else c

def send (order : ByteOrder) (slack : Slack) (data : Bytes) (c : BaseClient) : BaseClient :=
  if c.m_running then { c with m_session := c.m_session.send order slack data } else c

end BaseClient

end NBRaft.Communication

namespace NBRaft.Rpc

open Json JrpcProto Communication

/-- The record of a call; its time stamp is left out. -/
structure CallRecord where
  request : Option JsonRpcRequest := none
  response : Option JsonRpcResponse := none

/-- `κ` is the type of the callbacks; `invoked` is the history of their invocations, each with
the argument it got. -/
structure RpcClient (κ : Type) extends BaseClient where
  m_callRecords : UnorderedMap (CallRecord × κ) := ∅
  invoked : List (κ × Value) := []

namespace RpcClient

variable {κ : Type}

/-- The search for the id and the `emplace` of the new record. -/
def record (J : Jsoncpp) (request : JsonRpcRequest) (callback : κ) (c : RpcClient κ) :
    Except Exception (Option (RpcClient κ)) := do
  let id ← request.getId J
  if (c.m_callRecords.lookup id).isSome then
    return none
  let reRecord : CallRecord := { request := some request }
  return some { c with m_callRecords := c.m_callRecords.insert id (reRecord, callback) }

/-- Encode the text of the request and send it, as both kinds of call do. -/
def encodeAndSend (J : Jsoncpp) (order : ByteOrder) (slack : Slack) (request : JsonRpcRequest)
    (c : RpcClient κ) : Except Exception Bool × RpcClient κ :=
  match encode (request.toJsonStr J) with
  | .error e => (.error e, c)
  | .ok none => (.ok false, c)
  | .ok (some buffer) =>
    (.ok true, { c with toBaseClient := c.toBaseClient.send order slack buffer })

def callReturnProcedure (J : Jsoncpp) (order : ByteOrder) (slack : Slack)
    (request : JsonRpcRequest) (callback : κ) (c : RpcClient κ) :
    Except Exception Bool × RpcClient κ :=
  match c.record J request callback with
  | .error e => (.error e, c)
  | .ok none => (.ok false, c)
  | .ok (some c) => c.encodeAndSend J order slack request

def callNotifyProcedure (J : Jsoncpp) (order : ByteOrder) (slack : Slack)
    (request : JsonRpcRequest) (c : RpcClient κ) : Except Exception Bool × RpcClient κ :=
  c.encodeAndSend J order slack request

def getReturnCallRecord (id : String) (c : RpcClient κ) : CallRecord :=
  match c.m_callRecords.lookup id with
  | some (reRecord, _) => reRecord
  | none => {}

def clearCallRecords (c : RpcClient κ) : RpcClient κ := { c with m_callRecords := ∅ }

def removeCallRecord (id : String) (c : RpcClient κ) : RpcClient κ :=
  { c with m_callRecords := c.m_callRecords.erase id }

def onDataReady (J : Jsoncpp) (packet : RecvPacket) (c : RpcClient κ) :
    Except Exception Unit × RpcClient κ :=
  match JsonRpcResponseFactory.createResponseFromJsonStr J (decode packet) with
  | .error e => (.error e, c)
  | .ok none => (.ok (), c)
  | .ok (some response) =>
    match response.getId J with
    | .error e => (.error e, c)
    | .ok id =>
      match c.m_callRecords.lookup id with
      | none => (.ok (), c)
      | some (reRecord, callback) =>
        let c := { c with m_callRecords :=
          c.m_callRecords.insert id ({ reRecord with response := some response }, callback) }
        match response.getResult with
        | .error e => (.error e, c)
        | .ok result => (.ok (), { c with invoked := c.invoked ++ [(callback, result)] })

/-! ## What a call hands over -/

/-- The size a peer reads from the packet's header is one its `handleHeadRead` accepts. -/
def AcceptedByPeer (order : ByteOrder) (packet : SendPacket) : Prop :=
  (headSize order packet.m_data).toNat ≤ PACKET_MAX_SIZE

/-- If the result is `true`, then exactly one packet was pushed on the send queue, it carries
the text of the request, and the peer accepts its size. -/
def HandedOver (J : Jsoncpp) (order : ByteOrder) (request : JsonRpcRequest) (c : RpcClient κ)
    (result : Except Exception Bool × RpcClient κ) : Prop :=
  result.1 = .ok true → ∃ packet,
    result.2.m_session.accepted = c.m_session.accepted ++ [packet] ∧
    result.2.m_session.m_sendQueue = c.m_session.m_sendQueue ++ [packet] ∧
    packet.payload = request.toJsonStr J ∧ AcceptedByPeer order packet

/-- The client is running, its queue has room, and the text is within the size limit. -/
def CanSend (J : Jsoncpp) (request : JsonRpcRequest) (c : RpcClient κ) : Prop :=
  c.m_running = true ∧
    c.m_session.m_sendQueue.length < Session.MAX_SESSION_SEND_QUEUE_PENDING_SIZE ∧
    (request.toJsonStr J).length ≤ PACKET_MAX_SIZE

section

variable {J : Jsoncpp} {order : ByteOrder} {slack : Slack} {request : JsonRpcRequest}
  {callback : κ} {c d : RpcClient κ}

theorem encodeAndSend_of_large (h : (request.toJsonStr J).length > INT32_MAX) :
    c.encodeAndSend J order slack request = (.error .runtimeError, c) := by
  simp [encodeAndSend, encode, h]

theorem encodeAndSend_of_encodes (h : (request.toJsonStr J).length ≤ INT32_MAX) :
    c.encodeAndSend J order slack request =
      (.ok true, { c with toBaseClient :=
        c.toBaseClient.send order slack (request.toJsonStr J) }) := by
  simp [encodeAndSend, encode, Nat.not_lt.mpr h]

/-- The size field of a packet is that of its data exactly when the data fit 16 bits. -/
theorem acceptedByPeer_iff {data : Bytes} :
    (SendPacket.create order slack data (UInt16.ofNat data.length)).payload = data ∧
      AcceptedByPeer order (SendPacket.create order slack data (UInt16.ofNat data.length)) ↔
      data.length ≤ PACKET_MAX_SIZE := by
  rw [payload_create, AcceptedByPeer, headSize_create]
  constructor
  · rintro ⟨hpayload, hsize⟩
    have hle : data.length ≤ (UInt16.ofNat data.length).toNat := by
      have := congrArg List.length hpayload
      rw [List.length_take] at this
      omega
    exact hle.trans hsize
  · intro h
    rw [toNat_ofNat_of_le h, List.take_length]
    exact ⟨rfl, h⟩

/-- Encoding and sending keeps its word exactly when the text does not encode, or the packet
can be sent. -/
theorem handedOver_encodeAndSend :
    HandedOver J order request c (c.encodeAndSend J order slack request) ↔
      (request.toJsonStr J).length > INT32_MAX ∨ c.CanSend J request := by
  by_cases hlarge : (request.toJsonStr J).length > INT32_MAX
  · simp [HandedOver, encodeAndSend_of_large hlarge, hlarge]
  rw [HandedOver, encodeAndSend_of_encodes (Nat.not_lt.mp hlarge)]
  simp only [hlarge, false_or, forall_const, CanSend]
  cases hrun : c.m_running with
  | false => simp [BaseClient.send, hrun]
  | true =>
    simp only [BaseClient.send, hrun, if_true, true_and]
    by_cases hroom : c.m_session.m_sendQueue.length < Session.MAX_SESSION_SEND_QUEUE_PENDING_SIZE
    · rw [Session.accepted_send_of_room order slack _ hroom,
        Session.m_sendQueue_send_of_room order slack _ hroom]
      simp only [hroom, true_and, List.append_cancel_left_eq, List.cons.injEq, and_true,
        exists_eq_left', acceptedByPeer_iff]
    · simp [Session.send_of_full order slack _ (Nat.not_lt.mp hroom), hroom]

theorem record_eq_some (h : c.record J request callback = .ok (some d)) :
    ∃ id, request.getId J = .ok id ∧ c.m_callRecords.lookup id = none ∧
      d = { c with m_callRecords :=
        c.m_callRecords.insert id ({ request := some request }, callback) } := by
  unfold record at h
  cases hid : request.getId J with
  | error e => simp [hid, bind, Except.bind] at h
  | ok id =>
    cases hlook : c.m_callRecords.lookup id with
    | some r => simp [hid, hlook, bind, Except.bind, pure, Except.pure] at h
    | none =>
      simp only [hid, hlook, bind, Except.bind, pure, Except.pure, Option.isSome_none,
        Bool.false_eq_true, if_false, Except.ok.injEq, Option.some.injEq] at h
      exact ⟨id, rfl, hlook, h.symm⟩

end

/-- The id of the request is one that a call can be recorded under. -/
def Recordable (J : Jsoncpp) (request : JsonRpcRequest) (c : RpcClient κ) : Prop :=
  ∃ id, request.getId J = .ok id ∧ c.m_callRecords.lookup id = none

theorem record_eq {J : Jsoncpp} {request : JsonRpcRequest} {c : RpcClient κ} (callback : κ)
    {id : String} (hid : request.getId J = .ok id) (hlook : c.m_callRecords.lookup id = none) :
    c.record J request callback = .ok (some {
      c with m_callRecords := c.m_callRecords.insert id ({ request := some request }, callback)
    }) := by
  simp [record, hid, hlook, bind, Except.bind, pure, Except.pure]

/-- In every state of the client and for every request, a `true` of either call can be relied
on exactly when the call stops before encoding, the text does not encode, or the client is
running with room in its queue and the text is within the size limit. -/
theorem calls_handedOver_iff (J : Jsoncpp) (order : ByteOrder) (slack : Slack)
    (request : JsonRpcRequest) (callback : κ) (c : RpcClient κ) :
    (HandedOver J order request c (c.callReturnProcedure J order slack request callback) ↔
      (¬ c.Recordable J request ∨ (request.toJsonStr J).length > INT32_MAX ∨
        c.CanSend J request)) ∧
    (HandedOver J order request c (c.callNotifyProcedure J order slack request) ↔
      ((request.toJsonStr J).length > INT32_MAX ∨ c.CanSend J request)) := by
  refine ⟨?_, handedOver_encodeAndSend⟩
  by_cases hrec : c.Recordable J request
  · obtain ⟨id, hid, hlook⟩ := id hrec
    simp only [callReturnProcedure, record_eq callback hid hlook, hrec, not_true_eq_false,
      false_or]
    exact handedOver_encodeAndSend
  · simp only [hrec, not_false_eq_true, true_or, iff_true]
    intro htrue
    simp only [callReturnProcedure] at htrue
    split at htrue
    · cases htrue
    · cases htrue
    · rename_i d hd
      obtain ⟨id, hid, hlook, -⟩ := record_eq_some hd
      exact absurd ⟨id, hid, hlook⟩ hrec

/-- jsoncpp on the one text of the example below. -/
def pingJsoncpp : Jsoncpp where
  parseFromStream _ := .ok none
  writeString _ :=
    utf8 "\x7b\n\t\"jsonrpc\" : \"2.0\",\n\t\"method\" : \"ping\",\n\t\"params\" : \x7b\x7d\n\x7d"
  toStyledString _ := []
  valueToString _ := ""

/-- A notification of a client that is not connected is reported as sent. -/
theorem notification_not_sent :
    let request := JsonRpcRequestFactory.createNotifyCallRequest "2.0" "ping" ∅
    let result :=
      RpcClient.callNotifyProcedure pingJsoncpp .littleEndian (0, 0) request
        ({} : RpcClient Unit)
    result.1 = .ok true ∧ result.2.m_session.accepted = [] ∧
      ¬ HandedOver pingJsoncpp .littleEndian request {} result := by
  intro request result
  have hlen : (request.toJsonStr pingJsoncpp).length ≤ INT32_MAX := by decide
  have hresult : result = (.ok true, {}) := encodeAndSend_of_encodes hlen
  refine ⟨congrArg Prod.fst hresult, by rw [hresult], fun h => ?_⟩
  obtain ⟨packet, hacc, -⟩ := h (congrArg Prod.fst hresult)
  rw [hresult] at hacc
  simp at hacc

end RpcClient

end NBRaft.Rpc
