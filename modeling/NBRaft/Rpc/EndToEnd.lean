import NBRaft.Communication.Link
import NBRaft.Rpc.Client
import NBRaft.Rpc.Server

/-!
# A client and a server

A connected `RpcClient`, the session of the `RpcServer` that serves it, and the return calls
that threads of the client make. `callReturnProcedure` holds `m_mutex` from the search for the
id to its end, and `RpcClient::onDataReady` needs it as well: a response that has arrived
before the call has returned waits for it.

Only what is assumed of the connection is left out: completions do not fail, and a frame is
sent only while fewer than 64 are pending.
-/

namespace NBRaft.Rpc

open Json JrpcProto Communication Transition

/-- A return call, made with `createReturnCallRequest` from a map of parameters. -/
structure Call (κ : Type) where
  version : String
  method : String
  id : String
  params : UnorderedMap Value
  callback : κ

namespace Call

variable {κ : Type}

def request (c : Call κ) : JsonRpcRequest :=
  JsonRpcRequestFactory.createReturnCallRequest c.version c.method c.id c.params

/-- What the procedure `f c.method` computes from the parameters. -/
def result (f : String → Value → Value) (c : Call κ) : Value :=
  f c.method (JsonRpcRequestFactory.paramsToJson c.params)

def response (f : String → Value → Value) (c : Call κ) : JsonRpcResponse :=
  .ofResult c.version c.id (c.result f)

end Call

structure System (κ : Type) where
  client : RpcClient κ
  server : Session
  /-- How many bytes of each other's streams they have read. -/
  clientRead : Nat := 0
  serverRead : Nat := 0
  /-- The calls that no thread has begun. -/
  waiting : List (Call κ)
  /-- The call whose thread holds `m_mutex`, and whether it has sent its packet. -/
  calling : Option (Call κ × Bool) := none
  /-- The tasks in the queues of the pool. -/
  tasks : List (Task Unit) := []
  /-- The calls of `done` still to come. -/
  handling : List (Unit × Value) := []

namespace System

inductive Event where
  /-- `callReturnProcedure` takes the mutex and records the call. -/
  | enter (i : Nat)
  | send (slack : Slack)
  /-- It returns, and releases the mutex. -/
  | leave
  | clientWrite
  | clientRead
  | serverWrite
  | serverRead (slack : Slack)
  | runTask (i : Nat)
  | done (i : Nat) (slack : Slack)

variable {κ : Type}

def sendAll (order : ByteOrder) (slack : Slack) (frames : List (Unit × Bytes))
    (session : Session) : Session :=
  frames.foldl (fun session frame => session.send order slack frame.2) session

/-- The effect of a reaction of the server; one that ended in an exception has none. -/
def absorb (order : ByteOrder) (slack : Slack) (s : System κ) :
    Except Exception (Reaction Unit) → System κ
  | .error _ => s
  | .ok reaction => { s with
      tasks := s.tasks ++ reaction.submitted
      server := sendAll order slack reaction.sent s.server }

def step (J : Jsoncpp) (order : ByteOrder) (service : RpcService) (s : System κ) :
    Event → Option (System κ)
  | .enter i =>
    match s.calling, s.waiting[i]? with
    | none, some call =>
      let s := { s with waiting := s.waiting.eraseIdx i }
      match s.client.record J call.request call.callback with
      | .ok (some client) => some { s with client, calling := some (call, false) }
      | _ => some s
    | _, _ => none
  | .send slack =>
    match s.calling with
    | some (call, false) =>
      if s.client.m_session.m_sendQueue.length < Session.MAX_SESSION_SEND_QUEUE_PENDING_SIZE then
        some { s with
          client := (s.client.encodeAndSend J order slack call.request).2
          calling := some (call, true) }
      else none
    | _ => none
  | .leave =>
    match s.calling with
    | some (_, true) => some { s with calling := none }
    | _ => none
  | .clientWrite =>
    (s.client.m_session.step ⟨order, fun _ _ => false⟩ (.writeDone 0 false)).map fun session =>
      { s with client := { s.client with m_session := session } }
  | .clientRead =>
    match s.client.m_session.nextRead
        ((byteStream s.server.m_socket.written).drop s.clientRead) with
    | none => none
    | some (.head, bytes) =>
      (s.client.m_session.step ⟨order, fun _ _ => false⟩ (.readDone 0 false bytes)).map
        fun session => { s with
          client := { s.client with m_session := session }
          clientRead := s.clientRead + bytes.length }
    | some (.body, bytes) =>
      match s.calling with
      | some _ => none
      | none =>
        let packet := (s.client.m_session.completeRead 0 .body bytes).m_recvPacket
        let (result, client) := s.client.onDataReady J packet
        (s.client.m_session.step ⟨order, fun _ _ => !result.isOk⟩ (.readDone 0 false bytes)).map
          fun session => { s with
            client := { client with m_session := session }
            clientRead := s.clientRead + bytes.length }
  | .serverWrite =>
    (s.server.step ⟨order, fun _ _ => false⟩ (.writeDone 0 false)).map fun session =>
      { s with server := session }
  | .serverRead slack =>
    match s.server.nextRead
        ((byteStream s.client.m_session.m_socket.written).drop s.serverRead) with
    | none => none
    | some (.head, bytes) =>
      (s.server.step ⟨order, fun _ _ => false⟩ (.readDone 0 false bytes)).map fun session =>
        { s with server := session, serverRead := s.serverRead + bytes.length }
    | some (.body, bytes) =>
      let packet := (s.server.completeRead 0 .body bytes).m_recvPacket
      let reaction := RpcServer.onDataReady J () packet
      (s.server.step ⟨order, fun _ _ => !reaction.isOk⟩ (.readDone 0 false bytes)).map
        fun session =>
          absorb order slack
            { s with server := session, serverRead := s.serverRead + bytes.length } reaction
  | .runTask i =>
    match s.tasks[i]? with
    | none => none
    | some task =>
      let s := { s with tasks := s.tasks.eraseIdx i }
      match RpcServer.runTask J service task with
      | .error _ => some s
      | .ok calls => some { s with handling := s.handling ++ calls }
  | .done i slack =>
    match s.handling[i]? with
    | none => none
    | some (sender, response) =>
      if s.server.m_sendQueue.length < Session.MAX_SESSION_SEND_QUEUE_PENDING_SIZE then
        some (absorb order slack { s with handling := s.handling.eraseIdx i }
          (RpcServer.done J sender response))
      else none

end System

/-! ## What is assumed of a call -/

/-- The procedure calls `done` exactly once, with the response to the request that carries the
result of `g` on its parameters. -/
def Answers (J : Jsoncpp) (g : Value → Value) (p : ProcedureReturn) : Prop :=
  ∀ request params response, request.find? "params" = some params →
    JsonRpcResponseFactory.createResponseFromRequest J request (g params) = .ok (some response) →
    p.m_callback request = [response.toJson]

/-- The method is registered and answers with `f`, the parameters are of the declared types,
and the two texts of the call are within the size limit and parse to what they were written
from. -/
structure Conforms {κ : Type} (J : Jsoncpp) (service : RpcService) (f : String → Value → Value)
    (c : Call κ) : Prop where
  registered : ∃ p, service.m_procedureReturn.lookup c.method = some (some p) ∧
    (∀ k w, c.params.lookup k = some w → p.m_standardParams.lookup k = some w.type) ∧
    Answers J (f c.method) p
  request_parses : J.parseFromStream (c.request.toJsonStr J) = .ok (some c.request.toJson)
  response_parses : J.parseFromStream (J.toStyledString (c.response f).toJson) =
    .ok (some (c.response f).toJson)
  request_size : (c.request.toJsonStr J).length ≤ PACKET_MAX_SIZE
  response_size : (J.toStyledString (c.response f).toJson).length ≤ PACKET_MAX_SIZE

namespace Call

section

variable {κ : Type} {J : Jsoncpp} {service : RpcService} {f : String → Value → Value}
  {c : Call κ} {packet : RecvPacket}

theorem getId_request (J : Jsoncpp) (c : Call κ) : c.request.getId J = .ok c.id :=
  JsonRpcRequest.memberText_string J (JsonRpcRequest.type_methodCall ..)
    (JsonRpcRequest.find?_id_methodCall ..)

theorem isRequest_request (c : Call κ) : IsRequest c.request.m_rpcRequest :=
  JsonRpcRequest.isRequest_methodCall _ _ _ _ (JsonRpcRequestFactory.type_paramsToJson _)

/-- The server makes one task of the request. -/
theorem onDataReady_request (hc : Conforms J service f c)
    (hp : decode packet = c.request.toJsonStr J) :
    RpcServer.onDataReady J () packet = .ok { submitted := [.callReturn () c.request] } := by
  have hparse : JsonRpcRequestFactory.createFromJsonStr J (decode packet) =
      .ok (some c.request) :=
    JsonRpcRequestFactory.createFromJsonStr_eq_some.mpr
      ⟨hp ▸ hc.request_parses, isRequest_request c⟩
  rw [RpcServer.onDataReady_request hparse]
  simp [request, JsonRpcRequestFactory.createReturnCallRequest, RpcServer.handleProcedureReturn]

/-- The task calls `done` once, with the response to the call. -/
theorem runTask_request (hc : Conforms J service f c) :
    RpcServer.runTask J service (.callReturn () c.request) =
      .ok [((), (c.response f).toJson)] := by
  obtain ⟨p, hlook, htypes, hanswers⟩ := hc.registered
  have hreq := isRequest_request c
  have hmethod : c.request.getMethod J = .ok c.method :=
    JsonRpcRequest.memberText_string J hreq.type (JsonRpcRequest.find?_method_methodCall ..)
  have hparams : c.request.toJson.find? "params" =
      some (JsonRpcRequestFactory.paramsToJson c.params) :=
    JsonRpcRequest.find?_params_methodCall ..
  have hvalid : p.validateGeneric c.request.toJson = .ok true := by
    refine (p.validateGeneric_eq_true (Value.hasMembers_of_object hreq.type) hparams
      (JsonRpcRequestFactory.type_paramsToJson _)).mpr fun k w hk => htypes k w ?_
    rwa [JsonRpcRequestFactory.find?_paramsToJson] at hk
  have hcallback : p.m_callback c.request.toJson = [(c.response f).toJson] :=
    hanswers _ _ _ hparams (JsonRpcResponseFactory.createResponseFromRequest_methodCall J
      c.version c.method c.id _ (JsonRpcRequestFactory.type_paramsToJson _))
  have hcall : service.callProcedureReturn c.method c.request.toJson =
      .ok [(c.response f).toJson] :=
    RpcService.callIn_eq_ok.mpr ⟨p, hlook, hvalid, hcallback.symm⟩
  simp [RpcServer.runTask, hmethod, hcall, bind, Except.bind, pure, Except.pure]

theorem done_response (hc : Conforms J service f c) :
    RpcServer.done J () (c.response f).toJson =
      .ok { sent := [((), J.toStyledString (c.response f).toJson)] } := by
  have hsize := hc.response_size
  rw [RpcServer.done_eq, if_neg]
  simp only [PACKET_MAX_SIZE, INT32_MAX] at hsize ⊢
  omega

/-- The client finds the record of the call by the id in the response. -/
theorem onDataReady_response (hc : Conforms J service f c)
    (hp : decode packet = J.toStyledString (c.response f).toJson) {client : RpcClient κ}
    {reRecord : CallRecord} {callback : κ}
    (hlook : client.m_callRecords.lookup c.id = some (reRecord, callback)) :
    client.onDataReady J packet = (.ok (), { client with
      m_callRecords := client.m_callRecords.insert c.id
        ({ reRecord with response := some (c.response f) }, callback)
      invoked := client.invoked ++ [(callback, c.result f)] }) := by
  have hparse : JsonRpcResponseFactory.createResponseFromJsonStr J (decode packet) =
      .ok (some (c.response f)) :=
    JsonRpcResponseFactory.createResponseFromJsonStr_of_parse (hp ▸ hc.response_parses)
      (JsonRpcResponse.isResponse_ofResult ..)
  have hid : (c.response f).getId J = .ok c.id := JsonRpcResponse.getId_ofResult ..
  have hresult : (c.response f).getResult = .ok (c.result f) :=
    JsonRpcResponse.getResult_ofResult ..
  simp only [RpcClient.onDataReady, hparse, hid, hlook, hresult]

end

end Call

end NBRaft.Rpc
