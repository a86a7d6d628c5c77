import NBRaft.Communication.Packet
import NBRaft.Rpc.Procedure

/-!
# The RPC server

`RpcService` and `RpcServer`. Whatever the server passes on is in the result of its functions:
`sent` are the frames passed to `sender->send`, `submitted` the tasks passed to the thread pool.
`σ` is the type of the senders.

Only `RpcException` is caught, in two places: around the body of `onDataReady`, and around the
body of the `done` callback. A task runs outside of both; what it throws ends in the future that
`submit` returned, which nobody keeps.
-/

namespace NBRaft.Rpc

open Json JrpcProto Communication

structure RpcService where
  m_procedureReturn : UnorderedMap (Option ProcedureReturn) := ∅
  m_procedureNotfiy : UnorderedMap (Option ProcedureNotify) := ∅

namespace RpcService

/-- Find the method and invoke it; the pointer in the map may be null. -/
def callIn {ρ : Type} (procedures : UnorderedMap (Option (RpcProcedure ρ))) (methodName : String)
    (request : Value) : Except Exception ρ :=
  match procedures.lookup methodName with
  | none => throw JsonRpcErrorCode.MethodNotFound.toException
  | some none => throw JsonRpcErrorCode.InternalError.toException
  | some (some p) => p.invoke request

def callProcedureReturn (service : RpcService) : String → Value → Except Exception ReturnFunc :=
  callIn service.m_procedureReturn

def callProcedureNotify (service : RpcService) : String → Value → Except Exception Unit :=
  callIn service.m_procedureNotfiy

/-- A call reaches a callback exactly when the method is registered, its pointer is not null,
and the parameters validate. -/
theorem callIn_eq_ok {ρ : Type} {procedures : UnorderedMap (Option (RpcProcedure ρ))}
    {methodName : String} {request : Value} {r : ρ} :
    callIn procedures methodName request = .ok r ↔
      ∃ p, procedures.lookup methodName = some (some p) ∧
        p.validateGeneric request = .ok true ∧ r = p.m_callback request := by
  unfold callIn
  cases procedures.lookup methodName with
  | none => simp [throw, throwThe, MonadExceptOf.throw]
  | some q =>
    cases q with
    | none => simp [throw, throwThe, MonadExceptOf.throw]
    | some p => simp [RpcProcedure.invoke_eq_ok]

end RpcService

/-- The tasks that `handleProcedureReturn` and `handleProcedureNotify` submit. -/
inductive Task (σ : Type) where
  | callReturn (sender : σ) (request : JsonRpcRequest)
  | callNotify (sender : σ) (request : JsonRpcRequest)

structure Reaction (σ : Type) where
  submitted : List (Task σ) := []
  sent : List (σ × Bytes) := []

namespace RpcServer

variable {σ : Type}

def handleProcedureReturn (sender : σ) (request : JsonRpcRequest) : Reaction σ :=
  { submitted := [.callReturn sender request] }

def handleProcedureNotify (sender : σ) (request : JsonRpcRequest) : Reaction σ :=
  { submitted := [.callNotify sender request] }

def handleJsonRpcErrorException (J : Jsoncpp) (sender : σ) (error : JsonRpcError) :
    Except Exception (Reaction σ) := do
  let responseStr ← error.getErrorMessage J
  match ← encode (utf8 responseStr) with
  | some buffer => return { sent := [(sender, buffer)] }
  | none => return {}

/-- `catch (RpcException& e)`. -/
def catchRpcException (J : Jsoncpp) (sender : σ) : Exception → Except Exception (Reaction σ)
  | .rpcException err _ =>
    handleJsonRpcErrorException J sender (JsonRpcErrorFactory.createFromInt err)
  | e => .error e

/-- The body of the `try` block of `onDataReady`. -/
def dispatch (J : Jsoncpp) (sender : σ) (packet : RecvPacket) :
    Except Exception (Reaction σ) := do
  match ← JsonRpcRequestFactory.createFromJsonStr J (decode packet) with
  | none => throw JsonRpcErrorCode.ParseError.toException
  | some request =>
    if ← request.isReturnCall then
      return handleProcedureReturn sender request
    else if ← request.isNotification then
      return handleProcedureNotify sender request
    else
      return {}

def onDataReady (J : Jsoncpp) (sender : σ) (packet : RecvPacket) : Except Exception (Reaction σ) :=
  match dispatch J sender packet with
  | .ok reaction => .ok reaction
  | .error e => catchRpcException J sender e

/-- What a task does: the calls of `done` it leads to, each with its response. -/
def runTask (J : Jsoncpp) (service : RpcService) : Task σ → Except Exception (List (σ × Value))
  | .callReturn sender request => do
    let method ← request.getMethod J
    let responses ← service.callProcedureReturn method request.toJson
    return responses.map fun response => (sender, response)
  | .callNotify _ request => do
    let method ← request.getMethod J
    service.callProcedureNotify method request.toJson
    return []

/-- The body of the `try` block of the `done` callback. -/
def respond (J : Jsoncpp) (sender : σ) (response : Value) : Except Exception (Reaction σ) := do
  match ← encode (J.toStyledString response) with
  | some buffer => return { sent := [(sender, buffer)] }
  | none => throw JsonRpcErrorCode.ParseError.toException

/-- The callback that `handleProcedureReturn` passes to the procedure. -/
def done (J : Jsoncpp) (sender : σ) (response : Value) : Except Exception (Reaction σ) :=
  match respond J sender response with
  | .ok reaction => .ok reaction
  | .error e => catchRpcException J sender e

/-! ## What they do -/

section

variable {J : Jsoncpp} {sender : σ} {packet : RecvPacket} {request : JsonRpcRequest}

/-- A packet that holds a request becomes one task: a return call if it has an id. -/
theorem onDataReady_request
    (hp : JsonRpcRequestFactory.createFromJsonStr J (decode packet) = .ok (some request)) :
    onDataReady J sender packet = .ok (
      if (request.m_rpcRequest.find? "id").isSome then handleProcedureReturn sender request
      else handleProcedureNotify sender request) := by
  have ht := (JsonRpcRequestFactory.createFromJsonStr_eq_some.mp hp).2.type
  have hd : dispatch J sender packet = .ok (
      if (request.m_rpcRequest.find? "id").isSome then handleProcedureReturn sender request
      else handleProcedureNotify sender request) := by
    simp only [dispatch, hp, JsonRpcRequest.isReturnCall_eq ht, JsonRpcRequest.isNotification_eq ht,
      bind, Except.bind]
    cases (request.m_rpcRequest.find? "id").isSome <;> rfl
  simp [onDataReady, hd]

/-- On a text that parses to neither null nor an object the field check throws, and nothing
catches that. -/
theorem onDataReady_of_no_members {v : Value}
    (hp : J.parseFromStream (decode packet) = .ok (some v)) (hv : v.hasMembers = false) :
    onDataReady J sender packet = .error .logicError := by
  have hcreate : JsonRpcRequestFactory.createFromJsonStr J (decode packet) =
      .error .logicError := by
    simp only [JsonRpcRequestFactory.createFromJsonStr, hp,
      JsonRpcRequestFactory.fieldsExist_of_not hv, bind, Except.bind]
  simp only [onDataReady, dispatch, hcreate, catchRpcException, bind, Except.bind]

/-- The done callback sends the styled text, unless it does not encode: that exception is no
`RpcException`. -/
theorem done_eq (response : Value) :
    done J sender response =
      if (J.toStyledString response).length > INT32_MAX then .error .runtimeError
      else .ok { sent := [(sender, J.toStyledString response)] } := by
  by_cases h : (J.toStyledString response).length > INT32_MAX <;>
    simp [done, respond, encode, h, bind, Except.bind, pure, Except.pure, catchRpcException]

theorem getMethod_of_isRequest (h : IsRequest request.m_rpcRequest) :
    ∃ name, request.m_rpcRequest.find? "method" = some (.string name) ∧
      request.getMethod J = .ok name := by
  obtain ⟨name, hname⟩ := h.method
  exact ⟨name, hname, JsonRpcRequest.memberText_string J h.type hname⟩

end

end RpcServer

end NBRaft.Rpc
