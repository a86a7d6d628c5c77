import NBRaft.Json.Value

/-!
# JSON-RPC errors

`JsonRpcError`, its codes and its factory. The exceptions the RPC layer throws carry the
numeric code and the name of the code as their detail.
-/

namespace NBRaft.JrpcProto

open Json

/-- `JsonRpcError::JsonRpcErrorCode`. The enumeration has `int` underneath, and `getError`
casts arbitrary integers to it: `other` stands for the values without an enumerator. -/
inductive JsonRpcErrorCode where
  | ParseError | InvalidRequest | MethodNotFound | InvalidParams | InternalError
  | other (code : Int32)
  deriving DecidableEq, Repr

namespace JsonRpcErrorCode

/-- `JsonRpcError::toInt`. -/
def toInt : JsonRpcErrorCode → Int32
  | ParseError => -32700
  | InvalidRequest => -32600
  | MethodNotFound => -32601
  | InvalidParams => -32602
  | InternalError => -32603
  | other code => code

/-- The cast `JsonRpcErrorCode(code)`. -/
def ofInt (code : Int32) : JsonRpcErrorCode :=
  if code = -32700 then ParseError
  else if code = -32600 then InvalidRequest
  else if code = -32601 then MethodNotFound
  else if code = -32602 then InvalidParams
  else if code = -32603 then InternalError
  else other code

/-- The static `JsonRpcError::getErrorMessage`. -/
def getErrorMessage : JsonRpcErrorCode → String
  | ParseError => "ParseError"
  | InvalidRequest => "InvalidRequest"
  | MethodNotFound => "MethodNotFound"
  | InvalidParams => "InvalidParams"
  | InternalError => "InternalError"
  | other _ => "Unknown error"

/-- `RpcException(toInt(code), getErrorMessage(code))`, as every throw of the RPC layer
builds it. -/
def toException (code : JsonRpcErrorCode) : Exception :=
  .rpcException code.toInt code.getErrorMessage

@[simp] theorem toInt_ofInt (code : Int32) : (ofInt code).toInt = code := by
  unfold ofInt
  split_ifs <;> simp_all [toInt]

end JsonRpcErrorCode

structure JsonRpcError where
  m_rpcError : Value

namespace JsonRpcError

/-- The constructor from a code. -/
def ofCode (errorCode : JsonRpcErrorCode) : JsonRpcError where
  m_rpcError := (Value.null.assign "code" (.ofInt errorCode.toInt)).assign "message"
    (.string errorCode.getErrorMessage)

def toJson (error : JsonRpcError) : Value := error.m_rpcError

def getErrorCode (error : JsonRpcError) : Except Exception Int32 := do
  if ← error.m_rpcError.isMember "code" then
    (← error.m_rpcError.get "code").asInt
  else
    return -1

def getErrorMessage (J : Jsoncpp) (error : JsonRpcError) : Except Exception String := do
  if ← error.m_rpcError.isMember "message" then
    (← error.m_rpcError.get "message").asString J
  else
    return ""

@[simp] theorem getErrorCode_ofCode (code : JsonRpcErrorCode) :
    (ofCode code).getErrorCode = .ok code.toInt := by
  simp [getErrorCode, ofCode, Value.isMember_eq, Value.get_eq, bind, Except.bind]

@[simp] theorem getErrorMessage_ofCode (J : Jsoncpp) (code : JsonRpcErrorCode) :
    (ofCode code).getErrorMessage J = .ok code.getErrorMessage := by
  simp [getErrorMessage, ofCode, Value.isMember_eq, Value.get_eq, bind, Except.bind,
    Value.asString]

end JsonRpcError

namespace JsonRpcErrorFactory

def createFromErrorCodeEnum (code : JsonRpcErrorCode) : JsonRpcError := .ofCode code

/-- The codes understood here are the positions `0 .. 4`, not the numbers of `toInt`. -/
def createFromInt (code : Int32) : JsonRpcError :=
  if code = 0 then .ofCode .ParseError
  else if code = 1 then .ofCode .InvalidRequest
  else if code = 2 then .ofCode .MethodNotFound
  else if code = 3 then .ofCode .InvalidParams
  else if code = 4 then .ofCode .InternalError
  else .ofCode .InternalError

def createEmptyError : JsonRpcError := .ofCode .InternalError

/-- Every enumerator of `JsonRpcErrorCode` is negative, so none survives the trip through
`createFromInt`: all become internal errors. -/
theorem createFromInt_toInt {code : JsonRpcErrorCode} (h : ∀ n, code ≠ .other n) :
    createFromInt code.toInt = .ofCode .InternalError := by
  cases code with
  | other n => exact absurd rfl (h n)
  | _ => rfl

end JsonRpcErrorFactory

end NBRaft.JrpcProto
