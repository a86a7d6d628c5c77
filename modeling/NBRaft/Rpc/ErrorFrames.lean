import NBRaft.Rpc.Server

/-!
# Error frames

The server puts the name of an error in its frame, as bare text; the client reads its frames as
JSON. What is used of jsoncpp is only how the texts begin that its reader accepts.
-/

namespace NBRaft.Rpc.RpcServer

open Json JrpcProto Communication

/-- The bytes a text accepted by jsoncpp's reader may begin with: white space, a comment, a
value, or a byte order mark. -/
def jsonStart : Bytes := utf8 " \t\n\r/\x7b[\"+-0123456789tfn" ++ [0xEF]

/-- The reader accepts only texts that begin like JSON. -/
def ReadsJson (J : Jsoncpp) : Prop :=
  ∀ text v, J.parseFromStream text = .ok (some v) → ∃ b ∈ text.head?, b ∈ jsonStart

/-- The server answers the packet with one frame, which the client's parser accepts as an error
response with the code. -/
def ErrorDelivered {σ : Type} (J : Jsoncpp) (sender : σ) (packet : RecvPacket) (err : Int32) :
    Prop :=
  ∃ frame response error,
    onDataReady J sender packet = .ok { sent := [(sender, frame)] } ∧
    JsonRpcResponseFactory.createResponseFromJsonStr J frame = .ok (some response) ∧
    response.isError = .ok true ∧ response.getError = .ok error ∧ error.getErrorCode = .ok err

/-- The text of an error is one of five names. -/
theorem getErrorMessage_createFromInt (J : Jsoncpp) (err : Int32) :
    ∃ name ∈ ["ParseError", "InvalidRequest", "MethodNotFound", "InvalidParams", "InternalError"],
      (JsonRpcErrorFactory.createFromInt err).getErrorMessage J = .ok name := by
  unfold JsonRpcErrorFactory.createFromInt
  split_ifs <;> simp [JsonRpcErrorCode.getErrorMessage]

/-- None of them begins like JSON. -/
theorem not_jsonStart_of_name {name : String}
    (h : name ∈ ["ParseError", "InvalidRequest", "MethodNotFound", "InvalidParams",
      "InternalError"]) : ∃ b, (utf8 name).head? = some b ∧ b ∉ jsonStart := by
  simp only [List.mem_cons, List.not_mem_nil, or_false] at h
  rcases h with rfl | rfl | rfl | rfl | rfl
  · exact ⟨0x50, rfl, by decide⟩
  · exact ⟨0x49, rfl, by decide⟩
  · exact ⟨0x4D, rfl, by decide⟩
  · exact ⟨0x49, rfl, by decide⟩
  · exact ⟨0x49, rfl, by decide⟩

section

variable {σ : Type} {J : Jsoncpp} {sender : σ} {packet : RecvPacket} {err : Int32}
  {detail : String}

/-- The frame of a rejected packet is the name of an error. -/
theorem onDataReady_rejected (h : dispatch J sender packet = .error (.rpcException err detail)) :
    ∃ name ∈ ["ParseError", "InvalidRequest", "MethodNotFound", "InvalidParams", "InternalError"],
      onDataReady J sender packet = .ok { sent := [(sender, utf8 name)] } := by
  obtain ⟨name, hmem, hname⟩ := getErrorMessage_createFromInt J err
  have hlen : (utf8 name).length ≤ INT32_MAX := by
    simp only [List.mem_cons, List.not_mem_nil, or_false] at hmem
    rcases hmem with rfl | rfl | rfl | rfl | rfl <;> decide
  refine ⟨name, hmem, ?_⟩
  simp [onDataReady, h, catchRpcException, handleJsonRpcErrorException, hname, encode,
    Nat.not_lt.mpr hlen, bind, Except.bind, pure, Except.pure]

theorem not_errorDelivered (hJ : ReadsJson J)
    (h : dispatch J sender packet = .error (.rpcException err detail)) :
    ¬ ErrorDelivered J sender packet err := by
  rintro ⟨frame, response, error, hframe, hresponse, -⟩
  obtain ⟨name, hmem, hname⟩ := onDataReady_rejected h
  obtain rfl : utf8 name = frame := by simpa [hname] using hframe
  have hv := (JsonRpcResponseFactory.createResponseFromJsonStr_eq_some.mp hresponse).1
  obtain ⟨b, hb, hstart⟩ := hJ _ _ hv
  obtain ⟨b', hb', hno⟩ := not_jsonStart_of_name hmem
  obtain rfl : b' = b := Option.some.inj (hb'.symm.trans hb)
  exact hno hstart

end

/-- No rejection reaches the client as an error with its code, whatever the packet was. -/
theorem rejection_not_delivered {σ : Type} (J : Jsoncpp) (hJ : ReadsJson J) (sender : σ)
    (packet : RecvPacket) (err : Int32) (detail : String)
    (h : dispatch J sender packet = .error (.rpcException err detail)) :
    ¬ ErrorDelivered J sender packet err :=
  not_errorDelivered hJ h

/-- jsoncpp's reader on texts that are no JSON at all. -/
def noJson : Jsoncpp where
  parseFromStream _ := .ok none
  writeString _ := []
  toStyledString _ := []
  valueToString _ := ""

/-- A packet with the letter `x` in it. -/
def noJsonPacket : RecvPacket := ⟨utf8 "x", 1, by decide⟩

theorem rejection_not_delivered_noJson :
    ReadsJson noJson ∧
      dispatch noJson () noJsonPacket = .error JsonRpcErrorCode.ParseError.toException ∧
      ¬ ErrorDelivered noJson () noJsonPacket JsonRpcErrorCode.ParseError.toInt := by
  have hJ : ReadsJson noJson := fun text v h => by simp [noJson] at h
  exact ⟨hJ, rfl, rejection_not_delivered noJson hJ () noJsonPacket _ _ rfl⟩

/-- The server answers it with the bare text `InternalError`, which the client drops. -/
theorem parseError_sent_as_internalError :
    dispatch noJson () noJsonPacket = .error JsonRpcErrorCode.ParseError.toException ∧
      onDataReady noJson () noJsonPacket = .ok { sent := [((), utf8 "InternalError")] } ∧
      JsonRpcResponseFactory.createResponseFromJsonStr noJson (utf8 "InternalError") = .ok none ∧
      ¬ ErrorDelivered noJson () noJsonPacket JsonRpcErrorCode.ParseError.toInt :=
  ⟨rfl, rfl, rfl, not_errorDelivered (fun text v h => by simp [noJson] at h) rfl⟩

end NBRaft.Rpc.RpcServer
