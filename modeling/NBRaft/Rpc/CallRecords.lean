import NBRaft.Library.Transition
import NBRaft.Rpc.Client

/-!
# The records of a client's calls

`m_callRecords` under everything that can happen to it: calls, packets, and the operations that
read and drop records. `step_cases` says once what a step can do to them; what the entries hold
in a reachable state is derived from it.
-/

namespace NBRaft.Rpc

open Json JrpcProto Communication Transition

namespace RpcClient

variable {κ : Type}

/-- What happens to a client. The calls on its records are those of `rpcclient.h`; with
`connection`, its `BaseClient` is left in any other state. -/
inductive Event (κ : Type) where
  | callReturnProcedure (slack : Slack) (request : JsonRpcRequest) (callback : κ)
  | getReturnCallRecord (id : String)
  | removeCallRecord (id : String)
  | clearCallRecords
  | onDataReady (packet : RecvPacket)
  | connection (base : BaseClient)

def step (J : Jsoncpp) (order : ByteOrder) (c : RpcClient κ) : Event κ → Option (RpcClient κ)
  | .callReturnProcedure slack request callback =>
    some (c.callReturnProcedure J order slack request callback).2
  | .getReturnCallRecord _ => some c
  | .removeCallRecord id => some (c.removeCallRecord id)
  | .clearCallRecords => some c.clearCallRecords
  | .onDataReady packet => some (c.onDataReady J packet).2
  | .connection base => some { c with toBaseClient := base }

/-- The call that an event makes and the client accepts, told by its callback. -/
def accepts (J : Jsoncpp) (order : ByteOrder) (c : RpcClient κ) : Event κ → List κ
  | .callReturnProcedure slack request callback =>
    match (c.callReturnProcedure J order slack request callback).1 with
    | .ok true => [callback]
    | _ => []
  | _ => []

/-- The response that an event puts into a record, with the callback beside the record. -/
def stores (J : Jsoncpp) (c : RpcClient κ) : Event κ → List (κ × JsonRpcResponse)
  | .onDataReady packet =>
    match JsonRpcResponseFactory.createResponseFromJsonStr J (decode packet) with
    | .ok (some response) =>
      match response.getId J with
      | .ok id => ((c.m_callRecords.lookup id).map fun entry => (entry.2, response)).toList
      | .error _ => []
    | _ => []
  | _ => []

/-- The packet holds a response with this id, and the client has this entry under it. -/
structure Finds (J : Jsoncpp) (c : RpcClient κ) (packet : RecvPacket)
    (response : JsonRpcResponse) (id : String) (entry : CallRecord × κ) : Prop where
  parses : JsonRpcResponseFactory.createResponseFromJsonStr J (decode packet) =
    .ok (some response)
  getId : response.getId J = .ok id
  found : c.m_callRecords.lookup id = some entry

/-! ## What one step does -/

section

variable {J : Jsoncpp} {order : ByteOrder} {slack : Slack} {request : JsonRpcRequest}
  {callback : κ} {c d : RpcClient κ} {packet : RecvPacket} {response : JsonRpcResponse}
  {id : String} {entry : CallRecord × κ} {e : Event κ}

@[simp] theorem m_callRecords_encodeAndSend :
    (c.encodeAndSend J order slack request).2.m_callRecords = c.m_callRecords := by
  unfold encodeAndSend
  split <;> rfl

@[simp] theorem invoked_encodeAndSend :
    (c.encodeAndSend J order slack request).2.invoked = c.invoked := by
  unfold encodeAndSend
  split <;> rfl

/-- Under an id that has an entry a call returns `false`, and changes nothing. -/
theorem callReturnProcedure_of_recorded (hid : request.getId J = .ok id)
    (hlook : (c.m_callRecords.lookup id).isSome = true) :
    c.callReturnProcedure J order slack request callback = (.ok false, c) := by
  simp [callReturnProcedure, record, hid, hlook, bind, Except.bind, pure, Except.pure]

theorem callReturnProcedure_of_error {x : Exception} (hid : request.getId J = .error x) :
    c.callReturnProcedure J order slack request callback = (.error x, c) := by
  simp [callReturnProcedure, record, hid, bind, Except.bind]

/-- Under a new id it records the call before anything else. -/
theorem callReturnProcedure_of_new (hid : request.getId J = .ok id)
    (hlook : c.m_callRecords.lookup id = none) :
    c.callReturnProcedure J order slack request callback =
      encodeAndSend J order slack request { c with
        m_callRecords := c.m_callRecords.insert id ({ request := some request }, callback) } := by
  simp [callReturnProcedure, record_eq callback hid hlook]

theorem onDataReady_of_finds (h : c.Finds J packet response id entry) :
    ∃ result, response.getResult = .ok result ∧
      c.onDataReady J packet = (.ok (), { c with
        m_callRecords := c.m_callRecords.insert id
          ({ entry.1 with response := some response }, entry.2)
        invoked := c.invoked ++ [(entry.2, result)] }) := by
  have hresult := JsonRpcResponse.getResult_of_isResponse
    (JsonRpcResponseFactory.createResponseFromJsonStr_eq_some.mp h.parses).2
  refine ⟨_, hresult, ?_⟩
  simp only [onDataReady, h.parses, h.getId, h.found, hresult]

/-- A packet that finds no entry changes nothing. -/
theorem onDataReady_of_not (h : ∀ response id entry, ¬ c.Finds J packet response id entry) :
    (c.onDataReady J packet).2 = c := by
  unfold onDataReady
  cases hp : JsonRpcResponseFactory.createResponseFromJsonStr J (decode packet) with
  | error x => rfl
  | ok response? =>
    cases response? with
    | none => rfl
    | some response =>
      cases hid : response.getId J with
      | error x => simp only [hid]
      | ok id =>
        cases hlook : c.m_callRecords.lookup id with
        | none => simp only [hid, hlook]
        | some entry => exact absurd ⟨hp, hid, hlook⟩ (h response id entry)

theorem stores_of_finds (h : c.Finds J packet response id entry) :
    c.stores J (.onDataReady packet) = [(entry.2, response)] := by
  simp only [stores, h.parses, h.getId, h.found, Option.map_some, Option.toList_some]

theorem stores_of_not (h : ∀ response id entry, ¬ c.Finds J packet response id entry) :
    c.stores J (.onDataReady packet) = [] := by
  simp only [stores]
  split
  · rename_i response hp
    split
    · rename_i id hid
      cases hlook : c.m_callRecords.lookup id with
      | none => rfl
      | some entry => exact absurd ⟨hp, hid, hlook⟩ (h response id entry)
    · rfl
  · rfl

theorem lookup_insert_cases {α : Type} {m : UnorderedMap α} {i : String} {new a : α}
    (h : (m.insert i new).lookup id = some a) :
    (id = i ∧ a = new) ∨ (id ≠ i ∧ m.lookup id = some a) := by
  by_cases hi : id = i
  · subst hi
    rw [AList.lookup_insert] at h
    exact .inl ⟨rfl, (Option.some.inj h).symm⟩
  · rw [AList.lookup_insert_ne hi] at h
    exact .inr ⟨hi, h⟩

/-- What a step can do: record a call under a new id, put a response into a record and invoke
the callback, or at most drop records. -/
theorem step_cases (h : c.step J order e = some d) :
    (∃ slack request callback id, e = .callReturnProcedure slack request callback ∧
      request.getId J = .ok id ∧ c.m_callRecords.lookup id = none ∧
      d.m_callRecords =
        c.m_callRecords.insert id ({ request := some request }, callback) ∧
      d.invoked = c.invoked) ∨
    (∃ packet response id entry result, e = .onDataReady packet ∧
      c.Finds J packet response id entry ∧
      d.m_callRecords = c.m_callRecords.insert id
        ({ entry.1 with response := some response }, entry.2) ∧
      d.invoked = c.invoked ++ [(entry.2, result)]) ∨
    ((∀ id entry, d.m_callRecords.lookup id = some entry →
        c.m_callRecords.lookup id = some entry) ∧
      d.invoked = c.invoked ∧ c.accepts J order e = [] ∧ c.stores J e = []) := by
  cases e with
  | callReturnProcedure slack request callback =>
    obtain rfl := Option.some.inj h
    cases hid : request.getId J with
    | error x =>
      rw [accepts, callReturnProcedure_of_error hid]
      exact .inr (.inr ⟨fun _ _ h => h, rfl, rfl, rfl⟩)
    | ok i =>
      cases hlook : c.m_callRecords.lookup i with
      | some old =>
        rw [accepts, callReturnProcedure_of_recorded hid (by simp [hlook])]
        exact .inr (.inr ⟨fun _ _ h => h, rfl, rfl, rfl⟩)
      | none =>
        rw [callReturnProcedure_of_new hid hlook]
        exact .inl ⟨slack, request, callback, i, rfl, hid, hlook, by simp, by simp⟩
  | getReturnCallRecord i =>
    obtain rfl := Option.some.inj h
    exact .inr (.inr ⟨fun _ _ h => h, rfl, rfl, rfl⟩)
  | removeCallRecord i =>
    obtain rfl := Option.some.inj h
    refine .inr (.inr ⟨fun id entry hd => ?_, rfl, rfl, rfl⟩)
    by_cases hi : id = i
    · subst hi
      exact absurd ((AList.lookup_erase _ _).symm.trans hd) (by simp)
    · exact (AList.lookup_erase_ne hi).symm.trans hd
  | clearCallRecords =>
    obtain rfl := Option.some.inj h
    refine .inr (.inr ⟨fun id entry hd => ?_, rfl, rfl, rfl⟩)
    exact absurd ((AList.lookup_empty id).symm.trans hd) (by simp)
  | onDataReady packet =>
    obtain rfl := Option.some.inj h
    by_cases hf : ∃ response i old, c.Finds J packet response i old
    · obtain ⟨response, i, old, hf⟩ := hf
      obtain ⟨result, -, heq⟩ := onDataReady_of_finds hf
      rw [heq]
      exact .inr (.inl ⟨packet, response, i, old, result, rfl, hf, rfl, rfl⟩)
    · have hnone := fun response i old h => hf ⟨response, i, old, h⟩
      rw [onDataReady_of_not hnone]
      exact .inr (.inr ⟨fun _ _ h => h, rfl, rfl, stores_of_not hnone⟩)
  | connection base =>
    obtain rfl := Option.some.inj h
    exact .inr (.inr ⟨fun _ _ h => h, rfl, rfl, rfl⟩)

/-- The only ways an entry comes about: it was there, a call has made it, or a packet has put
its response into the record. -/
theorem lookup_step (h : c.step J order e = some d)
    (hd : d.m_callRecords.lookup id = some entry) :
    c.m_callRecords.lookup id = some entry ∨
    (∃ slack request, e = .callReturnProcedure slack request entry.2 ∧
      request.getId J = .ok id ∧ c.m_callRecords.lookup id = none ∧
      entry.1 = { request := some request }) ∨
    (∃ packet response reRecord, e = .onDataReady packet ∧
      c.Finds J packet response id (reRecord, entry.2) ∧
      entry.1 = { reRecord with response := some response }) := by
  rcases step_cases h with ⟨slack, request, callback, i, rfl, hid, hnone, hrecords, -⟩ |
    ⟨packet, response, i, old, result, rfl, hf, hrecords, -⟩ | ⟨hkeep, -⟩
  · rcases lookup_insert_cases (hrecords ▸ hd) with ⟨rfl, rfl⟩ | ⟨-, hd⟩
    · exact .inr (.inl ⟨slack, request, rfl, hid, hnone, rfl⟩)
    · exact .inl hd
  · rcases lookup_insert_cases (hrecords ▸ hd) with ⟨rfl, rfl⟩ | ⟨-, hd⟩
    · exact .inr (.inr ⟨packet, response, old.1, rfl, hf, rfl⟩)
    · exact .inl hd
  · exact .inl (hkeep id entry hd)

end

/-! ## Where an entry comes from -/

/-- In the run of `es` from `c₀` the entry was made by one accepted call and has been there
since; its response is null or came in a packet after the call. -/
def MadeBy (J : Jsoncpp) (order : ByteOrder) (c₀ : RpcClient κ) (es : List (Event κ))
    (id : String) (entry : CallRecord × κ) : Prop :=
  ∃ before slack request after c,
    es = before ++ .callReturnProcedure slack request entry.2 :: after ∧
    run (step J order) c₀ before = some c ∧
    (c.callReturnProcedure J order slack request entry.2).1 = .ok true ∧
    request.getId J = .ok id ∧ entry.1.request = some request ∧
    (∀ between, between <+: after → ∃ d,
      run (step J order) c₀ (before ++ .callReturnProcedure slack request entry.2 :: between) =
        some d ∧ (d.m_callRecords.lookup id).isSome = true) ∧
    ∀ response, entry.1.response = some response → ∃ packet, .onDataReady packet ∈ after ∧
      JsonRpcResponseFactory.createResponseFromJsonStr J (decode packet) = .ok (some response) ∧
      response.getId J = .ok id

section

variable {J : Jsoncpp} {order : ByteOrder} {c₀ c d : RpcClient κ} {es : List (Event κ)}
  {e : Event κ} {id : String} {entry old : CallRecord × κ}

/-- One more step, that leaves the entry to the same call. -/
theorem MadeBy.concat (h : MadeBy J order c₀ es id old)
    (hrun : run (step J order) c₀ (es ++ [e]) = some d)
    (hd : d.m_callRecords.lookup id = some entry) (hcallback : old.2 = entry.2)
    (hrequest : old.1.request = entry.1.request)
    (hresponse : ∀ response, entry.1.response = some response →
      old.1.response = some response ∨ ∃ packet, e = .onDataReady packet ∧
        JsonRpcResponseFactory.createResponseFromJsonStr J (decode packet) =
          .ok (some response) ∧ response.getId J = .ok id) :
    MadeBy J order c₀ (es ++ [e]) id entry := by
  obtain ⟨before, slack, request, after, c, rfl, hc, haccepted, hid, hreq, hsince, hresp⟩ := h
  rw [hcallback] at hrun haccepted hsince ⊢
  refine ⟨before, slack, request, after ++ [e], c, by simp, hc, haccepted, hid,
    hrequest ▸ hreq, fun between hb => ?_, fun response hr => ?_⟩
  · rcases List.prefix_concat_iff.mp hb with rfl | hb
    · exact ⟨d, by simpa using hrun, by simp [hd]⟩
    · exact hsince between hb
  · rcases hresponse response hr with hold | ⟨packet, rfl, hparse, hget⟩
    · obtain ⟨packet, hmem, hrest⟩ := hresp response hold
      exact ⟨packet, by simp [hmem], hrest⟩
    · exact ⟨packet, by simp, hparse, hget⟩

theorem madeBy_run (hempty : c₀.m_callRecords = ∅)
    (h : run (step J order) c₀ es = some c)
    (hes : ∀ slack request callback, .callReturnProcedure slack request callback ∈ es →
      (request.toJsonStr J).length ≤ INT32_MAX)
    (hlook : c.m_callRecords.lookup id = some entry) : MadeBy J order c₀ es id entry := by
  induction es using List.reverseRecOn generalizing c entry with
  | nil =>
    obtain rfl := Option.some.inj h
    simp [hempty] at hlook
  | append_singleton es e ih =>
    obtain ⟨u, hu, hstep⟩ := run_concat_eq_some.mp h
    have hrec := fun entry (hlook : u.m_callRecords.lookup id = some entry) =>
      ih hu (fun slack request callback hmem => hes slack request callback (by simp [hmem])) hlook
    rcases lookup_step hstep hlook with hold | ⟨slack, request, rfl, hid, hnone, hentry⟩ |
      ⟨packet, response, reRecord, rfl, hf, hentry⟩
    · exact (hrec entry hold).concat h hlook rfl rfl fun response hr => .inl hr
    · refine ⟨es, slack, request, [], u, rfl, hu, ?_, hid, by rw [hentry], fun between hb => ?_,
        by simp [hentry]⟩
      · rw [callReturnProcedure_of_new hid hnone, encodeAndSend_of_encodes]
        exact hes slack request entry.2 (by simp)
      · obtain rfl := List.prefix_nil.mp hb
        exact ⟨c, h, by simp [hlook]⟩
    · refine (hrec _ hf.found).concat h hlook rfl (by rw [hentry]) fun r hr => .inr ?_
      obtain rfl : response = r := by simpa [hentry] using hr
      exact ⟨packet, rfl, hf.parses, hf.getId⟩

end

/-- In every reachable state: each entry was made by one accepted call and holds that call's
record and callback; a call under an id that has an entry changes nothing, and neither does a
packet that finds no entry; and a packet that finds one changes no other. -/
theorem callRecords_sound (J : Jsoncpp) (order : ByteOrder) (base : BaseClient)
    (es : List (Event κ)) (c : RpcClient κ)
    (h : run (step J order) { toBaseClient := base } es = some c)
    (hes : ∀ slack request callback, .callReturnProcedure slack request callback ∈ es →
      (request.toJsonStr J).length ≤ INT32_MAX) :
    (∀ id entry, c.m_callRecords.lookup id = some entry →
      MadeBy J order { toBaseClient := base } es id entry) ∧
    (∀ slack request callback id, request.getId J = .ok id →
      (c.m_callRecords.lookup id).isSome = true →
        c.callReturnProcedure J order slack request callback = (.ok false, c)) ∧
    (∀ packet, (∀ response id entry, ¬ c.Finds J packet response id entry) →
      (c.onDataReady J packet).2 = c) ∧
    ∀ packet response id entry, c.Finds J packet response id entry →
      (c.onDataReady J packet).2.m_callRecords.lookup id =
        some ({ entry.1 with response := some response }, entry.2) ∧
      (∀ other, other ≠ id → (c.onDataReady J packet).2.m_callRecords.lookup other =
        c.m_callRecords.lookup other) ∧
      ∃ result, response.getResult = .ok result ∧
        (c.onDataReady J packet).2.invoked = c.invoked ++ [(entry.2, result)] := by
  refine ⟨fun id entry => madeBy_run rfl h hes, fun slack request callback id =>
    callReturnProcedure_of_recorded, fun packet => onDataReady_of_not,
    fun packet response id entry hf => ?_⟩
  obtain ⟨result, hresult, heq⟩ := onDataReady_of_finds hf
  rw [heq]
  exact ⟨AList.lookup_insert _, fun other hne => AList.lookup_insert_ne hne, result, hresult, rfl⟩

def pingRequest : JsonRpcRequest := .methodCall "2.0" "ping" .emptyObject "1"

def pong : JsonRpcResponse := .ofResult "2.0" "1" (.boolean true)

def pongText : Bytes :=
  utf8 "\x7b\n\t\"id\" : \"1\",\n\t\"jsonrpc\" : \"2.0\",\n\t\"result\" : true\n\x7d\n"

/-- jsoncpp on the texts of this call and its response. -/
def pongJsoncpp : Jsoncpp where
  parseFromStream text := .ok (if text = pongText then some pong.m_rpcResponse else none)
  writeString _ := utf8 ("\x7b\n\t\"id\" : \"1\",\n\t\"jsonrpc\" : \"2.0\",\n" ++
    "\t\"method\" : \"ping\",\n\t\"params\" : \x7b\x7d\n\x7d")
  toStyledString _ := pongText
  valueToString _ := ""

def pongPacket : RecvPacket := ⟨pongText, UInt16.ofNat pongText.length, by decide⟩

/-- After a call and its response the entry under the id is the one that this call made. -/
theorem callRecords_sound_ping :
    ∃ c : RpcClient String, run (step pongJsoncpp .littleEndian) {}
        [.callReturnProcedure (0, 0) pingRequest "ping done", .onDataReady pongPacket] = some c ∧
      MadeBy pongJsoncpp .littleEndian {}
        [.callReturnProcedure (0, 0) pingRequest "ping done", .onDataReady pongPacket] "1"
        ({ request := some pingRequest, response := some pong }, "ping done") := by
  have h : run (step pongJsoncpp .littleEndian) ({} : RpcClient String)
      [.callReturnProcedure (0, 0) pingRequest "ping done", .onDataReady pongPacket] =
        some _ := rfl
  refine ⟨_, h, (callRecords_sound pongJsoncpp .littleEndian {} _ _ h ?_).1 _ _ ?_⟩
  · intro slack request callback _
    exact (by decide : (pingRequest.toJsonStr pongJsoncpp).length ≤ INT32_MAX)
  · rfl

end RpcClient

end NBRaft.Rpc
