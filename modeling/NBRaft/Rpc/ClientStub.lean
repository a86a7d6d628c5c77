import NBRaft.Rpc.CallRecords

/-!
# Calls through the stub

`RpcClientStub::rpcReturnCall`, in the thread of its caller, and the task that
`asyncRpcReturnCall` submits: the same steps, of any number of calls at a time. The mutex of the
client makes each of its functions one step; how long a call sleeps is up to the run. A call
has its index in `calls` for its callback.

The record a call gets is shared with the map, so that a response can still come into it between
the lookup and the check.
-/

namespace NBRaft.Rpc

open Json JrpcProto Communication Transition

def CallRecord.isDone (record : CallRecord) : Bool := record.response.isSome

def CallRecord.isError (record : CallRecord) : Bool :=
  record.request.isNone || record.response.isNone

/-- A pointer to a record and what is in the record: one that call `maker` has inserted, or a
new one. -/
structure CallRecordPtr where
  maker : Option Nat := none
  record : CallRecord := {}

/-- Responses put into records, this one perhaps among them. -/
def CallRecordPtr.receive (stored : List (Nat × JsonRpcResponse)) (r : CallRecordPtr) :
    CallRecordPtr :=
  stored.foldl (fun r (k, response) =>
    if r.maker = some k then { r with record := { r.record with response := some response } }
    else r) r

/-- The call is about to make its request, to wake up, to look at the record or to remove it;
or it is over. -/
inductive Stage where
  | entered
  | sleeping
  | got (record : CallRecordPtr)
  | removing (record : CallRecordPtr)
  | returned (record : CallRecordPtr)
  | threw

namespace Stage

/-- Accepted, and not over yet. -/
def Waits : Stage → Prop
  | .sleeping | .got _ | .removing _ => True
  | _ => False

def Over : Stage → Prop
  | .returned _ | .threw => True
  | _ => False

/-- The same pointer, with these responses put into the record. -/
def receive (stored : List (Nat × JsonRpcResponse)) : Stage → Stage
  | .got r => .got (r.receive stored)
  | .removing r => .removing (r.receive stored)
  | .returned r => .returned (r.receive stored)
  | stage => stage

end Stage

structure StubCall where
  id : String
  methodName : String
  params : UnorderedMap Value
  stage : Stage

namespace StubCall

def request (call : StubCall) : JsonRpcRequest :=
  JsonRpcRequestFactory.createReturnCallRequest "2.0" call.methodName call.id call.params

/-- The next step of call `n`, to its new stage. -/
def next (J : Jsoncpp) (order : ByteOrder) (slack : Slack) (n : Nat) (call : StubCall)
    (c : RpcClient Nat) : Option (Stage × RpcClient Nat) :=
  match call.stage with
  | .entered =>
    match c.callReturnProcedure J order slack call.request n with
    | (.ok true, c) => some (.sleeping, c)
    | (.ok false, c) => some (.returned {}, c)
    | (.error _, c) => some (.threw, c)
  | .sleeping => some (.got {
      maker := (c.m_callRecords.lookup call.id).map Prod.snd
      record := c.getReturnCallRecord call.id }, c)
  | .got r =>
    if !r.record.isError && r.record.isDone then some (.removing r, c) else some (.returned r, c)
  | .removing r => some (.returned r, c.removeCallRecord call.id)
  | .returned _ | .threw => none

end StubCall

structure RpcClientStub where
  m_rpcClient : RpcClient Nat := {}
  m_connected : Bool := false
  calls : List StubCall := []

namespace RpcClientStub

inductive Event where
  /-- `rpcReturnCall` or `asyncRpcReturnCall`. -/
  | call (id methodName : String) (params : UnorderedMap Value)
  | advance (n : Nat) (slack : Slack)
  | onDataReady (packet : RecvPacket)
  /-- Whatever becomes of the connection. -/
  | connection (base : BaseClient)

def step (J : Jsoncpp) (order : ByteOrder) (s : RpcClientStub) : Event → Option RpcClientStub
  | .call id methodName params => some { s with
      calls := s.calls ++ [{
        id := id
        methodName := methodName
        params := params
        stage := if s.m_connected then .entered else .returned {} }] }
  | .advance n slack => do
    let call ← s.calls[n]?
    let (stage, client) ← call.next J order slack n s.m_rpcClient
    some { s with m_rpcClient := client, calls := s.calls.set n { call with stage := stage } }
  | .onDataReady packet => some { s with
      m_rpcClient := (s.m_rpcClient.onDataReady J packet).2
      calls := s.calls.map fun call => { call with
        stage := call.stage.receive (s.m_rpcClient.stores J (.onDataReady packet)) } }
  | .connection base => some { s with m_rpcClient := { s.m_rpcClient with toBaseClient := base } }

/-- Nothing of the calls with this id is left: no entry, so that a later call with the id is
accepted, and a late response changes nothing and invokes no callback. -/
structure NoTrace (J : Jsoncpp) (order : ByteOrder) (id : String) (s : RpcClientStub) : Prop where
  absent : s.m_rpcClient.m_callRecords.lookup id = none
  accepts : ∀ slack request callback, request.getId J = .ok id →
    (request.toJsonStr J).length ≤ INT32_MAX →
      (s.m_rpcClient.callReturnProcedure J order slack request callback).1 = .ok true
  late : ∀ packet response,
    JsonRpcResponseFactory.createResponseFromJsonStr J (decode packet) = .ok (some response) →
      response.getId J = .ok id → (s.m_rpcClient.onDataReady J packet).2 = s.m_rpcClient

theorem NoTrace.of_absent {J : Jsoncpp} {order : ByteOrder} {id : String} {s : RpcClientStub}
    (h : s.m_rpcClient.m_callRecords.lookup id = none) : s.NoTrace J order id where
  absent := h
  accepts slack request callback hid hsize := by
    rw [RpcClient.callReturnProcedure_of_new hid h, RpcClient.encodeAndSend_of_encodes hsize]
  late packet response hp hid := by
    apply RpcClient.onDataReady_of_not
    intro response' id' entry hf
    obtain rfl : response = response' := by simpa using hp.symm.trans hf.parses
    obtain rfl : id = id' := by simpa using hid.symm.trans hf.getId
    exact absurd (h.symm.trans hf.found) (by simp)

/-- An accepted call has a text that encodes, and finds its record done when it looks. -/
def InTime (J : Jsoncpp) (s : RpcClientStub) : Event → Prop
  | .advance n _ => ∀ call, s.calls[n]? = some call →
    match call.stage with
    | .entered => s.m_rpcClient.m_callRecords.lookup call.id = none →
      (call.request.toJsonStr J).length ≤ INT32_MAX
    | .got r => r.record.isDone = true
    | _ => True
  | _ => True

/-! ## What one step does -/

section

variable {J : Jsoncpp} {order : ByteOrder} {slack : Slack} {n : Nat} {call : StubCall}
  {stage : Stage} {c d : RpcClient Nat} {s t : RpcClientStub}

theorem StubCall.getId_request (J : Jsoncpp) (call : StubCall) :
    call.request.getId J = .ok call.id :=
  JsonRpcRequest.memberText_string J (JsonRpcRequest.type_methodCall ..)
    (JsonRpcRequest.find?_id_methodCall ..)

/-- What the next step of a call can be: it is rejected, or records itself, or sleeps on; it
removes its record, or does without. -/
theorem StubCall.next_cases (h : call.next J order slack n c = some (stage, d)) :
    (call.stage = .entered ∧ (c.m_callRecords.lookup call.id).isSome = true ∧
      stage = .returned {} ∧ d = c) ∨
    (call.stage = .entered ∧ c.m_callRecords.lookup call.id = none ∧
      d.m_callRecords = c.m_callRecords.insert call.id ({ request := some call.request }, n) ∧
      (((call.request.toJsonStr J).length ≤ INT32_MAX ∧ stage = .sleeping) ∨
        (INT32_MAX < (call.request.toJsonStr J).length ∧ stage = .threw))) ∨
    (∃ r, call.stage = .sleeping ∧ stage = .got r ∧ d = c ∧
      ∀ entry, c.m_callRecords.lookup call.id = some entry →
        r = { maker := some entry.2, record := entry.1 }) ∨
    (∃ r, call.stage = .got r ∧ d = c ∧
      ((r.record.isError = false ∧ r.record.isDone = true ∧ stage = .removing r) ∨
        ((r.record.isError = true ∨ r.record.isDone = false) ∧ stage = .returned r))) ∨
    (∃ r, call.stage = .removing r ∧ stage = .returned r ∧ d = c.removeCallRecord call.id) := by
  cases hstage : call.stage with
  | entered =>
    simp only [StubCall.next, hstage] at h
    cases hlook : c.m_callRecords.lookup call.id with
    | some old =>
      rw [RpcClient.callReturnProcedure_of_recorded (StubCall.getId_request J call)
        (by simp [hlook])] at h
      cases h
      exact .inl ⟨rfl, rfl, rfl, rfl⟩
    | none =>
      rw [RpcClient.callReturnProcedure_of_new (StubCall.getId_request J call) hlook] at h
      by_cases hsize : (call.request.toJsonStr J).length ≤ INT32_MAX
      · rw [RpcClient.encodeAndSend_of_encodes hsize] at h
        cases h
        exact .inr (.inl ⟨rfl, rfl, rfl, .inl ⟨hsize, rfl⟩⟩)
      · rw [RpcClient.encodeAndSend_of_large (Nat.lt_of_not_le hsize)] at h
        cases h
        exact .inr (.inl ⟨rfl, rfl, rfl, .inr ⟨Nat.lt_of_not_le hsize, rfl⟩⟩)
  | sleeping =>
    simp only [StubCall.next, hstage] at h
    cases h
    refine .inr (.inr (.inl ⟨_, rfl, rfl, rfl, fun entry hl => ?_⟩))
    simp only [RpcClient.getReturnCallRecord, hl, Option.map_some]
  | got r =>
    simp only [StubCall.next, hstage] at h
    refine .inr (.inr (.inr (.inl ?_)))
    cases herror : r.record.isError <;> cases hdone : r.record.isDone <;>
      simp only [herror, hdone, Bool.not_true, Bool.not_false, Bool.true_and, Bool.false_and,
        Bool.false_eq_true, if_true, if_false, Option.some.injEq, Prod.mk.injEq] at h <;>
      obtain ⟨rfl, rfl⟩ := h <;>
      exact ⟨r, rfl, rfl, by simp [herror, hdone]⟩
  | removing r =>
    simp only [StubCall.next, hstage] at h
    cases h
    exact .inr (.inr (.inr (.inr ⟨r, rfl, rfl, rfl⟩)))
  | returned r => simp [StubCall.next, hstage] at h
  | threw => simp [StubCall.next, hstage] at h

@[simp] theorem CallRecordPtr.request_receive (stored : List (Nat × JsonRpcResponse))
    (r : CallRecordPtr) : (r.receive stored).record.request = r.record.request := by
  induction stored generalizing r with
  | nil => rfl
  | cons x stored ih =>
    refine (ih _).trans ?_
    dsimp only
    split <;> rfl

@[simp] theorem Stage.waits_receive (stored : List (Nat × JsonRpcResponse)) :
    (stage.receive stored).Waits ↔ stage.Waits := by
  cases stage <;> exact Iff.rfl

theorem Stage.not_over_of_waits (h : stage.Waits) : ¬ stage.Over := by
  cases stage <;> simp_all [Stage.Waits, Stage.Over]

/-- The request in the record under an id, and the call that it is of. -/
def requestUnder (c : RpcClient Nat) (id : String) : Option (Option JsonRpcRequest × Nat) :=
  (c.m_callRecords.lookup id).map fun entry => (entry.1.request, entry.2)

/-- A packet changes no request. -/
theorem requestUnder_onDataReady (J : Jsoncpp) (c : RpcClient Nat) (packet : RecvPacket)
    (id : String) : requestUnder (c.onDataReady J packet).2 id = requestUnder c id := by
  by_cases hf : ∃ response i old, c.Finds J packet response i old
  · obtain ⟨response, i, old, hf⟩ := hf
    obtain ⟨result, -, heq⟩ := RpcClient.onDataReady_of_finds hf
    rw [heq]
    by_cases hi : id = i
    · subst hi
      simp only [requestUnder, AList.lookup_insert, hf.found, Option.map_some]
    · simp only [requestUnder, AList.lookup_insert_ne hi]
  · rw [RpcClient.onDataReady_of_not fun response i old h => hf ⟨response, i, old, h⟩]

theorem requestUnder_insert {id : String} {record : CallRecord} {k : Nat}
    (h : d.m_callRecords = c.m_callRecords.insert id (record, k)) (i : String) :
    requestUnder d i = if i = id then some (record.request, k) else requestUnder c i := by
  split_ifs with hi
  · subst hi
    simp only [requestUnder, h, AList.lookup_insert, Option.map_some]
  · simp only [requestUnder, h, AList.lookup_insert_ne hi]

theorem requestUnder_remove (c : RpcClient Nat) (id i : String) :
    requestUnder (c.removeCallRecord id) i = if i = id then none else requestUnder c i := by
  split_ifs with hi
  · subst hi
    simp only [requestUnder, RpcClient.removeCallRecord, AList.lookup_erase, Option.map_none]
  · simp only [requestUnder, RpcClient.removeCallRecord, AList.lookup_erase_ne hi]

theorem requestUnder_eq_none {id : String} :
    requestUnder c id = none ↔ c.m_callRecords.lookup id = none := by
  simp [requestUnder]

/-- Every entry is that of a call that has entered, and every accepted call that is not over
has its own: if it has looked, it has got the record from there. -/
structure Inv (s : RpcClientStub) : Prop where
  made : ∀ id request n, requestUnder s.m_rpcClient id = some (request, n) →
    ∃ call, s.calls[n]? = some call ∧ call.id = id ∧ call.stage ≠ .entered
  recorded : ∀ (n : Nat) (call : StubCall), s.calls[n]? = some call → call.stage.Waits →
    requestUnder s.m_rpcClient call.id = some (some call.request, n)
  got : ∀ (n : Nat) (call : StubCall) r, s.calls[n]? = some call → call.stage = .got r →
    r.record.request = some call.request

/-- Every entry is that of an accepted call that is not over. -/
def Owned (s : RpcClientStub) : Prop :=
  ∀ id request n, requestUnder s.m_rpcClient id = some (request, n) →
    ∃ call, s.calls[n]? = some call ∧ call.id = id ∧ call.stage.Waits

/-- What all steps but those of the calls do: the requests stay under their ids, and the calls
there were stay where they are, at most with responses in their records. -/
structure Quiet (s t : RpcClientStub) : Prop where
  requests : ∀ id, requestUnder t.m_rpcClient id = requestUnder s.m_rpcClient id
  forth : ∀ (m : Nat) (call : StubCall), s.calls[m]? = some call →
    ∃ stored, t.calls[m]? = some { call with stage := call.stage.receive stored }
  back : ∀ (m : Nat) (call : StubCall), t.calls[m]? = some call → call.stage.Waits →
    ∃ old stored, s.calls[m]? = some old ∧ call = { old with stage := old.stage.receive stored }

theorem receive_nil (stage : Stage) : stage.receive [] = stage := by
  cases stage <;> rfl

theorem Quiet.of_same (hrequests : ∀ id,
    requestUnder t.m_rpcClient id = requestUnder s.m_rpcClient id) (hcalls : t.calls = s.calls) :
    Quiet s t where
  requests := hrequests
  forth m call h := ⟨[], by rw [hcalls, receive_nil]; exact h⟩
  back m call h _ := ⟨call, [], hcalls ▸ h, by rw [receive_nil]⟩

/-- A step is quiet, or the next step of one call. -/
theorem step_cases {e : Event} (h : s.step J order e = some t) :
    ((∀ n slack, e ≠ .advance n slack) ∧ Quiet s t) ∨
    ∃ n slack call stage, e = .advance n slack ∧ s.calls[n]? = some call ∧
      call.next J order slack n s.m_rpcClient = some (stage, t.m_rpcClient) ∧
      t.calls = s.calls.set n { call with stage := stage } := by
  cases e with
  | call id methodName params =>
    obtain rfl := Option.some.inj h
    refine .inl ⟨by simp, fun _ => rfl, fun m call hm => ⟨[], ?_⟩, fun m call hm hw => ?_⟩
    · rw [receive_nil]
      have hlt := (List.getElem?_eq_some_iff.mp hm).1
      rw [List.getElem?_append_left hlt]
      exact hm
    · by_cases hlt : m < s.calls.length
      · rw [List.getElem?_append_left hlt] at hm
        exact ⟨call, [], hm, by rw [receive_nil]⟩
      · rw [List.getElem?_append_right (Nat.le_of_not_lt hlt)] at hm
        obtain rfl := List.mem_singleton.mp (List.mem_of_getElem? hm)
        cases hc : s.m_connected <;> simp [hc, Stage.Waits] at hw
  | advance n slack =>
    simp only [step, Option.bind_eq_bind, Option.bind_eq_some_iff] at h
    obtain ⟨call, hcall, ⟨stage, client⟩, hnext, heq⟩ := h
    obtain rfl := Option.some.inj heq
    exact .inr ⟨n, slack, call, stage, rfl, hcall, hnext, rfl⟩
  | onDataReady packet =>
    obtain rfl := Option.some.inj h
    refine .inl ⟨by simp, fun id => requestUnder_onDataReady J s.m_rpcClient packet id,
      fun m call hm => ⟨s.m_rpcClient.stores J (.onDataReady packet), ?_⟩,
      fun m call hm _ => ?_⟩
    · rw [List.getElem?_map, hm]
      rfl
    · rw [List.getElem?_map, Option.map_eq_some_iff] at hm
      obtain ⟨old, hold, rfl⟩ := hm
      exact ⟨old, _, hold, rfl⟩
  | connection base =>
    obtain rfl := Option.some.inj h
    exact .inl ⟨by simp, Quiet.of_same (fun _ => rfl) rfl⟩

/-- A call after another one's step, or after its own. -/
theorem getElem?_set_call {m : Nat} {new old : StubCall}
    (h : (s.calls.set n new)[m]? = some old) :
    (m = n ∧ old = new) ∨ (m ≠ n ∧ s.calls[m]? = some old) := by
  by_cases hm : m = n
  · subst hm
    rw [List.getElem?_set_self (by simpa using (List.getElem?_eq_some_iff.mp h).1)] at h
    exact .inl ⟨rfl, (Option.some.inj h).symm⟩
  · rw [List.getElem?_set_ne (Ne.symm hm)] at h
    exact .inr ⟨hm, h⟩

theorem set_call_self {new : StubCall} (hcall : s.calls[n]? = some call) :
    (s.calls.set n new)[n]? = some new :=
  List.getElem?_set_self (List.getElem?_eq_some_iff.mp hcall).1

@[simp] theorem Stage.receive_eq_entered (stored : List (Nat × JsonRpcResponse)) :
    stage.receive stored = .entered ↔ stage = .entered := by
  cases stage <;> simp [Stage.receive]

theorem inv_of_quiet (hs : s.Inv) (hq : Quiet s t) : t.Inv where
  made id request n hr := by
    obtain ⟨call, hcall, hid, hstage⟩ := hs.made id request n (hq.requests id ▸ hr)
    obtain ⟨stored, hcall'⟩ := hq.forth n call hcall
    exact ⟨_, hcall', hid, by simpa using hstage⟩
  recorded m call hm hw := by
    obtain ⟨old, stored, hold, rfl⟩ := hq.back m call hm hw
    rw [hq.requests]
    exact hs.recorded m old hold (Stage.waits_receive stored |>.mp hw)
  got m call r hm hr := by
    obtain ⟨old, stored, hold, rfl⟩ := hq.back m call hm (by rw [hr]; trivial)
    cases hstage : old.stage with
    | got r₀ =>
      simp only [hstage, Stage.receive, Stage.got.injEq] at hr
      rw [← hr, CallRecordPtr.request_receive]
      exact hs.got m old r₀ hold hstage
    | _ => simp [hstage, Stage.receive] at hr

/-- A call touches nothing but the entry under its id. -/
theorem requestUnder_next (hnext : call.next J order slack n c = some (stage, d)) {id : String}
    (hid : id ≠ call.id) : requestUnder d id = requestUnder c id := by
  rcases StubCall.next_cases hnext with ⟨-, -, -, rfl⟩ | ⟨-, -, hd, -⟩ | ⟨-, -, -, rfl, -⟩ |
    ⟨-, -, rfl, -⟩ | ⟨-, -, -, rfl⟩
  · rfl
  · rw [requestUnder_insert hd, if_neg hid]
  · rfl
  · rfl
  · rw [requestUnder_remove, if_neg hid]

/-- And this entry too stays, unless the call puts it there or removes its own. -/
theorem requestUnder_next_self (hs : s.Inv) (hcall : s.calls[n]? = some call)
    (hnext : call.next J order slack n s.m_rpcClient = some (stage, d)) :
    (requestUnder d call.id = requestUnder s.m_rpcClient call.id ∧
      (stage.Waits → call.stage.Waits)) ∨
    (call.stage = .entered ∧ requestUnder s.m_rpcClient call.id = none ∧
      requestUnder d call.id = some (some call.request, n)) ∨
    (call.stage.Waits ∧ ¬ stage.Waits ∧
      requestUnder s.m_rpcClient call.id = some (some call.request, n) ∧
      requestUnder d call.id = none) := by
  rcases StubCall.next_cases hnext with ⟨-, -, rfl, rfl⟩ | ⟨hstage, hnone, hd, -⟩ |
    ⟨r, hstage, -, rfl, -⟩ | ⟨r, hstage, rfl, -⟩ | ⟨r, hstage, rfl, rfl⟩
  · exact .inl ⟨rfl, False.elim⟩
  · refine .inr (.inl ⟨hstage, requestUnder_eq_none.mpr hnone, ?_⟩)
    rw [requestUnder_insert hd, if_pos rfl]
  · exact .inl ⟨rfl, fun _ => by rw [hstage]; trivial⟩
  · exact .inl ⟨rfl, fun _ => by rw [hstage]; trivial⟩
  · have hw : call.stage.Waits := by rw [hstage]; trivial
    refine .inr (.inr ⟨hw, id, hs.recorded n call hcall hw, ?_⟩)
    rw [requestUnder_remove, if_pos rfl]

theorem stage_next_ne_entered (hnext : call.next J order slack n c = some (stage, d)) :
    stage ≠ .entered := by
  rcases StubCall.next_cases hnext with ⟨-, -, rfl, -⟩ | ⟨-, -, -, ⟨-, rfl⟩ | ⟨-, rfl⟩⟩ |
    ⟨r, -, rfl, -⟩ | ⟨r, -, -, ⟨-, -, rfl⟩ | ⟨-, rfl⟩⟩ | ⟨r, -, rfl, -⟩ <;> simp

/-- An entry after the step of a call was there before, or is the one that the call has put
there. -/
theorem requestUnder_of_next (hs : s.Inv) (hcall : s.calls[n]? = some call)
    (hnext : call.next J order slack n s.m_rpcClient = some (stage, d)) {id : String}
    {request : Option JsonRpcRequest} {m : Nat} (hr : requestUnder d id = some (request, m)) :
    requestUnder s.m_rpcClient id = some (request, m) ∨ (m = n ∧ id = call.id) := by
  by_cases hid : id = call.id
  · subst hid
    rcases requestUnder_next_self hs hcall hnext with ⟨heq, -⟩ | ⟨-, -, hsome⟩ | ⟨-, -, -, hnone⟩
    · exact .inl (heq ▸ hr)
    · rw [hsome] at hr
      simp only [Option.some.injEq, Prod.mk.injEq] at hr
      exact .inr ⟨hr.2.symm, rfl⟩
    · rw [hnone] at hr
      cases hr
  · exact .inl (requestUnder_next hnext hid ▸ hr)

theorem inv_of_next (hs : s.Inv) (hcall : s.calls[n]? = some call)
    (hnext : call.next J order slack n s.m_rpcClient = some (stage, t.m_rpcClient))
    (hcalls : t.calls = s.calls.set n { call with stage := stage }) : t.Inv := by
  have hself : t.calls[n]? = some { call with stage := stage } := by
    rw [hcalls]
    exact set_call_self hcall
  constructor
  · intro id request m hr
    by_cases hm : m = n
    · subst hm
      rcases requestUnder_of_next hs hcall hnext hr with hr | ⟨-, rfl⟩
      · obtain ⟨old, hold, hid, -⟩ := hs.made id request m hr
        obtain rfl := Option.some.inj (hcall.symm.trans hold)
        exact ⟨_, hself, hid, stage_next_ne_entered hnext⟩
      · exact ⟨_, hself, rfl, stage_next_ne_entered hnext⟩
    · rcases requestUnder_of_next hs hcall hnext hr with hr | ⟨rfl, -⟩
      · obtain ⟨other, hother, hid, hstage⟩ := hs.made id request m hr
        exact ⟨other, by rw [hcalls, List.getElem?_set_ne (Ne.symm hm), hother], hid, hstage⟩
      · exact absurd rfl hm
  · intro m other hm hw
    rw [hcalls] at hm
    rcases getElem?_set_call hm with ⟨rfl, rfl⟩ | ⟨hne, hm⟩
    · rcases requestUnder_next_self hs hcall hnext with ⟨heq, hwaits⟩ | ⟨-, -, hsome⟩ | ⟨-, hnot, -⟩
      · exact heq.trans (hs.recorded m call hcall (hwaits hw))
      · exact hsome
      · exact absurd hw hnot
    · -- another call that waits has the entry under its id, so this call does not touch it
      have hrec := hs.recorded m other hm hw
      by_cases hid : other.id = call.id
      · rw [hid] at hrec ⊢
        rcases requestUnder_next_self hs hcall hnext with ⟨heq, -⟩ | ⟨-, hnone, -⟩ |
          ⟨-, -, hsome, -⟩
        · exact heq.trans hrec
        · cases hnone.symm.trans hrec
        · have hmn := hsome.symm.trans hrec
          simp only [Option.some.injEq, Prod.mk.injEq] at hmn
          exact absurd hmn.2.symm hne
      · exact (requestUnder_next hnext hid).trans hrec
  · intro m other r hm hr
    rw [hcalls] at hm
    rcases getElem?_set_call hm with ⟨rfl, rfl⟩ | ⟨-, hm⟩
    · -- it is this call that has got its record, from under its id
      rcases StubCall.next_cases hnext with ⟨-, -, rfl, -⟩ | ⟨-, -, -, ⟨-, rfl⟩ | ⟨-, rfl⟩⟩ |
        ⟨r', hstage, rfl, -, hr'⟩ | ⟨r', -, -, ⟨-, -, rfl⟩ | ⟨-, rfl⟩⟩ | ⟨r', -, rfl, -⟩ <;>
        try cases hr
      have hrec := hs.recorded m call hcall (by rw [hstage]; trivial)
      obtain ⟨entry, hlook, heq⟩ := Option.map_eq_some_iff.mp hrec
      rw [hr' entry hlook]
      exact (Prod.mk.inj heq).1
    · exact hs.got m other r hm hr

theorem inv_step {e : Event} (h : s.step J order e = some t) (hs : s.Inv) : t.Inv := by
  rcases step_cases h with ⟨-, hq⟩ | ⟨n, slack, call, stage, -, hcall, hnext, hcalls⟩
  · exact inv_of_quiet hs hq
  · exact inv_of_next hs hcall hnext hcalls

theorem inv_initial (base : BaseClient) :
    Inv { m_rpcClient := { toBaseClient := base }, m_connected := true } where
  made := by simp [requestUnder]
  recorded := by simp
  got := by simp

/-- An entry that no call will remove stays. -/
theorem owned_of_step {e : Event} (h : s.step J order e = some t) (hs : s.Inv) (ht : t.Owned) :
    s.Owned := by
  intro id request n hr
  obtain ⟨call, hcall, hid, -⟩ := hs.made id request n hr
  refine ⟨call, hcall, hid, ?_⟩
  rcases step_cases h with ⟨-, hq⟩ | ⟨m, slack, other, stage, -, hother, hnext, hcalls⟩
  · obtain ⟨new, hnew, -, hw⟩ := ht id request n ((hq.requests id).trans hr)
    obtain ⟨stored, heq⟩ := hq.forth n call hcall
    obtain rfl := Option.some.inj (heq.symm.trans hnew)
    exact (Stage.waits_receive stored).mp hw
  · -- the maker of an entry that is still there waits, and is as it was or waited before
    have hback : requestUnder t.m_rpcClient id = requestUnder s.m_rpcClient id →
        (id = other.id → stage.Waits → other.stage.Waits) → call.stage.Waits := by
      intro heq hother'
      obtain ⟨new, hnew, -, hw⟩ := ht id request n (heq.trans hr)
      rw [hcalls] at hnew
      rcases getElem?_set_call hnew with ⟨rfl, rfl⟩ | ⟨-, hnew⟩
      · obtain rfl := Option.some.inj (hcall.symm.trans hother)
        exact hother' hid.symm hw
      · obtain rfl := Option.some.inj (hcall.symm.trans hnew)
        exact hw
    by_cases hi : id = other.id
    · subst hi
      rcases requestUnder_next_self hs hother hnext with ⟨heq, hwaits⟩ | ⟨-, hnone, -⟩ |
        ⟨hw, -, hsome, -⟩
      · exact hback heq fun _ => hwaits
      · cases hnone.symm.trans hr
      · have hmn := hsome.symm.trans hr
        simp only [Option.some.injEq, Prod.mk.injEq] at hmn
        obtain rfl := hmn.2
        obtain rfl := Option.some.inj (hcall.symm.trans hother)
        exact hw
    · exact hback (requestUnder_next hnext hi) fun heq => absurd heq hi

/-- The step of a call keeps the map in order if it does not leave its own entry behind. -/
theorem owned_next_iff (hs : s.Inv) (ho : s.Owned) (hcall : s.calls[n]? = some call)
    (hnext : call.next J order slack n s.m_rpcClient = some (stage, t.m_rpcClient))
    (hcalls : t.calls = s.calls.set n { call with stage := stage }) :
    t.Owned ↔
      ∀ request, requestUnder t.m_rpcClient call.id = some (request, n) → stage.Waits := by
  have hself : t.calls[n]? = some { call with stage := stage } := by
    rw [hcalls]
    exact set_call_self hcall
  constructor
  · intro ht request hr
    obtain ⟨new, hnew, -, hw⟩ := ht call.id request n hr
    obtain rfl := Option.some.inj (hself.symm.trans hnew)
    exact hw
  · intro hleft id request m hr
    by_cases hm : m = n
    · subst hm
      have hid : id = call.id := by
        rcases requestUnder_of_next hs hcall hnext hr with hr | ⟨-, hid⟩
        · obtain ⟨old, hold, hid, -⟩ := ho id request m hr
          obtain rfl := Option.some.inj (hcall.symm.trans hold)
          exact hid.symm
        · exact hid
      subst hid
      exact ⟨_, hself, rfl, hleft request hr⟩
    · rcases requestUnder_of_next hs hcall hnext hr with hr | ⟨rfl, -⟩
      · obtain ⟨other, hother, hid, hw⟩ := ho id request m hr
        exact ⟨other, by rw [hcalls, List.getElem?_set_ne (Ne.symm hm), hother], hid, hw⟩
      · exact absurd rfl hm

/-- A step keeps the map in order exactly if no call is too late in it. -/
theorem owned_step_iff {e : Event} (h : s.step J order e = some t) (hs : s.Inv) (ho : s.Owned) :
    t.Owned ↔ s.InTime J e := by
  rcases step_cases h with ⟨hnot, hq⟩ | ⟨n, slack, call, stage, rfl, hcall, hnext, hcalls⟩
  · refine iff_of_true ?_ ?_
    · intro id request n hr
      obtain ⟨call, hcall, hid, hw⟩ := ho id request n (hq.requests id ▸ hr)
      obtain ⟨stored, heq⟩ := hq.forth n call hcall
      exact ⟨_, heq, hid, (Stage.waits_receive stored).mpr hw⟩
    · cases e with
      | advance n slack => exact absurd rfl (hnot n slack)
      | _ => trivial
  · rw [owned_next_iff hs ho hcall hnext hcalls]
    simp only [InTime, hcall, Option.some.injEq, forall_eq']
    rcases StubCall.next_cases hnext with ⟨hstage, hsome, rfl, hd⟩ |
      ⟨hstage, hnone, hd, ⟨hsize, rfl⟩ | ⟨hsize, rfl⟩⟩ | ⟨r, hstage, rfl, -⟩ |
      ⟨r, hstage, hd, ⟨-, hdone, rfl⟩ | ⟨hor, rfl⟩⟩ | ⟨r, hstage, rfl, hd⟩ <;>
      simp only [hstage]
    · -- rejected: the entry is another call's
      refine iff_of_true (fun request hr => ?_) fun hnone => by simp [hnone] at hsome
      rw [hd] at hr
      obtain ⟨old, hold, -, hw⟩ := ho call.id request n hr
      obtain rfl := Option.some.inj (hcall.symm.trans hold)
      rw [hstage] at hw
      exact hw.elim
    · exact iff_of_true (fun _ _ => trivial) fun _ => hsize
    · refine iff_of_false (fun hall => hall (some call.request) ?_) fun hle => ?_
      · rw [requestUnder_insert hd, if_pos rfl]
      · exact absurd (hle hnone) (Nat.not_le_of_gt hsize)
    · exact iff_of_true (fun _ _ => trivial) trivial
    · exact iff_of_true (fun _ _ => trivial) hdone
    · -- the check fails for want of a response, as the request is there
      refine iff_of_false (fun hall => hall (some call.request) ?_) fun hdone => ?_
      · rw [hd]
        exact hs.recorded n call hcall (by rw [hstage]; trivial)
      · have hrequest := hs.got n call r hcall hstage
        simp [CallRecord.isError, CallRecord.isDone, hrequest] at hor hdone
        simp [hor] at hdone
    · refine iff_of_true (fun request hr => ?_) trivial
      rw [hd, requestUnder_remove, if_pos rfl] at hr
      cases hr

end

/-- In a run of a connected stub every entry belongs to a call that has yet to look at it
exactly if every accepted call finds its record done when it looks. -/
theorem owned_run_iff (J : Jsoncpp) (order : ByteOrder) (base : BaseClient) (es : List Event)
    (s : RpcClientStub)
    (h : run (step J order) { m_rpcClient := { toBaseClient := base }, m_connected := true } es =
      some s) :
    s.Owned ↔ Along (step J order) (InTime J)
      { m_rpcClient := { toBaseClient := base }, m_connected := true } es :=
  run_iff_along (fun _ _ _ => inv_step) (fun _ _ _ => owned_of_step)
    (fun _ _ _ => owned_step_iff) h (inv_initial base) (by simp [Owned, requestUnder])

/-- Whatever the calls, their timeouts and the packets: if every accepted call finds its record
done when it looks, then in every state the calls with an id, once they are over, have left no
trace. -/
theorem noTrace_of_inTime (J : Jsoncpp) (order : ByteOrder) (base : BaseClient)
    (es : List Event) (s : RpcClientStub)
    (h : run (step J order) { m_rpcClient := { toBaseClient := base }, m_connected := true } es =
      some s)
    (hes : Along (step J order) (InTime J)
      { m_rpcClient := { toBaseClient := base }, m_connected := true } es)
    (id : String) (hover : ∀ call ∈ s.calls, call.id = id → call.stage.Over) :
    s.NoTrace J order id := by
  refine .of_absent ?_
  have howned := (owned_run_iff J order base es s h).mpr hes
  cases hlook : s.m_rpcClient.m_callRecords.lookup id with
  | none => rfl
  | some entry =>
    obtain ⟨call, hcall, hid, hw⟩ := howned id entry.1.request entry.2 (by
      simp only [requestUnder, hlook, Option.map_some])
    exact absurd (hover call (List.mem_of_getElem? hcall) hid) (Stage.not_over_of_waits hw)

/-- A call whose response comes while it sleeps. -/
theorem noTrace_of_inTime_ping :
    ∃ s, run (step RpcClient.pongJsoncpp .littleEndian) { m_connected := true }
        [.call "1" "ping" ∅, .advance 0 (0, 0), .onDataReady RpcClient.pongPacket,
          .advance 0 (0, 0), .advance 0 (0, 0), .advance 0 (0, 0)] = some s ∧
      s.NoTrace RpcClient.pongJsoncpp .littleEndian "1" := by
  obtain ⟨s, h, hrecords, call, record, hcalls, hstage⟩ :
      ∃ s, run (step RpcClient.pongJsoncpp .littleEndian) { m_connected := true }
        [.call "1" "ping" ∅, .advance 0 (0, 0), .onDataReady RpcClient.pongPacket,
          .advance 0 (0, 0), .advance 0 (0, 0), .advance 0 (0, 0)] = some s ∧
        s.m_rpcClient.m_callRecords = ∅ ∧
        ∃ call record, s.calls = [call] ∧ call.stage = .returned record :=
    ⟨_, rfl, rfl, _, _, rfl, rfl⟩
  have howned : s.Owned := by simp [Owned, requestUnder, hrecords]
  refine ⟨s, h, noTrace_of_inTime RpcClient.pongJsoncpp .littleEndian {} _ s h
    ((owned_run_iff _ _ _ _ _ h).mp howned) "1" ?_⟩
  intro other hother _
  obtain rfl : other = call := by simpa [hcalls] using hother
  rw [hstage]
  trivial

/-- Without a response in time, the record stays, and a late response invokes the callback of
the call that has returned. -/
theorem timedOut_leaves_record :
    ∃ s, run (step RpcClient.pongJsoncpp .littleEndian) { m_connected := true }
        [.call "1" "ping" ∅, .advance 0 (0, 0), .advance 0 (0, 0), .advance 0 (0, 0)] = some s ∧
      (∃ record, s.calls.map StubCall.stage = [.returned record]) ∧
      (s.m_rpcClient.onDataReady RpcClient.pongJsoncpp RpcClient.pongPacket).2.invoked.map
        Prod.fst = [0] ∧
      ¬ s.NoTrace RpcClient.pongJsoncpp .littleEndian "1" := by
  refine ⟨_, rfl, ⟨_, rfl⟩, rfl, fun h => ?_⟩
  have hlook := h.absent
  cases hlook

end RpcClientStub

end NBRaft.Rpc
