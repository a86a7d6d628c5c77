import NBRaft.Rpc.Journey

/-!
# Every call gets its own answer

A run of the client and the server takes the calls along their journey: it has a bounded number
of steps, and where it can go no further every call has arrived, with the response that was
made for it.
-/

namespace NBRaft.Rpc

open Json JrpcProto Communication Transition

namespace System

variable {κ : Type}

/-! ## Whole runs -/

/-- A connection with nothing in flight, and a client and a server with nothing to do. -/
structure Connected (order : ByteOrder) (s : System κ) : Prop where
  running : s.client.m_running = true
  requests :
    Link order s.client.m_session.sendSide s.server.readSide s.serverRead []
  responses :
    Link order s.server.sendSide s.client.m_session.readSide s.clientRead []
  calling : s.calling = none
  tasks : s.tasks = []
  handling : s.handling = []

/-- What has become of the calls since a client `before` them, with those of them `finished`
whose response has come. -/
structure Correlated (J : Jsoncpp) (f : String → Value → Value) (calls : List (Call κ))
    (before now : RpcClient κ) (finished : List (Call κ)) : Prop where
  /-- Each call at most once. -/
  subperm : finished.Subperm calls
  invoked : now.invoked = before.invoked ++ finished.map fun c => (c.callback, c.result f)
  answered : ∀ c ∈ finished, ∃ response,
    now.m_callRecords.lookup c.id =
      some ({ request := some c.request, response := some response }, c.callback) ∧
    response.getId J = .ok c.id ∧ response.getResult = .ok (c.result f)
  unanswered : ∀ c ∈ calls, c ∉ finished → now.m_callRecords.lookup c.id = none ∨
    now.m_callRecords.lookup c.id = some ({ request := some c.request }, c.callback)
  others : ∀ id, (∀ c ∈ calls, c.id ≠ id) →
    now.m_callRecords.lookup id = before.m_callRecords.lookup id

/-- A client that has just connected, and its session on the server. -/
theorem connected_fresh (order : ByteOrder) (records : UnorderedMap (CallRecord × κ))
    (invoked : List (κ × Value)) (waiting : List (Call κ)) :
    Connected order {
      client := {
        toBaseClient := (BaseClient.connect false {}).2
        m_callRecords := records
        invoked := invoked }
      server := Session.start false {}
      waiting := waiting } where
  running := rfl
  requests := Link.fresh order false false
  responses := Link.fresh order false false
  calling := rfl
  tasks := rfl
  handling := rfl

section Runs

variable {J : Jsoncpp} {order : ByteOrder} {service : RpcService}
  {f : String → Value → Value} {calls : List (Call κ)} {before : RpcClient κ} {g : Journey κ}
  {s : System κ}

theorem matches_initial (h : s.Connected order)
    (hnew : ∀ c ∈ s.waiting, s.client.m_callRecords.lookup c.id = none) :
    Matches J order f s.waiting s.client { waiting := s.waiting } s where
  perm := by simp [Journey.all, Journey.inFlight]
  waiting := rfl
  entered := by simp [enteredCalls, h.calling]
  requests := h.requests
  responses := h.responses
  tasks := h.tasks
  handling := h.handling
  running := h.running
  invoked := by simp
  records := ⟨hnew, by simp [Journey.inFlight], by simp, fun _ _ => rfl⟩

theorem correlated_of_matches (hm : Matches J order f calls before g s) :
    Correlated J f calls before s.client g.finished where
  subperm := by
    refine List.Subperm.trans ?_ hm.perm.subperm
    exact ((List.sublist_append_right _ _).trans (List.sublist_append_right _ _)).subperm
  invoked := hm.invoked
  answered c hc := ⟨c.response f, hm.records.answered c hc, JsonRpcResponse.getId_ofResult ..,
    JsonRpcResponse.getResult_ofResult ..⟩
  unanswered c hc hnot := by
    have hall : c ∈ g.all := hm.perm.mem_iff.mpr hc
    simp only [Journey.all, List.mem_append, hnot, or_false] at hall
    rcases hall with hw | hi
    · exact .inl (hm.records.fresh c hw)
    · exact .inr (hm.records.recorded c hi)
  others := hm.records.others

/-- Where nothing can happen any more, every call has been answered. -/
theorem finished_of_stuck (hm : Matches J order f calls before g s)
    (hstuck : Stuck (step J order service) s) : g.finished.Perm calls := by
  -- nothing to write on either side, so that both queues have room
  obtain ⟨hcqueue, hcwritten⟩ := hm.requests.drained ⟨order, fun _ _ => false⟩ (by
    simpa [step] using hstuck .clientWrite)
  obtain ⟨hsqueue, hswritten⟩ := hm.responses.drained ⟨order, fun _ _ => false⟩ (by
    simpa [step] using hstuck .serverWrite)
  have hcalling : s.calling = none := by
    cases hcall : s.calling with
    | none => rfl
    | some p =>
      obtain ⟨c, sent⟩ := p
      cases sent with
      | false =>
        have := hstuck (.send (0, 0))
        simp [step, hcall, hcqueue, Session.MAX_SESSION_SEND_QUEUE_PENDING_SIZE] at this
      | true =>
        have := hstuck .leave
        simp [step, hcall] at this
  have hwaiting : g.waiting = [] := by
    cases hw : g.waiting with
    | nil => rfl
    | cons c cs =>
      have := hstuck (.enter 0)
      simp only [step, hcalling, hm.waiting, hw, List.getElem?_cons_zero] at this
      split at this <;> cases this
  have hpool : g.pool = [] := by
    cases hp : g.pool with
    | nil => rfl
    | cons c cs =>
      have := hstuck (.runTask 0)
      simp only [step, hm.tasks, hp, List.map_cons, List.getElem?_cons_zero] at this
      split at this <;> cases this
  have hhandling : g.handling = [] := by
    cases hh : g.handling with
    | nil => rfl
    | cons c cs =>
      have := hstuck (.done 0 (0, 0))
      simp [step, hm.handling, hh, hsqueue, Session.MAX_SESSION_SEND_QUEUE_PENDING_SIZE] at this
  have hup : g.up = [] := by
    refine List.map_eq_nil_iff.mp (hm.requests.exhausted hcwritten ?_)
    cases hnext : s.server.nextRead
        ((byteStream s.client.m_session.m_socket.written).drop s.serverRead) with
    | none => exact hnext
    | some p =>
      obtain ⟨op, bytes⟩ := p
      have := hstuck (.serverRead (0, 0))
      cases op <;> simp only [step, hnext, Option.map_eq_none_iff] at this
      · obtain ⟨t, ht⟩ := Session.step_nextRead ⟨order, fun _ _ => false⟩ hnext
        simp [ht] at this
      · obtain ⟨t, ht⟩ := Session.step_nextRead ⟨order, fun _ => _⟩ hnext
        exact absurd (this.symm.trans ht) (by simp)
  have hdown : g.down = [] := by
    refine List.map_eq_nil_iff.mp (hm.responses.exhausted hswritten ?_)
    cases hnext : s.client.m_session.nextRead
        ((byteStream s.server.m_socket.written).drop s.clientRead) with
    | none => exact hnext
    | some p =>
      obtain ⟨op, bytes⟩ := p
      have := hstuck .clientRead
      cases op <;> simp only [step, hnext, hcalling, Option.map_eq_none_iff] at this
      · obtain ⟨t, ht⟩ := Session.step_nextRead ⟨order, fun _ _ => false⟩ hnext
        simp [ht] at this
      · obtain ⟨t, ht⟩ := Session.step_nextRead ⟨order, fun _ => _⟩ hnext
        exact absurd (this.symm.trans ht) (by simp)
  have hentered : g.entered = [] := by
    rw [← hm.entered]
    simp [enteredCalls, hcalling]
  simpa [Journey.all, Journey.inFlight, hwaiting, hentered, hup, hpool, hhandling, hdown]
    using hm.perm

/-- The calls that a connected client makes at the same time, under distinct new ids: however
the steps of the client, the connection and the server interleave, what has been answered is
correlated, no run goes on forever, and where a run cannot go on every call has its answer. -/
theorem calls_correlated {κ : Type} (J : Jsoncpp) (order : ByteOrder) (service : RpcService)
    (f : String → Value → Value) (s₀ : System κ) (h₀ : s₀.Connected order)
    (hids : (s₀.waiting.map Call.id).Nodup)
    (hnew : ∀ c ∈ s₀.waiting, s₀.client.m_callRecords.lookup c.id = none)
    (hconf : ∀ c ∈ s₀.waiting, Conforms J service f c) :
    (∀ es s, run (step J order service) s₀ es = some s → ∃ finished,
      Correlated J f s₀.waiting s₀.client s.client finished ∧
      (Stuck (step J order service) s → finished.Perm s₀.waiting)) ∧
    (∃ bound, ∀ es s, run (step J order service) s₀ es = some s → es.length ≤ bound) ∧
    ∃ es s, run (step J order service) s₀ es = some s ∧ Stuck (step J order service) s := by
  have hsim : ∀ es s, run (step J order service) s₀ es = some s →
      ∃ p : Journey κ × System κ,
        (Matches J order f s₀.waiting s₀.client p.1 s ∧ p.2 = s) ∧
        es.length + rank p ≤ rank ({ waiting := s₀.waiting }, s₀) := fun es s h => by
    refine run_simulates (R := fun (p : Journey κ × System κ) s =>
        Matches J order f s₀.waiting s₀.client p.1 s ∧ p.2 = s)
      (fun p s e t hp hst => ?_) ⟨matches_initial h₀ hnew, rfl⟩ h
    obtain ⟨g, _⟩ := p
    obtain ⟨hm, rfl⟩ := hp
    obtain ⟨g', hm', hlt⟩ := step_simulates hids hconf hm hst
    exact ⟨(g', t), ⟨hm', rfl⟩, hlt⟩
  have hbound : ∀ es s, run (step J order service) s₀ es = some s →
      es.length ≤ rank ({ waiting := s₀.waiting }, s₀) := fun es s h => by
    obtain ⟨p, -, hle⟩ := hsim es s h
    omega
  refine ⟨fun es s h => ?_, ⟨_, hbound⟩, exists_stuck _ hbound⟩
  obtain ⟨p, ⟨hm, -⟩, -⟩ := hsim es s h
  exact ⟨p.1.finished, correlated_of_matches hm, finished_of_stuck hm⟩

end Runs

/-! ## Two calls at the same time -/

/-- The difference, as an `int` is computed from the two members. -/
def substract (_method : String) (params : Value) : Value :=
  match params.find? "minuend", params.find? "subtrahend" with
  | some (.int minuend), some (.int subtrahend) => .ofInt (minuend.toInt32 - subtrahend.toInt32)
  | _, _ => .null

def substractCall (id : String) (minuend subtrahend : Int32) : Call String where
  version := "2.0"
  method := "substractMethod"
  id := id
  params :=
    AList.insert "minuend" (.ofInt minuend) (AList.insert "subtrahend" (.ofInt subtrahend) ∅)
  callback := id

def firstCall : Call String := substractCall "1" 42 23

def secondCall : Call String := substractCall "2" 2 1

/-- The text of a request; the writer sorts the members by their names. -/
def substractText (id minuend subtrahend : String) : Bytes :=
  utf8 ("\x7b\n\t\"id\" : \"" ++ id ++ "\",\n\t\"jsonrpc\" : \"2.0\",\n" ++
    "\t\"method\" : \"substractMethod\",\n\t\"params\" : \n\t\x7b\n" ++
    "\t\t\"minuend\" : " ++ minuend ++ ",\n\t\t\"subtrahend\" : " ++ subtrahend ++ "\n\t\x7d\n\x7d")

def differenceText (id difference : String) : Bytes :=
  utf8 ("\x7b\n\t\"id\" : \"" ++ id ++ "\",\n\t\"jsonrpc\" : \"2.0\",\n" ++
    "\t\"result\" : " ++ difference ++ "\n\x7d\n")

/-- jsoncpp on the texts of the two calls. -/
def substractJsoncpp : Jsoncpp where
  parseFromStream text := .ok (
    if text = substractText "1" "42" "23" then some firstCall.request.toJson
    else if text = substractText "2" "2" "1" then some secondCall.request.toJson
    else if text = differenceText "1" "19" then some (firstCall.response substract).toJson
    else if text = differenceText "2" "1" then some (secondCall.response substract).toJson
    else none)
  writeString v :=
    match v.find? "id" with
    | some (.string "1") => substractText "1" "42" "23"
    | _ => substractText "2" "2" "1"
  toStyledString v :=
    match v.find? "id" with
    | some (.string "1") => differenceText "1" "19"
    | _ => differenceText "2" "1"
  valueToString _ := ""

/-- Make the response from the request and call `done` with it. -/
def substractReturnService (request : Value) : ReturnFunc :=
  match request.find? "params" with
  | some params =>
    match JsonRpcResponseFactory.createResponseFromRequest substractJsoncpp request
      (substract "substractMethod" params) with
    | .ok (some response) => [response.toJson]
    | _ => []
  | none => []

def substractService : RpcService where
  m_procedureReturn := AList.insert "substractMethod" (some {
    m_callback := substractReturnService
    m_standardParams :=
      AList.insert "minuend" .intValue (AList.insert "subtrahend" .intValue ∅) }) ∅

theorem answers_substractReturnService (p : UnorderedMap ValueType) :
    Answers substractJsoncpp (substract "substractMethod") ⟨substractReturnService, p⟩ := by
  intro request params response hparams hresponse
  simp [substractReturnService, hparams, hresponse]

/-- Both calls are to the registered method, with its two parameters. -/
theorem registered_substractCall (id : String) (minuend subtrahend : Int32) :
    ∃ p, substractService.m_procedureReturn.lookup "substractMethod" = some (some p) ∧
      (∀ k w, (substractCall id minuend subtrahend).params.lookup k = some w →
        p.m_standardParams.lookup k = some w.type) ∧
      Answers substractJsoncpp (substract "substractMethod") p := by
  refine ⟨_, rfl, fun k w hk => ?_, answers_substractReturnService _⟩
  by_cases hm : k = "minuend"
  · subst hm
    obtain rfl : Value.ofInt minuend = w := by simpa [substractCall] using hk
    simp
  simp only [substractCall, AList.lookup_insert_ne hm] at hk ⊢
  by_cases hs : k = "subtrahend"
  · subst hs
    obtain rfl := Option.some.inj ((AList.lookup_insert _).symm.trans hk)
    exact AList.lookup_insert _
  · exact absurd ((AList.lookup_insert_ne hs).symm.trans hk) (by simp)

theorem conforms_firstCall : Conforms substractJsoncpp substractService substract firstCall where
  registered := registered_substractCall "1" 42 23
  request_parses := rfl
  response_parses := rfl
  request_size := by decide +kernel
  response_size := by decide

theorem conforms_secondCall :
    Conforms substractJsoncpp substractService substract secondCall where
  registered := registered_substractCall "2" 2 1
  request_parses := rfl
  response_parses := rfl
  request_size := by decide +kernel
  response_size := by decide

theorem calls_correlated_substract :
    ∃ es s, run (step substractJsoncpp .littleEndian substractService)
      { client := { toBaseClient := (BaseClient.connect false {}).2 }
        server := Session.start false {}
        waiting := [firstCall, secondCall] } es = some s ∧
      s.client.invoked.Perm [("1", .ofInt 19), ("2", .ofInt 1)] := by
  obtain ⟨hsafe, -, es, s, hrun, hstuck⟩ :=
    calls_correlated substractJsoncpp .littleEndian substractService substract _
      (connected_fresh .littleEndian ∅ [] [firstCall, secondCall]) (by decide)
      (fun _ _ => AList.lookup_empty _) (by
        intro c hc
        rcases List.mem_pair.mp hc with rfl | rfl
        · exact conforms_firstCall
        · exact conforms_secondCall)
  obtain ⟨finished, hcorr, hall⟩ := hsafe es s hrun
  refine ⟨es, s, hrun, ?_⟩
  rw [hcorr.invoked]
  exact (hall hstuck).map fun c => (c.callback, c.result substract)

end System

end NBRaft.Rpc
