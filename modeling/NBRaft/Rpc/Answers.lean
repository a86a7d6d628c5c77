import NBRaft.Library.Bag
import NBRaft.Library.Transition
import NBRaft.Rpc.Server

/-!
# What becomes of the requests

A server at work: packets arrive, the threads of the pool take the submitted tasks in any order,
and handlers call `done` when they like. The accounting of `accounted_run` gives every frame
that leaves the server to one packet, so that in an idle server the answers to a packet do not
depend on the order of things: they are `packetFrames`.
-/

namespace NBRaft.Rpc

open Json JrpcProto Communication Transition

/-- `S` is the type of the sessions. The sender of a task is the session together with the
number of the packet it came in, which only tells the answers to different packets apart. -/
structure Serving (S : Type) where
  /-- The queues of the pool, of which idle threads steal from one another. -/
  tasks : List (Task (Nat × S)) := []
  /-- The calls of `done` still to come. -/
  handling : List ((Nat × S) × Value) := []
  /-- The frames passed to `sender->send`. -/
  sent : List ((Nat × S) × Bytes) := []
  arrived : List (S × RecvPacket) := []

namespace Serving

inductive Event (S : Type) where
  | arrive (session : S) (packet : RecvPacket)
  | runTask (i : Nat)
  | done (i : Nat)

variable {S : Type}

/-- The effect of a reaction; one that ended in an exception has none. -/
def absorb (s : Serving S) : Except Exception (Reaction (Nat × S)) → Serving S
  | .error _ => s
  | .ok reaction => { s with
      tasks := s.tasks ++ reaction.submitted
      sent := s.sent ++ reaction.sent }

def step (J : Jsoncpp) (service : RpcService) (s : Serving S) : Event S → Option (Serving S)
  | .arrive session packet =>
    some (absorb { s with arrived := s.arrived ++ [(session, packet)] }
      (RpcServer.onDataReady J (s.arrived.length, session) packet))
  | .runTask i =>
    match s.tasks[i]? with
    | none => none
    | some task =>
      let s := { s with tasks := s.tasks.eraseIdx i }
      match RpcServer.runTask J service task with
      | .error _ => some s
      | .ok calls => some { s with handling := s.handling ++ calls }
  | .done i =>
    match s.handling[i]? with
    | none => none
    | some (sender, response) =>
      some (absorb { s with handling := s.handling.eraseIdx i }
        (RpcServer.done J sender response))

def Idle (s : Serving S) : Prop := s.tasks = [] ∧ s.handling = []

/-- The frames sent in answer to the `k`-th packet. -/
def answersTo (s : Serving S) (k : Nat) : List Bytes :=
  (s.sent.filter fun frame => frame.1.1 == k).map Prod.snd

/-! ## The frames things amount to -/

section

variable (J : Jsoncpp) (service : RpcService)

def callFrames (call : (Nat × S) × Value) : List ((Nat × S) × Bytes) :=
  match RpcServer.done J call.1 call.2 with
  | .error _ => []
  | .ok reaction => reaction.sent

def taskFrames (task : Task (Nat × S)) : List ((Nat × S) × Bytes) :=
  match RpcServer.runTask J service task with
  | .error _ => []
  | .ok calls => calls.flatMap (callFrames J)

def packetFrames (sender : Nat × S) (packet : RecvPacket) : List ((Nat × S) × Bytes) :=
  match RpcServer.onDataReady J sender packet with
  | .error _ => []
  | .ok reaction => reaction.sent ++ reaction.submitted.flatMap (taskFrames J service)

def arrivedFrames (arrived : List (S × RecvPacket)) : List ((Nat × S) × Bytes) :=
  arrived.zipIdx.flatMap fun p => packetFrames J service (p.2, p.1.1) p.1.2

/-- The frames sent, and those that the pending work amounts to. -/
def frames (s : Serving S) : List ((Nat × S) × Bytes) :=
  s.sent ++ (s.handling.flatMap (callFrames J) ++ s.tasks.flatMap (taskFrames J service))

end

variable {J : Jsoncpp} {service : RpcService} {s t : Serving S} {e : Event S}
  {es : List (Event S)}

theorem frames_absorb_ok (reaction : Reaction (Nat × S)) :
    (frames J service (s.absorb (.ok reaction))).Perm
      (reaction.sent ++ reaction.submitted.flatMap (taskFrames J service) ++
        frames J service s) := by
  classical
  simp only [frames, absorb, List.flatMap_append]
  refine List.perm_iff_count.mpr fun frame => ?_
  simp only [List.count_append]
  omega

/-- The work of a packet is added to what is pending; any other step only moves it on. -/
theorem accounted_step (h : s.step J service e = some t)
    (hs : (frames J service s).Perm (arrivedFrames J service s.arrived)) :
    (frames J service t).Perm (arrivedFrames J service t.arrived) := by
  classical
  cases e with
  | arrive session packet =>
    obtain rfl := Option.some.inj h
    have harr : arrivedFrames J service (s.arrived ++ [(session, packet)]) =
        arrivedFrames J service s.arrived ++
          packetFrames J service (s.arrived.length, session) packet := by
      simp [arrivedFrames, List.zipIdx_append]
    cases hr : RpcServer.onDataReady J (s.arrived.length, session) packet with
    | error x =>
      have hnone : packetFrames J service (s.arrived.length, session) packet = [] := by
        simp [packetFrames, hr]
      change (frames J service s).Perm
        (arrivedFrames J service (s.arrived ++ [(session, packet)]))
      rw [harr, hnone, List.append_nil]
      exact hs
    | ok reaction =>
      have hpacket : packetFrames J service (s.arrived.length, session) packet =
          reaction.sent ++ reaction.submitted.flatMap (taskFrames J service) := by
        simp [packetFrames, hr]
      refine (frames_absorb_ok reaction).trans ?_
      change (_ ++ frames J service s).Perm
        (arrivedFrames J service (s.arrived ++ [(session, packet)]))
      rw [harr, ← hpacket]
      exact List.perm_append_comm.trans (hs.append_right _)
  | runTask i =>
    simp only [step] at h
    split at h
    · cases h
    rename_i task htask
    have hmoved : (frames J service s).Perm
        (taskFrames J service task ++
          frames J service { s with tasks := s.tasks.eraseIdx i }) := by
      refine List.perm_iff_count.mpr fun frame => ?_
      have hcount := (Bag.flatMap_eraseIdx (taskFrames J service) htask).count_eq frame
      simp only [frames, List.count_append] at hcount ⊢
      omega
    split at h <;> obtain rfl := Option.some.inj h
    · rename_i x hx
      rw [show taskFrames J service task = [] by simp [taskFrames, hx], List.nil_append] at hmoved
      exact hmoved.symm.trans hs
    · rename_i calls hcalls
      rw [show taskFrames J service task = calls.flatMap (callFrames J) by
        simp [taskFrames, hcalls]] at hmoved
      refine List.Perm.trans (List.Perm.trans ?_ hmoved.symm) hs
      refine List.perm_iff_count.mpr fun frame => ?_
      simp only [frames, List.flatMap_append, List.count_append]
      omega
  | done i =>
    simp only [step] at h
    split at h
    · cases h
    rename_i sender response hcall
    obtain rfl := Option.some.inj h
    have hmoved : (frames J service s).Perm (callFrames J (sender, response) ++
        frames J service { s with handling := s.handling.eraseIdx i }) := by
      refine List.perm_iff_count.mpr fun frame => ?_
      have hcount := (Bag.flatMap_eraseIdx (callFrames J) hcall).count_eq frame
      simp only [frames, List.count_append] at hcount ⊢
      omega
    simp only [callFrames, RpcServer.done_eq] at hmoved
    simp only [RpcServer.done_eq]
    split_ifs at hmoved ⊢
    · exact hmoved.symm.trans hs
    · refine (frames_absorb_ok _).trans ?_
      simp only [List.flatMap_nil, List.append_nil]
      exact hmoved.symm.trans hs

theorem accounted_run (h : run (step J service) {} es = some s) :
    (frames J service s).Perm (arrivedFrames J service s.arrived) :=
  run_preserves (I := fun x : Serving S =>
    (frames J service x).Perm (arrivedFrames J service x.arrived))
    (fun _ _ _ hst hs => accounted_step hst hs) h (List.Perm.refl [])

/-- A server can always finish its pending work. -/
theorem exists_run_idle (J : Jsoncpp) (service : RpcService) (s : Serving S) :
    ∃ es t, run (step J service) s es = some t ∧ t.Idle := by
  -- first the tasks, one by one, then the calls of `done` they have led to
  generalize hn : s.tasks.length = n
  induction n generalizing s with
  | zero =>
    have htasks : s.tasks = [] := List.eq_nil_of_length_eq_zero hn
    generalize hm : s.handling.length = m
    induction m generalizing s with
    | zero => exact ⟨[], s, rfl, htasks, List.eq_nil_of_length_eq_zero hm⟩
    | succ m ih =>
      obtain ⟨⟨sender, response⟩, rest, hrest⟩ := List.exists_cons_of_length_eq_add_one hm
      obtain ⟨t, ht, htt, htm⟩ : ∃ t, step J service s (.done 0) = some t ∧ t.tasks = [] ∧
          t.handling.length = m := by
        simp only [step, hrest, List.getElem?_cons_zero, RpcServer.done_eq]
        refine ⟨_, rfl, ?_, ?_⟩ <;> split_ifs <;> simp_all [absorb]
      obtain ⟨es, u, hrun, hidle⟩ := ih t (by simp [htt]) htt htm
      exact ⟨.done 0 :: es, u, by rw [run_cons, ht, Option.bind_some, hrun], hidle⟩
  | succ n ih =>
    obtain ⟨task, rest, hrest⟩ := List.exists_cons_of_length_eq_add_one hn
    obtain ⟨t, ht, htn⟩ : ∃ t, step J service s (.runTask 0) = some t ∧ t.tasks.length = n := by
      simp only [step, hrest, List.getElem?_cons_zero]
      split <;> exact ⟨_, rfl, by simpa [hrest] using hn⟩
    obtain ⟨es, u, hrun, hidle⟩ := ih t htn
    exact ⟨.runTask 0 :: es, u, by rw [run_cons, ht, Option.bind_some, hrun], hidle⟩

/-! ## The answers to one packet -/

def senderOf : Task (Nat × S) → Nat × S
  | .callReturn sender _ => sender
  | .callNotify sender _ => sender

theorem sender_catchRpcException {sender : Nat × S} {e : Exception}
    {reaction : Reaction (Nat × S)}
    (h : RpcServer.catchRpcException J sender e = .ok reaction) :
    (∀ frame ∈ reaction.sent, frame.1 = sender) ∧ reaction.submitted = [] := by
  cases e with
  | rpcException err detail =>
    simp only [RpcServer.catchRpcException, RpcServer.handleJsonRpcErrorException, bind,
      Except.bind] at h
    split at h
    · cases h
    · split at h
      · cases h
      · split at h <;> obtain rfl := Except.ok.inj h <;> simp
  | _ => cases h

/-- A reaction to a packet is all about its sender. -/
theorem sender_onDataReady {sender : Nat × S} {packet : RecvPacket}
    {reaction : Reaction (Nat × S)}
    (h : RpcServer.onDataReady J sender packet = .ok reaction) :
    (∀ frame ∈ reaction.sent, frame.1 = sender) ∧
      ∀ task ∈ reaction.submitted, senderOf task = sender := by
  simp only [RpcServer.onDataReady] at h
  split at h
  · rename_i r hr
    obtain rfl := Except.ok.inj h
    simp only [RpcServer.dispatch, bind, Except.bind] at hr
    repeat' split at hr
    all_goals cases hr
    all_goals
      simp [RpcServer.handleProcedureReturn, RpcServer.handleProcedureNotify, senderOf]
  · obtain ⟨hsent, hsub⟩ := sender_catchRpcException h
    exact ⟨hsent, by simp [hsub]⟩

theorem sender_callFrames {call frame} (h : frame ∈ callFrames (S := S) J call) :
    frame.1 = call.1 := by
  simp only [callFrames, RpcServer.done_eq] at h
  split_ifs at h
  · simp at h
  · simp only [List.mem_singleton] at h
    rw [h]

theorem sender_taskFrames {task : Task (Nat × S)} {frame}
    (h : frame ∈ taskFrames J service task) : frame.1 = senderOf task := by
  simp only [taskFrames] at h
  split at h
  · simp at h
  · rename_i calls hcalls
    obtain ⟨call, hcall, hframe⟩ := List.mem_flatMap.mp h
    rw [sender_callFrames hframe]
    cases task with
    | callReturn sender request =>
      simp only [RpcServer.runTask, bind, Except.bind] at hcalls
      repeat' split at hcalls
      all_goals try cases hcalls
      obtain ⟨response, -, rfl⟩ := List.mem_map.mp hcall
      rfl
    | callNotify sender request =>
      simp only [RpcServer.runTask, bind, Except.bind] at hcalls
      repeat' split at hcalls
      all_goals try cases hcalls
      simp at hcall

theorem sender_packetFrames {sender : Nat × S} {packet : RecvPacket} {frame}
    (h : frame ∈ packetFrames J service sender packet) : frame.1 = sender := by
  simp only [packetFrames] at h
  split at h
  · simp at h
  · rename_i reaction hr
    obtain ⟨hsent, hsub⟩ := sender_onDataReady hr
    rcases List.mem_append.mp h with h | h
    · exact hsent frame h
    · obtain ⟨task, htask, hframe⟩ := List.mem_flatMap.mp h
      rw [sender_taskFrames hframe, hsub task htask]

/-- In an idle server, the answers to a packet are those the packet alone amounts to. -/
theorem answersTo_perm {k : Nat} {session : S} {packet : RecvPacket}
    (h : run (step J service) {} es = some s) (hidle : s.Idle)
    (hk : s.arrived[k]? = some (session, packet)) :
    (s.answersTo k).Perm ((packetFrames J service (k, session) packet).map Prod.snd) := by
  have hsent : s.sent.Perm (arrivedFrames J service s.arrived) := by
    simpa [frames, hidle.1, hidle.2] using accounted_run h
  have hfilter := Bag.filter_flatMap_zipIdx
    (fun p : (S × RecvPacket) × Nat => packetFrames J service (p.2, p.1.1) p.1.2)
    (fun frame => frame.1.1) (fun x n y hy => by rw [sender_packetFrames hy]) s.arrived 0 k
  rw [Nat.zero_add, hk] at hfilter
  exact ((hsent.filter _).trans (.of_eq hfilter)).map Prod.snd

/-- What calling the procedure of the request comes to. -/
def outcome (J : Jsoncpp) (service : RpcService) (request : JsonRpcRequest) :
    Except Exception ReturnFunc := do
  let method ← request.getMethod J
  service.callProcedureReturn method request.toJson

/-- Exactly one frame: the handler's response if the call goes through, and otherwise any. -/
def Answered (J : Jsoncpp) (service : RpcService) (request : JsonRpcRequest)
    (frames : List Bytes) : Prop :=
  frames.length = 1 ∧
    ∀ responses, outcome J service request = .ok responses →
      frames = responses.map J.toStyledString

/-- The method is registered as a return procedure that is not null, the parameters validate,
and the text of the response is one that encodes. -/
def Answerable (J : Jsoncpp) (service : RpcService) (request : JsonRpcRequest) : Prop :=
  ∃ name p, request.m_rpcRequest.find? "method" = some (.string name) ∧
    service.m_procedureReturn.lookup name = some (some p) ∧
    p.validateGeneric request.toJson = .ok true ∧
    ∀ response ∈ p.m_callback request.toJson, (J.toStyledString response).length ≤ INT32_MAX

section

variable {sender : Nat × S} {packet : RecvPacket} {request : JsonRpcRequest}

/-- The frames of a return call, from its outcome. -/
theorem packetFrames_returnCall
    (hp : JsonRpcRequestFactory.createFromJsonStr J (decode packet) = .ok (some request))
    (hid : (request.m_rpcRequest.find? "id").isSome = true) :
    packetFrames J service sender packet =
      match outcome J service request with
      | .error _ => []
      | .ok responses => responses.flatMap fun response => callFrames J (sender, response) := by
  have hreq := (JsonRpcRequestFactory.createFromJsonStr_eq_some.mp hp).2
  obtain ⟨name, -, hname⟩ := RpcServer.getMethod_of_isRequest (J := J) hreq
  simp only [packetFrames, RpcServer.onDataReady_request hp, hid, if_true,
    RpcServer.handleProcedureReturn, List.nil_append, List.flatMap_cons, List.flatMap_nil,
    List.append_nil, taskFrames, RpcServer.runTask, outcome, hname, bind, Except.bind]
  cases service.callProcedureReturn name request.toJson with
  | error e => rfl
  | ok responses => simp [pure, Except.pure, List.flatMap_map]

/-- A notification leads to no frame at all. -/
theorem packetFrames_notification
    (hp : JsonRpcRequestFactory.createFromJsonStr J (decode packet) = .ok (some request))
    (hid : request.m_rpcRequest.find? "id" = none) :
    packetFrames J service sender packet = [] := by
  have hreq := (JsonRpcRequestFactory.createFromJsonStr_eq_some.mp hp).2
  obtain ⟨name, -, hname⟩ := RpcServer.getMethod_of_isRequest (J := J) hreq
  simp only [packetFrames, RpcServer.onDataReady_request hp, hid, Option.isSome_none,
    Bool.false_eq_true, if_false, RpcServer.handleProcedureNotify, List.nil_append,
    List.flatMap_cons, List.flatMap_nil, List.append_nil, taskFrames, RpcServer.runTask, hname,
    bind, Except.bind]
  cases service.callProcedureNotify name request.toJson <;> rfl

theorem outcome_eq_ok {responses : ReturnFunc} (hreq : IsRequest request.m_rpcRequest) :
    outcome J service request = .ok responses ↔
      ∃ name p, request.m_rpcRequest.find? "method" = some (.string name) ∧
        service.m_procedureReturn.lookup name = some (some p) ∧
        p.validateGeneric request.toJson = .ok true ∧ responses = p.m_callback request.toJson := by
  obtain ⟨name, hfind, hname⟩ := RpcServer.getMethod_of_isRequest (J := J) hreq
  simp only [outcome, hname, bind, Except.bind, RpcService.callProcedureReturn,
    RpcService.callIn_eq_ok]
  constructor
  · rintro ⟨p, hrest⟩
    exact ⟨name, p, hfind, hrest⟩
  · rintro ⟨name', p, hfind', hrest⟩
    obtain rfl : name = name' := by simpa [hfind] using hfind'
    exact ⟨p, hrest⟩

end

/-- In every run that ends idle, with handlers that call `done` exactly once: a return call was
answered exactly once, and rightly, if and only if it is answerable; and a request without an id
was not answered. -/
theorem answered_iff {S : Type} (J : Jsoncpp) (service : RpcService)
    (hdone : ∀ name p, service.m_procedureReturn.lookup name = some (some p) →
      ∀ request, ∃ response, p.m_callback request = [response])
    (es : List (Event S)) (s : Serving S) (h : run (step J service) {} es = some s)
    (hidle : s.Idle) (k : Nat) (session : S) (packet : RecvPacket)
    (hk : s.arrived[k]? = some (session, packet)) (request : JsonRpcRequest)
    (hp : JsonRpcRequestFactory.createFromJsonStr J (decode packet) = .ok (some request)) :
    (∀ id, request.m_rpcRequest.find? "id" = some (.string id) →
      (Answered J service request (s.answersTo k) ↔ Answerable J service request)) ∧
    (request.m_rpcRequest.find? "id" = none → s.answersTo k = []) := by
  have hperm := answersTo_perm h hidle hk
  have hreq := (JsonRpcRequestFactory.createFromJsonStr_eq_some.mp hp).2
  refine ⟨fun id hid => ?_, fun hid => ?_⟩
  · rw [packetFrames_returnCall hp (by simp [hid])] at hperm
    cases hout : outcome J service request with
    | error e =>
      rw [hout] at hperm
      have hnone : s.answersTo k = [] := by simpa using hperm
      refine iff_of_false (fun ⟨hone, _⟩ => by simp [hnone] at hone) ?_
      rintro ⟨name, p, hfind, hlook, hvalid, -⟩
      have := (outcome_eq_ok (J := J) hreq).mpr ⟨name, p, hfind, hlook, hvalid, rfl⟩
      simp [hout] at this
    | ok responses =>
      obtain ⟨name, p, hfind, hlook, hvalid, rfl⟩ := (outcome_eq_ok hreq).mp hout
      obtain ⟨response, hresponse⟩ := hdone name p hlook request.toJson
      rw [hout, hresponse] at hperm
      simp only [List.flatMap_cons, List.flatMap_nil, List.append_nil, callFrames,
        RpcServer.done_eq] at hperm
      have hanswerable : Answerable J service request ↔
          (J.toStyledString response).length ≤ INT32_MAX := by
        constructor
        · rintro ⟨name', p', hfind', hlook', -, hsize⟩
          obtain rfl : name = name' := by simpa [hfind] using hfind'
          obtain rfl : p = p' := by simpa [hlook] using hlook'
          exact hsize response (by simp [hresponse])
        · intro hsize
          exact ⟨name, p, hfind, hlook, hvalid, by simpa [hresponse] using hsize⟩
      rw [hanswerable]
      by_cases hsize : (J.toStyledString response).length > INT32_MAX
      · simp only [hsize, if_true, List.map_nil] at hperm
        have hnone : s.answersTo k = [] := by simpa using hperm
        exact iff_of_false (fun ⟨hone, _⟩ => by simp [hnone] at hone) (by omega)
      · simp only [hsize, if_false, List.map_cons, List.map_nil] at hperm
        have hone : s.answersTo k = [J.toStyledString response] := List.perm_singleton.mp hperm
        refine iff_of_true ⟨by simp [hone], fun responses hres => ?_⟩ (by omega)
        obtain rfl : p.m_callback request.toJson = responses := by simpa [hout] using hres
        simp [hone, hresponse]
  · rw [packetFrames_notification hp hid] at hperm
    simpa using hperm

/-! ## One call -/

def pingCall : JsonRpcRequest := .methodCall "2.0" "ping" .emptyObject "1"

def pingText : Bytes :=
  utf8 "\x7b\"jsonrpc\":\"2.0\",\"method\":\"ping\",\"params\":\x7b\x7d,\"id\":\"1\"\x7d"

/-- jsoncpp on the texts of this call and its response. -/
def callJsoncpp : Jsoncpp where
  parseFromStream text := .ok (if text = pingText then some pingCall.m_rpcRequest else none)
  writeString _ := pingText
  toStyledString _ :=
    utf8 "\x7b\n\t\"id\" : \"1\",\n\t\"jsonrpc\" : \"2.0\",\n\t\"result\" : true\n\x7d\n"
  valueToString _ := ""

def pingPacket : RecvPacket := ⟨pingText, UInt16.ofNat pingText.length, by decide⟩

/-- A server on which `ping` answers `true`. -/
def pingService : RpcService where
  m_procedureReturn := AList.insert "ping" (some {
    m_callback _ := [(JsonRpcResponse.ofResult "2.0" "1" (.boolean true)).toJson]
    m_standardParams := ∅ }) ∅

theorem createFromJsonStr_pingPacket :
    JsonRpcRequestFactory.createFromJsonStr callJsoncpp (decode pingPacket) =
      .ok (some pingCall) :=
  JsonRpcRequestFactory.createFromJsonStr_eq_some.mpr
    ⟨by simp [callJsoncpp, pingPacket],
      JsonRpcRequest.isRequest_methodCall "2.0" "ping" .emptyObject "1" rfl⟩

/-- With `ping` registered, the run that takes its task and its `done` answers the call. -/
theorem answered_iff_ping :
    ∃ s, run (step callJsoncpp pingService) ({} : Serving Unit)
        [.arrive () pingPacket, .runTask 0, .done 0] = some s ∧ s.Idle ∧
      (Answered callJsoncpp pingService pingCall (s.answersTo 0) ↔
        Answerable callJsoncpp pingService pingCall) := by
  have h : run (step callJsoncpp pingService) ({} : Serving Unit)
      [.arrive () pingPacket, .runTask 0, .done 0] = some _ := rfl
  have hdone : ∀ name p, pingService.m_procedureReturn.lookup name = some (some p) →
      ∀ request, ∃ response, p.m_callback request = [response] := by
    intro name p hp request
    by_cases hname : name = "ping"
    · subst hname
      obtain rfl := Option.some.inj (Option.some.inj hp)
      exact ⟨_, rfl⟩
    · have hnone : pingService.m_procedureReturn.lookup name = none :=
        AList.lookup_insert_ne hname
      simp [hnone] at hp
  exact ⟨_, h, ⟨rfl, rfl⟩, (answered_iff callJsoncpp pingService hdone _ _ h ⟨rfl, rfl⟩ 0 ()
    pingPacket rfl pingCall createFromJsonStr_pingPacket).1 "1" (by simp [pingCall])⟩

/-- Without it, the call is never answered: the exception of the task is lost. -/
theorem unknown_method_unanswered :
    ∃ s, run (step callJsoncpp {}) ({} : Serving Unit) [.arrive () pingPacket, .runTask 0] =
        some s ∧ s.Idle ∧ s.arrived[0]? = some ((), pingPacket) ∧
      JsonRpcRequestFactory.createFromJsonStr callJsoncpp (decode pingPacket) =
        .ok (some pingCall) ∧
      pingCall.m_rpcRequest.find? "id" = some (.string "1") ∧
      ¬ Answered callJsoncpp {} pingCall (s.answersTo 0) := by
  have h : run (step callJsoncpp {}) ({} : Serving Unit) [.arrive () pingPacket, .runTask 0] =
      some _ := rfl
  refine ⟨_, h, ⟨rfl, rfl⟩, rfl, createFromJsonStr_pingPacket, by simp [pingCall], ?_⟩
  rintro ⟨hone, -⟩
  exact absurd (show ([] : List Bytes).length = 1 from hone) (by simp)

end Serving

end NBRaft.Rpc
