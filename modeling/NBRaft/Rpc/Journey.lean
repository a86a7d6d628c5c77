import NBRaft.Library.Bag
import NBRaft.Rpc.EndToEnd

/-!
# The journey of a call

Abstractly, each call goes through the same stages, at its own pace: `Journey` says which calls
are at which stage. `Matches` relates a journey to a state of the client and the server, and
every step of theirs moves at most one call to its next stage, or brings a frame closer to being
read (`step_simulates`).
-/

namespace NBRaft.Rpc

open Json JrpcProto Communication Transition

/-- The calls at each stage: not begun, recorded by the client, in flight to the server, a task
of the pool, with the procedure, in flight to the client, and answered. -/
structure Journey (κ : Type) where
  waiting : List (Call κ) := []
  entered : List (Call κ) := []
  up : List (Call κ) := []
  pool : List (Call κ) := []
  handling : List (Call κ) := []
  down : List (Call κ) := []
  finished : List (Call κ) := []

namespace Journey

variable {κ : Type}

/-- The calls that have a record without a response. -/
def inFlight (g : Journey κ) : List (Call κ) :=
  g.entered ++ (g.up ++ (g.pool ++ (g.handling ++ g.down)))

def all (g : Journey κ) : List (Call κ) := g.waiting ++ (g.inFlight ++ g.finished)

/-- Journeys with every call equally often among their stages are of the same calls. -/
theorem all_perm [DecidableEq (Call κ)] {g g' : Journey κ}
    (h : ∀ c, g'.waiting.count c + g'.entered.count c + g'.up.count c + g'.pool.count c +
        g'.handling.count c + g'.down.count c + g'.finished.count c =
      g.waiting.count c + g.entered.count c + g.up.count c + g.pool.count c +
        g.handling.count c + g.down.count c + g.finished.count c) :
    g'.all.Perm g.all := by
  refine List.perm_iff_count.mpr fun c => ?_
  have := h c
  simp only [all, inFlight, List.count_append]
  omega

end Journey

/-! ## Records -/

section Records

variable {κ : Type}

/-- The client's records, from those it had before the calls. -/
structure Records (f : String → Value → Value) (calls : List (Call κ))
    (before now : UnorderedMap (CallRecord × κ)) (waiting inFlight finished : List (Call κ)) :
    Prop where
  fresh : ∀ c ∈ waiting, now.lookup c.id = none
  recorded : ∀ c ∈ inFlight,
    now.lookup c.id = some ({ request := some c.request }, c.callback)
  answered : ∀ c ∈ finished, now.lookup c.id =
    some ({ request := some c.request, response := some (c.response f) }, c.callback)
  others : ∀ id, (∀ c ∈ calls, c.id ≠ id) → now.lookup id = before.lookup id

variable {f : String → Value → Value} {calls : List (Call κ)}
  {before now : UnorderedMap (CallRecord × κ)}
  {waiting inFlight finished waiting' inFlight' finished' : List (Call κ)} {c : Call κ}

/-- Moves between the stages in between do not touch the records. -/
theorem Records.mono (h : Records f calls before now waiting inFlight finished)
    (hi : ∀ d ∈ inFlight', d ∈ inFlight) : Records f calls before now waiting inFlight' finished :=
  ⟨h.fresh, fun d hd => h.recorded d (hi d hd), h.answered, h.others⟩

/-- The record of a call that is entered. -/
theorem Records.enter (h : Records f calls before now waiting inFlight finished)
    (hc : c ∈ calls) (hw : ∀ d ∈ waiting', d ∈ waiting ∧ d.id ≠ c.id)
    (hi : ∀ d ∈ inFlight', d = c ∨ d ∈ inFlight ∧ d.id ≠ c.id)
    (hf : ∀ d ∈ finished, d.id ≠ c.id) :
    Records f calls before (now.insert c.id ({ request := some c.request }, c.callback)) waiting'
      inFlight' finished := by
  refine ⟨fun d hd => ?_, fun d hd => ?_, fun d hd => ?_, fun id hid => ?_⟩
  · rw [AList.lookup_insert_ne (hw d hd).2]
    exact h.fresh d (hw d hd).1
  · rcases hi d hd with rfl | ⟨hd, hne⟩
    · exact AList.lookup_insert now
    · rw [AList.lookup_insert_ne hne]
      exact h.recorded d hd
  · rw [AList.lookup_insert_ne (hf d hd)]
    exact h.answered d hd
  · rw [AList.lookup_insert_ne (hid c hc).symm]
    exact h.others id hid

/-- The record of a call that is answered. -/
theorem Records.answer (h : Records f calls before now waiting inFlight finished)
    (hc : c ∈ calls) (hw : ∀ d ∈ waiting, d.id ≠ c.id)
    (hi : ∀ d ∈ inFlight', d ∈ inFlight ∧ d.id ≠ c.id)
    (hf : ∀ d ∈ finished', d = c ∨ d ∈ finished ∧ d.id ≠ c.id) :
    Records f calls before (now.insert c.id
      ({ request := some c.request, response := some (c.response f) }, c.callback)) waiting
      inFlight' finished' := by
  refine ⟨fun d hd => ?_, fun d hd => ?_, fun d hd => ?_, fun id hid => ?_⟩
  · rw [AList.lookup_insert_ne (hw d hd)]
    exact h.fresh d hd
  · rw [AList.lookup_insert_ne (hi d hd).2]
    exact h.recorded d (hi d hd).1
  · rcases hf d hd with rfl | ⟨hd, hne⟩
    · exact AList.lookup_insert now
    · rw [AList.lookup_insert_ne hne]
      exact h.answered d hd
  · rw [AList.lookup_insert_ne (hid c hc).symm]
    exact h.others id hid

/-- Calls with distinct ids: one of them, and the rest. -/
theorem id_ne_of_perm {rest : List (Call κ)} (hids : (calls.map Call.id).Nodup)
    (hp : (c :: rest).Perm calls) : ∀ d ∈ rest, d.id ≠ c.id := by
  have hnd : ((c :: rest).map Call.id).Nodup := (hp.map Call.id).nodup_iff.mpr hids
  intro d hd heq
  exact (List.nodup_cons.mp hnd).1 (List.mem_map.mpr ⟨d, hd, heq⟩)

end Records

namespace System

variable {κ : Type}

/-- The call whose thread has recorded it and not sent it. -/
def enteredCalls (s : System κ) : List (Call κ) :=
  match s.calling with
  | some (call, false) => [call]
  | _ => []

/-- 1 while the mutex is held by a call that only has to return. -/
def returning (s : System κ) : Nat :=
  match s.calling with
  | some (_, true) => 1
  | _ => 0

/-- The journey is what the state amounts to, since a client `before` the calls. -/
structure Matches (J : Jsoncpp) (order : ByteOrder) (f : String → Value → Value)
    (calls : List (Call κ)) (before : RpcClient κ) (g : Journey κ) (s : System κ) : Prop where
  perm : g.all.Perm calls
  waiting : s.waiting = g.waiting
  entered : s.enteredCalls = g.entered
  requests : Link order s.client.m_session.sendSide s.server.readSide s.serverRead
    (g.up.map fun c => c.request.toJsonStr J)
  responses : Link order s.server.sendSide s.client.m_session.readSide s.clientRead
    (g.down.map fun c => J.toStyledString (c.response f).toJson)
  tasks : s.tasks = g.pool.map fun c => .callReturn () c.request
  handling : s.handling = g.handling.map fun c => ((), (c.response f).toJson)
  running : s.client.m_running = true
  invoked : s.client.invoked = before.invoked ++ g.finished.map fun c => (c.callback, c.result f)
  records : Records f calls before.m_callRecords s.client.m_callRecords g.waiting g.inFlight
    g.finished

/-- The steps still ahead, at most. -/
def rank (p : Journey κ × System κ) : Nat :=
  11 * p.1.waiting.length + 10 * p.1.entered.length + 7 * p.1.up.length +
    5 * p.1.pool.length + 4 * p.1.handling.length + 2 * p.1.down.length + p.2.returning +
    p.2.client.m_session.m_sendQueue.length + p.2.server.m_sendQueue.length +
    p.2.client.m_session.readSide.headAhead + p.2.server.readSide.headAhead

section Steps

variable {J : Jsoncpp} {order : ByteOrder} {service : RpcService}
  {f : String → Value → Value} {calls : List (Call κ)} {before : RpcClient κ} {g : Journey κ}
  {s t : System κ}

theorem mem_calls (hm : Matches J order f calls before g s) {c : Call κ} (hc : c ∈ g.all) :
    c ∈ calls := hm.perm.mem_iff.mp hc

theorem enter_simulates {i : Nat} (hids : (calls.map Call.id).Nodup)
    (hm : Matches J order f calls before g s) (h : s.step J order service (.enter i) = some t) :
    ∃ g', Matches J order f calls before g' t ∧ rank (g', t) < rank (g, s) := by
  classical
  simp only [step] at h
  split at h
  rotate_left
  · cases h
  rename_i c hcalling hc
  have hget : g.waiting[i]? = some c := hm.waiting ▸ hc
  have hentered : g.entered = [] := by simpa [enteredCalls, hcalling] using hm.entered.symm
  have hfresh := hm.records.fresh c (List.mem_of_getElem? hget)
  rw [RpcClient.record_eq c.callback (Call.getId_request J c) hfresh] at h
  obtain rfl := Option.some.inj h
  let g' : Journey κ := { g with waiting := g.waiting.eraseIdx i, entered := [c] }
  have hperm : g'.all.Perm g.all := by
    refine Journey.all_perm fun d => ?_
    have hcount := (Bag.perm_eraseIdx hget).count_eq d
    simp only [g', hentered, List.count_cons, List.count_nil] at hcount ⊢
    omega
  have hrest : (c :: (g.waiting.eraseIdx i ++ (g.inFlight ++ g.finished))).Perm calls :=
    ((Bag.perm_eraseIdx hget).symm.append_right (g.inFlight ++ g.finished)).trans hm.perm
  have hne := id_ne_of_perm hids hrest
  refine ⟨g', ⟨hperm.trans hm.perm, by simp [g', hm.waiting], rfl, hm.requests, hm.responses,
    hm.tasks, hm.handling, hm.running, hm.invoked, ?_⟩, ?_⟩
  · refine hm.records.enter (hrest.mem_iff.mp (by simp)) (fun d hd => ?_) (fun d hd => ?_)
      (fun d hd => hne d (by simp [hd]))
    · exact ⟨List.mem_of_mem_eraseIdx hd, hne d (by simp [g'] at hd; simp [hd])⟩
    · have hd' : d = c ∨ d ∈ g.inFlight := by
        simpa [g', Journey.inFlight, hentered] using hd
      exact hd'.imp_right fun hd => ⟨hd, hne d (by simp [hd])⟩
  · have hlen := Bag.length_eraseIdx hget
    simp only [rank, g', hentered, returning, hcalling, List.length_cons, List.length_nil]
    omega

theorem send_simulates {slack : Slack} (hconf : ∀ c ∈ calls, Conforms J service f c)
    (hm : Matches J order f calls before g s) (h : s.step J order service (.send slack) = some t) :
    ∃ g', Matches J order f calls before g' t ∧ rank (g', t) < rank (g, s) := by
  classical
  simp only [step] at h
  split at h
  rotate_left
  · cases h
  rename_i c hcalling
  split at h
  rotate_left
  · cases h
  rename_i hroom
  obtain rfl := Option.some.inj h
  have hentered : g.entered = [c] := by simpa [enteredCalls, hcalling] using hm.entered.symm
  have hc := hconf c (mem_calls hm (by simp [Journey.all, Journey.inFlight, hentered]))
  have hsize := hc.request_size
  have hclient : (s.client.encodeAndSend J order slack c.request).2 = { s.client with
      m_session := s.client.m_session.send order slack (c.request.toJsonStr J) } := by
    have hencodes : (c.request.toJsonStr J).length ≤ INT32_MAX := by
      simp only [PACKET_MAX_SIZE, INT32_MAX] at hsize ⊢
      omega
    simp [RpcClient.encodeAndSend_of_encodes hencodes, BaseClient.send, hm.running]
  rw [hclient]
  let g' : Journey κ := { g with entered := [], up := g.up ++ [c] }
  have hperm : g'.all.Perm g.all := by
    refine Journey.all_perm fun d => ?_
    simp only [g', hentered, List.count_append, List.count_nil]
    omega
  refine ⟨g', ⟨hperm.trans hm.perm, hm.waiting, rfl, ?_, ?_, hm.tasks, hm.handling, hm.running,
    hm.invoked, hm.records.mono fun d hd => ?_⟩, ?_⟩
  · simpa [g'] using hm.requests.send slack hroom hsize
  · simpa using hm.responses
  · simp only [g', Journey.inFlight, hentered, List.mem_append, List.mem_singleton,
      List.not_mem_nil, false_or] at hd ⊢
    tauto
  · have hqueue := Session.m_sendQueue_send_of_room order slack (c.request.toJsonStr J) hroom
    simp only [rank, g', hentered, returning, hcalling, hqueue, List.length_append,
      List.length_cons, List.length_nil, Session.readSide_send]
    omega

theorem leave_simulates (hm : Matches J order f calls before g s)
    (h : s.step J order service .leave = some t) :
    ∃ g', Matches J order f calls before g' t ∧ rank (g', t) < rank (g, s) := by
  simp only [step] at h
  split at h
  rotate_left
  · cases h
  rename_i c hcalling
  obtain rfl := Option.some.inj h
  have hentered : g.entered = [] := by simpa [enteredCalls, hcalling] using hm.entered.symm
  refine ⟨g, ⟨hm.perm, hm.waiting, hentered.symm, hm.requests, hm.responses, hm.tasks,
    hm.handling, hm.running, hm.invoked, hm.records⟩, ?_⟩
  simp only [rank, returning, hcalling]
  omega

theorem clientWrite_simulates (hm : Matches J order f calls before g s)
    (h : s.step J order service .clientWrite = some t) :
    ∃ g', Matches J order f calls before g' t ∧ rank (g', t) < rank (g, s) := by
  simp only [step] at h
  obtain ⟨session, hstep, rfl⟩ := Option.map_eq_some_iff.mp h
  obtain ⟨hlink, hread, hqueue⟩ := hm.requests.write hstep
  refine ⟨g, ⟨hm.perm, hm.waiting, hm.entered, hlink, hread ▸ hm.responses, hm.tasks,
    hm.handling, hm.running, hm.invoked, hm.records⟩, ?_⟩
  simp only [rank, returning, hread]
  omega

theorem serverWrite_simulates (hm : Matches J order f calls before g s)
    (h : s.step J order service .serverWrite = some t) :
    ∃ g', Matches J order f calls before g' t ∧ rank (g', t) < rank (g, s) := by
  simp only [step] at h
  obtain ⟨session, hstep, rfl⟩ := Option.map_eq_some_iff.mp h
  obtain ⟨hlink, hread, hqueue⟩ := hm.responses.write hstep
  refine ⟨g, ⟨hm.perm, hm.waiting, hm.entered, hread ▸ hm.requests, hlink, hm.tasks,
    hm.handling, hm.running, hm.invoked, hm.records⟩, ?_⟩
  simp only [rank, returning, hread]
  omega

/-- The packet that a body read leaves behind. -/
theorem decode_completeRead {session : Session} {bytes : Bytes} (i : Nat)
    (hlen : bytes.length = session.requested .body) :
    decode (session.completeRead i .body bytes).m_recvPacket = bytes := by
  rw [decode_eq]
  exact RecvPacket.fill_data hlen

theorem serverRead_simulates {slack : Slack} (hconf : ∀ c ∈ calls, Conforms J service f c)
    (hm : Matches J order f calls before g s)
    (h : s.step J order service (.serverRead slack) = some t) :
    ∃ g', Matches J order f calls before g' t ∧ rank (g', t) < rank (g, s) := by
  classical
  simp only [step] at h
  split at h
  · cases h
  · -- a header: no call moves
    rename_i bytes hnext
    obtain ⟨session, hstep, rfl⟩ := Option.map_eq_some_iff.mp h
    obtain ⟨_, hstep', hlink, hsend, hahead⟩ :=
      Link.read_head ⟨order, fun _ _ => false⟩ hm.requests hnext
    obtain rfl := Option.some.inj (hstep.symm.trans hstep')
    refine ⟨g, ⟨hm.perm, hm.waiting, hm.entered, hlink, hsend ▸ hm.responses, hm.tasks,
      hm.handling, hm.running, hm.invoked, hm.records⟩, ?_⟩
    have hqueue : session.m_sendQueue = s.server.m_sendQueue :=
      congrArg Session.SendSide.m_sendQueue hsend
    simp only [rank, returning, hqueue]
    omega
  · -- a body: the first request in flight becomes a task
    rename_i bytes hnext
    obtain ⟨session, hstep, rfl⟩ := Option.map_eq_some_iff.mp h
    have hlen := (hm.requests.nextRead_eq hnext).2.1
    obtain ⟨texts, htexts⟩ := hm.requests.nextRead_body hnext
    obtain ⟨c, up, hup, hc, -⟩ := List.map_eq_cons_iff.mp htexts
    have hconf' := hconf c (mem_calls hm (by simp [Journey.all, Journey.inFlight, hup]))
    rw [Call.onDataReady_request hconf' ((decode_completeRead 0 hlen).trans hc.symm)] at hstep ⊢
    obtain ⟨_, texts', htexts', hstep', hlink, hsend, hahead⟩ :=
      Link.read_body ⟨order, fun _ _ => false⟩ hm.requests hnext rfl
    obtain rfl := Option.some.inj (hstep.symm.trans hstep')
    obtain rfl : up.map (fun c => c.request.toJsonStr J) = texts' := by
      rw [hup] at htexts'
      exact (List.cons.inj htexts').2
    let g' : Journey κ := { g with up, pool := g.pool ++ [c] }
    have hperm : g'.all.Perm g.all := by
      refine Journey.all_perm fun d => ?_
      simp only [g', hup, List.count_append, List.count_cons, List.count_nil]
      omega
    refine ⟨g', ⟨hperm.trans hm.perm, hm.waiting, hm.entered, hlink, hsend ▸ hm.responses, ?_,
      hm.handling, hm.running, hm.invoked, hm.records.mono fun d hd => ?_⟩, ?_⟩
    · simp [absorb, g', hm.tasks]
    · simp only [g', Journey.inFlight, hup, List.mem_append, List.mem_cons, List.not_mem_nil,
        or_false] at hd ⊢
      tauto
    · have hqueue : session.m_sendQueue = s.server.m_sendQueue :=
        congrArg Session.SendSide.m_sendQueue hsend
      simp only [rank, g', hup, returning, absorb, sendAll, List.foldl_nil, hqueue,
        List.length_append, List.length_cons, List.length_nil]
      omega

theorem runTask_simulates {i : Nat} (hconf : ∀ c ∈ calls, Conforms J service f c)
    (hm : Matches J order f calls before g s)
    (h : s.step J order service (.runTask i) = some t) :
    ∃ g', Matches J order f calls before g' t ∧ rank (g', t) < rank (g, s) := by
  classical
  simp only [step] at h
  split at h
  · cases h
  rename_i task htask
  rw [hm.tasks, List.getElem?_map] at htask
  obtain ⟨c, hget, rfl⟩ := Option.map_eq_some_iff.mp htask
  have hmem := List.mem_of_getElem? hget
  have hconf' := hconf c (mem_calls hm (by simp [Journey.all, Journey.inFlight, hmem]))
  rw [Call.runTask_request hconf'] at h
  obtain rfl := Option.some.inj h
  let g' : Journey κ := { g with pool := g.pool.eraseIdx i, handling := g.handling ++ [c] }
  have hperm : g'.all.Perm g.all := by
    refine Journey.all_perm fun d => ?_
    have hcount := (Bag.perm_eraseIdx hget).count_eq d
    simp only [g', List.count_append, List.count_cons, List.count_nil] at hcount ⊢
    omega
  refine ⟨g', ⟨hperm.trans hm.perm, hm.waiting, hm.entered, hm.requests, hm.responses, ?_, ?_,
    hm.running, hm.invoked, hm.records.mono fun d hd => ?_⟩, ?_⟩
  · simp [g', hm.tasks, List.eraseIdx_map]
  · simp [g', hm.handling]
  · have hsub : d ∈ g.pool.eraseIdx i → d ∈ g.pool := List.mem_of_mem_eraseIdx
    simp only [g', Journey.inFlight, List.mem_append, List.mem_singleton] at hd ⊢
    rcases hd with hd | hd | hd | (hd | rfl) | hd <;> tauto
  · have hlen := Bag.length_eraseIdx hget
    simp only [rank, g', returning, List.length_append, List.length_cons, List.length_nil]
    omega

theorem done_simulates {i : Nat} {slack : Slack} (hconf : ∀ c ∈ calls, Conforms J service f c)
    (hm : Matches J order f calls before g s)
    (h : s.step J order service (.done i slack) = some t) :
    ∃ g', Matches J order f calls before g' t ∧ rank (g', t) < rank (g, s) := by
  classical
  simp only [step] at h
  split at h
  · cases h
  rename_i sender response hcall
  split at h
  rotate_left
  · cases h
  rename_i hroom
  rw [hm.handling, List.getElem?_map] at hcall
  obtain ⟨c, hget, hpair⟩ := Option.map_eq_some_iff.mp hcall
  obtain rfl : (c.response f).toJson = response := congrArg Prod.snd hpair
  have hmem := List.mem_of_getElem? hget
  have hconf' := hconf c (mem_calls hm (by simp [Journey.all, Journey.inFlight, hmem]))
  rw [Call.done_response hconf'] at h
  obtain rfl := Option.some.inj h
  let g' : Journey κ := { g with handling := g.handling.eraseIdx i, down := g.down ++ [c] }
  have hperm : g'.all.Perm g.all := by
    refine Journey.all_perm fun d => ?_
    have hcount := (Bag.perm_eraseIdx hget).count_eq d
    simp only [g', List.count_append, List.count_cons, List.count_nil] at hcount ⊢
    omega
  refine ⟨g', ⟨hperm.trans hm.perm, hm.waiting, hm.entered, ?_, ?_, ?_, ?_, hm.running,
    hm.invoked, hm.records.mono fun d hd => ?_⟩, ?_⟩
  · simpa [absorb, sendAll] using hm.requests
  · simpa [g', absorb, sendAll] using hm.responses.send slack hroom hconf'.response_size
  · simp [g', absorb, hm.tasks]
  · simp [g', absorb, hm.handling, List.eraseIdx_map]
  · have hsub : d ∈ g.handling.eraseIdx i → d ∈ g.handling := List.mem_of_mem_eraseIdx
    simp only [g', Journey.inFlight, List.mem_append, List.mem_singleton] at hd ⊢
    rcases hd with hd | hd | hd | hd | hd | rfl <;> tauto
  · have hlen := Bag.length_eraseIdx hget
    have hqueue := Session.m_sendQueue_send_of_room order slack
      (J.toStyledString (c.response f).toJson) hroom
    simp only [rank, g', returning, absorb, sendAll, List.foldl_cons, List.foldl_nil, hqueue,
      List.length_append, List.length_cons, List.length_nil, Session.readSide_send]
    omega

theorem clientRead_simulates (hids : (calls.map Call.id).Nodup)
    (hconf : ∀ c ∈ calls, Conforms J service f c) (hm : Matches J order f calls before g s)
    (h : s.step J order service .clientRead = some t) :
    ∃ g', Matches J order f calls before g' t ∧ rank (g', t) < rank (g, s) := by
  classical
  simp only [step] at h
  split at h
  · cases h
  · -- a header: no call moves
    rename_i bytes hnext
    obtain ⟨session, hstep, rfl⟩ := Option.map_eq_some_iff.mp h
    obtain ⟨_, hstep', hlink, hsend, hahead⟩ :=
      Link.read_head ⟨order, fun _ _ => false⟩ hm.responses hnext
    obtain rfl := Option.some.inj (hstep.symm.trans hstep')
    refine ⟨g, ⟨hm.perm, hm.waiting, hm.entered, hsend ▸ hm.requests, hlink, hm.tasks,
      hm.handling, hm.running, hm.invoked, hm.records⟩, ?_⟩
    have hqueue : session.m_sendQueue = s.client.m_session.m_sendQueue :=
      congrArg Session.SendSide.m_sendQueue hsend
    simp only [rank, returning, hqueue]
    omega
  · -- a body: the first response in flight answers its call
    rename_i bytes hnext
    split at h
    · cases h
    rename_i hcalling
    have hlen := (hm.responses.nextRead_eq hnext).2.1
    obtain ⟨texts, htexts⟩ := hm.responses.nextRead_body hnext
    obtain ⟨c, down, hdown, hc, -⟩ := List.map_eq_cons_iff.mp htexts
    have hflight : c ∈ g.inFlight := by simp [Journey.inFlight, hdown]
    have hmem := mem_calls hm (c := c) (by simp [Journey.all, hflight])
    rw [Call.onDataReady_response (hconf c hmem) ((decode_completeRead 0 hlen).trans hc.symm)
      (hm.records.recorded c hflight)] at h
    obtain ⟨session, hstep, rfl⟩ := Option.map_eq_some_iff.mp h
    obtain ⟨_, texts', htexts', hstep', hlink, hsend, hahead⟩ :=
      Link.read_body ⟨order, fun _ _ => false⟩ hm.responses hnext rfl
    obtain rfl := Option.some.inj (hstep.symm.trans hstep')
    obtain rfl : down.map (fun c => J.toStyledString (c.response f).toJson) = texts' := by
      rw [hdown] at htexts'
      exact (List.cons.inj htexts').2
    let g' : Journey κ := { g with down, finished := g.finished ++ [c] }
    have hperm : g'.all.Perm g.all := by
      refine Journey.all_perm fun d => ?_
      simp only [g', hdown, List.count_append, List.count_cons, List.count_nil]
      omega
    have hrest : (c :: (g.waiting ++ (g'.inFlight ++ g.finished))).Perm calls := by
      refine (List.perm_iff_count.mpr fun d => ?_).trans hm.perm
      simp only [g', Journey.all, Journey.inFlight, hdown, List.count_append, List.count_cons]
      omega
    have hne := id_ne_of_perm hids hrest
    refine ⟨g', ⟨hperm.trans hm.perm, hm.waiting, hm.entered, hsend ▸ hm.requests, hlink,
      hm.tasks, hm.handling, hm.running, ?_, ?_⟩, ?_⟩
    · simp [g', hm.invoked]
    · refine hm.records.answer hmem (fun d hd => hne d (by simp [hd])) (fun d hd => ?_)
        (fun d hd => ?_)
      · refine ⟨?_, hne d (by simp [hd])⟩
        simp only [g', Journey.inFlight, hdown, List.mem_append, List.mem_cons] at hd ⊢
        tauto
      · have hd' : d ∈ g.finished ∨ d = c := by simpa [g'] using hd
        exact hd'.symm.imp_right fun hd => ⟨hd, hne d (by simp [hd])⟩
    · have hqueue : session.m_sendQueue = s.client.m_session.m_sendQueue :=
        congrArg Session.SendSide.m_sendQueue hsend
      simp only [rank, g', hdown, returning, hqueue, List.length_cons]
      omega

/-- Every step keeps the journey in touch with the state, and brings its end closer. -/
theorem step_simulates {e : Event} (hids : (calls.map Call.id).Nodup)
    (hconf : ∀ c ∈ calls, Conforms J service f c) (hm : Matches J order f calls before g s)
    (h : s.step J order service e = some t) :
    ∃ g', Matches J order f calls before g' t ∧ rank (g', t) < rank (g, s) := by
  cases e with
  | enter i => exact enter_simulates hids hm h
  | send slack => exact send_simulates hconf hm h
  | leave => exact leave_simulates hm h
  | clientWrite => exact clientWrite_simulates hm h
  | clientRead => exact clientRead_simulates hids hconf hm h
  | serverWrite => exact serverWrite_simulates hm h
  | serverRead slack => exact serverRead_simulates hconf hm h
  | runTask i => exact runTask_simulates hconf hm h
  | done i slack => exact done_simulates hconf hm h

end Steps

end System

end NBRaft.Rpc
