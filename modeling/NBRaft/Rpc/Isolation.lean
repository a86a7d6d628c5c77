import NBRaft.Rpc.Answers

/-!
# One session among others

What a server does for one session does not depend on the others: forget all packets, tasks and
frames but those of one session, and a run of the server is a run of a server to which nobody
else sends. The numbers of the packets, which only tell answers apart, are forgotten with them.
-/

namespace NBRaft.Rpc

open Json JrpcProto Communication Transition

/-- The same task for another sender. -/
def Task.map {σ τ : Type} (f : σ → τ) : Task σ → Task τ
  | .callReturn sender request => .callReturn (f sender) request
  | .callNotify sender request => .callNotify (f sender) request

def Reaction.map {σ τ : Type} (f : σ → τ) (r : Reaction σ) : Reaction τ where
  submitted := r.submitted.map (Task.map f)
  sent := r.sent.map (Prod.map f id)

namespace RpcServer

variable {σ τ : Type} {J : Jsoncpp} {service : RpcService} {f : σ → τ} {sender : σ}

/-! ## The sender is only passed on -/

theorem dispatch_map (packet : RecvPacket) :
    dispatch J (f sender) packet = (dispatch J sender packet).map (Reaction.map f) := by
  simp only [dispatch, bind, Except.bind]
  split
  · rfl
  · rename_i result _
    cases result with
    | none => rfl
    | some request =>
      dsimp only
      cases hcall : request.isReturnCall with
      | error e => rfl
      | ok isCall =>
        cases isCall with
        | true => rfl
        | false =>
          cases request.isNotification with
          | error e => rfl
          | ok isNotification => cases isNotification <;> rfl

theorem catchRpcException_map (e : Exception) :
    catchRpcException J (f sender) e = (catchRpcException J sender e).map (Reaction.map f) := by
  cases e with
  | rpcException err detail =>
    simp only [catchRpcException, handleJsonRpcErrorException, bind, Except.bind]
    cases (JsonRpcErrorFactory.createFromInt err).getErrorMessage J with
    | error e => rfl
    | ok text =>
      dsimp only
      cases encode (utf8 text) with
      | error e => rfl
      | ok buffer => cases buffer <;> rfl
  | _ => rfl

theorem onDataReady_map (packet : RecvPacket) :
    onDataReady J (f sender) packet = (onDataReady J sender packet).map (Reaction.map f) := by
  unfold onDataReady
  rw [dispatch_map]
  cases dispatch J sender packet with
  | ok reaction => rfl
  | error e => exact catchRpcException_map e

theorem done_map (response : Value) :
    done J (f sender) response = (done J sender response).map (Reaction.map f) := by
  rw [done_eq, done_eq]
  split <;> rfl

theorem runTask_map (task : Task σ) : runTask J service (task.map f) =
    (runTask J service task).map (List.map (Prod.map f id)) := by
  cases task with
  | callReturn sender request =>
    simp only [Task.map, runTask, bind, Except.bind]
    cases request.getMethod J with
    | error e => rfl
    | ok name =>
      dsimp only
      cases service.callProcedureReturn name request.toJson with
      | error e => rfl
      | ok responses => simp [Except.map, pure, Except.pure]
  | callNotify sender request =>
    simp only [Task.map, runTask, bind, Except.bind]
    cases request.getMethod J with
    | error e => rfl
    | ok name =>
      dsimp only
      cases service.callProcedureNotify name request.toJson <;> rfl

end RpcServer

namespace Serving

variable {S : Type} {J : Jsoncpp} {service : RpcService} {x : S}
  {s s' t t' : Serving S} {es : List (Event S)} {e : Event S}

/-- A reaction to something that one session has sent. -/
def About (x : S) (reaction : Reaction (Nat × S)) : Prop :=
  (∀ frame ∈ reaction.sent, frame.1.2 = x) ∧ ∀ task ∈ reaction.submitted, (senderOf task).2 = x

theorem about_onDataReady {k : Nat} {packet : RecvPacket} {reaction : Reaction (Nat × S)}
    (h : RpcServer.onDataReady J (k, x) packet = .ok reaction) : About x reaction := by
  obtain ⟨hsent, hsubmitted⟩ := sender_onDataReady h
  exact ⟨fun frame hf => by rw [hsent frame hf], fun task ht => by rw [hsubmitted task ht]⟩

theorem about_done {call : (Nat × S) × Value} {reaction : Reaction (Nat × S)}
    (h : RpcServer.done J call.1 call.2 = .ok reaction) : About call.1.2 reaction := by
  rw [RpcServer.done_eq] at h
  split_ifs at h
  obtain rfl := Except.ok.inj h
  exact ⟨by simp, nofun⟩

theorem sender_runTask {task : Task (Nat × S)} {calls : List ((Nat × S) × Value)}
    (h : RpcServer.runTask J service task = .ok calls) :
    ∀ call ∈ calls, call.1 = senderOf task := by
  cases task with
  | callReturn sender request =>
    simp only [RpcServer.runTask, bind, Except.bind] at h
    split at h
    · cases h
    · split at h
      · cases h
      · obtain rfl := Except.ok.inj h
        simp [senderOf]
  | callNotify sender request =>
    simp only [RpcServer.runTask, bind, Except.bind] at h
    split at h
    · cases h
    · split at h
      · cases h
      · obtain rfl := Except.ok.inj h
        simp

/-- The effect of a task; one that ended in an exception has none. -/
def started (s : Serving S) : Except Exception (List ((Nat × S) × Value)) → Serving S
  | .error _ => s
  | .ok calls => { s with handling := s.handling ++ calls }

theorem step_runTask {i : Nat} {task : Task (Nat × S)} (htask : s.tasks[i]? = some task) :
    s.step J service (.runTask i) = some (started { s with tasks := s.tasks.eraseIdx i }
      (RpcServer.runTask J service task)) := by
  simp only [Serving.step, htask]
  cases RpcServer.runTask J service task <;> rfl

theorem step_done {i : Nat} {call : (Nat × S) × Value} (hcall : s.handling[i]? = some call) :
    s.step J service (.done i) = some (absorb { s with handling := s.handling.eraseIdx i }
      (RpcServer.done J call.1 call.2)) := by
  simp only [Serving.step, hcall]

/-! ## What a server has of one session -/

variable [DecidableEq S]

def taskOf : Task (Nat × S) → Task S := Task.map Prod.snd

def isFor (x : S) (task : Task S) : Bool :=
  match task with
  | .callReturn sender _ | .callNotify sender _ => sender = x

/-- The frames sent to the session. -/
def sentTo (s : Serving S) (x : S) : List Bytes :=
  (s.sent.filter fun frame => frame.1.2 = x).map Prod.snd

/-- `t` is what `s` is when all other sessions are left out. -/
structure Alone (x : S) (s t : Serving S) : Prop where
  tasks : t.tasks.map taskOf = (s.tasks.map taskOf).filter (isFor x)
  handling : t.handling.map (Prod.map Prod.snd id) =
    (s.handling.map (Prod.map Prod.snd id)).filter fun call => call.1 = x
  sent : t.sent.map (Prod.map Prod.snd id) =
    (s.sent.map (Prod.map Prod.snd id)).filter fun frame => frame.1 = x
  arrived : t.arrived = s.arrived.filter fun packet => packet.1 = x

theorem isFor_taskOf (task : Task (Nat × S)) :
    isFor x (taskOf task) = decide ((senderOf task).2 = x) := by
  cases task <;> rfl

theorem Alone.absorb {r r' : Except Exception (Reaction (Nat × S))} (h : Alone x s t)
    (hsame : r'.map (Reaction.map Prod.snd) = r.map (Reaction.map Prod.snd))
    (habout : ∀ reaction, r = .ok reaction → About x reaction) :
    Alone x (s.absorb r) (t.absorb r') := by
  cases r with
  | error e =>
    cases r' with
    | error e' => exact h
    | ok reaction' => cases hsame
  | ok reaction =>
    cases r' with
    | error e' => cases hsame
    | ok reaction' =>
      obtain ⟨hsent, hsubmitted⟩ := habout reaction rfl
      have hsame := Except.ok.inj hsame
      have hsame₁ := congrArg Reaction.submitted hsame
      have hsame₂ := congrArg Reaction.sent hsame
      refine ⟨?_, h.handling, ?_, h.arrived⟩
      · simp only [Serving.absorb, List.map_append, List.filter_append, h.tasks]
        congr 1
        refine hsame₁.trans (List.filter_eq_self.mpr ?_).symm
        simpa [Reaction.map, ← taskOf.eq_1, isFor_taskOf] using hsubmitted
      · simp only [Serving.absorb, List.map_append, List.filter_append, h.sent]
        congr 1
        refine hsame₂.trans (List.filter_eq_self.mpr ?_).symm
        rintro _ hframe
        obtain ⟨frame, hf, rfl⟩ := List.mem_map.mp hframe
        simpa using hsent frame hf

/-- What happens for another session is left out. -/
theorem Alone.absorb_other {y : S} {r : Except Exception (Reaction (Nat × S))} (h : Alone x s t)
    (hne : y ≠ x) (habout : ∀ reaction, r = .ok reaction → About y reaction) :
    Alone x (s.absorb r) t := by
  cases r with
  | error e => exact h
  | ok reaction =>
    obtain ⟨hsent, hsubmitted⟩ := habout reaction rfl
    refine ⟨?_, h.handling, ?_, h.arrived⟩
    · have hnone : (reaction.submitted.map taskOf).filter (isFor x) = [] := by
        refine List.filter_eq_nil_iff.mpr ?_
        simpa [isFor_taskOf] using fun task ht => (hsubmitted task ht).trans_ne hne
      simp only [Serving.absorb, List.map_append, List.filter_append, hnone, List.append_nil]
      exact h.tasks
    · have hnone : (reaction.sent.map (Prod.map Prod.snd id)).filter
          (fun frame => decide (frame.1 = x)) = [] := by
        refine List.filter_eq_nil_iff.mpr ?_
        rintro _ hframe
        obtain ⟨frame, hf, rfl⟩ := List.mem_map.mp hframe
        simpa using (hsent frame hf).trans_ne hne
      simp only [Serving.absorb, List.map_append, List.filter_append, hnone, List.append_nil]
      exact h.sent

theorem Alone.started {r r' : Except Exception (List ((Nat × S) × Value))} (h : Alone x s t)
    (hsame : r'.map (List.map (Prod.map Prod.snd id)) = r.map (List.map (Prod.map Prod.snd id)))
    (hown : ∀ calls, r = .ok calls → ∀ call ∈ calls, call.1.2 = x) :
    Alone x (s.started r) (t.started r') := by
  cases r with
  | error e =>
    cases r' with
    | error e' => exact h
    | ok calls' => cases hsame
  | ok calls =>
    cases r' with
    | error e' => cases hsame
    | ok calls' =>
      refine ⟨h.tasks, ?_, h.sent, h.arrived⟩
      simp only [Serving.started, List.map_append, List.filter_append, h.handling]
      congr 1
      refine (Except.ok.inj hsame).trans (List.filter_eq_self.mpr ?_).symm
      rintro _ hcall
      obtain ⟨call, hc, rfl⟩ := List.mem_map.mp hcall
      simpa using hown calls rfl call hc

theorem Alone.started_other {r : Except Exception (List ((Nat × S) × Value))} (h : Alone x s t)
    (hother : ∀ calls, r = .ok calls → ∀ call ∈ calls, call.1.2 ≠ x) :
    Alone x (s.started r) t := by
  cases r with
  | error e => exact h
  | ok calls =>
    refine ⟨h.tasks, ?_, h.sent, h.arrived⟩
    have hnone : (calls.map (Prod.map Prod.snd id)).filter
        (fun call => decide (call.1 = x)) = [] := by
      refine List.filter_eq_nil_iff.mpr ?_
      rintro _ hcall
      obtain ⟨call, hc, rfl⟩ := List.mem_map.mp hcall
      simpa using hother calls rfl call hc
    simp only [Serving.started, List.map_append, List.filter_append, hnone, List.append_nil]
    exact h.handling

/-- A step for the session is one of the server it has to itself, and other steps are none. -/
theorem Alone.step (h : Alone x s t) (hst : s.step J service e = some s') :
    ∃ fs t', run (Serving.step J service) t fs = some t' ∧ (∀ y p, .arrive y p ∈ fs → y = x) ∧
      Alone x s' t' := by
  cases e with
  | arrive y packet =>
    obtain rfl := Option.some.inj hst
    have habout : ∀ reaction, RpcServer.onDataReady J (s.arrived.length, y) packet =
        .ok reaction → About y reaction := fun _ => about_onDataReady
    by_cases hy : y = x
    · subst hy
      refine ⟨[.arrive y packet], _, rfl, by simp, ?_⟩
      refine Alone.absorb ⟨h.tasks, h.handling, h.sent, ?_⟩ ?_ habout
      · simp [h.arrived, List.filter_append]
      · rw [← RpcServer.onDataReady_map, ← RpcServer.onDataReady_map]
    · refine ⟨[], t, rfl, nofun, Alone.absorb_other ⟨h.tasks, h.handling, h.sent, ?_⟩ hy habout⟩
      simp [h.arrived, List.filter_append, hy]
  | runTask i =>
    cases htask : s.tasks[i]? with
    | none => simp [Serving.step, htask] at hst
    | some task =>
      obtain rfl := Option.some.inj ((step_runTask htask).symm.trans hst)
      have htask' : (s.tasks.map taskOf)[i]? = some (taskOf task) := by simp [htask]
      by_cases hx : isFor x (taskOf task) = true
      · obtain ⟨j, hj, herase⟩ := Bag.exists_filter_eraseIdx htask' hx
        rw [← h.tasks, List.getElem?_map, Option.map_eq_some_iff] at hj
        obtain ⟨task', hj, hsame⟩ := hj
        refine ⟨[.runTask j], _, run_cons_eq_some.mpr ⟨_, step_runTask hj, rfl⟩, by simp, ?_⟩
        refine Alone.started ⟨?_, h.handling, h.sent, h.arrived⟩ ?_ fun calls hcalls call hc => ?_
        · simp only [← List.eraseIdx_map, h.tasks, herase]
        · rw [← RpcServer.runTask_map, ← RpcServer.runTask_map]
          exact congrArg _ hsame
        · rw [isFor_taskOf, decide_eq_true_eq] at hx
          rw [sender_runTask hcalls call hc, hx]
      · rw [Bool.not_eq_true] at hx
        refine ⟨[], t, rfl, nofun, Alone.started_other ⟨?_, h.handling, h.sent, h.arrived⟩
          fun calls hcalls call hc => ?_⟩
        · rw [← List.eraseIdx_map, Bag.filter_eraseIdx htask' hx]
          exact h.tasks
        · rw [isFor_taskOf, decide_eq_false_iff_not] at hx
          rw [sender_runTask hcalls call hc]
          exact hx
  | done i =>
    cases hcall : s.handling[i]? with
    | none => simp [Serving.step, hcall] at hst
    | some call =>
      obtain rfl := Option.some.inj ((step_done hcall).symm.trans hst)
      have hcall' : (s.handling.map (Prod.map Prod.snd id))[i]? =
          some (Prod.map Prod.snd id call) := by simp [hcall]
      have habout : ∀ reaction, RpcServer.done J call.1 call.2 = .ok reaction →
          About call.1.2 reaction := fun _ => about_done
      by_cases hx : call.1.2 = x
      · subst hx
        obtain ⟨j, hj, herase⟩ := Bag.exists_filter_eraseIdx
          (p := fun call' : S × Value => decide (call'.1 = call.1.2)) hcall' (by simp)
        rw [← h.handling, List.getElem?_map, Option.map_eq_some_iff] at hj
        obtain ⟨call', hj, hsame⟩ := hj
        refine ⟨[.done j], _, run_cons_eq_some.mpr ⟨_, step_done hj, rfl⟩, by simp, ?_⟩
        refine Alone.absorb ⟨h.tasks, ?_, h.sent, h.arrived⟩ ?_ habout
        · simp only [← List.eraseIdx_map, h.handling, herase]
        · rw [← RpcServer.done_map, ← RpcServer.done_map]
          obtain ⟨hsender, hresponse⟩ := Prod.mk.inj hsame
          rw [hsender]
          exact congrArg _ hresponse
      · refine ⟨[], t, rfl, nofun, Alone.absorb_other ⟨h.tasks, ?_, h.sent, h.arrived⟩ hx habout⟩
        rw [← List.eraseIdx_map, Bag.filter_eraseIdx hcall' (by simpa using hx)]
        exact h.handling

theorem sentTo_eq : s.sentTo x =
    ((s.sent.map (Prod.map Prod.snd id)).filter fun frame => frame.1 = x).map Prod.snd := by
  rw [List.filter_map, List.map_map]
  rfl

/-- Whatever the other sessions send, and however tasks and handlers interleave: what the server
has sent to a session, in order, is what it sends in some run in which only this session's
packets arrive, in the same order, and that run has no more left to do. -/
theorem sentTo_alone (x : S) (h : run (Serving.step J service) {} es = some s) :
    ∃ fs t, run (Serving.step J service) {} fs = some t ∧
      (∀ y packet, .arrive y packet ∈ fs → y = x) ∧
      t.arrived = s.arrived.filter (fun p => p.1 = x) ∧ t.sentTo x = s.sentTo x ∧
      (s.Idle → t.Idle) := by
  have halone : ∃ fs t, run (Serving.step J service) {} fs = some t ∧
      (∀ y packet, .arrive y packet ∈ fs → y = x) ∧ Alone x s t := by
    refine run_preserves (I := fun s => ∃ fs t, run (Serving.step J service) {} fs = some t ∧
      (∀ y packet, .arrive y packet ∈ fs → y = x) ∧ Alone x s t) ?_ h
      ⟨[], {}, rfl, nofun, ⟨rfl, rfl, rfl, rfl⟩⟩
    rintro s e s' hst ⟨fs, t, hrun, hfs, hs⟩
    obtain ⟨gs, t', hrun', hgs, hs'⟩ := hs.step hst
    refine ⟨fs ++ gs, t', run_append_eq_some.mpr ⟨t, hrun, hrun'⟩, fun y p hp => ?_, hs'⟩
    exact (List.mem_append.mp hp).elim (hfs y p) (hgs y p)
  obtain ⟨fs, t, hrun, hfs, hs⟩ := halone
  refine ⟨fs, t, hrun, hfs, hs.arrived, ?_, fun hidle => ?_⟩
  · rw [sentTo_eq, sentTo_eq, hs.sent, List.filter_filter]
    simp only [Bool.and_self]
  · have htasks := hs.tasks
    have hhandling := hs.handling
    rw [hidle.1] at htasks
    rw [hidle.2] at hhandling
    exact ⟨List.map_eq_nil_iff.mp htasks, List.map_eq_nil_iff.mp hhandling⟩

/-- Two sessions call `ping`, and the second one is answered first. -/
theorem sentTo_alone_ping : ∃ s t, ∃ fs : List (Event Bool),
    run (Serving.step callJsoncpp pingService) {} [.arrive true pingPacket,
      .arrive false pingPacket, .runTask 1, .done 0, .runTask 0, .done 0] = some s ∧
    run (Serving.step callJsoncpp pingService) {} fs = some t ∧
    (∀ y packet, .arrive y packet ∈ fs → y = true) ∧ t.arrived = [(true, pingPacket)] ∧
    t.sentTo true = s.sentTo true := by
  have h : run (Serving.step callJsoncpp pingService) ({} : Serving Bool)
      [.arrive true pingPacket, .arrive false pingPacket, .runTask 1, .done 0, .runTask 0,
        .done 0] = some _ := rfl
  obtain ⟨fs, t, hrun, hfs, harrived, hsent, -⟩ := sentTo_alone true h
  exact ⟨_, t, fs, h, hrun, hfs, harrived, hsent⟩

end Serving

end NBRaft.Rpc
