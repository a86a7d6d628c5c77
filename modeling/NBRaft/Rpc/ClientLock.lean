import NBRaft.Library.Threads
import NBRaft.Rpc.CallRecords

/-!
# The lock of a client

`RpcClient::m_mutex`, taken by every function that works on `m_callRecords`. `onDataReady` holds
it while it calls the callback, and what the callback does then is up to the user: it may call
any function of the same client.

A thread has a stack of the functions it is in, the latest in front. What the body of a function
does to the client is `RpcClient.step`; a function that takes no lock (a notification, or a packet
with no response in it) is one step.
-/

namespace NBRaft.Rpc

open Json JrpcProto Communication Transition Threads

/-- Where a thread is in a function of the client, or in a callback that it called. -/
inductive Frame (κ : Type) where
  /-- At the `lock_guard`. -/
  | wants (op : RpcClient.Event κ)
  | inside (op : RpcClient.Event κ)
  /-- At the end of the scope of the `lock_guard`. -/
  | leaving
  | callback (k : κ)

structure LockedClient (ι κ : Type) where
  client : RpcClient κ
  m_mutex : Option ι := none
  frames : ι → List (Frame κ) := fun _ => []

namespace LockedClient

variable {ι κ : Type} [DecidableEq ι]

/-- The functions with a `lock_guard`; `onDataReady` gets to it with a response only. -/
def locks (J : Jsoncpp) : RpcClient.Event κ → Bool
  | .callReturnProcedure .. | .getReturnCallRecord _ | .removeCallRecord _ | .clearCallRecords =>
    true
  | .onDataReady packet =>
    match JsonRpcResponseFactory.createResponseFromJsonStr J (decode packet) with
    | .ok (some _) => true
    | _ => false
  | .connection _ => false

/-- User code runs in a thread that is in no function of the client, or in a callback. -/
def inUserCode : List (Frame κ) → Bool
  | [] | .callback _ :: _ => true
  | _ => false

inductive Event (ι κ : Type) where
  | call (i : ι) (op : RpcClient.Event κ)
  | lock (i : ι)
  | body (i : ι)
  /-- The latest function or callback returns. -/
  | leave (i : ι)

/-- The frames of the callbacks that a body calls. -/
def calledBack (before after : RpcClient κ) : List (Frame κ) :=
  (after.invoked.drop before.invoked.length).map fun call => .callback call.1

def step (J : Jsoncpp) (order : ByteOrder) (s : LockedClient ι κ) :
    Event ι κ → Option (LockedClient ι κ)
  | .call i op =>
    if inUserCode (s.frames i) then
      if locks J op then
        some { s with frames := Function.update s.frames i (.wants op :: s.frames i) }
      else (s.client.step J order op).map fun client => { s with client }
    else none
  | .lock i =>
    match s.m_mutex, s.frames i with
    | none, .wants op :: below =>
      some { s with m_mutex := some i, frames := Function.update s.frames i (.inside op :: below) }
    | _, _ => none
  | .body i =>
    match s.frames i with
    | .inside op :: below =>
      (s.client.step J order op).map fun client => { s with
        client
        frames := Function.update s.frames i
          (calledBack s.client client ++ .leaving :: below) }
    | _ => none
  | .leave i =>
    match s.frames i with
    | .leaving :: below =>
      some { s with m_mutex := none, frames := Function.update s.frames i below }
    | .callback _ :: below => some { s with frames := Function.update s.frames i below }
    | _ => none

/-! ## The property -/

/-- A thread requests the mutex that it holds. -/
def BlocksItself (s : LockedClient ι κ) : Prop :=
  ∃ i op below, s.frames i = .wants op :: below ∧ s.m_mutex = some i

/-- A function that locks is not called from a callback. -/
def Allowed (J : Jsoncpp) (s : LockedClient ι κ) : Event ι κ → Prop
  | .call i op => locks J op = true → ∀ k below, s.frames i ≠ .callback k :: below
  | _ => True

/-! ## The stacks in a run -/

/-- The frames of functions between their `lock_guard` and its end. -/
def Frame.holding : Frame κ → Bool
  | .wants _ => false
  | .inside _ | .leaving | .callback _ => true

def holding (stack : List (Frame κ)) : Bool := stack.any Frame.holding

/-- The stacks there can be. On the last of them the thread waits for itself. -/
inductive Shape : List (Frame κ) → Prop
  | idle : Shape []
  | wants op : Shape [.wants op]
  | inside op : Shape [.inside op]
  | leaving : Shape [.leaving]
  | callback k : Shape [.callback k, .leaving]
  | blocked op k : Shape [.wants op, .callback k, .leaving]

/-- User code may call anything, also where that means the last shape. -/
theorem Shape.call {stack : List (Frame κ)} (h : Shape stack) (op : RpcClient.Event κ)
    (huser : inUserCode stack = true) : Shape (.wants op :: stack) := by
  cases h with
  | idle => exact .wants op
  | callback k => exact .blocked op k
  | _ => cases huser

/-- The mutex is held by the thread whose stack says so. -/
structure Inv (s : LockedClient ι κ) : Prop where
  shape : ∀ i, Shape (s.frames i)
  owner : Listed holding s.frames s.m_mutex.toList

omit [DecidableEq ι] in
theorem inv_initial (client : RpcClient κ) : Inv ({ client } : LockedClient ι κ) where
  shape _ := .idle
  owner := ⟨List.nodup_nil, fun i => by simp [holding]⟩

/-- A body calls back at most once. -/
theorem calledBack_cases {J : Jsoncpp} {order : ByteOrder} {c d : RpcClient κ}
    {op : RpcClient.Event κ} (h : c.step J order op = some d) :
    calledBack c d = [] ∨ ∃ k, calledBack c d = [.callback k] := by
  obtain ⟨_, _, _, _, -, -, -, -, hsame⟩ | ⟨_, _, _, entry, result, -, -, -, hnew⟩ |
    ⟨-, hsame, -, -⟩ := RpcClient.step_cases h
  · exact .inl (by simp [calledBack, hsame])
  · exact .inr ⟨entry.2, by simp [calledBack, hnew]⟩
  · exact .inl (by simp [calledBack, hsame])

section

variable {J : Jsoncpp} {order : ByteOrder} {s t : LockedClient ι κ} {i : ι}
  {op : RpcClient.Event κ} {below : List (Frame κ)} {client : RpcClient κ}

/-- What a step can do. -/
theorem step_cases {e : Event ι κ} (h : s.step J order e = some t) :
    (∃ i op, e = .call i op ∧ inUserCode (s.frames i) = true ∧ locks J op = true ∧
      t = { s with frames := Function.update s.frames i (.wants op :: s.frames i) }) ∨
    (∃ i op client, e = .call i op ∧ locks J op = false ∧ t = { s with client }) ∨
    (∃ i op below, e = .lock i ∧ s.m_mutex = none ∧ s.frames i = .wants op :: below ∧
      t = { s with
        m_mutex := some i
        frames := Function.update s.frames i (.inside op :: below) }) ∨
    (∃ i op below client, e = .body i ∧ s.frames i = .inside op :: below ∧
      s.client.step J order op = some client ∧
      t = { s with
        client
        frames := Function.update s.frames i (calledBack s.client client ++ .leaving :: below) }) ∨
    (∃ i below, e = .leave i ∧ s.frames i = .leaving :: below ∧
      t = { s with m_mutex := none, frames := Function.update s.frames i below }) ∨
    (∃ i k below, e = .leave i ∧ s.frames i = .callback k :: below ∧
      t = { s with frames := Function.update s.frames i below }) := by
  cases e with
  | call i op =>
    simp only [step] at h
    split_ifs at h with huser hlocks
    · exact .inl ⟨i, op, rfl, huser, hlocks, (Option.some.inj h).symm⟩
    · obtain ⟨client, -, rfl⟩ := Option.map_eq_some_iff.mp h
      exact .inr (.inl ⟨i, op, client, rfl, by simpa using hlocks, rfl⟩)
  | lock i =>
    simp only [step] at h
    split at h
    · rename_i op below hmutex hstack
      exact .inr (.inr (.inl ⟨i, op, below, rfl, hmutex, hstack, (Option.some.inj h).symm⟩))
    · cases h
  | body i =>
    simp only [step] at h
    split at h
    · rename_i op below hstack
      obtain ⟨client, hclient, rfl⟩ := Option.map_eq_some_iff.mp h
      exact .inr (.inr (.inr (.inl ⟨i, op, below, client, rfl, hstack, hclient, rfl⟩)))
    · cases h
  | leave i =>
    simp only [step] at h
    split at h
    · rename_i below hstack
      exact .inr (.inr (.inr (.inr (.inl ⟨i, below, rfl, hstack, (Option.some.inj h).symm⟩))))
    · rename_i k below hstack
      exact .inr (.inr (.inr (.inr (.inr ⟨i, k, below, rfl, hstack, (Option.some.inj h).symm⟩))))
    · cases h

theorem shape_update (hs : ∀ j, Shape (s.frames j)) {stack : List (Frame κ)}
    (h : Shape stack) (j : ι) : Shape (Function.update s.frames i stack j) :=
  (forall_update_iff_of_forall hs).mpr h j

/-- Every step keeps the stacks and the mutex in agreement. -/
theorem inv_step {e : Event ι κ} (h : s.step J order e = some t) (hs : Inv s) : Inv t := by
  obtain ⟨i, op, -, huser, -, rfl⟩ | ⟨i, op, client, -, -, rfl⟩ |
    ⟨i, op, below, -, hmutex, hstack, rfl⟩ | ⟨i, op, below, client, -, hstack, hclient, rfl⟩ |
    ⟨i, below, -, hstack, rfl⟩ | ⟨i, k, below, -, hstack, rfl⟩ := step_cases h
  · constructor
    · exact shape_update hs.shape ((hs.shape i).call op huser)
    · exact hs.owner.keep (by simp [holding, Frame.holding])
  · exact ⟨hs.shape, hs.owner⟩
  · have howner := hs.owner
    rw [hmutex] at howner
    have hfree : holding (s.frames i) = false := by
      by_contra hheld
      have hmem := (howner.mem_iff i).mpr (by simpa using hheld)
      cases hmem
    constructor
    · refine shape_update hs.shape ?_
      have hshape := hs.shape i
      rw [hstack] at hshape hfree
      cases hshape with
      | wants => exact .inside op
      | blocked => simp [holding, Frame.holding] at hfree
    · exact howner.lock (by simp [holding, Frame.holding])
  · have hshape := hs.shape i
    rw [hstack] at hshape
    cases hshape
    constructor
    · refine shape_update hs.shape ?_
      obtain hnone | ⟨k, hk⟩ := calledBack_cases hclient
      · rw [hnone]
        exact .leaving
      · rw [hk]
        exact .callback k
    · refine hs.owner.keep ?_
      rw [hstack]
      simp [holding, Frame.holding]
  · have hshape := hs.shape i
    rw [hstack] at hshape
    cases hshape
    refine ⟨shape_update hs.shape .idle, hs.owner.unlock (i := i) ?_ rfl⟩
    rw [hstack]
    rfl
  · have hshape := hs.shape i
    rw [hstack] at hshape
    cases hshape
    refine ⟨shape_update hs.shape .leaving, hs.owner.keep ?_⟩
    rw [hstack]
    rfl

/-! ## When a thread waits for itself -/

/-- Only the thread that moves can come to wait for itself. -/
theorem blocksItself_update (client : RpcClient κ) {stack : List (Frame κ)} {owner : Option ι}
    (hown : ∀ j, j ≠ i → owner = some j → s.m_mutex = some j)
    (ht : BlocksItself { s with
      client, m_mutex := owner, frames := Function.update s.frames i stack }) :
    BlocksItself s ∨ ∃ op below, stack = .wants op :: below ∧ owner = some i := by
  obtain ⟨j, op, below, hstack, howner⟩ := ht
  by_cases hj : j = i
  · subst hj
    simp only [Function.update_self] at hstack
    exact .inr ⟨op, below, hstack, howner⟩
  · simp only [Function.update_of_ne hj] at hstack
    exact .inl ⟨j, op, below, hstack, hown j hj howner⟩

/-- A call of a function that locks leads to it exactly if a callback makes the call. -/
theorem blocksItself_of_call (hs : Inv s) (hnot : ¬ BlocksItself s)
    (huser : inUserCode (s.frames i) = true) :
    BlocksItself { s with
      frames := Function.update s.frames i (.wants op :: s.frames i) } ↔
      ∃ k below, s.frames i = .callback k :: below := by
  have howner : holding (s.frames i) = true ↔ s.m_mutex = some i := hs.owner.owner_iff
  constructor
  · intro ht
    obtain h | ⟨-, -, -, hown⟩ := blocksItself_update s.client (fun _ _ h => h) ht
    · exact absurd h hnot
    · have hheld := howner.mpr hown
      cases hframes : s.frames i with
      | nil => simp [hframes, holding] at hheld
      | cons f below => cases f <;> simp_all [inUserCode]
  · rintro ⟨k, below, hframes⟩
    refine ⟨i, op, s.frames i, Function.update_self .., howner.mp ?_⟩
    rw [hframes]
    rfl

/-- From a good state a step leads to a good state exactly if it is allowed. -/
theorem not_blocksItself_step_iff {e : Event ι κ} (h : s.step J order e = some t) (hs : Inv s)
    (hnot : ¬ BlocksItself s) : ¬ BlocksItself t ↔ Allowed J s e := by
  obtain ⟨i, op, rfl, huser, hlocks, rfl⟩ | ⟨i, op, client, rfl, hlocks, rfl⟩ |
    ⟨i, op, below, rfl, hmutex, hstack, rfl⟩ | ⟨i, op, below, client, rfl, hstack, hclient, rfl⟩ |
    ⟨i, below, rfl, hstack, rfl⟩ | ⟨i, k, below, rfl, hstack, rfl⟩ := step_cases h
  · rw [blocksItself_of_call hs hnot huser]
    simp [Allowed, hlocks]
  · exact iff_of_true hnot (by simp [Allowed, hlocks])
  · refine iff_of_true (fun ht => ?_) trivial
    obtain h | ⟨_, _, heq, -⟩ := blocksItself_update s.client
      (fun j hj h => absurd (Option.some.inj h).symm hj) ht
    · exact hnot h
    · cases heq
  · refine iff_of_true (fun ht => ?_) trivial
    obtain h | ⟨_, _, heq, -⟩ := blocksItself_update _ (fun _ _ h => h) ht
    · exact hnot h
    · obtain hnone | ⟨k, hk⟩ := calledBack_cases hclient
      · rw [hnone] at heq
        cases heq
      · rw [hk] at heq
        cases heq
  · refine iff_of_true (fun ht => ?_) trivial
    obtain ⟨_, _, _, -, howner⟩ := ht
    cases howner
  · refine iff_of_true (fun ht => ?_) trivial
    have hshape := hs.shape i
    rw [hstack] at hshape
    cases hshape
    obtain h | ⟨_, _, heq, -⟩ := blocksItself_update s.client (fun _ _ h => h) ht
    · exact hnot h
    · cases heq

/-- Once a thread waits for itself it does so for ever. -/
theorem blocksItself_step {e : Event ι κ} (h : s.step J order e = some t) (hs : Inv s)
    (hblocked : BlocksItself s) : BlocksItself t := by
  obtain ⟨j, op', below', hframes, hmutex⟩ := hblocked
  have hmoves : ∀ i stack, s.frames i = stack → (∀ op below, stack ≠ .wants op :: below) →
      j ≠ i := by
    rintro i _ rfl hstack rfl
    exact hstack _ _ hframes
  obtain ⟨i, op, rfl, huser, hlocks, rfl⟩ | ⟨i, op, client, rfl, hlocks, rfl⟩ |
    ⟨i, op, below, rfl, hfree, hstack, rfl⟩ | ⟨i, op, below, client, rfl, hstack, hclient, rfl⟩ |
    ⟨i, below, rfl, hstack, rfl⟩ | ⟨i, k, below, rfl, hstack, rfl⟩ := step_cases h
  · have hj : j ≠ i := by
      rintro rfl
      rw [hframes] at huser
      cases huser
    exact ⟨j, op', below', by simp [hj, hframes], hmutex⟩
  · exact ⟨j, op', below', hframes, hmutex⟩
  · rw [hfree] at hmutex
    cases hmutex
  · have hj := hmoves i _ hstack (by simp)
    exact ⟨j, op', below', by simp [hj, hframes], hmutex⟩
  · have hj := hmoves i _ hstack (by simp)
    have hheld := hs.owner.owner_iff (i := i)
    rw [hstack, hmutex, Option.some_inj] at hheld
    exact absurd (hheld.mp rfl) hj
  · have hj := hmoves i _ hstack (by simp)
    exact ⟨j, op', below', by simp [hj, hframes], hmutex⟩

end

/-- No thread ever requests the mutex that it holds, exactly if no callback calls a function of
the client that locks while it handles a result. -/
theorem never_blocksItself_iff (J : Jsoncpp) (order : ByteOrder) (client : RpcClient κ)
    (es : List (Event ι κ)) (s : LockedClient ι κ)
    (h : run (step J order) { client } es = some s) :
    Throughout (step J order) (fun s => ¬ BlocksItself s) { client } es ↔
      Along (step J order) (Allowed J) { client } es :=
  throughout_iff_along (I := Inv) (fun _ _ _ => inv_step)
    (fun _ _ _ => not_blocksItself_step_iff) h (inv_initial client)
    (fun ⟨_, _, _, hframes, _⟩ => nomatch hframes)

/-- A call, and the response to it being handled in another thread. -/
def answering : List (Event Bool String) :=
  [.call false (.callReturnProcedure (0, 0) RpcClient.pingRequest "ping done"), .lock false,
    .body false, .leave false, .call true (.onDataReady RpcClient.pongPacket), .lock true,
    .body true]

theorem never_blocksItself_iff_answering :
    ∃ s : LockedClient Bool String,
      run (step RpcClient.pongJsoncpp .littleEndian) { client := {} } answering = some s ∧
      (Throughout (step RpcClient.pongJsoncpp .littleEndian) (fun s => ¬ BlocksItself s)
          { client := {} } answering ↔
        Along (step RpcClient.pongJsoncpp .littleEndian) (Allowed RpcClient.pongJsoncpp)
          { client := ({} : RpcClient String) } answering) :=
  ⟨_, rfl, never_blocksItself_iff RpcClient.pongJsoncpp .littleEndian {} answering _ rfl⟩

/-- A callback that removes the record of its call waits for the lock its own thread holds. -/
theorem removeCallRecord_in_callback :
    ∃ s : LockedClient Bool String,
      run (step RpcClient.pongJsoncpp .littleEndian) { client := {} }
        (answering ++ [.call true (.removeCallRecord "1")]) = some s ∧
      s.m_mutex = some true ∧ BlocksItself s ∧
      ¬ Throughout (step RpcClient.pongJsoncpp .littleEndian) (fun s => ¬ BlocksItself s)
        { client := {} } (answering ++ [.call true (.removeCallRecord "1")]) := by
  have h : run (step RpcClient.pongJsoncpp .littleEndian)
      ({ client := {} } : LockedClient Bool String)
      (answering ++ [.call true (.removeCallRecord "1")]) = some _ := rfl
  refine ⟨_, h, rfl, ?_⟩
  refine and_iff_left_of_imp (fun hblocked hall => hall.last h hblocked) |>.mpr ?_
  exact ⟨true, .removeCallRecord "1", [.callback "ping done", .leaving], rfl, rfl⟩

end LockedClient

end NBRaft.Rpc
