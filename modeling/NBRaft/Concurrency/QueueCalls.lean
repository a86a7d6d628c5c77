import NBRaft.Concurrency.QueueEffect

/-!
# What becomes of a call

The part of a run that is one thread's own: the calls it makes, what they do to the deque and what
they return. `ThreadStep` projects a step of the queue to a thread. A call does one thing to the
deque between its first step and its last, and returns what that has taken.
-/

namespace NBRaft.Concurrency.ConcurrentQueue

open Transition Threads

variable {T : Type}

def Event.made : Event T → List (Tid × Call T)
  | .call tid c => [(tid, c)]
  | _ => []

/-- The calls that a thread has made in a run, in its order. -/
def callsOf (tid : Tid) (es : List (Event T)) : List (Call T) :=
  entriesOf tid (es.flatMap Event.made)

/-- What a step of the queue is for one of the threads: how it goes on, and what it calls, does to
the deque and returns. -/
inductive ThreadStep (q : ConcurrentQueue T) :
    Pc T → List (Call T) → List (Deque.Op T) → List (Option T) → Pc T → Prop where
  | stay (pc : Pc T) : ThreadStep q pc [] [] [] pc
  | wake (pc : Pc T) (timedOut : Bool) : ThreadStep q pc [] [] [] (pc.wake timedOut)
  | call {pc : Pc T} (c : Call T) : pc.isIdle = true → ThreadStep q pc [c] [] [] (enter c)
  | turn {pc pc' : Pc T} : Turn q pc pc' → ThreadStep q pc [] [] [] pc'
  | lockTail (v : T) : ThreadStep q (.pushLock v) [] [] [] (.pushLink v)
  | link (v : T) : ThreadStep q (.pushLink v) [] [.pushBack v] [] .pushUnlock
  | unlockTail : ThreadStep q .pushUnlock [] [] [] .pushCount
  | count : ThreadStep q .pushCount [] [] [] .pushNotify
  | notify : ThreadStep q .pushNotify [] [] [] .idle
  | lockHead (kind : PopKind) (timedOut : Bool) :
    ThreadStep q (.popLock kind timedOut) [] [] [] (.popCompare kind timedOut)
  | fail (timedOut : Bool) :
    ThreadStep q (.popCompare .tryPop timedOut) [] [.nothing] [none] (.returned none)
  | late (kind : PopKind) :
    ThreadStep q (.popCompare kind true) [] [.nothing] [] (.popLoadStop kind true)
  | giveUp (kind : PopKind) : q.m_bstop = false →
    ThreadStep q (.popLoadStop kind true) [] [] [none] (.returned none)
  | leave : q.m_bstop = true → ThreadStep q .popTest [] [] [none] (.returned none)
  | block (kind : PopKind) : ThreadStep q (.popWait kind) [] [] [] (.blocked kind)
  | take (v : T) : ThreadStep q .popTake [] [.popFront v] [some v] (.returned (some v))
  | failSteal : ThreadStep q .steal [] [.nothing] [none] (.returned none)
  | steal (v : T) : ThreadStep q .steal [] [.popBack v] [some v] (.returned (some v))
  | stop : ThreadStep q .exitStore [] [] [] .exitNotify
  | notifyAll : ThreadStep q .exitNotify [] [] [] .idle

section

variable {q r : ConcurrentQueue T} {pc pc' : Pc T} {tid t : Tid} {e : Event T}
  {ops : List (Deque.Op T)} {answers : List (Option T)}

/-- What a step of the queue is for a thread, with the entries that it makes. -/
structure Projects (q : ConcurrentQueue T) (e : Event T) (r : ConcurrentQueue T) (t : Tid)
    (ops : List (Deque.Op T)) (answers : List (Option T)) : Prop where
  step : ThreadStep q (q.threads t) (entriesOf t e.made) ops answers (r.threads t)
  history : entriesOf t r.history = entriesOf t q.history ++ ops
  answers : entriesOf t r.answers = entriesOf t q.answers ++ answers

/-- A thread goes on: for the others nothing happens. -/
theorem exists_projects (tid : Tid) (calls : List (Call T)) (ops : List (Deque.Op T))
    (answers : List (Option T)) (hmade : e.made = calls.map (tid, ·))
    (hstep : ThreadStep q (q.threads tid) calls ops answers pc)
    (hthreads : r.threads = Function.update q.threads tid pc)
    (hhistory : r.history = q.history ++ ops.map (tid, ·))
    (hanswers : r.answers = q.answers ++ answers.map (tid, ·)) (t : Tid) :
    ∃ ops answers, Projects q e r t ops answers := by
  by_cases ht : t = tid
  · subst ht
    refine ⟨ops, answers, ?_, ?_, ?_⟩
    · rw [hmade, hthreads, Function.update_self, entriesOf_self]
      exact hstep
    · rw [hhistory, entriesOf_append, entriesOf_self]
    · rw [hanswers, entriesOf_append, entriesOf_self]
  · refine ⟨[], [], ?_, ?_, ?_⟩
    · rw [hmade, hthreads, Function.update_of_ne ht, entriesOf_other ht]
      exact .stay _
    · rw [hhistory, entriesOf_append, entriesOf_other ht]
    · rw [hanswers, entriesOf_append, entriesOf_other ht]

/-- Every step of the queue is one of these for each thread. -/
theorem Move.projects (h : Move q e r) (t : Tid) : ∃ ops answers, Projects q e r t ops answers := by
  -- a step of the queue that makes no entries
  have hquiet : ∀ {tid : Tid} {pc pc' : Pc T} {r : ConcurrentQueue T}, e.made = [] →
      q.threads tid = pc → ThreadStep q pc [] [] [] pc' →
      r.threads = Function.update q.threads tid pc' → r.history = q.history →
      r.answers = q.answers → ∃ ops answers, Projects q e r t ops answers := by
    intro tid pc pc' r hmade hpc hstep hthreads hhistory hanswers
    refine exists_projects tid [] [] [] hmade (hpc ▸ hstep) hthreads ?_ ?_ t
    · simpa using hhistory
    · simpa using hanswers
  cases h with
  | @call tid c hidle =>
    exact exists_projects tid [c] [] [] rfl (.call c hidle) rfl (by simp [goto]) (by simp [goto]) t
  | turn ht => exact hquiet rfl rfl (.turn ht) rfl rfl rfl
  | lockTail hpc => exact hquiet rfl hpc (.lockTail _) rfl rfl rfl
  | @link tid v addr p hpc hp =>
    obtain ⟨nodes, m_tail, rfl⟩ := pushTail_frame hp
    exact exists_projects tid [] [.pushBack v] [] rfl (hpc ▸ .link v) rfl rfl
      (by simp [goto, record]) t
  | unlockTail hpc => exact hquiet rfl hpc .unlockTail rfl rfl rfl
  | count hpc => exact hquiet rfl hpc .count rfl rfl rfl
  | notifyNone hpc => exact hquiet rfl hpc .notify rfl rfl rfl
  | @notifyOne tid w hpc hw =>
    refine ⟨[], [], ?_, (List.append_nil _).symm, (List.append_nil _).symm⟩
    by_cases ht : t = tid
    · subst ht
      simp only [goto, Function.update_self, hpc]
      exact .notify
    · simp only [goto, Function.update_of_ne ht, wakeOne]
      by_cases hw : t = w
      · subst hw
        rw [Function.update_self]
        exact .wake _ _
      · rw [Function.update_of_ne hw]
        exact .stay _
  | lockHead hpc => exact hquiet rfl hpc (.lockHead _ _) rfl rfl rfl
  | @fail tid timedOut hpc =>
    exact exists_projects tid [] [.nothing] [none] rfl (hpc ▸ .fail timedOut) rfl rfl rfl t
  | @late tid kind hpc =>
    exact exists_projects tid [] [.nothing] [] rfl (hpc ▸ .late kind) rfl rfl
      (by simp [goto, record]) t
  | @giveUp tid hpc =>
    have hstep : ThreadStep q (q.threads tid) [] [] [none] (.returned none) := by
      rcases hpc with ⟨kind, hpc, hstop⟩ | ⟨hpc, hstop⟩
      · exact hpc ▸ .giveUp kind hstop
      · exact hpc ▸ .leave hstop
    exact exists_projects tid [] [] [none] rfl hstep rfl (by simp [answer, goto, unlockHead]) rfl t
  | block hpc => exact hquiet rfl hpc (.block _) rfl rfl rfl
  | @take tid v p hpc hp =>
    obtain ⟨nodes, m_head, rfl⟩ := popHead_frame hp
    exact exists_projects tid [] [.popFront v] [some v] rfl (hpc ▸ .take v) rfl rfl rfl t
  | @failSteal tid hpc =>
    exact exists_projects tid [] [.nothing] [none] rfl (hpc ▸ .failSteal) rfl rfl rfl t
  | @steal tid v p hpc _ _ _ hp =>
    obtain ⟨nodes, m_tail, rfl⟩ := popTail_frame hp
    exact exists_projects tid [] [.popBack v] [some v] rfl (hpc ▸ .steal v) rfl rfl rfl t
  | stop hpc => exact hquiet rfl hpc .stop rfl rfl rfl
  | @notifyAll tid hpc =>
    refine ⟨[], [], ?_, (List.append_nil _).symm, (List.append_nil _).symm⟩
    by_cases ht : t = tid
    · subst ht
      simp only [goto, Function.update_self, hpc]
      exact .notifyAll
    · simp only [goto, Function.update_of_ne ht, wakeAll]
      split
      · exact .wake _ _
      · exact .stay _
  | wake => exact hquiet rfl rfl (.wake _ _) rfl rfl rfl

theorem callsOf_concat (tid : Tid) (es : List (Event T)) (e : Event T) :
    callsOf tid (es ++ [e]) = callsOf tid es ++ entriesOf tid e.made := by
  simp [callsOf]

end

/-! ## What is pushed and what is returned -/

def Call.pushes : Call T → Option T
  | .push v => some v
  | _ => none

def Call.takes : Call T → Bool
  | .pop _ | .trySteal => true
  | _ => false

/-- What a thread has pushed is what it was called with, in this order, but for a value that it has
still to link; and each pop and each steal of its own has been answered, but for one in progress,
and has returned the answer. -/
structure Accounts (pc : Pc T) (calls : List (Call T)) (ops : List (Deque.Op T))
    (answers : List (Option T)) : Prop where
  pushes : calls.filterMap Call.pushes = Deque.pushed ops ++ pc.carried.toList
  takes : calls.countP Call.takes = answers.length + pc.isConsuming.toNat
  returned : ∀ v, pc = .returned v → answers.getLast? = some v

theorem accounts_initial : Accounts (.idle : Pc T) [] [] [] :=
  ⟨rfl, rfl, by simp⟩

section

variable {q : ConcurrentQueue T} {pc pc' : Pc T} {calls calls' : List (Call T)}
  {ops ops' : List (Deque.Op T)} {answers answers' : List (Option T)}

theorem ThreadStep.accounts (h : ThreadStep q pc calls' ops' answers' pc')
    (hpc : Accounts pc calls ops answers) :
    Accounts pc' (calls ++ calls') (ops ++ ops') (answers ++ answers') := by
  obtain ⟨hpushes, htakes, hreturned⟩ := hpc
  -- nothing is called, done or returned
  have hquiet : pc'.carried = pc.carried → pc'.isConsuming = pc.isConsuming →
      (∀ v, pc' = .returned v → pc = .returned v) →
        Accounts pc' (calls ++ []) (ops ++ []) (answers ++ []) := by
    intro hcarried hconsuming hret
    simp only [List.append_nil]
    exact ⟨by rw [hpushes, hcarried], by rw [htakes, hconsuming],
      fun v hv => hreturned v (hret v hv)⟩
  cases h with
  | stay => exact hquiet rfl rfl fun _ hv => hv
  | wake pc timedOut =>
    refine hquiet (by simp) (by simp) fun v hv => ?_
    cases pc <;> first | exact hv | cases hv
  | turn ht => cases ht <;> exact hquiet rfl rfl (by simp)
  | lockTail | unlockTail | count | notify | lockHead | block | stop | notifyAll =>
    exact hquiet rfl rfl (by simp)
  | call c hidle =>
    have hcarried := Pc.carried_of_isIdle hidle
    have hconsuming : pc.isConsuming = false := by cases pc <;> first | rfl | cases hidle
    refine ⟨?_, ?_, fun v hv => by cases c <;> cases hv⟩
    · rw [List.filterMap_append, hpushes, hcarried, List.append_nil]
      cases c <;> simp [Call.pushes, enter, Pc.carried]
    · rw [List.countP_append, htakes, hconsuming, List.append_nil]
      cases c <;> simp [Call.takes, enter, Pc.isConsuming]
  | link | late =>
    refine ⟨by simp [hpushes, Pc.carried, Deque.pushed], ?_, by simp⟩
    simpa [Pc.isConsuming] using htakes
  | fail | giveUp | leave | take | failSteal | steal =>
    refine ⟨by simp [hpushes, Pc.carried, Deque.pushed], ?_, fun v hv => ?_⟩
    · simpa [Pc.isConsuming] using htakes
    · cases hv
      simp

end

/-- In every run, `Exit` included. -/
theorem accounts_of_run {q : ConcurrentQueue T} {es : List (Event T)} (h : run step {} es = some q)
    (tid : Tid) : Accounts (q.threads tid) (callsOf tid es) (entriesOf tid q.history)
      (entriesOf tid q.answers) := by
  refine run_records (C := fun _ => True) (I := fun es (q : ConcurrentQueue T) =>
    Accounts (q.threads tid) (callsOf tid es) (entriesOf tid q.history)
      (entriesOf tid q.answers)) ?_ h (fun _ _ => trivial) accounts_initial
  intro es q e r hq _ hst
  obtain ⟨ops, answers, hproj⟩ := (move_of_step hst).projects tid
  rw [callsOf_concat, hproj.history, hproj.answers]
  exact hproj.step.accounts hq

/-! ## One operation for each call -/

/-- What a call may do to the deque. -/
inductive Call.Does : Call T → Deque.Op T → Prop where
  | push (v : T) : Does (.push v) (.pushBack v)
  | pop (kind : PopKind) (v : T) : Does (.pop kind) (.popFront v)
  | popNothing (kind : PopKind) : Does (.pop kind) .nothing
  | steal (v : T) : Does .trySteal (.popBack v)
  | stealNothing : Does .trySteal .nothing

/-- In this call, before it has done anything to the deque. -/
def Pc.IsBefore (c : Call T) : Pc T → Prop
  | .pushLock v | .pushLink v => c = .push v
  | .popLock kind _ | .popCompare kind _ | .popLoadStop kind false | .popWait kind
  | .blocked kind => c = .pop kind
  | .popTest | .popTake => ∃ kind, c = .pop kind
  | .steal => c = .trySteal
  | _ => False

/-- In a call that has done this, or returned from it with what it has taken. -/
def Pc.IsAfter (op : Deque.Op T) : Pc T → Prop
  | .pushUnlock | .pushCount | .pushNotify | .idle => ∃ v, op = .pushBack v
  | .popLoadStop _ true | .returned none => op = .nothing
  | .returned (some v) => op = .popFront v ∨ op = .popBack v
  | _ => False

/-- A thread has done one thing to the deque for each of its calls, in their order. Only the last
call may have still to do it; and what the last one has done is what the thread has been told. -/
inductive Serves : Pc T → List (Call T) → List (Deque.Op T) → Prop where
  | fresh : Serves .idle [] []
  | before {pc : Pc T} {calls : List (Call T)} {ops : List (Deque.Op T)} {c : Call T} :
    List.Forall₂ Call.Does calls ops → pc.IsBefore c → Serves pc (calls ++ [c]) ops
  | after {pc : Pc T} {calls : List (Call T)} {ops : List (Deque.Op T)} {op : Deque.Op T} :
    List.Forall₂ Call.Does calls (ops ++ [op]) → pc.IsAfter op → Serves pc calls (ops ++ [op])

section

variable {q : ConcurrentQueue T} {pc pc' : Pc T} {calls calls' : List (Call T)}
  {ops ops' : List (Deque.Op T)} {answers : List (Option T)} {c : Call T} {op : Deque.Op T}

/-- A thread that has nothing to do has done something for each of its calls. -/
theorem Serves.call (h : Serves pc calls ops) (hidle : pc.isIdle = true)
    (hc : (enter c).IsBefore c) : Serves (enter c) (calls ++ [c]) ops := by
  cases h with
  | fresh => exact .before .nil hc
  | before hdoes hbefore => cases pc <;> first | exact hbefore.elim | cases hidle
  | after hdoes _ => exact .before hdoes hc

theorem Serves.go (h : Serves pc calls ops) (hidle : pc ≠ .idle)
    (hbefore : ∀ c, pc.IsBefore c → pc'.IsBefore c)
    (hafter : ∀ op, pc.IsAfter op → pc'.IsAfter op) : Serves pc' calls ops := by
  cases h with
  | fresh => exact absurd rfl hidle
  | before hdoes hc => exact .before hdoes (hbefore _ hc)
  | after hdoes hop => exact .after hdoes (hafter _ hop)

/-- A call does what it is for. -/
theorem Serves.did (h : Serves pc calls ops) (hidle : pc ≠ .idle)
    (hbefore : ∀ c, pc.IsBefore c → c.Does op) (hnot : ∀ op, ¬ pc.IsAfter op)
    (hafter : pc'.IsAfter op) : Serves pc' calls (ops ++ [op]) := by
  cases h with
  | fresh => exact absurd rfl hidle
  | before hdoes hc =>
    exact .after (List.rel_append hdoes (.cons (hbefore _ hc) .nil)) hafter
  | after _ hop => exact absurd hop (hnot _)

theorem ThreadStep.serves (h : ThreadStep q pc calls' ops' answers pc') (hq : q.m_bstop = false)
    (hcalls : .exit ∉ calls') (hpc : Serves pc calls ops) :
    Serves pc' (calls ++ calls') (ops ++ ops') := by
  cases h with
  | call c hidle =>
    rw [List.append_nil]
    refine hpc.call hidle ?_
    cases c with
    | exit => exact absurd List.mem_cons_self hcalls
    | _ => rfl
  | link v =>
    rw [List.append_nil]
    exact hpc.did (by simp) (by rintro _ rfl; exact .push v) (fun _ => id) ⟨v, rfl⟩
  | fail =>
    rw [List.append_nil]
    exact hpc.did (by simp) (by rintro _ rfl; exact .popNothing _) (fun _ => id) rfl
  | late kind =>
    rw [List.append_nil]
    exact hpc.did (by simp) (by rintro _ rfl; exact .popNothing kind) (fun _ => id) rfl
  | take v =>
    rw [List.append_nil]
    exact hpc.did (by simp) (by rintro _ ⟨kind, rfl⟩; exact .pop kind v) (fun _ => id) (.inl rfl)
  | failSteal =>
    rw [List.append_nil]
    exact hpc.did (by simp) (by rintro _ rfl; exact .stealNothing) (fun _ => id) rfl
  | steal v =>
    rw [List.append_nil]
    exact hpc.did (by simp) (by rintro _ rfl; exact .steal v) (fun _ => id) (.inr rfl)
  | leave hstop => cases hq.symm.trans hstop
  | stay => simpa using hpc
  | wake pc timedOut =>
    simp only [List.append_nil]
    cases pc with
    | blocked kind => exact hpc.go (by simp) (fun _ => id) (fun _ => False.elim)
    | _ => exact hpc
  | turn ht =>
    simp only [List.append_nil]
    cases ht with
    | stopped _ _ hstop => cases hq.symm.trans hstop
    | empty | wait | take => exact hpc.go (by simp) (fun _ => id) (fun _ => False.elim)
    | found => exact hpc.go (by simp) (fun _ hc => ⟨_, hc⟩) (fun _ => False.elim)
    | foundWaiting kind => exact hpc.go (by simp) (fun _ hc => ⟨kind, hc⟩) (fun _ => False.elim)
  | lockTail | unlockTail | count | notify | lockHead | giveUp | block | stop =>
    simp only [List.append_nil]
    exact hpc.go (by simp) (fun _ => id) (fun _ => id)
  | notifyAll =>
    simp only [List.append_nil]
    exact hpc.go (by simp) (fun _ => id) (fun _ => False.elim)

/-- Every step before `Exit` is called. -/
theorem serves_step {r : ConcurrentQueue T} {e : Event T} {es : List (Event T)} {tid : Tid}
    (h : q.step e = some r) (he : ∀ t, e ≠ .call t .exit) (hopen : q.m_bstop = false)
    (hq : Serves (q.threads tid) (callsOf tid es) (entriesOf tid q.history)) :
    Serves (r.threads tid) (callsOf tid (es ++ [e])) (entriesOf tid r.history) := by
  obtain ⟨ops, answers, hproj⟩ := (move_of_step h).projects tid
  rw [callsOf_concat, hproj.history]
  refine hproj.step.serves hopen ?_ hq
  cases e with
  | call t c =>
    intro hmem
    obtain ⟨entry, hentry, hc⟩ := List.mem_filterMap.mp hmem
    obtain rfl := List.mem_singleton.mp hentry
    split at hc
    · cases hc
      exact he t rfl
    · cases hc
  | _ => exact List.not_mem_nil

end

end NBRaft.Concurrency.ConcurrentQueue
