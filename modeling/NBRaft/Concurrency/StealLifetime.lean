import NBRaft.Concurrency.StealSearch

/-!
# The whole life of the stealing pool

`StealThreadPool` with the test of `m_done` and the back-off in the loop of each worker, and with
its destructor, which sets `m_done`, calls `Exit` on one queue after the other and joins the
workers. No worker waits on a queue or looks whether it is stopped: leaving out what `Exit` does,
the runs are those of the pool that works.

On the queues the destructor is thread `n`, so the tasks are numbered from one.
-/

namespace NBRaft.Concurrency.StealThreadPool

open Transition Threads

/-- Where a worker is in its loop. -/
inductive Loop where
  /-- `while (!m_done)`. -/
  | testing
  /-- In the condition of the `if`, or in `wrapper()`. -/
  | inside
  /-- Nothing has been found. -/
  | failed
  | returned
  deriving DecidableEq, Repr

inductive Destructor (n : Nat) where
  | outside
  /-- At the head of the loop over the queues, and in `Exit`. -/
  | exiting (i : Nat)
  | inExit (i : Fin n)
  | joining
  | returned
  deriving DecidableEq, Repr

def MAX_FAIL_COUNT : Int32 := 8

def MAX_BACK_OFF_TIME : Int32 := 256

/-- `failures` and `slept` are histories: how often each worker has found nothing, and the times for
which it has slept, since it last found a task. After `2 ^ 31` failures in a row `fail_count` wraps
here, where the `int` of the source overflows. -/
structure Lifetime (n : Nat) where
  pool : StealThreadPool n := {}
  m_done : Bool := false
  m_maxFailCount : Int32 := MAX_FAIL_COUNT
  m_maxBackOffTimeMilliSeconds : Int32 := MAX_BACK_OFF_TIME
  loops : Fin n → Loop := fun _ => .testing
  fail_count : Fin n → Int32 := fun _ => 0
  backoff_time_ms : Fin n → Int32 := fun _ => 1
  failures : Fin n → Nat := fun _ => 0
  slept : Fin n → List Int32 := fun _ => []
  destructor : Destructor n := .outside

/-! ## Without the destructor -/

section

variable {n : Nat} {p p' : StealThreadPool n} {w i : Fin n} {q : ConcurrentQueue Task}
  {e : Event n}

/-- The pool with its queues as they are without the destructor. -/
def unstopped (p : StealThreadPool n) : StealThreadPool n :=
  { p with m_thread_work_ques := fun i => (p.m_thread_work_ques i).unstopped n }

/-- Nobody waits on a queue of the pool, and the thread of its destructor calls `Exit` only. -/
structure Waitless (p : StealThreadPool n) : Prop where
  queues : ∀ i, (p.m_thread_work_ques i).Waitless n
  first : p.submissions 0 = .fresh

theorem waitless_initial : ({} : StealThreadPool n).Waitless :=
  ⟨fun _ => ConcurrentQueue.waitless_initial n, rfl⟩

theorem worker_ne_destructor (w : Fin n) : (w : Tid) ≠ n := Nat.ne_of_lt w.isLt

theorem Waitless.submitter_ne_destructor (hp : p.Waitless) {task : Task}
    (htask : p.submissions task ≠ .fresh) : n + task ≠ n := by
  intro h
  obtain rfl : task = 0 := Nat.add_eq_left.mp h
  exact htask hp.first

theorem unstopped_setQueue :
    (p.setQueue i q).unstopped = p.unstopped.setQueue i (q.unstopped n) := by
  simp only [unstopped, setQueue]
  congr 1
  funext j
  exact Function.apply_update (fun _ (q : ConcurrentQueue Task) => q.unstopped n) ..

theorem workerThread_unstopped {s : Worker n} (h : p.workerThread w s = some p')
    (hp : p.Waitless) : p.unstopped.workerThread w s = some p'.unstopped := by
  have hcall : ∀ {i : Fin n} {c : ConcurrentQueue.Call Task} {q : ConcurrentQueue Task},
      (p.m_thread_work_ques i).step (.call w c) = some q →
        (p.unstopped.m_thread_work_ques i).step (.call w c) = some (q.unstopped n) :=
    fun hq => ConcurrentQueue.step_unstopped hq (hp.queues _) (worker_ne_destructor w)
  have hset : ∀ {i : Fin n} {q : ConcurrentQueue Task} {s : Worker n},
      some ((p.unstopped.setQueue i (q.unstopped n)).setWorker w s) =
        some ((p.setQueue i q).setWorker w s).unstopped :=
    fun {_ _ s} => congrArg (fun p => some (setWorker w s p)) unstopped_setQueue.symm
  have hthreads : ∀ i, (p.unstopped.m_thread_work_ques i).threads w =
      (p.m_thread_work_ques i).threads w :=
    fun i => ConcurrentQueue.threads_unstopped (worker_ne_destructor w)
  cases s with
  | looking =>
    simp only [workerThread, Option.bind_eq_bind, Option.bind_eq_some_iff] at h ⊢
    obtain ⟨q, hq, h⟩ := h
    cases h
    exact ⟨_, hcall hq, hset⟩
  | popping =>
    simp only [workerThread, hthreads] at h ⊢
    split at h <;> cases h <;> rfl
  | searching i =>
    simp only [workerThread] at h ⊢
    split_ifs at h ⊢ with hi hself
    · cases h
      rfl
    · simp only [Option.bind_eq_bind, Option.bind_eq_some_iff] at h ⊢
      obtain ⟨q, hq, h⟩ := h
      cases h
      exact ⟨_, hcall hq, hset⟩
    · cases h
      rfl
  | stealing i =>
    simp only [workerThread, hthreads] at h ⊢
    split at h <;> cases h <;> rfl
  | holding task =>
    cases h
    rfl

/-- A step of the pool is one without the destructor, or one of its own calls of `Exit`. -/
theorem step_unstopped [NeZero n] (h : p.step e = some p') (hp : p.Waitless) :
    p.unstopped.step e = some p'.unstopped ∨ p'.unstopped = p.unstopped := by
  cases stepMove_of_step h with
  | load hfresh => simp [step, unstopped, setSubmission, hfresh]
  | store hloaded => simp [step, unstopped, setSubmission, hloaded]
  | @push task index q hstored hq =>
    have htask : n + task ≠ n := hp.submitter_ne_destructor (by simp [hstored])
    have hview : (p.unstopped.m_thread_work_ques index).step (.call (n + task) (.push task)) =
        some (q.unstopped n) := ConcurrentQueue.step_unstopped hq (hp.queues _) htask
    have hsubmissions : p.unstopped.submissions task = .stored index := hstored
    refine .inl ?_
    simp only [step, hsubmissions, hview]
    exact congrArg (fun p => some (setSubmission task (.pushing index) p))
      unstopped_setQueue.symm
  | worker hown => exact .inl (workerThread_unstopped hown hp)
  | @queue i f q hcall hq =>
    by_cases hf : f.thread = n
    · refine .inr ?_
      rw [unstopped_setQueue, ConcurrentQueue.unstopped_of_exits hq (hp.queues i) hf]
      simp [setQueue, unstopped]
    · have hview : (p.unstopped.m_thread_work_ques i).step f = some (q.unstopped n) :=
        ConcurrentQueue.step_unstopped hq (hp.queues i) hf
      refine .inl ?_
      simp only [step, hcall, hview, unstopped_setQueue]
      rfl

theorem Waitless.setQueue {e : ConcurrentQueue.Event Task} (hp : p.Waitless)
    (hq : (p.m_thread_work_ques i).step e = some q) (he : e.Waitless n) :
    (p.setQueue i q).Waitless :=
  ⟨(forall_update_iff_of_forall hp.queues).mpr
    (ConcurrentQueue.waitless_step (ConcurrentQueue.move_of_step hq) (hp.queues i) he), hp.first⟩

theorem Move.waitless (h : Move p p') (hp : p.Waitless)
    (hfirst : p'.submissions 0 = .fresh) : p'.Waitless := by
  cases h with
  | @push task i q hstored hq =>
    have htask : n + task ≠ n := hp.submitter_ne_destructor (by simp [hstored])
    have he : (ConcurrentQueue.Event.call (n + task) (.push task)).Waitless n := by
      simp only [ConcurrentQueue.Event.Waitless, if_neg htask]
      rfl
    exact ⟨(hp.setQueue hq he).queues, hfirst⟩
  | @ask w i s c q _ _ hc hq =>
    have he : (ConcurrentQueue.Event.call (w : Tid) c).Waitless n := by
      simp only [ConcurrentQueue.Event.Waitless, if_neg (worker_ne_destructor w)]
      rcases hc with rfl | rfl <;> rfl
    exact ⟨(hp.setQueue hq he).queues, hfirst⟩
  | @queue i e r he hq =>
    refine hp.setQueue hq ?_
    cases e with
    | call => cases he
    | _ => trivial
  | _ => exact ⟨hp.queues, hfirst⟩

end

namespace Lifetime

inductive Event (n : Nat) where
  /-- A step of `submit`, or of an operation on a queue. -/
  | pool (e : StealThreadPool.Event n)
  | worker (w : Fin n)
  | destructor

variable {n : Nat}

def setLoop (w : Fin n) (s : Loop) (p : Lifetime n) : Lifetime n :=
  { p with loops := Function.update p.loops w s }

/-- The branch in which a task has been found, up to the call of `wrapper`. -/
def reset (w : Fin n) (p : Lifetime n) : Lifetime n :=
  { p with
    fail_count := Function.update p.fail_count w 0
    backoff_time_ms := Function.update p.backoff_time_ms w 1
    failures := Function.update p.failures w 0
    slept := Function.update p.slept w [] }

/-- The branch in which nothing has been found: the worker sleeps, or yields. -/
def backOff (w : Fin n) (p : Lifetime n) : Lifetime n :=
  let fail_count := p.fail_count w + 1
  let p := { p with
    fail_count := Function.update p.fail_count w fail_count
    failures := Function.update p.failures w (p.failures w + 1) }
  if fail_count > p.m_maxFailCount then
    { p with
      slept := Function.update p.slept w (p.slept w ++ [p.backoff_time_ms w])
      backoff_time_ms := Function.update p.backoff_time_ms w
        (min (p.backoff_time_ms w * 2) p.m_maxBackOffTimeMilliSeconds) }
  else p

@[simp] theorem backOff_pool (w : Fin n) (p : Lifetime n) : (p.backOff w).pool = p.pool := by
  simp only [backOff]
  split <;> rfl

@[simp] theorem backOff_loops (w : Fin n) (p : Lifetime n) : (p.backOff w).loops = p.loops := by
  simp only [backOff]
  split <;> rfl

@[simp] theorem backOff_m_done (w : Fin n) (p : Lifetime n) : (p.backOff w).m_done = p.m_done := by
  simp only [backOff]
  split <;> rfl

@[simp] theorem backOff_destructor (w : Fin n) (p : Lifetime n) :
    (p.backOff w).destructor = p.destructor := by
  simp only [backOff]
  split <;> rfl

/-- `worker_thread`. -/
def loopStep (w : Fin n) (p : Lifetime n) : Loop → Option (Lifetime n)
  | .testing => some (p.setLoop w (if p.m_done then .returned else .inside))
  | .inside => do
    let pool ← p.pool.workerThread w (p.pool.workers w)
    match p.pool.workers w with
    | .holding _ => some (({ p with pool := pool }.reset w).setLoop w .testing)
    | .searching i =>
      some (if i < n then { p with pool := pool } else { p with pool := pool }.setLoop w .failed)
    | _ => some { p with pool := pool }
  | .failed => some ((p.backOff w).setLoop w .testing)
  | .returned => none

/-- The destructor, between the operations on the queues. -/
def destructorStep (p : Lifetime n) : Destructor n → Option (Lifetime n)
  | .outside => some { p with m_done := true, destructor := .exiting 0 }
  | .exiting i =>
    if h : i < n then do
      let q ← (p.pool.m_thread_work_ques ⟨i, h⟩).step (.call n .exit)
      some { p with pool := p.pool.setQueue ⟨i, h⟩ q, destructor := .inExit ⟨i, h⟩ }
    else some { p with destructor := .joining }
  | .inExit i =>
    if ((p.pool.m_thread_work_ques i).threads n).isIdle then
      some { p with destructor := .exiting (i + 1) }
    else none
  | .joining =>
    if ∀ w, p.loops w = .returned then some { p with destructor := .returned } else none
  | .returned => none

/-- The steps that are not those of a worker. -/
def isOuter : StealThreadPool.Event n → Bool
  | .load task => task ≠ 0
  | .worker _ => false
  | _ => true

theorem isOuter_ne_load {e : StealThreadPool.Event n} (h : isOuter e = true) : e ≠ .load 0 := by
  rintro rfl
  cases h

def step [NeZero n] (p : Lifetime n) : Event n → Option (Lifetime n)
  | .pool e =>
    if isOuter e then (p.pool.step e).map fun pool => { p with pool := pool } else none
  | .worker w => p.loopStep w (p.loops w)
  | .destructor => p.destructorStep p.destructor

/-! ## What a step can do -/

inductive Move [NeZero n] (p : Lifetime n) : Event n → Lifetime n → Prop where
  | outer {e : StealThreadPool.Event n} {pool : StealThreadPool n} : isOuter e = true →
    p.pool.step e = some pool → Move p (.pool e) { p with pool := pool }
  | enter {w : Fin n} : p.loops w = .testing → p.m_done = false →
    Move p (.worker w) (p.setLoop w .inside)
  | leave {w : Fin n} : p.loops w = .testing → p.m_done = true →
    Move p (.worker w) (p.setLoop w .returned)
  | search {w : Fin n} {pool : StealThreadPool n} : p.loops w = .inside →
    p.pool.step (.worker w) = some pool → pool.workers w ≠ .looking →
      Move p (.worker w) { p with pool := pool }
  | fail {w : Fin n} {i : Nat} {pool : StealThreadPool n} : p.loops w = .inside →
    p.pool.workers w = .searching i → n ≤ i → p.pool.step (.worker w) = some pool →
      Move p (.worker w) ({ p with pool := pool }.setLoop w .failed)
  | execute {w : Fin n} {task : Task} {pool : StealThreadPool n} : p.loops w = .inside →
    p.pool.workers w = .holding task → p.pool.step (.worker w) = some pool →
      Move p (.worker w) (({ p with pool := pool }.reset w).setLoop w .testing)
  | backOff {w : Fin n} : p.loops w = .failed →
    Move p (.worker w) ((p.backOff w).setLoop w .testing)
  | begin : p.destructor = .outside →
    Move p .destructor { p with m_done := true, destructor := .exiting 0 }
  | exit {i : Fin n} {q : ConcurrentQueue Task} : p.destructor = .exiting i →
    (p.pool.m_thread_work_ques i).step (.call n .exit) = some q →
      Move p .destructor { p with pool := p.pool.setQueue i q, destructor := .inExit i }
  | exited {i : Fin n} : p.destructor = .inExit i →
    ((p.pool.m_thread_work_ques i).threads n).isIdle = true →
      Move p .destructor { p with destructor := .exiting (i + 1) }
  | allExited {i : Nat} : p.destructor = .exiting i → n ≤ i →
    Move p .destructor { p with destructor := .joining }
  | joined : p.destructor = .joining → (∀ w, p.loops w = .returned) →
    Move p .destructor { p with destructor := .returned }

section

variable [NeZero n] {p p' : Lifetime n} {w i : Fin n} {e : Event n}

theorem move_of_loopStep (h : p.loopStep w (p.loops w) = some p') : Move p (.worker w) p' := by
  cases hl : p.loops w with
  | testing =>
    rw [hl] at h
    cases hdone : p.m_done <;> simp only [loopStep, hdone, Option.some.injEq] at h <;> subst h
    · exact .enter hl hdone
    · exact .leave hl hdone
  | inside =>
    simp only [hl, loopStep, Option.bind_eq_bind, Option.bind_eq_some_iff] at h
    obtain ⟨pool, hpool, h⟩ := h
    have hne := (workerMove_of_workerThread hpool).ne_looking
    cases hw : p.pool.workers w with
    | holding task =>
      simp only [hw] at h
      cases h
      exact .execute hl hw hpool
    | searching i =>
      simp only [hw, Option.some.injEq] at h
      by_cases hi : i < n
      · rw [if_pos hi] at h
        subst h
        refine .search hl hpool (hne (by simp [hw]) fun j hj => ?_)
        obtain rfl := Worker.searching.inj (hw.symm.trans hj)
        exact hi
      · rw [if_neg hi] at h
        subst h
        exact .fail hl hw (Nat.not_lt.mp hi) hpool
    | looking | popping | stealing =>
      simp only [hw] at h
      cases h
      exact .search hl hpool (hne (by simp [hw]) (by simp [hw]))
  | failed =>
    rw [hl] at h
    cases h
    exact .backOff hl
  | returned =>
    rw [hl] at h
    cases h

theorem move_of_destructorStep (h : p.destructorStep p.destructor = some p') :
    Move p .destructor p' := by
  cases hd : p.destructor with
  | outside =>
    rw [hd] at h
    cases h
    exact .begin hd
  | exiting i =>
    simp only [hd, destructorStep] at h
    split_ifs at h with hi
    · simp only [Option.bind_eq_bind, Option.bind_eq_some_iff] at h
      obtain ⟨q, hq, h⟩ := h
      cases h
      exact .exit (i := ⟨i, hi⟩) hd hq
    · cases h
      exact .allExited hd (Nat.not_lt.mp hi)
  | inExit i =>
    simp only [hd, destructorStep] at h
    split_ifs at h with hidle
    cases h
    exact .exited hd hidle
  | joining =>
    simp only [hd, destructorStep] at h
    split_ifs at h with hreturned
    cases h
    exact .joined hd hreturned
  | returned =>
    rw [hd] at h
    cases h

/-- Every step is one of these. -/
theorem move_of_step (h : p.step e = some p') : Move p e p' := by
  cases e with
  | pool e =>
    simp only [step] at h
    split_ifs at h with hout
    simp only [Option.map_eq_some_iff] at h
    obtain ⟨pool, hpool, rfl⟩ := h
    exact .outer hout hpool
  | worker w => exact move_of_loopStep h
  | destructor => exact move_of_destructorStep h

/-! ## What holds in every run -/

/-- Nobody waits, and leaving out what `Exit` does, the pool works as without its destructor. -/
structure Working (p : StealThreadPool n) : Prop where
  waitless : p.Waitless
  polling : p.Polling
  run : ∃ fs, run StealThreadPool.step {} fs = some p.unstopped

theorem working_initial : Working ({} : StealThreadPool n) where
  waitless := waitless_initial
  polling := polling_initial
  run := ⟨[], congrArg some (by simp [unstopped, ConcurrentQueue.unstopped])⟩

/-- A worker does something in the pool only where it is inside its loop. -/
structure Sane (p : Lifetime n) : Prop where
  working : Working p.pool
  looking : ∀ w, p.loops w ≠ .inside → p.pool.workers w = .looking
  m_done : p.m_done = false ↔ p.destructor = .outside

theorem sane_initial : ({} : Lifetime n).Sane where
  working := working_initial
  looking _ _ := rfl
  m_done := iff_of_true rfl rfl

/-- The steps of `submit` leave the workers where they are. -/
theorem workers_of_isOuter {p p' : StealThreadPool n} {e : StealThreadPool.Event n}
    (h : p.step e = some p') (he : isOuter e = true) :
    p'.workers = p.workers ∧ p'.executed = p.executed := by
  cases stepMove_of_step h with
  | worker => cases he
  | load | store | push | queue => exact ⟨rfl, rfl⟩

/-- The task numbered zero is not submitted. -/
theorem first_of_step {p p' : StealThreadPool n} {e : StealThreadPool.Event n}
    (h : p.step e = some p') (he : e ≠ .load 0) (hp : p.submissions 0 = .fresh) :
    p'.submissions 0 = .fresh := by
  have hset : ∀ {task : Task} {s : Submission n}, task ≠ 0 →
      Function.update p.submissions task s 0 = .fresh := by
    intro task s htask
    rwa [Function.update_of_ne htask.symm]
  cases stepMove_of_step h with
  | load => exact hset fun htask => he (congrArg _ htask)
  | store hloaded =>
    refine hset fun htask => ?_
    simp [htask, hp] at hloaded
  | push hstored =>
    refine hset fun htask => ?_
    simp [htask, hp] at hstored
  | worker hown => cases workerMove_of_workerThread hown <;> exact hp
  | queue => exact hp

theorem Working.step {p p' : StealThreadPool n} {e : StealThreadPool.Event n} (hp : Working p)
    (h : p.step e = some p') (he : e ≠ .load 0) : Working p' where
  waitless := (StealThreadPool.move_of_step h).waitless hp.waitless
    (first_of_step h he hp.waitless.first)
  polling := hp.polling.step h
  run := by
    obtain ⟨fs, hfs⟩ := hp.run
    rcases step_unstopped h hp.waitless with hstep | hsame
    · exact ⟨fs ++ [e], run_concat_eq_some.mpr ⟨_, hfs, hstep⟩⟩
    · exact ⟨fs, by rw [hsame, hfs]⟩

/-- The destructor calls `Exit` on a queue. -/
theorem Working.exit {p : StealThreadPool n} {q : ConcurrentQueue Task} (hp : Working p)
    (h : (p.m_thread_work_ques i).step (.call n .exit) = some q) : Working (p.setQueue i q) where
  waitless := hp.waitless.setQueue h (by simp [ConcurrentQueue.Event.Waitless])
  polling := by
    refine ⟨?_, fun w j hasks => ?_⟩
    · obtain ⟨cells, hs⟩ := hp.polling.sound i
      exact (forall_update_iff_of_forall (P := fun q : ConcurrentQueue Task =>
        ∃ cells, q.Sound cells) hp.polling.sound).mpr ((ConcurrentQueue.move_of_step h).sound hs)
    · have hpolls := hp.polling.polls w j hasks
      rwa [← threads_of_call h (worker_ne_destructor w) j] at hpolls
  run := by
    obtain ⟨fs, hfs⟩ := hp.run
    refine ⟨fs, hfs.trans (congrArg some ?_)⟩
    rw [unstopped_setQueue, ConcurrentQueue.unstopped_of_exits h (hp.waitless.queues i) rfl]
    simp [setQueue, unstopped]

theorem Move.working (h : Move p e p') (hp : p.Sane) : Working p'.pool := by
  cases h with
  | outer he hpool => exact hp.working.step hpool (isOuter_ne_load he)
  | search _ hpool | fail _ _ _ hpool | execute _ _ hpool => exact hp.working.step hpool nofun
  | exit _ hq => exact hp.working.exit hq
  | enter | leave | backOff | begin | exited | allExited | joined =>
    simpa [setLoop] using hp.working

theorem Move.looking (h : Move p e p') (hp : p.Sane) (v : Fin n) (hv : p'.loops v ≠ .inside) :
    p'.pool.workers v = .looking := by
  -- one worker goes on, and the others stay where they are
  have hset : ∀ {w : Fin n} {s : Loop} {pool : StealThreadPool n},
      (∀ v, v ≠ w → pool.workers v = p.pool.workers v) →
        (s ≠ .inside → pool.workers w = .looking) →
          Function.update p.loops w s v ≠ .inside → pool.workers v = .looking := by
    intro w s pool hothers hself hv
    by_cases heq : v = w
    · subst heq
      rw [Function.update_self] at hv
      exact hself hv
    · rw [Function.update_of_ne heq] at hv
      rw [hothers v heq]
      exact hp.looking v hv
  have hothers : ∀ {w : Fin n} {pool : StealThreadPool n},
      p.pool.step (.worker w) = some pool → ∀ v, v ≠ w → pool.workers v = p.pool.workers v :=
    fun hpool v hv => ((workerMove_of_workerThread hpool).frame hv).1
  cases h with
  | outer he hpool =>
    rw [(workers_of_isOuter hpool he).1]
    exact hp.looking v hv
  | enter => exact hset (fun _ _ => rfl) (fun hne => absurd rfl hne) hv
  | @leave w hw | @backOff w hw =>
    have hlooking := hp.looking w (by simp [hw])
    simp only [setLoop, backOff_loops, backOff_pool] at hv ⊢
    exact hset (fun _ _ => rfl) (fun _ => hlooking) hv
  | @search w pool hw hpool =>
    have hne : v ≠ w := by
      rintro rfl
      exact hv hw
    rw [hothers hpool v hne]
    exact hp.looking v hv
  | @fail w i pool _ hsearching hi hpool =>
    refine hset (hothers hpool) (fun _ => ?_) hv
    rw [(workerMove_of_workerThread hpool).eq_of_searching hsearching hi]
    exact Function.update_self ..
  | @execute w task pool _ hholding hpool =>
    refine hset (hothers hpool) (fun _ => ?_) hv
    rw [(workerMove_of_workerThread hpool).eq_of_holding hholding]
    exact Function.update_self ..
  | begin | exit | exited | allExited | joined => exact hp.looking v hv

theorem Move.m_done_iff (h : Move p e p') (hp : p.Sane) :
    p'.m_done = false ↔ p'.destructor = .outside := by
  have hset : p.destructor ≠ .outside → ∀ {d : Destructor n}, d ≠ .outside →
      (p.m_done = false ↔ d = .outside) :=
    fun hne _ hd => iff_of_false (fun h => hne (hp.m_done.mp h)) hd
  cases h with
  | begin => exact iff_of_false nofun nofun
  | exit hd | exited hd | allExited hd | joined hd => exact hset (by rw [hd]; nofun) nofun
  | backOff =>
    simp only [setLoop, backOff_m_done, backOff_destructor]
    exact hp.m_done
  | _ => exact hp.m_done

theorem Move.sane (h : Move p e p') (hp : p.Sane) : p'.Sane :=
  ⟨h.working hp, h.looking hp, h.m_done_iff hp⟩

/-- What has been linked is in a queue, or in a wrapper, or has been executed. -/
theorem Working.each_once {p : StealThreadPool n} (hp : Working p) :
    ∃ cells : Fin n → List (Addr × Task),
      (∀ i, (p.m_thread_work_ques i).Holds (cells i)) ∧
      ∀ task, (∑ i, ((cells i).map Prod.snd).count task) +
        (∑ w, (p.wrapper w).toList.count task) + p.executed.count task =
          (p.submitted task).toNat := by
  obtain ⟨fs, hfs⟩ := hp.run
  have hconserved : p.unstopped.Conserved :=
    run_preserves (fun _ _ _ hst => (StealThreadPool.move_of_step hst).conserved) hfs
      conserved_initial
  choose cells hcells using hp.polling.sound
  refine ⟨cells, fun i => (hcells i).holds, fun task => ?_⟩
  have hlinked : ∀ i, p.unstopped.linked i task = p.linked i task := by
    intro i
    simp only [linked]
    by_cases htask : p.submissions task = .fresh
    · simp [unstopped, htask]
    · have hthread : (p.unstopped.m_thread_work_ques i).threads (n + task) =
          (p.m_thread_work_ques i).threads (n + task) :=
        ConcurrentQueue.threads_unstopped (hp.waitless.submitter_ne_destructor htask)
      rw [hthread]
      rfl
  have hwrapper : ∀ w, p.unstopped.wrapper w = p.wrapper w := fun w =>
    wrapper_congr rfl fun i _ => by
      rw [show (p.unstopped.m_thread_work_ques i).threads w = _ from
        ConcurrentQueue.threads_unstopped (worker_ne_destructor w)]
  have hqueue : ∀ i, (p.linked i task).toNat =
      (p.m_thread_work_ques i).taken.count task + ((cells i).map Prod.snd).count task := by
    intro i
    have hperm := (hcells i).done.perm
    simp only [List.nil_append, (hcells i).taken] at hperm
    rw [← hlinked, ← hconserved.pushed i task, ← List.count_append]
    exact hperm.count_eq task
  have hsum := sum_linked p task
  have htaken : (∑ i, (p.m_thread_work_ques i).taken.count task) =
      (∑ w, (p.wrapper w).toList.count task) + p.executed.count task := by
    have htaken := hconserved.taken task
    simp only [beyond, hwrapper] at htaken
    exact htaken
  simp only [hqueue, Finset.sum_add_distrib, htaken] at hsum
  omega

theorem sane_of_run {es : List (Event n)} (h : run step {} es = some p) : p.Sane :=
  run_preserves (fun _ _ _ hst => (move_of_step hst).sane) h sane_initial

end

/-- In every run of the whole life of the pool: leaving out what `Exit` does, the pool has come to
where it is as one that works; and each task that has been submitted is once in one of the queues,
or in one of the wrappers, or executed. The run ends with the body of the destructor: the queues and
what is left in them are destroyed afterwards. -/
theorem works_until_joined [NeZero n] {p : Lifetime n} {es : List (Event n)}
    (h : run step {} es = some p) :
    (∃ fs, run StealThreadPool.step {} fs = some p.pool.unstopped) ∧
      ∃ cells : Fin n → List (Addr × Task),
        (∀ i, (p.pool.m_thread_work_ques i).Holds (cells i)) ∧
        ∀ task, (∑ i, ((cells i).map Prod.snd).count task) +
          (∑ w, (p.pool.wrapper w).toList.count task) + p.pool.executed.count task =
            (p.pool.submitted task).toNat :=
  ⟨(sane_of_run h).working.run, (sane_of_run h).working.each_once⟩

/-- The worker has taken a task when the destructor begins, and calls `Exit`. -/
def taskAtTheEnd (w : Fin 1) : List (Event 1) :=
  [.pool (.load 1), .pool (.store 1), .pool (.push 1), .pool (.queue w (.advance 2)),
    .pool (.queue w (.link 2 10)), .pool (.queue w (.advance 2)), .worker w, .worker w,
    .pool (.queue w (.advance w)), .pool (.queue w (.advance w)), .pool (.queue w (.advance w)),
    .worker w, .destructor, .destructor, .pool (.queue w (.advance 1))]

theorem works_until_joined_holding : ∃ p : Lifetime 1, run step {} (taskAtTheEnd 0) = some p ∧
    p.m_done = true ∧ p.pool.wrapper 0 = some 1 ∧
    ∃ fs, run StealThreadPool.step {} fs = some p.pool.unstopped := by
  have h : run step ({} : Lifetime 1) (taskAtTheEnd 0) = some _ := rfl
  exact ⟨_, h, rfl, rfl, (works_until_joined h).1⟩

/-! ## Backing off -/

/-- The time for which a worker sleeps next, when it has slept so often. -/
def sleepTime (k : Nat) : Int32 := .ofNat (min (2 ^ k) 256)

theorem sleepTime_of_le {k : Nat} (hk : 8 ≤ k) : sleepTime k = MAX_BACK_OFF_TIME := by
  have hpow : 256 ≤ 2 ^ k := Nat.pow_le_pow_right (by decide : 0 < 2) hk
  rw [sleepTime, Nat.min_eq_right hpow]
  rfl

theorem sleepTime_succ (k : Nat) : min (sleepTime k * 2) MAX_BACK_OFF_TIME = sleepTime (k + 1) := by
  by_cases hk : k < 8
  · have hsmall : ∀ k < 8, min (sleepTime k * 2) MAX_BACK_OFF_TIME = sleepTime (k + 1) := by decide
    exact hsmall k hk
  · rw [sleepTime_of_le (Nat.not_lt.mp hk), sleepTime_of_le (by omega)]
    decide

theorem maxFailCount_lt_iff {k : Nat} (hk : k < 2 ^ 31) : .ofNat k > MAX_FAIL_COUNT ↔ 8 < k := by
  have hmax : MAX_FAIL_COUNT.toInt = 8 := rfl
  rw [gt_iff_lt, Int32.lt_iff_toInt_lt, Int32.toInt_ofNat_of_lt hk, hmax]
  omega

/-- The local variables of a worker's loop, by how often it has failed since it last found a
task. -/
structure Paced (failures : Nat) (fail_count backoff_time_ms : Int32) (slept : List Int32) :
    Prop where
  fail_count : fail_count = .ofNat failures
  backoff_time_ms : backoff_time_ms = sleepTime (failures - 8)
  slept : slept = (List.range (failures - 8)).map sleepTime

structure Patient (p : Lifetime n) : Prop where
  m_maxFailCount : p.m_maxFailCount = MAX_FAIL_COUNT
  m_maxBackOffTime : p.m_maxBackOffTimeMilliSeconds = MAX_BACK_OFF_TIME
  paced : ∀ w, p.failures w < 2 ^ 31 →
    Paced (p.failures w) (p.fail_count w) (p.backoff_time_ms w) (p.slept w)

section

variable {p : Lifetime n} {w : Fin n}

theorem Patient.reset (hp : p.Patient) : (p.reset w).Patient := by
  refine ⟨hp.m_maxFailCount, hp.m_maxBackOffTime, fun v => ?_⟩
  by_cases hv : v = w
  · subst hv
    simp only [Lifetime.reset, Function.update_self]
    exact fun _ => ⟨rfl, rfl, rfl⟩
  · simp only [Lifetime.reset, Function.update_of_ne hv]
    exact hp.paced v

theorem Patient.backOff (hp : p.Patient) : (p.backOff w).Patient := by
  -- the next failure is one more, until the counter wraps
  have hnext : p.failures w + 1 < 2 ^ 31 →
      Paced (p.failures w) (p.fail_count w) (p.backoff_time_ms w) (p.slept w) ∧
        p.fail_count w + 1 = .ofNat (p.failures w + 1) := by
    intro hlt
    have hpaced := hp.paced w (by omega)
    exact ⟨hpaced, by rw [hpaced.fail_count, Int32.ofNat_add]; rfl⟩
  simp only [Lifetime.backOff]
  split
  · rename_i hfail
    rw [hp.m_maxFailCount] at hfail
    refine ⟨hp.m_maxFailCount, hp.m_maxBackOffTime, fun v => ?_⟩
    by_cases hv : v = w
    · subst hv
      simp only [Function.update_self]
      intro hlt
      obtain ⟨hpaced, hcount⟩ := hnext hlt
      have hmore : 8 < p.failures v + 1 := (maxFailCount_lt_iff hlt).mp (hcount ▸ hfail)
      have hsucc : p.failures v + 1 - 8 = p.failures v - 8 + 1 := by omega
      refine ⟨hcount, ?_, ?_⟩
      · rw [hp.m_maxBackOffTime, hpaced.backoff_time_ms, sleepTime_succ, hsucc]
      · rw [hpaced.slept, hpaced.backoff_time_ms, hsucc, List.range_succ, List.map_append,
          List.map_singleton]
    · simp only [Function.update_of_ne hv]
      exact hp.paced v
  · rename_i hyield
    rw [hp.m_maxFailCount] at hyield
    refine ⟨hp.m_maxFailCount, hp.m_maxBackOffTime, fun v => ?_⟩
    by_cases hv : v = w
    · subst hv
      simp only [Function.update_self]
      intro hlt
      obtain ⟨hpaced, hcount⟩ := hnext hlt
      have hfew : ¬ 8 < p.failures v + 1 := fun h =>
        hyield (hcount ▸ (maxFailCount_lt_iff hlt).mpr h)
      have hsame : p.failures v + 1 - 8 = p.failures v - 8 := by omega
      exact ⟨hcount, by rw [hsame, hpaced.backoff_time_ms], by rw [hsame, hpaced.slept]⟩
    · simp only [Function.update_of_ne hv]
      exact hp.paced v

end

end Lifetime

end NBRaft.Concurrency.StealThreadPool
