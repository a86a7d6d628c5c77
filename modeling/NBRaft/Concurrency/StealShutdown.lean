import Mathlib.Algebra.Order.BigOperators.Group.Finset
import NBRaft.Concurrency.StealLifetime

/-!
# The end of the stealing pool

Once the destructor of `StealThreadPool` has set `m_done`, each worker searches, and executes, once
more at most: as soon as no more tasks are submitted the steps of the pool come to an end, whatever
is left in the queues, and the destructor returns.
-/

namespace NBRaft.Concurrency.StealThreadPool

open Transition Threads

section

variable {n : Nat} {p p' : StealThreadPool n} {w i : Fin n} {task : Task}
  {q : ConcurrentQueue Task} {e : Event n} {calls : List Tid} {tasks : List Task}

/-! ## What the pool has still to do -/

/-- The steps that a worker may take until it has executed a task or found nothing, with those of
the queues that it asks. -/
def Worker.rank : Worker n → Nat
  | .looking => 3 * n + 10
  | .popping => 3 * n + 4
  | .searching i => 3 * (n - i) + 3
  | .stealing i => 3 * (n - i) + 1
  | .holding _ => 2

/-- The steps of a submission, with those of its `push`. -/
def Submission.rank : Submission n → Nat
  | .fresh | .pushing _ => 0
  | .stored _ => 11
  | .loaded _ => 12

def Submission.isBusy : Submission n → Bool
  | .loaded _ | .stored _ => true
  | .fresh | .pushing _ => false

def Loop.rank (inside : Nat) : Loop → Nat
  | .testing => 1
  | .inside => inside
  | .failed => 2
  | .returned => 0

def Loop.inner : Loop → Nat
  | .inside => 1
  | .testing | .failed | .returned => 0

/-- The steps of the destructor, where `Exit` notifies so many threads. -/
def Destructor.rank (threads : Nat) : Destructor n → Nat
  | .outside => 0
  | .exiting i => (n - i) * (5 * threads + 4) + 2
  | .inExit i => (n - (i + 1)) * (5 * threads + 4) + 3
  | .joining => 1
  | .returned => 0

/-- What is left to do in the queues and for the submissions. -/
def rest (calls : List Tid) (tasks : List Task) (p : StealThreadPool n) : Nat :=
  (∑ i, work (ConcurrentQueue.Pc.rank calls.length) (p.m_thread_work_ques i).threads calls) +
    work Submission.rank p.submissions tasks

/-- The first list names the threads that have called, or may do so; the second the tasks that are
being submitted. -/
structure Attends (calls : List Tid) (tasks : List Task) (p : StealThreadPool n) : Prop where
  covered : ∀ i, Covered ConcurrentQueue.Pc.isBusy (p.m_thread_work_ques i).threads calls
  submissions : Covered Submission.isBusy p.submissions tasks
  worker : ∀ w : Fin n, (w : Tid) ∈ calls
  submitter : ∀ task ∈ tasks, n + task ∈ calls
  destructor : n ∈ calls

theorem Attends.setQueue (hp : p.Attends calls tasks)
    (hq : Covered ConcurrentQueue.Pc.isBusy q.threads calls) :
    (p.setQueue i q).Attends calls tasks where
  covered := (forall_update_iff_of_forall (P := fun q : ConcurrentQueue Task =>
    Covered ConcurrentQueue.Pc.isBusy q.threads calls) hp.covered).mpr hq
  submissions := hp.submissions
  worker := hp.worker
  submitter := hp.submitter
  destructor := hp.destructor

theorem Attends.call {tid : Tid} {c : ConcurrentQueue.Call Task} (hp : p.Attends calls tasks)
    (hq : (p.m_thread_work_ques i).step (.call tid c) = some q) (htid : tid ∈ calls) :
    (p.setQueue i q).Attends calls tasks := by
  obtain ⟨-, rfl⟩ := ConcurrentQueue.call_eq hq
  exact hp.setQueue ((hp.covered i).update_of_mem htid)

theorem Attends.setSubmission {s : Submission n} (hp : p.Attends calls tasks)
    (hbusy : (p.submissions task).isBusy = true) : (p.setSubmission task s).Attends calls tasks :=
  ⟨hp.covered, hp.submissions.update hbusy, hp.worker, hp.submitter, hp.destructor⟩

/-- One queue goes on. -/
theorem rest_setQueue (calls : List Tid) (tasks : List Task) :
    (p.setQueue i q).rest calls tasks +
        work (ConcurrentQueue.Pc.rank calls.length) (p.m_thread_work_ques i).threads calls =
      p.rest calls tasks + work (ConcurrentQueue.Pc.rank calls.length) q.threads calls := by
  have hsum := Bag.sum_change (f := fun j => work (ConcurrentQueue.Pc.rank calls.length)
      ((p.setQueue i q).m_thread_work_ques j).threads calls)
    (g := fun j => work (ConcurrentQueue.Pc.rank calls.length)
      (p.m_thread_work_ques j).threads calls) i fun j hj => by
        simp only [setQueue, Function.update_of_ne hj]
  simp only [setQueue, Function.update_self] at hsum
  simp only [rest, setQueue]
  omega

/-- A call is made on a queue. -/
theorem rest_call {tid : Tid} {c : ConcurrentQueue.Call Task} (hp : p.Attends calls tasks)
    (hq : (p.m_thread_work_ques i).step (.call tid c) = some q) (htid : tid ∈ calls) :
    (p.setQueue i q).rest calls tasks =
      p.rest calls tasks + (ConcurrentQueue.enter c).rank calls.length := by
  obtain ⟨hidle, rfl⟩ := ConcurrentQueue.call_eq hq
  have hupdate := work_update (ConcurrentQueue.Pc.rank calls.length)
    (p.m_thread_work_ques i).threads (ConcurrentQueue.enter c) (hp.covered i).nodup htid
  rw [ConcurrentQueue.Pc.rank_of_isIdle hidle, Nat.add_zero] at hupdate
  have hrest := rest_setQueue (p := p) (i := i)
    (q := (p.m_thread_work_ques i).goto tid (ConcurrentQueue.enter c)) calls tasks
  simp only [ConcurrentQueue.goto] at hrest ⊢
  omega

/-- A step of a call in progress. -/
theorem rest_queue_lt {e : ConcurrentQueue.Event Task} (hp : p.Attends calls tasks)
    (hq : (p.m_thread_work_ques i).step e = some q) (he : e.Inner) :
    (p.setQueue i q).rest calls tasks < p.rest calls tasks := by
  have hlt := (ConcurrentQueue.move_of_step hq).lowers he (hp.covered i)
  have hrest := rest_setQueue (p := p) (i := i) (q := q) calls tasks
  omega

theorem rest_setSubmission (s : Submission n) (hp : p.Attends calls tasks)
    (hbusy : (p.submissions task).isBusy = true) :
    (p.setSubmission task s).rest calls tasks + (p.submissions task).rank =
      p.rest calls tasks + s.rank := by
  have hwork := work_update Submission.rank p.submissions s hp.submissions.nodup
    (hp.submissions.mem _ hbusy)
  simp only [rest, setSubmission]
  omega

theorem WorkerMove.attends (h : WorkerMove p w p') (hp : p.Attends calls tasks) :
    p'.Attends calls tasks := by
  cases h with
  | pop _ hq | steal _ hq =>
    have hcall := hp.call hq (hp.worker w)
    exact ⟨hcall.covered, hcall.submissions, hcall.worker, hcall.submitter, hcall.destructor⟩
  | _ => exact ⟨hp.covered, hp.submissions, hp.worker, hp.submitter, hp.destructor⟩

/-- A worker that goes on searching comes nearer to the end of that. -/
theorem WorkerMove.lowers (h : WorkerMove p w p') (hp : p.Attends calls tasks)
    (hlooking : p'.workers w ≠ .looking) :
    p'.rest calls tasks + (p'.workers w).rank < p.rest calls tasks + (p.workers w).rank := by
  have hset : ∀ {p : StealThreadPool n} {s : Worker n}, (p.setWorker w s).rest calls tasks =
      p.rest calls tasks := rfl
  have hworker : ∀ {p : StealThreadPool n} {s : Worker n}, (p.setWorker w s).workers w = s :=
    Function.update_self ..
  cases h with
  | pop hw hq =>
    have hcall : _ = _ + 5 := rest_call hp hq (hp.worker w)
    rw [hset, hworker, hcall, hw]
    simp only [Worker.rank]
    omega
  | @steal i q hw hq =>
    have hcall : _ = _ + 1 := rest_call hp hq (hp.worker w)
    rw [hset, hworker, hcall, hw]
    simp only [Worker.rank]
    omega
  | popped hw | stolen hw | popMissed hw =>
    rw [hset, hworker, hw]
    simp only [Worker.rank]
    omega
  | skip hw =>
    have := w.isLt
    rw [hset, hworker, hw]
    simp only [Worker.rank]
    omega
  | @stealMissed i hw =>
    have := i.isLt
    rw [hset, hworker, hw]
    simp only [Worker.rank]
    omega
  | giveUp | execute => exact absurd hworker hlooking

theorem WorkerMove.executed_eq (h : WorkerMove p w p') (hlooking : p'.workers w ≠ .looking) :
    p'.executed = p.executed := by
  cases h with
  | execute => exact absurd (Function.update_self ..) hlooking
  | _ => rfl

/-- So do the submissions, and the calls in progress. -/
theorem outer_lowers [NeZero n] (h : p.step e = some p') (hp : p.Attends calls tasks)
    (hload : ∀ task, e ≠ .load task) (hworker : ∀ w, e ≠ .worker w)
    (hinner : ∀ i f, e = .queue i f → f.Inner) :
    p'.Attends calls tasks ∧ p'.rest calls tasks < p.rest calls tasks := by
  cases stepMove_of_step h with
  | load => exact absurd rfl (hload _)
  | @store task index hloaded =>
    have hbusy : (p.submissions task).isBusy = true := by rw [hloaded]; rfl
    have hindex : ({ p with m_atm_index := index } : StealThreadPool n).Attends calls tasks :=
      ⟨hp.covered, hp.submissions, hp.worker, hp.submitter, hp.destructor⟩
    have hsame : ({ p with m_atm_index := index } : StealThreadPool n).rest calls tasks =
      p.rest calls tasks := rfl
    have hrest := rest_setSubmission (.stored index) hindex hbusy
    rw [hloaded] at hrest
    simp only [Submission.rank] at hrest
    exact ⟨hindex.setSubmission hbusy, by omega⟩
  | @push task index q hstored hq =>
    have hbusy : (p.submissions task).isBusy = true := by rw [hstored]; rfl
    have hmem := hp.submitter task (hp.submissions.mem task hbusy)
    have hcalled := hp.call hq hmem
    have hcall : _ = _ + 10 := rest_call hp hq hmem
    have hrest := rest_setSubmission (.pushing index) hcalled hbusy
    have hsubmissions : (p.setQueue index q).submissions task = .stored index := hstored
    rw [hsubmissions, hcall] at hrest
    simp only [Submission.rank] at hrest
    exact ⟨hcalled.setSubmission hbusy, by omega⟩
  | worker => exact absurd rfl (hworker _)
  | @queue i f q _ hq =>
    have hf := hinner i f rfl
    exact ⟨hp.setQueue ((ConcurrentQueue.move_of_step hq).covered hf.ne_call (hp.covered i)),
      rest_queue_lt hp hq hf⟩

/-- Finitely many threads have called, and finitely many tasks are being submitted. -/
structure Finite (p : StealThreadPool n) : Prop where
  calls : ∃ calls, ∀ i, Covered ConcurrentQueue.Pc.isBusy (p.m_thread_work_ques i).threads calls
  tasks : ∃ tasks, Covered Submission.isBusy p.submissions tasks

theorem finite_initial : ({} : StealThreadPool n).Finite :=
  ⟨⟨[], fun _ => ⟨List.nodup_nil, nofun⟩⟩, [], List.nodup_nil, nofun⟩

theorem Finite.call {tid : Tid} {c : ConcurrentQueue.Call Task} (hp : p.Finite)
    (hq : (p.m_thread_work_ques i).step (.call tid c) = some q) : (p.setQueue i q).Finite := by
  obtain ⟨-, rfl⟩ := ConcurrentQueue.call_eq hq
  obtain ⟨calls, hcalls⟩ := hp.calls
  obtain ⟨calls', hnodup, hsub, hmem⟩ := exists_nodup calls [tid]
  have hcalls' := fun i => (hcalls i).superset hnodup hsub
  refine ⟨⟨calls', ?_⟩, hp.tasks⟩
  exact (forall_update_iff_of_forall (P := fun q : ConcurrentQueue Task =>
    Covered ConcurrentQueue.Pc.isBusy q.threads calls') hcalls').mpr
      ((hcalls' i).update_of_mem (hmem tid List.mem_cons_self))

theorem Move.finite (h : Move p p') (hp : p.Finite) : p'.Finite := by
  obtain ⟨tasks, htasks⟩ := hp.tasks
  cases h with
  | submission => exact ⟨hp.calls, htasks.exists_update _ _⟩
  | push _ hq => exact ⟨(hp.call hq).calls, htasks.exists_update _ _⟩
  | ask _ _ _ hq => exact ⟨(hp.call hq).calls, hp.tasks⟩
  | @queue i f r hf hq =>
    obtain ⟨calls, hcalls⟩ := hp.calls
    refine ⟨⟨calls, ?_⟩, hp.tasks⟩
    exact (forall_update_iff_of_forall (P := fun q : ConcurrentQueue Task =>
      Covered ConcurrentQueue.Pc.isBusy q.threads calls) hcalls).mpr
        ((ConcurrentQueue.move_of_step hq).covered (ne_call_of_isCall hf) (hcalls i))
  | turn | got | missed | execute => exact ⟨hp.calls, hp.tasks⟩

theorem Finite.exists_attends (hp : p.Finite) : ∃ calls tasks, p.Attends calls tasks := by
  obtain ⟨calls, hcalls⟩ := hp.calls
  obtain ⟨tasks, htasks⟩ := hp.tasks
  obtain ⟨calls', hnodup, hsub, hmem⟩ := exists_nodup calls
    (n :: (List.finRange n).map (↑) ++ tasks.map (n + ·))
  refine ⟨calls', tasks, fun i => (hcalls i).superset hnodup hsub, htasks, fun w => ?_,
    fun task htask => ?_, ?_⟩
  · exact hmem w (by simp)
  · exact hmem _ (by simp [htask])
  · exact hmem n (by simp)

end

namespace Lifetime

variable {n : Nat}

/-- A step of a worker, of the destructor, of a submission in progress, or of a call in progress
on a queue. -/
def Event.Closing : Event n → Prop
  | .pool (.load _) => False
  | .pool (.queue _ e) => e.Inner
  | .pool _ | .worker _ | .destructor => True

def share (p : Lifetime n) (w : Fin n) : Nat := (p.loops w).rank (p.pool.workers w).rank

def toDo (calls : List Tid) (tasks : List Task) (p : Lifetime n) : Nat :=
  p.pool.rest calls tasks + (∑ w, p.share w) + p.destructor.rank calls.length

/-- The destructor has begun. -/
structure Ending [NeZero n] (calls : List Tid) (tasks : List Task) (p : Lifetime n) : Prop where
  sane : p.Sane
  m_done : p.m_done = true
  attends : p.pool.Attends calls tasks

/-- One worker goes on, and has less to do then. -/
theorem toDo_lt {p p' : Lifetime n} {calls : List Tid} {tasks : List Task} (w : Fin n)
    (hothers : ∀ v, v ≠ w → p'.loops v = p.loops v ∧ p'.pool.workers v = p.pool.workers v)
    (hdestructor : p'.destructor = p.destructor)
    (hlt : p'.pool.rest calls tasks + p'.share w < p.pool.rest calls tasks + p.share w) :
    p'.toDo calls tasks < p.toDo calls tasks := by
  have hsum : (∑ v, p'.share v) + p.share w = (∑ v, p.share v) + p'.share w :=
    Bag.sum_change w fun v hv => by simp only [share, hothers v hv]
  simp only [toDo, hdestructor]
  omega

section

variable [NeZero n] {p p' : Lifetime n} {w i : Fin n} {e : Event n} {calls : List Tid}
  {tasks : List Task}

theorem Move.m_done_mono (h : Move p e p') (hp : p.m_done = true) : p'.m_done = true := by
  cases h with
  | begin => rfl
  | backOff => simpa [setLoop] using hp
  | _ => exact hp

theorem Ending.outside (hp : p.Ending calls tasks) : p.destructor ≠ .outside := by
  intro hd
  have hdone := hp.sane.m_done.mpr hd
  rw [hp.m_done] at hdone
  cases hdone

theorem Move.lowers (h : Move p e p') (he : e.Closing) (hp : p.Ending calls tasks) :
    p'.pool.Attends calls tasks ∧ p'.toDo calls tasks < p.toDo calls tasks := by
  have hattends := hp.attends
  cases h with
  | @outer e pool hout hpool =>
    have hpool' := outer_lowers hpool hattends (by rintro task rfl; exact he)
      (by rintro w rfl; cases hout) (by rintro i f rfl; exact he)
    refine ⟨hpool'.1, ?_⟩
    have hshare : (∑ w, share { p with pool := pool } w) = ∑ w, p.share w := by
      simp only [share, (workers_of_isOuter hpool hout).1]
    simp only [toDo, hshare]
    have := hpool'.2
    omega
  | enter _ hdone => cases hdone.symm.trans hp.m_done
  | @leave w hw =>
    refine ⟨hattends, toDo_lt w (fun v hv => ⟨Function.update_of_ne hv .., rfl⟩) rfl ?_⟩
    simp [share, setLoop, hw, Loop.rank]
  | @search w pool hw hpool hne =>
    have hmove := workerMove_of_workerThread hpool
    refine ⟨hmove.attends hattends,
      toDo_lt w (fun v hv => ⟨rfl, (hmove.frame hv).1⟩) rfl ?_⟩
    simp only [share, hw, Loop.rank]
    exact hmove.lowers hattends hne
  | @fail w i pool hw hsearching hi hpool =>
    have hmove := workerMove_of_workerThread hpool
    have hrest : pool.rest calls tasks = p.pool.rest calls tasks := by
      rw [hmove.eq_of_searching hsearching hi]
      rfl
    refine ⟨hmove.attends hattends,
      toDo_lt w (fun v hv => ⟨Function.update_of_ne hv .., (hmove.frame hv).1⟩) rfl ?_⟩
    simp [share, setLoop, hw, hsearching, hrest, Loop.rank, Worker.rank]
  | @execute w task pool hw hholding hpool =>
    have hmove := workerMove_of_workerThread hpool
    have hrest : pool.rest calls tasks = p.pool.rest calls tasks := by
      rw [hmove.eq_of_holding hholding]
      rfl
    refine ⟨hmove.attends hattends,
      toDo_lt w (fun v hv => ⟨Function.update_of_ne hv .., (hmove.frame hv).1⟩) rfl ?_⟩
    simp [share, setLoop, reset, hw, hholding, hrest, Loop.rank, Worker.rank]
  | @backOff w hw =>
    refine ⟨by simpa [setLoop] using hattends, toDo_lt w (fun v hv => ?_) ?_ ?_⟩
    · simp [setLoop, Function.update_of_ne hv]
    · simp [setLoop]
    · simp [share, setLoop, hw, Loop.rank]
  | begin hd => exact absurd hd hp.outside
  | @exit i q hd hq =>
    have hrest : _ = _ + (5 * calls.length + 2) := rest_call hattends hq hattends.destructor
    have hleft : n - i = n - (i + 1) + 1 := by
      have := i.isLt
      omega
    refine ⟨hattends.call hq hattends.destructor, ?_⟩
    have hshare : (∑ w, share { p with
        pool := p.pool.setQueue i q, destructor := .inExit i } w) = ∑ w, p.share w := rfl
    simp only [toDo, hrest, hshare, hd, Destructor.rank, hleft, Nat.succ_mul]
    omega
  | exited hd _ | allExited hd _ | joined hd _ =>
    refine ⟨hattends, Nat.add_lt_add_left ?_ _⟩
    simp only [hd, Destructor.rank]
    omega

theorem Move.ending (h : Move p e p') (he : e.Closing) (hp : p.Ending calls tasks) :
    p'.Ending calls tasks :=
  ⟨h.sane hp.sane, h.m_done_mono hp.m_done, (h.lowers he hp).1⟩

theorem descends (calls : List Tid) (tasks : List Task) :
    Descends (step (n := n)) Event.Closing (Ending calls tasks) (toDo calls tasks) where
  keeps _ _ _ hst he hp := (move_of_step hst).ending he hp
  lowers _ _ _ hst he hp := ((move_of_step hst).lowers he hp).2

theorem Move.finite (h : Move p e p') (hp : p.pool.Finite) : p'.pool.Finite := by
  cases h with
  | outer _ hpool | search _ hpool | fail _ _ _ hpool | execute _ _ hpool =>
    exact (StealThreadPool.move_of_step hpool).finite hp
  | exit _ hq => exact hp.call hq
  | enter | leave | backOff | begin | exited | allExited | joined => simpa [setLoop] using hp

theorem exists_ending {es : List (Event n)} (h : run step {} es = some p)
    (hdone : p.m_done = true) : ∃ calls tasks, p.Ending calls tasks := by
  have hfinite : p.pool.Finite :=
    run_preserves (I := fun p : Lifetime n => p.pool.Finite)
      (fun _ _ _ hst => (move_of_step hst).finite) h finite_initial
  obtain ⟨calls, tasks, hattends⟩ := hfinite.exists_attends
  exact ⟨calls, tasks, sane_of_run h, hdone, hattends⟩

/-! ## What is still executed -/

/-- A worker that has left its loop does not execute any more. -/
theorem Move.executed_le (h : Move p e p') (hdone : p.m_done = true) :
    p'.pool.executed.length + ∑ w, (p'.loops w).inner ≤
      p.pool.executed.length + ∑ w, (p.loops w).inner := by
  have hset : ∀ (w : Fin n) (s : Loop),
      (∑ v, (Function.update p.loops w s v).inner) + (p.loops w).inner =
        (∑ v, (p.loops v).inner) + s.inner := by
    intro w s
    have hsum := Bag.sum_change (f := fun v => (Function.update p.loops w s v).inner)
      (g := fun v => (p.loops v).inner) w fun v hv => by rw [Function.update_of_ne hv]
    simpa only [Function.update_self] using hsum
  cases h with
  | outer hout hpool =>
    rw [(workers_of_isOuter hpool hout).2]
  | enter _ hopen => cases hopen.symm.trans hdone
  | @leave w hw =>
    have hsum : _ = _ + 0 := hset w .returned
    simp only [setLoop]
    omega
  | search _ hpool hne =>
    rw [(workerMove_of_workerThread hpool).executed_eq hne]
  | @fail w i pool _ hsearching hi hpool =>
    have hsum : _ = _ + 0 := hset w .failed
    rw [(workerMove_of_workerThread hpool).eq_of_searching hsearching hi]
    simp only [setLoop, setWorker]
    omega
  | @execute w task pool hw hholding hpool =>
    have hsum : _ = _ + 0 := hset w .testing
    have hinner : (p.loops w).inner = 1 := by rw [hw]; rfl
    rw [(workerMove_of_workerThread hpool).eq_of_holding hholding]
    simp only [setLoop, reset, setWorker, List.length_append, List.length_singleton]
    omega
  | @backOff w hw =>
    have hsum : _ = _ + 0 := hset w .testing
    simp only [setLoop, backOff_loops, backOff_pool]
    omega
  | begin | exit | exited | allExited | joined => exact Nat.le_refl _

theorem executed_le_of_run {fs : List (Event n)} (h : run step p fs = some p')
    (hdone : p.m_done = true) :
    p'.pool.executed.length ≤ p.pool.executed.length + n := by
  have hinner : (∑ w, (p.loops w).inner) ≤ n := by
    calc
      _ ≤ ∑ _w : Fin n, 1 := by
        refine Finset.sum_le_sum fun w _ => ?_
        cases p.loops w <;> simp [Loop.inner]
      _ = n := by simp
  have hle := (run_preserves (I := fun q : Lifetime n => q.m_done = true ∧
      q.pool.executed.length + ∑ w, (q.loops w).inner ≤
        p.pool.executed.length + ∑ w, (p.loops w).inner)
    (fun _ _ _ hst hq => ⟨(move_of_step hst).m_done_mono hq.1,
      ((move_of_step hst).executed_le hq.1).trans hq.2⟩) h ⟨hdone, Nat.le_refl _⟩).2
  omega

/-! ## Where the steps come to an end -/

theorem quiet_queue (h : Quiet step Event.Closing p) (i : Fin n) :
    Quiet ConcurrentQueue.step ConcurrentQueue.Event.Inner (p.pool.m_thread_work_ques i) := by
  intro e he
  have hnone := h (.pool (.queue i e)) he
  cases e with
  | call => cases he
  | _ =>
    simp only [step, isOuter, if_true, Option.map_eq_none_iff, StealThreadPool.step, isCall,
      Bool.false_eq_true, if_false, Option.bind_eq_bind, Option.bind_eq_none_iff] at hnone
    exact Option.eq_none_iff_forall_ne_some.mpr fun q hq => by cases hnone q hq

/-- No call on a queue is in progress. -/
theorem Sane.isIdle (hp : p.Sane) (hquiet : Quiet step Event.Closing p) (i : Fin n) (tid : Tid) :
    ((p.pool.m_thread_work_ques i).threads tid).isIdle = true := by
  obtain ⟨cells, hs⟩ := hp.working.polling.sound i
  have hwaitless := hp.working.waitless.queues i
  refine (hs.rests (quiet_queue hquiet i) tid).resolve_right fun hblocked => ?_
  by_cases htid : tid = n
  · subst htid
    have hexits := hwaitless.exits
    cases hpc : (p.pool.m_thread_work_ques i).threads tid <;>
      simp_all [ConcurrentQueue.Pc.exits, ConcurrentQueue.Pc.isBlocked]
  · have hothers := hwaitless.others tid htid
    cases hpc : (p.pool.m_thread_work_ques i).threads tid <;>
      simp_all [ConcurrentQueue.Pc.waitless, ConcurrentQueue.Pc.isBlocked]

/-- A worker inside its loop goes on. -/
theorem Sane.goes (hp : p.Sane) (hquiet : Quiet step Event.Closing p) (w : Fin n) :
    (p.pool.workerThread w (p.pool.workers w)).isSome = true := by
  have hidle := fun i => hp.isIdle hquiet i w
  have hreturned : ∀ i, (p.pool.workers w).asks w = some i →
      ∃ v, (p.pool.m_thread_work_ques i).threads w = .returned v := by
    intro i hasks
    have hpolls := hp.working.polling.polls w i hasks
    have hi := hidle i
    cases hpc : (p.pool.m_thread_work_ques i).threads w with
    | returned v => exact ⟨v, rfl⟩
    | _ => simp_all [ConcurrentQueue.Pc.polls, ConcurrentQueue.Pc.isIdle]
  cases hw : p.pool.workers w with
  | looking => simp [workerThread, ConcurrentQueue.step, hidle w]
  | popping =>
    obtain ⟨v, hv⟩ := hreturned w (by rw [hw]; rfl)
    cases v <;> simp [workerThread, hv]
  | searching i =>
    by_cases hi : i < n
    · by_cases hself : i = w
      · simp [workerThread, hself]
      · simp [workerThread, hi, hself, ConcurrentQueue.step, hidle ⟨i, hi⟩]
    · simp [workerThread, hi]
  | stealing i =>
    obtain ⟨v, hv⟩ := hreturned i (by rw [hw]; rfl)
    cases v <;> simp [workerThread, hv]
  | holding task => rfl

theorem Sane.returned (hp : p.Sane) (hquiet : Quiet step Event.Closing p) (w : Fin n) :
    p.loops w = .returned := by
  have hstuck : p.loopStep w (p.loops w) = none := hquiet (.worker w) trivial
  cases hl : p.loops w with
  | testing | failed => simp [hl, loopStep] at hstuck
  | returned => rfl
  | inside =>
    obtain ⟨pool, hpool⟩ := Option.isSome_iff_exists.mp (hp.goes hquiet w)
    simp only [hl, loopStep, hpool, Option.bind_eq_bind, Option.bind_some] at hstuck
    cases hw : p.pool.workers w <;> simp [hw] at hstuck

theorem Sane.joined (hp : p.Sane) (hquiet : Quiet step Event.Closing p) :
    p.destructor = .returned := by
  have hstuck : p.destructorStep p.destructor = none := hquiet .destructor trivial
  cases hd : p.destructor with
  | outside => simp [hd, destructorStep] at hstuck
  | exiting i =>
    by_cases hi : i < n
    · simp [hd, destructorStep, hi, ConcurrentQueue.step, hp.isIdle hquiet ⟨i, hi⟩ n] at hstuck
    · simp [hd, destructorStep, hi] at hstuck
  | inExit i => simp [hd, destructorStep, hp.isIdle hquiet i n] at hstuck
  | joining => simp [hd, destructorStep, hp.returned hquiet] at hstuck
  | returned => rfl

/-- A submission that has begun has come to its end. -/
theorem Sane.submitted (hp : p.Sane) (hquiet : Quiet step Event.Closing p) (task : Task) :
    p.pool.submitted task = true ↔ p.pool.submissions task ≠ .fresh := by
  cases hs : p.pool.submissions task with
  | fresh => simp [StealThreadPool.submitted, hs]
  | loaded index =>
    have hstuck := hquiet (.pool (.store task)) trivial
    simp [step, isOuter, StealThreadPool.step, hs] at hstuck
  | stored index =>
    have hstuck := hquiet (.pool (.push task)) trivial
    simp [step, isOuter, StealThreadPool.step, hs, ConcurrentQueue.step,
      hp.isIdle hquiet index (n + task)] at hstuck
  | pushing i =>
    have hcarried := ConcurrentQueue.Pc.carried_of_isIdle (hp.isIdle hquiet i (n + task))
    simp [StealThreadPool.submitted, hs, linked, hcarried]

end

/-- Once the destructor has set `m_done`: as soon as no more tasks are submitted, the steps of the
pool come to an end, however they are chosen; where they do, the body of the destructor has
returned, the workers have together executed at most as many more tasks as there are workers, and
each task is once in one of the queues, and destroyed with it, or executed. -/
theorem joins_once_done [NeZero n] {p : Lifetime n} {es : List (Event n)}
    (h : run step {} es = some p) (hdone : p.m_done = true) :
    ((∃ bound, ∀ fs q, run step p fs = some q → (∀ f ∈ fs, f.Closing) → fs.length ≤ bound) ∧
      ∃ fs q, run step p fs = some q ∧ (∀ f ∈ fs, f.Closing) ∧ Quiet step Event.Closing q) ∧
    ∀ fs q, run step p fs = some q → Quiet step Event.Closing q →
      q.destructor = .returned ∧
      q.pool.executed.length ≤ p.pool.executed.length + n ∧
      ∃ cells : Fin n → List (Addr × Task),
        (∀ i, (q.pool.m_thread_work_ques i).Holds (cells i)) ∧
        ∀ task, (∑ i, ((cells i).map Prod.snd).count task) + q.pool.executed.count task =
          if q.pool.submissions task = .fresh then 0 else 1 := by
  obtain ⟨calls, tasks, hending⟩ := exists_ending h hdone
  refine ⟨(descends calls tasks).ends hending, fun fs q hrun hquiet => ?_⟩
  have hq : q.Sane := sane_of_run (run_append_eq_some.mpr ⟨p, h, hrun⟩)
  refine ⟨hq.joined hquiet, executed_le_of_run hrun hdone, ?_⟩
  obtain ⟨cells, hcells, hcount⟩ := hq.working.each_once
  refine ⟨cells, hcells, fun task => ?_⟩
  -- a worker that has returned has nothing in its wrapper
  have hwrapper : ∀ w, q.pool.wrapper w = none := fun w => by
    have hlooking := hq.looking w (by simp [hq.returned hquiet w])
    exact wrapper_of_isFree (by rw [hlooking]; rfl)
  have htask := hcount task
  simp only [hwrapper, Option.toList_none, List.count_nil, Finset.sum_const_zero,
    Nat.add_zero] at htask
  rw [htask]
  by_cases hfresh : q.pool.submissions task = .fresh
  · have hnot : q.pool.submitted task = false := by
      simpa [hfresh] using (hq.submitted hquiet task).not
    simp [hfresh, hnot]
  · simp [hfresh, (hq.submitted hquiet task).mpr hfresh]

theorem joins_once_done_holding : ∃ p : Lifetime 1, run step {} (taskAtTheEnd 0) = some p ∧
    p.m_done = true ∧ p.pool.wrapper 0 = some 1 ∧
    ∃ bound, ∀ fs q, run step p fs = some q → (∀ f ∈ fs, f.Closing) → fs.length ≤ bound := by
  have h : run step ({} : Lifetime 1) (taskAtTheEnd 0) = some _ := rfl
  exact ⟨_, h, rfl, rfl, (joins_once_done h rfl).1.1⟩

end Lifetime

end NBRaft.Concurrency.StealThreadPool
