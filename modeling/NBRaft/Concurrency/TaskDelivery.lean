import Mathlib.Algebra.Order.BigOperators.Group.Finset
import NBRaft.Concurrency.QueueLoad
import NBRaft.Concurrency.TaskOrder

/-!
# The workers get their tasks done

A worker of `ParrallenThreadPool` waits on its own queue, and on no other. When no more tasks are
submitted the steps of the pool come to an end, and by then each task has been executed by the
worker that it was given to, unless that has lost a wake-up of its queue. Also the destructor,
which wakes them all, comes to an end, and returns unless some worker has lost its wake-up.
-/

namespace NBRaft.Concurrency.ParrallenThreadPool

open Transition Threads Conversions

variable {n : Nat}

/-- A step of a worker, of a submission in progress, or of a call in progress on a queue. -/
def Event.Inner : Event n → Prop
  | .store _ | .push _ | .worker _ => True
  | .queue _ e => e.Inner
  | .load _ | .destructor => False

/-- One of these, or a step of the destructor. -/
def Event.Closing : Event n → Prop
  | .store _ | .push _ | .worker _ | .destructor => True
  | .queue _ e => e.Inner
  | .load _ => False

/-- The destructor has called `Exit` on this queue. -/
def Destructor.hasExited (i : Fin n) : Destructor n → Prop
  | .outside => False
  | .exiting j => i < j
  | .inExit j => i ≤ j
  | .joining | .returned => True

/-- What the workers wait for comes, and tells them to stop only once. -/
structure Steady (p : ParrallenThreadPool n) : Prop where
  kept : ∀ i, p.Kept i
  m_done : p.m_done = false ↔ p.destructor = .outside
  isOpen : p.destructor = .outside → ∀ i, (p.m_thread_work_ques i).Open
  awaits : ∀ w, p.workers w = .popping →
    ((p.m_thread_work_ques w).threads w).awaits p.m_done = true
  returned : ∀ w, p.workers w = .returned → p.m_done = true
  stops : ∀ i, p.destructor.hasExited i →
    (p.m_thread_work_ques i).m_bstop = true ∨ (p.m_thread_work_ques i).threads n = .exitStore
  joined : p.destructor = .returned → ∀ w, p.workers w = .returned

theorem steady_initial : ({} : ParrallenThreadPool n).Steady where
  kept := kept_initial
  m_done := iff_of_true rfl rfl
  isOpen _ _ := ⟨rfl, fun _ => rfl⟩
  awaits := nofun
  returned := nofun
  stops := nofun
  joined := nofun

section

variable {p p' : ParrallenThreadPool n} {w i : Fin n} {task : Task} {q : ConcurrentQueue Task}
  {e : Event n}

theorem worker_ne_destructor (w : Fin n) : (w : Tid) ≠ n := Nat.ne_of_lt w.isLt

theorem submitter_ne_destructor (task : Task) : n + 1 + task ≠ n := by omega

/-- Only the destructor's own steps take it further. -/
theorem Move.destructor_outside (h : Move p e p') (hd : p'.destructor = .outside) :
    p.destructor = .outside := by
  cases h with
  | begin | exit | exited | allExited | joined => cases hd
  | _ => exact hd

theorem Move.m_done_iff (h : Move p e p') (hp : p.Steady) :
    p'.m_done = false ↔ p'.destructor = .outside := by
  have hset : p.destructor ≠ .outside → ∀ {d : Destructor n}, d ≠ .outside →
      (p.m_done = false ↔ d = .outside) :=
    fun hne _ hd => iff_of_false (fun h => hne (hp.m_done.mp h)) hd
  cases h with
  | begin => exact iff_of_false nofun nofun
  | exit hd | exited hd | allExited hd | joined hd => exact hset (by rw [hd]; nofun) nofun
  | _ => exact hp.m_done

theorem Move.isOpen (h : Move p e p') (hp : p.Steady) (hd : p'.destructor = .outside) :
    ∀ i, (p'.m_thread_work_ques i).Open := by
  have hopen := hp.isOpen (h.destructor_outside hd)
  cases h with
  | push _ _ hq | pop _ _ hq =>
    exact (forall_update_iff_of_forall hopen).mpr
      ((ConcurrentQueue.move_of_step hq).open (by simp) (hopen _))
  | queue he hq =>
    exact (forall_update_iff_of_forall hopen).mpr
      ((ConcurrentQueue.move_of_step hq).open (fun tid => he tid _) (hopen _))
  | begin | exit | exited | allExited | joined => cases hd
  | _ => exact hopen

/-- A queue is stopped only when `m_done` is set. -/
theorem Steady.m_done_of_m_bstop (hp : p.Steady) (hstop : (p.m_thread_work_ques i).m_bstop = true) :
    p.m_done = true := by
  by_contra hdone
  have hopen := hp.isOpen (hp.m_done.mp (by simpa using hdone)) i
  cases hopen.m_bstop.symm.trans hstop

theorem Move.awaits (h : Move p e p') (hp : p.Steady) (w : Fin n)
    (hw : p'.workers w = .popping) :
    ((p'.m_thread_work_ques w).threads w).awaits p'.m_done = true := by
  have hawaits := hp.awaits
  -- the queue of another worker, or none, goes on
  have hqueue : ∀ {i : Fin n} {q : ConcurrentQueue Task}, p.workers w = .popping →
      (w = i → (q.threads w).awaits p.m_done = true) →
        ((p.setQueue i q).m_thread_work_ques w |>.threads w).awaits p.m_done = true := by
    intro i q hw hq
    by_cases hi : w = i
    · subst hi
      simp only [setQueue, Function.update_self]
      exact hq rfl
    · simp only [setQueue, Function.update_of_ne hi]
      exact hawaits w hw
  -- another worker goes on
  have hworker : ∀ {v : Fin n} {s : Worker}, (p.setWorker v s).workers w = .popping →
      s ≠ .popping → p.workers w = .popping :=
    fun hw hs => of_update (P := (· = Worker.popping)) hs hw
  cases h with
  | @push task _ i q _ _ hq =>
    refine hqueue hw fun hi => ?_
    subst hi
    rw [threads_of_call hq (submitter_ne_worker task w).symm]
    exact hawaits w hw
  | @pop v q _ _ hq =>
    by_cases hv : w = v
    · subst hv
      obtain ⟨-, rfl⟩ := ConcurrentQueue.call_eq hq
      simp only [setQueue, setWorker, Function.update_self, ConcurrentQueue.goto]
      rfl
    · refine hqueue ?_ fun hi => absurd hi hv
      simpa only [setWorker, setQueue, Function.update_of_ne hv] using hw
  | @queue i e r he hq =>
    refine hqueue hw fun hi => ?_
    subst hi
    exact ConcurrentQueue.awaits_step hq he hp.m_done_of_m_bstop (hawaits w hw)
  | leave | got | missed | execute => exact hawaits w (hworker hw (by simp))
  | begin hd =>
    have hw := hawaits w hw
    rw [hp.m_done.mpr hd] at hw
    exact ConcurrentQueue.Pc.awaits_mono hw
  | exit _ hq =>
    refine hqueue hw fun hi => ?_
    subst hi
    rw [threads_of_call hq (worker_ne_destructor w)]
    exact hawaits w hw
  | load | store | exited | allExited | joined => exact hawaits w hw

/-- Before the destructor begins no pop returns without a task. -/
theorem Steady.m_done_of_missed (hp : p.Steady) (hw : p.workers w = .popping)
    (hpc : (p.m_thread_work_ques w).threads w = .returned none) : p.m_done = true := by
  have hawaits := hp.awaits w hw
  rw [hpc] at hawaits
  simpa [ConcurrentQueue.Pc.awaits] using hawaits

theorem Move.returned (h : Move p e p') (hp : p.Steady) (w : Fin n)
    (hw : p'.workers w = .returned) : p'.m_done = true := by
  have hworker : ∀ {v : Fin n} {s : Worker}, (p.setWorker v s).workers w = .returned →
      s ≠ .returned → p.workers w = .returned :=
    fun hw hs => of_update (P := (· = Worker.returned)) hs hw
  cases h with
  | leave _ hdone => exact hdone
  | begin => rfl
  | pop | got | missed | execute => exact hp.returned w (hworker hw (by simp))
  | _ => exact hp.returned w hw

theorem Move.stops (h : Move p e p') (hp : p.Steady) (i : Fin n)
    (hi : p'.destructor.hasExited i) :
    (p'.m_thread_work_ques i).m_bstop = true ∨
      (p'.m_thread_work_ques i).threads n = .exitStore := by
  -- the queue that goes on, and a thread of it that is not the destructor's
  have hcall : ∀ {j : Fin n} {tid : Tid} {c : ConcurrentQueue.Call Task}
      {q : ConcurrentQueue Task}, p.destructor.hasExited i → tid ≠ n →
      (p.m_thread_work_ques j).step (.call tid c) = some q →
        ((p.setQueue j q).m_thread_work_ques i).m_bstop = true ∨
          ((p.setQueue j q).m_thread_work_ques i).threads n = .exitStore := by
    intro j tid c q hi htid hq
    by_cases hj : i = j
    · subst hj
      simp only [setQueue, Function.update_self]
      rw [threads_of_call hq htid.symm]
      obtain ⟨-, rfl⟩ := ConcurrentQueue.call_eq hq
      exact hp.stops i hi
    · simp only [setQueue, Function.update_of_ne hj]
      exact hp.stops i hi
  cases h with
  | push _ _ hq => exact hcall hi (submitter_ne_destructor _) hq
  | pop _ _ hq => exact hcall hi (worker_ne_destructor _) hq
  | @queue j e r he hq =>
    by_cases hj : i = j
    · subst hj
      simp only [setQueue, Function.update_self]
      exact (ConcurrentQueue.move_of_step hq).stops he (hp.stops i hi)
    · simp only [setQueue, Function.update_of_ne hj]
      exact hp.stops i hi
  | begin => exact absurd hi (Nat.not_lt_zero _)
  | @exit j q hd hq =>
    by_cases hj : i = j
    · subst hj
      obtain ⟨-, rfl⟩ := ConcurrentQueue.call_eq hq
      simp only [setQueue, Function.update_self, ConcurrentQueue.goto]
      exact .inr rfl
    · simp only [setQueue, Function.update_of_ne hj]
      refine hp.stops i ?_
      rw [hd]
      exact Nat.lt_of_le_of_ne hi fun heq => hj (Fin.ext heq)
  | exited hd _ =>
    refine hp.stops i ?_
    rw [hd]
    exact Nat.le_of_lt_succ hi
  | allExited hd hn =>
    refine hp.stops i ?_
    rw [hd]
    exact Nat.lt_of_lt_of_le i.isLt hn
  | joined hd _ =>
    refine hp.stops i ?_
    rw [hd]
    trivial
  | load | store | leave | got | missed | execute => exact hp.stops i hi

theorem Move.steady (h : Move p e p') (hp : p.Steady) : p'.Steady where
  kept := h.kept hp.kept
  m_done := h.m_done_iff hp
  isOpen := h.isOpen hp
  awaits := h.awaits hp
  returned := h.returned hp
  stops := h.stops hp
  joined := h.joins hp.joined

/-! ## The steps come to an end -/

/-- The steps that a worker may take before it asks for another task, with this task given to it.
Once `m_done` is set it may still have to come back from `wait_and_pop` without one. -/
def Worker.rank (m_done : Bool) (value : Option Task) : Worker → Nat
  | .testing => 7
  | .popping => if value.isSome then 9 else if m_done then 8 else 1
  | .holding _ => 8
  | .returned => 0

/-- The steps of a submission, with those of its `push` and of the task in the queue. -/
def Submission.rank : Submission n → Nat
  | .fresh | .pushing _ => 0
  | .stored _ => 19
  | .loaded _ => 20

/-- The steps of the destructor, where `Exit` notifies so many threads, with those that it gives to
the workers. -/
def Destructor.rank (threads : Nat) : Destructor n → Nat
  | .outside => 7 * n + n * (5 * threads + 4) + 3
  | .exiting i => (n - i) * (5 * threads + 4) + 2
  | .inExit i => (n - (i + 1)) * (5 * threads + 4) + 3
  | .joining => 1
  | .returned => 0

/-- What is left to do for a worker and in its queue, where a task is one more round of the loop. -/
def share (calls : List Tid) (p : ParrallenThreadPool n) (i : Fin n) : Nat :=
  (p.m_thread_work_ques i).load 8 calls +
    (p.workers i).rank p.m_done ((p.m_thread_work_ques i).threads i).value

def toDo (calls : List Tid) (tasks : List Task) (p : ParrallenThreadPool n) : Nat :=
  (∑ i, p.share calls i) + work Submission.rank p.submissions tasks +
    p.destructor.rank calls.length

def Submission.isBusy : Submission n → Bool
  | .loaded _ | .stored _ => true
  | .fresh | .pushing _ => false

/-- The first list names the threads that have called, or may do so; the second the tasks that are
being submitted. -/
structure Attends (calls : List Tid) (tasks : List Task) (p : ParrallenThreadPool n) : Prop where
  covered : ∀ i, Covered ConcurrentQueue.Pc.isBusy (p.m_thread_work_ques i).threads calls
  submissions : Covered Submission.isBusy p.submissions tasks
  worker : ∀ w : Fin n, (w : Tid) ∈ calls
  submitter : ∀ task ∈ tasks, n + 1 + task ∈ calls
  destructor : n ∈ calls

variable {calls : List Tid} {tasks : List Task}

/-- One worker and its queue go on. -/
theorem sum_share_lt (i : Fin n) (hothers : ∀ j, j ≠ i → p'.share calls j = p.share calls j)
    (hself : p'.share calls i < p.share calls i) :
    (∑ j, p'.share calls j) < ∑ j, p.share calls j := by
  have hsum := Bag.sum_change i hothers
  omega

/-- A call is made on one queue. -/
theorem sum_share_call {tid : Tid} {c : ConcurrentQueue.Call Task} (i : Fin n)
    (hq : (p.m_thread_work_ques i).step (.call tid c) = some q)
    (hcalls : Covered ConcurrentQueue.Pc.isBusy (p.m_thread_work_ques i).threads calls)
    (htid : tid ∈ calls) (hi : tid ≠ i) :
    (∑ j, (p.setQueue i q).share calls j) = (∑ j, p.share calls j) +
      (ConcurrentQueue.enter c).rank calls.length + 8 * (ConcurrentQueue.enter c).carries := by
  have hload := ConcurrentQueue.load_call (w := 8) hq hcalls htid
  have hvalue := ConcurrentQueue.value_of_call hq hi.symm
  have hself : (p.setQueue i q).share calls i = p.share calls i +
      ((ConcurrentQueue.enter c).rank calls.length + 8 * (ConcurrentQueue.enter c).carries) := by
    simp only [share, setQueue, Function.update_self, hload, hvalue]
    omega
  have hothers : ∀ j, j ≠ i → (p.setQueue i q).share calls j = p.share calls j := by
    intro j hj
    simp only [share, setQueue, Function.update_of_ne hj]
  have hsum := Bag.sum_change i hothers
  omega

/-- A step of a call in progress. What it gives to the worker it has taken from the queue. -/
theorem share_queue_lt {e : ConcurrentQueue.Event Task}
    (hq : (p.m_thread_work_ques i).step e = some q) (he : e.Inner) (hp : p.Kept i)
    (hcalls : Covered ConcurrentQueue.Pc.isBusy (p.m_thread_work_ques i).threads calls) :
    (p.setQueue i q).share calls i < p.share calls i := by
  have hmove := ConcurrentQueue.move_of_step hq
  have hload : ∀ k, q.taken.length = (p.m_thread_work_ques i).taken.length + k →
      q.load 8 calls + 8 * k < (p.m_thread_work_ques i).load 8 calls :=
    fun k hk => hmove.load_lt he hcalls hp.sound hk
  have hself : (p.setQueue i q).share calls i =
      q.load 8 calls + (p.workers i).rank p.m_done (q.threads i).value := by
    simp only [share, setQueue, Function.update_self]
  -- nothing is given to the worker
  have hsame : (q.threads i).value = ((p.m_thread_work_ques i).threads i).value →
      (p.setQueue i q).share calls i < p.share calls i := by
    intro hvalue
    obtain ⟨k, hk⟩ := (hmove.effect he.ne_call).exists_taken_length
    have hlt := Nat.lt_of_le_of_lt (Nat.le_add_right ..) (hload k hk)
    rw [hself, hvalue, share]
    omega
  cases hmove.effect he.ne_call with
  | quiet _ _ hthreads => exact hsame (hthreads.value i)
  | linked hpc _ _ hthreads => exact hsame (ConcurrentQueue.value_of_linked hpc hthreads i)
  | @answered tid v hconsuming _ htaken hthreads =>
    obtain ⟨rfl, hw⟩ := hp.taker tid hconsuming
    have hnone := ConcurrentQueue.Pc.value_of_isConsuming hconsuming
    have hvalue : (q.threads i).value = v := by
      rw [hthreads, Function.update_self]
      rfl
    cases v with
    | none => exact hsame (hvalue.trans hnone.symm)
    | some v =>
      have hlt := hload 1 (by simp [htaken])
      have hrank : Worker.popping.rank p.m_done none ≥ 1 := by
        simp only [Worker.rank]
        split_ifs <;> simp
      rw [hself, share, hw, hvalue, hnone]
      simp only [Worker.rank, Option.isSome_some, if_true] at hrank ⊢
      omega

/-- A worker goes on by itself. -/
theorem sum_share_setWorker {s : Worker} {executed : Fin n → List Task}
    (hrank : s.rank p.m_done ((p.m_thread_work_ques w).threads w).value <
      (p.workers w).rank p.m_done ((p.m_thread_work_ques w).threads w).value) :
    (∑ j, ({ p with executed := executed }.setWorker w s).share calls j) <
      ∑ j, p.share calls j := by
  refine sum_share_lt w (fun j hj => ?_) ?_
  · simp only [share, setWorker, Function.update_of_ne hj]
  · simp only [share, setWorker, Function.update_self]
    omega

theorem Worker.rank_setDone (s : Worker) (m_done : Bool) (value : Option Task) :
    s.rank true value ≤ s.rank m_done value + 7 := by
  cases s <;> cases m_done <;> cases value <;> simp [rank]

theorem Move.lowers (h : Move p e p') (he : e.Closing) (hp : p.Steady)
    (hc : p.Attends calls tasks) : p'.toDo calls tasks < p.toDo calls tasks := by
  have hset : ∀ {task : Task} {s : Submission n}, (p.submissions task).isBusy = true →
      work Submission.rank (Function.update p.submissions task s) tasks +
          (p.submissions task).rank = work Submission.rank p.submissions tasks + s.rank :=
    fun hbusy => work_update Submission.rank p.submissions _ hc.submissions.nodup
      (hc.submissions.mem _ hbusy)
  cases h with
  | load => cases he
  | @store task index hs =>
    have hwork := hset (s := .stored index) (by rw [hs]; rfl)
    have hshare : (∑ j, ({ p with m_atm_index := index }.setSubmission task
        (.stored index)).share calls j) = ∑ j, p.share calls j := rfl
    simp only [hs, Submission.rank] at hwork
    simp only [toDo, hshare]
    simp only [setSubmission]
    omega
  | @push task index i q hs _ hq =>
    have hbusy : (p.submissions task).isBusy = true := by rw [hs]; rfl
    have hwork := hset (s := .pushing i) hbusy
    have hmem := hc.submitter task (hc.submissions.mem task hbusy)
    have hshare : (∑ j, ((p.setQueue i q).setSubmission task (.pushing i)).share calls j) =
        (∑ j, p.share calls j) + 10 + 8 * 1 :=
      sum_share_call i hq (hc.covered i) hmem (submitter_ne_worker task i)
    simp only [hs, Submission.rank] at hwork
    simp only [toDo, hshare]
    simp only [setSubmission, setQueue]
    omega
  | leave hw _ =>
    refine Nat.add_lt_add_right (Nat.add_lt_add_right (sum_share_setWorker ?_) _) _
    rw [hw]
    simp [Worker.rank]
  | @pop w q hw hdone hq =>
    refine Nat.add_lt_add_right (Nat.add_lt_add_right (sum_share_lt w (fun j hj => ?_) ?_) _) _
    · simp only [share, setWorker, setQueue, Function.update_of_ne hj]
    · have hload : _ = _ + 5 + 8 * 0 :=
        ConcurrentQueue.load_call hq (hc.covered w) (hc.worker w)
      simp only [share, setWorker, setQueue, Function.update_self, hload, hw, hdone, Worker.rank,
        ConcurrentQueue.value_of_pop hq, Option.isSome_none, Bool.false_eq_true, if_false]
      omega
  | @got w task hw hpc =>
    refine Nat.add_lt_add_right (Nat.add_lt_add_right (sum_share_setWorker ?_) _) _
    rw [hw, hpc]
    simp [Worker.rank, ConcurrentQueue.Pc.value]
  | @missed w hw hpc =>
    have hdone := hp.m_done_of_missed hw hpc
    refine Nat.add_lt_add_right (Nat.add_lt_add_right (sum_share_setWorker ?_) _) _
    rw [hw, hpc]
    simp [Worker.rank, ConcurrentQueue.Pc.value, hdone]
  | execute hw =>
    refine Nat.add_lt_add_right (Nat.add_lt_add_right (sum_share_setWorker ?_) _) _
    rw [hw]
    simp [Worker.rank]
  | begin hd =>
    have hshare : (∑ j, share calls { p with m_done := true, destructor := .exiting 0 } j) ≤
        (∑ j, p.share calls j) + 7 * n := by
      calc
        _ ≤ ∑ j, (p.share calls j + 7) := by
          refine Finset.sum_le_sum fun j _ => ?_
          have hrank := (p.workers j).rank_setDone p.m_done
            ((p.m_thread_work_ques j).threads j).value
          simp only [share]
          omega
        _ = (∑ j, p.share calls j) + 7 * n := by
          simp [Finset.sum_add_distrib, Nat.mul_comm]
    have hrank : p.destructor.rank calls.length = 7 * n + n * (5 * calls.length + 4) + 3 := by
      rw [hd]
      rfl
    simp only [toDo, hrank]
    simp only [Destructor.rank, Nat.sub_zero]
    omega
  | @exit i q hd hq =>
    have hshare : (∑ j, share calls { p.setQueue i q with destructor := .inExit i } j) =
        (∑ j, p.share calls j) + (5 * calls.length + 2) + 8 * 0 :=
      sum_share_call i hq (hc.covered i) hc.destructor (worker_ne_destructor i).symm
    have hleft : n - i = n - (i + 1) + 1 := by
      have := i.isLt
      omega
    simp only [toDo, hshare, hd, Destructor.rank, hleft, Nat.succ_mul]
    simp only [setQueue]
    omega
  | exited hd _ | allExited hd _ | joined hd _ =>
    refine Nat.add_lt_add_left ?_ _
    simp only [hd, Destructor.rank]
    omega
  | @queue i e r _ hq =>
    refine Nat.add_lt_add_right (Nat.add_lt_add_right (sum_share_lt i (fun j hj => ?_) ?_) _) _
    · simp only [share, setQueue, Function.update_of_ne hj]
    · exact share_queue_lt hq he (hp.kept i) (hc.covered i)

/-- The thread that may call an operation of a queue in this step. -/
def Event.caller : Event n → List Tid
  | .push task => [n + 1 + task]
  | .worker w => [↑w]
  | .destructor => [n]
  | _ => []

theorem Move.covered (h : Move p e p')
    (hcalls : ∀ i, Covered ConcurrentQueue.Pc.isBusy (p.m_thread_work_ques i).threads calls)
    (hmem : ∀ tid ∈ e.caller, tid ∈ calls) :
    ∀ i, Covered ConcurrentQueue.Pc.isBusy (p'.m_thread_work_ques i).threads calls := by
  have hqueue : ∀ {i : Fin n} {q : ConcurrentQueue Task},
      Covered ConcurrentQueue.Pc.isBusy q.threads calls → ∀ j, Covered ConcurrentQueue.Pc.isBusy
        ((p.setQueue i q).m_thread_work_ques j).threads calls :=
    fun hq => (forall_update_iff_of_forall (P := fun q : ConcurrentQueue Task =>
      Covered ConcurrentQueue.Pc.isBusy q.threads calls) hcalls).mpr hq
  have hcall : ∀ {i : Fin n} {q : ConcurrentQueue Task} {tid : Tid}
      {c : ConcurrentQueue.Call Task}, (p.m_thread_work_ques i).step (.call tid c) = some q →
        tid ∈ calls → Covered ConcurrentQueue.Pc.isBusy q.threads calls := by
    intro i q tid c hq htid
    obtain ⟨-, rfl⟩ := ConcurrentQueue.call_eq hq
    exact (hcalls i).update_of_mem htid
  cases h with
  | push _ _ hq | pop _ _ hq | exit _ hq => exact hqueue (hcall hq (hmem _ List.mem_cons_self))
  | @queue i _ _ he hq => exact hqueue ((ConcurrentQueue.move_of_step hq).covered he (hcalls i))
  | _ => exact hcalls

theorem Move.attends (h : Move p e p') (he : e.Closing) (hc : p.Attends calls tasks) :
    p'.Attends calls tasks := by
  have hset : ∀ {task : Task} {s : Submission n}, (p.submissions task).isBusy = true →
      Covered Submission.isBusy (Function.update p.submissions task s) tasks :=
    fun hbusy => hc.submissions.update hbusy
  refine ⟨h.covered hc.covered ?_, ?_, hc.worker, hc.submitter, hc.destructor⟩
  · intro tid htid
    cases h with
    | push hs =>
      obtain rfl := List.mem_singleton.mp htid
      exact hc.submitter _ (hc.submissions.mem _ (by rw [hs]; rfl))
    | leave | pop | got | missed | execute =>
      obtain rfl := List.mem_singleton.mp htid
      exact hc.worker _
    | begin | exit | exited | allExited | joined =>
      obtain rfl := List.mem_singleton.mp htid
      exact hc.destructor
    | load | store | queue => cases htid
  · cases h with
    | load => cases he
    | store hs | push hs => exact hset (by rw [hs]; rfl)
    | _ => exact hc.submissions

theorem descends (calls : List Tid) (tasks : List Task) : Descends (step (n := n)) Event.Closing
    (fun p => p.Steady ∧ p.Attends calls tasks) (toDo calls tasks) where
  keeps _ _ _ hst he hp := ⟨(move_of_step hst).steady hp.1, (move_of_step hst).attends he hp.2⟩
  lowers _ _ _ hst he hp := (move_of_step hst).lowers he hp.1 hp.2

/-- Finitely many threads have called, and finitely many tasks are being submitted. -/
theorem exists_attends {es : List (Event n)} (h : run step {} es = some p) :
    ∃ calls tasks, p.Attends calls tasks := by
  obtain ⟨tasks, htasks⟩ : ∃ tasks, Covered Submission.isBusy p.submissions tasks := by
    refine run_preserves (I := fun p : ParrallenThreadPool n =>
      ∃ tasks, Covered Submission.isBusy p.submissions tasks) ?_ h ⟨[], List.nodup_nil, nofun⟩
    rintro p e p' hst ⟨tasks, htasks⟩
    cases move_of_step hst with
    | load | store | push => exact htasks.exists_update _ _
    | _ => exact ⟨tasks, htasks⟩
  obtain ⟨calls, hcalls⟩ : ∃ calls, ∀ i,
      Covered ConcurrentQueue.Pc.isBusy (p.m_thread_work_ques i).threads calls := by
    refine run_preserves (I := fun p : ParrallenThreadPool n => ∃ calls, ∀ i,
      Covered ConcurrentQueue.Pc.isBusy (p.m_thread_work_ques i).threads calls) ?_ h
      ⟨[], fun _ => ⟨List.nodup_nil, nofun⟩⟩
    rintro p e p' hst ⟨calls, hcalls⟩
    obtain ⟨calls', hnodup, hsub, hmem⟩ := exists_nodup calls e.caller
    exact ⟨calls', (move_of_step hst).covered (fun i => (hcalls i).superset hnodup hsub) hmem⟩
  obtain ⟨calls', hnodup, hsub, hmem⟩ := exists_nodup calls
    (n :: (List.finRange n).map (↑) ++ tasks.map (n + 1 + ·))
  refine ⟨calls', tasks, fun i => (hcalls i).superset hnodup hsub, htasks, fun w => ?_,
    fun task htask => ?_, ?_⟩
  · exact hmem w (by simp)
  · exact hmem _ (by simp [htask])
  · exact hmem n (by simp)

/-! ## Where they come to an end -/

theorem quiet_queue (h : Quiet step Event.Inner p) (i : Fin n) :
    Quiet ConcurrentQueue.step ConcurrentQueue.Event.Inner (p.m_thread_work_ques i) := by
  intro e he
  have hnone := h (.queue i e) he
  cases e with
  | call => cases he
  | _ =>
    simp only [step, Option.bind_eq_bind, Option.bind_eq_none_iff] at hnone
    exact Option.eq_none_iff_forall_ne_some.mpr fun q hq => by cases hnone q hq

/-- On a queue all threads but its worker are outside. -/
theorem Steady.isIdle (hp : p.Steady) (hquiet : Quiet step Event.Inner p) {tid : Tid}
    (htid : tid ≠ i) : ((p.m_thread_work_ques i).threads tid).isIdle = true := by
  obtain ⟨cells, hs⟩ := (hp.kept i).sound
  refine (hs.rests (quiet_queue hquiet i) tid).resolve_right fun hblocked => ?_
  exact htid ((hp.kept i).taker tid (ConcurrentQueue.Pc.isConsuming_of_isBlocked hblocked)).1

/-- A worker that has not returned waits for a task. -/
theorem Steady.blocked (hp : p.Steady) (hquiet : Quiet step Event.Inner p)
    (hw : p.workers w ≠ .returned) :
    p.workers w = .popping ∧ ((p.m_thread_work_ques w).threads w).isBlocked = true := by
  obtain ⟨cells, hs⟩ := (hp.kept w).sound
  have hrest := hs.rests (quiet_queue hquiet w) w
  have hstuck : p.workerThread w (p.workers w) = none := hquiet (.worker w) trivial
  cases hworker : p.workers w with
  | testing =>
    rw [hworker] at hstuck
    rcases hrest with hidle | hblocked
    · simp only [workerThread, ConcurrentQueue.step, hidle, if_true] at hstuck
      split_ifs at hstuck
      cases hstuck
    · have hpop :=
        ((hp.kept w).taker w (ConcurrentQueue.Pc.isConsuming_of_isBlocked hblocked)).2
      cases hworker.symm.trans hpop
  | popping =>
    refine ⟨rfl, hrest.resolve_left fun hidle => ?_⟩
    have hawaits := hp.awaits w hworker
    rw [hworker] at hstuck
    cases hpc : (p.m_thread_work_ques w).threads w with
    | returned value => cases value <;> simp [workerThread, hpc] at hstuck
    | _ => simp_all [ConcurrentQueue.Pc.isIdle, ConcurrentQueue.Pc.awaits]
  | holding task =>
    rw [hworker] at hstuck
    cases hstuck
  | returned => exact absurd hworker hw

/-- A worker that waits has executed what was linked into its queue, or has lost a wake-up. -/
theorem Steady.executed (hp : p.Steady) (hquiet : Quiet step Event.Inner p)
    (hw : p.workers i ≠ .returned) : (p.m_thread_work_ques i).LostWakeup i ∨
      ∀ task, (p.executed i).count task = if p.submissions task = .pushing i then 1 else 0 := by
  obtain ⟨hworker, hblocked⟩ := hp.blocked hquiet hw
  obtain ⟨cells, hs⟩ := (hp.kept i).sound
  by_cases hcells : cells = []
  · right
    intro task
    have hhand : p.inHand i = [] := by
      rw [inHand_of_popping hworker, ConcurrentQueue.Pc.value_of_isConsuming
        (ConcurrentQueue.Pc.isConsuming_of_isBlocked hblocked)]
      rfl
    have hpushed : (p.m_thread_work_ques i).pushed = p.executed i := by
      have hfifo := hs.done.fifo (hp.kept i).inOrder.history
      rw [List.nil_append, hs.taken, (hp.kept i).taken, hhand, hcells, List.append_nil,
        List.map_nil, List.append_nil] at hfifo
      exact hfifo
    have hcarried := ConcurrentQueue.Pc.carried_of_isIdle
      (hp.isIdle hquiet (submitter_ne_worker task i))
    rw [← hpushed, (hp.kept i).pushed, linked, hcarried]
    by_cases htask : p.submissions task = .pushing i <;> simp [htask]
  · exact .inl (hs.lostWakeup (quiet_queue hquiet i) hblocked
      (.inl (hs.holds.empty_iff.not.mpr hcells)))

/-- A submission has come to its end, or to an index that names no queue. -/
theorem Steady.submitted (hp : p.Steady) (hquiet : Quiet step Event.Inner p) (task : Task) :
    p.submissions task = .fresh ∨ (∃ i, p.submissions task = .pushing i) ∨
      ∃ index, p.submissions task = .stored index ∧ n ≤ (intToSize index).toNat := by
  cases hs : p.submissions task with
  | fresh => exact .inl rfl
  | pushing i => exact .inr (.inl ⟨i, rfl⟩)
  | loaded index =>
    have hstuck := hquiet (.store task) trivial
    simp [step, hs] at hstuck
  | stored index =>
    refine .inr (.inr ⟨index, rfl, ?_⟩)
    by_contra hlt
    rw [Nat.not_le] at hlt
    have hidle := hp.isIdle hquiet (submitter_ne_worker task ⟨_, hlt⟩)
    have hstuck := hquiet (.push task) trivial
    simp [step, hs, hlt, ConcurrentQueue.step, hidle] at hstuck

/-- Where the destructor has come to its end it has returned, unless it waits for a worker. -/
theorem Steady.returned_iff (hp : p.Steady) (hquiet : Quiet step Event.Closing p) :
    p.destructor = .returned ↔ ∀ w : Fin n, ¬ (p.m_thread_work_ques w).LostWakeup w := by
  have hinner : Quiet step Event.Inner p := by
    intro e he
    cases e with
    | load | destructor => cases he
    | _ => exact hquiet _ he
  have hstuck : p.destructorStep p.destructor = none := hquiet .destructor trivial
  have hidle : ∀ i, ((p.m_thread_work_ques i).threads n).isIdle = true :=
    fun i => hp.isIdle hinner (worker_ne_destructor i).symm
  constructor
  · intro hd w hlost
    have hw := ((hp.kept w).taker w
      (ConcurrentQueue.Pc.isConsuming_of_isBlocked hlost.blocked)).2
    cases hw.symm.trans (hp.joined hd w)
  · intro hlost
    cases hd : p.destructor with
    | returned => rfl
    | outside => simp [hd, destructorStep] at hstuck
    | exiting i =>
      by_cases hi : i < n <;> simp [hd, destructorStep, hi, ConcurrentQueue.step, hidle] at hstuck
    | inExit i => simp [hd, destructorStep, hidle] at hstuck
    | joining =>
      have hall : ∀ w, p.workers w = .returned := by
        intro w
        by_contra hw
        obtain ⟨cells, hs⟩ := (hp.kept w).sound
        have hstop : (p.m_thread_work_ques w).m_bstop = true := by
          refine (hp.stops w (by rw [hd]; trivial)).resolve_right fun hpc => ?_
          have hidle := hidle w
          rw [hpc] at hidle
          cases hidle
        exact hlost w (hs.lostWakeup (quiet_queue hinner w) (hp.blocked hinner hw).2 (.inr hstop))
      simp [hd, destructorStep, hall] at hstuck

theorem steady_run {es : List (Event n)} (h : run step {} es = some p) : p.Steady :=
  run_preserves (fun _ _ _ hst hp => (move_of_step hst).steady hp) h steady_initial

/-- Inner steps neither begin a submission nor the destructor. -/
theorem Move.keeps_outside (h : Move p e p') (he : e.Inner) :
    p'.destructor = p.destructor ∧
      ∀ task, p'.submissions task = .fresh ↔ p.submissions task = .fresh := by
  have hset : ∀ {task : Task} {s : Submission n}, p.submissions task ≠ .fresh → s ≠ .fresh →
      ∀ other, Function.update p.submissions task s other = .fresh ↔
        p.submissions other = .fresh := by
    intro task s hp hs other
    by_cases hother : other = task
    · subst hother
      rw [Function.update_self]
      exact iff_of_false hs hp
    · rw [Function.update_of_ne hother]
  cases h with
  | load | begin | exit | exited | allExited | joined => cases he
  | store hs | push hs => exact ⟨rfl, hset (by rw [hs]; nofun) nofun⟩
  | _ => exact ⟨rfl, fun _ => Iff.rfl⟩

theorem Event.Inner.closing (he : e.Inner) : e.Closing := by
  cases e with
  | load | destructor => cases he
  | _ => exact he

/-- From wherever the pool is before its destructor begins: when no more tasks are submitted, the
workers, the submissions and the calls in progress take no more steps than some bound, they can
always go on to where they take none, and there each worker has executed once every task that was
given to it, unless it has lost a wake-up. -/
theorem tasks_executed {es : List (Event n)} (h : run step {} es = some p)
    (hd : p.destructor = .outside) :
    (∃ bound, ∀ fs q, run step p fs = some q → (∀ e ∈ fs, e.Inner) → fs.length ≤ bound) ∧
      (∃ fs q, run step p fs = some q ∧ (∀ e ∈ fs, e.Inner) ∧ Quiet step Event.Inner q) ∧
      ∀ fs q, run step p fs = some q → (∀ e ∈ fs, e.Inner) → Quiet step Event.Inner q →
        (∀ task, q.submissions task = .fresh ↔ p.submissions task = .fresh) ∧
        (∀ task, q.submissions task = .fresh ∨ (∃ i, q.submissions task = .pushing i) ∨
          ∃ index, q.submissions task = .stored index ∧ n ≤ (intToSize index).toNat) ∧
        ∀ i, (q.m_thread_work_ques i).LostWakeup i ∨
          ∀ task, (q.executed i).count task = if q.submissions task = .pushing i then 1 else 0 := by
  have hp := steady_run h
  obtain ⟨calls, tasks, hc⟩ := exists_attends h
  have hdesc := (descends (n := n) calls tasks).mono fun e he => Event.Inner.closing he
  obtain ⟨hbound, hquiet⟩ := hdesc.ends ⟨hp, hc⟩
  refine ⟨hbound, hquiet, fun fs q hrun hfs hquiet => ?_⟩
  have hq := (hdesc.of_run hrun hfs ⟨hp, hc⟩).1
  have hsame : q.destructor = p.destructor ∧
      ∀ task, q.submissions task = .fresh ↔ p.submissions task = .fresh := by
    refine run_preserves_of_forall (I := fun q : ParrallenThreadPool n =>
      q.destructor = p.destructor ∧
        ∀ task, q.submissions task = .fresh ↔ p.submissions task = .fresh)
      ?_ hrun hfs ⟨rfl, fun _ => Iff.rfl⟩
    intro q e q' hst he hq
    obtain ⟨hdestructor, hfresh⟩ := (move_of_step hst).keeps_outside he
    exact ⟨hdestructor.trans hq.1, fun task => (hfresh task).trans (hq.2 task)⟩
  refine ⟨hsame.2, hq.submitted hquiet, fun i => hq.executed hquiet fun hw => ?_⟩
  have hdone := hq.returned i hw
  rw [hq.m_done.mpr (hsame.1.trans hd)] at hdone
  cases hdone

/-- One task is in a queue, and the submission of another has loaded its index. -/
theorem tasks_executed_two : ∃ (p q : ParrallenThreadPool 2) (fs : List (Event 2)),
    run step {} [.load 0, .store 0, .push 0, .queue 1 (.advance 3), .queue 1 (.link 3 10),
      .load 1] = some p ∧
    run step p fs = some q ∧ (q.submissions 7 = .fresh ↔ p.submissions 7 = .fresh) ∧
    ∀ i : Fin 2, (q.m_thread_work_ques i).LostWakeup i ∨
      ∀ task, (q.executed i).count task = if q.submissions task = .pushing i then 1 else 0 := by
  have h : run step ({} : ParrallenThreadPool 2) [.load 0, .store 0, .push 0,
      .queue 1 (.advance 3), .queue 1 (.link 3 10), .load 1] = some _ := rfl
  obtain ⟨-, ⟨fs, q, hrun, hfs, hquiet⟩, hall⟩ := tasks_executed h rfl
  obtain ⟨hfresh, -, hexecuted⟩ := hall fs q hrun hfs hquiet
  exact ⟨_, q, fs, h, hrun, hfresh 7, hexecuted⟩

/-- With the destructor: also its steps come to an end, and then it has returned, unless some worker
has lost a wake-up. -/
theorem destructor_joins {es : List (Event n)} (h : run step {} es = some p) :
    (∃ bound, ∀ fs q, run step p fs = some q → (∀ e ∈ fs, e.Closing) → fs.length ≤ bound) ∧
      (∃ fs q, run step p fs = some q ∧ (∀ e ∈ fs, e.Closing) ∧ Quiet step Event.Closing q) ∧
      ∀ fs q, run step p fs = some q → (∀ e ∈ fs, e.Closing) → Quiet step Event.Closing q →
        (q.destructor = .returned ↔ ∀ w : Fin n, ¬ (q.m_thread_work_ques w).LostWakeup w) := by
  have hp := steady_run h
  obtain ⟨calls, tasks, hc⟩ := exists_attends h
  have hdesc := descends (n := n) calls tasks
  obtain ⟨hbound, hquiet⟩ := hdesc.ends ⟨hp, hc⟩
  refine ⟨hbound, hquiet, fun fs q hrun hfs hquiet => ?_⟩
  exact (hdesc.of_run hrun hfs ⟨hp, hc⟩).1.returned_iff hquiet

/-- The destructor has begun while one of two workers waits. -/
theorem destructor_joins_waiting : ∃ (p q : ParrallenThreadPool 2) (fs : List (Event 2)),
    run step {} [.worker 0, .queue 0 (.advance 0), .queue 0 (.advance 0), .queue 0 (.advance 0),
      .queue 0 (.advance 0), .destructor] = some p ∧
    ((p.m_thread_work_ques 0).threads 0).isBlocked = true ∧ run step p fs = some q ∧
    (q.destructor = .returned ↔ ∀ w : Fin 2, ¬ (q.m_thread_work_ques w).LostWakeup w) := by
  have h : run step ({} : ParrallenThreadPool 2) [.worker 0, .queue 0 (.advance 0),
      .queue 0 (.advance 0), .queue 0 (.advance 0), .queue 0 (.advance 0), .destructor] =
        some _ := rfl
  obtain ⟨-, ⟨fs, q, hrun, hfs, hquiet⟩, hall⟩ := destructor_joins h
  exact ⟨_, q, fs, h, rfl, hrun, hall fs q hrun hfs hquiet⟩

end

end NBRaft.Concurrency.ParrallenThreadPool
