import NBRaft.Concurrency.QueueProgress
import NBRaft.Concurrency.RoundRobin

/-!
# The pool with a queue for each worker

`ParrallenThreadPool`: `submit` pushes round robin onto the queues of the workers, and each worker
waits on its own queue. The destructor sets `m_done`, calls `Exit` on one queue after the other,
and joins the workers. Calls of `submit`, the workers, the destructor and the operations of the
queues go on step by step, in any interleaving.

On the queues worker `w` is thread `w`, the destructor is thread `n`, and the call that submits
`task` is thread `n + 1 + task`.
-/

namespace NBRaft.Concurrency

open Transition Conversions

namespace ParrallenThreadPool

/-- Where a worker is in `worker_thread`. -/
inductive Worker where
  /-- `while (!m_done)`. -/
  | testing
  /-- In `wait_and_pop`. -/
  | popping
  | holding (task : Task)
  | returned
  deriving DecidableEq, Repr

inductive Submission (n : Nat) where
  | fresh
  | loaded (index : Int32)
  | stored (index : Int32)
  | pushing (i : Fin n)
  deriving DecidableEq, Repr

inductive Destructor (n : Nat) where
  | outside
  /-- At the head of the loop over the queues, and in `Exit`. -/
  | exiting (i : Nat)
  | inExit (i : Fin n)
  | joining
  | returned
  deriving DecidableEq, Repr

inductive Event (n : Nat) where
  | load (task : Task)
  | store (task : Task)
  | push (task : Task)
  | worker (w : Fin n)
  | destructor
  /-- A step of an operation on a queue that is in progress. -/
  | queue (i : Fin n) (e : ConcurrentQueue.Event Task)

end ParrallenThreadPool

open ParrallenThreadPool

/-- `executed` is the history of each worker. -/
structure ParrallenThreadPool (n : Nat) where
  m_done : Bool := false
  m_atm_index : Int32 := 0
  m_thread_work_ques : Fin n → ConcurrentQueue Task := fun _ => {}
  workers : Fin n → Worker := fun _ => .testing
  submissions : Task → Submission n := fun _ => .fresh
  destructor : Destructor n := .outside
  executed : Fin n → List Task := fun _ => []

namespace ParrallenThreadPool

variable {n : Nat}

def setQueue (i : Fin n) (q : ConcurrentQueue Task) (p : ParrallenThreadPool n) :
    ParrallenThreadPool n :=
  { p with m_thread_work_ques := Function.update p.m_thread_work_ques i q }

def setWorker (w : Fin n) (s : Worker) (p : ParrallenThreadPool n) : ParrallenThreadPool n :=
  { p with workers := Function.update p.workers w s }

def setSubmission (task : Task) (s : Submission n) (p : ParrallenThreadPool n) :
    ParrallenThreadPool n :=
  { p with submissions := Function.update p.submissions task s }

/-- `worker_thread`, between the operations on the queue. -/
def workerThread (w : Fin n) (p : ParrallenThreadPool n) : Worker → Option (ParrallenThreadPool n)
  | .testing =>
    if p.m_done then some (p.setWorker w .returned)
    else do
      let q ← (p.m_thread_work_ques w).step (.call w (.pop .waitAndPop))
      some ((p.setQueue w q).setWorker w .popping)
  | .popping =>
    match (p.m_thread_work_ques w).threads w with
    | .returned (some task) => some (p.setWorker w (.holding task))
    | .returned none => some (p.setWorker w .testing)
    | _ => none
  | .holding task => some ({ p with
      executed := Function.update p.executed w (p.executed w ++ [task]) }.setWorker w .testing)
  | .returned => none

/-- The destructor, between the operations on the queues. -/
def destructorStep (p : ParrallenThreadPool n) : Destructor n → Option (ParrallenThreadPool n)
  | .outside => some { p with m_done := true, destructor := .exiting 0 }
  | .exiting i =>
    if h : i < n then do
      let q ← (p.m_thread_work_ques ⟨i, h⟩).step (.call n .exit)
      some { p.setQueue ⟨i, h⟩ q with destructor := .inExit ⟨i, h⟩ }
    else some { p with destructor := .joining }
  | .inExit i =>
    if ((p.m_thread_work_ques i).threads n).isIdle then
      some { p with destructor := .exiting (i + 1) }
    else none
  | .joining =>
    if ∀ w, p.workers w = .returned then some { p with destructor := .returned } else none
  | .returned => none

/-- `submit` is refused where the next index is not defined, or does not name a queue. -/
def step (p : ParrallenThreadPool n) : Event n → Option (ParrallenThreadPool n)
  | .load task =>
    match p.submissions task with
    | .fresh => do
      let index ← nextIndex (UInt64.ofNat n) p.m_atm_index
      some (p.setSubmission task (.loaded index))
    | _ => none
  | .store task =>
    match p.submissions task with
    | .loaded index => some ({ p with m_atm_index := index }.setSubmission task (.stored index))
    | _ => none
  | .push task =>
    match p.submissions task with
    | .stored index =>
      if h : (intToSize index).toNat < n then do
        let q ← (p.m_thread_work_ques ⟨_, h⟩).step (.call (n + 1 + task) (.push task))
        some ((p.setQueue ⟨_, h⟩ q).setSubmission task (.pushing ⟨_, h⟩))
      else none
    | _ => none
  | .worker w => p.workerThread w (p.workers w)
  | .destructor => p.destructorStep p.destructor
  | .queue _ (.call ..) => none
  | .queue i e => do
    let q ← (p.m_thread_work_ques i).step e
    some (p.setQueue i q)

/-! ## Where a task is -/

/-- What a worker has taken from its queue and not yet executed. -/
def inHand (p : ParrallenThreadPool n) (w : Fin n) : List Task :=
  match p.workers w with
  | .holding task => [task]
  | .popping => ((p.m_thread_work_ques w).threads w).value.toList
  | _ => []

/-- `submit` has linked the task into this queue. -/
def linked (p : ParrallenThreadPool n) (i : Fin n) (task : Task) : Bool :=
  p.submissions task = .pushing i ∧
    ((p.m_thread_work_ques i).threads (n + 1 + task)).carried = none

/-! ## What a step can do -/

inductive Move (p : ParrallenThreadPool n) : Event n → ParrallenThreadPool n → Prop where
  | load {task : Task} {index : Int32} : p.submissions task = .fresh →
    nextIndex (UInt64.ofNat n) p.m_atm_index = some index →
      Move p (.load task) (p.setSubmission task (.loaded index))
  | store {task : Task} {index : Int32} : p.submissions task = .loaded index →
    Move p (.store task) ({ p with m_atm_index := index }.setSubmission task (.stored index))
  | push {task : Task} {index : Int32} {i : Fin n} {q : ConcurrentQueue Task} :
    p.submissions task = .stored index → (intToSize index).toNat = i →
    (p.m_thread_work_ques i).step (.call (n + 1 + task) (.push task)) = some q →
      Move p (.push task) ((p.setQueue i q).setSubmission task (.pushing i))
  | leave {w : Fin n} : p.workers w = .testing → p.m_done = true →
    Move p (.worker w) (p.setWorker w .returned)
  | pop {w : Fin n} {q : ConcurrentQueue Task} : p.workers w = .testing → p.m_done = false →
    (p.m_thread_work_ques w).step (.call w (.pop .waitAndPop)) = some q →
      Move p (.worker w) ((p.setQueue w q).setWorker w .popping)
  | got {w : Fin n} {task : Task} : p.workers w = .popping →
    (p.m_thread_work_ques w).threads w = .returned (some task) →
      Move p (.worker w) (p.setWorker w (.holding task))
  | missed {w : Fin n} : p.workers w = .popping →
    (p.m_thread_work_ques w).threads w = .returned none →
      Move p (.worker w) (p.setWorker w .testing)
  | execute {w : Fin n} {task : Task} : p.workers w = .holding task →
    Move p (.worker w) ({ p with
      executed := Function.update p.executed w (p.executed w ++ [task]) }.setWorker w .testing)
  | begin : p.destructor = .outside →
    Move p .destructor { p with m_done := true, destructor := .exiting 0 }
  | exit {i : Fin n} {q : ConcurrentQueue Task} : p.destructor = .exiting i →
    (p.m_thread_work_ques i).step (.call n .exit) = some q →
      Move p .destructor { p.setQueue i q with destructor := .inExit i }
  | exited {i : Fin n} : p.destructor = .inExit i →
    ((p.m_thread_work_ques i).threads n).isIdle = true →
      Move p .destructor { p with destructor := .exiting (i + 1) }
  | allExited {i : Nat} : p.destructor = .exiting i → n ≤ i →
    Move p .destructor { p with destructor := .joining }
  | joined : p.destructor = .joining → (∀ w, p.workers w = .returned) →
    Move p .destructor { p with destructor := .returned }
  | queue {i : Fin n} {e : ConcurrentQueue.Event Task} {r : ConcurrentQueue Task} :
    (∀ tid c, e ≠ .call tid c) → (p.m_thread_work_ques i).step e = some r →
      Move p (.queue i e) (p.setQueue i r)

section

variable {p p' : ParrallenThreadPool n} {w i : Fin n} {e : Event n}

theorem move_of_workerThread (h : p.workerThread w (p.workers w) = some p') :
    Move p (.worker w) p' := by
  cases hw : p.workers w with
  | testing =>
    simp only [hw, workerThread] at h
    split_ifs at h with hdone
    · cases h
      exact .leave hw hdone
    · simp only [Option.bind_eq_bind, Option.bind_eq_some_iff] at h
      obtain ⟨q, hq, h⟩ := h
      cases h
      exact .pop hw (by simpa using hdone) hq
  | popping =>
    simp only [hw, workerThread] at h
    split at h
    · rename_i task hpc
      cases h
      exact .got hw hpc
    · rename_i hpc
      cases h
      exact .missed hw hpc
    · cases h
  | holding task =>
    rw [hw] at h
    cases h
    exact .execute hw
  | returned =>
    rw [hw] at h
    cases h

theorem move_of_destructorStep (h : p.destructorStep p.destructor = some p') :
    Move p .destructor p' := by
  cases hd : p.destructor with
  | outside =>
    rw [hd] at h
    cases h
    exact .begin hd
  | exiting i =>
    simp only [hd, destructorStep] at h
    split_ifs at h with hi
    · simp only [Option.bind_eq_bind, Option.bind_eq_some_iff] at h
      obtain ⟨q, hq, h⟩ := h
      cases h
      exact .exit (i := ⟨i, hi⟩) hd hq
    · cases h
      exact .allExited hd (Nat.not_lt.mp hi)
  | inExit i =>
    simp only [hd, destructorStep, Option.ite_none_right_eq_some, Option.some.injEq] at h
    obtain ⟨hidle, rfl⟩ := h
    exact .exited hd hidle
  | joining =>
    simp only [hd, destructorStep, Option.ite_none_right_eq_some, Option.some.injEq] at h
    obtain ⟨hw, rfl⟩ := h
    exact .joined hd hw
  | returned =>
    rw [hd] at h
    cases h

/-- Every step is one of these. -/
theorem move_of_step (h : p.step e = some p') : Move p e p' := by
  cases e with
  | load task =>
    simp only [step] at h
    split at h
    · rename_i hfresh
      simp only [Option.bind_eq_bind, Option.bind_eq_some_iff] at h
      obtain ⟨index, hindex, h⟩ := h
      cases h
      exact .load hfresh hindex
    · cases h
  | store task =>
    simp only [step] at h
    split at h
    · rename_i index hloaded
      cases h
      exact .store hloaded
    · cases h
  | push task =>
    simp only [step] at h
    split at h
    · rename_i index hstored
      split_ifs at h with hindex
      simp only [Option.bind_eq_bind, Option.bind_eq_some_iff] at h
      obtain ⟨q, hq, h⟩ := h
      cases h
      exact .push hstored rfl hq
    · cases h
  | worker w => exact move_of_workerThread h
  | destructor => exact move_of_destructorStep h
  | queue i e =>
    cases e with
    | call => cases h
    | _ =>
      simp only [step, Option.bind_eq_bind, Option.bind_eq_some_iff] at h
      obtain ⟨q, hq, h⟩ := h
      cases h
      refine .queue (fun tid c hcall => ?_) hq
      cases hcall

end

end ParrallenThreadPool

end NBRaft.Concurrency
