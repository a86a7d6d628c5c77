import NBRaft.Concurrency.QueueEffect
import NBRaft.Concurrency.QueueRefinement
import NBRaft.Library.Bag

/-!
# The stealing thread pool

`StealThreadPool`: one work queue for each worker. A worker pops from its own queue and, when
that is empty, steals from the others in turn; `submit` pushes round robin, with an index that
it loads and stores in two steps. The operations of the queues go on step by step, in any
interleaving. How long a worker waits that has found nothing is left open, and the pool is the
one that works: `m_done` is set by its destructor.

A task is a call of `submit`. On the queues worker `w` is thread `w`, and the call that submits
`task` is thread `n + task`: calls that one thread makes one after the other are a case of this.
-/

namespace NBRaft.Concurrency

open Transition

abbrev Task := Nat

namespace StealThreadPool

/-- Where a worker is in `worker_thread`. -/
inductive Worker (n : Nat) where
  | looking
  /-- In `try_pop` of its own queue. -/
  | popping
  /-- `try_steal_from_others`, at the head of its loop, and in `try_steal`. -/
  | searching (i : Nat)
  | stealing (i : Fin n)
  | holding (task : Task)
  deriving DecidableEq, Repr

inductive Submission (n : Nat) where
  | fresh
  | loaded (index : Fin n)
  | stored (index : Fin n)
  | pushing (i : Fin n)
  deriving DecidableEq, Repr

inductive Event (n : Nat) where
  | load (task : Task)
  | store (task : Task)
  | push (task : Task)
  | worker (w : Fin n)
  /-- A step of an operation on a queue that is in progress. -/
  | queue (i : Fin n) (e : ConcurrentQueue.Event Task)

end StealThreadPool

open StealThreadPool

/-- `m_atm_index` is not narrowed to an `int`: it is that of the source for at most `2 ^ 31`
queues. -/
structure StealThreadPool (n : Nat) where
  m_thread_work_ques : Fin n → ConcurrentQueue Task := fun _ => {}
  m_atm_index : Nat := 0
  workers : Fin n → Worker n := fun _ => .looking
  submissions : Task → Submission n := fun _ => .fresh
  executed : List Task := []

namespace StealThreadPool

variable {n : Nat}

def setQueue (i : Fin n) (q : ConcurrentQueue Task) (p : StealThreadPool n) : StealThreadPool n :=
  { p with m_thread_work_ques := Function.update p.m_thread_work_ques i q }

def setWorker (w : Fin n) (s : Worker n) (p : StealThreadPool n) : StealThreadPool n :=
  { p with workers := Function.update p.workers w s }

def setSubmission (task : Task) (s : Submission n) (p : StealThreadPool n) : StealThreadPool n :=
  { p with submissions := Function.update p.submissions task s }

/-- `worker_thread` and `try_steal_from_others`, between the operations on the queues. -/
def workerThread (w : Fin n) (p : StealThreadPool n) : Worker n → Option (StealThreadPool n)
  | .looking => do
    let q ← (p.m_thread_work_ques w).step (.call w (.pop .tryPop))
    some ((p.setQueue w q).setWorker w .popping)
  | .popping =>
    match (p.m_thread_work_ques w).threads w with
    | .returned (some task) => some (p.setWorker w (.holding task))
    | .returned none => some (p.setWorker w (.searching 0))
    | _ => none
  | .searching i =>
    if h : i < n then
      if i = w then some (p.setWorker w (.searching (i + 1)))
      else do
        let q ← (p.m_thread_work_ques ⟨i, h⟩).step (.call w .trySteal)
        some ((p.setQueue ⟨i, h⟩ q).setWorker w (.stealing ⟨i, h⟩))
    else some (p.setWorker w .looking)
  | .stealing i =>
    match (p.m_thread_work_ques i).threads w with
    | .returned (some task) => some (p.setWorker w (.holding task))
    | .returned none => some (p.setWorker w (.searching (i + 1)))
    | _ => none
  | .holding task => some ({ p with executed := p.executed ++ [task] }.setWorker w .looking)

def isCall : ConcurrentQueue.Event Task → Bool
  | .call .. => true
  | _ => false

def step [NeZero n] (p : StealThreadPool n) : Event n → Option (StealThreadPool n)
  | .load task =>
    match p.submissions task with
    | .fresh => some (p.setSubmission task (.loaded (Fin.ofNat n (p.m_atm_index + 1))))
    | _ => none
  | .store task =>
    match p.submissions task with
    | .loaded index => some ({ p with m_atm_index := index }.setSubmission task (.stored index))
    | _ => none
  | .push task =>
    match p.submissions task with
    | .stored index => do
      let q ← (p.m_thread_work_ques index).step (.call (n + task) (.push task))
      some ((p.setQueue index q).setSubmission task (.pushing index))
    | _ => none
  | .worker w => p.workerThread w (p.workers w)
  | .queue i e =>
    if isCall e then none
    else do
      let q ← (p.m_thread_work_ques i).step e
      some (p.setQueue i q)

/-! ## Where a task is -/

/-- The queue that a worker is popping or stealing from. -/
def Worker.asks (w : Fin n) : Worker n → Option (Fin n)
  | .popping => some w
  | .stealing i => some i
  | _ => none

/-- The local `wrapper` of a worker: the queue's operation writes it, and `worker_thread` calls
it. -/
def wrapper (p : StealThreadPool n) (w : Fin n) : Option Task :=
  match p.workers w with
  | .holding task => some task
  | s => (s.asks w).bind fun i => ((p.m_thread_work_ques i).threads w).value

/-- `submit` has linked the task into this queue. -/
def linked (p : StealThreadPool n) (i : Fin n) (task : Task) : Bool :=
  p.submissions task = .pushing i ∧
    ((p.m_thread_work_ques i).threads (n + task)).carried = none

def submitted (p : StealThreadPool n) (task : Task) : Bool :=
  match p.submissions task with
  | .pushing i => p.linked i task
  | _ => false

/-! ## What a step can do -/

/-- The worker has no wrapper to fill or to call. -/
def Worker.isFree : Worker n → Bool
  | .looking | .searching _ => true
  | _ => false

def Submission.isPushing : Submission n → Bool
  | .pushing _ => true
  | _ => false

inductive Move (p : StealThreadPool n) : StealThreadPool n → Prop where
  | submission {task : Task} {s : Submission n} {m_atm_index : Nat} :
    (p.submissions task).isPushing = false → s.isPushing = false →
      Move p ({ p with m_atm_index := m_atm_index }.setSubmission task s)
  | push {task : Task} {i : Fin n} {q : ConcurrentQueue Task} : p.submissions task = .stored i →
    (p.m_thread_work_ques i).step (.call (n + task) (.push task)) = some q →
      Move p ((p.setQueue i q).setSubmission task (.pushing i))
  | turn {w : Fin n} {s : Worker n} : (p.workers w).isFree = true → s.isFree = true →
    Move p (p.setWorker w s)
  | ask {w i : Fin n} {s : Worker n} {c : ConcurrentQueue.Call Task} {q : ConcurrentQueue Task} :
    (p.workers w).isFree = true → s.asks w = some i → c = .pop .tryPop ∨ c = .trySteal →
      (p.m_thread_work_ques i).step (.call w c) = some q → Move p ((p.setQueue i q).setWorker w s)
  | got {w i : Fin n} {task : Task} : (p.workers w).asks w = some i →
    (p.m_thread_work_ques i).threads w = .returned (some task) →
      Move p (p.setWorker w (.holding task))
  | missed {w i : Fin n} {s : Worker n} : (p.workers w).asks w = some i →
    (p.m_thread_work_ques i).threads w = .returned none → s.isFree = true →
      Move p (p.setWorker w s)
  | execute {w : Fin n} {task : Task} : p.workers w = .holding task →
    Move p ({ p with executed := p.executed ++ [task] }.setWorker w .looking)
  | queue {i : Fin n} {e : ConcurrentQueue.Event Task} {r : ConcurrentQueue Task} :
    isCall e = false → (p.m_thread_work_ques i).step e = some r → Move p (p.setQueue i r)

section

variable {p p' : StealThreadPool n} {w i : Fin n} {e : Event n}

theorem move_of_workerThread {s : Worker n} (hs : p.workers w = s)
    (h : p.workerThread w s = some p') : Move p p' := by
  cases s with
  | looking =>
    simp only [workerThread, Option.bind_eq_bind, Option.bind_eq_some_iff] at h
    obtain ⟨q, hq, h⟩ := h
    cases h
    exact .ask (by rw [hs]; rfl) rfl (.inl rfl) hq
  | popping =>
    simp only [workerThread] at h
    split at h
    · rename_i task hpc
      cases h
      exact .got (by rw [hs]; rfl) hpc
    · rename_i hpc
      cases h
      exact .missed (by rw [hs]; rfl) hpc rfl
    · cases h
  | searching i =>
    simp only [workerThread] at h
    split_ifs at h with hi hself
    · cases h
      exact .turn (by rw [hs]; rfl) rfl
    · simp only [Option.bind_eq_bind, Option.bind_eq_some_iff] at h
      obtain ⟨q, hq, h⟩ := h
      cases h
      exact .ask (by rw [hs]; rfl) rfl (.inr rfl) hq
    · cases h
      exact .turn (by rw [hs]; rfl) rfl
  | stealing i =>
    simp only [workerThread] at h
    split at h
    · rename_i task hpc
      cases h
      exact .got (by rw [hs]; rfl) hpc
    · rename_i hpc
      cases h
      exact .missed (by rw [hs]; rfl) hpc rfl
    · cases h
  | holding task =>
    cases h
    exact .execute hs

/-- Every step is one of these. -/
theorem move_of_step [NeZero n] (h : p.step e = some p') : Move p p' := by
  cases e with
  | load task =>
    simp only [step] at h
    split at h
    · rename_i hfresh
      cases h
      exact .submission (by rw [hfresh]; rfl) rfl
    · cases h
  | store task =>
    simp only [step] at h
    split at h
    · rename_i index hloaded
      cases h
      exact .submission (by rw [hloaded]; rfl) rfl
    · cases h
  | push task =>
    simp only [step] at h
    split at h
    · rename_i index hstored
      simp only [Option.bind_eq_bind, Option.bind_eq_some_iff] at h
      obtain ⟨q, hq, h⟩ := h
      cases h
      exact .push hstored hq
    · cases h
  | worker w => exact move_of_workerThread rfl h
  | queue i e =>
    simp only [step] at h
    split_ifs at h with hcall
    simp only [Option.bind_eq_bind, Option.bind_eq_some_iff] at h
    obtain ⟨q, hq, h⟩ := h
    cases h
    exact .queue (by simpa using hcall) hq

end

/-! ## Every task is in one place -/

structure Sound (q : ConcurrentQueue Task) : Prop where
  controlled : q.Controlled
  isOpen : q.Open
  refines : ∃ cells, q.Refines cells

/-- How often a task is in a wrapper or has been executed. -/
def beyond (p : StealThreadPool n) (task : Task) : Nat :=
  (∑ w, (p.wrapper w).toList.count task) + p.executed.count task

structure Conserved (p : StealThreadPool n) : Prop where
  sound : ∀ i, Sound (p.m_thread_work_ques i)
  /-- Only the workers take from a queue, each from the one it asks. -/
  takers : ∀ i tid, ((p.m_thread_work_ques i).threads tid).isConsuming = true →
    ∃ w : Fin n, tid = w ∧ (p.workers w).asks w = some i
  /-- A task is carried by its own submission only. -/
  givers : ∀ i tid task, ((p.m_thread_work_ques i).threads tid).carried = some task →
    tid = n + task ∧ p.submissions task = .pushing i
  pushed : ∀ i task, (p.m_thread_work_ques i).pushed.count task = (p.linked i task).toNat
  taken : ∀ task, ∑ i, (p.m_thread_work_ques i).taken.count task = p.beyond task

section

variable {p p' : StealThreadPool n} {w i : Fin n} {task : Task} {q : ConcurrentQueue Task}

theorem map_setQueue {β : Type} {f : ConcurrentQueue Task → β}
    (h : f q = f (p.m_thread_work_ques i)) (j : Fin n) :
    f ((p.setQueue i q).m_thread_work_ques j) = f (p.m_thread_work_ques j) :=
  Threads.map_update h j

theorem effect_of_step {e : ConcurrentQueue.Event Task} {r : ConcurrentQueue Task}
    (he : isCall e = false) (h : q.step e = some r) : ConcurrentQueue.Effect q r := by
  refine (ConcurrentQueue.move_of_step h).effect ?_
  rintro tid c rfl
  cases he

theorem Sound.step {e : ConcurrentQueue.Event Task} {r : ConcurrentQueue Task} (hq : Sound q)
    (h : q.step e = some r) (he : ∀ tid, e ≠ .call tid .exit) : Sound r := by
  obtain ⟨hcontrolled, hopen, hrefines⟩ :=
    ConcurrentQueue.step_refines h he ⟨hq.controlled, hq.isOpen, hq.refines⟩
  exact ⟨hcontrolled, hopen, hrefines⟩

theorem Move.sound (h : Move p p') (hp : p.Conserved) : ∀ i, Sound (p'.m_thread_work_ques i) := by
  have hupdate : ∀ i q, Sound q →
      ∀ j, Sound (Function.update p.m_thread_work_ques i q j) := by
    intro i q hq
    rw [Function.forall_update_iff p.m_thread_work_ques fun _ q => Sound q]
    exact ⟨hq, fun j _ => hp.sound j⟩
  cases h with
  | submission | turn | got | missed | execute => exact hp.sound
  | push _ hq => exact hupdate _ _ ((hp.sound _).step hq nofun)
  | ask _ _ hc hq =>
    refine hupdate _ _ ((hp.sound _).step hq ?_)
    rcases hc with rfl | rfl <;> exact nofun
  | queue he hq =>
    refine hupdate _ _ ((hp.sound _).step hq ?_)
    rintro tid rfl
    cases he

theorem Worker.asks_of_isFree {s : Worker n} (h : s.isFree = true) : s.asks w = none := by
  cases s <;> first | rfl | cases h

/-- What a queue's step does not begin, nobody has begun to take. -/
theorem takers_setQueue (hp : p.Conserved) (hq : ∀ tid, (q.threads tid).isConsuming = true →
    ((p.m_thread_work_ques i).threads tid).isConsuming = true) :
    ∀ j tid, ((Function.update p.m_thread_work_ques i q j).threads tid).isConsuming = true →
      ∃ w : Fin n, tid = w ∧ (p.workers w).asks w = some j := by
  rw [Function.forall_update_iff p.m_thread_work_ques fun j q => ∀ tid,
    (q.threads tid).isConsuming = true → ∃ w : Fin n, tid = w ∧ (p.workers w).asks w = some j]
  exact ⟨fun tid htid => hp.takers i tid (hq tid htid), fun j _ => hp.takers j⟩

/-- A worker turns to something else. -/
theorem takers_setWorker (hp : p.Conserved) {s : Worker n}
    (hw : ∀ j, (p.workers w).asks w = some j →
      ((p.m_thread_work_ques j).threads w).isConsuming = false) :
    ∀ j tid, ((p.m_thread_work_ques j).threads tid).isConsuming = true →
      ∃ w' : Fin n, tid = w' ∧ (Function.update p.workers w s w').asks w' = some j := by
  intro j tid htid
  obtain ⟨w', rfl, hasks⟩ := hp.takers j tid htid
  by_cases hw' : w' = w
  · subst hw'
    rw [hw j hasks] at htid
    cases htid
  · exact ⟨w', rfl, by rw [Function.update_of_ne hw']; exact hasks⟩

theorem Move.takers (h : Move p p') (hp : p.Conserved) :
    ∀ i tid, ((p'.m_thread_work_ques i).threads tid).isConsuming = true →
      ∃ w : Fin n, tid = w ∧ (p'.workers w).asks w = some i := by
  cases h with
  | submission => exact hp.takers
  | push _ hq =>
    refine takers_setQueue hp fun tid htid => ?_
    rcases ConcurrentQueue.isConsuming_of_call hq htid with ⟨-, hc⟩ | htid
    · cases hc
    · exact htid
  | turn hw => exact takers_setWorker hp fun j hj => by simp [Worker.asks_of_isFree hw] at hj
  | @ask w i s c q hw hs _ hq =>
    have hold : ∀ j tid, ((p.m_thread_work_ques j).threads tid).isConsuming = true →
        ∃ w' : Fin n, tid = w' ∧ (Function.update p.workers w s w').asks w' = some j :=
      takers_setWorker hp fun j hj => by simp [Worker.asks_of_isFree hw] at hj
    intro j tid htid
    change ((Function.update p.m_thread_work_ques i _ j).threads tid).isConsuming = true at htid
    by_cases hj : j = i
    · subst hj
      rw [Function.update_self] at htid
      rcases ConcurrentQueue.isConsuming_of_call hq htid with ⟨ht, -⟩ | htid
      · exact ⟨w, ht, by simpa [setWorker] using hs⟩
      · exact hold j tid htid
    · rw [Function.update_of_ne hj] at htid
      exact hold j tid htid
  | got hw hpc | missed hw hpc =>
    refine takers_setWorker hp fun j hj => ?_
    obtain rfl := Option.some.inj (hw.symm.trans hj)
    rw [hpc]
    rfl
  | execute hw => exact takers_setWorker hp fun j hj => by simp [hw, Worker.asks] at hj
  | queue he hq => exact takers_setQueue hp fun tid => (effect_of_step he hq).isConsuming

theorem Move.givers (h : Move p p') (hp : p.Conserved) : ∀ i tid task,
    ((p'.m_thread_work_ques i).threads tid).carried = some task →
      tid = n + task ∧ p'.submissions task = .pushing i := by
  have hupdate : ∀ i q, (∀ tid task, (q.threads tid).carried = some task →
        ((p.m_thread_work_ques i).threads tid).carried = some task) → ∀ j tid task,
      ((Function.update p.m_thread_work_ques i q j).threads tid).carried = some task →
        tid = n + task ∧ p.submissions task = .pushing j := by
    intro i q hq
    rw [Function.forall_update_iff p.m_thread_work_ques fun j q => ∀ tid task,
      (q.threads tid).carried = some task → tid = n + task ∧ p.submissions task = .pushing j]
    exact ⟨fun tid task h => hp.givers i tid task (hq tid task h), fun j _ => hp.givers j⟩
  cases h with
  | @submission task₀ s m hout hin =>
    intro i tid task hcarried
    obtain ⟨htid, hpushing⟩ := hp.givers i tid task hcarried
    have hne : task ≠ task₀ := by
      rintro rfl
      rw [hpushing] at hout
      cases hout
    exact ⟨htid, by simpa [setSubmission, hne] using hpushing⟩
  | @push task₀ i q hstored hq =>
    intro j tid task hcarried
    change ((Function.update p.m_thread_work_ques i _ j).threads tid).carried = _ at hcarried
    -- a task that is carried already is another one
    have hold : ((p.m_thread_work_ques j).threads tid).carried = some task →
        tid = n + task ∧ Function.update p.submissions task₀ (.pushing i) task = .pushing j := by
      intro hcarried
      obtain ⟨htid, hpushing⟩ := hp.givers j tid task hcarried
      have hne : task ≠ task₀ := by
        rintro rfl
        cases hstored.symm.trans hpushing
      exact ⟨htid, by rw [Function.update_of_ne hne]; exact hpushing⟩
    by_cases hj : j = i
    · subst hj
      rw [Function.update_self] at hcarried
      rcases ConcurrentQueue.carried_of_call hq hcarried with ⟨ht, hc⟩ | hcarried
      · cases hc
        exact ⟨ht, by simp [setSubmission]⟩
      · exact hold hcarried
    · rw [Function.update_of_ne hj] at hcarried
      exact hold hcarried
  | turn | got | missed | execute => exact hp.givers
  | @ask w i s c q _ _ hc hq =>
    refine hupdate i _ fun tid task hcarried => ?_
    rcases ConcurrentQueue.carried_of_call hq hcarried with ⟨-, rfl⟩ | hcarried
    · rcases hc with hc | hc <;> cases hc
    · exact hcarried
  | queue he hq => exact hupdate _ _ fun _ _ => (effect_of_step he hq).carried

theorem Move.pushed (h : Move p p') (hp : p.Conserved) : ∀ i task,
    (p'.m_thread_work_ques i).pushed.count task = (p'.linked i task).toNat := by
  have hsame : ∀ {j task}, (p'.m_thread_work_ques j).pushed = (p.m_thread_work_ques j).pushed →
      p'.linked j task = p.linked j task →
        (p'.m_thread_work_ques j).pushed.count task = (p'.linked j task).toNat := by
    intro j task hpushed hlinked
    rw [hpushed, hlinked, hp.pushed j task]
  cases h with
  | @submission task₀ s m hout hin =>
    intro i task
    refine hsame rfl ?_
    by_cases htask : task = task₀
    · subst htask
      have hin' : s ≠ .pushing i := by
        rintro rfl
        cases hin
      have hout' : p.submissions task ≠ .pushing i := by
        intro h
        simp [h, Submission.isPushing] at hout
      simp [linked, setSubmission, hin', hout']
    · simp [linked, setSubmission, htask]
  | @push task₀ i q hstored hq =>
    obtain ⟨-, rfl⟩ := ConcurrentQueue.call_eq hq
    intro j task
    refine hsame ?_ ?_
    · refine map_setQueue (f := ConcurrentQueue.pushed) (p := p) (i := i) ?_ j
      rfl
    · by_cases htask : task = task₀
      · subst htask
        by_cases hj : j = i
        · subst hj
          simp [linked, setSubmission, setQueue, hstored, ConcurrentQueue.goto,
            ConcurrentQueue.enter, ConcurrentQueue.Pc.carried]
        · simp [linked, setSubmission, hstored, Ne.symm hj]
      · by_cases hj : j = i
        · subst hj
          simp [linked, setSubmission, setQueue, htask, ConcurrentQueue.goto]
        · simp [linked, setSubmission, setQueue, htask, hj]
  | turn | got | missed | execute => exact hp.pushed
  | @ask w i s c q _ _ hc hq =>
    obtain ⟨-, rfl⟩ := ConcurrentQueue.call_eq hq
    intro j task
    refine hsame ?_ ?_
    · refine map_setQueue (f := ConcurrentQueue.pushed) (p := p) (i := i) ?_ j
      rfl
    · have hne : n + task ≠ w := by omega
      by_cases hj : j = i
      · subst hj
        simp [linked, setWorker, setQueue, ConcurrentQueue.goto, hne]
      · simp [linked, setWorker, setQueue, hj]
  | @queue i e r he hq =>
    intro j task
    by_cases hj : j = i
    · subst hj
      have hr : (p.setQueue j r).m_thread_work_ques j = r := Function.update_self ..
      cases effect_of_step he hq with
      | quiet hpushed _ hthreads =>
        refine hsame (by rw [hr, hpushed]) ?_
        simp only [linked, hr, hthreads.carried]
        rfl
      | @linked tid v hpc hpushed _ hthreads =>
        obtain ⟨rfl, hpushing⟩ := hp.givers j tid v (by rw [hpc]; rfl)
        by_cases htask : task = v
        · subst htask
          have hbefore : p.linked j task = false := by
            simp [linked, hpc, ConcurrentQueue.Pc.carried]
          have hafter : (p.setQueue j r).linked j task = true := by
            simp [linked, setQueue, hthreads, hpushing, ConcurrentQueue.Pc.carried]
          rw [hr, hpushed, hafter, List.count_append, hp.pushed j task, hbefore]
          simp
        · have hsub : (p.setQueue j r).linked j task = p.linked j task := by
            simp [linked, setQueue, hthreads, htask]
          rw [hr, hpushed, hsub, List.count_append, hp.pushed j task]
          simp [Ne.symm htask]
      | @answered tid v hconsuming hpushed _ hthreads =>
        obtain ⟨w, rfl, -⟩ := hp.takers j tid hconsuming
        refine hsame (by rw [hr, hpushed]) ?_
        have hne : n + task ≠ w := by omega
        simp [linked, setQueue, hthreads, hne]
    · have hr : (p.setQueue i r).m_thread_work_ques j = p.m_thread_work_ques j :=
        Function.update_of_ne hj ..
      refine hsame (by rw [hr]) ?_
      simp only [linked, hr]
      rfl

theorem wrapper_of_isFree (h : (p.workers w).isFree = true) : p.wrapper w = none := by
  rw [wrapper]
  cases hs : p.workers w with
  | looking => rfl
  | searching => rfl
  | popping | stealing | holding => simp [hs, Worker.isFree] at h

theorem wrapper_of_asks (h : (p.workers w).asks w = some i) :
    p.wrapper w = ((p.m_thread_work_ques i).threads w).value := by
  rw [wrapper]
  cases hs : p.workers w with
  | popping | stealing =>
    obtain rfl : _ = i := by simpa [hs, Worker.asks] using h
    rfl
  | looking | searching | holding => simp [hs, Worker.asks] at h

/-- A wrapper depends on its worker, and on what the worker has been told by the queue it asks. -/
theorem wrapper_congr (hw : p'.workers w = p.workers w)
    (hvalue : ∀ i, (p.workers w).asks w = some i → ((p'.m_thread_work_ques i).threads w).value =
      ((p.m_thread_work_ques i).threads w).value) : p'.wrapper w = p.wrapper w := by
  rw [wrapper, wrapper, hw]
  cases hs : p.workers w with
  | looking | searching | holding => rfl
  | popping | stealing => exact hvalue _ (by rw [hs]; rfl)

theorem beyond_congr (hwrapper : ∀ w, p'.wrapper w = p.wrapper w)
    (hexecuted : p'.executed = p.executed) : p'.beyond = p.beyond := by
  funext task
  simp only [beyond, hwrapper, hexecuted]

/-- One worker's wrapper changes. -/
theorem beyond_change (p p' : StealThreadPool n) (w : Fin n) {more : List Task}
    (hothers : ∀ w', w' ≠ w → p'.wrapper w' = p.wrapper w')
    (hexecuted : p'.executed = p.executed ++ more) (task : Task) :
    p'.beyond task + (p.wrapper w).toList.count task =
      p.beyond task + (p'.wrapper w).toList.count task + more.count task := by
  have hsum := Bag.sum_change (f := fun w => (p'.wrapper w).toList.count task)
    (g := fun w => (p.wrapper w).toList.count task) w fun w' hw' => by rw [hothers w' hw']
  simp only [beyond, hexecuted, List.count_append]
  omega

theorem Move.taken (h : Move p p') (hp : p.Conserved) (task : Task) :
    ∑ i, (p'.m_thread_work_ques i).taken.count task = p'.beyond task := by
  have hsame : (∀ i, (p'.m_thread_work_ques i).taken = (p.m_thread_work_ques i).taken) →
      p'.beyond = p.beyond →
        ∑ i, (p'.m_thread_work_ques i).taken.count task = p'.beyond task := by
    intro htaken hbeyond
    simp only [htaken, hbeyond]
    exact hp.taken task
  cases h with
  | submission => exact hsame (fun _ => rfl) (beyond_congr (fun _ => rfl) rfl)
  | @push task₀ i q hstored hq =>
    obtain ⟨-, rfl⟩ := ConcurrentQueue.call_eq hq
    refine hsame (map_setQueue (f := ConcurrentQueue.taken) (p := p) (i := i) rfl) ?_
    refine beyond_congr (fun w => wrapper_congr rfl fun j _ => ?_) rfl
    refine map_setQueue (f := fun q => (q.threads w).value) (p := p) (i := i) ?_ j
    have hne : (w : Nat) ≠ n + task₀ := by omega
    simp [ConcurrentQueue.goto, hne]
  | @turn w s hw hs =>
    refine hsame (fun _ => rfl) (beyond_congr (fun w' => ?_) rfl)
    by_cases hw' : w' = w
    · subst hw'
      rw [wrapper_of_isFree hw, wrapper_of_isFree (by simpa [setWorker] using hs)]
    · exact wrapper_congr (by simp [setWorker, hw']) fun _ _ => rfl
  | @ask w i s c q hw hs hc hq =>
    obtain ⟨-, rfl⟩ := ConcurrentQueue.call_eq hq
    refine hsame (map_setQueue (f := ConcurrentQueue.taken) (p := p) (i := i) rfl) ?_
    refine beyond_congr (fun w' => ?_) rfl
    by_cases hw' : w' = w
    · subst hw'
      rw [wrapper_of_isFree hw, wrapper_of_asks (i := i) (by simpa [setWorker] using hs)]
      rcases hc with rfl | rfl <;>
        simp [setWorker, setQueue, ConcurrentQueue.goto, ConcurrentQueue.enter,
          ConcurrentQueue.Pc.value]
    · refine wrapper_congr (by simp [setWorker, setQueue, hw']) fun j _ => ?_
      refine map_setQueue (f := fun q => (q.threads w').value) (p := p) (i := i) ?_ j
      have hne : (w' : Nat) ≠ w := fun h => hw' (Fin.ext h)
      simp [ConcurrentQueue.goto, hne]
  | @got w i task₀ hw hpc =>
    refine hsame (fun _ => rfl) (beyond_congr (fun w' => ?_) rfl)
    by_cases hw' : w' = w
    · subst hw'
      rw [wrapper_of_asks hw, hpc]
      simp [wrapper, setWorker, ConcurrentQueue.Pc.value]
    · exact wrapper_congr (by simp [setWorker, hw']) fun _ _ => rfl
  | @missed w i s hw hpc hs =>
    refine hsame (fun _ => rfl) (beyond_congr (fun w' => ?_) rfl)
    by_cases hw' : w' = w
    · subst hw'
      rw [wrapper_of_asks hw, hpc, wrapper_of_isFree (by simpa [setWorker] using hs)]
      rfl
    · exact wrapper_congr (by simp [setWorker, hw']) fun _ _ => rfl
  | @execute w task₀ hw =>
    refine hsame (fun _ => rfl) ?_
    funext task
    have hbefore : p.wrapper w = some task₀ := by simp [wrapper, hw]
    have hafter : ({ p with executed := p.executed ++ [task₀] }.setWorker w .looking).wrapper w =
        none := wrapper_of_isFree (by simp [setWorker, Worker.isFree])
    have hchange := beyond_change p ({ p with executed := p.executed ++ [task₀] }.setWorker w
      .looking) w (fun w' hw' => wrapper_congr (by simp [setWorker, hw']) fun _ _ => rfl) rfl task
    simp only [hbefore, hafter, Option.toList_none, Option.toList_some, List.count_nil] at hchange
    omega
  | @queue i e r he hq =>
    have hexecuted : (p.setQueue i r).executed = p.executed ++ [] := (List.append_nil _).symm
    have hothers : (∀ w, (r.threads w).value = ((p.m_thread_work_ques i).threads w).value) →
        (p.setQueue i r).beyond = p.beyond := fun hvalue =>
      beyond_congr (fun w => wrapper_congr rfl fun j _ =>
        map_setQueue (f := fun q => (q.threads w).value) (hvalue w) j) rfl
    cases effect_of_step he hq with
    | quiet _ htaken hthreads =>
      exact hsame (map_setQueue (f := ConcurrentQueue.taken) htaken)
        (hothers fun w => hthreads.value w)
    | @linked tid v hpc _ htaken hthreads =>
      refine hsame (map_setQueue (f := ConcurrentQueue.taken) htaken) (hothers fun w => ?_)
      rw [hthreads]
      exact Threads.map_update (by rw [hpc]; rfl) w
    | @answered tid v hconsuming _ htaken hthreads =>
      obtain ⟨w, rfl, hasks⟩ := hp.takers i tid hconsuming
      have hbefore : p.wrapper w = none :=
        (wrapper_of_asks hasks).trans (ConcurrentQueue.Pc.value_of_isConsuming hconsuming)
      have hafter : (p.setQueue i r).wrapper w = v :=
        (wrapper_of_asks (p := p.setQueue i r) (i := i) hasks).trans
          (by simp [setQueue, hthreads, ConcurrentQueue.Pc.value])
      have hwrapper : ∀ w', w' ≠ w → (p.setQueue i r).wrapper w' = p.wrapper w' := by
        intro w' hw'
        refine wrapper_congr rfl fun j _ => ?_
        refine map_setQueue (f := fun q => (q.threads w').value) ?_ j
        have hne : (w' : Nat) ≠ w := fun h => hw' (Fin.ext h)
        simp [hthreads, hne]
      have hchange := beyond_change p (p.setQueue i r) w hwrapper hexecuted task
      have hsum := Bag.sum_change
        (f := fun j => ((p.setQueue i r).m_thread_work_ques j).taken.count task)
        (g := fun j => (p.m_thread_work_ques j).taken.count task) i fun j hj => by
          simp [setQueue, hj]
      have hr : (p.setQueue i r).m_thread_work_ques i = r := Function.update_self ..
      have htotal := hp.taken task
      simp only [hr, htaken, List.count_append] at hsum
      simp only [hbefore, hafter, Option.toList_none, List.count_nil] at hchange
      omega

theorem Move.conserved (h : Move p p') (hp : p.Conserved) : p'.Conserved :=
  ⟨h.sound hp, h.takers hp, h.givers hp, h.pushed hp, h.taken hp⟩

theorem conserved_initial : ({} : StealThreadPool n).Conserved where
  sound := fun i => ⟨ConcurrentQueue.controlled_initial, ⟨rfl, fun _ => rfl⟩,
    [], ConcurrentQueue.refines_initial⟩
  takers := fun i tid h => by cases h
  givers := fun i tid task h => by cases h
  pushed := fun i task => by simp [ConcurrentQueue.pushed, Deque.pushed, linked]
  taken := fun task => by simp [ConcurrentQueue.taken, beyond, wrapper, Worker.asks]

/-- A task is linked into one queue at most. -/
theorem sum_linked (p : StealThreadPool n) (task : Task) :
    ∑ i, (p.linked i task).toNat = (p.submitted task).toNat := by
  have hnot : ∀ i, p.submissions task ≠ .pushing i → (p.linked i task).toNat = 0 := by
    intro i hi
    simp [linked, hi]
  rw [submitted]
  split
  · rename_i i hi
    refine Finset.sum_eq_single i (fun j _ hj => hnot j ?_) (by simp)
    rw [hi]
    exact fun h => hj (Submission.pushing.inj h).symm
  · rename_i hi
    exact Finset.sum_eq_zero fun i _ => hnot i (hi i)

end

/-- In every run, each task that has been submitted is once in one of the queues, or in one of
the wrappers, or executed, and nothing else is; the queues are deques. -/
theorem each_task_once [NeZero n] {p : StealThreadPool n} {es : List (Event n)}
    (h : run step {} es = some p) : ∃ cells : Fin n → List (Addr × Task),
      (∀ i, (p.m_thread_work_ques i).Represents (cells i)) ∧
      (∀ task, (∑ i, ((cells i).map Prod.snd).count task) +
        (∑ w, (p.wrapper w).toList.count task) + p.executed.count task =
          (p.submitted task).toNat) ∧
      p.executed.Nodup := by
  have hp : p.Conserved :=
    run_preserves (fun _ _ _ hstep => (move_of_step hstep).conserved) h conserved_initial
  choose cells hcells using fun i => (hp.sound i).refines
  have hrepresents : ∀ i, (p.m_thread_work_ques i).Represents (cells i) := fun i =>
    (hcells i).represents (hp.sound i).isOpen
  have hcount : ∀ task, (∑ i, ((cells i).map Prod.snd).count task) +
      (∑ w, (p.wrapper w).toList.count task) + p.executed.count task =
        (p.submitted task).toNat := by
    intro task
    have hqueue : ∀ i, (p.linked i task).toNat =
        (p.m_thread_work_ques i).taken.count task + ((cells i).map Prod.snd).count task := by
      intro i
      rw [← hp.pushed i task, ← List.count_append]
      exact (hrepresents i).conserved.count_eq task
    have hsum := sum_linked p task
    simp only [hqueue, Finset.sum_add_distrib, hp.taken task, beyond] at hsum
    omega
  refine ⟨cells, hrepresents, hcount, ?_⟩
  rw [List.nodup_iff_count_le_one]
  intro task
  have hle := Bool.toNat_le (p.submitted task)
  have := hcount task
  omega

/-- Two submissions load the same index; one worker steals what the other does not pop. -/
theorem each_task_once_stolen : ∃ p : StealThreadPool 2,
    run step {} [.load 0, .load 1, .store 0, .store 1, .push 0, .push 1,
      .queue 1 (.advance 2), .queue 1 (.link 2 10), .queue 1 (.advance 2),
      .queue 1 (.advance 3), .queue 1 (.link 3 11), .queue 1 (.advance 3),
      .worker 0, .queue 0 (.advance 0), .queue 0 (.advance 0), .worker 0, .worker 0, .worker 0,
      .queue 1 (.advance 0), .worker 1, .queue 1 (.advance 1), .queue 1 (.advance 1),
      .queue 1 (.advance 1), .worker 0, .worker 0] = some p ∧
    p.executed = [1] ∧ p.wrapper 1 = some 0 ∧
    ∃ cells : Fin 2 → List (Addr × Task),
      (∀ i, (p.m_thread_work_ques i).Represents (cells i)) ∧
      (∀ task, (∑ i, ((cells i).map Prod.snd).count task) +
        (∑ w, (p.wrapper w).toList.count task) + p.executed.count task =
          (p.submitted task).toNat) ∧
      p.executed.Nodup := by
  have h : run step ({} : StealThreadPool 2) [.load 0, .load 1, .store 0, .store 1, .push 0,
      .push 1, .queue 1 (.advance 2), .queue 1 (.link 2 10), .queue 1 (.advance 2),
      .queue 1 (.advance 3), .queue 1 (.link 3 11), .queue 1 (.advance 3),
      .worker 0, .queue 0 (.advance 0), .queue 0 (.advance 0), .worker 0, .worker 0, .worker 0,
      .queue 1 (.advance 0), .worker 1, .queue 1 (.advance 1), .queue 1 (.advance 1),
      .queue 1 (.advance 1), .worker 0, .worker 0] = some _ := rfl
  exact ⟨_, h, rfl, rfl, each_task_once h⟩

end StealThreadPool

end NBRaft.Concurrency
