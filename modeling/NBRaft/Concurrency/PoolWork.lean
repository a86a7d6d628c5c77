import NBRaft.Library.Progress
import NBRaft.Concurrency.PoolDrain
import NBRaft.Concurrency.PoolSleep

/-!
# The work of the pool gets done

As long as `stop` is not called, no task waits in the queue while all workers sleep: either a
submission has still to notify, or some worker will look at the queue again. So when no more tasks
are submitted the steps of the pool come to an end, and by then every task has been executed
once and all workers are blocked.
-/

namespace NBRaft.Concurrency.SimpleThreadPool

open Transition Threads

variable {n : Nat} {τ : Type}

/-- The sections under `m_cv_mt`. -/
def Worker.holds : Worker τ → Bool
  | .predicate | .block | .take => true
  | _ => false

def Submission.holds : Submission → Bool
  | .push | .unlock => true
  | _ => false

def holders (p : SimpleThreadPool n τ) : Fin n ⊕ τ → Bool :=
  Sum.elim (fun w => (p.workers w).holds) fun task => (p.submissions task).holds

/-- The mutex is owned by the one thread that is in a section under it. -/
def Mutexed (p : SimpleThreadPool n τ) : Prop := Listed id p.holders p.m_cv_mt.toList

/-- The worker will look at the queue again. -/
def Worker.isAwake : Worker τ → Bool
  | .block | .blocked | .done => false
  | _ => true

/-- A worker is where it may be with this queue, before `stop`. -/
def Worker.Fits (tasks : List τ) : Worker τ → Prop
  | .block => tasks = []
  | .take => tasks ≠ []
  | .done => False
  | _ => True

/-- Somebody will see to it that the queue is looked at. -/
def Attended (p : SimpleThreadPool n τ) : Prop :=
  (∃ task, (p.submissions task).owesNotify = true) ∨ ∃ w, (p.workers w).isAwake = true

/-- What holds before `stop` is called. -/
structure Open (p : SimpleThreadPool n τ) : Prop where
  stop : p.stop = .outside
  m_stop : p.m_stop = false
  mutex : p.Mutexed
  fits : ∀ w, (p.workers w).Fits p.m_tasks
  accepting : ∀ task, p.submissions task ≠ .returned false
  attended : p.m_tasks ≠ [] → p.Attended

theorem mutexed_initial : ({} : SimpleThreadPool n τ).Mutexed :=
  ⟨List.nodup_nil, fun i => by cases i <;> simp [holders, Worker.holds, Submission.holds]⟩

theorem open_initial : ({} : SimpleThreadPool n τ).Open where
  stop := rfl
  m_stop := rfl
  mutex := mutexed_initial
  fits := fun _ => trivial
  accepting := nofun
  attended := fun h => absurd rfl h

section

variable {p q : SimpleThreadPool n τ} {w : Fin n} {task : τ} {e : Event n τ} {pc : Worker τ}
  {tasks : List τ}

theorem Worker.fits_of_not_holds (h : pc.holds = false) (hdone : pc ≠ .done) : pc.Fits tasks := by
  cases pc <;> trivial

theorem Open.ne_done (hp : p.Open) (w : Fin n) : p.workers w ≠ .done := by
  intro hw
  have hfits := hp.fits w
  rw [hw] at hfits
  exact hfits

theorem Open.owner_worker (hp : p.Open) (hw : (p.workers w).holds = true) :
    p.m_cv_mt = some (.inl w) := (hp.mutex.owner_iff (i := Sum.inl w)).mp (by exact hw)

theorem Open.owner_submission (hp : p.Open) (hs : (p.submissions task).holds = true) :
    p.m_cv_mt = some (.inr task) := (hp.mutex.owner_iff (i := Sum.inr task)).mp (by exact hs)

theorem Open.not_holds_worker (hp : p.Open) (howner : p.m_cv_mt = some (.inr task)) (w : Fin n) :
    (p.workers w).holds = false := by
  rw [Bool.eq_false_iff]
  intro hw
  cases howner.symm.trans (hp.owner_worker hw)

theorem attended_of_isAwake (hpc : pc.isAwake = true) : (p.setWorker w pc).Attended :=
  .inr ⟨w, by simpa [SimpleThreadPool.setWorker] using hpc⟩

variable [DecidableEq τ]

theorem holders_setWorker :
    (p.setWorker w pc).holders = Function.update p.holders (.inl w) pc.holds := by
  funext i
  cases i with
  | inl v =>
    by_cases hv : v = w
    · subst hv
      simp [holders, setWorker]
    · simp [holders, setWorker, hv]
  | inr task => simp [holders, setWorker]

theorem holders_setSubmission {pc : Submission} :
    (p.setSubmission task pc).holders = Function.update p.holders (.inr task) pc.holds := by
  funext i
  cases i with
  | inl v => simp [holders, setSubmission]
  | inr other =>
    by_cases hother : other = task
    · subst hother
      simp [holders, setSubmission]
    · simp [holders, setSubmission, hother]

/-- A submission goes on, and the mutex is with whoever it should be with then. -/
theorem mutexed_setSubmission {pc : Submission} {owner : Option (Fin n ⊕ τ)}
    (h : Listed id (Function.update p.holders (.inr task) pc.holds) owner.toList) :
    ({ p with m_cv_mt := owner }.setSubmission task pc).Mutexed :=
  (congrArg (Listed id · owner.toList) holders_setSubmission).mpr h

theorem mutexed_setWorker {owner : Option (Fin n ⊕ τ)}
    (h : Listed id (Function.update p.holders (.inl w) pc.holds) owner.toList) :
    ({ p with m_cv_mt := owner }.setWorker w pc).Mutexed :=
  (congrArg (Listed id · owner.toList) holders_setWorker).mpr h

/-- One thread at a time is under the mutex, `stop` or no `stop`. -/
theorem Move.mutexed (h : Move p e q) (hp : p.Mutexed) : q.Mutexed := by
  cases h with
  | submit hs | refuse hs | accept hs | push hs | notifyNone hs | leave hs =>
    exact mutexed_setSubmission (hp.keep (by simp [holders, hs, Submission.holds]))
  | lockSubmit hs hfree =>
    rw [Mutexed, hfree] at hp
    exact mutexed_setSubmission (hp.lock rfl)
  | @unlock task hs =>
    refine mutexed_setSubmission (hp.unlock (i := .inr task) ?_ rfl)
    simp [holders, hs, Submission.holds]
  | @notifyOne task w hs hw =>
    have hwoken : (p.setWorker w .relock).Mutexed :=
      mutexed_setWorker (hp.keep (by simp [holders, hw, Worker.holds]))
    refine mutexed_setSubmission (hwoken.keep (i := .inr task) ?_)
    simp [holders, SimpleThreadPool.setWorker, hs, Submission.holds]
  | enter hw | quit hw | wake hw | ready hw | notReady hw | run hw =>
    exact mutexed_setWorker (hp.keep (by simp [holders, hw, Worker.holds]))
  | lock hw hfree =>
    rw [Mutexed, hfree] at hp
    exact mutexed_setWorker (hp.lock rfl)
  | @block w hw | @leaveEmpty w hw | @take w _ _ hw =>
    refine mutexed_setWorker (hp.unlock (i := .inl w) ?_ rfl)
    simp [holders, hw, Worker.holds]
  | notifyAll hs =>
    refine hp.congr fun i => ?_
    cases i with
    | inl w =>
      by_cases hw : p.workers w = .blocked <;> simp [holders, hw, Worker.holds]
    | inr task => rfl
  | stop | store | joined => exact hp

theorem Open.accepting_update {pc : Submission} (hp : p.Open) (hpc : pc ≠ .returned false) :
    ∀ other, Function.update p.submissions task pc other ≠ .returned false :=
  (forall_update_iff_of_forall (P := (· ≠ Submission.returned false)) hp.accepting).mpr hpc

/-- A submission goes on, and leaves the queue as it is. -/
theorem Open.setSubmission {pc : Submission} {owner : Option (Fin n ⊕ τ)} (hp : p.Open)
    (hmutex : ({ p with m_cv_mt := owner }.setSubmission task pc).Mutexed)
    (hpc : pc ≠ .returned false)
    (hattended : p.m_tasks ≠ [] → (p.setSubmission task pc).Attended) :
    ({ p with m_cv_mt := owner }.setSubmission task pc).Open where
  stop := hp.stop
  m_stop := hp.m_stop
  mutex := hmutex
  fits := hp.fits
  accepting := hp.accepting_update hpc
  attended := hattended

omit [DecidableEq τ] in
/-- A worker goes on, and leaves the queue as it is. -/
theorem Open.setWorker {owner : Option (Fin n ⊕ τ)} (hp : p.Open)
    (hmutex : ({ p with m_cv_mt := owner }.setWorker w pc).Mutexed)
    (hpc : pc.Fits p.m_tasks) (hattended : p.m_tasks ≠ [] → (p.setWorker w pc).Attended) :
    ({ p with m_cv_mt := owner }.setWorker w pc).Open where
  stop := hp.stop
  m_stop := hp.m_stop
  mutex := hmutex
  fits := (forall_update_iff_of_forall hp.fits).mpr hpc
  accepting := hp.accepting
  attended := hattended

theorem attended_of_owesNotify {pc : Submission} (hpc : pc.owesNotify = true) :
    (p.setSubmission task pc).Attended :=
  .inl ⟨task, by simpa [SimpleThreadPool.setSubmission] using hpc⟩

/-- A submission that did not have to notify goes on. -/
theorem Attended.setSubmission {pc : Submission} (h : p.Attended)
    (hs : (p.submissions task).owesNotify = false) : (p.setSubmission task pc).Attended := by
  rcases h with ⟨other, hother⟩ | hawake
  · exact .inl ⟨other, update_of (P := fun pc : Submission => pc.owesNotify = true)
      (by simp [hs]) hother⟩
  · exact .inr hawake

/-- Where no worker is blocked, some worker will look at the queue. -/
theorem Open.attended_of_no_blocked [NeZero n] {pc : Submission} (hp : p.Open)
    (hnone : ∀ w, p.workers w ≠ .blocked) (htasks : p.m_tasks ≠ []) :
    (p.setSubmission task pc).Attended := by
  refine .inr ⟨0, ?_⟩
  have hfits := hp.fits 0
  have hblocked := hnone 0
  change (p.workers 0).isAwake = true
  cases hw : p.workers 0 <;> simp_all [Worker.Fits, Worker.isAwake]

/-- Before `stop`, every step keeps what holds. -/
theorem Move.open [NeZero n] (h : Move p e q) (hp : p.Open) (hq : q.stop = .outside) :
    q.Open := by
  have hmutex := h.mutexed hp.mutex
  cases h with
  | submit hs | accept hs _ =>
    exact hp.setSubmission hmutex nofun fun htasks =>
      (hp.attended htasks).setSubmission (by rw [hs]; rfl)
  | leave hs =>
    exact hp.setSubmission hmutex (by simp) fun htasks =>
      (hp.attended htasks).setSubmission (by rw [hs]; rfl)
  | lockSubmit hs hfree =>
    exact hp.setSubmission hmutex nofun fun _ => attended_of_owesNotify rfl
  | @push task hs =>
    have howner : p.m_cv_mt = some (.inr task) := hp.owner_submission (by rw [hs]; rfl)
    refine ⟨hp.stop, hp.m_stop, hmutex, ?_, ?_, fun _ => attended_of_owesNotify rfl⟩
    · exact fun w => Worker.fits_of_not_holds (hp.not_holds_worker howner w) (hp.ne_done w)
    · exact hp.accepting_update nofun
  | @unlock task hs =>
    exact hp.setSubmission hmutex nofun fun _ => attended_of_owesNotify rfl
  | notifyNone hs hnone =>
    exact hp.setSubmission hmutex nofun (hp.attended_of_no_blocked hnone)
  | @notifyOne task w hs hw =>
    have hwoken : (p.setWorker w .relock).Open :=
      hp.setWorker ((Move.wake hw).mutexed hp.mutex) trivial fun _ => attended_of_isAwake rfl
    refine hwoken.setSubmission hmutex nofun fun _ => .inr ⟨w, ?_⟩
    simp [SimpleThreadPool.setSubmission, SimpleThreadPool.setWorker, Worker.isAwake]
  | enter hw | wake hw | lock hw hfree =>
    exact hp.setWorker hmutex trivial fun _ => attended_of_isAwake rfl
  | @run w task hw =>
    have hopen : (p.setWorker w .test).Open :=
      hp.setWorker hmutex trivial fun _ => attended_of_isAwake rfl
    exact ⟨hopen.stop, hopen.m_stop, hopen.mutex, hopen.fits, hopen.accepting, hopen.attended⟩
  | ready hw htasks =>
    exact hp.setWorker hmutex (htasks.resolve_left (by simp [hp.m_stop]))
      fun _ => attended_of_isAwake rfl
  | notReady hw _ htasks =>
    exact hp.setWorker hmutex htasks fun hne => absurd htasks hne
  | @block w hw =>
    have htasks := hp.fits w
    rw [hw] at htasks
    exact hp.setWorker hmutex trivial fun hne => absurd htasks hne
  | @leaveEmpty w hw htasks =>
    have hfits := hp.fits w
    rw [hw] at hfits
    exact absurd htasks hfits
  | @take w task rest hw htasks =>
    have howner := hp.owner_worker (w := w) (by rw [hw]; rfl)
    refine ⟨hp.stop, hp.m_stop, hmutex, ?_, hp.accepting, fun _ => attended_of_isAwake rfl⟩
    change ∀ v, (Function.update p.workers w (.run task) v).Fits rest
    rw [Function.forall_update_iff p.workers fun _ pc => pc.Fits rest]
    refine ⟨trivial, fun v hv => Worker.fits_of_not_holds ?_ (hp.ne_done v)⟩
    rw [Bool.eq_false_iff]
    intro hholds
    exact hv (Sum.inl.inj (Option.some.inj ((hp.owner_worker hholds).symm.trans howner)))
  | refuse _ hs => simp [hp.m_stop] at hs
  | quit _ hs => simp [hp.m_stop] at hs
  | stop | store | notifyAll | joined => cases hq

/-! ## The steps come to an end -/

/-- A step of a worker or of a submission in progress. -/
def Event.Inner : Event n τ → Prop
  | .worker _ | .submission _ | .notifyOne .. => True
  | _ => False

/-- The steps that a worker may take before it asks for another task. -/
def Worker.rank : Worker τ → Nat
  | .blocked | .done => 0
  | .block | .take => 1
  | .predicate => 2
  | .lock | .relock => 3
  | .test => 4
  | .run _ => 5

/-- The steps of a submission, with those of the worker that it wakes and of the task in the
queue. -/
def Submission.rank : Submission → Nat
  | .fresh | .returned _ => 0
  | .leave => 1
  | .notify => 5
  | .unlock => 6
  | .push => 12
  | .lock => 13
  | .test => 14

def Submission.isBusy : Submission → Bool
  | .fresh | .returned _ => false
  | _ => true

/-- All that is left to do, with these calls of `submit`. A task in the queue is one more round of
the loop for a worker. -/
def toDo (p : SimpleThreadPool n τ) (calls : List τ) : Nat :=
  (∑ w, (p.workers w).rank) + work Submission.rank p.submissions calls + 5 * p.m_tasks.length

variable {calls : List τ}

omit [DecidableEq τ] in
theorem toDo_setWorker (hw : q.workers = Function.update p.workers w pc)
    (hsubmissions : q.submissions = p.submissions)
    (hlt : pc.rank + 5 * q.m_tasks.length < (p.workers w).rank + 5 * p.m_tasks.length) :
    q.toDo calls < p.toDo calls := by
  have hsum := sum_setWorker Worker.rank p w pc
  simp only [toDo, hw, hsubmissions]
  omega

theorem toDo_setSubmission {pc : Submission}
    (hcalls : Covered Submission.isBusy p.submissions calls)
    (hs : q.submissions = Function.update p.submissions task pc)
    (hbusy : (p.submissions task).isBusy = true)
    (hlt : (∑ w, (q.workers w).rank) + pc.rank + 5 * q.m_tasks.length <
      (∑ w, (p.workers w).rank) + (p.submissions task).rank + 5 * p.m_tasks.length) :
    q.toDo calls < p.toDo calls := by
  have hwork := work_update Submission.rank p.submissions pc hcalls.nodup
    (hcalls.mem task hbusy)
  simp only [toDo, hs]
  omega

theorem Move.lowers (h : Move p e q) (he : e.Inner)
    (hcalls : Covered Submission.isBusy p.submissions calls) : q.toDo calls < p.toDo calls := by
  cases h with
  | submit | wake | stop | store | notifyAll | joined => cases he
  | refuse hs | accept hs | lockSubmit hs | unlock hs | notifyNone hs | leave hs =>
    exact toDo_setSubmission hcalls rfl (by rw [hs]; rfl)
      (by simp [hs, SimpleThreadPool.setSubmission, Submission.rank])
  | push hs =>
    refine toDo_setSubmission hcalls rfl (by rw [hs]; rfl) ?_
    simp only [hs, SimpleThreadPool.setSubmission, Submission.rank, List.length_append,
      List.length_singleton]
    omega
  | @notifyOne task w hs hw =>
    refine toDo_setSubmission hcalls rfl (by rw [hs]; rfl) ?_
    have hsum : (∑ v, (Function.update p.workers w .relock v).rank) + 0 =
        (∑ v, (p.workers v).rank) + 3 := by
      have hsum := sum_setWorker Worker.rank p w .relock
      rwa [hw] at hsum
    simp only [hs, SimpleThreadPool.setSubmission, SimpleThreadPool.setWorker, Submission.rank]
    omega
  | enter hw | quit hw | ready hw | notReady hw | block hw | leaveEmpty hw | run hw =>
    exact toDo_setWorker rfl rfl (by simp [hw, SimpleThreadPool.setWorker, Worker.rank])
  | lock hw =>
    refine toDo_setWorker rfl rfl ?_
    rcases hw with hw | hw <;> simp [hw, SimpleThreadPool.setWorker, Worker.rank]
  | take hw htasks =>
    refine toDo_setWorker rfl rfl ?_
    simp only [hw, htasks, SimpleThreadPool.setWorker, Worker.rank, List.length_cons]
    omega

/-- Only a new call of `submit` makes a submission busy. -/
theorem Move.covered (h : Move p e q) (he : ∀ task, e ≠ .submit task)
    (hcalls : Covered Submission.isBusy p.submissions calls) :
    Covered Submission.isBusy q.submissions calls := by
  cases h with
  | submit => exact absurd rfl (he _)
  | refuse hs | accept hs | lockSubmit hs | push hs | unlock hs | notifyNone hs | notifyOne hs
  | leave hs => exact hcalls.update (by rw [hs]; rfl)
  | _ => exact hcalls

theorem exists_covered {es : List (Event n τ)} (h : run step {} es = some p) :
    ∃ calls, Covered Submission.isBusy p.submissions calls := by
  refine run_preserves
    (I := fun p : SimpleThreadPool n τ => ∃ calls, Covered Submission.isBusy p.submissions calls)
    ?_ h ⟨[], List.nodup_nil, nofun⟩
  rintro p e q hst ⟨calls, hcalls⟩
  cases move_of_step hst with
  | @submit task hs => exact hcalls.exists_update task .test
  | _ => exact ⟨calls, (move_of_step hst).covered (fun _ => by nofun) hcalls⟩

/-- `stop` is called by no other step than its call. -/
theorem Move.stop_outside (h : Move p e q) (hq : q.stop = .outside) : p.stop = .outside := by
  cases h with
  | stop | store | notifyAll | joined => cases hq
  | _ => exact hq

theorem Move.stop_eq (h : Move p e q) (he : e.Inner) : q.stop = p.stop := by
  cases h with
  | submit | wake | stop | store | notifyAll | joined => cases he
  | _ => rfl

/-- Inner steps begin no submission. -/
theorem Move.fresh_iff (h : Move p e q) (he : e.Inner) (task : τ) :
    q.submissions task = .fresh ↔ p.submissions task = .fresh := by
  have hupdate : ∀ {other : τ} {pc : Submission}, pc ≠ .fresh → p.submissions other ≠ .fresh →
      (Function.update p.submissions other pc task = .fresh ↔ p.submissions task = .fresh) := by
    intro other pc hpc hother
    by_cases htask : task = other
    · subst htask
      rw [Function.update_self]
      exact iff_of_false hpc hother
    · rw [Function.update_of_ne htask]
  cases h with
  | submit | wake | stop | store | notifyAll | joined => cases he
  | refuse hs | accept hs | lockSubmit hs | push hs | unlock hs | notifyNone hs | notifyOne hs
  | leave hs => exact hupdate nofun (by rw [hs]; nofun)
  | _ => exact Iff.rfl

/-! ## Where they come to an end -/

theorem goes_of_submission_holds (hs : (p.submissions task).holds = true) :
    (p.step (.submission task)).isSome = true := by
  cases hpc : p.submissions task <;> simp_all [Submission.holds, step, submitStep]

theorem goes_of_worker_holds (hw : (p.workers w).holds = true) :
    (p.step (.worker w)).isSome = true := by
  cases hpc : p.workers w with
  | take => cases htasks : p.m_tasks <;> simp [step, workerStep, hpc, htasks]
  | _ => simp_all [Worker.holds, step, workerStep]

theorem goes_of_busy (hfree : p.m_cv_mt = none) (hs : (p.submissions task).isBusy = true) :
    ∃ e, e.Inner ∧ (p.step e).isSome = true := by
  cases hpc : p.submissions task with
  | notify =>
    by_cases hblocked : ∃ w, p.workers w = .blocked
    · obtain ⟨w, hw⟩ := hblocked
      exact ⟨.notifyOne task (some w), trivial, by simp [step, hpc, hw]⟩
    · push Not at hblocked
      exact ⟨.notifyOne task none, trivial, by simp [step, hpc, hblocked]⟩
  | fresh | returned =>
    rw [hpc] at hs
    cases hs
  | _ => exact ⟨.submission task, trivial, by simp [step, submitStep, hpc, hfree]⟩

theorem goes_of_isAwake (hfree : p.m_cv_mt = none) (hw : (p.workers w).isAwake = true) :
    (p.step (.worker w)).isSome = true := by
  cases hpc : p.workers w with
  | take => cases htasks : p.m_tasks <;> simp [step, workerStep, hpc, htasks]
  | _ => simp_all [Worker.isAwake, step, workerStep]

/-- Where no worker and no submission can go on, the mutex is free. -/
theorem Mutexed.free (hp : p.Mutexed) (hquiet : Quiet step Event.Inner p) : p.m_cv_mt = none := by
  refine Option.eq_none_iff_forall_ne_some.mpr fun owner howner => ?_
  have hholds := hp.owner_iff.mpr howner
  cases owner with
  | inl w =>
    have hgoes := goes_of_worker_holds hholds
    simp [hquiet (.worker w) trivial] at hgoes
  | inr task =>
    have hgoes := goes_of_submission_holds hholds
    simp [hquiet (.submission task) trivial] at hgoes

/-- No call of `submit` is in progress there. -/
theorem Mutexed.idle (hp : p.Mutexed) (hquiet : Quiet step Event.Inner p) (task : τ) :
    (p.submissions task).isBusy = false := by
  rw [Bool.eq_false_iff]
  intro hbusy
  obtain ⟨e, he, hgoes⟩ := goes_of_busy (hp.free hquiet) hbusy
  simp [hquiet e he] at hgoes

/-- Every worker is asleep there, or has left. -/
theorem Mutexed.asleep (hp : p.Mutexed) (hquiet : Quiet step Event.Inner p) (w : Fin n) :
    p.workers w = .blocked ∨ p.workers w = .done := by
  have hstuck := hquiet (.worker w) trivial
  have hholds := goes_of_worker_holds (p := p) (w := w)
  have hawake := goes_of_isAwake (w := w) (hp.free hquiet)
  rw [hstuck] at hholds hawake
  cases hpc : p.workers w <;> simp_all [Worker.holds, Worker.isAwake]

/-- The pool is at rest: nobody submits, nothing is left to do, and all workers are blocked. -/
structure AtRest (p : SimpleThreadPool n τ) : Prop where
  submissions : ∀ task, p.submissions task = .fresh ∨ p.submissions task = .returned true
  m_tasks : p.m_tasks = []
  workers : ∀ w, p.workers w = .blocked

/-- Where the pool takes no step any more, before `stop`, it is at rest. -/
theorem Open.atRest (hp : p.Open) (hquiet : Quiet step Event.Inner p) : p.AtRest := by
  have hidle := hp.mutex.idle hquiet
  have hworkers : ∀ w, p.workers w = .blocked := fun w =>
    (hp.mutex.asleep hquiet w).resolve_right (hp.ne_done w)
  constructor
  · intro task
    have haccepting := hp.accepting task
    have hbusy := hidle task
    cases hpc : p.submissions task with
    | returned valid => cases valid <;> simp_all
    | _ => simp_all [Submission.isBusy]
  · by_contra htasks
    rcases hp.attended htasks with ⟨task, howes⟩ | ⟨w, hawake⟩
    · have hbusy := hidle task
      cases hpc : p.submissions task <;> simp_all [Submission.isBusy, Submission.owesNotify]
    · simp [hworkers, Worker.isAwake] at hawake
  · exact hworkers

/-- A pool at rest has executed each task that was submitted once. -/
theorem AtRest.executed (hp : p.AtRest) (hc : p.Conserved) (task : τ) :
    p.executed.count task = if p.submissions task = .fresh then 0 else 1 := by
  have honce := hc.once task
  simp only [hp.m_tasks, hp.workers, Worker.runs, List.count_nil, Finset.sum_const_zero,
    Nat.zero_add] at honce
  rcases hp.submissions task with hs | hs <;> simp [honce, hs, Submission.pushed]

/-- What the steps before `stop` keep. -/
structure Working (calls : List τ) (p : SimpleThreadPool n τ) : Prop where
  isOpen : p.Open
  conserved : p.Conserved
  covered : Covered Submission.isBusy p.submissions calls

theorem descends [NeZero n] (calls : List τ) :
    Descends (step (n := n)) Event.Inner (Working calls) (fun p => p.toDo calls) where
  keeps p e q hst he hp :=
    have hmove := move_of_step hst
    ⟨hmove.open hp.isOpen ((hmove.stop_eq he).trans hp.isOpen.stop), hmove.conserved hp.conserved,
      hmove.covered (fun _ => by rintro rfl; exact he) hp.covered⟩
  lowers p e q hst he hp := (move_of_step hst).lowers he hp.covered

theorem freshness_run {fs : List (Event n τ)} (h : run step p fs = some q)
    (hfs : ∀ e ∈ fs, e.Inner) (task : τ) :
    q.submissions task = .fresh ↔ p.submissions task = .fresh :=
  run_preserves_of_forall
    (I := fun q : SimpleThreadPool n τ => q.submissions task = .fresh ↔ p.submissions task = .fresh)
    (fun _ _ _ hst he hiff => ((move_of_step hst).fresh_iff he task).trans hiff) h hfs Iff.rfl

end

instance (poolSize : Int) : NeZero (threadNum poolSize) :=
  ⟨Nat.ne_of_gt (Nat.lt_of_lt_of_le Nat.two_pos (two_le_threadNum poolSize))⟩

theorem exists_working [DecidableEq τ] [NeZero n] {p : SimpleThreadPool n τ} {es : List (Event n τ)}
    (h : run step {} es = some p) (hstop : p.stop = .outside) : ∃ calls, p.Working calls := by
  obtain ⟨calls, hcalls⟩ := exists_covered h
  have hopen : p.stop = .outside → p.Open :=
    run_preserves (I := fun p : SimpleThreadPool n τ => p.stop = .outside → p.Open)
      (fun _ _ _ hst hp hq =>
        (move_of_step hst).open (hp ((move_of_step hst).stop_outside hq)) hq)
      h (fun _ => open_initial)
  have hconserved : p.Conserved :=
    run_preserves (fun _ _ _ hst => (move_of_step hst).conserved) h conserved_initial
  exact ⟨calls, hopen hstop, hconserved, hcalls⟩

/-- As long as `stop` has not been called: from wherever the pool is, when no more tasks are
submitted and no worker wakes up by itself, it takes no more steps than some bound, it can
always go on to where it takes none, and there it has executed every task that was submitted
once, and all its workers are blocked. -/
theorem submitted_executed [DecidableEq τ] (poolSize : Int)
    {p : SimpleThreadPool (threadNum poolSize) τ} {es : List (Event (threadNum poolSize) τ)}
    (h : run step {} es = some p) (hstop : p.stop = .outside) :
    (∃ bound, ∀ fs q, run step p fs = some q → (∀ e ∈ fs, e.Inner) → fs.length ≤ bound) ∧
      (∃ fs q, run step p fs = some q ∧ (∀ e ∈ fs, e.Inner) ∧ Quiet step Event.Inner q) ∧
      ∀ fs q, run step p fs = some q → (∀ e ∈ fs, e.Inner) → Quiet step Event.Inner q →
        (∀ task, q.executed.count task = if p.submissions task = .fresh then 0 else 1) ∧
        q.m_tasks = [] ∧ ∀ w, q.workers w = .blocked := by
  obtain ⟨calls, hp⟩ := exists_working h hstop
  have hdesc := descends (n := threadNum poolSize) calls
  obtain ⟨hbound, hquiet⟩ := hdesc.ends hp
  refine ⟨hbound, hquiet, fun fs q hrun hfs hquiet => ?_⟩
  have hq := hdesc.of_run hrun hfs hp
  have hrest := hq.isOpen.atRest hquiet
  refine ⟨fun task => ?_, hrest.m_tasks, hrest.workers⟩
  have hcount := hrest.executed hq.conserved task
  simpa only [freshness_run hrun hfs task] using hcount

/-- Two tasks of a pool of two: one is in the queue, and the call for the other is between the test
of `m_stop` and the mutex. -/
theorem submitted_executed_two : ∃ (p q : SimpleThreadPool (threadNum 2) Nat)
    (fs : List (Event (threadNum 2) Nat)),
    run step {} (submitAlone 7 ++ [.submit 8, .submission 8, .worker firstWorker]) = some p ∧
      p.m_tasks = [7] ∧ run step p fs = some q ∧ q.executed.count 7 = 1 ∧
      q.executed.count 8 = 1 ∧ q.executed.count 9 = 0 := by
  have h : run step ({} : SimpleThreadPool (threadNum 2) Nat)
      (submitAlone 7 ++ [.submit 8, .submission 8, .worker firstWorker]) = some _ := rfl
  obtain ⟨-, ⟨fs, q, hrun, hfs, hquiet⟩, hall⟩ := submitted_executed 2 h rfl
  obtain ⟨hcount, -, -⟩ := hall fs q hrun hfs hquiet
  exact ⟨_, q, fs, h, rfl, hrun, hcount 7, hcount 8, hcount 9⟩

end NBRaft.Concurrency.SimpleThreadPool
