import NBRaft.Concurrency.SimpleThreadPool

/-!
# Sleeping through the end of the pool

`submit` changes the queue with `m_cv_mt` held, so no worker is between its predicate and its
block at that time. `stop` stores `m_stop` without the mutex, and its `notify_all` can fall into
that gap: the worker then blocks although its predicate has become true. What can still wake it
is the `notify_one` of a submission that began before.
-/

namespace NBRaft.Concurrency.SimpleThreadPool

open Transition

variable {n : Nat} {τ : Type}

/-- The calls of `submit` that have still to notify. -/
def Submission.owesNotify : Submission → Bool
  | .lock | .push | .unlock | .notify => true
  | _ => false

/-- `stop` has executed `notify_all`. -/
def Notified (p : SimpleThreadPool n τ) : Prop := p.stop = .join ∨ p.stop = .returned

/-- A worker is blocked after `notify_all`, and nobody is about to notify. -/
structure SleepsThroughStop (p : SimpleThreadPool n τ) : Prop where
  notified : p.Notified
  blocked : ∃ w, p.workers w = .blocked
  silent : ∀ task, (p.submissions task).owesNotify = false

/-- After `notify_all` a worker goes to block only if a submission has still to notify, and a
submission that notifies leaves no worker blocked unless another one has still to notify. -/
def Heard (p : SimpleThreadPool n τ) : Event n τ → Prop
  | .worker w => p.Notified → p.workers w = .block →
    ∃ task, (p.submissions task).owesNotify = true
  | .notifyOne task woken => p.Notified →
    (∀ w, p.workers w = .blocked → woken = some w) ∨
      ∃ other, other ≠ task ∧ (p.submissions other).owesNotify = true
  | _ => True

/-- `m_stop` is stored before anybody is notified of it. -/
def StoredFirst (p : SimpleThreadPool n τ) : Prop := p.Notified ∨ p.stop = .notify → p.m_stop = true

section

variable {p q : SimpleThreadPool n τ} {w : Fin n} {task : τ} {e : Event n τ}

/-- A step by which no worker blocks, and which leaves somebody to notify if there was. -/
theorem SleepsThroughStop.back (h : q.SleepsThroughStop) (hnotified : q.Notified → p.Notified)
    (hblocked : ∀ w, q.workers w = .blocked → p.workers w = .blocked)
    (howed : ∀ task, (p.submissions task).owesNotify = true →
      ∃ task, (q.submissions task).owesNotify = true) : p.SleepsThroughStop := by
  obtain ⟨w, hw⟩ := h.blocked
  refine ⟨hnotified h.notified, ⟨w, hblocked w hw⟩, fun task => ?_⟩
  by_contra howes
  obtain ⟨other, hother⟩ := howed task (by simpa using howes)
  rw [h.silent other] at hother
  cases hother

/-- A worker goes on that is not blocked afterwards. -/
theorem SleepsThroughStop.of_setWorker {pc : Worker τ} (h : q.SleepsThroughStop)
    (hq : q.workers = Function.update p.workers w pc) (hstop : q.stop = p.stop)
    (hsubmissions : q.submissions = p.submissions) (hpc : pc ≠ .blocked) :
    p.SleepsThroughStop := by
  refine h.back (by simp [Notified, hstop]) (fun v hv => ?_) fun other hother => ⟨other, ?_⟩
  · rw [hq] at hv
    exact Threads.of_update (P := (· = Worker.blocked)) hpc hv
  · rwa [hsubmissions]

/-- A worker blocks. -/
theorem sleeps_block_iff (hw : p.workers w = .block) :
    ¬ ({ p with m_cv_mt := none }.setWorker w .blocked).SleepsThroughStop ↔
      p.Heard (.worker w) := by
  constructor
  · intro hnot hp _
    by_contra hnobody
    refine hnot ⟨hp, ⟨w, Function.update_self ..⟩, fun task => ?_⟩
    by_contra howes
    exact hnobody ⟨task, (Bool.not_eq_false _).mp howes⟩
  · intro hheard hq
    obtain ⟨task, htask⟩ := hheard hq.notified hw
    have hsilent := hq.silent task
    change (p.submissions task).owesNotify = false at hsilent
    rw [htask] at hsilent
    cases hsilent

variable [DecidableEq τ]

theorem Move.storedFirst (h : Move p e q) (hp : p.StoredFirst) : q.StoredFirst := by
  cases h with
  | stop hs => simp [StoredFirst, Notified]
  | store hs => exact fun _ => rfl
  | notifyAll hs => exact fun _ => hp (.inr hs)
  | joined hs _ => exact fun _ => hp (.inl (.inl hs))
  | _ => exact hp

/-- A submission goes on that has to notify before and after, or neither. -/
theorem SleepsThroughStop.of_setSubmission {pc : Submission} (h : q.SleepsThroughStop)
    (hpc : pc.owesNotify = (p.submissions task).owesNotify)
    (hq : q.submissions = Function.update p.submissions task pc) (hstop : q.stop = p.stop)
    (hworkers : q.workers = p.workers) : p.SleepsThroughStop := by
  refine h.back (by simp [Notified, hstop]) (by simp [hworkers]) fun other hother => ⟨other, ?_⟩
  rw [hq, Threads.map_update hpc]
  exact hother

/-- The notification of a submission. -/
theorem sleeps_notifyOne_iff {woken : Option (Fin n)} (hs : p.submissions task = .notify)
    (hblocked : ∀ w, q.workers w = .blocked ↔ p.workers w = .blocked ∧ woken ≠ some w)
    (hsub : q.submissions = Function.update p.submissions task .leave)
    (hstop : q.stop = p.stop) :
    ¬ q.SleepsThroughStop ↔ p.Heard (.notifyOne task woken) := by
  have howed : ∀ other, (q.submissions other).owesNotify = true ↔
      other ≠ task ∧ (p.submissions other).owesNotify = true := by
    intro other
    rw [hsub]
    by_cases ho : other = task
    · subst ho
      simp [Submission.owesNotify]
    · simp [ho]
  have hnotified : q.Notified ↔ p.Notified := by simp only [Notified, hstop]
  constructor
  · intro hnot hp
    by_contra hcon
    simp only [not_or, not_forall, not_exists, not_and] at hcon
    obtain ⟨⟨w, hw, hwoken⟩, hnobody⟩ := hcon
    refine hnot ⟨hnotified.mpr hp, ⟨w, (hblocked w).mpr ⟨hw, hwoken⟩⟩, fun other => ?_⟩
    by_contra howes
    have hother := (howed other).mp (by simpa using howes)
    exact hnobody other hother.1 hother.2
  · intro hheard hq
    obtain ⟨w, hw⟩ := hq.blocked
    obtain ⟨hpw, hwoken⟩ := (hblocked w).mp hw
    rcases hheard (hnotified.mp hq.notified) with hall | ⟨other, hother⟩
    · exact hwoken (hall w hpw)
    · have hsilent := hq.silent other
      rw [(howed other).mpr hother] at hsilent
      cases hsilent

/-- From a good state a step leads to a good state exactly if the notification is heard. -/
theorem Move.sleeps_iff (h : Move p e q) (hp : p.StoredFirst) (hnot : ¬ p.SleepsThroughStop) :
    ¬ q.SleepsThroughStop ↔ p.Heard e := by
  have hworker : ∀ {w : Fin n}, p.workers w ≠ .block → p.Heard (.worker w) :=
    fun hw _ hblock => absurd hblock hw
  cases h with
  | submit hs | refuse hs | leave hs | lockSubmit hs | push hs | unlock hs =>
    refine iff_of_true (fun hq => hnot ?_) trivial
    exact hq.of_setSubmission (by rw [hs]; rfl) rfl rfl rfl
  | accept hs hstop =>
    refine iff_of_true (fun hq => ?_) trivial
    have hstored := hp (.inl hq.notified)
    rw [hstop] at hstored
    cases hstored
  | @notifyNone task hs hw =>
    exact sleeps_notifyOne_iff hs (fun w => by simp [setSubmission]) rfl rfl
  | @notifyOne task w hs hw =>
    refine sleeps_notifyOne_iff hs (fun v => ?_) rfl rfl
    by_cases hv : v = w
    · subst hv
      simp [setSubmission, setWorker]
    · simp [setSubmission, setWorker, hv, Ne.symm hv]
  | enter hw | quit hw | ready hw | notReady hw | leaveEmpty hw | take hw | run hw =>
    refine iff_of_true (fun hq => hnot ?_) (hworker (by rw [hw]; nofun))
    exact hq.of_setWorker rfl rfl rfl nofun
  | lock hw =>
    refine iff_of_true (fun hq => hnot ?_)
      (hworker (by rcases hw with hw | hw <;> rw [hw] <;> nofun))
    exact hq.of_setWorker rfl rfl rfl nofun
  | wake hw =>
    refine iff_of_true (fun hq => hnot ?_) trivial
    exact hq.of_setWorker rfl rfl rfl nofun
  | block hw => exact sleeps_block_iff hw
  | stop hs =>
    refine iff_of_true (fun hq => ?_) trivial
    rcases hq.notified with h | h <;> cases h
  | store hs =>
    refine iff_of_true (fun hq => ?_) trivial
    rcases hq.notified with h | h <;> cases h
  | notifyAll hs =>
    refine iff_of_true (fun hq => ?_) trivial
    obtain ⟨w, hw⟩ := hq.blocked
    simp only at hw
    split at hw
    · cases hw
    · contradiction
  | joined hs hw =>
    refine iff_of_true (fun hq => ?_) trivial
    obtain ⟨w, hblocked⟩ := hq.blocked
    rw [hw w] at hblocked
    cases hblocked

end

/-- No worker sleeps through `stop`, exactly if after `notify_all` no worker goes to block, or
stays blocked after a `notify_one`, without another notification to come. -/
theorem never_sleepsThroughStop_iff [DecidableEq τ] (poolSize : Int)
    (es : List (Event (threadNum poolSize) τ)) (p : SimpleThreadPool (threadNum poolSize) τ)
    (h : run step {} es = some p) :
    Throughout step (fun p => ¬ p.SleepsThroughStop) {} es ↔ Along step Heard {} es :=
  throughout_iff_along (I := StoredFirst) (fun _ _ _ hst => (move_of_step hst).storedFirst)
    (fun _ _ _ hst => (move_of_step hst).sleeps_iff) h (by simp [StoredFirst, Notified])
    fun hsleeps => by rcases hsleeps.notified with h | h <;> cases h

/-- The pool of two workers is stopped while both are blocked. -/
def stoppedAtRest : List (Event (threadNum 2) Nat) :=
  .replicate 4 (.worker firstWorker) ++ .replicate 4 (.worker secondWorker) ++
    [.stop, .store, .notifyAll] ++ .replicate 3 (.worker firstWorker) ++
    .replicate 3 (.worker secondWorker) ++ [.joined]

theorem never_sleepsThroughStop_iff_atRest :
    ∃ p, run step {} stoppedAtRest = some p ∧ p.stop = .returned ∧
      (Throughout step (fun p => ¬ p.SleepsThroughStop) {} stoppedAtRest ↔
        Along step Heard {} stoppedAtRest) := by
  have h : run step {} stoppedAtRest = some _ := rfl
  exact ⟨_, h, rfl, never_sleepsThroughStop_iff 2 stoppedAtRest _ h⟩

/-- One worker has evaluated its predicate and not blocked yet when the pool is stopped. -/
def stoppedInTheGap : List (Event (threadNum 2) Nat) :=
  .replicate 3 (.worker firstWorker) ++
    [.stop, .store, .notifyAll, .worker firstWorker, .worker secondWorker]

/-- It blocks, the other one is done, and `stop` waits for it. -/
theorem worker_sleeps_through_stop :
    ∃ p, run step {} stoppedInTheGap = some p ∧ p.stop = .join ∧ p.m_stop = true ∧
      p.workers firstWorker = .blocked ∧ p.workers secondWorker = .done ∧ p.SleepsThroughStop ∧
      ¬ Throughout step (fun p => ¬ p.SleepsThroughStop) {} stoppedInTheGap := by
  have h : run step {} stoppedInTheGap = some _ := rfl
  refine ⟨_, h, rfl, rfl, rfl, rfl, ?_⟩
  refine and_iff_left_of_imp (fun hsleeps hall => hall.last h hsleeps) |>.mpr ?_
  exact ⟨.inl rfl, ⟨firstWorker, rfl⟩, fun _ => rfl⟩

end NBRaft.Concurrency.SimpleThreadPool
