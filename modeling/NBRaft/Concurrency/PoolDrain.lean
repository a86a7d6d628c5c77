import NBRaft.Concurrency.SimpleThreadPool

/-!
# Tasks left behind by the pool

A worker looks at `m_stop` at the head of its loop, and at the queue after its wait. Once
`m_stop` is stored, a worker that is between the two takes one more task, if there is one, and
a worker that is not takes none. So of the queue as it is then, the pool gets through as many
tasks as there are such workers.
-/

namespace NBRaft.Concurrency.SimpleThreadPool

open Transition

variable {n : Nat} {τ : Type}

/-- The worker has passed the test of `m_stop`, and has neither taken a task nor left. -/
def Worker.inLoop : Worker τ → Bool
  | .lock | .predicate | .block | .blocked | .relock | .take => true
  | .test | .run _ | .done => false

def pending (p : SimpleThreadPool n τ) : Nat := ∑ w, (p.workers w).inLoop.toNat

/-- Every task whose `submit` had returned a valid future before `stop` began has been executed
exactly once. -/
def RunsAccepted [DecidableEq τ] (p : SimpleThreadPool n τ) : Prop :=
  ∀ task, p.accepted task = true → p.executed.count task = 1

/-- Of the accepted tasks none is in the queue behind the ones that the workers in the loop
will take. -/
def WithinReach (p : SimpleThreadPool n τ) : Prop :=
  ∀ task ∈ p.m_tasks.drop p.pending, p.accepted task = false

/-- Where `stop` stores `m_stop`, the workers reach every accepted task. -/
def StopsInTime (p : SimpleThreadPool n τ) : Event n τ → Prop
  | .store => p.WithinReach
  | _ => True

/-! ## Where a task is -/

/-- The calls of `submit` whose task is, or was, in the queue. -/
def Submission.pushed : Submission → Bool
  | .unlock | .notify | .leave | .returned true => true
  | _ => false

/-- How often the worker is running the task. -/
def Worker.runs [DecidableEq τ] (task : τ) : Worker τ → Nat
  | .run task' => if task' = task then 1 else 0
  | _ => 0

structure Conserved [DecidableEq τ] (p : SimpleThreadPool n τ) : Prop where
  /-- A task that was pushed is in one place. -/
  once : ∀ task, p.m_tasks.count task + (∑ w, (p.workers w).runs task) + p.executed.count task =
    (p.submissions task).pushed.toNat
  accepted : ∀ task, p.accepted task = true → p.submissions task = .returned true
  stored : p.m_stop = true ↔ p.stop ≠ .outside ∧ p.stop ≠ .store
  joined : p.stop = .returned → ∀ w, p.workers w = .done

section

variable {p q : SimpleThreadPool n τ} {w : Fin n} {task : τ} {pc : Worker τ}

/-- A worker goes on: what the workers amount to changes by what it does. -/
theorem sum_setWorker (f : Worker τ → Nat) (p : SimpleThreadPool n τ) (w : Fin n)
    (pc : Worker τ) :
    (∑ v, f (Function.update p.workers w pc v)) + f (p.workers w) =
      (∑ v, f (p.workers v)) + f pc := by
  have h := Bag.sum_change (f := fun v => f (Function.update p.workers w pc v))
    (g := fun v => f (p.workers v)) w fun v hv => by simp only [Function.update_of_ne hv]
  simpa only [Function.update_self] using h

/-- The workers that `notify_all` wakes up stay in the loop. -/
theorem sum_wakeAll (f : Worker τ → Nat) (hf : f .relock = f .blocked)
    (p : SimpleThreadPool n τ) [DecidableEq τ] :
    (∑ w, f (if p.workers w = .blocked then .relock else p.workers w)) =
      ∑ w, f (p.workers w) := by
  refine Finset.sum_congr rfl fun w _ => ?_
  split_ifs with hw
  · rw [hw, hf]
  · rfl

theorem pending_eq (h : q.workers = Function.update p.workers w pc)
    (hpc : pc.inLoop = (p.workers w).inLoop) : q.pending = p.pending := by
  have hsum := sum_setWorker (fun pc => pc.inLoop.toNat) p w pc
  rw [pending, pending, h]
  rw [hpc] at hsum
  omega

theorem withinReach_congr (htasks : q.m_tasks = p.m_tasks) (haccepted : q.accepted = p.accepted)
    (hpending : q.pending = p.pending) : q.WithinReach ↔ p.WithinReach := by
  simp only [WithinReach, htasks, haccepted, hpending]

/-- Of an empty queue everything is within reach. -/
theorem withinReach_of_nil (htasks : p.m_tasks = []) : p.WithinReach := by
  intro x hx
  rw [htasks, List.drop_nil] at hx
  cases hx

/-- The worker takes the front of the queue, and is no longer one of those that will. -/
theorem withinReach_take {rest : List τ} (hw : p.workers w = .take)
    (htasks : p.m_tasks = task :: rest) (hq : q.workers = Function.update p.workers w (.run task))
    (hrest : q.m_tasks = rest) (haccepted : q.accepted = p.accepted) :
    q.WithinReach ↔ p.WithinReach := by
  have hsum := sum_setWorker (fun pc => pc.inLoop.toNat) p w (.run task)
  rw [hw, ← hq] at hsum
  have hpending : p.pending = q.pending + 1 := hsum.symm
  simp only [WithinReach, hrest, haccepted, htasks, hpending, List.drop_succ_cons]

/-- What is pushed now was not accepted before. -/
theorem withinReach_push (hpush : p.accepted task = false)
    (htasks : q.m_tasks = p.m_tasks ++ [task]) (hq : q.workers = p.workers)
    (haccepted : q.accepted = p.accepted) : q.WithinReach ↔ p.WithinReach := by
  have hpending : q.pending = p.pending := by simp only [pending, hq]
  simp only [WithinReach, htasks, haccepted, hpending, List.drop_append, List.mem_append]
  constructor
  · intro h x hx
    exact h x (.inl hx)
  · rintro h x (hx | hx)
    · exact h x hx
    · obtain rfl := List.mem_singleton.mp (List.mem_of_mem_drop hx)
      exact hpush

variable {e : Event n τ}

theorem stopsInTime_of_withinReach (hreach : p.WithinReach) : p.StopsInTime e := by
  cases e with
  | store => exact hreach
  | _ => trivial

variable [DecidableEq τ]

theorem Move.m_stop_mono (h : Move p e q) (hstop : p.m_stop = true) : q.m_stop = true := by
  cases h with
  | store => rfl
  | _ => exact hstop

/-- Once `m_stop` is stored, what is within reach stays so, and what is not comes no nearer. -/
theorem Move.withinReach_iff (h : Move p e q) (hp : p.Conserved) (hstop : p.m_stop = true) :
    q.WithinReach ↔ p.WithinReach := by
  have hfalse : p.m_stop ≠ false := by simp [hstop]
  cases h with
  | submit | refuse | lockSubmit | unlock | notifyNone | leave | joined => exact Iff.rfl
  | accept _ hs => exact absurd hs hfalse
  | enter _ hs => exact absurd hs hfalse
  | notReady _ hs => exact absurd hs hfalse
  | @push task hs =>
    refine withinReach_push ?_ rfl rfl rfl
    by_contra haccepted
    have hreturned := hp.accepted task (by simpa using haccepted)
    rw [hs] at hreturned
    cases hreturned
  | notifyOne _ hw | quit hw | ready hw | block hw | wake hw | run hw =>
    exact withinReach_congr rfl rfl (pending_eq rfl (by rw [hw]; rfl))
  | lock hw =>
    refine withinReach_congr rfl rfl (pending_eq rfl ?_)
    rcases hw with hw | hw <;> rw [hw] <;> rfl
  | leaveEmpty hw htasks =>
    exact iff_of_true (withinReach_of_nil htasks) (withinReach_of_nil htasks)
  | take hw htasks => exact withinReach_take hw htasks rfl rfl rfl
  | stop hs => exact absurd hs (hp.stored.mp hstop).1
  | store hs => exact absurd hs (hp.stored.mp hstop).2
  | notifyAll =>
    exact withinReach_congr rfl rfl (sum_wakeAll (fun pc => pc.inLoop.toNat) rfl p)

/-- A submission goes on between two of its steps, or two before or after its push. -/
theorem Conserved.once_setSubmission (hp : p.Conserved) (pc : Submission) (x : τ)
    (hpc : pc.pushed = (p.submissions task).pushed) :
    p.m_tasks.count x + (∑ w, (p.workers w).runs x) + p.executed.count x =
      (Function.update p.submissions task pc x).pushed.toNat := by
  rw [Threads.map_update hpc]
  exact hp.once x

/-- What a worker takes from the queue it runs, and what it has run is executed. -/
theorem Conserved.once_setWorker (hp : p.Conserved) (x : τ)
    (hw : q.workers = Function.update p.workers w pc)
    (hmove : q.m_tasks.count x + pc.runs x + q.executed.count x =
      p.m_tasks.count x + (p.workers w).runs x + p.executed.count x)
    (hsubmissions : q.submissions = p.submissions) :
    q.m_tasks.count x + (∑ w, (q.workers w).runs x) + q.executed.count x =
      (q.submissions x).pushed.toNat := by
  have honce := hp.once x
  have hsum := sum_setWorker (Worker.runs x) p w pc
  rw [hw, hsubmissions]
  omega

theorem Move.once (h : Move p e q) (hp : p.Conserved) (x : τ) :
    q.m_tasks.count x + (∑ w, (q.workers w).runs x) + q.executed.count x =
      (q.submissions x).pushed.toNat := by
  cases h with
  | submit hs | refuse hs | accept hs | lockSubmit hs | unlock hs | notifyNone hs | leave hs =>
    exact hp.once_setSubmission _ x (by rw [hs]; rfl)
  | @push task hs =>
    have honce := hp.once x
    change (p.m_tasks ++ [task]).count x + (∑ w, (p.workers w).runs x) + p.executed.count x =
      (Function.update p.submissions task .unlock x).pushed.toNat
    by_cases hx : x = task
    · subst hx
      simp only [hs, Submission.pushed, Bool.toNat_false] at honce
      simp only [List.count_append, List.count_singleton_self, Function.update_self,
        Submission.pushed, Bool.toNat_true]
      omega
    · rw [Function.update_of_ne hx, ← honce, List.count_append,
        List.count_singleton, if_neg (by simpa using Ne.symm hx), Nat.add_zero]
  | @notifyOne task w hs hw =>
    have hsum := sum_setWorker (Worker.runs x) p w .relock
    rw [hw] at hsum
    have honce := hp.once_setSubmission .leave x (by rw [hs]; rfl)
    rw [← Nat.add_right_cancel hsum] at honce
    exact honce
  | enter hw | quit hw | ready hw | notReady hw | block hw | wake hw | leaveEmpty hw =>
    exact hp.once_setWorker x rfl (by rw [hw]; rfl) rfl
  | lock hw =>
    refine hp.once_setWorker x rfl ?_ rfl
    rcases hw with hw | hw <;> rw [hw] <;> rfl
  | @take w task rest hw htasks =>
    refine hp.once_setWorker x rfl ?_ rfl
    rw [hw, htasks, List.count_cons]
    simp [setWorker, Worker.runs]
  | @run w task hw =>
    refine hp.once_setWorker x rfl ?_ rfl
    rw [hw]
    simp only [setWorker, Worker.runs, List.count_append, List.count_singleton, beq_iff_eq]
    omega
  | stop | store | joined => exact hp.once x
  | notifyAll =>
    have hsum := sum_wakeAll (Worker.runs x) rfl p
    have honce := hp.once x
    rw [← hsum] at honce
    exact honce

theorem Move.accepted (h : Move p e q) (hp : p.Conserved) :
    ∀ x, q.accepted x = true → q.submissions x = .returned true := by
  -- a call that has returned takes no further step
  have hupdate : ∀ {task : τ} {pc : Submission}, p.submissions task ≠ .returned true →
      ∀ x, p.accepted x = true → Function.update p.submissions task pc x = .returned true := by
    intro task pc hpc x hx
    exact Threads.update_of (P := (· = Submission.returned true)) hpc (hp.accepted x hx)
  cases h with
  | submit hs | refuse hs | accept hs | lockSubmit hs | push hs | unlock hs | notifyNone hs
  | notifyOne hs | leave hs => exact hupdate (by rw [hs]; nofun)
  | stop hs => exact fun x hx => of_decide_eq_true hx
  | _ => exact hp.accepted

theorem Move.joined_done (h : Move p e q) (hp : p.Conserved) (hq : q.stop = .returned) :
    ∀ w, q.workers w = .done := by
  -- a worker that is done takes no further step
  have hdone : ∀ {w : Fin n}, p.stop = .returned → p.workers w ≠ .done →
      ∀ v, q.workers v = .done :=
    fun hreturned hw => absurd (hp.joined hreturned _) hw
  cases h with
  | enter hw | quit hw | ready hw | notReady hw | block hw | wake hw | leaveEmpty hw | take hw
  | run hw | notifyOne _ hw => exact hdone hq (by rw [hw]; nofun)
  | lock hw => exact hdone hq (by rcases hw with hw | hw <;> rw [hw] <;> nofun)
  | joined _ hw => exact hw
  | stop | store | notifyAll => cases hq
  | _ => exact hp.joined hq

theorem Move.stored (h : Move p e q) (hp : p.Conserved) :
    q.m_stop = true ↔ q.stop ≠ .outside ∧ q.stop ≠ .store := by
  cases h with
  | stop hs | store hs | notifyAll hs | joined hs => simp [hp.stored, hs]
  | _ => exact hp.stored

theorem Move.conserved (h : Move p e q) (hp : p.Conserved) : q.Conserved :=
  ⟨h.once hp, h.accepted hp, h.stored hp, h.joined_done hp⟩

theorem conserved_initial : ({} : SimpleThreadPool n τ).Conserved where
  once := fun task => by simp [Worker.runs, Submission.pushed]
  accepted := nofun
  stored := by simp
  joined := nofun

/-- Only `store` sets `m_stop`. -/
theorem Move.stopsInTime_iff (h : Move p e q) (hstop : ¬ p.m_stop = true) :
    (q.m_stop = true → q.WithinReach) ↔ p.StopsInTime e := by
  cases h with
  | store => exact ⟨fun hq => hq rfl, fun hq _ => hq⟩
  | _ => exact iff_of_true (fun hq => absurd hq hstop) trivial

end

/-- Where every worker is done, the tasks that were executed are the ones no longer in the
queue. -/
theorem runsAccepted_iff_withinReach [DecidableEq τ] {p : SimpleThreadPool n τ}
    (hp : p.Conserved) (hdone : ∀ w, p.workers w = .done) : p.RunsAccepted ↔ p.WithinReach := by
  have hpending : p.pending = 0 := by simp [pending, hdone, Worker.inLoop]
  have hcount : ∀ task, p.accepted task = true →
      p.m_tasks.count task + p.executed.count task = 1 := by
    intro task htask
    have honce := hp.once task
    simpa [hdone, Worker.runs, hp.accepted task htask, Submission.pushed] using honce
  rw [RunsAccepted, WithinReach, hpending, List.drop_zero]
  constructor
  · intro hall task hmem
    by_contra htask
    rw [Bool.not_eq_false] at htask
    have hleft := List.count_pos_iff.mpr hmem
    have := hcount task htask
    have := hall task htask
    omega
  · intro hnone task htask
    have hleft : p.m_tasks.count task = 0 := by
      refine List.count_eq_zero.mpr fun hmem => ?_
      rw [hnone task hmem] at htask
      cases htask
    have := hcount task htask
    omega

/-- When `stop` has returned, the accepted tasks have been executed, each once, exactly if the
workers that had passed the test of `m_stop` reached all of them. -/
theorem runsAccepted_iff [DecidableEq τ] (poolSize : Int)
    (es : List (Event (threadNum poolSize) τ)) (p : SimpleThreadPool (threadNum poolSize) τ)
    (h : run step {} es = some p) (hstop : p.stop = .returned) :
    p.RunsAccepted ↔ Along step StopsInTime {} es := by
  have hp : p.Conserved :=
    run_preserves (fun _ _ _ hst => (move_of_step hst).conserved) h conserved_initial
  have hstored : p.m_stop = true := hp.stored.mpr (by simp [hstop])
  rw [runsAccepted_iff_withinReach hp (hp.joined hstop)]
  refine run_iff_of_latch (I := Conserved) (L := fun p => p.m_stop = true) (W := WithinReach)
    (C := StopsInTime) (fun _ _ _ hst => (move_of_step hst).conserved) ?_
    (fun _ _ => stopsInTime_of_withinReach) ?_ h conserved_initial Bool.false_ne_true hstored
  · intro s e t hst hs hset
    have hmove := move_of_step hst
    exact ⟨hmove.m_stop_mono hset, hmove.withinReach_iff hs hset⟩
  · intro s e t hst _ hset
    exact (move_of_step hst).stopsInTime_iff hset

/-- A call of `submit` from its beginning to its end, while no worker is blocked. -/
def submitAlone (task : Nat) : List (Event (threadNum 2) Nat) :=
  [.submit task, .submission task, .submission task, .submission task, .submission task,
    .notifyOne task none, .submission task]

/-- A worker has passed the test of `m_stop` when it is stored, and takes the task. -/
def stoppedInTime : List (Event (threadNum 2) Nat) :=
  submitAlone 7 ++ [.stop, .worker firstWorker, .store, .notifyAll] ++
    .replicate 5 (.worker firstWorker) ++ [.worker secondWorker, .joined]

theorem runsAccepted_iff_stoppedInTime :
    ∃ p, run step {} stoppedInTime = some p ∧ p.stop = .returned ∧ p.executed = [7] ∧
      (p.RunsAccepted ↔ Along step StopsInTime {} stoppedInTime) := by
  have h : run step {} stoppedInTime = some _ := rfl
  exact ⟨_, h, rfl, rfl, runsAccepted_iff 2 stoppedInTime _ h rfl⟩

/-- Both workers are at the test of `m_stop` when it is stored. -/
def stoppedTooSoon : List (Event (threadNum 2) Nat) :=
  submitAlone 7 ++ [.stop, .store, .notifyAll, .worker firstWorker,
    .worker secondWorker, .joined]

/-- The task stays in the queue, and its future never becomes ready. -/
theorem accepted_task_abandoned :
    ∃ p, run step {} stoppedTooSoon = some p ∧ p.stop = .returned ∧ p.accepted 7 = true ∧
      p.m_tasks = [7] ∧ p.executed = [] ∧ ¬ p.RunsAccepted := by
  have h : run step {} stoppedTooSoon = some _ := rfl
  refine ⟨_, h, rfl, rfl, rfl, rfl, fun hall => ?_⟩
  have hrun := hall 7 rfl
  cases hrun

end NBRaft.Concurrency.SimpleThreadPool
