import NBRaft.Library.Bag
import NBRaft.Library.Threads
import NBRaft.Library.Transition

/-!
# The simple thread pool

`SimpleThreadPool`: workers that take tasks from one queue, under a mutex and a condition
variable. The workers, the calls of `submit` and the one of `stop` go on step by step, in any
interleaving. A blocked worker is woken by a notification, or for no reason at all.

A task is a call of `submit`: each call has a task of its own, and any number of them may be in
progress, from any threads.
-/

namespace NBRaft.Concurrency

open Transition

namespace SimpleThreadPool

/-- Where a worker is. -/
inductive Worker (τ : Type) where
  /-- `while (!m_stop.load())`. -/
  | test
  | lock
  /-- With the mutex, before the predicate of the wait. -/
  | predicate
  /-- The predicate was false. -/
  | block
  | blocked
  /-- Woken up, without the mutex. -/
  | relock
  /-- The predicate was true. -/
  | take
  | run (task : τ)
  | done
  deriving DecidableEq, Repr

/-- Where a call of `submit` is. -/
inductive Submission where
  | fresh
  | test
  | lock
  | push
  | unlock
  | notify
  | leave
  /-- It has returned a future, or one without a state. -/
  | returned (valid : Bool)
  deriving DecidableEq, Repr

/-- Where the call of `stop` is. -/
inductive Stop where
  | outside
  | store
  | notify
  | join
  | returned
  deriving DecidableEq, Repr

inductive Event (n : Nat) (τ : Type) where
  | submit (task : τ)
  /-- A call of `submit` goes on, up to its notification and from it. -/
  | submission (task : τ)
  /-- It notifies one blocked worker, if there is one. -/
  | notifyOne (task : τ) (woken : Option (Fin n))
  | worker (w : Fin n)
  | wake (w : Fin n)
  | stop
  | store
  | notifyAll
  | joined

/-- The size of the pool after the constructor. -/
def threadNum (poolSize : Int) : Nat := if poolSize ≤ 1 then 2 else poolSize.toNat

theorem two_le_threadNum (poolSize : Int) : 2 ≤ threadNum poolSize := by
  unfold threadNum
  split_ifs <;> omega

/-- Two workers that every pool has. -/
def firstWorker {poolSize : Int} : Fin (threadNum poolSize) :=
  ⟨0, Nat.lt_of_lt_of_le Nat.two_pos (two_le_threadNum poolSize)⟩

def secondWorker {poolSize : Int} : Fin (threadNum poolSize) :=
  ⟨1, two_le_threadNum poolSize⟩

end SimpleThreadPool

open SimpleThreadPool

/-- `executed` is the history of the tasks that have been run, and `accepted` are those whose
`submit` had returned a valid future when `stop` was called. -/
structure SimpleThreadPool (n : Nat) (τ : Type) where
  m_tasks : List τ := []
  m_stop : Bool := false
  /-- The owner of `m_cv_mt`. -/
  m_cv_mt : Option (Fin n ⊕ τ) := none
  workers : Fin n → Worker τ := fun _ => .test
  submissions : τ → Submission := fun _ => .fresh
  stop : Stop := .outside
  executed : List τ := []
  accepted : τ → Bool := fun _ => false

namespace SimpleThreadPool

variable {n : Nat} {τ : Type} [DecidableEq τ]

def setWorker (w : Fin n) (pc : Worker τ) (p : SimpleThreadPool n τ) : SimpleThreadPool n τ :=
  { p with workers := Function.update p.workers w pc }

def setSubmission (task : τ) (pc : Submission) (p : SimpleThreadPool n τ) :
    SimpleThreadPool n τ :=
  { p with submissions := Function.update p.submissions task pc }

/-- The loop of a worker. -/
def workerStep (w : Fin n) (p : SimpleThreadPool n τ) : Worker τ → Option (SimpleThreadPool n τ)
  | .test => some (p.setWorker w (if p.m_stop then .done else .lock))
  | .lock | .relock =>
    if p.m_cv_mt = none then some ({ p with m_cv_mt := some (.inl w) }.setWorker w .predicate)
    else none
  | .predicate =>
    some (p.setWorker w (if p.m_stop || !p.m_tasks.isEmpty then .take else .block))
  | .block => some ({ p with m_cv_mt := none }.setWorker w .blocked)
  | .take =>
    match p.m_tasks with
    | [] => some ({ p with m_cv_mt := none }.setWorker w .done)
    | task :: rest => some ({ p with m_cv_mt := none, m_tasks := rest }.setWorker w (.run task))
  | .run task => some ({ p with executed := p.executed ++ [task] }.setWorker w .test)
  | .blocked | .done => none

/-- The steps of `submit`, its notification apart. -/
def submitStep (task : τ) (p : SimpleThreadPool n τ) : Submission → Option (SimpleThreadPool n τ)
  | .test => some (p.setSubmission task (if p.m_stop then .returned false else .lock))
  | .lock =>
    if p.m_cv_mt = none then some ({ p with m_cv_mt := some (.inr task) }.setSubmission task .push)
    else none
  | .push => some ({ p with m_tasks := p.m_tasks ++ [task] }.setSubmission task .unlock)
  | .unlock => some ({ p with m_cv_mt := none }.setSubmission task .notify)
  | .leave => some (p.setSubmission task (.returned true))
  | .fresh | .notify | .returned _ => none

def step (p : SimpleThreadPool n τ) : Event n τ → Option (SimpleThreadPool n τ)
  | .submit task =>
    if p.submissions task = .fresh then some (p.setSubmission task .test) else none
  | .submission task => p.submitStep task (p.submissions task)
  | .notifyOne task woken =>
    if p.submissions task = .notify then
      match woken with
      | none => if ∀ w, p.workers w ≠ .blocked then some (p.setSubmission task .leave) else none
      | some w =>
        if p.workers w = .blocked then some ((p.setWorker w .relock).setSubmission task .leave)
        else none
    else none
  | .worker w => p.workerStep w (p.workers w)
  | .wake w => if p.workers w = .blocked then some (p.setWorker w .relock) else none
  | .stop =>
    if p.stop = .outside then
      some { p with
        stop := .store
        accepted := fun task => p.submissions task = .returned true }
    else none
  | .store => if p.stop = .store then some { p with stop := .notify, m_stop := true } else none
  | .notifyAll =>
    if p.stop = .notify then
      some { p with
        stop := .join
        workers := fun w => if p.workers w = .blocked then .relock else p.workers w }
    else none
  | .joined =>
    if p.stop = .join ∧ ∀ w, p.workers w = .done then some { p with stop := .returned } else none

/-! ## What a step can do -/

/-- What the steps of the workers, submissions and of `stop` are, with what each of them is
about. -/
inductive Move (p : SimpleThreadPool n τ) : Event n τ → SimpleThreadPool n τ → Prop where
  | submit {task : τ} : p.submissions task = .fresh →
    Move p (.submit task) (p.setSubmission task .test)
  | refuse {task : τ} : p.submissions task = .test → p.m_stop = true →
    Move p (.submission task) (p.setSubmission task (.returned false))
  | accept {task : τ} : p.submissions task = .test → p.m_stop = false →
    Move p (.submission task) (p.setSubmission task .lock)
  | lockSubmit {task : τ} : p.submissions task = .lock → p.m_cv_mt = none →
    Move p (.submission task) ({ p with m_cv_mt := some (.inr task) }.setSubmission task .push)
  | push {task : τ} : p.submissions task = .push →
    Move p (.submission task)
      ({ p with m_tasks := p.m_tasks ++ [task] }.setSubmission task .unlock)
  | unlock {task : τ} : p.submissions task = .unlock →
    Move p (.submission task) ({ p with m_cv_mt := none }.setSubmission task .notify)
  | notifyNone {task : τ} : p.submissions task = .notify → (∀ w, p.workers w ≠ .blocked) →
    Move p (.notifyOne task none) (p.setSubmission task .leave)
  | notifyOne {task : τ} {w : Fin n} : p.submissions task = .notify → p.workers w = .blocked →
    Move p (.notifyOne task (some w)) ((p.setWorker w .relock).setSubmission task .leave)
  | leave {task : τ} : p.submissions task = .leave →
    Move p (.submission task) (p.setSubmission task (.returned true))
  | enter {w : Fin n} : p.workers w = .test → p.m_stop = false →
    Move p (.worker w) (p.setWorker w .lock)
  | quit {w : Fin n} : p.workers w = .test → p.m_stop = true →
    Move p (.worker w) (p.setWorker w .done)
  | lock {w : Fin n} : p.workers w = .lock ∨ p.workers w = .relock → p.m_cv_mt = none →
    Move p (.worker w) ({ p with m_cv_mt := some (.inl w) }.setWorker w .predicate)
  | ready {w : Fin n} : p.workers w = .predicate → p.m_stop = true ∨ p.m_tasks ≠ [] →
    Move p (.worker w) (p.setWorker w .take)
  | notReady {w : Fin n} : p.workers w = .predicate → p.m_stop = false → p.m_tasks = [] →
    Move p (.worker w) (p.setWorker w .block)
  | block {w : Fin n} : p.workers w = .block →
    Move p (.worker w) ({ p with m_cv_mt := none }.setWorker w .blocked)
  | wake {w : Fin n} : p.workers w = .blocked → Move p (.wake w) (p.setWorker w .relock)
  | leaveEmpty {w : Fin n} : p.workers w = .take → p.m_tasks = [] →
    Move p (.worker w) ({ p with m_cv_mt := none }.setWorker w .done)
  | take {w : Fin n} {task : τ} {rest : List τ} : p.workers w = .take →
    p.m_tasks = task :: rest →
    Move p (.worker w) ({ p with m_cv_mt := none, m_tasks := rest }.setWorker w (.run task))
  | run {w : Fin n} {task : τ} : p.workers w = .run task →
    Move p (.worker w) ({ p with executed := p.executed ++ [task] }.setWorker w .test)
  | stop : p.stop = .outside →
    Move p .stop { p with
      stop := .store
      accepted := fun task => p.submissions task = .returned true }
  | store : p.stop = .store → Move p .store { p with stop := .notify, m_stop := true }
  | notifyAll : p.stop = .notify →
    Move p .notifyAll { p with
      stop := .join
      workers := fun w => if p.workers w = .blocked then .relock else p.workers w }
  | joined : p.stop = .join → (∀ w, p.workers w = .done) →
    Move p .joined { p with stop := .returned }

section

variable {p q : SimpleThreadPool n τ} {w : Fin n} {task : τ} {e : Event n τ}

theorem move_of_workerStep (h : p.workerStep w (p.workers w) = some q) :
    Move p (.worker w) q := by
  cases hw : p.workers w with
  | test =>
    rw [hw] at h
    cases hs : p.m_stop <;> simp only [workerStep, hs, Option.some.injEq] at h <;> subst h
    · exact .enter hw hs
    · exact .quit hw hs
  | lock | relock =>
    simp only [hw, workerStep, Option.ite_none_right_eq_some, Option.some.injEq] at h
    obtain ⟨hfree, rfl⟩ := h
    exact .lock (by simp [hw]) hfree
  | predicate =>
    rw [hw] at h
    simp only [workerStep, Option.some.injEq] at h
    subst h
    split_ifs with hready
    · exact .ready hw (by simpa using hready)
    · simp only [Bool.or_eq_true, not_or, Bool.not_eq_true, Bool.not_eq_true', not_not,
        List.isEmpty_eq_false_iff, ne_eq] at hready
      exact .notReady hw hready.1 hready.2
  | block =>
    rw [hw] at h
    cases h
    exact .block hw
  | take =>
    simp only [hw, workerStep] at h
    split at h <;> cases h
    · exact .leaveEmpty hw ‹_›
    · exact .take hw ‹_›
  | run task =>
    rw [hw] at h
    cases h
    exact .run hw
  | blocked | done =>
    rw [hw] at h
    cases h

theorem move_of_submitStep (h : p.submitStep task (p.submissions task) = some q) :
    Move p (.submission task) q := by
  cases hs : p.submissions task with
  | test =>
    rw [hs] at h
    cases hstop : p.m_stop <;> simp only [submitStep, hstop, Option.some.injEq] at h <;> subst h
    · exact .accept hs hstop
    · exact .refuse hs hstop
  | lock =>
    simp only [hs, submitStep, Option.ite_none_right_eq_some, Option.some.injEq] at h
    obtain ⟨hfree, rfl⟩ := h
    exact .lockSubmit hs hfree
  | push =>
    rw [hs] at h
    cases h
    exact .push hs
  | unlock =>
    rw [hs] at h
    cases h
    exact .unlock hs
  | leave =>
    rw [hs] at h
    cases h
    exact .leave hs
  | fresh | notify | returned =>
    rw [hs] at h
    cases h

/-- Every step is one of these. -/
theorem move_of_step (h : p.step e = some q) : Move p e q := by
  cases e with
  | submit task =>
    simp only [step, Option.ite_none_right_eq_some, Option.some.injEq] at h
    obtain ⟨hs, rfl⟩ := h
    exact .submit hs
  | submission task => exact move_of_submitStep h
  | notifyOne task woken =>
    simp only [step, Option.ite_none_right_eq_some] at h
    obtain ⟨hs, h⟩ := h
    cases woken with
    | none =>
      simp only [Option.ite_none_right_eq_some, Option.some.injEq] at h
      obtain ⟨hw, rfl⟩ := h
      exact .notifyNone hs hw
    | some w =>
      simp only [Option.ite_none_right_eq_some, Option.some.injEq] at h
      obtain ⟨hw, rfl⟩ := h
      exact .notifyOne hs hw
  | worker w => exact move_of_workerStep h
  | wake w =>
    simp only [step, Option.ite_none_right_eq_some, Option.some.injEq] at h
    obtain ⟨hw, rfl⟩ := h
    exact .wake hw
  | stop =>
    simp only [step, Option.ite_none_right_eq_some, Option.some.injEq] at h
    obtain ⟨hs, rfl⟩ := h
    exact .stop hs
  | store =>
    simp only [step, Option.ite_none_right_eq_some, Option.some.injEq] at h
    obtain ⟨hs, rfl⟩ := h
    exact .store hs
  | notifyAll =>
    simp only [step, Option.ite_none_right_eq_some, Option.some.injEq] at h
    obtain ⟨hs, rfl⟩ := h
    exact .notifyAll hs
  | joined =>
    simp only [step, Option.ite_none_right_eq_some, Option.some.injEq] at h
    obtain ⟨⟨hs, hw⟩, rfl⟩ := h
    exact .joined hs hw

end

end SimpleThreadPool

end NBRaft.Concurrency
