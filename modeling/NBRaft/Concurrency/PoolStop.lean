import Mathlib.Algebra.Order.BigOperators.Group.Finset
import NBRaft.Concurrency.PoolWork

/-!
# The end of `stop`

Nothing holds `stop` up but a worker that sleeps: no step of the pool waits for anything but the
mutex, whose owner always goes on, and a worker that is woken up after `m_stop` is stored leaves.
So when no more tasks are submitted the steps of the pool, those of `stop` included, come to an
end, and by then `stop` has returned, unless some worker has slept through it.
-/

namespace NBRaft.Concurrency.SimpleThreadPool

open Transition Threads

variable {n : Nat} {τ : Type}

/-- A step of the pool or of `stop`, its call included. -/
def Event.Own : Event n τ → Prop
  | .submit _ | .wake _ => False
  | _ => True

/-- The steps of `stop`. `notify_all` wakes up to `n` workers, and each comes round to its
predicate once more. -/
def Stop.rank (n : Nat) : Stop → Nat
  | .outside => 3 * n + 4
  | .store => 3 * n + 3
  | .notify => 3 * n + 2
  | .join => 1
  | .returned => 0

def toStop (p : SimpleThreadPool n τ) (calls : List τ) : Nat := p.toDo calls + p.stop.rank n

section

variable {p q : SimpleThreadPool n τ} {e : Event n τ} {calls : List τ}

/-- An own step is a step of `stop`, or an inner one. -/
theorem Event.Own.cases (he : e.Own) :
    e.Inner ∨ e = .stop ∨ e = .store ∨ e = .notifyAll ∨ e = .joined := by
  cases e <;> simp_all [Own, Inner]

theorem Event.Inner.own (he : e.Inner) : e.Own := by
  cases e with
  | submit | wake => cases he
  | _ => trivial

variable [DecidableEq τ]

/-- Each worker that is woken up has three more steps to its block, or to its end. -/
theorem sum_rank_wakeAll (p : SimpleThreadPool n τ) :
    (∑ w, Worker.rank (if p.workers w = .blocked then .relock else p.workers w)) ≤
      (∑ w, (p.workers w).rank) + 3 * n := by
  have hle : ∀ w, Worker.rank (if p.workers w = .blocked then .relock else p.workers w) ≤
      (p.workers w).rank + 3 := by
    intro w
    split_ifs with hw
    · simp [Worker.rank]
    · omega
  calc (∑ w, Worker.rank (if p.workers w = .blocked then .relock else p.workers w))
      ≤ ∑ w, ((p.workers w).rank + 3) := Finset.sum_le_sum fun w _ => hle w
    _ = (∑ w, (p.workers w).rank) + 3 * n := by
      simp [Finset.sum_add_distrib, Nat.mul_comm]

theorem Move.lowers_own (h : Move p e q) (he : e.Own)
    (hcalls : Covered Submission.isBusy p.submissions calls) : q.toStop calls < p.toStop calls := by
  rcases he.cases with hinner | hstop
  · have hlt := h.lowers hinner hcalls
    simp only [toStop, h.stop_eq hinner]
    omega
  · cases h with
    | stop hs | store hs | joined hs => simp [toStop, toDo, hs, Stop.rank]
    | notifyAll hs =>
      have hle := sum_rank_wakeAll p
      simp only [toStop, toDo, hs, Stop.rank]
      omega
    | _ => simp at hstop

/-- What every step of the pool keeps, when no more tasks are submitted. -/
structure Settling (calls : List τ) (p : SimpleThreadPool n τ) : Prop where
  mutexed : p.Mutexed
  conserved : p.Conserved
  covered : Covered Submission.isBusy p.submissions calls

theorem descends_own (calls : List τ) :
    Descends (step (n := n)) Event.Own (Settling calls) (fun p => p.toStop calls) where
  keeps p e q hst he hp :=
    have hmove := move_of_step hst
    ⟨hmove.mutexed hp.mutexed, hmove.conserved hp.conserved,
      hmove.covered (fun _ => by rintro rfl; exact he) hp.covered⟩
  lowers p e q hst he hp := (move_of_step hst).lowers_own he hp.covered

theorem exists_settling {es : List (Event n τ)} (h : run step {} es = some p) :
    ∃ calls, p.Settling calls := by
  obtain ⟨calls, hcalls⟩ := exists_covered h
  have hmutexed : p.Mutexed :=
    run_preserves (fun _ _ _ hst => (move_of_step hst).mutexed) h mutexed_initial
  have hconserved : p.Conserved :=
    run_preserves (fun _ _ _ hst => (move_of_step hst).conserved) h conserved_initial
  exact ⟨calls, hmutexed, hconserved, hcalls⟩

/-- How far `stop` has come where neither it nor the pool goes on. -/
theorem stop_of_quiet (hquiet : Quiet step Event.Own p) :
    p.stop = .returned ∨ p.stop = .join ∧ ∃ w, p.workers w ≠ .done := by
  cases hs : p.stop with
  | outside => simpa [step, hs] using hquiet .stop trivial
  | store => simpa [step, hs] using hquiet .store trivial
  | notify => simpa [step, hs] using hquiet .notifyAll trivial
  | join =>
    have hstuck := hquiet .joined trivial
    simp only [step, hs, true_and, ite_eq_right_iff, reduceCtorEq, imp_false, not_forall] at hstuck
    exact .inr ⟨rfl, hstuck⟩
  | returned => exact .inl rfl

theorem not_owesNotify_of_idle {pc : Submission} (h : pc.isBusy = false) :
    pc.owesNotify = false := by
  cases pc <;> simp_all [Submission.isBusy, Submission.owesNotify]

/-- There `stop` has returned, or a worker sleeps through it. -/
theorem Settling.stop_iff (hp : p.Settling calls) (hquiet : Quiet step Event.Own p) :
    (∀ w, p.workers w = .blocked ∨ p.workers w = .done) ∧
      (p.stop = .returned ↔ ∀ w, p.workers w = .done) ∧
      (p.stop ≠ .returned ↔ p.SleepsThroughStop) := by
  have hinner : Quiet step Event.Inner p := fun e he => hquiet e he.own
  have hasleep := hp.mutexed.asleep hinner
  have hstop := stop_of_quiet hquiet
  have hreturned : p.stop = .returned ↔ ∀ w, p.workers w = .done := by
    constructor
    · exact hp.conserved.joined
    · intro hdone
      rcases hstop with hreturned | ⟨-, w, hw⟩
      · exact hreturned
      · exact absurd (hdone w) hw
  refine ⟨hasleep, hreturned, fun hne => ?_, fun hsleeps => ?_⟩
  · obtain ⟨hjoin, w, hw⟩ := hstop.resolve_left hne
    refine ⟨.inl hjoin, ⟨w, (hasleep w).resolve_right hw⟩, fun task => ?_⟩
    exact not_owesNotify_of_idle (hp.mutexed.idle hinner task)
  · intro hs
    obtain ⟨w, hw⟩ := hsleeps.blocked
    have hdone := hp.conserved.joined hs w
    simp [hw] at hdone

end

/-- From wherever the pool is, when no more tasks are submitted and no worker wakes up by itself,
its steps and those of `stop` are bounded in number, they can always go on to where there are
none, and there every worker is blocked or done; `stop` has returned exactly if all are done, and
has not exactly if a worker sleeps through it. -/
theorem stop_returns_iff [DecidableEq τ] (poolSize : Int)
    {p : SimpleThreadPool (threadNum poolSize) τ} {es : List (Event (threadNum poolSize) τ)}
    (h : run step {} es = some p) :
    (∃ bound, ∀ fs q, run step p fs = some q → (∀ e ∈ fs, e.Own) → fs.length ≤ bound) ∧
      (∃ fs q, run step p fs = some q ∧ (∀ e ∈ fs, e.Own) ∧ Quiet step Event.Own q) ∧
      ∀ fs q, run step p fs = some q → (∀ e ∈ fs, e.Own) → Quiet step Event.Own q →
        (∀ w, q.workers w = .blocked ∨ q.workers w = .done) ∧
        (q.stop = .returned ↔ ∀ w, q.workers w = .done) ∧
        (q.stop ≠ .returned ↔ q.SleepsThroughStop) := by
  obtain ⟨calls, hp⟩ := exists_settling h
  have hdesc := descends_own (n := threadNum poolSize) calls
  obtain ⟨hbound, hquiet⟩ := hdesc.ends hp
  refine ⟨hbound, hquiet, fun fs q hrun hfs hquiet => ?_⟩
  exact (hdesc.of_run hrun hfs hp).stop_iff hquiet

/-- A task is on its way into the queue of a pool of two when `stop` is called. -/
theorem stop_returns_iff_two : ∃ (p q : SimpleThreadPool (threadNum 2) Nat)
    (fs : List (Event (threadNum 2) Nat)),
    run step {} [.submit 7, .submission 7, .worker firstWorker, .stop] = some p ∧
      run step p fs = some q ∧ (q.stop ≠ .returned ↔ q.SleepsThroughStop) := by
  have h : run step ({} : SimpleThreadPool (threadNum 2) Nat)
      [.submit 7, .submission 7, .worker firstWorker, .stop] = some _ := rfl
  obtain ⟨-, ⟨fs, q, hrun, hfs, hquiet⟩, hall⟩ := stop_returns_iff 2 h
  obtain ⟨-, -, hsleeps⟩ := hall fs q hrun hfs hquiet
  exact ⟨_, q, fs, h, hrun, hsleeps⟩

end NBRaft.Concurrency.SimpleThreadPool
