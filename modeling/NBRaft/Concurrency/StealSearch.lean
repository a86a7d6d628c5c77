import NBRaft.Concurrency.QueuePolling
import NBRaft.Concurrency.StealThreadPool

/-!
# A search overlooks nothing

A worker of `StealThreadPool` looks at one queue after the other, each at a time of its own, while
tasks are pushed and taken. Still it does not come to the end of its search, where it backs off,
while a task is left that was in one of the queues when it began: somebody else has taken it.
-/

namespace NBRaft.Concurrency.StealThreadPool

open Transition

variable {n : Nat}

/-- The queues that a worker has found empty since it was last looking, with those that have told it
so. -/
def Worker.passed (w j : Fin n) (told : Fin n → Prop) : Worker n → Prop
  | .popping => j = w ∧ told w
  | .searching i => j = w ∨ (j : Nat) < i
  | .stealing i => j = w ∨ j < i ∨ j = i ∧ told i
  | .looking | .holding _ => False

def passed (p : StealThreadPool n) (w j : Fin n) : Prop :=
  (p.workers w).passed w j fun i => (p.m_thread_work_ques i).threads w = .returned none

/-- The workers poll the queues that they ask. -/
structure Polling (p : StealThreadPool n) : Prop where
  sound : ∀ i, ∃ cells, (p.m_thread_work_ques i).Sound cells
  polls : ∀ w i, (p.workers w).asks w = some i →
    ((p.m_thread_work_ques i).threads w).polls = true

theorem polling_initial : ({} : StealThreadPool n).Polling where
  sound _ := ⟨[], ConcurrentQueue.sound_initial⟩
  polls := nofun

/-! ## What a worker does -/

/-- What the steps of a worker are, each with where it comes from. -/
inductive WorkerMove (p : StealThreadPool n) (w : Fin n) : StealThreadPool n → Prop where
  | pop {q : ConcurrentQueue Task} : p.workers w = .looking →
    (p.m_thread_work_ques w).step (.call w (.pop .tryPop)) = some q →
      WorkerMove p w ((p.setQueue w q).setWorker w .popping)
  | popped {task : Task} : p.workers w = .popping →
    (p.m_thread_work_ques w).threads w = .returned (some task) →
      WorkerMove p w (p.setWorker w (.holding task))
  | popMissed : p.workers w = .popping → (p.m_thread_work_ques w).threads w = .returned none →
    WorkerMove p w (p.setWorker w (.searching 0))
  | skip : p.workers w = .searching w → WorkerMove p w (p.setWorker w (.searching (w + 1)))
  | steal {i : Fin n} {q : ConcurrentQueue Task} : p.workers w = .searching i →
    (p.m_thread_work_ques i).step (.call w .trySteal) = some q →
      WorkerMove p w ((p.setQueue i q).setWorker w (.stealing i))
  | stolen {i : Fin n} {task : Task} : p.workers w = .stealing i →
    (p.m_thread_work_ques i).threads w = .returned (some task) →
      WorkerMove p w (p.setWorker w (.holding task))
  | stealMissed {i : Fin n} : p.workers w = .stealing i →
    (p.m_thread_work_ques i).threads w = .returned none →
      WorkerMove p w (p.setWorker w (.searching (i + 1)))
  | giveUp {i : Nat} : p.workers w = .searching i → n ≤ i →
    WorkerMove p w (p.setWorker w .looking)
  | execute {task : Task} : p.workers w = .holding task →
    WorkerMove p w ({ p with executed := p.executed ++ [task] }.setWorker w .looking)

/-- What each event is a step of. -/
inductive StepMove [NeZero n] (p : StealThreadPool n) : Event n → StealThreadPool n → Prop where
  | load {task : Task} : p.submissions task = .fresh →
    StepMove p (.load task) (p.setSubmission task (.loaded (Fin.ofNat n (p.m_atm_index + 1))))
  | store {task : Task} {index : Fin n} : p.submissions task = .loaded index →
    StepMove p (.store task) ({ p with m_atm_index := index }.setSubmission task (.stored index))
  | push {task : Task} {index : Fin n} {q : ConcurrentQueue Task} :
    p.submissions task = .stored index →
    (p.m_thread_work_ques index).step (.call (n + task) (.push task)) = some q →
      StepMove p (.push task) ((p.setQueue index q).setSubmission task (.pushing index))
  | worker {w : Fin n} {p' : StealThreadPool n} : p.workerThread w (p.workers w) = some p' →
    StepMove p (.worker w) p'
  | queue {i : Fin n} {e : ConcurrentQueue.Event Task} {r : ConcurrentQueue Task} :
    isCall e = false → (p.m_thread_work_ques i).step e = some r →
      StepMove p (.queue i e) (p.setQueue i r)

section

variable {p p' : StealThreadPool n} {w i j : Fin n} {task : Task} {q : ConcurrentQueue Task}
  {e : Event n}

theorem workerMove_of_workerThread (h : p.workerThread w (p.workers w) = some p') :
    WorkerMove p w p' := by
  cases hw : p.workers w with
  | looking =>
    simp only [hw, workerThread, Option.bind_eq_bind, Option.bind_eq_some_iff] at h
    obtain ⟨q, hq, h⟩ := h
    cases h
    exact .pop hw hq
  | popping =>
    simp only [hw, workerThread] at h
    split at h <;> cases h
    · exact .popped hw ‹_›
    · exact .popMissed hw ‹_›
  | searching i =>
    simp only [hw, workerThread] at h
    split_ifs at h with hi hself
    · cases h
      subst hself
      exact .skip hw
    · simp only [Option.bind_eq_bind, Option.bind_eq_some_iff] at h
      obtain ⟨q, hq, h⟩ := h
      cases h
      exact .steal (i := ⟨i, hi⟩) hw hq
    · cases h
      exact .giveUp hw (Nat.not_lt.mp hi)
  | stealing i =>
    simp only [hw, workerThread] at h
    split at h <;> cases h
    · exact .stolen hw ‹_›
    · exact .stealMissed hw ‹_›
  | holding task =>
    rw [hw] at h
    cases h
    exact .execute hw

theorem stepMove_of_step [NeZero n] (h : p.step e = some p') : StepMove p e p' := by
  cases e with
  | load task =>
    simp only [step] at h
    split at h <;> cases h
    exact .load ‹_›
  | store task =>
    simp only [step] at h
    split at h <;> cases h
    exact .store ‹_›
  | push task =>
    simp only [step] at h
    split at h
    · rename_i index hstored
      simp only [Option.bind_eq_bind, Option.bind_eq_some_iff] at h
      obtain ⟨q, hq, h⟩ := h
      cases h
      exact .push hstored hq
    · cases h
  | worker w => exact .worker h
  | queue i f =>
    simp only [step] at h
    split_ifs at h with hcall
    simp only [Option.bind_eq_bind, Option.bind_eq_some_iff] at h
    obtain ⟨q, hq, h⟩ := h
    cases h
    exact .queue (by simpa using hcall) hq

/-- A worker that is still searching, or has found a task, is not where it began. -/
theorem WorkerMove.ne_looking (h : WorkerMove p w p')
    (hholding : ∀ task, p.workers w ≠ .holding task)
    (hsearching : ∀ i, p.workers w = .searching i → i < n) : p'.workers w ≠ .looking := by
  cases h with
  | giveUp hw hi => exact absurd (hsearching _ hw) (Nat.not_lt.mpr hi)
  | execute hw => exact absurd hw (hholding _)
  | _ => simp [setWorker]

theorem WorkerMove.eq_of_searching {i : Nat} (h : WorkerMove p w p')
    (hw : p.workers w = .searching i) (hi : n ≤ i) : p' = p.setWorker w .looking := by
  cases h with
  | giveUp => rfl
  | skip hw' =>
    obtain rfl := Worker.searching.inj (hw'.symm.trans hw)
    exact absurd hi (Nat.not_le.mpr w.isLt)
  | @steal j q hw' =>
    obtain rfl := Worker.searching.inj (hw'.symm.trans hw)
    exact absurd hi (Nat.not_le.mpr j.isLt)
  | pop hw' | popped hw' | popMissed hw' | stolen hw' | stealMissed hw' | execute hw' =>
    cases hw'.symm.trans hw

theorem WorkerMove.eq_of_holding (h : WorkerMove p w p') (hw : p.workers w = .holding task) :
    p' = { p with executed := p.executed ++ [task] }.setWorker w .looking := by
  cases h with
  | execute hw' =>
    obtain rfl := Worker.holding.inj (hw'.symm.trans hw)
    rfl
  | pop hw' | popped hw' | popMissed hw' | skip hw' | steal hw' | stolen hw' | stealMissed hw'
  | giveUp hw' => cases hw'.symm.trans hw

/-! ## What is in a queue -/

theorem linked_iff_mem (hp : p.Conserved) :
    p.linked i task = true ↔ task ∈ (p.m_thread_work_ques i).pushed := by
  have hcount := hp.pushed i task
  rw [← List.count_pos_iff, hcount]
  cases p.linked i task <;> simp

theorem submitted_iff : p.submitted task = true ↔ ∃ i, p.linked i task = true := by
  unfold submitted
  split
  · rename_i i hi
    constructor
    · intro h
      exact ⟨i, h⟩
    · rintro ⟨j, hj⟩
      have hpushing : p.submissions task = .pushing j := (of_decide_eq_true hj).1
      obtain rfl := Submission.pushing.inj (hi.symm.trans hpushing)
      exact hj
  · rename_i hnot
    refine iff_of_false Bool.false_ne_true ?_
    rintro ⟨j, hj⟩
    exact hnot j (of_decide_eq_true hj).1

/-- A task is linked into one queue. -/
theorem linked_unique (hi : p.linked i task = true) (hj : p.linked j task = true) : i = j :=
  Submission.pushing.inj ((of_decide_eq_true hi).1.symm.trans (of_decide_eq_true hj).1)

/-- What has been pushed and taken remains so. -/
theorem Move.grows (h : Move p p') (i : Fin n) :
    (p.m_thread_work_ques i).pushed ⊆ (p'.m_thread_work_ques i).pushed ∧
      (p.m_thread_work_ques i).taken ⊆ (p'.m_thread_work_ques i).taken := by
  have hqueue : ∀ {j q}, (p.m_thread_work_ques j).pushed ⊆ q.pushed ∧
      (p.m_thread_work_ques j).taken ⊆ q.taken →
      (p.m_thread_work_ques i).pushed ⊆ (Function.update p.m_thread_work_ques j q i).pushed ∧
        (p.m_thread_work_ques i).taken ⊆ (Function.update p.m_thread_work_ques j q i).taken := by
    intro j q hq
    by_cases hi : i = j
    · subst hi
      rwa [Function.update_self]
    · rw [Function.update_of_ne hi]
      exact ⟨List.Subset.refl _, List.Subset.refl _⟩
  cases h with
  | push _ hq | ask _ _ _ hq =>
    obtain ⟨-, rfl⟩ := ConcurrentQueue.call_eq hq
    exact hqueue ⟨List.Subset.refl _, List.Subset.refl _⟩
  | queue he hq =>
    refine hqueue ?_
    cases effect_of_step he hq with
    | quiet hpushed htaken => simp [hpushed, htaken]
    | linked _ hpushed htaken => simp [hpushed, htaken]
    | answered _ hpushed htaken => simp [hpushed, htaken]
  | _ => exact ⟨List.Subset.refl _, List.Subset.refl _⟩

theorem Move.linked_mono (h : Move p p') (hp : p.Conserved) (hlinked : p.linked i task = true) :
    p'.linked i task = true :=
  (linked_iff_mem (h.conserved hp)).mpr ((h.grows i).1 ((linked_iff_mem hp).mp hlinked))

/-- In a queue that is empty, what has been pushed has been taken. -/
theorem Polling.mem_taken (hp : p.Polling)
    (hempty : (p.m_thread_work_ques i).m_head = (p.m_thread_work_ques i).m_tail)
    (htask : task ∈ (p.m_thread_work_ques i).pushed) :
    task ∈ (p.m_thread_work_ques i).taken := by
  obtain ⟨cells, hs⟩ := hp.sound i
  obtain rfl := hs.holds.empty_iff.mp hempty
  have hperm := hs.done.perm
  simp only [List.nil_append, List.map_nil, List.append_nil, hs.taken] at hperm
  exact hperm.mem_iff.mp htask

/-! ## What a worker has passed -/

theorem Move.soundQueues (h : Move p p') (hp : p.Polling) :
    ∀ i, ∃ cells, (p'.m_thread_work_ques i).Sound cells := by
  have hqueue : ∀ {i e q}, (p.m_thread_work_ques i).step e = some q →
      ∀ j, ∃ cells, (Function.update p.m_thread_work_ques i q j).Sound cells := by
    intro i e q hq
    obtain ⟨cells, hs⟩ := hp.sound i
    rw [Function.forall_update_iff p.m_thread_work_ques fun _ q => ∃ cells, q.Sound cells]
    exact ⟨(ConcurrentQueue.move_of_step hq).sound hs, fun j _ => hp.sound j⟩
  cases h with
  | push _ hq | ask _ _ _ hq | queue _ hq => exact hqueue hq
  | _ => exact hp.sound

/-- A call on a queue by one thread is nothing to the others. -/
theorem threads_of_call {tid : Tid} {c : ConcurrentQueue.Call Task}
    (h : (p.m_thread_work_ques i).step (.call tid c) = some q) (hne : (w : Nat) ≠ tid) (j : Fin n) :
    (Function.update p.m_thread_work_ques i q j).threads w =
      (p.m_thread_work_ques j).threads w := by
  obtain ⟨-, rfl⟩ := ConcurrentQueue.call_eq h
  refine Threads.map_update (f := fun q : ConcurrentQueue Task => q.threads w) ?_ j
  exact Function.update_of_ne hne ..

theorem WorkerMove.frame {v : Fin n} (h : WorkerMove p v p') (hv : w ≠ v) :
    p'.workers w = p.workers w ∧
      ∀ i, (p'.m_thread_work_ques i).threads w = (p.m_thread_work_ques i).threads w := by
  have hworkers : ∀ {s : Worker n}, Function.update p.workers v s w = p.workers w :=
    Function.update_of_ne hv ..
  have hne : (w : Nat) ≠ v := fun h => hv (Fin.ext h)
  cases h with
  | pop _ hq | steal _ hq => exact ⟨hworkers, threads_of_call hq hne⟩
  | _ => exact ⟨hworkers, fun _ => rfl⟩

/-- A step is one of the worker's own, or one on a queue, or it leaves the worker where it is. -/
theorem frame_step [NeZero n] (h : p.step e = some p') (w : Fin n) :
    WorkerMove p w p' ∨
      (∃ i f r, isCall f = false ∧ (p.m_thread_work_ques i).step f = some r ∧
        p' = p.setQueue i r) ∨
      p'.workers w = p.workers w ∧
        ∀ i, (p'.m_thread_work_ques i).threads w = (p.m_thread_work_ques i).threads w := by
  cases stepMove_of_step h with
  | load | store => exact .inr (.inr ⟨rfl, fun _ => rfl⟩)
  | @push task _ _ _ hq =>
    have hne : (w : Nat) ≠ n + task := by omega
    exact .inr (.inr ⟨rfl, threads_of_call hq hne⟩)
  | @worker v _ hown =>
    by_cases hv : w = v
    · subst hv
      exact .inl (workerMove_of_workerThread hown)
    · exact .inr (.inr ((workerMove_of_workerThread hown).frame hv))
  | queue hcall hq => exact .inr (.inl ⟨_, _, _, hcall, hq, rfl⟩)

theorem ne_call_of_isCall {f : ConcurrentQueue.Event Task} (hf : isCall f = false)
    (tid : Tid) (c : ConcurrentQueue.Call Task) : f ≠ .call tid c := by
  rintro rfl
  cases hf

/-- A queue that the worker asks tells it now, or has told it before. -/
theorem Worker.passed_of_told {s : Worker n} {told told' empty : Fin n → Prop}
    (htold : ∀ i, s.asks w = some i → told' i → told i ∨ empty i) (h : s.passed w j told') :
    s.passed w j told ∨ empty j := by
  cases s with
  | looking | holding => cases h
  | popping =>
    obtain ⟨rfl, h⟩ := h
    rcases htold j rfl h with h | h
    · exact .inl ⟨rfl, h⟩
    · exact .inr h
  | searching i => exact .inl h
  | stealing i =>
    rcases h with h | h | ⟨rfl, h⟩
    · exact .inl (.inl h)
    · exact .inl (.inr (.inl h))
    · rcases htold j rfl h with h | h
      · exact .inl (.inr (.inr ⟨rfl, h⟩))
      · exact .inr h

theorem passed_congr (hw : p'.workers w = p.workers w)
    (hthreads : ∀ i, (p'.m_thread_work_ques i).threads w = (p.m_thread_work_ques i).threads w) :
    p'.passed w j ↔ p.passed w j := by
  simp only [passed, hw, hthreads]

/-- When a worker goes on it has passed what it has been told of. -/
theorem WorkerMove.passed (h : WorkerMove p w p') (hpassed : p'.passed w j) : p.passed w j := by
  simp only [StealThreadPool.passed] at hpassed ⊢
  cases h with
  | pop hw hq | steal hw hq =>
    obtain ⟨-, rfl⟩ := ConcurrentQueue.call_eq hq
    simp only [hw]
    simp_all [setWorker, setQueue, Worker.passed, ConcurrentQueue.goto, ConcurrentQueue.enter]
  | popMissed hw hmissed =>
    simp only [hw]
    simp_all [setWorker, Worker.passed]
  | skip hw =>
    simp only [hw]
    simp only [setWorker, Function.update_self, Worker.passed] at hpassed ⊢
    rcases hpassed with hj | hj
    · exact .inl hj
    · by_cases hlt : (j : Nat) < w
      · exact .inr hlt
      · exact .inl (Fin.ext (by omega))
  | @stealMissed i hw hmissed =>
    simp only [hw]
    simp only [setWorker, Function.update_self, Worker.passed] at hpassed ⊢
    rcases hpassed with hj | hj
    · exact .inl hj
    · by_cases hlt : (j : Nat) < i
      · exact .inr (.inl hlt)
      · exact .inr (.inr ⟨Fin.ext (by omega), hmissed⟩)
  | popped | stolen | giveUp | execute => simp [setWorker, Worker.passed] at hpassed

/-- A queue that the worker has now passed is empty, or it had passed it before. -/
theorem Polling.passed_step [NeZero n] (hp : p.Polling) (h : p.step e = some p')
    (hpassed : p'.passed w j) : p.passed w j ∨
      (p'.m_thread_work_ques j).m_head = (p'.m_thread_work_ques j).m_tail := by
  rcases frame_step h w with hown | ⟨i, f, r, hf, hr, rfl⟩ | ⟨hw, hthreads⟩
  · exact .inl (hown.passed hpassed)
  · have htold : ∀ i', (p.workers w).asks w = some i' →
        ((p.setQueue i r).m_thread_work_ques i').threads w = .returned none →
          (p.m_thread_work_ques i').threads w = .returned none ∨
            ((p.setQueue i r).m_thread_work_ques i').m_head =
              ((p.setQueue i r).m_thread_work_ques i').m_tail := by
      intro i' hasks hmissed
      by_cases hi : i' = i
      · subst hi
        simp only [setQueue, Function.update_self] at hmissed ⊢
        exact ConcurrentQueue.empty_of_missed (ConcurrentQueue.move_of_step hr)
          (ne_call_of_isCall hf) (hp.polls w i' hasks) hmissed
      · simp only [setQueue, Function.update_of_ne hi] at hmissed ⊢
        exact .inl hmissed
    exact Worker.passed_of_told htold hpassed
  · exact .inl ((passed_congr hw hthreads).mp hpassed)

/-- The queue that a worker has begun to ask it polls. -/
theorem WorkerMove.polls (h : WorkerMove p w p') (hasks : (p'.workers w).asks w = some i) :
    ((p'.m_thread_work_ques i).threads w).polls = true := by
  cases h with
  | pop _ hq | steal _ hq =>
    obtain ⟨-, rfl⟩ := ConcurrentQueue.call_eq hq
    simp only [setWorker, setQueue, Function.update_self, Worker.asks, Option.some.injEq] at hasks ⊢
    subst hasks
    simp [ConcurrentQueue.goto, ConcurrentQueue.enter, ConcurrentQueue.Pc.polls]
  | _ => simp [setWorker, Worker.asks] at hasks

theorem Polling.step [NeZero n] (hp : p.Polling) (h : p.step e = some p') : p'.Polling := by
  refine ⟨(move_of_step h).soundQueues hp, fun w i hasks => ?_⟩
  rcases frame_step h w with hown | ⟨j, f, r, hf, hr, rfl⟩ | ⟨hw, hthreads⟩
  · exact hown.polls hasks
  · have hpolls := hp.polls w i hasks
    by_cases hi : i = j
    · subst hi
      simp only [setQueue, Function.update_self]
      exact ConcurrentQueue.polls_step (ConcurrentQueue.move_of_step hr) (ne_call_of_isCall hf)
        hpolls
    · simpa only [setQueue, Function.update_of_ne hi] using hpolls
  · rw [hw] at hasks
    rw [hthreads i]
    exact hp.polls w i hasks

/-! ## The end of a search -/

/-- Of these tasks, all in the pool, none is left in a queue that the worker has passed. -/
structure Thorough (S : Task → Prop) (w : Fin n) (p : StealThreadPool n) : Prop where
  conserved : p.Conserved
  polling : p.Polling
  submitted : ∀ task, S task → p.submitted task = true
  taken : ∀ j task, S task → p.passed w j → p.linked j task = true →
    task ∈ (p.m_thread_work_ques j).taken

theorem Thorough.step [NeZero n] {S : Task → Prop} (hp : p.Thorough S w)
    (h : p.step e = some p') : p'.Thorough S w := by
  have hmove := move_of_step h
  have hconserved := hmove.conserved hp.conserved
  have hpolling := hp.polling.step h
  refine ⟨hconserved, hpolling, fun task htask => ?_, fun j task htask hpassed hlinked => ?_⟩
  · obtain ⟨i, hi⟩ := submitted_iff.mp (hp.submitted task htask)
    exact submitted_iff.mpr ⟨i, hmove.linked_mono hp.conserved hi⟩
  · rcases hp.polling.passed_step h hpassed with hbefore | hempty
    · obtain ⟨i, hi⟩ := submitted_iff.mp (hp.submitted task htask)
      obtain rfl := linked_unique (hmove.linked_mono hp.conserved hi) hlinked
      exact (hmove.grows i).2 (hp.taken i task htask hbefore hi)
    · exact hpolling.mem_taken hempty ((linked_iff_mem hconserved).mp hlinked)

/-- What has been taken is in a wrapper, or has been executed. -/
theorem Conserved.beyond_of_taken (hp : p.Conserved)
    (htask : task ∈ (p.m_thread_work_ques i).taken) :
    task ∈ p.executed ∨ ∃ w, p.wrapper w = some task := by
  by_contra hnot
  push Not at hnot
  obtain ⟨hexecuted, hwrapper⟩ := hnot
  have hbeyond : p.beyond task = 0 := by
    rw [beyond, List.count_eq_zero.mpr hexecuted, Nat.add_zero]
    refine Finset.sum_eq_zero fun w _ => List.count_eq_zero.mpr ?_
    simpa using hwrapper w
  have htaken := hp.taken task
  rw [hbeyond, Finset.sum_eq_zero_iff] at htaken
  exact List.count_eq_zero.mp (htaken i (Finset.mem_univ i)) htask

end

/-- However the steps of the pool interleave: when a worker comes to the end of a search with
nothing, every task that was in one of the queues when it was last looking, or before, has been
taken by another worker, or executed. -/
theorem nothing_overlooked [NeZero n] {p q : StealThreadPool n} {es fs : List (Event n)}
    (h : run step {} es = some p) (hrun : run step p fs = some q) {w : Fin n}
    (hw : p.workers w = .looking) {i : Nat} (hq : q.workers w = .searching i) (hi : n ≤ i)
    {task : Task} (htask : p.submitted task = true) :
    task ∈ q.executed ∨ ∃ v, v ≠ w ∧ q.wrapper v = some task := by
  have hconserved : p.Conserved :=
    run_preserves (fun _ _ _ hstep => (move_of_step hstep).conserved) h conserved_initial
  have hpolling : p.Polling :=
    run_preserves (fun _ _ _ hstep hp => Polling.step hp hstep) h polling_initial
  have hp : p.Thorough (fun task => p.submitted task = true) w := by
    refine ⟨hconserved, hpolling, fun _ => id, fun j task _ hpassed => ?_⟩
    simp [passed, Worker.passed, hw] at hpassed
  have hend : q.Thorough (fun task => p.submitted task = true) w :=
    run_preserves (fun _ _ _ hstep hp => Thorough.step hp hstep) hrun hp
  obtain ⟨j, hj⟩ := submitted_iff.mp (hend.submitted task htask)
  have hpassed : q.passed w j := by
    simp only [passed, hq, Worker.passed]
    exact .inr (by omega)
  refine (hend.conserved.beyond_of_taken (hend.taken j task htask hpassed hj)).imp_right ?_
  rintro ⟨v, hv⟩
  refine ⟨v, ?_, hv⟩
  rintro rfl
  simp [wrapper, hq, Worker.asks] at hv

/-- A task is linked into the queue of the second worker. -/
def linkedTask : List (Event 2) :=
  [.load 0, .store 0, .push 0, .queue 1 (.advance 2), .queue 1 (.link 2 10), .queue 1 (.advance 2)]

/-- Both workers look for it, and the second one takes it before the first comes to its queue. -/
def takenTask : List (Event 2) :=
  [.worker 1, .queue 1 (.advance 1), .worker 0, .queue 0 (.advance 0), .queue 0 (.advance 0),
    .worker 0, .worker 0, .queue 1 (.advance 1), .queue 1 (.advance 1), .worker 0,
    .queue 1 (.advance 0), .worker 0]

theorem nothing_overlooked_taken : ∃ p q : StealThreadPool 2, run step {} linkedTask = some p ∧
    run step p takenTask = some q ∧ p.submitted 0 = true ∧
    (0 ∈ q.executed ∨ ∃ v, v ≠ 0 ∧ q.wrapper v = some 0) := by
  have h : run step ({} : StealThreadPool 2) linkedTask = some _ := rfl
  refine ⟨_, _, h, rfl, rfl, ?_⟩
  exact @nothing_overlooked 2 _ _ _ _ takenTask h rfl 0 rfl 2 rfl (Nat.le_refl 2) 0 rfl

end NBRaft.Concurrency.StealThreadPool
