import NBRaft.Concurrency.ParrallenThreadPool

/-!
# The tasks of a worker

A worker of `ParrallenThreadPool` executes the tasks that were pushed onto its queue, each once and
in the order in which they were linked, whatever the other workers, the submissions and the
destructor do. Once `m_done` is set it executes one more at most.
-/

namespace NBRaft.Concurrency.ParrallenThreadPool

open Transition Threads

variable {n : Nat}

def Submission.isPushing : Submission n → Bool
  | .pushing _ => true
  | _ => false

/-- The queue of a worker, and what the worker has made of it. -/
structure Kept (p : ParrallenThreadPool n) (i : Fin n) : Prop where
  sound : ∃ cells, (p.m_thread_work_ques i).Sound cells
  inOrder : (p.m_thread_work_ques i).InOrder
  /-- Only the worker takes from the queue. -/
  taker : ∀ tid, ((p.m_thread_work_ques i).threads tid).isConsuming = true →
    tid = i ∧ p.workers i = .popping
  /-- A task is carried by its own submission only. -/
  giver : ∀ tid task, ((p.m_thread_work_ques i).threads tid).carried = some task →
    tid = n + 1 + task ∧ p.submissions task = .pushing i
  pushed : ∀ task, (p.m_thread_work_ques i).pushed.count task = (p.linked i task).toNat
  taken : (p.m_thread_work_ques i).taken = p.executed i ++ p.inHand i

section

variable {p p' : ParrallenThreadPool n} {w i : Fin n} {task : Task} {q : ConcurrentQueue Task}
  {s : Worker} {e : Event n}

theorem kept_initial (i : Fin n) : ({} : ParrallenThreadPool n).Kept i where
  sound := ⟨[], ConcurrentQueue.sound_initial⟩
  inOrder := ConcurrentQueue.inOrder_initial
  taker := fun tid h => by cases h
  giver := fun tid task h => by cases h
  pushed := fun task => by simp [ConcurrentQueue.pushed, Deque.pushed, linked]
  taken := rfl

theorem linked_congr
    (hsubmission : p'.submissions task = .pushing i ↔ p.submissions task = .pushing i)
    (hcarried : ((p'.m_thread_work_ques i).threads (n + 1 + task)).carried =
      ((p.m_thread_work_ques i).threads (n + 1 + task)).carried) :
    p'.linked i task = p.linked i task := by
  simp only [linked, hsubmission, hcarried]

theorem inHand_congr (hworker : p'.workers w = p.workers w)
    (hvalue : ((p'.m_thread_work_ques w).threads w).value =
      ((p.m_thread_work_ques w).threads w).value) : p'.inHand w = p.inHand w := by
  simp only [inHand, hworker, hvalue]

theorem inHand_of_popping (hw : p.workers w = .popping) :
    p.inHand w = ((p.m_thread_work_ques w).threads w).value.toList := by
  unfold inHand
  rw [hw]

theorem inHand_of_holding (hw : p.workers w = .holding task) : p.inHand w = [task] := by
  unfold inHand
  rw [hw]

theorem inHand_of_testing (hw : p.workers w = .testing) : p.inHand w = [] := by
  unfold inHand
  rw [hw]

theorem inHand_of_returned (hw : p.workers w = .returned) : p.inHand w = [] := by
  unfold inHand
  rw [hw]

theorem workers_setWorker_self : (p.setWorker w s).workers w = s :=
  Function.update_self ..

/-- What happens elsewhere is of no concern to a worker and its queue. -/
theorem Kept.congr (hp : p.Kept i) (hqueue : p'.m_thread_work_ques i = p.m_thread_work_ques i)
    (hworker : p'.workers i = p.workers i) (hexecuted : p'.executed i = p.executed i)
    (hsubmission : ∀ task, p'.submissions task = .pushing i ↔ p.submissions task = .pushing i) :
    p'.Kept i := by
  have hhand : p'.inHand i = p.inHand i := inHand_congr hworker (by rw [hqueue])
  have hlinked : ∀ task, p'.linked i task = p.linked i task := fun task =>
    linked_congr (hsubmission task) (by rw [hqueue])
  constructor
  · rw [hqueue]
    exact hp.sound
  · rw [hqueue]
    exact hp.inOrder
  · rw [hqueue, hworker]
    exact hp.taker
  · intro tid task htask
    rw [hqueue] at htask
    exact (hp.giver tid task htask).imp_right (hsubmission task).mpr
  · intro task
    rw [hqueue, hlinked]
    exact hp.pushed task
  · rw [hqueue, hexecuted, hhand]
    exact hp.taken

/-- The worker goes on by itself. -/
theorem Kept.setWorker {executed : Fin n → List Task} (hp : p.Kept w)
    (hidle : ∀ tid, ((p.m_thread_work_ques w).threads tid).isConsuming = false)
    (hhand : executed w ++ (p.setWorker w s).inHand w = p.executed w ++ p.inHand w) :
    ({ p with executed := executed }.setWorker w s).Kept w where
  sound := hp.sound
  inOrder := hp.inOrder
  taker tid htid := by
    change ((p.m_thread_work_ques w).threads tid).isConsuming = true at htid
    rw [hidle tid] at htid
    cases htid
  giver := hp.giver
  pushed := hp.pushed
  taken := hp.taken.trans hhand.symm

theorem Kept.not_consuming (hp : p.Kept w) (hw : p.workers w ≠ .popping) (tid : Tid) :
    ((p.m_thread_work_ques w).threads tid).isConsuming = false := by
  rw [Bool.eq_false_iff]
  exact fun h => hw (hp.taker tid h).2

theorem Kept.not_consuming_of_returned {v : Option Task} (hp : p.Kept w)
    (hpc : (p.m_thread_work_ques w).threads w = .returned v) (tid : Tid) :
    ((p.m_thread_work_ques w).threads tid).isConsuming = false := by
  rw [Bool.eq_false_iff]
  intro h
  obtain ⟨rfl, -⟩ := hp.taker tid h
  rw [hpc] at h
  cases h

theorem threads_of_call {tid t : Tid} {c : ConcurrentQueue.Call Task} {r : ConcurrentQueue Task}
    (h : q.step (.call tid c) = some r) (ht : t ≠ tid) : r.threads t = q.threads t := by
  obtain ⟨-, rfl⟩ := ConcurrentQueue.call_eq h
  exact Function.update_of_ne ht ..

theorem carried_of_push {tid : Tid} {r : ConcurrentQueue Task}
    (h : q.step (.call tid (.push task)) = some r) : (r.threads tid).carried = some task := by
  obtain ⟨-, rfl⟩ := ConcurrentQueue.call_eq h
  simp only [ConcurrentQueue.goto, Function.update_self]
  rfl

/-- A call on the queue, which is neither a pop nor a steal. -/
theorem Kept.call {tid : Tid} {c : ConcurrentQueue.Call Task} (hp : p.Kept i)
    (hq : (p.m_thread_work_ques i).step (.call tid c) = some q)
    (hqueue : p'.m_thread_work_ques i = q) (hworker : p'.workers i = p.workers i)
    (hexecuted : p'.executed i = p.executed i) (htid : tid ≠ i)
    (hc : (ConcurrentQueue.enter c).isConsuming = false)
    (hgiver : ∀ task, c = .push task → tid = n + 1 + task ∧ p'.submissions task = .pushing i)
    (hsubmission : ∀ task, p.submissions task = .pushing i → p'.submissions task = .pushing i)
    (hlinked : ∀ task, p'.linked i task = p.linked i task) : p'.Kept i := by
  have hmove := ConcurrentQueue.move_of_step hq
  have hhand : p'.inHand i = p.inHand i := by
    refine inHand_congr hworker ?_
    rw [hqueue]
    exact ConcurrentQueue.value_of_call hq (Ne.symm htid)
  constructor
  · rw [hqueue]
    obtain ⟨cells, hs⟩ := hp.sound
    exact hmove.sound hs
  · rw [hqueue]
    refine hmove.inOrder ?_ hp.inOrder
    rintro t he
    cases he
    cases hc
  · intro t ht
    rw [hqueue] at ht
    rw [hworker]
    rcases ConcurrentQueue.isConsuming_of_call hq ht with ⟨-, hconsuming⟩ | ht
    · rw [hc] at hconsuming
      cases hconsuming
    · exact hp.taker t ht
  · intro t task htask
    rw [hqueue] at htask
    rcases ConcurrentQueue.carried_of_call hq htask with ⟨rfl, hpush⟩ | htask
    · exact hgiver task hpush
    · exact (hp.giver t task htask).imp_right (hsubmission task)
  · intro task
    obtain ⟨-, rfl⟩ := ConcurrentQueue.call_eq hq
    rw [hqueue, hlinked]
    exact hp.pushed task
  · obtain ⟨-, rfl⟩ := ConcurrentQueue.call_eq hq
    rw [hqueue, hexecuted, hhand]
    exact hp.taken

theorem submitter_ne_worker (task : Task) (w : Fin n) : n + 1 + task ≠ w := by
  have := w.isLt
  omega

/-- `submit` calls `push`. -/
theorem Kept.push (hp : p.Kept i) (hs : (p.submissions task).isPushing = false)
    (hq : (p.m_thread_work_ques i).step (.call (n + 1 + task) (.push task)) = some q) :
    ((p.setQueue i q).setSubmission task (.pushing i)).Kept i := by
  have hself : ((p.setQueue i q).setSubmission task (.pushing i)).m_thread_work_ques i = q :=
    Function.update_self ..
  have hpushing : ∀ other, p.submissions other = .pushing i → other ≠ task := by
    rintro other hother rfl
    rw [hother] at hs
    cases hs
  refine hp.call hq hself rfl rfl (submitter_ne_worker task i) rfl ?_ ?_ ?_
  · rintro other ⟨⟩
    exact ⟨rfl, Function.update_self ..⟩
  · intro other hother
    exact (Function.update_of_ne (hpushing other hother) ..).trans hother
  · intro other
    by_cases hother : other = task
    · subst hother
      have hcarried := carried_of_push hq
      have hnew : ((p.setQueue i q).setSubmission other (.pushing i)).linked i other = false := by
        rw [linked, hself, hcarried]
        simp
      have hold : p.linked i other = false := by
        refine decide_eq_false fun h => ?_
        exact hpushing other h.1 rfl
      rw [hnew, hold]
    · refine linked_congr ?_ ?_
      · simp [setSubmission, setQueue, hother]
      · rw [hself, threads_of_call hq fun h => hother (Nat.add_left_cancel h)]

/-- The destructor calls `Exit`. -/
theorem Kept.exit (hp : p.Kept i) (hq : (p.m_thread_work_ques i).step (.call n .exit) = some q) :
    Kept { p.setQueue i q with destructor := .inExit i } i := by
  have hself : (p.setQueue i q).m_thread_work_ques i = q := Function.update_self ..
  refine hp.call hq hself rfl rfl (Nat.ne_of_gt i.isLt) rfl nofun (fun _ h => h) fun other => ?_
  refine linked_congr Iff.rfl (congrArg ConcurrentQueue.Pc.carried ?_)
  refine (congrArg (fun q => q.threads (n + 1 + other)) hself).trans (threads_of_call hq ?_)
  exact Nat.ne_of_gt (Nat.lt_of_lt_of_le (Nat.lt_succ_self n) (Nat.le_add_right ..))

/-- The worker calls `wait_and_pop`. -/
theorem Kept.pop (hp : p.Kept w) (hw : p.workers w = .testing)
    (hq : (p.m_thread_work_ques w).step (.call w (.pop .waitAndPop)) = some q) :
    ((p.setQueue w q).setWorker w .popping).Kept w := by
  have hself : ((p.setQueue w q).setWorker w .popping).m_thread_work_ques w = q :=
    Function.update_self ..
  have hpopping : ((p.setQueue w q).setWorker w .popping).workers w = .popping :=
    Function.update_self ..
  have hmove := ConcurrentQueue.move_of_step hq
  have hnone := ConcurrentQueue.value_of_pop hq
  constructor
  · rw [hself]
    obtain ⟨cells, hs⟩ := hp.sound
    exact hmove.sound hs
  · rw [hself]
    exact hmove.inOrder nofun hp.inOrder
  · intro t ht
    rw [hself] at ht
    rcases ConcurrentQueue.isConsuming_of_call hq ht with ⟨rfl, -⟩ | ht
    · exact ⟨rfl, hpopping⟩
    · exact ⟨(hp.taker t ht).1, hpopping⟩
  · intro t task htask
    rw [hself] at htask
    rcases ConcurrentQueue.carried_of_call hq htask with ⟨-, hpush⟩ | htask
    · cases hpush
    · exact hp.giver t task htask
  · intro task
    have hlinked : ((p.setQueue w q).setWorker w .popping).linked w task = p.linked w task := by
      refine linked_congr Iff.rfl ?_
      rw [hself, threads_of_call hq (submitter_ne_worker task w)]
    obtain ⟨-, hgo⟩ := ConcurrentQueue.call_eq hq
    rw [hlinked, hself, hgo]
    exact hp.pushed task
  · have hhand : ((p.setQueue w q).setWorker w .popping).inHand w = [] := by
      rw [inHand_of_popping hpopping, hself, hnone]
      rfl
    have hbefore : p.inHand w = [] := inHand_of_testing hw
    have htaken := hp.taken
    rw [hbefore] at htaken
    obtain ⟨-, hgo⟩ := ConcurrentQueue.call_eq hq
    rw [hhand, hself, hgo]
    exact htaken

/-- An operation on the queue goes on. -/
theorem Kept.queue {e : ConcurrentQueue.Event Task} (hp : p.Kept i)
    (he : ∀ tid c, e ≠ .call tid c)
    (hq : (p.m_thread_work_ques i).step e = some q) : (p.setQueue i q).Kept i := by
  have hself : (p.setQueue i q).m_thread_work_ques i = q := Function.update_self ..
  have hmove := ConcurrentQueue.move_of_step hq
  have heffect := hmove.effect he
  constructor
  · rw [hself]
    obtain ⟨cells, hs⟩ := hp.sound
    exact hmove.sound hs
  · rw [hself]
    exact hmove.inOrder (fun tid => he tid _) hp.inOrder
  · intro tid htid
    rw [hself] at htid
    exact hp.taker tid (heffect.isConsuming htid)
  · intro tid task htask
    rw [hself] at htask
    exact hp.giver tid task (heffect.carried htask)
  · intro task
    rw [hself]
    have hpushed := hp.pushed task
    cases heffect with
    | quiet hsame _ hthreads =>
      have hlinked : (p.setQueue i q).linked i task = p.linked i task := by
        refine linked_congr Iff.rfl ?_
        rw [hself]
        exact hthreads.carried _
      rw [hsame, hpushed, hlinked]
    | @linked tid v hpc hlink _ hthreads =>
      obtain ⟨rfl, hpushing⟩ := hp.giver tid v (by rw [hpc]; rfl)
      by_cases htask : task = v
      · subst htask
        have hbefore : p.linked i task = false := by simp [linked, hpc, ConcurrentQueue.Pc.carried]
        have hafter : (p.setQueue i q).linked i task = true := by
          refine decide_eq_true ⟨hpushing, ?_⟩
          rw [hself, hthreads, Function.update_self]
          rfl
        rw [hlink, List.count_append, hpushed, hbefore, hafter, List.count_singleton_self]
        rfl
      · have hlinked : (p.setQueue i q).linked i task = p.linked i task := by
          refine linked_congr Iff.rfl ?_
          rw [hself, hthreads, Function.update_of_ne fun h => htask (Nat.add_left_cancel h)]
        rw [hlink, List.count_append, hpushed, hlinked, List.count_singleton,
          if_neg (by simpa using Ne.symm htask), Nat.add_zero]
    | @answered tid v hconsuming hsame _ hthreads =>
      obtain ⟨rfl, -⟩ := hp.taker tid hconsuming
      have hlinked : (p.setQueue i q).linked i task = p.linked i task := by
        refine linked_congr Iff.rfl ?_
        rw [hself, hthreads, Function.update_of_ne (submitter_ne_worker task i)]
      rw [hsame, hpushed, hlinked]
  · rw [hself]
    have htaken := hp.taken
    have hkeep : ((q.threads i).value = ((p.m_thread_work_ques i).threads i).value) →
        (p.setQueue i q).inHand i = p.inHand i := fun hvalue =>
      inHand_congr rfl ((congrArg (fun q => (q.threads i).value) hself).trans hvalue)
    cases heffect with
    | quiet _ hsame hthreads =>
      rw [hsame, hkeep (hthreads.value i)]
      exact htaken
    | linked hpc _ hsame hthreads =>
      rw [hsame, hkeep (ConcurrentQueue.value_of_linked hpc hthreads i)]
      exact htaken
    | @answered tid v hconsuming _ hanswer hthreads =>
      obtain ⟨rfl, hw⟩ := hp.taker tid hconsuming
      have hbefore : p.inHand i = [] := by
        rw [inHand_of_popping hw, ConcurrentQueue.Pc.value_of_isConsuming hconsuming]
        rfl
      have hafter : (p.setQueue i q).inHand i = v.toList := by
        have hw' : (p.setQueue i q).workers i = .popping := hw
        rw [inHand_of_popping hw', hself, hthreads, Function.update_self]
        rfl
      rw [hanswer, htaken, hbefore, hafter, List.append_nil]
      rfl

/-- What a step does to one queue or worker it does to no other. -/
theorem Move.kept (h : Move p e p') (hp : ∀ i, p.Kept i) : ∀ i, p'.Kept i := by
  have hupdate : ∀ {j : Fin n}, p'.Kept j → (∀ i, i ≠ j → p'.Kept i) → ∀ i, p'.Kept i := by
    intro j hself hothers i
    by_cases hi : i = j
    · exact hi ▸ hself
    · exact hothers i hi
  -- a submission that is outside `push` before and after
  have hsubmission : ∀ {task : Task} {s : Submission n} {m_atm_index : Int32},
      (p.submissions task).isPushing = false → s.isPushing = false →
        ∀ i, ({ p with m_atm_index := m_atm_index }.setSubmission task s).Kept i := by
    intro task s m_atm_index hs hs' i
    refine (hp i).congr rfl rfl rfl fun other => ?_
    by_cases hother : other = task
    · subst hother
      simp only [setSubmission, Function.update_self]
      constructor
      · rintro rfl
        cases hs'
      · intro h
        rw [h] at hs
        cases hs
    · simp only [setSubmission, Function.update_of_ne hother]
  cases h with
  | load hs _ | store hs => exact hsubmission (by rw [hs]; rfl) rfl
  | @push task index j q hs _ hq =>
    refine hupdate ((hp j).push (by rw [hs]; rfl) hq) fun i hi => ?_
    refine (hp i).congr (Function.update_of_ne hi ..) rfl rfl fun other => ?_
    by_cases hother : other = task
    · subst hother
      refine iff_of_false ?_ ?_
      · intro h
        simp only [setSubmission, Function.update_self] at h
        exact hi (Submission.pushing.inj h).symm
      · intro h
        cases hs.symm.trans h
    · simp only [setSubmission, setQueue, Function.update_of_ne hother]
  | @leave w hw =>
    refine hupdate ((hp w).setWorker ((hp w).not_consuming (by rw [hw]; nofun)) ?_) fun i hi =>
      (hp i).congr rfl (Function.update_of_ne hi ..) rfl fun _ => Iff.rfl
    rw [inHand_of_returned workers_setWorker_self, inHand_of_testing hw]
  | @pop w q hw _ hq =>
    exact hupdate ((hp w).pop hw hq) fun i hi =>
      (hp i).congr (Function.update_of_ne hi ..) (Function.update_of_ne hi ..) rfl fun _ => Iff.rfl
  | @got w task hw hpc =>
    refine hupdate ((hp w).setWorker ((hp w).not_consuming_of_returned hpc) ?_) fun i hi =>
      (hp i).congr rfl (Function.update_of_ne hi ..) rfl fun _ => Iff.rfl
    rw [inHand_of_holding workers_setWorker_self, inHand_of_popping hw, hpc]
    rfl
  | @missed w hw hpc =>
    refine hupdate ((hp w).setWorker ((hp w).not_consuming_of_returned hpc) ?_) fun i hi =>
      (hp i).congr rfl (Function.update_of_ne hi ..) rfl fun _ => Iff.rfl
    rw [inHand_of_testing workers_setWorker_self, inHand_of_popping hw, hpc]
    rfl
  | @execute w task hw =>
    refine hupdate ((hp w).setWorker ((hp w).not_consuming (by rw [hw]; nofun)) ?_) fun i hi =>
      (hp i).congr rfl (Function.update_of_ne hi ..) (Function.update_of_ne hi ..) fun _ => Iff.rfl
    rw [inHand_of_testing workers_setWorker_self, inHand_of_holding hw, Function.update_self,
      List.append_nil]
  | begin | exited | allExited | joined =>
    exact fun i => (hp i).congr rfl rfl rfl fun _ => Iff.rfl
  | @exit j q _ hq =>
    exact hupdate ((hp j).exit hq) fun i hi =>
      (hp i).congr (Function.update_of_ne hi ..) rfl rfl fun _ => Iff.rfl
  | @queue j e r he hq =>
    exact hupdate ((hp j).queue he hq) fun i hi =>
      (hp i).congr (Function.update_of_ne hi ..) rfl rfl fun _ => Iff.rfl

/-- In every run, the tasks that have been linked into the queue of a worker are those that it has
executed, the one in its hand and those still in the queue, in this order. Each task is linked
once, into the queue that its submission has chosen. -/
theorem executed_in_order {es : List (Event n)} (h : run step {} es = some p) :
    (∀ i, ∃ cells, (p.m_thread_work_ques i).Holds cells ∧
      (p.m_thread_work_ques i).pushed = p.executed i ++ (p.inHand i ++ cells.map Prod.snd)) ∧
    ∀ i task, (p.m_thread_work_ques i).pushed.count task = (p.linked i task).toNat := by
  have hp : ∀ i, p.Kept i :=
    run_preserves (I := fun p : ParrallenThreadPool n => ∀ i, p.Kept i)
      (fun _ _ _ hst => (move_of_step hst).kept) h kept_initial
  refine ⟨fun i => ?_, fun i => (hp i).pushed⟩
  obtain ⟨cells, hs⟩ := (hp i).sound
  have hfifo : (p.m_thread_work_ques i).pushed =
      (p.m_thread_work_ques i).taken ++ cells.map Prod.snd := by
    have hrun := hs.done.fifo (hp i).inOrder.history
    rwa [List.nil_append, hs.taken] at hrun
  refine ⟨cells, hs.holds, ?_⟩
  rw [hfifo, (hp i).taken, List.append_assoc]

/-- Two tasks on the same queue, of which the worker has executed the first and holds the second,
while the destructor is at work. -/
theorem executed_in_order_shutdown : ∃ (p : ParrallenThreadPool 1) (cells : List (Addr × Task)),
    run step {} [.load 0, .store 0, .push 0, .queue 0 (.advance 2), .queue 0 (.link 2 10),
      .queue 0 (.advance 2), .load 1, .store 1, .push 1, .queue 0 (.advance 3),
      .queue 0 (.link 3 11), .queue 0 (.advance 3), .worker 0, .queue 0 (.advance 0),
      .queue 0 (.advance 0), .queue 0 (.advance 0), .queue 0 (.advance 0), .worker 0, .worker 0,
      .worker 0, .destructor, .destructor, .queue 0 (.advance 0), .queue 0 (.advance 0),
      .queue 0 (.advance 0), .queue 0 (.advance 0), .queue 0 (.advance 1), .worker 0] = some p ∧
    p.executed 0 = [0] ∧ p.inHand 0 = [1] ∧
    (p.m_thread_work_ques 0).pushed = p.executed 0 ++ (p.inHand 0 ++ cells.map Prod.snd) := by
  have h : run step ({} : ParrallenThreadPool 1) [.load 0, .store 0, .push 0,
      .queue 0 (.advance 2), .queue 0 (.link 2 10), .queue 0 (.advance 2), .load 1, .store 1,
      .push 1, .queue 0 (.advance 3), .queue 0 (.link 3 11), .queue 0 (.advance 3), .worker 0,
      .queue 0 (.advance 0), .queue 0 (.advance 0), .queue 0 (.advance 0), .queue 0 (.advance 0),
      .worker 0, .worker 0, .worker 0, .destructor, .destructor, .queue 0 (.advance 0),
      .queue 0 (.advance 0), .queue 0 (.advance 0), .queue 0 (.advance 0), .queue 0 (.advance 1),
      .worker 0] = some _ := rfl
  obtain ⟨cells, -, hpushed⟩ := (executed_in_order h).1 0
  exact ⟨_, cells, h, rfl, rfl, hpushed⟩

/-! ## After `m_done` -/

/-- The tasks that a worker may still execute once `m_done` is set. -/
def Worker.left : Worker → Nat
  | .popping | .holding _ => 1
  | .testing | .returned => 0

/-- What a worker has executed since, and may still execute. -/
def Since (before p : ParrallenThreadPool n) (w : Fin n) : Prop :=
  ∃ more, p.executed w = before.executed w ++ more ∧
    more.length + (p.workers w).left ≤ (before.workers w).left

theorem Since.refl (p : ParrallenThreadPool n) (w : Fin n) : p.Since p w :=
  ⟨[], (List.append_nil _).symm, by simp⟩

variable {before : ParrallenThreadPool n}

theorem Move.m_done_mono (h : Move p e p') (hdone : p.m_done = true) : p'.m_done = true := by
  cases h with
  | begin => rfl
  | _ => exact hdone

theorem Move.since (h : Move p e p') (hdone : p.m_done = true) (hp : ∀ w, before.Since p w) :
    ∀ w, before.Since p' w := by
  have hgo : ∀ {w : Fin n} {s : Worker}, s.left ≤ (p.workers w).left →
      ∀ v, before.Since (p.setWorker w s) v := by
    intro w s hle v
    obtain ⟨more, hmore, hlength⟩ := hp v
    refine ⟨more, hmore, ?_⟩
    by_cases hv : v = w
    · subst hv
      simp only [setWorker, Function.update_self]
      omega
    · simpa [setWorker, hv] using hlength
  cases h with
  | leave hw _ => exact hgo (by rw [hw]; exact Nat.le_refl _)
  | got hw _ => exact hgo (by rw [hw]; exact Nat.le_refl _)
  | missed hw _ => exact hgo (by rw [hw]; exact Nat.zero_le _)
  | pop _ hnot => simp [hdone] at hnot
  | @execute w task hw =>
    intro v
    obtain ⟨more, hmore, hlength⟩ := hp v
    by_cases hv : v = w
    · subst hv
      refine ⟨more ++ [task], ?_, ?_⟩
      · simp [setWorker, hmore]
      · simp only [hw, Worker.left] at hlength
        simp only [setWorker, Function.update_self, Worker.left, List.length_append,
          List.length_singleton]
        omega
    · refine ⟨more, ?_, ?_⟩
      · simpa [setWorker, hv] using hmore
      · simpa [setWorker, hv] using hlength
  | load | store | push | begin | exited | allExited | joined | exit | queue => exact hp

/-- The destructor returns when all workers have. -/
theorem Move.joins (h : Move p e p')
    (hp : p.destructor = .returned → ∀ w, p.workers w = .returned) :
    p'.destructor = .returned → ∀ w, p'.workers w = .returned := by
  have hstill : ∀ {w : Fin n} {s : Worker}, p.workers w ≠ .returned →
      p.destructor = .returned → ∀ v, (p.setWorker w s).workers v = .returned :=
    fun hw hd => absurd (hp hd _) hw
  cases h with
  | leave hw | pop hw | got hw | missed hw | execute hw => exact hstill (by rw [hw]; nofun)
  | begin | exited | allExited | exit => exact nofun
  | joined _ hall => exact fun _ => hall
  | load | store | push | queue => exact hp

/-- Once `m_done` is set, every worker executes one more task at most, and when the destructor has
returned none. -/
theorem executes_one_more {es fs : List (Event n)} {q : ParrallenThreadPool n}
    (h : run step {} es = some p) (hdone : p.m_done = true) (hrun : run step p fs = some q)
    (w : Fin n) : ∃ more, q.executed w = p.executed w ++ more ∧ more.length ≤ 1 ∧
      (p.destructor = .returned → more = []) := by
  have hjoined : p.destructor = .returned → ∀ w, p.workers w = .returned :=
    run_preserves
      (I := fun p : ParrallenThreadPool n =>
        p.destructor = .returned → ∀ w, p.workers w = .returned)
      (fun _ _ _ hst => (move_of_step hst).joins) h nofun
  obtain ⟨-, hsince⟩ : q.m_done = true ∧ ∀ w, p.Since q w :=
    run_preserves (I := fun q => q.m_done = true ∧ ∀ w, p.Since q w)
      (fun _ _ _ hst hq =>
        ⟨(move_of_step hst).m_done_mono hq.1, (move_of_step hst).since hq.1 hq.2⟩)
      hrun ⟨hdone, Since.refl p⟩
  obtain ⟨more, hmore, hlength⟩ := hsince w
  refine ⟨more, hmore, ?_, fun hd => ?_⟩
  · have hleft : (p.workers w).left ≤ 1 := by cases p.workers w <;> simp [Worker.left]
    omega
  · rw [hjoined hd w] at hlength
    exact List.length_eq_zero_iff.mp (Nat.le_zero.mp (Nat.le_trans (Nat.le_add_right ..) hlength))

/-- The worker is in `wait_and_pop` when `m_done` is set, and finds a task before `Exit`. -/
theorem executes_one_more_waiting : ∃ p q : ParrallenThreadPool 1,
    run step {} [.worker 0, .load 0, .store 0, .push 0, .queue 0 (.advance 2),
      .queue 0 (.link 2 10), .queue 0 (.advance 2), .destructor] = some p ∧
    run step p [.queue 0 (.advance 0), .queue 0 (.advance 0), .queue 0 (.advance 0),
      .queue 0 (.advance 0), .worker 0, .worker 0, .worker 0] = some q ∧
    q.executed 0 = [0] ∧
    ∃ more, q.executed 0 = p.executed 0 ++ more ∧ more.length ≤ 1 ∧
      (p.destructor = .returned → more = []) := by
  have h : run step ({} : ParrallenThreadPool 1) [.worker 0, .load 0, .store 0, .push 0,
      .queue 0 (.advance 2), .queue 0 (.link 2 10), .queue 0 (.advance 2), .destructor] =
        some _ := rfl
  have hall : run step ({} : ParrallenThreadPool 1) ([.worker 0, .load 0, .store 0, .push 0,
      .queue 0 (.advance 2), .queue 0 (.link 2 10), .queue 0 (.advance 2), .destructor] ++
      [.queue 0 (.advance 0), .queue 0 (.advance 0), .queue 0 (.advance 0), .queue 0 (.advance 0),
      .worker 0, .worker 0, .worker 0]) = some _ := rfl
  obtain ⟨p, hp, hrun⟩ := run_append_eq_some.mp hall
  obtain rfl := Option.some.inj (h.symm.trans hp)
  exact ⟨_, _, h, hrun, rfl, executes_one_more h rfl hrun 0⟩

end

end NBRaft.Concurrency.ParrallenThreadPool
