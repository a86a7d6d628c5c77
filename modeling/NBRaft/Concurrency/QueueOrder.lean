import NBRaft.Concurrency.QueueEffect
import NBRaft.Concurrency.QueueRefinement

/-!
# The concurrent queue in order

Where nobody steals, the values leave the queue in the order in which they were linked.
-/

namespace NBRaft.Concurrency.ConcurrentQueue

variable {T : Type}

/-- Nobody is stealing, and nobody has. -/
structure InOrder (q : ConcurrentQueue T) : Prop where
  threads : ∀ tid, q.threads tid ≠ .steal
  history : ∀ v, Deque.Op.popBack v ∉ q.history.map Prod.snd

theorem inOrder_initial : ({} : ConcurrentQueue T).InOrder where
  threads := nofun
  history := nofun

section

variable {q r : ConcurrentQueue T} {pc : Pc T} {tid : Tid} {e : Event T}
  {cells : List (Addr × T)}

theorem Pc.wake_ne_steal {timedOut : Bool} (h : pc ≠ .steal) : pc.wake timedOut ≠ .steal := by
  cases pc <;> simp_all [Pc.wake]

/-- A thread goes on, and has done nothing to the deque. -/
theorem InOrder.go (hq : q.InOrder) (hthreads : r.threads = Function.update q.threads tid pc)
    (hhistory : r.history = q.history) (hpc : pc ≠ .steal) : r.InOrder := by
  constructor
  · rw [hthreads, Function.forall_update_iff q.threads fun _ pc => pc ≠ .steal]
    exact ⟨hpc, fun t _ => hq.threads t⟩
  · rw [hhistory]
    exact hq.history

/-- A thread goes on, and has done something else than a steal. -/
theorem InOrder.did (hq : q.InOrder) (op : Deque.Op T)
    (hthreads : r.threads = Function.update q.threads tid pc)
    (hhistory : r.history = q.history ++ [(tid, op)]) (hpc : pc ≠ .steal)
    (hop : ∀ v, op ≠ .popBack v) : r.InOrder := by
  constructor
  · rw [hthreads, Function.forall_update_iff q.threads fun _ pc => pc ≠ .steal]
    exact ⟨hpc, fun t _ => hq.threads t⟩
  · intro v
    rw [hhistory, List.map_append, List.mem_append, not_or]
    refine ⟨hq.history v, ?_⟩
    simpa using (hop v).symm

theorem InOrder.wakeOne (hq : q.InOrder) (w : Tid) (timedOut : Bool) :
    (q.wakeOne w timedOut).InOrder :=
  hq.go rfl rfl (Pc.wake_ne_steal (hq.threads w))

theorem InOrder.wakeAll (hq : q.InOrder) : q.wakeAll.InOrder := by
  refine ⟨fun tid => ?_, hq.history⟩
  simp only [ConcurrentQueue.wakeAll]
  split
  · exact Pc.wake_ne_steal (hq.threads tid)
  · exact hq.threads tid

/-- Nobody begins to steal by any other step than the call. -/
theorem Move.inOrder (h : Move q e r) (he : ∀ tid, e ≠ .call tid .trySteal) (hq : q.InOrder) :
    r.InOrder := by
  cases h with
  | @call tid c _ =>
    refine hq.go rfl rfl ?_
    cases c with
    | trySteal => exact absurd rfl (he tid)
    | _ => simp [enter]
  | @turn tid pc ht =>
    refine hq.go rfl rfl ?_
    generalize q.threads tid = pc' at ht
    cases ht <;> simp
  | @link tid v _ _ _ hp =>
    obtain ⟨nodes, m_tail, rfl⟩ := pushTail_frame hp
    exact hq.did (.pushBack v) rfl rfl (by simp) (by simp)
  | @take tid v _ _ hp =>
    obtain ⟨nodes, m_head, rfl⟩ := popHead_frame hp
    exact hq.did (.popFront v) rfl rfl (by simp) (by simp)
  | lockTail | unlockTail | count | notifyNone | lockHead | giveUp | block | stop =>
    exact hq.go rfl rfl (by simp)
  | fail | late | failSteal => exact hq.did .nothing rfl rfl (by simp) (by simp)
  | steal hpc => exact absurd hpc (hq.threads _)
  | notifyOne => exact (hq.wakeOne _ _).go rfl rfl (by simp)
  | notifyAll => exact hq.wakeAll.go rfl rfl (by simp)
  | wake => exact hq.wakeOne _ _

/-- What was pushed is what has been taken, followed by what is in the queue. -/
theorem Refines.pushed_eq (h : q.Refines cells) (hq : q.InOrder) :
    q.pushed = q.taken ++ cells.map Prod.snd := by
  have hfifo := h.done.fifo hq.history
  rwa [h.taken_history, List.nil_append] at hfifo

end

end NBRaft.Concurrency.ConcurrentQueue
