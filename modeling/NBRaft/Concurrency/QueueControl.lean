import NBRaft.Concurrency.ConcurrentQueue
import NBRaft.Library.Threads

/-!
# The threads of the concurrent queue

Which threads are where, in every run: the owner of a mutex is in a section under it and nobody
else is, and the threads on the condition variable are those that are blocked.
-/

namespace NBRaft.Concurrency.ConcurrentQueue

open Transition Threads

variable {T : Type}

/-- The sections under the head mutex. The one of `try_steal` is a single step. -/
def Pc.holdsHead : Pc T → Bool
  | .popCompare .. | .popLoadStop .. | .popWait _ | .popTest | .popTake => true
  | _ => false

def Pc.holdsTail : Pc T → Bool
  | .pushLink _ | .pushUnlock => true
  | _ => false

def Pc.isBlocked : Pc T → Bool
  | .blocked _ => true
  | _ => false

/-- The calls that take something. -/
def Pc.isConsuming : Pc T → Bool
  | .popLock .. | .popCompare .. | .popLoadStop .. | .popWait _ | .blocked _ | .popTest
  | .popTake | .steal => true
  | _ => false

structure Controlled (q : ConcurrentQueue T) : Prop where
  head : Listed Pc.holdsHead q.threads q.m_head_mutex.toList
  tail : Listed Pc.holdsTail q.threads q.m_tail_mutex.toList
  waiting : Listed Pc.isBlocked q.threads q.m_data_cond

theorem controlled_initial : ({} : ConcurrentQueue T).Controlled where
  head := ⟨List.nodup_nil, fun i => by simp [Pc.holdsHead]⟩
  tail := ⟨List.nodup_nil, fun i => by simp [Pc.holdsTail]⟩
  waiting := ⟨List.nodup_nil, fun i => by simp [Pc.isBlocked]⟩

@[simp] theorem Pc.holdsHead_wake (timedOut : Bool) (pc : Pc T) :
    (pc.wake timedOut).holdsHead = pc.holdsHead := by
  cases pc <;> rfl

@[simp] theorem Pc.holdsTail_wake (timedOut : Bool) (pc : Pc T) :
    (pc.wake timedOut).holdsTail = pc.holdsTail := by
  cases pc <;> rfl

@[simp] theorem Pc.isBlocked_wake (timedOut : Bool) (pc : Pc T) :
    (pc.wake timedOut).isBlocked = false := by
  cases pc <;> rfl

@[simp] theorem Pc.isConsuming_wake (timedOut : Bool) (pc : Pc T) :
    (pc.wake timedOut).isConsuming = pc.isConsuming := by
  cases pc <;> rfl

theorem Pc.isConsuming_of_isBlocked {pc : Pc T} (h : pc.isBlocked = true) :
    pc.isConsuming = true := by
  cases pc <;> first | rfl | cases h

section

variable {q r : ConcurrentQueue T} {pc pc' : Pc T} {tid : Tid} {e : Event T}
  {p : Pc T → Bool} {l : List Tid}

theorem Pc.wake_of_not_blocked {timedOut : Bool} (h : pc.isBlocked = false) :
    pc.wake timedOut = pc := by
  cases pc <;> first | rfl | cases h

/-- Notifying changes only threads that are blocked. -/
theorem wakeOne_threads {timedOut : Bool} {w : Tid} (hpc : q.threads tid = pc)
    (h : pc.isBlocked = false) : (q.wakeOne w timedOut).threads tid = pc := by
  subst hpc
  by_cases hw : tid = w
  · subst hw
    simp only [wakeOne, Function.update_self, Pc.wake_of_not_blocked h]
  · simp only [wakeOne, Function.update_of_ne hw]

theorem wakeAll_threads (hpc : q.threads tid = pc) (h : pc.isBlocked = false) :
    q.wakeAll.threads tid = pc := by
  subst hpc
  simp only [wakeAll, Pc.wake_of_not_blocked h, ite_self]

/-- What being woken does not change, `notify_all` does not either. -/
theorem listed_wakeAll (h : Listed p q.threads l)
    (hwake : ∀ pc, p (Pc.wake false pc) = p pc) : Listed p q.wakeAll.threads l := by
  refine h.congr fun tid => ?_
  simp only [wakeAll]
  split
  · exact hwake _
  · rfl

/-- A turn neither takes nor releases a mutex, and does not block. -/
theorem Turn.same (h : Turn q pc pc') : pc'.holdsHead = pc.holdsHead ∧
    pc'.holdsTail = pc.holdsTail ∧ pc'.isBlocked = pc.isBlocked := by
  cases h <;> exact ⟨rfl, rfl, rfl⟩

/-- A call begins outside the sections. -/
theorem enter_same (c : Call T) (h : pc.isIdle = true) : (enter c).holdsHead = pc.holdsHead ∧
    (enter c).holdsTail = pc.holdsTail ∧ (enter c).isBlocked = pc.isBlocked := by
  cases pc <;> cases c <;> first | exact ⟨rfl, rfl, rfl⟩ | cases h

theorem Move.head (h : Move q e r) (hl : Listed Pc.holdsHead q.threads q.m_head_mutex.toList) :
    Listed Pc.holdsHead r.threads r.m_head_mutex.toList := by
  cases h with
  | call hidle => exact hl.keep (enter_same _ hidle).1
  | turn ht => exact hl.keep ht.same.1
  | lockTail hpc | unlockTail hpc | count hpc | notifyNone hpc | stop hpc =>
    exact hl.keep (by rw [hpc]; rfl)
  | link hpc hp =>
    obtain ⟨nodes, m_tail, rfl⟩ := pushTail_frame hp
    exact hl.keep (by rw [hpc]; rfl)
  | lockHead hpc hfree =>
    rw [hfree] at hl
    exact hl.lock rfl
  | late hpc _ => exact hl.keep (by rw [hpc]; rfl)
  | fail hpc _ => exact hl.unlock (by rw [hpc]; rfl) rfl
  | giveUp hpc =>
    refine hl.unlock ?_ rfl
    rcases hpc with ⟨kind, hpc, -⟩ | ⟨hpc, -⟩ <;> rw [hpc] <;> rfl
  | block hpc => exact hl.unlock (by rw [hpc]; rfl) rfl
  | take hpc hp =>
    obtain ⟨nodes, m_head, rfl⟩ := popHead_frame hp
    exact hl.unlock (by rw [hpc]; rfl) rfl
  | failSteal hpc => exact hl.keep (by rw [hpc]; rfl)
  | steal hpc _ _ _ hp =>
    obtain ⟨nodes, m_tail, rfl⟩ := popTail_frame hp
    exact hl.keep (by rw [hpc]; rfl)
  | notifyAll hpc =>
    refine (listed_wakeAll hl (Pc.holdsHead_wake false)).keep ?_
    rw [wakeAll_threads hpc rfl]
    rfl
  | notifyOne hpc _ =>
    refine (hl.keep (Pc.holdsHead_wake false _)).keep ?_
    change _ = ((q.wakeOne _ false).threads _).holdsHead
    rw [wakeOne_threads hpc rfl]
    rfl
  | wake => exact hl.keep (Pc.holdsHead_wake _ _)

theorem Move.tail (h : Move q e r) (hl : Listed Pc.holdsTail q.threads q.m_tail_mutex.toList) :
    Listed Pc.holdsTail r.threads r.m_tail_mutex.toList := by
  cases h with
  | call hidle => exact hl.keep (enter_same _ hidle).2.1
  | turn ht => exact hl.keep ht.same.2.1
  | lockTail hpc hfree =>
    rw [hfree] at hl
    exact hl.lock rfl
  | unlockTail hpc => exact hl.unlock (by rw [hpc]; rfl) rfl
  | link hpc hp =>
    obtain ⟨nodes, m_tail, rfl⟩ := pushTail_frame hp
    exact hl.keep (by rw [hpc]; rfl)
  | count hpc | notifyNone hpc | stop hpc | block hpc => exact hl.keep (by rw [hpc]; rfl)
  | lockHead hpc _ | late hpc _ | fail hpc _ => exact hl.keep (by rw [hpc]; rfl)
  | giveUp hpc =>
    refine hl.keep ?_
    rcases hpc with ⟨kind, hpc, -⟩ | ⟨hpc, -⟩ <;> rw [hpc] <;> rfl
  | take hpc hp =>
    obtain ⟨nodes, m_head, rfl⟩ := popHead_frame hp
    exact hl.keep (by rw [hpc]; rfl)
  | failSteal hpc => exact hl.keep (by rw [hpc]; rfl)
  | steal hpc _ _ _ hp =>
    obtain ⟨nodes, m_tail, rfl⟩ := popTail_frame hp
    exact hl.keep (by rw [hpc]; rfl)
  | notifyAll hpc =>
    refine (listed_wakeAll hl (Pc.holdsTail_wake false)).keep ?_
    rw [wakeAll_threads hpc rfl]
    rfl
  | notifyOne hpc _ =>
    refine (hl.keep (Pc.holdsTail_wake false _)).keep ?_
    change _ = ((q.wakeOne _ false).threads _).holdsTail
    rw [wakeOne_threads hpc rfl]
    rfl
  | wake => exact hl.keep (Pc.holdsTail_wake _ _)

theorem Move.waiting (h : Move q e r) (hl : Listed Pc.isBlocked q.threads q.m_data_cond) :
    Listed Pc.isBlocked r.threads r.m_data_cond := by
  cases h with
  | call hidle => exact hl.keep (enter_same _ hidle).2.2
  | turn ht => exact hl.keep ht.same.2.2
  | lockTail hpc | unlockTail hpc | count hpc | notifyNone hpc | stop hpc =>
    exact hl.keep (by rw [hpc]; rfl)
  | link hpc hp =>
    obtain ⟨nodes, m_tail, rfl⟩ := pushTail_frame hp
    exact hl.keep (by rw [hpc]; rfl)
  | lockHead hpc _ | late hpc _ | fail hpc _ => exact hl.keep (by rw [hpc]; rfl)
  | giveUp hpc =>
    refine hl.keep ?_
    rcases hpc with ⟨kind, hpc, -⟩ | ⟨hpc, -⟩ <;> rw [hpc] <;> rfl
  | block hpc => exact hl.enter (by rw [hpc]; rfl) rfl
  | take hpc hp =>
    obtain ⟨nodes, m_head, rfl⟩ := popHead_frame hp
    exact hl.keep (by rw [hpc]; rfl)
  | failSteal hpc => exact hl.keep (by rw [hpc]; rfl)
  | steal hpc _ _ _ hp =>
    obtain ⟨nodes, m_tail, rfl⟩ := popTail_frame hp
    exact hl.keep (by rw [hpc]; rfl)
  | notifyAll hpc =>
    have hall : Listed Pc.isBlocked q.wakeAll.threads [] := by
      refine ⟨List.nodup_nil, fun tid => iff_of_false List.not_mem_nil ?_⟩
      simp only [wakeAll]
      split
      · simp
      · rename_i hout
        rwa [hl.mem_iff] at hout
    refine hall.keep ?_
    rw [wakeAll_threads hpc rfl]
    rfl
  | notifyOne hpc _ =>
    refine (hl.leave (Pc.isBlocked_wake false _)).keep ?_
    change _ = ((q.wakeOne _ false).threads _).isBlocked
    rw [wakeOne_threads hpc rfl]
    rfl
  | wake => exact hl.leave (Pc.isBlocked_wake _ _)

theorem Move.controlled (h : Move q e r) (hq : q.Controlled) : r.Controlled :=
  ⟨h.head hq.head, h.tail hq.tail, h.waiting hq.waiting⟩

end

end NBRaft.Concurrency.ConcurrentQueue
