import NBRaft.Library.Progress
import NBRaft.Concurrency.QueueEffect
import NBRaft.Concurrency.QueueOrder

/-!
# What the concurrent queue comes to

Runs in which `Exit` may be called at any time, and any number of times. Nothing is lost or taken
twice in them either, and the mutexes do not deadlock: when no more calls are made and nobody is
woken spuriously, the steps of those in progress come to an end, and then every call has returned
but those that wait on the condition variable.
-/

namespace NBRaft.Concurrency.ConcurrentQueue

open Transition Threads DoublyLinked

variable {T : Type}

/-- A thread that is about to take has seen that there is something to take; one that is about to
test `m_bstop` may have seen that it is set, instead. -/
structure Aware (threads : Tid → Pc T) (cells : List (Addr × T)) (stopped : Bool) : Prop where
  taking : ∀ tid, threads tid = .popTake → cells ≠ []
  testing : ∀ tid, threads tid = .popTest → cells ≠ [] ∨ stopped = true

/-- What holds whether or not `Exit` has been called: the nodes hold the content of the deque that
the operations have made, what they took has been returned, and finitely many nodes are
allocated. -/
structure Sound (q : ConcurrentQueue T) (cells : List (Addr × T)) : Prop where
  controlled : q.Controlled
  holds : q.Holds cells
  done : Deque.Run [] (q.history.map Prod.snd) (cells.map Prod.snd)
  taken : Deque.taken (q.history.map Prod.snd) = q.taken
  aware : Aware q.threads cells q.m_bstop
  finite : ∃ bound, ∀ addr, bound ≤ addr → q.nodes addr = none

theorem sound_initial : ({} : ConcurrentQueue T).Sound [] where
  controlled := controlled_initial
  holds := holds_initial
  done := .nil []
  taken := rfl
  aware := ⟨nofun, nofun⟩
  finite := ⟨1, fun _ h => if_neg (Nat.ne_of_gt h)⟩

section

variable {q r : ConcurrentQueue T} {cells cells' : List (Addr × T)} {pc : Pc T} {tid : Tid}
  {e : Event T} {threads : Tid → Pc T} {stopped : Bool}

theorem Pc.wake_eq_popTake {timedOut : Bool} (h : pc.wake timedOut = .popTake) :
    pc = .popTake := by
  cases pc <;> first | rfl | cases h

theorem Pc.wake_eq_popTest {timedOut : Bool} (h : pc.wake timedOut = .popTest) :
    pc = .popTest := by
  cases pc <;> first | rfl | cases h

/-- A thread goes on, and is about to take or to test only where it may be. -/
theorem Aware.update (h : Aware threads cells stopped) (htaking : pc = .popTake → cells ≠ [])
    (htesting : pc = .popTest → cells ≠ [] ∨ stopped = true) :
    Aware (Function.update threads tid pc) cells stopped := by
  constructor
  · rw [Function.forall_update_iff threads fun _ pc => pc = .popTake → cells ≠ []]
    exact ⟨htaking, fun t _ => h.taking t⟩
  · rw [Function.forall_update_iff threads fun _ pc =>
      pc = .popTest → cells ≠ [] ∨ stopped = true]
    exact ⟨htesting, fun t _ => h.testing t⟩

theorem Aware.wakeOne (h : Aware q.threads cells stopped) (w : Tid) (timedOut : Bool) :
    Aware (q.wakeOne w timedOut).threads cells stopped :=
  h.update (fun hpc => h.taking w (Pc.wake_eq_popTake hpc))
    (fun hpc => h.testing w (Pc.wake_eq_popTest hpc))

theorem Aware.wakeAll (h : Aware q.threads cells stopped) :
    Aware q.wakeAll.threads cells stopped := by
  constructor
  · intro t ht
    refine h.taking t ?_
    simp only [ConcurrentQueue.wakeAll] at ht
    split at ht
    · exact Pc.wake_eq_popTake ht
    · exact ht
  · intro t ht
    refine h.testing t ?_
    simp only [ConcurrentQueue.wakeAll] at ht
    split at ht
    · exact Pc.wake_eq_popTest ht
    · exact ht

/-- Where no thread is under the head mutex, nobody is about to take. -/
theorem aware_of_holdsHead (h : ∀ t, (threads t).holdsHead = false) :
    Aware threads cells stopped := by
  constructor <;> intro t ht <;> simpa [ht, Pc.holdsHead] using h t

theorem Aware.of_ne_nil (h : cells ≠ []) : Aware threads cells stopped :=
  ⟨fun _ _ => h, fun _ _ => .inl h⟩

/-- Nobody is about to take when a thread has found the head mutex free, or leaves it. -/
theorem aware_of_owner (hq : q.Controlled) (hfree : ∀ t, q.m_head_mutex = some t → t = tid)
    (hpc : pc.holdsHead = false) : Aware (Function.update q.threads tid pc) cells stopped := by
  apply aware_of_holdsHead
  rw [Function.forall_update_iff q.threads fun _ pc => pc.holdsHead = false]
  refine ⟨hpc, fun t ht => ?_⟩
  rw [Bool.eq_false_iff]
  exact fun h => ht (hfree t (hq.head.owner_iff.mp h))

theorem taken_concat {history : List (Tid × Deque.Op T)} {answers : List (Tid × Option T)}
    {op : Deque.Op T} {v : Option T}
    (h : Deque.taken (history.map Prod.snd) = answers.filterMap Prod.snd)
    (hop : Deque.taken [op] = v.toList) :
    Deque.taken ((history ++ [(tid, op)]).map Prod.snd) =
      (answers ++ [(tid, v)]).filterMap Prod.snd := by
  rw [List.map_append, List.filterMap_append, Deque.taken_append, h]
  cases v <;> simpa using hop

theorem finite_of_allocated {nodes : Addr → Option (Node Addr (Payload T))}
    (hq : ∃ bound, ∀ addr, bound ≤ addr → q.nodes addr = none)
    (h : ∃ a, ∀ addr, q.nodes addr = none → addr ≠ a → nodes addr = none) :
    ∃ bound, ∀ addr, bound ≤ addr → nodes addr = none := by
  obtain ⟨bound, hbound⟩ := hq
  obtain ⟨a, ha⟩ := h
  refine ⟨Nat.max bound (a + 1), fun addr haddr => ha addr (hbound addr ?_) (Nat.ne_of_gt ?_)⟩
  · exact Nat.le_trans (Nat.le_max_left ..) haddr
  · exact Nat.le_trans (Nat.le_max_right ..) haddr

theorem Turn.aware (h : Turn q (q.threads tid) pc) (hq : q.Sound cells) :
    Aware (q.goto tid pc).threads cells q.m_bstop := by
  have hne : q.m_head ≠ q.m_tail → cells ≠ [] := fun hne => hq.holds.empty_iff.not.mp hne
  generalize hpc : q.threads tid = pc' at h
  cases h with
  | empty | wait => exact hq.aware.update nofun nofun
  | found _ h => exact hq.aware.update (fun _ => hne h) nofun
  | foundWaiting _ _ _ h => exact hq.aware.update nofun fun _ => .inl (hne h)
  | stopped _ _ hstop => exact hq.aware.update nofun fun _ => .inr hstop
  | take hgo =>
    refine hq.aware.update (fun _ => ?_) nofun
    exact (hq.aware.testing tid hpc).resolve_right (by simp [hgo])

theorem finite_pushTail {v : T} {addr : Addr} (hr : q.pushTail v addr = some r)
    (hq : ∃ bound, ∀ addr, bound ≤ addr → q.nodes addr = none) :
    ∃ bound, ∀ addr, bound ≤ addr → r.nodes addr = none := by
  refine finite_of_allocated hq ⟨addr, fun a hnone hne => ?_⟩
  unfold pushTail at hr
  split at hr
  · rename_i tail htail _
    cases hr
    have htail : a ≠ q.m_tail := by
      rintro rfl
      cases hnone.symm.trans htail
    simp only [Function.update_of_ne hne, Function.update_of_ne htail, hnone]
  · cases hr

theorem finite_popHead {v : T} (hr : q.popHead = some (v, r))
    (hq : ∃ bound, ∀ addr, bound ≤ addr → q.nodes addr = none) :
    ∃ bound, ∀ addr, bound ≤ addr → r.nodes addr = none := by
  refine finite_of_allocated hq ⟨q.m_head, fun a hnone hne => ?_⟩
  unfold popHead at hr
  split at hr
  · cases hr
    simp only [Function.update_of_ne hne, hnone]
  · cases hr

theorem finite_popTail {v : T} (hr : q.popTail = some (v, r))
    (hq : ∃ bound, ∀ addr, bound ≤ addr → q.nodes addr = none) :
    ∃ bound, ∀ addr, bound ≤ addr → r.nodes addr = none := by
  unfold popTail at hr
  split at hr
  · cases hr
  · rename_i prev_node _
    refine finite_of_allocated hq ⟨prev_node, fun a hnone hne => ?_⟩
    split at hr
    · cases hr
      refine (Function.update_of_ne hne ..).trans ?_
      by_cases htail : a = q.m_tail
      · subst htail
        exact Function.update_self ..
      · exact (Function.update_of_ne htail ..).trans hnone
    · cases hr

/-- Every step keeps what holds. -/
theorem Move.sound (h : Move q e r) (hq : q.Sound cells) : ∃ cells', r.Sound cells' := by
  have hr := h.controlled hq.controlled
  cases h with
  | @call tid c hidle =>
    refine ⟨cells, hr, hq.holds.of_eq rfl rfl rfl, hq.done, hq.taken, ?_, hq.finite⟩
    exact hq.aware.update (by cases c <;> nofun) (by cases c <;> nofun)
  | turn ht =>
    exact ⟨cells, hr, hq.holds.of_eq rfl rfl rfl, hq.done, hq.taken, ht.aware hq, hq.finite⟩
  | lockTail | unlockTail | count | notifyNone | lockHead | block =>
    exact ⟨cells, hr, hq.holds.of_eq rfl rfl rfl, hq.done, hq.taken, hq.aware.update nofun nofun,
      hq.finite⟩
  | stop =>
    have haware : Aware q.threads cells true := ⟨hq.aware.taking, fun _ _ => .inr rfl⟩
    exact ⟨cells, hr, hq.holds.of_eq rfl rfl rfl, hq.done, hq.taken, haware.update nofun nofun,
      hq.finite⟩
  | @link tid v addr p hpc hp =>
    have hholds := holds_pushTail hq.holds hp
    have hfinite := finite_pushTail hp hq.finite
    obtain ⟨nodes, m_tail, rfl⟩ := pushTail_frame hp
    refine ⟨_, hr, hholds.of_eq rfl rfl rfl, ?_, ?_, .of_ne_nil (by simp), hfinite⟩
    · apply done_record hq.done
      rw [List.map_append]
      exact .pushBack _ v
    · refine (congrArg Deque.taken List.map_append).trans ?_
      rw [Deque.taken_append]
      exact (List.append_nil _).trans hq.taken
  | fail hpc heq =>
    obtain rfl := hq.holds.empty_iff.mp heq
    exact ⟨[], hr, hq.holds.of_eq rfl rfl rfl, done_record hq.done .nothing,
      taken_concat hq.taken rfl, hq.aware.update nofun nofun, hq.finite⟩
  | failSteal hpc _ heq =>
    obtain rfl := hq.holds.empty_iff.mp heq
    exact ⟨[], hr, hq.holds.of_eq rfl rfl rfl, done_record hq.done .nothing,
      taken_concat hq.taken rfl, hq.aware.update nofun nofun, hq.finite⟩
  | late hpc heq =>
    obtain rfl := hq.holds.empty_iff.mp heq
    refine ⟨[], hr, hq.holds.of_eq rfl rfl rfl, done_record hq.done .nothing, ?_,
      hq.aware.update nofun nofun, hq.finite⟩
    refine (congrArg Deque.taken List.map_append).trans ?_
    rw [Deque.taken_append]
    exact (List.append_nil _).trans hq.taken
  | giveUp hpc =>
    refine ⟨cells, hr, hq.holds.of_eq rfl rfl rfl, hq.done, ?_, hq.aware.update nofun nofun,
      hq.finite⟩
    exact hq.taken.trans ((taken_answer none).trans (List.append_nil _)).symm
  | @take tid v p hpc hp =>
    obtain ⟨c, cells, rfl⟩ := List.exists_cons_of_ne_nil (hq.aware.taking tid hpc)
    obtain ⟨p', hp', hholds⟩ := holds_popHead hq.holds
    obtain ⟨rfl, rfl⟩ := Prod.mk.inj (Option.some.inj (hp.symm.trans hp'))
    have hfinite := finite_popHead hp hq.finite
    have howner : q.m_head_mutex = some tid :=
      hq.controlled.head.owner_iff.mp (by rw [hpc]; rfl)
    obtain ⟨nodes, m_head, rfl⟩ := popHead_frame hp
    exact ⟨cells, hr, hholds.of_eq rfl rfl rfl, done_record hq.done (.popFront _ _),
      taken_concat hq.taken rfl, aware_of_owner (q := q) hq.controlled
        (fun t ht => Option.some.inj (ht.symm.trans howner)) rfl, hfinite⟩
  | @steal tid v p hpc hfree _ hne hp =>
    have hne := hq.holds.empty_iff.not.mp hne
    obtain ⟨cells, c, rfl⟩ := (List.eq_nil_or_concat' cells).resolve_left hne
    obtain ⟨p', hp', hholds⟩ := holds_popTail hq.holds
    obtain ⟨rfl, rfl⟩ := Prod.mk.inj (Option.some.inj (hp.symm.trans hp'))
    have hfinite := finite_popTail hp hq.finite
    obtain ⟨nodes, m_tail, rfl⟩ := popTail_frame hp
    refine ⟨cells, hr, hholds.of_eq rfl rfl rfl, done_record hq.done ?_,
      taken_concat hq.taken rfl, aware_of_owner (q := q) hq.controlled (by simp [hfree]) rfl,
      hfinite⟩
    rw [List.map_append]
    exact .popBack _ _
  | notifyAll =>
    exact ⟨cells, hr, hq.holds.of_eq rfl rfl rfl, hq.done, hq.taken,
      hq.aware.wakeAll.update nofun nofun, hq.finite⟩
  | notifyOne =>
    exact ⟨cells, hr, hq.holds.of_eq rfl rfl rfl, hq.done, hq.taken,
      (hq.aware.wakeOne _ false).update nofun nofun, hq.finite⟩
  | wake =>
    exact ⟨cells, hr, hq.holds.of_eq rfl rfl rfl, hq.done, hq.taken, hq.aware.wakeOne _ _,
      hq.finite⟩

theorem sound_run {es : List (Event T)} (h : run step {} es = some q) :
    ∃ cells, q.Sound cells :=
  run_preserves (I := fun q : ConcurrentQueue T => ∃ cells, q.Sound cells)
    (fun _ _ _ hst ⟨_, hs⟩ => (move_of_step hst).sound hs) h ⟨[], sound_initial⟩

/-- A thread is never about to follow a pointer that is null, or to take a value that has been moved
from. -/
theorem Sound.isSome_advance (hq : q.Sound cells) (hpc : q.threads tid = .popTake) :
    (q.advance tid .popTake).isSome = true := by
  obtain ⟨c, cells, rfl⟩ := List.exists_cons_of_ne_nil (hq.aware.taking tid hpc)
  obtain ⟨p, hp, -⟩ := holds_popHead hq.holds
  simp [advance, hp]

theorem Sound.isSome_steal (hq : q.Sound cells) (hhead : q.m_head_mutex = none)
    (htail : q.m_tail_mutex = none) : (q.advance tid .steal).isSome = true := by
  simp only [advance, hhead, htail, and_self, if_true]
  split
  · rfl
  · rename_i hne
    have hne := hq.holds.empty_iff.not.mp hne
    obtain ⟨cells, c, rfl⟩ := (List.eq_nil_or_concat' cells).resolve_left hne
    obtain ⟨p, hp, -⟩ := holds_popTail hq.holds
    simp [hp]

theorem Sound.isSome_link (hq : q.Sound cells) (v : T) :
    ∃ addr, (q.pushTail v addr).isSome = true := by
  obtain ⟨bound, hbound⟩ := hq.finite
  obtain ⟨tail, htail⟩ := Option.isSome_iff_exists.mp hq.holds.tail
  exact ⟨bound, by simp [pushTail, htail, hbound bound (Nat.le_refl bound)]⟩

theorem inOrder_run {es : List (Event T)} (h : run step {} es = some q)
    (hes : ∀ tid, .call tid .trySteal ∉ es) : q.InOrder := by
  refine run_preserves_of_forall (I := InOrder)
    (C := fun e => ∀ tid, e ≠ .call tid .trySteal) (fun _ _ _ hst => (move_of_step hst).inOrder)
    h ?_ inOrder_initial
  rintro e he tid rfl
  exact hes tid he

/-- Whatever the threads do, `Exit` included, the values that were pushed are those that have been
returned and those in the queue, and where nobody steals they are so in order. Each value that a
call of `push` has linked is among those pushed, and each answer of a pop or a steal among those
returned, once and in the order of the thread's calls. A thread that takes or steals finds a value
where it looks for one. -/
theorem pushed_perm_taken {es : List (Event T)} (h : run step {} es = some q) :
    ∃ cells, q.Holds cells ∧ q.pushed.Perm (q.taken ++ cells.map Prod.snd) ∧
      ((∀ tid, .call tid .trySteal ∉ es) → q.pushed = q.taken ++ cells.map Prod.snd) ∧
      (∀ tid, Accounts (q.threads tid) (callsOf tid es) (entriesOf tid q.history)
        (entriesOf tid q.answers)) ∧
      (∀ tid, q.threads tid = .popTake → (q.advance tid .popTake).isSome = true) ∧
      ∀ tid, q.m_head_mutex = none → q.m_tail_mutex = none →
        (q.advance tid .steal).isSome = true := by
  obtain ⟨cells, hs⟩ := sound_run h
  refine ⟨cells, hs.holds, ?_, fun hes => ?_, accounts_of_run h, fun _ => hs.isSome_advance,
    fun _ => hs.isSome_steal⟩
  · have hperm := hs.done.perm
    rwa [List.nil_append, hs.taken] at hperm
  · have hfifo := hs.done.fifo (inOrder_run h hes).history
    rwa [List.nil_append, hs.taken] at hfifo

/-- After `Exit`, a waiting pop returns nothing from a queue that is not empty; another thread takes
the value. -/
theorem pushed_perm_taken_exit : ∃ q : ConcurrentQueue Nat,
    run step {} [.call 1 (.push 7), .advance 1, .link 1 10, .advance 1, .advance 1,
      .notify 1 none, .call 2 .exit, .advance 2, .advance 2, .call 3 (.pop .waitAndPop),
      .advance 3, .advance 3, .advance 3, .call 4 (.pop .tryPop), .advance 4, .advance 4] =
        some q ∧
    q.answers = [(3, none)] ∧ (q.advance 4 .popTake).isSome = true ∧
    Accounts (q.threads 1) [.push 7] [.pushBack 7] [] ∧
    ∃ cells : List (Addr × Nat), q.pushed.Perm (q.taken ++ cells.map Prod.snd) := by
  have h : run step ({} : ConcurrentQueue Nat) [.call 1 (.push 7), .advance 1, .link 1 10,
      .advance 1, .advance 1, .notify 1 none, .call 2 .exit, .advance 2, .advance 2,
      .call 3 (.pop .waitAndPop), .advance 3, .advance 3, .advance 3, .call 4 (.pop .tryPop),
      .advance 4, .advance 4] = some _ := rfl
  obtain ⟨cells, -, hperm, -, haccounts, htake, -⟩ := pushed_perm_taken h
  exact ⟨_, h, rfl, htake 4 rfl, haccounts 1, cells, hperm⟩

/-! ## The calls come to an end -/

/-- A step of a call in progress. A new call, or a wait that ends without being notified, is
none. -/
def Event.Inner : Event T → Prop
  | .advance _ | .link .. | .notify .. => True
  | .call .. | .wake .. => False

/-- The steps that a call may still take, with `n` threads in all. To notify a thread counts for
what that has to do then. -/
def Pc.rank (n : Nat) : Pc T → Nat
  | .idle | .returned _ | .blocked _ => 0
  | .popWait _ | .popTake | .steal => 1
  | .popTest => 2
  | .popLoadStop .. => 3
  | .popCompare .. => 4
  | .popLock .. => 5
  | .pushNotify => 6
  | .pushCount => 7
  | .pushUnlock => 8
  | .pushLink _ => 9
  | .pushLock _ => 10
  | .exitNotify => 5 * n + 1
  | .exitStore => 5 * n + 2

/-- A call of the thread is in progress. -/
def Pc.isBusy (pc : Pc T) : Bool := !pc.isIdle

theorem Pc.rank_wake (pc : Pc T) (n : Nat) (timedOut : Bool) :
    (pc.wake timedOut).rank n ≤ pc.rank n + 5 := by
  cases pc <;> simp [wake, rank]

@[simp] theorem Pc.isBusy_wake (timedOut : Bool) : (pc.wake timedOut).isBusy = pc.isBusy := by
  cases pc <;> rfl

section

variable {l : List Tid} {n k : Nat}

theorem work_wakeOne (hl : l.Nodup) (w : Tid) (timedOut : Bool) :
    work (Pc.rank n) (q.wakeOne w timedOut).threads l ≤ work (Pc.rank n) q.threads l + 5 := by
  by_cases hw : w ∈ l
  · have hwork := work_update (Pc.rank n) q.threads ((q.threads w).wake timedOut) hl hw
    have hrank := (q.threads w).rank_wake n timedOut
    simp only [wakeOne]
    omega
  · refine Nat.le_trans (Nat.le_of_eq (work_congr fun t ht => ?_)) (Nat.le_add_right ..)
    have hne : t ≠ w := by
      rintro rfl
      exact hw ht
    simp only [wakeOne, Function.update_of_ne hne]

theorem work_wakeAll :
    work (Pc.rank n) q.wakeAll.threads l ≤ work (Pc.rank n) q.threads l + 5 * l.length := by
  refine work_le fun t _ => ?_
  simp only [wakeAll]
  split
  · exact Pc.rank_wake _ n false
  · exact Nat.le_add_right ..

/-- Every step of a call in progress leaves less to do. -/
theorem Move.lowers (h : Move q e r) (he : e.Inner) (hl : Covered Pc.isBusy q.threads l) :
    work (Pc.rank l.length) r.threads l < work (Pc.rank l.length) q.threads l := by
  have hsame : work (Pc.rank l.length) q.threads l ≤ work (Pc.rank l.length) q.threads l + 0 :=
    Nat.le_refl _
  cases h with
  | call => cases he
  | wake => cases he
  | @turn tid pc ht =>
    generalize hpc : q.threads tid = pc' at ht
    refine hl.work_lt (i := tid) ?_ rfl hsame ?_
    · rw [hpc]
      cases ht <;> rfl
    · rw [hpc]
      cases ht <;> simp [Pc.rank]
  | lockTail hpc | unlockTail hpc | count hpc | notifyNone hpc | lockHead hpc | fail hpc | late hpc
  | block hpc | failSteal hpc =>
    exact hl.work_lt (by rw [hpc]; rfl) rfl hsame (by simp [hpc, Pc.rank])
  | stop hpc => exact hl.work_lt (by rw [hpc]; rfl) rfl hsame (by simp [hpc, Pc.rank])
  | link hpc hp =>
    obtain ⟨nodes, m_tail, rfl⟩ := pushTail_frame hp
    exact hl.work_lt (by rw [hpc]; rfl) rfl hsame (by simp [hpc, Pc.rank])
  | take hpc hp =>
    obtain ⟨nodes, m_head, rfl⟩ := popHead_frame hp
    exact hl.work_lt (by rw [hpc]; rfl) rfl hsame (by simp [hpc, Pc.rank])
  | steal hpc _ _ _ hp =>
    obtain ⟨nodes, m_tail, rfl⟩ := popTail_frame hp
    exact hl.work_lt (by rw [hpc]; rfl) rfl hsame (by simp [hpc, Pc.rank])
  | giveUp hpc =>
    rcases hpc with ⟨kind, hpc, -⟩ | ⟨hpc, -⟩
    · exact hl.work_lt (by rw [hpc]; rfl) rfl hsame (by simp [hpc, Pc.rank])
    · exact hl.work_lt (by rw [hpc]; rfl) rfl hsame (by simp [hpc, Pc.rank])
  | notifyOne hpc _ =>
    refine hl.work_lt (by rw [hpc]; rfl) ?_ (work_wakeOne hl.nodup _ false) ?_
    · exact (wakeOne_threads hpc rfl).trans hpc.symm
    · simp [hpc, Pc.rank]
  | notifyAll hpc =>
    refine hl.work_lt (by rw [hpc]; rfl) ?_ work_wakeAll ?_
    · exact (wakeAll_threads hpc rfl).trans hpc.symm
    · simp [hpc, Pc.rank]

/-- Only a new call makes a thread busy. -/
theorem Move.covered (h : Move q e r) (he : ∀ tid c, e ≠ .call tid c)
    (hl : Covered Pc.isBusy q.threads l) : Covered Pc.isBusy r.threads l := by
  have hwake : ∀ w timedOut, Covered Pc.isBusy (q.wakeOne w timedOut).threads l :=
    fun w timedOut => hl.mono fun t ht => (map_update (Pc.isBusy_wake timedOut) t).symm.trans ht
  cases h with
  | call => exact absurd rfl (he _ _)
  | @turn t pc ht =>
    refine hl.update ?_
    generalize q.threads t = pc' at ht
    cases ht <;> rfl
  | lockTail hpc | unlockTail hpc | count hpc | notifyNone hpc | lockHead hpc | fail hpc | late hpc
  | block hpc | failSteal hpc | stop hpc => exact hl.update (by rw [hpc]; rfl)
  | link hpc hp =>
    obtain ⟨nodes, m_tail, rfl⟩ := pushTail_frame hp
    exact hl.update (by rw [hpc]; rfl)
  | take hpc hp =>
    obtain ⟨nodes, m_head, rfl⟩ := popHead_frame hp
    exact hl.update (by rw [hpc]; rfl)
  | steal hpc _ _ _ hp =>
    obtain ⟨nodes, m_tail, rfl⟩ := popTail_frame hp
    exact hl.update (by rw [hpc]; rfl)
  | giveUp hpc =>
    rcases hpc with ⟨kind, hpc, -⟩ | ⟨hpc, -⟩
    · exact hl.update (by rw [hpc]; rfl)
    · exact hl.update (by rw [hpc]; rfl)
  | notifyOne hpc _ =>
    refine (hwake _ false).update ?_
    rw [wakeOne_threads hpc rfl]
    rfl
  | notifyAll hpc =>
    have hall : Covered Pc.isBusy q.wakeAll.threads l := by
      refine hl.mono fun t ht => ?_
      simp only [ConcurrentQueue.wakeAll] at ht
      split at ht
      · exact (Pc.isBusy_wake false).symm.trans ht
      · exact ht
    refine hall.update ?_
    rw [wakeAll_threads hpc rfl]
    rfl
  | wake => exact hwake _ _

theorem Event.Inner.ne_call (he : e.Inner) (tid : Tid) (c : Call T) : e ≠ .call tid c := by
  rintro rfl
  exact he

/-- Finitely many threads have called. -/
theorem exists_covered {es : List (Event T)} (h : run step {} es = some q) :
    ∃ l, Covered Pc.isBusy q.threads l := by
  refine run_preserves (I := fun q : ConcurrentQueue T => ∃ l, Covered Pc.isBusy q.threads l) ?_ h
    ⟨[], List.nodup_nil, nofun⟩
  rintro q e r hst ⟨l, hl⟩
  by_cases he : ∃ tid c, e = .call tid c
  · obtain ⟨tid, c, rfl⟩ := he
    obtain ⟨-, rfl⟩ := call_eq hst
    exact hl.exists_update tid (enter c)
  · push Not at he
    exact ⟨l, (move_of_step hst).covered he hl⟩

/-- As long as nobody calls, what the calls in progress have to do becomes less. -/
theorem descends (l : List Tid) : Descends step Event.Inner
    (fun q : ConcurrentQueue T => (∃ cells, q.Sound cells) ∧ Covered Pc.isBusy q.threads l)
    (fun q => work (Pc.rank l.length) q.threads l) where
  keeps := by
    rintro q e r hst he ⟨⟨cells, hs⟩, hl⟩
    have hmove := move_of_step hst
    exact ⟨hmove.sound hs, hmove.covered he.ne_call hl⟩
  lowers := by
    rintro q e r hst he ⟨-, hl⟩
    exact (move_of_step hst).lowers he hl

end

/-! ## Where they come to an end -/

/-- The owner of the tail mutex is never held up. -/
theorem Sound.goes_of_holdsTail (hq : q.Sound cells) (h : (q.threads tid).holdsTail = true) :
    ∃ e, e.Inner ∧ (q.step e).isSome = true := by
  generalize hpc : q.threads tid = pc at h
  cases pc with
  | pushLink v =>
    obtain ⟨addr, haddr⟩ := hq.isSome_link v
    obtain ⟨p, hp⟩ := Option.isSome_iff_exists.mp haddr
    exact ⟨.link tid addr, trivial, by simp [step, hpc, hp]⟩
  | pushUnlock => exact ⟨.advance tid, trivial, by simp [step, hpc, advance]⟩
  | _ => cases h

/-- The owner of the head mutex waits at most for the tail mutex. -/
theorem Sound.goes_of_holdsHead (hq : q.Sound cells) (htail : q.m_tail_mutex = none)
    (h : (q.threads tid).holdsHead = true) : ∃ e, e.Inner ∧ (q.step e).isSome = true := by
  refine ⟨.advance tid, trivial, ?_⟩
  generalize hpc : q.threads tid = pc at h
  cases pc with
  | popCompare kind timedOut =>
    simp only [step, hpc, advance, htail, if_true]
    split_ifs <;> rfl
  | popLoadStop kind timedOut =>
    simp only [step, hpc, advance]
    split_ifs <;> rfl
  | popWait kind => simp [step, hpc, advance]
  | popTest =>
    simp only [step, hpc, advance]
    split_ifs <;> rfl
  | popTake =>
    rw [step, hpc]
    exact hq.isSome_advance hpc
  | _ => cases h

/-- Where both mutexes are free, a thread with a call in progress goes on, unless it is blocked. -/
theorem Sound.goes_of_free (hq : q.Sound cells) (hhead : q.m_head_mutex = none)
    (htail : q.m_tail_mutex = none) (hidle : (q.threads tid).isIdle = false)
    (hblocked : (q.threads tid).isBlocked = false) (hout : (q.threads tid).holdsHead = false)
    (hout' : (q.threads tid).holdsTail = false) : ∃ e, e.Inner ∧ (q.step e).isSome = true := by
  generalize hpc : q.threads tid = pc at *
  cases pc with
  | pushLock | pushCount | popLock | exitStore | exitNotify =>
    exact ⟨.advance tid, trivial, by simp [step, hpc, advance, hhead, htail]⟩
  | steal =>
    refine ⟨.advance tid, trivial, ?_⟩
    rw [step, hpc]
    exact hq.isSome_steal hhead htail
  | pushNotify =>
    cases hcond : q.m_data_cond with
    | nil => exact ⟨.notify tid none, trivial, by simp [step, hpc, hcond]⟩
    | cons w ws => exact ⟨.notify tid (some w), trivial, by simp [step, hpc, hcond]⟩
  | _ => contradiction

/-- Where no call goes on any more, all have returned but those that wait on the condition
variable. -/
theorem Sound.rests (hq : q.Sound cells) (hquiet : Quiet step Event.Inner q) (tid : Tid) :
    (q.threads tid).isIdle = true ∨ (q.threads tid).isBlocked = true := by
  have hstuck : ¬ ∃ e, Event.Inner e ∧ (q.step e).isSome = true := by
    rintro ⟨e, he, hsome⟩
    simp [hquiet e he] at hsome
  have houtTail : ∀ t, (q.threads t).holdsTail = false := fun t =>
    Bool.eq_false_iff.mpr fun h => hstuck (hq.goes_of_holdsTail h)
  have htail : q.m_tail_mutex = none := by
    refine Option.eq_none_iff_forall_ne_some.mpr fun t ht => ?_
    have := hq.controlled.tail.owner_iff.mpr ht
    simp [houtTail] at this
  have houtHead : ∀ t, (q.threads t).holdsHead = false := fun t =>
    Bool.eq_false_iff.mpr fun h => hstuck (hq.goes_of_holdsHead htail h)
  have hhead : q.m_head_mutex = none := by
    refine Option.eq_none_iff_forall_ne_some.mpr fun t ht => ?_
    have := hq.controlled.head.owner_iff.mpr ht
    simp [houtHead] at this
  by_contra h
  rw [not_or, Bool.not_eq_true, Bool.not_eq_true] at h
  exact hstuck (hq.goes_of_free hhead htail h.1 h.2 (houtHead tid) (houtTail tid))

/-- The mutexes do not deadlock. From wherever the threads are, when none begins another call and
no wait ends by itself, they take no more steps than some bound, they can always go on to where
none takes a step any more, and there every call has returned but those that wait on the
condition variable. -/
theorem calls_complete {es : List (Event T)} (h : run step {} es = some q) :
    (∃ bound, ∀ fs r, run step q fs = some r → (∀ e ∈ fs, e.Inner) → fs.length ≤ bound) ∧
      (∃ fs r, run step q fs = some r ∧ (∀ e ∈ fs, e.Inner) ∧ Quiet step Event.Inner r) ∧
      ∀ fs r, run step q fs = some r → (∀ e ∈ fs, e.Inner) → Quiet step Event.Inner r →
        ∀ tid, (r.threads tid).isIdle = true ∨ (r.threads tid).isBlocked = true := by
  obtain ⟨cells, hs⟩ := sound_run h
  obtain ⟨l, hl⟩ := exists_covered h
  have hdesc := descends (T := T) l
  obtain ⟨hbound, hquiet⟩ := hdesc.ends ⟨⟨cells, hs⟩, hl⟩
  refine ⟨hbound, hquiet, fun fs r hrun hfs hquiet => ?_⟩
  obtain ⟨⟨cells', hs'⟩, -⟩ := hdesc.of_run hrun hfs ⟨⟨cells, hs⟩, hl⟩
  exact hs'.rests hquiet

/-- A `push` under the tail mutex, a pop under the head mutex, and an `Exit`: all of them come to an
end. -/
theorem calls_complete_crossing : ∃ (q r : ConcurrentQueue Nat) (fs : List (Event Nat)),
    run step {} [.call 1 (.push 7), .advance 1, .call 2 (.pop .waitAndPop), .advance 2,
      .call 3 .exit] = some q ∧
    run step q fs = some r ∧ Quiet step Event.Inner r ∧
    ∀ tid, (r.threads tid).isIdle = true ∨ (r.threads tid).isBlocked = true := by
  have h : run step ({} : ConcurrentQueue Nat) [.call 1 (.push 7), .advance 1,
      .call 2 (.pop .waitAndPop), .advance 2, .call 3 .exit] = some _ := rfl
  obtain ⟨-, ⟨fs, r, hrun, hfs, hquiet⟩, hrests⟩ := calls_complete h
  exact ⟨_, r, fs, h, hrun, hquiet, hrests fs r hrun hfs hquiet⟩

end

end NBRaft.Concurrency.ConcurrentQueue
