import NBRaft.Concurrency.QueueCalls

/-!
# The concurrent queue is a deque

Before `Exit` is called, the queue does what a deque does: the nodes from the head to the dummy
hold the content of a deque to which the operations of `history` have been applied in order, and
`answers` are the outcomes of these operations. Only `m_count` lags behind, by one for each
`push` that has linked its node and not counted it, and the answer of a `wait_and_pop_timeout`
that is over, by the load of `m_bstop`.
-/

namespace NBRaft.Concurrency.ConcurrentQueue

open Transition Threads DoublyLinked

variable {T : Type}

/-- What the thread that has done this is told. -/
def outcome : Tid × Deque.Op T → Option (Tid × Option T)
  | (_, .pushBack _) => none
  | (tid, .popFront v) | (tid, .popBack v) => some (tid, some v)
  | (tid, .nothing) => some (tid, none)

def Pc.isUncounted : Pc T → Bool
  | .pushUnlock | .pushCount => true
  | _ => false

def Pc.isLate : Pc T → Bool
  | .popLoadStop _ timedOut => timedOut
  | _ => false

/-- The thread has seen that the queue is not empty. -/
def Pc.isTaking : Pc T → Bool
  | .popTest | .popTake => true
  | _ => false

def Pc.isExiting : Pc T → Bool
  | .exitStore | .exitNotify => true
  | _ => false

@[simp] theorem Pc.isExiting_wake (timedOut : Bool) (pc : Pc T) :
    (pc.wake timedOut).isExiting = pc.isExiting := by
  cases pc <;> rfl

structure Open (q : ConcurrentQueue T) : Prop where
  m_bstop : q.m_bstop = false
  threads : ∀ tid, (q.threads tid).isExiting = false

structure Refines (q : ConcurrentQueue T) (cells : List (Addr × T)) : Prop where
  holds : q.Holds cells
  done : Deque.Run [] (q.history.map Prod.snd) (cells.map Prod.snd)
  count : ∃ l, Listed Pc.isUncounted q.threads l ∧
    q.m_count + Int32.ofNat l.length = Int32.ofNat cells.length
  answered : ∃ l, Listed Pc.isLate q.threads l ∧
    q.history.filterMap outcome = q.answers ++ l.map (·, none)
  taking : ∀ tid, (q.threads tid).isTaking = true → cells ≠ []

theorem refines_initial : ({} : ConcurrentQueue T).Refines [] where
  holds := holds_initial
  done := .nil []
  count := ⟨[], ⟨List.nodup_nil, fun tid => by simp [Pc.isUncounted]⟩, rfl⟩
  answered := ⟨[], ⟨List.nodup_nil, fun tid => by simp [Pc.isLate]⟩, rfl⟩
  taking := fun tid h => by simp [Pc.isTaking] at h

theorem Pc.holdsHead_of_isLate (pc : Pc T) (h : pc.isLate = true) : pc.holdsHead = true := by
  cases pc <;> first | rfl | cases h

theorem Pc.holdsHead_of_isTaking (pc : Pc T) (h : pc.isTaking = true) : pc.holdsHead = true := by
  cases pc <;> first | rfl | cases h

section

variable {q r : ConcurrentQueue T} {cells cells' : List (Addr × T)} {pc : Pc T} {tid : Tid}
  {e : Event T}

theorem Open.update (hq : q.Open) (hstop : r.m_bstop = q.m_bstop)
    (hthreads : r.threads = Function.update q.threads tid pc) (hpc : pc.isExiting = false) :
    r.Open := by
  refine ⟨hstop.trans hq.m_bstop, ?_⟩
  rw [hthreads, Function.forall_update_iff q.threads fun _ pc => pc.isExiting = false]
  exact ⟨hpc, fun t _ => hq.threads t⟩

theorem Open.wakeOne (hq : q.Open) (w : Tid) (timedOut : Bool) : (q.wakeOne w timedOut).Open := by
  refine hq.update rfl rfl ?_
  rw [Pc.isExiting_wake]
  exact hq.threads w

/-- `Exit` is not called by any other step than its call. -/
theorem Move.open (h : Move q e r) (he : ∀ tid, e ≠ .call tid .exit) (hq : q.Open) : r.Open := by
  have hexit : ∀ tid, q.threads tid = .exitStore ∨ q.threads tid = .exitNotify → False := by
    rintro tid (hpc | hpc) <;> simpa [hpc, Pc.isExiting] using hq.threads tid
  cases h with
  | @call tid c _ =>
    refine hq.update rfl rfl ?_
    cases c <;> first | rfl | exact absurd rfl (he tid)
  | @turn tid pc ht =>
    refine hq.update rfl rfl ?_
    generalize q.threads tid = pc' at ht
    cases ht <;> rfl
  | link hpc hp =>
    obtain ⟨nodes, m_tail, rfl⟩ := pushTail_frame hp
    exact hq.update rfl rfl rfl
  | take hpc hp =>
    obtain ⟨nodes, m_head, rfl⟩ := popHead_frame hp
    exact hq.update rfl rfl rfl
  | steal hpc _ _ _ hp =>
    obtain ⟨nodes, m_tail, rfl⟩ := popTail_frame hp
    exact hq.update rfl rfl rfl
  | lockTail | unlockTail | count | notifyNone | lockHead | fail | late | giveUp | block
  | failSteal => exact hq.update rfl rfl rfl
  | notifyOne => exact (hq.wakeOne _ _).update rfl rfl rfl
  | stop hpc => exact (hexit _ (.inl hpc)).elim
  | notifyAll hpc => exact (hexit _ (.inr hpc)).elim
  | wake => exact hq.wakeOne _ _

theorem Refines.taking_update (h : q.Refines cells) (hpc : pc.isTaking = true → cells ≠ []) :
    ∀ t, (Function.update q.threads tid pc t).isTaking = true → cells ≠ [] := by
  apply (Function.forall_update_iff q.threads fun _ pc => pc.isTaking = true → cells ≠ []).mpr
  exact ⟨hpc, fun t _ => h.taking t⟩

/-- A thread goes on, and may have taken or released a mutex. -/
theorem Refines.go (h : q.Refines cells) (m_head_mutex m_tail_mutex : Option Tid)
    (m_data_cond : List Tid) (hcount : pc.isUncounted = (q.threads tid).isUncounted)
    (hlate : pc.isLate = (q.threads tid).isLate) (htaking : pc.isTaking = true → cells ≠ []) :
    ({ q with
      m_head_mutex := m_head_mutex
      m_tail_mutex := m_tail_mutex
      m_data_cond := m_data_cond }.goto tid pc).Refines cells where
  holds := h.holds.of_eq rfl rfl rfl
  done := h.done
  count := by
    obtain ⟨l, hl, hcount'⟩ := h.count
    exact ⟨l, hl.keep hcount, hcount'⟩
  answered := by
    obtain ⟨l, hl, hanswered⟩ := h.answered
    exact ⟨l, hl.keep hlate, hanswered⟩
  taking := h.taking_update htaking

theorem Refines.wakeOne {timedOut : Bool} (h : q.Refines cells) (w : Tid) :
    (q.wakeOne w timedOut).Refines cells := by
  refine h.go q.m_head_mutex q.m_tail_mutex (q.m_data_cond.erase w) ?_ ?_ ?_
  · cases q.threads w <;> rfl
  · cases q.threads w <;> rfl
  · intro htaking
    refine h.taking w ?_
    cases hpc : q.threads w <;> simp_all [Pc.wake, Pc.isTaking]

theorem done_record {op : Deque.Op T} {vs ws : List T}
    (h : Deque.Run [] (q.history.map Prod.snd) vs) (hop : Deque.Step vs op ws) :
    Deque.Run [] ((q.history ++ [(tid, op)]).map Prod.snd) ws := by
  rw [List.map_append]
  exact h.concat hop

theorem outcome_record {op : Deque.Op T} : (q.record tid op).history.filterMap outcome =
    q.history.filterMap outcome ++ (outcome (tid, op)).toList := by
  rw [record, List.filterMap_append]
  cases op <;> rfl

/-- The section of `push`. -/
theorem Refines.link {v : T} {addr : Addr} (h : q.Refines cells)
    (hpc : q.threads tid = .pushLink v) (hp : q.pushTail v addr = some r) :
    ((r.record tid (.pushBack v)).goto tid .pushUnlock).Refines (cells ++ [(q.m_tail, v)]) := by
  have hholds := holds_pushTail h.holds hp
  obtain ⟨nodes, m_tail, rfl⟩ := pushTail_frame hp
  constructor
  · exact hholds.of_eq rfl rfl rfl
  · apply done_record h.done
    rw [List.map_append]
    exact .pushBack _ v
  · obtain ⟨l, hl, hcount⟩ := h.count
    refine ⟨l ++ [tid], hl.enter (by rw [hpc]; rfl) rfl, ?_⟩
    simp only [List.length_append, List.length_singleton, Int32.ofNat_add, ← hcount]
    exact (Int32.add_assoc ..).symm
  · obtain ⟨l, hl, hanswered⟩ := h.answered
    refine ⟨l, hl.keep (by rw [hpc]; rfl), ?_⟩
    exact outcome_record.trans ((List.append_nil _).trans hanswered)
  · exact fun t _ => by simp

/-- A value is counted some time after its node has been linked. -/
theorem Refines.counted (h : q.Refines cells) (hpc : q.threads tid = .pushCount) :
    ({ q with m_count := q.m_count + 1 }.goto tid .pushNotify).Refines cells := by
  constructor
  · exact h.holds.of_eq rfl rfl rfl
  · exact h.done
  · obtain ⟨l, hl, hcount⟩ := h.count
    have hmem : tid ∈ l := (hl.mem_iff tid).mpr (by rw [hpc]; rfl)
    refine ⟨l.erase tid, hl.leave rfl, ?_⟩
    have hlen : l.length = (l.erase tid).length + 1 := by
      have := List.length_pos_of_mem hmem
      rw [List.length_erase_of_mem hmem]
      omega
    rw [← hcount, hlen, Int32.ofNat_add]
    change q.m_count + 1 + _ = q.m_count + (_ + 1)
    rw [Int32.add_assoc, Int32.add_comm 1]
  · obtain ⟨l, hl, hanswered⟩ := h.answered
    exact ⟨l, hl.keep (by rw [hpc]; rfl), hanswered⟩
  · exact h.taking_update (by rintro ⟨⟩)

/-- An operation is done and answered in one step, by a thread that owns the head mutex or finds
it free. -/
theorem Refines.answer {nodes : Addr → Option (Node Addr (Payload T))} {m_head m_tail : Addr}
    {m_count : Int32} {op : Deque.Op T} {value : Option T} (h : q.Refines cells)
    (hq : q.Controlled) (hfree : ∀ t, q.m_head_mutex = some t → t = tid)
    (hcounted : (q.threads tid).isUncounted = false) (hlate : (q.threads tid).isLate = false)
    (hholds : { q with
      nodes := nodes
      m_head := m_head
      m_tail := m_tail }.Holds cells')
    (hop : Deque.Step (cells.map Prod.snd) op (cells'.map Prod.snd))
    (houtcome : outcome (tid, op) = some (tid, value))
    (hcount : m_count + Int32.ofNat cells.length = q.m_count + Int32.ofNat cells'.length)
    (m_head_mutex : Option Tid) :
    ({ q.record tid op with
      nodes := nodes
      m_head := m_head
      m_tail := m_tail
      m_count := m_count
      m_head_mutex := m_head_mutex }.answer tid value).Refines cells' := by
  have hothers : ∀ t, (q.threads t).holdsHead = true → t = tid := fun t ht =>
    hfree t (hq.head.owner_iff.mp ht)
  constructor
  · exact hholds.of_eq rfl rfl rfl
  · exact done_record h.done hop
  · obtain ⟨l, hl, hl'⟩ := h.count
    refine ⟨l, hl.keep (by rw [hcounted]; rfl), ?_⟩
    change m_count + _ = _
    grind
  · obtain ⟨l, hl, hanswered⟩ := h.answered
    have hnil : l = [] := by
      refine hl.eq_nil hq.head Pc.holdsHead_of_isLate fun t ht => ?_
      rw [hfree t ht, hlate]
    subst hnil
    refine ⟨[], hl.keep (by rw [hlate]; rfl), ?_⟩
    refine outcome_record.trans ?_
    rw [hanswered, houtcome]
    simp [ConcurrentQueue.answer, goto, record]
  · apply (Function.forall_update_iff q.threads fun _ pc => pc.isTaking = true → cells' ≠ []).mpr
    refine ⟨by rintro ⟨⟩, fun t ht htaking => ?_⟩
    exact absurd (hothers t (Pc.holdsHead_of_isTaking _ htaking)) ht

/-- A `wait_and_pop_timeout` finds the queue empty for the last time. -/
theorem Refines.late {kind : PopKind} (h : q.Refines []) (hq : q.Controlled)
    (hpc : q.threads tid = .popCompare kind true) :
    ((q.record tid .nothing).goto tid (.popLoadStop kind true)).Refines [] := by
  have howner : q.m_head_mutex = some tid := hq.head.owner_iff.mp (by rw [hpc]; rfl)
  constructor
  · exact h.holds.of_eq rfl rfl rfl
  · exact done_record h.done .nothing
  · obtain ⟨l, hl, hcount⟩ := h.count
    exact ⟨l, hl.keep (by rw [hpc]; rfl), hcount⟩
  · obtain ⟨l, hl, hanswered⟩ := h.answered
    have hnil : l = [] := by
      refine hl.eq_nil hq.head Pc.holdsHead_of_isLate fun t ht => ?_
      obtain rfl : tid = t := Option.some.inj (howner.symm.trans ht)
      rw [hpc]
      rfl
    subst hnil
    refine ⟨[tid], hl.enter (by rw [hpc]; rfl) rfl, ?_⟩
    refine outcome_record.trans ?_
    rw [hanswered]
    simp [record, goto, outcome]
  · exact h.taking_update (by rintro ⟨⟩)

/-- It returns once it has seen that it is not stopped either. -/
theorem Refines.giveUp (h : q.Refines cells) (hq : q.Controlled)
    (hpc : (q.threads tid).isLate = true) (hcounted : (q.threads tid).isUncounted = false) :
    (q.unlockHead.answer tid none).Refines cells := by
  constructor
  · exact h.holds.of_eq rfl rfl rfl
  · exact h.done
  · obtain ⟨l, hl, hcount⟩ := h.count
    exact ⟨l, hl.keep (by rw [hcounted]; rfl), hcount⟩
  · obtain ⟨l, hl, hanswered⟩ := h.answered
    obtain rfl := hl.eq_singleton hq.head Pc.holdsHead_of_isLate hpc
    have hleave : Listed Pc.isLate (Function.update q.threads tid (.returned none))
        ([tid].erase tid) := hl.leave rfl
    rw [List.erase_cons_head] at hleave
    refine ⟨[], hleave, hanswered.trans ?_⟩
    simp [ConcurrentQueue.answer, goto, unlockHead]
  · exact h.taking_update (by rintro ⟨⟩)

theorem uncount (n : Int32) (k : Nat) : n - 1 + Int32.ofNat (k + 1) = n + Int32.ofNat k := by
  rw [Int32.ofNat_add]
  change n - 1 + (_ + 1) = _
  grind

theorem Turn.refines (h : Turn q (q.threads tid) pc) (hopen : q.Open) (hc : q.Refines cells) :
    (q.goto tid pc).Refines cells := by
  have hne : q.m_head ≠ q.m_tail → cells ≠ [] := fun hne => hc.holds.empty_iff.not.mp hne
  generalize hpc : q.threads tid = pc' at h
  refine hc.go q.m_head_mutex q.m_tail_mutex q.m_data_cond ?_ ?_ ?_
  · cases h <;> rw [hpc] <;> rfl
  · cases h with
    | stopped kind timedOut hstop => cases hopen.m_bstop.symm.trans hstop
    | empty | found | foundWaiting | wait | take => rw [hpc]; rfl
  · cases h with
    | empty | wait => rintro ⟨⟩
    | found _ h => exact fun _ => hne h
    | foundWaiting _ _ _ h => exact fun _ => hne h
    | stopped _ _ hstop => cases hopen.m_bstop.symm.trans hstop
    | take => exact fun _ => hc.taking tid (by rw [hpc]; rfl)

theorem Move.refines (h : Move q e r) (hq : q.Controlled) (hopen : q.Open)
    (hc : q.Refines cells) : ∃ cells', r.Refines cells' := by
  cases h with
  | @call tid c hidle =>
    refine ⟨cells, hc.go q.m_head_mutex q.m_tail_mutex q.m_data_cond ?_ ?_ ?_⟩
    · cases hpc : q.threads tid <;> cases c <;> first | rfl | simp [hpc, Pc.isIdle] at hidle
    · cases hpc : q.threads tid <;> cases c <;> first | rfl | simp [hpc, Pc.isIdle] at hidle
    · cases c <;> rintro ⟨⟩
  | turn ht => exact ⟨cells, ht.refines hopen hc⟩
  | lockTail hpc | unlockTail hpc | notifyNone hpc | lockHead hpc | block hpc =>
    exact ⟨cells, hc.go _ _ _ (by rw [hpc]; rfl) (by rw [hpc]; rfl) (by rintro ⟨⟩)⟩
  | link hpc hp => exact ⟨_, hc.link hpc hp⟩
  | count hpc => exact ⟨cells, hc.counted hpc⟩
  | @notifyOne tid w hpc hw =>
    have hpc' : (q.wakeOne w false).threads tid = .pushNotify := wakeOne_threads hpc rfl
    exact ⟨cells, (hc.wakeOne w).go q.m_head_mutex q.m_tail_mutex (q.m_data_cond.erase w)
      (by rw [hpc']; rfl) (by rw [hpc']; rfl) (by rintro ⟨⟩)⟩
  | @fail tid timedOut hpc heq =>
    obtain rfl := hc.holds.empty_iff.mp heq
    have howner : q.m_head_mutex = some tid := hq.head.owner_iff.mp (by rw [hpc]; rfl)
    refine ⟨[], hc.answer hq ?_ (by rw [hpc]; rfl) (by rw [hpc]; rfl) hc.holds .nothing rfl rfl
      none⟩
    exact fun t ht => Option.some.inj (ht.symm.trans howner)
  | late hpc heq =>
    obtain rfl := hc.holds.empty_iff.mp heq
    exact ⟨[], hc.late hq hpc⟩
  | giveUp hpc =>
    rcases hpc with ⟨kind, hpc, -⟩ | ⟨-, hstop⟩
    · exact ⟨cells, hc.giveUp hq (by rw [hpc]; rfl) (by rw [hpc]; rfl)⟩
    · cases hopen.m_bstop.symm.trans hstop
  | @take tid v p hpc hp =>
    have howner : q.m_head_mutex = some tid := hq.head.owner_iff.mp (by rw [hpc]; rfl)
    have hne := hc.taking tid (by rw [hpc]; rfl)
    obtain ⟨c, cells, rfl⟩ := List.exists_cons_of_ne_nil hne
    obtain ⟨p', hp', hholds⟩ := holds_popHead hc.holds
    obtain ⟨rfl, rfl⟩ := Prod.mk.inj (Option.some.inj (hp.symm.trans hp'))
    obtain ⟨nodes, m_head, rfl⟩ := popHead_frame hp
    refine ⟨cells, hc.answer hq ?_ (by rw [hpc]; rfl) (by rw [hpc]; rfl)
      (hholds.of_eq rfl rfl rfl) (.popFront _ _) rfl ?_ none⟩
    · exact fun t ht => Option.some.inj (ht.symm.trans howner)
    · exact uncount q.m_count cells.length
  | @failSteal tid hpc hfree heq =>
    obtain rfl := hc.holds.empty_iff.mp heq
    refine ⟨[], hc.answer hq ?_ (by rw [hpc]; rfl) (by rw [hpc]; rfl) hc.holds .nothing rfl rfl
      q.m_head_mutex⟩
    simp [hfree]
  | @steal tid v p hpc hfree _ hne hp =>
    have hne := hc.holds.empty_iff.not.mp hne
    obtain ⟨cells, c, rfl⟩ := (List.eq_nil_or_concat' cells).resolve_left hne
    obtain ⟨p', hp', hholds⟩ := holds_popTail hc.holds
    obtain ⟨rfl, rfl⟩ := Prod.mk.inj (Option.some.inj (hp.symm.trans hp'))
    obtain ⟨nodes, m_tail, rfl⟩ := popTail_frame hp
    refine ⟨cells, hc.answer hq ?_ (by rw [hpc]; rfl) (by rw [hpc]; rfl)
      (hholds.of_eq rfl rfl rfl) ?_ rfl ?_ q.m_head_mutex⟩
    · simp [hfree]
    · rw [List.map_append]
      exact .popBack _ _
    · rw [List.length_append]
      exact uncount q.m_count cells.length
  | @stop tid hpc => simpa [hpc, Pc.isExiting] using hopen.threads tid
  | @notifyAll tid hpc => simpa [hpc, Pc.isExiting] using hopen.threads tid
  | wake => exact ⟨cells, hc.wakeOne _⟩

theorem taken_eq (history : List (Tid × Deque.Op T)) :
    Deque.taken (history.map Prod.snd) = (history.filterMap outcome).filterMap Prod.snd := by
  induction history with
  | nil => rfl
  | cons entry history ih =>
    obtain ⟨tid, op⟩ := entry
    cases op with
    | pushBack v => exact ih
    | nothing => exact ih
    | popFront v => exact congrArg (v :: ·) ih
    | popBack v => exact congrArg (v :: ·) ih

/-- What has been taken from the deque has been returned, in the same order. -/
theorem Refines.taken_history (h : q.Refines cells) :
    Deque.taken (q.history.map Prod.snd) = q.answers.filterMap Prod.snd := by
  obtain ⟨l, -, hanswered⟩ := h.answered
  have hlate : (l.map fun tid => (tid, (none : Option T))).filterMap Prod.snd = [] := by
    rw [List.filterMap_map]
    exact List.filterMap_eq_nil_iff.mpr fun _ _ => rfl
  rw [taken_eq, hanswered, List.filterMap_append, hlate, List.append_nil]

/-- What is not in the queue any more has been returned, each value once. -/
theorem Refines.conserved (h : q.Refines cells) :
    (Deque.pushed (q.history.map Prod.snd)).Perm
      (q.answers.filterMap Prod.snd ++ cells.map Prod.snd) := by
  have hperm := h.done.perm
  rw [h.taken_history] at hperm
  exact hperm

theorem Refines.count_idle (h : q.Refines cells) (hidle : ∀ tid, (q.threads tid).isIdle = true) :
    q.m_count = Int32.ofNat cells.length := by
  obtain ⟨l, hl, hcount⟩ := h.count
  have hnil : l = [] := by
    refine List.eq_nil_iff_forall_not_mem.mpr fun tid htid => ?_
    have huncounted := (hl.mem_iff tid).mp htid
    have := hidle tid
    cases hpc : q.threads tid <;> simp [hpc, Pc.isIdle, Pc.isUncounted] at this huncounted
  subst hnil
  exact (Int32.add_zero _).symm.trans hcount

/-- A pop or a steal that returns nothing has found the queue empty, and unless it is a
`wait_and_pop_timeout` it is empty still. -/
theorem Move.failed (h : Move q (.advance tid) r) (hopen : q.Open) (hc : q.Refines cells)
    (hnone : r.threads tid = .returned none) (hlate : (q.threads tid).isLate = false) :
    cells = [] := by
  cases h with
  | fail _ heq | failSteal _ _ heq => exact hc.holds.empty_iff.mp heq
  | giveUp hpc =>
    rcases hpc with ⟨kind, hpc, -⟩ | ⟨-, hstop⟩
    · rw [hpc] at hlate
      cases hlate
    · cases hopen.m_bstop.symm.trans hstop
  | @turn tid pc ht =>
    simp only [goto, Function.update_self] at hnone
    subst hnone
    generalize q.threads tid = pc at ht
    cases ht
  | lockTail | unlockTail | count | lockHead | late | block | stop | notifyAll =>
    simp [goto] at hnone
  | take | steal => simp [ConcurrentQueue.answer, goto] at hnone

/-- No null pointer is followed. -/
theorem Refines.popTake_isSome (h : q.Refines cells) (hpc : q.threads tid = .popTake) :
    (q.step (.advance tid)).isSome = true := by
  obtain ⟨c, cells, rfl⟩ := List.exists_cons_of_ne_nil (h.taking tid (by rw [hpc]; rfl))
  obtain ⟨p, hp, -⟩ := holds_popHead h.holds
  simp [step, hpc, advance, hp]

theorem Refines.steal_isSome (h : q.Refines cells) (hpc : q.threads tid = .steal)
    (hhead : q.m_head_mutex = none) (htail : q.m_tail_mutex = none) :
    (q.step (.advance tid)).isSome = true := by
  by_cases heq : q.m_head = q.m_tail
  · simp [step, hpc, advance, hhead, htail, heq]
  · have hne := h.holds.empty_iff.not.mp heq
    obtain ⟨cells, c, rfl⟩ := (List.eq_nil_or_concat' cells).resolve_left hne
    obtain ⟨p, hp, -⟩ := holds_popTail h.holds
    simp [step, hpc, advance, hhead, htail, heq, hp]

theorem Refines.link_isSome {v : T} {addr : Addr} (h : q.Refines cells)
    (hpc : q.threads tid = .pushLink v) (hnew : q.nodes addr = none) :
    (q.step (.link tid addr)).isSome = true := by
  obtain ⟨tail, htail⟩ := Option.isSome_iff_exists.mp h.holds.tail
  simp [step, hpc, pushTail, htail, hnew]

end

/-- The queue is a representation of the deque with these values, each at the address of its
node. -/
structure Represents (q : ConcurrentQueue T) (cells : List (Addr × T)) : Prop where
  /-- From the head, the nodes hold the values in order, up to the dummy at the tail. -/
  holds : q.Holds cells
  prev : (cells.map Prod.fst ++ [q.m_tail]).IsChain fun x y => prevOf q.nodes y = some x
  /-- The deque is what the operations so far make of an empty one, in this order. -/
  done : Deque.Run [] (q.history.map Prod.snd) (cells.map Prod.snd)
  /-- The calls have returned what these operations took, or are about to say that they have
  found nothing. -/
  answered : ∃ late, Listed Pc.isLate q.threads late ∧
    q.history.filterMap outcome = q.answers ++ late.map (·, none)
  conserved : (Deque.pushed (q.history.map Prod.snd)).Perm
    (q.answers.filterMap Prod.snd ++ cells.map Prod.snd)
  failed : ∀ tid r, q.step (.advance tid) = some r → r.threads tid = .returned none →
    (q.threads tid).isLate = false → cells = []
  count : (∀ tid, (q.threads tid).isIdle = true) → q.m_count = Int32.ofNat cells.length
  popTake_isSome : ∀ tid, q.threads tid = .popTake → (q.step (.advance tid)).isSome = true
  steal_isSome : ∀ tid, q.threads tid = .steal → q.m_head_mutex = none → q.m_tail_mutex = none →
    (q.step (.advance tid)).isSome = true
  link_isSome : ∀ tid v addr, q.threads tid = .pushLink v → q.nodes addr = none →
    (q.step (.link tid addr)).isSome = true

theorem Refines.represents {q : ConcurrentQueue T} {cells : List (Addr × T)} (h : q.Refines cells)
    (hopen : q.Open) : q.Represents cells where
  holds := h.holds
  prev := map_fst_cell ▸ h.holds.chain.isChain_prev
  done := h.done
  answered := h.answered
  conserved := h.conserved
  failed := fun _ _ hstep hnone hlate => (move_of_step hstep).failed hopen h hnone hlate
  count := h.count_idle
  popTake_isSome := fun _ => h.popTake_isSome
  steal_isSome := fun _ => h.steal_isSome
  link_isSome := fun _ _ _ => h.link_isSome

/-- Every step before `Exit` is called. -/
theorem step_refines {q r : ConcurrentQueue T} {e : Event T} (h : q.step e = some r)
    (he : ∀ tid, e ≠ .call tid .exit)
    (hq : q.Controlled ∧ q.Open ∧ ∃ cells, q.Refines cells) :
    r.Controlled ∧ r.Open ∧ ∃ cells, r.Refines cells := by
  obtain ⟨hcontrolled, hopen, cells, hcells⟩ := hq
  have hmove := move_of_step h
  exact ⟨hmove.controlled hcontrolled, hmove.open he hopen,
    hmove.refines hcontrolled hopen hcells⟩

/-- In every run without `Exit`, whatever the interleaving, the queue is a representation of the
deque that its operations make; and the operations are those of the calls: each thread has pushed
at the back what it called `push` with, popped at the front and stolen at the back, once for each
call and in the order of its calls, but for the last one while that is in progress. -/
theorem represents_of_run {q : ConcurrentQueue T} {es : List (Event T)}
    (h : run step {} es = some q) (hexit : ∀ e ∈ es, ∀ tid, e ≠ .call tid .exit) :
    ∃ cells, q.Represents cells ∧
      ∀ tid, Serves (q.threads tid) (callsOf tid es) (entriesOf tid q.history) := by
  have hinit : ({} : ConcurrentQueue T).Open := ⟨rfl, fun _ => rfl⟩
  have hrun : (q.Controlled ∧ q.Open ∧ ∃ cells, q.Refines cells) ∧
      ∀ tid, Serves (q.threads tid) (callsOf tid es) (entriesOf tid q.history) := by
    refine run_records (I := fun es (q : ConcurrentQueue T) =>
      (q.Controlled ∧ q.Open ∧ ∃ cells, q.Refines cells) ∧
        ∀ tid, Serves (q.threads tid) (callsOf tid es) (entriesOf tid q.history)) ?_ h hexit
      ⟨⟨controlled_initial, hinit, [], refines_initial⟩, fun _ => .fresh⟩
    intro es q e r hq he hst
    exact ⟨step_refines hst he hq.1, fun tid => serves_step hst he hq.1.2.1.m_bstop (hq.2 tid)⟩
  obtain ⟨⟨-, hopen, cells, hcells⟩, hserves⟩ := hrun
  exact ⟨cells, hcells.represents hopen, hserves⟩

/-- A push falls between a pop's look at the tail and the pop itself, and a steal takes back
what it pushed; then a second push uses the node of the first as its dummy. -/
theorem represents_of_run_steal : ∃ (q : ConcurrentQueue Nat) (cells : List (Addr × Nat)),
    run step {} [.call 1 (.push 7), .advance 1, .link 1 10, .advance 1, .advance 1,
      .notify 1 none, .call 2 (.pop .tryPop), .advance 2, .advance 2, .call 1 (.push 8),
      .advance 1, .link 1 11, .advance 1, .advance 2, .advance 1, .notify 1 none,
      .call 3 .trySteal, .advance 3, .call 1 (.push 9), .advance 1, .link 1 12] = some q ∧
    q.answers = [(2, some 7), (3, some 8)] ∧
    entriesOf 1 q.history = [.pushBack 7, .pushBack 8, .pushBack 9] ∧ q.Represents cells ∧
    Serves (q.threads 1) [.push 7, .push 8, .push 9] (entriesOf 1 q.history) := by
  have h : run step ({} : ConcurrentQueue Nat) [.call 1 (.push 7), .advance 1, .link 1 10,
      .advance 1, .advance 1, .notify 1 none, .call 2 (.pop .tryPop), .advance 2, .advance 2,
      .call 1 (.push 8), .advance 1, .link 1 11, .advance 1, .advance 2, .advance 1,
      .notify 1 none, .call 3 .trySteal, .advance 3, .call 1 (.push 9), .advance 1,
      .link 1 12] = some _ := rfl
  obtain ⟨cells, hcells, hserves⟩ := represents_of_run h (by simp)
  exact ⟨_, cells, h, rfl, rfl, hcells, hserves 1⟩

end NBRaft.Concurrency.ConcurrentQueue
