import NBRaft.Concurrency.QueueLoad

/-!
# Threads that never wait

A queue that is used by `push`, `try_pop`, `try_steal` and `Exit` only. Nobody waits on its
condition variable, and nobody looks at `m_bstop`: whoever calls `Exit` on it does nothing that
another thread could see.
-/

namespace NBRaft.Concurrency.ConcurrentQueue

open Transition Threads

variable {T : Type} {q r : ConcurrentQueue T} {cells : List (Addr × T)} {tid exiter : Tid}
  {pc : Pc T} {e : Event T}

/-- In `try_pop` or `try_steal`, or returned from one of them. -/
def Pc.polls : Pc T → Bool
  | .popLock kind timedOut | .popCompare kind timedOut => kind = .tryPop ∧ timedOut = false
  | .popTake | .steal | .returned _ => true
  | _ => false

theorem Pc.polls_wake {timedOut : Bool} (h : pc.polls = true) :
    (pc.wake timedOut).polls = true := by
  cases pc with
  | blocked => cases h
  | _ => exact h

theorem Pc.wake_eq_returned {timedOut : Bool} {v : Option T} (h : pc.wake timedOut = .returned v) :
    pc = .returned v := by
  cases pc with
  | blocked => cases h
  | _ => exact h

/-- What the other threads do, and its own steps, leave a thread that polls polling. -/
theorem polls_step (h : Move q e r) (he : ∀ tid c, e ≠ .call tid c)
    (ht : (q.threads tid).polls = true) : (r.threads tid).polls = true := by
  have hupdate : ∀ {t : Tid} {pc : Pc T},
      ((q.threads t).polls = true → pc.polls = true) →
        (Function.update q.threads t pc tid).polls = true := by
    intro t pc hpc
    by_cases heq : tid = t
    · subst heq
      rw [Function.update_self]
      exact hpc ht
    · rwa [Function.update_of_ne heq]
  cases h with
  | call => exact absurd rfl (he _ _)
  | @turn t pc hturn =>
    refine hupdate fun hpolls => ?_
    generalize q.threads t = pc' at hturn hpolls
    cases hturn <;> simp_all [Pc.polls]
  | lockTail hpc | unlockTail hpc | count hpc | notifyNone hpc | lockHead hpc | fail hpc | late hpc
  | block hpc | failSteal hpc | stop hpc =>
    refine hupdate fun hpolls => ?_
    simp_all [Pc.polls]
  | link hpc hp =>
    obtain ⟨nodes, m_tail, rfl⟩ := pushTail_frame hp
    exact hupdate (by simp [hpc, Pc.polls])
  | take hpc hp =>
    obtain ⟨nodes, m_head, rfl⟩ := popHead_frame hp
    exact hupdate fun _ => rfl
  | steal hpc _ _ _ hp =>
    obtain ⟨nodes, m_tail, rfl⟩ := popTail_frame hp
    exact hupdate fun _ => rfl
  | giveUp hpc => exact hupdate fun _ => rfl
  | @notifyOne t w hpc =>
    have hne : tid ≠ t := by
      rintro rfl
      rw [hpc] at ht
      cases ht
    change (Function.update (q.wakeOne w false).threads t .idle tid).polls = true
    rw [Function.update_of_ne hne]
    exact hupdate Pc.polls_wake
  | @notifyAll t hpc =>
    have hne : tid ≠ t := by
      rintro rfl
      rw [hpc] at ht
      cases ht
    change (Function.update q.wakeAll.threads t .idle tid).polls = true
    rw [Function.update_of_ne hne]
    simp only [wakeAll]
    split
    · exact Pc.polls_wake ht
    · exact ht
  | wake => exact hupdate Pc.polls_wake

theorem returned_of_wakeOne {w : Tid} {timedOut : Bool} {v : Option T}
    (h : (q.wakeOne w timedOut).threads tid = .returned v) : q.threads tid = .returned v := by
  simp only [wakeOne] at h
  by_cases heq : tid = w
  · subst heq
    rw [Function.update_self] at h
    exact Pc.wake_eq_returned h
  · rwa [Function.update_of_ne heq] at h

/-- A thread that polls is told that there is nothing where there is nothing. -/
theorem empty_of_missed (h : Move q e r) (he : ∀ tid c, e ≠ .call tid c)
    (ht : (q.threads tid).polls = true) (hr : r.threads tid = .returned none) :
    q.threads tid = .returned none ∨ r.m_head = r.m_tail := by
  have hupdate : ∀ {t : Tid} {pc : Pc T} {P : Prop}, (pc = .returned none → P) →
      Function.update q.threads t pc tid = .returned none →
        q.threads tid = .returned none ∨ P := by
    intro t pc P hpc hmissed
    by_cases heq : tid = t
    · subst heq
      rw [Function.update_self] at hmissed
      exact .inr (hpc hmissed)
    · rw [Function.update_of_ne heq] at hmissed
      exact .inl hmissed
  cases h with
  | call => exact absurd rfl (he _ _)
  | @turn t pc hturn =>
    refine hupdate (fun hpc => ?_) hr
    subst hpc
    generalize q.threads t = pc' at hturn
    cases hturn
  | lockTail | unlockTail | count | notifyNone | lockHead | late | block | stop =>
    exact hupdate (by simp) hr
  | fail _ hempty | failSteal _ _ hempty => exact hupdate (fun _ => hempty) hr
  | link hpc hp =>
    obtain ⟨nodes, m_tail, rfl⟩ := pushTail_frame hp
    exact hupdate (by simp) hr
  | take hpc hp =>
    obtain ⟨nodes, m_head, rfl⟩ := popHead_frame hp
    exact hupdate (by simp) hr
  | steal hpc _ _ _ hp =>
    obtain ⟨nodes, m_tail, rfl⟩ := popTail_frame hp
    exact hupdate (by simp) hr
  | @giveUp t hpc =>
    by_cases heq : tid = t
    · subst heq
      rcases hpc with ⟨kind, hpc, -⟩ | ⟨hpc, -⟩ <;> simp [hpc, Pc.polls] at ht
    · change Function.update q.threads t (.returned none) tid = .returned none at hr
      rw [Function.update_of_ne heq] at hr
      exact .inl hr
  | @notifyOne t w hpc =>
    have hne : tid ≠ t := by
      rintro rfl
      rw [hpc] at ht
      cases ht
    change Function.update (q.wakeOne w false).threads t .idle tid = .returned none at hr
    rw [Function.update_of_ne hne] at hr
    exact .inl (returned_of_wakeOne hr)
  | @notifyAll t hpc =>
    have hne : tid ≠ t := by
      rintro rfl
      rw [hpc] at ht
      cases ht
    change Function.update q.wakeAll.threads t .idle tid = .returned none at hr
    rw [Function.update_of_ne hne] at hr
    simp only [wakeAll] at hr
    split at hr
    · exact .inl (Pc.wake_eq_returned hr)
    · exact .inl hr
  | wake => exact .inl (returned_of_wakeOne hr)

/-! ## Without `Exit` -/

/-- Where a thread may be that calls `push`, `try_pop` and `try_steal`. -/
def Pc.waitless : Pc T → Bool
  | .popLock kind timedOut | .popCompare kind timedOut => kind = .tryPop ∧ timedOut = false
  | .popLoadStop .. | .popWait _ | .blocked _ | .popTest | .exitStore | .exitNotify => false
  | _ => true

/-- Where the thread may be that calls `Exit`. -/
def Pc.exits : Pc T → Bool
  | .idle | .exitStore | .exitNotify => true
  | _ => false

/-- Nobody waits, and one thread calls `Exit` at most. -/
structure Waitless (exiter : Tid) (q : ConcurrentQueue T) : Prop where
  m_data_cond : q.m_data_cond = []
  others : ∀ tid, tid ≠ exiter → (q.threads tid).waitless = true
  exits : (q.threads exiter).exits = true

/-- The calls that keep this so. -/
def Call.waitless : Call T → Bool
  | .push _ | .pop .tryPop | .trySteal => true
  | _ => false

/-- The queue as it is without the thread that calls `Exit`. -/
def unstopped (exiter : Tid) (q : ConcurrentQueue T) : ConcurrentQueue T :=
  { q with m_bstop := false, threads := Function.update q.threads exiter .idle }

/-- The thread that takes the step. -/
def Event.thread : Event T → Tid
  | .call tid _ | .advance tid | .link tid _ | .notify tid _ | .wake tid _ => tid

theorem waitless_initial (exiter : Tid) : ({} : ConcurrentQueue T).Waitless exiter :=
  ⟨rfl, fun _ _ => rfl, rfl⟩

theorem threads_unstopped (h : tid ≠ exiter) :
    (q.unstopped exiter).threads tid = q.threads tid := Function.update_of_ne h ..

theorem unstopped_goto (h : tid ≠ exiter) :
    (q.goto tid pc).unstopped exiter = (q.unstopped exiter).goto tid pc := by
  simp only [unstopped, goto, Function.update_comm h]

theorem unstopped_goto_exiter : (q.goto exiter pc).unstopped exiter = q.unstopped exiter := by
  simp only [unstopped, goto, Function.update_idem]

theorem pushTail_unstopped {v : T} {addr : Addr} (h : q.pushTail v addr = some r) :
    (q.unstopped exiter).pushTail v addr = some (r.unstopped exiter) := by
  unfold pushTail at h ⊢
  simp only [unstopped]
  split at h
  · cases h
    rfl
  · cases h

theorem popHead_unstopped {v : T} (h : q.popHead = some (v, r)) :
    (q.unstopped exiter).popHead = some (v, r.unstopped exiter) := by
  unfold popHead at h ⊢
  simp only [unstopped]
  split at h
  · cases h
    rfl
  · cases h

theorem popTail_unstopped {v : T} (h : q.popTail = some (v, r)) :
    (q.unstopped exiter).popTail = some (v, r.unstopped exiter) := by
  unfold popTail at h ⊢
  simp only [unstopped]
  split at h
  · cases h
  · split at h
    · cases h
      rfl
    · cases h

theorem advance_unstopped (htid : tid ≠ exiter) (hpc : pc.waitless = true)
    (h : q.advance tid pc = some r) :
    (q.unstopped exiter).advance tid pc = some (r.unstopped exiter) := by
  have hgoto : ∀ (p : ConcurrentQueue T) (pc : Pc T),
      some ((p.unstopped exiter).goto tid pc) = some ((p.goto tid pc).unstopped exiter) :=
    fun _ _ => congrArg some (unstopped_goto htid).symm
  cases pc with
  | pushLock v =>
    simp only [advance, Option.ite_none_right_eq_some, Option.some.injEq] at h
    obtain ⟨hfree, rfl⟩ := h
    exact (if_pos hfree).trans (hgoto { q with m_tail_mutex := some tid } _)
  | popLock kind timedOut =>
    simp only [advance, Option.ite_none_right_eq_some, Option.some.injEq] at h
    obtain ⟨hfree, rfl⟩ := h
    exact (if_pos hfree).trans (hgoto { q with m_head_mutex := some tid } _)
  | pushUnlock =>
    cases h
    exact hgoto { q with m_tail_mutex := none } _
  | pushCount =>
    cases h
    exact hgoto { q with m_count := q.m_count + 1 } _
  | popCompare kind timedOut =>
    obtain ⟨rfl, rfl⟩ : kind = .tryPop ∧ timedOut = false := by simpa [Pc.waitless] using hpc
    simp only [advance, if_true] at h ⊢
    split_ifs at h with htail hempty
    · cases h
      exact (if_pos htail).trans ((if_pos hempty).trans (hgoto { q with
        m_head_mutex := none
        history := q.history ++ [(tid, .nothing)]
        answers := q.answers ++ [(tid, none)] } _))
    · cases h
      exact (if_pos htail).trans ((if_neg hempty).trans (hgoto q _))
  | popTake =>
    simp only [advance, Option.bind_eq_bind, Option.bind_eq_some_iff] at h ⊢
    obtain ⟨⟨v, p⟩, hp, h⟩ := h
    cases h
    exact ⟨_, popHead_unstopped hp, hgoto { p with
      m_head_mutex := none
      history := p.history ++ [(tid, .popFront v)]
      answers := p.answers ++ [(tid, some v)] } _⟩
  | steal =>
    simp only [advance] at h ⊢
    split_ifs at h with hfree hempty
    · cases h
      exact (if_pos hfree).trans ((if_pos hempty).trans (hgoto { q with
        history := q.history ++ [(tid, .nothing)]
        answers := q.answers ++ [(tid, none)] } _))
    · simp only [Option.bind_eq_bind, Option.bind_eq_some_iff] at h
      obtain ⟨⟨v, p⟩, hp, h⟩ := h
      cases h
      refine (if_pos hfree).trans ((if_neg hempty).trans ?_)
      rw [popTail_unstopped hp]
      exact hgoto { p with
        history := p.history ++ [(tid, .popBack v)]
        answers := p.answers ++ [(tid, some v)] } _
  | idle | pushLink | pushNotify | blocked | returned => cases h
  | popLoadStop | popWait | popTest | exitStore | exitNotify => cases hpc

/-- The calls that leave it so that nobody waits. -/
def Event.Waitless (exiter : Tid) : Event T → Prop
  | .call tid c => if tid = exiter then c = .exit else c.waitless = true
  | _ => True

theorem Waitless.ne_exiter (hq : q.Waitless exiter) (hpc : (q.threads tid).exits = false) :
    tid ≠ exiter := by
  rintro rfl
  rw [hq.exits] at hpc
  cases hpc

theorem Waitless.eq_exiter (hq : q.Waitless exiter) (hpc : (q.threads tid).waitless = false) :
    tid = exiter := by
  by_contra hne
  rw [hq.others tid hne] at hpc
  cases hpc

/-- A thread goes on to where it may be. -/
theorem Waitless.goto (hq : q.Waitless exiter)
    (hthreads : r.threads = Function.update q.threads tid pc) (hcond : r.m_data_cond = [])
    (hout : tid ≠ exiter → pc.waitless = true)
    (hexits : tid = exiter → pc.exits = true) : r.Waitless exiter := by
  refine ⟨hcond, fun t ht => ?_, ?_⟩
  · rw [hthreads]
    by_cases heq : t = tid
    · subst heq
      rw [Function.update_self]
      exact hout ht
    · rw [Function.update_of_ne heq]
      exact hq.others t ht
  · rw [hthreads]
    by_cases heq : exiter = tid
    · subst heq
      rw [Function.update_self]
      exact hexits rfl
    · rw [Function.update_of_ne heq]
      exact hq.exits

/-- A thread that does not call `Exit` goes on. -/
theorem Waitless.goto_other (hq : q.Waitless exiter) (hpc : (q.threads tid).exits = false)
    (hthreads : r.threads = Function.update q.threads tid pc)
    (hcond : r.m_data_cond = q.m_data_cond) (hout : pc.waitless = true) : r.Waitless exiter :=
  hq.goto hthreads (hcond.trans hq.m_data_cond) (fun _ => hout)
    fun h => absurd h (hq.ne_exiter hpc)

theorem waitless_step (h : Move q e r) (hq : q.Waitless exiter) (he : e.Waitless exiter) :
    r.Waitless exiter := by
  have hcond := hq.m_data_cond
  cases h with
  | @call tid c hidle =>
    simp only [Event.Waitless] at he
    refine hq.goto rfl hcond (fun hne => ?_) fun heq => ?_
    · rw [if_neg hne] at he
      cases c with
      | pop kind => cases kind <;> first | rfl | cases he
      | exit => cases he
      | _ => rfl
    · rw [if_pos heq] at he
      rw [he]
      rfl
  | @turn tid pc ht =>
    generalize hpc : q.threads tid = pc' at ht
    cases ht with
    | found => exact hq.goto_other (by rw [hpc]; rfl) rfl rfl rfl
    | empty kind hkind | foundWaiting kind _ hkind =>
      have hne : tid ≠ exiter := hq.ne_exiter (by rw [hpc]; rfl)
      have hwaitless := hq.others tid hne
      simp [hpc, Pc.waitless, hkind] at hwaitless
    | stopped | wait | take =>
      have heq : tid = exiter := hq.eq_exiter (by rw [hpc]; rfl)
      have hexits := hq.exits
      rw [← heq, hpc] at hexits
      cases hexits
  | lockTail hpc | unlockTail hpc | count hpc | notifyNone hpc | fail hpc | failSteal hpc =>
    exact hq.goto_other (by rw [hpc]; rfl) rfl rfl rfl
  | @lockHead tid kind timedOut hpc =>
    have hwaitless := hq.others tid (hq.ne_exiter (by rw [hpc]; rfl))
    rw [hpc] at hwaitless
    exact hq.goto_other (by rw [hpc]; rfl) rfl rfl hwaitless
  | link hpc hp =>
    obtain ⟨nodes, m_tail, rfl⟩ := pushTail_frame hp
    exact hq.goto_other (by rw [hpc]; rfl) rfl rfl rfl
  | take hpc hp =>
    obtain ⟨nodes, m_head, rfl⟩ := popHead_frame hp
    exact hq.goto_other (by rw [hpc]; rfl) rfl rfl rfl
  | steal hpc _ _ _ hp =>
    obtain ⟨nodes, m_tail, rfl⟩ := popTail_frame hp
    exact hq.goto_other (by rw [hpc]; rfl) rfl rfl rfl
  | late hpc =>
    have hwaitless := hq.others _ (hq.ne_exiter (by rw [hpc]; rfl))
    simp [hpc, Pc.waitless] at hwaitless
  | giveUp hpc =>
    rcases hpc with ⟨kind, hpc, -⟩ | ⟨hpc, -⟩
    · have hwaitless := hq.others _ (hq.ne_exiter (by rw [hpc]; rfl))
      simp [hpc, Pc.waitless] at hwaitless
    · have hwaitless := hq.others _ (hq.ne_exiter (by rw [hpc]; rfl))
      simp [hpc, Pc.waitless] at hwaitless
  | block hpc =>
    have hwaitless := hq.others _ (hq.ne_exiter (by rw [hpc]; rfl))
    simp [hpc, Pc.waitless] at hwaitless
  | @stop tid hpc =>
    have heq : tid = exiter := hq.eq_exiter (by rw [hpc]; rfl)
    exact hq.goto rfl hcond (fun hne => absurd heq hne) fun _ => rfl
  | @notifyAll tid hpc =>
    have hthreads : (q.wakeAll.goto tid .idle).threads = Function.update q.threads tid .idle := by
      simp [ConcurrentQueue.goto, wakeAll, hcond]
    have heq : tid = exiter := hq.eq_exiter (by rw [hpc]; rfl)
    exact hq.goto hthreads rfl (fun hne => absurd heq hne) fun _ => rfl
  | notifyOne _ hw => simp [hcond] at hw
  | wake hw => simp [hcond] at hw

/-- A thread that does not wait goes on just so without the other one. -/
theorem step_unstopped (h : q.step e = some r) (hq : q.Waitless exiter)
    (hne : e.thread ≠ exiter) : (q.unstopped exiter).step e = some (r.unstopped exiter) := by
  cases e with
  | call tid c =>
    have htid : tid ≠ exiter := hne
    obtain ⟨hidle, rfl⟩ := call_eq h
    simp only [step]
    rw [threads_unstopped htid, if_pos hidle, unstopped_goto htid]
  | advance tid =>
    have htid : tid ≠ exiter := hne
    simp only [step]
    rw [threads_unstopped htid]
    exact advance_unstopped htid (hq.others tid htid) h
  | link tid addr =>
    have htid : tid ≠ exiter := hne
    simp only [step] at h ⊢
    rw [threads_unstopped htid]
    split at h
    · simp only [Option.bind_eq_bind, Option.bind_eq_some_iff] at h ⊢
      obtain ⟨p, hp, h⟩ := h
      cases h
      refine ⟨_, pushTail_unstopped hp, ?_⟩
      rw [unstopped_goto htid]
      rfl
    · cases h
  | notify tid woken =>
    have htid : tid ≠ exiter := hne
    simp only [step] at h ⊢
    rw [threads_unstopped htid]
    split at h
    · simp only [hq.m_data_cond, if_true] at h
      cases h
      rw [unstopped_goto htid]
      exact if_pos hq.m_data_cond
    · simp [hq.m_data_cond] at h
    · cases h
  | wake tid timedOut => simp [step, hq.m_data_cond] at h

/-- The thread that calls `Exit` changes nothing for the others. -/
theorem unstopped_of_exits (h : q.step e = some r) (hq : q.Waitless exiter)
    (he : e.thread = exiter) : r.unstopped exiter = q.unstopped exiter := by
  have hexits := hq.exits
  subst he
  cases e with
  | call tid c =>
    obtain ⟨-, rfl⟩ := call_eq h
    exact unstopped_goto_exiter
  | advance tid =>
    simp only [step, Event.thread] at h hexits
    cases hpc : q.threads tid with
    | exitStore =>
      rw [hpc] at h
      cases h
      exact unstopped_goto_exiter
    | exitNotify =>
      rw [hpc] at h
      cases h
      refine unstopped_goto_exiter.trans ?_
      simp [unstopped, wakeAll, hq.m_data_cond]
    | idle =>
      rw [hpc] at h
      cases h
    | _ => simp [hpc, Pc.exits] at hexits
  | link tid addr =>
    simp only [step, Event.thread] at h hexits
    cases hpc : q.threads tid <;> simp [hpc, Pc.exits] at h hexits
  | notify tid woken =>
    simp only [step, Event.thread] at h hexits
    cases hpc : q.threads tid <;> simp [hpc, Pc.exits] at h hexits
  | wake tid timedOut => simp [step, hq.m_data_cond] at h

end NBRaft.Concurrency.ConcurrentQueue
