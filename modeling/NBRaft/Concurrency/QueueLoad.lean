import NBRaft.Concurrency.QueueProgress
import NBRaft.Concurrency.Wakeup

/-!
# What a queue has still to carry

The values in a queue and those that calls of `push` have still to link. No step of a call in
progress adds to them, and a pop that returns a value takes one of them away: so a component that
consumes a queue has that many rounds of its loop before it.
-/

namespace NBRaft.Concurrency.ConcurrentQueue

open Transition Threads

variable {T : Type} {q r : ConcurrentQueue T} {cells : List (Addr × T)} {calls : List Tid}
  {tid : Tid} {pc : Pc T} {e : Event T} {stopped : Bool}

/-- How many values the thread has still to link. -/
def Pc.carries (pc : Pc T) : Nat := pc.carried.toList.length

/-- The values that calls of `push` have still to link. -/
def toLink (q : ConcurrentQueue T) (calls : List Tid) : Nat := work Pc.carries q.threads calls

/-- The values that have still to be taken. -/
def toTake (q : ConcurrentQueue T) (calls : List Tid) : Nat :=
  q.toLink calls + (q.pushed.length - q.taken.length)

theorem Sound.pushed_length (hq : q.Sound cells) :
    q.pushed.length = q.taken.length + cells.length := by
  have hlen := hq.done.perm.length_eq
  simp only [List.nil_append, List.length_append, List.length_map, hq.taken] at hlen
  exact hlen

theorem Pc.carries_of_isIdle (h : pc.isIdle = true) : pc.carries = 0 := by
  simp [carries, carried_of_isIdle h]

theorem Pc.carries_of_isConsuming (h : pc.isConsuming = true) : pc.carries = 0 := by
  simp [carries, carried_of_isConsuming h]

theorem Effect.toLink_eq (h : Effect q r) (hcalls : Covered Pc.isBusy q.threads calls) :
    r.toLink calls + r.pushed.length = q.toLink calls + q.pushed.length := by
  cases h with
  | quiet hpushed _ hsame =>
    have hwork : r.toLink calls = q.toLink calls :=
      work_congr fun t _ => by rw [Pc.carries, hsame.carried t, Pc.carries]
    rw [hwork, hpushed]
  | @linked t v hpc hpushed _ hthreads =>
    have hmem : t ∈ calls := hcalls.mem t (by rw [hpc]; rfl)
    have hwork : r.toLink calls + 1 = q.toLink calls + 0 := by
      have hupdate := work_update Pc.carries q.threads .pushUnlock hcalls.nodup hmem
      rwa [hpc, ← hthreads] at hupdate
    rw [hpushed, List.length_append, List.length_singleton]
    omega
  | @answered t v hconsuming hpushed _ hthreads =>
    have hwork : r.toLink calls = q.toLink calls := by
      refine work_congr fun i _ => ?_
      rw [hthreads]
      refine map_update ?_ i
      rw [Pc.carries_of_isConsuming hconsuming]
      rfl
    rw [hwork, hpushed]

/-- What is taken in a step had still to be taken before it. -/
theorem Effect.toTake_add (h : Effect q r) (hcalls : Covered Pc.isBusy q.threads calls)
    (hq : q.taken.length ≤ q.pushed.length) (hr : r.taken.length ≤ r.pushed.length) :
    r.toTake calls + r.taken.length = q.toTake calls + q.taken.length := by
  have hlink := h.toLink_eq hcalls
  simp only [toTake]
  omega

theorem Effect.exists_taken_length (h : Effect q r) :
    ∃ k, r.taken.length = q.taken.length + k := by
  cases h with
  | quiet _ htaken | linked _ _ htaken => exact ⟨0, by rw [htaken]; rfl⟩
  | @answered t v _ _ htaken => exact ⟨v.toList.length, by rw [htaken, List.length_append]⟩

/-- A value that a thread is to link stays on its way until it is in the queue. -/
theorem Effect.pushed_or_carried {v : T} (h : Effect q r)
    (hv : v ∈ q.pushed ∨ (q.threads tid).carried = some v) :
    v ∈ r.pushed ∨ (r.threads tid).carried = some v := by
  cases h with
  | quiet hpushed _ hsame =>
    rw [hpushed, hsame.carried tid]
    exact hv
  | @linked t u hpc hpushed _ hthreads =>
    rcases hv with hv | hv
    · exact .inl (by simp [hpushed, hv])
    · by_cases ht : tid = t
      · subst ht
        obtain rfl : u = v := by simpa [hpc, Pc.carried] using hv
        exact .inl (by simp [hpushed])
      · exact .inr (by rwa [hthreads, Function.update_of_ne ht])
  | @answered t u hconsuming hpushed _ hthreads =>
    have hsame : (r.threads tid).carried = (q.threads tid).carried := by
      rw [hthreads]
      exact map_update (Pc.carried_of_isConsuming hconsuming).symm tid
    rw [hpushed, hsame]
    exact hv

/-- All that is left to do in a queue, where a value that has still to be taken counts for `w`. -/
def load (w : Nat) (calls : List Tid) (q : ConcurrentQueue T) : Nat :=
  work (Pc.rank calls.length) q.threads calls + w * q.toTake calls

theorem Pc.rank_of_isIdle {n : Nat} (h : pc.isIdle = true) : pc.rank n = 0 := by
  cases pc <;> first | rfl | cases h

/-- A new call is all that it adds. -/
theorem load_call {w : Nat} {c : Call T} (h : q.step (.call tid c) = some r)
    (hcalls : Covered Pc.isBusy q.threads calls) (htid : tid ∈ calls) :
    r.load w calls =
      q.load w calls + (enter c).rank calls.length + w * (enter c).carries := by
  obtain ⟨hidle, rfl⟩ := call_eq h
  have hrank : work (Pc.rank calls.length) (q.goto tid (enter c)).threads calls =
      work (Pc.rank calls.length) q.threads calls + (enter c).rank calls.length := by
    have hupdate := work_update (Pc.rank calls.length) q.threads (enter c) hcalls.nodup htid
    rwa [Pc.rank_of_isIdle hidle] at hupdate
  have htake : (q.goto tid (enter c)).toTake calls = q.toTake calls + (enter c).carries := by
    have hupdate : (q.goto tid (enter c)).toLink calls = q.toLink calls + (enter c).carries := by
      have hwork := work_update Pc.carries q.threads (enter c) hcalls.nodup htid
      rwa [Pc.carries_of_isIdle hidle] at hwork
    rw [toTake, hupdate, toTake, Nat.add_right_comm]
    rfl
  rw [load, load, hrank, htake, Nat.mul_add]
  omega

/-- A step of a call in progress leaves less to do, by `w` more where it takes a value. -/
theorem Move.load_lt {w k : Nat} (h : Move q e r) (he : e.Inner)
    (hcalls : Covered Pc.isBusy q.threads calls) (hq : ∃ cells, q.Sound cells)
    (htaken : r.taken.length = q.taken.length + k) :
    r.load w calls + w * k < q.load w calls := by
  obtain ⟨cells, hs⟩ := hq
  obtain ⟨cells', hs'⟩ := h.sound hs
  have hlen := hs.pushed_length
  have hlen' := hs'.pushed_length
  have hadd := (h.effect he.ne_call).toTake_add hcalls (by omega) (by omega)
  have htake : r.toTake calls + k = q.toTake calls := by omega
  have hlt := h.lowers he hcalls
  rw [load, load, ← htake, Nat.mul_add]
  omega

/-! ## Exit -/

theorem Move.m_bstop_mono (h : Move q e r) (hq : q.m_bstop = true) : r.m_bstop = true := by
  cases h with
  | stop => rfl
  | link _ hp =>
    obtain ⟨nodes, m_tail, rfl⟩ := pushTail_frame hp
    exact hq
  | take _ hp =>
    obtain ⟨nodes, m_head, rfl⟩ := popHead_frame hp
    exact hq
  | steal _ _ _ _ hp =>
    obtain ⟨nodes, m_tail, rfl⟩ := popTail_frame hp
    exact hq
  | _ => exact hq

/-- A thread that is about to store the flag does that next. -/
theorem Move.stops (h : Move q e r) (he : ∀ tid c, e ≠ .call tid c)
    (hq : q.m_bstop = true ∨ q.threads tid = .exitStore) :
    r.m_bstop = true ∨ r.threads tid = .exitStore := by
  rcases hq with hq | hpc
  · exact .inl (h.m_bstop_mono hq)
  have hothers : ∀ {threads : Tid → Pc T} {t : Tid} {pc pc' : Pc T}, threads tid = .exitStore →
      threads t = pc → pc ≠ .exitStore → Function.update threads t pc' tid = .exitStore := by
    intro threads t pc pc' htid ht hne
    by_cases htt : tid = t
    · subst htt
      exact absurd (ht.symm.trans htid) hne
    · rwa [Function.update_of_ne htt]
  cases h with
  | call => exact absurd rfl (he _ _)
  | stop => exact .inl rfl
  | @turn t pc ht =>
    refine .inr (hothers hpc rfl fun heq => ?_)
    rw [heq] at ht
    cases ht
  | lockTail ht | unlockTail ht | count ht | notifyNone ht | lockHead ht | fail ht | late ht
  | block ht | failSteal ht => exact .inr (hothers hpc ht nofun)
  | link ht hp =>
    obtain ⟨nodes, m_tail, rfl⟩ := pushTail_frame hp
    exact .inr (hothers hpc ht nofun)
  | take ht hp =>
    obtain ⟨nodes, m_head, rfl⟩ := popHead_frame hp
    exact .inr (hothers hpc ht nofun)
  | steal ht _ _ _ hp =>
    obtain ⟨nodes, m_tail, rfl⟩ := popTail_frame hp
    exact .inr (hothers hpc ht nofun)
  | giveUp ht =>
    rcases ht with ⟨kind, ht, -⟩ | ⟨ht, -⟩
    · exact .inr (hothers hpc ht nofun)
    · exact .inr (hothers hpc ht nofun)
  | notifyOne ht =>
    exact .inr (hothers (wakeOne_threads hpc rfl) (wakeOne_threads ht rfl) nofun)
  | notifyAll ht =>
    exact .inr (hothers (wakeAll_threads hpc rfl) (wakeAll_threads ht rfl) nofun)
  | wake => exact .inr (wakeOne_threads hpc rfl)

/-! ## Waiting for a value -/

/-- In `wait_and_pop`, or returned from it with a value, or without one where the queue may have
been stopped. -/
def Pc.awaits (stopped : Bool) : Pc T → Bool
  | .popLock kind timedOut | .popCompare kind timedOut | .popLoadStop kind timedOut =>
    kind = .waitAndPop ∧ timedOut = false
  | .popWait kind | .blocked kind => kind = .waitAndPop
  | .popTest | .popTake => true
  | .returned value => value.isSome || stopped
  | _ => false

theorem Pc.awaits_mono (h : pc.awaits false = true) : pc.awaits stopped = true := by
  cases pc with
  | returned value =>
    simp only [awaits, Bool.or_false] at h
    simp [awaits, h]
  | _ => exact h

theorem Pc.awaits_wake {timedOut : Bool} (h : pc.awaits stopped = true)
    (htime : timedOut = true → pc.canTimeOut = true) :
    (pc.wake timedOut).awaits stopped = true := by
  cases pc with
  | blocked kind => cases timedOut <;> simp_all [awaits, wake, canTimeOut]
  | _ => exact h

/-- As long as nobody calls `Exit`, `wait_and_pop` does not return without a value. -/
theorem awaits_step (h : q.step e = some r) (he : ∀ tid c, e ≠ .call tid c)
    (hstop : q.m_bstop = true → stopped = true) (ht : (q.threads tid).awaits stopped = true) :
    (r.threads tid).awaits stopped = true := by
  have hupdate : ∀ {t : Tid} {pc : Pc T},
      ((q.threads t).awaits stopped = true → pc.awaits stopped = true) →
        (Function.update q.threads t pc tid).awaits stopped = true := by
    intro t pc hpc
    by_cases heq : tid = t
    · subst heq
      rw [Function.update_self]
      exact hpc ht
    · rwa [Function.update_of_ne heq]
  cases move_of_step h with
  | call => exact absurd rfl (he _ _)
  | @turn t pc hturn =>
    refine hupdate fun hawaits => ?_
    generalize q.threads t = pc' at hturn hawaits
    cases hturn <;> simp_all [Pc.awaits]
  | lockTail hpc | unlockTail hpc | count hpc | notifyNone hpc | lockHead hpc | fail hpc | late hpc
  | block hpc | failSteal hpc | stop hpc =>
    refine hupdate fun hawaits => ?_
    simp_all [Pc.awaits]
  | link hpc hp =>
    obtain ⟨nodes, m_tail, rfl⟩ := pushTail_frame hp
    exact hupdate (by simp [hpc, Pc.awaits])
  | take hpc hp =>
    obtain ⟨nodes, m_head, rfl⟩ := popHead_frame hp
    exact hupdate fun _ => rfl
  | steal hpc _ _ _ hp =>
    obtain ⟨nodes, m_tail, rfl⟩ := popTail_frame hp
    exact hupdate (by simp [hpc, Pc.awaits])
  | giveUp hpc =>
    refine hupdate fun hawaits => ?_
    rcases hpc with ⟨kind, hpc, -⟩ | ⟨hpc, hstop⟩ <;> simp_all [Pc.awaits]
  | @notifyOne t w hpc =>
    have hne : tid ≠ t := by
      rintro rfl
      rw [hpc] at ht
      cases ht
    change (Function.update (q.wakeOne w false).threads t .idle tid).awaits stopped = true
    rw [Function.update_of_ne hne]
    exact hupdate fun hawaits => Pc.awaits_wake hawaits nofun
  | @notifyAll t hpc =>
    have hne : tid ≠ t := by
      rintro rfl
      rw [hpc] at ht
      cases ht
    change (Function.update q.wakeAll.threads t .idle tid).awaits stopped = true
    rw [Function.update_of_ne hne]
    simp only [wakeAll]
    split
    · exact Pc.awaits_wake ht nofun
    · exact ht
  | wake =>
    simp only [step, Option.ite_none_right_eq_some] at h
    exact hupdate fun hawaits => Pc.awaits_wake hawaits h.1.2

/-- Where no call goes on any more, a thread that waits although there is something to wake up for
has lost its wake-up. -/
theorem Sound.lostWakeup (hq : q.Sound cells) (hquiet : Quiet step Event.Inner q)
    (hblocked : (q.threads tid).isBlocked = true) (hready : q.Ready) : q.LostWakeup tid where
  blocked := hblocked
  ready := hready
  notified t := by
    rcases hq.rests hquiet t with hrest | hrest <;>
      cases hpc : q.threads t <;> simp_all [Pc.isIdle, Pc.isBlocked, Pc.owesNotify]

end NBRaft.Concurrency.ConcurrentQueue
