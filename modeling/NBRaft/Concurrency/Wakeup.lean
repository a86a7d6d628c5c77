import NBRaft.Concurrency.QueueControl

/-!
# Lost wake-ups

One thread pops with `wait_and_pop`, any others push or call `Exit`. `wait_and_pop` evaluates its
predicate with the head mutex held, and until it blocks keeps it; but `push` links its node under
the tail mutex and `Exit` stores its flag under none, and both notify without the head mutex. A
notification can so fall between the predicate and the block, and nobody hears it.
-/

namespace NBRaft.Concurrency.ConcurrentQueue

open Transition Threads

variable {T : Type}

/-- The calls of `push` and `Exit` up to and with their notification. -/
def Pc.owesNotify : Pc T → Bool
  | .pushLock _ | .pushLink _ | .pushUnlock | .pushCount | .pushNotify
  | .exitStore | .exitNotify => true
  | _ => false

/-- The calls of the consumer and those of the others. -/
def Event.fits (consumer : Tid) : Event T → Bool
  | .call tid (.pop .waitAndPop) => tid = consumer
  | .call tid (.push _) | .call tid .exit => tid ≠ consumer
  | .call _ _ => false
  | _ => true

/-- The queue as used by one consumer and any number of producers. -/
def oneConsumer (consumer : Tid) (q : ConcurrentQueue T) (e : Event T) :
    Option (ConcurrentQueue T) :=
  if e.fits consumer then q.step e else none

/-- There is something for the consumer to wake up for. -/
def Ready (q : ConcurrentQueue T) : Prop := q.m_head ≠ q.m_tail ∨ q.m_bstop = true

/-- The consumer is blocked although there is something to wake up for, and nobody is about to
notify it. -/
structure LostWakeup (consumer : Tid) (q : ConcurrentQueue T) : Prop where
  blocked : (q.threads consumer).isBlocked = true
  ready : q.Ready
  notified : ∀ tid, (q.threads tid).owesNotify = false

/-- When the consumer goes to block, the queue is still empty and not stopped, or a `push` or
an `Exit` that has begun has still to notify. -/
def BlocksInTime (consumer : Tid) (q : ConcurrentQueue T) (e : Event T) : Prop :=
  ∀ kind, e = .advance consumer → q.threads consumer = .popWait kind →
    ¬ q.Ready ∨ ∃ tid, (q.threads tid).owesNotify = true

structure OneConsumer (consumer : Tid) (q : ConcurrentQueue T) : Prop where
  controlled : q.Controlled
  others : ∀ tid, tid ≠ consumer → (q.threads tid).isConsuming = false

section

variable {q r : ConcurrentQueue T} {consumer tid w : Tid} {pc : Pc T} {e : Event T}

theorem OneConsumer.eq_of_isConsuming (h : q.OneConsumer consumer)
    (hpc : (q.threads tid).isConsuming = true) : tid = consumer := by
  by_contra hne
  rw [h.others tid hne] at hpc
  cases hpc

/-- Nobody but the consumer waits. -/
theorem OneConsumer.eq_of_mem (h : q.OneConsumer consumer) (hw : w ∈ q.m_data_cond) :
    w = consumer :=
  h.eq_of_isConsuming (Pc.isConsuming_of_isBlocked ((h.controlled.waiting.mem_iff w).mp hw))

theorem oneConsumer_initial : ({} : ConcurrentQueue T).OneConsumer consumer :=
  ⟨controlled_initial, fun _ _ => rfl⟩

theorem others_update {threads : Tid → Pc T}
    (h : ∀ t, t ≠ consumer → (threads t).isConsuming = false)
    (hpc : tid ≠ consumer → pc.isConsuming = false) :
    ∀ t, t ≠ consumer → (Function.update threads tid pc t).isConsuming = false := by
  rw [Function.forall_update_iff threads fun t pc => t ≠ consumer → pc.isConsuming = false]
  exact ⟨hpc, fun t _ => h t⟩

theorem Move.others (h : Move q e r) (he : e.fits consumer = true)
    (hq : q.OneConsumer consumer) :
    ∀ tid, tid ≠ consumer → (r.threads tid).isConsuming = false := by
  have hsame : ∀ {tid : Tid} {pc : Pc T}, (q.threads tid).isConsuming = true →
      tid ≠ consumer → pc.isConsuming = false :=
    fun hpc hne => absurd (hq.eq_of_isConsuming hpc) hne
  have hwake : ∀ w timedOut, ∀ t, t ≠ consumer →
      ((q.wakeOne w timedOut).threads t).isConsuming = false := fun w timedOut =>
    others_update hq.others fun hne => (Pc.isConsuming_wake ..).trans (hq.others w hne)
  cases h with
  | @call tid c hidle =>
    refine others_update hq.others fun hne => ?_
    cases c with
    | push | exit => rfl
    | pop kind =>
      cases kind with
      | waitAndPop => exact absurd (by simpa [Event.fits] using he) hne
      | tryPop | waitAndPopTimeout => cases he
    | trySteal => cases he
  | @turn tid pc ht =>
    refine others_update hq.others (hsame ?_)
    generalize q.threads tid = pc' at ht
    cases ht <;> rfl
  | link hpc hp =>
    obtain ⟨nodes, m_tail, rfl⟩ := pushTail_frame hp
    exact others_update hq.others fun _ => rfl
  | take hpc hp =>
    obtain ⟨nodes, m_head, rfl⟩ := popHead_frame hp
    exact others_update hq.others fun _ => rfl
  | steal hpc _ _ _ hp =>
    obtain ⟨nodes, m_tail, rfl⟩ := popTail_frame hp
    exact others_update hq.others fun _ => rfl
  | lockTail | unlockTail | count | notifyNone | fail | giveUp | failSteal | stop =>
    exact others_update hq.others fun _ => rfl
  | lockHead hpc | late hpc | block hpc =>
    exact others_update hq.others (hsame (by rw [hpc]; rfl))
  | @notifyOne tid w hpc hw => exact others_update (hwake w false) fun _ => rfl
  | notifyAll hpc =>
    refine others_update (fun t ht => ?_) fun _ => rfl
    simp only [wakeAll]
    split
    · exact (Pc.isConsuming_wake ..).trans (hq.others t ht)
    · exact hq.others t ht
  | @wake w timedOut _ => exact hwake w timedOut

theorem OneConsumer.of_step (h : oneConsumer consumer q e = some r)
    (hq : q.OneConsumer consumer) : r.OneConsumer consumer := by
  simp only [oneConsumer, Option.ite_none_right_eq_some] at h
  have hmove := move_of_step h.2
  exact ⟨hmove.controlled hq.controlled, hmove.others h.1 hq⟩

/-- As long as the consumer is blocked, every step is one of a `push` or an `Exit` that has still
to notify. -/
theorem Move.owesNotify_of_blocked (h : Move q e r) (he : e.fits consumer = true)
    (hq : q.OneConsumer consumer) (hblocked : (q.threads consumer).isBlocked = true)
    (hstill : (r.threads consumer).isBlocked = true) :
    ∃ tid, (r.threads tid).owesNotify = true := by
  have hmem : consumer ∈ q.m_data_cond := (hq.controlled.waiting.mem_iff consumer).mpr hblocked
  have hmem' : consumer ∈ r.m_data_cond :=
    ((h.controlled hq.controlled).waiting.mem_iff consumer).mpr hstill
  have howes : ∀ {tid : Tid} {pc : Pc T}, pc.owesNotify = true →
      ∃ t, (Function.update q.threads tid pc t).owesNotify = true :=
    fun {tid pc} hpc => ⟨tid, by rw [Function.update_self]; exact hpc⟩
  -- a pop is the consumer's, and the consumer is blocked
  have hpop : ∀ {tid : Tid} {pc : Pc T}, q.threads tid = pc → pc.isConsuming = true →
      pc.isBlocked = false → False := by
    rintro tid pc rfl hconsuming hrunning
    rw [hq.eq_of_isConsuming hconsuming, hblocked] at hrunning
    cases hrunning
  have hwoken : consumer ∉ q.m_data_cond.erase consumer := hq.controlled.waiting.nodup.not_mem_erase
  cases h with
  | @call tid c hidle =>
    refine howes ?_
    cases c with
    | push | exit => rfl
    | pop kind =>
      have htid : tid = consumer := by
        cases kind <;> first | cases he | simpa [Event.fits] using he
      subst htid
      cases hpc : q.threads tid <;> simp [hpc, Pc.isIdle, Pc.isBlocked] at hidle hblocked
    | trySteal => cases he
  | @turn tid pc ht =>
    generalize hpc : q.threads tid = pc' at ht
    cases ht <;> exact (hpop hpc rfl rfl).elim
  | lockTail | unlockTail | count | stop => exact howes rfl
  | link hpc hp =>
    obtain ⟨nodes, m_tail, rfl⟩ := pushTail_frame hp
    exact howes rfl
  | notifyNone _ hnone => simp [hnone] at hmem
  | @notifyOne tid w hpc hw =>
    obtain rfl := hq.eq_of_mem hw
    exact absurd hmem' hwoken
  | notifyAll => cases hmem'
  | lockHead hpc | fail hpc | late hpc | block hpc | take hpc | failSteal hpc | steal hpc =>
    exact (hpop hpc rfl rfl).elim
  | giveUp hpc =>
    rcases hpc with ⟨kind, hpc, -⟩ | ⟨hpc, -⟩
    · exact (hpop hpc rfl rfl).elim
    · exact (hpop hpc rfl rfl).elim
  | @wake w timedOut hw =>
    obtain rfl := hq.eq_of_mem hw
    exact absurd hmem' hwoken

/-- Who waits has waited before, or goes to block. -/
theorem Move.mem_or_block (h : Move q e r) (hw : w ∈ r.m_data_cond) : w ∈ q.m_data_cond ∨
    ∃ kind, e = .advance w ∧ q.threads w = .popWait kind := by
  cases h with
  | @block tid kind hpc =>
    rcases List.mem_append.mp hw with hw | hw
    · exact .inl hw
    · obtain rfl := List.mem_singleton.mp hw
      exact .inr ⟨kind, rfl, hpc⟩
  | link hpc hp =>
    obtain ⟨nodes, m_tail, rfl⟩ := pushTail_frame hp
    exact .inl hw
  | take hpc hp =>
    obtain ⟨nodes, m_head, rfl⟩ := popHead_frame hp
    exact .inl hw
  | steal hpc _ _ _ hp =>
    obtain ⟨nodes, m_tail, rfl⟩ := popTail_frame hp
    exact .inl hw
  | notifyOne | wake => exact .inl (List.mem_of_mem_erase hw)
  | notifyAll => cases hw
  | call | turn | lockTail | unlockTail | count | notifyNone | lockHead | fail | late | giveUp
  | failSteal | stop => exact .inl hw

/-- When the consumer blocks, nothing else changes. -/
theorem lostWakeup_block {kind : PopKind} (h : q.step (.advance consumer) = some r)
    (hpc : q.threads consumer = .popWait kind) :
    r.LostWakeup consumer ↔ q.Ready ∧ ∀ tid, (q.threads tid).owesNotify = false := by
  simp only [step, hpc, advance, Option.some.injEq] at h
  subst h
  have howes : (∀ tid, (Function.update q.threads consumer (.blocked kind) tid).owesNotify = false)
      ↔ ∀ tid, (q.threads tid).owesNotify = false := by
    rw [Function.forall_update_iff q.threads fun _ pc => pc.owesNotify = false]
    constructor
    · rintro ⟨-, hothers⟩ tid
      by_cases htid : tid = consumer
      · rw [htid, hpc]
        rfl
      · exact hothers tid htid
    · exact fun hall => ⟨rfl, fun tid _ => hall tid⟩
  constructor
  · exact fun hlost => ⟨hlost.ready, howes.mp hlost.notified⟩
  · rintro ⟨hready, hnotified⟩
    exact ⟨by simp [goto, Pc.isBlocked], hready, howes.mpr hnotified⟩

/-- A step loses a wake-up exactly if it is the consumer's going to block too late. -/
theorem lostWakeup_iff (h : oneConsumer consumer q e = some r) (hq : q.OneConsumer consumer) :
    ¬ r.LostWakeup consumer ↔ q.BlocksInTime consumer e := by
  have hr := hq.of_step h
  simp only [oneConsumer, Option.ite_none_right_eq_some] at h
  obtain ⟨he, h⟩ := h
  constructor
  · rintro hlost kind rfl hpc
    rw [lostWakeup_block h hpc] at hlost
    by_contra hlate
    simp only [not_or, not_not, not_exists, Bool.not_eq_true] at hlate
    exact hlost hlate
  · intro hintime hlost
    have hmem := (hr.controlled.waiting.mem_iff consumer).mpr hlost.blocked
    rcases (move_of_step h).mem_or_block hmem with hwaits | ⟨kind, rfl, hpc⟩
    · have hblocked := (hq.controlled.waiting.mem_iff consumer).mp hwaits
      obtain ⟨tid, howes⟩ := (move_of_step h).owesNotify_of_blocked he hq hblocked hlost.blocked
      rw [hlost.notified tid] at howes
      cases howes
    · obtain ⟨hready, hnotified⟩ := (lostWakeup_block h hpc).mp hlost
      rcases hintime kind rfl hpc with hnot | ⟨tid, howes⟩
      · exact hnot hready
      · rw [hnotified tid] at howes
        cases howes

end

/-- No wake-up is ever lost in a run exactly if the consumer always blocks in time. -/
theorem noLostWakeup_iff_blocksInTime {consumer : Tid} {q : ConcurrentQueue T}
    {es : List (Event T)} (h : run (oneConsumer consumer) {} es = some q) :
    Throughout (oneConsumer consumer) (fun q => ¬ q.LostWakeup consumer) {} es ↔
      Along (oneConsumer consumer) (fun q e => q.BlocksInTime consumer e) {} es := by
  refine throughout_iff_along (I := fun q => q.OneConsumer consumer) ?_ ?_ h oneConsumer_initial ?_
  · exact fun _ _ _ hstep hq => hq.of_step hstep
  · exact fun _ _ _ hstep hq _ => lostWakeup_iff hstep hq
  · exact fun hlost => Bool.false_ne_true hlost.blocked

/-- The consumer is woken by the push it waits for. -/
theorem noLostWakeup_iff_blocksInTime_push : ∃ q : ConcurrentQueue Nat,
    run (oneConsumer 0) {} [.call 0 (.pop .waitAndPop), .advance 0, .advance 0, .advance 0,
      .advance 0, .call 1 (.push 7), .advance 1, .link 1 10, .advance 1, .advance 1,
      .notify 1 (some 0)] = some q ∧
    (Throughout (oneConsumer 0) (fun q => ¬ q.LostWakeup 0) ({} : ConcurrentQueue Nat)
        [.call 0 (.pop .waitAndPop), .advance 0, .advance 0, .advance 0,
          .advance 0, .call 1 (.push 7), .advance 1, .link 1 10, .advance 1, .advance 1,
          .notify 1 (some 0)] ↔
      Along (oneConsumer 0) (fun q e => q.BlocksInTime 0 e) ({} : ConcurrentQueue Nat)
        [.call 0 (.pop .waitAndPop), .advance 0, .advance 0, .advance 0,
          .advance 0, .call 1 (.push 7), .advance 1, .link 1 10, .advance 1, .advance 1,
          .notify 1 (some 0)]) := by
  have h : run (oneConsumer 0) ({} : ConcurrentQueue Nat) [.call 0 (.pop .waitAndPop),
      .advance 0, .advance 0, .advance 0, .advance 0, .call 1 (.push 7), .advance 1,
      .link 1 10, .advance 1, .advance 1, .notify 1 (some 0)] = some _ := rfl
  exact ⟨_, h, noLostWakeup_iff_blocksInTime h⟩

/-- A push links, counts and notifies between the consumer's predicate and its block. -/
theorem push_before_block : ∃ (es : List (Event Nat)) (q : ConcurrentQueue Nat),
    run (oneConsumer 0) {} es = some q ∧ q.LostWakeup 0 := by
  have h : run (oneConsumer 0) ({} : ConcurrentQueue Nat) [.call 0 (.pop .waitAndPop),
      .advance 0, .advance 0, .advance 0, .call 1 (.push 7), .advance 1, .link 1 10,
      .advance 1, .advance 1, .notify 1 none, .advance 0] = some _ := rfl
  refine ⟨_, _, h, rfl, .inl (by decide), fun tid => ?_⟩
  match tid with
  | 0 => rfl
  | 1 => rfl
  | n + 2 => rfl

end NBRaft.Concurrency.ConcurrentQueue
