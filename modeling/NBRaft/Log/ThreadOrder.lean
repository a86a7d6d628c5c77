import NBRaft.Log.Shutdown

/-!
# Each thread's events in its own order

The threads that log push their events side by side, so that the appenders see them in the order of
the queue. Of the events of one thread this is the order in which the thread has logged them, and
as long as the logger works they see a beginning of that.
-/

namespace NBRaft.Log.AsyncLogger

open Concurrency Transition

variable {n m : Nat} {α : Type} {source : LogEvent α → Fin n} {k : Fin n}

/-- The events of one thread. -/
def eventsOf (source : LogEvent α → Fin n) (k : Fin n) (events : List (LogEvent α)) :
    List (LogEvent α) :=
  events.filter (source · = k)

@[simp] theorem eventsOf_append (events events' : List (LogEvent α)) :
    eventsOf source k (events ++ events') = eventsOf source k events ++ eventsOf source k events' :=
  List.filter_append ..

theorem eventsOf_singleton_self {event : LogEvent α} (h : source event = k) :
    eventsOf source k [event] = [event] := by
  simp [eventsOf, h]

theorem eventsOf_singleton_ne {event : LogEvent α} (h : source event ≠ k) :
    eventsOf source k [event] = [] := by
  simp [eventsOf, h]

/-- What a call of `log` has still to link. -/
def carriedEvents (l : AsyncLogger n m α) (k : Fin n) : List (LogEvent α) :=
  (l.m_queue.threads (producer k)).carried.toList.filterMap id

/-- Of each thread, the events in the queue and the one on its way are those that it has logged. -/
def Ordered (source : LogEvent α → Fin n) (l : AsyncLogger n m α) : Prop :=
  ∀ k, eventsOf source k (l.m_queue.pushed.filterMap id) ++ l.carriedEvents k =
    eventsOf source k l.logged

/-- An event is logged by the thread that it names. -/
def FromSource (source : LogEvent α → Fin n) : Event n α → Prop
  | .log k event => source event = k
  | _ => True

section

variable {l r : AsyncLogger n m α} {e : Event n α}

/-- An event that a thread carries is one of its own. -/
theorem Ordered.source_eq {event : LogEvent α} (h : l.Ordered source)
    (hcarried : (l.m_queue.threads (producer k)).carried = some (some event)) :
    source event = k := by
  have hmem : event ∈ eventsOf source k l.logged := by
    rw [← h k, List.mem_append]
    exact .inr (by simp [carriedEvents, hcarried])
  simpa using (List.mem_filter.mp hmem).2

/-- The queue and what the threads carry stay the same. -/
theorem Ordered.of_same (h : l.Ordered source) (hpushed : r.m_queue.pushed = l.m_queue.pushed)
    (hcarried : ∀ k : Fin n, (r.m_queue.threads (producer k)).carried =
      (l.m_queue.threads (producer k)).carried) (hlogged : r.logged = l.logged) :
    r.Ordered source := by
  intro k
  have hk := h k
  rwa [← hpushed, ← hlogged, carriedEvents, ← hcarried k] at hk

/-- A call on the queue by somebody who does not log. -/
theorem Ordered.of_call {q : ConcurrentQueue (Option (LogEvent α))} {tid : Tid}
    {c : ConcurrentQueue.Call (Option (LogEvent α))} (h : l.Ordered source)
    (hq : l.m_queue.step (.call tid c) = some q) (htid : ∀ k : Fin n, producer k ≠ tid)
    (hr : r.m_queue = q) (hlogged : r.logged = l.logged) : r.Ordered source := by
  obtain ⟨-, rfl⟩ := ConcurrentQueue.call_eq hq
  refine h.of_same (by rw [hr]; rfl) (fun k => ?_) hlogged
  rw [hr]
  simp only [ConcurrentQueue.goto, Function.update_of_ne (htid k)]

theorem producer_ne_one (k : Fin n) : producer k ≠ 1 := by
  simp [producer]

theorem Move.ordered (h : Move l e r) (he : FromSource source e) (hl : l.Inv)
    (ho : l.Ordered source) : r.Ordered source := by
  cases h with
  | @log j event q hd hq =>
    obtain ⟨hidle, rfl⟩ := ConcurrentQueue.call_eq hq
    intro k
    have hk := ho k
    by_cases hkj : k = j
    · subst hkj
      have hnone := ConcurrentQueue.Pc.carried_of_isIdle hidle
      have hself : source event = k := he
      simp only [carriedEvents, hnone, Option.toList_none, List.filterMap_nil,
        List.append_nil] at hk
      have hcarried : carriedEvents { l with
          m_queue := l.m_queue.goto (producer k) (ConcurrentQueue.enter (.push (some event)))
          logged := l.logged ++ [event] } k = [event] := by
        simp [carriedEvents, ConcurrentQueue.goto, ConcurrentQueue.enter,
          ConcurrentQueue.Pc.carried]
      rw [hcarried, eventsOf_append, eventsOf_singleton_self hself, ← hk]
      rfl
    · have hother : source event ≠ k := fun h => hkj (h.symm.trans he)
      have hne : producer k ≠ producer j := fun h => hkj (producer_inj h)
      rw [eventsOf_append, eventsOf_singleton_ne hother, List.append_nil, ← hk]
      simp only [carriedEvents, ConcurrentQueue.goto, Function.update_of_ne hne]
      rfl
  | pop _ _ hq => exact ho.of_call hq producer_ne_zero rfl rfl
  | push _ hq => exact ho.of_call hq producer_ne_one rfl rfl
  | @queue e q he' hq =>
    cases (ConcurrentQueue.move_of_step hq).effect he' with
    | quiet hpushed _ hthreads =>
      exact ho.of_same hpushed (fun k => hthreads.carried (producer k)) rfl
    | @linked tid v hpc hpushed _ hthreads =>
      intro k
      have hk := ho k
      cases v with
      | none =>
        have hcarried : carriedEvents { l with m_queue := q } k = l.carriedEvents k := by
          simp only [carriedEvents, hthreads]
          by_cases htid : producer k = tid
          · rw [htid, Function.update_self, hpc]
            rfl
          · rw [Function.update_of_ne htid]
        rw [hcarried]
        simpa [hpushed] using hk
      | some event =>
        obtain ⟨-, j, rfl⟩ := hl.giver tid event (by rw [hpc]; rfl)
        have hsource : source event = j := ho.source_eq (by rw [hpc]; rfl)
        by_cases hkj : k = j
        · subst hkj
          have hcarried : l.carriedEvents k = [event] := by
            simp [carriedEvents, hpc, ConcurrentQueue.Pc.carried]
          have hnone : carriedEvents { l with m_queue := q } k = [] := by
            simp [carriedEvents, hthreads, ConcurrentQueue.Pc.carried]
          rw [hcarried] at hk
          rw [hnone, List.append_nil]
          simpa [hpushed, eventsOf_singleton_self hsource] using hk
        · have hother : source event ≠ k := fun h => hkj (h.symm.trans hsource)
          have hne : producer k ≠ producer j := fun h => hkj (producer_inj h)
          have hcarried : carriedEvents { l with m_queue := q } k = l.carriedEvents k := by
            simp only [carriedEvents, hthreads, Function.update_of_ne hne]
          rw [hcarried]
          simpa [hpushed, eventsOf_singleton_ne hother] using hk
    | @answered tid v hconsuming hpushed _ hthreads =>
      refine ho.of_same hpushed (fun k => ?_) rfl
      change (q.threads (producer k)).carried = _
      rw [hthreads]
      refine Threads.map_update ?_ (producer k)
      exact (ConcurrentQueue.Pc.carried_of_isConsuming hconsuming).symm
  | leave | null | got | skip | append | next | begin | exited | running | exchange | pushed
  | join => exact ho.of_same rfl (fun _ => rfl) rfl

theorem Move.m_level_eq (h : Move l e r) : r.m_level = l.m_level := by
  cases h <;> rfl

theorem ordered_initial {level : Level} :
    ({ m_level := level } : AsyncLogger n m α).Ordered source := fun _ => rfl

theorem filter_eventsOf (level : Level) (events : List (LogEvent α)) :
    (eventsOf source k events).filter (·.m_level ≤ level) =
      eventsOf source k (events.filter (·.m_level ≤ level)) :=
  List.filter_comm ..

end

/-- At any time, what an appender has been passed of the events of a thread, what the worker is
about to pass to it, what is in the queue and what the thread is about to push are, in this order,
the events up to the level that the thread has logged. -/
theorem appended_in_order {level : Level} {es : List (Event n α)} {l : AsyncLogger n m α}
    (h : run step { m_level := level } es = some l) (hes : ∀ e ∈ es, FromSource source e)
    (i : Fin m) (k : Fin n) :
    eventsOf source k (l.appended i ++ l.owed i ++ loggable level l.contents) ++
      loggable level (l.m_queue.threads (producer k)).carried.toList =
        eventsOf source k (l.logged.filter (·.m_level ≤ level)) := by
  obtain ⟨hlevel, hl, ho⟩ : l.m_level = level ∧ l.Inv ∧ l.Ordered source := by
    refine run_preserves_of_forall (I := fun l => l.m_level = level ∧ l.Inv ∧ l.Ordered source)
      ?_ h hes ⟨rfl, inv_initial, ordered_initial⟩
    intro l e r hst he hl
    have hmove := move_of_step hst
    exact ⟨hmove.m_level_eq.trans hl.1, hmove.inv hl.2.1, hmove.ordered he hl.2.1 hl.2.2⟩
  have happended : l.appended i ++ l.owed i ++ loggable level l.contents =
      loggable level l.m_queue.pushed := by
    rw [hl.appended i, hlevel, ← loggable_append, ← hl.pushed_eq]
  rw [happended, ← filter_eventsOf, ← ho k, List.filter_append, filter_eventsOf]
  rfl

/-- One event has been passed on, one is in the queue, and one has still to be pushed. -/
theorem appended_in_order_two : ∃ l : AsyncLogger 2 1 (Fin 2 × Nat),
    run step { m_level := .INFO } [.log 0 ⟨.WARN, 0, 7⟩, .queue (.advance 2), .queue (.link 2 10),
      .queue (.advance 2), .log 1 ⟨.ERRO, 1, 8⟩, .queue (.advance 3), .queue (.link 3 11),
      .queue (.advance 3), .queue (.advance 2), .queue (.notify 2 none), .log 0 ⟨.INFO, 0, 9⟩,
      .worker, .queue (.advance 0), .queue (.advance 0), .queue (.advance 0), .queue (.advance 0),
      .worker, .worker, .worker] = some l ∧
    l.appended 0 = [⟨.WARN, 0, 7⟩] ∧
    ∀ k, eventsOf (fun e => e.m_ss.1) k (l.appended 0 ++ l.owed 0 ++ loggable .INFO l.contents) ++
      loggable .INFO (l.m_queue.threads (producer k)).carried.toList =
        eventsOf (fun e => e.m_ss.1) k (l.logged.filter (·.m_level ≤ .INFO)) := by
  have h : run step ({ m_level := .INFO } : AsyncLogger 2 1 (Fin 2 × Nat)) [
      .log 0 ⟨.WARN, 0, 7⟩, .queue (.advance 2), .queue (.link 2 10), .queue (.advance 2),
      .log 1 ⟨.ERRO, 1, 8⟩, .queue (.advance 3), .queue (.link 3 11), .queue (.advance 3),
      .queue (.advance 2), .queue (.notify 2 none), .log 0 ⟨.INFO, 0, 9⟩, .worker,
      .queue (.advance 0), .queue (.advance 0), .queue (.advance 0), .queue (.advance 0),
      .worker, .worker, .worker] = some _ := rfl
  refine ⟨_, h, rfl, fun k => appended_in_order h ?_ 0 k⟩
  simp [FromSource]

end NBRaft.Log.AsyncLogger
