import NBRaft.Raft.RepeatTimer

/-!
# Timers that have been stopped

Nothing restarts an `io_context` here, so a timer whose `io_context` has been stopped does not
call its callback again, whatever is called afterwards. The handler that is in progress at the
time is the one that `stop` waits for, by joining the thread.
-/

namespace NBRaft.Raft.Timers

open Transition

variable {Func : Type} {s s' : Timers Func} {id j : TimerId} {t u : RepeatingTimer Func}
  {todo rest : List TimerAction} {a : TimerAction}

/-- Each `m_ioc.stop()` still to come is followed by the join. -/
def Paired : List TimerAction → Prop
  | [] => True
  | .stopIoc id :: rest => .join id ∈ rest ∧ Paired rest
  | _ :: rest => Paired rest

theorem Paired.tail (h : Paired (a :: rest)) : Paired rest := by
  cases a with
  | stopIoc id => exact h.2
  | _ => exact h

/-- Where a timer has been stopped while its thread is in a handler, the thread is to be joined. -/
structure Joins (s : Timers Func) : Prop where
  running : ∀ id t, s.timer id = some t → t.handler ≠ none → t.m_timer_thread = .running
  join : ∀ id t, s.timer id = some t → t.stopped = true → t.handler ≠ none → .join id ∈ s.todo
  paired : Paired s.todo

/-- A timer changes, and the call goes on. -/
theorem Joins.set (hs : s.Joins) (hrunning : u.handler ≠ none → u.m_timer_thread = .running)
    (hjoin : u.stopped = true → u.handler ≠ none → .join id ∈ todo)
    (hothers : ∀ j, j ≠ id → .join j ∈ s.todo → .join j ∈ todo) (hpaired : Paired todo) :
    (s.set id u todo).Joins where
  running j t ht := by
    by_cases hj : j = id
    · subst hj
      obtain rfl := Option.some.inj (timer_set_self.symm.trans ht)
      exact hrunning
    · exact hs.running j t (timer_set_ne hj ▸ ht)
  join j t ht hstopped hhandler := by
    by_cases hj : j = id
    · subst hj
      obtain rfl := Option.some.inj (timer_set_self.symm.trans ht)
      exact hjoin hstopped hhandler
    · exact hothers j hj (hs.join j t (timer_set_ne hj ▸ ht) hstopped hhandler)
  paired := hpaired

/-- A change that neither the handler nor the join depends on. -/
theorem Joins.change (hs : s.Joins) (ht : s.timer id = some t) (hhandler : u.handler = t.handler)
    (hthread : u.m_timer_thread = t.m_timer_thread) (hstopped : u.stopped = t.stopped)
    (hkeep : ∀ j, .join j ∈ s.todo → .join j ∈ todo) (hpaired : Paired todo) :
    (s.set id u todo).Joins := by
  refine hs.set (fun h => ?_) (fun h h' => ?_) (fun j _ => hkeep j) hpaired
  · rw [hthread]
    exact hs.running id t ht (hhandler ▸ h)
  · exact hkeep id (hs.join id t ht (hstopped ▸ h) (hhandler ▸ h'))

theorem Joins.moved (hs : s.Joins) {other : TimerId} (ho : s.timer other = some t) :
    (s.moved other t).Joins :=
  hs.change ho rfl rfl rfl (fun _ h => h) hs.paired

theorem joins_of_perform (hs : s.Joins) (htodo : s.todo = a :: rest)
    (h : s.perform rest a = some s') : s'.Joins := by
  have hpaired := hs.paired
  rw [htodo] at hpaired
  -- an action that is not a join leaves the joins to be done
  have hkeep : ∀ {todo}, rest ⊆ todo → (∀ j, a ≠ .join j) → ∀ j, .join j ∈ s.todo →
      .join j ∈ todo := by
    intro todo hsub hne j hj
    rw [htodo] at hj
    exact hsub ((List.mem_cons.mp hj).resolve_left fun h => hne j h.symm)
  cases a with
  | start id =>
    simp only [perform, Option.bind_eq_bind, Option.bind_eq_some_iff, Option.some.injEq] at h
    obtain ⟨t, ht, rfl⟩ := h
    split
    · exact hs.change ht rfl rfl rfl (hkeep (List.Subset.refl _) (by simp)) hpaired
    · exact hs.change ht rfl rfl rfl (hkeep (by grind) (by simp)) hpaired
  | newThread id =>
    simp only [perform, Option.bind_eq_bind, Option.bind_eq_some_iff,
      Option.ite_none_right_eq_some, Option.some.injEq] at h
    obtain ⟨t, ht, hthread, rfl⟩ := h
    refine hs.set (fun _ => rfl) (fun hstopped hhandler => ?_)
      (fun j _ => hkeep (List.Subset.refl _) (by simp) j) hpaired
    have hrunning := hs.running id t ht hhandler
    cases hthread.symm.trans hrunning
  | expiresAfter id | asyncWait id =>
    simp only [perform, Option.bind_eq_bind, Option.bind_eq_some_iff, Option.some.injEq] at h
    obtain ⟨t, ht, rfl⟩ := h
    exact hs.change ht rfl rfl rfl (hkeep (List.Subset.refl _) (by simp)) hpaired
  | stop id =>
    simp only [perform, Option.bind_eq_bind, Option.bind_eq_some_iff, Option.some.injEq] at h
    obtain ⟨t, ht, rfl⟩ := h
    split
    · exact hs.change ht rfl rfl rfl (hkeep (by grind) (by simp)) ⟨.head _, hpaired⟩
    · exact hs.change ht rfl rfl rfl (hkeep (List.Subset.refl _) (by simp)) hpaired
  | stopIoc id =>
    simp only [perform, Option.bind_eq_bind, Option.bind_eq_some_iff, Option.some.injEq] at h
    obtain ⟨t, ht, rfl⟩ := h
    exact hs.set (hs.running id t ht) (fun _ _ => hpaired.1)
      (fun j _ => hkeep (List.Subset.refl _) (by simp) j) hpaired.2
  | join id =>
    simp only [perform, Option.bind_eq_bind, Option.bind_eq_some_iff,
      Option.ite_none_left_eq_some, Option.some.injEq] at h
    obtain ⟨t, ht, hthread, rfl⟩ := h
    have hhandler : t.handler = none := by
      by_contra hne
      exact hthread (hs.running id t ht hne)
    refine hs.set (fun hne => absurd hhandler hne) (fun _ hne => absurd hhandler hne)
      (fun j hne hj => ?_) hpaired
    rw [htodo] at hj
    exact (List.mem_cons.mp hj).resolve_left fun h => hne (TimerAction.join.inj h)
  | assign id other =>
    simp only [perform, Option.bind_eq_bind, Option.bind_eq_some_iff, Option.some.injEq] at h
    obtain ⟨t, ht, o, ho, rfl⟩ := h
    have hsub : rest ⊆ (if o.m_running then .start id :: rest else rest) := by grind
    have hpaired : Paired (if o.m_running then .start id :: rest else rest) := by
      split <;> exact hpaired
    exact (hs.moved ho).set (hs.running id t ht)
      (fun hstopped hhandler => hkeep hsub (by simp) id (hs.join id t ht hstopped hhandler))
      (fun j _ => hkeep hsub (by simp) j) hpaired

/-- The thread of a timer takes a handler only where the timer has not been stopped. -/
theorem joins_of_runStep {e : TimerThread.Event} (hs : s.Joins) (ht : s.timer id = some t)
    (h : t.runStep e = some u) : (s.set id u s.todo).Joins := by
  have hrunning := hs.running id t ht
  have hjoin := hs.join id t ht
  refine hs.set ?_ ?_ (fun _ _ h => h) hs.paired <;>
    rcases RepeatingTimer.runStep_cases h with ⟨-, -, -, rfl⟩ | ⟨ec, ready, hr, hst, -, -, rfl⟩ |
      ⟨ec, hh, rfl⟩ | ⟨hh, rfl⟩ | ⟨hh, rfl⟩ | ⟨-, -, hh, rfl⟩ <;>
    simp_all [RepeatingTimer.expiresAfter, RepeatingTimer.asyncWait]

/-- A call begins, and does not stop an `io_context` before it joins. -/
theorem Joins.begin (hs : s.Joins) (htodo : s.todo = []) (hpaired : Paired todo) :
    Joins { s with todo := todo } where
  running := hs.running
  join id t ht hstopped hhandler := by
    have hmem := hs.join id t ht hstopped hhandler
    rw [htodo] at hmem
    cases hmem
  paired := hpaired

theorem joins_step {e : Event Func} (h : s.step e = some s') (hs : s.Joins) : s'.Joins := by
  cases e with
  | construct id interval_seconds func =>
    simp only [step, Option.ite_none_right_eq_some, Option.some.injEq] at h
    obtain ⟨⟨htodo, -⟩, rfl⟩ := h
    exact hs.set (absurd rfl) (fun _ => absurd rfl) (fun j _ hj => htodo ▸ hj) trivial
  | start id =>
    simp only [step, Option.ite_none_right_eq_some, Option.some.injEq] at h
    obtain ⟨⟨htodo, -⟩, rfl⟩ := h
    exact hs.begin htodo trivial
  | stop id =>
    simp only [step, Option.ite_none_right_eq_some, Option.some.injEq] at h
    obtain ⟨⟨htodo, -⟩, rfl⟩ := h
    exact hs.begin htodo trivial
  | moveConstruct id other =>
    simp only [step] at h
    split at h
    · rename_i o htodo hid ho
      obtain rfl := Option.some.inj h
      refine (hs.moved ho).set (absurd rfl) (fun _ => absurd rfl) (fun j _ hj => ?_) ?_
      · rw [show (s.moved other o).todo = [] from htodo] at hj
        cases hj
      · split <;> trivial
    · cases h
  | moveAssign id other =>
    simp only [step, Option.ite_none_right_eq_some, Option.some.injEq] at h
    obtain ⟨⟨htodo, -⟩, rfl⟩ := h
    refine hs.begin htodo ?_
    split <;> trivial
  | advance =>
    simp only [step] at h
    cases htodo : s.todo with
    | nil => simp [htodo] at h
    | cons a rest =>
      rw [htodo] at h
      exact joins_of_perform hs htodo h
  | thread id e =>
    simp only [step, Option.bind_eq_bind, Option.bind_eq_some_iff, Option.some.injEq] at h
    obtain ⟨t, ht, u, hu, rfl⟩ := h
    exact joins_of_runStep hs ht hu

theorem joins_run {es : List (Event Func)} (h : run step {} es = some s) : s.Joins :=
  run_preserves (I := Joins) (fun _ _ _ hst hs => joins_step hst hs) h ⟨nofun, nofun, trivial⟩

/-! ## Silence -/

/-- The timer has been stopped, and these are the callbacks it has called. -/
structure Silent (id : TimerId) (called : List (Option Func)) (s : Timers Func) : Prop where
  isSome : (s.timer id).isSome = true
  stopped : ∀ t, s.timer id = some t → t.stopped = true
  handler : ∀ t, s.timer id = some t → t.handler = none
  called : ∀ t, s.timer id = some t → t.called = called

variable {called : List (Option Func)}

theorem Silent.set (hs : s.Silent id called)
    (hu : j = id → u.stopped = true ∧ u.handler = none ∧ u.called = called) :
    (s.set j u todo).Silent id called := by
  by_cases hj : j = id
  · subst hj
    obtain ⟨hstopped, hhandler, hcalled⟩ := hu rfl
    constructor <;> simp_all [timer_set_self]
  · have hsame : (s.set j u todo).timer id = s.timer id := timer_set_ne (Ne.symm hj)
    exact ⟨hsame ▸ hs.isSome, hsame ▸ hs.stopped, hsame ▸ hs.handler, hsame ▸ hs.called⟩

/-- A change that leaves the handler alone, and does not undo a stop. -/
theorem Silent.change (hs : s.Silent id called) (ht : s.timer j = some t)
    (hstopped : t.stopped = true → u.stopped = true) (hhandler : u.handler = t.handler)
    (hcalled : u.called = t.called) : (s.set j u todo).Silent id called := by
  refine hs.set ?_
  rintro rfl
  exact ⟨hstopped (hs.stopped t ht), hhandler.trans (hs.handler t ht),
    hcalled.trans (hs.called t ht)⟩

theorem Silent.moved (hs : s.Silent id called) {other : TimerId} (ho : s.timer other = some t) :
    (s.moved other t).Silent id called :=
  hs.change ho (fun h => h) rfl rfl

theorem silent_of_perform (hs : s.Silent id called) (h : s.perform rest a = some s') :
    s'.Silent id called := by
  cases a with
  | start j | expiresAfter j | asyncWait j | stop j =>
    simp only [perform, Option.bind_eq_bind, Option.bind_eq_some_iff, Option.some.injEq] at h
    obtain ⟨t, ht, rfl⟩ := h
    exact hs.change ht (fun h => h) rfl rfl
  | stopIoc j =>
    simp only [perform, Option.bind_eq_bind, Option.bind_eq_some_iff, Option.some.injEq] at h
    obtain ⟨t, ht, rfl⟩ := h
    exact hs.change ht (fun _ => rfl) rfl rfl
  | newThread j =>
    simp only [perform, Option.bind_eq_bind, Option.bind_eq_some_iff,
      Option.ite_none_right_eq_some, Option.some.injEq] at h
    obtain ⟨t, ht, -, rfl⟩ := h
    exact hs.change ht (fun h => h) rfl rfl
  | join j =>
    simp only [perform, Option.bind_eq_bind, Option.bind_eq_some_iff,
      Option.ite_none_left_eq_some, Option.some.injEq] at h
    obtain ⟨t, ht, -, rfl⟩ := h
    exact hs.change ht (fun h => h) rfl rfl
  | assign j other =>
    simp only [perform, Option.bind_eq_bind, Option.bind_eq_some_iff, Option.some.injEq] at h
    obtain ⟨t, ht, o, ho, rfl⟩ := h
    refine (hs.moved ho).set ?_
    rintro rfl
    exact ⟨hs.stopped t ht, hs.handler t ht, hs.called t ht⟩

/-- The thread of a timer that has been stopped only leaves `m_ioc.run()`. -/
theorem silent_of_runStep {e : TimerThread.Event} (hs : s.Silent id called)
    (ht : s.timer j = some t) (h : t.runStep e = some u) : (s.set j u todo).Silent id called := by
  refine hs.set ?_
  rintro rfl
  have hstopped := hs.stopped t ht
  have hhandler := hs.handler t ht
  have hcalled := hs.called t ht
  rcases RepeatingTimer.runStep_cases h with ⟨-, hst, -, -⟩ | ⟨ec, ready, -, hst, -, -, -⟩ |
    ⟨ec, hh, -⟩ | ⟨hh, -⟩ | ⟨hh, -⟩ | ⟨-, -, -, rfl⟩
  · cases hstopped.symm.trans hst
  · cases hstopped.symm.trans hst
  · cases hhandler.symm.trans hh
  · cases hhandler.symm.trans hh
  · cases hhandler.symm.trans hh
  · exact ⟨hstopped, hhandler, hcalled⟩

theorem silent_step {e : Event Func} (h : s.step e = some s') (hs : s.Silent id called) :
    s'.Silent id called := by
  have hnew : ∀ j, s.timer j = none → j ≠ id := by
    rintro j hj rfl
    have := hs.isSome
    simp [hj] at this
  cases e with
  | construct j interval_seconds func =>
    simp only [step, Option.ite_none_right_eq_some, Option.some.injEq] at h
    obtain ⟨⟨-, hj⟩, rfl⟩ := h
    exact hs.set fun heq => absurd heq (hnew j (by simpa using hj))
  | start j | stop j | moveAssign j other =>
    simp only [step, Option.ite_none_right_eq_some, Option.some.injEq] at h
    obtain ⟨-, rfl⟩ := h
    exact { hs with }
  | moveConstruct j other =>
    simp only [step] at h
    split at h
    · rename_i o htodo hj ho
      obtain rfl := Option.some.inj h
      exact (hs.moved ho).set fun heq => absurd heq (hnew j hj)
    · cases h
  | advance =>
    simp only [step] at h
    cases htodo : s.todo with
    | nil => simp [htodo] at h
    | cons a rest =>
      rw [htodo] at h
      exact silent_of_perform hs h
  | thread j e =>
    simp only [step, Option.bind_eq_bind, Option.bind_eq_some_iff, Option.some.injEq] at h
    obtain ⟨t, ht, u, hu, rfl⟩ := h
    exact silent_of_runStep hs ht hu

/-- Once a timer has been stopped and the call has returned, the timer never calls its callback
again, whatever is called then, `start` and moves included. Another timer that is moved from it
takes the callback, and may call it. -/
theorem silent_of_stopped {es fs : List (Event Func)} (h : run step {} es = some s)
    (htodo : s.todo = []) (ht : s.timer id = some t) (hstopped : t.stopped = true)
    (h' : run step s fs = some s') : ∃ u, s'.timer id = some u ∧ u.called = t.called := by
  have hjoins := joins_run h
  have hhandler : t.handler = none := by
    by_contra hne
    have hmem := hjoins.join id t ht hstopped hne
    rw [htodo] at hmem
    cases hmem
  have hs : s.Silent id t.called := by
    constructor <;> simp_all
  have hs' : s'.Silent id t.called :=
    run_preserves (I := Silent id t.called) (fun _ _ _ hst hs => silent_step hst hs) h' hs
  obtain ⟨u, hu⟩ := Option.isSome_iff_exists.mp hs'.isSome
  exact ⟨u, hu, hs'.called u hu⟩

/-- Stopped in its callback, and started again: the callback has been called once. -/
theorem silent_of_stopped_restarted : ∃ s s' u,
    run step ({} : Timers Unit) [.construct 0 1 (), .start 0, .advance, .advance, .advance,
      .advance, .thread 0 .expire, .thread 0 .callHandler, .thread 0 .handle, .stop 0, .advance,
      .advance, .thread 0 .handle, .thread 0 .handle, .thread 0 .runReturns, .advance] = some s ∧
    run step s [.start 0, .advance, .advance, .advance, .advance, .thread 0 .runReturns] =
      some s' ∧
    s'.timer 0 = some u ∧ u.m_running = true ∧ u.called = [some ()] := by
  have h : run step ({} : Timers Unit) [.construct 0 1 (), .start 0, .advance, .advance,
      .advance, .advance, .thread 0 .expire, .thread 0 .callHandler, .thread 0 .handle, .stop 0,
      .advance, .advance, .thread 0 .handle, .thread 0 .handle, .thread 0 .runReturns,
      .advance] = some _ := rfl
  obtain ⟨u, hu, hcalled⟩ := silent_of_stopped h rfl (rfl : Timers.timer _ 0 = some _) rfl
    (rfl : run step _ [.start 0, .advance, .advance, .advance, .advance,
      .thread 0 .runReturns] = some _)
  refine ⟨_, _, u, rfl, rfl, hu, ?_, hcalled⟩
  obtain rfl := Option.some.inj hu
  rfl

end NBRaft.Raft.Timers
