import NBRaft.Library.Transition
import Mathlib.Logic.Function.Basic
import Mathlib.Tactic.SplitIfs

/-!
# Repeating timers

`RepeatingTimer`: a flag, an `io_context` that can be stopped, a thread that runs it and the
waits of one timer. The calls of `start`, `stop` and the moves come one after the other, each as
the list of what it still has to do, and the thread of a timer takes its steps in between.
-/

namespace NBRaft.Raft

open Transition

inductive TimerThread where
  | none
  /-- In `m_ioc.run()`. -/
  | running
  /-- Out of it, and to be joined. -/
  | returned
  deriving DecidableEq, Repr

/-- Where `handle_timer` is. -/
inductive TimerHandler where
  | entered (ec : Bool)
  | calling
  | waiting
  deriving DecidableEq, Repr

/-- `called` is the history of the callbacks called. -/
structure RepeatingTimer (Func : Type) where
  m_interval : Int
  /-- `none` once it has been moved from. -/
  m_callback : Option Func
  m_running : Bool := false
  /-- Whether `m_ioc` has been stopped. -/
  stopped : Bool := false
  m_timer_thread : TimerThread := .none
  /-- The waits on `m_timer`. -/
  waits : Nat := 0
  /-- The waits that are over, with their error codes; their handlers are to be called. -/
  ready : List Bool := []
  handler : Option TimerHandler := none
  called : List (Option Func) := []

/-- What the thread of a timer and the clock do. -/
inductive TimerThread.Event where
  | expire
  | callHandler
  | handle
  | runReturns
  deriving DecidableEq, Repr

namespace RepeatingTimer

variable {Func : Type}

/-- `m_timer.expires_after`; it cancels the waits. -/
def expiresAfter (t : RepeatingTimer Func) : RepeatingTimer Func :=
  { t with ready := t.ready ++ List.replicate t.waits true, waits := 0 }

def asyncWait (t : RepeatingTimer Func) : RepeatingTimer Func := { t with waits := t.waits + 1 }

/-- The next step of `handle_timer`. -/
def handle (t : RepeatingTimer Func) : Option (RepeatingTimer Func) :=
  match t.handler with
  | none => none
  | some (.entered ec) =>
    some { t with handler := if !ec && t.m_running then some .calling else none }
  | some .calling => some { t with
      called := t.called ++ [t.m_callback]
      handler := some .waiting }
  | some .waiting => some { t.expiresAfter.asyncWait with handler := none }

/-- A step of the thread in `m_ioc.run()`; stopped, it does not take another handler. -/
def runStep (t : RepeatingTimer Func) : TimerThread.Event → Option (RepeatingTimer Func)
  | .expire =>
    if t.m_timer_thread = .running ∧ t.stopped = false ∧ 0 < t.waits then
      some { t with ready := t.ready ++ List.replicate t.waits false, waits := 0 }
    else none
  | .callHandler =>
    match t.ready with
    | ec :: ready =>
      if t.m_timer_thread = .running ∧ t.stopped = false ∧ t.handler = none then
        some { t with ready := ready, handler := some (.entered ec) }
      else none
    | [] => none
  | .handle => t.handle
  | .runReturns =>
    if t.m_timer_thread = .running ∧ t.stopped = true ∧ t.handler = none then
      some { t with m_timer_thread := .returned }
    else none

/-! ## What the phases of a timer look like -/

/-- The waits and handlers that lead to the next call of the callback. -/
def armed (t : RepeatingTimer Func) : Nat := t.waits + t.ready.length + t.handler.toList.length

/-- What a timer that says it runs should be like. -/
structure Runs (t : RepeatingTimer Func) : Prop where
  stopped : t.stopped = false
  thread : t.m_timer_thread = .running
  armed : t.armed = 1

/-- It runs, and no wait of it was cancelled. -/
structure Firing (t : RepeatingTimer Func) : Prop extends t.Runs where
  m_running : t.m_running = true
  ready : true ∉ t.ready
  entered : t.handler ≠ some (.entered true)

/-- It does not run; only after a stop waits can be left. -/
structure Resting (t : RepeatingTimer Func) : Prop where
  m_running : t.m_running = false
  thread : t.m_timer_thread = .none
  handler : t.handler = none
  fresh : t.stopped = false → t.armed = 0

def Idle (t : RepeatingTimer Func) : Prop := t.Firing ∨ t.Resting

/-- In `start`, with or without its thread. -/
structure Starting (thread : TimerThread) (t : RepeatingTimer Func) : Prop where
  m_running : t.m_running = true
  stopped : t.stopped = false
  thread : t.m_timer_thread = thread
  armed : t.armed = 0

/-- In `stop`, before and after `m_ioc.stop()`. -/
structure Stopping (stopped : Bool) (t : RepeatingTimer Func) : Prop where
  m_running : t.m_running = false
  stopped : t.stopped = stopped
  thread : t.m_timer_thread ≠ .none
  returned : t.m_timer_thread = .returned → t.handler = none

section

variable {t u : RepeatingTimer Func} {e : TimerThread.Event}

/-- What the thread of a timer can do. -/
theorem runStep_cases (h : t.runStep e = some u) :
    (t.m_timer_thread = .running ∧ t.stopped = false ∧ 0 < t.waits ∧
      u = { t with ready := t.ready ++ List.replicate t.waits false, waits := 0 }) ∨
    (∃ ec ready, t.m_timer_thread = .running ∧ t.stopped = false ∧ t.handler = none ∧
      t.ready = ec :: ready ∧ u = { t with ready := ready, handler := some (.entered ec) }) ∨
    (∃ ec, t.handler = some (.entered ec) ∧
      u = { t with handler := if !ec && t.m_running then some .calling else none }) ∨
    (t.handler = some .calling ∧
      u = { t with called := t.called ++ [t.m_callback], handler := some .waiting }) ∨
    (t.handler = some .waiting ∧ u = { t.expiresAfter.asyncWait with handler := none }) ∨
    (t.m_timer_thread = .running ∧ t.stopped = true ∧ t.handler = none ∧
      u = { t with m_timer_thread := .returned }) := by
  cases e with
  | expire =>
    simp only [runStep, Option.ite_none_right_eq_some, Option.some.injEq] at h
    obtain ⟨⟨hthread, hstopped, hwaits⟩, rfl⟩ := h
    exact .inl ⟨hthread, hstopped, hwaits, rfl⟩
  | callHandler =>
    unfold runStep at h
    cases hready : t.ready with
    | nil => simp [hready] at h
    | cons ec ready =>
      simp only [hready, Option.ite_none_right_eq_some, Option.some.injEq] at h
      obtain ⟨⟨hthread, hstopped, hhandler⟩, rfl⟩ := h
      exact .inr (.inl ⟨ec, ready, hthread, hstopped, hhandler, rfl, rfl⟩)
  | handle =>
    simp only [runStep, handle] at h
    cases hh : t.handler with
    | none => simp [hh] at h
    | some stage =>
      cases stage with
      | entered ec =>
        simp only [hh, Option.some.injEq] at h
        exact .inr (.inr (.inl ⟨ec, rfl, h.symm⟩))
      | calling =>
        simp only [hh, Option.some.injEq] at h
        exact .inr (.inr (.inr (.inl ⟨rfl, h.symm⟩)))
      | waiting =>
        simp only [hh, Option.some.injEq] at h
        exact .inr (.inr (.inr (.inr (.inl ⟨rfl, h.symm⟩))))
  | runReturns =>
    simp only [runStep, Option.ite_none_right_eq_some, Option.some.injEq] at h
    obtain ⟨⟨hthread, hstopped, hhandler⟩, rfl⟩ := h
    exact .inr (.inr (.inr (.inr (.inr ⟨hthread, hstopped, hhandler, rfl⟩))))

/-- The thread leaves the flag and the `io_context` alone. -/
theorem runStep_frame (h : t.runStep e = some u) :
    u.m_running = t.m_running ∧ u.stopped = t.stopped := by
  rcases runStep_cases h with ⟨-, -, -, rfl⟩ | ⟨ec, ready, -, -, -, -, rfl⟩ | ⟨ec, -, rfl⟩ |
    ⟨-, rfl⟩ | ⟨-, rfl⟩ | ⟨-, -, -, rfl⟩ <;> exact ⟨rfl, rfl⟩

/-- Without a thread and outside a handler nothing happens. -/
theorem runStep_of_no_thread (h : t.runStep e = some u) (hthread : t.m_timer_thread ≠ .running)
    (hhandler : t.handler = none) : False := by
  rcases runStep_cases h with ⟨hr, -⟩ | ⟨ec, ready, hr, -⟩ | ⟨ec, hh, -⟩ |
    ⟨hh, -⟩ | ⟨hh, -⟩ | ⟨hr, -⟩
  · exact hthread hr
  · exact hthread hr
  · cases hhandler.symm.trans hh
  · cases hhandler.symm.trans hh
  · cases hhandler.symm.trans hh
  · exact hthread hr

theorem armed_eq_zero : t.armed = 0 ↔ t.waits = 0 ∧ t.ready = [] ∧ t.handler = none := by
  cases hh : t.handler <;> simp [armed, hh]

/-- A timer that was not armed does not call its callback. -/
theorem runStep_of_not_armed (h : t.runStep e = some u) (harmed : t.armed = 0)
    (hstopped : t.stopped = false) : False := by
  obtain ⟨hwaits, hready, hhandler⟩ := armed_eq_zero.mp harmed
  rcases runStep_cases h with ⟨-, -, hpos, -⟩ | ⟨ec, ready, -, -, -, hr, -⟩ | ⟨ec, hh, -⟩ |
    ⟨hh, -⟩ | ⟨hh, -⟩ | ⟨-, hst, -⟩
  · omega
  · cases hready.symm.trans hr
  · cases hhandler.symm.trans hh
  · cases hhandler.symm.trans hh
  · cases hhandler.symm.trans hh
  · cases hstopped.symm.trans hst

/-- The wait, the call and the next wait: a timer that fires stays armed once. -/
theorem firing_runStep (h : t.runStep e = some u) (ht : t.Firing) : u.Firing := by
  have harmed := ht.armed
  unfold armed at harmed
  rcases runStep_cases h with ⟨-, -, hpos, rfl⟩ | ⟨ec, ready, -, -, hh, hr, rfl⟩ |
    ⟨ec, hh, rfl⟩ | ⟨hh, rfl⟩ | ⟨hh, rfl⟩ | ⟨-, hst, -⟩
  · refine ⟨⟨ht.stopped, ht.thread, ?_⟩, ht.m_running, ?_, ht.entered⟩
    · simp only [armed, List.length_append, List.length_replicate]
      omega
    · simpa [List.mem_replicate] using ht.ready
  · have hec : ec = false := by
      have := ht.ready
      simp only [hr, List.mem_cons, not_or] at this
      simpa using this.1
    refine ⟨⟨ht.stopped, ht.thread, ?_⟩, ht.m_running, ?_, by simp [hec]⟩
    · simp only [hr, hh, List.length_cons, Option.toList_none, List.length_nil] at harmed
      simp only [armed, Option.toList_some, List.length_singleton]
      omega
    · intro hmem
      exact ht.ready (hr ▸ List.mem_cons_of_mem _ hmem)
  · have hec : ec = false := by
      have := ht.entered
      simpa [hh] using this
    rw [if_pos (by simp [hec, ht.m_running])]
    refine ⟨⟨ht.stopped, ht.thread, ?_⟩, ht.m_running, ht.ready, by simp⟩
    simpa [armed, hh] using harmed
  · refine ⟨⟨ht.stopped, ht.thread, ?_⟩, ht.m_running, ht.ready, by simp⟩
    simpa [armed, hh] using harmed
  · simp only [hh, Option.toList_some, List.length_singleton] at harmed
    have hwaits : t.waits = 0 := by omega
    refine ⟨⟨ht.stopped, ht.thread, ?_⟩, ht.m_running, ?_, by simp⟩
    · simp only [armed, expiresAfter, asyncWait, hwaits, List.replicate_zero, List.append_nil,
        Option.toList_none, List.length_nil]
      omega
    · simpa [expiresAfter, asyncWait, hwaits] using ht.ready
  · cases ht.stopped.symm.trans hst

theorem stopping_runStep {stopped : Bool} (h : t.runStep e = some u) (ht : t.Stopping stopped) :
    u.Stopping stopped := by
  obtain ⟨hrunning, hstopped⟩ := runStep_frame h
  have hthread : t.m_timer_thread = .running := by
    refine Classical.byContradiction fun hne => ?_
    cases hthread : t.m_timer_thread with
    | none => exact ht.thread hthread
    | running => exact hne hthread
    | returned => exact runStep_of_no_thread h hne (ht.returned hthread)
  refine ⟨hrunning.trans ht.m_running, hstopped.trans ht.stopped, ?_, ?_⟩ <;>
    rcases runStep_cases h with ⟨-, -, -, rfl⟩ | ⟨ec, ready, -, -, -, -, rfl⟩ | ⟨ec, -, rfl⟩ |
      ⟨-, rfl⟩ | ⟨-, rfl⟩ | ⟨-, -, hh, rfl⟩ <;>
    simp_all [expiresAfter, asyncWait]

theorem Starting.expiresAfter (ht : t.Starting .running) : t.expiresAfter.Starting .running := by
  obtain ⟨hwaits, hready, hhandler⟩ := armed_eq_zero.mp ht.armed
  refine ⟨ht.m_running, ht.stopped, ht.thread, ?_⟩
  simp [RepeatingTimer.armed, RepeatingTimer.expiresAfter, hwaits, hready, hhandler]

/-- The wait that `start` ends with arms the timer. -/
theorem Starting.asyncWait (ht : t.Starting .running) : t.asyncWait.Firing := by
  obtain ⟨hwaits, hready, hhandler⟩ := armed_eq_zero.mp ht.armed
  refine ⟨⟨ht.stopped, ht.thread, ?_⟩, ht.m_running, ?_, ?_⟩
  · simp [RepeatingTimer.armed, RepeatingTimer.asyncWait, hwaits, hready, hhandler]
  · simp [RepeatingTimer.asyncWait, hready]
  · simp [RepeatingTimer.asyncWait, hhandler]

end

end RepeatingTimer

abbrev TimerId := Nat

/-- What a call still has to do. -/
inductive TimerAction where
  /-- `m_running.exchange(true)`, and the rest of `start` unless it was running. -/
  | start (id : TimerId)
  | newThread (id : TimerId)
  | expiresAfter (id : TimerId)
  | asyncWait (id : TimerId)
  /-- `m_running.exchange(false)`, and the rest of `stop` if it was running. -/
  | stop (id : TimerId)
  | stopIoc (id : TimerId)
  | join (id : TimerId)
  /-- `operator=`, after its `stop`. -/
  | assign (id other : TimerId)
  deriving DecidableEq, Repr

structure Timers (Func : Type) where
  timer : TimerId → Option (RepeatingTimer Func) := fun _ => none
  todo : List TimerAction := []

namespace Timers

variable {Func : Type}

inductive Event (Func : Type) where
  | construct (id : TimerId) (interval_seconds : Int) (func : Func)
  | start (id : TimerId)
  | stop (id : TimerId)
  /-- The constructor from `other`. -/
  | moveConstruct (id other : TimerId)
  /-- The assignment from `other`. -/
  | moveAssign (id other : TimerId)
  | advance
  | thread (id : TimerId) (e : TimerThread.Event)

def set (id : TimerId) (t : RepeatingTimer Func) (todo : List TimerAction) (s : Timers Func) :
    Timers Func :=
  { timer := Function.update s.timer id (some t), todo := todo }

/-- The source of a move, without its callback. The move is atomic here, also where the thread of
this timer calls the callback at the time. -/
def moved (other : TimerId) (t : RepeatingTimer Func) (s : Timers Func) : Timers Func :=
  s.set other { t with m_callback := none } s.todo

/-- The next action of the call in progress. -/
def perform (s : Timers Func) (rest : List TimerAction) : TimerAction → Option (Timers Func)
  | .start id => do
    let t ← s.timer id
    some (s.set id { t with m_running := true }
      (if t.m_running then rest else .newThread id :: .expiresAfter id :: .asyncWait id :: rest))
  | .newThread id => do
    let t ← s.timer id
    -- a thread that is still joinable must not be assigned to
    if t.m_timer_thread = .none then
      some (s.set id { t with m_timer_thread := .running } rest)
    else none
  | .expiresAfter id => do
    let t ← s.timer id
    some (s.set id t.expiresAfter rest)
  | .asyncWait id => do
    let t ← s.timer id
    some (s.set id t.asyncWait rest)
  | .stop id => do
    let t ← s.timer id
    some (s.set id { t with m_running := false }
      (if t.m_running then .stopIoc id :: .join id :: rest else rest))
  | .stopIoc id => do
    let t ← s.timer id
    some (s.set id { t with stopped := true } rest)
  | .join id => do
    let t ← s.timer id
    if t.m_timer_thread = .running then none
    else some (s.set id { t with m_timer_thread := .none } rest)
  | .assign id other => do
    let t ← s.timer id
    let o ← s.timer other
    some ((s.moved other o).set id { t with
      m_interval := o.m_interval
      m_callback := o.m_callback
      m_running := o.m_running } (if o.m_running then .start id :: rest else rest))

def step (s : Timers Func) : Event Func → Option (Timers Func)
  | .construct id interval_seconds func =>
    if s.todo = [] ∧ (s.timer id).isNone then
      some (s.set id { m_interval := interval_seconds, m_callback := some func } [])
    else none
  | .start id =>
    if s.todo = [] ∧ (s.timer id).isSome then some { s with todo := [.start id] } else none
  | .stop id =>
    if s.todo = [] ∧ (s.timer id).isSome then some { s with todo := [.stop id] } else none
  | .moveConstruct id other =>
    match s.todo, s.timer id, s.timer other with
    | [], none, some o => some ((s.moved other o).set id {
        m_interval := o.m_interval
        m_callback := o.m_callback
        m_running := o.m_running } (if o.m_running then [.start id] else []))
    | _, _, _ => none
  | .moveAssign id other =>
    if s.todo = [] ∧ (s.timer id).isSome ∧ (s.timer other).isSome then
      some { s with todo := if id = other then [] else [.stop id, .assign id other] }
    else none
  | .advance =>
    match s.todo with
    | [] => none
    | a :: rest => s.perform rest a
  | .thread id e => do
    let t ← s.timer id
    let t ← t.runStep e
    some (s.set id t s.todo)

/-- Between the calls, what says that it runs does run. -/
def Runs (s : Timers Func) : Prop :=
  s.todo = [] → ∀ id t, s.timer id = some t → t.m_running = true → t.Runs

def Rests (id : TimerId) (s : Timers Func) : Prop :=
  ∀ t, s.timer id = some t → t.m_running = false

/-- No start after a stop, and no move from a timer that runs. -/
def Allowed (s : Timers Func) : Event Func → Prop
  | .start id => ∀ t, s.timer id = some t → t.m_running = false → t.stopped = false
  | .moveConstruct _ other => s.Rests other
  | .moveAssign id other => id ≠ other → s.Rests other
  | _ => True

/-! ## What the calls keep -/

/-- The phase that a call in progress is to find its timer in. -/
def Phase (t : RepeatingTimer Func) : List TimerAction → Prop
  | .start _ :: _ => t.Idle ∧ (t.m_running = false → t.stopped = false)
  | .newThread _ :: _ => t.Starting .none
  | .expiresAfter _ :: _ | .asyncWait _ :: _ => t.Starting .running
  | .stopIoc _ :: _ => t.Stopping false
  | .join _ :: _ => t.Stopping true
  | .assign _ _ :: _ => t.Resting
  | .stop _ :: _ | [] => t.Idle

/-- What is left after a `stop`: nothing, or an assignment from a timer that does not run. -/
inductive AfterStop (s : Timers Func) (id : TimerId) : List TimerAction → Prop where
  | done : AfterStop s id []
  | assign (other : TimerId) : other ≠ id → s.Rests other → AfterStop s id [.assign id other]

/-- What is left of a call. -/
inductive Program (s : Timers Func) (id : TimerId) : List TimerAction → Prop where
  | start : Program s id [.start id]
  | newThread : Program s id [.newThread id, .expiresAfter id, .asyncWait id]
  | expiresAfter : Program s id [.expiresAfter id, .asyncWait id]
  | asyncWait : Program s id [.asyncWait id]
  | stop {rest} : AfterStop s id rest → Program s id (.stop id :: rest)
  | stopIoc {rest} : AfterStop s id rest → Program s id (.stopIoc id :: .join id :: rest)
  | join {rest} : AfterStop s id rest → Program s id (.join id :: rest)
  | afterStop {rest} : AfterStop s id rest → Program s id rest

/-- One timer is in the phase of the call in progress, and the others are idle. -/
structure Sound (s : Timers Func) (id : TimerId) : Prop where
  program : s.Program id s.todo
  phase : ∀ t, s.timer id = some t → Phase t s.todo
  others : ∀ j t, j ≠ id → s.timer j = some t → t.Idle

section

variable {s s' : Timers Func} {id : TimerId} {t u : RepeatingTimer Func}
  {todo rest : List TimerAction} {a : TimerAction} {e : TimerThread.Event}

theorem timer_set_self : (s.set id t todo).timer id = some t := Function.update_self ..

theorem timer_set_ne {j : TimerId} (h : j ≠ id) : (s.set id t todo).timer j = s.timer j :=
  Function.update_of_ne h ..

/-- The thread of a timer keeps it in its phase. -/
theorem phase_runStep (h : t.runStep e = some u) (ht : Phase t todo) : Phase u todo := by
  have hidle : t.Idle → u.Idle := by
    rintro (ht | ht)
    · exact .inl (RepeatingTimer.firing_runStep h ht)
    · exact (RepeatingTimer.runStep_of_no_thread h (by simp [ht.thread]) ht.handler).elim
  obtain ⟨hrunning, hstopped⟩ := RepeatingTimer.runStep_frame h
  cases todo with
  | nil => exact hidle ht
  | cons a rest =>
    cases a with
    | start id => exact ⟨hidle ht.1, by rw [hrunning, hstopped]; exact ht.2⟩
    | newThread id => exact (RepeatingTimer.runStep_of_not_armed h ht.armed ht.stopped).elim
    | expiresAfter id => exact (RepeatingTimer.runStep_of_not_armed h ht.armed ht.stopped).elim
    | asyncWait id => exact (RepeatingTimer.runStep_of_not_armed h ht.armed ht.stopped).elim
    | stop id => exact hidle ht
    | stopIoc id => exact RepeatingTimer.stopping_runStep h ht
    | join id => exact RepeatingTimer.stopping_runStep h ht
    | assign id other =>
      exact (RepeatingTimer.runStep_of_no_thread h (by simp [ht.thread]) ht.handler).elim

/-- What is left of a call stays a program as long as the timers at rest stay so. -/
theorem AfterStop.mono (h : s.AfterStop id rest)
    (hrests : ∀ j, j ≠ id → s.Rests j → s'.Rests j) : s'.AfterStop id rest := by
  cases h with
  | done => exact .done
  | assign other hne hother => exact .assign other hne (hrests other hne hother)

theorem Program.mono (h : s.Program id todo)
    (hrests : ∀ j, j ≠ id → s.Rests j → s'.Rests j) : s'.Program id todo := by
  cases h with
  | start => exact .start
  | newThread => exact .newThread
  | expiresAfter => exact .expiresAfter
  | asyncWait => exact .asyncWait
  | stop h => exact .stop (h.mono hrests)
  | stopIoc h => exact .stopIoc (h.mono hrests)
  | join h => exact .join (h.mono hrests)
  | afterStop h => exact .afterStop (h.mono hrests)

theorem rests_set_ne (j : TimerId) (hne : j ≠ id) (h : s.Rests j) :
    (s.set id t todo).Rests j := by
  intro u hu
  exact h u (timer_set_ne hne ▸ hu)

/-- An action on the timer of the call in progress. -/
theorem Sound.set (hs : s.Sound id) (hprogram : s.Program id rest) (hphase : Phase t rest) :
    (s.set id t rest).Sound id where
  program := hprogram.mono rests_set_ne
  phase u hu := by
    obtain rfl := Option.some.inj (timer_set_self.symm.trans hu)
    exact hphase
  others j u hj hu := hs.others j u hj (timer_set_ne hj ▸ hu)

/-- A timer may change within its phase. -/
theorem Sound.change (hs : s.Sound id) {j : TimerId} (hj : s.timer j = some t)
    (hrunning : u.m_running = t.m_running) (hphase : ∀ todo, Phase t todo → Phase u todo) :
    (s.set j u s.todo).Sound id where
  program := by
    refine hs.program.mono fun k _ hk v hv => ?_
    by_cases hkj : k = j
    · subst hkj
      obtain rfl := Option.some.inj (timer_set_self.symm.trans hv)
      exact hrunning.trans (hk t hj)
    · exact hk v (timer_set_ne hkj ▸ hv)
  phase v hv := by
    by_cases hij : id = j
    · subst hij
      obtain rfl := Option.some.inj (timer_set_self.symm.trans hv)
      exact hphase s.todo (hs.phase t hj)
    · exact hs.phase v (timer_set_ne hij ▸ hv)
  others k v hk hv := by
    by_cases hkj : k = j
    · subst hkj
      obtain rfl := Option.some.inj (timer_set_self.symm.trans hv)
      exact hphase [] (hs.others k t hk hj)
    · exact hs.others k v hk (timer_set_ne hkj ▸ hv)

/-- Another timer may take the callback. -/
theorem phase_moved (h : Phase t todo) : Phase { t with m_callback := none } todo := by
  have hidle : t.Idle → RepeatingTimer.Idle { t with m_callback := none } :=
    fun h => h.imp (fun h => { h with }) fun h => { h with }
  cases todo with
  | nil => exact hidle h
  | cons a rest =>
    cases a with
    | start id => exact ⟨hidle h.1, h.2⟩
    | newThread id => exact { h with }
    | expiresAfter id => exact { h with }
    | asyncWait id => exact { h with }
    | stop id => exact hidle h
    | stopIoc id => exact { h with }
    | join id => exact { h with }
    | assign id other => exact { h with }

theorem Sound.moved (hs : s.Sound id) {other : TimerId} (ho : s.timer other = some t) :
    (s.moved other t).Sound id :=
  hs.change ho rfl fun _ => phase_moved

theorem AfterStop.phase (h : s.AfterStop id rest) (ht : t.Resting) : Phase t rest := by
  cases h with
  | done => exact .inr ht
  | assign other _ _ => exact ht

/-- Each action of a call leads its timer to the phase that the next one needs. -/
theorem sound_of_perform (hs : s.Sound id) (htodo : s.todo = a :: rest)
    (h : s.perform rest a = some s') : s'.Sound id := by
  have hprogram := hs.program
  have hphase := hs.phase
  rw [htodo] at hprogram hphase
  cases hprogram with
  | start =>
    simp only [perform, Option.bind_eq_bind, Option.bind_eq_some_iff, Option.some.injEq] at h
    obtain ⟨t, ht, rfl⟩ := h
    obtain ⟨hidle, hfresh⟩ := hphase t ht
    rcases hidle with hf | hr
    · rw [if_pos hf.m_running]
      exact hs.set (.afterStop .done) (.inl { hf with m_running := rfl })
    · rw [if_neg (by simp [hr.m_running])]
      have hstopped := hfresh hr.m_running
      exact hs.set .newThread ⟨rfl, hstopped, hr.thread, hr.fresh hstopped⟩
  | newThread =>
    simp only [perform, Option.bind_eq_bind, Option.bind_eq_some_iff,
      Option.ite_none_right_eq_some, Option.some.injEq] at h
    obtain ⟨t, ht, -, rfl⟩ := h
    exact hs.set .expiresAfter { hphase t ht with thread := rfl }
  | expiresAfter =>
    simp only [perform, Option.bind_eq_bind, Option.bind_eq_some_iff, Option.some.injEq] at h
    obtain ⟨t, ht, rfl⟩ := h
    exact hs.set .asyncWait (RepeatingTimer.Starting.expiresAfter (hphase t ht))
  | asyncWait =>
    simp only [perform, Option.bind_eq_bind, Option.bind_eq_some_iff, Option.some.injEq] at h
    obtain ⟨t, ht, rfl⟩ := h
    exact hs.set (.afterStop .done) (.inl (RepeatingTimer.Starting.asyncWait (hphase t ht)))
  | stop hrest =>
    simp only [perform, Option.bind_eq_bind, Option.bind_eq_some_iff, Option.some.injEq] at h
    obtain ⟨t, ht, rfl⟩ := h
    rcases hphase t ht with hf | hr
    · rw [if_pos hf.m_running]
      exact hs.set (.stopIoc hrest) ⟨rfl, hf.stopped, by simp [hf.thread], by simp [hf.thread]⟩
    · rw [if_neg (by simp [hr.m_running])]
      exact hs.set (.afterStop hrest) (hrest.phase { hr with m_running := rfl })
  | stopIoc hrest =>
    simp only [perform, Option.bind_eq_bind, Option.bind_eq_some_iff, Option.some.injEq] at h
    obtain ⟨t, ht, rfl⟩ := h
    exact hs.set (.join hrest) { hphase t ht with stopped := rfl }
  | join hrest =>
    simp only [perform, Option.bind_eq_bind, Option.bind_eq_some_iff,
      Option.ite_none_left_eq_some, Option.some.injEq] at h
    obtain ⟨t, ht, hthread, rfl⟩ := h
    have hjoining : t.Stopping true := hphase t ht
    have hreturned : t.m_timer_thread = .returned := by
      cases hth : t.m_timer_thread with
      | none => exact absurd hth hjoining.thread
      | running => exact absurd hth hthread
      | returned => rfl
    refine hs.set (.afterStop hrest) (hrest.phase ⟨hjoining.m_running, rfl,
      hjoining.returned hreturned, fun hst => ?_⟩)
    cases hst.symm.trans hjoining.stopped
  | afterStop hrest =>
    cases hrest with
    | assign other _ hother =>
      simp only [perform, Option.bind_eq_bind, Option.bind_eq_some_iff, Option.some.injEq] at h
      obtain ⟨t, ht, o, ho, rfl⟩ := h
      rw [if_neg (by simp [hother o ho])]
      have hr : t.Resting := hphase t ht
      exact (hs.moved ho).set (.afterStop .done) (.inr { hr with m_running := hother o ho })

/-- Between the calls all timers are idle. -/
theorem Sound.idle (hs : s.Sound id) (htodo : s.todo = []) {j : TimerId}
    (hj : s.timer j = some t) : t.Idle := by
  by_cases hji : j = id
  · subst hji
    have := hs.phase t hj
    rwa [htodo] at this
  · exact hs.others j t hji hj

/-- Between the calls any timer's call can begin. -/
theorem Sound.begin (hs : s.Sound id) (htodo : s.todo = []) (j : TimerId)
    (hprogram : s.Program j todo) (hphase : ∀ t, s.timer j = some t → t.Idle → Phase t todo) :
    Sound { s with todo := todo } j where
  program := hprogram.mono fun _ _ h => h
  phase t ht := hphase t ht (hs.idle htodo ht)
  others _ _ _ := hs.idle htodo

theorem sound_step {e : Event Func} (h : s.step e = some s') (he : s.Allowed e)
    (hs : ∃ id, s.Sound id) : ∃ id, s'.Sound id := by
  obtain ⟨id₀, hs⟩ := hs
  cases e with
  | construct id interval_seconds func =>
    simp only [step, Option.ite_none_right_eq_some, Option.some.injEq] at h
    obtain ⟨⟨htodo, -⟩, rfl⟩ := h
    have hs := hs.begin htodo id (.afterStop .done) fun t _ ht => ht
    exact ⟨id, hs.set (.afterStop .done) (.inr ⟨rfl, rfl, rfl, fun _ => rfl⟩)⟩
  | start id =>
    simp only [step, Option.ite_none_right_eq_some, Option.some.injEq] at h
    obtain ⟨⟨htodo, -⟩, rfl⟩ := h
    exact ⟨id, hs.begin htodo id .start fun t ht hidle => ⟨hidle, he t ht⟩⟩
  | stop id =>
    simp only [step, Option.ite_none_right_eq_some, Option.some.injEq] at h
    obtain ⟨⟨htodo, -⟩, rfl⟩ := h
    exact ⟨id, hs.begin htodo id (.stop .done) fun t _ hidle => hidle⟩
  | moveConstruct id other =>
    simp only [step] at h
    split at h
    · rename_i o htodo hid ho
      obtain rfl := Option.some.inj h
      rw [if_neg (by simp [he o ho])]
      have hs := (hs.begin htodo id (.afterStop .done) fun t _ ht => ht).moved ho
      exact ⟨id, hs.set (.afterStop .done) (.inr ⟨he o ho, rfl, rfl, fun _ => rfl⟩)⟩
    · cases h
  | moveAssign id other =>
    simp only [step, Option.ite_none_right_eq_some, Option.some.injEq] at h
    obtain ⟨⟨htodo, -⟩, rfl⟩ := h
    by_cases hid : id = other
    · rw [if_pos hid]
      exact ⟨id, hs.begin htodo id (.afterStop .done) fun t _ hidle => hidle⟩
    · rw [if_neg hid]
      exact ⟨id, hs.begin htodo id (.stop (.assign other (Ne.symm hid) (he hid)))
        fun t _ hidle => hidle⟩
  | advance =>
    simp only [step] at h
    cases htodo : s.todo with
    | nil => simp [htodo] at h
    | cons a rest =>
      rw [htodo] at h
      exact ⟨id₀, sound_of_perform hs htodo h⟩
  | thread id e =>
    simp only [step, Option.bind_eq_bind, Option.bind_eq_some_iff, Option.some.injEq] at h
    obtain ⟨t, ht, u, hu, rfl⟩ := h
    exact ⟨id₀, hs.change ht (RepeatingTimer.runStep_frame hu).1 fun _ => phase_runStep hu⟩

end

/-- Whatever the calls, and whatever the threads do in between: as long as no timer is started
after a stop and none is moved from while it runs, every timer that says it runs does run
whenever no call is in progress. -/
theorem runs_of_allowed (es : List (Event Func)) (s : Timers Func)
    (h : run step {} es = some s) (hes : Along step Allowed {} es) : s.Runs := by
  have hsound : ∃ id, s.Sound id := by
    refine run_preserves_along (I := fun s => ∃ id, s.Sound id) (fun _ _ _ => sound_step) h hes ?_
    exact ⟨0, ⟨.afterStop .done, fun _ ht => (nomatch ht), fun _ _ _ ht => (nomatch ht)⟩⟩
  obtain ⟨id, hs⟩ := hsound
  intro htodo j t ht hrunning
  rcases hs.idle htodo ht with hf | hr
  · exact hf.toRuns
  · cases hrunning.symm.trans hr.m_running

/-- A timer that is started fires. -/
theorem runs_of_allowed_started :
    ∃ s, run step ({} : Timers Unit) [.construct 0 1 (), .start 0, .advance, .advance, .advance,
        .advance, .thread 0 .expire, .thread 0 .callHandler] = some s ∧ s.Runs := by
  have h : run step ({} : Timers Unit) [.construct 0 1 (), .start 0, .advance, .advance, .advance,
      .advance, .thread 0 .expire, .thread 0 .callHandler] = some _ := rfl
  refine ⟨_, h, runs_of_allowed _ _ h ⟨trivial, fun s hs => ⟨fun t ht _ => ?_, fun _ _ => ?_⟩⟩⟩
  · obtain rfl := Option.some.inj hs
    obtain rfl := Option.some.inj ht
    rfl
  · exact ⟨trivial, fun _ _ => ⟨trivial, fun _ _ => ⟨trivial, fun _ _ => ⟨trivial, fun _ _ =>
      ⟨trivial, fun _ _ => ⟨trivial, fun _ _ => trivial⟩⟩⟩⟩⟩⟩

/-- Started again after a stop, it says that it runs, on an `io_context` that is stopped. -/
theorem restarted_does_not_run :
    ∃ s, run step ({} : Timers Unit) [.construct 0 1 (), .start 0, .advance, .advance, .advance,
        .advance, .stop 0, .advance, .advance, .thread 0 .runReturns, .advance, .start 0,
        .advance, .advance, .advance, .advance] = some s ∧ ¬ s.Runs := by
  refine ⟨_, rfl, fun h => ?_⟩
  have := (h rfl 0 _ rfl rfl).stopped
  cases this

end Timers

end NBRaft.Raft
