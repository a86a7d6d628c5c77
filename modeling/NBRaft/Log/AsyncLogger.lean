import NBRaft.Concurrency.QueueOrder

/-!
# The asynchronous logger

`AsyncLogger`: `log` pushes its event onto a `ConcurrentQueue`, and a thread of the logger pops
them and passes them to the appenders. The destructor sets `m_isExit` and pushes a null pointer.
The steps of the worker, of the destructor and of the queue's operations come in any order.

The level and the list of the appenders are fixed. On the queue the worker is thread `0`, the
destructor is thread `1`, and the threads that log come after them.
-/

namespace NBRaft.Log

open Concurrency Transition

inductive Level where
  | FATAL
  | ERRO
  | WARN
  | INFO
  | DEBUG
  | UNKNOWN
  deriving DecidableEq, Repr

/-- The underlying value, by which levels are compared. -/
def Level.toNat : Level → Nat
  | .FATAL => 0
  | .ERRO => 100
  | .WARN => 200
  | .INFO => 300
  | .DEBUG => 400
  | .UNKNOWN => 500

instance : LE Level := ⟨fun a b => a.toNat ≤ b.toNat⟩

instance (a b : Level) : Decidable (a ≤ b) := inferInstanceAs (Decidable (a.toNat ≤ b.toNat))

/-- An event and what it is about. -/
structure LogEvent (α : Type) where
  m_level : Level
  m_ss : α
  deriving DecidableEq, Repr

namespace AsyncLogger

/-- Where the worker is in `threadFunc`. -/
inductive Worker (α : Type) where
  /-- `while (!m_isExit.load())`. -/
  | test
  /-- In `wait_and_pop`, or about to use what it has returned. -/
  | popping
  /-- In the loop over the appenders. -/
  | logging (event : LogEvent α) (i : Nat)
  | done
  deriving DecidableEq, Repr

inductive Destructor where
  | outside
  /-- `if (!m_isExit)`. -/
  | test
  | exchange
  | push
  | pushing
  | join
  | returned
  deriving DecidableEq, Repr

inductive Event (n : Nat) (α : Type) where
  /-- The `k`-th of the threads that log calls `log`. -/
  | log (k : Fin n) (event : LogEvent α)
  | worker
  | destructor
  /-- A step of an operation on the queue that is in progress. -/
  | queue (e : ConcurrentQueue.Event (Option (LogEvent α)))

/-- The threads that log, on the queue. -/
def producer {n : Nat} (k : Fin n) : Tid := k + 2

end AsyncLogger

open AsyncLogger

/-- A logger that `n` threads log to, with `m` appenders. On the queue a null pointer is `none`.
`logged` is the history of the calls of `log`, and `appended` tells what each entry of
`m_appenders` has been passed. -/
structure AsyncLogger (n m : Nat) (α : Type) where
  m_level : Level := .INFO
  m_queue : ConcurrentQueue (Option (LogEvent α)) := {}
  m_isExit : Bool := false
  worker : Worker α := .test
  destructor : Destructor := .outside
  logged : List (LogEvent α) := []
  appended : Fin m → List (LogEvent α) := fun _ => []

namespace AsyncLogger

variable {n m : Nat} {α : Type}

def threadFunc (l : AsyncLogger n m α) : Worker α → Option (AsyncLogger n m α)
  | .test =>
    if l.m_isExit then some { l with worker := .done }
    else do
      let q ← l.m_queue.step (.call 0 (.pop .waitAndPop))
      some { l with m_queue := q, worker := .popping }
  | .popping =>
    match l.m_queue.threads 0 with
    | .returned (some none) => some { l with m_isExit := true, worker := .done }
    | .returned (some (some event)) =>
      some { l with worker := if event.m_level ≤ l.m_level then .logging event 0 else .test }
    -- `wait_and_pop` returns no value after `Exit` only, which nobody calls
    | _ => none
  | .logging event i =>
    if h : i < m then
      some { l with
        appended := Function.update l.appended ⟨i, h⟩ (l.appended ⟨i, h⟩ ++ [event])
        worker := .logging event (i + 1) }
    else some { l with worker := .test }
  | .done => none

/-- `~AsyncLogger`, which begins when no call of `log` is in progress. -/
def destructorStep (l : AsyncLogger n m α) : Destructor → Option (AsyncLogger n m α)
  | .outside =>
    if ∀ k : Fin n, (l.m_queue.threads (producer k)).isIdle = true then
      some { l with destructor := .test }
    else none
  | .test => some { l with destructor := if l.m_isExit then .join else .exchange }
  | .exchange => some { l with m_isExit := true, destructor := .push }
  | .push => do
    let q ← l.m_queue.step (.call 1 (.push none))
    some { l with m_queue := q, destructor := .pushing }
  | .pushing =>
    if (l.m_queue.threads 1).isIdle then some { l with destructor := .join } else none
  | .join =>
    match l.worker with
    | .done => some { l with destructor := .returned }
    | _ => none
  | .returned => none

def step (l : AsyncLogger n m α) : Event n α → Option (AsyncLogger n m α)
  | .log k event =>
    if l.destructor = .outside then do
      let q ← l.m_queue.step (.call (producer k) (.push (some event)))
      some { l with m_queue := q, logged := l.logged ++ [event] }
    else none
  | .worker => l.threadFunc l.worker
  | .destructor => l.destructorStep l.destructor
  | .queue (.call ..) => none
  | .queue e => do
    let q ← l.m_queue.step e
    some { l with m_queue := q }

/-! ## What a step can do -/

inductive Move (l : AsyncLogger n m α) : Event n α → AsyncLogger n m α → Prop where
  | log {k : Fin n} {event : LogEvent α} {q : ConcurrentQueue (Option (LogEvent α))} :
    l.destructor = .outside →
      l.m_queue.step (.call (producer k) (.push (some event))) = some q →
        Move l (.log k event) { l with m_queue := q, logged := l.logged ++ [event] }
  | leave : l.worker = .test → l.m_isExit = true → Move l .worker { l with worker := .done }
  | pop {q : ConcurrentQueue (Option (LogEvent α))} : l.worker = .test → l.m_isExit = false →
    l.m_queue.step (.call 0 (.pop .waitAndPop)) = some q →
      Move l .worker { l with m_queue := q, worker := .popping }
  | null : l.worker = .popping → l.m_queue.threads 0 = .returned (some none) →
    Move l .worker { l with m_isExit := true, worker := .done }
  | got {event : LogEvent α} : l.worker = .popping →
    l.m_queue.threads 0 = .returned (some (some event)) → event.m_level ≤ l.m_level →
      Move l .worker { l with worker := .logging event 0 }
  | skip {event : LogEvent α} : l.worker = .popping →
    l.m_queue.threads 0 = .returned (some (some event)) → ¬ event.m_level ≤ l.m_level →
      Move l .worker { l with worker := .test }
  | append {event : LogEvent α} {i : Fin m} : l.worker = .logging event i →
    Move l .worker { l with
      appended := Function.update l.appended i (l.appended i ++ [event])
      worker := .logging event (i + 1) }
  | next {event : LogEvent α} {i : Nat} : l.worker = .logging event i → m ≤ i →
    Move l .worker { l with worker := .test }
  | begin : l.destructor = .outside →
    (∀ k : Fin n, (l.m_queue.threads (producer k)).isIdle = true) →
      Move l .destructor { l with destructor := .test }
  | exited : l.destructor = .test → l.m_isExit = true →
    Move l .destructor { l with destructor := .join }
  | running : l.destructor = .test → l.m_isExit = false →
    Move l .destructor { l with destructor := .exchange }
  | exchange : l.destructor = .exchange →
    Move l .destructor { l with m_isExit := true, destructor := .push }
  | push {q : ConcurrentQueue (Option (LogEvent α))} : l.destructor = .push →
    l.m_queue.step (.call 1 (.push none)) = some q →
      Move l .destructor { l with m_queue := q, destructor := .pushing }
  | pushed : l.destructor = .pushing → (l.m_queue.threads 1).isIdle = true →
    Move l .destructor { l with destructor := .join }
  | join : l.destructor = .join → l.worker = .done →
    Move l .destructor { l with destructor := .returned }
  | queue {e : ConcurrentQueue.Event (Option (LogEvent α))}
      {q : ConcurrentQueue (Option (LogEvent α))} : (∀ tid c, e ≠ .call tid c) →
    l.m_queue.step e = some q → Move l (.queue e) { l with m_queue := q }

section

variable {l r : AsyncLogger n m α} {e : Event n α}

theorem move_of_threadFunc (h : l.threadFunc l.worker = some r) : Move l .worker r := by
  cases hw : l.worker with
  | test =>
    simp only [hw, threadFunc] at h
    split_ifs at h with hexit
    · cases h
      exact .leave hw hexit
    · simp only [Option.bind_eq_bind, Option.bind_eq_some_iff] at h
      obtain ⟨q, hq, h⟩ := h
      cases h
      exact .pop hw (by simpa using hexit) hq
  | popping =>
    simp only [hw, threadFunc] at h
    split at h
    · rename_i hpc
      cases h
      exact .null hw hpc
    · rename_i event hpc
      cases h
      split_ifs with hlevel
      · exact .got hw hpc hlevel
      · exact .skip hw hpc hlevel
    · cases h
  | logging event i =>
    simp only [hw, threadFunc] at h
    split_ifs at h with hi
    · cases h
      exact .append (i := ⟨i, hi⟩) hw
    · cases h
      exact .next hw (by omega)
  | done =>
    rw [hw] at h
    cases h

theorem move_of_destructorStep (h : l.destructorStep l.destructor = some r) :
    Move l .destructor r := by
  cases hd : l.destructor with
  | outside =>
    simp only [hd, destructorStep, Option.ite_none_right_eq_some, Option.some.injEq] at h
    obtain ⟨hidle, rfl⟩ := h
    exact .begin hd hidle
  | test =>
    rw [hd] at h
    cases h
    split_ifs with hexit
    · exact .exited hd hexit
    · exact .running hd (by simpa using hexit)
  | exchange =>
    rw [hd] at h
    cases h
    exact .exchange hd
  | push =>
    simp only [hd, destructorStep, Option.bind_eq_bind, Option.bind_eq_some_iff] at h
    obtain ⟨q, hq, h⟩ := h
    cases h
    exact .push hd hq
  | pushing =>
    simp only [hd, destructorStep, Option.ite_none_right_eq_some, Option.some.injEq] at h
    obtain ⟨hidle, rfl⟩ := h
    exact .pushed hd hidle
  | join =>
    simp only [hd, destructorStep] at h
    split at h
    · rename_i hw
      cases h
      exact .join hd hw
    · cases h
  | returned =>
    rw [hd] at h
    cases h

/-- Every step is one of these. -/
theorem move_of_step (h : l.step e = some r) : Move l e r := by
  cases e with
  | log k event =>
    simp only [step, Option.ite_none_right_eq_some, Option.bind_eq_bind,
      Option.bind_eq_some_iff] at h
    obtain ⟨hd, q, hq, h⟩ := h
    cases h
    exact .log hd hq
  | worker => exact move_of_threadFunc h
  | destructor => exact move_of_destructorStep h
  | queue e =>
    cases e with
    | call => cases h
    | _ =>
      simp only [step, Option.bind_eq_bind, Option.bind_eq_some_iff] at h
      obtain ⟨q, hq, h⟩ := h
      cases h
      exact .queue nofun hq

end

end AsyncLogger

end NBRaft.Log
