import NBRaft.Library.Transition
import Mathlib.Tactic.Common

/-!
# The listen thread of a server

`BaseServer::start` and `stop`, one call of each, and the thread that `start` creates. Where a
thread reads or writes a member there is a step; the handler of the signals runs in the listen
thread, between its entry to `m_ioc.run()` and its return from it. An accept is outstanding as
long as the server lives, so `run()` returns only when the `io_context` has been stopped.

`join` is counted where it is called. On a thread object without a thread it throws, which
`start` catches and `stop` does not.
-/

namespace NBRaft.Communication

open Transition

/-- The places of `start`. -/
inductive StartPc where
  | outside
  /-- The handler of the signals is set, and the acceptor started. -/
  | accepting
  /-- The listen thread exists, but `m_listenThread` has not been assigned. -/
  | created
  | assigned
  | joining
  | returned
  /-- It returned from the `catch` block, without having created a thread. -/
  | failed
  deriving DecidableEq, Repr

/-- The places of the listen thread. -/
inductive ListenPc where
  | none
  | created
  | inRun
  /-- In the handler of the signals, before `m_ioc.stop()` and before `stopAccept()`. -/
  | stopping
  | closing
  | ended
  deriving DecidableEq, Repr

/-- The places of `stop`. -/
inductive StopPc where
  | outside
  | entered
  /-- It found the server running. -/
  | stopping
  | stopped
  | joining
  | joined
  | returned
  /-- It found the server not running, and returned at once. -/
  | fellThrough
  | threw
  deriving DecidableEq, Repr

/-- The calls of `join` that a place of `start` has behind it. -/
def StartPc.joins : StartPc → Nat
  | .joining | .returned => 1
  | _ => 0

def StopPc.joins : StopPc → Nat
  | .joining | .joined | .returned | .threw => 1
  | _ => 0

/-- `stop` has found the server running. -/
def StopPc.foundRunning : StopPc → Bool
  | .outside | .entered | .fellThrough => false
  | _ => true

theorem StartPc.joins_le (pc : StartPc) : pc.joins ≤ 1 := by
  cases pc <;> decide

theorem StopPc.joins_eq_zero {pc : StopPc} (h : pc.foundRunning = false) : pc.joins = 0 := by
  cases pc <;> first | rfl | cases h

/-- `joinable` is that of `m_listenThread`; `joins` counts the calls of its `join`. -/
structure ListeningServer where
  m_running : Bool := false
  /-- Whether `m_ioc` has been stopped. -/
  stopped : Bool := false
  joinable : Bool := false
  joins : Nat := 0
  start : StartPc := .outside
  listen : ListenPc := .none
  stop : StopPc := .outside
  deriving DecidableEq, Repr

namespace ListeningServer

inductive Event where
  /-- `start` is called; with `fails`, one of the calls before the thread throws. -/
  | start (fails : Bool)
  | createThread
  | assignThread
  /-- `start` calls `join`, and returns from it. -/
  | join
  | joinReturns
  /-- The listen thread sets `m_running`. -/
  | setRunning
  | signal
  | signalStops
  | signalCloses
  | runReturns
  /-- `stop` is called. -/
  | stop
  | testRunning
  | stopContext
  | stopJoins
  | stopJoinReturns
  | clearRunning
  deriving DecidableEq, Repr

def step (s : ListeningServer) : Event → Option ListeningServer
  | .start fails =>
    if s.start = .outside then
      some { s with start := if fails then .failed else .accepting }
    else none
  | .createThread =>
    if s.start = .accepting then some { s with start := .created, listen := .created } else none
  | .assignThread =>
    if s.start = .created then some { s with start := .assigned, joinable := true } else none
  | .join =>
    if s.start = .assigned then
      some { s with
        joins := s.joins + 1
        start := if s.joinable then .joining else .returned }
    else none
  | .joinReturns =>
    if s.start = .joining ∧ s.listen = .ended then
      some { s with start := .returned, joinable := false }
    else none
  | .setRunning =>
    if s.listen = .created then some { s with listen := .inRun, m_running := true } else none
  | .signal =>
    if s.listen = .inRun ∧ s.stopped = false then
      some { s with listen := .stopping, m_running := false }
    else none
  | .signalStops =>
    if s.listen = .stopping then some { s with listen := .closing, stopped := true } else none
  | .signalCloses =>
    if s.listen = .closing then some { s with listen := .inRun } else none
  | .runReturns =>
    if s.listen = .inRun ∧ s.stopped = true then some { s with listen := .ended } else none
  | .stop =>
    if s.stop = .outside ∧ s.start ≠ .outside then some { s with stop := .entered } else none
  | .testRunning =>
    if s.stop = .entered then
      some { s with stop := if s.m_running then .stopping else .fellThrough }
    else none
  | .stopContext =>
    if s.stop = .stopping then some { s with stop := .stopped, stopped := true } else none
  | .stopJoins =>
    if s.stop = .stopped then
      some { s with
        joins := s.joins + 1
        stop := if s.joinable then .joining else .threw }
    else none
  | .stopJoinReturns =>
    if s.stop = .joining ∧ s.listen = .ended then
      some { s with stop := .joined, joinable := false }
    else none
  | .clearRunning =>
    if s.stop = .joined then some { s with stop := .returned, m_running := false } else none

/-- `join` has been called at most once, and if `stop` has returned then `m_ioc` is stopped. -/
structure JoinedOnce (s : ListeningServer) : Prop where
  joins : s.joins ≤ 1
  stopped : s.stop = .returned ∨ s.stop = .fellThrough → s.stopped = true

/-- Where `stop` tests `m_running`, the handler of a signal has stopped the server already. -/
def FindsStopped (s : ListeningServer) : Event → Prop
  | .testRunning => s.m_running = false ∧ s.stopped = true
  | _ => True

/-- Both calls are over. -/
def Over (s : ListeningServer) : Prop :=
  (s.start = .returned ∨ s.start = .failed) ∧
    (s.stop = .returned ∨ s.stop = .fellThrough ∨ s.stop = .threw)

instance (s : ListeningServer) : Decidable s.Over := inferInstanceAs (Decidable (_ ∧ _))

/-! ## What the places say -/

/-- The server has been running only if `start` has created the thread. -/
structure Inv (s : ListeningServer) : Prop where
  joins : s.joins = s.start.joins + s.stop.joins
  running : s.m_running = true ∨ s.stop.foundRunning = true → s.listen ≠ .none
  created : s.listen ≠ .none →
    s.start ≠ .outside ∧ s.start ≠ .accepting ∧ s.start ≠ .failed
  entered : s.start = .outside → s.stop = .outside

theorem inv_initial : Inv {} := by
  constructor <;> simp [StartPc.joins, StopPc.joins, StopPc.foundRunning]

/-! ## What a step can do -/

inductive Move (s : ListeningServer) : Event → ListeningServer → Prop where
  | start (fails : Bool) : s.start = .outside →
    Move s (.start fails) { s with start := if fails then .failed else .accepting }
  | createThread : s.start = .accepting →
    Move s .createThread { s with start := .created, listen := .created }
  | assignThread : s.start = .created →
    Move s .assignThread { s with start := .assigned, joinable := true }
  | join : s.start = .assigned →
    Move s .join { s with
      joins := s.joins + 1
      start := if s.joinable then .joining else .returned }
  | joinReturns : s.start = .joining → s.listen = .ended →
    Move s .joinReturns { s with start := .returned, joinable := false }
  | setRunning : s.listen = .created →
    Move s .setRunning { s with listen := .inRun, m_running := true }
  | signal : s.listen = .inRun → s.stopped = false →
    Move s .signal { s with listen := .stopping, m_running := false }
  | signalStops : s.listen = .stopping →
    Move s .signalStops { s with listen := .closing, stopped := true }
  | signalCloses : s.listen = .closing → Move s .signalCloses { s with listen := .inRun }
  | runReturns : s.listen = .inRun → s.stopped = true →
    Move s .runReturns { s with listen := .ended }
  | stop : s.stop = .outside → s.start ≠ .outside → Move s .stop { s with stop := .entered }
  | findsRunning : s.stop = .entered → s.m_running = true →
    Move s .testRunning { s with stop := .stopping }
  | findsStopped : s.stop = .entered → s.m_running = false →
    Move s .testRunning { s with stop := .fellThrough }
  | stopContext : s.stop = .stopping →
    Move s .stopContext { s with stop := .stopped, stopped := true }
  | stopJoins : s.stop = .stopped →
    Move s .stopJoins { s with
      joins := s.joins + 1
      stop := if s.joinable then .joining else .threw }
  | stopJoinReturns : s.stop = .joining → s.listen = .ended →
    Move s .stopJoinReturns { s with stop := .joined, joinable := false }
  | clearRunning : s.stop = .joined →
    Move s .clearRunning { s with stop := .returned, m_running := false }

section

variable {s t : ListeningServer} {e : Event}

/-- Every step is one of these. -/
theorem move_of_step (h : s.step e = some t) : Move s e t := by
  cases e with
  | testRunning =>
    simp only [step, Option.ite_none_right_eq_some, Option.some.injEq] at h
    obtain ⟨hpc, rfl⟩ := h
    split_ifs with hm
    · exact .findsRunning hpc hm
    · exact .findsStopped hpc (by simpa using hm)
  | start fails =>
    simp only [step, Option.ite_none_right_eq_some, Option.some.injEq] at h
    obtain ⟨hpc, rfl⟩ := h
    exact .start fails hpc
  | joinReturns | signal | runReturns | stop | stopJoinReturns =>
    simp only [step, Option.ite_none_right_eq_some, Option.some.injEq] at h
    obtain ⟨⟨hpc, hother⟩, rfl⟩ := h
    constructor <;> assumption
  | _ =>
    simp only [step, Option.ite_none_right_eq_some, Option.some.injEq] at h
    obtain ⟨hpc, rfl⟩ := h
    constructor
    exact hpc

/-- What `stop` has seen it has seen. -/
theorem Move.foundRunning (h : Move s e t) (hs : s.stop.foundRunning = true) :
    t.stop.foundRunning = true := by
  cases h with
  | stop hpc | findsStopped hpc =>
    rw [hpc] at hs
    cases hs
  | findsRunning | stopContext | stopJoinReturns | clearRunning => rfl
  | stopJoins =>
    dsimp only
    split_ifs <;> rfl
  | _ => exact hs

theorem Move.joins_eq (h : Move s e t) (hs : s.joins = s.start.joins + s.stop.joins) :
    t.joins = t.start.joins + t.stop.joins := by
  cases h with
  | start fails hpc =>
    rw [hpc] at hs
    cases fails <;> exact hs
  | createThread hpc | assignThread hpc | joinReturns hpc | stop hpc | findsRunning hpc
  | findsStopped hpc | stopContext hpc | stopJoinReturns hpc | clearRunning hpc =>
    rw [hpc] at hs
    exact hs
  | join hpc =>
    have hjoins : (if s.joinable then StartPc.joining else .returned).joins = 1 := by
      split_ifs <;> rfl
    rw [hpc] at hs
    change s.joins = 0 + _ at hs
    dsimp only
    omega
  | stopJoins hpc =>
    have hjoins : (if s.joinable then StopPc.joining else .threw).joins = 1 := by
      split_ifs <;> rfl
    rw [hpc] at hs
    change s.joins = _ + 0 at hs
    dsimp only
    omega
  | setRunning | signal | signalStops | signalCloses | runReturns => exact hs

theorem Move.running (h : Move s e t)
    (hs : s.m_running = true ∨ s.stop.foundRunning = true → s.listen ≠ .none)
    (ht : t.m_running = true ∨ t.stop.foundRunning = true) : t.listen ≠ .none := by
  cases h with
  | createThread | setRunning | signal | signalStops | signalCloses | runReturns => nofun
  | stop hpc | findsStopped hpc =>
    apply hs
    rw [hpc]
    exact ht
  | findsRunning _ hm => exact hs (.inl hm)
  | stopContext hpc | stopJoins hpc | stopJoinReturns hpc | clearRunning hpc =>
    apply hs
    rw [hpc]
    exact .inr rfl
  | start | assignThread | join | joinReturns => exact hs ht

theorem Move.created (h : Move s e t)
    (hs : s.listen ≠ .none → s.start ≠ .outside ∧ s.start ≠ .accepting ∧ s.start ≠ .failed)
    (ht : t.listen ≠ .none) :
    t.start ≠ .outside ∧ t.start ≠ .accepting ∧ t.start ≠ .failed := by
  cases h with
  | start _ hpc => exact absurd hpc (hs ht).1
  | createThread | assignThread | joinReturns => exact ⟨nofun, nofun, nofun⟩
  | join =>
    dsimp only
    split_ifs <;> exact ⟨nofun, nofun, nofun⟩
  | setRunning hpc | signal hpc | signalStops hpc | signalCloses hpc | runReturns hpc =>
    exact hs (by rw [hpc]; nofun)
  | stop | findsRunning | findsStopped | stopContext | stopJoins | stopJoinReturns
  | clearRunning => exact hs ht

theorem Move.entered (h : Move s e t) (hs : s.start = .outside → s.stop = .outside)
    (ht : t.start = .outside) : t.stop = .outside := by
  cases h with
  | start fails => cases fails <;> cases ht
  | createThread | assignThread | joinReturns => cases ht
  | join =>
    dsimp only at ht
    split_ifs at ht
  | setRunning | signal | signalStops | signalCloses | runReturns => exact hs ht
  | stop _ hstart => exact absurd ht hstart
  | findsRunning hpc | findsStopped hpc | stopContext hpc | stopJoins hpc | stopJoinReturns hpc
  | clearRunning hpc =>
    have hout := hs ht
    rw [hpc] at hout
    cases hout

/-- Every step keeps the count of the joins, and creates the thread before it can run. -/
theorem inv_step (h : s.step e = some t) (hs : Inv s) : Inv t := by
  have hmove := move_of_step h
  exact ⟨hmove.joins_eq hs.joins, hmove.running hs.running, hmove.created hs.created,
    hmove.entered hs.entered⟩

end

/-! ## Runs in which a signal came first -/

/-- `stop` has found the server stopped, if it has looked. -/
structure Quiet (s : ListeningServer) : Prop extends Inv s where
  notRunning : s.stop.foundRunning = false
  fellThrough : s.stop = .fellThrough → s.stopped = true

theorem joinedOnce_of_quiet {s : ListeningServer} (hs : s.Quiet) : s.JoinedOnce := by
  obtain ⟨⟨hjoins, -, -, -⟩, hnot, hfell⟩ := hs
  constructor
  · have hstart := s.start.joins_le
    have hstop := StopPc.joins_eq_zero hnot
    omega
  · rintro (hstop | hstop)
    · rw [hstop] at hnot
      cases hnot
    · exact hfell hstop

theorem quiet_step {s t : ListeningServer} {e : Event} (h : s.step e = some t)
    (hfinds : s.FindsStopped e) (hs : s.Quiet) : t.Quiet := by
  refine ⟨inv_step h hs.toInv, ?_, ?_⟩
  · have hnot := hs.notRunning
    cases move_of_step h with
    | findsRunning _ hm =>
      rw [hfinds.1] at hm
      cases hm
    | stop | findsStopped => rfl
    | stopContext hpc | stopJoins hpc | stopJoinReturns hpc | clearRunning hpc =>
      rw [hpc] at hnot
      cases hnot
    | _ => exact hnot
  · intro hfell
    cases move_of_step h with
    | findsStopped => exact hfinds.2
    | signalStops | stopContext => rfl
    | stop | findsRunning | stopJoinReturns | clearRunning => cases hfell
    | stopJoins =>
      dsimp only at hfell
      split_ifs at hfell
    | _ => exact hs.fellThrough hfell

/-! ## Runs to the end of both calls -/

/-- If `stop` found the server running, then `join` has been called twice in the end. -/
theorem not_joinedOnce_of_foundRunning {s : ListeningServer} (hs : Inv s) (hover : s.Over)
    (hfound : s.stop.foundRunning = true) : ¬ s.JoinedOnce := by
  intro h
  have hcreated := hs.created (hs.running (.inr hfound))
  have hstart : s.start = .returned := hover.1.resolve_right hcreated.2.2
  have hstop : s.stop.joins = 1 := by
    rcases hover.2 with h | h | h <;> rw [h] at hfound ⊢
    · rfl
    · cases hfound
    · rfl
  have hjoins := h.joins
  rw [hs.joins, hstart, hstop] at hjoins
  exact absurd hjoins (by decide)

/-- The test decides: after it either `stop` joins as well, or it has returned. -/
theorem along_of_throughout {s t : ListeningServer} {es : List Event}
    (h : run step s es = some t) (hs : Inv s) (hover : t.Over)
    (hall : Throughout step JoinedOnce s es) : Along step FindsStopped s es := by
  induction es generalizing s with
  | nil => trivial
  | cons e es ih =>
    obtain ⟨u, hu, hrun⟩ := run_cons_eq_some.mp h
    have hrest := hall.2 u hu
    have hIu := inv_step hu hs
    refine ⟨?_, fun v hv => ?_⟩
    · cases e with
      | testRunning =>
        simp only [step, Option.ite_none_right_eq_some, Option.some.injEq] at hu
        obtain ⟨-, rfl⟩ := hu
        cases hm : s.m_running with
        | true =>
          have hfound : t.stop.foundRunning = true :=
            run_preserves (I := fun s => s.stop.foundRunning = true)
              (fun _ _ _ hst => (move_of_step hst).foundRunning) hrun
              (by simp [hm, StopPc.foundRunning])
          have hIt : Inv t := run_preserves (fun _ _ _ => inv_step) hrun hIu
          exact absurd (hrest.last hrun) (not_joinedOnce_of_foundRunning hIt hover hfound)
        | false => exact ⟨hm, hrest.first.stopped (.inr (by simp [hm]))⟩
      | _ => trivial
    · obtain rfl : u = v := Option.some.inj (hu.symm.trans hv)
      exact ih hrun hIu hrest

/-- If `stop` finds the server stopped already, the listen thread is joined once and `stop` is
not lost; and in a run to the end of both calls that is the only way. -/
theorem joinedOnce_run (es : List Event) (s : ListeningServer) (h : run step {} es = some s) :
    (Along step FindsStopped {} es → Throughout step JoinedOnce {} es) ∧
      (s.Over → (Throughout step JoinedOnce {} es ↔ Along step FindsStopped {} es)) := by
  have hmp : Along step FindsStopped {} es → Throughout step JoinedOnce {} es := fun hC =>
    throughout_of_along (fun _ _ _ => quiet_step) (fun _ => joinedOnce_of_quiet) hC
      ⟨inv_initial, rfl, nofun⟩
  exact ⟨hmp, fun hover => ⟨along_of_throughout h inv_initial hover, hmp⟩⟩

/-- A signal stops the server, and `stop` is called after that. -/
def signalFirst : List Event :=
  [.start false, .createThread, .assignThread, .join, .setRunning, .signal, .signalStops,
    .signalCloses, .stop, .testRunning, .runReturns, .joinReturns]

theorem joinedOnce_run_signalFirst :
    ∃ s, run step {} signalFirst = some s ∧ s.Over ∧ s.joins = 1 ∧ s.stopped = true ∧
      (Throughout step JoinedOnce {} signalFirst ↔ Along step FindsStopped {} signalFirst) :=
  ⟨_, rfl, by decide, rfl, rfl, (joinedOnce_run signalFirst _ rfl).2 (by decide)⟩

/-- The ordinary use: one thread in `start`, `stop` called on another while the server runs. -/
def stopWhileRunning : List Event :=
  [.start false, .createThread, .assignThread, .join, .setRunning, .stop, .testRunning,
    .stopContext, .stopJoins]

/-- Both call `join` on the same thread. -/
theorem stop_joins_again :
    ∃ s, run step {} stopWhileRunning = some s ∧ s.start = .joining ∧ s.stop = .joining ∧
      s.joins = 2 ∧ ¬ Throughout step JoinedOnce {} stopWhileRunning := by
  have h : run step {} stopWhileRunning = some _ := rfl
  refine ⟨_, h, rfl, rfl, rfl, fun hall => ?_⟩
  exact absurd (hall.last h).joins (by decide)

/-- Called before the listen thread has set the flag, `stop` returns and the server goes on. -/
example : (run step {} [.start false, .createThread, .stop, .testRunning, .assignThread, .join,
    .setRunning]).map (fun s => (s.stop, s.stopped, s.listen)) =
      some (.fellThrough, false, .inRun) := rfl

end ListeningServer

end NBRaft.Communication
