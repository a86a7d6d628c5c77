import NBRaft.Library.Transition
import Mathlib.Tactic.Common

/-!
# The file appender

`FileLogAppender` opens its file anew before an event that comes three seconds after the last time,
so that a file that could not be written is tried again. What a stream does with its file, and
whether it fails, comes from outside: it is told with each event.
-/

namespace NBRaft.Log

open Transition

/-- A `std::ofstream`: whether its file is open, and whether it is in a failed state. -/
structure FileStream where
  is_open : Bool := false
  failed : Bool := false
  deriving DecidableEq, Repr

namespace FileStream

/-- `operator bool`. -/
def ok (s : FileStream) : Bool := !s.failed

/-- The file is closed in any case, and the stream fails if it was not open, or if what was still to
be written could not be. -/
def close (flushed : Bool) (s : FileStream) : FileStream where
  is_open := false
  failed := s.failed || !(s.is_open && flushed)

/-- Opening a file fails on a stream of which the file is open; if it succeeds, it clears the
state. -/
def openFile (canOpen : Bool) (s : FileStream) : FileStream :=
  if s.is_open then { s with failed := true }
  else if canOpen then { is_open := true, failed := false }
  else { s with failed := true }

/-- Nothing is written by a stream that has failed. -/
def write (succeeds : Bool) (s : FileStream) : FileStream :=
  { s with failed := s.failed || !(s.is_open && succeeds) }

end FileStream

/-- What a `reopen` has come to. -/
structure Reopened where
  canOpen : Bool
  m_reopenError : Bool
  m_filestream : FileStream
  deriving DecidableEq, Repr

/-- `written` are the events that the stream has taken, and `reopens` tells about every `reopen`. -/
structure FileLogAppender (α : Type) where
  m_filestream : FileStream := {}
  m_lastTime : UInt64 := 0
  m_reopenError : Bool := false
  written : List α := []
  reopens : List Reopened := []

namespace FileLogAppender

variable {α : Type}

inductive Event (α : Type) where
  /-- An event of the time `now`. If there is a `reopen` before it, `canOpen` tells whether the file
  can be opened then, and `flushed` whether the one before can be closed without an error. -/
  | log (event : α) (now : UInt64) (canOpen flushed succeeds : Bool)
  /-- `reopen` is public. -/
  | reopen (canOpen flushed : Bool)

def reopen (canOpen flushed : Bool) (a : FileLogAppender α) : FileLogAppender α :=
  let s := if a.m_filestream.ok then a.m_filestream.close flushed else a.m_filestream
  let s := s.openFile canOpen
  { a with
    m_filestream := s
    m_reopenError := !s.ok
    reopens := a.reopens ++ [⟨canOpen, !s.ok, s⟩] }

/-- The constructor. -/
def new (canOpen : Bool) : FileLogAppender α := reopen canOpen true {}

/-- The condition for a `reopen` before an event. -/
def isDue (now : UInt64) (a : FileLogAppender α) : Bool := now ≥ a.m_lastTime + 3

def write (event : α) (succeeds : Bool) (a : FileLogAppender α) : FileLogAppender α :=
  if a.m_reopenError then a
  else
    let s := a.m_filestream.write succeeds
    { a with m_filestream := s, written := if s.ok then a.written ++ [event] else a.written }

def log (event : α) (now : UInt64) (canOpen flushed succeeds : Bool) (a : FileLogAppender α) :
    FileLogAppender α :=
  write event succeeds
    (if a.isDue now then { a.reopen canOpen flushed with m_lastTime := now } else a)

def step (a : FileLogAppender α) : Event α → Option (FileLogAppender α)
  | .log event now canOpen flushed succeeds => some (a.log event now canOpen flushed succeeds)
  | .reopen canOpen flushed => some (a.reopen canOpen flushed)

/-- The stream is open and good, and the appender knows it. -/
def Ready (m_reopenError : Bool) (s : FileStream) : Prop :=
  m_reopenError = false ∧ s.is_open = true ∧ s.failed = false

/-- Every `reopen` for which the file could be opened has made the appender ready. -/
def Recovers (a : FileLogAppender α) : Prop :=
  ∀ r ∈ a.reopens, r.canOpen = true → Ready r.m_reopenError r.m_filestream

/-- The stream has failed with its file open. -/
def FailedOpen (s : FileStream) : Prop := s.is_open = true ∧ s.failed = true

/-- If the event makes for a `reopen` for which the file can be opened, the stream has not failed
with its file open. -/
def NotFailedAtReopen (a : FileLogAppender α) : Event α → Prop
  | .log _ now canOpen _ _ => a.isDue now = true → canOpen = true → ¬ FailedOpen a.m_filestream
  | .reopen canOpen _ => canOpen = true → ¬ FailedOpen a.m_filestream

section

variable {a b : FileLogAppender α} {e : Event α} {s : FileStream}

/-- `reopen` closes a good stream only, so that one that has failed with its file open stays so. -/
theorem ready_openFile_iff (flushed : Bool) :
    (((if s.ok then s.close flushed else s).openFile true).is_open = true ∧
      ((if s.ok then s.close flushed else s).openFile true).failed = false) ↔ ¬ FailedOpen s := by
  obtain ⟨is_open, failed⟩ := s
  cases is_open <;> cases failed <;>
    simp [FileStream.ok, FileStream.close, FileStream.openFile, FailedOpen]

theorem recovers_reopen_iff (canOpen flushed : Bool) (ha : a.Recovers) :
    (a.reopen canOpen flushed).Recovers ↔ (canOpen = true → ¬ FailedOpen a.m_filestream) := by
  have hlast : ∀ s : FileStream, Ready (!s.ok) s ↔ s.is_open = true ∧ s.failed = false := by
    intro s
    unfold Ready FileStream.ok
    cases s.failed <;> simp
  unfold Recovers reopen
  simp only [List.forall_mem_append, List.forall_mem_singleton, hlast]
  constructor
  · rintro ⟨-, hnew⟩ rfl
    exact (ready_openFile_iff flushed).mp (hnew rfl)
  · intro hnot
    refine ⟨ha, ?_⟩
    rintro rfl
    exact (ready_openFile_iff flushed).mpr (hnot rfl)

theorem reopens_write (event : α) (succeeds : Bool) (a : FileLogAppender α) :
    (a.write event succeeds).reopens = a.reopens := by
  unfold write
  split <;> rfl

theorem recovers_step_iff (h : a.step e = some b) (ha : a.Recovers) :
    b.Recovers ↔ a.NotFailedAtReopen e := by
  cases e with
  | log event now canOpen flushed succeeds =>
    cases h
    unfold Recovers log NotFailedAtReopen
    rw [reopens_write]
    by_cases hdue : a.isDue now = true
    · rw [if_pos hdue]
      exact (recovers_reopen_iff canOpen flushed ha).trans ⟨fun h _ => h, fun h => h hdue⟩
    · rw [if_neg hdue]
      exact iff_of_true ha fun h => absurd h hdue
  | reopen canOpen flushed =>
    cases h
    exact recovers_reopen_iff canOpen flushed ha

/-- When the appender is ready and nothing fails, the next event is written. -/
theorem written_log (ha : Ready a.m_reopenError a.m_filestream) (event : α) (now : UInt64)
    (flushed : Bool) : (a.log event now true flushed true).written = a.written ++ [event] := by
  obtain ⟨herror, hopen, hfailed⟩ := ha
  unfold log
  split
  · simp [write, reopen, hfailed, FileStream.close, FileStream.openFile, FileStream.ok,
      FileStream.write]
  · simp [write, herror, FileStream.write, FileStream.ok, hopen, hfailed]

end

/-- In every run, each `reopen` for which the file can be opened makes the appender ready exactly if
none of them comes when the stream has failed with its file open; and once the appender is ready,
the next event is written. -/
theorem recovers_iff (canOpen : Bool) (es : List (Event α)) :
    (Throughout step Recovers (new canOpen) es ↔
      Along step NotFailedAtReopen (new canOpen) es) ∧
    ∀ (a : FileLogAppender α) event now flushed, Ready a.m_reopenError a.m_filestream →
      (a.log event now true flushed true).written = a.written ++ [event] := by
  refine ⟨?_, fun a event now flushed ha => written_log ha event now flushed⟩
  apply throughout_iff_along_of_refused
  · intro a e b h ha
    exact recovers_step_iff h ha
  · intro a e h
    cases e <;> cases h
  · refine (recovers_reopen_iff canOpen true ?_).mpr fun _ hfailed => ?_
    · intro r hr
      cases hr
    · cases hfailed.1

theorem recovers_iff_new :
    ((new true).log "first" 10 true true true).written = (new true).written ++ ["first"] :=
  (recovers_iff true []).2 (new true) "first" 10 true ⟨rfl, rfl, rfl⟩

/-- The first write fails with the file open, and the file is never opened again. -/
theorem stuck_after_failed_write : ∃ a,
    run step (new true) [.log "first" 10 true true false, .log "second" 20 true true true,
      .log "third" 30 true true true] = some a ∧
    a.m_reopenError = true ∧ a.written = [] ∧
    ¬ Throughout step Recovers (new true) [.log "first" 10 true true false,
      .log "second" 20 true true true, .log "third" 30 true true true] := by
  have h : run step (new true) [.log "first" 10 true true false, .log "second" 20 true true true,
    .log "third" 30 true true true] = some _ := rfl
  refine ⟨_, h, rfl, rfl, fun hall => ?_⟩
  have hready := hall.last h _ (List.mem_append_right _ List.mem_cons_self) rfl
  cases hready.1

end FileLogAppender

end NBRaft.Log
