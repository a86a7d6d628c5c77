import NBRaft.Communication.Session
import NBRaft.Library.Threads
import Mathlib.Data.Finset.Card

/-!
# Accepting and tracking sessions

`BaseServer` with its `ConnectionAcceptor` and `SessionManager`. The acceptor thread runs
`Session::start` of one session after the other; the completions of a session run on the I/O
thread of its `io_context`. The header read is posted before `addSession` is called, so both
threads are at work on a session from then on. Each access to the session map is one step, and
so is each return from `start` and from `close`.
-/

namespace NBRaft.Communication

open Transition

/-- The text of a session's random UUID. -/
abbrev Uid := String

/-- The keys of `m_sessions`; each is mapped to the session with that uid. -/
structure SessionManager where
  m_maxSessions : Nat := 100
  m_sessions : Finset Uid := ∅

namespace SessionManager

def isFull (m : SessionManager) : Bool := m.m_sessions.card ≥ m.m_maxSessions

def insertSession (uid : Uid) (m : SessionManager) : SessionManager :=
  { m with m_sessions := insert uid m.m_sessions }

def removeSession (uid : Uid) (m : SessionManager) : SessionManager :=
  { m with m_sessions := m.m_sessions.erase uid }

end SessionManager

/-- Where the acceptor thread is in `handleAccept`. -/
inductive Acceptor where
  | waiting
  /-- The header read is posted, `addSession` is about to compare the size of the map. -/
  | posted (uid : Uid)
  | inserting (uid : Uid)
  /-- The map is full: `close` is about to remove the session, and then to return. -/
  | rejecting (uid : Uid)
  | rejected (uid : Uid)
  /-- `start` is about to return. -/
  | added (uid : Uid)
  deriving DecidableEq, Repr

/-- Where the I/O thread is with the session: ready for its next completion, or in a `close`
that is about to remove it, or about to return. -/
inductive IoThread where
  | ready
  | removing
  | closing
  deriving DecidableEq, Repr

/-- `removed`, `started` and `closed` are histories: the sessions that some `close` has removed
from the map, those whose `start` has returned, and those of which some `close` has. -/
structure BaseServer where
  m_sessionManager : SessionManager := {}
  acceptor : Acceptor := .waiting
  /-- The accepted sessions. -/
  session : Uid → Option Session := fun _ => none
  io : Uid → IoThread := fun _ => .ready
  removed : Finset Uid := ∅
  started : Finset Uid := ∅
  closed : Finset Uid := ∅

namespace BaseServer

inductive Event where
  /-- A connection is accepted, and `start` posts the header read. -/
  | accept (uid : Uid)
  | compareSize
  | insert
  | removeRejected
  | closeRejectedReturns
  | startReturns
  /-- A completion, or a `send` from some thread. -/
  | session (uid : Uid) (e : Session.Event)
  | remove (uid : Uid)
  | closeReturns (uid : Uid)
  deriving DecidableEq, Repr

/-- A send, and no completion. -/
def isSend : Session.Event → Bool
  | .send _ _ => true
  | _ => false

def modify (uid : Uid) (f : Session → Session) (s : BaseServer) : BaseServer :=
  { s with session := Function.update s.session uid ((s.session uid).map f) }

/-- `removeSession`, on behalf of a `close`. -/
def remove (uid : Uid) (s : BaseServer) : BaseServer :=
  { s with
    m_sessionManager := s.m_sessionManager.removeSession uid
    removed := insert uid s.removed }

/-- `env uid` is the environment of that session, its handlers among it. -/
def step (env : Uid → Environment) (s : BaseServer) : Event → Option BaseServer
  | .accept uid =>
    match s.acceptor, s.session uid with
    | .waiting, none => some { s with
        acceptor := .posted uid
        session := Function.update s.session uid (some (Session.asyncRead .head {})) }
    | _, _ => none
  | .compareSize =>
    match s.acceptor with
    | .posted uid =>
      let s := s.modify uid (Session.notify .onConnected)
      if s.m_sessionManager.isFull then
        some { s.modify uid Session.close with acceptor := .rejecting uid }
      else some { s with acceptor := .inserting uid }
    | _ => none
  | .insert =>
    match s.acceptor with
    | .inserting uid => some { s with
        m_sessionManager := s.m_sessionManager.insertSession uid
        acceptor := .added uid }
    | _ => none
  | .removeRejected =>
    match s.acceptor with
    | .rejecting uid => some { s.remove uid with acceptor := .rejected uid }
    | _ => none
  | .closeRejectedReturns =>
    match s.acceptor with
    | .rejected uid => some { s with
        acceptor := .added uid
        closed := insert uid s.closed }
    | _ => none
  | .startReturns =>
    match s.acceptor with
    | .added uid => some { s with
        acceptor := .waiting
        started := insert uid s.started }
    | _ => none
  | .session uid e =>
    match s.session uid with
    | none => none
    | some x =>
      -- only a send may come while a handler is still closing the session
      if s.io uid = .ready ∨ isSend e then
        (x.step (env uid) e).map fun y => { s with
          session := Function.update s.session uid (some y)
          io :=
            if .onClosed ∈ x.news (env uid) e then Function.update s.io uid .removing else s.io }
      else none
  | .remove uid =>
    match s.io uid with
    | .removing => some { s.remove uid with io := Function.update s.io uid .closing }
    | _ => none
  | .closeReturns uid =>
    match s.io uid with
    | .closing => some { s with
        io := Function.update s.io uid .ready
        closed := insert uid s.closed }
    | _ => none

/-! ## What one step can do -/

/-- The steps, each with what has let it be taken. -/
inductive Move (env : Uid → Environment) (s : BaseServer) : Event → BaseServer → Prop where
  | accept {uid : Uid} (hacceptor : s.acceptor = .waiting) (hnew : s.session uid = none) :
      Move env s (.accept uid) { s with
        acceptor := .posted uid
        session := Function.update s.session uid (some (Session.asyncRead .head {})) }
  | full {uid : Uid} (hacceptor : s.acceptor = .posted uid)
      (hfull : s.m_sessionManager.isFull = true) :
      Move env s .compareSize
        { (s.modify uid (Session.notify .onConnected)).modify uid Session.close with
          acceptor := .rejecting uid }
  | notFull {uid : Uid} (hacceptor : s.acceptor = .posted uid)
      (hfull : ¬ s.m_sessionManager.isFull = true) :
      Move env s .compareSize
        { s.modify uid (Session.notify .onConnected) with acceptor := .inserting uid }
  | insert {uid : Uid} (hacceptor : s.acceptor = .inserting uid) :
      Move env s .insert { s with
        m_sessionManager := s.m_sessionManager.insertSession uid
        acceptor := .added uid }
  | removeRejected {uid : Uid} (hacceptor : s.acceptor = .rejecting uid) :
      Move env s .removeRejected { s.remove uid with acceptor := .rejected uid }
  | closeRejectedReturns {uid : Uid} (hacceptor : s.acceptor = .rejected uid) :
      Move env s .closeRejectedReturns { s with
        acceptor := .added uid
        closed := insert uid s.closed }
  | startReturns {uid : Uid} (hacceptor : s.acceptor = .added uid) :
      Move env s .startReturns { s with
        acceptor := .waiting
        started := insert uid s.started }
  | session {uid : Uid} {e : Session.Event} {x y : Session} (hx : s.session uid = some x)
      (hio : s.io uid = .ready ∨ isSend e = true) (hy : x.step (env uid) e = some y) :
      Move env s (.session uid e) { s with
        session := Function.update s.session uid (some y)
        io := if .onClosed ∈ x.news (env uid) e then Function.update s.io uid .removing else s.io }
  | remove {uid : Uid} (hio : s.io uid = .removing) :
      Move env s (.remove uid) { s.remove uid with io := Function.update s.io uid .closing }
  | closeReturns {uid : Uid} (hio : s.io uid = .closing) :
      Move env s (.closeReturns uid) { s with
        io := Function.update s.io uid .ready
        closed := insert uid s.closed }

theorem move_of_step {env : Uid → Environment} {s t : BaseServer} {e : Event}
    (h : s.step env e = some t) : Move env s e t := by
  cases e with
  | compareSize =>
    simp only [step] at h
    split at h
    · rename_i uid hacceptor
      split at h
      · rename_i hfull
        exact Option.some.inj h ▸ .full hacceptor hfull
      · rename_i hfull
        exact Option.some.inj h ▸ .notFull hacceptor hfull
    · cases h
  | session uid e =>
    simp only [step] at h
    split at h
    · cases h
    · rename_i x hx
      split at h
      · rename_i hio
        obtain ⟨y, hy, rfl⟩ := Option.map_eq_some_iff.mp h
        exact .session hx hio hy
      · cases h
  | accept | insert | removeRejected | closeRejectedReturns | startReturns | remove
  | closeReturns =>
    simp only [step] at h
    split at h <;> simp only [Option.some.injEq, reduceCtorEq] at h
    subst h
    constructor <;> assumption

/-! ## What one step does to the bookkeeping -/

/-- The session is inserted before any `close` of it has removed it. -/
def InTime (s : BaseServer) : Event → Prop
  | .insert => ∀ uid, s.acceptor = .inserting uid → uid ∉ s.removed
  | _ => True

/-- The removals are those of the `close` calls under way and of the returned ones. -/
structure Consistent (s : BaseServer) : Prop where
  closed : ∀ uid ∈ s.closed, uid ∈ s.removed
  closing : ∀ uid, s.io uid = .closing → uid ∈ s.removed
  rejected : ∀ uid, s.acceptor = .rejected uid → uid ∈ s.removed
  traced : ∀ uid ∈ s.removed,
    uid ∈ s.closed ∨ s.io uid = .closing ∨ s.acceptor = .rejected uid

/-- No removed session is in the map. -/
def Live (s : BaseServer) : Prop := ∀ uid ∈ s.removed, uid ∉ s.m_sessionManager.m_sessions

variable {env : Uid → Environment} {s t : BaseServer} {e : Event} {es : List Event}

theorem closing_of_update {io : Uid → IoThread} {uid u : Uid} {v : IoThread}
    (h : Function.update io uid v u = .closing) (hv : v ≠ .closing) : io u = .closing :=
  Threads.of_update (P := (· = IoThread.closing)) hv h

/-- An I/O thread that closes a session was not in the middle of another `close`. -/
theorem io_of_onClosed {x : Session} {uid : Uid} {e : Session.Event}
    (h : s.io uid = .ready ∨ isSend e = true) (hc : .onClosed ∈ x.news (env uid) e) :
    s.io uid = .ready := by
  rcases h with h | h
  · exact h
  · cases e <;> simp [isSend] at h
    simp [Session.news] at hc

/-- A step of the acceptor thread outside of its `close`. -/
theorem consistent_acceptor (hs : s.Consistent) (hclosed : t.closed = s.closed)
    (hio : t.io = s.io) (hremoved : t.removed = s.removed)
    (hold : ∀ uid, s.acceptor ≠ .rejected uid) (hnew : ∀ uid, t.acceptor ≠ .rejected uid) :
    t.Consistent where
  closed uid h := by
    rw [hremoved]
    exact hs.closed uid (hclosed ▸ h)
  closing uid h := by
    rw [hremoved]
    exact hs.closing uid (hio ▸ h)
  rejected uid h := absurd h (hnew uid)
  traced uid h := by
    rw [hclosed, hio]
    rcases hs.traced uid (hremoved ▸ h) with h | h | h
    · exact .inl h
    · exact .inr (.inl h)
    · exact absurd h (hold uid)

/-- A removal by a thread that goes on to return from its `close`. -/
theorem consistent_remove {uid : Uid} {a : Acceptor} {io : Uid → IoThread} (hs : s.Consistent)
    (hold : ∀ u, s.acceptor = .rejected u → a = .rejected u)
    (hio : ∀ u, s.io u = .closing → io u = .closing)
    (hnew : ∀ u, a = .rejected u ∨ io u = .closing → u = uid ∨ u ∈ s.removed)
    (huid : io uid = .closing ∨ a = .rejected uid) :
    Consistent { s.remove uid with acceptor := a, io := io } where
  closed u h := Finset.mem_insert_of_mem (hs.closed u h)
  closing u h := Finset.mem_insert.mpr (hnew u (.inr h))
  rejected u h := Finset.mem_insert.mpr (hnew u (.inl h))
  traced u h := by
    rcases Finset.mem_insert.mp h with rfl | h
    · exact .inr huid
    · rcases hs.traced u h with h | h | h
      · exact .inl h
      · exact .inr (.inl (hio u h))
      · exact .inr (.inr (hold u h))

theorem consistent_step (h : s.step env e = some t) (hs : s.Consistent) : t.Consistent := by
  cases move_of_step h with
  | accept hacceptor | full hacceptor | notFull hacceptor | insert hacceptor
  | startReturns hacceptor =>
    exact consistent_acceptor hs rfl rfl rfl (by simp [hacceptor]) (by simp)
  | @removeRejected uid hacceptor =>
    refine consistent_remove hs (by simp [hacceptor]) (fun _ => id) ?_ (.inr rfl)
    rintro u (hu | hu)
    · exact .inl (by simpa using hu.symm)
    · exact .inr (hs.closing u hu)
  | @closeRejectedReturns uid hacceptor =>
    refine ⟨?_, hs.closing, by simp, ?_⟩
    · intro u hu
      rcases Finset.mem_insert.mp hu with rfl | hu
      · exact hs.rejected u hacceptor
      · exact hs.closed u hu
    · intro u hu
      rcases hs.traced u hu with hu | hu | hu
      · exact .inl (Finset.mem_insert_of_mem hu)
      · exact .inr (.inl hu)
      · obtain rfl : uid = u := by simpa [hacceptor] using hu
        exact .inl (Finset.mem_insert_self uid s.closed)
  | @session uid e x y hx hio hy =>
    by_cases hc : .onClosed ∈ x.news (env uid) e
    · have hready := io_of_onClosed hio hc
      simp only [hc, if_true]
      refine ⟨hs.closed, ?_, hs.rejected, ?_⟩
      · intro u hu
        exact hs.closing u (closing_of_update hu (by simp))
      · intro u hu
        rcases hs.traced u hu with hu | hclosing | hu
        · exact .inl hu
        · have hout : s.io uid ≠ .closing := by simp [hready]
          exact .inr (.inl (Threads.update_of (P := (· = IoThread.closing)) hout hclosing))
        · exact .inr (.inr hu)
    · simp only [hc, if_false]
      exact ⟨hs.closed, hs.closing, hs.rejected, hs.traced⟩
  | @remove uid hio =>
    refine consistent_remove hs (fun _ => id) ?_ ?_ (.inl (by simp))
    · intro u hu
      by_cases hne : u = uid
      · simp [hne]
      · simpa [Function.update_of_ne hne] using hu
    · rintro u (hu | hu)
      · exact .inr (hs.rejected u hu)
      · by_cases hne : u = uid
        · exact .inl hne
        · exact .inr (hs.closing u (by simpa [Function.update_of_ne hne] using hu))
  | @closeReturns uid hio =>
    refine ⟨?_, ?_, hs.rejected, ?_⟩
    · intro u hu
      rcases Finset.mem_insert.mp hu with rfl | hu
      · exact hs.closing u hio
      · exact hs.closed u hu
    · intro u hu
      exact hs.closing u (closing_of_update hu (by simp))
    · intro u hu
      by_cases hne : u = uid
      · exact .inl (hne ▸ Finset.mem_insert_self uid s.closed)
      · rcases hs.traced u hu with hu | hu | hu
        · exact .inl (Finset.mem_insert_of_mem hu)
        · exact .inr (.inl (by simpa [Function.update_of_ne hne] using hu))
        · exact .inr (.inr hu)

theorem live_remove (uid : Uid) (hs : s.Live) : (s.remove uid).Live := by
  intro u hu hmem
  obtain ⟨hne, hmem⟩ := Finset.mem_erase.mp hmem
  rcases Finset.mem_insert.mp hu with rfl | hu
  · exact hne rfl
  · exact hs u hu hmem

/-- Only an insert that comes too late puts a removed session in the map. -/
theorem live_step (h : s.step env e = some t) (hin : InTime s e) (hs : s.Live) : t.Live := by
  cases move_of_step h with
  | @insert uid hacceptor =>
    intro u hu hmem
    rcases Finset.mem_insert.mp hmem with rfl | hmem
    · exact hin u hacceptor hu
    · exact hs u hu hmem
  | removeRejected | remove => exact live_remove _ hs
  | accept | full | notFull | closeRejectedReturns | startReturns | session | closeReturns =>
    exact hs

theorem consistent_initial (m_maxSessions : Nat) :
    Consistent { m_sessionManager := { m_maxSessions } } :=
  ⟨by simp, by simp, by simp, by simp⟩

/-- In every run in which each session is inserted before a `close` removes it, a session whose
`start` and some `close` of which have returned is not in the map. -/
theorem closed_not_tracked (m_maxSessions : Nat)
    (h : run (step env) { m_sessionManager := { m_maxSessions } } es = some s)
    (hin : Along (step env) InTime { m_sessionManager := { m_maxSessions } } es) :
    ∀ uid ∈ s.started, uid ∈ s.closed → uid ∉ s.m_sessionManager.m_sessions := by
  have hs : s.Consistent := run_preserves (I := Consistent)
    (fun _ _ _ hst hs => consistent_step hst hs) h (consistent_initial m_maxSessions)
  have hlive : s.Live := run_preserves_along (I := Live)
    (fun _ _ _ hst hin hs => live_step hst hin hs) h hin (by simp [Live])
  exact fun uid _ hclosed => hlive uid (hs.closed uid hclosed)

/-- One session, accepted and inserted, then reset by its peer. -/
theorem closed_not_tracked_reset :
    ∃ s, run (step fun _ => ⟨.littleEndian, fun _ _ => false⟩)
        { m_sessionManager := { m_maxSessions := 1 } }
        [.accept "a", .compareSize, .insert, .startReturns, .session "a" (.readDone 0 true []),
          .remove "a", .closeReturns "a"] = some s ∧
      "a" ∈ s.started ∧ "a" ∈ s.closed ∧ "a" ∉ s.m_sessionManager.m_sessions := by
  have h : run (step fun _ => ⟨.littleEndian, fun _ _ => false⟩)
      { m_sessionManager := { m_maxSessions := 1 } }
      [.accept "a", .compareSize, .insert, .startReturns, .session "a" (.readDone 0 true []),
        .remove "a", .closeReturns "a"] = some _ := rfl
  have hin : Along (step fun _ => ⟨.littleEndian, fun _ _ => false⟩) InTime
      { m_sessionManager := { m_maxSessions := 1 } }
      [.accept "a", .compareSize, .insert, .startReturns, .session "a" (.readDone 0 true []),
        .remove "a", .closeReturns "a"] := by
    refine ⟨trivial, fun t ht => ⟨trivial, fun u hu => ⟨fun uid huid => ?_, fun v hv => ?_⟩⟩⟩
    · obtain rfl := Option.some.inj ht
      obtain rfl := Option.some.inj hu
      exact Finset.notMem_empty uid
    · exact ⟨trivial, fun _ _ => ⟨trivial, fun _ _ => ⟨trivial, fun _ _ => ⟨trivial,
        fun _ _ => trivial⟩⟩⟩⟩
  exact ⟨_, h, by decide, by decide, closed_not_tracked 1 h hin "a" (by decide) (by decide)⟩

/-- The peer resets the connection between the post of the header read and `addSession`: the
session is removed before it is inserted, and stays in the map. -/
theorem removed_before_insert :
    ∃ s, run (step fun _ => ⟨.littleEndian, fun _ _ => false⟩) {}
        [.accept "a", .session "a" (.readDone 0 true []), .remove "a", .closeReturns "a",
          .compareSize, .insert, .startReturns] = some s ∧
      "a" ∈ s.started ∧ "a" ∈ s.closed ∧ "a" ∈ s.m_sessionManager.m_sessions :=
  ⟨_, rfl, by decide, by decide, by decide⟩

/-- The condition is needed: in a reachable state, an insert that comes too late leaves the
session in the map once the pending calls have returned. -/
theorem tracked_of_late_insert (m_maxSessions : Nat) {uid : Uid}
    (h : run (step env) { m_sessionManager := { m_maxSessions } } es = some s)
    (hacc : s.acceptor = .inserting uid) (hlate : ¬ InTime s .insert) :
    ∃ es t, run (step env) s (.insert :: es) = some t ∧
      uid ∈ t.started ∧ uid ∈ t.closed ∧ uid ∈ t.m_sessionManager.m_sessions := by
  have hs : s.Consistent := run_preserves (I := Consistent)
    (fun _ _ _ hst hs => consistent_step hst hs) h (consistent_initial m_maxSessions)
  have hrem : uid ∈ s.removed := by
    refine Classical.byContradiction fun hno => hlate fun u hu => ?_
    obtain rfl : uid = u := by simpa [hacc] using hu
    exact hno
  rcases hs.traced uid hrem with hclosed | hio | hrej
  · refine ⟨[.startReturns], ?_⟩
    simp [run_cons, step, hacc, hclosed, SessionManager.insertSession]
  · refine ⟨[.startReturns, .closeReturns uid], ?_⟩
    simp [run_cons, step, hacc, hio, SessionManager.insertSession]
  · simp [hacc] at hrej

end BaseServer

end NBRaft.Communication
