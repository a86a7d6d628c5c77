import NBRaft.Communication.SessionManager

/-!
# The number of sessions

Only the acceptor thread adds sessions, one after the other, so between the comparison with
`m_maxSessions` and the insertion the map can only lose sessions, and the limit is kept. The map
has no mutex; each access to it is taken as atomic here.
-/

namespace NBRaft.Communication.BaseServer

open Transition

variable {env : Uid → Environment} {s t : BaseServer} {e : Event} {es : List Event} {uid : Uid}
  {n : Nat}

/-- Some `close` has removed the session, or the map has it. -/
def Accounted (uid : Uid) (s : BaseServer) : Prop :=
  uid ∈ s.m_sessionManager.m_sessions ∨ uid ∈ s.removed

/-- The session that the acceptor thread is at. -/
def atHand : Acceptor → Option Uid
  | .waiting => none
  | .posted uid | .inserting uid | .rejecting uid | .rejected uid | .added uid => some uid

structure Limited (n : Nat) (s : BaseServer) : Prop where
  limit : s.m_sessionManager.m_maxSessions = n
  card : s.m_sessionManager.m_sessions.card ≤ n
  room : ∀ uid, s.acceptor = .inserting uid → s.m_sessionManager.m_sessions.card < n
  current : ∀ uid, atHand s.acceptor = some uid → (s.session uid).isSome = true
  accepted : ∀ uid ∈ s.m_sessionManager.m_sessions, (s.session uid).isSome = true
  rejected : ∀ uid, s.acceptor = .rejected uid → s.Accounted uid
  added : ∀ uid, s.acceptor = .added uid → s.Accounted uid
  started : ∀ uid ∈ s.started, s.Accounted uid

theorem isSome_modify {f : Session → Session} (u : Uid) :
    ((s.modify uid f).session u).isSome = (s.session u).isSome := by
  by_cases hu : u = uid
  · subst hu
    simp [modify]
  · simp [modify, Function.update_of_ne hu]

theorem isSome_update {x : Session} {u : Uid} (h : (s.session u).isSome = true) :
    (Function.update s.session uid (some x) u).isSome = true := by
  by_cases hu : u = uid
  · subst hu
    simp
  · rwa [Function.update_of_ne hu]

/-- What is accounted for stays so. -/
theorem Move.accounted (h : Move env s e t) {u : Uid} (hu : s.Accounted u) : t.Accounted u := by
  cases h with
  | insert => exact hu.imp_left Finset.mem_insert_of_mem
  | @removeRejected uid | @remove uid =>
    by_cases heq : u = uid
    · exact .inr (Finset.mem_insert.mpr (.inl heq))
    · exact hu.imp (fun h => Finset.mem_erase.mpr ⟨heq, h⟩) Finset.mem_insert_of_mem
  | _ => exact hu

theorem Move.limited (h : Move env s e t) (hs : s.Limited n) : t.Limited n := by
  have hstarted : ∀ u ∈ s.started, t.Accounted u := fun u hu => h.accounted (hs.started u hu)
  cases h with
  | @accept uid hacceptor hnew =>
    refine ⟨hs.limit, hs.card, nofun, ?_, fun u hu => isSome_update (hs.accepted u hu), nofun,
      nofun, hstarted⟩
    rintro u hu
    obtain rfl := Option.some.inj hu
    simp
  | full hacceptor hfull =>
    refine ⟨hs.limit, hs.card, nofun, fun u hu => ?_, fun u hu => ?_, nofun, nofun, hstarted⟩
    · rw [isSome_modify, isSome_modify]
      exact hs.current u (by rw [hacceptor]; exact hu)
    · rw [isSome_modify, isSome_modify]
      exact hs.accepted u hu
  | notFull hacceptor hfull =>
    refine ⟨hs.limit, hs.card, fun u hu => ?_, fun u hu => ?_, fun u hu => ?_, nofun, nofun,
      hstarted⟩
    · have hlimit := hs.limit
      simp only [SessionManager.isFull, decide_eq_true_eq] at hfull
      simp only [modify]
      omega
    · rw [isSome_modify]
      exact hs.current u (by rw [hacceptor]; exact hu)
    · rw [isSome_modify]
      exact hs.accepted u hu
  | @insert uid hacceptor =>
    have hroom := hs.room uid hacceptor
    have hcurrent := hs.current uid (by rw [hacceptor]; rfl)
    refine ⟨hs.limit, ?_, nofun, fun u hu => ?_, fun u hu => ?_, nofun, fun u hu => ?_, hstarted⟩
    · exact Nat.le_trans (Finset.card_insert_le ..) hroom
    · obtain rfl := Option.some.inj hu
      exact hcurrent
    · rcases Finset.mem_insert.mp hu with rfl | hu
      · exact hcurrent
      · exact hs.accepted u hu
    · obtain rfl : uid = u := Acceptor.added.inj hu
      exact .inl (Finset.mem_insert_self ..)
  | @removeRejected uid hacceptor =>
    have hcard := Finset.card_erase_le (s := s.m_sessionManager.m_sessions) (a := uid)
    refine ⟨hs.limit, hcard.trans hs.card, nofun, fun u hu => ?_,
      fun u hu => hs.accepted u (Finset.mem_of_mem_erase hu), fun u hu => ?_, nofun, hstarted⟩
    · exact hs.current u (by rw [hacceptor]; exact hu)
    · obtain rfl : uid = u := Acceptor.rejected.inj hu
      exact .inr (Finset.mem_insert_self ..)
  | @closeRejectedReturns uid hacceptor =>
    refine ⟨hs.limit, hs.card, nofun, fun u hu => ?_, hs.accepted, nofun, fun u hu => ?_,
      hstarted⟩
    · exact hs.current u (by rw [hacceptor]; exact hu)
    · obtain rfl : uid = u := Acceptor.added.inj hu
      exact hs.rejected uid hacceptor
  | @startReturns uid hacceptor =>
    refine ⟨hs.limit, hs.card, nofun, nofun, hs.accepted, nofun, nofun, fun u hu => ?_⟩
    rcases Finset.mem_insert.mp hu with rfl | hu
    · exact hs.added u hacceptor
    · exact hs.started u hu
  | session =>
    exact ⟨hs.limit, hs.card, hs.room, fun u hu => isSome_update (hs.current u hu),
      fun u hu => isSome_update (hs.accepted u hu), hs.rejected, hs.added, hstarted⟩
  | @remove uid hio =>
    have hcard := Finset.card_erase_le (s := s.m_sessionManager.m_sessions) (a := uid)
    have hmove : Move env s (.remove uid) _ := .remove hio
    exact ⟨hs.limit, hcard.trans hs.card, fun u hu => Nat.lt_of_le_of_lt hcard (hs.room u hu),
      hs.current, fun u hu => hs.accepted u (Finset.mem_of_mem_erase hu),
      fun u hu => hmove.accounted (hs.rejected u hu),
      fun u hu => hmove.accounted (hs.added u hu), hstarted⟩
  | closeReturns => exact ⟨hs.limit, hs.card, hs.room, hs.current, hs.accepted, hs.rejected,
      hs.added, hstarted⟩

/-- However accepting, closing and the sessions' own threads interleave: the map never has more
than `m_maxSessions` sessions, all of which have been accepted, and it has every session whose
`start` has returned, unless some `close` has removed that. -/
theorem sessions_limited (m_maxSessions : Nat)
    (h : run (step env) { m_sessionManager := { m_maxSessions } } es = some s) :
    s.m_sessionManager.m_sessions.card ≤ m_maxSessions ∧
      (∀ uid ∈ s.m_sessionManager.m_sessions, (s.session uid).isSome = true) ∧
      ∀ uid ∈ s.started, uid ∈ s.m_sessionManager.m_sessions ∨ uid ∈ s.removed := by
  have hs : s.Limited m_maxSessions := by
    refine run_preserves (I := Limited m_maxSessions)
      (fun _ _ _ hst hs => (move_of_step hst).limited hs) h ?_
    exact ⟨rfl, by simp, nofun, nofun, by simp, nofun, nofun, by simp⟩
  exact ⟨hs.card, hs.accepted, hs.started⟩

/-- With room for one session the second one is turned away. -/
theorem sessions_limited_one :
    ∃ s, run (step fun _ => ⟨.littleEndian, fun _ _ => false⟩)
        { m_sessionManager := { m_maxSessions := 1 } }
        [.accept "a", .compareSize, .insert, .startReturns, .accept "b", .compareSize,
          .removeRejected, .closeRejectedReturns, .startReturns] = some s ∧
      s.started = {"a", "b"} ∧ s.m_sessionManager.m_sessions = {"a"} ∧
      s.m_sessionManager.m_sessions.card ≤ 1 := by
  have h : run (step fun _ => ⟨.littleEndian, fun _ _ => false⟩)
      { m_sessionManager := { m_maxSessions := 1 } }
      [.accept "a", .compareSize, .insert, .startReturns, .accept "b", .compareSize,
        .removeRejected, .closeRejectedReturns, .startReturns] = some _ := rfl
  exact ⟨_, h, by decide, by decide, (sessions_limited 1 h).1⟩

end NBRaft.Communication.BaseServer
