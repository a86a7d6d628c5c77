import NBRaft.Communication.Session

/-!
# Closing a session

Nothing in a session remembers that it was closed. The completions still outstanding after a
`close` are handled like any others: one that failed closes the session again, and a body that
had already arrived is dispatched. `closeFinal_iff` says which completions have to stay out for
the close to be final.
-/

namespace NBRaft.Communication.Session

open Transition

/-- `onClosed` at most once, and no `onDataReady` after it. -/
def CloseFinal (notified : List Notification) : Prop :=
  notified.count .onClosed ≤ 1 ∧
    notified.Pairwise fun earlier later => earlier = .onClosed → ∀ data, later ≠ .onDataReady data

/-- A send, a write that went well, or a header that went well and is not over the limit. -/
def Quiet (env : Environment) (s : Session) : Event → Prop
  | .send _ _ => True
  | .readDone i failed bytes =>
    failed = false ∧ s.m_socket.reading[i]? = some .head ∧
      (headSize env.order bytes).toNat ≤ PACKET_MAX_SIZE
  | .writeDone _ failed => failed = false

theorem CloseFinal.left {ns ms : List Notification} (h : CloseFinal (ns ++ ms)) :
    CloseFinal ns := by
  obtain ⟨hcount, hpair⟩ := h
  rw [List.count_append] at hcount
  exact ⟨by omega, (List.pairwise_append.mp hpair).1⟩

/-- Before the close, whatever one step notifies leaves the close final. -/
theorem CloseFinal.append_news (env : Environment) (s : Session) (e : Event)
    {ns : List Notification} (h : CloseFinal ns) (hopen : .onClosed ∉ ns) :
    CloseFinal (ns ++ news env s e) := by
  have hnews : CloseFinal (news env s e) := by
    cases e with
    | send => simp [news, CloseFinal]
    | readDone i failed bytes =>
      simp only [news]
      split
      · simp [CloseFinal]
      · split_ifs <;> simp [CloseFinal]
      · split_ifs <;> simp [CloseFinal]
    | writeDone i failed => cases failed <;> simp [news, CloseFinal]
  refine ⟨?_, List.pairwise_append.mpr ⟨h.2, hnews.2, ?_⟩⟩
  · rw [List.count_append, List.count_eq_zero.mpr hopen, Nat.zero_add]
    exact hnews.1
  · rintro n hn m - rfl
    exact absurd hn hopen

theorem onConnected_notMem_news (env : Environment) (s : Session) (e : Event) :
    .onConnected ∉ news env s e := by
  cases e with
  | send => simp [news]
  | readDone i failed bytes =>
    simp only [news]
    split
    · simp
    · split_ifs <;> simp
    · split_ifs <;> simp
  | writeDone i failed => cases failed <;> simp [news]

/-- After the close, only silence leaves it final. -/
theorem closeFinal_append_iff (env : Environment) (s : Session) (e : Event)
    {ns : List Notification} (h : CloseFinal ns) (hclosed : .onClosed ∈ ns) :
    CloseFinal (ns ++ news env s e) ↔ news env s e = [] := by
  constructor
  · rintro ⟨hcount, hpair⟩
    have hone : 1 ≤ ns.count .onClosed := List.count_pos_iff.mpr hclosed
    have hno : .onClosed ∉ news env s e := by
      rw [List.count_append] at hcount
      exact List.count_eq_zero.mp (by omega)
    refine List.eq_nil_iff_forall_not_mem.mpr fun n hn => ?_
    have hdata := (List.pairwise_append.mp hpair).2.2 _ hclosed n hn rfl
    cases n with
    | onConnected => exact onConnected_notMem_news env s e hn
    | onDataReady data => exact hdata data rfl
    | onClosed => exact hno hn
  · intro hnil
    rwa [hnil, List.append_nil]

theorem news_eq_nil_iff {env : Environment} {s t : Session} {e : Event}
    (h : s.step env e = some t) : news env s e = [] ↔ Quiet env s e := by
  obtain ⟨slack, data, rfl, -⟩ | ⟨i, op, failed, bytes, rfl, hop, -, -⟩ |
    ⟨i, failed, packet, rfl, -, -⟩ := step_cases h
  · simp [news, Quiet]
  · cases op <;> cases failed <;> simp [news, Quiet, hop]
  · cases failed <;> simp [news, Quiet]

/-- What the criterion rests on: the socket is shut once `onClosed` was dispatched. -/
structure Tracked (s : Session) : Prop where
  buffered : s.HeadBuffered
  isOpen : s.m_socket.isOpen = false ↔ .onClosed ∈ s.notified

theorem tracked_start (full : Bool) : (start full {}).Tracked := by
  refine ⟨headBuffered_start full, ?_⟩
  cases full <;> simp [start, asyncRead, notify, close]

theorem tracked_step {env : Environment} {s t : Session} {e : Event}
    (h : s.step env e = some t) (hs : s.Tracked) : t.Tracked := by
  refine ⟨headBuffered_step h hs.buffered, ?_⟩
  rw [isOpen_step hs.buffered h, notified_step hs.buffered h, List.mem_append, ← hs.isOpen]
  cases s.m_socket.isOpen <;> simp

/-- In every run of a started session, the close is final exactly when every completion
delivered after it is quiet. -/
theorem closeFinal_iff (env : Environment) (full : Bool) (es : List Event) (s : Session)
    (h : run (step env) (start full {}) es = some s) :
    CloseFinal s.notified ↔
      Along (step env) (fun s e => s.m_socket.isOpen = false → Quiet env s e)
        (start full {}) es := by
  refine run_iff_along (I := Tracked) (P := fun s => CloseFinal s.notified)
    (fun _ _ _ => tracked_step) ?_ ?_ h (tracked_start full) ?_
  · intro s e t hst hs ht
    rw [notified_step hs.buffered hst] at ht
    exact ht.left
  · intro s e t hst hs hP
    rw [notified_step hs.buffered hst, ← news_eq_nil_iff hst, hs.isOpen]
    by_cases hclosed : .onClosed ∈ s.notified
    · rw [closeFinal_append_iff env s e hP hclosed]
      exact ⟨fun hnil _ => hnil, fun hnil => hnil hclosed⟩
    · exact ⟨fun _ hc => absurd hc hclosed, fun _ => hP.append_news env s e hclosed⟩
  · cases full <;> simp [start, asyncRead, notify, close, CloseFinal]

theorem closeFinal_iff_readFails :
    ∃ s, run (step ⟨.littleEndian, fun _ _ => false⟩) (start false {})
        [.readDone 0 true []] = some s ∧
      CloseFinal s.notified :=
  ⟨_, rfl, (closeFinal_iff ⟨.littleEndian, fun _ _ => false⟩ false [.readDone 0 true []] _ rfl).mpr
    (by simp [Along, start, asyncRead, notify])⟩

/-- The peer resets the connection with a write outstanding: both completions fail. -/
theorem closed_twice :
    ∃ s, run (step ⟨.littleEndian, fun _ _ => false⟩) (start false {})
        [.send (0, 0) [1], .writeDone 0 true, .readDone 0 true []] = some s ∧
      ¬ CloseFinal s.notified :=
  ⟨_, rfl, fun h => absurd h.1 (by decide)⟩

-- a body that had arrived before the write failed is dispatched on the closed session
example :
    ∃ s, run (step ⟨.littleEndian, fun _ _ => false⟩) (start false {})
        [.readDone 0 false [0, 1, 0, 0], .send (0, 0) [1], .writeDone 0 true,
          .readDone 0 false [7]] = some s ∧
      s.notified = [.onConnected, .onClosed, .onDataReady [7]] :=
  ⟨_, rfl, by decide⟩

end NBRaft.Communication.Session
