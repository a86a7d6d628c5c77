import NBRaft.Communication.Session

/-!
# The send queue

Senders and write completions share one decision, who starts the next write. `Ordered` is what
they keep between them until a write fails: the front packet of the queue is the one being
written, and the packets written so far and those behind the front are the accepted ones. A
failed write leaves its packet in front with nothing outstanding, so that nobody starts a write
again: `Halted`.
-/

namespace NBRaft.Communication.Session

open Transition

/-- A write completes with an error. -/
def Event.FailedWrite : Event → Prop
  | .writeDone _ failed => failed = true
  | _ => False

namespace SendSide

structure Ordered (q : SendSide) : Prop where
  outstanding : q.writing = q.m_sendQueue.head?.toList
  history : q.written ++ q.m_sendQueue.tail = q.accepted

/-- `written` is all that was ever handed to `async_write`, and will ever be. -/
structure Halted (written : List SendPacket) (q : SendSide) : Prop where
  pending : q.m_sendQueue ≠ []
  idle : q.writing = []
  final : q.written = written

def Bounded (q : SendSide) : Prop :=
  q.m_sendQueue.length ≤ MAX_SESSION_SEND_QUEUE_PENDING_SIZE

theorem Ordered.length_le {q : SendSide} (h : q.Ordered) : q.writing.length ≤ 1 := by
  rw [h.outstanding]
  cases q.m_sendQueue <;> simp

theorem Ordered.length_eq_one {q : SendSide} (h : q.Ordered) :
    q.writing.length = 1 ↔ q.m_sendQueue ≠ [] := by
  rw [h.outstanding]
  cases q.m_sendQueue <;> simp

theorem Ordered.front {q : SendSide} (h : q.Ordered) {p : SendPacket} (hp : p ∈ q.writing) :
    q.m_sendQueue.head? = some p := by
  rw [h.outstanding] at hp
  simpa using hp

end SendSide

/-! ## Sending -/

section

variable {s : Session} (order : ByteOrder) (slack : Slack) (data : Bytes)

theorem bounded_send (h : s.sendSide.Bounded) : (s.send order slack data).sendSide.Bounded := by
  by_cases hroom : s.m_sendQueue.length < MAX_SESSION_SEND_QUEUE_PENDING_SIZE
  · rw [sendSide_send_of_room order slack data hroom]
    simpa [SendSide.Bounded] using Nat.succ_le_of_lt hroom
  · rw [send_of_full order slack data (by omega)]
    exact h

theorem ordered_send (h : s.sendSide.Ordered) : (s.send order slack data).sendSide.Ordered := by
  obtain ⟨hout, hhist⟩ := h
  by_cases hroom : s.m_sendQueue.length < MAX_SESSION_SEND_QUEUE_PENDING_SIZE
  · rw [sendSide_send_of_room order slack data hroom]
    simp only [sendSide] at hout hhist
    cases hq : s.m_sendQueue with
    | nil =>
      rw [hq] at hout hhist
      constructor <;> simp_all
    | cons p ps =>
      rw [hq] at hout hhist
      constructor <;> simp [hout, ← hhist]
  · rw [send_of_full order slack data (by omega)]
    exact ⟨hout, hhist⟩

/-- With a packet left in front, a sender never starts a write. -/
theorem halted_send {written : List SendPacket} (h : s.sendSide.Halted written) :
    (s.send order slack data).sendSide.Halted written := by
  obtain ⟨hpend, hidle, hfinal⟩ := h
  by_cases hroom : s.m_sendQueue.length < MAX_SESSION_SEND_QUEUE_PENDING_SIZE
  · rw [sendSide_send_of_room order slack data hroom]
    simp only [sendSide] at hpend hidle hfinal
    constructor <;> simp [hpend, hidle, hfinal]
  · rw [send_of_full order slack data (by omega)]
    exact ⟨hpend, hidle, hfinal⟩

/-- A send is dropped exactly when 64 packets are pending. -/
theorem send_eq_self_iff (hb : s.sendSide.Bounded) :
    s.send order slack data = s ↔
      s.m_sendQueue.length = MAX_SESSION_SEND_QUEUE_PENDING_SIZE := by
  change s.m_sendQueue.length ≤ MAX_SESSION_SEND_QUEUE_PENDING_SIZE at hb
  constructor
  · intro hsend
    refine Classical.byContradiction fun hne => ?_
    have hqueue := m_sendQueue_send_of_room order slack data
      (show s.m_sendQueue.length < _ by omega)
    rw [hsend] at hqueue
    simp at hqueue
  · intro hfull
    exact send_of_full order slack data (by omega)

/-- Otherwise it is accepted, once and last. -/
theorem send_of_ne (hb : s.sendSide.Bounded)
    (hne : s.m_sendQueue.length ≠ MAX_SESSION_SEND_QUEUE_PENDING_SIZE) :
    let packet := SendPacket.create order slack data (UInt16.ofNat data.length)
    (s.send order slack data).accepted = s.accepted ++ [packet] ∧
      (s.send order slack data).m_sendQueue = s.m_sendQueue ++ [packet] := by
  change s.m_sendQueue.length ≤ MAX_SESSION_SEND_QUEUE_PENDING_SIZE at hb
  exact ⟨accepted_send_of_room order slack data (by omega),
    m_sendQueue_send_of_room order slack data (by omega)⟩

end

/-! ## Write completions -/

section

variable {s : Session} {i : Nat} {packet : SendPacket}

/-- The only write that can complete is the one for the front packet. -/
theorem writing_of_ordered (h : s.sendSide.Ordered) (hi : s.m_socket.writing[i]? = some packet) :
    i = 0 ∧ ∃ rest, s.m_sendQueue = packet :: rest := by
  have hout : s.m_socket.writing = s.m_sendQueue.head?.toList := h.outstanding
  rw [hout] at hi
  cases hq : s.m_sendQueue with
  | nil => simp [hq] at hi
  | cons p rest =>
    cases i with
    | zero => exact ⟨rfl, rest, by simpa [hq] using hi⟩
    | succ i => simp [hq] at hi

theorem ordered_completeWrite (h : s.sendSide.Ordered)
    (hi : s.m_socket.writing[i]? = some packet) :
    ((s.completeWrite i).handleWrite false).sendSide.Ordered := by
  obtain ⟨rfl, rest, hq⟩ := writing_of_ordered h hi
  obtain ⟨hout, hhist⟩ := h
  simp only [sendSide, hq] at hout hhist
  rw [sendSide_handleWrite]
  constructor
  · simp [completeWrite, hq, hout]
  · cases rest <;> simpa [completeWrite, hq] using hhist

theorem halted_of_failed (h : s.sendSide.Ordered) (hi : s.m_socket.writing[i]? = some packet) :
    ((s.completeWrite i).handleWrite true).sendSide.Halted s.m_socket.written := by
  obtain ⟨rfl, rest, hq⟩ := writing_of_ordered h hi
  have hout : s.m_socket.writing = s.m_sendQueue.head?.toList := h.outstanding
  constructor <;> simp [handleWrite, close, notify, completeWrite, sendSide, hq, hout]

theorem bounded_completeWrite (hb : s.sendSide.Bounded) (failed : Bool) :
    ((s.completeWrite i).handleWrite failed).sendSide.Bounded := by
  change s.m_sendQueue.length ≤ MAX_SESSION_SEND_QUEUE_PENDING_SIZE at hb
  cases failed with
  | true => exact hb
  | false =>
    rw [sendSide_handleWrite]
    simp only [SendSide.Bounded, completeWrite, List.length_tail]
    omega

end

/-! ## Runs -/

section

variable {env : Environment} {s t : Session} {e : Event} {es : List Event}

theorem bounded_step (h : s.step env e = some t) (hb : s.sendSide.Bounded) :
    t.sendSide.Bounded := by
  obtain ⟨slack, data, rfl, rfl⟩ | ⟨i, op, failed, bytes, rfl, -, -, rfl⟩ |
    ⟨i, failed, packet, rfl, -, rfl⟩ := step_cases h
  · exact bounded_send env.order slack data hb
  · simpa using hb
  · exact bounded_completeWrite hb failed

/-- Until a write fails the queue stays in order. -/
theorem ordered_step (h : s.step env e = some t) (he : ¬ e.FailedWrite)
    (ho : s.sendSide.Ordered) : t.sendSide.Ordered := by
  obtain ⟨slack, data, rfl, rfl⟩ | ⟨i, op, failed, bytes, rfl, -, -, rfl⟩ |
    ⟨i, failed, packet, rfl, hi, rfl⟩ := step_cases h
  · exact ordered_send env.order slack data ho
  · simpa using ho
  · obtain rfl : failed = false := by simpa [Event.FailedWrite] using he
    exact ordered_completeWrite ho hi

/-- The failed write halts it. -/
theorem halted_step_failed (h : s.step env e = some t) (he : e.FailedWrite)
    (ho : s.sendSide.Ordered) : t.sendSide.Halted s.m_socket.written := by
  obtain ⟨slack, data, rfl, -⟩ | ⟨i, op, failed, bytes, rfl, -, -, -⟩ |
    ⟨i, failed, packet, rfl, hi, rfl⟩ := step_cases h
  · exact he.elim
  · exact he.elim
  · obtain rfl : failed = true := he
    exact halted_of_failed ho hi

/-- A halted queue has no completions left, and stays halted. -/
theorem halted_step {written : List SendPacket} (h : s.step env e = some t)
    (hh : s.sendSide.Halted written) : t.sendSide.Halted written ∧ ¬ e.FailedWrite := by
  obtain ⟨slack, data, rfl, rfl⟩ | ⟨i, op, failed, bytes, rfl, -, -, rfl⟩ |
    ⟨i, failed, packet, rfl, hi, rfl⟩ := step_cases h
  · exact ⟨halted_send env.order slack data hh, id⟩
  · exact ⟨by simpa using hh, id⟩
  · have hidle : s.m_socket.writing = [] := hh.idle
    simp [hidle] at hi

theorem ordered_run (h : run (step env) s es = some t) (hes : ∀ e ∈ es, ¬ e.FailedWrite)
    (ho : s.sendSide.Ordered) : t.sendSide.Ordered := by
  induction es generalizing s with
  | nil => exact Option.some.inj h ▸ ho
  | cons e es ih =>
    obtain ⟨u, hu, hrun⟩ := run_cons_eq_some.mp h
    exact ih hrun (fun e' he' => hes e' (by simp [he'])) (ordered_step hu (hes e (by simp)) ho)

/-- Every reachable queue is in order or halted. -/
theorem ordered_or_halted_run (h : run (step env) s es = some t)
    (hs : s.sendSide.Ordered ∨ ∃ written, s.sendSide.Halted written) :
    t.sendSide.Ordered ∨ ∃ written, t.sendSide.Halted written := by
  refine run_preserves
    (I := fun x => x.sendSide.Ordered ∨ ∃ written, x.sendSide.Halted written) ?_ h hs
  rintro a e b hab (ho | ⟨written, hh⟩)
  · by_cases he : e.FailedWrite
    · exact .inr ⟨_, halted_step_failed hab he ho⟩
    · exact .inl (ordered_step hab he ho)
  · exact .inr ⟨written, (halted_step hab hh).1⟩

theorem ordered_start (full : Bool) : (start full {}).sendSide.Ordered := by
  rw [sendSide_start]
  constructor <;> rfl

theorem bounded_run (full : Bool) (h : run (step env) (start full {}) es = some s) :
    s.sendSide.Bounded := by
  refine run_preserves (I := fun x => x.sendSide.Bounded)
    (fun a e b hab ha => bounded_step hab ha) h ?_
  rw [sendSide_start]
  simp [SendSide.Bounded, sendSide]

/-- The discipline of the send queue, in every state a started session reaches. -/
theorem sendQueue_disciplined {full : Bool} (h : run (step env) (start full {}) es = some s) :
    ((∀ e ∈ es, ¬ e.FailedWrite) →
      s.m_socket.writing.length ≤ 1 ∧
      (s.m_socket.writing.length = 1 ↔ s.m_sendQueue ≠ []) ∧
      (∀ packet ∈ s.m_socket.writing, s.m_sendQueue.head? = some packet) ∧
      s.m_socket.written ++ s.m_sendQueue.tail = s.accepted) ∧
    (∀ slack data,
      (s.send env.order slack data = s ↔
        s.m_sendQueue.length = MAX_SESSION_SEND_QUEUE_PENDING_SIZE) ∧
      (s.m_sendQueue.length ≠ MAX_SESSION_SEND_QUEUE_PENDING_SIZE →
        let packet := SendPacket.create env.order slack data (UInt16.ofNat data.length)
        (s.send env.order slack data).accepted = s.accepted ++ [packet] ∧
          (s.send env.order slack data).m_sendQueue = s.m_sendQueue ++ [packet])) ∧
    (∀ e later t, e.FailedWrite → run (step env) s (e :: later) = some t →
      t.m_socket.written = s.m_socket.written) := by
  refine ⟨fun hes => ?_, fun slack data => ?_, fun e later t he hrun => ?_⟩
  · have ho := ordered_run h hes (ordered_start full)
    exact ⟨ho.length_le, ho.length_eq_one, fun _ => ho.front, ho.history⟩
  · have hb := bounded_run full h
    exact ⟨send_eq_self_iff env.order slack data hb, send_of_ne env.order slack data hb⟩
  · obtain ⟨u, hu, hlater⟩ := run_cons_eq_some.mp hrun
    obtain ho | ⟨written, hh⟩ := ordered_or_halted_run h (.inl (ordered_start full))
    · have hhalt := halted_step_failed hu he ho
      have := run_preserves (I := fun x => x.sendSide.Halted s.m_socket.written)
        (fun a e b hab ha => (halted_step hab ha).1) hlater hhalt
      exact this.final
    · exact absurd he (halted_step hu hh).2

/-- Two sends, and the first write done: the second packet is being written. -/
theorem sendQueue_disciplined_twoSends :
    ∃ s, run (step ⟨.littleEndian, fun _ _ => false⟩) (start false {})
        [.send (0, 0) [1], .send (0, 0) [2], .writeDone 0 false] = some s ∧
      s.m_socket.writing.length = 1 ∧ s.accepted.length = 2 ∧
      s.m_socket.written ++ s.m_sendQueue.tail = s.accepted := by
  have h : run (step ⟨.littleEndian, fun _ _ => false⟩) (start false {})
      [.send (0, 0) [1], .send (0, 0) [2], .writeDone 0 false] = some _ := rfl
  have hok : ∀ e ∈ [Event.send (0, 0) [1], .send (0, 0) [2], .writeDone 0 false],
      ¬ e.FailedWrite := by simp [Event.FailedWrite]
  exact ⟨_, h, rfl, rfl, ((sendQueue_disciplined h).1 hok).2.2.2⟩

end

end NBRaft.Communication.Session
