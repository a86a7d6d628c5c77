import NBRaft.Communication.Delivery
import NBRaft.Communication.SendQueue

/-!
# A connection between two sessions

One direction of a connection: what one session writes is what the other reads, in order. A
`Link` says which payloads are in flight from the sending side of the one to the reading side of
the other; sending puts one in at the end, reading a body takes one out at the front, and
nothing else changes them.
-/

namespace NBRaft.Communication

open Framing Session

/-- The bytes of the packets, in the order they were written. -/
def byteStream (packets : List SendPacket) : Bytes := packets.flatMap SendPacket.bytes

theorem byteStream_append (ps qs : List SendPacket) :
    byteStream (ps ++ qs) = byteStream ps ++ byteStream qs :=
  List.flatMap_append

/-- The first outstanding read with the bytes it completes with, if so many have arrived. -/
def Session.nextRead (s : Session) (unread : Bytes) : Option (ReadOp × Bytes) :=
  match s.m_socket.reading with
  | [] => none
  | op :: _ =>
    if s.requested op ≤ unread.length then some (op, unread.take (s.requested op)) else none

/-- `payloads` are in flight from the sending side to the reading side, which has read
`consumed` bytes so far. -/
structure Link (order : ByteOrder) (w : SendSide) (r : ReadSide) (consumed : Nat)
    (payloads : List Bytes) : Prop where
  ordered : w.Ordered
  consumed_le : consumed ≤ (byteStream w.written).length
  awaits : r.Awaits order ((byteStream w.accepted).drop consumed) payloads
  reading : r.reading ≠ []

/-- 1 while a header is to be read, which is one step more than when its body is. -/
def Session.ReadSide.headAhead (r : ReadSide) : Nat := if r.reading = [.head] then 1 else 0

/-- A read that finds its bytes can complete. -/
theorem Session.step_nextRead {s : Session} {unread bytes : Bytes} {op : ReadOp}
    (env : Environment) (h : s.nextRead unread = some (op, bytes)) :
    ∃ t, s.step env (.readDone 0 false bytes) = some t := by
  simp only [nextRead] at h
  split at h
  · cases h
  rename_i op' rest hreading
  split at h
  · rename_i hlen
    obtain ⟨rfl, rfl⟩ : op' = op ∧ _ = bytes := by simpa using h
    simp [step, hreading, hlen]
  · cases h

namespace Link

variable {order : ByteOrder} {w : SendSide} {r : ReadSide} {s : Session}
  {consumed : Nat} {payloads : List Bytes} {op : ReadOp} {bytes : Bytes}

theorem fresh (order : ByteOrder) (full full' : Bool) :
    Link order (start full {}).sendSide (start full' {}).readSide 0 [] := by
  refine ⟨ordered_start full, ?_, ?_, ?_⟩
  · exact Nat.zero_le _
  · have haccepted : (start full {}).sendSide.accepted = [] := by cases full <;> rfl
    rw [haccepted]
    exact awaits_start full' Frames.nil (by simp)
  · cases full' <;> simp [start, asyncRead, notify, close, readSide]

/-- An accepted packet is a frame at the end of the stream. -/
theorem send (hl : Link order s.sendSide r consumed payloads) (slack : Slack) {data : Bytes}
    (hroom : s.m_sendQueue.length < MAX_SESSION_SEND_QUEUE_PENDING_SIZE)
    (hsize : data.length ≤ PACKET_MAX_SIZE) :
    Link order (s.send order slack data).sendSide r consumed (payloads ++ [data]) := by
  obtain ⟨hord, hle, ⟨hbuf, hlimit, hread⟩, hne⟩ := hl
  have hacc : s.m_socket.written ++ s.m_sendQueue.tail = s.accepted := hord.history
  have hle' : consumed ≤ (byteStream s.accepted).length := by
    rw [← hacc, byteStream_append, List.length_append]
    exact Nat.le_add_right_of_le hle
  have haccepted := accepted_send_of_room order slack data hroom
  have hstream : (byteStream (s.send order slack data).accepted).drop consumed =
      (byteStream s.accepted).drop consumed ++
        (SendPacket.create order slack data (UInt16.ofNat data.length)).bytes := by
    rw [haccepted, byteStream_append, List.drop_append_of_le_length hle']
    simp [byteStream]
  refine ⟨ordered_send order slack data hord, ?_, ⟨hbuf, ?_, ?_⟩, hne⟩
  · rw [sendSide_send_of_room order slack data hroom]
    change consumed ≤ (byteStream s.m_socket.written).length at hle
    simp only [byteStream_append, List.length_append]
    omega
  · intro payload hp
    rcases List.mem_append.mp hp with hp | hp
    · exact hlimit payload hp
    · obtain rfl := List.mem_singleton.mp hp
      exact hsize
  · obtain ⟨phase, hw, hexp⟩ := hread.resolve_left hne
    refine .inr ⟨phase, hw, ?_⟩
    change Expects (header order) phase
      ((byteStream (s.send order slack data).accepted).drop consumed) _
    rw [hstream]
    exact hexp.append (isFrame_create order slack hsize)

/-- Completing a write takes a packet off the queue, and changes nothing for the reader. -/
theorem write {env : Environment} {t : Session}
    (hl : Link order s.sendSide r consumed payloads)
    (h : s.step env (.writeDone 0 false) = some t) :
    Link order t.sendSide r consumed payloads ∧ t.readSide = s.readSide ∧
      t.m_sendQueue.length + 1 = s.m_sendQueue.length := by
  obtain ⟨_, _, he, -⟩ | ⟨_, _, _, _, he, -⟩ | ⟨i, failed, packet, he, hw, rfl⟩ := step_cases h
  · cases he
  · cases he
  obtain ⟨rfl, rfl⟩ : 0 = i ∧ false = failed := by simpa using he
  obtain ⟨-, rest, hqueue⟩ := writing_of_ordered hl.ordered hw
  have hord := ordered_completeWrite hl.ordered hw
  have hside := sendSide_handleWrite (s.completeWrite 0)
  refine ⟨⟨hord, ?_, ?_, hl.reading⟩, by simp, ?_⟩
  · have hle : consumed ≤ (byteStream s.m_socket.written).length := hl.consumed_le
    rw [hside]
    simp only [completeWrite, byteStream_append, List.length_append]
    omega
  · rw [hside]
    exact hl.awaits
  · rw [show ((s.completeWrite 0).handleWrite false).m_sendQueue = s.m_sendQueue.tail from
      congrArg SendSide.m_sendQueue hside, hqueue]
    rfl

/-- What the next read finds is the front of the unread part of the stream. -/
theorem nextRead_eq (hl : Link order w s.readSide consumed payloads)
    (h : s.nextRead ((byteStream w.written).drop consumed) = some (op, bytes)) :
    s.m_socket.reading[0]? = some op ∧ bytes.length = s.requested op ∧
      consumed + bytes.length ≤ (byteStream w.written).length ∧
      (byteStream w.accepted).drop consumed =
        bytes ++ (byteStream w.accepted).drop (consumed + bytes.length) := by
  simp only [nextRead] at h
  split at h
  · cases h
  rename_i op' rest hreading
  split at h
  · rename_i hlen
    obtain ⟨rfl, rfl⟩ : op' = op ∧ _ = bytes := by simpa using h
    have hbytes : (List.take (s.requested op') ((byteStream w.written).drop consumed)).length =
        s.requested op' := by
      rw [List.length_take]
      omega
    have hle := hl.consumed_le
    have hdrop : consumed + s.requested op' ≤ (byteStream w.written).length := by
      rw [List.length_drop] at hlen
      omega
    refine ⟨by simp [hreading], hbytes, by rw [hbytes]; exact hdrop, ?_⟩
    rw [hbytes, ← hl.ordered.history, byteStream_append, List.drop_append_of_le_length hle,
      List.drop_append_of_le_length hdrop, ← List.append_assoc, ← List.drop_drop,
      List.take_append_drop]
  · cases h

/-- A header that is read leaves the payloads in flight. -/
theorem read_head (env : Environment) (hl : Link env.order w s.readSide consumed payloads)
    (h : s.nextRead ((byteStream w.written).drop consumed) = some (.head, bytes)) :
    ∃ t, s.step env (.readDone 0 false bytes) = some t ∧
      Link env.order w t.readSide (consumed + bytes.length) payloads ∧
      t.sendSide = s.sendSide ∧ t.readSide.headAhead + 1 = s.readSide.headAhead := by
  obtain ⟨hop, hlen, hle, hstream⟩ := hl.nextRead_eq h
  have ha := hl.awaits
  rw [hstream] at ha
  obtain ⟨hmax, ha'⟩ := awaits_read_head ha hop hlen
  refine ⟨_, by simp [step, hop, hlen]; rfl, ?_, by simp, ?_⟩
  · rw [← hlen]
    refine ⟨hl.ordered, hle, ha', ?_⟩
    rw [handleRead_head env 0 hl.awaits.buffered hlen, if_neg (by omega)]
    simp [readSide, asyncRead]
  · have hreading : s.m_socket.reading = [.head] := by
      obtain ⟨phase, hw, -⟩ := hl.awaits.reading.resolve_left hl.reading
      cases phase with
      | head => exact hw
      | body size => simp [show s.m_socket.reading = [.body] from hw.1] at hop
    rw [← hlen, handleRead_head env 0 hl.awaits.buffered hlen, if_neg (by omega)]
    simp [ReadSide.headAhead, readSide, asyncRead, completeRead, hreading]

/-- A body is the first payload in flight. -/
theorem nextRead_body (hl : Link order w s.readSide consumed payloads)
    (h : s.nextRead ((byteStream w.written).drop consumed) = some (.body, bytes)) :
    ∃ payloads', payloads = bytes :: payloads' := by
  obtain ⟨hop, hlen, -, hstream⟩ := hl.nextRead_eq h
  obtain ⟨phase, hw, hexp⟩ := hl.awaits.reading.resolve_left hl.reading
  cases phase with
  | head => simp [show s.m_socket.reading = [.head] from hw] at hop
  | body size =>
    rw [hstream] at hexp
    obtain ⟨payloads', heq, -⟩ := hexp.read_body (hlen.trans hw.2)
    exact ⟨payloads', heq⟩

theorem read_body (env : Environment) (hl : Link env.order w s.readSide consumed payloads)
    (h : s.nextRead ((byteStream w.written).drop consumed) = some (.body, bytes))
    (hquiet : env.handlerThrows (dispatched s.notified) bytes = false) :
    ∃ t payloads', payloads = bytes :: payloads' ∧
      s.step env (.readDone 0 false bytes) = some t ∧
      Link env.order w t.readSide (consumed + bytes.length) payloads' ∧
      t.sendSide = s.sendSide ∧ t.readSide.headAhead = s.readSide.headAhead + 1 := by
  obtain ⟨hop, hlen, hle, hstream⟩ := hl.nextRead_eq h
  have ha := hl.awaits
  rw [hstream] at ha
  obtain ⟨payloads', rfl, ha', hstop⟩ := awaits_read_body ha hop hlen
  refine ⟨_, payloads', rfl, by simp [step, hop, hlen]; rfl, ?_, by simp, ?_⟩
  · rw [← hlen]
    exact ⟨hl.ordered, hle, ha', fun hnil => by simp [hstop.mp hnil] at hquiet⟩
  · have hreading : s.m_socket.reading = [.body] := by
      obtain ⟨phase, hw, -⟩ := hl.awaits.reading.resolve_left hl.reading
      cases phase with
      | head => simp [show s.m_socket.reading = [.head] from hw] at hop
      | body size => exact hw.1
    rw [← hlen, handleRead_body env 0 hlen, if_neg (by simp [hquiet])]
    simp [ReadSide.headAhead, readSide, asyncRead, notify, completeRead, hreading]

/-- A session that has no write to complete has written its whole queue. -/
theorem drained (env : Environment) (hl : Link order s.sendSide r consumed payloads)
    (h : s.step env (.writeDone 0 false) = none) :
    s.m_sendQueue = [] ∧ s.m_socket.written = s.accepted := by
  have hidle : s.m_socket.writing = [] := by
    cases hw : s.m_socket.writing with
    | nil => rfl
    | cons p ps => simp [step, hw] at h
  have hout : s.m_socket.writing = s.m_sendQueue.head?.toList := hl.ordered.outstanding
  have hhist : s.m_socket.written ++ s.m_sendQueue.tail = s.accepted := hl.ordered.history
  have hqueue : s.m_sendQueue = [] := by
    rw [hidle] at hout
    cases hq : s.m_sendQueue with
    | nil => rfl
    | cons p ps => simp [hq] at hout
  exact ⟨hqueue, by simpa [hqueue] using hhist⟩

/-- When everything is written and nothing can be read, nothing is in flight. -/
theorem exhausted (hl : Link order w s.readSide consumed payloads) (hall : w.written = w.accepted)
    (h : s.nextRead ((byteStream w.written).drop consumed) = none) : payloads = [] := by
  rw [hall] at h
  refine (awaits_exhausted hl.awaits hl.reading ?_).2
  intro op hop
  obtain ⟨phase, hw, -⟩ := hl.awaits.reading.resolve_left hl.reading
  obtain ⟨op', hone⟩ : ∃ op', s.m_socket.reading = [op'] := by
    cases phase with
    | head => exact ⟨_, hw⟩
    | body size => exact ⟨_, hw.1⟩
  obtain rfl : op = op' := by simpa [hone] using hop
  simpa [nextRead, hone] using h

end Link

end NBRaft.Communication
