import Mathlib.Algebra.Ring.Nat
import NBRaft.Library.Progress
import NBRaft.Communication.Link
import NBRaft.Communication.Parsing

/-!
# Both ends of a connection

Two sessions that read what the other one writes, with sends from any thread at both ends and
completions in any order, failed or not. What was handed to `async_write` may arrive before the
write completes, so a read takes the next bytes of the packets written so far.
-/

namespace NBRaft.Communication

open Framing Session Transition

/-- The ends of a connection. -/
inductive Side where
  | left
  | right
  deriving DecidableEq, Repr

def Side.other : Side → Side
  | .left => .right
  | .right => .left

@[simp] theorem Side.other_other (side : Side) : side.other.other = side := by
  cases side <;> rfl

@[simp] theorem Side.other_ne (side : Side) : side.other ≠ side := by
  cases side <;> decide

theorem Side.eq_or_eq_other (a b : Side) : a = b ∨ a = b.other := by
  cases a <;> cases b <;> simp [Side.other]

/-- The sessions at both ends, with the bytes each of them has read. -/
structure Connection where
  session : Side → Session
  read : Side → Bytes

namespace Connection

def start (full : Side → Bool) : Connection where
  session side := Session.start (full side) {}
  read _ := []

/-- The bytes written to the session at this end. -/
def incoming (c : Connection) (side : Side) : Bytes :=
  byteStream (c.session side.other).m_socket.written

section

variable (order : ByteOrder) (throws : Side → List Bytes → Bytes → Bool)

def environment (side : Side) : Environment := ⟨order, throws side⟩

/-- One end takes a step. The bytes of a read are the next of those written to it. -/
def step (c : Connection) : Side × Session.Event → Option Connection
  | (side, e) =>
    if (c.read side ++ e.bytesRead).isPrefixOf (c.incoming side) then
      ((c.session side).step (environment order throws side) e).map fun s =>
        { session := Function.update c.session side s
          read := Function.update c.read side (c.read side ++ e.bytesRead) }
    else none

end

variable {order : ByteOrder} {throws : Side → List Bytes → Bytes → Bool} {c d : Connection}
  {side : Side}
  {e : Session.Event} {es : List (Side × Session.Event)} {full : Side → Bool}

/-- What one step can do: the session at one end takes it, and nothing else changes. -/
theorem step_cases (h : step order throws c (side, e) = some d) :
    ∃ s, (c.session side).step (environment order throws side) e = some s ∧
      c.read side ++ e.bytesRead <+: c.incoming side ∧
      d.session side = s ∧ d.session side.other = c.session side.other ∧
      d.read side = c.read side ++ e.bytesRead ∧ d.read side.other = c.read side.other := by
  simp only [step] at h
  split at h
  · rename_i hread
    obtain ⟨s, hs, rfl⟩ := Option.map_eq_some_iff.mp h
    refine ⟨s, hs, List.isPrefixOf_iff_prefix.mp hread, ?_⟩
    simp
  · cases h

/-! ## The sending side -/

/-- The frame a packet is, also over the size limit, as long as its size fits the header. -/
theorem isFrame_create_of_lt (order : ByteOrder) (slack : Slack) {data : Bytes}
    (h : data.length + PACKET_HEAD_SIZE < 2 ^ 16) :
    let packet := SendPacket.create order slack data (UInt16.ofNat data.length)
    IsFrame (header order) packet.bytes packet.payload ∧ packet.payload = data := by
  simp only [PACKET_HEAD_SIZE] at h
  have hn : (UInt16.ofNat data.length).toNat = data.length := by
    rw [UInt16.toNat_ofNat']
    omega
  have hsize : (UInt16.ofNat (data.length + PACKET_HEAD_SIZE)).toNat = data.length + 4 := by
    rw [UInt16.toNat_ofNat']
    simp only [PACKET_HEAD_SIZE]
    omega
  have hpayload :
      (SendPacket.create order slack data (UInt16.ofNat data.length)).payload = data := by
    rw [payload_create, hn, List.take_length]
  refine ⟨⟨shortBytes (order.host_to_network_short (UInt16.ofNat data.length)) ++
    [slack.1, slack.2], ?_, rfl, ?_⟩, hpayload⟩
  · rw [hpayload]
    simp only [SendPacket.bytes, SendPacket.create, hn, hsize, List.take_length]
    apply List.take_of_length_le
    simp [shortBytes]
  · rw [hpayload]
    simp only [header, headSize]
    rw [shortOfBytes_shortBytes, order.inverse, hn]

/-- What was written is what was accepted first, whether or not a write has failed. -/
structure Sending (q : SendSide) : Prop where
  queue : q.Ordered ∨ ∃ written, q.Halted written
  written : q.written <+: q.accepted

theorem sending_start (full : Bool) : Sending (Session.start full {}).sendSide := by
  refine ⟨.inl (ordered_start full), ?_⟩
  rw [sendSide_start]
  exact List.nil_prefix

theorem Sending.of_ordered {q : SendSide} (h : q.Ordered) : Sending q :=
  ⟨.inl h, h.history ▸ List.prefix_append _ _⟩

theorem sending_step {env : Environment} {s t : Session} (h : s.step env e = some t)
    (hs : Sending s.sendSide) : Sending t.sendSide := by
  obtain ⟨hqueue, hwritten⟩ := hs
  obtain hord | ⟨written, hhalt⟩ := hqueue
  · by_cases he : e.FailedWrite
    · obtain ⟨slack, data, rfl, -⟩ | ⟨i, op, failed, bytes, rfl, -, -, -⟩ |
        ⟨i, failed, packet, rfl, hi, rfl⟩ := Session.step_cases h
      · exact he.elim
      · exact he.elim
      · obtain rfl : failed = true := he
        exact ⟨.inr ⟨_, halted_of_failed hord hi⟩, hwritten⟩
    · exact .of_ordered (ordered_step h he hord)
  · obtain ⟨hhalt', -⟩ := halted_step h hhalt
    refine ⟨.inr ⟨written, hhalt'⟩, ?_⟩
    have hgrow : s.sendSide.accepted <+: t.sendSide.accepted := by
      obtain ⟨slack, data, rfl, rfl⟩ | ⟨i, op, failed, bytes, rfl, -, -, rfl⟩ |
        ⟨i, failed, packet, rfl, -, rfl⟩ := Session.step_cases h
      · by_cases hroom : s.m_sendQueue.length < MAX_SESSION_SEND_QUEUE_PENDING_SIZE
        · rw [sendSide_send_of_room _ _ _ hroom]
          exact List.prefix_append _ _
        · rw [send_of_full _ _ _ (by omega)]
      · simp
      · cases failed with
        | true => exact List.prefix_rfl
        | false =>
          rw [sendSide_handleWrite]
          exact List.prefix_rfl
    rw [hhalt'.final, ← hhalt.final]
    exact hwritten.trans hgrow

/-- A step accepts what it sends, or nothing. -/
theorem accepted_step {env : Environment} {s t : Session} (h : s.step env e = some t) :
    t.accepted = s.accepted ∨ ∃ slack data, e = .send slack data ∧
      t.accepted = s.accepted ++
        [SendPacket.create env.order slack data (UInt16.ofNat data.length)] := by
  obtain ⟨slack, data, rfl, rfl⟩ | ⟨i, op, failed, bytes, rfl, -, -, rfl⟩ |
    ⟨i, failed, packet, rfl, -, rfl⟩ := Session.step_cases h
  · by_cases hroom : s.m_sendQueue.length < MAX_SESSION_SEND_QUEUE_PENDING_SIZE
    · exact .inr ⟨slack, data, rfl, accepted_send_of_room _ _ _ hroom⟩
    · exact .inl (by rw [send_of_full _ _ _ (by omega)])
  · have hside := sendSide_handleRead (s.completeRead i op bytes) env op failed bytes.length
    exact .inl ((congrArg SendSide.accepted hside).trans (by cases op <;> rfl))
  · cases failed with
    | true => exact .inl rfl
    | false => exact .inl (congrArg SendSide.accepted (sendSide_handleWrite _))

theorem written_step {env : Environment} {s t : Session} (h : s.step env e = some t) :
    s.m_socket.written <+: t.m_socket.written := by
  obtain ⟨slack, data, rfl, rfl⟩ | ⟨i, op, failed, bytes, rfl, -, -, rfl⟩ |
    ⟨i, failed, packet, rfl, -, rfl⟩ := Session.step_cases h
  · by_cases hroom : s.m_sendQueue.length < MAX_SESSION_SEND_QUEUE_PENDING_SIZE
    · have hside := sendSide_send_of_room env.order slack data hroom
      rw [show (s.send env.order slack data).m_socket.written = _ from
        congrArg SendSide.written hside]
      exact List.prefix_append _ _
    · rw [send_of_full _ _ _ (by omega)]
  · have hside := sendSide_handleRead (s.completeRead i op bytes) env op failed bytes.length
    rw [show ((s.completeRead i op bytes).handleRead env op failed
      bytes.length).m_socket.written = _ from congrArg SendSide.written hside]
    cases op <;> exact List.prefix_rfl
  · cases failed with
    | true => exact List.prefix_rfl
    | false =>
      rw [show ((s.completeWrite i).handleWrite false).m_socket.written = _ from
        congrArg SendSide.written (sendSide_handleWrite _)]
      exact List.prefix_append _ _

/-! ## Runs -/

theorem byteStream_le {ps qs : List SendPacket} (h : ps <+: qs) :
    byteStream ps <+: byteStream qs := by
  obtain ⟨rest, rfl⟩ := h
  rw [byteStream_append]
  exact List.prefix_append _ _

/-- What is sent fits a frame. -/
def Fits : Session.Event → Prop
  | .send _ data => data.length + PACKET_HEAD_SIZE < 2 ^ 16
  | _ => True

def sent : Session.Event → List Bytes
  | .send _ data => [data]
  | _ => []

/-- The payloads sent at one end, accepted or not. -/
def sends (side : Side) (es : List (Side × Session.Event)) : List Bytes :=
  es.flatMap fun x => if x.1 = side then sent x.2 else []

/-- What both ends keep, in every run of sends that fit a frame. -/
structure Connected (order : ByteOrder) (throws : Side → List Bytes → Bytes → Bool)
    (c : Connection) : Prop where
  parsing : ∀ side, Parsing (environment order throws side) (c.read side) (c.session side)
  sending : ∀ side, Sending (c.session side).sendSide
  frames : ∀ side, ∀ p ∈ (c.session side).accepted, IsFrame (header order) p.bytes p.payload
  read : ∀ side, c.read side <+: c.incoming side

theorem connected_start (full : Side → Bool) : Connected order throws (start full) := by
  refine ⟨fun side => parsing_start _ _, fun side => sending_start _, fun side p hp => ?_,
    fun side => List.nil_prefix⟩
  have hnone : (Session.start (full side) {}).accepted = [] := by cases full side <;> rfl
  simp [start, hnone] at hp

theorem connected_step (h : step order throws c (side, e) = some d) (he : Fits e)
    (hc : Connected order throws c) : Connected order throws d := by
  obtain ⟨s, hs, hread, hd, hother, hdread, hother'⟩ := step_cases h
  -- what holds at the end that takes the step, and still holds at the other
  have hboth : ∀ {P : Side → Prop}, P side → P side.other → ∀ a, P a := by
    intro P hside hother a
    obtain rfl | rfl := Side.eq_or_eq_other a side
    · exact hside
    · exact hother
  constructor
  · apply hboth
    · rw [hd, hdread]
      exact parsing_step (hc.parsing side) hs
    · rw [hother, hother']
      exact hc.parsing side.other
  · apply hboth
    · rw [hd]
      exact sending_step hs (hc.sending side)
    · rw [hother]
      exact hc.sending side.other
  · apply hboth
    · rw [hd]
      obtain hacc | ⟨slack, data, rfl, hacc⟩ := accepted_step hs
      · rw [hacc]
        exact hc.frames side
      · rw [hacc]
        intro p hp
        rcases List.mem_append.mp hp with hp | hp
        · exact hc.frames side p hp
        · obtain rfl := List.mem_singleton.mp hp
          exact (isFrame_create_of_lt order slack he).1
    · rw [hother]
      exact hc.frames side.other
  · apply hboth
    · rw [hdread, incoming, hother]
      exact hread
    · rw [hother', incoming, Side.other_other, hd]
      refine (hc.read side.other).trans ?_
      rw [incoming, Side.other_other]
      exact byteStream_le (written_step hs)

theorem connected_run (h : run (step order throws) (start full) es = some c)
    (hes : ∀ x ∈ es, Fits x.2) : Connected order throws c :=
  run_preserves_of_forall (I := Connected order throws) (C := fun x => Fits x.2)
    (fun _ ⟨_, _⟩ _ hxy hfits hc => connected_step hxy hfits hc) h hes
    (connected_start full)

/-- What one end has dispatched is a prefix of what the other has accepted. -/
theorem Connected.dispatched_le (hc : Connected order throws c) (side : Side) :
    dispatched (c.session side.other).notified <+:
      (c.session side).accepted.map SendPacket.payload := by
  obtain ⟨owed, hfound, -⟩ := (hc.parsing side.other).found
  have hread : c.read side.other <+: byteStream (c.session side).accepted := by
    have hread := hc.read side.other
    rw [incoming, Side.other_other] at hread
    exact hread.trans (byteStream_le (hc.sending side).written)
  have hframes : Frames (header order) (byteStream (c.session side).accepted)
      ((c.session side).accepted.map SendPacket.payload) :=
    Frames.flatMap _ _ _ (hc.frames side)
  calc dispatched (c.session side.other).notified
      <+: (parsed order (c.read side.other)).1 :=
        hfound ▸ List.prefix_append (dispatched (c.session side.other).notified) owed
    _ <+: (parsed order (byteStream (c.session side).accepted)).1 := parse_prefix _ hread
    _ <+: (c.session side).accepted.map SendPacket.payload := by
        rw [parsed, parse_frames (show 0 < PACKET_HEAD_SIZE by decide) hframes]
        exact List.takeWhile_prefix _

/-- What an end has accepted was sent there, in this order. -/
theorem accepted_sublist (h : run (step order throws) c es = some d)
    (hes : ∀ x ∈ es, Fits x.2) (side : Side) :
    ((d.session side).accepted.map SendPacket.payload).Sublist
      ((c.session side).accepted.map SendPacket.payload ++ sends side es) := by
  induction es generalizing c with
  | nil =>
    obtain rfl := Option.some.inj h
    simp
  | cons x es ih =>
    obtain ⟨u, hu, hrun⟩ := run_cons_eq_some.mp h
    obtain ⟨hx, hrest⟩ := List.forall_mem_cons.mp hes
    obtain ⟨at', e⟩ := x
    obtain ⟨s, hs, -, hsess, hother, -⟩ := step_cases hu
    have hsends : sends side ((at', e) :: es) =
        (if at' = side then sent e else []) ++ sends side es := rfl
    refine (ih hrun hrest).trans ?_
    rw [hsends, ← List.append_assoc]
    refine List.Sublist.append ?_ (List.Sublist.refl _)
    obtain rfl | rfl := Side.eq_or_eq_other side at'
    · rw [hsess]
      obtain hacc | ⟨slack, data, rfl, hacc⟩ := accepted_step hs
      · rw [hacc]
        exact List.sublist_append_left _ _
      · rw [hacc]
        simp [(isFrame_create_of_lt order slack hx).2, environment, sent]
    · rw [hother]
      exact List.sublist_append_left _ _

/-- Nothing is lost, repeated, reordered or altered on a connection before its end, in either
direction: whatever completes, fails or throws in whatever order, the payloads an end has dispatched
are the first of those the other end has accepted, and these are of those sent there, in order. -/
theorem connection_dispatched (h : run (step order throws) (start full) es = some c)
    (hes : ∀ x ∈ es, Fits x.2) (side : Side) :
    dispatched (c.session side.other).notified <+:
      (c.session side).accepted.map SendPacket.payload ∧
    ((c.session side).accepted.map SendPacket.payload).Sublist (sends side es) := by
  refine ⟨(connected_run h hes).dispatched_le side, ?_⟩
  have hsent := accepted_sublist h hes side
  have hnone : (Session.start (full side) {}).accepted = [] := by cases full side <;> rfl
  simpa [start, hnone] using hsent

/-- Both ends send at the same time; the write at the left fails after its bytes have arrived. -/
theorem connection_dispatched_crossing :
    ∃ c, run (step .littleEndian fun _ _ _ => false) (start fun _ => false)
        [(.left, .send (0, 0) [5, 6]), (.right, .send (1, 1) []), (.left, .send (0, 0) [7]),
          (.right, .readDone 0 false [0, 2, 0, 0]), (.left, .readDone 0 false [0, 0, 1, 1]),
          (.right, .readDone 0 false [5, 6]), (.left, .writeDone 0 true)] = some c ∧
      dispatched (c.session .right).notified = [[5, 6]] ∧
      dispatched (c.session .right).notified <+:
        (c.session .left).accepted.map SendPacket.payload := by
  have h : run (step .littleEndian fun _ _ _ => false) (start fun _ => false)
      [(.left, .send (0, 0) [5, 6]), (.right, .send (1, 1) []), (.left, .send (0, 0) [7]),
        (.right, .readDone 0 false [0, 2, 0, 0]), (.left, .readDone 0 false [0, 0, 1, 1]),
        (.right, .readDone 0 false [5, 6]), (.left, .writeDone 0 true)] = some _ := rfl
  exact ⟨_, h, by decide, (connection_dispatched h (by simp [Fits, PACKET_HEAD_SIZE]) .left).1⟩

/-! ## Progress -/

/-- A completion without an error. -/
def Completes : Session.Event → Prop
  | .send _ _ => False
  | e => ¬ e.Failed

/-- Nothing fails, and nothing is sent that is over the limit. -/
def Calm (x : Side × Session.Event) : Prop :=
  ¬ x.2.Failed ∧ ∀ data ∈ sent x.2, data.length ≤ PACKET_MAX_SIZE

/-- The handlers at each end throw on nothing of what the other end has accepted. -/
def NoneThrows (throws : Side → List Bytes → Bytes → Bool) (c : Connection) : Prop :=
  ∀ side, NeverThrows (throws side.other) ((c.session side).accepted.map SendPacket.payload)

theorem Calm.fits {x : Side × Session.Event} (h : Calm x) : Fits x.2 := by
  obtain ⟨side, e⟩ := x
  cases e with
  | send slack data =>
    have hle := h.2 data (by simp [sent])
    simp only [PACKET_MAX_SIZE] at hle
    simp only [Fits, PACKET_HEAD_SIZE]
    omega
  | readDone | writeDone => trivial

/-- A connection on which nothing has failed. -/
structure Healthy (order : ByteOrder) (throws : Side → List Bytes → Bytes → Bool) (c : Connection) :
    Prop where
  connected : Connected order throws c
  ordered : ∀ side, (c.session side).sendSide.Ordered
  reading : ∀ side, (c.session side).m_socket.reading ≠ []
  accepted : ∀ side, ∀ p ∈ (c.session side).accepted, p.payload.length ≤ PACKET_MAX_SIZE
  quiet : NoneThrows throws c

theorem healthy_start : Healthy order throws (start fun _ => false) := by
  refine ⟨connected_start _, fun side => ordered_start _, fun side => ?_, fun side p hp => ?_,
    fun side => neverThrows_nil⟩
  · simp [start, Session.start, asyncRead, notify]
  · simp [start, Session.start, asyncRead, notify] at hp

/-- The frames accepted at one end, as the parser at the other sees them. -/
theorem Healthy.parsed_accepted (hc : Healthy order throws c) (side : Side) :
    parsed order (byteStream (c.session side).accepted) =
      ((c.session side).accepted.map SendPacket.payload, .start) := by
  have hframes : Frames (header order) (byteStream (c.session side).accepted)
      ((c.session side).accepted.map SendPacket.payload) :=
    Frames.flatMap _ _ _ (hc.connected.frames side)
  have hlimit : ∀ payload ∈ (c.session side).accepted.map SendPacket.payload,
      payload.length ≤ PACKET_MAX_SIZE :=
    List.forall_mem_map.mpr (hc.accepted side)
  exact parse_frames_of_le (show 0 < PACKET_HEAD_SIZE by decide) hframes hlimit

/-- What was read is the front of what was accepted. -/
theorem Connected.read_prefix (hc : Connected order throws c) (side : Side) :
    c.read side <+: byteStream (c.session side.other).accepted :=
  (hc.read side).trans (byteStream_le (hc.sending side.other).written)

/-- The parser never refuses what comes in. -/
theorem Healthy.not_refused (hc : Healthy order throws c) (side : Side) {got : Bytes}
    (hgot : c.read side ++ got <+: byteStream (c.session side.other).accepted) :
    (parsed order (c.read side ++ got)).2 ≠ .refused := by
  intro hrefused
  obtain ⟨rest, hrest⟩ := hgot
  have hall := congrArg Prod.snd (hc.parsed_accepted side.other)
  rw [← hrest, parsed_append, hrefused, parse_refused] at hall
  cases hall

/-- A session that has not failed reads on. -/
theorem reading_step {env : Environment} {s t : Session} {bytes : Bytes}
    (hs : Parsing env bytes s) (h : s.step env e = some t) (he : ¬ e.Failed)
    (hread : s.m_socket.reading ≠ [])
    (hrefused : (parsed env.order (bytes ++ e.bytesRead)).2 ≠ .refused)
    (hquiet : NeverThrows env.handlerThrows (dispatched t.notified)) :
    t.m_socket.reading ≠ [] := by
  have hnotified := notified_step hs.buffered h
  obtain ⟨slack, data, rfl, rfl⟩ | ⟨i, op, failed, got, rfl, hop, hlen, rfl⟩ |
    ⟨i, failed, packet, rfl, -, rfl⟩ := Session.step_cases h
  · have hr := readSide_send s env.order slack data
    rwa [show (s.send env.order slack data).m_socket.reading = _ from
      congrArg ReadSide.reading hr]
  · obtain rfl : failed = false := by simpa [Event.Failed] using he
    cases op with
    | head =>
      have hhead : s.m_socket.reading = [.head] := by
        obtain hnil | ⟨op', hone⟩ := hs.follows.reading_cases
        · exact absurd hnil hread
        · have hone : s.m_socket.reading = [op'] := hone
          cases i with
          | zero => simpa [hone] using hop
          | succ i => simp [hone] at hop
      rw [handleRead_head env i hs.buffered (hlen rfl)]
      split_ifs with hsize
      · refine absurd ?_ hrefused
        rw [show (Event.readDone i false got).bytesRead = got from rfl,
          hs.follows.read_head hhead (hlen rfl), if_pos hsize]
      · simp [asyncRead]
    | body =>
      have hdisp : dispatched (news env s (.readDone i false got)) = [got] := by
        simp only [news, hop, Bool.false_eq_true, if_false]
        cases env.handlerThrows (dispatched s.notified) got <;> rfl
      have hgot : env.handlerThrows (dispatched s.notified) got = false := by
        rw [hnotified, dispatched_append, hdisp] at hquiet
        exact (neverThrows_concat.mp hquiet).2
      rw [handleRead_body env i (hlen rfl), hgot, if_neg Bool.false_ne_true]
      simp [asyncRead]
  · have hr := readSide_handleWrite (s.completeWrite i) failed
    rwa [show ((s.completeWrite i).handleWrite failed).m_socket.reading = _ from
      congrArg ReadSide.reading hr]

theorem accepted_grows (h : step order throws c (side, e) = some d) (a : Side) :
    (c.session a).accepted <+: (d.session a).accepted := by
  obtain ⟨s, hs, -, hsess, hother, -⟩ := step_cases h
  obtain rfl | rfl := Side.eq_or_eq_other a side
  · rw [hsess]
    obtain hacc | ⟨_, _, -, hacc⟩ := accepted_step hs
    · rw [hacc]
    · rw [hacc]
      exact List.prefix_append _ _
  · rw [hother]

theorem NoneThrows.of_step (hd : NoneThrows throws d)
    (h : step order throws c (side, e) = some d) : NoneThrows throws c :=
  fun a => (hd a).anti ((accepted_grows h a).map _)

theorem healthy_step (h : step order throws c (side, e) = some d) (he : Calm (side, e))
    (hquiet : NoneThrows throws d) (hc : Healthy order throws c) : Healthy order throws d := by
  have hd := connected_step h he.fits hc.connected
  obtain ⟨s, hs, hread, hsess, hother, hdread, hother'⟩ := step_cases h
  have hboth : ∀ {P : Side → Prop}, P side → P side.other → ∀ a, P a := by
    intro P hside hother a
    obtain rfl | rfl := Side.eq_or_eq_other a side
    · exact hside
    · exact hother
  have haccepted : ∀ a, ∀ p ∈ (d.session a).accepted, p.payload.length ≤ PACKET_MAX_SIZE := by
    apply hboth
    · rw [hsess]
      obtain hacc | ⟨slack, data, rfl, hacc⟩ := accepted_step hs
      · rw [hacc]
        exact hc.accepted side
      · rw [hacc]
        intro p hp
        rcases List.mem_append.mp hp with hp | hp
        · exact hc.accepted side p hp
        · obtain rfl := List.mem_singleton.mp hp
          have hpayload : (SendPacket.create order slack data
              (UInt16.ofNat data.length)).payload = data :=
            (isFrame_create_of_lt order slack he.fits).2
          simp only [environment, hpayload]
          exact he.2 data (by simp [sent])
    · rw [hother]
      exact hc.accepted side.other
  refine ⟨hd, ?_, ?_, haccepted, hquiet⟩
  · apply hboth
    · rw [hsess]
      refine ordered_step hs (fun hf => he.1 ?_) (hc.ordered side)
      cases e with
      | send | readDone => exact hf.elim
      | writeDone => exact hf
    · rw [hother]
      exact hc.ordered side.other
  · apply hboth
    · rw [hsess]
      refine reading_step (hc.connected.parsing side) hs he.1 (hc.reading side) ?_ ?_
      · apply hc.not_refused
        exact hread.trans (byteStream_le (hc.connected.sending side.other).written)
      · have hle := hd.dispatched_le side.other
        have hside := hquiet side.other
        rw [Side.other_other] at hle hside
        rw [← hsess]
        exact hside.anti hle
    · rw [hother]
      exact hc.reading side.other

/-- A read that completes leaves the session at the other part of a frame. -/
theorem read_step {env : Environment} {s t : Session} {bytes got : Bytes} {i : Nat}
    (hs : Parsing env bytes s) (h : s.step env (.readDone i false got) = some t)
    (ht : t.m_socket.reading ≠ []) :
    t.m_sendQueue = s.m_sendQueue ∧
      (s.m_socket.reading = [.head] ∧ got.length = PACKET_HEAD_SIZE ∧
          t.m_socket.reading = [.body] ∨
        s.m_socket.reading = [.body] ∧ t.m_socket.reading = [.head]) := by
  obtain ⟨_, _, he, -⟩ | ⟨j, op, failed, bytes', he, hop, hlen, rfl⟩ | ⟨_, _, _, he, -⟩ :=
    Session.step_cases h
  · cases he
  · obtain ⟨rfl, rfl, rfl⟩ : i = j ∧ false = failed ∧ got = bytes' := by simpa using he
    have hone : s.m_socket.reading = [op] ∧ i = 0 := by
      obtain hnil | ⟨op', hone⟩ := hs.follows.reading_cases
      · simp [show s.m_socket.reading = [] from hnil] at hop
      · have hone : s.m_socket.reading = [op'] := hone
        cases i with
        | zero => simpa [hone] using hop
        | succ i => simp [hone] at hop
    obtain ⟨hread, rfl⟩ := hone
    have hside := sendSide_handleRead (s.completeRead 0 op got) env op false got.length
    refine ⟨(congrArg SendSide.m_sendQueue hside).trans (by cases op <;> rfl), ?_⟩
    cases op with
    | head =>
      refine .inl ⟨hread, hlen rfl, ?_⟩
      rw [handleRead_head env 0 hs.buffered (hlen rfl)] at ht ⊢
      split_ifs at ht ⊢ with hsize
      · exact absurd (by simp [close, notify, completeRead, hread]) ht
      · simp [asyncRead, completeRead, hread]
    | body =>
      refine .inr ⟨hread, ?_⟩
      rw [handleRead_body env 0 (hlen rfl)] at ht ⊢
      split_ifs at ht ⊢ with hthrow
      · exact absurd (by simp [close, notify, completeRead, hread]) ht
      · simp [asyncRead, notify, completeRead, hread]
  · cases he

/-- A write that completes takes its packet off the queue. -/
theorem write_step {env : Environment} {s t : Session} {i : Nat} (hs : s.sendSide.Ordered)
    (h : s.step env (.writeDone i false) = some t) :
    t.m_sendQueue.length + 1 = s.m_sendQueue.length ∧ t.readSide = s.readSide := by
  obtain ⟨_, _, he, -⟩ | ⟨_, _, _, _, he, -⟩ | ⟨j, failed, packet, he, hi, rfl⟩ :=
    Session.step_cases h
  · cases he
  · cases he
  · obtain ⟨rfl, rfl⟩ : i = j ∧ false = failed := by simpa using he
    obtain ⟨rfl, rest, hqueue⟩ := writing_of_ordered hs hi
    refine ⟨?_, by simp⟩
    rw [show ((s.completeWrite 0).handleWrite false).m_sendQueue = s.m_sendQueue.tail from
      congrArg SendSide.m_sendQueue (sendSide_handleWrite _), hqueue]
    rfl

/-- What is left to do at one end: packets to write, and bytes to read. A body may have no bytes,
but its header had some. -/
def workAt (c : Connection) (side : Side) : Nat :=
  (c.session side).m_sendQueue.length +
    2 * ((byteStream (c.session side.other).accepted).length - (c.read side).length) +
    if (c.session side).m_socket.reading = [.body] then 1 else 0

def work (c : Connection) : Nat := c.workAt .left + c.workAt .right

theorem work_eq (c : Connection) (side : Side) :
    c.work = c.workAt side + c.workAt side.other := by
  cases side
  · rfl
  · exact Nat.add_comm _ _

theorem calm_of_completes (he : Completes e) : Calm (side, e) := by
  cases e with
  | send => exact he.elim
  | readDone | writeDone => exact ⟨he, by simp [sent]⟩

/-- A completion accepts nothing. -/
theorem accepted_of_completes (h : step order throws c (side, e) = some d) (he : Completes e)
    (a : Side) : (d.session a).accepted = (c.session a).accepted := by
  obtain ⟨s, hs, -, hsess, hother, -⟩ := step_cases h
  obtain rfl | rfl := Side.eq_or_eq_other a side
  · obtain hacc | ⟨slack, data, rfl, -⟩ := accepted_step hs
    · rw [hsess, hacc]
    · exact he.elim
  · rw [hother]

theorem healthy_of_completes (h : step order throws c (side, e) = some d) (he : Completes e)
    (hc : Healthy order throws c) : Healthy order throws d := by
  refine healthy_step h (calm_of_completes he) (fun a => ?_) hc
  rw [accepted_of_completes h he a]
  exact hc.quiet a

/-- Every completion leaves less to do. -/
theorem work_step (h : step order throws c (side, e) = some d) (he : Completes e)
    (hc : Healthy order throws c) : d.work + 1 ≤ c.work := by
  have hd := healthy_of_completes h he hc
  have hacc := accepted_of_completes h he side
  obtain ⟨s, hs, hread, hsess, hother, hdread, hother'⟩ := step_cases h
  rw [hsess] at hacc
  have hsame : d.workAt side.other = c.workAt side.other := by
    simp only [workAt, hother, hother', Side.other_other, hsess, hacc]
  have hle : (d.read side).length ≤ (byteStream (c.session side.other).accepted).length := by
    have := (hd.connected.read_prefix side).length_le
    rwa [hother] at this
  have hless : d.workAt side + 1 ≤ c.workAt side := by
    rw [hdread, List.length_append] at hle
    simp only [workAt, hsess, hother, hdread, List.length_append]
    cases e with
    | send => exact he.elim
    | readDone i failed got =>
      obtain rfl : failed = false := by simpa [Completes, Event.Failed] using he
      obtain ⟨hqueue, hparts⟩ := read_step (hc.connected.parsing side) hs (hsess ▸ hd.reading side)
      rw [show (Event.readDone i false got).bytesRead = got from rfl] at hle ⊢
      obtain ⟨hhead, hgot, hbody⟩ | ⟨hbody, hhead⟩ := hparts
      · simp only [PACKET_HEAD_SIZE] at hgot
        rw [hqueue, hhead, hbody]
        simp
        omega
      · rw [hqueue, hhead, hbody]
        simp
        omega
    | writeDone i failed =>
      obtain rfl : failed = false := by simpa [Completes, Event.Failed] using he
      obtain ⟨hqueue, hr⟩ := write_step (hc.ordered side) hs
      rw [show s.m_socket.reading = (c.session side).m_socket.reading from
        congrArg ReadSide.reading hr]
      simp only [Event.bytesRead, List.length_nil]
      omega
  rw [work_eq c side, work_eq d side]
  omega

/-- No completion is possible but a failed one. -/
def Settled (order : ByteOrder) (throws : Side → List Bytes → Bytes → Bool) (c : Connection) :
    Prop :=
  Quiet (step order throws) (fun x => Completes x.2) c

/-- A healthy connection that is quiet has written everything. -/
theorem Healthy.written (hc : Healthy order throws c) (hquiet : Settled order throws c)
    (side : Side) : (c.session side).m_sendQueue = [] ∧
      (c.session side).m_socket.written = (c.session side).accepted := by
  have hread : (c.read side).isPrefixOf (c.incoming side) := by
    exact List.isPrefixOf_iff_prefix.mpr (hc.connected.read side)
  have hidle : (c.session side).m_socket.writing = [] := by
    cases hw : (c.session side).m_socket.writing with
    | nil => rfl
    | cons packet rest =>
      have hnone := hquiet (side, .writeDone 0 false) Bool.false_ne_true
      simp [step, Event.bytesRead, hread, Session.step, hw] at hnone
  have hqueue : (c.session side).m_sendQueue = [] := by
    have hout : (c.session side).m_socket.writing = (c.session side).m_sendQueue.head?.toList :=
      (hc.ordered side).outstanding
    rw [hidle] at hout
    cases hq : (c.session side).m_sendQueue with
    | nil => rfl
    | cons => simp [hq] at hout
  have hhist : (c.session side).m_socket.written ++ (c.session side).m_sendQueue.tail =
      (c.session side).accepted := (hc.ordered side).history
  exact ⟨hqueue, by simpa [hqueue] using hhist⟩

/-- And everything has been dispatched. -/
theorem Healthy.delivered (hc : Healthy order throws c) (hquiet : Settled order throws c)
    (side : Side) :
    dispatched (c.session side).notified =
      (c.session side.other).accepted.map SendPacket.payload := by
  have hs := hc.connected.parsing side
  obtain ⟨rest, hrest⟩ := hc.connected.read side
  have hall : c.read side ++ rest = byteStream (c.session side.other).accepted := by
    rw [hrest, incoming, (hc.written hquiet side.other).2]
  obtain ⟨op, hop, -, hat⟩ := hs.outstanding.resolve_left (hc.reading side)
  obtain ⟨owed, hfound, howed⟩ := hs.found
  have hparsed := hc.parsed_accepted side.other
  rw [← hall, parsed_append] at hparsed
  obtain ⟨hpayloads, hstart⟩ := Prod.mk.injEq _ _ _ _ ▸ hparsed
  -- fewer bytes have come in than the outstanding read waits for
  have hshort : rest.length < (c.session side).requested op := by
    refine Classical.byContradiction fun hge => ?_
    have hnone := hquiet
      (side, .readDone 0 false (rest.take ((c.session side).requested op))) Bool.false_ne_true
    have hprefix : (c.read side ++ rest.take ((c.session side).requested op)).isPrefixOf
        (c.incoming side) := by
      rw [List.isPrefixOf_iff_prefix, ← hrest]
      exact List.prefix_append_right_inj _ |>.mpr (List.take_prefix _ _)
    have hlen : min ((c.session side).requested op) rest.length =
        (c.session side).requested op := by omega
    simp [step, Event.bytesRead, hprefix, Session.step, hop, hlen] at hnone
  change (parsed order (c.read side)).2 = _ at hat
  rw [hat] at hpayloads hstart
  cases op with
  | head =>
    have hnone : parse (header order) PACKET_MAX_SIZE .start rest = ([], .awaits .head rest) :=
      parse_short (by rw [List.length_nil, Nat.zero_add]; exact hshort)
    simp only [awaited, hnone, List.append_nil] at hpayloads
    obtain rfl : owed = [] := howed.resolve_right fun h => h.2 hop
    rw [← hpayloads, ← List.append_nil (dispatched _)]
    exact hfound.symm
  | body =>
    have hpos : (c.session side).m_recvPacket.m_size.toNat ≠ 0 := by
      have : rest.length < (c.session side).m_recvPacket.m_size.toNat := hshort
      omega
    have hnone : parse (header order) PACKET_MAX_SIZE
        (.awaits (.body (c.session side).m_recvPacket.m_size.toNat) []) rest =
          ([], .awaits (.body (c.session side).m_recvPacket.m_size.toNat) rest) :=
      parse_short (by rw [List.length_nil, Nat.zero_add]; exact hshort)
    simp [awaited, hpos, hnone, Reader.start] at hstart

/-- Where no handler throws on what has been accepted in the end, none has before. -/
theorem healthy_run (h : run (step order throws) c es = some d) (hes : ∀ x ∈ es, Calm x)
    (hquiet : NoneThrows throws d) (hc : Healthy order throws c) : Healthy order throws d :=
  run_preserves_of_forall (I := fun c => NoneThrows throws c → Healthy order throws c) (C := Calm)
    (fun _ ⟨_, _⟩ _ hxy hx hc hquiet => healthy_step hxy hx hquiet (hc (hquiet.of_step hxy))) h hes
    (fun _ => hc) hquiet

/-- Completions come to an end. -/
theorem descends : Descends (step order throws) (fun x => Completes x.2) (Healthy order throws)
    work where
  keeps := fun _ ⟨_, _⟩ _ hxy hx hc => healthy_of_completes hxy hx hc
  lowers := fun _ ⟨_, _⟩ _ hxy hx hc => work_step hxy hx hc

theorem accepted_run (h : run (step order throws) c es = some d)
    (hes : ∀ x ∈ es, Completes x.2) (side : Side) :
    (d.session side).accepted = (c.session side).accepted := by
  refine run_preserves_of_forall (C := fun x => Completes x.2)
    (I := fun x => (x.session side).accepted = (c.session side).accepted) ?_ h hes rfl
  rintro a ⟨at', e⟩ b hab he ha
  rw [accepted_of_completes hab he, ha]

/-- On a connection on which nothing fails, and no handler throws, everything accepted is delivered.
From any state the completions can only be so many, in whatever order they come; when no more is
possible, both ends have dispatched exactly the payloads the other has accepted, and have nothing
left to write. Such a state can be reached. -/
theorem connection_completes (h : run (step order throws) (start fun _ => false) es = some c)
    (hes : ∀ x ∈ es, Calm x) (hquiet : NoneThrows throws c) :
    (∀ fs d, run (step order throws) c fs = some d → (∀ x ∈ fs, Completes x.2) →
      fs.length ≤ c.work ∧
      (Settled order throws d → ∀ side, (d.session side).m_sendQueue = [] ∧
        dispatched (d.session side).notified =
          (c.session side.other).accepted.map SendPacket.payload)) ∧
    ∃ fs d, run (step order throws) c fs = some d ∧ (∀ x ∈ fs, Completes x.2) ∧
      Settled order throws d := by
  have hc : Healthy order throws c := healthy_run h hes hquiet healthy_start
  refine ⟨fun fs d hrun hfs => ?_, descends.exists_quiet hc⟩
  have hd := descends.of_run hrun hfs hc
  have hlength := descends.length_le hrun hfs hc
  refine ⟨by omega, fun hquiet side => ⟨(hd.written hquiet side).1, ?_⟩⟩
  rw [← accepted_run hrun hfs side.other]
  exact hd.delivered hquiet side

/-- Two payloads sent to the right: it dispatches both, the empty one too. -/
theorem connection_completes_two :
    ∃ c d fs, run (step .littleEndian fun _ _ _ => false) (start fun _ => false)
        [(.left, .send (0, 0) [5, 6]), (.left, .send (0, 0) [])] = some c ∧
      run (step .littleEndian fun _ _ _ => false) c fs = some d ∧ fs.length ≤ c.work ∧
      dispatched (d.session .right).notified = [[5, 6], []] := by
  have h : run (step .littleEndian fun _ _ _ => false) (start fun _ => false)
      [(.left, .send (0, 0) [5, 6]), (.left, .send (0, 0) [])] = some _ := rfl
  have hcalm : ∀ x ∈ [(Side.left, Session.Event.send (0, 0) [5, 6]), (.left, .send (0, 0) [])],
      Calm x := by
    simp [Calm, Event.Failed, sent, PACKET_MAX_SIZE]
  obtain ⟨hall, fs, d, hrun, hfs, hquiet⟩ :=
    connection_completes h hcalm fun _ _ _ _ => rfl
  obtain ⟨hle, hdone⟩ := hall fs d hrun hfs
  exact ⟨_, d, fs, h, hrun, hle, (hdone hquiet .right).2.trans (by decide)⟩

end Connection

end NBRaft.Communication
