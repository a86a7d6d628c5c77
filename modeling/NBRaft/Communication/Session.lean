import NBRaft.Library.Transition
import NBRaft.Communication.Packet

/-!
# Sessions

`Session` with its completion handlers. What a session does to the outside is recorded in its
state: the operations asio has outstanding on the socket, the packets handed to `async_write`,
and the calls on `m_ceventHandler`. `step` delivers one event to a session: a `send` from some
thread, or the completion of an outstanding operation.

A successful read transfers exactly the bytes asked for, as `async_read` promises; everything
else about completions (which operation, in what order, with success or an error, before or
after a `close`) is left to the events.
-/

namespace NBRaft.Communication

/-- The two reads a session issues, named after their handlers. -/
inductive ReadOp where
  | head
  | body
  deriving DecidableEq, Repr

/-- The socket as asio sees it. `written` keeps every packet ever handed to `async_write`. -/
structure Socket where
  isOpen : Bool := true
  reading : List ReadOp := []
  writing : List SendPacket := []
  written : List SendPacket := []

/-- The calls a session makes on its `CEventHandler`. -/
inductive Notification where
  | onConnected
  | onDataReady (data : Bytes)
  | onClosed
  deriving DecidableEq, Repr

/-- `accepted` and `notified` are histories: the packets pushed on the send queue, and the
notifications, oldest first. -/
structure Session where
  m_socket : Socket := {}
  m_recvHead : RecvPacket := .create (UInt16.ofNat PACKET_HEAD_SIZE)
  /-- Null in the source until a header has been read, and not looked at before. -/
  m_recvPacket : RecvPacket := .create 0
  m_sendQueue : List SendPacket := []
  notified : List Notification := []
  accepted : List SendPacket := []

/-- What the handlers depend on: the byte order of the host, and whether one of the registered
data handlers throws on a payload that is dispatched after the earlier ones. A handler may have a
state and look at others: any outcomes, one for each dispatch in turn, are those of such a
function. -/
structure Environment where
  order : ByteOrder
  handlerThrows (earlier : List Bytes) (data : Bytes) : Bool

namespace Session

/-- The payloads among the notifications. -/
def dispatched (notified : List Notification) : List Bytes :=
  notified.filterMap fun
    | .onDataReady data => some data
    | _ => none

@[simp] theorem dispatched_append (ns ms : List Notification) :
    dispatched (ns ++ ms) = dispatched ns ++ dispatched ms :=
  List.filterMap_append

def MAX_SESSION_SEND_QUEUE_PENDING_SIZE : Nat := 64

def notify (n : Notification) (s : Session) : Session :=
  { s with notified := s.notified ++ [n] }

def asyncRead (op : ReadOp) (s : Session) : Session :=
  { s with m_socket := { s.m_socket with reading := s.m_socket.reading ++ [op] } }

def asyncWrite (packet : SendPacket) (s : Session) : Session :=
  { s with m_socket := { s.m_socket with
      writing := s.m_socket.writing ++ [packet]
      written := s.m_socket.written ++ [packet] } }

/-- `m_ceventHandler.onClosed(...)`, then `m_socket.close()`. -/
def close (s : Session) : Session :=
  let s := s.notify .onClosed
  { s with m_socket := { s.m_socket with isOpen := false } }

/-- `start`. When the session table is full, the connect handler closes the session. -/
def start (sessionsFull : Bool) (s : Session) : Session :=
  let s := (s.asyncRead .head).notify .onConnected
  if sessionsFull then s.close else s

def send (order : ByteOrder) (slack : Slack) (data : Bytes) (s : Session) : Session :=
  if s.m_sendQueue.length ≥ MAX_SESSION_SEND_QUEUE_PENDING_SIZE then s
  else
    let queuePending := !s.m_sendQueue.isEmpty
    let packet := SendPacket.create order slack data (UInt16.ofNat data.length)
    let s := { s with
      m_sendQueue := s.m_sendQueue ++ [packet]
      accepted := s.accepted ++ [packet] }
    if queuePending then s
    else
      match s.m_sendQueue with
      | [] => s
      | nxtPacket :: _ => s.asyncWrite nxtPacket

def handleHeadRead (env : Environment) (failed : Bool) (bytes_transferred : Nat) (s : Session) :
    Session :=
  if failed then s.close
  else if bytes_transferred < PACKET_HEAD_SIZE ∨ bytes_transferred > PACKET_HEAD_SIZE then s.close
  else
    let dataSize := headSize env.order s.m_recvHead.m_data
    if dataSize.toNat > PACKET_MAX_SIZE then s.close
    else { s with m_recvPacket := .create dataSize }.asyncRead .body

/-- A data handler that throws is caught here, and the session closed. -/
def handleBodyRead (env : Environment) (failed : Bool) (s : Session) : Session :=
  if failed then s.close
  else
    let newPacket := s.m_recvPacket
    let throws := env.handlerThrows (dispatched s.notified) newPacket.m_data
    let s := s.notify (.onDataReady newPacket.m_data)
    if throws then s.close
    else { s with m_recvPacket := s.m_recvPacket.clear }.asyncRead .head

def handleWrite (failed : Bool) (s : Session) : Session :=
  if failed then s.close
  else
    let s := { s with m_sendQueue := s.m_sendQueue.tail }
    match s.m_sendQueue with
    | [] => s
    | nxtPacket :: _ => s.asyncWrite nxtPacket

/-! ## Events -/

inductive Event where
  | send (slack : Slack) (data : Bytes)
  /-- The `i`-th outstanding read completes, having transferred the bytes. -/
  | readDone (i : Nat) (failed : Bool) (bytes : Bytes)
  /-- The `i`-th outstanding write completes. -/
  | writeDone (i : Nat) (failed : Bool)
  deriving DecidableEq, Repr

/-- The buffer size of a read. -/
def requested (s : Session) : ReadOp → Nat
  | .head => PACKET_HEAD_SIZE
  | .body => s.m_recvPacket.m_size.toNat

/-- The read is no longer outstanding and its bytes are in the buffer. -/
def completeRead (i : Nat) (op : ReadOp) (bytes : Bytes) (s : Session) : Session :=
  let s := { s with m_socket := { s.m_socket with reading := s.m_socket.reading.eraseIdx i } }
  match op with
  | .head => { s with m_recvHead := s.m_recvHead.fill bytes }
  | .body => { s with m_recvPacket := s.m_recvPacket.fill bytes }

def completeWrite (i : Nat) (s : Session) : Session :=
  { s with m_socket := { s.m_socket with writing := s.m_socket.writing.eraseIdx i } }

def handleRead (env : Environment) (op : ReadOp) (failed : Bool) (bytes_transferred : Nat)
    (s : Session) : Session :=
  match op with
  | .head => s.handleHeadRead env failed bytes_transferred
  | .body => s.handleBodyRead env failed

def step (env : Environment) (s : Session) : Event → Option Session
  | .send slack data => some (s.send env.order slack data)
  | .readDone i failed bytes =>
    match s.m_socket.reading[i]? with
    | none => none
    | some op =>
      if failed = false ∧ bytes.length ≠ s.requested op then none
      else some ((s.completeRead i op bytes).handleRead env op failed bytes.length)
  | .writeDone i failed =>
    match s.m_socket.writing[i]? with
    | none => none
    | some _ => some ((s.completeWrite i).handleWrite failed)

/-! ## What one step can do -/

/-- The only ways a session takes a step. -/
theorem step_cases {env : Environment} {s t : Session} {e : Event} (h : s.step env e = some t) :
    (∃ slack data, e = .send slack data ∧ t = s.send env.order slack data) ∨
    (∃ i op failed bytes, e = .readDone i failed bytes ∧ s.m_socket.reading[i]? = some op ∧
      (failed = false → bytes.length = s.requested op) ∧
      t = (s.completeRead i op bytes).handleRead env op failed bytes.length) ∨
    (∃ i failed packet, e = .writeDone i failed ∧ s.m_socket.writing[i]? = some packet ∧
      t = (s.completeWrite i).handleWrite failed) := by
  cases e with
  | send slack data => exact .inl ⟨slack, data, rfl, (Option.some.inj h).symm⟩
  | readDone i failed bytes =>
    refine .inr (.inl ?_)
    simp only [step] at h
    split at h
    · cases h
    · rename_i op hop
      split at h
      · cases h
      · rename_i hlen
        refine ⟨i, op, failed, bytes, rfl, hop, fun hf => ?_, (Option.some.inj h).symm⟩
        exact Classical.byContradiction fun hne => hlen ⟨hf, hne⟩
  | writeDone i failed =>
    refine .inr (.inr ?_)
    simp only [step] at h
    split at h
    · cases h
    · rename_i packet hp
      exact ⟨i, failed, packet, rfl, hp, (Option.some.inj h).symm⟩

/-! ## Frames

Reads leave the sending side alone, and sends and write completions the reading side. -/

/-- The members `send` and `handleWrite` work on. -/
structure SendSide where
  m_sendQueue : List SendPacket
  writing : List SendPacket
  written : List SendPacket
  accepted : List SendPacket

/-- The members the read handlers work on. -/
structure ReadSide where
  reading : List ReadOp
  m_recvHead : RecvPacket
  m_recvPacket : RecvPacket

def sendSide (s : Session) : SendSide :=
  ⟨s.m_sendQueue, s.m_socket.writing, s.m_socket.written, s.accepted⟩

def readSide (s : Session) : ReadSide := ⟨s.m_socket.reading, s.m_recvHead, s.m_recvPacket⟩

@[simp] theorem sendSide_completeRead (s : Session) (i : Nat) (op : ReadOp) (bytes : Bytes) :
    (s.completeRead i op bytes).sendSide = s.sendSide := by cases op <;> rfl
@[simp] theorem sendSide_start (s : Session) (full : Bool) :
    (s.start full).sendSide = s.sendSide := by cases full <;> rfl

@[simp] theorem sendSide_handleRead (s : Session) (env : Environment) (op : ReadOp)
    (failed : Bool) (n : Nat) : (s.handleRead env op failed n).sendSide = s.sendSide := by
  cases op with
  | head =>
    simp only [handleRead, handleHeadRead]
    split_ifs <;> rfl
  | body =>
    simp only [handleRead, handleBodyRead]
    split_ifs <;> rfl

@[simp] theorem readSide_completeWrite (s : Session) (i : Nat) :
    (s.completeWrite i).readSide = s.readSide := rfl

@[simp] theorem readSide_send (s : Session) (order : ByteOrder) (slack : Slack) (data : Bytes) :
    (s.send order slack data).readSide = s.readSide := by
  simp only [send]
  split_ifs
  · rfl
  · rfl
  · split <;> rfl

@[simp] theorem readSide_handleWrite (s : Session) (failed : Bool) :
    (s.handleWrite failed).readSide = s.readSide := by
  simp only [handleWrite]
  split_ifs
  · rfl
  · split <;> rfl

/-! ## What sending does -/

/-- With 64 packets pending a send is dropped. -/
theorem send_of_full {s : Session} (order : ByteOrder) (slack : Slack) (data : Bytes)
    (h : s.m_sendQueue.length ≥ MAX_SESSION_SEND_QUEUE_PENDING_SIZE) :
    s.send order slack data = s := by
  simp [send, h]

/-- Otherwise its packet joins the queue, and is written at once if it is the only one. -/
theorem sendSide_send_of_room {s : Session} (order : ByteOrder) (slack : Slack) (data : Bytes)
    (h : s.m_sendQueue.length < MAX_SESSION_SEND_QUEUE_PENDING_SIZE) :
    let packet := SendPacket.create order slack data (UInt16.ofNat data.length)
    (s.send order slack data).sendSide =
      { m_sendQueue := s.m_sendQueue ++ [packet]
        writing := s.m_socket.writing ++ if s.m_sendQueue = [] then [packet] else []
        written := s.m_socket.written ++ if s.m_sendQueue = [] then [packet] else []
        accepted := s.accepted ++ [packet] } := by
  have hroom : ¬ MAX_SESSION_SEND_QUEUE_PENDING_SIZE ≤ s.m_sendQueue.length := by omega
  cases hq : s.m_sendQueue with
  | nil => simp [send, hq, sendSide, asyncWrite, MAX_SESSION_SEND_QUEUE_PENDING_SIZE]
  | cons p ps =>
    rw [hq, List.length_cons] at hroom
    simp [send, hq, hroom, sendSide]

theorem accepted_send_of_room {s : Session} (order : ByteOrder) (slack : Slack) (data : Bytes)
    (h : s.m_sendQueue.length < MAX_SESSION_SEND_QUEUE_PENDING_SIZE) :
    (s.send order slack data).accepted =
      s.accepted ++ [SendPacket.create order slack data (UInt16.ofNat data.length)] :=
  congrArg SendSide.accepted (sendSide_send_of_room order slack data h)

theorem m_sendQueue_send_of_room {s : Session} (order : ByteOrder) (slack : Slack) (data : Bytes)
    (h : s.m_sendQueue.length < MAX_SESSION_SEND_QUEUE_PENDING_SIZE) :
    (s.send order slack data).m_sendQueue =
      s.m_sendQueue ++ [SendPacket.create order slack data (UInt16.ofNat data.length)] :=
  congrArg SendSide.m_sendQueue (sendSide_send_of_room order slack data h)

/-- A write that went well takes the front packet off the queue and starts on the next. -/
theorem sendSide_handleWrite (s : Session) :
    (s.handleWrite false).sendSide =
      { m_sendQueue := s.m_sendQueue.tail
        writing := s.m_socket.writing ++ s.m_sendQueue.tail.head?.toList
        written := s.m_socket.written ++ s.m_sendQueue.tail.head?.toList
        accepted := s.accepted } := by
  cases hq : s.m_sendQueue.tail <;> simp [handleWrite, hq, sendSide, asyncWrite]

/-! ## What reading does -/

/-- The header buffer is as wide as a header. -/
def HeadBuffered (s : Session) : Prop := s.m_recvHead.m_size.toNat = PACKET_HEAD_SIZE

theorem headBuffered_start (full : Bool) : (start full {}).HeadBuffered := by
  cases full <;> rfl

theorem headBuffered_step {env : Environment} {s t : Session} {e : Event}
    (h : s.step env e = some t) (hs : s.HeadBuffered) : t.HeadBuffered := by
  obtain ⟨slack, data, rfl, rfl⟩ | ⟨i, op, failed, bytes, rfl, -, -, rfl⟩ |
    ⟨i, failed, packet, rfl, -, rfl⟩ := step_cases h
  · exact (congrArg (fun r : ReadSide => r.m_recvHead.m_size.toNat)
      (readSide_send s env.order slack data)).trans hs
  · cases op with
    | head =>
      simp only [handleRead, handleHeadRead]
      split_ifs <;> exact hs
    | body =>
      simp only [handleRead, handleBodyRead]
      split_ifs <;> exact hs
  · exact (congrArg (fun r : ReadSide => r.m_recvHead.m_size.toNat)
      (readSide_handleWrite (s.completeWrite i) failed)).trans hs

section

variable {s : Session} {bytes : Bytes} (env : Environment) (i : Nat)

/-- A header that was read: the session goes on to the body it announces, or closes. -/
theorem handleRead_head (hs : s.HeadBuffered) (hlen : bytes.length = s.requested .head) :
    (s.completeRead i .head bytes).handleRead env .head false bytes.length =
      if (headSize env.order bytes).toNat > PACKET_MAX_SIZE then
        (s.completeRead i .head bytes).close
      else
        asyncRead .body { s.completeRead i .head bytes with
          m_recvPacket := .create (headSize env.order bytes) } := by
  change bytes.length = PACKET_HEAD_SIZE at hlen
  have hdata : (s.completeRead i .head bytes).m_recvHead.m_data = bytes :=
    RecvPacket.fill_data (hlen.trans hs.symm)
  simp [handleRead, handleHeadRead, hdata, hlen]

/-- A body that was read: it is dispatched, and the session goes on to the next header. -/
theorem handleRead_body (hlen : bytes.length = s.requested .body) :
    (s.completeRead i .body bytes).handleRead env .body false bytes.length =
      if env.handlerThrows (dispatched s.notified) bytes then
        ((s.completeRead i .body bytes).notify (.onDataReady bytes)).close
      else
        asyncRead .head { (s.completeRead i .body bytes).notify (.onDataReady bytes) with
          m_recvPacket := (s.completeRead i .body bytes).m_recvPacket.clear } := by
  have hdata : (s.completeRead i .body bytes).m_recvPacket.m_data = bytes :=
    RecvPacket.fill_data hlen
  simp only [handleRead, handleBodyRead, hdata, Bool.false_eq_true, if_false]
  rfl

end

/-! ## Notifications -/

/-- The notifications a step makes. -/
def news (env : Environment) (s : Session) : Event → List Notification
  | .send _ _ => []
  | .readDone i failed bytes =>
    match s.m_socket.reading[i]? with
    | none => []
    | some .head =>
      if failed ∨ (headSize env.order bytes).toNat > PACKET_MAX_SIZE then [.onClosed] else []
    | some .body =>
      if failed then [.onClosed]
      else .onDataReady bytes ::
        if env.handlerThrows (dispatched s.notified) bytes then [.onClosed] else []
  | .writeDone _ failed => if failed then [.onClosed] else []

/-- What the handler has told the outside, and whether the socket is still open. -/
def outside (s : Session) : List Notification × Bool := (s.notified, s.m_socket.isOpen)

@[simp] theorem outside_notify (s : Session) (n : Notification) :
    (s.notify n).outside = (s.outside.1 ++ [n], s.outside.2) := rfl
@[simp] theorem outside_close (s : Session) :
    s.close.outside = (s.outside.1 ++ [.onClosed], false) := rfl
@[simp] theorem outside_asyncRead (s : Session) (op : ReadOp) :
    (s.asyncRead op).outside = s.outside := rfl
@[simp] theorem outside_completeRead (s : Session) (i : Nat) (op : ReadOp) (bytes : Bytes) :
    (s.completeRead i op bytes).outside = s.outside := by cases op <;> rfl
@[simp] theorem outside_completeWrite (s : Session) (i : Nat) :
    (s.completeWrite i).outside = s.outside := rfl
@[simp] theorem outside_recvPacket (s : Session) (p : RecvPacket) :
    outside { s with m_recvPacket := p } = s.outside := rfl

@[simp] theorem outside_send (s : Session) (order : ByteOrder) (slack : Slack) (data : Bytes) :
    (s.send order slack data).outside = s.outside := by
  simp only [send]
  split_ifs
  · rfl
  · rfl
  · split <;> rfl

@[simp] theorem outside_handleWrite (s : Session) (failed : Bool) :
    (s.handleWrite failed).outside = if failed then s.close.outside else s.outside := by
  simp only [handleWrite]
  split_ifs
  · rfl
  · split <;> rfl

/-- A step makes its notifications, and closes the socket exactly when `onClosed` is one. -/
theorem outside_step {env : Environment} {s t : Session} {e : Event} (hs : s.HeadBuffered)
    (h : s.step env e = some t) :
    t.outside = (s.outside.1 ++ news env s e, s.outside.2 && .onClosed ∉ news env s e) := by
  obtain ⟨slack, data, rfl, rfl⟩ | ⟨i, op, failed, bytes, rfl, hop, hlen, rfl⟩ |
    ⟨i, failed, packet, rfl, -, rfl⟩ := step_cases h
  · simp [news]
  · cases failed with
    | true => cases op <;> simp [handleRead, handleHeadRead, handleBodyRead, news, hop]
    | false =>
      cases op with
      | head =>
        rw [handleRead_head env i hs (hlen rfl)]
        by_cases hsize : (headSize env.order bytes).toNat > PACKET_MAX_SIZE
        · simp [news, hop, hsize]
        · simp [news, hop, hsize]
      | body =>
        rw [handleRead_body env i (hlen rfl)]
        cases hthrow : env.handlerThrows (dispatched s.notified) bytes <;>
          simp [news, hop, hthrow]
  · cases failed <;> simp [news]

theorem notified_step {env : Environment} {s t : Session} {e : Event} (hs : s.HeadBuffered)
    (h : s.step env e = some t) : t.notified = s.notified ++ news env s e :=
  congrArg Prod.fst (outside_step hs h)

theorem isOpen_step {env : Environment} {s t : Session} {e : Event} (hs : s.HeadBuffered)
    (h : s.step env e = some t) :
    t.m_socket.isOpen = (s.m_socket.isOpen && .onClosed ∉ news env s e) :=
  congrArg Prod.snd (outside_step hs h)

end Session

end NBRaft.Communication
