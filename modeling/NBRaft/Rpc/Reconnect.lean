import NBRaft.Rpc.Client

/-!
# Connecting again

`RpcClientStub::connect` and `disconnect` over `BaseClient`, with what of the `io_context` they
rely on: whether it has been stopped, and the thread in its `run`. The session is the same
object through all connections. What the peer and the network do to a connection are events of
their own, and so are the completions, which the thread delivers.
-/

namespace NBRaft.Rpc

open Communication Transition

inductive ClientThread where
  | none
  | running
  | returned
  deriving DecidableEq, Repr

/-- A stub with its client. `connected` and `peerClosed` are the state of the connection;
`lastConnect` and `disturbed` are histories: what the last `connect` returned, and whether
something has happened to the connection since. -/
structure StubConnection extends BaseClient where
  m_connected : Bool := false
  /-- Whether `m_ioc` has been stopped, or has run out of work. -/
  stopped : Bool := false
  m_clientThread : ClientThread := .none
  connected : Bool := false
  peerClosed : Bool := false
  lastConnect : Option Bool := none
  disturbed : Bool := false

namespace StubConnection

/-- Nothing has been connected yet; the socket is not open. -/
def fresh : StubConnection where
  m_session := { m_socket := { isOpen := false } }

inductive Event where
  /-- `connect`, with the outcome on a socket that is not connected. -/
  | connect (error : Bool)
  | disconnect
  | send (slack : Slack) (data : Bytes)
  | peerClose
  /-- The `i`-th outstanding read completes with an error. -/
  | readFails (i : Nat)
  | writeDone (i : Nat) (failed : Bool)
  | runReturns
  deriving DecidableEq, Repr

/-- The socket closes, if the handler has closed it. -/
def closed (c : StubConnection) : StubConnection :=
  { c with connected := c.connected && c.m_session.m_socket.isOpen }

/-- `BaseClient::connect`; a socket that is connected cannot be connected again, and a closed
one is opened. -/
def connect (error : Bool) (c : StubConnection) : Bool × StubConnection :=
  if error || c.connected then (false, c)
  else
    let c := { c with m_session := { c.m_session with m_socket :=
      { c.m_session.m_socket with isOpen := true } } }
    (true, { c with
      toBaseClient := (c.toBaseClient.connect false).2
      m_clientThread := .running
      connected := true
      peerClosed := false })

/-- `RpcClientStub::connect`. -/
def stubConnect (error : Bool) (c : StubConnection) : Bool × StubConnection :=
  if c.m_connected then (false, c)
  else
    match c.connect error with
    | (true, c) => (true, { c with m_connected := true })
    | (false, c) => (false, { c with m_connected := false })

/-- `BaseClient::disconnect`. -/
def disconnect (c : StubConnection) : StubConnection :=
  if c.m_running then
    { c with toBaseClient := c.toBaseClient.disconnect, stopped := true, m_clientThread := .none }
  else c

/-- The completions are delivered by the thread in `m_ioc.run()`, which leaves it once it has
been stopped or nothing is outstanding. -/
def step (env : Environment) (c : StubConnection) : Event → Option StubConnection
  | .connect error =>
    match c.stubConnect error with
    | (true, c) => some { c with lastConnect := some true, disturbed := false }
    | (false, c) => some { c with lastConnect := some false }
  | .disconnect => some { c.disconnect with m_connected := false, disturbed := true }
  | .send slack data =>
    if c.m_connected then
      some { c with toBaseClient := c.toBaseClient.send env.order slack data }
    else some c
  | .peerClose => some { c with peerClosed := true, disturbed := true }
  | .readFails i =>
    if c.m_clientThread = .running ∧ c.stopped = false ∧
        (c.peerClosed = true ∨ c.m_session.m_socket.isOpen = false) then do
      let session ← c.m_session.step env (.readDone i true [])
      some { c with m_session := session, disturbed := true }.closed
    else none
  | .writeDone i failed =>
    if c.m_clientThread = .running ∧ c.stopped = false then do
      let session ← c.m_session.step env (.writeDone i failed)
      some { c with m_session := session, disturbed := c.disturbed || failed }.closed
    else none
  | .runReturns =>
    if c.m_clientThread = .running ∧ (c.stopped = true ∨
        (c.m_session.m_socket.reading = [] ∧ c.m_session.m_socket.writing = [])) then
      some { c with m_clientThread := .returned, stopped := true }
    else none

/-- The `io_context` is not stopped and has its thread, a header read is outstanding, and
queued packets are on their way. -/
structure Works (c : StubConnection) : Prop where
  stopped : c.stopped = false
  thread : c.m_clientThread = .running
  reading : .head ∈ c.m_session.m_socket.reading
  writing : c.m_session.m_sendQueue ≠ [] → c.m_session.m_socket.writing ≠ []

/-- After a `connect` that returned `true`, until something happens to the connection. -/
def WorksIfConnected (c : StubConnection) : Prop :=
  c.lastConnect = some true → c.disturbed = false → c.Works

/-- A `connect` that nothing stands in the way of finds the `io_context` not stopped. -/
def FindsRunning (c : StubConnection) : Event → Prop
  | .connect error =>
    error = false → c.m_connected = false → c.connected = false → c.stopped = false
  | _ => True

/-- Until its `io_context` is stopped a client has connected at most once: the stub and the
client agree on that, and before it there is no thread and nothing has been sent. -/
structure Inv (c : StubConnection) : Prop where
  agree : c.stopped = false → c.m_connected = c.m_running
  running : c.stopped = false → c.m_running = true → c.m_clientThread = .running
  fresh : c.stopped = false → c.m_running = false →
    c.m_clientThread = .none ∧ c.m_session.m_sendQueue = []

theorem inv_fresh : fresh.Inv where
  agree _ := rfl
  running _ h := by cases h
  fresh _ _ := ⟨rfl, rfl⟩

theorem Inv.of_stopped {c : StubConnection} (h : c.stopped = true) : c.Inv where
  agree hs := by cases h.symm.trans hs
  running hs := by cases h.symm.trans hs
  fresh hs := by cases h.symm.trans hs

section

variable {env : Environment} {c d : StubConnection} {e : Event} {error : Bool}

/-- A `connect` fails and leaves the client as it was, or opens the session, on whatever
`io_context` there is. -/
theorem connect_cases (c : StubConnection) (error : Bool) :
    ((error = true ∨ c.connected = true) ∧ c.connect error = (false, c)) ∨
    (error = false ∧ c.connected = false ∧ (c.connect error).1 = true ∧
      (c.connect error).2.stopped = c.stopped ∧
      (c.connect error).2.m_running = true ∧ (c.connect error).2.m_clientThread = .running ∧
      (c.connect error).2.m_session.m_sendQueue = c.m_session.m_sendQueue ∧
      .head ∈ (c.connect error).2.m_session.m_socket.reading) := by
  unfold connect
  split
  · rename_i hor
    exact .inl ⟨by simpa using hor, rfl⟩
  · rename_i hnor
    simp only [Bool.or_eq_true, not_or, Bool.not_eq_true] at hnor
    refine .inr ⟨hnor.1, hnor.2, rfl, rfl, rfl, rfl, rfl, ?_⟩
    simp [BaseClient.connect, Session.start, Session.asyncRead, Session.notify]

/-- A `connect` of the stub returns `false`, or the client has connected. -/
theorem step_connect (h : c.step env (.connect error) = some d) :
    ((error = true ∨ c.m_connected = true ∨ c.connected = true) ∧
      d = { c with lastConnect := some false }) ∨
    (error = false ∧ c.m_connected = false ∧ c.connected = false ∧
      d = { (c.connect error).2 with
        m_connected := true, lastConnect := some true, disturbed := false }) := by
  cases hm : c.m_connected with
  | true =>
    simp only [step, stubConnect, hm, if_true, Option.some.injEq] at h
    exact .inl ⟨.inr (.inl rfl), h ▸ by rw [← hm]⟩
  | false =>
    obtain ⟨result, after, heq⟩ : ∃ result after, c.connect error = (result, after) :=
      ⟨_, _, rfl⟩
    simp only [step, stubConnect, hm, heq, Bool.false_eq_true, if_false] at h
    rcases connect_cases c error with ⟨hor, hfail⟩ | ⟨he, hc, hsuccess, -⟩
    · obtain ⟨rfl, rfl⟩ := Prod.mk.inj (heq.symm.trans hfail)
      simp only [Option.some.injEq] at h
      refine .inl ⟨hor.imp_right .inr, ?_⟩
      rw [← h, ← hm]
    · rw [heq] at hsuccess
      dsimp only at hsuccess
      subst hsuccess
      simp only [Option.some.injEq] at h
      exact .inr ⟨he, rfl, hc, by rw [heq, ← h]⟩

/-- A send does nothing, or is one of the session. -/
theorem step_send {slack : Slack} {data : Bytes} (h : c.step env (.send slack data) = some d) :
    d = c ∨ (c.m_connected = true ∧ c.m_running = true ∧
      d = { c with m_session := c.m_session.send env.order slack data }) := by
  simp only [step, BaseClient.send] at h
  split at h
  · rename_i hm
    split at h
    · rename_i hr
      exact .inr ⟨hm, hr, (Option.some.inj h).symm⟩
    · exact .inl (Option.some.inj h).symm
  · exact .inl (Option.some.inj h).symm

/-- A completion leaves all but the session alone, and whether it is connected. -/
structure Delivers (c d : StubConnection) : Prop where
  thread : c.m_clientThread = .running
  sameThread : d.m_clientThread = c.m_clientThread
  stopped : d.stopped = c.stopped
  m_running : d.m_running = c.m_running
  m_connected : d.m_connected = c.m_connected
  lastConnect : d.lastConnect = c.lastConnect

theorem delivers_readFails {i : Nat} (h : c.step env (.readFails i) = some d) :
    c.Delivers d ∧ d.disturbed = true := by
  simp only [step, Option.ite_none_right_eq_some, Option.bind_eq_bind, Option.bind_eq_some_iff,
    Option.some.injEq] at h
  obtain ⟨⟨hthread, -⟩, session, -, rfl⟩ := h
  exact ⟨⟨hthread, rfl, rfl, rfl, rfl, rfl⟩, rfl⟩

theorem delivers_writeDone {i : Nat} {failed : Bool}
    (h : c.step env (.writeDone i failed) = some d) :
    c.Delivers d ∧ d.disturbed = (c.disturbed || failed) ∧
      c.m_session.step env (.writeDone i failed) = some d.m_session := by
  simp only [step, Option.ite_none_right_eq_some, Option.bind_eq_bind, Option.bind_eq_some_iff,
    Option.some.injEq] at h
  obtain ⟨⟨hthread, -⟩, session, hsession, rfl⟩ := h
  exact ⟨⟨hthread, rfl, rfl, rfl, rfl, rfl⟩, rfl, hsession⟩

theorem inv_of_delivers (hd : c.Delivers d) (hc : c.Inv) : d.Inv where
  agree hs := by
    rw [hd.m_connected, hd.m_running]
    exact hc.agree (hd.stopped ▸ hs)
  running hs _ := hd.sameThread.trans hd.thread
  fresh hs hr := by
    have := (hc.fresh (hd.stopped ▸ hs) (hd.m_running ▸ hr)).1
    cases hd.thread.symm.trans this

theorem inv_step (h : c.step env e = some d) (hc : c.Inv) : d.Inv := by
  cases e with
  | connect error =>
    rcases step_connect h with ⟨-, rfl⟩ | ⟨rfl, -, hconn, rfl⟩
    · exact { hc with }
    · rcases connect_cases c false with ⟨hor, -⟩ |
        ⟨-, -, -, -, hrunning, hthread, -⟩
      · simp [hconn] at hor
      · exact ⟨fun _ => hrunning.symm, fun _ _ => hthread, fun _ hr => by
          cases hrunning.symm.trans hr⟩
  | disconnect =>
    obtain rfl := Option.some.inj h
    cases hr : c.m_running with
    | true => exact .of_stopped (by simp [disconnect, hr])
    | false =>
      have hsame : c.disconnect = c := by simp [disconnect, hr]
      rw [hsame]
      exact ⟨fun _ => hr.symm, fun _ hrun => (by cases hr.symm.trans hrun), hc.fresh⟩
  | send slack data =>
    rcases step_send h with rfl | ⟨hm, hrunning, rfl⟩
    · exact hc
    · exact ⟨fun _ => hm.trans hrunning.symm, hc.running, fun _ hr => by
        cases hrunning.symm.trans hr⟩
  | peerClose =>
    obtain rfl := Option.some.inj h
    exact { hc with }
  | readFails i => exact inv_of_delivers (delivers_readFails h).1 hc
  | writeDone i failed => exact inv_of_delivers (delivers_writeDone h).1 hc
  | runReturns =>
    simp only [step, Option.ite_none_right_eq_some, Option.some.injEq] at h
    obtain ⟨-, rfl⟩ := h
    exact .of_stopped rfl

/-- A packet that is queued alone is written. -/
theorem writing_send {s : Session} (order : ByteOrder) (slack : Slack) (data : Bytes)
    (hs : s.m_sendQueue ≠ [] → s.m_socket.writing ≠ []) :
    (s.send order slack data).m_sendQueue ≠ [] →
      (s.send order slack data).m_socket.writing ≠ [] := by
  by_cases hroom : s.m_sendQueue.length < Session.MAX_SESSION_SEND_QUEUE_PENDING_SIZE
  · have hside := congrArg Session.SendSide.writing (Session.sendSide_send_of_room order slack data
      hroom)
    change (s.send order slack data).m_socket.writing = _ at hside
    intro _
    rw [hside]
    by_cases hq : s.m_sendQueue = []
    · simp [hq]
    · simp [hs hq]
  · rw [Session.send_of_full order slack data (Nat.le_of_not_lt hroom)]
    exact hs

/-- So is the next packet when one has been written. -/
theorem writing_writeDone {s t : Session} {i : Nat}
    (h : s.step env (.writeDone i false) = some t) :
    (t.m_sendQueue ≠ [] → t.m_socket.writing ≠ []) ∧ t.m_socket.reading = s.m_socket.reading := by
  obtain ⟨slack, data, he, -⟩ | ⟨j, op, failed, bytes, he, -⟩ | ⟨j, failed, packet, he, -, rfl⟩ :=
    Session.step_cases h
  · cases he
  · cases he
  · cases he
    have hside :=
      congrArg Session.SendSide.writing (Session.sendSide_handleWrite (s.completeWrite i))
    have hqueue :=
      congrArg Session.SendSide.m_sendQueue (Session.sendSide_handleWrite (s.completeWrite i))
    change ((s.completeWrite i).handleWrite false).m_socket.writing = _ at hside
    change ((s.completeWrite i).handleWrite false).m_sendQueue = _ at hqueue
    dsimp only at hside hqueue
    refine ⟨fun hne => ?_, congrArg Session.ReadSide.reading
      (Session.readSide_handleWrite (s.completeWrite i) false)⟩
    rw [hqueue] at hne
    rw [hside]
    obtain ⟨p, ps, hcons⟩ := List.exists_cons_of_ne_nil hne
    simp [hcons]

/-- A step keeps the property exactly if it is no `connect` that succeeds on a stopped
`io_context`. -/
theorem worksIfConnected_step_iff (h : c.step env e = some d) (hc : c.Inv)
    (hw : c.WorksIfConnected) : d.WorksIfConnected ↔ c.FindsRunning e := by
  cases e with
  | connect error =>
    rcases step_connect h with ⟨hor, rfl⟩ | ⟨rfl, hm, hconn, rfl⟩
    · refine iff_of_true (fun hlast => by cases hlast) fun he hm hconn => ?_
      simp [he, hm, hconn] at hor
    · rcases connect_cases c false with ⟨hor, -⟩ |
        ⟨-, -, -, hstopped, -, hthread, hqueue, hreading⟩
      · simp [hconn] at hor
      constructor
      · exact fun hd _ _ _ => hstopped.symm.trans (hd rfl rfl).stopped
      · intro hrun _ _
        have hcs := hrun rfl hm hconn
        have hempty := (hc.fresh hcs ((hc.agree hcs).symm.trans hm)).2
        exact ⟨hstopped.trans hcs, hthread, hreading, fun hne => absurd (hqueue.trans hempty) hne⟩
  | disconnect =>
    obtain rfl := Option.some.inj h
    exact iff_of_true (fun _ hd => by cases hd) trivial
  | send slack data =>
    refine iff_of_true ?_ trivial
    rcases step_send h with rfl | ⟨-, -, rfl⟩
    · exact hw
    · intro hlast hdist
      have := hw hlast hdist
      have hreading : (c.m_session.send env.order slack data).m_socket.reading = _ :=
        congrArg Session.ReadSide.reading
          (Session.readSide_send c.m_session env.order slack data)
      exact ⟨this.stopped, this.thread, hreading ▸ this.reading,
        writing_send env.order slack data this.writing⟩
  | peerClose =>
    obtain rfl := Option.some.inj h
    exact iff_of_true (fun _ hd => by cases hd) trivial
  | readFails i =>
    refine iff_of_true (fun _ hdist => ?_) trivial
    cases (delivers_readFails h).2.symm.trans hdist
  | writeDone i failed =>
    refine iff_of_true (fun hlast hdist => ?_) trivial
    obtain ⟨hd, hdisturbed, hsession⟩ := delivers_writeDone h
    rw [hdisturbed, Bool.or_eq_false_iff] at hdist
    obtain ⟨hdist, rfl⟩ := hdist
    have := hw (hd.lastConnect ▸ hlast) hdist
    obtain ⟨hwriting, hreading⟩ := writing_writeDone hsession
    exact ⟨hd.stopped.trans this.stopped, hd.sameThread.trans this.thread,
      hreading ▸ this.reading, hwriting⟩
  | runReturns =>
    -- with a read outstanding the thread stays
    simp only [step, Option.ite_none_right_eq_some, Option.some.injEq] at h
    obtain ⟨⟨-, hor⟩, rfl⟩ := h
    refine iff_of_true (fun hlast hdist => ?_) trivial
    have := hw hlast hdist
    rcases hor with hstopped | ⟨hreading, -⟩
    · cases this.stopped.symm.trans hstopped
    · have hmem := this.reading
      rw [hreading] at hmem
      cases hmem

end

/-- In every run: each connection whose `connect` returned `true` works, as long as nothing has
happened to it, exactly if each `connect` that can succeed finds the `io_context` not stopped. -/
theorem works_iff_findsRunning (env : Environment) (es : List Event) (c : StubConnection)
    (h : run (step env) fresh es = some c) :
    Throughout (step env) WorksIfConnected fresh es ↔ Along (step env) FindsRunning fresh es :=
  throughout_iff_along (fun _ _ _ => inv_step) (fun _ _ _ => worksIfConnected_step_iff) h inv_fresh
    fun hlast => by cases hlast

/-- A first connection, over which a packet is sent. -/
theorem works_iff_findsRunning_send :
    ∃ c, run (step ⟨.littleEndian, fun _ _ => false⟩) fresh
        [.connect false, .send (0, 0) [1], .writeDone 0 false] = some c ∧
      (Throughout (step ⟨.littleEndian, fun _ _ => false⟩) WorksIfConnected fresh
          [.connect false, .send (0, 0) [1], .writeDone 0 false] ↔
        Along (step ⟨.littleEndian, fun _ _ => false⟩) FindsRunning fresh
          [.connect false, .send (0, 0) [1], .writeDone 0 false]) :=
  ⟨_, rfl, works_iff_findsRunning _ _ _ rfl⟩

/-- After the peer has closed and the client has disconnected, `connect` returns `true` again,
on an `io_context` that stays stopped. -/
theorem reconnected_does_not_work :
    ∃ c, run (step ⟨.littleEndian, fun _ _ => false⟩) fresh
        [.connect false, .peerClose, .readFails 0, .disconnect, .connect false] = some c ∧
      c.lastConnect = some true ∧ c.disturbed = false ∧ ¬ c.WorksIfConnected := by
  refine ⟨_, rfl, rfl, rfl, fun h => ?_⟩
  have hstopped := (h rfl rfl).stopped
  cases hstopped

end StubConnection

end NBRaft.Rpc
