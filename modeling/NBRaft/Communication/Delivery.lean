import NBRaft.Communication.Session

/-!
# Delivery of payloads

A session reads a stream of packets back as the payloads they were built from. `Awaits` ties
the one outstanding read to the part of the stream that has not been read: whatever steps are
taken, the session stays at the frame boundary, or inside the frame, that the bytes read so far
have brought it to.
-/

namespace NBRaft.Communication.Session

open Framing Transition

/-- The bytes a successful read takes off the stream. -/
def Event.bytesRead : Event → Bytes
  | .readDone _ false bytes => bytes
  | _ => []

/-- A completion with an error. -/
def Event.Failed : Event → Prop
  | .send _ _ => False
  | .readDone _ failed _ => failed = true
  | .writeDone _ failed => failed = true

def received (es : List Event) : Bytes := es.flatMap Event.bytesRead

/-- The payloads up to the first one the handler throws on, with it, where the earlier ones have
been dispatched before. -/
def handled (throws : List Bytes → Bytes → Bool) (earlier : List Bytes) :
    List Bytes → List Bytes
  | [] => []
  | p :: ps => p :: if throws earlier p then [] else handled throws (earlier ++ [p]) ps

/-- The handler throws on none of these payloads, dispatched one after the other. -/
def NeverThrows (throws : List Bytes → Bytes → Bool) (ps : List Bytes) : Prop :=
  ∀ earlier p, earlier ++ [p] <+: ps → throws earlier p = false

@[simp] theorem received_cons (e : Event) (es : List Event) :
    received (e :: es) = e.bytesRead ++ received es := rfl

section

variable {throws : List Bytes → Bytes → Bool} {earlier before after ps qs : List Bytes} {p : Bytes}

theorem neverThrows_nil : NeverThrows throws [] := fun _ _ h => by simp at h

theorem neverThrows_concat :
    NeverThrows throws (ps ++ [p]) ↔ NeverThrows throws ps ∧ throws ps p = false := by
  constructor
  · intro h
    exact ⟨fun earlier q hq => h earlier q (hq.trans (List.prefix_append ..)),
      h ps p List.prefix_rfl⟩
  · rintro ⟨hps, hp⟩ earlier q hq
    rcases List.prefix_concat_iff.mp hq with heq | hq
    · obtain ⟨rfl, hqp⟩ := List.append_inj' heq rfl
      obtain rfl := List.singleton_inj.mp hqp
      exact hp
    · exact hps earlier q hq

theorem NeverThrows.anti (h : NeverThrows throws ps) (hle : qs <+: ps) :
    NeverThrows throws qs := fun earlier p hp => h earlier p (hp.trans hle)

theorem handled_append (h : NeverThrows throws (earlier ++ before)) :
    handled throws earlier (before ++ after) =
      before ++ handled throws (earlier ++ before) after := by
  induction before generalizing earlier with
  | nil => simp
  | cons q qs ih =>
    have hq : throws earlier q = false := h earlier q ⟨qs, by simp⟩
    have hqs : NeverThrows throws ((earlier ++ [q]) ++ qs) := by simpa using h
    simpa [handled, hq] using ih hqs

theorem handled_of_neverThrows (h : NeverThrows throws ps) : handled throws [] ps = ps := by
  have happend : handled throws [] (ps ++ []) = ps ++ handled throws ps [] := handled_append h
  simpa [handled] using happend

theorem handled_of_throws (hbefore : NeverThrows throws before) (hp : throws before p = true) :
    handled throws [] (before ++ p :: after) = before ++ [p] := by
  rw [handled_append hbefore]
  simp [handled, hp]

end

/-! ## Waiting for the stream -/

namespace ReadSide

/-- The one outstanding read asks for what the phase calls for. -/
def Waits (r : ReadSide) : Phase → Prop
  | .head => r.reading = [.head]
  | .body size => r.reading = [.body] ∧ r.m_recvPacket.m_size.toNat = size

/-- `rest` is still to be read, with exactly the payloads `todo` in it; or the session has
stopped reading. -/
structure Awaits (order : ByteOrder) (rest : Bytes) (todo : List Bytes) (r : ReadSide) :
    Prop where
  buffered : r.m_recvHead.m_size.toNat = PACKET_HEAD_SIZE
  limit : ∀ payload ∈ todo, payload.length ≤ PACKET_MAX_SIZE
  reading : r.reading = [] ∨ ∃ phase, r.Waits phase ∧ Expects (header order) phase rest todo

end ReadSide

section

variable {env : Environment} {s t : Session} {e : Event} {es : List Event} {rest : Bytes}
  {todo : List Bytes}

/-- A header in the stream announces a body within the limit. -/
theorem awaits_read_head {i : Nat} {bytes : Bytes}
    (ha : s.readSide.Awaits env.order (bytes ++ rest) todo)
    (hi : s.m_socket.reading[i]? = some .head) (hlen : bytes.length = s.requested .head) :
    (headSize env.order bytes).toNat ≤ PACKET_MAX_SIZE ∧
      ((s.completeRead i .head bytes).handleRead env .head false
        bytes.length).readSide.Awaits env.order rest todo := by
  obtain ⟨hbuf, hlimit, hstop | ⟨phase, hw, hexp⟩⟩ := ha
  · simp [show s.m_socket.reading = [] from hstop] at hi
  cases phase with
  | body size => cases i <;> simp [show s.m_socket.reading = [.body] from hw.1] at hi
  | head =>
    have hreading : s.m_socket.reading = [.head] := hw
    obtain rfl : i = 0 := by
      cases i with
      | zero => rfl
      | succ i => simp [hreading] at hi
    obtain ⟨hbody, payload, hmem, hsize⟩ := hexp.read_head hlen
      (show 0 < PACKET_HEAD_SIZE by decide)
    have hle : (headSize env.order bytes).toNat ≤ PACKET_MAX_SIZE := by
      have := hlimit payload hmem
      simp only [header] at hsize
      omega
    refine ⟨hle, ?_⟩
    rw [handleRead_head env 0 hbuf hlen, if_neg (by omega)]
    refine ⟨hbuf, hlimit, .inr ⟨.body (headSize env.order bytes).toNat, ⟨?_, rfl⟩, hbody⟩⟩
    simp [readSide, asyncRead, completeRead, hreading]

/-- A body is the next payload. -/
theorem awaits_read_body {i : Nat} {bytes : Bytes}
    (ha : s.readSide.Awaits env.order (bytes ++ rest) todo)
    (hi : s.m_socket.reading[i]? = some .body) (hlen : bytes.length = s.requested .body) :
    ∃ todo', todo = bytes :: todo' ∧
      let t := (s.completeRead i .body bytes).handleRead env .body false bytes.length
      t.readSide.Awaits env.order rest todo' ∧
        (t.m_socket.reading = [] ↔ env.handlerThrows (dispatched s.notified) bytes = true) := by
  obtain ⟨hbuf, hlimit, hstop | ⟨phase, hw, hexp⟩⟩ := ha
  · simp [show s.m_socket.reading = [] from hstop] at hi
  cases phase with
  | head => cases i <;> simp [show s.m_socket.reading = [.head] from hw] at hi
  | body size =>
    have hreading : s.m_socket.reading = [.body] := hw.1
    obtain rfl : i = 0 := by
      cases i with
      | zero => rfl
      | succ i => simp [hreading] at hi
    obtain ⟨todo', rfl, hhead⟩ := hexp.read_body (hlen.trans hw.2)
    have hlimit' : ∀ payload ∈ todo', payload.length ≤ PACKET_MAX_SIZE :=
      fun payload hp => hlimit payload (by simp [hp])
    refine ⟨todo', rfl, ?_⟩
    rw [handleRead_body env 0 hlen]
    cases hthrow : env.handlerThrows (dispatched s.notified) bytes with
    | true =>
      refine ⟨⟨hbuf, hlimit', .inl ?_⟩, ?_⟩ <;>
        simp [readSide, close, notify, completeRead, hreading]
    | false =>
      refine ⟨⟨hbuf, hlimit', .inr ⟨.head, ?_, hhead⟩⟩, ?_⟩ <;>
        simp [ReadSide.Waits, readSide, asyncRead, notify, completeRead, hreading]

/-- A failed completion dispatches nothing, and moves nothing in the stream. -/
theorem awaits_step_failed (h : s.step env e = some t) (he : e.Failed)
    (ha : s.readSide.Awaits env.order rest todo) :
    e.bytesRead = [] ∧ dispatched (news env s e) = [] ∧ t.readSide.Awaits env.order rest todo := by
  obtain ⟨slack, data, rfl, rfl⟩ | ⟨i, op, failed, bytes, rfl, hop, -, rfl⟩ |
    ⟨i, failed, packet, rfl, -, rfl⟩ := step_cases h
  · exact he.elim
  · obtain rfl : failed = true := he
    refine ⟨rfl, by cases op <;> simp [news, hop, dispatched], ?_⟩
    have hstop : s.m_socket.reading.eraseIdx i = [] := by
      obtain ⟨-, -, hstop | ⟨phase, hw, -⟩⟩ := ha
      · simp [show s.m_socket.reading = [] from hstop]
      · have hone : ∃ op', s.m_socket.reading = [op'] := by
          cases phase with
          | head => exact ⟨_, hw⟩
          | body size => exact ⟨_, hw.1⟩
        obtain ⟨op', hone⟩ := hone
        cases i with
        | zero => simp [hone]
        | succ i => simp [hone] at hop
    have hr : ((s.completeRead i op bytes).handleRead env op true bytes.length).readSide =
        (s.completeRead i op bytes).readSide := by cases op <;> rfl
    rw [hr]
    cases op <;> exact ⟨ha.buffered, ha.limit, .inl hstop⟩
  · obtain rfl : failed = true := he
    exact ⟨rfl, by simp [news, dispatched], by simpa using ha⟩

/-- Any other step dispatches nothing, or the next payload of the stream. -/
theorem awaits_step_ok (h : s.step env e = some t) (he : ¬ e.Failed)
    (ha : s.readSide.Awaits env.order (e.bytesRead ++ rest) todo) :
    (news env s e = [] ∧ (t.m_socket.reading = [] ↔ s.m_socket.reading = []) ∧
      t.readSide.Awaits env.order rest todo) ∨
    ∃ payload todo', todo = payload :: todo' ∧ s.m_socket.reading ≠ [] ∧
      news env s e = .onDataReady payload ::
        (if env.handlerThrows (dispatched s.notified) payload then [.onClosed] else []) ∧
      (t.m_socket.reading = [] ↔ env.handlerThrows (dispatched s.notified) payload = true) ∧
      t.readSide.Awaits env.order rest todo' := by
  obtain ⟨slack, data, rfl, rfl⟩ | ⟨i, op, failed, bytes, rfl, hop, hlen, rfl⟩ |
    ⟨i, failed, packet, rfl, -, rfl⟩ := step_cases h
  · have hr := readSide_send s env.order slack data
    refine .inl ⟨rfl, ?_, by simpa [Event.bytesRead] using ha⟩
    rw [show (s.send env.order slack data).m_socket.reading = s.m_socket.reading from
      congrArg ReadSide.reading hr]
  · obtain rfl : failed = false := by simpa [Event.Failed] using he
    have hne : s.m_socket.reading ≠ [] := by
      intro hnil
      simp [hnil] at hop
    change s.readSide.Awaits env.order (bytes ++ rest) todo at ha
    cases op with
    | head =>
      obtain ⟨hle, ha'⟩ := awaits_read_head ha hop (hlen rfl)
      refine .inl ⟨?_, iff_of_false ?_ hne, ha'⟩
      · simp only [news, hop, Bool.false_eq_true, false_or]
        exact if_neg (by omega)
      · rw [handleRead_head env i ha.buffered (hlen rfl), if_neg (by omega)]
        simp [asyncRead]
    | body =>
      obtain ⟨todo', rfl, ha', hstop⟩ := awaits_read_body ha hop (hlen rfl)
      exact .inr ⟨bytes, todo', rfl, hne, by simp [news, hop], hstop, ha'⟩
  · obtain rfl : failed = false := by simpa [Event.Failed] using he
    have hr := readSide_handleWrite (s.completeWrite i) false
    refine .inl ⟨rfl, ?_, by simpa [Event.bytesRead] using ha⟩
    rw [show ((s.completeWrite i).handleWrite false).m_socket.reading = s.m_socket.reading from
      congrArg ReadSide.reading hr]

theorem awaits_run (h : run (step env) s es = some t)
    (ha : s.readSide.Awaits env.order (received es ++ rest) todo) :
    ∃ todo', t.readSide.Awaits env.order rest todo' ∧
      dispatched t.notified ++ todo' = dispatched s.notified ++ todo := by
  induction es generalizing s todo with
  | nil =>
    obtain rfl := Option.some.inj h
    exact ⟨todo, ha, rfl⟩
  | cons e es ih =>
    obtain ⟨u, hu, hrun⟩ := run_cons_eq_some.mp h
    rw [received_cons, List.append_assoc] at ha
    have hnews : dispatched u.notified = dispatched s.notified ++ dispatched (news env s e) := by
      rw [notified_step ha.buffered hu, dispatched_append]
    by_cases he : e.Failed
    · obtain ⟨hbytes, hnone, ha'⟩ := awaits_step_failed hu he ha
      obtain ⟨todo', hawait, heq⟩ := ih hrun (by simpa [hbytes] using ha')
      exact ⟨todo', hawait, by rw [heq, hnews, hnone, List.append_nil]⟩
    · obtain ⟨hnone, -, ha'⟩ | ⟨payload, todo₁, rfl, -, hone, -, ha'⟩ := awaits_step_ok hu he ha
      · obtain ⟨todo', hawait, heq⟩ := ih hrun ha'
        exact ⟨todo', hawait, by rw [heq, hnews, hnone]; simp [dispatched]⟩
      · obtain ⟨todo', hawait, heq⟩ := ih hrun ha'
        refine ⟨todo', hawait, ?_⟩
        rw [heq, hnews, hone]
        cases env.handlerThrows (dispatched s.notified) payload <;> simp [dispatched]

/-- No completion has failed: the session reads on, unless the handler threw on the payload
dispatched last. -/
def Undisturbed (env : Environment) (s : Session) : Prop :=
  (s.m_socket.reading ≠ [] ∧ .onClosed ∉ s.notified ∧
    NeverThrows env.handlerThrows (dispatched s.notified)) ∨
  (s.m_socket.reading = [] ∧ .onClosed ∈ s.notified ∧
    ∃ before payload, dispatched s.notified = before ++ [payload] ∧
      NeverThrows env.handlerThrows before ∧ env.handlerThrows before payload = true)

theorem undisturbed_start (env : Environment) : Undisturbed env (start false {}) :=
  .inl ⟨by simp [start, asyncRead, notify], by simp [start, asyncRead, notify], neverThrows_nil⟩

theorem undisturbed_step (h : s.step env e = some t) (he : ¬ e.Failed)
    (ha : s.readSide.Awaits env.order (e.bytesRead ++ rest) todo) (hs : s.Undisturbed env) :
    t.Undisturbed env := by
  have hnotified := notified_step ha.buffered h
  obtain ⟨hnone, hread, -⟩ | ⟨payload, todo', -, hne, hone, hread, -⟩ := awaits_step_ok h he ha
  · simpa only [Undisturbed, hnotified, hnone, List.append_nil, ne_eq, hread] using hs
  · obtain ⟨-, hopen, hquiet⟩ | ⟨hnil, -, -⟩ := hs
    · cases hthrow : env.handlerThrows (dispatched s.notified) payload with
      | true =>
        have hnews : news env s e = [.onDataReady payload, .onClosed] := by simp [hone, hthrow]
        refine .inr ⟨hread.mpr hthrow, ?_, dispatched s.notified, payload, ?_, hquiet, hthrow⟩ <;>
          simp [hnotified, hnews, dispatched]
      | false =>
        have hnews : news env s e = [.onDataReady payload] := by simp [hone, hthrow]
        have hdisp : dispatched t.notified = dispatched s.notified ++ [payload] := by
          simp [hnotified, hnews, dispatched]
        refine .inl ⟨fun hnil => by simp [hread.mp hnil] at hthrow, ?_, ?_⟩
        · simp [hnotified, hnews, hopen]
        · rw [hdisp]
          exact neverThrows_concat.mpr ⟨hquiet, hthrow⟩
    · exact absurd hnil hne

theorem undisturbed_run (h : run (step env) s es = some t) (hes : ∀ e ∈ es, ¬ e.Failed)
    (ha : s.readSide.Awaits env.order (received es ++ rest) todo) (hs : s.Undisturbed env) :
    t.Undisturbed env := by
  induction es generalizing s todo with
  | nil => exact Option.some.inj h ▸ hs
  | cons e es ih =>
    obtain ⟨u, hu, hrun⟩ := run_cons_eq_some.mp h
    rw [received_cons, List.append_assoc] at ha
    have he := hes e (by simp)
    have hu' := undisturbed_step hu he ha hs
    have hes' : ∀ e' ∈ es, ¬ e'.Failed := fun e' he' => hes e' (by simp [he'])
    obtain ⟨-, -, ha'⟩ | ⟨payload, todo', -, -, -, -, ha'⟩ := awaits_step_ok hu he ha
    · exact ih hrun hes' ha' hu'
    · exact ih hrun hes' ha' hu'

/-- A session with nothing to read that its outstanding read could complete with has read the
whole stream. -/
theorem awaits_exhausted {order : ByteOrder} (ha : s.readSide.Awaits order rest todo)
    (hread : s.m_socket.reading ≠ [])
    (hstuck : ∀ op ∈ s.m_socket.reading, rest.length < s.requested op) :
    rest = [] ∧ todo = [] := by
  obtain ⟨-, -, hstop | ⟨phase, hw, hexp⟩⟩ := ha
  · exact absurd hstop hread
  cases phase with
  | head =>
    have hreading : s.m_socket.reading = [.head] := hw
    rcases hexp.head_cases with hdone | hle
    · exact hdone
    · have hlt := hstuck .head (by simp [hreading])
      change rest.length < PACKET_HEAD_SIZE at hlt
      change PACKET_HEAD_SIZE ≤ rest.length at hle
      omega
  | body size =>
    have hreading : s.m_socket.reading = [.body] := hw.1
    have hlt := hstuck .body (by simp [hreading])
    have hsize : s.requested .body = size := hw.2
    have hle := hexp.body_le
    omega

/-- Frames that are all there can be read to their end. -/
theorem exists_run_frames (hf : Frames (header env.order) rest todo)
    (hbuf : s.HeadBuffered) (hread : s.m_socket.reading = [.head])
    (hlimit : ∀ payload ∈ todo, payload.length ≤ PACKET_MAX_SIZE)
    (hquiet : NeverThrows env.handlerThrows (dispatched s.notified ++ todo)) :
    ∃ es t, run (step env) s es = some t ∧ received es = rest ∧ (∀ e ∈ es, ¬ e.Failed) ∧
      t.m_socket.reading = [.head] := by
  induction hf generalizing s with
  | nil => exact ⟨[], s, rfl, rfl, by simp, hread⟩
  | @cons frame payload stream payloads hframe _ ih =>
    obtain ⟨head, rfl, hlen, hsize⟩ := hframe
    have hle : payload.length ≤ PACKET_MAX_SIZE := hlimit payload (by simp)
    change head.length = PACKET_HEAD_SIZE at hlen
    change (headSize env.order head).toNat = payload.length at hsize
    -- the header, then the body it announces
    obtain ⟨u, hu, hubuf, huread, husize, hudisp⟩ : ∃ u,
        s.step env (.readDone 0 false head) = some u ∧ u.HeadBuffered ∧
        u.m_socket.reading = [.body] ∧ u.m_recvPacket.m_size = headSize env.order head ∧
        u.notified = s.notified := by
      refine ⟨_, by simp [step, hread, requested, hlen]; rfl, ?_⟩
      rw [← hlen, handleRead_head env 0 hbuf hlen, if_neg (by omega)]
      exact ⟨hbuf, by simp [asyncRead, completeRead, hread], rfl, rfl⟩
    have hbody : payload.length = u.requested .body := by
      rw [← hsize, ← husize]
      rfl
    have hthrow : env.handlerThrows (dispatched u.notified) payload = false :=
      hudisp ▸ hquiet _ payload ⟨payloads, by simp⟩
    obtain ⟨v, hv, hvbuf, hvread, hvdisp⟩ : ∃ v,
        u.step env (.readDone 0 false payload) = some v ∧ v.HeadBuffered ∧
        v.m_socket.reading = [.head] ∧ v.notified = u.notified ++ [.onDataReady payload] := by
      refine ⟨_, by simp [step, huread, hbody]; rfl, ?_⟩
      rw [← hbody, handleRead_body env 0 hbody, if_neg (by simp [hthrow])]
      exact ⟨hubuf, by simp [asyncRead, notify, completeRead, huread], rfl⟩
    have hquiet' : NeverThrows env.handlerThrows (dispatched v.notified ++ payloads) := by
      rw [hvdisp, hudisp, dispatched_append, List.append_assoc]
      exact hquiet
    obtain ⟨es, t, hrun, hrec, hok, htread⟩ := ih hvbuf hvread
      (fun p hp => hlimit p (by simp [hp])) hquiet'
    refine ⟨.readDone 0 false head :: .readDone 0 false payload :: es, t, ?_, ?_, ?_, htread⟩
    · rw [run_cons, hu, Option.bind_some, run_cons, hv, Option.bind_some, hrun]
    · simp [Event.bytesRead, hrec]
    · simpa [Event.Failed] using hok

end

/-! ## The round trip -/

/-- The stream of the packets built from the payloads, each with its slack. -/
def packetStream (order : ByteOrder) (packets : List (Slack × Bytes)) : Bytes :=
  packets.flatMap fun p => (SendPacket.create order p.1 p.2 (UInt16.ofNat p.2.length)).bytes

/-- A run of a started session in which no completion fails and which has read all it can of
the stream. -/
structure ReadsAll (env : Environment) (stream : Bytes) (es : List Event) (s : Session) :
    Prop where
  run : run (step env) (start false {}) es = some s
  unfailing : ∀ e ∈ es, ¬ e.Failed
  done : ∃ rest, received es ++ rest = stream ∧
    ∀ op ∈ s.m_socket.reading, rest.length < s.requested op

theorem frames_packetStream (order : ByteOrder) {packets : List (Slack × Bytes)}
    (hlimit : ∀ p ∈ packets, p.2.length ≤ PACKET_MAX_SIZE) :
    Frames (header order) (packetStream order packets) (packets.map Prod.snd) :=
  Frames.flatMap _ _ packets fun p hp => isFrame_create order p.1 (hlimit p hp)

theorem awaits_start {order : ByteOrder} {stream : Bytes} {payloads : List Bytes} (full : Bool)
    (hf : Frames (header order) stream payloads)
    (hlimit : ∀ payload ∈ payloads, payload.length ≤ PACKET_MAX_SIZE) :
    (start full {}).readSide.Awaits order stream payloads := by
  refine ⟨headBuffered_start full, hlimit, .inr ⟨.head, ?_, .head hf⟩⟩
  cases full <;> rfl

/-- What a session dispatches of a stream of packets: always a prefix of their payloads; all of
them up to the first its handler throws on, once it has read all it can; and exactly all of
them, without closing, if the handler throws on none. -/
theorem packetStream_dispatched (env : Environment) (packets : List (Slack × Bytes))
    (hlimit : ∀ p ∈ packets, p.2.length ≤ PACKET_MAX_SIZE) :
    (∀ full es s rest, run (step env) (start full {}) es = some s →
      received es ++ rest = packetStream env.order packets →
      dispatched s.notified <+: packets.map Prod.snd) ∧
    (∀ es s, ReadsAll env (packetStream env.order packets) es s →
      dispatched s.notified = handled env.handlerThrows [] (packets.map Prod.snd) ∧
      (.onClosed ∈ s.notified ↔ ¬ NeverThrows env.handlerThrows (packets.map Prod.snd))) ∧
    (NeverThrows env.handlerThrows (packets.map Prod.snd) →
      (∀ es s, ReadsAll env (packetStream env.order packets) es s →
        dispatched s.notified = packets.map Prod.snd ∧ .onClosed ∉ s.notified ∧
        received es = packetStream env.order packets) ∧
      ∃ es s, ReadsAll env (packetStream env.order packets) es s) := by
  have hf := frames_packetStream env.order hlimit
  have hlimit' : ∀ payload ∈ packets.map Prod.snd, payload.length ≤ PACKET_MAX_SIZE :=
    List.forall_mem_map.mpr hlimit
  -- a session that has read all it can has read everything, or its handler has thrown
  have hall : ∀ es s, ReadsAll env (packetStream env.order packets) es s →
      (received es = packetStream env.order packets ∧
        dispatched s.notified = packets.map Prod.snd ∧ .onClosed ∉ s.notified ∧
        NeverThrows env.handlerThrows (packets.map Prod.snd)) ∨
      (.onClosed ∈ s.notified ∧ ¬ NeverThrows env.handlerThrows (packets.map Prod.snd) ∧
        dispatched s.notified = handled env.handlerThrows [] (packets.map Prod.snd)) := by
    rintro es s ⟨hrun, hes, rest, hstream, hstuck⟩
    have ha := awaits_start false (hstream ▸ hf) hlimit'
    obtain ⟨todo, hawait, heq⟩ := awaits_run hrun ha
    change dispatched s.notified ++ todo = packets.map Prod.snd at heq
    obtain ⟨hread, hopen, hquiet⟩ | ⟨-, hclosed, before, payload, hdisp, hbefore, hthrow⟩ :=
      undisturbed_run hrun hes ha (undisturbed_start env)
    · obtain ⟨rfl, rfl⟩ := awaits_exhausted hawait hread hstuck
      rw [List.append_nil] at hstream heq
      exact .inl ⟨hstream, heq, hopen, heq ▸ hquiet⟩
    · rw [hdisp, List.append_assoc, List.singleton_append] at heq
      refine .inr ⟨hclosed, fun hnever => ?_, ?_⟩
      · have hnot := hnever before payload ⟨todo, by simp [← heq]⟩
        simp [hnot] at hthrow
      · rw [hdisp, ← heq, handled_of_throws hbefore hthrow]
  refine ⟨fun full es s rest hrun hstream => ?_, fun es s hreads => ?_, fun hquiet => ⟨?_, ?_⟩⟩
  · obtain ⟨todo, -, heq⟩ := awaits_run hrun (awaits_start full (hstream ▸ hf) hlimit')
    have hstart : dispatched (start full {}).notified = [] := by cases full <;> rfl
    rw [hstart, List.nil_append] at heq
    exact ⟨todo, heq⟩
  · obtain ⟨-, hdisp, hopen, hquiet⟩ | ⟨hclosed, hthrow, hdisp⟩ := hall es s hreads
    · refine ⟨?_, iff_of_false hopen (not_not_intro hquiet)⟩
      rw [hdisp, handled_of_neverThrows hquiet]
    · exact ⟨hdisp, iff_of_true hclosed hthrow⟩
  · intro es s hreads
    obtain ⟨hrec, hdisp, hopen, -⟩ | ⟨-, hthrow, -⟩ := hall es s hreads
    · exact ⟨hdisp, hopen, hrec⟩
    · exact absurd hquiet hthrow
  · obtain ⟨es, s, hrun, hrec, hes, hread⟩ :=
      exists_run_frames hf (headBuffered_start false) rfl hlimit' hquiet
    refine ⟨es, s, hrun, hes, [], by simpa using hrec, ?_⟩
    simp [hread, requested, PACKET_HEAD_SIZE]

/-- An empty payload and one of two bytes, with slack of any kind. -/
theorem packetStream_dispatched_two :
    ∃ es s, ReadsAll ⟨.littleEndian, fun _ _ => false⟩
        (packetStream .littleEndian [((9, 9), []), ((7, 8), [5, 6])]) es s ∧
      dispatched s.notified = [[], [5, 6]] := by
  have hreads : ReadsAll ⟨.littleEndian, fun _ _ => false⟩
      (packetStream .littleEndian [((9, 9), []), ((7, 8), [5, 6])])
      [.readDone 0 false [0, 0, 9, 9], .readDone 0 false [], .readDone 0 false [0, 2, 7, 8],
        .readDone 0 false [5, 6]] _ :=
    ⟨rfl, by simp [Event.Failed], [], by decide, by decide⟩
  exact ⟨_, _, hreads, (((packetStream_dispatched ⟨.littleEndian, fun _ _ => false⟩
    [((9, 9), []), ((7, 8), [5, 6])] (by decide)).2.2 fun _ _ _ => rfl).1 _ _ hreads).1⟩

/-- A handler that throws on a text, as that of `RpcServer` does on one that is an array: the
session closes, and the payload behind it is never dispatched. -/
theorem packetStream_cut_short :
    ∃ es s, ReadsAll ⟨.littleEndian, fun _ data => data == utf8 "[]"⟩
        (packetStream .littleEndian [((0, 0), utf8 "[]"), ((0, 0), [7])]) es s ∧
      dispatched s.notified = [utf8 "[]"] ∧ .onClosed ∈ s.notified :=
  ⟨[.readDone 0 false [0, 2, 0, 0], .readDone 0 false (utf8 "[]")], _,
    ⟨rfl, by simp [Event.Failed], [0, 1, 0, 0, 7], by decide, by decide⟩, by decide, by decide⟩

end NBRaft.Communication.Session
