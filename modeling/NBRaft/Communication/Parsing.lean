import NBRaft.Library.FrameParser
import NBRaft.Communication.Delivery

/-!
# Sessions as parsers

What a session makes of any bytes at all, from a peer that need not be a session. Whatever is read,
in whatever order completions and sends come and whichever of them fail, the payloads dispatched
are those that the parser of frames finds in the bytes read.
-/

namespace NBRaft.Communication.Session

open Framing Transition

/-- What the parser finds in the bytes, and where it stands behind them. -/
def parsed (order : ByteOrder) (bytes : Bytes) : List Bytes × Reader UInt8 :=
  parse (header order) PACKET_MAX_SIZE .start bytes

/-- The reading side is where the parser stands that has found `found`, of which `dispatched` are
dispatched: it is one empty payload behind where a header has announced none. It may have stopped
reading. -/
inductive ReadSide.Follows (r : ReadSide) (dispatched : List Bytes) :
    List Bytes × Reader UInt8 → Prop where
  | head : r.reading = [] ∨ r.reading = [.head] → r.Follows dispatched (dispatched, .start)
  | body {size : Nat} : 0 < size → size ≤ PACKET_MAX_SIZE →
      r.reading = [] ∨ r.reading = [.body] ∧ r.m_recvPacket.m_size.toNat = size →
      r.Follows dispatched (dispatched, .awaits (.body size) [])
  | empty : r.reading = [] ∨ r.reading = [.body] ∧ r.m_recvPacket.m_size.toNat = 0 →
      r.Follows dispatched (dispatched ++ [[]], .start)
  | refused : r.reading = [] → r.Follows dispatched (dispatched, .refused)

/-- The session has parsed `bytes`. -/
structure Parsing (env : Environment) (bytes : Bytes) (s : Session) : Prop where
  buffered : s.HeadBuffered
  follows : s.readSide.Follows (dispatched s.notified) (parsed env.order bytes)
  closed : s.m_socket.reading = [] → .onClosed ∈ s.notified
  quiet : NeverThrows env.handlerThrows (dispatched s.notified).dropLast
  reading : s.m_socket.reading ≠ [] → NeverThrows env.handlerThrows (dispatched s.notified)

section

variable {r r' : ReadSide} {order : ByteOrder} {bytes got : Bytes} {found : List Bytes}
  {p : List Bytes × Reader UInt8}

theorem parsed_append (order : ByteOrder) (bytes got : Bytes) :
    parsed order (bytes ++ got) =
      ((parsed order bytes).1 ++
          (parse (header order) PACKET_MAX_SIZE (parsed order bytes).2 got).1,
        (parse (header order) PACKET_MAX_SIZE (parsed order bytes).2 got).2) :=
  parse_append _ _ _

/-- At most one read is outstanding. -/
theorem ReadSide.Follows.reading_cases (h : r.Follows found p) :
    r.reading = [] ∨ ∃ op, r.reading = [op] := by
  cases h with
  | head h => exact h.imp_right fun h => ⟨_, h⟩
  | body _ _ h => exact h.imp_right fun h => ⟨_, h.1⟩
  | empty h => exact h.imp_right fun h => ⟨_, h.1⟩
  | refused h => exact .inl h

/-- A side that stops reading stays where it is. -/
theorem ReadSide.Follows.stop (h : r.Follows found p) (hr : r'.reading = []) :
    r'.Follows found p := by
  cases h with
  | head => exact .head (.inl hr)
  | body hpos hle => exact .body hpos hle (.inl hr)
  | empty => exact .empty (.inl hr)
  | refused => exact .refused hr

/-- A header that comes in is the next part of a frame. -/
theorem ReadSide.Follows.read_head (h : r.Follows found (parsed order bytes))
    (hr : r.reading = [.head]) (hgot : got.length = PACKET_HEAD_SIZE) :
    parsed order (bytes ++ got) =
      if PACKET_MAX_SIZE < (headSize order got).toNat then (found, .refused)
      else if (headSize order got).toNat = 0 then (found ++ [[]], .start)
      else (found, .awaits (.body (headSize order got).toNat) []) := by
  have hat : parsed order bytes = (found, .start) := by
    generalize parsed order bytes = p at h
    cases h <;> simp_all
  have hfinish : finish (header order) PACKET_MAX_SIZE .head got =
      if PACKET_MAX_SIZE < (headSize order got).toNat then ([], .refused)
      else if (headSize order got).toNat = 0 then ([[]], .start)
      else ([], .awaits (.body (headSize order got).toNat) []) := rfl
  rw [parsed_append, hat, parse_head (show 0 < PACKET_HEAD_SIZE by decide) hgot, hfinish]
  split_ifs <;> simp

/-- A body that comes in is the next payload, if it was not found already. -/
theorem ReadSide.Follows.read_body (h : r.Follows found (parsed order bytes))
    (hr : r.reading = [.body]) (hgot : got.length = r.m_recvPacket.m_size.toNat) :
    parsed order (bytes ++ got) = (found ++ [got], .start) := by
  rw [parsed_append]
  generalize parsed order bytes = p at h
  cases h with
  | head h => simp [hr] at h
  | refused h => simp [hr] at h
  | @body size hpos _ h =>
    obtain ⟨-, hsize⟩ := h.resolve_left (by simp [hr])
    obtain rfl : got.length = size := hgot.trans hsize
    rw [parse_body (List.ne_nil_of_length_pos hpos)]
  | empty h =>
    obtain ⟨-, hsize⟩ := h.resolve_left (by simp [hr])
    obtain rfl : got = [] := List.length_eq_zero_iff.mp (hgot.trans hsize)
    simp

end

section

variable {env : Environment} {s t : Session} {e : Event} {es : List Event} {bytes got : Bytes}

theorem parsing_start (env : Environment) (full : Bool) : Parsing env [] (start full {}) := by
  have hnone : dispatched (start full {}).notified = [] := by cases full <;> rfl
  have hread : (start full {}).m_socket.reading = [.head] := by cases full <;> rfl
  refine ⟨headBuffered_start full, ?_, ?_, ?_, ?_⟩
  · rw [hnone]
    exact .head (.inr hread)
  · intro h
    simp [hread] at h
  · rw [hnone]
    exact neverThrows_nil
  · rw [hnone]
    exact fun _ => neverThrows_nil

/-- What changes neither the reading side nor the payloads dispatched keeps everything. -/
theorem Parsing.frame (hs : Parsing env bytes s) (ht : t.HeadBuffered)
    (hr : t.readSide = s.readSide) (hd : dispatched t.notified = dispatched s.notified)
    (hn : s.notified ⊆ t.notified) : Parsing env bytes t := by
  have hread : t.m_socket.reading = s.m_socket.reading := congrArg ReadSide.reading hr
  refine ⟨ht, ?_, ?_, ?_, ?_⟩
  · rw [hr, hd]
    exact hs.follows
  · intro h
    exact hn (hs.closed (hread ▸ h))
  · rw [hd]
    exact hs.quiet
  · rw [hd, hread]
    exact hs.reading

/-- A failed read closes the session, which is left with nothing to read. -/
theorem Parsing.read_failed {op : ReadOp} (hs : Parsing env bytes s)
    (h : s.step env (.readDone 0 true got) = some t) (hread : s.m_socket.reading = [op]) :
    Parsing env bytes t := by
  have hnotified := notified_step hs.buffered h
  have hnews : news env s (.readDone 0 true got) = [.onClosed] := by
    cases op <;> simp [news, hread]
  rw [hnews] at hnotified
  have hstop : t.m_socket.reading = [] := by
    obtain rfl : _ = t := Option.some.inj (by simpa [step, hread] using h)
    cases op <;>
      simp [handleRead, handleHeadRead, handleBodyRead, close, notify, completeRead, hread]
  refine ⟨headBuffered_step h hs.buffered, ?_, ?_, ?_, ?_⟩
  · simpa [hnotified, dispatched] using hs.follows.stop hstop
  · simp [hnotified]
  · simpa [hnotified, dispatched] using hs.quiet
  · exact fun hne => absurd hstop hne

/-- A header brings the session to the body it announces, or closes it where the parser refuses. -/
theorem Parsing.read_head (hs : Parsing env bytes s)
    (h : s.step env (.readDone 0 false got) = some t) (hread : s.m_socket.reading = [.head])
    (hlen : got.length = s.requested .head) : Parsing env (bytes ++ got) t := by
  have htbuf := headBuffered_step h hs.buffered
  have hnotified := notified_step hs.buffered h
  have hparsed := hs.follows.read_head hread hlen
  have ht : (s.completeRead 0 .head got).handleRead env .head false got.length = t :=
    Option.some.inj (by simpa [step, hread, hlen] using h)
  rw [handleRead_head env 0 hs.buffered hlen] at ht
  by_cases hsize : (headSize env.order got).toNat > PACKET_MAX_SIZE
  · rw [if_pos hsize] at ht hparsed
    have hnews : news env s (.readDone 0 false got) = [.onClosed] := by
      simp [news, hread, hsize]
    rw [hnews] at hnotified
    have hstop : t.m_socket.reading = [] := by
      simp [← ht, close, notify, completeRead, hread]
    refine ⟨htbuf, ?_, ?_, ?_, ?_⟩
    · rw [hparsed]
      simpa [hnotified, dispatched] using ReadSide.Follows.refused hstop
    · simp [hnotified]
    · simpa [hnotified, dispatched] using hs.quiet
    · exact fun hne => absurd hstop hne
  · rw [if_neg hsize] at ht hparsed
    have hnews : news env s (.readDone 0 false got) = [] := by
      simp only [news, hread, List.getElem?_cons_zero, Bool.false_eq_true, false_or]
      exact if_neg hsize
    rw [hnews, List.append_nil] at hnotified
    have hbody : t.m_socket.reading = [.body] ∧
        t.m_recvPacket.m_size = headSize env.order got := by
      simp [← ht, asyncRead, completeRead, hread, RecvPacket.create]
    refine ⟨htbuf, ?_, ?_, ?_, ?_⟩
    · rw [hparsed, hnotified]
      by_cases hzero : (headSize env.order got).toNat = 0
      · rw [if_pos hzero]
        exact .empty (.inr ⟨hbody.1, hbody.2 ▸ hzero⟩)
      · rw [if_neg hzero]
        exact .body (by omega) (by omega) (.inr ⟨hbody.1, congrArg UInt16.toNat hbody.2⟩)
    · simp [hbody.1]
    · rw [hnotified]
      exact hs.quiet
    · rw [hnotified]
      exact fun _ => hs.reading (by simp [hread])

/-- A body is dispatched; the session reads on unless the handler has thrown. -/
theorem Parsing.read_body (hs : Parsing env bytes s)
    (h : s.step env (.readDone 0 false got) = some t) (hread : s.m_socket.reading = [.body])
    (hlen : got.length = s.requested .body) : Parsing env (bytes ++ got) t := by
  have htbuf := headBuffered_step h hs.buffered
  have hquiet := hs.reading (by simp [hread])
  have hdisp : dispatched t.notified = dispatched s.notified ++ [got] := by
    rw [notified_step hs.buffered h, dispatched_append]
    simp only [news, hread, List.getElem?_cons_zero, Bool.false_eq_true, if_false]
    cases env.handlerThrows (dispatched s.notified) got <;> rfl
  have ht : (s.completeRead 0 .body got).handleRead env .body false got.length = t :=
    Option.some.inj (by simpa [step, hread, hlen] using h)
  rw [handleRead_body env 0 hlen] at ht
  cases hthrow : env.handlerThrows (dispatched s.notified) got with
  | true =>
    rw [hthrow, if_pos rfl] at ht
    have hstop : t.m_socket.reading = [] := by
      simp [← ht, close, notify, completeRead, hread]
    refine ⟨htbuf, ?_, ?_, ?_, ?_⟩
    · rw [hs.follows.read_body hread hlen, hdisp]
      exact .head (.inl hstop)
    · simp [← ht, close, notify]
    · rw [hdisp, List.dropLast_concat]
      exact hquiet
    · exact fun hne => absurd hstop hne
  | false =>
    rw [hthrow, if_neg Bool.false_ne_true] at ht
    have hnext : t.m_socket.reading = [.head] := by
      simp [← ht, asyncRead, notify, completeRead, hread]
    refine ⟨htbuf, ?_, ?_, ?_, ?_⟩
    · rw [hs.follows.read_body hread hlen, hdisp]
      exact .head (.inr hnext)
    · simp [hnext]
    · rw [hdisp, List.dropLast_concat]
      exact hquiet
    · rw [hdisp]
      exact fun _ => neverThrows_concat.mpr ⟨hquiet, hthrow⟩

theorem parsing_step (hs : Parsing env bytes s) (h : s.step env e = some t) :
    Parsing env (bytes ++ e.bytesRead) t := by
  have hnotified := notified_step hs.buffered h
  obtain ⟨slack, data, rfl, ht⟩ | ⟨i, op, failed, got, rfl, hop, hlen, -⟩ |
    ⟨i, failed, packet, rfl, -, ht⟩ := step_cases h
  · have hframe := hs.frame (headBuffered_step h hs.buffered) (by simp [ht])
      (by simp [hnotified, news]) (by simp [hnotified])
    simpa [Event.bytesRead] using hframe
  · -- the read that completes is the only one outstanding
    obtain ⟨rfl, hread⟩ : i = 0 ∧ s.m_socket.reading = [op] := by
      obtain hnil | ⟨op', hone⟩ := hs.follows.reading_cases
      · simp [show s.m_socket.reading = [] from hnil] at hop
      · have hone : s.m_socket.reading = [op'] := hone
        cases i with
        | zero => simpa [hone] using hop
        | succ i => simp [hone] at hop
    cases failed with
    | true => simpa [Event.bytesRead] using hs.read_failed h hread
    | false =>
      cases op with
      | head => exact hs.read_head h hread (hlen rfl)
      | body => exact hs.read_body h hread (hlen rfl)
  · have hnone : dispatched (news env s (.writeDone i failed)) = [] := by
      cases failed <;> rfl
    have hframe := hs.frame (headBuffered_step h hs.buffered) (by simp [ht])
      (by simp [hnotified, hnone]) (by simp [hnotified])
    simpa [Event.bytesRead] using hframe

theorem parsing_run (hs : Parsing env bytes s) (h : run (step env) s es = some t) :
    Parsing env (bytes ++ received es) t := by
  induction es generalizing s bytes with
  | nil =>
    obtain rfl := Option.some.inj h
    simpa [received] using hs
  | cons e es ih =>
    obtain ⟨u, hu, hrun⟩ := run_cons_eq_some.mp h
    simpa [received_cons, List.append_assoc] using ih (parsing_step hs hu) hrun

/-- Where the parser stands while the read is outstanding. -/
def awaited (s : Session) : ReadOp → Reader UInt8
  | .head => .start
  | .body =>
    if s.m_recvPacket.m_size.toNat = 0 then .start
    else .awaits (.body s.m_recvPacket.m_size.toNat) []

/-- The one read that may be outstanding is for the next part of a frame, never for more than a
packet may have; with a header outstanding everything found has been dispatched. -/
theorem Parsing.outstanding (hs : Parsing env bytes s) :
    s.m_socket.reading = [] ∨ ∃ op, s.m_socket.reading = [op] ∧
      s.requested op ≤ PACKET_MAX_SIZE ∧ (parsed env.order bytes).2 = s.awaited op := by
  have hfollows := hs.follows
  generalize parsed env.order bytes = p at hfollows
  cases hfollows with
  | head h => exact h.imp_right fun h => ⟨_, h, show PACKET_HEAD_SIZE ≤ _ by decide, rfl⟩
  | @body size hpos hle h =>
    refine h.imp_right fun ⟨hread, hsize⟩ => ⟨_, hread, hsize.le.trans hle, ?_⟩
    have hsize : s.m_recvPacket.m_size.toNat = size := hsize
    simp only [awaited, hsize]
    exact (if_neg (by omega)).symm
  | empty h =>
    refine h.imp_right fun ⟨hread, hsize⟩ => ⟨_, hread, hsize.le.trans (Nat.zero_le _), ?_⟩
    exact (if_pos hsize).symm
  | refused h => exact .inl h

/-- What is dispatched is what the parser finds, but for an empty payload that is about to be. -/
theorem Parsing.found (hs : Parsing env bytes s) :
    ∃ owed, (parsed env.order bytes).1 = dispatched s.notified ++ owed ∧
      (owed = [] ∨ owed = [[]] ∧ s.m_socket.reading ≠ [.head]) := by
  have hfollows := hs.follows
  generalize parsed env.order bytes = p at hfollows
  cases hfollows with
  | head => exact ⟨[], by simp, .inl rfl⟩
  | body => exact ⟨[], by simp, .inl rfl⟩
  | empty h =>
    refine ⟨[[]], rfl, .inr ⟨rfl, fun hread => ?_⟩⟩
    have h : s.m_socket.reading = [] ∨ s.m_socket.reading = [.body] ∧ _ := h
    simp [hread] at h
  | refused => exact ⟨[], by simp, .inl rfl⟩

theorem Parsing.refused (hs : Parsing env bytes s)
    (h : (parsed env.order bytes).2 = .refused) : s.m_socket.reading = [] := by
  have hfollows := hs.follows
  generalize parsed env.order bytes = p at hfollows h
  cases hfollows with
  | refused hread => exact hread
  | head | body | empty => cases h

/-- A session parses whatever bytes it reads: in every state of every run it has dispatched, in
order, the payloads found in them; it waits for the part of a frame the parser waits for; it has
stopped reading, and told so, where the parser refuses, and whenever it has no read outstanding;
and only the payload dispatched last can be one that the handler has thrown on. -/
theorem session_parses {full : Bool} (h : run (step env) (start full {}) es = some s) :
    (∃ owed, (parsed env.order (received es)).1 = dispatched s.notified ++ owed ∧
      (owed = [] ∨ owed = [[]] ∧ s.m_socket.reading ≠ [.head])) ∧
    (∀ payload ∈ dispatched s.notified, payload.length ≤ PACKET_MAX_SIZE) ∧
    (s.m_socket.reading = [] ∨ ∃ op, s.m_socket.reading = [op] ∧
      s.requested op ≤ PACKET_MAX_SIZE ∧ (parsed env.order (received es)).2 = s.awaited op) ∧
    ((parsed env.order (received es)).2 = .refused → s.m_socket.reading = []) ∧
    (s.m_socket.reading = [] → .onClosed ∈ s.notified) ∧
    NeverThrows env.handlerThrows (dispatched s.notified).dropLast := by
  have hs := parsing_run (parsing_start env full) h
  rw [List.nil_append] at hs
  refine ⟨hs.found, ?_, hs.outstanding, hs.refused, hs.closed, hs.quiet⟩
  obtain ⟨owed, hfound, -⟩ := hs.found
  intro payload hp
  have hmem : payload ∈ (parsed env.order (received es)).1 :=
    hfound ▸ List.mem_append_left _ hp
  exact parse_within (r := .start) trivial (received es) payload hmem

/-- A frame of one byte, and a header of 65535 behind it. -/
theorem session_parses_refused :
    ∃ s, run (step ⟨.littleEndian, fun _ _ => false⟩) (start false {})
        [.readDone 0 false [0, 1, 9, 9], .readDone 0 false [7],
          .readDone 0 false [255, 255, 9, 9]] = some s ∧
      dispatched s.notified = [[7]] ∧ s.m_socket.reading = [] ∧ .onClosed ∈ s.notified := by
  have h : run (step ⟨.littleEndian, fun _ _ => false⟩) (start false {})
      [.readDone 0 false [0, 1, 9, 9], .readDone 0 false [7],
        .readDone 0 false [255, 255, 9, 9]] = some _ := rfl
  obtain ⟨-, -, -, hrefused, hclosed, -⟩ := session_parses h
  exact ⟨_, h, by decide, hrefused (by decide), hclosed (hrefused (by decide))⟩

end

end NBRaft.Communication.Session
