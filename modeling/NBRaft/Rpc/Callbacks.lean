import NBRaft.Rpc.CallRecords

/-!
# How often a callback is invoked

A client whose calls are numbered: each passes its number as the callback, so that what happens
to one call and to its record can be counted. A record has its response put in and its callback
invoked once for every response that finds it, until somebody removes it.
-/

namespace NBRaft.Rpc

open Json JrpcProto Communication Transition

namespace RpcClient

def Event.number (n : Nat) : Event Unit → Event Nat
  | .callReturnProcedure slack request _ => .callReturnProcedure slack request n
  | .getReturnCallRecord id => .getReturnCallRecord id
  | .removeCallRecord id => .removeCallRecord id
  | .clearCallRecords => .clearCallRecords
  | .onDataReady packet => .onDataReady packet
  | .connection base => .connection base

end RpcClient

/-- A client and the history of its calls. -/
structure NumberedClient where
  client : RpcClient Nat := {}
  /-- The number of the next event. -/
  turn : Nat := 0
  /-- The calls that have returned `true`. -/
  accepted : List Nat := []
  /-- The responses put into records, each with the number of the record's call. -/
  stored : List (Nat × JsonRpcResponse) := []

namespace NumberedClient

open RpcClient

def step (J : Jsoncpp) (order : ByteOrder) (s : NumberedClient) (e : Event Unit) :
    Option NumberedClient :=
  (s.client.step J order (e.number s.turn)).map fun client => {
    client := client
    turn := s.turn + 1
    accepted := s.accepted ++ s.client.accepts J order (e.number s.turn)
    stored := s.stored ++ s.client.stores J (e.number s.turn) }

/-- Every accepted call has had its callback invoked, and a response put into its record, at
most once. -/
def AtMostOnce (s : NumberedClient) : Prop :=
  ∀ k ∈ s.accepted,
    (s.client.invoked.map Prod.fst).count k ≤ 1 ∧ (s.stored.map Prod.fst).count k ≤ 1

/-- A response that finds the record of an accepted call finds it without a response. -/
def FindsOpen (J : Jsoncpp) (s : NumberedClient) : Event Unit → Prop
  | .onDataReady packet => ∀ response id entry, s.client.Finds J packet response id entry →
      entry.2 ∈ s.accepted → entry.1.response = none
  | _ => True

/-- The numbers in use are those of past events, no two entries have the same one, and an entry
has a response exactly if one was stored. -/
structure Inv (s : NumberedClient) : Prop where
  past : ∀ id entry, s.client.m_callRecords.lookup id = some entry → entry.2 < s.turn
  accepted_past : ∀ k ∈ s.accepted, k < s.turn
  stored_past : ∀ k ∈ s.stored.map Prod.fst, k < s.turn
  distinct : ∀ id id' entry entry', s.client.m_callRecords.lookup id = some entry →
    s.client.m_callRecords.lookup id' = some entry' → entry.2 = entry'.2 → id = id'
  response : ∀ id entry, s.client.m_callRecords.lookup id = some entry →
    (entry.1.response = none ↔ entry.2 ∉ s.stored.map Prod.fst)
  invoked : s.client.invoked.map Prod.fst = s.stored.map Prod.fst

theorem inv_initial (base : BaseClient) : Inv { client := { toBaseClient := base } } where
  past := by simp
  accepted_past := by simp
  stored_past := by simp
  distinct := by simp
  response := by simp
  invoked := rfl

section

variable {J : Jsoncpp} {order : ByteOrder} {s t : NumberedClient} {e : Event Unit}

/-- Only a call is accepted, under its number. -/
theorem eq_turn_of_accepts {k : Nat} (h : k ∈ s.client.accepts J order (e.number s.turn)) :
    k = s.turn := by
  unfold accepts at h
  cases e <;> simp only [Event.number] at h
  case callReturnProcedure slack request u =>
    split at h
    · exact List.mem_singleton.mp h
    · cases h
  all_goals cases h

theorem accepted_step (h : step J order s e = some t) :
    ∀ k ∈ t.accepted, k ∈ s.accepted ∨ k = s.turn := by
  obtain ⟨client, -, rfl⟩ := Option.map_eq_some_iff.mp h
  intro k hk
  exact (List.mem_append.mp hk).imp_right eq_turn_of_accepts

theorem turn_step (h : step J order s e = some t) : t.turn = s.turn + 1 := by
  obtain ⟨client, -, rfl⟩ := Option.map_eq_some_iff.mp h
  rfl

/-- What a step can do to the records, told with what it adds to the history. -/
theorem step_cases (h : step J order s e = some t) :
    (∃ id request, s.client.m_callRecords.lookup id = none ∧
      t.client.m_callRecords =
        s.client.m_callRecords.insert id ({ request := some request }, s.turn) ∧
      t.client.invoked = s.client.invoked ∧ t.stored = s.stored ∧
      ∀ packet, e ≠ .onDataReady packet) ∨
    (∃ packet response id entry result, e = .onDataReady packet ∧
      s.client.Finds J packet response id entry ∧
      t.client.m_callRecords = s.client.m_callRecords.insert id
        ({ entry.1 with response := some response }, entry.2) ∧
      t.client.invoked = s.client.invoked ++ [(entry.2, result)] ∧
      t.stored = s.stored ++ [(entry.2, response)] ∧ t.accepted = s.accepted) ∨
    ((∀ id entry, t.client.m_callRecords.lookup id = some entry →
        s.client.m_callRecords.lookup id = some entry) ∧
      t.client.invoked = s.client.invoked ∧ t.stored = s.stored ∧ t.accepted = s.accepted ∧
      ∀ packet, e = .onDataReady packet → s.client.stores J (.onDataReady packet) = []) := by
  obtain ⟨client, hclient, rfl⟩ := Option.map_eq_some_iff.mp h
  rcases RpcClient.step_cases hclient with
    ⟨slack, request, k, id, he, -, hnone, hrecords, hinvoked⟩ |
    ⟨packet, response, id, entry, result, he, hf, hrecords, hinvoked⟩ |
    ⟨hkeep, hinvoked, haccepts, hstores⟩
  · cases e <;> cases he
    exact .inl ⟨id, request, hnone, hrecords, hinvoked, List.append_nil _, by simp⟩
  · cases e <;> cases he
    refine .inr (.inl ⟨packet, response, id, entry, result, rfl, hf, hrecords, hinvoked, ?_,
      List.append_nil _⟩)
    exact congrArg (s.stored ++ ·) (stores_of_finds hf)
  · refine .inr (.inr ⟨hkeep, hinvoked, ?_, ?_, ?_⟩)
    · simp [hstores]
    · simp [haccepts]
    · rintro packet rfl
      exact hstores

/-- A new entry has a number that nothing had before. -/
theorem inv_of_record {i : String} {request : JsonRpcRequest} (hs : s.Inv)
    (hrecords : t.client.m_callRecords =
      s.client.m_callRecords.insert i ({ request := some request }, s.turn))
    (hinvoked : t.client.invoked = s.client.invoked) (hstored : t.stored = s.stored)
    (hturn : t.turn = s.turn + 1) (haccepted : ∀ k ∈ t.accepted, k < t.turn) : t.Inv where
  past id entry hl := by
    rcases lookup_insert_cases (hrecords ▸ hl) with ⟨-, rfl⟩ | ⟨-, hl⟩
    · simp [hturn]
    · have := hs.past id entry hl
      omega
  accepted_past := haccepted
  stored_past k hk := by
    have := hs.stored_past k (hstored ▸ hk)
    omega
  distinct id id' entry entry' hl hl' heq := by
    rcases lookup_insert_cases (hrecords ▸ hl) with ⟨rfl, rfl⟩ | ⟨-, hl⟩ <;>
      rcases lookup_insert_cases (hrecords ▸ hl') with ⟨rfl, rfl⟩ | ⟨-, hl'⟩
    · rfl
    · exact absurd heq (hs.past id' entry' hl').ne'
    · exact absurd heq (hs.past id entry hl).ne
    · exact hs.distinct id id' entry entry' hl hl' heq
  response id entry hl := by
    rw [hstored]
    rcases lookup_insert_cases (hrecords ▸ hl) with ⟨-, rfl⟩ | ⟨-, hl⟩
    · exact iff_of_true rfl fun hmem => Nat.lt_irrefl _ (hs.stored_past _ hmem)
    · exact hs.response id entry hl
  invoked := by rw [hinvoked, hstored, hs.invoked]

/-- An entry that a response finds keeps its number. -/
theorem inv_of_receive {packet : RecvPacket} {response : JsonRpcResponse} {i : String}
    {old : CallRecord × Nat} {result : Value} (hs : s.Inv)
    (hf : s.client.Finds J packet response i old)
    (hrecords : t.client.m_callRecords =
      s.client.m_callRecords.insert i ({ old.1 with response := some response }, old.2))
    (hinvoked : t.client.invoked = s.client.invoked ++ [(old.2, result)])
    (hstored : t.stored = s.stored ++ [(old.2, response)])
    (hturn : t.turn = s.turn + 1) (haccepted : ∀ k ∈ t.accepted, k < t.turn) : t.Inv := by
  have hback : ∀ id entry, t.client.m_callRecords.lookup id = some entry →
      ∃ before, s.client.m_callRecords.lookup id = some before ∧ before.2 = entry.2 := by
    intro id entry hl
    rcases lookup_insert_cases (hrecords ▸ hl) with ⟨rfl, rfl⟩ | ⟨-, hl⟩
    · exact ⟨old, hf.found, rfl⟩
    · exact ⟨entry, hl, rfl⟩
  refine ⟨?_, haccepted, ?_, ?_, ?_, by simp [hinvoked, hstored, hs.invoked]⟩
  · intro id entry hl
    obtain ⟨before, hl, heq⟩ := hback id entry hl
    have := hs.past id before hl
    omega
  · intro k hk
    rw [hstored, List.map_append, List.mem_append] at hk
    rcases hk with hk | hk
    · have := hs.stored_past k hk
      omega
    · obtain rfl : k = old.2 := List.mem_singleton.mp hk
      have := hs.past i old hf.found
      omega
  · intro id id' entry entry' hl hl' heq
    obtain ⟨before, hl, hb⟩ := hback id entry hl
    obtain ⟨before', hl', hb'⟩ := hback id' entry' hl'
    exact hs.distinct id id' before before' hl hl' (by omega)
  · intro id entry hl
    rcases lookup_insert_cases (hrecords ▸ hl) with ⟨-, rfl⟩ | ⟨hne, hl⟩
    · simp [hstored]
    · have hnum : entry.2 ≠ old.2 := fun heq =>
        hne (hs.distinct id i entry old hl hf.found heq)
      simpa [hstored, hnum] using hs.response id entry hl

theorem inv_of_drop (hs : s.Inv)
    (hkeep : ∀ id entry, t.client.m_callRecords.lookup id = some entry →
      s.client.m_callRecords.lookup id = some entry)
    (hinvoked : t.client.invoked = s.client.invoked) (hstored : t.stored = s.stored)
    (hturn : t.turn = s.turn + 1) (haccepted : ∀ k ∈ t.accepted, k < t.turn) : t.Inv where
  past id entry hl := by
    have := hs.past id entry (hkeep id entry hl)
    omega
  accepted_past := haccepted
  stored_past k hk := by
    have := hs.stored_past k (hstored ▸ hk)
    omega
  distinct id id' entry entry' hl hl' :=
    hs.distinct id id' entry entry' (hkeep id entry hl) (hkeep id' entry' hl')
  response id entry hl := by
    rw [hstored]
    exact hs.response id entry (hkeep id entry hl)
  invoked := by rw [hinvoked, hstored, hs.invoked]

theorem inv_step (h : step J order s e = some t) (hs : s.Inv) : t.Inv := by
  have hturn := turn_step h
  have haccepted : ∀ k ∈ t.accepted, k < t.turn := by
    intro k hk
    rcases accepted_step h k hk with hk | rfl
    · have := hs.accepted_past k hk
      omega
    · omega
  rcases step_cases h with ⟨i, request, hnone, hrecords, hinvoked, hstored, -⟩ |
    ⟨packet, response, i, old, result, -, hf, hrecords, hinvoked, hstored, -⟩ |
    ⟨hkeep, hinvoked, hstored, -, -⟩
  · exact inv_of_record hs hrecords hinvoked hstored hturn haccepted
  · exact inv_of_receive hs hf hrecords hinvoked hstored hturn haccepted
  · exact inv_of_drop hs hkeep hinvoked hstored hturn haccepted

/-- In a good state the two counts of a call are the same. -/
theorem atMostOnce_iff (hs : s.Inv) :
    s.AtMostOnce ↔ ∀ k ∈ s.accepted, (s.stored.map Prod.fst).count k ≤ 1 := by
  simp [AtMostOnce, hs.invoked]

theorem stored_step (h : step J order s e = some t) :
    ∃ more, t.stored = s.stored ++ more := by
  obtain ⟨client, -, rfl⟩ := Option.map_eq_some_iff.mp h
  exact ⟨_, rfl⟩

theorem accepted_subset (h : step J order s e = some t) : s.accepted ⊆ t.accepted := by
  obtain ⟨client, -, rfl⟩ := Option.map_eq_some_iff.mp h
  exact List.subset_append_left _ _

/-- What was invoked twice stays so. -/
theorem atMostOnce_of_step (h : step J order s e = some t) (hs : s.Inv) (ht : t.AtMostOnce) :
    s.AtMostOnce := by
  rw [atMostOnce_iff (inv_step h hs)] at ht
  rw [atMostOnce_iff hs]
  intro k hk
  obtain ⟨more, hmore⟩ := stored_step h
  have := ht k (accepted_subset h hk)
  rw [hmore, List.map_append, List.count_append] at this
  omega

/-- A step keeps the property exactly if the response it brings, if any, finds no record of an
accepted call that already has one. -/
theorem atMostOnce_step_iff (h : step J order s e = some t) (hs : s.Inv) (ho : s.AtMostOnce) :
    t.AtMostOnce ↔ s.FindsOpen J e := by
  rw [atMostOnce_iff hs] at ho
  rw [atMostOnce_iff (inv_step h hs)]
  -- a number that is new in `accepted` is that of this very event
  have hsame : t.stored = s.stored → ∀ k ∈ t.accepted, (t.stored.map Prod.fst).count k ≤ 1 := by
    intro hstored k hk
    rw [hstored]
    rcases accepted_step h k hk with hk | rfl
    · exact ho k hk
    · rw [List.count_eq_zero.mpr fun hmem => Nat.lt_irrefl _ (hs.stored_past _ hmem)]
      exact Nat.zero_le 1
  rcases step_cases h with ⟨-, -, -, -, -, hstored, hno⟩ |
    ⟨packet, response, i, old, result, rfl, hf, -, -, hstored, hacc⟩ |
    ⟨-, -, hstored, -, hno⟩
  · refine iff_of_true (hsame hstored) ?_
    cases e with
    | onDataReady packet => exact absurd rfl (hno packet)
    | _ => trivial
  · rw [hacc, hstored]
    simp only [List.map_append, List.map_cons, List.map_nil, List.count_append]
    constructor
    · intro hcount response' i' old' hf' hmem
      obtain rfl : response = response' := by
        simpa using hf.parses.symm.trans hf'.parses
      obtain rfl : i = i' := by simpa using hf.getId.symm.trans hf'.getId
      obtain rfl : old = old' := by simpa using hf.found.symm.trans hf'.found
      apply (hs.response i old hf.found).mpr
      intro hst
      have hpos := List.count_pos_iff.mpr hst
      have hle := hcount old.2 hmem
      rw [List.count_singleton_self] at hle
      omega
    · intro hopen k hk
      by_cases hke : k = old.2
      · subst hke
        have hnone := hopen response i old hf hk
        rw [List.count_eq_zero.mpr ((hs.response i old hf.found).mp hnone),
          List.count_singleton_self]
      · rw [List.count_singleton, if_neg (by simpa using Ne.symm hke)]
        exact ho k hk
  · refine iff_of_true (hsame hstored) ?_
    cases e with
    | onDataReady packet =>
      intro response id entry hf
      have hstores := stores_of_finds hf
      rw [hno packet rfl] at hstores
      cases hstores
    | _ => trivial

end

/-- In a run of a client, whatever the calls and the packets, every accepted call has its
callback invoked at most once and its record keeps its first response exactly if every response
that finds the record of an accepted call finds it without one. -/
theorem atMostOnce_run_iff (J : Jsoncpp) (order : ByteOrder) (base : BaseClient)
    (es : List (Event Unit)) (s : NumberedClient)
    (h : run (step J order) { client := { toBaseClient := base } } es = some s) :
    s.AtMostOnce ↔ Along (step J order) (FindsOpen J) { client := { toBaseClient := base } } es :=
  run_iff_along (fun _ _ _ => inv_step) (fun _ _ _ => atMostOnce_of_step)
    (fun _ _ _ => atMostOnce_step_iff) h (inv_initial base) (by simp [AtMostOnce])

/-- A call that gets its response. -/
theorem atMostOnce_run_iff_ping :
    ∃ s, run (step pongJsoncpp .littleEndian) {}
        [.callReturnProcedure (0, 0) pingRequest (), .onDataReady pongPacket] = some s ∧
      (s.AtMostOnce ↔ Along (step pongJsoncpp .littleEndian) (FindsOpen pongJsoncpp) {}
        [.callReturnProcedure (0, 0) pingRequest (), .onDataReady pongPacket]) :=
  ⟨_, rfl, atMostOnce_run_iff pongJsoncpp .littleEndian {} _ _ rfl⟩

/-- The same response once more: the callback is invoked again, and the response replaced. -/
theorem callback_invoked_twice :
    ∃ s, run (step pongJsoncpp .littleEndian) {}
        [.callReturnProcedure (0, 0) pingRequest (), .onDataReady pongPacket,
          .onDataReady pongPacket] = some s ∧
      s.accepted = [0] ∧ s.client.invoked.map Prod.fst = [0, 0] ∧ ¬ s.AtMostOnce := by
  have h : run (step pongJsoncpp .littleEndian) {}
      [.callReturnProcedure (0, 0) pingRequest (), .onDataReady pongPacket,
        .onDataReady pongPacket] = some _ := rfl
  refine ⟨_, h, rfl, rfl, fun ho => ?_⟩
  have := (ho 0 (List.mem_singleton.mpr rfl)).1
  exact absurd this (by decide)

end NumberedClient

end NBRaft.Rpc
