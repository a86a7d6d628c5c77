import NBRaft.Communication.Session
import NBRaft.Library.Conversions

/-!
# The size of a packet

The length of the data comes to `Session::send` as an `int`, becomes the `unsigned short` of the
`SendPacket` constructor there, and an `unsigned short` once more when the width of the header has
been added to it.
-/

namespace NBRaft.Communication

open Conversions

namespace SendPacket

/-- The packet has the size of a header and the data, its header tells the length of the data, and
what its constructor has copied is inside the buffer. -/
structure HasLength (order : ByteOrder) (p : SendPacket) (dataLength : Int32) : Prop where
  m_size : (p.m_size.toNat : Int) = dataLength.toInt + PACKET_HEAD_SIZE
  head : ((headSize order p.m_data).toNat : Int) = dataLength.toInt
  inside : p.m_data.length ≤ p.m_size.toNat

section

variable (order : ByteOrder) (slack : Slack)

theorem toNat_m_size_create (data : Bytes) (size : UInt16) :
    (create order slack data size).m_size.toNat = (size.toNat + 4) % 2 ^ 16 :=
  UInt16.toNat_ofNat'

theorem length_m_data_create {data : Bytes} {size : UInt16} (h : size.toNat ≤ data.length) :
    (create order slack data size).m_data.length = size.toNat + 4 := by
  simp only [create, shortBytes, List.length_append, List.length_cons, List.length_nil,
    List.length_take]
  omega

/-- Both narrowings leave the length alone exactly if the header fits behind it in the range of
`unsigned short`. -/
theorem hasLength_create_iff {data : Bytes} {dataLength : Int32}
    (h : (data.length : Int) = dataLength.toInt) :
    (create order slack data (intToShort dataLength)).HasLength order dataLength ↔
      dataLength.toInt ≤ 2 ^ 16 - 1 - PACKET_HEAD_SIZE := by
  have hsize := toNat_intToShort dataLength
  have hm_size := toNat_m_size_create order slack data (intToShort dataLength)
  simp only [PACKET_HEAD_SIZE]
  constructor
  · intro hexact
    have hlength := hexact.m_size
    rw [hm_size] at hlength
    simp only [PACKET_HEAD_SIZE] at hlength
    omega
  · intro hbound
    have hsame : ((intToShort dataLength).toNat : Int) = dataLength.toInt :=
      (toNat_intToShort_eq_iff dataLength).mpr ⟨by omega, by omega⟩
    have hlength : (create order slack data (intToShort dataLength)).m_size.toNat =
        (intToShort dataLength).toNat + 4 := by
      rw [hm_size]
      omega
    constructor
    · simp only [hlength, PACKET_HEAD_SIZE]
      omega
    · rw [headSize_create]
      exact hsame
    · have hinside : (intToShort dataLength).toNat ≤ data.length := by omega
      rw [length_m_data_create order slack hinside, hlength]

end

end SendPacket

namespace Session

/-- A `send` that finds room in the queue puts a packet there that has the size it should have,
exactly if the data is shorter than the range of `unsigned short` by a header. -/
theorem send_hasLength_iff (order : ByteOrder) (slack : Slack) (s : Session) (data : Bytes)
    (dataLength : Int32) (hlength : (data.length : Int) = dataLength.toInt)
    (hroom : s.m_sendQueue.length < MAX_SESSION_SEND_QUEUE_PENDING_SIZE) :
    ∃ packet, (s.send order slack data).m_sendQueue = s.m_sendQueue ++ [packet] ∧
      packet = SendPacket.create order slack data (intToShort dataLength) ∧
      (packet.HasLength order dataLength ↔
        dataLength.toInt ≤ 2 ^ 16 - 1 - PACKET_HEAD_SIZE) := by
  have hshort : UInt16.ofNat data.length = intToShort dataLength := by
    have hsize := toNat_intToShort dataLength
    apply UInt16.toNat_inj.mp
    rw [UInt16.toNat_ofNat']
    omega
  refine ⟨_, ?_, rfl, SendPacket.hasLength_create_iff order slack hlength⟩
  rw [m_sendQueue_send_of_room order slack data hroom, hshort]

theorem send_hasLength_iff_three :
    ∃ packet, (({} : Session).send .littleEndian (0, 0) [1, 2, 3]).m_sendQueue = [] ++ [packet] ∧
      packet = SendPacket.create .littleEndian (0, 0) [1, 2, 3] (intToShort 3) ∧
      (packet.HasLength .littleEndian 3 ↔ (3 : Int32).toInt ≤ 2 ^ 16 - 1 - PACKET_HEAD_SIZE) :=
  send_hasLength_iff .littleEndian (0, 0) {} [1, 2, 3] 3 rfl (by decide)

/-- For 65532 bytes the buffer is empty, and the header and all of the data are written behind
it. -/
theorem send_into_empty_buffer :
    let data := List.replicate 65532 0
    let packet := SendPacket.create .littleEndian (0, 0) data (intToShort 65532)
    (data.length : Int) = (65532 : Int32).toInt ∧
      (({} : Session).send .littleEndian (0, 0) data).m_sendQueue = [packet] ∧
      packet.m_size = 0 ∧ packet.m_data.length = 65536 ∧
      ¬ packet.HasLength .littleEndian 65532 := by
  intro data packet
  have hdata : data.length = 65532 := List.length_replicate
  have hm_size : packet.m_size = 0 := by decide
  refine ⟨by rw [hdata]; rfl, ?_, hm_size, ?_, ?_⟩
  · rw [m_sendQueue_send_of_room .littleEndian (0, 0) data (by decide), hdata]
    rfl
  · apply SendPacket.length_m_data_create
    rw [hdata]
    decide
  · intro h
    have hlength := h.m_size
    rw [hm_size] at hlength
    revert hlength
    decide

end Session

end NBRaft.Communication
