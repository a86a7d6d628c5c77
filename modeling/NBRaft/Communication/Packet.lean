import NBRaft.Library.Framing
import NBRaft.Json.Value

/-!
# Packets

`Packet`, `SendPacket` and `RecvPacket`, and the `encode` and `decode` of `packet.h`. The
header is four bytes wide, but only the first two of them are the size: `SendPacket` copies
four bytes from a two-byte variable, so the other two are whatever lies behind it. They are a
parameter here, the slack of the packet.
-/

namespace NBRaft.Communication

def INT32_MAX : Nat := 2 ^ 31 - 1

/-- `encode`: the buffer it fills, `none` where it returns `false` (which it never does). -/
def encode (str : Bytes) : Except Exception (Option Bytes) :=
  if str.length > INT32_MAX then .error .runtimeError else .ok (some str)

def PACKET_HEAD_SIZE : Nat := 4
def PACKET_MAX_SIZE : Nat := 1024

/-- Boost's conversions between host and network byte order, inverse to each other. -/
structure ByteOrder where
  host_to_network_short : UInt16 → UInt16
  network_to_host_short : UInt16 → UInt16
  inverse : ∀ x, network_to_host_short (host_to_network_short x) = x

/-- The two bytes of an `unsigned short` in the memory of a little-endian host. -/
def shortBytes (x : UInt16) : Bytes := [UInt8.ofNat x.toNat, UInt8.ofNat (x.toNat / 256)]

/-- An `unsigned short` overwritten by the bytes of a buffer. The copy in `handleHeadRead` is
as wide as the header; only the first two bytes land in the variable. -/
def shortOfBytes : Bytes → UInt16
  | lo :: hi :: _ => UInt16.ofNat (lo.toNat + 256 * hi.toNat)
  | _ => 0

@[simp] theorem shortOfBytes_shortBytes (x : UInt16) (rest : Bytes) :
    shortOfBytes (shortBytes x ++ rest) = x := by
  have hx := x.toNat_lt
  apply UInt16.toNat_inj.mp
  simp only [shortBytes, shortOfBytes, List.cons_append, UInt16.toNat_ofNat', UInt8.toNat_ofNat']
  omega

/-- The byte swap of a little-endian host. -/
def swapBytes (x : UInt16) : UInt16 := UInt16.ofNat (x.toNat / 256 + 256 * (x.toNat % 256))

theorem swapBytes_swapBytes (x : UInt16) : swapBytes (swapBytes x) = x := by
  have hx := x.toNat_lt
  have hswap : (swapBytes x).toNat = x.toNat / 256 + 256 * (x.toNat % 256) := by
    rw [swapBytes, UInt16.toNat_ofNat']
    omega
  have hdiv : (x.toNat / 256 + 256 * (x.toNat % 256)) / 256 = x.toNat % 256 := by omega
  have hmod : (x.toNat / 256 + 256 * (x.toNat % 256)) % 256 = x.toNat / 256 := by omega
  apply UInt16.toNat_inj.mp
  rw [swapBytes, UInt16.toNat_ofNat', hswap, hdiv, hmod]
  omega

def ByteOrder.littleEndian : ByteOrder := ⟨swapBytes, swapBytes, swapBytes_swapBytes⟩

/-- A packet to be sent: the bytes copied into `m_data`, and the size of the buffer. -/
structure SendPacket where
  m_data : Bytes
  m_size : UInt16
  deriving DecidableEq, Repr

/-- The two bytes behind the size variable of a `SendPacket` constructor call. -/
abbrev Slack := UInt8 × UInt8

/-- `SendPacket(data, size)`. The buffer has `size + PACKET_HEAD_SIZE` bytes, a sum converted
to `unsigned short`. -/
def SendPacket.create (order : ByteOrder) (slack : Slack) (data : Bytes) (size : UInt16) :
    SendPacket where
  m_data := shortBytes (order.host_to_network_short size) ++ [slack.1, slack.2] ++
    data.take size.toNat
  m_size := UInt16.ofNat (size.toNat + PACKET_HEAD_SIZE)

/-- The bytes of the buffer, as `async_write` takes them. -/
def SendPacket.bytes (p : SendPacket) : Bytes := p.m_data.take p.m_size.toNat

/-- What was copied behind the header. -/
def SendPacket.payload (p : SendPacket) : Bytes := p.m_data.drop PACKET_HEAD_SIZE

/-- A buffer to be received into, always as long as its size says. -/
structure RecvPacket where
  m_data : Bytes
  m_size : UInt16
  full : m_data.length = m_size.toNat

namespace RecvPacket

def create (size : UInt16) : RecvPacket := ⟨List.replicate size.toNat 0, size, by simp⟩

/-- What a read leaves in the buffer: the bytes it transferred, in front. -/
def fill (p : RecvPacket) (bytes : Bytes) : RecvPacket where
  m_data := (bytes ++ p.m_data.drop bytes.length).take p.m_size.toNat
  m_size := p.m_size
  full := by
    have := p.full
    simp only [List.length_take, List.length_append, List.length_drop]
    omega

def clear (p : RecvPacket) : RecvPacket := create p.m_size

/-- A read of the requested length replaces the buffer. -/
theorem fill_data {p : RecvPacket} {bytes : Bytes} (h : bytes.length = p.m_size.toNat) :
    (p.fill bytes).m_data = bytes := by
  have := p.full
  simp only [fill]
  rw [List.drop_eq_nil_of_le (by omega), List.append_nil, ← h, List.take_length]

end RecvPacket

/-- `decode(packet->m_data, packet->m_size)`. -/
def decode (packet : RecvPacket) : Bytes := packet.m_data.take packet.m_size.toNat

@[simp] theorem decode_eq (packet : RecvPacket) : decode packet = packet.m_data := by
  rw [decode, ← packet.full, List.take_length]

/-- The payload size in a received header. -/
def headSize (order : ByteOrder) (head : Bytes) : UInt16 :=
  order.network_to_host_short (shortOfBytes head)

/-- Sessions frame their packets with a four-byte header. -/
def header (order : ByteOrder) : Framing.Header UInt8 where
  width := PACKET_HEAD_SIZE
  size head := (headSize order head).toNat

section

variable (order : ByteOrder) (slack : Slack)

/-- The header of a packet tells the size it was built with, whatever the slack is. -/
theorem headSize_create (data : Bytes) (size : UInt16) :
    headSize order (SendPacket.create order slack data size).m_data = size := by
  simp [headSize, SendPacket.create, List.append_assoc, order.inverse]

theorem payload_create (data : Bytes) (size : UInt16) :
    (SendPacket.create order slack data size).payload = data.take size.toNat := by
  simp [SendPacket.payload, SendPacket.create, PACKET_HEAD_SIZE, shortBytes]

theorem toNat_ofNat_of_le {n : Nat} (h : n ≤ PACKET_MAX_SIZE) : (UInt16.ofNat n).toNat = n := by
  rw [UInt16.toNat_ofNat']
  simp only [PACKET_MAX_SIZE] at h
  omega

/-- Within the size limit a packet is a frame of its data. -/
theorem isFrame_create {data : Bytes} (h : data.length ≤ PACKET_MAX_SIZE) :
    Framing.IsFrame (header order)
      (SendPacket.create order slack data (UInt16.ofNat data.length)).bytes data := by
  have hn := toNat_ofNat_of_le h
  refine ⟨shortBytes (order.host_to_network_short (UInt16.ofNat data.length)) ++
    [slack.1, slack.2], ?_, rfl, ?_⟩
  · have hsize : (UInt16.ofNat (data.length + PACKET_HEAD_SIZE)).toNat = data.length + 4 := by
      rw [UInt16.toNat_ofNat']
      simp only [PACKET_MAX_SIZE, PACKET_HEAD_SIZE] at h ⊢
      omega
    simp only [SendPacket.bytes, SendPacket.create, hn, hsize, List.take_length]
    apply List.take_of_length_le
    simp [shortBytes]
  · simp only [header, headSize]
    rw [shortOfBytes_shortBytes, order.inverse, hn]

end

end NBRaft.Communication
