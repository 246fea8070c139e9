import Mathlib

/-!
# Packets and tokens of the daemons

The daemons of a membership are numbered by their place in the ring.  Messages are handed
to a daemon in pieces of the size of a packet; each piece becomes the body of one packet,
numbered within its message and in the order of all packets of the membership.  Packets are
queued and leave several at a time.

Numbers are those that an `int32` can hold and that are not negative.  Nothing but `maxInt32`
limits them here; whatever would count further ends a daemon, as the overflow of a signed
number is not defined (`Alarm.overflow`).

The header fields that are the same for all packets of a membership (the id of the
membership, the hash of the configuration) and those that the network layer uses for itself
(who transmitted, byte order, routing bits) are left out.
-/

namespace Spread

/-! ## Constants -/

/-- The slots for packets of a daemon, which are addressed by the lower bits of the number. -/
def maxPacketsInStruct : ℕ := 8192

/-- How far the highest number may be ahead of what is received everywhere for a daemon to
send at all. -/
def maxSeqGap : ℕ := 1600

/-- The bytes of one network packet. -/
def maxPacketSize : ℕ := 1472

/-- The buffers of one network packet, on platforms that do not limit them further. -/
def archScatterSize : ℕ := 1024

/-- The pieces of one message. -/
def maxScatterElements : ℕ := 100

theorem one_le_maxScatterElements : 1 ≤ maxScatterElements := by decide

/-- The highest `int32`. -/
def maxInt32 : ℕ := 2 ^ 31 - 1

def sizeofPacketHeader : ℕ := 36
def sizeofTokenHeader : ℕ := 32
def sizeofRingRtr : ℕ := 16
def sizeofInt32 : ℕ := 4

/-- The slot of a packet. -/
def packetEntry (seq : ℕ) : ℕ := seq % maxPacketsInStruct

/-! ## Packets -/

/-- What can be sent: pieces of data with a length in bytes, each short enough for a packet. -/
class Payload (β : Type*) where
  /-- The length. -/
  dataLen : β → ℕ
  dataLen_le : ∀ b, dataLen b ≤ maxPacketSize - sizeofPacketHeader

export Payload (dataLen)

/-- The services that packets are marked with.  A message sent unreliably is sent as a
reliable one. -/
inductive PacketType where
  | reliable
  | fifo
  | agreed
  | safe
deriving DecidableEq, Repr

namespace PacketType

def isReliable : PacketType → Bool
  | reliable => true
  | _ => false

def isSafe : PacketType → Bool
  | safe => true
  | _ => false

end PacketType

/-- A packet: its header and its body. -/
structure Packet (n : ℕ) (β : Type*) where
  type : PacketType
  /-- The daemon that sent it first. -/
  procId : Fin n
  /-- Its number among all packets of the membership, an `int32`. -/
  seq : ℕ
  /-- Its number among the packets of its daemon, an `int32`. -/
  fifoSeq : ℕ
  /-- Its place in the message, from 1; negative for the last packet of the message. -/
  packetIndex : ℤ
  body : β
deriving DecidableEq, Repr

/-- Packets that are delivered regardless of the order: a reliable message in one packet. -/
def Packet.isSingle {n : ℕ} {β : Type*} (p : Packet n β) : Bool :=
  p.type.isReliable && p.packetIndex == -1

/-- A message for sending, in pieces. -/
structure DownLink (β : Type*) where
  type : PacketType
  elements : List β
  /-- There is at least the piece that begins with the message's own header. -/
  elements_ne : elements ≠ []
  elements_few : elements.length ≤ maxScatterElements
deriving DecidableEq, Repr

/-- Whether it will be delivered regardless of the order. -/
def DownLink.isSingle {β : Type*} (m : DownLink β) : Bool :=
  m.type.isReliable && m.elements.length == 1

/-- A message for the sessions, put together again. -/
structure MessageLink (n : ℕ) (β : Type*) where
  type : PacketType
  procId : Fin n
  /-- The number of its last packet. -/
  seq : ℕ
  elements : List β
deriving DecidableEq, Repr

/-- Whether it is delivered regardless of the order. -/
def MessageLink.isSingle {n : ℕ} {β : Type*} (m : MessageLink n β) : Bool :=
  m.type.isReliable && m.elements.length == 1

/-- The message that a packet makes by itself. -/
def Packet.message {n : ℕ} {β : Type*} (p : Packet n β) : MessageLink n β :=
  ⟨p.type, p.procId, p.seq, [p.body]⟩

/-! ## Tokens -/

/-- Requests for retransmission, and who asks: one daemon, one segment, or more. -/
structure RingRtr (n : ℕ) where
  procId : Option (Fin n)
  segIndex : Option ℕ
  /-- The numbers of the missing packets. -/
  seqs : List ℕ
deriving DecidableEq, Repr

/-- The token.  Its numbers are `int32`. -/
structure Token (n : ℕ) where
  /-- The round, as far as four bits tell. -/
  arq : ℕ
  /-- How often the round was repeated, as far as four bits tell. -/
  retrans : ℕ
  /-- The highest number in use. -/
  seq : ℕ
  /-- The number up to which all is supposed to be received everywhere. -/
  aru : ℕ
  /-- The daemon that set it last, if it is one of the membership. -/
  aruLastId : Option (Fin n)
  /-- The number of packets sent during the last round. -/
  flowControl : ℤ
  rtr : List (RingRtr n)
deriving DecidableEq, Repr

/-- The value that is left when a number is stored in 16 bits. -/
def int16 (k : ℤ) : ℤ := k.bmod (2 ^ 16)

/-! ## Packing -/

/-- Packets that wait to leave together. -/
structure QueueScat (n : ℕ) (β : Type*) where
  packs : List (Packet n β)
  numElements : ℕ
  queuedBytes : ℕ
  /-- Whether the sends to come have a positive result, as far as it is given; later ones have. -/
  results : List Bool
deriving DecidableEq, Repr

namespace QueueScat

variable {n : ℕ} {β : Type*}

/-- The empty queue. -/
def empty (results : List Bool) : QueueScat n β := ⟨[], 0, 0, results⟩

/-- The bytes of padding before the next packet. -/
def alignBytes (q : QueueScat n β) : ℕ := (4 - q.queuedBytes % 4) % 4

/-- The buffers of padding before the next packet. -/
def alignNumScatter (q : QueueScat n β) : ℕ := if q.queuedBytes % 4 = 0 then 0 else 1

/-- What the next send counts for: 1 if its result is positive. -/
def sent (q : QueueScat n β) : ℕ := (q.results.headD true).toNat

/-- `Net_flush_bcast`: the queue that is left, what leaves, and what it counts for.  There is
one send for each of some segments and one to all, and the result is that of the last: what
leaves may get somewhere whatever the result is. -/
def netFlushBcast (q : QueueScat n β) : QueueScat n β × List (List (Packet n β)) × ℕ :=
  if q.queuedBytes = 0 then (q, [], 0) else (empty q.results.tail, [q.packs], q.sent)

/-- `Net_ucast` and `Net_scast`: a packet leaves by itself. -/
def netUcast (q : QueueScat n β) (p : Packet n β) :
    QueueScat n β × List (List (Packet n β)) × ℕ :=
  ({ q with results := q.results.tail }, [[p]], q.sent)

variable [Payload β]

/-- `Net_queue_bcast`: a packet joins the queue, after the packets that wait have left if it
does not fit. -/
def netQueueBcast (q : QueueScat n β) (p : Packet n β) :
    QueueScat n β × List (List (Packet n β)) × ℕ :=
  let newBytes := sizeofPacketHeader + dataLen p.body
  if maxPacketSize < q.queuedBytes + newBytes + q.alignBytes ∨
      archScatterSize < q.numElements + 2 + q.alignNumScatter then
    let (q, out, ret) := q.netFlushBcast
    (⟨q.packs ++ [p], q.numElements + 2, q.queuedBytes + newBytes, q.results⟩, out, ret)
  else
    (⟨q.packs ++ [p], q.numElements + q.alignNumScatter + 2,
      q.queuedBytes + q.alignBytes + newBytes, q.results⟩, [], 0)

end QueueScat

end Spread
