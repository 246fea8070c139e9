import ReplicatedBank.Spread.Packet

/-!
# The protocol of a daemon

The part of a daemon that orders and delivers packets while the membership is stable: what it
does with network packets, with the token, with new messages of its sessions and with a
request to send the token again.  `Alarm(EXIT, ...)` ends the daemon; it is the exception
of the exception monad.

The results of the sends during a visit of the token are given from outside, since the daemon
counts what it has sent by them.  Additions that could exceed an `int32` are checked; where
they would, a daemon ends (`Alarm.overflow`), though the program goes on in a way that C does
not define.  There are no monitors, no requests of other rings on the token, and no changes of
the membership.
-/

namespace Spread

variable {n : ℕ} {β : Type*}

/-- What ends a daemon. -/
inductive Alarm where
  /-- `Deliver_packet: sequence error`. -/
  | sequenceError (packetIndex : ℤ) (expected : ℕ)
  /-- `Deliver_agreed_packets: Error, exist is 0`. -/
  | notExistAgreed (seq : ℕ)
  /-- `Discard_packets: (NOT EVS) packet not exist`. -/
  | notExistDiscard (seq : ℕ)
  /-- `Answer_retrans: retrans requested while Aru`. -/
  | retransBelowAru (seq aru : ℕ)
  /-- `Send_new_packets: error in packet index`. -/
  | packetIndexError (curElement numElements : ℕ)
  /-- `Send_new_packets: created packet already exist`. -/
  | alreadyExists (seq : ℕ)
  /-- A signed number is too high. -/
  | overflow
deriving DecidableEq, Repr

/-- A daemon's place in the configuration. -/
structure Proc (n : ℕ) where
  id : Fin n
  segIndex : ℕ
deriving DecidableEq, Repr

/-- A slot in use. -/
structure PacketInfo (n : ℕ) (β : Type*) where
  head : Packet n β
  /-- Whether `exist` is 2. -/
  delivered : Bool
deriving DecidableEq, Repr

/-- The state of a daemon.  Its numbers and counters are `int32`, and are checked where they
grow; counters that are only reported are left out. -/
structure Daemon (n : ℕ) (β : Type*) where
  my : Proc n
  /-- The slots. -/
  packets : ℕ → Option (PacketInfo n β)
  /-- The messages that are being put together: one of each daemon, and one in place of
  `MAX_PROCS_RING`. -/
  upQueue : Option (Fin n) → Option (List β)
  /-- The messages that wait to be sent. -/
  downQueue : List (DownLink β)
  /-- The pieces of the first of them that have been sent. -/
  curElement : ℕ
  /-- The highest number known. -/
  highestSeq : ℕ
  highestFifoSeq : ℕ
  /-- The number up to which all is received here. -/
  myAru : ℕ
  /-- The number up to which all is taken to be received everywhere. -/
  aru : ℕ
  /-- The number that this daemon set on the token, if it did. -/
  setAru : Option ℕ
  lastDiscarded : ℕ
  lastDelivered : ℕ
  /-- The rounds during which nothing was outstanding. -/
  tokenCounter : ℕ
  /-- The token as it was passed on last. -/
  lastToken : Token n
  lastNumRetrans : ℕ
  lastNumSent : ℕ
  /-- What the sessions have been given. -/
  messages : List (MessageLink n β)

/-- What leaves a daemon. -/
structure Output (n : ℕ) (β : Type*) where
  /-- Network packets, each with one or more packets. -/
  packets : List (List (Packet n β)) := []
  /-- Tokens, to the next daemon. -/
  tokens : List (Token n) := []
  /-- Whether the leader is asked to send the token that it holds. -/
  hurry : Bool := false

namespace Daemon

/-! ## Delivery -/

/-- `Deliver_packet`: the packet in a slot joins its message, which is complete with the last
packet. -/
def deliverPacket (d : Daemon n β) (entry : ℕ) (info : PacketInfo n β) :
    Except Alarm (Daemon n β) :=
  let p := info.head
  let procIndex := if p.isSingle then none else some p.procId
  let mess := (d.upQueue procIndex).getD []
  if mess.length + 1 ≠ p.packetIndex.natAbs then
    .error (.sequenceError p.packetIndex (mess.length + 1))
  else
    let packets := Function.update d.packets entry (some { info with delivered := true })
    let mess := mess ++ [p.body]
    if p.packetIndex < 0 then
      .ok { d with
        packets
        upQueue := Function.update d.upQueue procIndex none
        messages := d.messages ++ [⟨p.type, p.procId, p.seq, mess⟩] }
    else .ok { d with packets, upQueue := Function.update d.upQueue procIndex (some mess) }

/-- One round of the loop of `Deliver_reliable_packets`. -/
def deliverReliablePacket (d : Daemon n β) (seq : ℕ) : Except Alarm (Daemon n β) :=
  match d.packets (packetEntry seq) with
  | none => .ok d
  | some info =>
      if !info.delivered && info.head.isSingle then d.deliverPacket (packetEntry seq) info
      else .ok d

/-- `Deliver_reliable_packets`. -/
def deliverReliablePackets (d : Daemon n β) (startSeq numPackets : ℕ) :
    Except Alarm (Daemon n β) :=
  let start := max startSeq (d.lastDelivered + 1)
  (List.range' start (startSeq + numPackets - start)).foldlM deliverReliablePacket d

/-- The loop of `Deliver_agreed_packets`, for at most the given number of packets. -/
def deliverAgreedLoop : ℕ → Daemon n β → Except Alarm (Daemon n β)
  | 0, d => .ok d
  | k + 1, d =>
      let entry := packetEntry (d.lastDelivered + 1)
      match d.packets entry with
      | none => .error (.notExistAgreed (d.lastDelivered + 1))
      | some info =>
          if info.delivered then
            deliverAgreedLoop k { d with lastDelivered := d.lastDelivered + 1 }
          else if info.head.type.isSafe then .ok d
          else do
            let d ← d.deliverPacket entry info
            deliverAgreedLoop k { d with lastDelivered := d.lastDelivered + 1 }

/-- `Deliver_agreed_packets`: in order, up to the first safe packet. -/
def deliverAgreedPackets (d : Daemon n β) : Except Alarm (Daemon n β) :=
  deliverAgreedLoop (d.myAru - d.lastDelivered) d

/-- One round of the loop of `Discard_packets`. -/
def discardPacket (d : Daemon n β) (seq : ℕ) : Except Alarm (Daemon n β) :=
  let entry := packetEntry seq
  match d.packets entry with
  | none => .error (.notExistDiscard seq)
  | some info => do
      let d ← if info.delivered then .ok d else d.deliverPacket entry info
      return { d with packets := Function.update d.packets entry none }

/-- `Discard_packets`: what is received everywhere is delivered if it was not, and given up. -/
def discardPackets (d : Daemon n β) : Except Alarm (Daemon n β) :=
  if d.aru ≤ d.lastDiscarded then .ok d
  else do
    let d ← (List.range' (d.lastDiscarded + 1) (d.aru - d.lastDiscarded)).foldlM discardPacket d
    return { d with lastDiscarded := d.aru, lastDelivered := max d.lastDelivered d.aru }

/-! ## Receiving packets -/

/-- The loop that moves `My_aru` over the packets that are there. -/
def advanceLoop : ℕ → Daemon n β → Daemon n β
  | 0, d => d
  | k + 1, d =>
      if (d.packets (packetEntry (d.myAru + 1))).isSome then
        advanceLoop k { d with myAru := d.myAru + 1 }
      else d

/-- `My_aru` moves up to the first packet that is missing. -/
def advanceMyAru (d : Daemon n β) : Daemon n β := advanceLoop (d.highestSeq - d.myAru) d

/-- One round of the loop of `Prot_handle_bcast`. -/
def insertPacket (d : Daemon n β) (p : Packet n β) : Except Alarm (Daemon n β) :=
  if p.seq ≤ d.aru then .ok d
  else if (d.packets (packetEntry p.seq)).isSome then .ok d
  else
    let d := { d with
      packets := Function.update d.packets (packetEntry p.seq) (some ⟨p, false⟩)
      highestSeq := max d.highestSeq p.seq }
    if p.seq = d.myAru + 1 then d.advanceMyAru.deliverAgreedPackets
    else d.deliverReliablePackets p.seq 1

/-- `Prot_handle_bcast`: the regular packets of one network packet. -/
def protHandleBcast (d : Daemon n β) (ps : List (Packet n β)) : Except Alarm (Daemon n β) :=
  ps.foldlM insertPacket d

/-! ## The token: retransmissions -/

/-- What `Answer_retrans` has done so far. -/
structure Answer (n : ℕ) (β : Type*) where
  numRetrans : ℕ
  /-- Who lacks what could not be answered. -/
  procId : Option (Fin n)
  segIndex : Option ℕ
  queue : QueueScat n β
  packets : List (List (Packet n β))

variable [Payload β]

/-- One round of the inner loop of `Answer_retrans`: to one daemon and to one segment the
packet is sent by itself, to all it is queued.  What is sent counts if the result is
positive. -/
def answerRequest (d : Daemon n β) (rtr : RingRtr n) (a : Answer n β) (seq : ℕ) :
    Except Alarm (Answer n β) :=
  if seq < d.aru then .error (.retransBelowAru seq d.aru)
  else match d.packets (packetEntry seq) with
    | none =>
        .ok { a with
          procId := none
          segIndex := if rtr.segIndex = some d.my.segIndex then a.segIndex else none }
    | some info =>
        let (queue, out, ret) :=
          if rtr.procId.isSome || rtr.segIndex.isSome then a.queue.netUcast info.head
          else a.queue.netQueueBcast info.head
        .ok { a with
          queue
          packets := a.packets ++ out
          numRetrans := a.numRetrans + ret }

/-- `Answer_retrans`, with the results of the sends to come. -/
def answerRetrans (d : Daemon n β) (t : Token n) (results : List Bool) :
    Except Alarm (Answer n β) := do
  let a ← t.rtr.foldlM (fun a rtr ↦ rtr.seqs.foldlM (d.answerRequest rtr) a)
    ⟨0, some d.my.id, some d.my.segIndex, .empty results, []⟩
  let (queue, out, ret) := a.queue.netFlushBcast
  return { a with queue, packets := a.packets ++ out, numRetrans := a.numRetrans + ret }

omit [Payload β] in
/-- The requests that fit on the token. -/
def retransAllowed : ℕ :=
  (maxPacketSize - sizeofTokenHeader - sizeofRingRtr) / sizeofInt32

omit [Payload β] in
/-- The requests of this daemon: what is missing among the numbers that follow `My_aru`. -/
def requests (d : Daemon n β) (procId : Option (Fin n)) (segIndex : Option ℕ) :
    List (RingRtr n) :=
  if d.myAru < d.highestSeq then
    let asked := List.range' (d.myAru + 1) (min (d.highestSeq - d.myAru) retransAllowed)
    [⟨procId, segIndex, asked.filter fun seq ↦ (d.packets (packetEntry seq)).isNone⟩]
  else []

/-! ## The token: new packets -/

/-- The number of network packets that may be sent in all during a round. -/
def window : ℤ := 60

/-- The number of network packets that one daemon may send. -/
def personalWindow : ℤ := 15

omit [Payload β] in
/-- `FC_allowed`. -/
def fcAllowed (d : Daemon n β) (flowControl : ℤ) : Except Alarm ℕ :=
  if maxInt32 < d.aru + maxSeqGap then .error .overflow
  else if d.aru + maxSeqGap < d.highestSeq then .ok 0
  else .ok
    (min (min (max (window + personalWindow - flowControl) 0) window) personalWindow).toNat

/-- What `Send_new_packets` has done so far. -/
structure Sending (n : ℕ) (β : Type*) where
  daemon : Daemon n β
  queue : QueueScat n β
  packets : List (List (Packet n β))
  numSent : ℕ
  /-- The packets that were made. -/
  created : List (Packet n β)

omit [Payload β] in
/-- The next packet, if there is a message for sending, and the messages and the pieces that
remain.  The highest `int32` is not used as a number, since loops over the numbers count one
further. -/
def nextPacket (d : Daemon n β) (m : DownLink β) (rest : List (DownLink β)) :
    Except Alarm (Packet n β × Daemon n β) :=
  let curElement := d.curElement + 1
  if maxInt32 ≤ d.highestSeq + 1 ∨ maxInt32 ≤ d.highestFifoSeq + 1 then .error .overflow
  else match m.elements[d.curElement]? with
  | none => .error (.packetIndexError curElement m.elements.length)
  | some body =>
      let p : Packet n β := {
        type := m.type
        procId := d.my.id
        seq := d.highestSeq + 1
        fifoSeq := d.highestFifoSeq + 1
        packetIndex := if curElement < m.elements.length then curElement else -m.elements.length
        body }
      let d := { d with
        highestSeq := d.highestSeq + 1
        highestFifoSeq := d.highestFifoSeq + 1 }
      if curElement < m.elements.length then .ok (p, { d with curElement })
      else .ok (p, { d with downQueue := rest, curElement := 0 })

/-- One round of the loop of `Send_new_packets`, with a message for sending. -/
def sendNewPacket (s : Sending n β) (m : DownLink β) (rest : List (DownLink β)) :
    Except Alarm (Sending n β) := do
  let (p, d) ← s.daemon.nextPacket m rest
  let (queue, out, ret) := s.queue.netQueueBcast p
  if (d.packets (packetEntry p.seq)).isSome then .error (.alreadyExists p.seq)
  else
    return {
      daemon := { d with
        packets := Function.update d.packets (packetEntry p.seq) (some ⟨p, false⟩) }
      queue
      packets := s.packets ++ out
      numSent := s.numSent + ret
      created := s.created ++ [p] }

/-- The loop of `Send_new_packets`, for at most the given number of packets. -/
def sendLoop (numAllowed : ℕ) : ℕ → Sending n β → Except Alarm (Sending n β)
  | 0, s => .ok s
  | k + 1, s =>
      if s.numSent < numAllowed then
        match s.daemon.downQueue with
        | [] => .ok s
        | m :: rest => do
            let s ← sendNewPacket s m rest
            sendLoop numAllowed k s
      else .ok s

omit [Payload β] in
/-- The pieces that wait to be sent. -/
def pending (d : Daemon n β) : ℕ := (d.downQueue.map fun m ↦ m.elements.length).sum

/-- `Send_new_packets`.  Each round of the loop sends one of the pieces that wait. -/
def sendNewPackets (d : Daemon n β) (queue : QueueScat n β) (numAllowed : ℕ) :
    Except Alarm (Sending n β) := do
  let s ← sendLoop numAllowed d.pending ⟨d, queue, [], 0, []⟩
  let (queue, out, ret) := s.queue.netFlushBcast
  return { s with queue, packets := s.packets ++ out, numSent := s.numSent + ret }

/-! ## The token -/

section

omit [Payload β]

variable [NeZero n]

/-- Whether the daemon is the leader of the membership, the first on the ring. -/
def isLeader (d : Daemon n β) : Bool := d.my.id == 0

/-- `Is_token_hold` and `To_hold_token`: nothing is outstanding, for some rounds now. -/
def isTokenHold (d : Daemon n β) : Bool :=
  d.lastToken.retrans ≤ 1 && d.aru == d.highestSeq && 1 < d.tokenCounter

/-- How often a token is sent: a round that was repeated is in trouble. -/
def copies (t : Token n) : List (Token n) := List.replicate (if 1 < t.retrans then 3 else 1) t

/-- `Prot_token_hurry`: the token is sent again, without requests. -/
def protTokenHurry (d : Daemon n β) : Daemon n β × Output n β :=
  let t := { d.lastToken with
    rtr := []
    retrans := if d.isLeader then (d.lastToken.retrans + 1) % 16 else d.lastToken.retrans }
  ({ d with lastToken := t }, { tokens := copies t })

/-- `Handle_hurry`: the leader sends the token that it holds. -/
def handleHurry (d : Daemon n β) : Daemon n β × Output n β :=
  if d.isLeader && d.isTokenHold then d.protTokenHurry else (d, {})

/-- `Prot_new_message`. -/
def protNewMessage (d : Daemon n β) (m : DownLink β) : Daemon n β × Output n β :=
  let d := { d with downQueue := d.downQueue ++ [m] }
  if d.downQueue.length == 1 && d.isTokenHold then
    if d.isLeader then d.handleHurry else (d, { hurry := true })
  else (d, {})

/-- What a daemon does with a token that arrives. -/
inductive Verdict where
  /-- Nothing: it was here before, or is very outdated. -/
  | swallow
  /-- The token that was passed on last is sent again. -/
  | resend (retrans : ℕ)
  /-- The token is handled. -/
  | handle
deriving DecidableEq, Repr

/-- The checks of `Prot_handle_token`. -/
def verdict (d : Daemon n β) (t : Token n) : Verdict :=
  if d.isLeader then if t.arq ≠ d.lastToken.arq then .swallow else .handle
  else if t.arq = d.lastToken.arq then
    if d.lastToken.retrans < t.retrans then .resend t.retrans else .swallow
  else if t.arq ≠ (d.lastToken.arq + 1) % 16 then .swallow
  else .handle

/-- `Token->aru` and `Set_aru`. -/
def updateAru (d : Daemon n β) (t : Token n) : Token n × Option ℕ :=
  if some t.aru = d.setAru ∨ t.aruLastId = some d.my.id ∨ t.aru = t.seq then
    ({ t with aru := d.myAru, aruLastId := some d.my.id },
      if d.myAru < d.highestSeq then some d.myAru else none)
  else if d.myAru < t.aru then
    ({ t with aru := d.myAru, aruLastId := some d.my.id }, some d.myAru)
  else (t, none)

/-- The token as it is passed on: after `Answer_retrans` and `Send_new_packets`, when `My_aru`
is up to date. -/
def nextToken (d : Daemon n β) (t : Token n) (flowControl : ℤ) (rtr : List (RingRtr n)) :
    Token n :=
  { (d.updateAru t).1 with
    flowControl
    rtr
    seq := d.highestSeq
    arq := if d.isLeader then (t.arq + 1) % 16 else t.arq
    retrans := if d.isLeader then 0 else t.retrans }

/-- The token that was passed on is remembered: `Aru` is what it and the one before agree on. -/
def rememberToken (d : Daemon n β) (t : Token n) (setAru : Option ℕ) :
    Except Alarm (Daemon n β) :=
  let aru := if d.lastToken.aru < t.aru then d.lastToken.aru else t.aru
  if d.highestSeq = aru then
    if maxInt32 ≤ d.tokenCounter then .error .overflow
    else .ok { d with setAru, aru, tokenCounter := d.tokenCounter + 1, lastToken := t }
  else .ok { d with setAru, aru, tokenCounter := 0, lastToken := t }

/-- The token is passed on, unless the leader holds it. -/
def passToken (d : Daemon n β) (t : Token n) (a : Answer n β) (numSent : ℕ) :
    Except Alarm (Daemon n β × List (Token n)) := do
  let flowControl := int16 (t.flowControl - d.lastNumRetrans - d.lastNumSent
    + a.numRetrans + numSent)
  let d := advanceMyAru { d with lastNumRetrans := a.numRetrans, lastNumSent := numSent }
  let next := d.nextToken t flowControl (d.requests a.procId a.segIndex)
  let tokens := if d.isLeader && d.isTokenHold then [] else copies next
  let d ← d.rememberToken next (d.updateAru t).2
  return (d, tokens)

end

variable [NeZero n]

/-- The work of a visit: retransmissions and new packets, the token, and delivery; also the
packets that were made. -/
def workToken (d : Daemon n β) (t : Token n) (results : List Bool) :
    Except Alarm (Daemon n β × Output n β × List (Packet n β)) := do
  let a ← d.answerRetrans t results
  let s ← match d.fcAllowed t.flowControl with
    | .error alarm => .error alarm
    | .ok numAllowed => d.sendNewPackets a.queue numAllowed
  let (d, tokens) ← s.daemon.passToken t a s.numSent
  let d ← d.discardPackets
  let d ← d.deliverAgreedPackets
  let d ← d.deliverReliablePackets (d.highestSeq - s.numSent + 1) s.numSent
  return (d, { packets := a.packets ++ s.packets, tokens }, s.created)

/-- `Prot_handle_token`, for a token that is to be handled. -/
def handleToken (d : Daemon n β) (t : Token n) (results : List Bool) :
    Except Alarm (Daemon n β × Output n β × List (Packet n β)) :=
  workToken { d with highestSeq := max d.highestSeq t.seq } t results

/-- `Prot_handle_token`, with the results of the sends to come. -/
def protHandleToken (d : Daemon n β) (t : Token n) (results : List Bool) :
    Except Alarm (Daemon n β × Output n β × List (Packet n β)) :=
  match d.verdict t with
  | .swallow => .ok (d, {}, [])
  | .resend retrans =>
      let (d, out) := protTokenHurry { d with lastToken := { d.lastToken with retrans } }
      .ok (d, out, [])
  | .handle => d.handleToken t results

end Daemon

end Spread
